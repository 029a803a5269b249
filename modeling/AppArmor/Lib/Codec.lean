import Mathlib.Data.List.Basic
import Mathlib.Data.UInt
import Mathlib.Tactic

namespace AppArmor.Codec

open List Nat

abbrev Bytes := List UInt8

def leBytes : ℕ → ℕ → Bytes
  | 0, _ => []
  | w + 1, n => UInt8.ofNat n :: leBytes w (n / 256)

def leValue : Bytes → ℕ
  | [] => 0
  | b :: bs => b.toNat + 256 * leValue bs

def beBytes (w n : ℕ) : Bytes := (leBytes w n).reverse

def beValue (bs : Bytes) : ℕ := leValue bs.reverse

@[simp] theorem length_leBytes (w n : ℕ) : (leBytes w n).length = w := by
  induction w generalizing n with
  | zero => rfl
  | succ w ih => rw [leBytes, length_cons, ih]

@[simp] theorem length_beBytes (w n : ℕ) : (beBytes w n).length = w := by
  rw [beBytes, length_reverse, length_leBytes]

theorem leValue_leBytes (w n : ℕ) : leValue (leBytes w n) = n % 256 ^ w := by
  induction w generalizing n with
  | zero => rw [pow_zero, mod_one]; rfl
  | succ w ih =>
    rw [leBytes, leValue, ih, pow_succ', mod_mul]
    rfl

theorem beValue_beBytes (w n : ℕ) : beValue (beBytes w n) = n % 256 ^ w := by
  rw [beValue, beBytes, reverse_reverse, leValue_leBytes]

structure Input where
  pos : ℕ
  rest : Bytes

abbrev Reader := StateT Input Option

variable {α β : Type} {r : Reader α} {p : ℕ} {bs bs' : Bytes} {a : α}

def reject : Reader α := fun _ => none

def bytes (n : ℕ) : Reader Bytes := fun i =>
  if n ≤ i.rest.length then some (i.rest.take n, ⟨i.pos + n, i.rest.drop n⟩) else none

def position : Reader ℕ := fun i => some (i.pos, i)

def leNat (w : ℕ) : Reader ℕ := return leValue (← bytes w)

def beNat (w : ℕ) : Reader ℕ := return beValue (← bytes w)

def many (r : Reader α) : ℕ → Reader (List α)
  | 0 => return []
  | n + 1 => return (← r) :: (← many r n)

def padding (k pos : ℕ) : ℕ := (k - pos % k) % k

def align (k : ℕ) : Reader Unit := do
  let pos ← position
  let _ ← bytes (padding k pos)

def untilEnd (r : Reader α) : ℕ → Reader (List α)
  | 0 => fun i => if i.rest = [] then some ([], i) else none
  | fuel + 1 => fun i => if i.rest = [] then some ([], i) else (return (← r) :: (← untilEnd r fuel) : Reader (List α)) i

def decode (r : Reader α) (bs : Bytes) : Option α := do
  let (a, i) ← r ⟨0, bs⟩
  if i.rest = [] then some a else none

variable {f : α → Reader β} {i j : Input}

theorem bind_eq (h : r i = some (a, j)) : (r >>= f) i = f a j := by
  change (r i).bind _ = _
  rw [h]
  rfl

theorem bind_eq_some {b : β} {k : Input} (h : (r >>= f) i = some (b, k)) :
    ∃ a j, r i = some (a, j) ∧ f a j = some (b, k) := by
  change (r i).bind _ = _ at h
  obtain ⟨⟨a, j⟩, hr, hf⟩ := Option.bind_eq_some_iff.mp h
  exact ⟨a, j, hr, hf⟩

theorem pure_eq_some {b : α} (h : (Pure.pure a : Reader α) i = some (b, j)) : a = b := by
  change some (a, i) = some (b, j) at h
  cases h
  rfl

theorem length_of_bytes {n : ℕ} (h : bytes n i = some (bs, j)) : bs.length = n := by
  unfold bytes at h
  split_ifs at h with hn
  cases h
  exact length_take_of_le hn

theorem leValue_lt (bs : Bytes) : leValue bs < 256 ^ bs.length := by
  induction bs with
  | nil => exact one_pos
  | cons b bs ih =>
    have hb := b.toNat_lt
    rw [leValue, length_cons, pow_succ]
    omega

theorem leNat_lt {w n : ℕ} (h : leNat w i = some (n, j)) : n < 256 ^ w := by
  obtain ⟨bs, k, hbs, hn⟩ := bind_eq_some h
  rw [← pure_eq_some hn, ← length_of_bytes hbs]
  exact leValue_lt bs

def Reads (r : Reader α) (p : ℕ) (bs : Bytes) (a : α) : Prop :=
  ∀ rest, r ⟨p, bs ++ rest⟩ = some (a, ⟨p + bs.length, rest⟩)

theorem Reads.pure (a : α) (p : ℕ) : Reads (Pure.pure a : Reader α) p [] a := fun _ => rfl

theorem Reads.bind {b : β} (h : Reads r p bs a) (h' : Reads (f a) (p + bs.length) bs' b) :
    Reads (r >>= f) p (bs ++ bs') b := by
  intro rest
  have hr := h (bs' ++ rest)
  rw [← append_assoc] at hr
  rw [bind_eq hr, h' rest, length_append, add_assoc]

theorem Reads.congr {a' : α} (h : Reads r p bs a) (hbs : bs' = bs) (ha : a' = a) :
    Reads r p bs' a' := by
  rw [hbs, ha]
  exact h

theorem Reads.map {b : β} (h : Reads r p bs a) (f : α → β) (hb : b = f a) :
    Reads (do let a ← r; Pure.pure (f a)) p bs b :=
  (h.bind (Reads.pure (f a) _)).congr (append_nil bs).symm hb

theorem reads_bytes (bs : Bytes) (p n : ℕ) (h : bs.length = n) : Reads (bytes n) p bs bs := by
  intro rest
  rw [bytes, if_pos (by rw [length_append]; omega), ← h, take_left, drop_left]

theorem reads_position (p : ℕ) : Reads position p [] p := fun _ => rfl

theorem reads_leNat (w n p : ℕ) : Reads (leNat w) p (leBytes w n) (n % 256 ^ w) :=
  (reads_bytes _ p w (length_leBytes w n)).map leValue (leValue_leBytes w n).symm

theorem reads_beNat (w n p : ℕ) : Reads (beNat w) p (beBytes w n) (n % 256 ^ w) :=
  (reads_bytes _ p w (length_beBytes w n)).map beValue (beValue_beBytes w n).symm

theorem Reads.many {enc : β → Bytes} {val : β → α} (h : ∀ b p, Reads r p (enc b) (val b)) (l : List β) (p : ℕ) :
    Reads (many r l.length) p (l.flatMap enc) (l.map val) := by
  induction l generalizing p with
  | nil => exact Reads.pure [] p
  | cons b l ih =>
    rw [flatMap_cons, map_cons]
    exact (h b p).bind ((ih _).map (val b :: ·) rfl)

theorem reads_align (k p : ℕ) (bs : Bytes) (h : bs.length = padding k p) : Reads (align k) p bs () := by
  have h' : Reads (do let _ ← bytes (padding k p) : Reader Unit) p bs () := (reads_bytes bs p _ h).map (fun _ => ()) rfl
  exact ((reads_position p).bind h').congr (nil_append bs).symm rfl

def ReadsEach (r : Reader α) : ℕ → List (Bytes × α) → Prop
  | _, [] => True
  | p, (bs, a) :: l => bs ≠ [] ∧ Reads r p bs a ∧ ReadsEach r (p + bs.length) l

theorem untilEnd_eq {l : List (Bytes × α)} (h : ReadsEach r p l) {fuel : ℕ} (hf : l.length ≤ fuel) :
    untilEnd r fuel ⟨p, l.flatMap Prod.fst⟩ = some (l.map Prod.snd, ⟨p + (l.flatMap Prod.fst).length, []⟩) := by
  induction l generalizing p fuel with
  | nil => cases fuel <;> rfl
  | cons x l ih =>
    obtain ⟨bs, a⟩ := x
    obtain ⟨hne, hread, hrest⟩ := h
    cases fuel with
    | zero => cases hf
    | succ fuel =>
      have hcons : bs ++ l.flatMap Prod.fst ≠ [] := fun he => hne (append_eq_nil_iff.mp he).1
      rw [flatMap_cons, untilEnd]
      dsimp only
      rw [if_neg hcons]
      rw [bind_eq (hread _), bind_eq (ih hrest (le_of_succ_le_succ hf)), length_append, add_assoc]
      rfl

end AppArmor.Codec

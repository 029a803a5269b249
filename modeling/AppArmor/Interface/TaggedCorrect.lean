import AppArmor.Interface.Tagged

namespace AppArmor.Interface

open Codec List

mutual

def Item.size : Item → ℕ
  | .struct _ items => itemsSize items
  | .array _ _ items => itemsSize items
  | _ => 0

def itemsSize : List Item → ℕ
  | [] => 1
  | x :: xs => max x.size (itemsSize xs) + 1

end

theorem itemsSize_le {xs : List Item} (h : ∀ x ∈ xs, ∀ p, x.size < (x.put p).length) (p : ℕ) :
    itemsSize xs ≤ (putItems xs p).length + 1 := by
  induction xs generalizing p with
  | nil => exact le_rfl
  | cons x xs ih =>
    obtain ⟨hx, hxs⟩ := forall_mem_cons.mp h
    have h₁ := hx p
    have h₂ := ih hxs (p + (x.put p).length)
    rw [itemsSize, putItems, Put.append_apply, length_append]
    omega

theorem Item.size_lt (x : Item) (p : ℕ) : x.size < (x.put p).length := by
  induction x using Item.induct generalizing p with
  | num name w n => simp [Item.size, Item.put, sdWriteUint, sdWriteCode, Put.append_apply]
  | str name b => simp [Item.size, Item.put, sdWriteStrn, sdWriteCode, Put.append_apply]
  | blob name b => simp [Item.size, Item.put, sdWriteAlignedBlob, sdWriteCode, Put.append_apply]
  | struct name xs ih =>
    have h := itemsSize_le ih (p + (sdWriteStruct name p).length)
    simp only [Item.size, Item.put, Put.append_apply, length_append, sdWriteStruct, sdWriteStructend, sdWriteCode,
      length_singleton] at h ⊢
    omega
  | array name count xs ih =>
    have h := itemsSize_le ih (p + (sdWriteArray name count p).length)
    simp only [Item.size, Item.put, Put.append_apply, length_append, sdWriteArray, sdWriteArrayend, sdWriteCode,
      length_singleton] at h ⊢
    omega

section Pieces

variable {p : ℕ}

theorem reads_code (code : SdCode) (p : ℕ) : Reads readCode p [code.toByte] code := by
  refine (reads_bytes [code.toByte] p 1 rfl).bind ?_
  rw [head?_cons, Option.bind_some, SdCode.ofByte_toByte]
  exact Reads.pure code _

theorem reads_sized (w : ℕ) (b : Bytes) (hb : b.length < 256 ^ w) (p : ℕ) :
    Reads (readSized w) p (leBytes w b.length ++ b) b := by
  have h := reads_leNat w b.length p
  rw [Nat.mod_eq_of_lt hb] at h
  exact h.bind (reads_bytes b _ _ rfl)

theorem reads_blob (b : Bytes) (hb : b.length + 7 < 2 ^ 32) (p : ℕ) :
    Reads readBlob p (leBytes 4 (b.length + padding 8 (p + 4)) ++ (List.replicate (padding 8 (p + 4)) 0 ++ b)) b := by
  have hpad : padding 8 (p + 4) < 8 := Nat.mod_lt _ (by decide)
  have h := reads_leNat 4 (b.length + padding 8 (p + 4)) p
  rw [Nat.mod_eq_of_lt (show _ < 256 ^ 4 by omega)] at h
  apply h.bind
  rw [length_leBytes]
  have hrest : Reads (do
      let _ ← bytes (padding 8 (p + 4))
      bytes (b.length + padding 8 (p + 4) - padding 8 (p + 4))) (p + 4)
      (replicate (padding 8 (p + 4)) 0 ++ b) b := by
    rw [Nat.add_sub_cancel]
    exact (reads_bytes _ _ _ length_replicate).bind (reads_bytes b _ _ rfl)
  refine ((reads_position (p + 4)).bind ?_).congr (nil_append _).symm rfl
  rw [if_neg (by omega)]
  exact hrest

def firstCode (name : Option Bytes) (code : SdCode) : SdCode := if name.isSome then .name else code

theorem putName_eq (name : Option Bytes) (code : SdCode) (p : ℕ) :
    ∃ tail, (sdWriteName name ++ sdWriteCode code) p = (firstCode name code).toByte :: tail ∧
      ((∀ b ∈ name, b.length + 1 < 2 ^ 16) → code ≠ .name → Reads (readName (firstCode name code)) (p + 1) tail (name, code)) := by
  cases name with
  | none =>
    refine ⟨[], rfl, fun _ hcode => ?_⟩
    cases code with
    | name => exact absurd rfl hcode
    | _ => exact Reads.pure _ _
  | some name =>
    refine ⟨leBytes 2 (name.length + 1) ++ (name ++ [0]) ++ [code.toByte], ?_, fun hname _ => ?_⟩
    · rfl
    · have hlen : (name ++ [0]).length < 256 ^ 2 := by
        have := hname name rfl
        rw [length_append, length_singleton]
        omega
      have h := reads_sized 2 (name ++ [0]) hlen (p + 1)
      rw [length_append, length_singleton] at h
      refine h.bind ((reads_code code _).map (fun code => (some (name ++ [0]).dropLast, code)) ?_)
      rw [dropLast_concat]

end Pieces

variable {items : SdCode → Reader (List Item)}

variable {name : Option Bytes} {x : Item}

theorem reads_named {code : SdCode} {put : Put} (hcode : code ≠ .name)
    (hname : ∀ b ∈ name, b.length + 1 < 2 ^ 16) (p : ℕ)
    (hbody : ∀ q, Reads (readBody items name code) q (put q) x) :
    ∃ tail, (sdWriteName name ++ sdWriteCode code ++ put) p = (firstCode name code).toByte :: tail ∧
      Reads (readFrom items (firstCode name code)) (p + 1) tail x := by
  obtain ⟨tail, htail, hread⟩ := putName_eq name code p
  refine ⟨tail ++ put (p + ((sdWriteName name ++ sdWriteCode code) p).length), ?_, ?_⟩
  · rw [Put.append_apply, htail, cons_append]
  · refine (hread hname hcode).bind ?_
    rw [htail, length_cons, show p + (tail.length + 1) = p + 1 + tail.length by omega]
    exact hbody _

theorem firstCode_ne {code close : SdCode} (h : code ≠ close) (hclose : close ≠ .name) :
    firstCode name code ≠ close := by
  cases name with
  | none => exact h
  | some b => exact hclose.symm

def ReadsList (items : SdCode → Reader (List Item)) (xs : List Item) : Prop :=
  ∀ close, close = .structEnd ∨ close = .arrayEnd → ∀ q, Reads (items close) q (putItems xs q ++ [close.toByte]) xs

inductive Item.BlobsFit : Item → Prop
  | num {name : Option Bytes} {w : Width} {n : ℕ} : BlobsFit (.num name w n)
  | str {name : Option Bytes} {b : Bytes} : BlobsFit (.str name b)
  | blob {name : Option Bytes} {b : Bytes} (hb : b.length < 2 ^ 31) : BlobsFit (.blob name b)
  | struct {name : Option Bytes} {items : List Item} (hitems : ∀ x ∈ items, BlobsFit x) : BlobsFit (.struct name items)
  | array {name : Option Bytes} {count : ℕ} {items : List Item} (hitems : ∀ x ∈ items, BlobsFit x) :
      BlobsFit (.array name count items)

theorem reads_item (hfit : x.Fits) (hblob : x.BlobsFit)
    (hitems : ∀ name xs, x = .struct name xs ∨ (∃ count, x = .array name count xs) → ReadsList items xs) (p : ℕ) :
    ∃ code tail, x.put p = code.toByte :: tail ∧ code ≠ .structEnd ∧ code ≠ .arrayEnd ∧
      Reads (readFrom items code) (p + 1) tail x := by
  have hnamed : ∀ {name : Option Bytes} {code : SdCode} {put : Put}, code ≠ .name → code ≠ .structEnd → code ≠ .arrayEnd →
      (∀ b ∈ name, b.length + 1 < 2 ^ 16) → x.put = sdWriteName name ++ sdWriteCode code ++ put →
      (∀ q, Reads (readBody items name code) q (put q) x) → ∃ code tail, x.put p = code.toByte :: tail ∧
        code ≠ .structEnd ∧ code ≠ .arrayEnd ∧ Reads (readFrom items code) (p + 1) tail x := by
    intro name code put h₁ h₂ h₃ hname hput hbody
    obtain ⟨tail, htail, hread⟩ := reads_named h₁ hname p hbody
    exact ⟨_, tail, hput ▸ htail, firstCode_ne h₂ (by decide), firstCode_ne h₃ (by decide), hread⟩
  cases hfit with
  | @num name w n hname hn =>
    have hput : (Item.num name w n).put = sdWriteName name ++ sdWriteCode w.code ++ fun _ => leBytes w.bytes n := by
      rw [Item.put, sdWriteUint, Put.append_assoc]
    have hbody : ∀ q, Reads (readBody items name w.code) q (leBytes w.bytes n) (.num name w n) := by
      intro q
      have h := reads_leNat w.bytes n q
      rw [Nat.mod_eq_of_lt hn] at h
      cases w <;> exact h.map (Item.num name _) rfl
    cases w
    all_goals exact hnamed (by decide) (by decide) (by decide) hname hput hbody
  | @str name b hname hb =>
    have hput : (Item.str name b).put = sdWriteName name ++ sdWriteCode .string ++ fun _ => leBytes 2 b.length ++ b := by
      rw [Item.put, sdWriteStrn, Put.append_assoc]
      rfl
    exact hnamed (by decide) (by decide) (by decide) hname hput fun q =>
      (reads_sized 2 b (by omega) q).map (Item.str name) rfl
  | @blob name b hname =>
    have hb : b.length < 2 ^ 31 := by
      cases hblob with
      | blob hb => exact hb
    have hput : (Item.blob name b).put = sdWriteName name ++ sdWriteCode .blob ++ fun q =>
        leBytes 4 (b.length + padding 8 (q + 4)) ++ (replicate (padding 8 (q + 4)) 0 ++ b) := by
      funext q
      simp only [Item.put, sdWriteAlignedBlob, Put.append_apply, sdWriteCode, sdWrite32, sdWriteBytes,
        length_append, length_singleton, append_assoc]
      rfl
    exact hnamed (by decide) (by decide) (by decide) hname hput fun q =>
      (reads_blob b (by omega) q).map (Item.blob name) rfl
  | @struct name xs hname hxs =>
    have hput : (Item.struct name xs).put = sdWriteName name ++ sdWriteCode .struct ++
        (putItems xs ++ sdWriteCode .structEnd) := by
      rw [Item.put, sdWriteStruct, Put.append_assoc, sdWriteStructend]
    have hread := hitems name xs (Or.inl rfl) .structEnd (Or.inl rfl)
    exact hnamed (by decide) (by decide) (by decide) hname hput fun q => (hread q).map (Item.struct name) rfl
  | @array name count xs hname hcount hxs =>
    have hput : (Item.array name count xs).put = sdWriteName name ++ sdWriteCode .array ++
        (sdWrite16 count ++ (putItems xs ++ sdWriteCode .arrayEnd)) := by
      rw [Item.put, sdWriteArray, Put.append_assoc, Put.append_assoc, sdWriteArrayend]
    have hread := hitems name xs (Or.inr ⟨count, rfl⟩) .arrayEnd (Or.inr rfl)
    refine hnamed (by decide) (by decide) (by decide) hname hput fun q => ?_
    have h := reads_leNat 2 count q
    rw [Nat.mod_eq_of_lt (show count < 256 ^ 2 by omega)] at h
    exact h.bind ((hread _).map (Item.array name count) rfl)

theorem reads_items {xs : List Item} {fuel : ℕ} (hfuel : itemsSize xs ≤ fuel)
    (hitems : ∀ x ∈ xs, ∀ fuel, x.size ≤ fuel → ∀ p, ∃ code tail, x.put p = code.toByte :: tail ∧
      code ≠ .structEnd ∧ code ≠ .arrayEnd ∧ Reads (readFrom (readItems fuel) code) (p + 1) tail x) :
    ReadsList (readItems fuel) xs := by
  induction xs generalizing fuel with
  | nil =>
    intro close hclose q
    cases fuel with
    | zero => cases hfuel
    | succ fuel =>
      refine @Reads.bind _ _ _ _ _ [] _ _ _ (reads_code close q) ?_
      rw [if_pos rfl]
      exact Reads.pure _ _
  | cons x xs ih =>
    intro close hclose q
    rw [itemsSize] at hfuel
    cases fuel with
    | zero => omega
    | succ fuel =>
      obtain ⟨hx, hxs⟩ := forall_mem_cons.mp hitems
      obtain ⟨code, tail, hput, h₁, h₂, hread⟩ := hx fuel (by omega) q
      have hrest := ih (show itemsSize xs ≤ fuel by omega) hxs close hclose
      have hne : code ≠ close := by
        rcases hclose with rfl | rfl
        · exact h₁
        · exact h₂
      rw [putItems, Put.append_apply, hput, length_cons, cons_append, cons_append]
      rw [append_assoc, ← singleton_append]
      apply (reads_code code q).bind
      rw [if_neg hne]
      refine hread.bind ?_
      rw [show q + (tail.length + 1) = q + 1 + tail.length by omega]
      exact (hrest _).map (x :: ·) rfl

theorem reads_of_fits (x : Item) (hfit : x.Fits) (hblob : x.BlobsFit) {fuel : ℕ} (hfuel : x.size ≤ fuel) (p : ℕ) :
    ∃ code tail, x.put p = code.toByte :: tail ∧ code ≠ .structEnd ∧ code ≠ .arrayEnd ∧
      Reads (readFrom (readItems fuel) code) (p + 1) tail x := by
  induction x using Item.induct generalizing fuel p with
  | num name w n | str name b | blob name b => exact reads_item hfit hblob (by rintro _ _ (h | ⟨_, h⟩) <;> cases h) p
  | struct name xs ih =>
    refine reads_item hfit hblob ?_ p
    rintro _ _ (h | ⟨_, h⟩) <;> cases h
    rw [Item.size] at hfuel
    cases hfit with
    | struct hname hxs =>
      cases hblob with
      | struct hbs => exact reads_items (by omega) fun y hy fuel hf p => ih y hy (hxs y hy) (hbs y hy) hf p
  | array name count xs ih =>
    refine reads_item hfit hblob ?_ p
    rintro _ _ (h | ⟨_, h⟩) <;> cases h
    rw [Item.size] at hfuel
    cases hfit with
    | array hname hcount hxs =>
      cases hblob with
      | array hbs => exact reads_items (by omega) fun y hy fuel hf p => ih y hy (hxs y hy) (hbs y hy) hf p

section Decoded

variable {i j : Input} {fuel : ℕ}

variable {code : SdCode} {x : Item}

theorem readName_fits {r : Option Bytes × SdCode} (h : readName code i = some (r, j)) :
    ∀ b ∈ r.1, b.length + 1 < 2 ^ 16 := by
  unfold readName at h
  split at h
  · obtain ⟨name, k, hname, h⟩ := bind_eq_some h
    obtain ⟨code, l, -, h⟩ := bind_eq_some h
    obtain ⟨n, m, hn, hbytes⟩ := bind_eq_some hname
    have hlen := length_of_bytes hbytes
    have hlt := leNat_lt hn
    rw [← pure_eq_some h]
    rintro b ⟨⟩
    rw [length_dropLast]
    omega
  · rw [← pure_eq_some h]
    rintro b ⟨⟩

theorem readBody_fits {name : Option Bytes}
    (hitems : ∀ {close i xs j}, items close i = some (xs, j) → ∀ x ∈ xs, Item.Fits x)
    (hname : ∀ b ∈ name, b.length + 1 < 2 ^ 16) (h : readBody items name code i = some (x, j)) : x.Fits := by
  unfold readBody at h
  split at h
  · obtain ⟨n, k, hn, h⟩ := bind_eq_some h
    rw [← pure_eq_some h]
    exact .num hname (leNat_lt hn)
  · obtain ⟨n, k, hn, h⟩ := bind_eq_some h
    rw [← pure_eq_some h]
    exact .num hname (leNat_lt hn)
  · obtain ⟨n, k, hn, h⟩ := bind_eq_some h
    rw [← pure_eq_some h]
    exact .num hname (leNat_lt hn)
  · obtain ⟨b, k, hb, h⟩ := bind_eq_some h
    obtain ⟨n, l, hn, hbytes⟩ := bind_eq_some hb
    rw [← pure_eq_some h]
    have hlt := leNat_lt hn
    exact .str hname (by rw [length_of_bytes hbytes]; omega)
  · obtain ⟨b, k, -, h⟩ := bind_eq_some h
    rw [← pure_eq_some h]
    exact .blob hname
  · obtain ⟨xs, k, hxs, h⟩ := bind_eq_some h
    rw [← pure_eq_some h]
    exact .struct hname (hitems hxs)
  · obtain ⟨count, k, hn, h⟩ := bind_eq_some h
    obtain ⟨xs, l, hxs, h⟩ := bind_eq_some h
    rw [← pure_eq_some h]
    have hlt := leNat_lt hn
    exact .array hname (by omega) (hitems hxs)
  · cases h

theorem readFrom_fits
    (hitems : ∀ {close i xs j}, items close i = some (xs, j) → ∀ x ∈ xs, Item.Fits x)
    (h : readFrom items code i = some (x, j)) : x.Fits := by
  obtain ⟨r, k, hr, h⟩ := bind_eq_some h
  exact readBody_fits hitems (readName_fits hr) h

theorem readItems_fits {close : SdCode} {xs : List Item} (h : readItems fuel close i = some (xs, j)) :
    ∀ x ∈ xs, x.Fits := by
  induction fuel generalizing close i xs j with
  | zero => cases h
  | succ fuel ih =>
    obtain ⟨code, k, -, h⟩ := bind_eq_some h
    split_ifs at h
    · rw [← pure_eq_some h]
      exact fun x hx => absurd hx not_mem_nil
    · obtain ⟨x, l, hx, h⟩ := bind_eq_some h
      obtain ⟨ys, m, hys, h⟩ := bind_eq_some h
      rw [← pure_eq_some h]
      exact forall_mem_cons.mpr ⟨readFrom_fits (fun h => ih h) hx, ih hys⟩

theorem decodeItem_fits {p : ℕ} {bs : Bytes} (h : decodeItem p bs = some x) : x.Fits := by
  obtain ⟨⟨y, k⟩, hread, h⟩ := Option.bind_eq_some_iff.mp h
  dsimp only at h
  split_ifs at h
  cases h
  obtain ⟨code, l, -, hfrom⟩ := bind_eq_some hread
  exact readFrom_fits (fun h => readItems_fits h) hfrom

end Decoded

theorem decodeItem_put_iff (hblob : x.BlobsFit) (p : ℕ) : decodeItem p (x.put p) = some x ↔ x.Fits := by
  refine ⟨decodeItem_fits, fun hfit => ?_⟩
  obtain ⟨code, tail, hput, -, -, hread⟩ := reads_of_fits x hfit hblob (x.size_lt p).le p
  have h : Reads (readItem (x.put p).length) p (x.put p) x :=
    ((reads_code code p).bind hread).congr hput rfl
  have hrun := h []
  rw [append_nil] at hrun
  rw [decodeItem, hrun]
  rfl

end AppArmor.Interface

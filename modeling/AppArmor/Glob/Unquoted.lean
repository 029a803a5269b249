import AppArmor.Glob.Escape

namespace AppArmor

open List

/-- What `processunquoted` does to memory: the bytes it stores before the terminating NUL, and how far from the start
of the buffer it looks. -/
structure Unquoted where
  written : Text
  reads : ℕ
  deriving DecidableEq

/-- `strn_escseq` with no further characters, on memory in which a NUL is a byte like the others. The `strchr` of its
last test finds the NUL that ends the empty list. -/
def memEscseq (n : ℕ) (mem : Text) : EscSeq :=
  if mem.head? = some '\x00' ∧ 1 ≤ n then .char 0 1 else strnEscseq [] n mem

def digitReads (n k : ℕ) : ℕ := min (k + 1) n

def escseqReads (n : ℕ) : Text → ℕ
  | [] => 0
  | c :: s =>
    if isodigit c then digitReads (min 3 n) (strntol 8 255 (min 3 n) (c :: s) 0).2
    else if c = 'd' then 1 + digitReads (min 3 (n - 1)) (strntol 10 255 (min 3 (n - 1)) s 0).2
    else if c = 'x' then 1 + digitReads (min 2 (n - 1)) (strntol 16 255 (min 2 (n - 1)) s 0).2
    else 1

def escseqCopy (mem : Text) (v len : ℕ) : Text :=
  if v = 0 then '\\' :: mem.take len
  else if Char.ofNat v ∈ "*?[]\x7b\x7d^,\\".toList then ['\\', Char.ofNat v]
  else [Char.ofNat v]

/-- The loop of `processunquoted` at the byte `pos` of the buffer, with `skip` bytes of an escape sequence still to
pass and `len` bytes to go after them. The bound given to `strn_escseq` counts the backslash, too. -/
def unquoteLoop : Text → (skip len pos : ℕ) → Unquoted
  | [], _, _, _ => ⟨[], 0⟩
  | _ :: mem, k + 1, len, pos => unquoteLoop mem k len (pos + 1)
  | _ :: _, 0, 0, _ => ⟨[], 0⟩
  | c :: mem, 0, len + 1, pos =>
    if c = '\\' ∧ 0 < len then
      let seen := pos + 1 + escseqReads (len + 1) mem
      match memEscseq (len + 1) mem with
      | .char v k =>
        let rest := unquoteLoop mem k (len - k) (pos + 1)
        ⟨escseqCopy mem v k ++ rest.written, max seen rest.reads⟩
      | _ =>
        let rest := unquoteLoop mem 0 len (pos + 1)
        ⟨c :: rest.written, max seen rest.reads⟩
    else
      let rest := unquoteLoop mem 0 len (pos + 1)
      ⟨c :: rest.written, max (pos + 1) rest.reads⟩

def processUnquotedIn (mem : Text) (len : ℕ) : Unquoted := unquoteLoop mem 0 len 0

/-! ### Numbers at the end of the text -/

def digits (base : ℕ) (s : Text) : Bool := s.all (fun c => (chrtoi c base).isSome)

def openNumber : Text → Bool
  | [] => false
  | c :: s =>
    if isodigit c then s.length < 2 && digits 8 s
    else if c = 'd' then s.length < 3 && digits 10 s
    else if c = 'x' then s.length < 2 && digits 16 s
    else false

def openEnd : Text → (skip : ℕ) → Bool
  | [], _ => false
  | _ :: s, k + 1 => openEnd s k
  | c :: s, 0 =>
    if c = '\\' ∧ s ≠ [] then
      openNumber s ||
        match memEscseq (s.length + 1) s with
        | .char _ k => openEnd s k
        | _ => openEnd s 0
    else openEnd s 0

theorem strntol_le (base maxval : ℕ) (s : Text) (n val : ℕ) :
    (strntol base maxval n s val).2 ≤ n ∧ (strntol base maxval n s val).2 ≤ s.length := by
  induction s generalizing n val with
  | nil => simp [strntol]
  | cons c s ih =>
    cases n with
    | zero => simp [strntol]
    | succ n =>
      rw [strntol]
      cases chrtoi c base with
      | none => simp
      | some d =>
        dsimp only
        split
        · simp
        · have h := ih n (val * base + d)
          simp only [length_cons]
          omega

theorem strntol_append (base maxval : ℕ) (s after : Text) (n val : ℕ)
    (h : (strntol base maxval n s val).2 < s.length ∨ n ≤ s.length) :
    strntol base maxval n (s ++ after) val = strntol base maxval n s val := by
  induction s generalizing n val with
  | nil =>
    have hn : n = 0 := by simpa using h
    subst hn
    cases after <;> rfl
  | cons c s ih =>
    cases n with
    | zero => rfl
    | succ n =>
      rw [cons_append, strntol]
      rw [strntol] at h ⊢
      cases hd : chrtoi c base with
      | none => rfl
      | some d =>
        simp only [hd] at h
        dsimp only
        split
        · rfl
        · next hmax =>
          rw [if_neg hmax] at h
          rw [ih n (val * base + d) (by simpa using h)]

theorem strntol_append_le (base maxval : ℕ) (s after : Text) (n val : ℕ) :
    (strntol base maxval n s val).2 ≤ (strntol base maxval n (s ++ after) val).2 := by
  induction s generalizing n val with
  | nil => simp [strntol]
  | cons c s ih =>
    cases n with
    | zero => simp [strntol]
    | succ n =>
      rw [cons_append, strntol, strntol]
      cases chrtoi c base with
      | none => exact le_rfl
      | some d =>
        dsimp only
        split
        · exact le_rfl
        · exact Nat.succ_le_succ (ih n (val * base + d))

variable {c : Char} {base n k : ℕ} {s : Text}

theorem chrtoi_lt {d : ℕ} (h : chrtoi c base = some d) : d < base := by
  unfold chrtoi at h
  have := (Option.filter_eq_some_iff.mp h).2
  simpa using this

theorem strntol_all_iff (base : ℕ) (s : Text) (n val j : ℕ) (hn : s.length ≤ n) (hval : val < base ^ j)
    (hbase : base ^ (j + s.length) ≤ 256) :
    (strntol base 255 n s val).2 = s.length ↔ digits base s = true := by
  induction s generalizing n val j with
  | nil => simp [strntol, digits]
  | cons c s ih =>
    cases n with
    | zero => simp at hn
    | succ n =>
      rw [strntol]
      cases hd : chrtoi c base with
      | none => simp [digits, hd]
      | some d =>
        have hlt := chrtoi_lt hd
        have hnext : val * base + d < base ^ (j + 1) := by
          rw [pow_succ]
          nlinarith
        have hsmall : base ^ (j + 1) ≤ 256 := by
          refine le_trans (Nat.pow_le_pow_right (by omega) ?_) hbase
          simp only [length_cons]
          omega
        have hmax : ¬val * base + d > 255 := by omega
        have hrest := ih n (val * base + d) (j + 1) (by simpa using hn) hnext
          (by rw [show j + 1 + s.length = j + (c :: s).length by simp only [length_cons]; omega]; exact hbase)
        dsimp only
        rw [if_neg hmax]
        simp only [length_cons, Nat.add_right_cancel_iff, hrest]
        simp [digits, hd]

theorem isodigit_chrtoi (h : isodigit c = true) : ∃ d, chrtoi c 8 = some d := by
  have hc : '0'.val ≤ c.val ∧ c.val ≤ '7'.val := of_decide_eq_true h
  have hlow : 48 ≤ c.val.toNat := UInt32.le_iff_toNat_le.mp hc.1
  have hhigh : c.val.toNat ≤ 55 := UInt32.le_iff_toNat_le.mp hc.2
  have hdigit : c.isDigit = true := by
    simp only [Char.isDigit, Bool.and_eq_true, decide_eq_true_eq]
    refine ⟨UInt32.le_iff_toNat_le.mpr hlow, UInt32.le_iff_toNat_le.mpr (le_trans hhigh (by decide))⟩
  refine ⟨c.toNat - '0'.toNat, ?_⟩
  simp only [chrtoi, hdigit, if_true]
  refine Option.filter_eq_some_iff.mpr ⟨rfl, decide_eq_true ?_⟩
  change c.val.toNat - 48 < 8
  omega

section Number

variable {base m : ℕ} {s : Text} (hbase : base ^ (m - 1) ≤ 256)
include hbase

theorem strntol_closed (hpos : 0 < base) (h : ¬(s.length < m ∧ digits base s = true)) :
    (strntol base 255 (min m (s.length + 1)) s 0).2 < s.length ∨ min m (s.length + 1) ≤ s.length := by
  by_cases hm : s.length < m
  · have hle := (strntol_le base 255 s (min m (s.length + 1)) 0).2
    have hne : (strntol base 255 (min m (s.length + 1)) s 0).2 ≠ s.length := by
      intro heq
      apply h
      refine ⟨hm, (strntol_all_iff base s _ 0 0 (by omega) (by simp) ?_).mp heq⟩
      exact le_trans (Nat.pow_le_pow_right hpos (by omega)) hbase
    omega
  · omega

theorem strntol_open (hpos : 0 < base) (hm : s.length < m) (hd : digits base s = true) (after : Text) :
    digitReads (min m (s.length + 1)) (strntol base 255 (min m (s.length + 1)) (s ++ after) 0).2 = s.length + 1 := by
  have hall : (strntol base 255 (min m (s.length + 1)) s 0).2 = s.length := by
    refine (strntol_all_iff base s _ 0 0 (by omega) (by simp) ?_).mpr hd
    exact le_trans (Nat.pow_le_pow_right hpos (by omega)) hbase
  have hle := strntol_append_le base 255 s after (min m (s.length + 1)) 0
  unfold digitReads
  omega

end Number

theorem digitReads_le {b : ℕ} (h : k < b ∨ n ≤ b) : digitReads n k ≤ b := by
  unfold digitReads
  omega

/-- What the loop needs of an escape sequence in a text of which `s` is what is left after the backslash. -/
structure EscseqClosed (s after : Text) : Prop where
  same : memEscseq (s.length + 1) (s ++ after) = memEscseq (s.length + 1) s
  reads : escseqReads (s.length + 1) (s ++ after) = escseqReads (s.length + 1) s
  bound : escseqReads (s.length + 1) s ≤ s.length
  step : ∀ v k, memEscseq (s.length + 1) s = .char v k → 1 ≤ k ∧ k ≤ s.length

theorem escapeNumber_char {v : ℕ} (h : escapeNumber base n s = .char v k) :
    1 ≤ k ∧ k ≤ s.length + 1 := by
  have hle := (strntol_le base 255 s n 0).2
  unfold escapeNumber at h
  dsimp only at h
  split at h
  · cases h
  · cases h
    omega

theorem octal_pos (h : isodigit c = true) :
    1 ≤ (strntol 8 255 (n + 1) (c :: s) 0).2 := by
  obtain ⟨d, hd⟩ := isodigit_chrtoi h
  have hlt := chrtoi_lt hd
  rw [strntol, hd]
  dsimp only
  rw [if_neg (by omega)]
  exact Nat.succ_le_succ (Nat.zero_le _)

theorem escapeNumber_closed {m : ℕ} (hbase : base ^ (m - 1) ≤ 256) (hpos : 0 < base)
    (h : ¬(s.length < m ∧ digits base s = true)) (after : Text) :
    strntol base 255 (min m (s.length + 1)) (s ++ after) 0 = strntol base 255 (min m (s.length + 1)) s 0 ∧
      digitReads (min m (s.length + 1)) (strntol base 255 (min m (s.length + 1)) s 0).2 ≤ s.length := by
  have hclosed := strntol_closed hbase hpos h
  exact ⟨strntol_append base 255 s after _ 0 hclosed, digitReads_le hclosed⟩

theorem memEscseq_octal (ho : isodigit c = true) :
    memEscseq (n + 1) (c :: s) =
      .char (strntol 8 255 (min 3 (n + 1)) (c :: s) 0).1 (strntol 8 255 (min 3 (n + 1)) (c :: s) 0).2 := by
  have hnul : c ≠ '\x00' := by
    rintro rfl
    exact absurd ho (by decide)
  simp [memEscseq, hnul, strnEscseq, ho]

theorem escseqReads_octal (ho : isodigit c = true) :
    escseqReads n (c :: s) = digitReads (min 3 n) (strntol 8 255 (min 3 n) (c :: s) 0).2 := by
  simp [escseqReads, ho]

theorem openNumber_octal (ho : isodigit c = true) :
    openNumber (c :: s) = true ↔ (c :: s).length < 3 ∧ digits 8 (c :: s) = true := by
  obtain ⟨d, hd⟩ := isodigit_chrtoi ho
  simp only [openNumber, ho, if_true, Bool.and_eq_true, decide_eq_true_eq, digits, all_cons, hd, Option.isSome_some,
    true_and, length_cons]
  rw [show s.length < 2 ↔ s.length + 1 < 3 by omega]

inductive NumberLetter : Char → ℕ → ℕ → Prop
  | decimal : NumberLetter 'd' 10 3
  | hex : NumberLetter 'x' 16 2

section Letter

variable {c : Char} {base m : ℕ} (hc : NumberLetter c base m) (s : Text) (n : ℕ)
include hc

theorem NumberLetter.bound : base ^ (m - 1) ≤ 256 ∧ 0 < base := by
  cases hc <;> decide

theorem memEscseq_letter : memEscseq (n + 1) (c :: s) = escapeNumber base (min m n) s := by
  cases hc <;> simp [memEscseq, strnEscseq, isodigit]

theorem escseqReads_letter :
    escseqReads (n + 1) (c :: s) = 1 + digitReads (min m n) (strntol base 255 (min m n) s 0).2 := by
  cases hc <;> simp [escseqReads, isodigit]

theorem openNumber_letter : openNumber (c :: s) = true ↔ s.length < m ∧ digits base s = true := by
  cases hc <;> simp [openNumber, isodigit, digits]

end Letter

theorem memEscseq_other (ho : isodigit c = false) (hd : c ≠ 'd') (hx : c ≠ 'x') (s : Text) (n : ℕ) :
    (memEscseq (n + 1) (c :: s) = .error 0 ∨ ∃ v, memEscseq (n + 1) (c :: s) = .char v 1) ∧
      memEscseq (n + 1) (c :: s) = memEscseq (n + 1) [c] := by
  by_cases hnul : c = '\x00'
  · subst hnul
    simp [memEscseq]
  · simp only [memEscseq, strnEscseq, ho, hd, hx]
    cases simpleEscape c <;> simp [hnul]

theorem escseqReads_other (ho : isodigit c = false) (hd : c ≠ 'd') (hx : c ≠ 'x') (s : Text) (n : ℕ) :
    escseqReads n (c :: s) = 1 := by
  simp [escseqReads, ho, hd, hx]

theorem escape_cases (c : Char) :
    isodigit c = true ∨ (∃ base m, NumberLetter c base m) ∨ (isodigit c = false ∧ c ≠ 'd' ∧ c ≠ 'x') := by
  cases ho : isodigit c with
  | true => exact Or.inl rfl
  | false =>
    by_cases hd : c = 'd'
    · exact Or.inr (Or.inl ⟨10, 3, hd ▸ .decimal⟩)
    by_cases hx : c = 'x'
    · exact Or.inr (Or.inl ⟨16, 2, hx ▸ .hex⟩)
    exact Or.inr (Or.inr ⟨rfl, hd, hx⟩)

theorem escseqClosed_of_not_open (hs : s ≠ []) (h : ¬openNumber s = true) (after : Text) :
    EscseqClosed s after := by
  cases s with
  | nil => exact absurd rfl hs
  | cons c s =>
    rcases escape_cases c with ho | ⟨base, m, hc⟩ | ⟨ho, hd, hx⟩
    · -- an octal number begins with the byte that tells it from the others
      rw [openNumber_octal ho] at h
      obtain ⟨hsame, hreads⟩ := escapeNumber_closed (by decide) (by decide) h after
      rw [cons_append] at hsame
      refine ⟨?_, ?_, ?_, ?_⟩
      · rw [cons_append, memEscseq_octal ho, memEscseq_octal ho, hsame]
      · rw [cons_append, escseqReads_octal ho, escseqReads_octal ho, hsame]
      · rw [escseqReads_octal ho]
        exact hreads
      · intro v k hk
        have hle := (strntol_le 8 255 (c :: s) (min 3 ((c :: s).length + 1)) 0).2
        have hpos : 1 ≤ (strntol 8 255 (min 3 ((c :: s).length + 1)) (c :: s) 0).2 := by
          rw [show min 3 ((c :: s).length + 1) = min 2 (c :: s).length + 1 by omega]
          exact octal_pos ho
        rw [memEscseq_octal ho] at hk
        cases hk
        exact ⟨hpos, hle⟩
    · rw [openNumber_letter hc] at h
      obtain ⟨hsame, hreads⟩ := escapeNumber_closed hc.bound.1 hc.bound.2 h after
      have hlen : (c :: s).length = s.length + 1 := rfl
      refine ⟨?_, ?_, ?_, ?_⟩
      · rw [hlen, cons_append, memEscseq_letter hc, memEscseq_letter hc, escapeNumber, hsame, ← escapeNumber]
      · rw [hlen, cons_append, escseqReads_letter hc, escseqReads_letter hc, hsame]
      · rw [hlen, escseqReads_letter hc]
        omega
      · intro v k hk
        rw [hlen, memEscseq_letter hc] at hk
        exact escapeNumber_char hk
    · refine ⟨?_, ?_, ?_, ?_⟩
      · rw [cons_append, (memEscseq_other ho hd hx _ _).2, (memEscseq_other ho hd hx s _).2]
      · rw [cons_append, escseqReads_other ho hd hx, escseqReads_other ho hd hx]
      · rw [escseqReads_other ho hd hx]
        simp
      · intro v k hk
        rcases (memEscseq_other ho hd hx s (c :: s).length).1 with he | ⟨w, hw⟩
        · rw [he] at hk
          cases hk
        · rw [hw] at hk
          cases hk
          simp

theorem escseqReads_of_open (h : openNumber s = true) (after : Text) :
    escseqReads (s.length + 1) (s ++ after) = s.length + 1 := by
  cases s with
  | nil => cases h
  | cons c s =>
    rcases escape_cases c with ho | ⟨base, m, hc⟩ | ⟨ho, hd, hx⟩
    · obtain ⟨hlen, hd⟩ := (openNumber_octal ho).mp h
      have hread := strntol_open (m := 3) (by decide) (by decide) hlen hd after
      rw [cons_append] at hread
      rw [cons_append, escseqReads_octal ho]
      exact hread
    · obtain ⟨hlen, hd⟩ := (openNumber_letter hc s).mp h
      have hread := strntol_open hc.bound.1 hc.bound.2 hlen hd after
      rw [cons_append, show (c :: s).length = s.length + 1 from rfl, escseqReads_letter hc, hread]
      omega
    · simp [openNumber, ho, hd, hx] at h

/-! ### The loop -/

theorem escseqCopy_length (mem : Text) (v : ℕ) (hk : 1 ≤ k) : (escseqCopy mem v k).length ≤ k + 1 := by
  unfold escseqCopy
  split
  · simp
  · split
    · simp only [length_cons, length_nil]
      omega
    · simp

theorem escseqCopy_append {after : Text} {v : ℕ} (hk : k ≤ s.length) :
    escseqCopy (s ++ after) v k = escseqCopy s v k := by
  unfold escseqCopy
  rw [take_append_of_le_length hk]

section Loop

variable {c : Char} {mem : Text} {len pos : ℕ}

theorem unquoteLoop_zero (mem : Text) (skip pos : ℕ) : unquoteLoop mem skip 0 pos = ⟨[], 0⟩ := by
  induction mem generalizing skip pos with
  | nil => rfl
  | cons c mem ih =>
    cases skip with
    | zero => rfl
    | succ k => exact ih k (pos + 1)

theorem unquoteLoop_plain (h : ¬(c = '\\' ∧ 0 < len)) :
    unquoteLoop (c :: mem) 0 (len + 1) pos =
      ⟨c :: (unquoteLoop mem 0 len (pos + 1)).written, max (pos + 1) (unquoteLoop mem 0 len (pos + 1)).reads⟩ := by
  rw [unquoteLoop, if_neg h]

theorem unquoteLoop_char {v k : ℕ} (hlen : 0 < len) (h : memEscseq (len + 1) mem = .char v k) :
    unquoteLoop ('\\' :: mem) 0 (len + 1) pos =
      ⟨escseqCopy mem v k ++ (unquoteLoop mem k (len - k) (pos + 1)).written,
        max (pos + 1 + escseqReads (len + 1) mem) (unquoteLoop mem k (len - k) (pos + 1)).reads⟩ := by
  rw [unquoteLoop, if_pos ⟨rfl, hlen⟩, h]

theorem unquoteLoop_error (hlen : 0 < len) (h : ∀ v k, memEscseq (len + 1) mem ≠ .char v k) :
    unquoteLoop ('\\' :: mem) 0 (len + 1) pos =
      ⟨'\\' :: (unquoteLoop mem 0 len (pos + 1)).written,
        max (pos + 1 + escseqReads (len + 1) mem) (unquoteLoop mem 0 len (pos + 1)).reads⟩ := by
  rw [unquoteLoop, if_pos ⟨rfl, hlen⟩]
  cases he : memEscseq (len + 1) mem with
  | char v k => exact absurd he (h v k)
  | error | overrun => rfl

theorem escseqReads_le_reads (mem : Text) (pos : ℕ) (hlen : 0 < len) :
    pos + 1 + escseqReads (len + 1) mem ≤ (unquoteLoop ('\\' :: mem) 0 (len + 1) pos).reads := by
  by_cases he : ∃ v k, memEscseq (len + 1) mem = .char v k
  · obtain ⟨v, k, he⟩ := he
    rw [unquoteLoop_char hlen he]
    exact le_max_left _ _
  · push Not at he
    rw [unquoteLoop_error hlen he]
    exact le_max_left _ _

variable {s : Text}

theorem openEnd_plain (h : ¬(c = '\\' ∧ 0 < s.length)) : openEnd (c :: s) 0 = openEnd s 0 := by
  rw [length_pos_iff] at h
  rw [openEnd, if_neg h]

theorem openEnd_char {v k : ℕ} (hs : 0 < s.length) (h : memEscseq (s.length + 1) s = .char v k) :
    openEnd ('\\' :: s) 0 = (openNumber s || openEnd s k) := by
  rw [openEnd, if_pos ⟨rfl, length_pos_iff.mp hs⟩, h]

theorem openEnd_error (hs : 0 < s.length) (h : ∀ v k, memEscseq (s.length + 1) s ≠ .char v k) :
    openEnd ('\\' :: s) 0 = (openNumber s || openEnd s 0) := by
  rw [openEnd, if_pos ⟨rfl, length_pos_iff.mp hs⟩]
  cases he : memEscseq (s.length + 1) s with
  | char v k => exact absurd he (h v k)
  | error | overrun => rfl

theorem loop_cases (c : Char) (s : Text) :
    ¬(c = '\\' ∧ 0 < s.length) ∨ (c = '\\' ∧ 0 < s.length ∧ ∃ v k, memEscseq (s.length + 1) s = .char v k) ∨
      (c = '\\' ∧ 0 < s.length ∧ ∀ v k, memEscseq (s.length + 1) s ≠ .char v k) := by
  by_cases h : c = '\\' ∧ 0 < s.length
  · by_cases he : ∃ v k, memEscseq (s.length + 1) s = .char v k
    · exact Or.inr (Or.inl ⟨h.1, h.2, he⟩)
    · push Not at he
      exact Or.inr (Or.inr ⟨h.1, h.2, he⟩)
  · exact Or.inl h

end Loop

structure LoopClosed (s after : Text) (skip pos : ℕ) : Prop where
  same : unquoteLoop (s ++ after) skip (s.length - skip) pos = unquoteLoop s skip (s.length - skip) pos
  reads : (unquoteLoop s skip (s.length - skip) pos).reads ≤ pos + s.length
  written : (unquoteLoop s skip (s.length - skip) pos).written.length ≤ s.length - skip

theorem loopClosed_of_not_open (s after : Text) (skip pos : ℕ) (hskip : skip ≤ s.length)
    (h : openEnd s skip = false) : LoopClosed s after skip pos := by
  induction s generalizing skip pos with
  | nil =>
    refine ⟨?_, Nat.zero_le _, Nat.zero_le _⟩
    rw [show ([] : Text).length - skip = 0 by simp, unquoteLoop_zero, unquoteLoop_zero]
  | cons c s ih =>
    have hlen : (c :: s).length = s.length + 1 := rfl
    cases skip with
    | succ k =>
      obtain ⟨hsame, hreads, hwritten⟩ := ih k (pos + 1) (by simpa using hskip) h
      have hsub : (c :: s).length - (k + 1) = s.length - k := by omega
      refine ⟨?_, ?_, ?_⟩
      · rw [hsub]
        exact hsame
      · rw [hsub, unquoteLoop]
        omega
      · rw [hsub, unquoteLoop]
        exact hwritten
    | zero =>
      rcases loop_cases c s with hplain | ⟨rfl, hs, v, k, he⟩ | ⟨rfl, hs, he⟩
      · rw [openEnd_plain hplain] at h
        obtain ⟨hsame, hreads, hwritten⟩ := ih 0 (pos + 1) (Nat.zero_le _) h
        rw [Nat.sub_zero] at hsame hreads hwritten
        refine ⟨?_, ?_, ?_⟩ <;> rw [hlen, Nat.sub_zero]
        · rw [cons_append, unquoteLoop_plain hplain, unquoteLoop_plain hplain, hsame]
        · rw [unquoteLoop_plain hplain]
          dsimp only
          omega
        · rw [unquoteLoop_plain hplain]
          simpa using hwritten
      · rw [openEnd_char hs he, Bool.or_eq_false_iff] at h
        obtain ⟨hesc, hescReads, hbound, hstep⟩ := escseqClosed_of_not_open (length_pos_iff.mp hs) (by simp [h.1]) after
        obtain ⟨hk, hks⟩ := hstep v k he
        obtain ⟨hsame, hreads, hwritten⟩ := ih k (pos + 1) hks h.2
        refine ⟨?_, ?_, ?_⟩ <;> rw [hlen, Nat.sub_zero]
        · rw [cons_append, unquoteLoop_char hs (hesc.trans he), unquoteLoop_char hs he, hsame, hescReads,
            escseqCopy_append hks]
        · rw [unquoteLoop_char hs he]
          dsimp only
          omega
        · have hcopy := escseqCopy_length s v hk
          rw [unquoteLoop_char hs he]
          simp only [length_append]
          omega
      · rw [openEnd_error hs he, Bool.or_eq_false_iff] at h
        obtain ⟨hesc, hescReads, hbound, hstep⟩ := escseqClosed_of_not_open (length_pos_iff.mp hs) (by simp [h.1]) after
        obtain ⟨hsame, hreads, hwritten⟩ := ih 0 (pos + 1) (Nat.zero_le _) h.2
        rw [Nat.sub_zero] at hsame hreads hwritten
        refine ⟨?_, ?_, ?_⟩ <;> rw [hlen, Nat.sub_zero]
        · rw [cons_append, unquoteLoop_error hs (by rw [hesc]; exact he), unquoteLoop_error hs he, hsame, hescReads]
        · rw [unquoteLoop_error hs he]
          dsimp only
          omega
        · rw [unquoteLoop_error hs he]
          simpa using hwritten

theorem reads_of_open (s after : Text) (skip pos : ℕ) (hskip : skip ≤ s.length) (h : openEnd s skip = true) :
    pos + s.length < (unquoteLoop (s ++ after) skip (s.length - skip) pos).reads := by
  induction s generalizing skip pos with
  | nil => cases h
  | cons c s ih =>
    have hlen : (c :: s).length = s.length + 1 := rfl
    cases skip with
    | succ k =>
      have hrest := ih k (pos + 1) (by simpa using hskip) h
      rw [show (c :: s).length - (k + 1) = s.length - k by omega, cons_append, unquoteLoop]
      omega
    | zero =>
      rw [hlen, Nat.sub_zero, cons_append]
      rcases loop_cases c s with hplain | ⟨rfl, hs, v, k, he⟩ | ⟨rfl, hs, he⟩
      · rw [openEnd_plain hplain] at h
        have hrest := ih 0 (pos + 1) (Nat.zero_le _) h
        rw [Nat.sub_zero] at hrest
        rw [unquoteLoop_plain hplain]
        dsimp only
        omega
      all_goals by_cases hopen : openNumber s = true
      -- the number itself is what looks too far
      case pos | pos =>
        have hesc := escseqReads_of_open hopen after
        have hle := escseqReads_le_reads (s ++ after) pos hs
        omega
      · obtain ⟨hesc, -, -, hstep⟩ := escseqClosed_of_not_open (length_pos_iff.mp hs) hopen after
        rw [openEnd_char hs he, Bool.or_eq_true] at h
        have hrest := ih k (pos + 1) (hstep v k he).2 (h.resolve_left hopen)
        rw [unquoteLoop_char hs (hesc.trans he)]
        dsimp only
        omega
      · obtain ⟨hesc, -, -, -⟩ := escseqClosed_of_not_open (length_pos_iff.mp hs) hopen after
        rw [openEnd_error hs he, Bool.or_eq_true] at h
        have hrest := ih 0 (pos + 1) (Nat.zero_le _) (h.resolve_left hopen)
        rw [Nat.sub_zero] at hrest
        rw [unquoteLoop_error hs (by rw [hesc]; exact he)]
        dsimp only
        omega

/-- `processunquoted` on a buffer that begins with `text`, whose length it is given, and goes on with `after`: it looks
at the bytes of the text only, stores one byte more at most, and does so whatever follows the text. -/
def Bounded (text after : Text) : Prop :=
  let result := processUnquotedIn (text ++ after) text.length
  result.reads ≤ text.length ∧ result.written.length + 1 ≤ text.length + 1 ∧
    ∀ after' : Text, processUnquotedIn (text ++ after') text.length = result

theorem processUnquotedIn_bounded_iff (text after : Text) : Bounded text after ↔ openEnd text 0 = false := by
  constructor
  · rintro ⟨hreads, -, -⟩
    by_contra hopen
    have hfar := reads_of_open text after 0 0 (Nat.zero_le _) (by simpa using hopen)
    rw [Nat.sub_zero, Nat.zero_add] at hfar
    exact absurd hreads (Nat.not_le.mpr hfar)
  · intro hclosed
    have hloop : ∀ after', LoopClosed text after' 0 0 := fun after' =>
      loopClosed_of_not_open text after' 0 0 (Nat.zero_le _) hclosed
    have hsame : ∀ after', processUnquotedIn (text ++ after') text.length = processUnquotedIn text text.length :=
      fun after' => (hloop after').same
    have hreads := (hloop after).reads
    have hwritten := (hloop after).written
    rw [Nat.sub_zero] at hreads hwritten
    rw [Nat.zero_add] at hreads
    refine ⟨?_, ?_, ?_⟩
    · rw [hsame]
      exact hreads
    · rw [hsame]
      exact Nat.succ_le_succ hwritten
    · intro after'
      rw [hsame, hsame]

/-- `\0` with the digit `0` after it: the third digit is taken and copied, which makes four bytes in a buffer of three;
with another byte after it the result is another one. -/
theorem nul_escape_overruns :
    processUnquotedIn "\\00".toList 2 = ⟨"\\00".toList, 3⟩ ∧ processUnquotedIn "\\0/".toList 2 = ⟨"\\0".toList, 3⟩ ∧
      ¬Bounded "\\0".toList "0".toList := by
  refine ⟨by decide, by decide, ?_⟩
  rintro ⟨hreads, -, -⟩
  exact absurd hreads (by decide)

end AppArmor

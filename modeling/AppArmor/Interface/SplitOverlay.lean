import AppArmor.Glob.Escape
import AppArmor.Lib.Fuel
import Mathlib

namespace AppArmor

open Fuel List

inductive SplitEntry
  | copy (text : Text)
  | pointer (start : ℕ)
  deriving DecidableEq

/-- The string, in which separators may have become NULs, the pointers `s` and `p` into it, and the vector. -/
structure SplitState where
  str : Text
  s : ℕ
  p : ℕ
  vec : List SplitEntry
  deriving DecidableEq

def SplitEntry.read (str : Text) : SplitEntry → Text
  | .copy text => text
  | .pointer start => (str.drop start).takeWhile (· ≠ '\x00')

def isSeparator (c : Char) : Bool := c = ',' || c = ':'

section Split

variable (maxSize : ℕ) (immutable : Bool)

def allocSubstring (st : SplitState) : Option SplitState :=
  if maxSize ≠ 0 ∧ maxSize ≤ st.vec.length then none
  else if immutable then some { st with vec := st.vec ++ [.copy ((st.str.drop st.s).take (st.p - st.s))] }
  else some { st with vec := st.vec ++ [.pointer st.s], str := st.str.set st.p '\x00' }

def endPiece (st : SplitState) : Option SplitState :=
  if st.p ≠ st.s then allocSubstring maxSize immutable st else some st

def splitLoop : ℕ → SplitState → Option (Option SplitState)
  | 0, _ => none
  | fuel + 1, st =>
    match st.str[st.p]? with
    | none => some (some st)
    | some c =>
      if c = '\\' then
        if st.p + 1 < st.str.length then splitLoop fuel { st with p := st.p + 1 } else splitLoop fuel st
      else if isSeparator c then
        match endPiece maxSize immutable st with
        | none => some none
        | some st' => splitLoop fuel { st' with p := st.p + 1, s := st.p + 1 }
      else splitLoop fuel { st with p := st.p + 1 }

def collectPieces (st : Option SplitState) : Option (List Text) :=
  (st.bind (endPiece maxSize immutable)).map fun st => st.vec.map (SplitEntry.read st.str)

def splitOverlayStr (fuel : ℕ) (str : Text) : Option (Option (List Text)) :=
  (splitLoop maxSize immutable fuel ⟨str, 0, 0, []⟩).map (collectPieces maxSize immutable)

end Split

/-! ### The pieces between separators -/

def withEscapes (str : Text) : List (Char × Bool) := str.zip (false :: str.map (· = '\\'))

def unescapedPieces (str : Text) : List Text :=
  (((withEscapes str).splitOnP fun c => isSeparator c.1 && !c.2).filter (· ≠ [])).map (List.map Prod.fst)

def pieces (str : Text) : List Text := (str.splitOnP isSeparator).filter (· ≠ [])

def BadEscape (str : Text) : Prop := str.getLast? = some '\\' ∨ ∃ c, isSeparator c = true ∧ ['\\', c] <:+: str

variable {c : Char}

variable {t : Text} {st' : SplitState}

theorem pieces_append (hc : isSeparator c = true) (rest : Text) :
    pieces (t ++ c :: rest) = pieces t ++ pieces rest := by
  rw [pieces, splitOnP_append_cons t rest hc, filter_append]
  rfl

theorem pieces_of_clean (h : ∀ c ∈ t, isSeparator c = false) : pieces t = if t = [] then [] else [t] := by
  rw [pieces, splitOnP_eq_singleton fun c hc => by simp [h c hc]]
  by_cases ht : t = []
  · simp [ht]
  · simp [ht]

/-! ### One piece -/

/-- What the loop keeps: the part from `s` on is untouched, up to `p` it has no separator, and the strings of the
vector end before `s`. -/
structure Splitting (str : Text) (done : List Text) (st : SplitState) : Prop where
  length : st.str.length = str.length
  rest : st.str.drop st.s = str.drop st.s
  le : st.s ≤ st.p
  bound : st.p ≤ str.length
  clean : ∀ c ∈ (str.drop st.s).take (st.p - st.s), isSeparator c = false
  done : st.vec.map (SplitEntry.read st.str) = done
  ended : ∀ i, .pointer i ∈ st.vec → i + ((st.str.drop i).takeWhile (· ≠ '\x00')).length < st.s

theorem Splitting.start (str : Text) : Splitting str [] ⟨str, 0, 0, []⟩ where
  length := rfl
  rest := rfl
  le := le_rfl
  bound := Nat.zero_le _
  clean := by simp
  done := rfl
  ended := by simp

variable {str : Text} {done : List Text} {st : SplitState} {maxSize : ℕ} {immutable : Bool}

theorem takeWhile_set_nul {i p : ℕ} (h : i + ((t.drop i).takeWhile (· ≠ '\x00')).length < p) :
    ((t.set p '\x00').drop i).takeWhile (· ≠ '\x00') = (t.drop i).takeWhile (· ≠ '\x00') := by
  induction t generalizing i p with
  | nil => rfl
  | cons c t ih =>
    obtain ⟨p, rfl⟩ : ∃ q, p = q + 1 := ⟨p - 1, by omega⟩
    cases i with
    | succ i => exact ih (by rw [drop_succ_cons] at h; omega)
    | zero =>
      by_cases hc : c = '\x00'
      · simp [hc]
      · have ht := ih (i := 0) (p := p) (by simpa [hc] using h)
        simpa [hc] using ht

theorem takeWhile_set_at {i p : ℕ} (hp : i ≤ p) (hn : '\x00' ∉ t.drop i) :
    ((t.set p '\x00').drop i).takeWhile (· ≠ '\x00') = (t.drop i).take (p - i) := by
  induction t generalizing i p with
  | nil => simp
  | cons c t ih =>
    cases i with
    | succ i =>
      obtain ⟨p, rfl⟩ : ∃ q, p = q + 1 := ⟨p - 1, by omega⟩
      have ht := ih (i := i) (p := p) (by omega) hn
      simpa using ht
    | zero =>
      cases p with
      | zero => simp
      | succ p =>
        have hc : c ≠ '\x00' := fun h => hn (by simp [h])
        have ht := ih (i := 0) (p := p) (by omega) fun h => hn (mem_cons_of_mem _ h)
        simpa [hc] using ht

def SplitState.piece (str : Text) (st : SplitState) : Text := (str.drop st.s).take (st.p - st.s)

theorem Splitting.pieces_piece (h : Splitting str done st) :
    pieces (st.piece str) = if st.p = st.s then [] else [st.piece str] := by
  have hle := h.le
  have hb := h.bound
  rw [pieces_of_clean (t := st.piece str) h.clean]
  have hiff : st.piece str = [] ↔ st.p = st.s := by
    rw [SplitState.piece, ← length_eq_zero_iff, length_take, length_drop]
    omega
  simp only [hiff]

def capped (maxSize : ℕ) (vec : List Text) : Option (List Text) :=
  if maxSize ≠ 0 ∧ maxSize < vec.length then none else some vec

theorem capped_append {vec : List Text} (h : capped maxSize vec = none) (more : List Text) :
    capped maxSize (vec ++ more) = none := by
  rw [capped] at h ⊢
  split_ifs at h with hfull
  rw [if_pos]
  rw [length_append]
  omega

theorem fits_of_capped {vec vec' : List Text} (h : capped maxSize vec = some vec') :
    maxSize = 0 ∨ vec.length ≤ maxSize := by
  rw [capped] at h
  split_ifs at h with hfull
  omega

theorem Splitting.vec_length (h : Splitting str done st) : st.vec.length = done.length := by
  rw [← h.done, length_map]

theorem Splitting.read_set (h : Splitting str done st) :
    st.vec.map (SplitEntry.read (st.str.set st.p '\x00')) = done := by
  rw [← h.done]
  apply map_congr_left
  intro e he
  cases e with
  | copy text => rfl
  | pointer i => exact takeWhile_set_nul ((h.ended i he).trans_le h.le)

theorem Splitting.read_piece (h : Splitting str done st) (hn : '\x00' ∉ str) :
    SplitEntry.read (st.str.set st.p '\x00') (.pointer st.s) = st.piece str := by
  have hd : '\x00' ∉ st.str.drop st.s := by
    rw [h.rest]
    exact fun hm => hn (mem_of_mem_drop hm)
  rw [SplitState.piece, ← h.rest]
  exact takeWhile_set_at h.le hd

theorem endPiece_cases (he : endPiece maxSize immutable st = some st') :
    st.p = st.s ∧ st' = st ∨
      st.p ≠ st.s ∧ st' = { st with vec := st.vec ++ [.copy ((st.str.drop st.s).take (st.p - st.s))] } ∨
      st.p ≠ st.s ∧ st' = { st with vec := st.vec ++ [.pointer st.s], str := st.str.set st.p '\x00' } := by
  rw [endPiece] at he
  by_cases hp : st.p = st.s
  · rw [if_neg (not_not.mpr hp), Option.some.injEq] at he
    exact .inl ⟨hp, he.symm⟩
  · rw [if_pos hp, allocSubstring] at he
    split_ifs at he with hfull him
    · exact .inr (.inl ⟨hp, (Option.some.inj he).symm⟩)
    · exact .inr (.inr ⟨hp, (Option.some.inj he).symm⟩)

theorem endPiece_vec (h : Splitting str done st) (hn : '\x00' ∉ str)
    (he : endPiece maxSize immutable st = some st') :
    st'.vec.map (SplitEntry.read st'.str) = done ++ pieces (st.piece str) := by
  rw [h.pieces_piece]
  rcases endPiece_cases he with ⟨hp, rfl⟩ | ⟨hp, rfl⟩ | ⟨hp, rfl⟩
  · rw [if_pos hp, h.done, append_nil]
  · rw [if_neg hp, map_append, h.done, h.rest]
    rfl
  · rw [if_neg hp, map_append, h.read_set, map_singleton, h.read_piece hn]

theorem endPiece_capped (maxSize : ℕ) (immutable : Bool) (h : Splitting str done st) (hn : '\x00' ∉ str)
    (hfit : maxSize = 0 ∨ done.length ≤ maxSize) :
    (endPiece maxSize immutable st).map (fun st' => st'.vec.map (SplitEntry.read st'.str)) =
      capped maxSize (done ++ pieces (st.piece str)) := by
  cases he : endPiece maxSize immutable st with
  | some st' =>
    rw [Option.map_some, endPiece_vec h hn he, capped, if_neg]
    rw [length_append, h.pieces_piece]
    by_cases hp : st.p = st.s
    · rw [if_pos hp, length_nil]
      omega
    · rw [endPiece, if_pos hp, allocSubstring, h.vec_length] at he
      rw [if_neg hp, length_singleton]
      split_ifs at he with hfull <;> omega
  | none =>
    have hp : st.p ≠ st.s := fun hp => by
      rw [endPiece, if_neg (not_not.mpr hp)] at he
      cases he
    rw [endPiece, if_pos hp, allocSubstring, h.vec_length] at he
    rw [capped, if_pos, Option.map_none]
    rw [length_append, h.pieces_piece, if_neg hp, length_singleton]
    split_ifs at he with hfull
    omega

theorem Splitting.next (h : Splitting str done st) (hn : '\x00' ∉ str) (hp : st.p < str.length)
    (he : endPiece maxSize immutable st = some st') :
    Splitting str (done ++ pieces (st.piece str)) { st' with p := st.p + 1, s := st.p + 1 } := by
  have hle := h.le
  have hrest : st.str.drop (st.p + 1) = str.drop (st.p + 1) := by
    have hd := congrArg (List.drop (st.p + 1 - st.s)) h.rest
    rwa [List.drop_drop, List.drop_drop, show st.s + (st.p + 1 - st.s) = st.p + 1 by omega] at hd
  have hlt : ∀ i, .pointer i ∈ st.vec → i + ((st.str.drop i).takeWhile (· ≠ '\x00')).length < st.p :=
    fun i hi => (h.ended i hi).trans_le hle
  have hvec := endPiece_vec h hn he
  refine ⟨?_, ?_, le_rfl, hp, by simp, hvec, ?_⟩
  · rcases endPiece_cases he with ⟨-, rfl⟩ | ⟨-, rfl⟩ | ⟨-, rfl⟩
    · exact h.length
    · exact h.length
    · exact List.length_set.trans h.length
  · rcases endPiece_cases he with ⟨-, rfl⟩ | ⟨-, rfl⟩ | ⟨-, rfl⟩
    · exact hrest
    · exact hrest
    · exact (List.drop_set_of_lt (Nat.lt_succ_self _)).trans hrest
  · intro i hi
    rcases endPiece_cases he with ⟨-, rfl⟩ | ⟨-, rfl⟩ | ⟨-, rfl⟩
    · exact (hlt i hi).trans (Nat.lt_succ_self _)
    · have hi' : SplitEntry.pointer i ∈ st.vec := by simpa using hi
      exact (hlt i hi').trans (Nat.lt_succ_self _)
    · rcases List.mem_append.mp hi with hi | hi
      · have hkeep := takeWhile_set_nul (hlt i hi)
        have hi' := hlt i hi
        dsimp only
        rw [hkeep]
        omega
      · obtain rfl : i = st.s := by simpa using hi
        have hread := congrArg List.length (h.read_piece hn)
        have hlen := List.length_take_le (st.p - st.s) (str.drop st.s)
        rw [SplitEntry.read, SplitState.piece] at hread
        dsimp only
        omega

theorem Splitting.skip (h : Splitting str done st) (hc : str[st.p]? = some c)
    (hs : isSeparator c = false) : Splitting str done { st with p := st.p + 1 } := by
  have hle := h.le
  obtain ⟨hp, hget⟩ := List.getElem?_eq_some_iff.mp hc
  refine ⟨h.length, h.rest, by dsimp only; omega, hp, ?_, h.done, h.ended⟩
  intro x hx
  dsimp only at hx
  rw [show st.p + 1 - st.s = st.p - st.s + 1 by omega, List.take_add_one] at hx
  rcases List.mem_append.mp hx with hx | hx
  · exact h.clean x hx
  · rw [List.getElem?_drop, show st.s + (st.p - st.s) = st.p by omega, hc] at hx
    obtain rfl : x = c := by simpa using hx
    exact hs

theorem Splitting.at_p (h : Splitting str done st) : st.str[st.p]? = str[st.p]? := by
  have hle := h.le
  have hg := congrArg (fun t : Text => t[st.p - st.s]?) h.rest
  rwa [getElem?_drop, getElem?_drop, show st.s + (st.p - st.s) = st.p by omega] at hg

theorem Splitting.piece_append (h : Splitting str done st) : st.piece str ++ str.drop st.p = str.drop st.s := by
  have hle := h.le
  rw [SplitState.piece, show str.drop st.p = (str.drop st.s).drop (st.p - st.s) by
    rw [drop_drop, show st.s + (st.p - st.s) = st.p by omega]]
  exact take_append_drop _ _

/-! ### The whole string -/

theorem splitLoop_returns (h : Splitting str done st) (hn : '\x00' ∉ str) (hlast : str.getLast? ≠ some '\\')
    (hfit : maxSize = 0 ∨ done.length ≤ maxSize) :
    Returns (fun fuel => (splitLoop maxSize immutable fuel st).map (collectPieces maxSize immutable))
      (capped maxSize (done ++ pieces (str.drop st.s))) := by
  -- the pointer moves on in every pass, so the induction is on the rest of the string
  induction hk : str.length - st.p generalizing st done with
  | zero =>
    have hb := h.bound
    have hend : st.str[st.p]? = none := by
      rw [h.at_p]
      exact getElem?_eq_none_iff.mpr (by omega)
    have hpiece : st.piece str = str.drop st.s := by
      rw [← h.piece_append, drop_eq_nil_of_le (by omega : str.length ≤ st.p), append_nil]
    rw [← hpiece, ← endPiece_capped maxSize immutable h hn hfit]
    apply Returns.step
    apply (Returns.pure _).congr
    intro fuel
    simp only [splitLoop, hend]
    rfl
  | succ k ih =>
    have hp : st.p < str.length := by omega
    have hc : str[st.p]? = some str[st.p] := getElem?_eq_getElem hp
    have hc' : st.str[st.p]? = some str[st.p] := h.at_p.trans hc
    have hdrop : str.drop st.p = str[st.p] :: str.drop (st.p + 1) := drop_eq_getElem_cons hp
    apply Returns.step
    by_cases hb : str[st.p] = '\\'
    · have hnext : st.p + 1 < st.str.length := by
        by_contra hge
        apply hlast
        rw [h.length] at hge
        rw [getLast?_eq_getElem?, show str.length - 1 = st.p by omega, hc, hb]
      have hs : isSeparator str[st.p] = false := by
        rw [hb]
        rfl
      apply (ih (h.skip hc hs) hfit (by dsimp only; omega)).congr
      intro fuel
      simp only [splitLoop, hc', if_pos hb, if_pos hnext]
    · by_cases hs : isSeparator str[st.p] = true
      · have hpieces : pieces (str.drop st.s) = pieces (st.piece str) ++ pieces (str.drop (st.p + 1)) := by
          rw [← h.piece_append, hdrop, pieces_append hs]
        have hcap := endPiece_capped maxSize immutable h hn hfit
        cases he : endPiece maxSize immutable st with
        | none =>
          rw [he, Option.map_none] at hcap
          rw [hpieces, ← append_assoc, capped_append hcap.symm]
          apply (Returns.pure _).congr
          intro fuel
          simp only [splitLoop, hc', if_neg hb, if_pos hs, he]
          rfl
        | some st' =>
          rw [he, Option.map_some] at hcap
          rw [hpieces, ← append_assoc]
          apply (ih (h.next hn hp he) (fits_of_capped hcap.symm) (by dsimp only; omega)).congr
          intro fuel
          simp only [splitLoop, hc', if_neg hb, if_pos hs, he]
      · apply (ih (h.skip hc (Bool.eq_false_iff.mpr hs)) hfit (by dsimp only; omega)).congr
        intro fuel
        simp only [splitLoop, hc', if_neg hb, if_neg hs]

theorem splitOverlayStr_returns (hn : '\x00' ∉ str) (hlast : str.getLast? ≠ some '\\') :
    Returns (splitOverlayStr maxSize immutable · str) (capped maxSize (pieces str)) :=
  splitLoop_returns (Splitting.start str) hn hlast (Or.inr (Nat.zero_le maxSize))

theorem splitLoop_stuck (immutable : Bool) (h : Splitting str done st) (hn : '\x00' ∉ str)
    (hlast : str.getLast? = some '\\') (hp : st.p < str.length) (fuel : ℕ) : splitLoop 0 immutable fuel st = none := by
  induction fuel generalizing st done with
  | zero => rfl
  | succ fuel ih =>
    have hc : str[st.p]? = some str[st.p] := getElem?_eq_getElem hp
    have hc' : st.str[st.p]? = some str[st.p] := h.at_p.trans hc
    have hnext : str[st.p] ≠ '\\' → st.p + 1 < str.length := by
      intro hne
      by_contra hge
      rw [getLast?_eq_getElem?, show str.length - 1 = st.p by omega, hc] at hlast
      exact hne (Option.some.inj hlast)
    by_cases hb : str[st.p] = '\\'
    · have hs : isSeparator str[st.p] = false := by
        rw [hb]
        rfl
      by_cases hlt : st.p + 1 < st.str.length
      · simp only [splitLoop, hc', if_pos hb, if_pos hlt]
        exact ih (h.skip hc hs) (by rwa [h.length] at hlt)
      · simp only [splitLoop, hc', if_pos hb, if_neg hlt]
        exact ih h hp
    · by_cases hs : isSeparator str[st.p] = true
      · cases he : endPiece 0 immutable st with
        | none =>
          have hcap := endPiece_capped 0 immutable h hn (.inl rfl)
          rw [he, capped, if_neg (by omega)] at hcap
          cases hcap
        | some st' =>
          simp only [splitLoop, hc', if_neg hb, if_pos hs, he]
          exact ih (h.next hn hp he) (hnext hb)
      · simp only [splitLoop, hc', if_neg hb, if_neg hs]
        exact ih (h.skip hc (Bool.eq_false_iff.mpr hs)) (hnext hb)

/-! ### Escaped separators -/

theorem flatten_splitOnP {α : Type} (q : α → Bool) (l : List α) : (l.splitOnP q).flatten = l.filter (! q ·) := by
  induction l with
  | nil => rfl
  | cons a l ih =>
    rw [splitOnP_cons_eq_if_modifyHead]
    by_cases ha : q a = true
    · simp [ha, ih]
    · obtain ⟨t, ts, ht⟩ := exists_cons_of_ne_nil (splitOnP_ne_nil q l)
      rw [ht] at ih ⊢
      simpa [ha] using ih

theorem map_splitOnP {α β : Type} (f : β → α) {q : α → Bool} {q' : β → Bool} {l : List β}
    (h : ∀ x ∈ l, q' x = q (f x)) : (l.splitOnP q').map (List.map f) = (l.map f).splitOnP q := by
  induction l with
  | nil => rfl
  | cons b l ih =>
    have ht := ih fun x hx => h x (mem_cons_of_mem _ hx)
    rw [map_cons, splitOnP_cons_eq_if_modifyHead, splitOnP_cons_eq_if_modifyHead, ← ht,
      h b mem_cons_self]
    obtain ⟨t, ts, hts⟩ := exists_cons_of_ne_nil (splitOnP_ne_nil q' l)
    rw [hts]
    by_cases hb : q (f b) = true
    · simp [hb]
    · simp [hb]

theorem withEscapes_fst (str : Text) : (withEscapes str).map Prod.fst = str :=
  map_fst_zip (by simp)

theorem mem_zip_escapes (b : Bool) (str : Text) :
    (c, true) ∈ str.zip (b :: str.map (fun a => decide (a = '\\'))) ↔
      (b = true ∧ str.head? = some c) ∨ ['\\', c] <:+: str := by
  induction str generalizing b with
  | nil => simp
  | cons a str ih =>
    rw [map_cons, zip_cons_cons, mem_cons, ih, infix_cons_iff, cons_prefix_cons]
    have hhead : [c] <+: str ↔ str.head? = some c := by
      cases str with
      | nil => simp
      | cons x str => simp [cons_prefix_cons, eq_comm]
    rw [hhead, Prod.mk.injEq, decide_eq_true_iff, head?_cons, Option.some.injEq]
    grind

theorem mem_withEscapes : (c, true) ∈ withEscapes str ↔ ['\\', c] <:+: str := by
  rw [withEscapes, mem_zip_escapes]
  simp

theorem unescapedPieces_of_plain (h : ∀ c, isSeparator c = true → ¬ ['\\', c] <:+: str) :
    unescapedPieces str = pieces str := by
  have hagree : ∀ x ∈ withEscapes str, (isSeparator x.1 && !x.2) = isSeparator x.1 := by
    rintro ⟨c, b⟩ hx
    cases b with
    | false => simp
    | true =>
      have hc : isSeparator c = false := Bool.eq_false_iff.mpr fun hc => h c hc (mem_withEscapes.mp hx)
      simp [hc]
  have hmap := map_splitOnP Prod.fst (q := isSeparator) hagree
  rw [withEscapes_fst] at hmap
  rw [pieces, ← hmap, unescapedPieces, filter_map]
  congr 1
  apply filter_congr
  intro t _
  simp

theorem unescapedPieces_ne (hc : isSeparator c = true) (h : ['\\', c] <:+: str) :
    pieces str ≠ unescapedPieces str := by
  intro he
  have hflat := congrArg flatten he
  have hcode : c ∉ (pieces str).flatten := by
    rw [pieces, flatten_filter_ne_nil, flatten_splitOnP]
    simp [hc]
  apply hcode
  rw [hflat, unescapedPieces, ← map_flatten, flatten_filter_ne_nil, flatten_splitOnP]
  exact mem_map.mpr ⟨(c, true), mem_filter.mpr ⟨mem_withEscapes.mpr h, by simp⟩, rfl⟩

def SplitsAtUnescaped (str : Text) : Prop :=
  ∀ maxSize immutable, ∃ result, Returns (splitOverlayStr maxSize immutable · str) result ∧
    ∀ vec, result = some vec → vec = unescapedPieces str

/-- The C strings that are split as described: those without a backslash before a separator or at the end. -/
theorem splitOverlayStr_unescaped_iff (hn : '\x00' ∉ str) : SplitsAtUnescaped str ↔ ¬ BadEscape str := by
  constructor
  · intro hsplit hbad
    obtain ⟨result, hret, hvec⟩ := hsplit 0 true
    by_cases hlast : str.getLast? = some '\\'
    · obtain ⟨n, hn'⟩ := hret
      have hpos : 0 < str.length := length_pos_iff.mpr fun hnil => by
        rw [hnil] at hlast
        cases hlast
      have hstuck := splitLoop_stuck true (Splitting.start str) hn hlast hpos n
      have hres : splitOverlayStr 0 true n str = some result := hn' n le_rfl
      rw [splitOverlayStr, hstuck] at hres
      cases hres
    · obtain ⟨c, hc, hinf⟩ := hbad.resolve_left hlast
      have hres := hret.unique (splitOverlayStr_returns hn hlast)
      rw [capped, if_neg (by omega)] at hres
      exact unescapedPieces_ne hc hinf (hvec _ hres)
  · intro hgood maxSize immutable
    have hlast : str.getLast? ≠ some '\\' := fun h => hgood (.inl h)
    refine ⟨capped maxSize (pieces str), splitOverlayStr_returns hn hlast, fun vec hvec => ?_⟩
    rw [capped] at hvec
    split_ifs at hvec with hfull
    rw [← Option.some.inj hvec, unescapedPieces_of_plain]
    exact fun c hc h => hgood (.inr ⟨c, hc, h⟩)

theorem plain_dirs_split : SplitsAtUnescaped "/a,/b".toList := by
  apply (splitOverlayStr_unescaped_iff (by decide)).mpr
  rintro (h | ⟨c, -, h⟩)
  · exact absurd h (by decide)
  · have hmem : '\\' ∈ "/a,/b".toList := h.subset mem_cons_self
    exact absurd hmem (by decide)

/-- A comma with a backslash before it splits, and after a last backslash the loop does not end. -/
theorem escaped_comma_splits :
    splitOverlayStr 0 true 5 "a\\,b".toList = some (some ["a\\".toList, "b".toList]) ∧
      unescapedPieces "a\\,b".toList = ["a\\,b".toList] ∧
      ∀ fuel, splitOverlayStr 0 true fuel "\\".toList = none := by
  refine ⟨by decide, by decide, fun fuel => ?_⟩
  have hstuck := splitLoop_stuck true (Splitting.start "\\".toList) (by decide) (by decide) (by decide) fuel
  exact congrArg (Option.map (collectPieces 0 true)) hstuck

end AppArmor

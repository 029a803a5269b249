import Mathlib.Tactic

namespace AppArmor

abbrev Text := List Char

instance lawfulBEqText : LawfulBEq Text := inferInstance

theorem forall_mem_of_all {α : Type} {p : α → Prop} [DecidablePred p] {l : List α} (h : l.all (fun a => decide (p a)) = true) :
    ∀ a ∈ l, p a := by
  intro a ha
  exact of_decide_eq_true (List.all_eq_true.mp h a ha)

def chrtoi (c : Char) (base : ℕ) : Option ℕ :=
  let val :=
    if c.isDigit then some (c.toNat - '0'.toNat)
    else if c.isAlpha then some (c.toLower.toNat - 'a'.toNat + 10)
    else none
  val.filter (· < base)

def strntol (base maxval : ℕ) : ℕ → Text → ℕ → ℕ × ℕ
  | n + 1, c :: str, val =>
    match chrtoi c base with
    | some d =>
      if val * base + d > maxval then (val, 0)
      else
        let (v, k) := strntol base maxval n str (val * base + d)
        (v, k + 1)
    | none => (val, 0)
  | _, _, val => (val, 0)

/-- What becomes of an escape sequence: a character and the length of the sequence; an error, with the number of
characters that are skipped; or the end of the string, which is taken for an escaped NUL. -/
inductive EscSeq
  | char (c len : ℕ)
  | error (skipped : ℕ)
  | overrun
  deriving DecidableEq

def isodigit (c : Char) : Bool := '0' ≤ c ∧ c ≤ '7'

def simpleEscape : Char → Option ℕ
  | '\\' => some '\\'.toNat
  | '"' => some '"'.toNat
  | 'a' => some 7
  | 'e' => some 27
  | 'f' => some 12
  | 'n' => some 10
  | 'r' => some 13
  | 't' => some 9
  | _ => none

def escapeNumber (base n : ℕ) (s : Text) : EscSeq :=
  let (v, k) := strntol base 255 n s 0
  if k = 0 then .error 1 else .char v (k + 1)

def strnEscseq (chrs : Text) (n : ℕ) : Text → EscSeq
  | [] => if n < 1 then .error 0 else .overrun
  | c :: s =>
    if n < 1 then .error 0
    else if isodigit c then
      let (v, k) := strntol 8 255 (min 3 n) (c :: s) 0
      .char v k
    else if c = 'd' then escapeNumber 10 (min 3 (n - 1)) s
    else if c = 'x' then escapeNumber 16 (min 2 (n - 1)) s
    else
      match simpleEscape c with
      | some v => .char v 1
      | none => if c ∈ chrs then .char c.toNat 1 else .error 0

def strEscseq (chrs : Text) (s : Text) : EscSeq := strnEscseq chrs (2 ^ 64 - 1) s

end AppArmor

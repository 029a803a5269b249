import AppArmor.Lib.PyRe
import AppArmor.Glob.Escape

namespace AppArmor

open List

def isStripped (c : Char) : Bool :=
  c.toNat ∈ [9, 10, 11, 12, 13, 28, 29, 30, 31, 32, 0x85, 0xa0, 0x1680, 0x2028, 0x2029, 0x202f, 0x205f, 0x3000] ∨
    0x2000 ≤ c.toNat ∧ c.toNat ≤ 0x200a

def strip (s : Text) : Text := ((s.dropWhile isStripped).reverse.dropWhile isStripped).reverse

def replaceFrom (old new : Text) : Text → (skip : ℕ) → Text
  | [], _ => []
  | _ :: s, k + 1 => replaceFrom old new s k
  | c :: s, 0 =>
    if old.isPrefixOf (c :: s) then new ++ replaceFrom old new s (old.length - 1) else c :: replaceFrom old new s 0

def replaceText (old new s : Text) : Text := replaceFrom old new s 0

section Replace

variable {old : Text}

theorem replaceFrom_skip {new : Text} (p s : Text) : replaceFrom old new (p ++ s) p.length = replaceFrom old new s 0 := by
  induction p with
  | nil => rfl
  | cons c p ih => exact ih

theorem replaceText_single (x : Char) (new s : Text) : replaceText [x] new s = s.flatMap fun c => if c = x then new else [c] := by
  unfold replaceText
  induction s with
  | nil => rfl
  | cons c s ih =>
    rw [replaceFrom, flatMap_cons]
    by_cases hc : c = x
    · rw [if_pos (by simp [hc]), if_pos hc]
      exact congrArg (new ++ ·) ih
    · have hpre : ¬ [x].isPrefixOf (c :: s) := by
        simp only [isPrefixOf_cons_cons, Bool.and_eq_true, beq_iff_eq, not_and]
        intro h
        exact absurd h.symm hc
      rw [if_neg hpre, if_neg hc, ih]
      rfl

theorem replaceFrom_head (new s : Text) (hne : old ≠ []) :
    replaceFrom old new (old ++ s) 0 = new ++ replaceFrom old new s 0 := by
  obtain ⟨c, old, rfl⟩ := exists_cons_of_ne_nil hne
  rw [cons_append, replaceFrom, if_pos]
  · rw [length_cons, Nat.add_sub_cancel, replaceFrom_skip]
  · rw [ isPrefixOf_iff_prefix]
    exact prefix_append (c :: old) s

theorem replaceFrom_other (new : Text) {c : Char} {s : Text} (h : ¬ old <+: c :: s) :
    replaceFrom old new (c :: s) 0 = c :: replaceFrom old new s 0 := by
  rw [replaceFrom, if_neg]
  rwa [ isPrefixOf_iff_prefix]

theorem replaceFrom_append {new p s : Text}
    (h : ∀ a b, p = a ++ b → b ≠ [] → ¬ old <+: b ++ s) : replaceFrom old new (p ++ s) 0 = p ++ replaceFrom old new s 0 := by
  induction p with
  | nil => rfl
  | cons c p ih =>
    have hc : ¬ old <+: c :: (p ++ s) := h [] (c :: p) rfl (cons_ne_nil _ _)
    rw [cons_append, replaceFrom_other new hc, ih]
    · rfl
    · intro a b hab hb
      exact h (c :: a) b (by rw [hab]; rfl) hb

end Replace

def escapeSpecial : (prev : Option Char) → Text → Text
  | _, [] => []
  | prev, c :: s =>
    if c ∈ ['.', '+', '$'] ∧ prev ≠ some '\\' then '\\' :: c :: escapeSpecial (some c) s
    else c :: escapeSpecial (some c) s

def restOfLine (s : Text) : Option Text :=
  if '\n' ∉ s then some s else if '\n' ∉ s.dropLast ∧ s.getLast? = some '\n' then some s.dropLast else none

def regexParen : Text → Option (Text × Text × Text)
  | [] => none
  | c :: s =>
    match if c = '\n' then none else regexParen s with
    | some (prev, p, after) => some (c :: prev, p, after)
    | none =>
      if c = '{' ∧ '}' ∈ s then
        (restOfLine (s.dropWhile (· ≠ '}')).tail).map fun after => ([], s.takeWhile (· ≠ '}'), after)
      else none

def replaceParens : ℕ → Text → Text
  | 0, s => s
  | n + 1, s =>
    match regexParen s with
    | none => s
    | some (prev, p, after) => replaceParens n (prev ++ ['('] ++ replaceText [','] ['|'] p ++ [')'] ++ after)

def multiGlob : Text := "__KJHDKVZH_AAPROF_INTERNAL_GLOB_SVCUZDGZID__".toList

def convertRegexp (regexp : Text) : Text :=
  let regexp := strip regexp
  let regexp := replaceText [')'] ['\\', ')'] (replaceText ['('] ['\\', '('] regexp)
  let newReg := escapeSpecial none regexp
  let newReg := replaceParens (newReg.count '{') newReg
  let newReg := replaceText ['?'] "[^/\x00]".toList newReg
  let newReg := replaceText ['*', '*'] multiGlob newReg
  let newReg := replaceText ['*'] "(((?<=/)[^/\x00]+)|((?<!/)[^/\x00]*))".toList newReg
  let newReg := replaceText multiGlob "(((?<=/)[^\x00]+)|((?<!/)[^\x00]*))".toList newReg
  let newReg := if regexp.head? = some '^' then newReg else '^' :: newReg
  if regexp.getLast? = some '$' then newReg else newReg ++ ['$']

structure Aare where
  regex : Text
  origRegex : Option Text
  deriving DecidableEq

def isPlainPath (s : Text) : Bool :=
  let plain (s : Text) : Bool := !s.isEmpty && s.all fun c => c.isAlphanum || ['/', '.', '_', '-'].contains c
  plain s || (s.getLast? = some '\n' && plain s.dropLast)

namespace Aare

def new (regex : Text) : Aare := ⟨regex, none⟩

def matchText (a : Aare) (s : Text) : Option Bool := (PyRe.compile (convertRegexp a.regex)).map fun r => PyRe.matchStart r s

def matchAare (a b : Aare) : Option Bool :=
  match b.origRegex with
  | some (c :: s) => a.matchText (c :: s)
  | _ => if isPlainPath b.regex then a.matchText b.regex else some (a.regex = b.regex)

end Aare

end AppArmor

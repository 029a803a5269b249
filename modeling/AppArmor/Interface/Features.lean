import AppArmor.Glob.Escape
import Mathlib.Data.List.TakeWhile
import Mathlib.Tactic

namespace AppArmor

inductive Entries
  | nil
  | file (name content : Text) (rest : Entries)
  | dir (name : Text) (sub rest : Entries)
  | other (name : Text) (rest : Entries)

def renderEntry (name body : Text) : Text :=
  if name.head? = some '.' ∨ name = [] then [] else name ++ [' ', '{'] ++ body ++ ['}', '\n']

def Entries.render : Entries → Text
  | nil => []
  | file name content rest => renderEntry name content ++ rest.render
  | dir name sub rest => renderEntry name sub.render ++ rest.render
  | other name rest => renderEntry name [] ++ rest.render

def stringSize : ℕ := 8192

def loadFeaturesDir (entries : Entries) : Option Text :=
  if entries.render.length < stringSize then some entries.render else none

def isBrace (c : Char) : Bool := c = '{' ∨ c = '}'

def isSpace (c : Char) : Bool := c ∈ [' ', '\t', '\n', '\x0b', '\x0c', '\r']

def isAscii (c : Char) : Bool := c.toNat < 128

def readSign : Text → Bool × Text
  | '-' :: s => (true, s)
  | '+' :: s => (false, s)
  | s => (false, s)

def signed (neg : Bool) (n : ℕ) : ℤ := if neg then -n else n

theorem isDigit_bounds {c : Char} (h : c.isDigit = true) : 48 ≤ c.toNat ∧ c.toNat ≤ 57 := by
  rw [Char.isDigit, Bool.and_eq_true, decide_eq_true_eq, decide_eq_true_eq] at h
  exact ⟨h.1, h.2⟩

theorem ne_of_isDigit {c d : Char} (h : c.isDigit = true) (hd : d.isDigit = false) : c ≠ d := by
  rintro rfl
  rw [h] at hd
  cases hd

theorem isSpace_of_isDigit {c : Char} (h : c.isDigit = true) : isSpace c = false := by
  have hc : ∀ d ∈ [' ', '\t', '\n', '\x0b', '\x0c', '\r'], d.isDigit = false := forall_mem_of_all (by decide)
  rw [isSpace, decide_eq_false_iff_not]
  intro hmem
  exact ne_of_isDigit h (hc c hmem) rfl

theorem readSign_of_isDigit {c : Char} (hc : c.isDigit = true) (cs : Text) : readSign (c :: cs) = (false, c :: cs) := by
  have hminus : c ≠ '-' := ne_of_isDigit hc rfl
  have hplus : c ≠ '+' := ne_of_isDigit hc rfl
  rw [readSign.eq_def]
  split
  · rename_i h
    exact absurd (List.cons.inj h).1 hminus
  · rename_i h
    exact absurd (List.cons.inj h).1 hplus
  · rfl

def atBoundary : Text → Bool
  | [] => true
  | c :: _ => isBrace c || isSpace c

def nextIndex (component cur : Text) (braceCount i : ℕ) (c : Char) : ℕ :=
  let i := if braceCount = 0 ∧ component[i]? = some c then i + 1 else 0
  if i = component.length ∧ ¬ atBoundary cur then 0 else i

@[grind =]
def findComponent (component : Text) : (cur : Text) → (braceCount i : ℕ) → Option (Text × ℕ)
  | [], _, i => some ([], i)
  | c :: cur, braceCount, i =>
    if ¬ i < component.length then some (c :: cur, i)
    else if ¬ isAscii c then none
    else if c = '{' ∧ braceCount = 2 ^ 32 - 1 then none
    else if c = '}' ∧ braceCount = 0 then none
    else
      let braceCount := if c = '{' then braceCount + 1 else if c = '}' then braceCount - 1 else braceCount
      findComponent component cur braceCount (nextIndex component cur braceCount i c)

def skipToBrace : Text → Option Text
  | [] => some []
  | c :: cur => if isBrace c then some (c :: cur) else if ¬ isAscii c then none else skipToBrace cur

def walkFrom (component cur : Text) : Option Text :=
  match findComponent component cur 0 0 with
  | none => none
  | some (cur, i) => if i ≠ component.length ∨ ¬ atBoundary cur then none else skipToBrace cur

def walkOne (str component : Text) (isTopLevel : Bool) : Option Text :=
  if component = [] then none
  else if isTopLevel then walkFrom component str
  else
    match str with
    | c :: cur => if c = '{' then walkFrom component cur else none
    | [] => none

def pathComponents (path : Text) : List Text := (path.splitOn '/').filter (· ≠ [])

def tokenizePathComponents (path : Text) (maxComponents : ℕ) : List Text := (pathComponents path).take maxComponents

def walkRest (str : Text) : List Text → Option Text
  | [] => some str
  | component :: components => (walkOne str component false).bind fun str => walkRest str components

def featuresLookup (features path : Text) : Option Text :=
  -- the string ends at the first NUL
  let featuresString := features.takeWhile (· ≠ '\x00')
  if path.head? = some '/' then none
  else
    match tokenizePathComponents path 32 with
    | [] => none
    | component :: components => (walkOne featuresString component true).bind fun str => walkRest str components

def featuresSupports (features path : Text) : Bool := (featuresLookup features path).isSome

end AppArmor

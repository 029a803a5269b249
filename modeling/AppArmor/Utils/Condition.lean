import AppArmor.Interface.Features
import AppArmor.Utils.Aare
import AppArmor.Vars.Regular
import AppArmor.Vars.Session
import Mathlib

namespace AppArmor

inductive OrderOp
  | gt
  | ge
  | lt
  | le
  deriving DecidableEq

inductive CondOp
  | eq
  | ne
  | isIn
  | order (op : OrderOp)
  deriving DecidableEq

/-- The terms of a comparison. An id is given as the text between its quotes, if it has any, which is what the lexer of the
parser and the constants of the utils' tree hold; it has no sign of a variable. -/
inductive CondTerm
  | id (value : Text)
  | setVar (x : Text)
  deriving DecidableEq

inductive Cond
  | or (a b : Cond)
  | and (a b : Cond)
  | not (a : Cond)
  | boolVar (x : Text)
  | definedSet (x : Text)
  | definedBool (x : Text)
  | compare (l : CondTerm) (op : CondOp) (r : CondTerm)
  | value (term : CondTerm)

def boolVarText (x : Text) : Text := '$' :: x

def CondTerm.text : CondTerm → Text
  | .id value => value
  | .setVar x => refText x

def OrderOp.byLt (op : OrderOp) (lt gt : Bool) : Bool :=
  match op with
  | .gt => gt
  | .ge => !lt
  | .lt => lt
  | .le => !gt

/-! ### The parser -/

def digitValue (c : Char) : ℕ :=
  if c.isDigit then c.toNat - 48
  else if 'a' ≤ c ∧ c ≤ 'f' then c.toNat - 87
  else if 'A' ≤ c ∧ c ≤ 'F' then c.toNat - 55
  else 16

def digitsValue (base : ℕ) (ds : Text) : ℕ := ds.foldl (fun n c => n * base + digitValue c) 0

def readBase : Text → ℕ × Text
  | '0' :: c :: s =>
    if (c = 'x' ∨ c = 'X') ∧ digitValue (s.headD ' ') < 16 then (16, s) else (8, '0' :: c :: s)
  | '0' :: s => (8, '0' :: s)
  | s => (10, s)

def strtol (s : Text) : Option (ℤ × Text) :=
  let sign := readSign (s.dropWhile isSpace)
  let start := readBase sign.2
  let ds := start.2.takeWhile fun c => digitValue c < start.1
  let n := signed sign.1 (digitsValue start.1 ds)
  if ds = [] then some (0, s)
  else if -2 ^ 63 ≤ n ∧ n < 2 ^ 63 then some (n, start.2.dropWhile fun c => digitValue c < start.1)
  else none

def strSetToLong (src : Finset Text) : Option (ℤ × Bool) :=
  match src.sort with
  | [s] => if s = [] then some (0, false) else (strtol s).map fun (n, rest) => (n, rest = [])
  | _ => some (0, false)

def compareSets (lhs : Finset Text) (op : CondOp) (rhs : Finset Text) : Option Bool :=
  match op with
  | .isIn => some (lhs ⊆ rhs)
  | .eq => some (lhs = rhs)
  | .ne => some (lhs ≠ rhs)
  | .order op =>
    match strSetToLong lhs, strSetToLong rhs with
    | some (_, false), some (_, false) => some (op.byLt (lhs.sort < rhs.sort) (rhs.sort < lhs.sort))
    | some (n, true), some (m, true) => some (op.byLt (n < m) (m < n))
    | _, _ => none

def getSet (fuel : ℕ) (t : Symtab) (var : Text) : Option (Symtab × Option (Finset Text)) :=
  match processVar var with
  | none => some (t, some {var})
  | some x =>
    match t x with
    | none => some (t, none)
    | some _ =>
      (expandVariable fuel t x).map fun (t, rc) => (t, if rc = .ok then (t x).map fun v => v.expanded.toFinset else none)

def andThen {α β : Type} (r : Option (Symtab × Option α)) (f : Symtab → α → Option (Symtab × Option β)) :
    Option (Symtab × Option β) :=
  match r with
  | none => none
  | some (t, none) => some (t, none)
  | some (t, some a) => f t a

def strToBoolean (value : Text) : Option Bool :=
  if value.map Char.toLower = "true".toList then some true
  else if value.map Char.toLower = "false".toList then some false
  else none

def condExpr (fuel : ℕ) : Symtab → Cond → Option (Symtab × Option Bool)
  | t, .or a b => andThen (condExpr fuel t a) fun t x => andThen (condExpr fuel t b) fun t y => some (t, some (x || y))
  | t, .and a b => andThen (condExpr fuel t a) fun t x => andThen (condExpr fuel t b) fun t y => some (t, some (x && y))
  | t, .not a => andThen (condExpr fuel t a) fun t x => some (t, some !x)
  | t, .boolVar x =>
    let ref := (processVar (boolVarText x)).bind fun x => (t x).filter fun v => v.type = .boolean
    some (t, ref.map fun v => v.boolean ≠ 0)
  | t, .definedSet x => definedVar fuel t (refText x)
  | t, .definedBool x => definedVar fuel t (boolVarText x)
  | t, .compare l op r =>
    andThen (getSet fuel t l.text) fun t lhs => andThen (getSet fuel t r.text) fun t rhs => some (t, compareSets lhs op rhs)
  | t, .value term => some (t, strToBoolean term.text)
where
  /-- `DEFINED_OP` asks for a set variable, whichever sign the variable has. -/
  definedVar (fuel : ℕ) (t : Symtab) (var : Text) : Option (Symtab × Option Bool) :=
    (getSetVar fuel t var).map fun (t, r) =>
      (t, match r with
        | .found _ => some true
        | .notFound => some false
        | .aborted => none)

/-! ### The utils -/

structure CondTable where
  bools : List (Text × Bool)
  sets : List (Text × List Text)
  apart : ∀ x b vs, (x, b) ∈ bools → (x, vs) ∉ sets
  nonempty : ∀ x vs, (x, vs) ∈ sets → vs ≠ []

def stripQuotes (data : Text) : Text :=
  if 1 < data.length ∧ data.head? = some '"' ∧ data.getLast? = some '"' then data.tail.dropLast else data

def quoteIfNeeded (data : Text) : Text := if ' ' ∈ data then '"' :: data ++ ['"'] else data

def isIdChar (c : Char) : Bool := c ∉ [',', '!', '#', '=', '@', '$', '(', ')', '"'] ∧ isStripped c = false

/-- The characters `(\w|\s)` of an id in quotes, in ASCII. -/
def isQuotedIdChar (c : Char) : Bool := c.isAlphanum || c = '_' || isStripped c

/-- What the search of `RE_ID` in a text finds first. -/
def searchId : Text → Option Text
  | [] => none
  | c :: s =>
    if isIdChar c then some ((c :: s).takeWhile isIdChar)
    else if c = '"' ∧ (s.dropWhile isQuotedIdChar).head? = some '"' then some ('"' :: s.takeWhile isQuotedIdChar ++ ['"'])
    else searchId s

/-- The id that `evaluate_tree` makes of a constant. -/
def idOf (value : Text) : Option Text := searchId (quoteIfNeeded (stripQuotes value))

namespace CondTable

def firstRule (T : CondTable) (x : Text) : Option (List Text) := T.sets.lookup x

def getSet (T : CondTable) : CondTerm → Option (Finset Text)
  | .id value => (idOf value).map fun id => {id}
  | .setVar x => (T.firstRule x).map List.toFinset

def symtab (T : CondTable) : Symtab := fun x =>
  match T.bools.lookup x with
  | some b => some (.ofBoolean (if b then 1 else 0))
  | none =>
    match T.sets.filter fun e => e.1 = x with
    | [] => none
    | rules => some (.ofValues (rules.flatMap Prod.snd))

end CondTable

def pythonInt (text : Text) : Option ℤ :=
  let sign := readSign (strip text)
  let ds := sign.2.filter Char.isDigit
  let grouped := sign.2.all (fun c => c.isDigit || c = '_') ∧ sign.2.head?.any Char.isDigit ∧
    sign.2.getLast?.any Char.isDigit ∧ ¬ ['_', '_'] <:+: sign.2
  if grouped then some (signed sign.1 (digitsValue 10 ds)) else none

def convertSet (src : Finset Text) : Option ℤ :=
  match src.sort with
  | [s] => pythonInt s
  | _ => none

def compareCondition (lhs : Finset Text) (op : CondOp) (rhs : Finset Text) : Option Bool :=
  match op with
  | .isIn => some (lhs ⊆ rhs)
  | .eq => some (lhs = rhs)
  | .ne => some (lhs ≠ rhs)
  | .order op =>
    match convertSet lhs, convertSet rhs with
    | none, none =>
      some (match op with
        | .gt => rhs ⊂ lhs
        | .ge => rhs ⊆ lhs
        | .lt => lhs ⊂ rhs
        | .le => lhs ⊆ rhs)
    | some n, some m => some (op.byLt (n < m) (m < n))
    | _, _ => none

def evaluateTree (T : CondTable) : Cond → Option Bool
  | .or a b => (evaluateTree T a).bind fun x => (evaluateTree T b).map fun y => x || y
  | .and a b => (evaluateTree T a).bind fun x => (evaluateTree T b).map fun y => x && y
  -- `not` is applied to the pair that `evaluate_tree` returns, which is not empty
  | .not a => (evaluateTree T a).map fun _ => false
  | .boolVar x => T.bools.lookup x
  | .definedSet x => some (T.firstRule x).isSome
  | .definedBool x => some (T.bools.lookup x).isSome
  | .compare l op r => (T.getSet l).bind fun lhs => (T.getSet r).bind fun rhs => compareCondition lhs op rhs
  | .value _ => none

end AppArmor

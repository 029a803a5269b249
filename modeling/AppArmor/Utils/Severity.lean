import AppArmor.Lib.Fuel
import AppArmor.Utils.Aare
import Mathlib

namespace AppArmor.Utils

open Fuel

inductive Rank
  | num (n : ℤ)
  | text (s : Text)
  deriving DecidableEq

structure Ranks where
  r : ℤ
  w : ℤ
  x : ℤ

def Ranks.get (ranks : Ranks) (m : Char) : Option ℤ :=
  if m = 'r' then some ranks.r
  else if m = 'w' then some ranks.w
  else if m = 'x' then some ranks.x
  else none

/-- The dictionaries of `REGEXPS`. A key without a `*` leads to another one, and a key with a `*` to its `AA_RANK`. -/
inductive RegexTree
  | nil
  | dir (name : Text) (sub rest : RegexTree)
  | glob (chunk : Text) (ranks : Ranks) (rest : RegexTree)

/-- `search` is `re.search("^" + chunk, path)`, for databases whose expressions all compile. -/
structure SeverityDb where
  files : Text → Option Ranks
  regexps : RegexTree
  defaultRank : Rank
  search : (chunk path : Text) → Bool

def maxRank (ranks : Ranks) : (mode : Text) → (sev : Option ℤ) → Option ℤ
  | [], sev => sev
  | m :: mode, sev =>
    maxRank ranks mode (if sev = none ∨ ∃ n ∈ sev, n < (ranks.get m).getD (-1) then ranks.get m else sev)

def matchGlobs (db : SeverityDb) (mode path : Text) : RegexTree → Option ℤ → Option ℤ
  | .nil, sev => sev
  | .dir _ _ rest, sev => matchGlobs db mode path rest sev
  | .glob chunk ranks rest, sev =>
    matchGlobs db mode path rest (if db.search chunk path then maxRank ranks mode sev else sev)

def descend (db : SeverityDb) (mode : Text) : RegexTree → (first : Text) → (rest : List Text) → Option ℤ
  | .nil, _, _ => none
  | .glob _ _ next, first, rest => descend db mode next first rest
  | .dir name sub next, first, rest =>
    if name = first then
      match descend db mode sub (rest.headD []) rest.tail with
      | some sev => some sev
      | none => matchGlobs db mode (['/'].intercalate (rest.headD [] :: rest.tail)) sub none
    else descend db mode next first rest

def checkSubtree (db : SeverityDb) (mode : Text) (tree : RegexTree) (segments : List Text) : Option ℤ :=
  match descend db mode tree (segments.headD []) segments.tail with
  | some sev => some sev
  | none => matchGlobs db mode (['/'].intercalate (segments.headD [] :: segments.tail)) tree none

def dbRank (db : SeverityDb) (mode resource : Text) : Option ℤ :=
  let resource := resource.tail
  match db.files resource with
  | some ranks => maxRank ranks mode none
  | none => checkSubtree db mode db.regexps (resource.splitOn '/')

def handleFile (db : SeverityDb) (mode resource : Text) : Rank :=
  match dbRank db mode resource with
  | none => db.defaultRank
  | some sev => .num sev

def matchName : Text → Option Text
  | [] => none
  | c :: s =>
    if c = '{' ∨ c = '.' then none
    else
      match matchName s with
      | some name => some (c :: name)
      | none => if c = '}' then some [] else none

def searchVariable : Text → Option Text
  | [] => none
  | c :: s =>
    if c = '@' ∧ s.head? = some '{' then
      match matchName s.tail with
      | some name => some name
      | none => searchVariable s
    else searchVariable s

def variableText (name : Text) : Text := '@' :: '{' :: (name ++ ['}'])

def variableReplace (name replacement resource : Text) : Text :=
  let var := variableText name
  let leading := decide ('/' :: var <:+: resource ∧ ¬ '/' :: '/' :: var <:+: resource)
  let trailing := decide (var ++ ['/'] <:+: resource ∧ ¬var ++ ['/', '/'] <:+: resource)
  let replacement :=
    if ['/'] <+: replacement ∧ ¬['/', '/'] <+: replacement ∧ leading then replacement.tail else replacement
  let replacement :=
    if ['/'] <:+ replacement ∧ ¬['/', '/'] <:+ replacement ∧ trailing then replacement.dropLast else replacement
  replaceText var replacement resource

abbrev VariableMap := Text → Option (List Text)

section Rank

inductive SeverityError
  | keyError
  | unexpectedPath
  deriving DecidableEq

def Rank.gt : Rank → Rank → Bool
  | .num n, .num m => n > m
  | _, _ => false

def takeRank (defaultRank rank rankNew : Rank) : Rank :=
  if rank = defaultRank then rankNew
  else if rankNew ≠ defaultRank ∧ rankNew.gt rank then rankNew
  else rank

variable (db : SeverityDb) (vars : VariableMap) (mode : Text)

def rankLoop (rankOf : Text → Option (Except SeverityError Rank)) (name resource : Text) :
    List Text → Rank → Option (Except SeverityError Rank)
  | [], rank => some (.ok rank)
  | replacement :: values, rank =>
    match rankOf (variableReplace name replacement resource) with
    | some (.ok rankNew) => rankLoop rankOf name resource values (takeRank db.defaultRank rank rankNew)
    | some (.error e) => some (.error e)
    | none => none

def handleVariableRank : (fuel : ℕ) → Text → Option (Except SeverityError Rank)
  | 0, _ => none
  | fuel + 1, resource =>
    match searchVariable resource with
    | none => some (.ok (handleFile db mode resource))
    | some name =>
      match vars name with
      | none => some (.error .keyError)
      | some values => rankLoop db (handleVariableRank fuel) name resource values db.defaultRank

def rankPath (fuel : ℕ) (path : Text) : Option (Except SeverityError Rank) :=
  if '@' ∈ path then handleVariableRank db vars mode fuel path
  else if path.head? = some '/' then some (.ok (handleFile db mode path))
  else some (.error .unexpectedPath)

end Rank

section Expansion

def readName : Text → Option Text
  | [] => none
  | c :: s =>
    if c = '}' then some []
    else if c = '{' ∨ c = '.' then none
    else (readName s).map (c :: ·)

def firstVariable : Text → Option Text
  | [] => none
  | c :: s =>
    if c = '@' ∧ s.head? = some '{' then
      match readName s.tail with
      | some name => some name
      | none => firstVariable s
    else firstVariable s

variable (vars : VariableMap)

inductive Replaces : Text → Text → Prop
  | mk {p name replacement values} : firstVariable p = some name → vars name = some values →
      replacement ∈ values → Replaces p (variableReplace name replacement p)

inductive Acyclic : Text → Prop
  | mk {p} : (∀ name, firstVariable p = some name → vars name ≠ none) → (∀ q, Replaces vars p q → Acyclic q) → Acyclic p

def Reached : Text → Text → Prop := Relation.ReflTransGen (Replaces vars)

def FullExpansion (p e : Text) : Prop := Reached vars p e ∧ firstVariable e = none

def databaseRanks (db : SeverityDb) (mode p : Text) : Set ℤ := {n | ∃ e, FullExpansion vars p e ∧ dbRank db mode e = some n}

def HighestRank (db : SeverityDb) (mode p : Text) (rank : Rank) : Prop :=
  (∃ n, IsGreatest (databaseRanks vars db mode p) n ∧ rank = .num n) ∨
    databaseRanks vars db mode p = ∅ ∧ rank = db.defaultRank

end Expansion

end AppArmor.Utils

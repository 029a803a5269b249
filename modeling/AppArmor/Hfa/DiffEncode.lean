import AppArmor.Hfa.Dfa

namespace AppArmor

namespace Diff

def toChar (i : ℤ) : ℤ := i % 256

def intRange (lo hi : ℤ) : List ℤ := (List.range (hi - lo).toNat).map fun k : ℕ => lo + k

def firstChar (trans : CharMap ℕ) : ℤ :=
  match trans.toList.head? with
  | some e => if e.1 < 0 then e.1 else 0
  | none => 0

/-- The states in the order they are found, each with its depth and with the less deep states that lead to it. -/
structure Dag where
  order : List ℕ
  depth : ℕ → ℕ
  parents : ℕ → List ℕ

def Dag.empty : Dag := ⟨[], fun _ => 0, fun _ => []⟩

def Dag.place (g : Dag) (state : ℕ) (parent : Option ℕ) : Dag :=
  if state ∈ g.order then g
  else
    { g with
      order := g.order ++ [state]
      depth := Function.update g.depth state (parent.elim 1 fun p => g.depth p + 1) }

def Dag.link (g : Dag) (state : ℕ) : Option ℕ → Dag
  | some p =>
    if g.depth p < g.depth state then
      { g with parents := Function.update g.parents state (g.parents state ++ [p]) }
    else g
  | none => g

def addToDag (g : Dag) (state : ℕ) (parent : Option ℕ) : Dag := (g.place state parent).link state parent

def children (d : DFA) (s : ℕ) : List ℕ := (d.state s).otherwise :: (d.state s).trans.toList.map Prod.snd

def addChildren (d : DFA) (g : Dag) (s : ℕ) : Dag := (children d s).foldl (fun g c => addToDag g c (some s)) g

def dagLoop (d : DFA) : ℕ → ℕ → Dag → Option Dag
  | fuel, i, g =>
    match g.order[i]? with
    | none => some g
    | some s =>
      match fuel with
      | 0 => none
      | fuel + 1 => dagLoop d fuel (i + 1) (addChildren d g s)

def makeDag (d : DFA) : Option Dag :=
  dagLoop d d.states.length 1 (addToDag (addToDag .empty d.nonmatching none) d.start none)

variable (d : DFA)

def weightDiff (s r : ℕ) : ℤ :=
  (intRange (firstChar (d.state r).trans) d.upperBound).foldl (fun w i =>
    match (d.state s).trans[toChar i]? with
    | some t => if d.next r (toChar i) = some t then w + 1 else w
    | none => if d.next r (toChar i) = some (d.state s).otherwise then w else w - 1) 0

def weightShared (s r : ℕ) : ℤ × ℕ :=
  (d.state r).trans.toList.foldl (fun a e =>
    match (d.state s).trans[e.1]? with
    | some t => (if e.2 = t then a.1 + 1 else a.1, a.2 + 1)
    | none => (if e.2 = (d.state s).otherwise then a.1 else a.1 - 1, a.2)) (0, 0)

def weightOwn (s r : ℕ) (w : ℤ) : ℤ × ℕ :=
  (d.state s).trans.toList.foldl (fun a e =>
    match (d.state r).trans[e.1]? with
    | some _ => a
    | none => (if e.2 = (d.state r).otherwise then a.1 + 1 else a.1, a.2 + 1)) (w, 0)

def diffWeight (g : Dag) (rel : ℕ → Option ℕ) (s r : ℕ) : ℤ :=
  if s = r then 0
  else if g.depth s ≤ g.depth ((rel r).getD r) then 0
  else if (d.state r).diff then weightDiff d s r
  else
    let a := weightShared d s r
    let b := if a.2 < (d.state s).trans.size then weightOwn d s r a.1 else (a.1, 0)
    if (d.state r).otherwise = (d.state s).otherwise then b.1
    else b.1 - (d.maxRange - ((d.state r).trans.size + b.2))

def partitionStep (g : Dag) (rel : ℕ → Option ℕ) (s : ℕ) (a : ℤ × Option ℕ) (i : ℕ) : ℤ × Option ℕ :=
  if i = s then a
  else if diffWeight d g rel s i > a.1 then (diffWeight d g rel s i, some i)
  else a

def diffPartition (g : Dag) (rel : ℕ → Option ℕ) (s : ℕ) (part : List ℕ) : ℤ × Option ℕ :=
  part.foldl (partitionStep d g rel s) (0, none)

def candidateStep (g : Dag) (rel : ℕ → Option ℕ) (s : ℕ) (a : ℤ × Option ℕ) (e : ℤ × ℕ) : ℤ × Option ℕ :=
  let b := diffPartition d g rel s (g.parents e.2)
  if b.1 > a.1 then b else a

def candidate (g : Dag) (rel : ℕ → Option ℕ) (s : ℕ) : ℤ × Option ℕ :=
  (d.state s).trans.toList.foldl (candidateStep d g rel s) (diffPartition d g rel s (g.parents (d.state s).otherwise))

def chooseRel (g : Dag) (rel : ℕ → Option ℕ) (s : ℕ) : ℕ → Option ℕ :=
  Function.update rel s (candidate d g rel s).2

def chooseRels (g : Dag) : ℕ → Option ℕ := (g.order.drop 2).foldl (chooseRel d g) fun _ => none

def setTrans (s : ℕ) (trans : CharMap ℕ) : DFA :=
  { d with state := Function.update d.state s { d.state s with trans := trans } }

variable {d}

def relStep (s r : ℕ) (a : DFA × ℤ) (i : ℤ) : Option (DFA × ℤ) :=
  (a.1.next r (toChar i)).map fun next =>
    match (a.1.state s).trans[toChar i]? with
    | some t => if t = next then (setTrans a.1 s ((a.1.state s).trans.erase (toChar i)), a.2 + 1) else a
    | none =>
      if (a.1.state s).otherwise = next then a
      else (setTrans a.1 s ((a.1.state s).trans.insert (toChar i) (a.1.state s).otherwise), a.2 - 1)

def setDiff (d : DFA) (s : ℕ) : DFA :=
  { d with state := Function.update d.state s { d.state s with diff := true } }

def setOtherwise (d : DFA) (s r : ℕ) : DFA :=
  { d with state := Function.update d.state s { d.state s with otherwise := r } }

def makeRelative (d : DFA) (s r : ℕ) : Option (DFA × ℤ) :=
  if s = r then some (d, 0)
  else if (d.state s).diff then some (d, 0)
  else
    ((intRange (firstChar (d.state r).trans) d.upperBound).foldlM (relStep s r) (setDiff d s, 0)).map fun a =>
      (setOtherwise a.1 s r, a.2)

def encodeState (rel : ℕ → Option ℕ) (d : DFA) (s : ℕ) : Option DFA :=
  match rel s with
  | none => some d
  | some r => (makeRelative d s r).map fun a => { a.1 with diffcount := a.1.diffcount + 1 }

end Diff

open Diff

def DFA.diffEncode (d : DFA) : Option DFA :=
  (makeDag d).bind fun g =>
    (g.order.drop 2).reverse.foldlM (encodeState (chooseRels d g)) { d with diffcount := 0 }

end AppArmor

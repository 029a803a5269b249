import AppArmor.Expr.Compare
import Mathlib.Data.List.Sort

namespace AppArmor

def Node.isCat {α : Type} : Node α → Bool
  | .cat _ => true
  | _ => false

def Node.isEps {α : Type} : Node α → Bool
  | .eps => true
  | _ => false

def Node.child {α : Type} : Node α → List (Node α)
  | .cat ts => ts
  | _ => []

def isCharOrCharset : Node CNode → Bool
  | .cnode (.char _) => true
  | .cnode (.charSet _) => true
  | _ => false

def insertChars (to_ : Chars) : Node CNode → Chars
  | .cnode (.char c) => to_.insert c
  | .cnode (.charSet s) => s.elems.foldl Chars.insert to_
  | _ => to_

namespace Vec

inductive NChild
  | cat
  | alt
  deriving DecidableEq

def NChild.node {α : Type} : NChild → List (Node α) → Node α
  | .cat => .cat
  | .alt => .alt

def flattenNode {α : Type} (k : NChild) : List (Node α) → List (Node α)
  | [] => []
  | t :: ts => splice t ++ flattenNode k ts
where
  splice : Node α → List (Node α)
    | .cat ts => if k = .cat then flattenNode k ts else [.cat ts]
    | .alt ts => if k = .alt then flattenNode k ts else [.alt ts]
    | t => [t]

def collapseCat {α : Type} : List (Node α) → Node α
  | [] => .eps
  | [t] => t
  | ts => .cat ts

def simplifyVecCat {α : Type} (ts : List (Node α)) : Node α := collapseCat ((flattenNode .cat ts).filter (!·.isEps))

def charNode (s : Chars) : Node CNode :=
  match s.elems with
  | [c] => .cnode (.char c)
  | _ => .cnode (.charSet s)

def mergeAltChars (ts : List (Node CNode)) : List (Node CNode) :=
  let cs := ts.filter isCharOrCharset
  if cs.length < 2 then ts
  else ts.filter (!isCharOrCharset ·) ++ [charNode (cs.foldl insertChars .empty)]

variable (dir : Bool)

def ends {α : Type} (t : Node α) : List (Node α) := if dir then t.child.reverse else t.child

def vecCmp (t u : Node CNode) : Ordering :=
  if t.isCat ∧ u.isCat then loop (ends dir t) (ends dir u) else t.cmp u
where
  loop : List (Node CNode) → List (Node CNode) → Ordering
    | t :: ts, u :: us => (t.cmp u).then (loop ts us)
    | [], _ :: _ => .lt
    | _ :: _, [] => .gt
    | [], [] => .eq

def vecSort (ts : List (Node CNode)) : List (Node CNode) := ts.insertionSort fun t u => vecCmp dir t u ≠ .gt

def dedupStep (out : List (Node CNode)) (t : Node CNode) : List (Node CNode) :=
  if out.getLast?.any (fun u => u.cmp t = .eq) then out else out ++ [t]

def catElem {α : Type} (t : Node α) (k : ℕ) : Node α := (ends dir t)[k]?.getD .eps

def sameElem (k : ℕ) (t u : Node CNode) : Bool := (catElem dir u k).cmp (catElem dir t k) = .eq

def commonLen (first : Node CNode) (others : List (Node CNode)) : ℕ :=
  loop (others.foldl (fun n t => min n t.child.length) first.child.length - 1) 1
where
  loop : ℕ → ℕ → ℕ
    | 0, len => len
    | n + 1, len => if others.all (sameElem dir len first) then loop n (len + 1) else len

def catCommon {α : Type} (t : Node α) (len : ℕ) : List (Node α) :=
  if dir then t.child.drop (t.child.length - len) else t.child.take len

def catRemainder {α : Type} (t : Node α) (len : ℕ) : Node α :=
  collapseCat (if dir then t.child.take (t.child.length - len) else t.child.drop len)

structure Run where
  first : Node CNode
  others : List (Node CNode)

namespace Run

def nodes (r : Run) : List (Node CNode) := r.first :: r.others

def key (r : Run) : Node CNode := catElem dir r.first 0

end Run

def runs : ℕ → List (Node CNode) → List Run
  | fuel + 1, t :: ts => ⟨t, ts.takeWhile (sameElem dir 0 t)⟩ :: runs fuel (ts.dropWhile (sameElem dir 0 t))
  | _, _ => []

/-- `factor_run`; `withLeaf` says whether there is a non Cat alternative equal to the common element. `alt` simplifies what
remains of the alternatives. -/
def factorRun (alt : List (Node CNode) → Option (Node CNode)) (r : Run) (withLeaf : Bool) : Option (Node CNode) := do
  let len := if withLeaf then 1 else commonLen dir r.first r.others
  let rest := r.nodes.map (catRemainder dir · len) ++ if withLeaf then [.eps] else []
  let a ← alt rest
  let common := catCommon dir r.first len
  return simplifyVecCat (if dir then a :: common else common ++ [a])

def findLeaf (leaves : List (Node CNode)) (key : Node CNode) : Option ℕ :=
  let l := (leaves.takeWhile fun t => t.cmp key = .lt).length
  if leaves[l]?.any fun t => t.cmp key = .eq then some l else none

def Run.factored (leaves : List (Node CNode)) (r : Run) : Bool :=
  r.others ≠ [] || (findLeaf leaves (r.key dir)).isSome

def factorOne (alt : List (Node CNode) → Option (Node CNode)) (leaves : List (Node CNode)) (r : Run) :
    Option (Node CNode) :=
  if r.factored dir leaves then factorRun dir alt r (findLeaf leaves (r.key dir)).isSome else some r.first

def unused (leaves : List (Node CNode)) (rs : List Run) : List (Node CNode) :=
  let used := rs.filterMap fun r => findLeaf leaves (r.key dir)
  (leaves.zipIdx.filter fun e => e.2 ∉ used).map Prod.fst

def factorAlt (alt : List (Node CNode) → Option (Node CNode)) (ts : List (Node CNode)) : Option (List (Node CNode)) :=
  let leaves := ts.takeWhile (!·.isCat)
  let cats := ts.dropWhile (!·.isCat)
  let rs := runs dir cats.length cats
  if rs.any (Run.factored dir leaves) then do
    let out ← rs.mapM (factorOne dir alt leaves)
    return vecSort dir (out ++ unused dir leaves rs)
  else return ts

def collapseAlt {α : Type} : List (Node α) → Node α
  | [t] => t
  | ts => .alt ts

def simplifyVecAlt : ℕ → List (Node CNode) → Option (Node CNode)
  | 0, _ => none
  | fuel + 1, ts => do
    let ts := (vecSort dir (mergeAltChars (flattenNode .alt ts))).foldl dedupStep []
    let ts ← factorAlt dir (simplifyVecAlt fuel) ts
    return collapseAlt ts

def weight {α : Type} : Node α → ℕ
  | .star t => 1 + weight t
  | .optional t => 1 + weight t
  | .plus t => 1 + weight t
  | .cat ts => 2 + weights ts
  | .alt ts => 1 + weights ts
  | .eps => 1
  | .cnode _ => 1
  | .accept _ => 1
  | .sharedTree _ _ => 1
where
  weights : List (Node α) → ℕ
    | [] => 0
    | t :: ts => weight t + weights ts

def simplifyVec : ℕ → Node CNode → Option (Node CNode)
  | 0, _ => none
  | fuel + 1, .star t => (simplifyVec fuel t).map .star
  | fuel + 1, .optional t => (simplifyVec fuel t).map .optional
  | fuel + 1, .plus t => (simplifyVec fuel t).map .plus
  | fuel + 1, .cat ts => ((flattenNode .cat ts).mapM (simplifyVec fuel)).map simplifyVecCat
  | fuel + 1, .alt ts => do
    let ts ← (flattenNode .alt ts).mapM (simplifyVec fuel)
    simplifyVecAlt dir (weight.weights ts + 1) ts
  | _ + 1, t => some t

end Vec

open Vec in
def simplifyTreeVec (left : Bool) (t : Node CNode) : Option (Node CNode) := do
  let t ← simplifyVec (!left) (weight t + 1) t
  simplifyVec left (weight t + 1) t

end AppArmor

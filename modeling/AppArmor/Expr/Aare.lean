import AppArmor.Expr.OldCorrect
import AppArmor.Expr.Tail

namespace AppArmor

inductive RuleMode
  | unspecified
  | allow
  | deny
  | prompt
  deriving DecidableEq

structure UniquePerm where
  priority : ℤ
  mode : RuleMode
  exactMatch : Bool
  perms : Perm32
  audit : Perm32
  deriving DecidableEq

def UniquePerm.kind (p : UniquePerm) : FlagKind :=
  match p.mode with
  | .deny => .deny
  | .prompt => .prompt
  | _ => if p.exactMatch then .exact else .allow

structure UniquePermsCache where
  nodes : List (UniquePerm × MatchFlag)

def UniquePermsCache.insert (c : UniquePermsCache) (p : UniquePerm) (addr : ℕ) : MatchFlag × UniquePermsCache :=
  match c.nodes.lookup p with
  | some m => (m, c)
  | none =>
    let m : MatchFlag := ⟨p.kind, p.priority, p.perms, p.audit, addr⟩
    (m, ⟨(p, m) :: c.nodes⟩)

namespace Tree

def flip : Tree → Tree
  | .star t => .star (flip t)
  | .optional t => .optional (flip t)
  | .plus t => .plus (flip t)
  | .cat l r => .cat (flip r) (flip l)
  | .alt l r => .alt (flip l) (flip r)
  | t => t

def exactMatch : Tree → Bool
  | .star _ => false
  | .plus _ => false
  | .cnode .anyChar => false
  | .cnode (.notCharSet _) => false
  | .optional t => exactMatch t
  | .cat l r => exactMatch l && exactMatch r
  | .alt l r => exactMatch l && exactMatch r
  | _ => true

def separator (oob : Bool) : ℤ := if oob then -1 else 0

def catWithSeparator (oob : Bool) (l r : Tree) : Tree := .cat (.cat l (.cnode (.char (separator oob)))) r

end Tree

/-- A rule set. The map from accept nodes to expressions is in the order of the addresses; `cache` is the address of the
cache that it takes its accept nodes from. -/
structure AareRules where
  cache : ℕ
  reverse : Bool
  exprMap : List (MatchFlag × Tree)

namespace AareRules

def insertExpr (m : MatchFlag) (t : Tree) : List (MatchFlag × Tree) → List (MatchFlag × Tree)
  | [] => [(m, t)]
  | e :: es =>
    if e.1 = m then (m, .alt e.2 t) :: es
    else if m.addr < e.1.addr then (m, t) :: e :: es
    else e :: insertExpr m t es

def addToRules (rs : AareRules) (t : Tree) (m : MatchFlag) : AareRules :=
  { rs with exprMap := insertExpr m (if rs.reverse then t.flip else t) rs.exprMap }

def ofRules (cache : ℕ) (rs : List (Tree × MatchFlag)) : AareRules :=
  rs.foldl (fun s r => s.addToRules r.1 r.2) ⟨cache, false, []⟩

end AareRules

structure RuleVec where
  priority : ℤ
  mode : RuleMode
  perms : Perm32
  audit : Perm32
  first : Tree
  others : List Tree
  oob : Bool

def RuleVec.tree (r : RuleVec) : Tree := r.others.foldl (Tree.catWithSeparator r.oob) r.first

def RuleVec.uniquePerm (r : RuleVec) : UniquePerm := ⟨r.priority, r.mode, r.tree.exactMatch, r.perms, r.audit⟩

def AareRules.addRuleVec (rs : AareRules) (c : UniquePermsCache) (addr : ℕ) (r : RuleVec) : AareRules × UniquePermsCache :=
  let t := if rs.reverse then r.tree.flip else r.tree
  let (accept, c) := c.insert r.uniquePerm addr
  (rs.addToRules t accept, c)

def simplifyTree (opts : TreeFlags) (fuel : ℕ) (t : Tree) : Option (Node CNode) :=
  if opts.vector then simplifyTreeVec opts.left (t.toNode fun _ => .eps)
  else (simplifyTreeOld opts fuel t).map (Tree.toNode fun _ => .eps)

namespace Node

def place : Node CNode → ℕ → Node Pos × ℕ
  | .eps, n => (.eps, n)
  | .cnode a, n => (.cnode ⟨n, a⟩, n + 1)
  | .star t, n => (.star (place t n).1, (place t n).2)
  | .optional t, n => (.optional (place t n).1, (place t n).2)
  | .plus t, n => (.plus (place t n).1, (place t n).2)
  | .cat ts, n => (.cat (placeList ts n).1, (placeList ts n).2)
  | .alt ts, n => (.alt (placeList ts n).1, (placeList ts n).2)
  | .accept m, n => (.accept m, n)
  | .sharedTree a t, n => (.sharedTree a (place t n).1, (place t n).2)
where
  placeList : List (Node CNode) → ℕ → List (Node Pos) × ℕ
    | [], n => ([], n)
    | t :: ts, n => ((place t n).1 :: (placeList ts (place t n).2).1, (placeList ts (place t n).2).2)

end Node

namespace AareRules

def entries (opts : TreeFlags) (fuel : ℕ) : List (MatchFlag × Tree) → ℕ → Option (List (MatchFlag × Node Pos) × ℕ)
  | [], n => some ([], n)
  | e :: es, n => do
    let t ← if opts.simple then simplifyTree opts fuel e.2 else some (e.2.toNode fun _ => .eps)
    let (rest, next) ← entries opts fuel es (t.place n).2
    return ((e.1, (t.place n).1) :: rest, next)

def endOf (tail : Option (Node Pos)) (m : MatchFlag) : Node Pos :=
  match tail with
  | none => .accept m
  | some s => .alt [.accept m, s]

def joinEntry (tail : Option (Node Pos)) (tree : Option (Node Pos)) (e : MatchFlag × Node Pos) : Option (Node Pos) :=
  let n : Node Pos := .cat [e.2, endOf tail e.1]
  match tree with
  | none => some n
  | some t => some (.alt [t, n])

def buildTree (tail : Option (Node Pos)) (es : List (MatchFlag × Node Pos)) : Option (Node Pos) :=
  es.foldl (joinEntry tail) none

structure Root where
  tree : Node Pos
  refcount : ℕ

/-- The part of `create_chfa` before the automaton. The outer `none` says that the fuel did not suffice, the inner one
is the NULL of the source. -/
def createRoot (opts : TreeFlags) (fuel : ℕ) (rs : AareRules) (tail : Option AareRules) (oob : Bool) :
    Option (Option Root) :=
  match tail with
  | none => do
    let (es, _) ← entries opts fuel rs.exprMap 0
    return (buildTree none es).map (⟨·, 0⟩)
  | some tail =>
    if tail.cache ≠ rs.cache ∨ rs.reverse ∨ tail.reverse then some none
    else do
      let (es, next) ← entries opts fuel tail.exprMap 1
      let shared := (buildTree none es).map fun t =>
        Node.sharedTree 0 (.cat [.cnode ⟨0, .char (Tree.separator oob)⟩, t])
      let (es, _) ← entries opts fuel rs.exprMap next
      -- every accept node has its reference
      return (buildTree shared es).map (⟨·, es.length⟩)

end AareRules

end AppArmor

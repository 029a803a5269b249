import AppArmor.Hfa.Dfa

namespace AppArmor

/-- The order in which the sets of nodes below `u` are iterated: that of their addresses, whatever these are. -/
structure IterOrder (u : NodeSet) where
  toList : NodeSet → List ImportantNode
  spec : ∀ s ⊆ u, (toList s).Nodup ∧ (toList s).toFinset = s

def Node.leafOrder (t : Node Pos) : IterOrder t.positions where
  toList s := ((t.cnodes.map ImportantNode.cnode ++ t.flags.map ImportantNode.accept).dedup).filter (· ∈ s)
  spec s hs := by
    refine ⟨(List.nodup_dedup _).filter _, ?_⟩
    ext p
    simp only [List.mem_toFinset, List.mem_filter, decide_eq_true_eq]
    refine ⟨And.right, fun hp => ⟨?_, hp⟩⟩
    have hpos := hs hp
    rw [Node.positions, Node.places, Node.accepts, ← List.toFinset_append] at hpos
    exact List.mem_dedup.mpr (List.mem_toFinset.mp hpos)

def ImportantNode.isAccept : ImportantNode → Bool
  | .cnode _ => false
  | .accept _ => true

def ImportantNode.flag : ImportantNode → Option MatchFlag
  | .cnode _ => none
  | .accept m => some m

def splitNodeTypes (nodes : NodeSet) : ProtoState :=
  let anodes := nodes.filter (·.isAccept)
  ⟨nodes.filter (!·.isAccept), if anodes = ∅ then none else some anodes⟩

inductive BuildError
  | conflict
  | outOfFuel
  deriving DecidableEq

/-- The automaton under construction. The node map sends the `i`-th set of nodes to the state at address `i`. -/
structure Builder where
  state : ℕ → State
  states : List ℕ
  nodeMap : List ProtoState
  workQueue : List ℕ
  oobRange : ℤ

namespace Build

variable {u : NodeSet} (order : IterOrder u) (filedfa : Bool)

def permsOf : Option NodeSet → Option PermsT
  | none => some PermsT.clear
  | some anodes => Resolve.permsT filedfa ((order.toList anodes).filterMap ImportantNode.flag)

def pushState (proto : ProtoState) (perms : PermsT) (other : Option ℕ) (b : Builder) : Builder :=
  let id := b.nodeMap.length
  { b with
    state := Function.update b.state id ⟨id, false, perms, ∅, other.getD id, proto⟩
    states := b.states ++ [id]
    nodeMap := b.nodeMap ++ [proto]
    workQueue := b.workQueue ++ [id] }

def addNewState (nodes : NodeSet) (other : Option ℕ) (b : Builder) : Except BuildError (ℕ × Builder) :=
  let proto := splitNodeTypes nodes
  match permsOf order filedfa proto.anodes with
  | none => .error .conflict
  | some perms =>
    match b.nodeMap.idxOf? proto with
    | some id => .ok (id, b)
    | none => .ok (b.nodeMap.length, pushState proto perms other b)

def setOtherwise (from_ target : ℕ) (b : Builder) : Builder :=
  { b with state := Function.update b.state from_ { b.state from_ with otherwise := target } }

def setTrans (from_ : ℕ) (c : ℤ) (target : ℕ) (b : Builder) : Builder :=
  if target = (b.state from_).otherwise then b
  else
    { b with
      state := Function.update b.state from_
        { b.state from_ with trans := (b.state from_).trans.insert c target }
      oobRange := if c < 0 ∧ -c > b.oobRange then -c else b.oobRange }

def addCase (nonmatching from_ : ℕ) (b : Builder) (e : ℤ × NodeSet) : Except BuildError Builder := do
  let (target, b) ← addNewState order filedfa e.2 (some nonmatching) b
  return setTrans from_ e.1 target b

def addDefault (nonmatching from_ : ℕ) (otherwise : Option NodeSet) (b : Builder) : Except BuildError Builder :=
  match otherwise with
  | some nodes => do
    let (target, b) ← addNewState order filedfa nodes (some nonmatching) b
    return setOtherwise from_ target b
  | none => return setOtherwise from_ nonmatching b

def casesOf (followpos : ImportantNode → NodeSet) (proto : ProtoState) : Cases :=
  Cases.ofNodes followpos (order.toList proto.nnodes)

def updateStateTransitions (followpos : ImportantNode → NodeSet) (nonmatching from_ : ℕ) (b : Builder) :
    Except BuildError Builder := do
  let k := casesOf order followpos (b.state from_).proto
  let b ← addDefault order filedfa nonmatching from_ k.otherwise b
  k.cases.toList.foldlM (addCase order filedfa nonmatching from_) b

def processWorkQueue (followpos : ImportantNode → NodeSet) (nonmatching : ℕ) :
    ℕ → Builder → Except BuildError Builder
  | 0, b => if b.workQueue = [] then .ok b else .error .outOfFuel
  | fuel + 1, b =>
    match b.workQueue with
    | [] => .ok b
    | from_ :: queue => do
      let b ← updateStateTransitions order filedfa followpos nonmatching from_ { b with workQueue := queue }
      processWorkQueue followpos nonmatching fuel b

def emptyBuilder : Builder :=
  let dummy : State := ⟨0, false, PermsT.clear, ∅, 0, ⟨∅, none⟩⟩
  ⟨fun _ => dummy, [], [], [], 0⟩

def finish (nonmatching start : ℕ) (b : Builder) : DFA where
  state := b.state
  states := b.states
  nonmatching := nonmatching
  start := start
  diffcount := 0
  oobRange := b.oobRange
  maxRange := 256 + b.oobRange
  ordRange := if b.oobRange ≠ 0 then 9 else 8
  upperBound := 256
  filedfa := filedfa

end Build

open Build in
def DFA.build (refcount : ℕ → ℕ) (root : Node Pos) (order : IterOrder root.positions) (filedfa : Bool) :
    Except BuildError DFA := do
  let r := root.computePos refcount ∅ ∅ PosState.clear
  let (nonmatching, b) ← addNewState order filedfa ∅ none emptyBuilder
  let (start, b) ← addNewState order filedfa r.firstpos (some nonmatching) b
  let b ← processWorkQueue order filedfa r.state.followpos nonmatching (2 ^ root.positions.card + 1)
    { b with workQueue := b.workQueue ++ [start] }
  return finish filedfa nonmatching start b

end AppArmor

import AppArmor.Expr.Node

namespace AppArmor

open Glushkov Finset

structure Pos where
  addr : ℕ
  node : CNode
  deriving DecidableEq

inductive ImportantNode
  | cnode (p : Pos)
  | accept (m : MatchFlag)
  deriving DecidableEq

abbrev NodeSet := Finset ImportantNode

structure SharedCache where
  computed : Bool
  nullable : Bool
  posUses : ℕ
  first : NodeSet
  last : NodeSet

structure PosState where
  followpos : ImportantNode → NodeSet
  shared : ℕ → SharedCache

def PosState.clear : PosState := ⟨fun _ => ∅, fun _ => ⟨false, false, 0, ∅, ∅⟩⟩

def PosState.addFollow (s : PosState) (last first : NodeSet) : PosState :=
  { s with followpos := fun p => if p ∈ last then s.followpos p ∪ first else s.followpos p }

structure PosResult where
  nullable : Bool
  firstpos : NodeSet
  lastpos : NodeSet
  state : PosState

def PosResult.cache (r : PosResult) (a : ℕ) : PosState :=
  { r.state with
    shared := Function.update r.state.shared a
      ⟨true, r.nullable, (r.state.shared a).posUses, r.firstpos, r.lastpos⟩ }

def PosState.reference (s : PosState) (refcount a : ℕ) (f l : NodeSet) : PosResult :=
  let k := s.shared a
  let uses := k.posUses + 1
  let k' : SharedCache :=
    if uses = refcount then { k with posUses := uses, first := ∅, last := ∅ } else { k with posUses := uses }
  ⟨k.nullable, f ∪ k.first, l ∪ k.last, { s with shared := Function.update s.shared a k' }⟩

namespace Node

def computePos (refcount : ℕ → ℕ) : Node Pos → NodeSet → NodeSet → PosState → PosResult
  | .eps, f, l, s => ⟨true, f, l, s⟩
  | .cnode p, f, l, s => ⟨false, insert (.cnode p) f, insert (.cnode p) l, s⟩
  | .accept m, f, l, s => ⟨false, insert (.accept m) f, insert (.accept m) l, s⟩
  | .star t, f, l, s =>
    let r := computePos refcount t ∅ ∅ s
    ⟨true, f ∪ r.firstpos, l ∪ r.lastpos, r.state.addFollow r.lastpos r.firstpos⟩
  | .plus t, f, l, s =>
    let r := computePos refcount t ∅ ∅ s
    ⟨r.nullable, f ∪ r.firstpos, l ∪ r.lastpos, r.state.addFollow r.lastpos r.firstpos⟩
  | .optional t, f, l, s => { computePos refcount t f l s with nullable := true }
  | .cat ts, f, l, s => computeCat ts f l s
  | .alt ts, f, l, s => altLoop ts false f l s
  | .sharedTree a t, f, l, s =>
    -- only the first reference walks the subtree
    if (s.shared a).computed then s.reference (refcount a) a f l
    else ((computePos refcount t (s.shared a).first (s.shared a).last s).cache a).reference (refcount a) a f l
where
  computeCat : List (Node Pos) → NodeSet → NodeSet → PosState → PosResult
    | [], f, l, s => ⟨true, f, l, s⟩
    | t :: ts, f, l, s =>
      let r := computePos refcount t f ∅ s
      catLoop ts r.nullable r.firstpos r.lastpos l r.state
  /-- `nullable`, `f` and `left` are about the children so far. -/
  catLoop : List (Node Pos) → Bool → NodeSet → NodeSet → NodeSet → PosState → PosResult
    | [], nullable, f, left, l, s => ⟨nullable, f, l ∪ left, s⟩
    | t :: ts, nullable, f, left, l, s =>
      let r := computePos refcount t ∅ ∅ s
      catLoop ts (nullable && r.nullable) (if nullable then f ∪ r.firstpos else f)
        (if r.nullable then r.lastpos ∪ left else r.lastpos) l (r.state.addFollow left r.firstpos)
  altLoop : List (Node Pos) → Bool → NodeSet → NodeSet → PosState → PosResult
    | [], nullable, f, l, s => ⟨nullable, f, l, s⟩
    | t :: ts, nullable, f, l, s =>
      let r := computePos refcount t f l s
      altLoop ts (nullable || r.nullable) r.firstpos r.lastpos r.state

def posInfo : Node Pos → PosInfo ImportantNode
  | .eps => .eps
  | .cnode p => .leaf (.cnode p)
  | .accept m => .leaf (.accept m)
  | .star t => (posInfo t).star
  | .plus t => (posInfo t).plus
  | .optional t => (posInfo t).optional
  | .cat ts => catInfo ts .eps
  | .alt ts => altInfo ts
  | .sharedTree _ t => posInfo t
where
  catInfo : List (Node Pos) → PosInfo ImportantNode → PosInfo ImportantNode
    | [], i => i
    | t :: ts, i => catInfo ts (i.cat (posInfo t))
  altInfo : List (Node Pos) → PosInfo ImportantNode
    | [] => .empty
    | t :: ts => (posInfo t).alt (altInfo ts)

end Node

def PosState.withFollow (s : PosState) (g : ImportantNode → NodeSet) : PosState :=
  { s with followpos := fun p => s.followpos p ∪ g p }

namespace PosState

variable (s : PosState) (g h : ImportantNode → NodeSet)

theorem withFollow_empty : s.withFollow (fun _ => ∅) = s := by
  simp [withFollow]

theorem withFollow_withFollow : (s.withFollow g).withFollow h = s.withFollow (fun p => g p ∪ h p) := by
  simp [withFollow, union_assoc]

theorem addFollow_eq (last first : NodeSet) :
    s.addFollow last first = s.withFollow (fun p => if p ∈ last then first else ∅) := by
  unfold addFollow withFollow
  congr 1
  funext p
  by_cases h : p ∈ last <;> simp [h]

end PosState

def posResult (i : PosInfo ImportantNode) (f l : NodeSet) (s : PosState) : PosResult :=
  ⟨i.nullable, f ∪ i.first, l ∪ i.last, s.withFollow i.follow⟩

namespace Node

inductive SharedFree {α : Type} : Node α → Prop
  | eps : SharedFree .eps
  | cnode (a : α) : SharedFree (.cnode a)
  | accept (m : MatchFlag) : SharedFree (.accept m)
  | star {t} (h : SharedFree t) : SharedFree (.star t)
  | optional {t} (h : SharedFree t) : SharedFree (.optional t)
  | plus {t} (h : SharedFree t) : SharedFree (.plus t)
  | cat {ts} (h : ∀ t ∈ ts, SharedFree t) : SharedFree (.cat ts)
  | alt {ts} (h : ∀ t ∈ ts, SharedFree t) : SharedFree (.alt ts)

variable {refcount : ℕ → ℕ}

theorem catLoop_eq {ts : List (Node Pos)}
    (ih : ∀ t ∈ ts, ∀ f l s, computePos refcount t f l s = posResult t.posInfo f l s)
    (i : PosInfo ImportantNode) (f l : NodeSet) (s : PosState) :
    computePos.catLoop refcount ts i.nullable (f ∪ i.first) i.last l (s.withFollow i.follow) =
      posResult (posInfo.catInfo ts i) f l s := by
  induction ts generalizing i with
  | nil => rfl
  | cons t ts iht =>
    rw [computePos.catLoop, posInfo.catInfo, ih t (by simp)]
    rw [← iht (fun u hu => ih u (List.mem_cons_of_mem _ hu))]
    simp only [posResult, PosState.addFollow_eq, PosState.withFollow_withFollow, empty_union]
    congr 1
    · simp only [PosInfo.cat]
      split_ifs <;> simp [union_assoc]
    · simp only [PosInfo.cat]
      split_ifs
      · exact union_comm _ _
      · exact (empty_union _).symm

theorem altLoop_eq {ts : List (Node Pos)}
    (ih : ∀ t ∈ ts, ∀ f l s, computePos refcount t f l s = posResult t.posInfo f l s)
    (n : Bool) (f l : NodeSet) (s : PosState) :
    computePos.altLoop refcount ts n f l s =
      { posResult (posInfo.altInfo ts) f l s with nullable := n || (posInfo.altInfo ts).nullable } := by
  induction ts generalizing n f l s with
  | nil => simp [computePos.altLoop, posInfo.altInfo, posResult, PosInfo.empty, PosState.withFollow_empty]
  | cons t ts iht =>
    rw [computePos.altLoop, posInfo.altInfo, ih t (by simp), iht (fun u hu => ih u (List.mem_cons_of_mem _ hu))]
    simp [posResult, PosInfo.alt, PosState.withFollow_withFollow, union_assoc, Bool.or_assoc]

theorem eps_cat (i : PosInfo ImportantNode) : PosInfo.eps.cat i = i := by
  simp [PosInfo.cat, PosInfo.eps]

theorem computePos_eq {t : Node Pos} (h : SharedFree t) (f l : NodeSet) (s : PosState) :
    computePos refcount t f l s = posResult t.posInfo f l s := by
  induction h generalizing f l s with
  | eps => simp [computePos, posInfo, posResult, PosInfo.eps, PosState.withFollow_empty]
  | cnode p | accept m =>
    simp [computePos, posInfo, posResult, PosInfo.leaf, PosState.withFollow_empty]
  | star _ ih =>
    simp [computePos, ih, posInfo, posResult, PosInfo.star, PosInfo.plus, PosInfo.optional, PosState.addFollow_eq,
      PosState.withFollow_withFollow]
  | plus _ ih =>
    simp [computePos, ih, posInfo, posResult, PosInfo.plus, PosState.addFollow_eq, PosState.withFollow_withFollow]
  | optional _ ih => simp [computePos, ih, posInfo, posResult, PosInfo.optional]
  | @cat ts h ih =>
    cases ts with
    | nil => simp [computePos, computePos.computeCat, posInfo, posInfo.catInfo, posResult, PosInfo.eps,
        PosState.withFollow_empty]
    | cons t ts =>
      rw [computePos, computePos.computeCat, ih t (by simp), posInfo, posInfo.catInfo, eps_cat]
      have hloop := catLoop_eq (fun u hu => ih u (List.mem_cons_of_mem _ hu)) t.posInfo f l s
      simpa [posResult] using hloop
  | alt h ih =>
    rw [computePos, altLoop_eq (fun u hu => ih u hu), posInfo]
    simp [posResult]

end Node

end AppArmor

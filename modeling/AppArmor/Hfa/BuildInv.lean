import AppArmor.Hfa.Build

namespace AppArmor

open List

variable {ε α β : Type}

theorem ok_bind (a : α) (f : α → Except ε β) : (Except.ok a >>= f) = f a := rfl

theorem error_bind (e : ε) (f : α → Except ε β) : (Except.error e >>= f) = .error e := rfl

variable {f : α → Except ε β}

theorem bind_eq_ok {x : Except ε α} {r : β} (h : (x >>= f) = .ok r) :
    ∃ a, x = .ok a ∧ f a = .ok r := by
  cases x with
  | error e => cases h
  | ok a => exact ⟨a, rfl, h⟩

theorem bind_eq_error {x : Except ε α} {e : ε} (h : (x >>= f) = .error e) :
    x = .error e ∨ ∃ a, x = .ok a ∧ f a = .error e := by
  cases x with
  | error e' => exact .inl (congrArg Except.error (Except.error.inj h))
  | ok a => exact .inr ⟨a, rfl, h⟩

theorem ok_of_any {x : Except ε α} {p : α → Bool} (h : x.toOption.any p = true) : ∃ a, x = .ok a ∧ p a = true := by
  cases x with
  | error e => cases h
  | ok a => exact ⟨a, rfl, h⟩

@[simp]
theorem ImportantNode.isAccept_accept (m : MatchFlag) : (ImportantNode.accept m).isAccept = true := rfl

@[simp]
theorem ImportantNode.isAccept_cnode (p : Pos) : (ImportantNode.cnode p).isAccept = false := rfl

namespace Build

def nodesOf (p : ProtoState) : NodeSet := p.nnodes ∪ p.anodes.getD ∅

theorem nodesOf_split (s : NodeSet) : nodesOf (splitNodeTypes s) = s := by
  ext p
  unfold nodesOf splitNodeTypes
  by_cases h : s.filter (·.isAccept) = ∅
  · have hp : p ∈ s → p.isAccept = false := by
      intro hs
      by_contra ha
      have : p ∈ s.filter (·.isAccept) := Finset.mem_filter.mpr ⟨hs, by simpa using ha⟩
      rw [h] at this
      exact Finset.notMem_empty p this
    simp only [h, ↓reduceIte, Option.getD_none, Finset.union_empty, Finset.mem_filter, Bool.not_eq_true']
    exact ⟨And.left, fun hs => ⟨hs, hp hs⟩⟩
  · simp only [h, ↓reduceIte, Option.getD_some, Finset.mem_union, Finset.mem_filter]
    cases p.isAccept <;> simp

variable {s : NodeSet} {b : Builder} {t : ℕ}

theorem split_injective {t : NodeSet} (h : splitNodeTypes s = splitNodeTypes t) : s = t := by
  rw [← nodesOf_split s, h, nodesOf_split]

theorem mem_split_anodes (s : NodeSet) (m : MatchFlag) :
    .accept m ∈ (splitNodeTypes s).anodes.getD ∅ ↔ .accept m ∈ s := by
  unfold splitNodeTypes
  by_cases h : s.filter (·.isAccept) = ∅
  · have hm : ImportantNode.accept m ∉ s := fun hs =>
      Finset.notMem_empty _ (h ▸ Finset.mem_filter.mpr ⟨hs, ImportantNode.isAccept_accept m⟩)
    simp [h, hm]
  · simp [h]

theorem split_nnodes (s : NodeSet) : (splitNodeTypes s).nnodes = s.filter (!·.isAccept) := rfl

def Maps (b : Builder) (s : NodeSet) (t : ℕ) : Prop := b.nodeMap[t]? = some (splitNodeTypes s)

theorem Maps.lt (h : Maps b s t) : t < b.nodeMap.length :=
  (List.getElem?_eq_some_iff.mp h).1

theorem Maps.nodes {s' : NodeSet} (h : Maps b s t) (h' : Maps b s' t) : s = s' :=
  split_injective (Option.some.inj (h.symm.trans h'))

theorem Maps.mono {b' : Builder} (hp : b.nodeMap <+: b'.nodeMap) (h : Maps b s t) :
    Maps b' s t := by
  obtain ⟨l, hl⟩ := hp
  rw [Maps, ← hl, getElem?_append_left h.lt]
  exact h

theorem Maps.of_mono {b' : Builder} (hp : b.nodeMap <+: b'.nodeMap)
    (ht : t < b.nodeMap.length) (h : Maps b' s t) : Maps b s t := by
  obtain ⟨l, hl⟩ := hp
  rw [Maps, ← hl, getElem?_append_left ht] at h
  exact h

section Invariant

variable {u : NodeSet} (order : IterOrder u) (filedfa : Bool)

structure Wf (b : Builder) : Prop where
  nodup : b.nodeMap.Nodup
  sub : ∀ p ∈ b.nodeMap, ∃ s ⊆ u, p = splitNodeTypes s
  states : b.states = List.range b.nodeMap.length
  proto : ∀ i p, b.nodeMap[i]? = some p → (b.state i).proto = p
  perms : ∀ i p, b.nodeMap[i]? = some p → permsOf order filedfa p.anodes = some (b.state i).perms
  diff : ∀ i, (b.state i).diff = false
  label : ∀ i, 0 ≤ (b.state i).label
  queue : ∀ i ∈ b.workQueue, i < b.nodeMap.length

variable {order filedfa} {b b' : Builder}

theorem Wf.maps_unique (hb : Wf order filedfa b) {s : NodeSet} {t t' : ℕ} (h : Maps b s t) (h' : Maps b s t') :
    t = t' := by
  apply (getElem?_inj h.lt hb.nodup).mp
  rw [h, h']

/-- `b'` has more states than `b`; of the old ones at most `i` has changed, and only in its transitions. -/
structure Grows (i : ℕ) (b b' : Builder) : Prop where
  map : b.nodeMap <+: b'.nodeMap
  old : ∀ j < b.nodeMap.length, j ≠ i → b'.state j = b.state j
  trans : ∀ j, b.nodeMap.length ≤ j → j < b'.nodeMap.length → (b'.state j).trans = ∅
  queue : ∃ q, b'.workQueue = b.workQueue ++ q ∧ q.length = b'.nodeMap.length - b.nodeMap.length ∧
    ∀ j, b.nodeMap.length ≤ j → j < b'.nodeMap.length → j ∈ q

theorem Grows.refl (i : ℕ) (b : Builder) : Grows i b b where
  map := prefix_rfl
  old := fun _ _ _ => rfl
  trans := fun j h h' => absurd h' (by omega)
  queue := ⟨[], by simp, by simp, fun j h h' => absurd h' (by omega)⟩

theorem Grows.length_le {i : ℕ} (h : Grows i b b') : b.nodeMap.length ≤ b'.nodeMap.length := h.map.length_le

theorem Grows.trans' {i : ℕ} {b'' : Builder} (h : Grows i b b') (h' : Grows i b' b'') (hi : i < b.nodeMap.length) :
    Grows i b b'' where
  map := h.map.trans h'.map
  old := fun j hj hne => (h'.old j (hj.trans_le h.length_le) hne).trans (h.old j hj hne)
  trans := by
    intro j hj hj''
    by_cases hlt : j < b'.nodeMap.length
    · rw [h'.old j hlt (by omega)]
      exact h.trans j hj hlt
    · exact h'.trans j (by omega) hj''
  queue := by
    obtain ⟨q, hq, hlen, hmem⟩ := h.queue
    obtain ⟨q', hq', hlen', hmem'⟩ := h'.queue
    have h₁ := h.length_le
    have h₂ := h'.length_le
    refine ⟨q ++ q', by rw [hq', hq, append_assoc], by rw [length_append]; omega, ?_⟩
    intro j hj hj''
    by_cases hlt : j < b'.nodeMap.length
    · exact mem_append_left _ (hmem j hj hlt)
    · exact mem_append_right _ (hmem' j (by omega) hj'')

section PushState

variable {proto : ProtoState} {perms : PermsT} {other : Option ℕ}

theorem pushState_state_ne {j : ℕ} (hj : j ≠ b.nodeMap.length) :
    (pushState proto perms other b).state j = b.state j := Function.update_of_ne hj _ _

theorem pushState_state_new : (pushState proto perms other b).state b.nodeMap.length =
    ⟨b.nodeMap.length, false, perms, ∅, other.getD b.nodeMap.length, proto⟩ := Function.update_self _ _ _

theorem pushState_length : (pushState proto perms other b).nodeMap.length = b.nodeMap.length + 1 := by
  simp [pushState]

theorem pushState_nodeMap_cases {j : ℕ} {p : ProtoState} (h : (pushState proto perms other b).nodeMap[j]? = some p) :
    (b.nodeMap[j]? = some p ∧ j < b.nodeMap.length) ∨ (j = b.nodeMap.length ∧ p = proto) := by
  simp only [pushState] at h
  rcases lt_trichotomy j b.nodeMap.length with hlt | rfl | hgt
  · rw [getElem?_append_left hlt] at h
    exact .inl ⟨h, hlt⟩
  · rw [getElem?_append_right le_rfl] at h
    exact .inr ⟨rfl, by simpa using h.symm⟩
  · rw [getElem?_eq_none (by simp; omega)] at h
    cases h

theorem Grows.pushState (i : ℕ) : Grows i b (pushState proto perms other b) where
  map := prefix_append _ _
  old := fun j hj _ => pushState_state_ne hj.ne
  trans := by
    intro j hj hj'
    rw [pushState_length] at hj'
    obtain rfl : j = b.nodeMap.length := by omega
    rw [pushState_state_new]
  queue := by
    refine ⟨[b.nodeMap.length], rfl, by rw [pushState_length]; simp, ?_⟩
    intro j hj hj'
    rw [pushState_length] at hj'
    exact mem_singleton.mpr (by omega)

theorem Wf.pushState {nodes : NodeSet} (hb : Wf order filedfa b) (hn : nodes ⊆ u)
    (hnew : splitNodeTypes nodes ∉ b.nodeMap) (hp : permsOf order filedfa (splitNodeTypes nodes).anodes = some perms) :
    Wf order filedfa (pushState (splitNodeTypes nodes) perms other b) where
  nodup := by
    refine nodup_append.mpr ⟨hb.nodup, nodup_singleton _, ?_⟩
    intro p hp q hq he
    rw [mem_singleton.mp hq] at he
    exact hnew (he ▸ hp)
  sub := by
    intro p hp
    rcases mem_append.mp hp with hp | hp
    · exact hb.sub p hp
    · exact ⟨nodes, hn, mem_singleton.mp hp⟩
  states := by simp [Build.pushState, hb.states, range_succ]
  proto := by
    intro j p hj
    rcases pushState_nodeMap_cases hj with ⟨hj, hlt⟩ | ⟨rfl, rfl⟩
    · rw [pushState_state_ne hlt.ne, hb.proto j p hj]
    · rw [pushState_state_new]
  perms := by
    intro j p hj
    rcases pushState_nodeMap_cases hj with ⟨hj, hlt⟩ | ⟨rfl, rfl⟩
    · rw [pushState_state_ne hlt.ne, hb.perms j p hj]
    · rw [pushState_state_new, hp]
  diff := by
    intro j
    by_cases hj : j = b.nodeMap.length
    · rw [hj, pushState_state_new]
    · rw [pushState_state_ne hj, hb.diff j]
  label := by
    intro j
    by_cases hj : j = b.nodeMap.length
    · rw [hj, pushState_state_new]
      exact Int.natCast_nonneg _
    · rw [pushState_state_ne hj]
      exact hb.label j
  queue := by
    intro j hj
    rw [pushState_length]
    rcases mem_append.mp hj with hj | hj
    · exact (hb.queue j hj).trans (Nat.lt_succ_self _)
    · rw [mem_singleton.mp hj]
      exact Nat.lt_succ_self _

end PushState

theorem addNewState_spec {nodes : NodeSet} {other : Option ℕ} {id : ℕ} (hb : Wf order filedfa b) (hn : nodes ⊆ u)
    (h : addNewState order filedfa nodes other b = .ok (id, b')) (i : ℕ) :
    Wf order filedfa b' ∧ Grows i b b' ∧ (∀ j < b.nodeMap.length, b'.state j = b.state j) ∧ Maps b' nodes id := by
  unfold addNewState at h
  simp only at h
  cases hp : permsOf order filedfa (splitNodeTypes nodes).anodes with
  | none => rw [hp] at h; cases h
  | some perms =>
    rw [hp] at h
    simp only at h
    cases hi : b.nodeMap.idxOf? (splitNodeTypes nodes) with
    | some k =>
      rw [hi] at h
      obtain ⟨rfl, rfl⟩ := Prod.mk.inj (Except.ok.inj h)
      refine ⟨hb, Grows.refl i b, fun _ _ => rfl, ?_⟩
      obtain ⟨hk, he, _⟩ := List.findIdx?_eq_some_iff_getElem.mp hi
      exact List.getElem?_eq_some_iff.mpr ⟨hk, by simpa using he⟩
    | none =>
      rw [hi] at h
      obtain ⟨rfl, rfl⟩ := Prod.mk.inj (Except.ok.inj h)
      have hnew : splitNodeTypes nodes ∉ b.nodeMap := List.idxOf?_eq_none_iff.mp hi
      exact ⟨hb.pushState hn hnew hp, Grows.pushState i, fun j hj => pushState_state_ne hj.ne, by simp [Maps, pushState]⟩

end Invariant

end Build

end AppArmor

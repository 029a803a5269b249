import AppArmor.Hfa.BuildRun

namespace AppArmor

open List

namespace Build

variable {u : NodeSet} {order : IterOrder u} {filedfa : Bool} {followpos : ImportantNode → NodeSet}
  {nonmatching : ℕ} {b b' : Builder}

structure Inv (order : IterOrder u) (filedfa : Bool) (followpos : ImportantNode → NodeSet) (nonmatching : ℕ)
    (b : Builder) : Prop where
  wf : Wf order filedfa b
  nonmatching : Maps b ∅ nonmatching
  sound : ∀ i < b.nodeMap.length, Sound order followpos b i
  done : ∀ i < b.nodeMap.length, i ∈ b.workQueue ∨ Done order followpos b i

theorem Sound.of_trans_empty {i : ℕ} (h : (b.state i).trans = ∅) : Sound order followpos b i := by
  intro c t ht
  rw [h] at ht
  simp at ht

theorem Inv.step {i : ℕ} {queue : List ℕ} (h : Inv order filedfa followpos nonmatching b) (hf : ∀ p, followpos p ⊆ u)
    (hq : b.workQueue = i :: queue)
    (hok : updateStateTransitions order filedfa followpos nonmatching i { b with workQueue := queue } = .ok b') :
    Inv order filedfa followpos nonmatching b' ∧ Grows i { b with workQueue := queue } b' := by
  have hi : i < b.nodeMap.length := h.wf.queue i (by simp [hq])
  have hwf : Wf order filedfa { b with workQueue := queue } :=
    ⟨h.wf.nodup, h.wf.sub, h.wf.states, h.wf.proto, h.wf.perms, h.wf.diff, h.wf.label,
      fun j hj => h.wf.queue j (by simp [hq, show j ∈ queue from hj])⟩
  obtain ⟨hwf', hgrows, hsound, hdone⟩ :=
    updateStateTransitions_spec hwf hi (h.sound i hi) h.nonmatching hf hok
  obtain ⟨q, hq', _, hnew⟩ := hgrows.queue
  refine ⟨⟨hwf', h.nonmatching.mono hgrows.map, ?_, ?_⟩, hgrows⟩
  · intro j hj
    by_cases hji : j = i
    · exact hji ▸ hsound
    · by_cases hlt : j < b.nodeMap.length
      · exact (h.sound j hlt).mono hgrows.map (hgrows.old j hlt hji)
      · exact .of_trans_empty (hgrows.trans j (by simpa using hlt) hj)
  · intro j hj
    by_cases hji : j = i
    · exact .inr (hji ▸ hdone)
    · rw [hq']
      by_cases hlt : j < b.nodeMap.length
      · rcases h.done j hlt with hmem | hd
        · rw [hq] at hmem
          exact .inl (mem_append_left _ ((mem_cons.mp hmem).resolve_left hji))
        · exact .inr (hd.mono hgrows.map (hgrows.old j hlt hji))
      · exact .inl (mem_append_right _ (hnew j (by simpa using hlt) hj))

theorem Wf.length_le (h : Wf order filedfa b) : b.nodeMap.length ≤ 2 ^ u.card := by
  have hsub : b.nodeMap.toFinset ⊆ u.powerset.image splitNodeTypes := by
    intro p hp
    obtain ⟨s, hs, rfl⟩ := h.sub p (mem_toFinset.mp hp)
    exact Finset.mem_image_of_mem _ (Finset.mem_powerset.mpr hs)
  calc b.nodeMap.length = b.nodeMap.toFinset.card := (toFinset_card_of_nodup h.nodup).symm
    _ ≤ (u.powerset.image splitNodeTypes).card := Finset.card_le_card hsub
    _ ≤ u.powerset.card := Finset.card_image_le
    _ = 2 ^ u.card := Finset.card_powerset u

theorem processWorkQueue_spec (hf : ∀ p, followpos p ⊆ u) (fuel : ℕ) (h : Inv order filedfa followpos nonmatching b)
    (hfuel : 2 ^ u.card - b.nodeMap.length + b.workQueue.length ≤ fuel) :
    (processWorkQueue order filedfa followpos nonmatching fuel b = .error .conflict ∧ Conflict order filedfa) ∨
      ∃ b', processWorkQueue order filedfa followpos nonmatching fuel b = .ok b' ∧
        Inv order filedfa followpos nonmatching b' ∧ b'.workQueue = [] ∧ b.nodeMap <+: b'.nodeMap := by
  induction fuel generalizing b with
  | zero =>
    have hq : b.workQueue = [] := length_eq_zero_iff.mp (by omega)
    exact .inr ⟨b, by simp [processWorkQueue, hq], h, hq, prefix_rfl⟩
  | succ fuel ih =>
    rw [processWorkQueue]
    cases hq : b.workQueue with
    | nil => exact .inr ⟨b, rfl, h, hq, prefix_rfl⟩
    | cons i queue =>
      simp only
      cases hu : updateStateTransitions order filedfa followpos nonmatching i { b with workQueue := queue } with
      | error e =>
        obtain ⟨rfl, hc⟩ := updateStateTransitions_error hf hu
        exact .inl ⟨rfl, hc⟩
      | ok b₁ =>
        obtain ⟨h₁, hgrows⟩ := h.step hf hq hu
        have hlen : b₁.workQueue.length = queue.length + (b₁.nodeMap.length - b.nodeMap.length) := by
          obtain ⟨q, hq₁, hlen, _⟩ := hgrows.queue
          rw [hq₁, length_append, hlen]
        have hle : b.nodeMap.length ≤ b₁.nodeMap.length := hgrows.length_le
        have hbound := h₁.wf.length_le
        rw [hq, length_cons] at hfuel
        rcases ih h₁ (by omega) with he | ⟨b₂, hok, h₂, hempty, hmap⟩
        · exact .inl he
        · exact .inr ⟨b₂, hok, h₂, hempty, hgrows.map.trans hmap⟩

end Build

open Build

def DFA.nodes (d : DFA) (i : ℕ) : NodeSet := nodesOf (d.state i).proto

def DFA.acceptNodes (d : DFA) (i : ℕ) : NodeSet := (d.state i).proto.anodes.getD ∅

/-- What the constructor promises: the states are sets of nodes, and their edges those given by `followpos`. -/
structure Built {u : NodeSet} (order : IterOrder u) (filedfa : Bool) (first : NodeSet)
    (followpos : ImportantNode → NodeSet) (d : DFA) : Prop where
  states : d.states = List.range d.states.length
  start_lt : d.start < d.states.length
  nonmatching_lt : d.nonmatching < d.states.length
  proto : ∀ i < d.states.length, (d.state i).proto = splitNodeTypes (d.nodes i)
  sub : ∀ i < d.states.length, d.nodes i ⊆ u
  inj : ∀ i < d.states.length, ∀ j < d.states.length, d.nodes i = d.nodes j → i = j
  perms : ∀ i < d.states.length, permsOf order filedfa (d.state i).proto.anodes = some (d.state i).perms
  diff : ∀ i, (d.state i).diff = false
  label : ∀ i, 0 ≤ (d.state i).label
  upperBound : d.upperBound = 256
  start : d.nodes d.start = first
  nonmatching : d.nodes d.nonmatching = ∅
  otherwise_lt : ∀ i < d.states.length, (d.state i).otherwise < d.states.length
  otherwise : ∀ i < d.states.length, d.nodes (d.state i).otherwise =
    (casesOf order followpos (d.state i).proto).otherwise.getD ∅
  trans : ∀ i < d.states.length, ∀ (c : ℤ) t, (d.state i).trans[c]? = some t →
    t < d.states.length ∧ (casesOf order followpos (d.state i).proto).cases[c]? = some (d.nodes t) ∧
      t ≠ (d.state i).otherwise
  covered : ∀ i < d.states.length, ∀ (c : ℤ) s,
    (casesOf order followpos (d.state i).proto).cases[c]? = some s → (d.state i).trans[c]? = none →
      s = d.nodes (d.state i).otherwise

variable {u : NodeSet} {followpos : ImportantNode → NodeSet}

theorem Build.Inv.built {order : IterOrder u} {filedfa : Bool} {first : NodeSet}
    {b : Builder} {d : DFA}
    (h : Inv order filedfa followpos d.nonmatching b) (hq : b.workQueue = [])
    (hstart : Maps b first d.start) (hstate : d.state = b.state) (hstates : d.states = b.states)
    (hub : d.upperBound = 256) : Built order filedfa first followpos d := by
  have hlen : d.states.length = b.nodeMap.length := by rw [hstates, h.wf.states, length_range]
  have hproto : ∀ i < b.nodeMap.length, ∃ s ⊆ u, Maps b s i ∧ (d.state i).proto = splitNodeTypes s := by
    intro i hi
    have hget := getElem?_eq_getElem hi
    obtain ⟨s, hs, he⟩ := h.wf.sub _ (getElem_mem hi)
    rw [he] at hget
    exact ⟨s, hs, hget, by rw [hstate, h.wf.proto i _ hget]⟩
  have hmaps : ∀ {s i}, Maps b s i → d.nodes i = s := by
    intro s i hm
    rw [DFA.nodes, hstate, h.wf.proto i _ hm, nodesOf_split]
  have hdone : ∀ i < b.nodeMap.length, Done order followpos b i := by
    intro i hi
    exact (h.done i hi).resolve_left (by simp [hq])
  refine ⟨?_, ?_, ?_, ?_, ?_, ?_, ?_, ?_, ?_, hub, hmaps hstart, hmaps h.nonmatching, ?_, ?_, ?_, ?_⟩
  · rw [hlen, hstates, h.wf.states]
  · rw [hlen]
    exact hstart.lt
  · rw [hlen]
    exact h.nonmatching.lt
  · intro i hi
    obtain ⟨s, _, hm, hp⟩ := hproto i (hlen ▸ hi)
    rw [hp, hmaps hm]
  · intro i hi
    obtain ⟨s, hs, hm, _⟩ := hproto i (hlen ▸ hi)
    exact hmaps hm ▸ hs
  · intro i hi j hj he
    obtain ⟨s, _, hm, _⟩ := hproto i (hlen ▸ hi)
    obtain ⟨s', _, hm', _⟩ := hproto j (hlen ▸ hj)
    rw [hmaps hm, hmaps hm'] at he
    exact h.wf.maps_unique hm (he ▸ hm')
  · intro i hi
    obtain ⟨s, _, hm, hp⟩ := hproto i (hlen ▸ hi)
    rw [hp, hstate]
    exact h.wf.perms i _ hm
  · intro i
    rw [hstate]
    exact h.wf.diff i
  · intro i
    rw [hstate]
    exact h.wf.label i
  · intro i hi
    rw [hlen, hstate]
    exact (hdone i (hlen ▸ hi)).1.lt
  · intro i hi
    rw [hstate]
    exact hmaps (hdone i (hlen ▸ hi)).1
  · intro i hi c t ht
    rw [hstate] at ht ⊢
    obtain ⟨s, hc, hm, hnd⟩ := h.sound i (hlen ▸ hi) c t ht
    rw [hlen, hmaps hm]
    exact ⟨hm.lt, hc, fun he => hnd (he ▸ (hdone i (hlen ▸ hi)).1)⟩
  · intro i hi c s hc hnone
    rw [hstate] at hc hnone ⊢
    obtain ⟨t, hm, ht | ht⟩ := (hdone i (hlen ▸ hi)).2 c s hc
    · rw [hnone] at ht
      cases ht
    · rw [hmaps (hdone i (hlen ▸ hi)).1]
      exact hm.nodes ht

theorem Build.wf_empty (order : IterOrder u) (filedfa : Bool) : Wf order filedfa emptyBuilder := by
  constructor <;> simp [emptyBuilder]

theorem Build.Inv.initial {order : IterOrder u} {filedfa : Bool}
    {b₀ b₁ : Builder} {nm st : ℕ} {s : NodeSet} (h₀ : Grows 0 emptyBuilder b₀) (h₁ : Grows 0 b₀ b₁)
    (hold : ∀ j < b₀.nodeMap.length, b₁.state j = b₀.state j) (hwf : Wf order filedfa b₁) (hnm : Maps b₀ ∅ nm)
    (hst : Maps b₁ s st) : Inv order filedfa followpos nm { b₁ with workQueue := b₁.workQueue ++ [st] } ∧
      (b₁.workQueue ++ [st]).length = b₁.nodeMap.length + 1 := by
  obtain ⟨q₀, hq₀, hlen₀, hmem₀⟩ := h₀.queue
  obtain ⟨q₁, hq₁, hlen₁, hmem₁⟩ := h₁.queue
  have hle := h₁.length_le
  have hempty : emptyBuilder.nodeMap.length = 0 := rfl
  have hqueue : emptyBuilder.workQueue = [] := rfl
  rw [hqueue, nil_append] at hq₀
  refine ⟨⟨⟨hwf.nodup, hwf.sub, hwf.states, hwf.proto, hwf.perms, hwf.diff, hwf.label, ?_⟩, hnm.mono h₁.map, ?_, ?_⟩, ?_⟩
  · intro j hj
    rcases mem_append.mp hj with hj | hj
    · exact hwf.queue j hj
    · rw [mem_singleton.mp hj]
      exact hst.lt
  · intro j hj
    apply Sound.of_trans_empty
    by_cases hlt : j < b₀.nodeMap.length
    · exact (congrArg State.trans (hold j hlt)).trans (h₀.trans j (Nat.zero_le j) hlt)
    · exact h₁.trans j (not_lt.mp hlt) hj
  · intro j hj
    refine .inl (mem_append_left _ ?_)
    rw [hq₁, hq₀]
    by_cases hlt : j < b₀.nodeMap.length
    · exact mem_append_left _ (hmem₀ j (Nat.zero_le j) hlt)
    · exact mem_append_right _ (hmem₁ j (not_lt.mp hlt) hj)
  · rw [hq₁, hq₀]
    simp only [length_append, length_singleton]
    omega

theorem build_spec (refcount : ℕ → ℕ) (root : Node Pos) (order : IterOrder root.positions) (filedfa : Bool) :
    (DFA.build refcount root order filedfa = .error .conflict ∧ Conflict order filedfa) ∨
      ∃ d, DFA.build refcount root order filedfa = .ok d ∧
        Built order filedfa (root.computePos refcount ∅ ∅ PosState.clear).firstpos
          (root.computePos refcount ∅ ∅ PosState.clear).state.followpos d := by
  obtain ⟨hfirst, hfollow⟩ := root.computePos_clear_within refcount
  unfold DFA.build
  generalize root.computePos refcount ∅ ∅ PosState.clear = r at hfirst hfollow ⊢
  cases h₀ : addNewState order filedfa ∅ none emptyBuilder with
  | error e =>
    obtain ⟨rfl, hc⟩ := addNewState_error (Finset.empty_subset _) h₀
    exact .inl ⟨by simp only [error_bind], hc⟩
  | ok r₀ =>
    obtain ⟨nm, b₀⟩ := r₀
    obtain ⟨hwf₀, hgrows₀, _, hnm⟩ := addNewState_spec (wf_empty order filedfa) (Finset.empty_subset _) h₀ 0
    cases h₁ : addNewState order filedfa r.firstpos (some nm) b₀ with
    | error e =>
      obtain ⟨rfl, hc⟩ := addNewState_error hfirst h₁
      exact .inl ⟨by simp only [ok_bind, h₁, error_bind], hc⟩
    | ok r₁ =>
      obtain ⟨st, b₁⟩ := r₁
      obtain ⟨hwf₁, hgrows₁, hold₁, hst⟩ := addNewState_spec hwf₀ hfirst h₁ 0
      obtain ⟨hinv, hlen⟩ := Inv.initial hgrows₀ hgrows₁ hold₁ hwf₁ hnm hst
      simp only [ok_bind, h₁]
      rcases processWorkQueue_spec hfollow (2 ^ root.positions.card + 1) hinv
        (by have := hwf₁.length_le; rw [hlen]; simp only; omega) with ⟨he, hc⟩ | ⟨b₂, hok, h₂, hq, hmap⟩
      · exact .inl ⟨by rw [he, error_bind], hc⟩
      · refine .inr ⟨finish filedfa nm st b₂, by rw [hok]; rfl, ?_⟩
        exact Inv.built (d := finish filedfa nm st b₂) h₂ hq (hst.mono hmap) rfl rfl rfl

end AppArmor

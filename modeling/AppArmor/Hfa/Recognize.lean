import AppArmor.Hfa.BuildCorrect

namespace AppArmor

open Build Glushkov List

namespace Built

variable {u : NodeSet} {order : IterOrder u} {filedfa : Bool} {first : NodeSet}
  {followpos : ImportantNode → NodeSet} {d : DFA} {i : ℕ}

abbrev edges (_ : Built order filedfa first followpos d) (i : ℕ) : Cases := casesOf order followpos (d.state i).proto

theorem delta_lt (h : Built order filedfa first followpos d) (hi : i < d.states.length) (c : ℤ) :
    d.delta i c < d.states.length := by
  unfold DFA.delta
  cases ht : (d.state i).trans[c]? with
  | none => exact h.otherwise_lt i hi
  | some t => exact (h.trans i hi c t ht).1

theorem nodes_delta (h : Built order filedfa first followpos d) (hi : i < d.states.length) (c : ℤ) :
    d.nodes (d.delta i c) = (h.edges i).get c := by
  unfold DFA.delta Cases.get
  cases ht : (d.state i).trans[c]? with
  | some t => rw [(h.trans i hi c t ht).2.1, Option.getD_some, Option.getD_some]
  | none =>
    rw [Option.getD_none]
    cases hc : (h.edges i).cases[c]? with
    | none => exact h.otherwise i hi
    | some s => exact (h.covered i hi c s hc ht).symm

theorem toFinset_nnodes (h : Built order filedfa first followpos d) (hi : i < d.states.length) :
    (order.toList (d.state i).proto.nnodes).toFinset = (d.nodes i).filter (!·.isAccept) := by
  have hsub : (d.state i).proto.nnodes ⊆ u := by
    rw [h.proto i hi, split_nnodes]
    exact (Finset.filter_subset _ _).trans (h.sub i hi)
  rw [(order.spec _ hsub).2, h.proto i hi, split_nnodes]

theorem nodes_delta_byte (h : Built order filedfa first followpos d) (hi : i < d.states.length) {c : ℤ} (hc : 0 ≤ c) :
    d.nodes (d.delta i c) = ((d.nodes i).filter fun p => p.reads (.ch c)).biUnion followpos := by
  rw [h.nodes_delta hi, edges, casesOf, Cases.ofNodes_get hc, h.toFinset_nnodes hi, Finset.filter_filter]
  congr 1
  ext p
  cases p <;> simp

theorem run_lt (h : Built order filedfa first followpos d) (hi : i < d.states.length) (w : List ℤ) :
    w.foldl d.delta i < d.states.length := by
  induction w generalizing i with
  | nil => exact hi
  | cons c w ih => exact ih (h.delta_lt hi c)

theorem nodes_run {root : Node Pos} (h : Built order filedfa root.posInfo.first root.posInfo.follow d) {w : List ℤ}
    (hw : ∀ c ∈ w, 0 ≤ c) : d.nodes (w.foldl d.delta d.start) = root.reach w := by
  induction w using reverseRecOn with
  | nil => exact h.start
  | append_singleton w c ih =>
    have ih := ih fun x hx => hw x (mem_append_left _ hx)
    rw [foldl_append, foldl_cons, foldl_nil, h.nodes_delta_byte (h.run_lt h.start_lt w) (hw c (by simp)), ih]
    simp [Node.reach, Glushkov.reach, advance]

theorem mem_acceptNodes (h : Built order filedfa first followpos d) (hi : i < d.states.length) (m : MatchFlag) :
    .accept m ∈ d.acceptNodes i ↔ .accept m ∈ d.nodes i := by
  rw [DFA.acceptNodes, h.proto i hi, mem_split_anodes]

theorem cnode_notMem_acceptNodes (h : Built order filedfa first followpos d) (hi : i < d.states.length) (p : Pos) :
    .cnode p ∉ d.acceptNodes i := by
  rw [DFA.acceptNodes, h.proto i hi, splitNodeTypes]
  simp only
  split_ifs <;> simp

end Built

theorem build_sharedFree (refcount : ℕ → ℕ) {root : Node Pos} (hroot : root.SharedFree)
    (order : IterOrder root.positions) (filedfa : Bool) :
    (DFA.build refcount root order filedfa = .error .conflict ∧ Conflict order filedfa) ∨
      ∃ d, DFA.build refcount root order filedfa = .ok d ∧
        Built order filedfa root.posInfo.first root.posInfo.follow d := by
  have hfirst : (root.computePos refcount ∅ ∅ PosState.clear).firstpos = root.posInfo.first := by
    simp [Node.computePos_eq hroot, posResult]
  have hfollow : (root.computePos refcount ∅ ∅ PosState.clear).state.followpos = root.posInfo.follow := by
    simp [Node.computePos_eq hroot, posResult, PosState.withFollow, PosState.clear]
  have h := build_spec refcount root order filedfa
  rwa [hfirst, hfollow] at h

/-- The automaton built from a rule tree: after a byte string the accept nodes of the state reached are those of
the rules that match it, in whatever order the nodes of a state are visited. -/
theorem build_recognizes (refcount : ℕ → ℕ) {root : Node Pos} (hroot : root.RuleTree)
    (hn : (root.cnodes.map Pos.addr).Nodup) (order : IterOrder root.positions) (filedfa : Bool) :
    (DFA.build refcount root order filedfa = .error .conflict ∧ Conflict order filedfa) ∨
      ∃ d, DFA.build refcount root order filedfa = .ok d ∧
        ∀ w : List ℤ, (∀ c ∈ w, 0 ≤ c) → ∃ s, d.matchLen d.start w = some s ∧
          ∀ p, p ∈ d.acceptNodes s ↔ ∃ r ∈ root.rules, p = .accept r.2 ∧ w.map .ch ∈ r.1.contents.lang := by
  have hn' : root.cnodes.Nodup := hn.of_map _
  rcases build_sharedFree refcount hroot.sharedFree order filedfa with he | ⟨d, hok, h⟩
  · exact .inl he
  · refine .inr ⟨d, hok, fun w hw => ⟨_, DFA.matchLen_eq_foldl h.diff d.start w, fun p => ?_⟩⟩
    have hlt := h.run_lt h.start_lt w
    cases p with
    | cnode a =>
      refine iff_of_false (h.cnode_notMem_acceptNodes hlt a) ?_
      rintro ⟨r, _, hp, _⟩
      cases hp
    | accept m =>
      rw [h.mem_acceptNodes hlt, h.nodes_run hw, Node.accept_mem_reach hroot hn']
      simp [eq_comm]

def twoRules : Node Pos :=
  .alt [.cat [.cnode ⟨0, .char 97⟩, .accept ⟨.allow, 0, Perm.mayRead, 0, 0⟩],
    .cat [.star (.cnode ⟨1, .notCharSet (Chars.empty.insert 98)⟩), .accept ⟨.allow, 0, Perm.mayWrite, 0, 1⟩]]

theorem twoRules_ruleTree : twoRules.RuleTree := by
  refine .alt (forall_mem_cons.mpr ⟨?_, forall_mem_singleton.mpr ?_⟩)
  · exact .rule _ (.cnode _)
  · exact .rule _ (.star (.cnode _))

theorem twoRules_built : ∃ d, DFA.build (fun _ => 0) twoRules twoRules.leafOrder true = .ok d := by
  have hok : (DFA.build (fun _ => 0) twoRules twoRules.leafOrder true).toBool = true := by rfl
  cases hd : DFA.build (fun _ => 0) twoRules twoRules.leafOrder true with
  | error e =>
    rw [hd] at hok
    cases hok
  | ok d => exact ⟨d, rfl⟩

theorem twoRules_recognized : ∃ d, DFA.build (fun _ => 0) twoRules twoRules.leafOrder true = .ok d ∧
    ∀ w : List ℤ, (∀ c ∈ w, 0 ≤ c) → ∃ s, d.matchLen d.start w = some s ∧
      ∀ p, p ∈ d.acceptNodes s ↔ ∃ r ∈ twoRules.rules, p = .accept r.2 ∧ w.map .ch ∈ r.1.contents.lang := by
  obtain ⟨d, hd⟩ := twoRules_built
  refine (build_recognizes _ twoRules_ruleTree (by decide) twoRules.leafOrder true).resolve_left ?_
  rintro ⟨he, _⟩
  rw [he] at hd
  cases hd

end AppArmor

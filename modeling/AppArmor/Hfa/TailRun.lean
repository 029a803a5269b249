import AppArmor.Expr.AareCorrect
import AppArmor.Hfa.Oob

namespace AppArmor

open Build Glushkov List

def CNode.OobFree (a : CNode) : Prop := ∀ c < 0, a.lists c = false

theorem CNode.OobFree.not_matches {a : CNode} (h : a.OobFree) {c : ℤ} (hc : c < 0) : a.matches c = false := by
  have hl := h c hc
  cases a <;> simp_all [CNode.lists, CNode.matches]

theorem leafClosed_oobFree : LeafClosed CNode.OobFree := by
  intro a ha hm c hc
  have hsame : a.lists c = a.matches c := by
    cases a with
    | char _ | charSet _ => simp [CNode.lists, CNode.matches]
    | notCharSet _ | anyChar => cases ha
  rw [hsame]
  by_contra hne
  obtain ⟨b, hb, hbm⟩ := hm c (by simpa using hne)
  rw [hb.not_matches hc] at hbm
  cases hbm

namespace Node

variable {addr : ℕ} {sep : Pos} {t u : Node Pos}

section Edges

theorem tail_cnodes (sep : Pos) (u : Node Pos) : (cat [.cnode sep, u]).cnodes = sep :: u.cnodes := by
  simp [cnodes, cnodes.cnodesList]

theorem tail_first (sep : Pos) (u : Node Pos) : (posInfo (.cat [.cnode sep, u])).first = {.cnode sep} := by
  rw [posInfo_cat₂]
  simp [PosInfo.cat, posInfo, PosInfo.leaf]

theorem endInfo_first (sep : Pos) (u : Node Pos) (m : MatchFlag) :
    (endInfo (.cat [.cnode sep, u]) m).first = {.accept m, .cnode sep} := by
  rw [endInfo, PosInfo.alt, tail_first]
  rfl

theorem posInfo_rule (m : MatchFlag) : posInfo (.cat [t, .alt [.accept m, .sharedTree addr (.cat [.cnode sep, u])]]) =
    t.posInfo.cat (endInfo (.cat [.cnode sep, u]) m) := by
  rw [posInfo_cat₂, posInfo_alt₂]
  rfl

theorem TailTree.first_cases (h : TailTree addr (.cat [.cnode sep, u]) t) {b : Pos} (hb : .cnode b ∈ t.posInfo.first) :
    b ∈ t.headLeaves ∨ b = sep := by
  induction h with
  | @rule t m h =>
    rw [posInfo_rule, PosInfo.cat, Finset.mem_union, endInfo_first] at hb
    rcases hb with hb | hb
    · have hmem := h.posInfo_on.first hb
      exact Or.inl (by simpa [headLeaves, heads, places] using hmem)
    · split_ifs at hb
      · exact Or.inr (by simpa using hb)
      · exact absurd hb (Finset.notMem_empty _)
  | @alt t v _ _ iht ihv =>
    have hleaves : (Node.alt [t, v]).headLeaves = t.headLeaves ++ v.headLeaves := by simp [headLeaves, heads]
    rw [posInfo_alt₂, PosInfo.alt, Finset.mem_union] at hb
    rw [hleaves, mem_append]
    rcases hb with hb | hb
    · exact (iht hb).imp_left Or.inl
    · exact (ihv hb).imp_left Or.inr

theorem TailTree.follow_cases (h : TailTree addr (.cat [.cnode sep, u]) t) {a : Pos} (ha : a ∉ sep :: u.cnodes)
    {q : ImportantNode} (hq : q ∈ t.posInfo.follow (.cnode a)) :
    (∃ b ∈ t.headLeaves, q = .cnode b) ∨
      ((q = .cnode sep ∨ ∃ m, q = .accept m) ∧ .cnode sep ∈ t.posInfo.follow (.cnode a)) := by
  induction h with
  | @rule t m h =>
    have hout : (endInfo (.cat [.cnode sep, u]) m).follow (.cnode a) = ∅ := by
      apply (endInfo_on _ m).outside
      rw [Finset.mem_insert, cnode_mem_positions, tail_cnodes]
      rintro (hc | hc)
      · cases hc
      · exact ha hc
    rw [posInfo_rule] at hq ⊢
    simp only [PosInfo.cat, hout, Finset.union_empty, endInfo_first, Finset.mem_union] at hq ⊢
    rcases hq with hq | hq
    · have hmem := h.posInfo_on.follow _ hq
      obtain ⟨b, hb, rfl⟩ := mem_places.mp hmem
      exact Or.inl ⟨b, by simpa [headLeaves, heads] using hb, rfl⟩
    · split_ifs at hq ⊢ with hl
      · rw [Finset.mem_insert, Finset.mem_singleton] at hq
        refine Or.inr ⟨?_, Or.inr (by simp)⟩
        rcases hq with rfl | rfl
        · exact Or.inr ⟨m, rfl⟩
        · exact Or.inl rfl
      · exact absurd hq (Finset.notMem_empty _)
  | @alt t v _ _ iht ihv =>
    have hleaves : (Node.alt [t, v]).headLeaves = t.headLeaves ++ v.headLeaves := by simp [headLeaves, heads]
    rw [posInfo_alt₂] at hq ⊢
    simp only [PosInfo.alt, Finset.mem_union, hleaves, mem_append] at hq ⊢
    rcases hq with hq | hq
    · rcases iht hq with ⟨b, hb, rfl⟩ | ⟨hor, hsep⟩
      · exact Or.inl ⟨b, Or.inl hb, rfl⟩
      · exact Or.inr ⟨hor, Or.inl hsep⟩
    · rcases ihv hq with ⟨b, hb, rfl⟩ | ⟨hor, hsep⟩
      · exact Or.inl ⟨b, Or.inr hb, rfl⟩
      · exact Or.inr ⟨hor, Or.inr hsep⟩

variable (hu : RuleTree u) (ht : TailTree addr (.cat [.cnode sep, u]) t) (hn : (t.headLeaves ++ sep :: u.cnodes).Nodup)
include hu ht hn

theorem tail_agree {p : ImportantNode} (hp : p ∈ (cat [.cnode sep, u]).places) :
    t.posInfo.follow p = (posInfo (.cat [.cnode sep, u])).follow p := by
  obtain ⟨hfin, -⟩ := separated_positions hu (nodup_append.mp hn).2.1
  exact ((ht.positions_spec hfin (by rwa [tail_cnodes])).agree p hp).follow

theorem follow_sep : t.posInfo.follow (.cnode sep) = u.posInfo.first := by
  have hmem : ImportantNode.cnode sep ∈ (cat [.cnode sep, u]).places :=
    mem_places.mpr ⟨sep, by rw [tail_cnodes]; exact mem_cons_self, rfl⟩
  have hout : u.posInfo.follow (.cnode sep) = ∅ := by
    apply u.posInfo_on.outside
    rw [cnode_mem_positions]
    exact (nodup_cons.mp (nodup_append.mp hn).2.1).1
  rw [tail_agree hu ht hn hmem, posInfo_cat₂]
  simp [PosInfo.cat, posInfo, PosInfo.leaf, hout]

theorem follow_tail {a : Pos} (ha : a ∈ u.cnodes) : t.posInfo.follow (.cnode a) ⊆ u.positions := by
  have hmem : ImportantNode.cnode a ∈ (cat [.cnode sep, u]).places :=
    mem_places.mpr ⟨a, by rw [tail_cnodes]; exact mem_cons_of_mem _ ha, rfl⟩
  have hne : a ≠ sep := by
    rintro rfl
    exact (nodup_cons.mp (nodup_append.mp hn).2.1).1 ha
  rw [tail_agree hu ht hn hmem, posInfo_cat₂]
  simpa [PosInfo.cat, posInfo, PosInfo.leaf, hne] using u.posInfo_on.follow (.cnode a)

end Edges

section Sides

theorem headLeaves_notMem (hn : (t.headLeaves ++ sep :: u.cnodes).Nodup) {b : Pos} (hb : b ∈ t.headLeaves) :
    b ∉ sep :: u.cnodes := fun h => (nodup_append.mp hn).2.2 b hb b h rfl

theorem sep_notMem (hn : (t.headLeaves ++ sep :: u.cnodes).Nodup) : sep ∉ u.cnodes :=
  (nodup_cons.mp (nodup_append.mp hn).2.1).1

variable (hu : RuleTree u) (ht : TailTree addr (.cat [.cnode sep, u]) t) (hn : (t.headLeaves ++ sep :: u.cnodes).Nodup)
  (hsep : ∀ c, sep.node.matches c → c < 0) (hfree : ∀ a ∈ t.cnodes, a = sep ∨ a.node.OobFree)
include hu ht hn hsep hfree

theorem reach_sides (w : List ℤ) : (∀ a, .cnode a ∈ t.reach w → a ∉ u.cnodes) ∨ ∀ a, .cnode a ∈ t.reach w → a ∈ u.cnodes := by
  induction w using reverseRecOn with
  | nil =>
    refine Or.inl fun a ha => ?_
    rcases ht.first_cases ha with hb | rfl
    · exact fun h => headLeaves_notMem hn hb (mem_cons_of_mem _ h)
    · exact sep_notMem hn
  | append_singleton w c ih =>
    have hedge : ∀ {b : Pos}, .cnode b ∈ t.reach (w ++ [c]) →
        ∃ a, .cnode a ∈ t.reach w ∧ a.node.matches c ∧ .cnode b ∈ t.posInfo.follow (.cnode a) := by
      intro b hb
      rw [reach_append, advance, Finset.mem_biUnion] at hb
      obtain ⟨p, hp, hb⟩ := hb
      obtain ⟨hp, hc⟩ := Finset.mem_filter.mp hp
      cases p with
      | cnode a => exact ⟨a, hp, hc, hb⟩
      | accept m => simp at hc
    rcases ih with ih | ih
    · by_cases hc : 0 ≤ c
      · refine Or.inl fun b hb => ?_
        obtain ⟨a, ha, hm, hb⟩ := hedge hb
        have hne : a ≠ sep := by
          rintro rfl
          exact absurd (hsep c hm) (by omega)
        have hnot : a ∉ sep :: u.cnodes := by
          rw [mem_cons]
          rintro (h | h)
          · exact hne h
          · exact ih a ha h
        rcases ht.follow_cases hnot hb with ⟨b', hb', he⟩ | ⟨he | ⟨m, he⟩, -⟩
        · cases he
          exact fun h => headLeaves_notMem hn hb' (mem_cons_of_mem _ h)
        · cases he
          exact sep_notMem hn
        · cases he
      · refine Or.inr fun b hb => ?_
        obtain ⟨a, ha, hm, hb⟩ := hedge hb
        rcases hfree a (cnode_mem_positions.mp (reach_subset t w ha)) with rfl | hoob
        · rw [follow_sep hu ht hn] at hb
          exact cnode_mem_positions.mp (u.posInfo_on.first hb)
        · rw [hoob.not_matches (by omega)] at hm
          cases hm
    · refine Or.inr fun b hb => ?_
      obtain ⟨a, ha, -, hb⟩ := hedge hb
      exact cnode_mem_positions.mp (follow_tail hu ht hn (ih a ha) hb)

theorem advance_ne_defaults (hdef : sep.node.isDefault = false) {w : List ℤ} {c : ℤ} (hc : c < 0)
    (h : advance t.posInfo (fun p c => p.reads (.ch c)) (t.reach w) c = t.defaults (t.reach w)) :
    advance t.posInfo (fun p c => p.reads (.ch c)) (t.reach w) c = ∅ := by
  by_contra hne
  obtain ⟨q, hq⟩ := Finset.nonempty_iff_ne_empty.mpr hne
  -- only the separator reads `c`
  have hread : ∀ {x}, x ∈ advance t.posInfo (fun p c => p.reads (.ch c)) (t.reach w) c →
      .cnode sep ∈ t.reach w ∧ x ∈ u.posInfo.first := by
    intro x hx
    obtain ⟨p, hp, hx⟩ := Finset.mem_biUnion.mp hx
    obtain ⟨hp, hcr⟩ := Finset.mem_filter.mp hp
    cases p with
    | accept m => simp at hcr
    | cnode a =>
      rcases hfree a (cnode_mem_positions.mp (reach_subset t w hp)) with rfl | hoob
      · rw [follow_sep hu ht hn] at hx
        exact ⟨hp, hx⟩
      · have hm : a.node.matches c = true := hcr
        rw [hoob.not_matches hc] at hm
        cases hm
  obtain ⟨hsepmem, hfirst⟩ := hread hq
  have hhead : ∀ a, .cnode a ∈ t.reach w → a ∉ u.cnodes := by
    rcases reach_sides hu ht hn hsep hfree w with h | h
    · exact h
    · exact absurd (h sep hsepmem) (sep_notMem hn)
  have hq' := hq
  rw [h] at hq'
  obtain ⟨p, hp, hqp⟩ := Finset.mem_biUnion.mp hq'
  obtain ⟨hp, hd⟩ := Finset.mem_filter.mp hp
  cases p with
  | accept m => cases hd
  | cnode a =>
    have hnot : a ∉ sep :: u.cnodes := by
      rw [mem_cons]
      rintro (rfl | h)
      · rw [ImportantNode.isDefault_cnode, hdef] at hd
        cases hd
      · exact hhead a hp h
    rcases ht.follow_cases hnot hqp with ⟨b, hb, rfl⟩ | ⟨-, hmem⟩
    · exact headLeaves_notMem hn hb
        (mem_cons_of_mem _ (cnode_mem_positions.mp (u.posInfo_on.first hfirst)))
    · -- where an expression ends, the default leads to the separator as well
      have hdefault : ImportantNode.cnode sep ∈ t.defaults (t.reach w) :=
        Finset.mem_biUnion.mpr ⟨_, Finset.mem_filter.mpr ⟨hp, hd⟩, hmem⟩
      rw [← h] at hdefault
      exact sep_notMem hn (cnode_mem_positions.mp (u.posInfo_on.first (hread hdefault).2))

end Sides

end Node

namespace Built

variable {root : Node Pos} {order : IterOrder root.positions} {filedfa : Bool} {d : DFA} {i : ℕ}

theorem extStep_lt (h : Built order filedfa root.posInfo.first root.posInfo.follow d) (hi : i < d.states.length) (c : ℤ) :
    d.extStep i c < d.states.length := by
  unfold DFA.extStep
  split_ifs
  · exact h.delta_lt hi c
  · cases ht : (d.state i).trans[c]? with
    | none => exact h.nonmatching_lt
    | some t => exact (h.trans i hi c t ht).1

theorem nodes_extStep (h : Built order filedfa root.posInfo.first root.posInfo.follow d) (hno : root.NoNegatedOob)
    (hi : i < d.states.length) (c : ℤ)
    (hkeep : c < 0 → advance root.posInfo (fun p c => p.reads (.ch c)) (d.nodes i) c = root.defaults (d.nodes i) →
      advance root.posInfo (fun p c => p.reads (.ch c)) (d.nodes i) c = ∅) :
    d.nodes (d.extStep i c) = advance root.posInfo (fun p c => p.reads (.ch c)) (d.nodes i) c := by
  by_cases hc : 0 ≤ c
  · rw [DFA.extStep, if_pos hc]
    exact h.nodes_delta_byte hi hc
  · have hfall := h.nodes_delta_fall hno hi c
    rw [Node.fallStep, DFA.delta] at hfall
    rw [DFA.extStep, if_neg hc]
    by_cases hr : ∃ p ∈ d.nodes i, p.reads (.ch c)
    · rw [if_pos (Or.inr hr)] at hfall
      cases ht : (d.state i).trans[c]? with
      | some t =>
        rw [ht] at hfall
        exact hfall
      | none =>
        rw [ht, Option.getD_none, h.nodes_otherwise hi] at hfall
        rw [Option.getD_none, h.nonmatching, hkeep (by omega) hfall.symm]
    · have hempty : advance root.posInfo (fun p c => p.reads (.ch c)) (d.nodes i) c = ∅ := by
        rw [advance, Finset.filter_eq_empty_iff.mpr fun p hp hpr => hr ⟨p, hp, hpr⟩, Finset.biUnion_empty]
      rw [if_neg (not_or.mpr ⟨hc, hr⟩)] at hfall
      cases ht : (d.state i).trans[c]? with
      | some t =>
        -- such a transition would be the default
        rw [ht, Option.getD_some, ← h.nodes_otherwise hi] at hfall
        obtain ⟨hlt, -, hne⟩ := h.trans i hi c t ht
        exact absurd (h.inj t hlt _ (h.otherwise_lt i hi) hfall) hne
      | none => rw [Option.getD_none, h.nonmatching, hempty]

theorem nodes_extRun (h : Built order filedfa root.posInfo.first root.posInfo.follow d) (hno : root.NoNegatedOob)
    (hkeep : ∀ (w : List ℤ) (c : ℤ), c < 0 →
      advance root.posInfo (fun p c => p.reads (.ch c)) (root.reach w) c = root.defaults (root.reach w) →
      advance root.posInfo (fun p c => p.reads (.ch c)) (root.reach w) c = ∅) (w : List ℤ) :
    d.extRun w < d.states.length ∧ d.nodes (d.extRun w) = root.reach w := by
  induction w using reverseRecOn with
  | nil => exact ⟨h.start_lt, h.start⟩
  | append_singleton w c ih =>
    obtain ⟨hlt, hnodes⟩ := ih
    rw [DFA.extRun_append, Node.reach_append, ← hnodes]
    exact ⟨h.extStep_lt hlt c, h.nodes_extStep hno hlt c (by rw [hnodes]; exact hkeep w c)⟩

theorem nodes_extRun_bytes (h : Built order filedfa root.posInfo.first root.posInfo.follow d) {w : List ℤ}
    (hw : ∀ c ∈ w, 0 ≤ c) : d.extRun w < d.states.length ∧ d.nodes (d.extRun w) = root.reach w := by
  have hrun : ∀ i, w.foldl d.extStep i = w.foldl d.delta i := by
    induction w with
    | nil => exact fun i => rfl
    | cons c w ih =>
      intro i
      rw [foldl_cons, foldl_cons, DFA.extStep, if_pos (hw c (by simp)),
        ih fun x hx => hw x (mem_cons_of_mem _ hx)]
  rw [DFA.extRun, hrun]
  exact ⟨h.run_lt h.start_lt w, h.nodes_run hw⟩

end Built

end AppArmor

import AppArmor.Hfa.Coarsest

namespace AppArmor

open Build Glushkov Refine List

def ImportantNode.isDefault : ImportantNode → Bool
  | .cnode p => p.node.isDefault
  | .accept _ => false

@[simp] theorem ImportantNode.isDefault_cnode (p : Pos) : (ImportantNode.cnode p).isDefault = p.node.isDefault := rfl

@[simp] theorem ImportantNode.isDefault_accept (m : MatchFlag) : (ImportantNode.accept m).isDefault = false := rfl

namespace Cases

variable {followpos : ImportantNode → NodeSet} {c : ℤ}

theorem biUnion_filter_append (f : ImportantNode → Bool) (l : List ImportantNode) (p : ImportantNode) :
    ((l ++ [p]).toFinset.filter (f ·)).biUnion followpos =
      (l.toFinset.filter (f ·)).biUnion followpos ∪ if f p then followpos p else ∅ := by
  ext q
  cases hp : f p <;>
  · simp only [Finset.mem_biUnion, Finset.mem_filter, mem_toFinset, mem_append, mem_singleton,
      Finset.mem_union]
    grind

theorem ofNodes_append (l : List ImportantNode) (p : ImportantNode) :
    ofNodes followpos (l ++ [p]) = (ofNodes followpos l).follow followpos p := by
  rw [ofNodes, foldl_append, foldl_cons, foldl_nil, ← ofNodes]

theorem ofNodes_otherwise (l : List ImportantNode) :
    (ofNodes followpos l).otherwise.getD ∅ = (l.toFinset.filter (·.isDefault)).biUnion followpos := by
  induction l using reverseRecOn with
  | nil => rfl
  | append_singleton l p ih =>
    rw [ofNodes_append, biUnion_filter_append, ← ih]
    cases p with
    | accept m => simp [follow, ImportantNode.isDefault]
    | cnode a =>
      rw [follow_otherwise, ImportantNode.isDefault]
      cases a.node.isDefault <;> simp

theorem ofNodes_cases_oob (hc : c < 0) (l : List ImportantNode)
    (hl : ∀ a, .cnode a ∈ l → a.node.isDefault → a.node.lists c = false) :
    (ofNodes followpos l).cases[c]? = if ∃ p ∈ l, p.reads (.ch c) then
      some ((l.toFinset.filter fun p => p.reads (.ch c)).biUnion followpos) else none := by
  induction l using reverseRecOn with
  | nil => simp [ofNodes, empty]
  | append_singleton l p ih =>
    have ih := ih fun a ha => hl a (mem_append_left _ ha)
    rw [ofNodes_append, biUnion_filter_append]
    cases p with
    | accept m =>
      rw [follow, ih]
      simp
    | cnode a =>
      have hfresh : (ofNodes followpos l).fresh c = ∅ := by
        unfold fresh
        split
        · exact if_neg (by omega)
        · rfl
      have hlists : a.node.lists c = a.node.matches c := by
        have hd := hl a (by simp)
        cases hn : a.node <;> simp_all [CNode.lists, CNode.matches, CNode.isDefault]
      have hfor : a.node.lists c = true → freshFor a.node (ofNodes followpos l) c = ∅ := by
        intro hlist
        unfold freshFor
        split_ifs with hd
        · rw [hl a (by simp) hd] at hlist
          cases hlist
        · exact hfresh
      have hreads : (ImportantNode.cnode a).reads (.ch c) = a.node.matches c := rfl
      rw [follow_cases, ih, hreads]
      by_cases hm : a.node.matches c = true
      · rw [hlists] at hfor
        by_cases he : ∃ p ∈ l, p.reads (.ch c)
        · simp [he, hm, or_and_right, exists_or]
        · have hempty : (l.toFinset.filter fun p => p.reads (.ch c)) = ∅ := by
            rw [Finset.filter_eq_empty_iff]
            exact fun p hp hr => he ⟨p, mem_toFinset.mp hp, hr⟩
          simp [he, hm, hlists, hfor hm, hempty]
      · have hm' : a.node.matches c = false := by simpa using hm
        by_cases he : ∃ p ∈ l, p.reads (.ch c)
        · simp [he, hm', or_and_right, exists_or]
        · simp [he, hm', hlists, or_and_right, exists_or]

end Cases

namespace Node

def NoNegatedOob (t : Node Pos) : Prop := ∀ p ∈ t.cnodes, p.node.isDefault → ∀ c < 0, p.node.lists c = false

def defaults (t : Node Pos) (s : NodeSet) : NodeSet := (s.filter (·.isDefault)).biUnion t.posInfo.follow

def fallStep (t : Node Pos) (s : NodeSet) (c : ℤ) : NodeSet :=
  if 0 ≤ c ∨ ∃ p ∈ s, p.reads (.ch c) then advance t.posInfo (fun p c => p.reads (.ch c)) s c else t.defaults s

noncomputable def matched (t : Node Pos) (w : List ℤ) : NodeSet :=
  open Classical in t.accepts.filter fun p => ∃ r ∈ t.rules, p = .accept r.2 ∧ w.map .ch ∈ r.1.contents.lang

theorem matched_eq {t : Node Pos} (h : RuleTree t) (hn : t.cnodes.Nodup) (w : List ℤ) :
    t.matched w = (t.reach w).filter (·.isAccept) := by
  classical
  ext p
  rw [matched, Finset.mem_filter, Finset.mem_filter]
  cases p with
  | cnode a => simp [ImportantNode.isAccept]
  | accept m =>
    rw [accept_mem_reach h hn]
    simp only [ImportantNode.isAccept, and_true, ImportantNode.accept.injEq]
    constructor
    · rintro ⟨_, r, hr, rfl, hw⟩
      exact ⟨r, hr, rfl, hw⟩
    · rintro ⟨r, hr, rfl, hw⟩
      refine ⟨mem_accepts.mpr ⟨r.2, ?_, rfl⟩, r, hr, rfl, hw⟩
      rw [h.flags_eq]
      exact mem_map_of_mem hr

theorem reach_append (t : Node Pos) (w : List ℤ) (c : ℤ) :
    t.reach (w ++ [c]) = advance t.posInfo (fun p c => p.reads (.ch c)) (t.reach w) c := by
  rw [reach, reach, Glushkov.reach, foldl_append, foldl_cons, foldl_nil]
  rfl

end Node

def DFA.extStep (d : DFA) (s : ℕ) (c : ℤ) : ℕ :=
  if 0 ≤ c then d.delta s c else ((d.state s).trans[c]?).getD d.nonmatching

def DFA.extRun (d : DFA) (w : List ℤ) : ℕ := w.foldl d.extStep d.start

theorem DFA.extRun_append (d : DFA) (w : List ℤ) (c : ℤ) : d.extRun (w ++ [c]) = d.extStep (d.extRun w) c := by
  simp [extRun]

def ExtWord (w : List ℤ) : Prop := ∀ c ∈ w, c < 256

theorem extWord_append {v w : List ℤ} : ExtWord (v ++ w) ↔ ExtWord v ∧ ExtWord w := forall_mem_append

theorem extWord_cons {c : ℤ} {w : List ℤ} : ExtWord (c :: w) ↔ c < 256 ∧ ExtWord w := forall_mem_cons

section Perms

variable (root : Node Pos) (order : IterOrder root.positions) (filedfa : Bool)

noncomputable def permsFor (w : List ℤ) : Option PermsT :=
  permsOf order filedfa (splitNodeTypes (root.matched w)).anodes

def observe (s : NodeSet) : Option (Option PermsT) :=
  if s = root.posInfo.first then none else some (permsOf order filedfa (splitNodeTypes s).anodes)

/-- Whenever rules can read an out of band character, either they grant nothing from there on, or the default leads
to a state that some continuation tells apart from theirs. -/
def OobSafe : Prop :=
  ∀ (w : List ℤ) (c : ℤ), ExtWord w → c < 0 → (∃ p ∈ root.reach w, p.reads (.ch c)) →
    (∀ v, ExtWord v → permsFor root order filedfa (w ++ c :: v) = some .clear) ∨
      ∃ v : List ℤ, observe root order filedfa (v.foldl root.fallStep (root.reach (w ++ [c]))) ≠
        observe root order filedfa (v.foldl root.fallStep (root.defaults (root.reach w)))

variable {root order filedfa}

theorem permsFor_eq (hroot : root.RuleTree) (hn : root.cnodes.Nodup) (w : List ℤ) :
    permsFor root order filedfa w = permsOf order filedfa (splitNodeTypes (root.reach w)).anodes := by
  simp only [permsFor, Node.matched_eq hroot hn, splitNodeTypes, Finset.filter_filter, and_self]

end Perms

namespace Built

variable {root : Node Pos} {order : IterOrder root.positions} {filedfa : Bool} {d : DFA} {i : ℕ}

theorem nodes_otherwise (h : Built order filedfa root.posInfo.first root.posInfo.follow d)
    (hi : i < d.states.length) : d.nodes (d.state i).otherwise = root.defaults (d.nodes i) := by
  rw [h.otherwise i hi, casesOf, Cases.ofNodes_otherwise, h.toFinset_nnodes hi, Node.defaults, Finset.filter_filter]
  congr 1
  ext p
  cases p <;> simp

theorem nodes_delta_fall (h : Built order filedfa root.posInfo.first root.posInfo.follow d) (hno : root.NoNegatedOob)
    (hi : i < d.states.length) (c : ℤ) : d.nodes (d.delta i c) = root.fallStep (d.nodes i) c := by
  unfold Node.fallStep
  by_cases hc : 0 ≤ c
  · rw [if_pos (.inl hc)]
    exact h.nodes_delta_byte hi hc
  · have hl : ∀ a, .cnode a ∈ order.toList (d.state i).proto.nnodes → a.node.isDefault → a.node.lists c = false := by
      intro a ha hd
      rw [← mem_toFinset, h.toFinset_nnodes hi] at ha
      refine hno a ?_ hd c (by omega)
      simpa [Node.positions, Node.places, Node.accepts] using h.sub i hi (Finset.mem_of_mem_filter _ ha)
    have hreads : (∃ p ∈ order.toList (d.state i).proto.nnodes, p.reads (.ch c)) ↔ ∃ p ∈ d.nodes i, p.reads (.ch c) := by
      simp only [← mem_toFinset (l := order.toList _), h.toFinset_nnodes hi, Finset.mem_filter]
      constructor
      · rintro ⟨p, hp, hr⟩
        exact ⟨p, hp.1, hr⟩
      · rintro ⟨p, hp, hr⟩
        cases p with
        | cnode a => exact ⟨_, ⟨hp, rfl⟩, hr⟩
        | accept m => simp at hr
    rw [h.nodes_delta hi, edges, casesOf, Cases.get, Cases.ofNodes_cases_oob (by omega) _ hl]
    simp only [hreads, hc, false_or]
    split_ifs with hr
    · rw [Option.getD_some, h.toFinset_nnodes hi, advance, Finset.filter_filter]
      congr 1
      ext p
      cases p <;> simp
    · rw [Option.getD_none, ← h.nodes_otherwise hi, h.otherwise i hi, casesOf]

theorem nodes_foldl (h : Built order filedfa root.posInfo.first root.posInfo.follow d) (hno : root.NoNegatedOob)
    (hi : i < d.states.length) (v : List ℤ) : d.nodes (v.foldl d.delta i) = v.foldl root.fallStep (d.nodes i) := by
  induction v generalizing i with
  | nil => rfl
  | cons c v ih => rw [foldl_cons, foldl_cons, ih (h.delta_lt hi c), h.nodes_delta_fall hno hi]

theorem perms_nodes (h : Built order filedfa root.posInfo.first root.posInfo.follow d) (hi : i < d.states.length) :
    permsOf order filedfa (splitNodeTypes (d.nodes i)).anodes = some (d.state i).perms := by
  rw [← h.proto i hi, h.perms i hi]

theorem observe_nodes (h : Built order filedfa root.posInfo.first root.posInfo.follow d) (hi : i < d.states.length) :
    observe root order filedfa (d.nodes i) = (d.obs i).map some := by
  unfold observe DFA.obs
  rw [h.perms_nodes hi, ← h.start]
  by_cases hs : i = d.start
  · simp [hs]
  · rw [if_neg hs, if_neg fun he => hs (h.inj i hi _ h.start_lt he), Option.map_some]

theorem indist_iff (h : Built order filedfa root.posInfo.first root.posInfo.follow d) (hno : root.NoNegatedOob) {j : ℕ}
    (hi : i < d.states.length) (hj : j < d.states.length) : Indist d.delta d.obs i j ↔
      ∀ v : List ℤ, observe root order filedfa (v.foldl root.fallStep (d.nodes i)) =
        observe root order filedfa (v.foldl root.fallStep (d.nodes j)) := by
  refine forall_congr' fun v => ?_
  rw [← h.nodes_foldl hno hi, ← h.nodes_foldl hno hj, h.observe_nodes (h.run_lt hi v), h.observe_nodes (h.run_lt hj v)]
  exact (Option.map_injective (Option.some_injective _)).eq_iff.symm

theorem nonmatching_trans (h : Built order filedfa root.posInfo.first root.posInfo.follow d) (c : ℤ) :
    (d.state d.nonmatching).trans[c]? = none := by
  have hempty : order.toList (d.state d.nonmatching).proto.nnodes = [] := by
    rw [← toFinset_eq_empty_iff, h.toFinset_nnodes h.nonmatching_lt, h.nonmatching]
    rfl
  cases ht : (d.state d.nonmatching).trans[c]? with
  | none => rfl
  | some t =>
    have hcase := (h.trans _ h.nonmatching_lt c t ht).2.1
    rw [casesOf, hempty] at hcase
    simp [Cases.ofNodes, Cases.empty] at hcase

theorem nonmatching_otherwise (h : Built order filedfa root.posInfo.first root.posInfo.follow d) :
    (d.state d.nonmatching).otherwise = d.nonmatching := by
  refine h.inj _ (h.otherwise_lt _ h.nonmatching_lt) _ h.nonmatching_lt ?_
  rw [h.nodes_otherwise h.nonmatching_lt, h.nonmatching]
  rfl

theorem nonmatching_perms (h : Built order filedfa root.posInfo.first root.posInfo.follow d) :
    (d.state d.nonmatching).perms = .clear := by
  have hp := h.perms_nodes h.nonmatching_lt
  rw [h.nonmatching] at hp
  exact (Option.some.inj hp).symm

end Built

namespace Minimized

variable {d d' : DFA} {rep : ℕ → ℕ} {i : ℕ}

theorem rep_otherwise (h : Minimized d d' rep) (hd : d.Closed) (hi : i ∈ d.states) :
    rep (d.state (rep i)).otherwise = rep (d.state i).otherwise := by
  obtain ⟨c, hc, hc'⟩ := Minimize.exists_unlisted (d.state (rep i)).trans (d.state i).trans
  have hstep := (h.indist_rep hi).step c
  simp only [DFA.delta, hc, hc', Option.getD_none] at hstep
  exact (h.rep_eq_iff _ (hd.otherwise _ (h.rep_mem i hi)) _ (hd.otherwise i hi)).mpr hstep

theorem extStep_oob (h : Minimized d d' rep) (hd : d.Closed) (hi : i ∈ d.states) {c : ℤ} (hc : c < 0) :
    d'.extStep (rep i) c =
      if rep (d.delta i c) = rep (d.state i).otherwise then d'.nonmatching else rep (d.delta i c) := by
  have hstep : rep (d.delta (rep i) c) = rep (d.delta i c) := by
    rw [← h.delta (h.rep_mem' hi), h.delta_rep hd hi]
  rw [DFA.extStep, if_neg (by omega), h.trans _ (h.rep_mem' hi), ← hstep, ← h.rep_otherwise hd hi, DFA.delta]
  cases (d.state (rep i)).trans[c]? with
  | none => simp
  | some t =>
    rw [Option.bind_some, Option.getD_some]
    split_ifs <;> rfl

theorem extStep_byte (h : Minimized d d' rep) (hd : d.Closed) (hi : i ∈ d.states) {c : ℤ} (hc : 0 ≤ c) :
    d'.extStep (rep i) c = rep (d.delta i c) := by
  rw [DFA.extStep, if_pos hc, h.delta_rep hd hi]

end Minimized

section Main

variable {root : Node Pos} {order : IterOrder root.positions} {filedfa : Bool} {d d' : DFA} {rep : ℕ → ℕ}

theorem extStep_nonmatching (hb : Built order filedfa root.posInfo.first root.posInfo.follow d)
    (h : Minimized d d' rep) (c : ℤ) : d'.extStep d'.nonmatching c = d'.nonmatching := by
  have hmem := hb.mem_states.mpr hb.nonmatching_lt
  have hself : d.delta d.nonmatching c = d.nonmatching := by
    rw [DFA.delta, hb.nonmatching_trans, Option.getD_none, hb.nonmatching_otherwise]
  rw [h.nonmatching]
  by_cases hc : 0 ≤ c
  · rw [h.extStep_byte hb.unencoded.toClosed hmem hc, hself]
  · rw [h.extStep_oob hb.unencoded.toClosed hmem (by omega), hself, hb.nonmatching_otherwise, if_pos rfl, h.nonmatching]

theorem foldl_extStep_nonmatching (hb : Built order filedfa root.posInfo.first root.posInfo.follow d)
    (h : Minimized d d' rep) (v : List ℤ) : v.foldl d'.extStep d'.nonmatching = d'.nonmatching := by
  induction v with
  | nil => rfl
  | cons c v ih => rw [foldl_cons, extStep_nonmatching hb h, ih]

def Tracks (root : Node Pos) (order : IterOrder root.positions) (filedfa : Bool) (d d' : DFA) (rep : ℕ → ℕ)
    (w : List ℤ) : Prop :=
  (∃ i < d.states.length, d.nodes i = root.reach w ∧ d'.extRun w = rep i) ∨
    d'.extRun w = d'.nonmatching ∧ ∀ v, ExtWord v → permsFor root order filedfa (w ++ v) = some .clear

/-- After a character that the minimization drops, nothing is permitted. -/
def Harmless (root : Node Pos) (order : IterOrder root.positions) (filedfa : Bool) (d d' : DFA) (rep : ℕ → ℕ) : Prop :=
  ∀ w c i, ExtWord w → c < 0 → i < d.states.length → d.nodes i = root.reach w → d'.extRun w = rep i →
    (∃ p ∈ root.reach w, p.reads (.ch c)) → rep (d.delta i c) = rep (d.state i).otherwise →
    ∀ v, ExtWord v → permsFor root order filedfa (w ++ c :: v) = some .clear

theorem tracks (hb : Built order filedfa root.posInfo.first root.posInfo.follow d) (hm : Minimized d d' rep)
    (hno : root.NoNegatedOob) (hlost : Harmless root order filedfa d d' rep) {w : List ℤ} (hw : ExtWord w) :
    Tracks root order filedfa d d' rep w := by
  have hclosed := hb.unencoded.toClosed
  induction w using reverseRecOn with
  | nil => exact .inl ⟨d.start, hb.start_lt, hb.start, hm.start⟩
  | append_singleton w c ih =>
    rw [extWord_append, extWord_cons] at hw
    rcases ih hw.1 with ⟨i, hi, hnodes, hrun⟩ | ⟨hrun, hdead⟩
    · have hmem := hb.mem_states.mpr hi
      unfold Tracks
      rw [DFA.extRun_append, hrun]
      by_cases hc : 0 ≤ c
      · refine .inl ⟨d.delta i c, hb.delta_lt hi c, ?_, hm.extStep_byte hclosed hmem hc⟩
        rw [hb.nodes_delta_fall hno hi, Node.fallStep, if_pos (.inl hc), hnodes, Node.reach_append]
      · rw [hm.extStep_oob hclosed hmem (by omega)]
        by_cases hread : ∃ p ∈ root.reach w, p.reads (.ch c)
        · have hnodes' : d.nodes (d.delta i c) = root.reach (w ++ [c]) := by
            rw [hb.nodes_delta_fall hno hi, hnodes, Node.fallStep, if_pos (.inr hread), Node.reach_append]
          split_ifs with heq
          · refine .inr ⟨rfl, fun v hv => ?_⟩
            rw [append_assoc]
            exact hlost w c i hw.1 (by omega) hi hnodes hrun hread heq v hv
          · exact .inl ⟨_, hb.delta_lt hi c, hnodes', rfl⟩
        · -- nothing reads the character, and no transition lists it
          have hdefault : d.delta i c = (d.state i).otherwise := by
            refine hb.inj _ (hb.delta_lt hi c) _ (hb.otherwise_lt i hi) ?_
            rw [hb.nodes_delta_fall hno hi, hnodes, Node.fallStep, if_neg (by simp [hc, hread]), hb.nodes_otherwise hi,
              hnodes]
          rw [hdefault, if_pos rfl]
          refine .inl ⟨d.nonmatching, hb.nonmatching_lt, ?_, hm.nonmatching⟩
          have hnone : ((root.reach w).filter fun p => p.reads (.ch c)) = ∅ := by
            rw [Finset.filter_eq_empty_iff]
            exact fun p hp hr => hread ⟨p, hp, hr⟩
          rw [hb.nonmatching, Node.reach_append, advance, hnone, Finset.biUnion_empty]
    · refine .inr ⟨by rw [DFA.extRun_append, hrun, extStep_nonmatching hb hm], fun v hv => ?_⟩
      rw [append_assoc]
      exact hdead _ (extWord_cons.mpr ⟨hw.2.1, hv⟩)

theorem oobSafe_iff_notIndist (hb : Built order filedfa root.posInfo.first root.posInfo.follow d)
    (hno : root.NoNegatedOob) {w : List ℤ} {c : ℤ} {i : ℕ} (hi : i < d.states.length) (hnodes : d.nodes i = root.reach w)
    (hread : ∃ p ∈ root.reach w, p.reads (.ch c)) :
    (∃ v : List ℤ, observe root order filedfa (v.foldl root.fallStep (root.reach (w ++ [c]))) ≠
      observe root order filedfa (v.foldl root.fallStep (root.defaults (root.reach w)))) ↔
      ¬ Refine.Indist d.delta d.obs (d.delta i c) (d.state i).otherwise := by
  have hnodes' : d.nodes (d.delta i c) = root.reach (w ++ [c]) := by
    rw [hb.nodes_delta_fall hno hi, hnodes, Node.fallStep, if_pos (.inr hread), Node.reach_append]
  rw [hb.indist_iff hno (hb.delta_lt hi c) (hb.otherwise_lt i hi), hnodes', hb.nodes_otherwise hi, hnodes, not_forall]

theorem minimized_oob_iff (hroot : root.RuleTree) (hn : root.cnodes.Nodup) (hno : root.NoNegatedOob)
    (hb : Built order filedfa root.posInfo.first root.posInfo.follow d) (hm : Minimized d d' rep) :
    (∀ w, ExtWord w → permsFor root order filedfa w = some (d'.state (d'.extRun w)).perms) ↔
      OobSafe root order filedfa := by
  have hmerged : ∀ c i, i < d.states.length → (rep (d.delta i c) = rep (d.state i).otherwise ↔
      Refine.Indist d.delta d.obs (d.delta i c) (d.state i).otherwise) := fun c i hi =>
    hm.rep_eq_iff _ (hb.mem_states.mpr (hb.delta_lt hi c)) _ (hb.mem_states.mpr (hb.otherwise_lt i hi))
  have hclear : (d'.state d'.nonmatching).perms = .clear := by
    rw [hm.nonmatching, hm.perms_rep (hb.mem_states.mpr hb.nonmatching_lt), hb.nonmatching_perms]
  constructor
  · intro hall
    -- a lost character leaves the run in the nonmatching state, so the rules must grant nothing there
    have hlost : Harmless root order filedfa d d' rep := by
      intro w c i hw hc hi _ hrun _ heq v hv
      rw [hall _ (extWord_append.mpr ⟨hw, extWord_cons.mpr ⟨by omega, hv⟩⟩), DFA.extRun, foldl_append, foldl_cons, ← DFA.extRun, hrun,
        hm.extStep_oob hb.unencoded.toClosed (hb.mem_states.mpr hi) hc, if_pos heq, foldl_extStep_nonmatching hb hm, hclear]
    intro w c hw hc hread
    rcases tracks hb hm hno hlost hw with ⟨i, hi, hnodes, hrun⟩ | ⟨_, hdead⟩
    · by_cases heq : rep (d.delta i c) = rep (d.state i).otherwise
      · exact .inl (hlost w c i hw hc hi hnodes hrun hread heq)
      · exact .inr ((oobSafe_iff_notIndist hb hno hi hnodes hread).mpr fun h => heq ((hmerged c i hi).mpr h))
    · exact .inl fun v hv => hdead (c :: v) (extWord_cons.mpr ⟨by omega, hv⟩)
  · intro hsafe w hw
    have hlost : Harmless root order filedfa d d' rep := by
      intro w c i hw hc hi hnodes _ hread heq
      refine (hsafe w c hw hc hread).resolve_right fun hv => ?_
      exact (oobSafe_iff_notIndist hb hno hi hnodes hread).mp hv ((hmerged c i hi).mp heq)
    rcases tracks hb hm hno hlost hw with ⟨i, hi, hnodes, hrun⟩ | ⟨hrun, hdead⟩
    · rw [hrun, hm.perms_rep (hb.mem_states.mpr hi), permsFor_eq hroot hn, ← hnodes, hb.perms_nodes hi]
    · have hnow := hdead [] (forall_mem_nil _)
      rw [append_nil] at hnow
      rw [hrun, hclear, hnow]

end Main

/-- Without out of band characters in `[^...]`, the minimized automaton grants on every word over bytes and out of band
characters what the rules matching the word grant, exactly when every out of band character is safe. -/
theorem build_minimize_oob_iff {refcount : ℕ → ℕ} {root : Node Pos} (hroot : root.RuleTree)
    (hn : (root.cnodes.map Pos.addr).Nodup) (hno : root.NoNegatedOob) {order : IterOrder root.positions} {filedfa : Bool}
    {d : DFA} (hd : DFA.build refcount root order filedfa = .ok d) : ∃ d', d.minimize = .ok d' ∧
      ((∀ w, ExtWord w → permsFor root order filedfa w = some (d'.state (d'.extRun w)).perms) ↔
        OobSafe root order filedfa) := by
  rcases build_sharedFree refcount hroot.sharedFree order filedfa with ⟨he, _⟩ | ⟨d₀, hok, hb⟩
  · rw [he] at hd
    cases hd
  · rw [hok] at hd
    cases hd
    obtain ⟨d', rep, hmin, hm⟩ := minimize_spec hb.unencoded
    exact ⟨d', hmin, minimized_oob_iff hroot (hn.of_map _) hno hb hm⟩

theorem twoOobs_ruleTree : twoOobs.RuleTree :=
  .rule _ (.alt₂ (.cat₂ (.cnode _) (.cnode _)) (.cat₂ (.cnode _) (.cnode _)))

theorem twoOobs_oob_iff : ∃ d, DFA.build (fun _ => 0) twoOobs twoOobs.leafOrder true = .ok d ∧ ∃ d', d.minimize = .ok d' ∧
    ((∀ w, ExtWord w → permsFor twoOobs twoOobs.leafOrder true w = some (d'.state (d'.extRun w)).perms) ↔
      OobSafe twoOobs twoOobs.leafOrder true) := by
  obtain ⟨d, hd⟩ : ∃ d, DFA.build (fun _ => 0) twoOobs twoOobs.leafOrder true = .ok d := by
    have hok : (DFA.build (fun _ => 0) twoOobs twoOobs.leafOrder true).toBool = true := by rfl
    cases hd : DFA.build (fun _ => 0) twoOobs twoOobs.leafOrder true with
    | error e =>
      rw [hd] at hok
      cases hok
    | ok d => exact ⟨d, rfl⟩
  refine ⟨d, hd, build_minimize_oob_iff twoOobs_ruleTree (by decide) ?_ hd⟩
  intro p hp hdefault
  have hnone : ∀ p ∈ twoOobs.cnodes, p.node.isDefault = false := by decide
  rw [hnone p hp] at hdefault
  cases hdefault

def oobOrAny : Node Pos :=
  .cat [.cat [.cnode ⟨0, .char 97⟩, .alt [.cnode ⟨1, .char (-1)⟩, .cnode ⟨2, .anyChar⟩]],
    .accept ⟨.allow, 0, Perm.mayRead, 0, 0⟩]

theorem oobOrAny_ruleTree : oobOrAny.RuleTree := .rule _ (.cat₂ (.cnode _) (.alt₂ (.cnode _) (.cnode _)))

theorem oobOrAny_lost : permsFor oobOrAny oobOrAny.leafOrder true [97, -1] = some ⟨Perm.mayRead, 0, 0, 0, 0⟩ ∧
    (DFA.buildMinimized (fun _ => 0) oobOrAny oobOrAny.leafOrder true).map (fun d => (d.state (d.extRun [97, -1])).perms) =
      some .clear := by
  rw [permsFor_eq oobOrAny_ruleTree (by decide)]
  exact ⟨by rfl, by decide +kernel⟩

end AppArmor

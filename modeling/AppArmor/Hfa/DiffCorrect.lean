import AppArmor.Hfa.DiffRow
import AppArmor.Hfa.MinimizeCorrect

namespace AppArmor

open List Option Function

namespace Diff

variable {d : DFA}

section Dag

/-- Depths never decrease along the order; while the children of `cur` are added, none exceeds its depth by two. -/
structure DagInv (d : DFA) (cur : ℕ) (g : Dag) : Prop where
  nodup : g.order.Nodup
  sub : ∀ s ∈ g.order, s ∈ d.states
  levels : g.order.Pairwise fun a b => g.depth a ≤ g.depth b
  bound : ∀ s ∈ g.order, g.depth s ≤ g.depth cur + 1
  parents : ∀ s, ∀ p ∈ g.parents s, p ∈ g.order

variable {cur : ℕ} {g : Dag}

theorem DagInv.link (h : DagInv d cur g) (hcur : cur ∈ g.order) (c : ℕ) :
    DagInv d cur (g.link c (some cur)) ∧ (g.link c (some cur)).order = g.order := by
  rw [Dag.link]
  split_ifs
  · refine ⟨⟨h.nodup, h.sub, h.levels, h.bound, fun s p hp => ?_⟩, rfl⟩
    dsimp only at hp ⊢
    by_cases hs : s = c
    · subst hs
      rw [update_self] at hp
      rcases mem_append.mp hp with hp | hp
      · exact h.parents s p hp
      · rw [mem_singleton.mp hp]
        exact hcur
    · rw [update_of_ne hs] at hp
      exact h.parents s p hp
  · exact ⟨h, rfl⟩

theorem DagInv.place {c : ℕ} (h : DagInv d cur g) (hcur : cur ∈ g.order) (hc : c ∈ d.states) :
    DagInv d cur (g.place c (some cur)) ∧ g.order <+: (g.place c (some cur)).order := by
  rw [Dag.place]
  split_ifs with hnew
  · exact ⟨h, prefix_rfl⟩
  · have hdepth : ∀ s ∈ g.order, update g.depth c (g.depth cur + 1) s = g.depth s := fun s hs =>
      update_of_ne (fun he : s = c => hnew (he ▸ hs)) ..
    refine ⟨⟨?_, ?_, ?_, ?_, fun s p hp => mem_append_left _ (h.parents s p hp)⟩, prefix_append _ _⟩
    · refine nodup_append.mpr ⟨h.nodup, nodup_singleton c, ?_⟩
      rintro a ha b hb rfl
      exact hnew (mem_singleton.mp hb ▸ ha)
    · intro s hs
      rcases mem_append.mp hs with hs | hs
      · exact h.sub s hs
      · exact mem_singleton.mp hs ▸ hc
    · dsimp only [elim_some]
      refine pairwise_append.mpr ⟨?_, pairwise_singleton _ _, fun a ha b hb => ?_⟩
      · exact h.levels.imp_of_mem fun ha hb hab => by rwa [hdepth _ ha, hdepth _ hb]
      · rw [mem_singleton.mp hb, update_self, hdepth a ha]
        exact h.bound a ha
    · intro s hs
      dsimp only [elim_some] at hs ⊢
      rw [hdepth cur hcur]
      rcases mem_append.mp hs with hs | hs
      · rw [hdepth s hs]
        exact h.bound s hs
      · rw [mem_singleton.mp hs, update_self]

theorem DagInv.addToDag {c : ℕ} (h : DagInv d cur g) (hcur : cur ∈ g.order) (hc : c ∈ d.states) :
    DagInv d cur (addToDag g c (some cur)) ∧ g.order <+: (addToDag g c (some cur)).order := by
  obtain ⟨h₁, hp⟩ := h.place hcur hc
  obtain ⟨h₂, ho⟩ := h₁.link (hp.subset hcur) c
  exact ⟨h₂, by rw [Diff.addToDag, ho]; exact hp⟩

theorem DagInv.foldl_addToDag {l : List ℕ} (h : DagInv d cur g) (hcur : cur ∈ g.order)
    (hl : ∀ c ∈ l, c ∈ d.states) : DagInv d cur (l.foldl (fun g c => Diff.addToDag g c (some cur)) g) ∧
      g.order <+: (l.foldl (fun g c => Diff.addToDag g c (some cur)) g).order := by
  induction l generalizing g with
  | nil => exact ⟨h, prefix_rfl⟩
  | cons c l ih =>
    obtain ⟨h₁, hp₁⟩ := h.addToDag hcur (hl c (by simp))
    obtain ⟨h₂, hp₂⟩ := ih h₁ (hp₁.subset hcur) fun c hc => hl c (mem_cons_of_mem _ hc)
    exact ⟨h₂, hp₁.trans hp₂⟩

theorem children_mem (hd : d.Closed) {s : ℕ} (hs : s ∈ d.states) : ∀ c ∈ children d s, c ∈ d.states := by
  intro c hc
  rcases mem_cons.mp hc with rfl | hc
  · exact hd.otherwise s hs
  · obtain ⟨e, he, rfl⟩ := mem_map.mp hc
    exact hd.trans s hs e.1 e.2 (Std.ExtTreeMap.mem_toList_iff_getElem?_eq_some.mp he)

theorem DagInv.addChildren (hd : d.Closed) (h : DagInv d cur g) (hcur : cur ∈ g.order) :
    DagInv d cur (addChildren d g cur) ∧ g.order <+: (Diff.addChildren d g cur).order :=
  h.foldl_addToDag hcur (children_mem hd (h.sub cur hcur))

structure Levels (d : DFA) (g : Dag) : Prop where
  nodup : g.order.Nodup
  sub : ∀ s ∈ g.order, s ∈ d.states
  levels : g.order.Pairwise fun a b => g.depth a ≤ g.depth b
  parents : ∀ s, ∀ p ∈ g.parents s, p ∈ g.order

theorem DagInv.toLevels (h : DagInv d cur g) : Levels d g := ⟨h.nodup, h.sub, h.levels, h.parents⟩

theorem Levels.length_le (h : Levels d g) : g.order.length ≤ d.states.length :=
  (h.nodup.subperm fun s hs => h.sub s hs).length_le

theorem dagLoop_spec (hd : d.Closed) (fuel : ℕ) {i : ℕ} (h : ∀ cur, g.order[i]? = some cur → DagInv d cur g)
    (hl : Levels d g) (hfuel : d.states.length ≤ fuel + i) : ∃ g', dagLoop d fuel i g = some g' ∧ Levels d g' := by
  induction fuel generalizing i g with
  | zero =>
    have hnone : g.order[i]? = none := List.getElem?_eq_none (by have := hl.length_le; omega)
    exact ⟨g, by rw [dagLoop, hnone], hl⟩
  | succ fuel ih =>
    cases hcur : g.order[i]? with
    | none => exact ⟨g, by rw [dagLoop, hcur], hl⟩
    | some cur =>
      have hinv := h cur hcur
      have hmem := List.mem_of_getElem? hcur
      obtain ⟨h', hp⟩ := hinv.addChildren hd hmem
      have hcur' : (addChildren d g cur).order[i]? = some cur := by
        obtain ⟨t, ht⟩ := hp
        rw [← ht, List.getElem?_append_left (List.getElem?_eq_some_iff.mp hcur).1, hcur]
      rw [dagLoop, hcur]
      refine ih (fun next hnext => ⟨h'.nodup, h'.sub, h'.levels, fun s hs => ?_, h'.parents⟩) h'.toLevels (by omega)
      -- the next state is at least as deep as `cur`
      obtain ⟨hi, hgi⟩ := List.getElem?_eq_some_iff.mp hcur'
      obtain ⟨hi', hgi'⟩ := List.getElem?_eq_some_iff.mp hnext
      have hle := List.pairwise_iff_getElem.mp h'.levels i (i + 1) hi hi' (Nat.lt_succ_self i)
      have hs' := h'.bound s hs
      rw [hgi, hgi'] at hle
      exact hs'.trans (Nat.succ_le_succ hle)

theorem makeDag_spec (hd : d.Closed) (hne : d.start ≠ d.nonmatching) : ∃ g, makeDag d = some g ∧ Levels d g := by
  have hinit : addToDag (addToDag .empty d.nonmatching none) d.start none =
      ⟨[d.nonmatching, d.start], update (update (fun _ => 0) d.nonmatching 1) d.start 1, fun _ => []⟩ := by
    simp [addToDag, Dag.place, Dag.link, Dag.empty, hne]
  have hdepth : ∀ s ∈ [d.nonmatching, d.start],
      update (update (fun _ => 0) d.nonmatching 1) d.start 1 s = 1 := by
    simp [update_of_ne hne.symm]
  rw [makeDag, hinit]
  have hinv : ∀ cur ∈ [d.nonmatching, d.start], DagInv d cur
      ⟨[d.nonmatching, d.start], update (update (fun _ => 0) d.nonmatching 1) d.start 1, fun _ => []⟩ := by
    intro cur hcur
    refine ⟨by simpa using hne.symm, by simp [hd.start, hd.nonmatching], ?_, fun s hs => ?_, by simp⟩
    · refine pairwise_pair.mpr ?_
      dsimp only
      rw [hdepth _ (by simp), hdepth _ (by simp)]
    · dsimp only at hs ⊢
      rw [hdepth s hs]
      omega
  exact dagLoop_spec hd d.states.length (fun cur hcur => hinv cur (mem_of_getElem? hcur))
    (hinv d.start (by simp)).toLevels (by omega)

end Dag

section Rels

variable {g : Dag}

theorem Levels.depth_le (h : Levels d g) {s r : ℕ} (hr : r ∈ g.order)
    (hle : g.order.idxOf s ≤ g.order.idxOf r) : g.depth s ≤ g.depth r := by
  rcases hle.eq_or_lt with heq | hlt
  · have hs : s ∈ g.order := idxOf_lt_length_iff.mp (heq ▸ idxOf_lt_length_of_mem hr)
    rw [(idxOf_inj hs).mp heq]
  · have hr' := idxOf_lt_length_of_mem hr
    have hp := pairwise_iff_getElem.mp h.levels _ _ (hlt.trans hr') hr' hlt
    simpa only [getElem_idxOf] using hp

def Backwards (g : Dag) (rel : ℕ → Option ℕ) : Prop :=
  ∀ s r, rel s = some r → s ∈ g.order ∧ r ∈ g.order ∧ g.order.idxOf r < g.order.idxOf s

theorem depth_lt_of_diffWeight_pos {rel : ℕ → Option ℕ} {s r : ℕ} (h : 0 < diffWeight d g rel s r) :
    g.depth ((rel r).getD r) < g.depth s := by
  by_contra hle
  unfold diffWeight at h
  split_ifs at h <;> omega

section Choice

variable {rel : ℕ → Option ℕ} {s r : ℕ}

def Suits (d : DFA) (g : Dag) (rel : ℕ → Option ℕ) (s : ℕ) (part : List ℕ) (o : Option ℕ) : Prop :=
  ∀ r, o = some r → r ∈ part ∧ 0 < diffWeight d g rel s r

variable {l done : List ℕ}

theorem foldl_partitionStep {part : List ℕ} (hl : l ⊆ part) {a : ℤ × Option ℕ} (h₀ : 0 ≤ a.1)
    (ha : Suits d g rel s part a.2) : Suits d g rel s part (l.foldl (partitionStep d g rel s) a).2 := by
  induction l generalizing a with
  | nil => exact ha
  | cons i l ih =>
    rw [cons_subset] at hl
    rw [foldl_cons, partitionStep]
    split_ifs with his hw
    · exact ih hl.2 h₀ ha
    · refine ih hl.2 (by dsimp only; omega) fun r hr => ?_
      rw [← some.inj hr]
      exact ⟨hl.1, by omega⟩
    · exact ih hl.2 h₀ ha

theorem diffPartition_suits (hl : Levels d g) (c : ℕ) :
    Suits d g rel s g.order (diffPartition d g rel s (g.parents c)).2 := by
  intro r hr
  obtain ⟨hmem, hw⟩ := foldl_partitionStep (List.Subset.refl _) le_rfl (fun r h => by cases h) r hr
  exact ⟨hl.parents c r hmem, hw⟩

theorem candidate_suits (hl : Levels d g) : Suits d g rel s g.order (candidate d g rel s).2 := by
  have hfold : ∀ (l : List (ℤ × ℕ)) (a : ℤ × Option ℕ), Suits d g rel s g.order a.2 →
      Suits d g rel s g.order (l.foldl (candidateStep d g rel s) a).2 := by
    intro l
    induction l with
    | nil => exact fun _ ha => ha
    | cons e l ih =>
      intro a ha
      rw [foldl_cons, candidateStep]
      split_ifs
      · exact ih _ (diffPartition_suits hl e.2)
      · exact ih a ha
  exact hfold _ _ (diffPartition_suits hl _)

theorem Levels.idxOf_lt (hl : Levels d g) (hdone : done ++ s :: l = g.order) (hr : r ∈ done) :
    g.order.idxOf r < g.order.idxOf s := by
  have hnd := hl.nodup
  rw [← hdone, nodup_append] at hnd
  have hsd : s ∉ done := fun h => hnd.2.2 s h s (by simp) rfl
  rw [← hdone, idxOf_append_of_mem hr, idxOf_append_of_notMem hsd]
  have := idxOf_lt_length_of_mem hr
  omega

theorem Backwards.chooseRel (hl : Levels d g) (hdone : done ++ s :: l = g.order)
    (h : Backwards g rel) (hmem : ∀ t r, rel t = some r → t ∈ done) : Backwards g (chooseRel d g rel s) := by
  have hs : s ∈ g.order := hdone ▸ (by simp)
  intro t r ht
  unfold Diff.chooseRel at ht
  by_cases hts : t = s
  · subst hts
    rw [update_self] at ht
    obtain ⟨hr, hw⟩ := candidate_suits hl r ht
    refine ⟨hs, hr, ?_⟩
    have hdepth := depth_lt_of_diffWeight_pos hw
    cases hrel : rel r with
    | some q => exact hl.idxOf_lt hdone (hmem r q hrel)
    | none =>
      rw [hrel, getD_none] at hdepth
      by_contra hle
      exact absurd (hl.depth_le hr (not_lt.mp hle)) (not_le.mpr hdepth)
  · rw [update_of_ne hts] at ht
    exact h t r ht

theorem foldl_chooseRel (hl : Levels d g) (hdone : done ++ l = g.order) (h : Backwards g rel)
    (hmem : ∀ t r, rel t = some r → t ∈ done) : Backwards g (l.foldl (chooseRel d g) rel) := by
  induction l generalizing done rel with
  | nil => exact h
  | cons s l ih =>
    have hdone' : done ++ [s] ++ l = g.order := by rw [← hdone, append_assoc, singleton_append]
    refine ih hdone' (h.chooseRel hl hdone hmem) fun t r ht => ?_
    unfold Diff.chooseRel at ht
    by_cases hts : t = s
    · simp [hts]
    · rw [update_of_ne hts] at ht
      exact mem_append_left _ (hmem t r ht)

theorem chooseRels_backwards (hl : Levels d g) : Backwards g (chooseRels d g) :=
  foldl_chooseRel hl (take_append_drop 2 g.order) (fun _ _ h => by cases h) fun _ _ h => by cases h

theorem chooseRels_mem (h : chooseRels d g s = some r) : s ∈ g.order.drop 2 := by
  have hfold : ∀ (l : List ℕ) (rel : ℕ → Option ℕ), l.foldl (chooseRel d g) rel s ≠ rel s → s ∈ l := by
    intro l
    induction l with
    | nil => exact fun _ h => absurd rfl h
    | cons t l ih =>
      intro rel hne
      rw [foldl_cons] at hne
      by_cases hst : s = t
      · simp [hst]
      · refine mem_cons_of_mem _ (ih _ fun he => hne (he.trans ?_))
        rw [Diff.chooseRel, update_of_ne hst]
  exact hfold _ _ (by rw [← chooseRels, h]; exact some_ne_none r)

end Choice

end Rels

section Encode

variable {g : Dag} {rel : ℕ → Option ℕ}

def encoded (d : DFA) (rel : ℕ → Option ℕ) (done : List ℕ) (s : ℕ) : State :=
  match rel s with
  | some r => if s ∈ done then relState d s r else d.state s
  | none => d.state s

variable {done : List ℕ}

theorem encoded_of_notMem {s : ℕ} (hs : s ∉ done) : encoded d rel done s = d.state s := by
  unfold encoded
  split
  · exact if_neg hs
  · rfl

theorem relRow_congr {d₁ d₂ : DFA} {s r : ℕ} (hs : d₁.state s = d₂.state s) (hr : d₁.state r = d₂.state r)
    (hub : d₁.upperBound = d₂.upperBound) : relRow d₁ s r = relRow d₂ s r := by
  have hdelta : d₁.delta r = d₂.delta r := by
    funext c
    rw [DFA.delta, DFA.delta, hr]
  rw [relRow, relRow, hs, hr, hub, hdelta]

theorem encodeState_step (hdiff : ∀ i, (d.state i).diff = false) {s : ℕ} {d' : DFA}
    (hstate : d'.state = encoded d rel done) (hub : d'.upperBound = d.upperBound) (hs : s ∉ done)
    (hrel : ∀ r, rel s = some r → r ∉ done ∧ r ≠ s) :
    ∃ d'', encodeState rel d' s = some d'' ∧ d''.state = encoded d rel (s :: done) ∧ d''.upperBound = d.upperBound ∧
      d''.states = d'.states := by
  unfold encodeState
  cases hr : rel s with
  | none =>
    refine ⟨d', rfl, hstate.trans ?_, hub, rfl⟩
    funext t
    unfold encoded
    cases ht : rel t with
    | none => rfl
    | some q =>
      have hts : t ≠ s := fun he => by rw [he, hr] at ht; cases ht
      simp [hts]
  | some r =>
    obtain ⟨hrd, hrs⟩ := hrel r hr
    have hss : d'.state s = d.state s := by rw [hstate, encoded_of_notMem hs]
    have hrr : d'.state r = d.state r := by rw [hstate, encoded_of_notMem hrd]
    have hw := makeRelative_eq (d := d') hrs (by rw [hrr, hdiff]) (by rw [hss, hdiff])
    refine ⟨{ d' with state := update d'.state s (relState d' s r), diffcount := d'.diffcount + 1 },
      by dsimp only; rw [hw, map_some], ?_, hub, rfl⟩
    funext t
    dsimp only
    by_cases hts : t = s
    · subst hts
      rw [update_self]
      unfold encoded relState
      simp only [hr, mem_cons, true_or, if_true, relRow_congr hss hrr hub, hss]
    · rw [update_of_ne hts, hstate]
      unfold encoded
      simp [hts]

theorem foldlM_encodeState (hdiff : ∀ i, (d.state i).diff = false) (hback : Backwards g rel) {l : List ℕ}
    {d' : DFA} (hstate : d'.state = encoded d rel done) (hub : d'.upperBound = d.upperBound)
    (hl : l.Pairwise fun a b => g.order.idxOf b < g.order.idxOf a)
    (hdone : ∀ s ∈ l, ∀ t ∈ done, g.order.idxOf s < g.order.idxOf t) :
    ∃ d'', l.foldlM (encodeState rel) d' = some d'' ∧ d''.state = encoded d rel (l.reverse ++ done) ∧
      d''.states = d'.states := by
  induction l generalizing done d' with
  | nil => exact ⟨d', rfl, hstate, rfl⟩
  | cons s l ih =>
    obtain ⟨hsl, hl⟩ := pairwise_cons.mp hl
    have hlater : ∀ t ∈ done, g.order.idxOf s < g.order.idxOf t := hdone s (by simp)
    have hs : s ∉ done := fun h => lt_irrefl _ (hlater s h)
    obtain ⟨d₁, h₁, hstate₁, hub₁, hstates₁⟩ := encodeState_step hdiff hstate hub hs fun r hr => by
      have hlt := (hback s r hr).2.2
      exact ⟨fun h => lt_asymm hlt (hlater r h), fun he => lt_irrefl _ (he ▸ hlt)⟩
    obtain ⟨d₂, h₂, hstate₂, hstates₂⟩ := ih hstate₁ hub₁ hl fun t ht u hu => by
      rcases mem_cons.mp hu with rfl | hu
      · exact hsl t ht
      · exact hdone t (mem_cons_of_mem _ ht) u hu
    refine ⟨d₂, by rw [foldlM_cons, h₁]; exact h₂, ?_, hstates₂.trans hstates₁⟩
    rw [hstate₂, reverse_cons, append_assoc, singleton_append]

theorem idxOf_pairwise {l : List ℕ} (h : l.Nodup) : l.Pairwise fun a b => l.idxOf a < l.idxOf b := by
  refine pairwise_iff_getElem.mpr fun i j hi hj hij => ?_
  rwa [h.idxOf_getElem, h.idxOf_getElem]

end Encode

end Diff

open Diff

def DFA.relOf (d : DFA) (s : ℕ) : Option ℕ := (makeDag d).bind fun g => chooseRels d g s

structure DFA.Encodable (d : DFA) : Prop extends d.Closed where
  diff : ∀ i, (d.state i).diff = false
  upperBound : d.upperBound = 256
  start_ne : d.start ≠ d.nonmatching

section Spec

variable {d : DFA}

structure Encodes (d d' : DFA) (rank : ℕ → ℕ) : Prop where
  states : d'.states = d.states
  relative : ∀ s r, d.relOf s = some r → d'.state s = relState d s r
  plain : ∀ s, d.relOf s = none → d'.state s = d.state s
  rel_mem : ∀ s r, d.relOf s = some r → s ∈ d.states ∧ r ∈ d.states
  rank_lt : ∀ s r, d.relOf s = some r → rank r < rank s
  rank_le : ∀ s ∈ d.states, rank s ≤ d.states.length

theorem diffEncode_spec (h : d.Encodable) : ∃ d' rank, d.diffEncode = some d' ∧ Encodes d d' rank := by
  obtain ⟨g, hg, hl⟩ := makeDag_spec h.toClosed h.start_ne
  have hback := chooseRels_backwards hl
  have hsorted : (g.order.drop 2).reverse.Pairwise fun a b => g.order.idxOf b < g.order.idxOf a :=
    pairwise_reverse.mpr ((idxOf_pairwise hl.nodup).sublist (drop_sublist 2 _))
  have hinit : ({ d with diffcount := 0 } : DFA).state = encoded d (chooseRels d g) [] := by
    funext s
    rw [encoded_of_notMem not_mem_nil]
  obtain ⟨d', hok, hstate, hstates⟩ := foldlM_encodeState h.diff hback hinit rfl hsorted (by simp)
  have hrel : ∀ s, d.relOf s = chooseRels d g s := fun s => by rw [DFA.relOf, hg, bind_some]
  refine ⟨d', g.order.idxOf, by rw [DFA.diffEncode, hg, bind_some, hok], hstates, ?_, ?_, ?_, ?_, ?_⟩
  · intro s r hr
    rw [hrel] at hr
    have hmem := chooseRels_mem hr
    rw [hstate, encoded, hr]
    simp [hmem]
  · intro s hr
    rw [hrel] at hr
    rw [hstate, encoded, hr]
  · intro s r hr
    rw [hrel] at hr
    exact ⟨hl.sub s (hback s r hr).1, hl.sub r (hback s r hr).2.1⟩
  · intro s r hr
    rw [hrel] at hr
    exact (hback s r hr).2.2
  · intro s _
    exact idxOf_le_length.trans hl.length_le

end Spec

section Preserves

variable {d d' : DFA} {rank : ℕ → ℕ}

/-- Where an out of band character of `r` is taken for the byte `c`, state `s` has no transition that `r` shares, unless it
leads to the default of `s`. -/
def DFA.WrapSafe (d : DFA) (s r : ℕ) : Prop :=
  ∀ c, Wraps (firstChar (d.state r).trans) c → ∀ t, (d.state s).trans[c]? = some t → t = d.delta r c →
    t = (d.state s).otherwise

def DFA.SameNext (d d' : DFA) : Prop :=
  ∀ s ∈ d.states, ∀ c : ℤ, (0 ≤ c ∧ c < 256) ∨ (c < 0 ∧ ((d.state s).trans[c]?).isSome) → d'.next s c = d.next s c

theorem visit_eq_some {o n : ℕ} {x : Option ℕ} {t : ℕ} (h : visit o n x = some t) : t = x.getD o := by
  cases x <;> simp only [visit] at h <;> split_ifs at h <;> simp_all

theorem visit_eq_none {o n : ℕ} {x : Option ℕ} (h : visit o n x = none) : n = x.getD o := by
  cases x <;> simp only [visit] at h <;> split_ifs at h <;> simp_all

variable {s : ℕ} {c : ℤ}

theorem relRow_safe (hub : d.upperBound = 256) {r : ℕ} (hsafe : d.WrapSafe s r) (h₀ : 0 ≤ c) (h₁ : c < 256) :
    (relRow d s r)[c]? = some (d.delta s c) ∨ (relRow d s r)[c]? = none ∧ d.delta r c = d.delta s c := by
  have hrow : (relRow d s r)[c]? = visit (d.state s).otherwise (d.delta r c) (d.state s).trans[c]? := by
    by_cases hw : Wraps (firstChar (d.state r).trans) c
    · rw [relRow_wrapped hub h₀ h₁ hw]
      cases ht : (d.state s).trans[c]? with
      | none => by_cases ho : (d.state s).otherwise = d.delta r c <;> simp [visit, ho]
      | some t =>
        by_cases htr : t = d.delta r c
        · have := hsafe c hw t ht htr
          simp [visit, ← htr, ← this]
        · simp [visit, htr]
    · exact relRow_byte hub h₀ h₁ hw
  rw [hrow]
  cases hv : visit (d.state s).otherwise (d.delta r c) (d.state s).trans[c]? with
  | some t => exact .inl (congrArg some (visit_eq_some hv))
  | none => exact .inr ⟨rfl, visit_eq_none hv⟩

theorem Encodes.nextFrom_plain (h : Encodes d d' rank) (hdiff : ∀ i, (d.state i).diff = false)
    (hs : d.relOf s = none) (n : ℕ) (c : ℤ) : d'.nextFrom (n + 1) s c = some (d.delta s c) := by
  unfold DFA.nextFrom DFA.delta
  rw [h.plain s hs]
  cases (d.state s).trans[c]? <;> simp [hdiff]

theorem Encodes.nextFrom_byte (h : Encodes d d' rank) (hd : d.Encodable)
    (hsafe : ∀ s r, d.relOf s = some r → d.WrapSafe s r) (h₀ : 0 ≤ c) (h₁ : c < 256) (n : ℕ) (hn : rank s ≤ n) : d'.nextFrom (n + 1) s c = some (d.delta s c) := by
  induction n generalizing s with
  | zero =>
    cases hr : d.relOf s with
    | none => exact h.nextFrom_plain hd.diff hr 0 c
    | some r =>
      have := h.rank_lt s r hr
      omega
  | succ n ih =>
    cases hr : d.relOf s with
    | none => exact h.nextFrom_plain hd.diff hr _ c
    | some r =>
      have hlt := h.rank_lt s r hr
      rw [DFA.nextFrom, h.relative s r hr, relState]
      rcases relRow_safe hd.upperBound (hsafe s r hr) h₀ h₁ with hrow | ⟨hrow, heq⟩
      · simp only [hrow]
      · simp only [hrow, if_true]
        rw [ih (by omega), heq]

theorem Encodes.next_oob (h : Encodes d d' rank) (hc : c < 0) {t : ℕ}
    (ht : (d.state s).trans[c]? = some t) : d'.next s c = some t := by
  rw [DFA.next, DFA.nextFrom]
  cases hr : d.relOf s with
  | none => rw [h.plain s hr, ht]
  | some r => simp only [h.relative s r hr, relState, relRow_oob (.inl hc), ht]

theorem Encodes.next_wrapped (h : Encodes d d' rank) (hub : d.upperBound = 256) {r t : ℕ} (hr : d.relOf s = some r)
    (hw : Wraps (firstChar (d.state r).trans) c) (ht : (d.state s).trans[c]? = some t) (htr : t = d.delta r c)
    (hto : t ≠ (d.state s).otherwise) : d'.next s c = some (d.state s).otherwise := by
  obtain ⟨i, _, _, hi⟩ := id hw
  obtain ⟨h₀, h₁⟩ := toChar_byte i
  rw [hi] at h₀ h₁
  have hrow := relRow_wrapped (s := s) hub h₀ h₁ hw
  rw [ht, ← htr] at hrow
  simp only [visit, if_true, hto.symm, if_false] at hrow
  rw [DFA.next, DFA.nextFrom, h.relative s r hr, relState]
  simp only [hrow]

/-- Encoding changes no successor exactly when it is safe to take the out of band characters for bytes. -/
theorem Encodes.sameNext (h : Encodes d d' rank) (hd : d.Encodable)
    (hsafe : ∀ s r, d.relOf s = some r → d.WrapSafe s r) : d.SameNext d' := by
  intro s hs c hc
  rw [DFA.next_eq_delta (hd.diff s)]
  rcases hc with ⟨h₀, h₁⟩ | ⟨hneg, hsome⟩
  · rw [DFA.next, h.states]
    exact h.nextFrom_byte hd hsafe h₀ h₁ _ (h.rank_le s hs)
  · obtain ⟨t, ht⟩ := isSome_iff_exists.mp hsome
    rw [h.next_oob hneg ht, DFA.delta, ht]
    rfl

theorem Encodes.wrapSafe (h : Encodes d d' rank) (hd : d.Encodable) (hall : d.SameNext d') {r : ℕ}
    (hr : d.relOf s = some r) : d.WrapSafe s r := by
  intro c hw t ht htr
  by_contra hto
  obtain ⟨i, _, _, hi⟩ := id hw
  have hbyte := toChar_byte i
  rw [hi] at hbyte
  have hnext := hall s (h.rel_mem s r hr).1 c (.inl hbyte)
  rw [h.next_wrapped hd.upperBound hr hw ht htr hto, DFA.next_eq_delta (hd.diff s), DFA.delta, ht] at hnext
  exact hto (some.inj hnext).symm

end Preserves

end AppArmor

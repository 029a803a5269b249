import AppArmor.Hfa.ChfaScan

namespace AppArmor

open List Diff

namespace DFA

variable (d : DFA)

/-- `push_reachable`, where the state has not been reached before. -/
def pushReachable (w : List ℕ × Finset ℕ) (s : ℕ) : List ℕ × Finset ℕ :=
  if s ∈ w.2 then w else (w.1 ++ [s], insert s w.2)

def pushTargets (w : List ℕ × Finset ℕ) (s : ℕ) : List ℕ × Finset ℕ :=
  (d.state s).trans.toList.foldl (fun w e => pushReachable w e.2)
    (if (d.state s).otherwise ≠ d.nonmatching then pushReachable w (d.state s).otherwise else w)

def reachLoop : ℕ → List ℕ → Finset ℕ → Option (Finset ℕ)
  | 0, _, _ => none
  | _ + 1, [], reachable => some reachable
  | fuel + 1, s :: queue, reachable =>
    reachLoop fuel (d.pushTargets (queue, reachable) s).1 (d.pushTargets (queue, reachable) s).2

def removeUnreachable : Option DFA :=
  (d.reachLoop (d.states.length + 1) [d.start] {d.nonmatching, d.start}).map fun reachable =>
    if reachable.card < d.states.length then { d with states := d.states.filter (· ∈ reachable) } else d

def Reachable : ℕ → Prop := Relation.ReflTransGen (fun s t => t ∈ children d s) d.start

/-- No character leads out of the nonmatching state. -/
structure Trapped : Prop extends d.Closed where
  nonmatching_trans : (d.state d.nonmatching).trans = ∅
  nonmatching_otherwise : (d.state d.nonmatching).otherwise = d.nonmatching

variable {d} {queue : List ℕ} {reachable : Finset ℕ}

theorem foldl_pushReachable (l queue : List ℕ) (reachable : Finset ℕ) : ∃ new : List ℕ,
    (∀ s ∈ new, s ∈ l) ∧ (∀ s ∈ l, s ∉ reachable → s ∈ new) ∧
    l.foldl pushReachable (queue, reachable) = (queue ++ new, reachable ∪ l.toFinset) ∧
    (reachable ∪ l.toFinset).card = reachable.card + new.length := by
  induction l generalizing queue reachable with
  | nil => exact ⟨[], by simp⟩
  | cons s l ih =>
    rw [foldl_cons, pushReachable]
    by_cases hs : s ∈ reachable
    · obtain ⟨new, hnew, hall, hfold, hcard⟩ := ih queue reachable
      have hset : reachable ∪ (s :: l).toFinset = reachable ∪ l.toFinset := by
        rw [toFinset_cons, Finset.union_insert, Finset.insert_eq_of_mem (Finset.mem_union_left _ hs)]
      rw [if_pos hs, hset]
      exact ⟨new, fun t ht => mem_cons_of_mem s (hnew t ht), forall_mem_cons.mpr ⟨absurd hs, hall⟩, hfold, hcard⟩
    · obtain ⟨new, hnew, hall, hfold, hcard⟩ := ih (queue ++ [s]) (insert s reachable)
      have hset : reachable ∪ (s :: l).toFinset = insert s reachable ∪ l.toFinset := by
        rw [toFinset_cons, Finset.union_insert, Finset.insert_union]
      rw [if_neg hs, hset]
      refine ⟨s :: new, forall_mem_cons.mpr ⟨mem_cons_self, fun t ht => mem_cons_of_mem s (hnew t ht)⟩,
        forall_mem_cons.mpr ⟨fun _ => mem_cons_self, fun t ht hr => ?_⟩, ?_, ?_⟩
      · by_cases hts : t = s
        · exact hts ▸ mem_cons_self
        · exact mem_cons_of_mem s (hall t ht (by simp [hts, hr]))
      · rw [hfold, append_assoc, singleton_append]
      · rw [hcard, Finset.card_insert_of_notMem hs, length_cons]
        omega

theorem pushTargets_eq (hn : d.nonmatching ∈ reachable) (s : ℕ) :
    d.pushTargets (queue, reachable) s = (children d s).foldl pushReachable (queue, reachable) := by
  rw [children, foldl_cons, foldl_map, pushTargets]
  by_cases ho : (d.state s).otherwise = d.nonmatching
  · rw [if_neg (not_not.mpr ho), ho, pushReachable, if_pos hn]
  · rw [if_pos ho]

/-- Every state found so far is in the queue, or its targets have been found too. -/
structure Exploring (d : DFA) (queue : List ℕ) (reachable : Finset ℕ) : Prop where
  start : d.start ∈ reachable
  nonmatching : d.nonmatching ∈ reachable
  queued : ∀ s ∈ queue, s ∈ reachable
  states : ∀ s ∈ reachable, s ∈ d.states
  sound : ∀ s ∈ reachable, s = d.nonmatching ∨ d.Reachable s
  closed : ∀ s ∈ reachable, s ∉ queue → ∀ t ∈ children d s, t ∈ reachable

theorem Trapped.children_nonmatching (h : d.Trapped) {t : ℕ} (ht : t ∈ children d d.nonmatching) : t = d.nonmatching := by
  rw [children, h.nonmatching_trans, h.nonmatching_otherwise] at ht
  exact mem_singleton.mp ht

theorem Exploring.init (h : d.Trapped) : Exploring d [d.start] {d.nonmatching, d.start} where
  start := by simp
  nonmatching := by simp
  queued := by simp
  states := by
    intro s hs
    rcases Finset.mem_insert.mp hs with rfl | hs
    · exact h.nonmatching
    · exact Finset.mem_singleton.mp hs ▸ h.start
  sound := by
    intro s hs
    rcases Finset.mem_insert.mp hs with rfl | hs
    · exact .inl rfl
    · exact .inr (Finset.mem_singleton.mp hs ▸ .refl)
  closed := by
    intro s hs hq t ht
    rcases Finset.mem_insert.mp hs with rfl | hs
    · simp [h.children_nonmatching ht]
    · exact absurd hs (by simpa using hq)

theorem Exploring.step {s : ℕ} (h : d.Trapped) (he : Exploring d (s :: queue) reachable) {new : List ℕ}
    (hnew : ∀ t ∈ new, t ∈ children d s) (hall : ∀ t ∈ children d s, t ∉ reachable → t ∈ new) :
    Exploring d (queue ++ new) (reachable ∪ (children d s).toFinset) := by
  have hs := he.queued s mem_cons_self
  refine ⟨Finset.mem_union_left _ he.start, Finset.mem_union_left _ he.nonmatching, fun t ht => ?_, fun t ht => ?_,
    fun t ht => ?_, fun t ht hq u hu => ?_⟩
  · rcases mem_append.mp ht with ht | ht
    · exact Finset.mem_union_left _ (he.queued t (mem_cons_of_mem s ht))
    · exact Finset.mem_union_right _ (mem_toFinset.mpr (hnew t ht))
  · rcases Finset.mem_union.mp ht with ht | ht
    · exact he.states t ht
    · exact children_mem h.toClosed (he.states s hs) t (mem_toFinset.mp ht)
  · rcases Finset.mem_union.mp ht with ht | ht
    · exact he.sound t ht
    · rcases he.sound s hs with rfl | hr
      · exact .inl (h.children_nonmatching (mem_toFinset.mp ht))
      · exact .inr (hr.tail (mem_toFinset.mp ht))
  · by_cases hts : t = s
    · exact Finset.mem_union_right _ (mem_toFinset.mpr (hts ▸ hu))
    · have htr : t ∈ reachable := by
        rcases Finset.mem_union.mp ht with ht | ht
        · exact ht
        · by_contra hr
          exact hq (mem_append_right _ (hall t (mem_toFinset.mp ht) hr))
      exact Finset.mem_union_left _ (he.closed t htr (fun h => hq (mem_append_left _ (mem_of_ne_of_mem hts h))) u hu)

theorem Exploring.done (he : Exploring d [] reachable) {s : ℕ} : s ∈ reachable ↔ s = d.nonmatching ∨ d.Reachable s := by
  refine ⟨he.sound s, ?_⟩
  rintro (rfl | hr)
  · exact he.nonmatching
  · induction hr with
    | refl => exact he.start
    | tail _ ht ih => exact he.closed _ ih not_mem_nil _ ht

theorem Exploring.card_le (he : Exploring d queue reachable) : reachable.card ≤ d.states.length := by
  refine (Finset.card_le_card (t := d.states.toFinset) fun s hs => ?_).trans (toFinset_card_le _)
  exact mem_toFinset.mpr (he.states s hs)

/-- Every round takes one state off the queue, and no state is queued twice. -/
theorem reachLoop_spec (h : d.Trapped) (fuel : ℕ) (he : Exploring d queue reachable)
    (hfuel : d.states.length + queue.length < fuel + reachable.card) :
    ∃ final, d.reachLoop fuel queue reachable = some final ∧ Exploring d [] final := by
  induction fuel generalizing queue reachable with
  | zero =>
    have := he.card_le
    omega
  | succ fuel ih =>
    cases queue with
    | nil => exact ⟨reachable, rfl, he⟩
    | cons s queue =>
      obtain ⟨new, hnew, hall, hfold, hcard⟩ := foldl_pushReachable (children d s) queue reachable
      rw [reachLoop, pushTargets_eq he.nonmatching, hfold]
      refine ih (he.step h hnew hall) ?_
      rw [length_cons] at hfuel
      rw [hcard, length_append]
      omega

theorem removeUnreachable_spec (h : d.Trapped) : ∃ states, d.removeUnreachable = some { d with states := states } ∧
    (∀ s, s ∈ states ↔ s = d.nonmatching ∨ d.Reachable s) ∧ ∀ s ∈ states, ∀ t ∈ children d s, t ∈ states := by
  have hcard : 0 < ({d.nonmatching, d.start} : Finset ℕ).card := Finset.card_pos.mpr ⟨_, Finset.mem_insert_self _ _⟩
  obtain ⟨final, hrun, he⟩ := reachLoop_spec h (d.states.length + 1) (Exploring.init h) (by rw [length_singleton]; omega)
  have hkept : ∀ {states : List ℕ}, (∀ s, s ∈ states ↔ s ∈ final) →
      (∀ s, s ∈ states ↔ s = d.nonmatching ∨ d.Reachable s) ∧ ∀ s ∈ states, ∀ t ∈ children d s, t ∈ states := by
    intro states hmem
    refine ⟨fun s => (hmem s).trans he.done, fun s hs t ht => ?_⟩
    exact (hmem t).mpr (he.closed s ((hmem s).mp hs) not_mem_nil t ht)
  rw [removeUnreachable, hrun, Option.map_some]
  by_cases hless : final.card < d.states.length
  · refine ⟨d.states.filter (· ∈ final), by rw [if_pos hless], hkept fun s => ?_⟩
    rw [mem_filter, decide_eq_true_eq]
    exact and_iff_right_of_imp (he.states s)
  · -- as many states have been found as there are, so that all have been found
    refine ⟨d.states, by rw [if_neg hless], hkept fun s => ?_⟩
    have heq : final = d.states.toFinset := by
      refine Finset.eq_of_subset_of_card_le (fun s hs => mem_toFinset.mpr (he.states s hs)) ?_
      rw [toFinset_card_of_nodup h.nodup]
      omega
    rw [heq, mem_toFinset]

theorem large_unreachable : (CHFA.large 1).Trapped ∧ ∃ states,
    (CHFA.large 1).removeUnreachable = some { CHFA.large 1 with states := states } ∧
    (∀ s, s ∈ states ↔ s = (CHFA.large 1).nonmatching ∨ (CHFA.large 1).Reachable s) ∧
    ∀ s ∈ states, ∀ t ∈ children (CHFA.large 1) s, t ∈ states := by
  have htrapped : (CHFA.large 1).Trapped := ⟨CHFA.large_packable.toClosed, CHFA.large_packable.nonmatching_trans, rfl⟩
  exact ⟨htrapped, removeUnreachable_spec htrapped⟩

end DFA

end AppArmor

import AppArmor.Hfa.DiffWrap

namespace AppArmor

open Function

namespace Diff

variable {d : DFA} {g : Dag} {rel : ℕ → Option ℕ} {s r : ℕ}

def Drops (g : Dag) (rel : ℕ → Option ℕ) : Prop := ∀ s r, rel s = some r → g.depth ((rel r).getD r) < g.depth s

theorem Drops.chooseRel (hl : Levels d g) {done l : List ℕ} (hdone : done ++ s :: l = g.order) (hback : Backwards g rel)
    (hmem : ∀ t r, rel t = some r → t ∈ done) (h : Drops g rel) : Drops g (chooseRel d g rel s) := by
  have hback' := hback.chooseRel hl hdone hmem
  intro t r ht
  have hrs : r ≠ s := by
    rintro rfl
    obtain ⟨-, -, hlt⟩ := hback' t r ht
    by_cases hts : t = r
    · rw [hts] at hlt
      exact lt_irrefl _ hlt
    · have hold : rel t = some r := by rwa [Diff.chooseRel, update_of_ne hts] at ht
      exact absurd hlt (hl.idxOf_lt hdone (hmem t r hold)).asymm
  unfold Diff.chooseRel at ht ⊢
  rw [update_of_ne hrs]
  by_cases hts : t = s
  · subst hts
    rw [update_self] at ht
    exact depth_lt_of_diffWeight_pos (candidate_suits hl r ht).2
  · rw [update_of_ne hts] at ht
    exact h t r ht

theorem foldl_chooseRel_drops (hl : Levels d g) {done l : List ℕ} (hdone : done ++ l = g.order) (hback : Backwards g rel)
    (hmem : ∀ t r, rel t = some r → t ∈ done) (h : Drops g rel) : Drops g (l.foldl (chooseRel d g) rel) := by
  induction l generalizing done rel with
  | nil => exact h
  | cons s l ih =>
    have hdone' : done ++ [s] ++ l = g.order := by rw [← hdone, List.append_assoc, List.singleton_append]
    refine ih hdone' (hback.chooseRel hl hdone hmem) (fun t r ht => ?_) (h.chooseRel hl hdone hback hmem)
    unfold Diff.chooseRel at ht
    by_cases hts : t = s
    · simp [hts]
    · rw [update_of_ne hts] at ht
      exact List.mem_append_left _ (hmem t r ht)

theorem chooseRels_drops (hl : Levels d g) : Drops g (chooseRels d g) :=
  foldl_chooseRel_drops hl (List.take_append_drop 2 g.order) (fun _ _ h => by cases h) (fun _ _ h => by cases h)
    fun _ _ h => by cases h

end Diff

open Diff

namespace DFA

def RelativeTo (d : DFA) (r s : ℕ) : Prop := (d.state s).diff = true ∧ (d.state s).otherwise = r

variable {d : DFA}

theorem nextFrom_mono {fuel fuel' s : ℕ} {c : ℤ} (hle : fuel ≤ fuel') (h : (d.nextFrom fuel s c).isSome) :
    (d.nextFrom fuel' s c).isSome := by
  induction fuel generalizing fuel' s with
  | zero => cases h
  | succ fuel ih =>
    obtain ⟨fuel', rfl⟩ : ∃ k, fuel' = k + 1 := ⟨fuel' - 1, by omega⟩
    unfold nextFrom at h ⊢
    cases htr : (d.state s).trans[c]? with
    | some t => rfl
    | none =>
      rw [htr] at h
      dsimp only at h ⊢
      split_ifs at h ⊢ with hdiff
      · exact ih (by omega) h
      · rfl

theorem nextFrom_plain {fuel s : ℕ} {c : ℤ} (hdiff : (d.state s).diff = false) : (d.nextFrom (fuel + 1) s c).isSome := by
  unfold nextFrom
  cases (d.state s).trans[c]? with
  | some t => rfl
  | none =>
    rw [hdiff]
    rfl

theorem nextFrom_relative {fuel s : ℕ} {c : ℤ} (h : (d.nextFrom fuel (d.state s).otherwise c).isSome) :
    (d.nextFrom (fuel + 1) s c).isSome := by
  unfold nextFrom
  cases (d.state s).trans[c]? with
  | some t => rfl
  | none =>
    dsimp only
    split_ifs
    · exact h
    · rfl

end DFA

section Hops

variable {d d' : DFA} {rank : ℕ → ℕ} {s r : ℕ}

theorem Encodes.relativeTo_iff (h : Encodes d d' rank) (hdiff : ∀ i, (d.state i).diff = false) :
    d'.RelativeTo r s ↔ d.relOf s = some r := by
  unfold DFA.RelativeTo
  cases hrel : d.relOf s with
  | some q =>
    rw [h.relative s q hrel]
    simp [relState]
  | none =>
    rw [h.plain s hrel, hdiff s]
    simp

theorem diffEncode_bounded (h : d.Encodable) : ∃ d' g, d.diffEncode = some d' ∧ makeDag d = some g ∧
    WellFounded d'.RelativeTo ∧
    (∀ s r, d'.RelativeTo r s → g.depth r ≤ g.depth s) ∧
    (∀ s r q, d'.RelativeTo r s → d'.RelativeTo q r → g.depth q < g.depth s) ∧
    ∀ s, (∃ k ≤ 2 * g.depth s, (d'.state ((fun t => (d'.state t).otherwise)^[k] s)).diff = false) ∧
      ∀ c, (d'.nextFrom (2 * g.depth s + 1) s c).isSome := by
  obtain ⟨d', rank, hd', henc⟩ := diffEncode_spec h
  obtain ⟨g, hg, hl⟩ := makeDag_spec h.toClosed h.start_ne
  have hrel : ∀ s, d.relOf s = chooseRels d g s := fun s => by rw [DFA.relOf, hg, Option.bind_some]
  have hiff : ∀ r s, d'.RelativeTo r s ↔ chooseRels d g s = some r := fun r s => by
    rw [henc.relativeTo_iff h.diff, hrel]
  have hback := chooseRels_backwards hl
  have hdrops := chooseRels_drops hl
  have hplain : ∀ s, chooseRels d g s = none → (d'.state s).diff = false := fun s hs => by
    rw [henc.plain s (by rw [hrel, hs]), h.diff]
  have hother : ∀ s r, chooseRels d g s = some r → (d'.state s).otherwise = r := fun s r hs => ((hiff r s).mpr hs).2
  refine ⟨d', g, hd', hg, ?_, ?_, ?_, fun s => ?_⟩
  · have hsub : Subrelation d'.RelativeTo (InvImage (· < ·) rank) := by
      intro r s hrs
      exact henc.rank_lt s r (by rw [hrel, (hiff r s).mp hrs])
    exact hsub.wf (InvImage.wf rank Nat.lt_wfRel.wf)
  · intro s r hrs
    obtain ⟨hs, -, hlt⟩ := hback s r ((hiff r s).mp hrs)
    exact hl.depth_le hs hlt.le
  · intro s r q hrs hqr
    have hdepth := hdrops s r ((hiff r s).mp hrs)
    rwa [(hiff q r).mp hqr] at hdepth
  · -- two hops lose depth, so the induction is on the depth
    generalize hn : g.depth s = n
    induction n using Nat.strong_induction_on generalizing s with
    | h n ih =>
      subst hn
      cases hs : chooseRels d g s with
      | none => exact ⟨⟨0, Nat.zero_le _, hplain s hs⟩, fun c => DFA.nextFrom_plain (hplain s hs)⟩
      | some r =>
        have hdepth := hdrops s r hs
        cases hr : chooseRels d g r with
        | none =>
          rw [hr, Option.getD_none] at hdepth
          refine ⟨⟨1, by omega, ?_⟩, fun c => ?_⟩
          · rw [iterate_one, hother s r hs]
            exact hplain r hr
          · refine DFA.nextFrom_mono (show 1 + 1 ≤ _ by omega) (DFA.nextFrom_relative ?_)
            rw [hother s r hs]
            exact DFA.nextFrom_plain (hplain r hr)
        | some q =>
          rw [hr, Option.getD_some] at hdepth
          obtain ⟨⟨k, hk, hend⟩, hnext⟩ := ih (g.depth q) hdepth q rfl
          refine ⟨⟨k + 2, by omega, ?_⟩, fun c => ?_⟩
          · rw [iterate_add_apply]
            change (d'.state ((fun t => (d'.state t).otherwise)^[k] (d'.state (d'.state s).otherwise).otherwise)).diff = false
            rw [hother s r hs, hother r q hr]
            exact hend
          · refine DFA.nextFrom_mono (show 2 * g.depth q + 1 + 1 + 1 ≤ _ by omega) (DFA.nextFrom_relative ?_)
            rw [hother s r hs]
            refine DFA.nextFrom_relative ?_
            rw [hother r q hr]
            exact hnext c

theorem wrapped_hops : ∃ d, DFA.build (fun _ => 0) wrapped wrapped.leafOrder true = .ok d ∧
    ∃ d' g, d.diffEncode = some d' ∧ makeDag d = some g ∧ d'.RelativeTo d.start 3 ∧ WellFounded d'.RelativeTo ∧
    (∀ s r, d'.RelativeTo r s → g.depth r ≤ g.depth s) ∧
    (∀ s r q, d'.RelativeTo r s → d'.RelativeTo q r → g.depth q < g.depth s) ∧
    ∀ s, (∃ k ≤ 2 * g.depth s, (d'.state ((fun t => (d'.state t).otherwise)^[k] s)).diff = false) ∧
      ∀ c, (d'.nextFrom (2 * g.depth s + 1) s c).isSome := by
  obtain ⟨d, hd, hne, hrel⟩ := wrapped_built
  have hencodable := build_encodable hd hne
  obtain ⟨d', g, hd', hg, hbound⟩ := diffEncode_bounded hencodable
  obtain ⟨d'', rank, hd'', henc⟩ := diffEncode_spec hencodable
  obtain rfl := Option.some.inj (hd'.symm.trans hd'')
  exact ⟨d, hd, d', g, hd', hg, (henc.relativeTo_iff hencodable.diff).mpr hrel, hbound⟩

end Hops

end AppArmor

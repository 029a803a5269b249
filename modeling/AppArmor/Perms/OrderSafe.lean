import AppArmor.Perms.Order

namespace AppArmor.Resolve

open Perm RankFold List

def TopConflict (filedfa : Bool) (flags : List MatchFlag) : Prop :=
  ∃ i, (i = mayExecShift ∨ i = mayOtherExecShift) ∧
    (ranked filedfa i (slotTop filedfa i flags) flags).foldlM (applyMatch filedfa i) PermsT.clear = none

/-- The flags visited before `g` have its modifiers: together, or, where each replaces what was there, the last of them. -/
def Meets (i : ℕ) (before : List MatchFlag) (g : MatchFlag) : Prop :=
  match g.kind with
  | .allow => ∀ b, (modifiers true i g).getLsbD b = true ↔ ∃ f ∈ before, (modifiers true i f).getLsbD b = true
  | .exact => ∃ f, before.getLast? = some f ∧ modifiers true i f = modifiers true i g
  | .deny => True
  | .prompt => True

/-- Every flag with the exec bit, but the first, meets those before it. -/
def Arranged (i : ℕ) (l : List MatchFlag) : Prop :=
  ∀ before g, before ++ [g] <+: l → g.perms.getLsbD i = true → (∃ f ∈ before, f.perms.getLsbD i = true) → Meets i before g

/-- The flags of highest rank for an exec bit are not arranged, whatever the order. -/
def NeverArranged (filedfa : Bool) (flags : List MatchFlag) : Prop :=
  filedfa = true ∧ ∀ l, l.Perm flags → ∃ i ∈ [mayExecShift, mayOtherExecShift],
    ¬ Arranged i (ranked true i (slotTop true i flags) l)

def OrderSafe (filedfa : Bool) (flags : List MatchFlag) : Prop :=
  (∀ i, isSlot filedfa i → ∀ k, initialPriority ≤ k → NoClash filedfa i (ranked filedfa i k flags)) ∧
    ∀ i, isSlot filedfa i → Uniform filedfa i (ranked filedfa i (slotTop filedfa i flags) flags)

variable {filedfa : Bool} {i : ℕ} {flags l l' : List MatchFlag}

theorem isSlot_exec (filedfa : Bool) (hi : i = 0 ∨ i = 14) : isSlot filedfa i := by
  rcases hi with rfl | rfl <;> cases filedfa <;> decide

variable {k : ℤ}

theorem ranked_rank : ∀ f ∈ ranked filedfa i k flags, ∀ g ∈ ranked filedfa i k flags,
    scaledPriority i f = scaledPriority i g := by
  intro f hf g hg
  rw [(mem_ranked.mp hf).2.2, (mem_ranked.mp hg).2.2]

theorem slotTop_perm (h : l.Perm l') : slotTop filedfa i l = slotTop filedfa i l' := topRank_perm (h.filter _)

theorem slotRun_some {q : PermsT} (h : slotRun filedfa i l = some (k, q)) :
    k = slotTop filedfa i l ∧ (ranked filedfa i k l).foldlM (applyMatch filedfa i) PermsT.clear = some q :=
  ⟨run_some_top h, (run_some_level h).2.1⟩

theorem permsT_none_of_topConflict (h : TopConflict filedfa l) : permsT filedfa l = none := by
  obtain ⟨i, hi, hf⟩ := h
  refine permsT_none_iff.mpr ⟨i, isSlot_exec filedfa hi, ?_⟩
  exact run_none_of_top le_topRank (fun _ => rank_le_topRank) hf

theorem slotRun_safe (h : OrderSafe filedfa flags) (hp : l.Perm flags) (hi : isSlot filedfa i) :
    slotRun filedfa i l ≠ none := by
  intro hn
  obtain ⟨k, hk, hlev⟩ := run_none_level hn
  obtain ⟨q, hq⟩ := fold_noClash hi ranked_rank ((h.1 i hi k hk).perm (ranked_perm hp.symm i k))
  exact absurd (hlev.symm.trans hq) (by simp)

theorem slotRun_perm (h : OrderSafe filedfa flags) (hp : l.Perm flags) (hi : isSlot filedfa i) :
    slotRun filedfa i l = slotRun filedfa i flags := by
  obtain ⟨⟨k, q⟩, hr⟩ := Option.ne_none_iff_exists'.mp (slotRun_safe h hp hi)
  obtain ⟨⟨k', q'⟩, hr'⟩ := Option.ne_none_iff_exists'.mp (slotRun_safe h (List.Perm.refl flags) hi)
  obtain ⟨hk, hq⟩ := slotRun_some hr
  obtain ⟨hk', hq'⟩ := slotRun_some hr'
  have hkk : k = k' := by rw [hk, hk', slotTop_perm hp]
  subst hkk
  have hu : Uniform filedfa i (ranked filedfa i k flags) := hk' ▸ h.2 i hi
  rw [hr, hr', ← foldl_of_foldlM hq, ← foldl_of_foldlM hq',
    foldl_merge_perm hi ranked_rank hu (ranked_perm hp.symm i k)]

theorem addImpliedIxMmap_congr {p p' : ℕ → ℤ} (h₁ : p mayExecShift = p' mayExecShift)
    (h₂ : p mayOtherExecShift = p' mayOtherExecShift) (h₃ : p execMmapShift = p' execMmapShift)
    (h₄ : p execOtherMmapShift = p' execOtherMmapShift) (mask : Perm32) :
    (addImpliedIxMmap p mask).2 = (addImpliedIxMmap p' mask).2 := by
  have hd : execOtherMmapShift ≠ execMmapShift ∧ mayOtherExecShift ≠ execMmapShift := by decide
  unfold addImpliedIxMmap
  rw [h₁, h₃]
  by_cases hc : (hits mask mayExec && hits mask execInherit && p' execMmapShift ≤ p' mayExecShift) = true
  · simp only [if_pos hc, Function.update_of_ne hd.1, Function.update_of_ne hd.2, h₂, h₄]
    split_ifs <;> rfl
  · simp only [if_neg hc, h₂, h₄]
    split_ifs <;> rfl

theorem impliedMmap_views {s s' : Acc} (h : ∀ i, isSlot filedfa i → view filedfa i s = view filedfa i s') :
    impliedMmap filedfa s = impliedMmap filedfa s' := by
  have hperms : s.perms = s'.perms := permsT_ext_slots fun i hi => congrArg Prod.snd (h i hi)
  cases filedfa with
  | false => simp [impliedMmap, hperms]
  | true =>
    have hpri : ∀ i, isSlot true i → s.priority i = s'.priority i := fun i hi => congrArg Prod.fst (h i hi)
    rw [impliedMmap, impliedMmap, hperms, addImpliedIxMmap_congr (hpri mayExecShift (by decide))
      (hpri mayOtherExecShift (by decide)) (hpri execMmapShift (by decide)) (hpri execOtherMmapShift (by decide))]

theorem permsT_perm (h : OrderSafe filedfa flags) (hp : l.Perm flags) :
    permsT filedfa l = permsT filedfa flags := by
  have hv := fold_views filedfa l
  have hv' := fold_views filedfa flags
  unfold permsT
  cases hr : l.foldlM (visit filedfa) accInit with
  | none =>
    rw [hr] at hv
    obtain ⟨i, hi, hn⟩ := hv
    exact absurd hn (slotRun_safe h hp hi)
  | some s =>
    cases hr' : flags.foldlM (visit filedfa) accInit with
    | none =>
      rw [hr'] at hv'
      obtain ⟨i, hi, hn⟩ := hv'
      exact absurd hn (slotRun_safe h (List.Perm.refl flags) hi)
    | some s' =>
      rw [hr] at hv
      rw [hr'] at hv'
      simp only [Option.map_some, Option.some.injEq]
      apply impliedMmap_views
      intro i hi
      exact Option.some.inj ((hv i hi).symm.trans ((slotRun_perm h hp hi).trans (hv' i hi)))

theorem carriers_append (l l' : List MatchFlag) :
    carriers filedfa i (l ++ l') = carriers filedfa i l ++ carriers filedfa i l' := filter_append _ _

theorem carriers_filter (p : MatchFlag → Bool) (l : List MatchFlag) :
    carriers filedfa i (l.filter p) = (carriers filedfa i l).filter p := filter_comm _ _ l

theorem slotRun_top_first {front back : List MatchFlag}
    (hf : carriers filedfa i front = ranked filedfa i (slotTop filedfa i l) l)
    (hb : ∀ m ∈ carriers filedfa i back, scaledPriority i m < slotTop filedfa i l) :
    slotRun filedfa i (front ++ back) =
      ((ranked filedfa i (slotTop filedfa i l) l).foldlM (applyMatch filedfa i) PermsT.clear).map
        (slotTop filedfa i l, ·) := by
  rw [slotRun, carriers_append, hf]
  apply run_top_first le_topRank (fun m hm => (mem_ranked.mp hm).2.2) _ hb
  intro hlt
  obtain ⟨m, hm, hr⟩ := topRank_attained hlt
  exact ne_nil_of_mem (mem_atRank.mpr ⟨hm, hr⟩)

theorem scaledPriority_exec (hi : i = 0 ∨ i = 14) (m : MatchFlag) : scaledPriority i m = scaledPriority 0 m := by
  rcases hi with rfl | rfl
  · rfl
  · rfl

theorem exists_order_top_first (filedfa : Bool) (l : List MatchFlag) : ∃ l' : List MatchFlag, l'.Perm l ∧
    ∀ i, (i = 0 ∨ i = 14) → slotRun filedfa i l' =
      ((ranked filedfa i (slotTop filedfa i l) l).foldlM (applyMatch filedfa i) PermsT.clear).map
        (slotTop filedfa i l, ·) := by
  set a := max (slotTop filedfa 0 l) (slotTop filedfa 14 l) with ha
  set b := min (slotTop filedfa 0 l) (slotTop filedfa 14 l) with hb
  let isTop := fun m : MatchFlag => decide (scaledPriority 0 m = a)
  let isNext := fun m : MatchFlag => decide (scaledPriority 0 m = b)
  let rest := l.filter (fun m => !isTop m)
  refine ⟨l.filter isTop ++ (rest.filter isNext ++ rest.filter (fun m => !isNext m)), ?_, ?_⟩
  · exact ((filter_append_perm _ _).append_left _).trans (filter_append_perm _ _)
  · intro i hi
    have hle : ∀ m ∈ carriers filedfa i l, scaledPriority 0 m ≤ slotTop filedfa i l := by
      intro m hm
      rw [← scaledPriority_exec hi]
      exact rank_le_topRank hm
    have hrank : ∀ k, ranked filedfa i k l = (carriers filedfa i l).filter (fun m => decide (scaledPriority 0 m = k)) := by
      intro k
      rw [ranked, atRank]
      congr 1
      funext m
      rw [scaledPriority_exec hi]
    have hrest : carriers filedfa i rest = (carriers filedfa i l).filter (fun m => !isTop m) := carriers_filter _ l
    have htop : slotTop filedfa i l = a ∨ (slotTop filedfa i l = b ∧ b < a) := by
      rcases hi with rfl | rfl <;> omega
    rcases htop with ht | ⟨ht, hlt⟩
    · apply slotRun_top_first
      · rw [carriers_filter, ht, hrank]
      · intro m hm
        rw [carriers_append, carriers_filter isNext, carriers_filter (fun m => !isNext m), hrest] at hm
        simp only [mem_append, mem_filter, isTop, isNext] at hm
        rw [scaledPriority_exec hi]
        have hml : m ∈ carriers filedfa i l ∧ scaledPriority 0 m ≠ a := by
          rcases hm with ⟨⟨h₁, h₂⟩, _⟩ | ⟨⟨h₁, h₂⟩, _⟩ <;> exact ⟨h₁, by simpa using h₂⟩
        have := hle m hml.1
        omega
    · have hnone : carriers filedfa i (l.filter isTop) = [] := by
        rw [carriers_filter, filter_eq_nil_iff]
        intro m hm
        have := hle m hm
        simp only [isTop, decide_eq_true_eq]
        omega
      have hall : carriers filedfa i rest = carriers filedfa i l := by
        rw [hrest, filter_eq_self]
        intro m hm
        have := hle m hm
        simp only [isTop, Bool.not_eq_true', decide_eq_false_iff_not]
        omega
      rw [← append_assoc]
      apply slotRun_top_first
      · rw [carriers_append, hnone, nil_append, carriers_filter, hall, ht, hrank]
      · intro m hm
        rw [carriers_filter, hall, mem_filter] at hm
        have := hle m hm.1
        have hne : scaledPriority 0 m ≠ b := by simpa [isNext] using hm.2
        rw [scaledPriority_exec hi]
        omega

theorem slotRun_ne_none_of_not_exec (hi : isSlot filedfa i) (hne : i ≠ 0 ∧ i ≠ 14) : slotRun filedfa i l ≠ none := by
  intro hn
  obtain ⟨k, _, hlev⟩ := run_none_level hn
  have hx := xmask_zero filedfa i (isSlot_lt hi) hne
  have hs := fold_total (l := ranked filedfa i k l) PermsT.clear fun m _ => .inr fun q => conflict_zero hx m q
  exact absurd (hlev.symm.trans hs) (by simp)

theorem topConflict_of_all_none (h : ∀ l', l'.Perm l → permsT filedfa l' = none) : TopConflict filedfa l := by
  obtain ⟨l', hp, hrun⟩ := exists_order_top_first filedfa l
  obtain ⟨i, hi, hn⟩ := permsT_none_iff.mp (h l' hp)
  by_cases hne : i ≠ 0 ∧ i ≠ 14
  · exact absurd hn (slotRun_ne_none_of_not_exec hi hne)
  · have hexec : i = 0 ∨ i = 14 := by omega
    rw [hrun i hexec, Option.map_eq_none_iff] at hn
    exact ⟨i, hexec, hn⟩

theorem carriers_of_all (h : ∀ m ∈ l, carries filedfa i m) : carriers filedfa i l = l :=
  filter_eq_self.mpr h

theorem exists_order_none (hi : isSlot filedfa i) (hk : initialPriority ≤ k)
    (h : ¬ NoClash filedfa i (ranked filedfa i k flags)) : ∃ l, l.Perm flags ∧ permsT filedfa l = none := by
  rcases slot_cases hi with hx | ⟨rfl, hexec⟩
  · refine absurd (.inr ?_) h
    intro x _ f _
    have hm : ∀ m, modifiers filedfa i m = 0 := fun m => by simp [modifiers, hx]
    unfold Fits
    cases x.kind <;> simp [hm]
  · obtain ⟨l', hp, hn⟩ := exists_order_conflict hexec (sameKind hexec ranked_rank) h
    have hmem : ∀ m ∈ l', carries true i m ∧ scaledPriority i m = k := fun m hm =>
      (mem_ranked.mp (hp.mem_iff.mp hm)).2
    let inRank := fun m => carries true i m && decide (scaledPriority i m = k)
    have hfilter : ranked true i k flags = flags.filter inRank := by
      simp only [ranked, atRank, carriers, filter_filter, inRank]
      congr 1
      funext m
      exact Bool.and_comm _ _
    refine ⟨l' ++ flags.filter (fun m => !inRank m), ?_, permsT_none_iff.mpr ⟨i, hi, ?_⟩⟩
    · rw [hfilter] at hp
      exact (hp.append_right _).trans (filter_append_perm _ _)
    · rw [slotRun, carriers_append, carriers_of_all fun m hm => (hmem m hm).1]
      exact run_none_of_prefix hk (fun m hm => (hmem m hm).2) hn _

def mmapBits : Perm32 := userExecMmap ||| otherExecMmap

theorem impliedMmap_audit (s : Acc) : (impliedMmap filedfa s).audit = s.perms.audit := by
  unfold impliedMmap
  split_ifs <;> rfl

theorem impliedMmap_allow {m : Perm32} (hm : mmapBits &&& m = 0) (s : Acc) :
    (impliedMmap filedfa s).allow &&& m = s.perms.allow &&& m := by
  have hor : ∀ v w : Perm32, w &&& m = 0 → (v ||| w) &&& m = v &&& m := by
    intro v w hw
    apply BitVec.eq_of_getLsbD_eq
    intro k _
    have := congrArg (·.getLsbD k) hw
    simp only [BitVec.getLsbD_and, BitVec.getLsbD_or] at this ⊢
    rw [Bool.and_or_distrib_right, this]
    simp
  have hu : userExecMmap &&& m = 0 := by
    rw [show userExecMmap = userExecMmap &&& mmapBits by decide, BitVec.and_assoc, hm]; simp
  have ho : otherExecMmap &&& m = 0 := by
    rw [show otherExecMmap = otherExecMmap &&& mmapBits by decide, BitVec.and_assoc, hm]; simp
  unfold impliedMmap addImpliedIxMmap
  dsimp only
  split_ifs <;> simp only [hor _ _ hu, hor _ _ ho]

theorem ranked_append (l l' : List MatchFlag) :
    ranked filedfa i k (l ++ l') = ranked filedfa i k l ++ ranked filedfa i k l' := by
  simp [ranked, atRank, carriers]

theorem ranked_of_all (h : ∀ m ∈ l, carries filedfa i m ∧ scaledPriority i m = k) :
    ranked filedfa i k l = l := by
  rw [ranked, carriers_of_all fun m hm => (h m hm).1, atRank_self fun m hm => (h m hm).2]

theorem within_of_last {r : List MatchFlag} {f g : MatchFlag} {s : Acc}
    (hs : (r ++ [f, g]).foldlM (visit filedfa) accInit = some s) (hi : isSlot filedfa i)
    (hf : carries filedfa i f ∧ scaledPriority i f = slotTop filedfa i (r ++ [f, g]))
    (hg : carries filedfa i g ∧ scaledPriority i g = slotTop filedfa i (r ++ [f, g])) :
    ∃ z, s.perms.within (amask filedfa i) = merge filedfa i (merge filedfa i z f) g := by
  have hv := fold_views filedfa (r ++ [f, g])
  rw [hs] at hv
  obtain ⟨hk, hq⟩ := slotRun_some (hv i hi)
  have hlast : ranked filedfa i (s.priority i) [f, g] = [f, g] := by
    apply ranked_of_all
    rw [hk]
    simp [hf, hg]
  have hfold := foldl_of_foldlM hq
  rw [ranked_append, hlast, foldl_append] at hfold
  exact ⟨_, hfold.symm⟩

theorem merge_deny_contMatch (f : MatchFlag) (hf : f.kind = .deny) (p : PermsT) :
    (merge filedfa i p f).allow &&& (amask filedfa i &&& compatContMatch) =
      f.perms &&& amask filedfa i &&& compatContMatch := by
  simp only [merge, hf]
  apply BitVec.eq_of_getLsbD_eq
  intro k hk
  simp only [BitVec.getLsbD_and, BitVec.getLsbD_or, BitVec.getLsbD_not, hk, decide_true, Bool.true_and]
  cases (amask filedfa i).getLsbD k <;> cases f.perms.getLsbD k <;> cases compatContMatch.getLsbD k <;> simp

theorem uniform_of_same (hi : isSlot filedfa i)
    (h : ∀ l l', l.Perm flags → l'.Perm flags → permsT filedfa l = permsT filedfa l')
    (hsome : permsT filedfa flags ≠ none) :
    Uniform filedfa i (ranked filedfa i (slotTop filedfa i flags) flags) := by
  intro f hf g hg
  by_cases hne : f = g
  · subst hne
    cases f.kind <;> simp
  obtain ⟨r, hr⟩ := perm_pair (mem_ranked.mp hf).1 (mem_ranked.mp hg).1 hne
  have hp₁ : (r ++ [f, g]).Perm flags := perm_append_comm.trans hr
  have hp₂ : (r ++ [g, f]).Perm flags := ((List.Perm.swap f g []).append_left r).trans hp₁
  have hrun : ∀ l : List MatchFlag, l.Perm flags → ∃ s, l.foldlM (visit filedfa) accInit = some s := by
    intro l hl
    have hl' := h l flags hl (List.Perm.refl _) ▸ hsome
    rw [permsT, ne_eq, Option.map_eq_none_iff] at hl'
    exact Option.ne_none_iff_exists'.mp hl'
  obtain ⟨s₁, hs₁⟩ := hrun _ hp₁
  obtain ⟨s₂, hs₂⟩ := hrun _ hp₂
  have heq : impliedMmap filedfa s₁ = impliedMmap filedfa s₂ := by
    have := h _ _ hp₁ hp₂
    rw [permsT, permsT, hs₁, hs₂] at this
    exact Option.some.inj this
  have hf' := (mem_ranked.mp hf).2
  have hg' := (mem_ranked.mp hg).2
  obtain ⟨z₁, hz₁⟩ := within_of_last hs₁ hi (slotTop_perm hp₁ ▸ hf') (slotTop_perm hp₁ ▸ hg')
  obtain ⟨z₂, hz₂⟩ := within_of_last hs₂ hi (slotTop_perm hp₂ ▸ hg') (slotTop_perm hp₂ ▸ hf')
  have hallow : ∀ m, amask filedfa i &&& m = m → mmapBits &&& m = 0 →
      (merge filedfa i (merge filedfa i z₁ f) g).allow &&& m = (merge filedfa i (merge filedfa i z₂ g) f).allow &&& m := by
    intro m hm hd
    rw [← hz₁, ← hz₂, PermsT.within, PermsT.within, BitVec.and_assoc, hm, ← impliedMmap_allow hd s₁, heq,
      impliedMmap_allow hd s₂, BitVec.and_assoc, hm]
  cases hfk : f.kind with
  | allow | prompt => trivial
  | deny =>
    have hgk : g.kind = .deny := by
      rcases kind_of_rank (hf'.2.trans hg'.2.symm) with he | ⟨_, hd, _⟩
      · exact he ▸ hfk
      · exact absurd hfk hd
    have := hallow (amask filedfa i &&& compatContMatch) (by rw [← BitVec.and_assoc, BitVec.and_self])
      (by rw [BitVec.and_comm (amask filedfa i), ← BitVec.and_assoc, show mmapBits &&& compatContMatch = 0 by decide]; simp)
    rw [merge_deny_contMatch g hgk, merge_deny_contMatch f hfk] at this
    exact this.symm
  | exact =>
    rcases slot_cases hi with hx | ⟨rfl, hexec⟩
    · simp [modifiers, hx]
    have hgk : g.kind = .exact := sameKind hexec ranked_rank f hf g hg ▸ hfk
    have hxa : amask true i &&& xmask true i = xmask true i := by rcases hexec with rfl | rfl <;> decide
    have hxm : mmapBits &&& xmask true i = 0 := by rcases hexec with rfl | rfl <;> decide
    have hal := hallow (xmask true i) hxa hxm
    rw [(merge_exact_modifiers true i hgk).1, (merge_exact_modifiers true i hfk).1] at hal
    refine ⟨hal.symm, ?_⟩
    have hau : s₁.perms.audit = s₂.perms.audit := by rw [← impliedMmap_audit s₁, heq, impliedMmap_audit]
    rw [← (merge_exact_modifiers true i hgk).2, ← (merge_exact_modifiers true i hfk).2, ← hz₁, ← hz₂]
    simp only [PermsT.within, hau]

section Arrange

variable {g : MatchFlag}

theorem arranged_concat : Arranged i (l ++ [g]) ↔
    Arranged i l ∧ (g.perms.getLsbD i = true → (∃ f ∈ l, f.perms.getLsbD i = true) → Meets i l g) := by
  unfold Arranged
  constructor
  · intro h
    exact ⟨fun before f hf => h before f (hf.trans (prefix_append l [g])), h l g prefix_rfl⟩
  · rintro ⟨hl, hg⟩ before f hf
    rcases prefix_concat_iff.mp hf with he | hf
    · obtain ⟨rfl, hlast⟩ := append_inj' he rfl
      cases hlast
      exact hg
    · exact hl before f hf

theorem fold_execBit (hi : i = 0 ∨ i = 14) (hk : ∀ m ∈ l, m.kind = .allow ∨ m.kind = .exact) {q : PermsT}
    (h : l.foldlM (applyMatch true i) PermsT.clear = some q) :
    q.allow.getLsbD i = true ↔ ∃ f ∈ l, f.perms.getLsbD i = true := by
  have hmerge := foldl_of_foldlM h
  subst hmerge
  clear h
  induction l using reverseRecOn with
  | nil => simp [PermsT.clear]
  | append_singleton l m ih =>
    rw [foldl_append, foldl_cons, foldl_nil, merge_exec_bit hi (hk m (by simp)), Bool.or_eq_true]
    refine (or_congr_left (ih fun x hx => hk x (mem_append_left _ hx))).trans ?_
    simp [or_and_right, exists_or]

theorem fold_modifiers (hk : ∀ m ∈ l, m.kind = g.kind) (hg : g.kind = .allow ∨ g.kind = .exact) (hne : l ≠ []) {q : PermsT}
    (h : l.foldlM (applyMatch true i) PermsT.clear = some q) : Meets i l g ↔ q.allow &&& xmask true i = modifiers true i g := by
  have hmerge := foldl_of_foldlM h
  subst hmerge
  clear h
  rcases hg with hg | hg
  · have hbits : ∀ b, (((l.foldl (merge true i) PermsT.clear).allow &&& xmask true i).getLsbD b = true ↔
        ∃ f ∈ l, (modifiers true i f).getLsbD b = true) := by
      intro b
      clear hne
      induction l using reverseRecOn with
      | nil => simp [PermsT.clear]
      | append_singleton l m ih =>
        have hl := ih fun x hx => hk x (mem_append_left _ hx)
        rw [foldl_append, foldl_cons, foldl_nil, merge_allow_modifiers true i ((hk m (by simp)).trans hg), BitVec.getLsbD_or,
          Bool.or_eq_true, hl]
        simp [or_and_right, exists_or]
    simp only [Meets, hg]
    constructor
    · intro h
      refine BitVec.eq_of_getLsbD_eq fun b _ => Bool.eq_iff_iff.mpr ?_
      rw [hbits, h]
    · intro h b
      rw [← h, hbits]
  · obtain ⟨l, m, rfl⟩ := (eq_nil_or_concat' l).resolve_left hne
    rw [foldl_append, foldl_cons, foldl_nil, (merge_exact_modifiers true i ((hk m (by simp)).trans hg)).1]
    simp [Meets, hg]

theorem foldlM_arranged (hi : i = 0 ∨ i = 14) (hk : ∀ f ∈ l, ∀ g ∈ l, f.kind = g.kind) :
    (l.foldlM (applyMatch true i) PermsT.clear).isSome ↔ Arranged i l := by
  induction l using reverseRecOn with
  | nil =>
    refine iff_of_true rfl fun before g h => ?_
    simp at h
  | append_singleton l m ih =>
    have hkl : ∀ f ∈ l, f.kind = m.kind := fun f hf => hk f (by simp [hf]) m (by simp)
    rw [arranged_concat, ← ih fun f hf g hg => hk f (by simp [hf]) g (by simp [hg])]
    cases hq : l.foldlM (applyMatch true i) PermsT.clear with
    | none => simp [foldlM_append, hq]
    | some q =>
      rw [foldlM_applyMatch_concat hq]
      cases hm : m.kind with
      | deny => simp [applyMatch, hm, Meets]
      | prompt =>
        obtain ⟨q', hq', hzero⟩ := fold_prompt hi fun f hf => (hkl f hf).trans hm
        obtain rfl := Option.some.inj (hq.symm.trans hq')
        have hfree : conflict true i m q = false := by
          rw [conflict_exec hi, hzero]
          simp
        simp [applyMatch_eq_some hfree, Meets, hm]
      | allow | exact =>
        have hkind : m.kind = .allow ∨ m.kind = .exact := by simp [hm]
        have hexec := fold_execBit hi (fun f hf => by rw [hkl f hf]; exact hkind) hq
        have hmeets : l ≠ [] → (Meets i l m ↔ q.allow &&& xmask true i = modifiers true i m) := fun hne =>
          fold_modifiers hkl hkind hne hq
        have hconflict := conflict_exec hi m q
        cases hc : conflict true i m q with
        | false =>
          rw [applyMatch_eq_some hc]
          refine iff_of_true rfl ⟨rfl, fun hmb hf => (hmeets ?_).mpr ?_⟩
          · obtain ⟨f, hf, -⟩ := hf
            exact ne_nil_of_mem hf
          · have hqb := hexec.mpr hf
            rw [hc, hqb, hmb] at hconflict
            simpa using hconflict.symm
        | true =>
          rw [applyMatch_eq_none (by simp [hm]) hc]
          rw [hc] at hconflict
          simp only [Bool.and_eq_true, bne_iff_ne, ne_eq, eq_comm (a := true)] at hconflict
          obtain ⟨⟨hqb, hmb⟩, hdiffer⟩ := hconflict
          have hf := hexec.mp hqb
          refine iff_of_false (by simp) fun h => hdiffer ((hmeets ?_).mp (h.2 hmb hf))
          obtain ⟨f, hf, -⟩ := hf
          exact ne_nil_of_mem hf

theorem topConflict_iff : TopConflict filedfa l ↔ filedfa = true ∧ ∃ i ∈ [mayExecShift, mayOtherExecShift],
    ¬ Arranged i (ranked true i (slotTop true i l) l) := by
  have hexec : ∀ i, i ∈ [mayExecShift, mayOtherExecShift] ↔ i = mayExecShift ∨ i = mayOtherExecShift := by simp
  unfold TopConflict
  cases filedfa with
  | false =>
    refine iff_of_false ?_ (by simp)
    rintro ⟨i, -, hnone⟩
    have hzero : xmask false i = 0 := rfl
    have hs := fold_total (l := ranked false i (slotTop false i l) l) PermsT.clear fun m _ => .inr fun q => conflict_zero hzero m q
    rw [hnone] at hs
    cases hs
  | true =>
    simp only [true_and, hexec]
    refine exists_congr fun i => and_congr_right fun hi => ?_
    rw [← foldlM_arranged hi (sameKind hi ranked_rank), Option.not_isSome_iff_eq_none]

theorem neverArranged_iff : NeverArranged filedfa flags ↔ ∀ l, l.Perm flags → TopConflict filedfa l := by
  unfold NeverArranged
  constructor
  · rintro ⟨hfile, h⟩ l hl
    refine topConflict_iff.mpr ⟨hfile, ?_⟩
    obtain ⟨i, hi, hnot⟩ := h l hl
    exact ⟨i, hi, by rwa [slotTop_perm hl]⟩
  · intro h
    refine ⟨(topConflict_iff.mp (h flags (List.Perm.refl _))).1, fun l hl => ?_⟩
    obtain ⟨-, i, hi, hnot⟩ := topConflict_iff.mp (h l hl)
    exact ⟨i, hi, by rwa [slotTop_perm hl] at hnot⟩

/-- Where all flags have the exec bit, those that are arranged have the same modifiers. -/
theorem Arranged.same (h : Arranged i l) (hexec : ∀ f ∈ l, f.perms.getLsbD i = true)
    (hk : ∀ f ∈ l, f.kind = .allow ∨ f.kind = .exact) {f g : MatchFlag} (hf : f ∈ l) (hg : g ∈ l) :
    modifiers true i f = modifiers true i g := by
  induction l using reverseRecOn generalizing f g with
  | nil => cases hf
  | append_singleton l m ih =>
    obtain ⟨hl, hm⟩ := arranged_concat.mp h
    have hsame : ∀ {f g}, f ∈ l → g ∈ l → modifiers true i f = modifiers true i g :=
      ih hl (fun f hf => hexec f (by simp [hf])) fun f hf => hk f (by simp [hf])
    have hlast : ∀ {f}, f ∈ l → modifiers true i f = modifiers true i m := by
      intro f hf
      have hmeets := hm (hexec m (by simp)) ⟨f, hf, hexec f (by simp [hf])⟩
      rcases hk m (by simp) with hkind | hkind
      · simp only [Meets, hkind] at hmeets
        refine BitVec.eq_of_getLsbD_eq fun b _ => Bool.eq_iff_iff.mpr ?_
        rw [hmeets]
        exact ⟨fun hb => ⟨f, hf, hb⟩, fun ⟨f', hf', hb⟩ => hsame hf' hf ▸ hb⟩
      · simp only [Meets, hkind] at hmeets
        obtain ⟨f', hf', he⟩ := hmeets
        rw [hsame hf (mem_of_getLast? hf'), he]
    rcases mem_append.mp hf with hf | hf <;> rcases mem_append.mp hg with hg | hg
    · exact hsame hf hg
    · rw [mem_singleton.mp hg, hlast hf]
    · rw [mem_singleton.mp hf, hlast hg]
    · rw [mem_singleton.mp hf, mem_singleton.mp hg]

theorem arranged_of_same (hi : i = 0 ∨ i = 14) (hk : ∀ f ∈ l, ∀ g ∈ l, f.kind = g.kind)
    (h : ∀ f ∈ l, ∀ g ∈ l, f.kind = .allow ∨ f.kind = .exact → modifiers true i f = modifiers true i g) : Arranged i l := by
  have hrank : NoClash true i l := by
    refine .inr fun x hx f hf => ?_
    have hxl := mem_of_mem_filter hx
    unfold Fits
    cases hkind : x.kind with
    | deny | prompt => trivial
    | allow => rw [h x hxl f hf (Or.inl hkind), BitVec.or_self]
    | exact => exact (h x hxl f hf (Or.inr hkind)).symm
  cases l with
  | nil => exact (foldlM_arranged hi hk).mp rfl
  | cons m l =>
    have hall : ∀ f ∈ m :: l, f.kind = m.kind := fun f hf => hk f hf m mem_cons_self
    apply (foldlM_arranged hi hk).mp
    cases hkind : m.kind with
    | deny =>
      have hdeny := @fold_total true i (m :: l) PermsT.clear fun f hf => Or.inl ((hall f hf).trans hkind)
      rw [hdeny]
      rfl
    | prompt =>
      obtain ⟨q, hq, -⟩ := fold_prompt hi fun f hf => (hall f hf).trans hkind
      rw [hq]
      rfl
    | allow | exact =>
      obtain ⟨q, hq⟩ := fold_noClash_kind hi m.kind (by simp [hkind]) hall hrank
      rw [hq]
      rfl

theorem neverArranged_of_exec (hexec : ∀ i ∈ [mayExecShift, mayOtherExecShift],
    ∀ f ∈ ranked true i (slotTop true i flags) flags, f.perms.getLsbD i = true) :
    NeverArranged true flags ↔ ∃ i ∈ [mayExecShift, mayOtherExecShift], ∃ f ∈ ranked true i (slotTop true i flags) flags,
      ∃ g ∈ ranked true i (slotTop true i flags) flags,
        (f.kind = .allow ∨ f.kind = .exact) ∧ modifiers true i f ≠ modifiers true i g := by
  have hslot : ∀ i ∈ [mayExecShift, mayOtherExecShift], i = 0 ∨ i = 14 := by decide
  constructor
  · rintro ⟨-, h⟩
    obtain ⟨i, hi, hnot⟩ := h flags (List.Perm.refl _)
    refine ⟨i, hi, ?_⟩
    by_contra hall
    refine hnot (arranged_of_same (hslot i hi) (sameKind (hslot i hi) ranked_rank) fun f hf g hg hkind => ?_)
    by_contra hne
    exact hall ⟨f, hf, g, hg, hkind, hne⟩
  · rintro ⟨i, hi, f, hf, g, hg, hkind, hne⟩
    refine ⟨rfl, fun l hl => ⟨i, hi, fun h => hne ?_⟩⟩
    have hmem : ∀ m, m ∈ ranked true i (slotTop true i flags) l ↔ m ∈ ranked true i (slotTop true i flags) flags := fun m =>
      (ranked_perm hl i _).mem_iff
    have hsame : ∀ m ∈ ranked true i (slotTop true i flags) flags, ∀ m' ∈ ranked true i (slotTop true i flags) flags,
        m.kind = m'.kind := sameKind (hslot i hi) ranked_rank
    exact h.same (fun m hm => hexec i hi m ((hmem m).mp hm))
      (fun m hm => by rw [hsame m ((hmem m).mp hm) f hf]; exact hkind) ((hmem f).mpr hf) ((hmem g).mpr hg)

end Arrange

/-- The outcome is the same for every order of the flags exactly when the flags of highest rank are never arranged, which is an
error, or no rank clashes and the highest ranks are uniform. Flags of highest rank that all have the exec bit in their
permissions are never arranged exactly when two of them differ in their modifiers. -/
theorem permsT_order_independent_iff (filedfa : Bool) (flags : List MatchFlag) :
    ((∀ l l', l.Perm flags → l'.Perm flags → permsT filedfa l = permsT filedfa l') ↔
      NeverArranged filedfa flags ∨ OrderSafe filedfa flags) ∧
    ((∀ i ∈ [mayExecShift, mayOtherExecShift], ∀ f ∈ ranked true i (slotTop true i flags) flags, f.perms.getLsbD i = true) →
      (NeverArranged true flags ↔ ∃ i ∈ [mayExecShift, mayOtherExecShift], ∃ f ∈ ranked true i (slotTop true i flags) flags,
        ∃ g ∈ ranked true i (slotTop true i flags) flags,
          (f.kind = .allow ∨ f.kind = .exact) ∧ modifiers true i f ≠ modifiers true i g)) := by
  refine ⟨?_, neverArranged_of_exec⟩
  rw [neverArranged_iff]
  constructor
  · intro h
    by_cases hn : permsT filedfa flags = none
    · refine .inl fun l hl => topConflict_of_all_none fun l' hl' => ?_
      rw [h l' flags (hl'.trans hl) (List.Perm.refl _), hn]
    · refine .inr ⟨fun i hi k hk => ?_, fun i hi => uniform_of_same hi h hn⟩
      by_contra hc
      obtain ⟨l, hl, hnone⟩ := exists_order_none hi hk hc
      exact hn (h flags l (List.Perm.refl _) hl ▸ hnone)
  · rintro (h | h) l l' hl hl'
    · rw [permsT_none_of_topConflict (h l hl), permsT_none_of_topConflict (h l' hl')]
    · rw [permsT_perm h hl, permsT_perm h hl']

def clashUnderDeny : List MatchFlag :=
  [⟨.allow, 0, mayExec ||| execProfile, 0, 0⟩, ⟨.allow, 0, mayExec ||| execUnconfined, 0, 1⟩, ⟨.deny, 0, mayExec, 0, 2⟩]

theorem clashUnderDeny_order_dependent :
    ¬ ∀ l l', l.Perm clashUnderDeny → l'.Perm clashUnderDeny → permsT true l = permsT true l' := by
  intro h
  have hne : permsT true clashUnderDeny ≠ permsT true clashUnderDeny.reverse := by decide
  exact hne (h _ _ (List.Perm.refl _) (reverse_perm _))

end AppArmor.Resolve

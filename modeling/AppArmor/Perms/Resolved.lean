import AppArmor.Perms.Allowed

namespace AppArmor.Resolve

open Perm RankFold List Option BitVec

variable {filedfa : Bool} {i b : ℕ} {flags l : List MatchFlag} {s : Acc} {p q : PermsT} {m m' : MatchFlag}
  {f g : PermsT → Perm32}

theorem impliedMmap_masks (hf : f ∈ masks) (hb : filedfa = true → mmapBits.getLsbD b = false) :
    (f (impliedMmap filedfa s)).getLsbD b = (f s.perms).getLsbD b := by
  simp only [masks, mem_cons, not_mem_nil, or_false] at hf
  rcases hf with rfl | rfl | rfl | rfl | rfl
  · cases filedfa with
    | false => rfl
    | true => exact impliedMmap_bit (hb rfl)
  all_goals
    unfold impliedMmap
    split_ifs <;> rfl

def kindRank : FlagKind → ℕ
  | .deny => 2
  | .allow | .exact => 1
  | .prompt => 0

def Outranks (m' m : MatchFlag) : Prop :=
  m.priority < m'.priority ∨ m.priority = m'.priority ∧ kindRank m.kind < kindRank m'.kind

def Ordinary (filedfa : Bool) (i : ℕ) : Prop :=
  i < 32 ∧ i ≠ contMatchBit ∧ execBits.getLsbD i = false ∧
    (filedfa = true → allExecType.getLsbD i = false ∧ mmapBits.getLsbD i = false)

def Top (filedfa : Bool) (i : ℕ) (flags : List MatchFlag) (m : MatchFlag) : Prop :=
  m ∈ flags ∧ carries filedfa i m = true ∧ ∀ m' ∈ flags, carries filedfa i m' = true → ¬ Outranks m' m

theorem rank_le_iff (h : hits (bit i) execBits = false) : scaledPriority i m' ≤ scaledPriority i m ↔ ¬ Outranks m' m := by
  unfold scaledPriority Outranks
  cases m.kind <;> cases m'.kind <;> simp only [h, kindRank, Bool.false_eq_true, ↓reduceIte] <;> omega

theorem Ordinary.facts (h : Ordinary filedfa i) :
    isSlot filedfa i ∧ xmask filedfa i = 0 ∧ hits (bit i) execBits = false := by
  obtain ⟨hlt, -, hexec, htype⟩ := h
  have hhits : ∀ i < 32, execBits.getLsbD i = false → hits (bit i) execBits = false ∧ i ≠ 0 ∧ i ≠ 14 := by decide
  refine ⟨?_, xmask_zero filedfa i hlt (hhits i hlt hexec).2, (hhits i hlt hexec).1⟩
  cases filedfa with
  | false => simp [isSlot, hlt]
  | true => simp only [isSlot, hlt, (htype rfl).1, decide_true, Bool.and_false, Bool.not_false, Bool.and_true]

theorem top_iff_leads (h : Ordinary filedfa i) (hfloor : ∀ m ∈ flags, minInternalPriority ≤ m.priority) :
    Top filedfa i flags m ↔ Leads filedfa i flags m := by
  have hrank := fun m' => @rank_le_iff i m m' h.facts.2.2
  simp only [Top, Leads, hrank]
  refine and_congr_right fun hm => and_congr_right fun _ => (and_iff_right ?_).symm
  have hlow := hfloor m hm
  unfold initialPriority scaledPriority
  cases m.kind <;> dsimp only <;> omega

theorem permsT_ordinary_iff (h : permsT filedfa flags = some p) (hi : Ordinary filedfa i)
    (hfloor : ∀ m ∈ flags, minInternalPriority ≤ m.priority) :
    ∀ f ∈ masks, (f p).getLsbD i = true ↔ ∃ m, Top filedfa i flags m ∧ (f (gives m)).getLsbD i = true := by
  intro f hf
  obtain ⟨s, hs, rfl⟩ := map_eq_some_iff.mp h
  obtain ⟨hslot, hx, -⟩ := hi.facts
  have hin := @getLsbD_amask_self filedfa i hi.1
  rw [impliedMmap_masks hf fun hfile => (hi.2.2.2 hfile).2]
  simp only [top_iff_leads hi hfloor]
  constructor
  · exact slot_source hs hslot hf hi.2.1 hin
  · rintro ⟨m, hm, hbit⟩
    exact slot_keeps hs hslot hf hin (fun _ _ _ => by simp [hx]) hm hbit

def readFlags : List MatchFlag := [⟨.deny, 0, bit 2, 0, 1⟩, ⟨.allow, 0, bit 2, bit 2, 2⟩, ⟨.prompt, 1, bit 1, 0, 3⟩]

theorem readFlags_resolved : (PermsT.deny ⟨0, bit 2, bit 1, 0, 0⟩).getLsbD 2 = true ↔
    ∃ m, Top true 2 readFlags m ∧ (PermsT.deny (gives m)).getLsbD 2 = true :=
  @permsT_ordinary_iff true 2 readFlags _ (by decide +kernel) ⟨by decide, by decide, by decide, by decide⟩ (by decide)
    PermsT.deny (by simp [masks])

theorem continueMatch_allowed : ∃ p, permsT false [⟨.deny, 0, compatContMatch, 0, 1⟩] = some p ∧
    p.deny.getLsbD contMatchBit = true ∧ p.allow.getLsbD contMatchBit = true :=
  ⟨⟨compatContMatch, compatContMatch, 0, 0, 0⟩, by decide +kernel⟩

def applyAndClearDeny (p : PermsT) : PermsT × Bool :=
  if p.deny ≠ 0 then
    let q := { p with
      allow := (p.allow &&& ~~~p.deny) ||| (p.deny &&& compatContMatch)
      prompt := p.prompt &&& ~~~p.deny
      deny := 0 }
    (q, !q.isAccept)
  else (p, false)

def Apart (p : PermsT) : Prop :=
  ∀ b, b ≠ contMatchBit → ¬(p.allow.getLsbD b = true ∧ p.prompt.getLsbD b = true) ∧
    ¬(p.allow.getLsbD b = true ∧ p.deny.getLsbD b = true) ∧ ¬(p.prompt.getLsbD b = true ∧ p.deny.getLsbD b = true)

theorem fold_apart (hs : flags.foldlM (visit filedfa) accInit = some s) : Apart s.perms := by
  intro b hb
  have hsource : ∀ f ∈ masks, ∀ g ∈ masks, (f s.perms).getLsbD b = true ∧ (g s.perms).getLsbD b = true →
      ∃ m m', (m.kind = m'.kind ∨ m.kind ≠ .deny ∧ m'.kind ≠ .deny ∧ m.kind ≠ .prompt ∧ m'.kind ≠ .prompt) ∧
        (f (gives m)).getLsbD b = true ∧ (g (gives m')).getLsbD b = true := by
    rintro f hf g hg ⟨hfb, hgb⟩
    obtain ⟨i, -, hi, hin⟩ := amask_cover filedfa b (lt_of_getLsbD hfb)
    obtain ⟨m, hm, hbit⟩ := slot_source hs hi hf hb hin hfb
    obtain ⟨m', hm', hbit'⟩ := slot_source hs hi hg hb hin hgb
    have hrank := (mem_atRank.mp ((leads_iff hs hi).mp hm)).2.trans (mem_atRank.mp ((leads_iff hs hi).mp hm')).2.symm
    exact ⟨m, m', (kind_of_rank hrank).imp id And.right, hbit, hbit'⟩
  refine ⟨fun h => ?_, fun h => ?_, fun h => ?_⟩
  all_goals
    obtain ⟨m, m', hkind, hbit, hbit'⟩ := hsource _ (by simp [masks]) _ (by simp [masks]) h
    cases hm : m.kind <;> cases hm' : m'.kind <;> simp [gives, hm, hm', PermsT.clear] at hbit hbit' hkind

theorem clearDeny_allow (h : Apart p) (hb : b ≠ contMatchBit) :
    (applyAndClearDeny p).1.allow.getLsbD b = p.allow.getLsbD b := by
  unfold applyAndClearDeny
  split_ifs with hdeny
  · by_cases hlt : b < 32
    · have := (h b hb).2.1
      simp only [getLsbD_or, getLsbD_and, getLsbD_not, getLsbD_contMatch b hlt hb, hlt, decide_true,
        Bool.true_and, Bool.and_false, Bool.or_false]
      grind
    · rw [getLsbD_of_ge _ _ (not_lt.mp hlt), getLsbD_of_ge _ _ (not_lt.mp hlt)]
  · rfl

theorem fold_last_modifiers (hm : m.kind = .exact) (h : (l ++ [m]).foldlM (applyMatch filedfa i) p = some q) :
    q.allow &&& xmask filedfa i = modifiers filedfa i m := by
  rw [foldlM_append] at h
  obtain ⟨p', -, hq⟩ := bind_eq_some_iff.mp h
  rw [foldlM_cons] at hq
  obtain ⟨q', hq', hlast⟩ := bind_eq_some_iff.mp hq
  obtain rfl := some.inj hlast
  rw [applyMatch_eq_merge hq']
  exact (merge_exact_modifiers filedfa i hm).1

theorem exists_last {P : MatchFlag → Prop} (h : ∃ n ∈ l, P n) : ∃ before n after, l = before ++ n :: after ∧ P n ∧ ∀ n' ∈ after, ¬ P n' := by
  induction l using reverseRecOn with
  | nil => simp at h
  | append_singleton l n ih =>
    obtain ⟨n', hn', hP⟩ := h
    by_cases hn : P n
    · exact ⟨l, n, [], rfl, hn, by simp⟩
    · have hmem : n' ∈ l := (mem_append.mp hn').resolve_right fun h => hn (mem_singleton.mp h ▸ hP)
      obtain ⟨before, k, after, rfl, hk, hafter⟩ := ih ⟨n', hmem, hP⟩
      refine ⟨before, k, after ++ [n], by simp, hk, fun n'' hn'' => ?_⟩
      rcases mem_append.mp hn'' with h | h
      · exact hafter n'' h
      · exact mem_singleton.mp h ▸ hn

theorem getLsbD_none (b : ℕ) : (0 : Perm32).getLsbD b = false := getLsbD_zero

/-- The modifier `b` is left by the flags that decide the exec bit `x`: an exact flag replaces the modifiers of those before it. -/
def LeavesModifier (x b : ℕ) (flags : List MatchFlag) : Prop :=
  ∃ before m after, flags = before ++ m :: after ∧ Leads true x flags m ∧ Permissive m ∧ m.perms.getLsbD b = true ∧
    (m.kind = .exact → ∀ n ∈ after, ¬ Leads true x flags n)

section Exec

variable {x : ℕ} (hx : x = 0 ∨ x = 14)

include hx

theorem xmask_bit (hb : (xmask true x).getLsbD b = true) :
    (amask true x).getLsbD b = true ∧ b ≠ contMatchBit := by
  refine ⟨getLsbD_xmask hb, ?_⟩
  rintro rfl
  revert hb
  rcases hx with rfl | rfl <;> decide

variable (hs : flags.foldlM (visit true) accInit = some s)

include hs

theorem leads_kind (hm : Leads true x flags m) (hm' : Leads true x flags m') : m.kind = m'.kind := by
  have hslot := isSlot_exec true hx
  have hrank := (mem_atRank.mp ((leads_iff hs hslot).mp hm)).2.trans (mem_atRank.mp ((leads_iff hs hslot).mp hm')).2.symm
  rcases kind_of_rank hrank with hkind | ⟨hnot, -⟩
  · exact hkind
  · exact absurd hnot (by rcases hx with rfl | rfl <;> decide)

theorem modifiers_source (hf : f ∈ masks) (hb : (xmask true x).getLsbD b = true) (h : (f s.perms).getLsbD b = true) :
    ∃ m, Leads true x flags m ∧ (f (gives m)).getLsbD b = true :=
  slot_source hs (isSlot_exec true hx) hf (xmask_bit hx hb).2 (xmask_bit hx hb).1 h

theorem modifiers_keep (hf : f ∈ masks) (hb : (xmask true x).getLsbD b = true) (hm : Leads true x flags m)
    (hk : m.kind ≠ .exact) (h : (f (gives m)).getLsbD b = true) : (f s.perms).getLsbD b = true :=
  slot_keeps hs (isSlot_exec true hx) hf (xmask_bit hx hb).1
    (fun _ hm' hexact => absurd ((leads_kind hx hs hm hm').trans hexact) hk) hm h

theorem last_modifiers {before after : List MatchFlag} (hsplit : flags = before ++ m :: after) (hm : Leads true x flags m)
    (hk : m.kind = .exact) (hafter : ∀ n ∈ after, ¬ Leads true x flags n) :
    s.perms.allow &&& xmask true x = modifiers true x m := by
  have hslot := isSlot_exec true hx
  have hranked : atRank (scaledPriority x) (s.priority x) (carriers true x flags) =
      atRank (scaledPriority x) (s.priority x) (carriers true x before) ++ [m] := by
    obtain ⟨hcm, hrm⟩ := mem_atRank.mp ((leads_iff hs hslot).mp hm)
    have hnone : atRank (scaledPriority x) (s.priority x) (carriers true x after) = [] := by
      refine eq_nil_iff_forall_not_mem.mpr fun n hn => ?_
      obtain ⟨hn, hrank⟩ := mem_atRank.mp hn
      obtain ⟨hmem, hc⟩ := mem_filter.mp hn
      refine hafter n hmem ((leads_iff hs hslot).mpr (mem_atRank.mpr ⟨mem_filter.mpr ⟨?_, hc⟩, hrank⟩))
      rw [hsplit]
      simp [hmem]
    have hone : atRank (scaledPriority x) (s.priority x) (carriers true x [m]) = [m] := by
      rw [carriers, filter_singleton, (mem_filter.mp hcm).2, cond_true, atRank_self (by simp [hrm])]
    rw [hsplit, show before ++ m :: after = before ++ ([m] ++ after) from rfl]
    unfold carriers atRank at hnone hone ⊢
    rw [filter_append, filter_append, filter_append, filter_append, hnone, hone, append_nil]
  have hlevel := slot_level hs hslot
  rw [level, hranked] at hlevel
  have hsub : amask true x &&& xmask true x = xmask true x := by rcases hx with rfl | rfl <;> decide
  have hlast := fold_last_modifiers hk hlevel
  rwa [PermsT.within, BitVec.and_assoc, hsub] at hlast

theorem leavesModifier_iff (hb : (xmask true x).getLsbD b = true) : s.perms.allow.getLsbD b = true ↔ LeavesModifier x b flags := by
  constructor
  · intro hbit
    obtain ⟨m, hm, hgives⟩ := modifiers_source hx hs (by simp [masks]) hb hbit
    obtain ⟨hper, hperms⟩ := gives_allow.mp hgives
    rcases hper with hk | hk
    · obtain ⟨before, after, hsplit⟩ := append_of_mem hm.1
      exact ⟨before, m, after, hsplit, hm, Or.inl hk, hperms, fun hexact => by rw [hk] at hexact; cases hexact⟩
    · obtain ⟨before, n, after, hsplit, hn, hafter⟩ := exists_last ⟨m, hm.1, hm⟩
      have hkind : n.kind = .exact := (leads_kind hx hs hn hm).trans hk
      have hlast := congrArg (·.getLsbD b) (last_modifiers hx hs hsplit hn hkind hafter)
      simp only [modifiers, getLsbD_and, hbit, hb, Bool.and_true] at hlast
      exact ⟨before, n, after, hsplit, hn, Or.inr hkind, hlast.symm, fun _ => hafter⟩
  · rintro ⟨before, m, after, hsplit, hm, hper, hperms, hafter⟩
    rcases hper with hk | hk
    · exact modifiers_keep hx hs (by simp [masks]) hb hm (by simp [hk]) (gives_allow.mpr ⟨Or.inl hk, hperms⟩)
    · have hlast := congrArg (·.getLsbD b) (last_modifiers hx hs hsplit hm hk (hafter hk))
      simpa only [modifiers, getLsbD_and, hperms, hb, Bool.and_true] using hlast

end Exec

/-- An `m` that the flags deny or prompt for, and that an inherited exec of no lower rank implies. -/
def Overridden (flags : List MatchFlag) (x mmap inherit : ℕ) : Prop :=
  ∃ m n, Leads true x flags m ∧ Permissive m ∧ m.perms.getLsbD x = true ∧ LeavesModifier x inherit flags ∧
    Leads true mmap flags n ∧ (n.kind = .deny ∨ n.kind = .prompt) ∧ n.perms.getLsbD mmap = true ∧
    scaledPriority mmap n ≤ scaledPriority x m

def execInheritShift : ℕ := 9

def otherExecInheritShift : ℕ := execInheritShift + otherShift

def OverridesMmap (filedfa : Bool) (flags : List MatchFlag) : Prop :=
  filedfa = true ∧ (Overridden flags mayExecShift execMmapShift execInheritShift ∨
    Overridden flags mayOtherExecShift execOtherMmapShift otherExecInheritShift)

theorem gives_denied : ((gives m).deny.getLsbD b = true ∨ (gives m).prompt.getLsbD b = true) ↔
    (m.kind = .deny ∨ m.kind = .prompt) ∧ m.perms.getLsbD b = true := by
  cases hm : m.kind <;> simp [gives, hm, PermsT.clear]

theorem overridden_iff {x mmap inherit : ℕ} (hs : flags.foldlM (visit true) accInit = some s) (hx : x = 0 ∨ x = 14)
    (hmmap : mmap = 6 ∨ mmap = 20) (hinherit : (xmask true x).getLsbD inherit = true) :
    Implies s x mmap (bit inherit) ∧ (s.perms.deny.getLsbD mmap = true ∨ s.perms.prompt.getLsbD mmap = true) ↔
      Overridden flags x mmap inherit := by
  have hxslot := isSlot_exec true hx
  have hxin : (amask true x).getLsbD x = true := getLsbD_amask_self (by omega)
  have hxbit : x ≠ contMatchBit ∧ (xmask true x).getLsbD x = false := ⟨by rcases hx with rfl | rfl <;> decide, getLsbD_xmask_self hx⟩
  have hmslot : isSlot true mmap := by rcases hmmap with rfl | rfl <;> decide
  have hmin : (amask true mmap).getLsbD mmap = true := getLsbD_amask_self (by omega)
  have hmbit : mmap ≠ contMatchBit ∧ (xmask true mmap).getLsbD mmap = false := by rcases hmmap with rfl | rfl <;> decide
  have hrank : ∀ {i m}, isSlot true i → Leads true i flags m → scaledPriority i m = s.priority i := fun hi hm =>
    (mem_atRank.mp ((leads_iff hs hi).mp hm)).2
  have hleaves := leavesModifier_iff hx hs hinherit
  unfold Implies
  rw [hits_bit (lt_of_getLsbD hinherit), hleaves]
  constructor
  · rintro ⟨⟨hexec, hmod, hle⟩, hor⟩
    obtain ⟨m, hm, hgives⟩ := slot_source hs hxslot (by simp [masks]) hxbit.1 hxin hexec
    obtain ⟨hper, hperms⟩ := gives_allow.mp hgives
    obtain ⟨n, hn, hdenied⟩ : ∃ n, Leads true mmap flags n ∧
        ((gives n).deny.getLsbD mmap = true ∨ (gives n).prompt.getLsbD mmap = true) := by
      rcases hor with h | h
      · obtain ⟨n, hn, hgives⟩ := slot_source hs hmslot (by simp [masks]) hmbit.1 hmin h
        exact ⟨n, hn, Or.inl hgives⟩
      · obtain ⟨n, hn, hgives⟩ := slot_source hs hmslot (by simp [masks]) hmbit.1 hmin h
        exact ⟨n, hn, Or.inr hgives⟩
    obtain ⟨hkind, hbit⟩ := gives_denied.mp hdenied
    exact ⟨m, n, hm, hper, hperms, hmod, hn, hkind, hbit, by rwa [hrank hmslot hn, hrank hxslot hm]⟩
  · rintro ⟨m, n, hm, hper, hperms, hmod, hn, hkind, hbit, hle⟩
    rw [hrank hmslot hn, hrank hxslot hm] at hle
    refine ⟨⟨slot_keeps hs hxslot (by simp [masks]) hxin (fun _ _ _ => hxbit.2) hm (gives_allow.mpr ⟨hper, hperms⟩), hmod, hle⟩, ?_⟩
    refine (gives_denied.mpr ⟨hkind, hbit⟩).imp (fun h => ?_) fun h => ?_
    · exact slot_keeps hs hmslot (by simp [masks]) hmin (fun _ _ _ => hmbit.2) hn h
    · exact slot_keeps hs hmslot (by simp [masks]) hmin (fun _ _ _ => hmbit.2) hn h

theorem overridesMmap_iff (hs : flags.foldlM (visit filedfa) accInit = some s) : OverridesMmap filedfa flags ↔ filedfa = true ∧
    (Implies s mayExecShift execMmapShift execInherit ∧
        (s.perms.deny.getLsbD execMmapShift = true ∨ s.perms.prompt.getLsbD execMmapShift = true) ∨
      Implies s mayOtherExecShift execOtherMmapShift otherExecInherit ∧
        (s.perms.deny.getLsbD execOtherMmapShift = true ∨ s.perms.prompt.getLsbD execOtherMmapShift = true)) := by
  refine and_congr_right fun hfile => ?_
  subst hfile
  rw [show execInherit = bit execInheritShift from rfl, show otherExecInherit = bit otherExecInheritShift by decide]
  exact (or_congr (overridden_iff hs (Or.inl rfl) (Or.inl rfl) (by decide))
    (overridden_iff hs (Or.inr rfl) (Or.inr rfl) (by decide))).symm

theorem permsT_apart_iff (h : permsT filedfa flags = some p) :
    (Apart p ∧ ∀ b, b ≠ contMatchBit → (applyAndClearDeny p).1.allow.getLsbD b = p.allow.getLsbD b) ↔
      ¬ OverridesMmap filedfa flags := by
  obtain ⟨s, hs, rfl⟩ := map_eq_some_iff.mp h
  rw [overridesMmap_iff hs]
  have hmask : (impliedMmap filedfa s).deny = s.perms.deny ∧ (impliedMmap filedfa s).prompt = s.perms.prompt := by
    unfold impliedMmap
    split_ifs <;> exact ⟨rfl, rfl⟩
  constructor
  · rintro ⟨hapart, -⟩ ⟨hfile, hover⟩
    have hallow := @impliedMmap_allow_iff filedfa
    rcases hover with ⟨himp, hor⟩ | ⟨himp, hor⟩
    · have hbit := hallow.mpr (Or.inr ⟨hfile, Or.inl ⟨rfl, himp⟩⟩)
      have := hapart execMmapShift (by decide)
      rw [hmask.1, hmask.2] at this
      grind
    · have hbit := hallow.mpr (Or.inr ⟨hfile, Or.inr ⟨rfl, himp⟩⟩)
      have := hapart execOtherMmapShift (by decide)
      rw [hmask.1, hmask.2] at this
      grind
  · intro hover
    have hapart : Apart (impliedMmap filedfa s) := by
      intro b hb
      have hfold := fold_apart hs b hb
      have hnone : (impliedMmap filedfa s).allow.getLsbD b = true → ¬ s.perms.allow.getLsbD b = true →
          ¬(s.perms.deny.getLsbD b = true ∨ s.perms.prompt.getLsbD b = true) := by
        intro hallow hnot hor
        obtain ⟨hfile, ⟨rfl, himp⟩ | ⟨rfl, himp⟩⟩ := (impliedMmap_allow_iff.mp hallow).resolve_left hnot
        · exact hover ⟨hfile, Or.inl ⟨himp, hor⟩⟩
        · exact hover ⟨hfile, Or.inr ⟨himp, hor⟩⟩
      rw [hmask.1, hmask.2]
      grind
    exact ⟨hapart, fun b hb => clearDeny_allow hapart hb⟩

theorem readFlags_apart : (Apart ⟨0, bit 2, bit 1, 0, 0⟩ ∧ ∀ b, b ≠ contMatchBit →
      (applyAndClearDeny ⟨0, bit 2, bit 1, 0, 0⟩).1.allow.getLsbD b = (0#32).getLsbD b) ↔ ¬ OverridesMmap true readFlags :=
  permsT_apart_iff (by decide +kernel)

/-- A denied `m` and, at a higher priority, `ix`. -/
def deniedMmap : List MatchFlag := [⟨.deny, 0, userExecMmap, 0, 1⟩, ⟨.allow, 1, mayExec ||| execInherit, 0, 2⟩]

theorem deniedMmap_overlaps : ∃ p, permsT true deniedMmap = some p ∧ p.allow.getLsbD execMmapShift = true ∧
    p.deny.getLsbD execMmapShift = true ∧ (applyAndClearDeny p).1.allow.getLsbD execMmapShift = false :=
  ⟨⟨mayExec ||| execInherit ||| userExecMmap, userExecMmap, 0, 0, 0⟩, by decide +kernel⟩

/-- The modifiers of a mask are none or those of one flag that decides the exec bit, and no flag whose modifiers are or-ed into
the mask has others. -/
def OneModifier (x : ℕ) (flags : List MatchFlag) (p : PermsT) (f : PermsT → Perm32) : Prop :=
  (f p &&& xmask true x = 0 ∨ ∃ m, Leads true x flags m ∧ f p &&& xmask true x = f (gives m) &&& xmask true x) ∧
    ∀ m, Leads true x flags m → m.kind ≠ .exact →
      f (gives m) &&& xmask true x = 0 ∨ f (gives m) &&& xmask true x = f p &&& xmask true x

/-- The deciding flags, where they are plain allow or prompt flags, have the same modifiers, if any. -/
def Agreeing (x : ℕ) (flags : List MatchFlag) : Prop :=
  ∀ m, Leads true x flags m → m.kind = .allow ∨ m.kind = .prompt → ∀ n, Leads true x flags n →
    modifiers true x m = 0 ∨ modifiers true x n = 0 ∨ modifiers true x m = modifiers true x n

section Exec

variable {x : ℕ} (hx : x = 0 ∨ x = 14) (hs : flags.foldlM (visit true) accInit = some s)

include hx hs

/-- `hgives` says that the mask is the one that flags of this kind fill. -/
theorem merged_modifiers (hf : f ∈ masks) (hgives : ∀ n, n.kind = m.kind → f (gives n) = n.perms) (hk : m.kind ≠ .exact)
    (hm : Leads true x flags m) (b : ℕ) : (f s.perms &&& xmask true x).getLsbD b = true ↔
      ∃ n, Leads true x flags n ∧ (modifiers true x n).getLsbD b = true := by
  have hkind : ∀ n, Leads true x flags n → n.kind = m.kind := fun n hn => leads_kind hx hs hn hm
  simp only [modifiers, getLsbD_and, Bool.and_eq_true]
  constructor
  · rintro ⟨hbit, hb⟩
    obtain ⟨n, hn, hbit⟩ := modifiers_source hx hs hf hb hbit
    rw [hgives n (hkind n hn)] at hbit
    exact ⟨n, hn, hbit, hb⟩
  · rintro ⟨n, hn, hbit, hb⟩
    exact ⟨modifiers_keep hx hs hf hb hn (hkind n hn ▸ hk) (by rwa [hgives n (hkind n hn)]), hb⟩

theorem oneModifier_iff (hf : f ∈ masks) (hgives : ∀ n, n.kind = m.kind → f (gives n) = n.perms) (hk : m.kind ≠ .exact)
    (hm : Leads true x flags m) : OneModifier x flags s.perms f ↔ ∀ n, Leads true x flags n → ∀ n', Leads true x flags n' →
      modifiers true x n = 0 ∨ modifiers true x n' = 0 ∨ modifiers true x n = modifiers true x n' := by
  have hkind : ∀ n, Leads true x flags n → n.kind = m.kind := fun n hn => leads_kind hx hs hn hm
  have hfield : ∀ n, Leads true x flags n → f (gives n) &&& xmask true x = modifiers true x n := fun n hn => by
    rw [hgives n (hkind n hn), modifiers]
  have hmerged := merged_modifiers hx hs hf hgives hk hm
  constructor
  · rintro ⟨-, hall⟩ n hn n' hn'
    have h₁ := hall n hn (hkind n hn ▸ hk)
    have h₂ := hall n' hn' (hkind n' hn' ▸ hk)
    rw [hfield n hn] at h₁
    rw [hfield n' hn'] at h₂
    rcases h₁ with h₁ | h₁
    · exact Or.inl h₁
    · rcases h₂ with h₂ | h₂
      · exact Or.inr (Or.inl h₂)
      · exact Or.inr (Or.inr (h₁.trans h₂.symm))
  · intro hagree
    by_cases hnone : ∀ n, Leads true x flags n → modifiers true x n = 0
    · refine ⟨Or.inl (eq_of_getLsbD_eq fun b _ => ?_), fun n hn _ => Or.inl ((hfield n hn).trans (hnone n hn))⟩
      rw [getLsbD_none, Bool.eq_false_iff]
      intro hbit
      obtain ⟨n, hn, hb⟩ := (hmerged b).mp hbit
      rw [hnone n hn, getLsbD_none] at hb
      cases hb
    · push Not at hnone
      obtain ⟨k, hk', hne⟩ := hnone
      have hwhole : f s.perms &&& xmask true x = modifiers true x k := by
        refine eq_of_getLsbD_eq fun b _ => Bool.eq_iff_iff.mpr ((hmerged b).trans ⟨?_, fun hb => ⟨k, hk', hb⟩⟩)
        rintro ⟨n, hn, hb⟩
        rcases hagree n hn k hk' with h | h | h
        · rw [h, getLsbD_none] at hb
          cases hb
        · exact absurd h hne
        · rwa [← h]
      refine ⟨Or.inr ⟨k, hk', hwhole.trans (hfield k hk').symm⟩, fun n hn _ => ?_⟩
      rw [hfield n hn, hwhole]
      rcases hagree n hn k hk' with h | h | h
      · exact Or.inl h
      · exact absurd h hne
      · exact Or.inr h

theorem oneModifier_unfilled (hf : f ∈ masks) (h : ∀ m, Leads true x flags m → ∀ b, (f (gives m)).getLsbD b = false) :
    OneModifier x flags s.perms f := by
  have hzero : ∀ v : Perm32, (∀ b, (xmask true x).getLsbD b = true → v.getLsbD b = false) → v &&& xmask true x = 0 := by
    intro v hv
    refine eq_of_getLsbD_eq fun b _ => ?_
    rw [getLsbD_and, getLsbD_none]
    cases hb : (xmask true x).getLsbD b with
    | false => simp
    | true => simp [hv b hb]
  refine ⟨Or.inl (hzero _ fun b hb => ?_), fun m hm _ => Or.inl (hzero _ fun b _ => h m hm b)⟩
  rw [Bool.eq_false_iff]
  intro hbit
  obtain ⟨m, hm, hgives⟩ := modifiers_source hx hs hf hb hbit
  rw [h m hm b] at hgives
  cases hgives

theorem oneModifier_exact (hm : Leads true x flags m) (hk : m.kind = .exact) : OneModifier x flags s.perms PermsT.allow := by
  obtain ⟨before, n, after, hsplit, hn, hafter⟩ := exists_last ⟨m, hm.1, hm⟩
  have hkind : ∀ n, Leads true x flags n → n.kind = .exact := fun n hn => (leads_kind hx hs hn hm).trans hk
  refine ⟨Or.inr ⟨n, hn, ?_⟩, fun n' hn' hne => absurd (hkind n' hn') hne⟩
  rw [last_modifiers hx hs hsplit hn (hkind n hn) hafter, gives, hkind n hn, modifiers]

theorem fold_oneModifier_iff : (OneModifier x flags s.perms PermsT.allow ∧ OneModifier x flags s.perms PermsT.prompt) ↔
    Agreeing x flags := by
  by_cases hlead : ∃ m, Leads true x flags m
  · obtain ⟨m, hm⟩ := hlead
    have hkind : ∀ n, Leads true x flags n → n.kind = m.kind := fun n hn => leads_kind hx hs hn hm
    have hagree : (m.kind = .allow ∨ m.kind = .prompt) → (Agreeing x flags ↔ ∀ n, Leads true x flags n →
        ∀ n', Leads true x flags n' → modifiers true x n = 0 ∨ modifiers true x n' = 0 ∨ modifiers true x n = modifiers true x n') :=
      fun hk => ⟨fun h n hn => h n hn (by rwa [hkind n hn]), fun h n hn _ => h n hn⟩
    have hsilent : ∀ f : PermsT → Perm32, (∀ n : MatchFlag, n.kind = m.kind → f (gives n) = 0) →
        ∀ n, Leads true x flags n → ∀ b, (f (gives n)).getLsbD b = false := fun f h n hn b => by
      rw [h n (hkind n hn), getLsbD_none]
    have hvacuous : (m.kind ≠ .allow ∧ m.kind ≠ .prompt) → Agreeing x flags := fun h n hn hk => by
      rw [hkind n hn] at hk
      exact absurd hk (by simp [h])
    cases hk : m.kind with
    | allow =>
      have hprompt := oneModifier_unfilled hx hs (f := PermsT.prompt) (by simp [masks])
        (hsilent _ fun n hn => by rw [gives, hn, hk]; rfl)
      rw [hagree (Or.inl hk), and_iff_left hprompt]
      exact oneModifier_iff hx hs (by simp [masks]) (fun n hn => by rw [gives, hn, hk]) (by simp [hk]) hm
    | prompt =>
      have hallow := oneModifier_unfilled hx hs (f := PermsT.allow) (by simp [masks])
        (hsilent _ fun n hn => by rw [gives, hn, hk]; rfl)
      rw [hagree (Or.inr hk), and_iff_right hallow]
      exact oneModifier_iff hx hs (by simp [masks]) (fun n hn => by rw [gives, hn, hk]) (by simp [hk]) hm
    | exact =>
      have hprompt := oneModifier_unfilled hx hs (f := PermsT.prompt) (by simp [masks])
        (hsilent _ fun n hn => by rw [gives, hn, hk]; rfl)
      exact iff_of_true ⟨oneModifier_exact hx hs hm hk, hprompt⟩ (hvacuous (by simp [hk]))
    | deny =>
      have hsilent' : ∀ f ∈ [PermsT.allow, PermsT.prompt], OneModifier x flags s.perms f := by
        intro f hf
        simp only [mem_cons, not_mem_nil, or_false] at hf
        rcases hf with rfl | rfl
        all_goals exact oneModifier_unfilled hx hs (by simp [masks]) (hsilent _ fun n hn => by rw [gives, hn, hk]; rfl)
      exact iff_of_true ⟨hsilent' _ (by simp), hsilent' _ (by simp)⟩ (hvacuous (by simp [hk]))
  · have hnone : ∀ m, ¬ Leads true x flags m := fun m hm => hlead ⟨m, hm⟩
    refine iff_of_true ⟨?_, ?_⟩ fun m hm => absurd hm (hnone m)
    all_goals exact oneModifier_unfilled hx hs (by simp [masks]) fun m hm => absurd hm (hnone m)

end Exec

theorem permsT_oneModifier_iff (h : permsT true flags = some p) : ∀ x ∈ [mayExecShift, mayOtherExecShift],
    (OneModifier x flags p PermsT.allow ∧ OneModifier x flags p PermsT.prompt) ↔ Agreeing x flags := by
  intro x hmem
  obtain ⟨s, hs, rfl⟩ := map_eq_some_iff.mp h
  have hx : x = 0 ∨ x = 14 := by simpa [mayExecShift, mayOtherExecShift, otherShift] using hmem
  have hmmap : mmapBits &&& xmask true x = 0 := by rcases hx with rfl | rfl <;> decide
  have hprompt : (impliedMmap true s).prompt = s.perms.prompt := by
    unfold impliedMmap
    split_ifs <;> rfl
  rw [← fold_oneModifier_iff hx hs]
  simp only [OneModifier, impliedMmap_allow hmmap, hprompt]

/-- Two rules that prompt for one exec with different modifiers. -/
def promptedExecs : List MatchFlag := [⟨.prompt, 0, mayExec ||| execInherit, 0, 1⟩, ⟨.prompt, 0, mayExec ||| execPux, 0, 2⟩]

theorem promptedExecs_merged : ∃ p, permsT true promptedExecs = some p ∧
    p.prompt &&& userExecType = execInherit ||| execPux ∧ ∀ m ∈ promptedExecs, m.perms &&& userExecType ≠ p.prompt &&& userExecType :=
  ⟨⟨0, 0, mayExec ||| execInherit ||| execPux, 0, 0⟩, by decide +kernel⟩

theorem deniedMmap_oneModifier :
    (OneModifier mayExecShift deniedMmap ⟨mayExec ||| execInherit ||| userExecMmap, userExecMmap, 0, 0, 0⟩ PermsT.allow ∧
      OneModifier mayExecShift deniedMmap ⟨mayExec ||| execInherit ||| userExecMmap, userExecMmap, 0, 0, 0⟩
        PermsT.prompt) ↔ Agreeing mayExecShift deniedMmap :=
  permsT_oneModifier_iff (by decide +kernel) mayExecShift (by decide)

end AppArmor.Resolve

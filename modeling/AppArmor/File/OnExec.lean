import AppArmor.File.Merge
import AppArmor.File.Resolved

namespace AppArmor

open Perm Resolve List Option

def onexecBit : ℕ := 30

namespace RuleVec

def rank (r : RuleVec) : ℤ :=
  r.priority * 4 +
    match r.mode with
    | .deny => 3
    | .prompt => 0
    | _ => 1

def Concerns (r : RuleVec) (w : List Byte) (i : ℕ) : Prop :=
  w ∈ r.tree.byteWords ∧ (r.perms ||| r.audit).getLsbD i = true

def AllowsBit (r : RuleVec) (w : List Byte) (i : ℕ) : Prop :=
  w ∈ r.tree.byteWords ∧ r.Allows ∧ r.perms.getLsbD i = true

end RuleVec

def Permits (rs : List RuleVec) (w : List Byte) (i : ℕ) : Prop :=
  ∃ r ∈ rs, r.AllowsBit w i ∧ initialPriority ≤ r.rank ∧ ∀ r' ∈ rs, r'.Concerns w i → r'.rank ≤ r.rank

section Permits

variable {rs rs' ds : List RuleVec} {w : List Byte} {p : PermsT} {i : ℕ} {r : RuleVec} {addr : UniquePerm → ℕ}

theorem scaledPriority_flag (hi : hits (bit i) execBits = false) : scaledPriority i (r.flag addr) = r.rank := by
  unfold scaledPriority RuleVec.rank RuleVec.flag RuleVec.uniquePerm UniquePerm.kind
  rw [hi]
  cases r.mode <;> cases r.tree.exactMatch <;> rfl

theorem carries_flag (hi : isSlot true i) : carries true i (r.flag addr) = (r.perms ||| r.audit).getLsbD i := by
  have hlt := isSlot_lt hi
  simp only [isSlot, Bool.true_and, Bool.and_eq_true, Bool.not_eq_true'] at hi
  simp only [carries, check, ↓reduceIte, RuleVec.flag, BitVec.getLsbD_and, BitVec.getLsbD_not, hi.2, hlt, decide_true,
    Bool.not_false, Bool.and_true]

theorem Resolves.allow_iff (h : Resolves true rs w p) (hi : isSlot true i) (hexec : hits (bit i) execBits = false)
    (hx : xmask true i = 0) (hcont : i ≠ contMatchBit) (hmmap : mmapBits.getLsbD i = false) :
    p.allow.getLsbD i = true ↔ Permits rs w i := by
  obtain ⟨addr, flags, hflags, hperms⟩ := h
  obtain ⟨s, hs, rfl⟩ := map_eq_some_iff.mp hperms
  rw [impliedMmap_bit hmmap, slot_allow_iff hs hi hx hcont]
  constructor
  · rintro ⟨m, hm, hper, hbit, hinit, htop⟩
    obtain ⟨r, hr, hw, rfl⟩ := (hflags m).mp hm
    rw [scaledPriority_flag hexec] at hinit
    refine ⟨r, hr, ⟨hw, permissive_flag.mp hper, hbit⟩, hinit, fun r' hr' hc => ?_⟩
    have hle := htop _ ((hflags _).mpr ⟨r', hr', hc.1, rfl⟩) ((carries_flag hi).trans hc.2)
    rwa [scaledPriority_flag hexec, scaledPriority_flag hexec] at hle
  · rintro ⟨r, hr, ⟨hw, hallow, hbit⟩, hinit, htop⟩
    refine ⟨r.flag addr, (hflags _).mpr ⟨r, hr, hw, rfl⟩, permissive_flag.mpr hallow, hbit, ?_, ?_⟩
    · rwa [scaledPriority_flag hexec]
    · intro m hm hc
      obtain ⟨r', hr', hw', rfl⟩ := (hflags m).mp hm
      rw [scaledPriority_flag hexec, scaledPriority_flag hexec]
      exact htop r' hr' ⟨hw', (carries_flag hi).symm.trans hc⟩

def PermsT.OnExec (p : PermsT) : Prop := p.allow.getLsbD onexecBit = true

theorem Resolves.onExec_iff (h : Resolves true rs w p) : p.OnExec ↔ Permits rs w onexecBit :=
  h.allow_iff (by decide) (by decide) (by decide) (by decide) (by decide)

theorem RuleVec.Allows.rank (h : r.Allows) : r.rank = r.priority * 4 + 1 := by
  unfold RuleVec.rank
  revert h
  unfold RuleVec.Allows
  cases r.mode <;> simp

structure AddsDenials (ds : List RuleVec) (k : ℤ) (i : ℕ) : Prop where
  mode : ∀ r ∈ ds, r.mode = .deny
  priority : ∀ r ∈ ds, r.priority = k
  bit : ∀ r ∈ ds, r.perms.getLsbD i = true

theorem AddsDenials.rank {k : ℤ} (h : AddsDenials ds k i) (hr : r ∈ ds) : r.rank = k * 4 + 3 := by
  unfold RuleVec.rank
  rw [h.mode r hr, h.priority r hr]

theorem AddsDenials.permits_iff {k : ℤ} (h : AddsDenials ds k i) (hrs' : ∀ r, r ∈ rs' ↔ r ∈ ds ∨ r ∈ rs) :
    Permits rs' w i ↔ Permits rs w i ∧
      ((∃ d ∈ ds, w ∈ d.tree.byteWords) → ∃ r ∈ rs, r.AllowsBit w i ∧ k < r.priority) := by
  constructor
  · rintro ⟨r, hr, hallow, hinit, htop⟩
    have hold : r ∈ rs := ((hrs' r).mp hr).resolve_left fun hd => hallow.2.1.1 (h.mode r hd)
    refine ⟨⟨r, hold, hallow, hinit, fun r' hr' => htop r' ((hrs' r').mpr (Or.inr hr'))⟩, ?_⟩
    rintro ⟨d, hd, hw⟩
    have hbit : (d.perms ||| d.audit).getLsbD i = true := by simp [h.bit d hd]
    have hle := htop d ((hrs' d).mpr (Or.inl hd)) ⟨hw, hbit⟩
    rw [h.rank hd, hallow.2.1.rank] at hle
    exact ⟨r, hold, hallow, by omega⟩
  · rintro ⟨⟨r, hr, hallow, hinit, htop⟩, hhigher⟩
    refine ⟨r, (hrs' r).mpr (Or.inr hr), hallow, hinit, fun r' hr' hc => ?_⟩
    rcases (hrs' r').mp hr' with hd | hold
    · obtain ⟨r₀, hr₀, hallow₀, hlt⟩ := hhigher ⟨r', hd, hc.1⟩
      have hbit : (r₀.perms ||| r₀.audit).getLsbD i = true := by simp [hallow₀.2.2]
      have hle := htop r₀ hr₀ ⟨hallow₀.1, hbit⟩
      rw [hallow₀.2.1.rank, hallow.2.1.rank] at hle
      rw [h.rank hd, hallow.2.1.rank]
      omega
    · exact htop r' hold hc

end Permits

section ChangeProfile

inductive ExecMode
  | emptyMode
  | unsafeMode
  | safeMode
  deriving DecidableEq

def changeProfilePerms (mode : ExecMode) (exec : Bool) : Perm32 :=
  if exec then
    if mode = .unsafeMode then changeProfile ||| execBits ||| allExecUnsafe else changeProfile ||| execBits
  else changeProfile

variable {stacking exec : Bool} {mode : ExecMode} {d : CodEntry} {es es' : List CodEntry} {ds rs rs' : List RuleVec}

theorem process_denyChangeProfile (hperms : d.perms = changeProfilePerms mode exec) (hdeny : d.ruleMode = .deny)
    (hds : d.process stacking = some ds) : AddsDenials ds d.priority onexecBit := by
  have hprofile : isChangeProfilePerms d.perms = true := by
    rw [hperms]
    cases mode <;> cases exec <;> decide
  have hlink : hits d.perms linkBits = false := by
    rw [hperms]
    cases mode <;> cases exec <;> decide
  obtain ⟨tbuf, -, h⟩ := bind_eq_some_iff.mp hds
  obtain ⟨file, hfile, h⟩ := bind_eq_some_iff.mp h
  obtain ⟨link, hlinks, h⟩ := bind_eq_some_iff.mp h
  obtain ⟨profile, hprofiles, h⟩ := bind_eq_some_iff.mp h
  cases h
  rw [CodEntry.addFileRule, if_pos hprofile] at hfile
  cases hfile
  rw [CodEntry.addLinkRule, hlink, if_neg Bool.false_ne_true] at hlinks
  cases hlinks
  rw [CodEntry.addChangeProfileRules, if_pos hprofile] at hprofiles
  obtain ⟨exec, -, h⟩ := bind_eq_some_iff.mp hprofiles
  obtain ⟨target, -, h⟩ := bind_eq_some_iff.mp h
  obtain ⟨r₁, h₁, h⟩ := bind_eq_some_iff.mp h
  obtain ⟨r₂, h₂, h⟩ := bind_eq_some_iff.mp h
  obtain ⟨r₃, h₃, h⟩ := bind_eq_some_iff.mp h
  cases h
  have hfrom : ∀ r ∈ [] ++ [] ++ [r₁, r₂, r₃], ∃ perms, r.From d (onexec ||| perms) := by
    intro r hr
    rcases mem_cons.mp hr with rfl | hr
    · refine ⟨changeProfile, ?_⟩
      rw [BitVec.or_comm]
      exact addRuleVec_from h₁
    · rcases mem_cons.mp hr with rfl | hr
      · refine ⟨0, ?_⟩
        rw [show onexec ||| 0 = onexec by decide]
        exact addRuleVec_from h₂
      · rw [mem_singleton.mp hr]
        exact ⟨_, addRuleVec_from h₃⟩
  constructor
  · intro r hr
    obtain ⟨perms, -, hmode, -⟩ := hfrom r hr
    rw [hmode, hdeny]
  · intro r hr
    obtain ⟨perms, hpriority, -, -⟩ := hfrom r hr
    exact hpriority
  · intro r hr
    obtain ⟨perms, -, -, hperms⟩ := hfrom r hr
    rw [hperms, BitVec.getLsbD_or, show onexec.getLsbD onexecBit = true by decide, Bool.true_or]

/-- Adding a denied profile change keeps an on-exec change to `t` as it was, just when each of the two words that one of its
rules matches has an allowing rule of higher priority. -/
theorem deny_changeProfile_frame_iff (hperms : d.perms = changeProfilePerms mode exec) (hdeny : d.ruleMode = .deny)
    (hds : d.process stacking = some ds) (hrs : processEntries stacking es = some rs)
    (hadd : ∀ e, e ∈ es' ↔ e = d ∨ e ∈ es) (hrs' : processEntries stacking es' = some rs') {e t : List Byte}
    {p₁ p₂ q₁ q₂ : PermsT} (hp₁ : Resolves true rs e p₁) (hp₂ : Resolves true rs (e ++ 0 :: t) p₂)
    (hq₁ : Resolves true rs' e q₁) (hq₂ : Resolves true rs' (e ++ 0 :: t) q₂) :
    (q₁.OnExec ∧ q₂.OnExec ↔ p₁.OnExec ∧ p₂.OnExec) ↔
      (p₁.OnExec ∧ p₂.OnExec → ∀ w ∈ [e, e ++ 0 :: t], (∃ r ∈ ds, w ∈ r.tree.byteWords) →
        ∃ r ∈ rs, r.AllowsBit w onexecBit ∧ d.priority < r.priority) := by
  have hnew : ∀ r, r ∈ rs' ↔ r ∈ ds ∨ r ∈ rs := by
    intro r
    rw [mem_processEntries hrs', mem_processEntries hrs]
    constructor
    · rintro ⟨e, he, rs₀, hproc, hr⟩
      rcases (hadd e).mp he with rfl | he
      · rw [hds] at hproc
        cases hproc
        exact Or.inl hr
      · exact Or.inr ⟨e, he, rs₀, hproc, hr⟩
    · rintro (hr | ⟨e, he, hrule⟩)
      · exact ⟨d, (hadd d).mpr (Or.inl rfl), ds, hds, hr⟩
      · exact ⟨e, (hadd e).mpr (Or.inr he), hrule⟩
  have hiff := fun w => (process_denyChangeProfile hperms hdeny hds).permits_iff (w := w) hnew
  rw [hp₁.onExec_iff, hp₂.onExec_iff, hq₁.onExec_iff, hq₂.onExec_iff, hiff, hiff]
  simp only [forall_mem_cons, not_mem_nil, false_implies, implies_true, and_true]
  have hprop : ∀ a b x y : Prop, ((a ∧ x) ∧ b ∧ y ↔ a ∧ b) ↔ (a ∧ b → x ∧ y) := by tauto
  exact hprop _ _ _ _

def bEntry : CodEntry := newEntry ['b'] changeProfile none

def charTree (c : ℤ) : Tree := .cnode (.char c)

def bRules : List RuleVec :=
  [⟨0, .unspecified, changeProfile ||| onexec, 0, charTree 98, [], false⟩,
    ⟨0, .unspecified, onexec, 0, anyExecTree, [], false⟩, ⟨0, .unspecified, onexec, 0, anyExecTree, [charTree 98], false⟩]

def denyYEntry : CodEntry :=
  { newEntry ['c'] (changeProfilePerms .emptyMode true) (some ['/', 'y']) with ruleMode := .deny, audit := .implied }

def yTree : Tree := .cat (charTree 47) (charTree 121)

def denyYRules : List RuleVec :=
  [⟨0, .deny, changeProfile ||| onexec, 0, charTree 99, [], false⟩, ⟨0, .deny, onexec, 0, yTree, [], false⟩,
    ⟨0, .deny, onexec ||| execBits, 0, yTree, [charTree 99], false⟩]

def denyCEntry : CodEntry := { newEntry ['c'] changeProfile none with ruleMode := .deny, audit := .implied }

def denyCRules : List RuleVec :=
  [⟨0, .deny, changeProfile ||| onexec, 0, charTree 99, [], false⟩, ⟨0, .deny, onexec, 0, anyExecTree, [], false⟩,
    ⟨0, .deny, onexec, 0, anyExecTree, [charTree 99], false⟩]

def onexecPerms : PermsT := ⟨onexec, 0, 0, 0, 0⟩

/-- A change to `b` on the exec of `/x` stays allowed when one to `c` is denied for `/y`. -/
theorem deny_other_exec :
    processEntries true [denyYEntry, bEntry] = some (denyYRules ++ bRules) ∧
      Resolves true (denyYRules ++ bRules) [47, 120] onexecPerms ∧
      Resolves true (denyYRules ++ bRules) [47, 120, 0, 98] onexecPerms ∧
      (onexecPerms.OnExec ∧ onexecPerms.OnExec ↔ onexecPerms.OnExec ∧ onexecPerms.OnExec) := by
  have hp₁ : Resolves true bRules [47, 120] onexecPerms := resolves_of_match (fun _ => 0) (by decide +kernel)
  have hp₂ : Resolves true bRules ([47, 120] ++ 0 :: [98]) onexecPerms := resolves_of_match (fun _ => 0) (by decide +kernel)
  have hq₁ : Resolves true (denyYRules ++ bRules) [47, 120] onexecPerms :=
    resolves_of_match (fun _ => 0) (by decide +kernel)
  have hq₂ : Resolves true (denyYRules ++ bRules) ([47, 120] ++ 0 :: [98]) onexecPerms :=
    resolves_of_match (fun _ => 0) (by decide +kernel)
  have hperms : denyYEntry.perms = changeProfilePerms .emptyMode true := rfl
  have hds : denyYEntry.process true = some denyYRules := by decide +kernel
  have hrs : processEntries true [bEntry] = some bRules := by decide +kernel
  have hrs' : processEntries true [denyYEntry, bEntry] = some (denyYRules ++ bRules) := by decide +kernel
  refine ⟨hrs', hq₁, hq₂,
    (deny_changeProfile_frame_iff hperms rfl hds hrs (fun _ => mem_cons) hrs' hp₁ hp₂ hq₁ hq₂).mpr fun _ => ?_⟩
  -- no rule of the denial matches either word
  have hnone : ∀ w ∈ [([47, 120] : List Byte), [47, 120] ++ 0 :: [98]], ¬ ∃ r ∈ denyYRules, w ∈ r.tree.byteWords := by
    decide +kernel
  exact fun w hw h => absurd h (hnone w hw)

/-- A denied change to `c` takes away a change to `b`, which none of its pairs matches: its rule for the executable alone
denies the on-exec bit there. -/
theorem deny_takes_other_target : ∃ q,
    processEntries true [bEntry] = some bRules ∧ processEntries true [denyCEntry, bEntry] = some (denyCRules ++ bRules) ∧
      Resolves true bRules [47, 120] onexecPerms ∧ Resolves true bRules [47, 120, 0, 98] onexecPerms ∧
      onexecPerms.OnExec ∧
      ([47, 120, 0, 98] : List Byte) ∉ (RuleVec.tree ⟨0, .deny, onexec, 0, anyExecTree, [charTree 99], false⟩).byteWords ∧
      Resolves true (denyCRules ++ bRules) [47, 120] q ∧ ¬ q.OnExec :=
  ⟨⟨0, onexec, 0, 0, 0⟩, by decide +kernel, by decide +kernel, resolves_of_match (fun _ => 0) (by decide +kernel),
    resolves_of_match (fun _ => 0) (by decide +kernel), by unfold PermsT.OnExec; decide +kernel, by decide +kernel,
    resolves_of_match (fun _ => 0) (by decide +kernel), by unfold PermsT.OnExec; decide +kernel⟩

end ChangeProfile

end AppArmor

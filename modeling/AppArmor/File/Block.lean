import AppArmor.File.Prefix

namespace AppArmor

open Perm List

structure Qualifiers where
  audit : Bool
  deny : Bool
  allowKeyword : Bool
  owner : Bool
  exclusive : (deny && allowKeyword) = false

namespace Qualifiers

def prefixes (q : Qualifiers) (priority : ℤ) : Prefixes :=
  ⟨priority, if q.audit then .force else .unspecified,
    if q.deny then .deny else if q.allowKeyword then .allow else .unspecified,
    if q.owner then .specified else .unspecified⟩

def mode (q : Qualifiers) : Bool × Bool := (q.deny, q.allowKeyword)

def fits (block inner : Qualifiers) : Bool :=
  !((block.deny || block.allowKeyword) && (inner.deny || inner.allowKeyword) && block.mode != inner.mode)

end Qualifiers

structure RuleFlags where
  audit : Bool
  deny : Bool
  allowKeyword : Bool
  owner : Bool
  deriving DecidableEq

def Qualifiers.flags (q : Qualifiers) : RuleFlags := ⟨q.audit, q.deny, q.allowKeyword, q.owner⟩

def applyQualifiers (q : Qualifiers) (r : RuleFlags) : RuleFlags :=
  let r := if q.audit then { r with audit := true } else r
  let r := if q.deny then { r with deny := true } else if q.allowKeyword then { r with allowKeyword := true } else r
  if q.owner then { r with owner := true } else r

def effectiveRule (own : Qualifiers) (blocks : List Qualifiers) : RuleFlags :=
  blocks.foldl (fun r q => applyQualifiers q r) own.flags

def validateBlocks (inner : List Qualifiers) : List Qualifiers → Bool
  | [] => true
  | q :: blocks => inner.all q.fits && validateBlocks (q :: inner) blocks

def addPrefixes (priority : ℤ) (own : Qualifiers) (blocks : List Qualifiers) (e : CodEntry) : Except PrefixError CodEntry := do
  let e ← entryAddPrefix e (own.prefixes priority)
  blocks.foldlM (fun e q => entryAddPrefix e (q.prefixes 0)) e

def CodEntry.audited (e : CodEntry) : Bool := if e.ruleMode = .deny then !e.audit.isForce else e.audit.isForce

def LosesAudit (qs : List Qualifiers) : Prop :=
  ∃ inner q outer, qs = inner ++ q :: outer ∧ q.deny = true ∧ q.audit = false ∧ (∃ a ∈ inner, a.deny = true) ∧
    (∃ a ∈ inner, a.audit = true) ∧ ∀ a ∈ outer, a.audit = false

section Blocks

variable {e e' e₀ : CodEntry} {q own : Qualifiers} {qs blocks : List Qualifiers}

theorem losesAudit_concat : LosesAudit (qs ++ [q]) ↔ q.audit = false ∧ (LosesAudit qs ∨
    q.deny = true ∧ (∃ a ∈ qs, a.deny = true) ∧ ∃ a ∈ qs, a.audit = true) := by
  constructor
  · rintro ⟨inner, p, outer, he, hdeny, haudit, hd, ha, hnone⟩
    cases outer using reverseRecOn with
    | nil =>
      obtain ⟨rfl, hq⟩ := append_inj' he rfl
      cases hq
      exact ⟨haudit, Or.inr ⟨hdeny, hd, ha⟩⟩
    | append_singleton outer p' _ =>
      rw [← cons_append, ← append_assoc] at he
      obtain ⟨rfl, hq⟩ := append_inj' he rfl
      cases hq
      exact ⟨hnone q (by simp), Or.inl ⟨inner, p, outer, rfl, hdeny, haudit, hd, ha, fun a ha' => hnone a (by simp [ha'])⟩⟩
  · rintro ⟨hq, ⟨inner, p, outer, rfl, hdeny, haudit, hd, ha, hnone⟩ | ⟨hdeny, hd, ha⟩⟩
    · refine ⟨inner, p, outer ++ [q], by simp, hdeny, haudit, hd, ha, fun a ha' => ?_⟩
      rcases mem_append.mp ha' with ha' | ha'
      · exact hnone a ha'
      · rw [mem_singleton.mp ha']
        exact hq
    · exact ⟨qs, q, [], rfl, hdeny, hq, hd, ha, by simp⟩

theorem exists_mem_concat {P : Qualifiers → Prop} : (∃ a ∈ qs ++ [q], P a) ↔ (∃ a ∈ qs, P a) ∨ P q := by
  simp only [mem_append, mem_singleton, or_and_right, exists_or, exists_eq_left]

structure EntryAfter (e₀ : CodEntry) (qs : List Qualifiers) (e : CodEntry) : Prop where
  mode : e.ruleMode = .unspecified ∨ e.ruleMode = .allow ∨ e.ruleMode = .deny
  deny : e.ruleMode = .deny ↔ ∃ q ∈ qs, q.deny = true
  audit : e.ruleMode ≠ .deny → (e.audit = .unspecified ∨ e.audit = .force) ∧ (e.audit = .force ↔ ∃ q ∈ qs, q.audit = true)
  quiet : e.ruleMode = .deny → (e.audit = .unspecified ∨ e.audit = .implied) ∧
    (e.audit = .unspecified ↔ (∃ q ∈ qs, q.audit = true) ∧ ¬ LosesAudit qs)
  perms : e.perms = if ∃ q ∈ qs, q.owner = true then restrictOwner .specified e₀.perms else e₀.perms

structure PrefixAdded (e : CodEntry) (p : Prefixes) (e' : CodEntry) : Prop where
  fits : p.ruleMode ≠ .unspecified → e.ruleMode ≠ .unspecified → e.ruleMode = p.ruleMode
  mode : e'.ruleMode = if p.ruleMode ≠ .unspecified then p.ruleMode else e.ruleMode
  audit : e'.audit =
    if e'.ruleMode = .deny ∧ (p.audit = .force ∨ e.audit = .force) then .unspecified
    else if p.ruleMode = .deny then .implied
    else if p.audit ≠ .unspecified then p.audit
    else e.audit
  perms : e'.perms = e.perms

theorem impliedAudit_spec (e : CodEntry) (p : Prefixes) (h : p.ruleMode = .deny → e.ruleMode = .deny) :
    (impliedAudit e p).ruleMode = e.ruleMode ∧ (impliedAudit e p).perms = e.perms ∧ (impliedAudit e p).audit =
      if e.ruleMode = .deny ∧ (p.audit = .force ∨ e.audit = .force) then .unspecified
      else if p.ruleMode = .deny then .implied
      else if p.audit ≠ .unspecified then p.audit
      else e.audit := by
  have hdeny : (p.ruleMode = .deny ∨ e.ruleMode = .deny) ↔ e.ruleMode = .deny := or_iff_right_of_imp h
  unfold impliedAudit
  simp only [hdeny]
  split_ifs with hforce hp haudit
  · exact ⟨hforce.1.symm, rfl, rfl⟩
  · exact ⟨(h hp).symm, rfl, rfl⟩
  · exact ⟨rfl, rfl, rfl⟩
  · exact ⟨rfl, rfl, rfl⟩

theorem genericAddPrefix_added {p : Prefixes} (h : genericAddPrefix e p = .ok e') : PrefixAdded e p e' := by
  unfold genericAddPrefix at h
  by_cases hmode : p.ruleMode ≠ .unspecified ∧ e.ruleMode ≠ .unspecified ∧ e.ruleMode ≠ p.ruleMode
  · rw [if_pos hmode] at h
    cases h
  rw [if_neg hmode] at h
  dsimp only at h
  generalize he₁ : (if p.ruleMode ≠ .unspecified then { e with ruleMode := p.ruleMode } else e) = e₁ at h
  generalize he₂ : (if p.priority ≠ 0 then { e₁ with priority := p.priority } else e₁) = e₂ at h
  have hsame : e₂.ruleMode = e₁.ruleMode ∧ e₂.audit = e₁.audit ∧ e₂.perms = e₁.perms := by
    rw [← he₂]
    split_ifs <;> exact ⟨rfl, rfl, rfl⟩
  have hfirst : e₁.ruleMode = (if p.ruleMode ≠ .unspecified then p.ruleMode else e.ruleMode) ∧ e₁.audit = e.audit ∧
      e₁.perms = e.perms := by
    rw [← he₁]
    split_ifs <;> exact ⟨rfl, rfl, rfl⟩
  split_ifs at h with hconflict
  cases h
  have hdeny : p.ruleMode = .deny → e₂.ruleMode = .deny := by
    intro hp
    rw [hsame.1, hfirst.1, hp]
    rfl
  obtain ⟨hm, hperms, haudit⟩ := impliedAudit_spec e₂ p hdeny
  refine ⟨fun hp he => ?_, ?_, ?_, ?_⟩
  · by_contra hne
    exact hmode ⟨hp, he, hne⟩
  · rw [hm, hsame.1, hfirst.1]
  · rw [haudit, hm, hsame.2.1, hfirst.2.1]
  · rw [hperms, hsame.2.2, hfirst.2.2]

theorem entryAddPrefix_added {p : Prefixes} (h : entryAddPrefix e p = .ok e') :
    ∃ e₁, PrefixAdded e p e₁ ∧ e' = { e₁ with perms := restrictOwner p.owner e₁.perms } := by
  unfold entryAddPrefix at h
  cases hg : genericAddPrefix e p with
  | error err =>
    rw [hg] at h
    cases h
  | ok e₁ =>
    rw [hg] at h
    refine ⟨e₁, genericAddPrefix_added hg, ?_⟩
    change checkXQualifier { e₁ with perms := restrictOwner p.owner e₁.perms } = .ok e' at h
    unfold checkXQualifier at h
    split_ifs at h <;> cases h <;> rfl

theorem losesAudit_deny (h : LosesAudit qs) : ∃ a ∈ qs, a.deny = true := by
  obtain ⟨inner, q, outer, rfl, -, -, ⟨a, ha, hd⟩, -⟩ := h
  exact ⟨a, by simp [ha], hd⟩

theorem Qualifiers.mode_cases (q : Qualifiers) (priority : ℤ) :
    (q.deny = true ∧ (q.prefixes priority).ruleMode = .deny) ∨ (q.deny = false ∧ (q.prefixes priority).ruleMode = .allow) ∨
      (q.deny = false ∧ (q.prefixes priority).ruleMode = .unspecified) := by
  unfold Qualifiers.prefixes
  cases q.deny <;> cases q.allowKeyword <;> simp

variable {priority : ℤ}

theorem EntryAfter.step_mode (h : EntryAfter e₀ qs e) {e₁ : CodEntry}
    (hadd : PrefixAdded e (q.prefixes priority) e₁) : (e₁.ruleMode = .unspecified ∨ e₁.ruleMode = .allow ∨ e₁.ruleMode = .deny) ∧
      (e₁.ruleMode = .deny ↔ e.ruleMode = .deny ∨ q.deny = true) := by
  have hfits := hadd.fits
  rw [hadd.mode]
  rcases q.mode_cases priority with ⟨hq, hm⟩ | ⟨hq, hm⟩ | ⟨hq, hm⟩
  · simp [hm, hq]
  · rw [hm] at hfits ⊢
    have hne : e.ruleMode ≠ .deny := by
      intro he
      rw [he] at hfits
      cases hfits (by decide) (by decide)
    simp [hq, hne]
  · rw [hm, if_neg (not_not.mpr rfl)]
    simp [hq, h.mode]

theorem EntryAfter.step_quiet (h : EntryAfter e₀ qs e) {e₁ : CodEntry}
    (hadd : PrefixAdded e (q.prefixes priority) e₁) (hd : e₁.ruleMode = .deny) :
    (e₁.audit = .unspecified ∨ e₁.audit = .implied) ∧
      (e₁.audit = .unspecified ↔ (∃ a ∈ qs ++ [q], a.audit = true) ∧ ¬ LosesAudit (qs ++ [q])) := by
  have haudit := hadd.audit
  rw [losesAudit_concat, exists_mem_concat]
  cases hq : q.audit with
  | true =>
    have hforce : (q.prefixes priority).audit = .force := by simp [Qualifiers.prefixes, hq]
    rw [if_pos ⟨hd, Or.inl hforce⟩] at haudit
    simp [haudit]
  | false =>
    have hnone : (q.prefixes priority).audit = .unspecified := by simp [Qualifiers.prefixes, hq]
    by_cases hforce : e.audit = .force
    · -- an audited rule becomes an audited denial
      rw [if_pos ⟨hd, Or.inr hforce⟩] at haudit
      have hne : e.ruleMode ≠ .deny := by
        intro he
        rcases (h.quiet he).1 with hu | hi
        · rw [hu] at hforce
          cases hforce
        · rw [hi] at hforce
          cases hforce
      have hno : ¬ ∃ a ∈ qs, a.deny = true := mt h.deny.mpr hne
      have hsome := (h.audit hne).2.mp hforce
      have hloses : ¬ LosesAudit qs := fun hl => hno (losesAudit_deny hl)
      simp only [haudit, true_or, true_iff, true_and]
      exact ⟨Or.inl hsome, fun hl => hl.elim hloses fun hl => hno hl.2.1⟩
    · have hoff : ¬ (e₁.ruleMode = .deny ∧ ((q.prefixes priority).audit = .force ∨ e.audit = .force)) := by
        rintro ⟨-, hf | hf⟩
        · rw [hnone] at hf
          cases hf
        · exact hforce hf
      rw [if_neg hoff] at haudit
      rcases q.mode_cases priority with ⟨hqd, hm⟩ | ⟨hqd, hm⟩ | ⟨hqd, hm⟩
      · -- a denial without audit makes the rule quiet
        rw [hm, if_pos rfl] at haudit
        simp only [haudit, hqd]
        refine ⟨Or.inr trivial, iff_of_false (by simp) ?_⟩
        rintro ⟨hsome | hsome, hl⟩
        · by_cases he : e.ruleMode = .deny
          · exact hl ⟨trivial, Or.inr ⟨trivial, h.deny.mp he, hsome⟩⟩
          · exact hforce ((h.audit he).2.mpr hsome)
        · cases hsome
      all_goals
        have he : e.ruleMode = .deny := ((h.step_mode hadd).2.mp hd).resolve_right (by simp [hqd])
        have hsame : e₁.audit = e.audit := by
          rw [haudit, hm, hnone]
          simp
        simp only [hsame, hqd]
        simpa using h.quiet he

theorem EntryAfter.step (h : EntryAfter e₀ qs e)
    (hstep : entryAddPrefix e (q.prefixes priority) = .ok e') : EntryAfter e₀ (qs ++ [q]) e' := by
  obtain ⟨e₁, hadd, rfl⟩ := entryAddPrefix_added hstep
  obtain ⟨hmode, hdeny⟩ := h.step_mode hadd
  have hquiet := h.step_quiet hadd
  refine ⟨hmode, ?_, fun hd => ?_, hquiet, ?_⟩
  · change e₁.ruleMode = .deny ↔ _
    rw [hdeny, exists_mem_concat, h.deny]
  · change e₁.ruleMode ≠ .deny at hd
    change (e₁.audit = _ ∨ e₁.audit = _) ∧ (e₁.audit = _ ↔ _)
    have hne : e.ruleMode ≠ .deny := fun he => hd (hdeny.mpr (Or.inl he))
    have hqd : q.deny = false := by
      rw [← Bool.not_eq_true]
      exact fun hq => hd (hdeny.mpr (Or.inr hq))
    have hp : (q.prefixes priority).ruleMode ≠ .deny := by
      rcases q.mode_cases priority with ⟨hq, -⟩ | ⟨-, hm⟩ | ⟨-, hm⟩
      · rw [hqd] at hq
        cases hq
      · rw [hm]
        decide
      · rw [hm]
        decide
    have haudit := hadd.audit
    rw [if_neg fun hc => hd hc.1, if_neg hp] at haudit
    rw [exists_mem_concat, haudit]
    cases hq : q.audit with
    | true => simp [Qualifiers.prefixes, hq]
    | false => simpa [Qualifiers.prefixes, hq] using h.audit hne
  · change restrictOwner (q.prefixes priority).owner e₁.perms = _
    rw [hadd.perms, h.perms]
    simp only [exists_mem_concat]
    cases hq : q.owner with
    | false => simp [Qualifiers.prefixes, hq, restrictOwner]
    | true =>
      by_cases hs : ∃ a ∈ qs, a.owner = true
      · simp [Qualifiers.prefixes, hq, hs, restrictOwner, BitVec.and_assoc]
      · simp [Qualifiers.prefixes, hq, hs, restrictOwner]

theorem EntryAfter.run (h : EntryAfter e₀ qs e) (hrun : blocks.foldlM (fun e q => entryAddPrefix e (q.prefixes 0)) e = .ok e') :
    EntryAfter e₀ (qs ++ blocks) e' := by
  induction blocks generalizing qs e with
  | nil =>
    cases hrun
    rwa [append_nil]
  | cons q blocks ih =>
    rw [foldlM_cons] at hrun
    cases hstep : entryAddPrefix e (q.prefixes 0) with
    | error err =>
      rw [hstep] at hrun
      cases hrun
    | ok e₁ =>
      rw [hstep] at hrun
      rw [append_cons]
      exact ih (h.step hstep) hrun

theorem addPrefixes_after {name : Text} {perms : Perm32} {link : Option Text}
    (h : addPrefixes priority own blocks (newEntry name perms link) = .ok e) :
    EntryAfter (newEntry name perms link) (own :: blocks) e := by
  have hstart : EntryAfter (newEntry name perms link) [] (newEntry name perms link) := by
    constructor <;> simp [newEntry]
  unfold addPrefixes at h
  cases hown : entryAddPrefix (newEntry name perms link) (own.prefixes priority) with
  | error err =>
    rw [hown] at h
    cases h
  | ok e₁ =>
    rw [hown] at h
    exact (hstart.step hown).run h

theorem applyQualifiers_flags (q : Qualifiers) (r : RuleFlags) :
    (applyQualifiers q r).audit = (r.audit || q.audit) ∧ (applyQualifiers q r).deny = (r.deny || q.deny) ∧
      (applyQualifiers q r).owner = (r.owner || q.owner) := by
  unfold applyQualifiers
  cases q.audit <;> cases q.deny <;> cases q.allowKeyword <;> cases q.owner <;> simp

theorem effectiveRule_flags (own : Qualifiers) (blocks : List Qualifiers) :
    (effectiveRule own blocks).audit = (own :: blocks).any (·.audit) ∧
      (effectiveRule own blocks).deny = (own :: blocks).any (·.deny) ∧
      (effectiveRule own blocks).owner = (own :: blocks).any (·.owner) := by
  have hrun : ∀ (blocks : List Qualifiers) (r : RuleFlags),
      (blocks.foldl (fun r q => applyQualifiers q r) r).audit = (r.audit || blocks.any (·.audit)) ∧
        (blocks.foldl (fun r q => applyQualifiers q r) r).deny = (r.deny || blocks.any (·.deny)) ∧
        (blocks.foldl (fun r q => applyQualifiers q r) r).owner = (r.owner || blocks.any (·.owner)) := by
    intro blocks
    induction blocks with
    | nil => simp
    | cons q blocks ih =>
      intro r
      obtain ⟨ha, hd, ho⟩ := applyQualifiers_flags q r
      obtain ⟨ia, id, io⟩ := ih (applyQualifiers q r)
      simp only [foldl_cons, any_cons, ia, id, io, ha, hd, ho, Bool.or_assoc, and_self]
  exact hrun blocks own.flags

theorem losesAudit_audit (h : LosesAudit qs) : ∃ a ∈ qs, a.audit = true := by
  obtain ⟨inner, q, outer, rfl, -, -, -, ⟨a, ha, hd⟩, -⟩ := h
  exact ⟨a, by simp [ha], hd⟩

structure Agrees (perms : Perm32) (r : RuleFlags) (e : CodEntry) : Prop where
  mode : e.ruleMode = .deny ↔ r.deny = true
  owner : e.perms = if r.owner then restrictOwner .specified perms else perms
  audit : e.audited = r.audit

theorem effectiveRule_agrees_iff {priority : ℤ} {name : Text} {perms : Perm32} {link : Option Text}
    (h : addPrefixes priority own blocks (newEntry name perms link) = .ok e) :
    Agrees perms (effectiveRule own blocks) e ↔ ¬ LosesAudit (own :: blocks) := by
  have hafter := addPrefixes_after h
  obtain ⟨haudit, hdeny, howner⟩ := effectiveRule_flags own blocks
  have hmode : e.ruleMode = .deny ↔ (effectiveRule own blocks).deny = true := by
    rw [hafter.deny, hdeny, any_eq_true]
  have hperms : e.perms = if (effectiveRule own blocks).owner then restrictOwner .specified perms else perms := by
    rw [hafter.perms, howner]
    simp only [any_eq_true]
    rfl
  have hlogged : e.audited = (effectiveRule own blocks).audit ↔ ¬ LosesAudit (own :: blocks) := by
    rw [haudit, Bool.eq_iff_iff, any_eq_true]
    unfold CodEntry.audited
    by_cases hd : e.ruleMode = .deny
    · obtain ⟨hcases, hiff⟩ := hafter.quiet hd
      have hkeep : (!e.audit.isForce) = true ↔ e.audit = .unspecified := by
        rcases hcases with hu | hi
        · simp [hu, AuditT.isForce, AuditT.eq]
        · simp [hi, AuditT.isForce, AuditT.eq]
      rw [if_pos hd, hkeep, hiff]
      exact ⟨fun h hl => (h.mpr (losesAudit_audit hl)).2 hl, fun hl => and_iff_left hl⟩
    · obtain ⟨hcases, hiff⟩ := hafter.audit hd
      have hkeep : e.audit.isForce = true ↔ e.audit = .force := by
        rcases hcases with hu | hi
        · simp [hu, AuditT.isForce, AuditT.eq]
        · simp [hi, AuditT.isForce, AuditT.eq]
      rw [if_neg hd, hkeep, hiff]
      exact iff_of_true Iff.rfl fun hl => hd (hafter.deny.mpr (losesAudit_deny hl))
  exact ⟨fun ha => hlogged.mp ha.audit, fun hl => ⟨hmode, hperms, hlogged.mpr hl⟩⟩

def auditOnly : Qualifiers := ⟨true, false, false, false, rfl⟩
def denyOnly : Qualifiers := ⟨false, true, false, false, rfl⟩
def auditDeny : Qualifiers := ⟨true, true, false, false, rfl⟩

theorem audited_in_deny : ∃ e, addPrefixes 0 auditOnly [denyOnly] (newEntry "/foo".toList mayRead none) = .ok e ∧
    Agrees mayRead (effectiveRule auditOnly [denyOnly]) e := by
  have hadd : addPrefixes 0 auditOnly [denyOnly] (newEntry "/foo".toList mayRead none) =
      .ok ⟨0, "/foo".toList, none, mayRead, .unspecified, .deny, false⟩ := rfl
  refine ⟨_, hadd, (effectiveRule_agrees_iff hadd).mpr fun h => ?_⟩
  have hnone : ¬ ∃ a ∈ [auditOnly], a.deny = true := by simp [auditOnly]
  obtain ⟨-, hl | ⟨-, hd, -⟩⟩ := (@losesAudit_concat denyOnly [auditOnly]).mp h
  · exact hnone (losesAudit_deny hl)
  · exact hnone hd

theorem audited_deny_in_deny : ∃ e,
    addPrefixes 0 auditDeny [denyOnly] (newEntry "/foo".toList mayRead none) = .ok e ∧
      validateBlocks [auditDeny] [denyOnly] = true ∧ (effectiveRule auditDeny [denyOnly]).audit = true ∧ e.audited = false :=
  ⟨⟨0, "/foo".toList, none, mayRead, .implied, .deny, false⟩, rfl, rfl, rfl, rfl⟩

end Blocks

end AppArmor

import AppArmor.Lib.Prune
import AppArmor.Utils.Aare

namespace AppArmor

open Prune List

structure BaseRule (ρ : Type) where
  audit : Bool
  deny : Bool
  priority : Option ℤ
  localvars : ρ
  deriving DecidableEq

section Ruleset

variable {ρ : Type} (localCovered : ρ → ρ → Option Bool)

def BaseRule.isCovered (self other : BaseRule ρ) (checkAllowDeny checkAudit checkPriority : Bool) : Option Bool :=
  if checkAllowDeny ∧ self.deny ≠ other.deny then some false
  else if other.deny ∧ ¬ self.deny then some false
  else if checkAudit ∧ other.audit ≠ self.audit then some false
  else if other.audit ∧ ¬ self.audit then some false
  else if checkPriority ∧ self.priority.getD 0 < other.priority.getD 0 then some false
  else localCovered self.localvars other.localvars

def BaseRule.covers (self other : BaseRule ρ) : Option Bool := self.isCovered localCovered other true false true

def rulesetCovers : List (BaseRule ρ) → BaseRule ρ → Option Bool
  | [], _ => some false
  | r :: rules, rule =>
    match r.covers localCovered rule with
    | none => none
    | some true => some true
    | some false => rulesetCovers rules rule

def deleteIncluded (included : List (BaseRule ρ)) : List (BaseRule ρ) → Option (List (BaseRule ρ) × ℕ)
  | [] => some ([], 0)
  | rule :: old =>
    match rulesetCovers localCovered included rule with
    | none => none
    | some true => (deleteIncluded included old).map fun (rules, deleted) => (rules, deleted + 1)
    | some false => (deleteIncluded included old).map fun (rules, deleted) => (rule :: rules, deleted)

def deleteInProfile (kept : List (BaseRule ρ)) : List (BaseRule ρ) → Option (List (BaseRule ρ) × ℕ)
  | [] => some (kept, 0)
  | rule :: old =>
    match rulesetCovers localCovered kept rule with
    | none => none
    | some true => (deleteInProfile kept old).map fun (rules, deleted) => (rules, deleted + 1)
    | some false => deleteInProfile (kept ++ [rule]) old

def deleteInProfileDuplicates (rules : List (BaseRule ρ)) : Option (List (BaseRule ρ) × ℕ) :=
  deleteInProfile localCovered [] rules

def deleteCoveredByIncludes (rules : List (BaseRule ρ)) : (includeRules : Option (List (BaseRule ρ))) →
    Option (List (BaseRule ρ) × ℕ)
  | none => some (rules, 0)
  | some included => deleteIncluded localCovered included rules

def deleteDuplicates (rules : List (BaseRule ρ)) (includeRules : Option (List (BaseRule ρ))) :
    Option (List (BaseRule ρ) × ℕ) := do
  let (rules, deleted) ← deleteCoveredByIncludes localCovered rules includeRules
  let (rules, deleted₁) ← deleteInProfileDuplicates localCovered rules
  let (rules, deleted₂) ← deleteInProfileDuplicates localCovered rules.reverse
  some (rules.reverse, deleted + deleted₁ + deleted₂)

variable {localCovered} {S : Set (BaseRule ρ)}

def Comparable (localCovered : ρ → ρ → Option Bool) (S : Set (BaseRule ρ)) : Prop :=
  ∀ a ∈ S, ∀ b ∈ S, a.covers localCovered b ≠ none

variable {rules : List (BaseRule ρ)}

theorem rulesetCovers_spec (h : Comparable localCovered S) {rule : BaseRule ρ}
    (hrules : ∀ r ∈ rules, r ∈ S) (hrule : rule ∈ S) :
    (rulesetCovers localCovered rules rule = some true ∧ ∃ r ∈ rules, r.covers localCovered rule = some true) ∨
      rulesetCovers localCovered rules rule = some false ∧ ∀ r ∈ rules, r.covers localCovered rule = some false := by
  induction rules with
  | nil => exact Or.inr ⟨rfl, fun r hr => nomatch hr⟩
  | cons r rules ih =>
    rw [rulesetCovers]
    cases hr : r.covers localCovered rule with
    | none => exact absurd hr (h r (hrules r mem_cons_self) rule hrule)
    | some b =>
      cases b with
      | true => exact Or.inl ⟨rfl, r, mem_cons_self, hr⟩
      | false =>
        rcases ih fun s hs => hrules s (mem_cons_of_mem _ hs) with ⟨he, s, hs, hcov⟩ | ⟨he, hcov⟩
        · exact Or.inl ⟨he, s, mem_cons_of_mem _ hs, hcov⟩
        · refine Or.inr ⟨he, fun s hs => ?_⟩
          rcases mem_cons.mp hs with rfl | hs
          · exact hr
          · exact hcov s hs

theorem deleteIncluded_spec (h : Comparable localCovered S) {included : List (BaseRule ρ)} (hinc : ∀ r ∈ included, r ∈ S)
    (hrules : ∀ r ∈ rules, r ∈ S) :
    ∃ rules' n, deleteIncluded localCovered included rules = some (rules', n) ∧
      Pruned (fun r => ∃ k ∈ included, k.covers localCovered r = some true) rules rules' ∧ rules'.length + n = rules.length := by
  induction rules with
  | nil => exact ⟨[], 0, rfl, .nil, rfl⟩
  | cons r rules ih =>
    obtain ⟨rules', n, he, hpruned, hlen⟩ := ih fun s hs => hrules s (mem_cons_of_mem _ hs)
    rw [deleteIncluded, he]
    rcases rulesetCovers_spec h hinc (hrules r mem_cons_self) with ⟨hc, k, hk, hcov⟩ | ⟨hc, -⟩
    · rw [hc]
      refine ⟨rules', n + 1, rfl, .drop ⟨k, hk, hcov⟩ hpruned, ?_⟩
      rw [length_cons]
      omega
    · rw [hc]
      refine ⟨r :: rules', n, rfl, .keep hpruned, ?_⟩
      rw [length_cons, length_cons]
      omega

theorem deleteInProfile_spec (h : Comparable localCovered S) {R : BaseRule ρ → BaseRule ρ → Prop} {kept : List (BaseRule ρ)}
    (hkept : ∀ r ∈ kept, r ∈ S) (hrules : ∀ r ∈ rules, r ∈ S) (hR : (kept ++ rules).Pairwise R)
    (hapart : kept.Pairwise fun a b => a.covers localCovered b = some false) :
    ∃ rules' n, deleteInProfile localCovered kept rules = some (kept ++ rules', n) ∧
      Pruned (fun r => ∃ k ∈ kept ++ rules', k.covers localCovered r = some true ∧ R k r) rules rules' ∧
      (kept ++ rules').Pairwise (fun a b => a.covers localCovered b = some false) ∧ rules'.length + n = rules.length := by
  induction rules generalizing kept with
  | nil => exact ⟨[], 0, by rw [deleteInProfile, append_nil], .nil, by rwa [append_nil], rfl⟩
  | cons r rules ih =>
    have hr := hrules r mem_cons_self
    have hrest : ∀ s ∈ rules, s ∈ S := fun s hs => hrules s (mem_cons_of_mem _ hs)
    rw [deleteInProfile]
    rcases rulesetCovers_spec h hkept hr with ⟨hc, k, hk, hcov⟩ | ⟨hc, hno⟩
    · have hsub : (kept ++ rules).Sublist (kept ++ r :: rules) := (sublist_cons_self r rules).append_left kept
      obtain ⟨rules', n, he, hpruned, hpair, hlen⟩ := ih hkept hrest (hR.sublist hsub) hapart
      have hbefore : R k r := (pairwise_append.mp hR).2.2 k hk r mem_cons_self
      rw [hc]
      dsimp only
      rw [he]
      refine ⟨rules', n + 1, rfl, .drop ⟨k, mem_append_left _ hk, hcov, hbefore⟩ hpruned, hpair, ?_⟩
      rw [length_cons]
      omega
    · have hassoc : kept ++ r :: rules = kept ++ [r] ++ rules := by simp
      have hkept' : ∀ s ∈ kept ++ [r], s ∈ S := by
        intro s hs
        rcases mem_append.mp hs with hs | hs
        · exact hkept s hs
        · rwa [mem_singleton.mp hs]
      have hapart' : (kept ++ [r]).Pairwise fun a b => a.covers localCovered b = some false := by
        rw [pairwise_append]
        refine ⟨hapart, pairwise_singleton _ _, fun a ha b hb => ?_⟩
        rw [mem_singleton.mp hb]
        exact hno a ha
      obtain ⟨rules', n, he, hpruned, hpair, hlen⟩ := ih hkept' hrest (hassoc ▸ hR) hapart'
      have hassoc' : kept ++ [r] ++ rules' = kept ++ r :: rules' := by simp
      rw [hc]
      dsimp only
      rw [he, hassoc']
      rw [hassoc'] at hpruned hpair
      refine ⟨r :: rules', n, rfl, .keep hpruned, hpair, ?_⟩
      rw [length_cons, length_cons]
      omega

def CoversCompose (localCovered : ρ → ρ → Option Bool) (S : Set (BaseRule ρ)) : Prop :=
  ∀ k ∈ S, ∀ k' ∈ S, ∀ r ∈ S, k'.covers localCovered k = some true → k.covers localCovered k' = some false →
    k.covers localCovered r = some true → k'.covers localCovered r = some true

structure Deduplicated (localCovered : ρ → ρ → Option Bool) (rules : List (BaseRule ρ)) (includeRules : Option (List (BaseRule ρ)))
    (rules' : List (BaseRule ρ)) (deleted : ℕ) : Prop where
  covered : Pruned (fun r => ∃ k, (k ∈ rules' ∨ ∃ included, includeRules = some included ∧ k ∈ included) ∧
    k.covers localCovered r = some true) rules rules'
  apart : rules'.Pairwise fun a b => a.covers localCovered b = some false ∧ b.covers localCovered a = some false
  count : rules'.length + deleted = rules.length

variable {includeRules : Option (List (BaseRule ρ))}

theorem deleteCoveredByIncludes_spec (h : Comparable localCovered S)
    (hrules : ∀ r ∈ rules, r ∈ S)
    (hinc : ∀ included, includeRules = some included → ∀ r ∈ included, r ∈ S) :
    ∃ rules' n, deleteCoveredByIncludes localCovered rules includeRules = some (rules', n) ∧
      Pruned (fun r => ∃ included, includeRules = some included ∧ ∃ k ∈ included, k.covers localCovered r = some true)
        rules rules' ∧ rules'.length + n = rules.length := by
  cases includeRules with
  | none => exact ⟨rules, 0, rfl, .refl _ _, rfl⟩
  | some included =>
    obtain ⟨rules', n, he, hpruned, hlen⟩ := deleteIncluded_spec h (hinc included rfl) hrules
    exact ⟨rules', n, he, hpruned.mono fun r _ hr => ⟨included, rfl, hr⟩, hlen⟩

theorem deduplicated_of_compose (h : Comparable localCovered S) (hcompose : CoversCompose localCovered S)
    (hrules : ∀ r ∈ rules, r ∈ S)
    (hinc : ∀ included, includeRules = some included → ∀ r ∈ included, r ∈ S) :
    ∃ rules' deleted, deleteDuplicates localCovered rules includeRules = some (rules', deleted) ∧
      Deduplicated localCovered rules includeRules rules' deleted := by
  obtain ⟨rules₀, n₀, he₀, hpruned₀, hlen₀⟩ := deleteCoveredByIncludes_spec h hrules hinc
  have hS₀ : ∀ r ∈ rules₀, r ∈ S := fun r hr => hrules r (hpruned₀.sublist.subset hr)
  have hnil : ∀ r ∈ ([] : List (BaseRule ρ)), r ∈ S := fun _ hr => nomatch hr
  have hany : ([] ++ rules₀).Pairwise fun _ _ => True := pairwise_of_forall fun _ _ => trivial
  obtain ⟨rules₁, n₁, he₁, hpruned₁, hpair₁, hlen₁⟩ :=
    deleteInProfile_spec h hnil hS₀ hany List.Pairwise.nil
  rw [nil_append] at he₁ hpair₁
  have hS₁ : ∀ r ∈ rules₁.reverse, r ∈ S := fun r hr => hS₀ r (hpruned₁.sublist.subset (mem_reverse.mp hr))
  -- in the reversed list no rule is covered by one that stands after it
  have hpair₁' : ([] ++ rules₁.reverse).Pairwise fun a b => BaseRule.covers localCovered b a = some false :=
    pairwise_reverse.mpr hpair₁
  obtain ⟨rules₂, n₂, he₂, hpruned₂, hpair₂, hlen₂⟩ :=
    deleteInProfile_spec h hnil hS₁ hpair₁' List.Pairwise.nil
  rw [nil_append] at he₂ hpair₂ hpruned₂
  have hpruned₂' := hpruned₂.reverse
  rw [reverse_reverse] at hpruned₂'
  refine ⟨rules₂.reverse, n₀ + n₁ + n₂, ?_, ?_, ?_, ?_⟩
  · unfold deleteDuplicates deleteInProfileDuplicates
    simp only [he₀, he₁, he₂, Option.bind_eq_bind, Option.bind_some]
  · -- a rule that was deleted for one that is deleted later is covered by the one that the latter is deleted for
    have hsurvivor : ∀ k ∈ rules₁, ∀ r ∈ rules₀, k.covers localCovered r = some true →
        ∃ k' ∈ rules₂, k'.covers localCovered r = some true := by
      intro k hk r hr hcov
      have hkr : k ∈ rules₁.reverse := mem_reverse.mpr hk
      rcases hpruned₂.mem_or hkr with hkept | ⟨k', hk', hcov', hno⟩
      · exact ⟨k, hkept, hcov⟩
      · exact ⟨k', hk', hcompose k (hS₁ k hkr) k' (hS₁ k' (hpruned₂.sublist.subset hk')) r (hS₀ r hr) hcov' hno hcov⟩
    refine (hpruned₀.mono fun r _ hr => ?_).trans ((hpruned₁.mono fun r hr hk => ?_).trans (hpruned₂'.mono fun r _ hk => ?_))
    · obtain ⟨included, he, k, hk, hcov⟩ := hr
      exact ⟨k, Or.inr ⟨included, he, hk⟩, hcov⟩
    · obtain ⟨k, hk, hcov, -⟩ := hk
      obtain ⟨k', hk', hcov'⟩ := hsurvivor k hk r hr hcov
      exact ⟨k', Or.inl (mem_reverse.mpr hk'), hcov'⟩
    · obtain ⟨k, hk, hcov, -⟩ := hk
      exact ⟨k, Or.inl (mem_reverse.mpr hk), hcov⟩
  · have hpair := hpair₂.and (hpair₁'.sublist hpruned₂.sublist)
    exact pairwise_reverse.mpr (hpair.imp fun h => ⟨h.2, h.1⟩)
  · rw [length_reverse]
    rw [length_reverse] at hlen₂
    omega

theorem deleteDuplicates_chain {k k' r : BaseRule ρ} (hcov' : k'.covers localCovered k = some true)
    (hno : k.covers localCovered k' = some false) (hcov : k.covers localCovered r = some true) :
    deleteDuplicates localCovered [k, r, k'] none = some ([k'], 2) := by
  simp [deleteDuplicates, deleteCoveredByIncludes, deleteInProfileDuplicates, deleteInProfile, rulesetCovers, hcov', hno, hcov]

theorem comparable_of_returns (h : ∀ rules includeRules, (∀ r ∈ rules, r ∈ S) →
    (∀ included, includeRules = some included → ∀ r ∈ included, r ∈ S) → deleteDuplicates localCovered rules includeRules ≠ none) :
    Comparable localCovered S := by
  intro a ha b hb hnone
  apply h [b] (some [a])
  · intro r hr
    rwa [mem_singleton.mp hr]
  · rintro included ⟨⟩ r hr
    rwa [mem_singleton.mp hr]
  · simp [deleteDuplicates, deleteCoveredByIncludes, deleteIncluded, rulesetCovers, hnone]

/-- For the rules of a class and any set `S` of them, `delete_duplicates` does what it is for on all rulesets from `S` exactly if
no comparison in `S` raises an exception and the coverings in `S` compose. -/
theorem deleteDuplicates_iff (localCovered : ρ → ρ → Option Bool) (S : Set (BaseRule ρ)) :
    (∀ rules includeRules, (∀ r ∈ rules, r ∈ S) → (∀ included, includeRules = some included → ∀ r ∈ included, r ∈ S) →
      ∃ rules' deleted, deleteDuplicates localCovered rules includeRules = some (rules', deleted) ∧
        Deduplicated localCovered rules includeRules rules' deleted) ↔
    Comparable localCovered S ∧ CoversCompose localCovered S := by
  constructor
  · intro h
    have hcmp : Comparable localCovered S := by
      apply comparable_of_returns
      intro rules includeRules hrules hinc hnone
      obtain ⟨rules', n, he, -⟩ := h rules includeRules hrules hinc
      rw [hnone] at he
      exact nomatch he
    refine ⟨hcmp, fun k hk k' hk' r hr hcov' hno hcov => ?_⟩
    have hmem : ∀ x ∈ [k, r, k'], x ∈ S := by
      intro x hx
      simp only [mem_cons, not_mem_nil, or_false] at hx
      rcases hx with rfl | rfl | rfl <;> assumption
    obtain ⟨rules', n, he, hdedup⟩ := h [k, r, k'] none hmem fun _ he => nomatch he
    rw [deleteDuplicates_chain hcov' hno hcov] at he
    obtain ⟨rfl, rfl⟩ := Prod.mk.inj (Option.some.inj he)
    rcases hdedup.covered.mem_or (a := r) (by simp) with hkept | ⟨x, hx | ⟨_, hinc, -⟩, hcovx⟩
    · rw [mem_singleton.mp hkept, hno] at hcov
      exact nomatch hcov
    · rwa [mem_singleton.mp hx] at hcovx
    · exact nomatch hinc
  · rintro ⟨hcmp, hcompose⟩ rules includeRules hrules hinc
    exact deduplicated_of_compose hcmp hcompose hrules hinc

end Ruleset

inductive FilePerm
  | m | r | w | a | l | k | link | subset
  deriving DecidableEq

inductive ExecPerm
  | anyExec
  | mode (s : Text)
  deriving DecidableEq

structure FileLocals where
  path : Option Aare
  perms : Option (Finset FilePerm)
  execPerms : Option ExecPerm
  target : Option Aare
  owner : Bool
  deriving DecidableEq

def isCoveredAare (self other : Option Aare) : Option Bool :=
  match self, other with
  | none, _ => some true
  | some _, none => some false
  | some a, some b => a.matchAare b

def permsWithA (perms : Finset FilePerm) : Finset FilePerm := if .w ∈ perms then insert .a perms else perms

def isCoveredPerms (self other : Option (Finset FilePerm)) : Bool :=
  match self, other with
  | none, _ => true
  | some _, none => false
  | some p, some q => permsWithA q ⊆ permsWithA p

def hasPerm (perms : Option (Finset FilePerm)) (perm : FilePerm) : Bool := perm ∈ perms.getD ∅

def FileLocals.isCovered (self other : FileLocals) : Option Bool := do
  if ¬ (← isCoveredAare self.path other.path) then return false
  if hasPerm self.perms .subset ∧ other.perms.getD ∅ ≠ ∅ ∧ ¬ hasPerm other.perms .subset then return false
  if ¬ (hasPerm self.perms .link ∧ hasPerm other.perms .link) ∧ ¬ isCoveredPerms self.perms other.perms then return false
  if other.perms = some ∅ ∧ other.execPerms = none then failure
  if self.execPerms = none ∧ other.execPerms ≠ none then return false
  if other.execPerms ≠ some .anyExec ∧ other.execPerms ≠ none ∧ self.execPerms ≠ other.execPerms then return false
  if (other.execPerms ≠ none ∧ other.execPerms ≠ some .anyExec) ∨ hasPerm other.perms .l ∨ hasPerm other.perms .link then
    if ¬ (← isCoveredAare self.target other.target) then return false
    if self.target.isNone ≠ other.target.isNone then return false
  return !(self.owner && !other.owner)

def fileRule (path : Aare) (perms : Finset FilePerm) : BaseRule FileLocals :=
  ⟨false, false, none, some path, some perms, none, none, false⟩

/-- A rule made from a log event for `/a|b` covers one for `/axx`, since `|` is an alternation to Python. The rule `/a?b rw,` covers
the former only, and both are deleted. -/
theorem deleted_rule_uncovered :
    let ofLog := fileRule ⟨"/a|b".toList, some "/a|b".toList⟩ {.r}
    let plain := fileRule (Aare.new "/axx".toList) {.r}
    let wide := fileRule (Aare.new "/a?b".toList) {.r, .w}
    deleteDuplicates FileLocals.isCovered [ofLog, plain, wide] none = some ([wide], 2) ∧
      wide.covers FileLocals.isCovered plain = some false := by
  intro ofLog plain wide
  constructor
  · decide +kernel
  · decide +kernel

end AppArmor

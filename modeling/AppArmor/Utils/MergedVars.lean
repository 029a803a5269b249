import AppArmor.Glob.Escape
import AppArmor.Lib.Dict
import Mathlib.Data.Finset.Lattice.Basic
import Mathlib.Tactic

namespace AppArmor

open List Function Prod

inductive AssignMode
  | set
  | add
  deriving DecidableEq

structure VariableRule where
  varname : Text
  mode : AssignMode
  values : ℕ
  deriving DecidableEq

abbrev Values := {s : Finset Text // s.Nonempty}

abbrev ValueSets := ℕ → Values

def ValueSets.unionInto (σ : ValueSets) (t s : ℕ) : ValueSets :=
  Function.update σ t ⟨(σ t).1 ∪ (σ s).1, (σ t).2.mono Finset.subset_union_left⟩

namespace ValueSets

theorem le_unionInto (σ : ValueSets) (t s u : ℕ) : (σ u).1 ⊆ (σ.unionInto t s u).1 := by
  unfold unionInto
  by_cases h : u = t
  · rw [h, update_self]
    exact Finset.subset_union_left
  · rw [update_of_ne h]

theorem unionInto_eq_self_iff (σ : ValueSets) (t s : ℕ) : σ.unionInto t s = σ ↔ (σ s).1 ⊆ (σ t).1 := by
  unfold unionInto
  rw [update_eq_self_iff, Subtype.ext_iff]
  exact Finset.union_eq_left

def unions (σ : ValueSets) (ops : List (ℕ × ℕ)) : ValueSets := ops.foldl (fun σ op => σ.unionInto op.1 op.2) σ

theorem unions_append (σ : ValueSets) (ops ops' : List (ℕ × ℕ)) : σ.unions (ops ++ ops') = (σ.unions ops).unions ops' :=
  foldl_append

theorem le_unions (σ : ValueSets) (ops : List (ℕ × ℕ)) (u : ℕ) : (σ u).1 ⊆ (σ.unions ops u).1 := by
  induction ops generalizing σ with
  | nil => exact Finset.Subset.refl _
  | cons op ops ih => exact (σ.le_unionInto op.1 op.2 u).trans (ih _)

theorem ext_of_le {σ τ : ValueSets} (h : ∀ u, (σ u).1 ⊆ (τ u).1) (h' : ∀ u, (τ u).1 ⊆ (σ u).1) : σ = τ :=
  funext fun u => Subtype.ext ((h u).antisymm (h' u))

theorem unions_eq_self_iff (σ : ValueSets) (ops : List (ℕ × ℕ)) :
    σ.unions ops = σ ↔ ∀ t s, (t, s) ∈ ops → (σ s).1 ⊆ (σ t).1 := by
  induction ops with
  | nil => exact ⟨fun _ _ _ h => (nomatch h), fun _ => rfl⟩
  | cons op ops ih =>
    have hcons : σ.unions (op :: ops) = (σ.unionInto op.1 op.2).unions ops := rfl
    constructor
    · intro h
      -- the sets only grow, so the first union has no effect either
      have hfirst : σ.unionInto op.1 op.2 = σ := by
        apply ext_of_le _ (σ.le_unionInto op.1 op.2)
        intro u
        have hle := (σ.unionInto op.1 op.2).le_unions ops u
        rwa [← hcons, h] at hle
      rw [hcons, hfirst] at h
      intro t s hmem
      rcases mem_cons.mp hmem with rfl | hmem
      · exact (unionInto_eq_self_iff σ t s).mp hfirst
      · exact ih.mp h t s hmem
    · intro h
      have hfirst := (unionInto_eq_self_iff σ op.1 op.2).mpr (h op.1 op.2 mem_cons_self)
      rw [hcons, hfirst]
      exact ih.mpr fun t s hmem => h t s (mem_cons_of_mem _ hmem)

variable {ops : List (ℕ × ℕ)}

theorem subset_unions_of_mem (σ : ValueSets) {t s : ℕ} (h : (t, s) ∈ ops) :
    (σ s).1 ⊆ (σ.unions ops t).1 := by
  obtain ⟨before, after, rfl⟩ := append_of_mem h
  have hstep : ((σ.unions before) s).1 ⊆ ((σ.unions before).unionInto t s t).1 := by
    unfold unionInto
    rw [update_self]
    exact Finset.subset_union_right
  rw [unions_append]
  exact ((σ.le_unions before s).trans hstep).trans (le_unions _ after t)

theorem unions_subset {G : Set ℕ} {A : Set Text} (hops : ∀ t s, (t, s) ∈ ops → t ∈ G → s ∈ G)
    {σ : ValueSets} (hσ : ∀ u ∈ G, ∀ x ∈ (σ u).1, x ∈ A) : ∀ u ∈ G, ∀ x ∈ (σ.unions ops u).1, x ∈ A := by
  induction ops generalizing σ with
  | nil => exact hσ
  | cons op ops ih =>
    apply ih fun t s hmem => hops t s (mem_cons_of_mem _ hmem)
    intro u hu x hx
    dsimp only [unionInto] at hx
    by_cases ht : u = op.1
    · rw [ht, update_self] at hx
      rcases Finset.mem_union.mp hx with hx | hx
      · exact hσ op.1 (ht ▸ hu) x hx
      · exact hσ op.2 (hops op.1 op.2 mem_cons_self (ht ▸ hu)) x hx
    · rw [update_of_ne ht] at hx
      exact hσ u hu x hx

end ValueSets

/-- The variable rules of each file. `add` of a ruleset refuses to define a variable that the file has already, and each rule
has a set of values of its own. -/
structure VariableFiles where
  files : Text → Option (List VariableRule)
  noRedefinition : ∀ f rules, files f = some rules → rules.Pairwise fun r r' => r'.mode = .set → r.varname ≠ r'.varname
  own : ∀ f g rules rules', files f = some rules → files g = some rules' → ∀ r ∈ rules, ∀ r' ∈ rules',
    r.values = r'.values → f = g ∧ r = r'

structure MergedRules where
  sets : ValueSets
  varSet : List (Text × ℕ)
  varAdd : List (Text × ℕ)

def mergeRule (m : MergedRules) (rule : VariableRule) : MergedRules :=
  match rule.mode with
  | .set => { m with varSet := setItem m.varSet rule.varname rule.values }
  | .add =>
    match m.varAdd.lookup rule.varname with
    | none => { m with varAdd := setItem m.varAdd rule.varname rule.values }
    | some t => { m with sets := m.sets.unionInto t rule.values }

def getMergedVariables (σ : ValueSets) (rules : List VariableRule) : MergedRules := rules.foldl mergeRule ⟨σ, [], []⟩

inductive MergeError
  | notListed (filename : Text)
  | noSuchFile (incname : Text)
  | conflict (profile var file₁ file₂ : Text)
  | undeclared (profile var file : Text)
  deriving DecidableEq

def defineVars (filename incname : Text) (merged : List (Text × ℕ × Text)) :
    List (Text × ℕ) → Except MergeError (List (Text × ℕ × Text))
  | [] => .ok merged
  | (var, ref) :: varSet =>
    match merged.lookup var with
    | some (_, file) => .error (.conflict filename var file incname)
    | none => defineVars filename incname (setItem merged var (ref, incname)) varSet

def mergeIncludes (p : VariableFiles) (filename : Text) (σ : ValueSets) (merged : List (Text × ℕ × Text))
    (incAdd : List (Text × List (Text × ℕ))) :
    (allIncfiles : List Text) → ValueSets × Except MergeError (List (Text × ℕ × Text) × List (Text × List (Text × ℕ)))
  | [] => (σ, .ok (merged, incAdd))
  | incname :: incs =>
    match p.files incname with
    | none => (σ, .error (.noSuchFile incname))
    | some rules =>
      let incVars := getMergedVariables σ rules
      match defineVars filename incname merged incVars.varSet with
      | .error e => (incVars.sets, .error e)
      | .ok merged =>
        mergeIncludes p filename incVars.sets merged
          (if incVars.varAdd = [] then incAdd else setItem incAdd incname incVars.varAdd) incs

def addVars (filename : Text) (merged : List (Text × ℕ × Text)) (σ : ValueSets) :
    List (Text × Text × ℕ) → ValueSets × Except MergeError Unit
  | [] => (σ, .ok ())
  | (file, var, s) :: rest =>
    match merged.lookup var with
    | some (t, _) => addVars filename merged (σ.unionInto t s) rest
    | none => (σ, .error (.undeclared filename var file))

def getAllMergedVariables (p : VariableFiles) (σ : ValueSets) (filename : Text) (allIncfiles : List Text) :
    ValueSets × Except MergeError (List (Text × Values)) :=
  match p.files filename with
  | none => (σ, .error (.notListed filename))
  | some rules =>
    let mainVars := getMergedVariables σ rules
    match mergeIncludes p filename mainVars.sets (mainVars.varSet.map fun (var, ref) => (var, ref, filename))
      (if mainVars.varAdd = [] then [] else [(filename, mainVars.varAdd)]) allIncfiles with
    | (σ, .error e) => (σ, .error e)
    | (σ, .ok (merged, incAdd)) =>
      match addVars filename merged σ (incAdd.flatMap fun (file, vars) => vars.map fun (var, s) => (file, var, s)) with
      | (σ, .error e) => (σ, .error e)
      | (σ, .ok ()) => (σ, .ok (merged.map fun (var, ref, _) => (var, σ ref)))


def firstAdd (rules : List VariableRule) (var : Text) : Option ℕ :=
  (rules.find? fun r => r.mode = .add ∧ r.varname = var).map (·.values)

theorem firstAdd_concat (rules : List VariableRule) (r : VariableRule) (var : Text) :
    firstAdd (rules ++ [r]) var =
      (firstAdd rules var).or (if r.mode = .add ∧ r.varname = var then some r.values else none) := by
  unfold firstAdd
  rw [find?_append]
  cases rules.find? fun r => r.mode = .add ∧ r.varname = var with
  | some r' => rfl
  | none =>
    rw [Option.none_or, Option.map_none, Option.none_or, find?_singleton]
    split_ifs <;> simp_all

variable {rules : List VariableRule}

theorem firstAdd_eq_some {var : Text} {t : ℕ} (h : firstAdd rules var = some t) :
    ∃ r ∈ rules, r.mode = .add ∧ r.varname = var ∧ r.values = t := by
  obtain ⟨r, hr, he⟩ := Option.map_eq_some_iff.mp h
  have hp := find?_some hr
  rw [decide_eq_true_eq] at hp
  exact ⟨r, mem_of_find?_eq_some hr, hp.1, hp.2, he⟩

theorem firstAdd_isSome {r : VariableRule} (hr : r ∈ rules) (hadd : r.mode = .add) :
    ∃ t, firstAdd rules r.varname = some t := by
  unfold firstAdd
  cases hf : rules.find? fun r' => r'.mode = .add ∧ r'.varname = r.varname with
  | some r' => exact ⟨r'.values, rfl⟩
  | none =>
    have := find?_eq_none.mp hf r hr
    simp [hadd] at this

/-- What `get_merged_variables` returns does not depend on the values, and each of its unions adds the values of an addition to
those of the first one. -/
structure MergesRules (rules : List VariableRule) (ops : List (ℕ × ℕ)) (varSet varAdd : List (Text × ℕ)) : Prop where
  run : ∀ σ, getMergedVariables σ rules = ⟨σ.unions ops, varSet, varAdd⟩
  functional : Functional varSet
  set : ∀ var ref, (var, ref) ∈ varSet ↔ ∃ r ∈ rules, r.mode = .set ∧ r.varname = var ∧ r.values = ref
  add : ∀ var ref, (var, ref) ∈ varAdd ↔ firstAdd rules var = some ref
  sound : ∀ t s, (t, s) ∈ ops → ∃ r ∈ rules, r.mode = .add ∧ r.values = s ∧ firstAdd rules r.varname = some t
  complete : ∀ r ∈ rules, r.mode = .add → ∀ t, firstAdd rules r.varname = some t → t = r.values ∨ (t, r.values) ∈ ops

theorem getMergedVariables_merges (rules : List VariableRule)
    (hrules : rules.Pairwise fun r r' => r'.mode = .set → r.varname ≠ r'.varname) :
    ∃ ops varSet varAdd, MergesRules rules ops varSet varAdd := by
  induction rules using reverseRecOn with
  | nil =>
    exact ⟨[], [], [], fun σ => rfl, fun _ _ _ h => (nomatch h), by simp, by simp [firstAdd], by simp, by simp⟩
  | append_singleton rules r ih =>
    obtain ⟨hinit, -, hlast⟩ := pairwise_append.mp hrules
    obtain ⟨ops, varSet, varAdd, h⟩ := ih hinit
    have hstep : ∀ σ, getMergedVariables σ (rules ++ [r]) = mergeRule ⟨σ.unions ops, varSet, varAdd⟩ r := by
      intro σ
      rw [← h.run σ]
      exact foldl_concat ..
    cases hmode : r.mode with
    | set =>
      have hfirst : ∀ var, firstAdd (rules ++ [r]) var = firstAdd rules var := by
        intro var
        rw [firstAdd_concat, if_neg (by simp [hmode]), Option.or_none]
      refine ⟨ops, setItem varSet r.varname r.values, varAdd, fun σ => ?_, h.functional.setItem _ _, fun var ref => ?_, fun var ref => ?_, fun t s hop => ?_,
        fun r' hr' hadd t ht => ?_⟩
      · rw [hstep]
        simp only [mergeRule, hmode]
      · rw [mem_setItem]
        constructor
        · rintro (⟨rfl, rfl⟩ | ⟨-, hmem⟩)
          · exact ⟨r, by simp, hmode, rfl, rfl⟩
          · obtain ⟨r', hr', hspec⟩ := (h.set var ref).mp hmem
            exact ⟨r', mem_append_left _ hr', hspec⟩
        · rintro ⟨r', hr', hset, rfl, rfl⟩
          rcases mem_append.mp hr' with hr' | hr'
          · exact Or.inr ⟨hlast r' hr' r (by simp) hmode, (h.set _ _).mpr ⟨r', hr', hset, rfl, rfl⟩⟩
          · rw [mem_singleton.mp hr']
            exact Or.inl ⟨rfl, rfl⟩
      · rw [hfirst]
        exact h.add var ref
      · obtain ⟨r', hr', hspec⟩ := h.sound t s hop
        rw [← hfirst] at hspec
        exact ⟨r', mem_append_left _ hr', hspec⟩
      · rw [hfirst] at ht
        rcases mem_append.mp hr' with hr' | hr'
        · exact h.complete r' hr' hadd t ht
        · rw [mem_singleton.mp hr', hmode] at hadd
          exact nomatch hadd
    | add =>
      have hset : ∀ {Q : VariableRule → Prop}, (∃ r' ∈ rules ++ [r], r'.mode = .set ∧ Q r') ↔ ∃ r' ∈ rules, r'.mode = .set ∧ Q r' := by
        intro Q
        constructor
        · rintro ⟨r', hr', hset, hQ⟩
          rcases mem_append.mp hr' with hr' | hr'
          · exact ⟨r', hr', hset, hQ⟩
          · rw [mem_singleton.mp hr', hmode] at hset
            exact nomatch hset
        · rintro ⟨r', hr', hQ⟩
          exact ⟨r', mem_append_left _ hr', hQ⟩
      cases hl : varAdd.lookup r.varname with
      | none =>
        have hno : firstAdd rules r.varname = none := by
          rw [Option.eq_none_iff_forall_not_mem]
          intro t ht
          exact lookup_isSome ((h.add _ _).mpr ht) hl
        have hself : firstAdd (rules ++ [r]) r.varname = some r.values := by
          rw [firstAdd_concat, hno, if_pos ⟨hmode, rfl⟩, Option.none_or]
        have hfirst : ∀ var, var ≠ r.varname → firstAdd (rules ++ [r]) var = firstAdd rules var := by
          intro var hne
          rw [firstAdd_concat, if_neg fun h => hne h.2.symm, Option.or_none]
        have hfirst' : ∀ r' ∈ rules, r'.mode = .add → firstAdd (rules ++ [r]) r'.varname = firstAdd rules r'.varname := by
          intro r' hr' hadd
          apply hfirst
          intro he
          obtain ⟨t, ht⟩ := firstAdd_isSome hr' hadd
          rw [he, hno] at ht
          exact nomatch ht
        refine ⟨ops, varSet, setItem varAdd r.varname r.values, fun σ => ?_, h.functional, fun var ref => ?_, fun var ref => ?_,
          fun t s hop => ?_, fun r' hr' hadd t ht => ?_⟩
        · rw [hstep]
          simp only [mergeRule, hmode, hl]
        · rw [h.set, hset]
        · rw [mem_setItem]
          by_cases hvar : var = r.varname
          · rw [hvar, hself, Option.some.injEq]
            simp [eq_comm]
          · rw [hfirst var hvar, h.add]
            simp [hvar]
        · obtain ⟨r', hr', hadd, hs, ht⟩ := h.sound t s hop
          exact ⟨r', mem_append_left _ hr', hadd, hs, (hfirst' r' hr' hadd).trans ht⟩
        · rcases mem_append.mp hr' with hr' | hr'
          · exact h.complete r' hr' hadd t ((hfirst' r' hr' hadd).symm.trans ht)
          · rw [mem_singleton.mp hr'] at ht ⊢
            exact Or.inl (Option.some.inj (ht.symm.trans hself))
      | some t₀ =>
        have hsome : firstAdd rules r.varname = some t₀ := (h.add _ _).mp (mem_of_lookup hl)
        have hfirst : ∀ var, firstAdd (rules ++ [r]) var = firstAdd rules var := by
          intro var
          rw [firstAdd_concat]
          by_cases hvar : r.varname = var
          · rw [← hvar, hsome, Option.some_or]
          · rw [if_neg fun h => hvar h.2, Option.or_none]
        refine ⟨ops ++ [(t₀, r.values)], varSet, varAdd, fun σ => ?_, h.functional, fun var ref => ?_, fun var ref => ?_,
          fun t s hop => ?_, fun r' hr' hadd t ht => ?_⟩
        · rw [hstep, ValueSets.unions_append]
          simp only [mergeRule, hmode, hl]
          rfl
        · rw [h.set, hset]
        · rw [hfirst]
          exact h.add var ref
        · rcases mem_append.mp hop with hop | hop
          · obtain ⟨r', hr', hspec⟩ := h.sound t s hop
            rw [← hfirst] at hspec
            exact ⟨r', mem_append_left _ hr', hspec⟩
          · obtain ⟨rfl, rfl⟩ := mk.inj (mem_singleton.mp hop)
            exact ⟨r, by simp, hmode, rfl, (hfirst _).trans hsome⟩
        · rw [hfirst] at ht
          rcases mem_append.mp hr' with hr' | hr'
          · exact (h.complete r' hr' hadd t ht).imp_right (mem_append_left _)
          · rw [mem_singleton.mp hr'] at ht ⊢
            rw [hsome] at ht
            rw [Option.some.inj ht]
            exact Or.inr (by simp)

namespace VariableFiles

variable (p : VariableFiles) (fs : List Text)

def Has (r : VariableRule) : Prop := ∃ f ∈ fs, ∃ rules, p.files f = some rules ∧ r ∈ rules

def Collects (t s : ℕ) : Prop := ∃ f ∈ fs, ∃ rules, p.files f = some rules ∧
  ∃ r ∈ rules, r.mode = .add ∧ r.values = s ∧ firstAdd rules r.varname = some t

def Defines (var : Text) (t : ℕ) : Prop := ∃ r, p.Has fs r ∧ r.mode = .set ∧ r.varname = var ∧ r.values = t

def Adds (var : Text) (s : ℕ) : Prop := ∃ f ∈ fs, ∃ rules, p.files f = some rules ∧ firstAdd rules var = some s

structure Collected (merged : List (Text × ℕ × Text)) (incAdd : List (Text × List (Text × ℕ))) : Prop where
  functional : Functional merged
  defined : ∀ var ref, (∃ f, (var, ref, f) ∈ merged) ↔ p.Defines fs var ref
  added : ∀ f var s, (∃ vars, (f, vars) ∈ incAdd ∧ (var, s) ∈ vars) ↔
    f ∈ fs ∧ ∃ rules, p.files f = some rules ∧ firstAdd rules var = some s

variable {p fs}

variable {gs : List Text} {f : Text} {t : ℕ}

theorem has_append {r : VariableRule} : p.Has (fs ++ gs) r ↔ p.Has fs r ∨ p.Has gs r := by
  simp only [Has, mem_append, or_and_right, exists_or]

variable {rules : List VariableRule}

theorem has_singleton (hf : p.files f = some rules) {r : VariableRule} :
    p.Has [f] r ↔ r ∈ rules := by
  simp [Has, hf]

theorem collects_append {s : ℕ} : p.Collects (fs ++ gs) t s ↔ p.Collects fs t s ∨ p.Collects gs t s := by
  simp only [Collects, mem_append, or_and_right, exists_or]

theorem collects_singleton (hf : p.files f = some rules) {s : ℕ} :
    p.Collects [f] t s ↔ ∃ r ∈ rules, r.mode = .add ∧ r.values = s ∧ firstAdd rules r.varname = some t := by
  simp [Collects, hf]

theorem defines_append {var : Text} :
    p.Defines (fs ++ gs) var t ↔ p.Defines fs var t ∨ p.Defines gs var t := by
  simp only [Defines, has_append, or_and_right, exists_or]

theorem defines_singleton (hf : p.files f = some rules) {var : Text} :
    p.Defines [f] var t ↔ ∃ r ∈ rules, r.mode = .set ∧ r.varname = var ∧ r.values = t := by
  simp only [Defines, has_singleton hf]

end VariableFiles

open VariableFiles

variable {varSet : List (Text × ℕ)} {merged merged' : List (Text × ℕ × Text)} {p : VariableFiles}
  {incAdd : List (Text × List (Text × ℕ))}

theorem defineVars_ok {filename incname : Text}
    (hfun : Functional merged) (h : defineVars filename incname merged varSet = .ok merged') :
    Functional merged' ∧
      ∀ var x, (var, x) ∈ merged' ↔ (var, x) ∈ merged ∨ ∃ ref, (var, ref) ∈ varSet ∧ x = (ref, incname) := by
  induction varSet generalizing merged with
  | nil =>
    obtain rfl := Except.ok.inj h
    exact ⟨hfun, fun var x => by simp⟩
  | cons e varSet ih =>
    obtain ⟨var₀, ref₀⟩ := e
    rw [defineVars] at h
    cases hl : merged.lookup var₀ with
    | some x =>
      rw [hl] at h
      exact nomatch h
    | none =>
      rw [hl] at h
      obtain ⟨hfun', hmem⟩ := ih (hfun.setItem var₀ (ref₀, incname)) h
      refine ⟨hfun', fun var x => ?_⟩
      rw [hmem, mem_setItem]
      constructor
      · rintro ((⟨rfl, rfl⟩ | ⟨-, hx⟩) | ⟨ref, href, rfl⟩)
        · exact Or.inr ⟨ref₀, mem_cons_self, rfl⟩
        · exact Or.inl hx
        · exact Or.inr ⟨ref, mem_cons_of_mem _ href, rfl⟩
      · rintro (hx | ⟨ref, href, rfl⟩)
        · refine Or.inl (Or.inr ⟨?_, hx⟩)
          rintro rfl
          exact lookup_isSome hx hl
        · rcases mem_cons.mp href with he | href
          · obtain ⟨rfl, rfl⟩ := mk.inj he
            exact Or.inl (Or.inl ⟨rfl, rfl⟩)
          · exact Or.inr ⟨ref, href, rfl⟩

theorem VariableFiles.Collected.includeFile {fs : List Text}
    (hc : p.Collected fs merged incAdd) {f filename : Text}
    (hf : p.files f = some rules) {ops : List (ℕ × ℕ)} {varAdd : List (Text × ℕ)} (hm : MergesRules rules ops varSet varAdd)
    (hdef : defineVars filename f merged varSet = .ok merged') :
    p.Collected (fs ++ [f]) merged' (if varAdd = [] then incAdd else setItem incAdd f varAdd) := by
  obtain ⟨hfun, hmem⟩ := defineVars_ok hc.functional hdef
  refine ⟨hfun, fun var ref => ?_, fun g var s => ?_⟩
  · rw [defines_append, ← hc.defined, defines_singleton hf, ← hm.set]
    simp only [hmem, exists_or, Prod.mk.injEq]
    constructor
    · rintro (h | ⟨g, ref', h, rfl, -⟩)
      · exact Or.inl h
      · exact Or.inr h
    · rintro (h | h)
      · exact Or.inl h
      · exact Or.inr ⟨f, ref, h, rfl, rfl⟩
  · rw [mem_append, mem_singleton]
    have hnew : (∃ rules', p.files f = some rules' ∧ firstAdd rules' var = some s) ↔ (var, s) ∈ varAdd := by
      rw [hm.add]
      constructor
      · rintro ⟨rules', hf', h⟩
        rwa [Option.some.inj (hf.symm.trans hf')]
      · exact fun h => ⟨rules, hf, h⟩
    by_cases hg : g = f
    · subst hg
      rw [hnew]
      split_ifs with hempty
      · rw [hc.added, hnew, hempty]
        simp
      · simp only [mem_setItem]
        simp
    · have hold : (∃ vars, (g, vars) ∈ (if varAdd = [] then incAdd else setItem incAdd f varAdd) ∧ (var, s) ∈ vars) ↔
          ∃ vars, (g, vars) ∈ incAdd ∧ (var, s) ∈ vars := by
        split_ifs
        · rfl
        · simp only [mem_setItem, hg, false_and, false_or, ne_eq, not_false_eq_true, true_and]
      rw [hold, hc.added]
      simp [hg]

theorem mergeIncludes_spec (filename : Text) {fs : List Text}
    (hc : p.Collected fs merged incAdd) (incs : List Text) :
    ∃ ops res, (∀ σ, mergeIncludes p filename σ merged incAdd incs = (σ.unions ops, res)) ∧
      (∀ t s, (t, s) ∈ ops → p.Collects incs t s) ∧
      ∀ merged' incAdd', res = .ok (merged', incAdd') → p.Collected (fs ++ incs) merged' incAdd' ∧
        ∀ t s, p.Collects incs t s → t = s ∨ (t, s) ∈ ops := by
  induction incs generalizing fs merged incAdd with
  | nil =>
    refine ⟨[], .ok (merged, incAdd), fun σ => rfl, fun _ _ h => (nomatch h), ?_⟩
    intro merged' incAdd' he
    obtain ⟨rfl, rfl⟩ := mk.inj (Except.ok.inj he)
    refine ⟨by rwa [append_nil], ?_⟩
    rintro t s ⟨f, hf, -⟩
    exact nomatch hf
  | cons f incs ih =>
    cases hf : p.files f with
    | none =>
      refine ⟨[], .error (.noSuchFile f), fun σ => ?_, fun _ _ h => (nomatch h), fun _ _ he => (nomatch he)⟩
      rw [mergeIncludes, hf]
      rfl
    | some rules =>
      obtain ⟨ops, varSet, varAdd, hm⟩ := getMergedVariables_merges rules (p.noRedefinition f rules hf)
      have hsound : ∀ t s, (t, s) ∈ ops → p.Collects [f] t s := fun t s h => (collects_singleton hf).mpr (hm.sound t s h)
      cases hdef : defineVars filename f merged varSet with
      | error e =>
        refine ⟨ops, .error e, fun σ => ?_, fun t s h => ?_, fun _ _ he => (nomatch he)⟩
        · rw [mergeIncludes, hf]
          simp only [hm.run, hdef]
        · exact (@collects_append p [f] incs t s).mpr (Or.inl (hsound t s h))
      | ok merged' =>
        obtain ⟨ops', res, hrun, hsound', hok⟩ := ih (hc.includeFile hf hm hdef)
        refine ⟨ops ++ ops', res, fun σ => ?_, fun t s h => ?_, fun merged'' incAdd'' he => ?_⟩
        · rw [mergeIncludes, hf]
          simp only [hm.run, hdef, ValueSets.unions_append]
          exact hrun _
        · apply (@collects_append p [f] incs t s).mpr
          exact (mem_append.mp h).imp (hsound t s) (hsound' t s)
        · obtain ⟨hc', hcomplete⟩ := hok merged'' incAdd'' he
          refine ⟨by simpa using hc', fun t s h => ?_⟩
          rcases (@collects_append p [f] incs t s).mp h with h | h
          · obtain ⟨r, hr, hadd, rfl, ht⟩ := (collects_singleton hf).mp h
            exact (hm.complete r hr hadd t ht).imp_right (mem_append_left _)
          · exact (hcomplete t s h).imp_right (mem_append_right _)

theorem addVars_spec (filename : Text) (merged : List (Text × ℕ × Text)) (adds : List (Text × Text × ℕ)) :
    ∃ ops res, (∀ σ, addVars filename merged σ adds = (σ.unions ops, res)) ∧
      (∀ t s, (t, s) ∈ ops → ∃ f var g, (f, var, s) ∈ adds ∧ merged.lookup var = some (t, g)) ∧
      (res = .ok () → ∀ f var s, (f, var, s) ∈ adds → ∃ t g, merged.lookup var = some (t, g) ∧ (t, s) ∈ ops) := by
  induction adds with
  | nil => exact ⟨[], .ok (), fun σ => rfl, fun _ _ h => (nomatch h), fun _ _ _ _ h => (nomatch h)⟩
  | cons e adds ih =>
    obtain ⟨f, var, s⟩ := e
    cases hl : merged.lookup var with
    | none =>
      refine ⟨[], .error (.undeclared filename var f), fun σ => ?_, fun _ _ h => (nomatch h), fun he => (nomatch he)⟩
      rw [addVars, hl]
      rfl
    | some x =>
      obtain ⟨t, g⟩ := x
      obtain ⟨ops, res, hrun, hsound, hcomplete⟩ := ih
      refine ⟨(t, s) :: ops, res, fun σ => ?_, fun t' s' h => ?_, fun hok f' var' s' h => ?_⟩
      · rw [addVars, hl]
        exact hrun _
      · rcases mem_cons.mp h with he | h
        · obtain ⟨rfl, rfl⟩ := mk.inj he
          exact ⟨f, var, g, mem_cons_self, hl⟩
        · obtain ⟨f', var', g', hmem, hl'⟩ := hsound t' s' h
          exact ⟨f', var', g', mem_cons_of_mem _ hmem, hl'⟩
      · rcases mem_cons.mp h with he | h
        · obtain ⟨rfl, rfl, rfl⟩ : f' = f ∧ var' = var ∧ s' = s := by simpa using he
          exact ⟨t, g, hl, mem_cons_self⟩
        · obtain ⟨t', g', hl', hmem⟩ := hcomplete hok f' var' s' h
          exact ⟨t', g', hl', mem_cons_of_mem _ hmem⟩

/-- A call makes unions within the files first and then those that add to the definitions; which they are does not depend on the
values. -/
structure MergesFiles (p : VariableFiles) (filename : Text) (incs : List Text) (collect extend : List (ℕ × ℕ))
    (res : Except MergeError (List (Text × ℕ × Text))) : Prop where
  run : ∀ σ, getAllMergedVariables p σ filename incs =
    ((σ.unions collect).unions extend, res.map fun merged => merged.map fun e => (e.1, (σ.unions collect).unions extend e.2.1))
  collect_sound : ∀ t s, (t, s) ∈ collect → p.Collects (filename :: incs) t s
  extend_sound : ∀ t s, (t, s) ∈ extend → ∃ var, p.Defines (filename :: incs) var t ∧ p.Adds (filename :: incs) var s
  functional : ∀ merged, res = .ok merged → Functional merged
  defined : ∀ merged, res = .ok merged → ∀ var ref, (∃ f, (var, ref, f) ∈ merged) ↔ p.Defines (filename :: incs) var ref
  collect_complete : ∀ merged, res = .ok merged → ∀ t s, p.Collects (filename :: incs) t s → t = s ∨ (t, s) ∈ collect
  extend_complete : ∀ merged, res = .ok merged → ∀ var s, p.Adds (filename :: incs) var s →
    ∃ t, p.Defines (filename :: incs) var t ∧ (t, s) ∈ extend

theorem getAllMergedVariables_merges (p : VariableFiles) (filename : Text) (incs : List Text) :
    ∃ collect extend res, MergesFiles p filename incs collect extend res := by
  cases hf : p.files filename with
  | none =>
    refine ⟨[], [], .error (.notListed filename), ⟨fun σ => ?_, fun _ _ h => (nomatch h), fun _ _ h => (nomatch h), ?_, ?_, ?_, ?_⟩⟩
    · rw [getAllMergedVariables, hf]
      rfl
    all_goals exact fun _ he => nomatch he
  | some rules =>
    obtain ⟨ops, varSet, varAdd, hm⟩ := getMergedVariables_merges rules (p.noRedefinition filename rules hf)
    -- what the main file gives is what an include gives that comes first
    have hmain : p.Collected [filename] (varSet.map fun (var, ref) => (var, ref, filename))
        (if varAdd = [] then [] else [(filename, varAdd)]) := by
      refine ⟨?_, fun var ref => ?_, fun f var s => ?_⟩
      · rintro var ⟨a, f⟩ ⟨b, g⟩ ha hb
        simp only [mem_map, Prod.mk.injEq, Prod.exists, existsAndEq, true_and] at ha hb
        obtain ⟨ha, rfl⟩ := ha
        obtain ⟨hb, rfl⟩ := hb
        rw [hm.functional _ _ _ ha hb]
      · rw [defines_singleton hf, ← hm.set]
        simp
      · split_ifs with hempty
        · have hnone : ¬ firstAdd rules var = some s := by simp [← hm.add, hempty]
          simp only [not_mem_nil, false_and, exists_const, false_iff, mem_singleton]
          rintro ⟨rfl, rules', hf', h⟩
          exact hnone (Option.some.inj (hf.symm.trans hf') ▸ h)
        · simp only [mem_singleton, Prod.mk.injEq]
          constructor
          · rintro ⟨vars, ⟨rfl, rfl⟩, h⟩
            exact ⟨rfl, rules, hf, (hm.add _ _).mp h⟩
          · rintro ⟨rfl, rules', hf', h⟩
            rw [← Option.some.inj (hf.symm.trans hf'), ← hm.add] at h
            exact ⟨varAdd, ⟨rfl, rfl⟩, h⟩
    obtain ⟨ops', res', hrun', hsound', hok'⟩ := mergeIncludes_spec filename hmain incs
    cases res' with
    | error e =>
      refine ⟨ops ++ ops', [], .error e, ⟨fun σ => ?_, fun t s h => ?_, fun _ _ h => (nomatch h), ?_, ?_, ?_, ?_⟩⟩
      · rw [getAllMergedVariables, hf]
        simp only [hm.run, hrun', ValueSets.unions_append]
        rfl
      · apply (@collects_append p [filename] incs t s).mpr
        exact (mem_append.mp h).imp (fun h => (collects_singleton hf).mpr (hm.sound t s h)) (hsound' t s)
      all_goals exact fun _ he => nomatch he
    | ok x =>
      obtain ⟨merged, incAdd⟩ := x
      obtain ⟨hc, hcomplete⟩ := hok' merged incAdd rfl
      obtain ⟨extend, res, hrun, hsound, hok⟩ := addVars_spec filename merged
        (incAdd.flatMap fun (file, vars) => vars.map fun (var, s) => (file, var, s))
      have hadds : ∀ var s, (∃ f, (f, var, s) ∈ incAdd.flatMap fun (file, vars) => vars.map fun (var, s) => (file, var, s)) ↔
          p.Adds (filename :: incs) var s := by
        intro var s
        have hf : ∀ f, ((f, var, s) ∈ incAdd.flatMap fun (file, vars) => vars.map fun (var, s) => (file, var, s)) ↔
            ∃ vars, (f, vars) ∈ incAdd ∧ (var, s) ∈ vars := by
          intro f
          simp [mem_flatMap]
        simp only [hf, hc.added]
        rfl
      have hlookup : ∀ var t, (∃ g, merged.lookup var = some (t, g)) ↔ p.Defines (filename :: incs) var t := by
        intro var t
        refine Iff.trans ?_ (hc.defined var t)
        exact exists_congr fun g => ⟨mem_of_lookup, hc.functional.lookup_eq⟩
      have hdone : ∀ {res'}, (res.map fun _ => merged) = .ok res' → res' = merged ∧ res = .ok () := by
        intro res' he
        cases res with
        | error e => exact nomatch he
        | ok u => exact ⟨(Except.ok.inj he).symm, rfl⟩
      refine ⟨ops ++ ops', extend, res.map fun _ => merged, fun σ => ?_, fun t s h => ?_, fun t s h => ?_, ?_, ?_, ?_, ?_⟩
      · rw [getAllMergedVariables, hf]
        simp only [hm.run, hrun', hrun, ValueSets.unions_append]
        cases res with
        | error e | ok u => rfl
      · apply (@collects_append p [filename] incs t s).mpr
        exact (mem_append.mp h).imp (fun h => (collects_singleton hf).mpr (hm.sound t s h)) (hsound' t s)
      · obtain ⟨f, var, g, hmem, hl⟩ := hsound t s h
        exact ⟨var, (hlookup var t).mp ⟨g, hl⟩, (hadds var s).mp ⟨f, hmem⟩⟩
      · intro res' he
        rw [(hdone he).1]
        exact hc.functional
      · intro res' he
        rw [(hdone he).1]
        exact hc.defined
      · intro res' he t s h
        rcases (@collects_append p [filename] incs t s).mp h with h | h
        · obtain ⟨r, hr, hadd, rfl, ht⟩ := (collects_singleton hf).mp h
          exact (hm.complete r hr hadd t ht).imp_right (mem_append_left _)
        · exact (hcomplete t s h).imp_right (mem_append_right _)
      · intro res' he var s h
        obtain ⟨f, hmem⟩ := (hadds var s).mpr h
        obtain ⟨t, g, hl, hop⟩ := hok (hdone he).2 f var s hmem
        exact ⟨t, (hlookup var t).mp ⟨g, hl⟩, hop⟩

structure MergeCall where
  filename : Text
  allIncfiles : List Text

namespace MergeCall

variable (p : VariableFiles) (σ : ValueSets) (c : MergeCall)

def files : List Text := c.filename :: c.allIncfiles

def run : ValueSets × Except MergeError (List (Text × Values)) := getAllMergedVariables p σ c.filename c.allIncfiles

structure IsUnion (result : List (Text × Values)) : Prop where
  functional : Functional result
  mem : ∀ var x, (∃ vals, (var, vals) ∈ result ∧ x ∈ vals.1) ↔ ∃ r, p.Has c.files r ∧ r.varname = var ∧ x ∈ (σ r.values).1

def Redundant : Prop := ∀ f ∈ c.files, ∀ rules, p.files f = some rules → ∀ r ∈ rules, r.mode = .add →
  (∀ t, firstAdd rules r.varname = some t → (σ r.values).1 ⊆ (σ t).1) ∧
    ∀ t, p.Defines c.files r.varname t → (σ r.values).1 ⊆ (σ t).1

variable {p σ c}

variable {var : Text} {result : List (Text × Values)}

theorem defines_unique {collect extend : List (ℕ × ℕ)} {merged : List (Text × ℕ × Text)}
    (h : MergesFiles p c.filename c.allIncfiles collect extend (.ok merged)) {t t' : ℕ}
    (ht : p.Defines c.files var t) (ht' : p.Defines c.files var t') : t = t' := by
  obtain ⟨f, hf⟩ := (h.defined merged rfl var t).mpr ht
  obtain ⟨f', hf'⟩ := (h.defined merged rfl var t').mpr ht'
  exact congrArg fst (h.functional merged rfl var _ _ hf hf')

def group (p : VariableFiles) (c : MergeCall) (var : Text) : Set ℕ := {u | ∃ r, p.Has c.files r ∧ r.varname = var ∧ r.values = u}

theorem group_collects {t s : ℕ} (h : p.Collects c.files t s) (ht : t ∈ c.group p var) : s ∈ c.group p var := by
  obtain ⟨f, hf, rules, hrules, r, hr, hadd, rfl, hfirst⟩ := h
  obtain ⟨r₀, hr₀, -, hvar, rfl⟩ := firstAdd_eq_some hfirst
  obtain ⟨r', ⟨g, hg, rules', hrules', hr'⟩, rfl, he⟩ := ht
  obtain ⟨-, rfl⟩ := p.own g f rules' rules hrules' hrules r' hr' r₀ hr₀ he
  exact ⟨r, ⟨f, hf, rules, hrules, hr⟩, hvar.symm, rfl⟩

theorem group_extends {t s : ℕ} (h : ∃ v, p.Defines c.files v t ∧ p.Adds c.files v s) (ht : t ∈ c.group p var) :
    s ∈ c.group p var := by
  obtain ⟨v, ⟨d, ⟨f, hf, rules, hrules, hd⟩, -, rfl, rfl⟩, f', hf', rules', hrules', hs⟩ := h
  obtain ⟨r₀, hr₀, -, hvar, rfl⟩ := firstAdd_eq_some hs
  obtain ⟨r', ⟨g, hg, rules'', hrules'', hr'⟩, rfl, he⟩ := ht
  obtain ⟨-, rfl⟩ := p.own g f rules'' rules hrules'' hrules r' hr' d hd he
  exact ⟨r₀, ⟨f', hf', rules', hrules', hr₀⟩, hvar, rfl⟩

theorem isUnion_of_run (h : (c.run p σ).2 = .ok result) : c.IsUnion p σ result := by
  obtain ⟨collect, extend, res, hm⟩ := getAllMergedVariables_merges p c.filename c.allIncfiles
  have hrun := hm.run σ
  rw [run, hrun] at h
  cases res with
  | error e => exact nomatch h
  | ok merged =>
    obtain rfl := Except.ok.inj h
    have hmem : ∀ var vals, (var, vals) ∈ (merged.map fun e => (e.1, (σ.unions collect).unions extend e.2.1)) ↔
        ∃ t, p.Defines c.files var t ∧ vals = (σ.unions collect).unions extend t := by
      intro var vals
      simp only [mem_map, Prod.mk.injEq, Prod.exists]
      constructor
      · rintro ⟨_, t, f, hmem, rfl, rfl⟩
        exact ⟨t, (hm.defined merged rfl _ t).mp ⟨f, hmem⟩, rfl⟩
      · rintro ⟨t, ht, rfl⟩
        obtain ⟨f, hmem⟩ := (hm.defined merged rfl var t).mpr ht
        exact ⟨var, t, f, hmem, rfl, rfl⟩
    refine ⟨?_, fun var x => ?_⟩
    · intro var a b ha hb
      obtain ⟨t, ht, rfl⟩ := (hmem var a).mp ha
      obtain ⟨t', ht', rfl⟩ := (hmem var b).mp hb
      rw [defines_unique hm ht ht']
    · constructor
      · rintro ⟨vals, hvals, hx⟩
        obtain ⟨t, ⟨d, hd, hset, rfl, rfl⟩, rfl⟩ := (hmem var vals).mp hvals
        -- the unions stay within the rules of the variable
        have hcollect : ∀ t s, (t, s) ∈ collect → t ∈ c.group p d.varname → s ∈ c.group p d.varname :=
          fun t s hop => group_collects (hm.collect_sound t s hop)
        have hextend : ∀ t s, (t, s) ∈ extend → t ∈ c.group p d.varname → s ∈ c.group p d.varname :=
          fun t s hop => group_extends (hm.extend_sound t s hop)
        have hstart : ∀ u ∈ c.group p d.varname, ∀ x ∈ (σ u).1, x ∈ {x | ∃ r, p.Has c.files r ∧ r.varname = d.varname ∧ x ∈ (σ r.values).1} := by
          rintro _ ⟨r, hr, hvar, rfl⟩ x hx
          exact ⟨r, hr, hvar, hx⟩
        exact ValueSets.unions_subset hextend (ValueSets.unions_subset hcollect hstart) d.values ⟨d, hd, rfl, rfl⟩ x hx
      · rintro ⟨r, hr, rfl, hx⟩
        cases hmode : r.mode with
        | set =>
          refine ⟨_, (hmem _ _).mpr ⟨r.values, ⟨r, hr, hmode, rfl, rfl⟩, rfl⟩, ?_⟩
          exact ValueSets.le_unions _ extend _ (ValueSets.le_unions σ collect _ hx)
        | add =>
          obtain ⟨f, hf, rules, hrules, hr⟩ := hr
          obtain ⟨s, hs⟩ := firstAdd_isSome hr hmode
          obtain ⟨t, ht, hop⟩ := hm.extend_complete merged rfl r.varname s ⟨f, hf, rules, hrules, hs⟩
          refine ⟨_, (hmem _ _).mpr ⟨t, ht, rfl⟩, ValueSets.subset_unions_of_mem _ hop ?_⟩
          rcases hm.collect_complete merged rfl s r.values ⟨f, hf, rules, hrules, r, hr, hmode, rfl, hs⟩ with rfl | hop'
          · exact ValueSets.le_unions σ collect _ hx
          · exact ValueSets.subset_unions_of_mem σ hop' hx

theorem run_unchanged (h : c.Redundant p σ) : (c.run p σ).1 = σ := by
  obtain ⟨collect, extend, res, hm⟩ := getAllMergedVariables_merges p c.filename c.allIncfiles
  have hrun := hm.run σ
  have hcollect : σ.unions collect = σ := by
    rw [ValueSets.unions_eq_self_iff]
    intro t s hop
    obtain ⟨f, hf, rules, hrules, r, hr, hadd, rfl, ht⟩ := hm.collect_sound t s hop
    exact (h f hf rules hrules r hr hadd).1 t ht
  have hextend : σ.unions extend = σ := by
    rw [ValueSets.unions_eq_self_iff]
    intro t s hop
    obtain ⟨var, ht, f, hf, rules, hrules, hs⟩ := hm.extend_sound t s hop
    obtain ⟨r, hr, hadd, rfl, rfl⟩ := firstAdd_eq_some hs
    exact (h f hf rules hrules r hr hadd).2 t ht
  rw [run, hrun]
  dsimp only
  rw [hcollect, hextend]

theorem redundant_of_unchanged (hret : (c.run p σ).2 = .ok result) (h : (c.run p σ).1 = σ) :
    c.Redundant p σ := by
  obtain ⟨collect, extend, res, hm⟩ := getAllMergedVariables_merges p c.filename c.allIncfiles
  have hrun := hm.run σ
  rw [run, hrun] at hret h
  cases res with
  | error e => exact nomatch hret
  | ok merged =>
    dsimp only at h
    rw [← ValueSets.unions_append, ValueSets.unions_eq_self_iff] at h
    have hfirst : ∀ {f rules}, f ∈ c.files → p.files f = some rules → ∀ r ∈ rules, r.mode = .add →
        ∀ t, firstAdd rules r.varname = some t → (σ r.values).1 ⊆ (σ t).1 := by
      intro f rules hf hrules r hr hadd t ht
      rcases hm.collect_complete merged rfl t r.values ⟨f, hf, rules, hrules, r, hr, hadd, rfl, ht⟩ with rfl | hop
      · exact Finset.Subset.refl _
      · exact h t r.values (mem_append_left _ hop)
    intro f hf rules hrules r hr hadd
    refine ⟨hfirst hf hrules r hr hadd, fun t ht => ?_⟩
    obtain ⟨s, hs⟩ := firstAdd_isSome hr hadd
    obtain ⟨t', ht', hop⟩ := hm.extend_complete merged rfl r.varname s ⟨f, hf, rules, hrules, hs⟩
    rw [defines_unique hm ht ht']
    exact (hfirst hf hrules r hr hadd s hs).trans (h t' s (mem_append_right _ hop))

theorem le_run (p : VariableFiles) (σ : ValueSets) (c : MergeCall) (u : ℕ) : (σ u).1 ⊆ ((c.run p σ).1 u).1 := by
  obtain ⟨collect, extend, res, hm⟩ := getAllMergedVariables_merges p c.filename c.allIncfiles
  have hrun := hm.run σ
  rw [run, hrun]
  exact (σ.le_unions collect u).trans (ValueSets.le_unions _ extend u)

end MergeCall

def runMergeCalls (p : VariableFiles) (σ : ValueSets) : List MergeCall →
    ValueSets × List (MergeCall × Except MergeError (List (Text × Values)))
  | [] => (σ, [])
  | c :: calls =>
    let out := c.run p σ
    let rest := runMergeCalls p out.1 calls
    (rest.1, (c, out.2) :: rest.2)

structure PureCalls (p : VariableFiles) (σ : ValueSets) (calls : List MergeCall) : Prop where
  unchanged : (runMergeCalls p σ calls).1 = σ
  union : ∀ c result, (c, .ok result) ∈ (runMergeCalls p σ calls).2 → c.IsUnion p σ result

theorem le_runMergeCalls (p : VariableFiles) (σ : ValueSets) (calls : List MergeCall) (u : ℕ) :
    (σ u).1 ⊆ ((runMergeCalls p σ calls).1 u).1 := by
  induction calls generalizing σ with
  | nil => exact Finset.Subset.refl _
  | cons c calls ih => exact (c.le_run p σ u).trans (ih _)

theorem pureCalls_cons {σ : ValueSets} {c : MergeCall} {calls : List MergeCall} :
    PureCalls p σ (c :: calls) ↔ (c.run p σ).1 = σ ∧ PureCalls p σ calls := by
  constructor
  · rintro ⟨hsame, hunion⟩
    have hfirst : (c.run p σ).1 = σ := by
      apply ValueSets.ext_of_le _ (c.le_run p σ)
      intro u
      have hle := le_runMergeCalls p (c.run p σ).1 calls u
      rw [runMergeCalls] at hsame
      dsimp only at hsame
      rwa [hsame] at hle
    rw [runMergeCalls] at hsame hunion
    dsimp only at hsame hunion
    rw [hfirst] at hsame hunion
    exact ⟨hfirst, hsame, fun c' result hmem => hunion c' result (mem_cons_of_mem _ hmem)⟩
  · rintro ⟨hfirst, hsame, hunion⟩
    constructor
    · rw [runMergeCalls]
      dsimp only
      rw [hfirst, hsame]
    · intro c' result hmem
      rw [runMergeCalls] at hmem
      dsimp only at hmem
      rw [hfirst] at hmem
      rcases mem_cons.mp hmem with he | hmem
      · obtain ⟨rfl, he⟩ := mk.inj he
        exact MergeCall.isUnion_of_run he.symm
      · exact hunion c' result hmem

/-- Calls with redundant additions are pure, and if calls that return are pure their additions are redundant. -/
theorem mergeCalls_pure (p : VariableFiles) (σ : ValueSets) (calls : List MergeCall) :
    ((∀ c ∈ calls, c.Redundant p σ) → PureCalls p σ calls) ∧
      ((∀ c ∈ calls, ∃ result, (c.run p σ).2 = .ok result) → PureCalls p σ calls → ∀ c ∈ calls, c.Redundant p σ) := by
  induction calls with
  | nil => exact ⟨fun _ => ⟨rfl, fun _ _ h => (nomatch h)⟩, fun _ _ _ h => (nomatch h)⟩
  | cons c calls ih =>
    rw [pureCalls_cons]
    constructor
    · intro h
      exact ⟨MergeCall.run_unchanged (h c mem_cons_self), ih.1 fun c' hc' => h c' (mem_cons_of_mem _ hc')⟩
    · rintro hret ⟨hfirst, hrest⟩ c' hc'
      rcases mem_cons.mp hc' with rfl | hc'
      · obtain ⟨result, hresult⟩ := hret c' mem_cons_self
        exact MergeCall.redundant_of_unchanged hresult hfirst
      · exact ih.2 (fun c'' hc'' => hret c'' (mem_cons_of_mem _ hc'')) hrest c' hc'

def sampleFiles : VariableFiles where
  files f :=
    if f = "tunables".toList then some [⟨"@\x7bx\x7d".toList, .set, 0⟩]
    else if f = "more".toList then some [⟨"@\x7bx\x7d".toList, .add, 1⟩]
    else if f ∈ ["first".toList, "second".toList] then some []
    else none
  noRedefinition f rules hf := by
    split_ifs at hf <;> cases hf <;> simp
  own f g rules rules' hf hg r hr r' hr' he := by
    split_ifs at hf hg <;> cases hf <;> cases hg <;> simp_all

def sampleValues : ValueSets := fun ref => if ref = 0 then ⟨{['a']}, by simp⟩ else ⟨{['b']}, by simp⟩

/-- The profile that includes `tunables` only gets the value from `more` as well, once a profile that includes both was asked for;
and the rule in `tunables` has it from then on. -/
theorem merged_variable_leaks :
    let out := runMergeCalls sampleFiles sampleValues
      [⟨"first".toList, ["tunables".toList, "more".toList]⟩, ⟨"second".toList, ["tunables".toList]⟩]
    (sampleValues 0).1 = {['a']} ∧ (out.1 0).1 = {['a'], ['b']} ∧
      (out.2.map fun call => call.2.toOption.map fun result => result.map fun e => e.2.1) =
        [some [{['a'], ['b']}], some [{['a'], ['b']}]] ∧
      ¬ MergeCall.IsUnion sampleFiles sampleValues ⟨"second".toList, ["tunables".toList]⟩
        [("@\x7bx\x7d".toList, ⟨{['a'], ['b']}, by simp⟩)] := by
  refine ⟨rfl, by decide +kernel, by decide +kernel, fun h => ?_⟩
  obtain ⟨r, ⟨f, hf, rules, hrules, hr⟩, -, hx⟩ := (h.mem "@\x7bx\x7d".toList ['b']).mp ⟨_, mem_cons_self, by simp⟩
  have htunables : ∀ f ∈ ["second".toList, "tunables".toList], ∀ rules, sampleFiles.files f = some rules →
      ∀ r ∈ rules, ['b'] ∉ (sampleValues r.values).1 := by
    decide +kernel
  exact htunables f hf rules hrules r hr hx

end AppArmor

import AppArmor.Lib.Dict
import AppArmor.Lib.Worklist
import AppArmor.Utils.Ruleset
import Mathlib

namespace AppArmor.Utils

open Fuel Worklist List

inductive PermValue
  | all
  | perms (s : Finset FilePerm)
  deriving DecidableEq

structure FileRule where
  path : Option Aare
  perms : PermValue
  deny : Bool
  audit : Bool
  owner : Bool
  bare : path = none → perms = .all

structure ProfileFile where
  rules : List FileRule
  includes : List Text

inductive PathArg
  | text (s : Text)
  | aare (a : Aare)

def matchPath (a : Aare) : PathArg → Option Bool
  | .text s => a.matchText s
  | .aare b => a.matchAare b

structure FilePerms where
  slots : (deny owner : Bool) → PermValue
  paths : Finset Text

section Query

variable (path : PathArg) (audit deny : Bool)

def ruleMatches (rule : FileRule) : Option Bool :=
  (rule.path.elim (some true) (matchPath · path)).map fun m => m && (!deny || rule.deny) && (!audit || rule.audit)

def getRulesForPath : List FileRule → Option (List FileRule)
  | [] => some []
  | rule :: rules => (ruleMatches path audit deny rule).bind fun m =>
    (getRulesForPath rules).map fun matching => if m then rule :: matching else matching

structure Collected where
  perms : (deny owner : Bool) → Finset FilePerm
  allPerms : (deny owner : Bool) → Bool
  paths : Finset Text

def collect (c : Collected) (rule : FileRule) : Collected :=
  match rule.perms with
  | .all => { c with allPerms := fun d o => c.allPerms d o || (d = rule.deny && o = rule.owner) }
  | .perms s =>
    if s = ∅ then c
    else
      { c with
        perms := fun d o => if d = rule.deny ∧ o = rule.owner then c.perms d o ∪ s else c.perms d o
        paths := c.paths ∪ (rule.path.map Aare.regex).toFinset }

def getPermsForPath (rules : List FileRule) : Option FilePerms :=
  (getRulesForPath path audit deny rules).map fun matching =>
    let c := matching.foldl collect ⟨fun _ _ => ∅, fun _ _ => false, ∅⟩
    ⟨fun d o => if c.allPerms d o then .all else .perms (c.perms d o), c.paths⟩

def absorb (s : Finset FilePerm) : Finset FilePerm := if .a ∈ s ∧ .w ∈ s then s.erase .a else s

def mergeSlot : PermValue → PermValue → Option PermValue
  | .perms s, .perms t => some (.perms (absorb (s ∪ t)))
  | _, _ => none

def mergeInclude (perms incperms : FilePerms) : Option FilePerms :=
  (mergeSlot (perms.slots false false) (incperms.slots false false)).bind fun allowAll =>
  (mergeSlot (perms.slots false true) (incperms.slots false true)).bind fun allowOwner =>
  (mergeSlot (perms.slots true false) (incperms.slots true false)).bind fun denyAll =>
  (mergeSlot (perms.slots true true) (incperms.slots true true)).map fun denyOwner =>
    ⟨fun d o => bif d then bif o then denyOwner else denyAll else bif o then allowOwner else allowAll,
      perms.paths ∪ incperms.paths⟩

def mergeIncludes (perms : FilePerms) : List ProfileFile → Option FilePerms
  | [] => some perms
  | file :: files => ((getPermsForPath path audit deny file.rules).bind (mergeInclude perms)).bind (mergeIncludes · files)

variable (included : List (Text × ProfileFile))

def includeListRecursive (fuel : ℕ) (profile : ProfileFile) : Option (Option (List Text)) :=
  walk (fun name => (included.lookup name).map ProfileFile.includes) fuel profile.includes []

def loadIncludes : List Text → Option (List ProfileFile)
  | [] => some []
  | name :: names => (included.lookup name).bind fun file => (loadIncludes names).map (file :: ·)

def getFilePerms (profile : ProfileFile) (fuel : ℕ) : Option (Option FilePerms) :=
  match getPermsForPath path audit deny profile.rules with
  | none => some none
  | some perms => (includeListRecursive included fuel profile).map fun names =>
    names.bind fun names => (loadIncludes included names).bind (mergeIncludes path audit deny perms)

end Query

/-! ### The union of the permissions -/

def Collects (R : FileRule → Prop) : PermValue → Prop
  | .all => ∃ rule, R rule ∧ rule.perms = .all
  | .perms s => (∀ rule, R rule → rule.perms ≠ .all) ∧ ∀ c, c ∈ s ↔ ∃ rule t, R rule ∧ rule.perms = .perms t ∧ c ∈ t

def absorbValue : PermValue → PermValue
  | .all => .all
  | .perms s => .perms (absorb s)

def Summarises (R : FileRule → Prop) (v : PermValue) : Prop := ∃ u, Collects R u ∧ v = absorbValue u

section Union

variable {R Q : FileRule → Prop} {u v : PermValue} {s t : Finset FilePerm}

theorem Collects.congr (h : Collects R u) (hq : ∀ rule, Q rule ↔ R rule) : Collects Q u := by
  have heq : Q = R := funext fun rule => propext (hq rule)
  rwa [heq]

theorem Collects.unique (hu : Collects R u) (hv : Collects R v) : u = v := by
  cases u with
  | all =>
    cases v with
    | all => rfl
    | perms t =>
      obtain ⟨rule, hr, hall⟩ := hu
      exact absurd hall (hv.1 rule hr)
  | perms s =>
    cases v with
    | all =>
      obtain ⟨rule, hr, hall⟩ := hv
      exact absurd hall (hu.1 rule hr)
    | perms t =>
      congr 1
      ext c
      rw [hu.2, hv.2]

theorem Collects.union (hs : Collects R (.perms s)) (ht : Collects Q (.perms t)) :
    Collects (fun rule => R rule ∨ Q rule) (.perms (s ∪ t)) := by
  refine ⟨fun rule hr => hr.elim (hs.1 rule) (ht.1 rule), fun c => ?_⟩
  rw [Finset.mem_union, hs.2, ht.2]
  constructor
  · rintro (⟨rule, p, hr, hp⟩ | ⟨rule, p, hr, hp⟩)
    · exact ⟨rule, p, .inl hr, hp⟩
    · exact ⟨rule, p, .inr hr, hp⟩
  · rintro ⟨rule, p, hr | hr, hp⟩
    · exact .inl ⟨rule, p, hr, hp⟩
    · exact .inr ⟨rule, p, hr, hp⟩

theorem mem_absorb {c : FilePerm} : c ∈ absorb s ↔ c ∈ s ∧ ¬ (c = .a ∧ .w ∈ s) := by
  rw [absorb]
  split_ifs with h
  · rw [Finset.mem_erase]
    grind
  · grind

theorem absorb_absorb_union (s t : Finset FilePerm) : absorb (absorb s ∪ t) = absorb (s ∪ t) := by
  ext c
  simp only [mem_absorb, Finset.mem_union]
  grind

theorem absorb_eq_self_iff : absorb s = s ↔ ¬ (.a ∈ s ∧ .w ∈ s) := by
  rw [absorb]
  split_ifs with h
  · simp [h]
  · simp [h]

end Union

/-! ### One file -/

section OneFile

variable {path : PathArg} {audit deny : Bool} {rules : List FileRule}

theorem getRulesForPath_none_iff :
    getRulesForPath path audit deny rules = none ↔ ∃ rule ∈ rules, ruleMatches path audit deny rule = none := by
  induction rules with
  | nil => simp [getRulesForPath]
  | cons rule rules ih =>
    rw [getRulesForPath, exists_mem_cons_iff, ← ih]
    cases hm : ruleMatches path audit deny rule with
    | none | some m => simp

theorem mem_getRulesForPath {matching : List FileRule} (h : getRulesForPath path audit deny rules = some matching)
    (rule : FileRule) : rule ∈ matching ↔ rule ∈ rules ∧ ruleMatches path audit deny rule = some true := by
  induction rules generalizing matching with
  | nil =>
    rw [getRulesForPath, Option.some.injEq] at h
    simp [← h]
  | cons first rules ih =>
    rw [getRulesForPath, Option.bind_eq_some_iff] at h
    obtain ⟨m, hm, h⟩ := h
    obtain ⟨rest, hrest, rfl⟩ := Option.map_eq_some_iff.mp h
    have hmem := ih hrest
    cases m with
    | true =>
      simp only [if_true, mem_cons, hmem]
      grind
    | false =>
      simp only [Bool.false_eq_true, if_false, mem_cons, hmem]
      grind

def Collecting (c : Collected) (R : FileRule → Prop) : Prop :=
  ∀ d o, (c.allPerms d o = true ↔ ∃ rule, (R rule ∧ rule.deny = d ∧ rule.owner = o) ∧ rule.perms = .all) ∧
    ∀ p, p ∈ c.perms d o ↔ ∃ rule t, (R rule ∧ rule.deny = d ∧ rule.owner = o) ∧ rule.perms = .perms t ∧ p ∈ t

theorem collecting_collect {c : Collected} {R : FileRule → Prop} (h : Collecting c R) (rule : FileRule) :
    Collecting (collect c rule) fun r => R r ∨ r = rule := by
  intro d o
  obtain ⟨hall, hperms⟩ := h d o
  cases hp : rule.perms with
  | all =>
    have hc : collect c rule = { c with allPerms := fun d o => c.allPerms d o || (d = rule.deny && o = rule.owner) } := by
      rw [collect, hp]
    rw [hc]
    dsimp only
    rw [Bool.or_eq_true, hall]
    grind
  | perms s =>
    rw [collect, hp]
    dsimp only
    split_ifs with hs
    · subst hs
      rw [hall]
      grind
    · dsimp only
      rw [hall]
      grind

theorem collecting_foldl {c : Collected} {R : FileRule → Prop} (h : Collecting c R) (rules : List FileRule) :
    Collecting (rules.foldl collect c) fun r => R r ∨ r ∈ rules := by
  induction rules generalizing c R with
  | nil => simpa using h
  | cons rule rules ih =>
    have hall := ih (collecting_collect h rule)
    simpa [or_assoc] using hall

def InSlot (path : PathArg) (audit deny d o : Bool) (rule : FileRule) : Prop :=
  ruleMatches path audit deny rule = some true ∧ rule.deny = d ∧ rule.owner = o

theorem getPermsForPath_none_iff :
    getPermsForPath path audit deny rules = none ↔ ∃ rule ∈ rules, ruleMatches path audit deny rule = none := by
  rw [getPermsForPath, Option.map_eq_none_iff, getRulesForPath_none_iff]

theorem getPermsForPath_collects {perms : FilePerms} (h : getPermsForPath path audit deny rules = some perms)
    (d o : Bool) : Collects (fun rule => rule ∈ rules ∧ InSlot path audit deny d o rule) (perms.slots d o) := by
  rw [getPermsForPath, Option.map_eq_some_iff] at h
  obtain ⟨matching, hm, rfl⟩ := h
  have hstart : Collecting ⟨fun _ _ => ∅, fun _ _ => false, ∅⟩ fun _ => False := by
    intro d o
    simp
  obtain ⟨hall, hperms⟩ := collecting_foldl hstart matching d o
  simp only [false_or, mem_getRulesForPath hm] at hall hperms
  dsimp only
  split_ifs with ha
  · obtain ⟨rule, ⟨⟨hmem, hmatch⟩, hd, ho⟩, hp⟩ := hall.mp ha
    exact ⟨rule, ⟨hmem, hmatch, hd, ho⟩, hp⟩
  · refine ⟨fun rule hr hp => ha (hall.mpr ⟨rule, ⟨⟨hr.1, hr.2.1⟩, hr.2.2⟩, hp⟩), fun c => ?_⟩
    rw [hperms]
    unfold InSlot
    simp only [and_assoc]

end OneFile

/-! ### The included files -/

section Includes

variable {path : PathArg} {audit deny : Bool} {perms incperms merged : FilePerms} {files : List ProfileFile}

theorem mergeSlot_eq_some {p q v : PermValue} :
    mergeSlot p q = some v ↔ ∃ s t, p = .perms s ∧ q = .perms t ∧ v = .perms (absorb (s ∪ t)) := by
  cases p <;> cases q <;> simp [mergeSlot, eq_comm]

theorem mergeInclude_eq_some (h : mergeInclude perms incperms = some merged) (d o : Bool) :
    mergeSlot (perms.slots d o) (incperms.slots d o) = some (merged.slots d o) := by
  simp only [mergeInclude, Option.bind_eq_some_iff, Option.map_eq_some_iff] at h
  obtain ⟨allowAll, h₁, allowOwner, h₂, denyAll, h₃, denyOwner, h₄, rfl⟩ := h
  cases d <;> cases o <;> assumption

theorem mergeInclude_none (h : mergeInclude perms incperms = none) :
    ∃ d o, perms.slots d o = .all ∨ incperms.slots d o = .all := by
  by_contra hno
  simp only [not_exists, not_or] at hno
  have hslot : ∀ d o, ∃ v, mergeSlot (perms.slots d o) (incperms.slots d o) = some v := by
    intro d o
    obtain ⟨hp, hq⟩ := hno d o
    cases hs : perms.slots d o with
    | all => exact absurd hs hp
    | perms s =>
      cases ht : incperms.slots d o with
      | all => exact absurd ht hq
      | perms t => exact ⟨_, rfl⟩
  obtain ⟨allowAll, h₁⟩ := hslot false false
  obtain ⟨allowOwner, h₂⟩ := hslot false true
  obtain ⟨denyAll, h₃⟩ := hslot true false
  obtain ⟨denyOwner, h₄⟩ := hslot true true
  simp [mergeInclude, h₁, h₂, h₃, h₄] at h

def Listed (files : List ProfileFile) (rule : FileRule) : Prop := ∃ file ∈ files, rule ∈ file.rules

theorem mergeIncludes_some (h : mergeIncludes path audit deny perms files = some merged) (hne : files ≠ []) (d o : Bool) :
    ∃ s t, perms.slots d o = .perms s ∧
      Collects (fun rule => Listed files rule ∧ InSlot path audit deny d o rule) (.perms t) ∧
      merged.slots d o = .perms (absorb (s ∪ t)) := by
  induction files generalizing perms with
  | nil => exact absurd rfl hne
  | cons file files ih =>
    rw [mergeIncludes, Option.bind_eq_some_iff] at h
    obtain ⟨next, hnext, hrest⟩ := h
    obtain ⟨incperms, hinc, hmerge⟩ := Option.bind_eq_some_iff.mp hnext
    obtain ⟨s, t, hs, ht, hv⟩ := mergeSlot_eq_some.mp (mergeInclude_eq_some hmerge d o)
    have hfile := getPermsForPath_collects hinc d o
    rw [ht] at hfile
    cases files with
    | nil =>
      rw [mergeIncludes, Option.some.injEq] at hrest
      refine ⟨s, t, hs, hfile.congr fun rule => ?_, hrest ▸ hv⟩
      simp [Listed]
    | cons file' files =>
      obtain ⟨s', t', hs', ht', hv'⟩ := ih hrest (cons_ne_nil _ _)
      rw [hv, PermValue.perms.injEq] at hs'
      refine ⟨s, t ∪ t', hs, (hfile.union ht').congr fun rule => ?_, ?_⟩
      · simp only [Listed, mem_cons]
        grind
      · rw [hv', ← hs', absorb_absorb_union, Finset.union_assoc]

theorem mergeIncludes_compiled (h : mergeIncludes path audit deny perms files = some merged) {rule : FileRule}
    (hl : Listed files rule) : ruleMatches path audit deny rule ≠ none := by
  induction files generalizing perms with
  | nil =>
    obtain ⟨file, hmem, -⟩ := hl
    exact absurd hmem not_mem_nil
  | cons file files ih =>
    rw [mergeIncludes, Option.bind_eq_some_iff] at h
    obtain ⟨next, hnext, hrest⟩ := h
    obtain ⟨incperms, hinc, -⟩ := Option.bind_eq_some_iff.mp hnext
    obtain ⟨file', hmem, hrule⟩ := hl
    rcases mem_cons.mp hmem with rfl | hmem
    · intro hm
      have hnone := getPermsForPath_none_iff.mpr ⟨rule, hrule, hm⟩
      rw [hinc] at hnone
      cases hnone
    · exact ih hrest ⟨file', hmem, hrule⟩

theorem mergeIncludes_none (h : mergeIncludes path audit deny perms files = none) :
    (∃ rule, Listed files rule ∧ ruleMatches path audit deny rule = none) ∨
      (files ≠ [] ∧ ∃ d o, perms.slots d o = .all) ∨
      ∃ rule, Listed files rule ∧ ruleMatches path audit deny rule = some true ∧ rule.perms = .all := by
  induction files generalizing perms with
  | nil => cases h
  | cons file files ih =>
    rw [mergeIncludes] at h
    cases hinc : getPermsForPath path audit deny file.rules with
    | none =>
      obtain ⟨rule, hmem, hm⟩ := getPermsForPath_none_iff.mp hinc
      exact .inl ⟨rule, ⟨file, mem_cons_self, hmem⟩, hm⟩
    | some incperms =>
      rw [hinc, Option.bind_some] at h
      cases hmerge : mergeInclude perms incperms with
      | none =>
        obtain ⟨d, o, hall | hall⟩ := mergeInclude_none hmerge
        · exact .inr (.inl ⟨cons_ne_nil _ _, d, o, hall⟩)
        · have hcol := getPermsForPath_collects hinc d o
          rw [hall] at hcol
          obtain ⟨rule, ⟨hmem, hslot⟩, hp⟩ := hcol
          exact .inr (.inr ⟨rule, ⟨file, mem_cons_self, hmem⟩, hslot.1, hp⟩)
      | some next =>
        rw [hmerge, Option.bind_some] at h
        have hlift : ∀ rule, Listed files rule → Listed (file :: files) rule := fun rule ⟨f, hf, hr⟩ =>
          ⟨f, mem_cons_of_mem _ hf, hr⟩
        rcases ih h with ⟨rule, hl, hm⟩ | ⟨-, d, o, hall⟩ | ⟨rule, hl, hm⟩
        · exact .inl ⟨rule, hlift rule hl, hm⟩
        · obtain ⟨s, t, -, -, hv⟩ := mergeSlot_eq_some.mp (mergeInclude_eq_some hmerge d o)
          rw [hall] at hv
          cases hv
        · exact .inr (.inr ⟨rule, hlift rule hl, hm⟩)

end Includes

/-! ### The whole profile -/

section Profile

variable (path : PathArg) (audit deny : Bool) (included : List (Text × ProfileFile)) (profile : ProfileFile)

def Included (name : Text) : Prop :=
  Reach (fun name => (included.lookup name).map ProfileFile.includes) profile.includes name

def InScope (rule : FileRule) : Prop :=
  rule ∈ profile.rules ∨ ∃ name file, Included included profile name ∧ included.lookup name = some file ∧ rule ∈ file.rules

def ReturnsUnion : Prop :=
  ∃ perms, Returns (getFilePerms path audit deny included profile) (some perms) ∧
    ∀ d o, Summarises (fun rule => InScope included profile rule ∧ InSlot path audit deny d o rule) (perms.slots d o)

/-- When it does: all files are loaded, all patterns compile, and if there are includes then no matching rule has all
permissions, and if there are none then no slot without all permissions has both `a` and `w`. -/
structure Mergeable : Prop where
  loaded : ∀ name, Included included profile name → included.lookup name ≠ none
  compiled : ∀ rule, InScope included profile rule → ruleMatches path audit deny rule ≠ none
  marker : profile.includes ≠ [] →
    ∀ rule, InScope included profile rule → ruleMatches path audit deny rule = some true → rule.perms ≠ .all
  append : profile.includes = [] → ∀ d o s, Collects (fun rule => rule ∈ profile.rules ∧ InSlot path audit deny d o rule)
    (.perms s) → ¬ (.a ∈ s ∧ .w ∈ s)

variable {path audit deny included profile}

theorem loadIncludes_some {names : List Text} (h : ∀ name ∈ names, included.lookup name ≠ none) :
    ∃ files, loadIncludes included names = some files ∧ (files = [] ↔ names = []) ∧
      ∀ rule, Listed files rule ↔ ∃ name ∈ names, ∃ file, included.lookup name = some file ∧ rule ∈ file.rules := by
  induction names with
  | nil => exact ⟨[], rfl, by simp, fun rule => by simp [Listed]⟩
  | cons name names ih =>
    obtain ⟨files, hfiles, -, hrules⟩ := ih fun n hn => h n (mem_cons_of_mem _ hn)
    cases hfile : included.lookup name with
    | none => exact absurd hfile (h name mem_cons_self)
    | some file =>
      refine ⟨file :: files, ?_, by simp, fun rule => ?_⟩
      · rw [loadIncludes, hfile, Option.bind_some, hfiles, Option.map_some]
      · have hcons : Listed (file :: files) rule ↔ rule ∈ file.rules ∨ Listed files rule := by
          simp [Listed]
        rw [hcons, hrules, exists_mem_cons_iff, hfile]
        simp

theorem includeListRecursive_returns (included : List (Text × ProfileFile)) (profile : ProfileFile) :
    ∃ r, Returns (includeListRecursive included · profile) r ∧
      Ends (fun name => (included.lookup name).map ProfileFile.includes) profile.includes r := by
  have hkeys : ∀ name, (included.lookup name).map ProfileFile.includes ≠ none → name ∈ included.map Prod.fst := by
    intro name hne
    obtain ⟨file, hfile⟩ := Option.ne_none_iff_exists'.mp (fun h => hne (by rw [h]; rfl) : included.lookup name ≠ none)
    exact mem_map.mpr ⟨_, mem_of_lookup hfile, rfl⟩
  apply walk_returns hkeys
  exact ⟨fun k hk => .start (hk.resolve_left not_mem_nil), fun k hk => .inr hk, fun k hk => absurd hk not_mem_nil⟩

theorem getFilePerms_returns (hloaded : ∀ name, Included included profile name → included.lookup name ≠ none)
    {perms : FilePerms} (hown : getPermsForPath path audit deny profile.rules = some perms) :
    ∃ files, (files = [] ↔ profile.includes = []) ∧
      (∀ rule, InScope included profile rule ↔ rule ∈ profile.rules ∨ Listed files rule) ∧
      Returns (getFilePerms path audit deny included profile) (mergeIncludes path audit deny perms files) := by
  obtain ⟨r, hr, hend⟩ := includeListRecursive_returns included profile
  cases r with
  | none =>
    obtain ⟨name, hreach, hnone⟩ := hend
    exact absurd (Option.map_eq_none_iff.mp hnone) (hloaded name hreach)
  | some names =>
    have hmem : ∀ name, name ∈ names ↔ Included included profile name := fun name => (hend name).1
    obtain ⟨files, hfiles, hempty, hrules⟩ := loadIncludes_some fun name hn => hloaded name ((hmem name).mp hn)
    refine ⟨files, ?_, fun rule => ?_, ?_⟩
    · rw [hempty]
      constructor
      · intro hnil
        rw [eq_nil_iff_forall_not_mem]
        intro name hn
        exact absurd ((hmem name).mpr (.start hn)) (by simp [hnil])
      · intro hnil
        rw [eq_nil_iff_forall_not_mem]
        intro name hn
        have hreach := (hmem name).mp hn
        clear hn
        induction hreach with
        | start hk => exact absurd hk (by simp [hnil])
        | step _ _ _ ih => exact ih
    · rw [InScope, hrules]
      apply or_congr_right
      constructor
      · rintro ⟨name, file, hinc, hfile, hrule⟩
        exact ⟨name, (hmem name).mpr hinc, file, hfile, hrule⟩
      · rintro ⟨name, hinc, file, hfile, hrule⟩
        exact ⟨name, file, (hmem name).mp hinc, hfile, hrule⟩
    · have hmap := hr.map fun names => names.bind fun names => (loadIncludes included names).bind
        (mergeIncludes path audit deny perms)
      rw [Option.bind_some, hfiles, Option.bind_some] at hmap
      apply hmap.congr
      intro fuel
      rw [getFilePerms, hown]

theorem returnsUnion_of_mergeable (h : Mergeable path audit deny included profile) :
    ReturnsUnion path audit deny included profile := by
  cases hown : getPermsForPath path audit deny profile.rules with
  | none =>
    obtain ⟨rule, hmem, hm⟩ := getPermsForPath_none_iff.mp hown
    exact absurd hm (h.compiled rule (.inl hmem))
  | some perms =>
    obtain ⟨files, hempty, hscope, hret⟩ := getFilePerms_returns h.loaded hown
    cases files with
    | nil =>
      refine ⟨perms, hret, fun d o => ⟨perms.slots d o, ?_, ?_⟩⟩
      · apply (getPermsForPath_collects hown d o).congr
        intro rule
        rw [hscope]
        simp [Listed]
      · have hcol := getPermsForPath_collects hown d o
        cases hs : perms.slots d o with
        | all => rfl
        | perms s =>
          rw [hs] at hcol
          rw [absorbValue, absorb_eq_self_iff.mpr (h.append (hempty.mp rfl) d o s hcol)]
    | cons file files =>
      have hne : profile.includes ≠ [] := fun hnil => cons_ne_nil _ _ (hempty.mpr hnil)
      cases hmerge : mergeIncludes path audit deny perms (file :: files) with
      | none =>
        rcases mergeIncludes_none hmerge with ⟨rule, hl, hm⟩ | ⟨-, d, o, hall⟩ | ⟨rule, hl, hm, hp⟩
        · exact absurd hm (h.compiled rule ((hscope rule).mpr (.inr hl)))
        · have hcol := getPermsForPath_collects hown d o
          rw [hall] at hcol
          obtain ⟨rule, ⟨hmem, hslot⟩, hp⟩ := hcol
          exact absurd hp (h.marker hne rule ((hscope rule).mpr (.inl hmem)) hslot.1)
        · exact absurd hp (h.marker hne rule ((hscope rule).mpr (.inr hl)) hm)
      | some merged =>
        rw [hmerge] at hret
        refine ⟨merged, hret, fun d o => ?_⟩
        obtain ⟨s, t, hs, ht, hv⟩ := mergeIncludes_some hmerge (cons_ne_nil _ _) d o
        have hcol := getPermsForPath_collects hown d o
        rw [hs] at hcol
        refine ⟨.perms (s ∪ t), (hcol.union ht).congr fun rule => ?_, hv⟩
        rw [hscope, or_and_right]

theorem mergeable_of_returnsUnion (h : ReturnsUnion path audit deny included profile) :
    Mergeable path audit deny included profile := by
  obtain ⟨merged, hret, hsum⟩ := h
  cases hown : getPermsForPath path audit deny profile.rules with
  | none =>
    have hnone : Returns (getFilePerms path audit deny included profile) none :=
      (Returns.pure _).congr fun fuel => by rw [getFilePerms, hown]
    cases hret.unique hnone
  | some perms =>
    have hloaded : ∀ name, Included included profile name → included.lookup name ≠ none := by
      obtain ⟨r, hr, hend⟩ := includeListRecursive_returns included profile
      cases r with
      | none =>
        have hnone : Returns (getFilePerms path audit deny included profile) none := by
          apply (hr.map fun names => names.bind fun names => (loadIncludes included names).bind
            (mergeIncludes path audit deny perms)).congr
          intro fuel
          rw [getFilePerms, hown]
        cases hret.unique hnone
      | some names =>
        intro name hinc hnone
        exact (hend name).2 ((hend name).1.mpr hinc) (Option.map_eq_none_iff.mpr hnone)
    obtain ⟨files, hempty, hscope, hret'⟩ := getFilePerms_returns hloaded hown
    have hmerge := hret'.unique hret
    refine ⟨hloaded, fun rule hr => ?_, fun hne rule hr hm hp => ?_, fun hnil d o s hs => ?_⟩
    · rcases (hscope rule).mp hr with hr | hr
      · intro hm
        rw [getPermsForPath_none_iff.mpr ⟨rule, hr, hm⟩] at hown
        cases hown
      · exact mergeIncludes_compiled hmerge hr
    · obtain ⟨s, t, hs, ht, -⟩ := mergeIncludes_some hmerge (fun h => hne (hempty.mp h)) rule.deny rule.owner
      have hcol := getPermsForPath_collects hown rule.deny rule.owner
      rw [hs] at hcol
      rcases (hscope rule).mp hr with hr | hr
      · exact hcol.1 rule ⟨hr, hm, rfl, rfl⟩ hp
      · exact ht.1 rule ⟨hr, hm, rfl, rfl⟩ hp
    · rw [hempty.mpr hnil, mergeIncludes, Option.some.injEq] at hmerge
      obtain ⟨u, hu, hv⟩ := hsum d o
      have hslot : perms.slots d o = .perms s := (getPermsForPath_collects hown d o).unique hs
      have hu' : u = .perms s := by
        apply hu.unique
        apply hs.congr
        intro rule
        rw [hscope, hempty.mpr hnil]
        simp [Listed]
      rw [← hmerge, hslot, hu', absorbValue, PermValue.perms.injEq] at hv
      exact absorb_eq_self_iff.mp hv.symm

theorem getFilePerms_union_iff :
    ReturnsUnion path audit deny included profile ↔ Mergeable path audit deny included profile :=
  ⟨mergeable_of_returnsUnion, returnsUnion_of_mergeable⟩

def pathRule (path : Text) (s : Finset FilePerm) : FileRule := ⟨some (.new path), .perms s, false, false, false, nofun⟩

def bareRule : FileRule := ⟨none, .all, false, false, false, fun _ => rfl⟩

def allowAll (r : Option (Option FilePerms)) : Option (Option PermValue) := r.map (Option.map fun p => p.slots false false)

/-- With an include, a bare `file,` rule in the profile raises, and without one `a` stays beside `w`. -/
theorem bare_rule_raises :
    allowAll (getFilePerms (.text "/f".toList) false false [("i".toList, ⟨[], []⟩)] ⟨[bareRule], ["i".toList]⟩ 3) = some none ∧
      allowAll (getFilePerms (.text "/f".toList) false false []
        ⟨[pathRule "/f".toList {.a}, pathRule "/f".toList {.w}], []⟩ 3) = some (some (.perms {.a, .w})) := by
  decide +kernel

end Profile

end AppArmor.Utils

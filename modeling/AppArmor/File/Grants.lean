import AppArmor.Glob.Tokens
import AppArmor.File.Entry
import AppArmor.Lib.MergeWalk
import Mathlib

namespace AppArmor

open Perm List Option

structure Grant where
  word : List Byte
  priority : ℤ
  mode : RuleMode
  exactMatch : Bool
  audited : Bool
  bit : ℕ

def RuleVec.grants (r : RuleVec) : Set Grant :=
  {g | g.word ∈ r.tree.byteWords ∧ g.priority = r.priority ∧ g.mode = r.mode ∧ g.exactMatch = r.tree.exactMatch ∧
    (if g.audited then r.audit else r.perms).getLsbD g.bit = true}

def grantsOf (rs : Option (List RuleVec)) : WithTop (Set Grant) :=
  match rs with
  | some rs => some (MergeWalk.total RuleVec.grants rs)
  | none => ⊤

theorem mem_total_grants {g : Grant} {rs : List RuleVec} :
    g ∈ MergeWalk.total RuleVec.grants rs ↔ ∃ r ∈ rs, g ∈ r.grants := by
  induction rs with
  | nil => simp [MergeWalk.total]
  | cons r rs ih =>
    rw [MergeWalk.total_cons, exists_mem_cons_iff, ← ih]
    rfl

def RuleVec.From (r : RuleVec) (e : CodEntry) (perms : Perm32) : Prop :=
  r.priority = e.priority ∧ r.mode = e.ruleMode ∧ r.perms = perms

theorem addRuleVec_from {e : CodEntry} {perms audit : Perm32} {first : Text} {others : List Text} {r : RuleVec}
    (h : e.addRuleVec perms audit first others = some r) : r.From e perms := by
  obtain ⟨t, -, htrees⟩ := bind_eq_some_iff.mp h
  obtain ⟨us, -, hvec⟩ := bind_eq_some_iff.mp htrees
  cases hvec
  exact ⟨rfl, rfl, rfl⟩

section Grants

variable {x y : Option (List RuleVec)}

@[simp]
theorem grantsOf_nil : grantsOf (some []) = ⊥ := rfl

theorem grantsOf_bind (x y : Option (List RuleVec)) :
    grantsOf (x.bind fun rs => y.map (rs ++ ·)) = grantsOf x ⊔ grantsOf y := by
  cases x with
  | none => exact (top_sup_eq _).symm
  | some rs =>
    cases y with
    | none => exact (sup_top_eq _).symm
    | some rs' => exact congrArg WithTop.some MergeWalk.total_append

theorem processEntries_cons (stacking : Bool) (e : CodEntry) (es : List CodEntry) :
    processEntries stacking (e :: es) =
      (e.process stacking).bind fun rs => (processEntries stacking es).map (rs ++ ·) := by
  unfold processEntries
  rw [mapM_cons]
  cases e.process stacking with
  | none => rfl
  | some rs => cases es.mapM (CodEntry.process stacking) <;> rfl

theorem grantsOf_processEntries (stacking : Bool) (es : List CodEntry) :
    grantsOf (processEntries stacking es) = MergeWalk.total (fun e => grantsOf (e.process stacking)) es := by
  induction es with
  | nil => rfl
  | cons e es ih => rw [MergeWalk.total_cons, ← ih, ← grantsOf_bind, processEntries_cons]

theorem mem_processEntries {stacking : Bool} {es : List CodEntry} {rs : List RuleVec}
    (h : processEntries stacking es = some rs) {r : RuleVec} :
    r ∈ rs ↔ ∃ e ∈ es, ∃ rs', e.process stacking = some rs' ∧ r ∈ rs' := by
  induction es generalizing rs with
  | nil =>
    cases h
    simp
  | cons e es ih =>
    rw [processEntries_cons] at h
    obtain ⟨rs₁, h₁, h⟩ := bind_eq_some_iff.mp h
    obtain ⟨rs₂, h₂, rfl⟩ := map_eq_some_iff.mp h
    rw [mem_append, ih h₂, exists_mem_cons_iff]
    simp [h₁]

theorem grantsOf_process (stacking : Bool) (e : CodEntry) :
    grantsOf (e.process stacking) =
      match convertEntry (if isChangeProfilePerms e.perms then e.name else filterSlashes e.name) with
      | some tbuf => grantsOf (e.addFileRule tbuf) ⊔ grantsOf (e.addLinkRule tbuf) ⊔
          grantsOf (e.addChangeProfileRules stacking tbuf)
      | none => ⊤ := by
  unfold CodEntry.process
  cases convertEntry (if isChangeProfilePerms e.perms then e.name else filterSlashes e.name) with
  | none => rfl
  | some tbuf =>
    dsimp only
    rw [← grantsOf_bind, ← grantsOf_bind, bind_eq_bind, bind_some]
    congr 1
    cases e.addFileRule tbuf with
    | none => rfl
    | some file => cases e.addLinkRule tbuf <;> cases e.addChangeProfileRules stacking tbuf <;> rfl

end Grants

end AppArmor

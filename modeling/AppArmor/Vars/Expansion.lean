import AppArmor.Vars.Symtab
import Mathlib.Logic.Hydra

namespace AppArmor

abbrev Definitions := Text → Option (List Text)

section Expansion

variable (D : Definitions)

/-- A text that a text expands to: its variable is replaced by an expanded value, and the outcome is read again. -/
inductive Expands : Text → Text → Prop
  | done {s} (h : extractVariable s = none) : Expands s s
  | step {s pre var suffix x v r t vs} (h : extractVariable s = some (pre, var, suffix))
      (hx : processVar var = some x) (hd : D x = some vs) (hv : v ∈ vs) (hr : Expands v r)
      (ht : Expands (pre ++ r ++ suffix) t) : Expands s t

def fullExpansion (x : Text) : Set Text := {t | ∃ vs, D x = some vs ∧ ∃ v ∈ vs, Expands D v t}

inductive Closed : Text → Prop
  | done {s} (h : extractVariable s = none) : Closed s
  | step {s pre var suffix x vs} (h : extractVariable s = some (pre, var, suffix))
      (hx : processVar var = some x) (hd : D x = some vs) (hvs : ∀ v ∈ vs, Closed v)
      (hrest : ∀ r ∈ fullExpansion D x, Closed (pre ++ r ++ suffix)) : Closed s

def ClosedVar (x : Text) : Prop := ∃ vs, D x = some vs ∧ ∀ v ∈ vs, Closed D v

def Replaced (s' s : Text) : Prop :=
  ∃ pre var suffix x, extractVariable s = some (pre, var, suffix) ∧ processVar var = some x ∧
    ∃ r ∈ fullExpansion D x, s' = pre ++ r ++ suffix

inductive Uses : Text → Text → Prop
  | here {s pre var suffix y} (h : extractVariable s = some (pre, var, suffix)) (hx : processVar var = some y) :
      Uses s y
  | later {s s' y} (h : Replaced D s' s) (hu : Uses s' y) : Uses s y

def Refers (x y : Text) : Prop := ∃ vs, D x = some vs ∧ ∃ v ∈ vs, Uses D v y

def Reaches (x y : Text) : Prop := Relation.ReflTransGen (Refers D) x y

end Expansion

section Lemmas

variable {D : Definitions} {s t x y pre var suffix : Text}

theorem closed_of_reference (h : Closed D s) (he : extractVariable s = some (pre, var, suffix)) :
    ∃ x, processVar var = some x ∧ ClosedVar D x ∧ ∀ r ∈ fullExpansion D x, Closed D (pre ++ r ++ suffix) := by
  cases h with
  | done h => rw [h] at he; cases he
  | step h hx hd hvs hrest =>
    rw [h] at he
    cases he
    exact ⟨_, hx, ⟨_, hd, hvs⟩, hrest⟩

theorem Closed.replaced (h : Closed D s) (hr : Replaced D t s) : Closed D t := by
  obtain ⟨pre, var, suffix, x, he, hx, r, hmem, rfl⟩ := hr
  obtain ⟨x', hx', -, hrest⟩ := closed_of_reference h he
  rw [hx] at hx'
  cases hx'
  exact hrest r hmem

theorem Closed.uses (h : Closed D s) (hu : Uses D s y) : ClosedVar D y := by
  induction hu with
  | here he hx =>
    obtain ⟨x, hx', hclosed, -⟩ := closed_of_reference h he
    rw [hx] at hx'
    cases hx'
    exact hclosed
  | later hr _ ih => exact ih (h.replaced hr)

theorem ClosedVar.refers (h : ClosedVar D x) (hr : Refers D x y) : ClosedVar D y := by
  obtain ⟨vs, hd, v, hv, hu⟩ := hr
  obtain ⟨vs', hd', hclosed⟩ := h
  rw [hd] at hd'
  cases hd'
  exact (hclosed v hv).uses hu

theorem ClosedVar.reaches (h : ClosedVar D x) (hr : Reaches D x y) : ClosedVar D y := by
  induction hr with
  | refl => exact h
  | tail _ hy ih => exact ih.refers hy

theorem Closed.acc_replaced (h : Closed D s) : Acc (Replaced D) s := by
  induction h with
  | done h =>
    refine ⟨_, fun t ht => ?_⟩
    obtain ⟨pre, var, suffix, x, he, -⟩ := ht
    rw [h] at he
    cases he
  | step h hx hd _ _ _ ih =>
    refine ⟨_, fun t ht => ?_⟩
    obtain ⟨pre, var, suffix, y, he, hy, r, hr, rfl⟩ := ht
    rw [h] at he
    cases he
    rw [hx] at hy
    cases hy
    exact ih r hr

theorem Closed.acc_uses (h : Closed D s) (hu : Uses D s y) : Acc (fun y x => Refers D x y) y := by
  induction h generalizing y with
  | done h =>
    cases hu with
    | here he => rw [h] at he; cases he
    | later hr =>
      obtain ⟨pre, var, suffix, x, he, -⟩ := hr
      rw [h] at he
      cases he
  | step h hx hd _ _ ihv ihr =>
    cases hu with
    | here he hy =>
      rw [h] at he
      cases he
      rw [hx] at hy
      cases hy
      refine ⟨_, fun z hz => ?_⟩
      obtain ⟨vs, hd', v, hv, hu⟩ := hz
      rw [hd] at hd'
      cases hd'
      exact ihv v hv hu
    | later hr hu =>
      obtain ⟨pre, var, suffix, z, he, hz, r, hr, rfl⟩ := hr
      rw [h] at he
      cases he
      rw [hx] at hz
      cases hz
      exact ihr r hr hu

theorem ClosedVar.acc (h : ClosedVar D x) : Acc (fun y x => Refers D x y) x := by
  obtain ⟨vs, hd, hclosed⟩ := h
  refine ⟨_, fun y hy => ?_⟩
  obtain ⟨vs', hd', v, hv, hu⟩ := hy
  rw [hd] at hd'
  cases hd'
  exact (hclosed v hv).acc_uses hu

theorem ClosedVar.acyclic (h : ClosedVar D x) (hxy : Refers D x y) : ¬ Reaches D y x := by
  have hacc := h.acc
  clear h
  induction hacc generalizing y with
  | intro x _ ih =>
    intro hyx
    -- the cycle is entered one step further along
    rcases Relation.ReflTransGen.cases_head hyx with rfl | ⟨z, hyz, hzx⟩
    · exact ih y hxy hxy Relation.ReflTransGen.refl
    · exact ih y hxy hyz (hzx.tail hxy)

theorem Closed.expands (hne : ∀ x vs, D x = some vs → vs ≠ []) (h : Closed D s) : ∃ t, Expands D s t := by
  induction h with
  | done h => exact ⟨_, .done h⟩
  | step h hx hd _ _ ihv ihr =>
    obtain ⟨v, hv⟩ := List.exists_mem_of_ne_nil _ (hne _ _ hd)
    obtain ⟨r, hr⟩ := ihv v hv
    obtain ⟨t, ht⟩ := ihr r ⟨_, hd, v, hv, hr⟩
    exact ⟨t, .step h hx hd hv hr ht⟩

theorem expands_iff (he : extractVariable s = some (pre, var, suffix)) (hx : processVar var = some x) :
    Expands D s t ↔ ∃ r ∈ fullExpansion D x, Expands D (pre ++ r ++ suffix) t := by
  constructor
  · intro h
    cases h with
    | done h => rw [h] at he; cases he
    | step h hx' hd hv hr ht =>
      rw [h] at he
      cases he
      rw [hx] at hx'
      cases hx'
      exact ⟨_, ⟨_, hd, _, hv, hr⟩, ht⟩
  · rintro ⟨r, ⟨vs, hd, v, hv, hr⟩, ht⟩
    exact .step he hx hd hv hr ht

theorem expands_none (he : extractVariable s = none) : Expands D s t ↔ t = s := by
  constructor
  · intro h
    cases h with
    | done h => rfl
    | step h => rw [h] at he; cases he
  · rintro rfl
    exact .done he

end Lemmas

end AppArmor

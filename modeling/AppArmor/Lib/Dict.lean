import Mathlib.Data.List.Basic
import Mathlib.Tactic

namespace AppArmor

open List

section Dict

variable {α β : Type} [DecidableEq α] {d : List (α × β)} {k k' : α} {v v' : β}

def setItem (d : List (α × β)) (k : α) (v : β) : List (α × β) :=
  if d.any (·.1 = k) then d.map fun e => if e.1 = k then (k, v) else e else d ++ [(k, v)]

theorem mem_setItem : (k', v') ∈ setItem d k v ↔ (k' = k ∧ v' = v) ∨ (k' ≠ k ∧ (k', v') ∈ d) := by
  unfold setItem
  split_ifs with h
  · obtain ⟨⟨a, b⟩, hab, hk⟩ := any_eq_true.mp h
    obtain rfl : a = k := by simpa using hk
    rw [mem_map]
    constructor
    · rintro ⟨⟨c, w⟩, hc, he⟩
      dsimp only at he
      split_ifs at he with hca
      · exact Or.inl ⟨(Prod.mk.inj he).1.symm, (Prod.mk.inj he).2.symm⟩
      · obtain ⟨rfl, rfl⟩ := Prod.mk.inj he
        exact Or.inr ⟨hca, hc⟩
    · rintro (⟨rfl, rfl⟩ | ⟨hne, hmem⟩)
      · exact ⟨(k', b), hab, if_pos rfl⟩
      · exact ⟨(k', v'), hmem, if_neg hne⟩
  · have hno : (k, v') ∉ d := fun hmem => h (any_eq_true.mpr ⟨_, hmem, by simp⟩)
    rw [mem_append, mem_singleton, Prod.mk.injEq]
    constructor
    · rintro (hmem | he)
      · exact Or.inr ⟨fun hk => hno (hk ▸ hmem), hmem⟩
      · exact Or.inl he
    · rintro (he | ⟨-, hmem⟩)
      · exact Or.inr he
      · exact Or.inl hmem

def Functional (d : List (α × β)) : Prop := ∀ k a b, (k, a) ∈ d → (k, b) ∈ d → a = b

theorem Functional.setItem (h : Functional d) (k : α) (v : β) : Functional (setItem d k v) := by
  intro k' a b ha hb
  rw [mem_setItem] at ha hb
  rcases ha with ⟨rfl, rfl⟩ | ⟨hne, ha⟩
  · rcases hb with ⟨-, rfl⟩ | ⟨hne, -⟩
    · rfl
    · exact absurd rfl hne
  · rcases hb with ⟨rfl, -⟩ | ⟨-, hb⟩
    · exact absurd rfl hne
    · exact h k' a b ha hb

end Dict

section Lookup

variable {α β : Type} [BEq α] [LawfulBEq α] {d : List (α × β)} {k : α} {v : β}

theorem lookup_isSome (h : (k, v) ∈ d) : d.lookup k ≠ none := by
  rw [Ne, lookup_eq_none_iff]
  intro hall
  have := hall (k, v) h
  simp at this

theorem mem_of_lookup (h : d.lookup k = some v) : (k, v) ∈ d := by
  obtain ⟨l₁, l₂, rfl, -⟩ := lookup_eq_some_iff.mp h
  simp

theorem Functional.lookup_eq (h : Functional d) (hmem : (k, v) ∈ d) : d.lookup k = some v := by
  cases hl : d.lookup k with
  | none => exact absurd hl (lookup_isSome hmem)
  | some w => rw [h k w v (mem_of_lookup hl) hmem]

end Lookup

end AppArmor

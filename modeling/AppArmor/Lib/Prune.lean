import Mathlib.Data.List.Pairwise
import Mathlib.Tactic

namespace Prune

open List

variable {α : Type}

inductive Pruned (P : α → Prop) : List α → List α → Prop
  | nil : Pruned P [] []
  | keep {a l l'} : Pruned P l l' → Pruned P (a :: l) (a :: l')
  | drop {a l l'} : P a → Pruned P l l' → Pruned P (a :: l) l'

variable {P Q : α → Prop} {l l' l'' : List α}

theorem Pruned.mono (h : Pruned P l l') (hPQ : ∀ a ∈ l, P a → Q a) : Pruned Q l l' := by
  induction h with
  | nil => exact .nil
  | keep _ ih => exact .keep (ih fun a ha => hPQ a (mem_cons_of_mem _ ha))
  | drop hP _ ih => exact .drop (hPQ _ mem_cons_self hP) (ih fun a ha => hPQ a (mem_cons_of_mem _ ha))

theorem Pruned.sublist (h : Pruned P l l') : l'.Sublist l := by
  induction h with
  | nil => exact .slnil
  | keep _ ih => exact .cons_cons _ ih
  | drop _ _ ih => exact .cons _ ih

theorem Pruned.trans (h : Pruned P l l') (h' : Pruned P l' l'') : Pruned P l l'' := by
  induction h generalizing l'' with
  | nil => exact h'
  | keep _ ih =>
    cases h' with
    | keep h' => exact .keep (ih h')
    | drop hP h' => exact .drop hP (ih h')
  | drop hP _ ih => exact .drop hP (ih h')

theorem Pruned.append {m m' : List α} (h : Pruned P l l') (h' : Pruned P m m') : Pruned P (l ++ m) (l' ++ m') := by
  induction h with
  | nil => exact h'
  | keep _ ih => exact .keep ih
  | drop hP _ ih => exact .drop hP ih

theorem Pruned.reverse (h : Pruned P l l') : Pruned P l.reverse l'.reverse := by
  induction h with
  | nil => exact .nil
  | keep _ ih =>
    rw [reverse_cons, reverse_cons]
    exact ih.append (.keep .nil)
  | @drop a l l' hP _ ih =>
    have happend : Pruned P (l.reverse ++ [a]) (l'.reverse ++ []) := ih.append (.drop hP .nil)
    rwa [append_nil, ← reverse_cons] at happend

theorem Pruned.mem_or (h : Pruned P l l') {a : α} (ha : a ∈ l) : a ∈ l' ∨ P a := by
  induction h with
  | nil => exact nomatch ha
  | keep _ ih =>
    rcases mem_cons.mp ha with rfl | ha
    · exact Or.inl mem_cons_self
    · exact (ih ha).imp_left (mem_cons_of_mem _)
  | drop hP _ ih =>
    rcases mem_cons.mp ha with rfl | ha
    · exact Or.inr hP
    · exact ih ha

theorem Pruned.refl (P : α → Prop) (l : List α) : Pruned P l l := by
  induction l with
  | nil => exact .nil
  | cons a l ih => exact .keep ih

end Prune

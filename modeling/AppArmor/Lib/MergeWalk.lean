import Mathlib.Order.Lattice
import Mathlib.Order.BoundedOrder.Lattice
import Mathlib.Data.List.Basic

/-! Merging the neighbours of a sorted list. -/

namespace MergeWalk

variable {α M : Type*} [SemilatticeSup M] [OrderBot M]

def total (f : α → M) (l : List α) : M := l.foldr (fun a m => f a ⊔ m) ⊥

section Total

variable {f g : α → M} {l l' : List α} {a : α}

theorem total_cons : total f (a :: l) = f a ⊔ total f l := rfl

theorem total_append : total f (l ++ l') = total f l ⊔ total f l' := by
  induction l with
  | nil => exact (bot_sup_eq _).symm
  | cons a l ih => rw [List.cons_append, total_cons, total_cons, ih, sup_assoc]

theorem total_perm (h : l.Perm l') : total f l = total f l' := by
  induction h with
  | nil => rfl
  | cons a _ ih => rw [total_cons, total_cons, ih]
  | swap a b l => exact sup_left_comm _ _ _
  | trans _ _ ih ih' => exact ih.trans ih'

end Total

variable (same : α → α → Bool) (merge : α → α → Option α)

def walk : α → List α → Option (List α)
  | cur, [] => some [cur]
  | cur, next :: l =>
    if same cur next then
      match merge cur next with
      | some c => walk c l
      | none => none
    else (walk next l).map (cur :: ·)

theorem walk_total {f : α → M} {P : α → Prop}
    (hmerge : ∀ {a b c}, P a → P b → same a b = true → merge a b = some c → P c ∧ f c = f a ⊔ f b)
    {cur : α} {l l' : List α} (hcur : P cur) (hl : ∀ a ∈ l, P a) (h : walk same merge cur l = some l') :
    total f l' = total f (cur :: l) := by
  induction l generalizing cur l' with
  | nil =>
    obtain rfl := Option.some.inj h
    rfl
  | cons next l ih =>
    obtain ⟨hnext, hl⟩ := List.forall_mem_cons.mp hl
    rw [walk] at h
    split_ifs at h with hsame
    · cases hc : merge cur next with
      | none =>
        rw [hc] at h
        cases h
      | some c =>
        rw [hc] at h
        obtain ⟨hP, hf⟩ := hmerge hcur hnext hsame hc
        rw [ih hP hl h, total_cons, hf, total_cons, total_cons, sup_assoc]
    · obtain ⟨rest, hrest, rfl⟩ := Option.map_eq_some_iff.mp h
      rw [total_cons, ih hnext hl hrest, total_cons (a := cur)]

end MergeWalk

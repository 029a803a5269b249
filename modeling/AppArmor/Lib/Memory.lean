import Mathlib.Data.List.GetD
import Mathlib.Tactic

namespace AppArmor.Memory

open List

variable {α : Type}

def copy (mem : ℕ → α) (pos : ℕ) (src : List α) : ℕ → α := fun i =>
  if pos ≤ i then src.getD (i - pos) (mem i) else mem i

def Holds (mem : ℕ → α) (pos : ℕ) (l : List α) : Prop := ∀ i, (h : i < l.length) → mem (pos + i) = l[i]

variable {mem : ℕ → α} {pos : ℕ} {l l' src : List α}

theorem holds_copy (mem : ℕ → α) (pos : ℕ) (src : List α) : Holds (copy mem pos src) pos src := by
  intro i hi
  rw [copy, if_pos (Nat.le_add_right pos i), Nat.add_sub_cancel_left, getD_eq_getElem _ _ hi]

theorem Holds.frame (h : Holds mem pos l) {at' : ℕ} (hd : pos + l.length ≤ at' ∨ at' + src.length ≤ pos) :
    Holds (copy mem at' src) pos l := by
  intro i hi
  rw [copy, ← h i hi]
  split_ifs with hle
  · rw [getD_eq_default]
    omega
  · rfl

theorem Holds.append (h : Holds mem pos l) (h' : Holds mem (pos + l.length) l') : Holds mem pos (l ++ l') := by
  intro i hi
  by_cases hlt : i < l.length
  · rw [getElem_append_left hlt, h i hlt]
  · have hi' := h' (i - l.length) (by rw [length_append] at hi; omega)
    rw [getElem_append_right (by omega), ← hi']
    congr 1
    omega

theorem Holds.snoc (h : Holds mem pos l) {at' : ℕ} (hat : at' = pos + l.length) (src : List α) :
    Holds (copy mem at' src) pos (l ++ src) := by
  subst hat
  exact (h.frame (.inl le_rfl)).append (holds_copy mem _ src)

theorem Holds.read (h : Holds mem 0 l) {n : ℕ} (hn : n ≤ l.length) : (List.range n).map mem = l.take n := by
  apply ext_getElem
  · rw [length_map, length_range, length_take, Nat.min_eq_left hn]
  · intro i hi hi'
    rw [length_map, length_range] at hi
    have hget := h i (by omega)
    rw [getElem_map, getElem_range, getElem_take, ← hget, Nat.zero_add]

end AppArmor.Memory

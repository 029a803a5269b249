import Mathlib.Order.Basic
import Mathlib.Tactic

namespace AppArmor.Fuel

variable {α β : Type}

def Returns (f : ℕ → Option α) (a : α) : Prop := ∃ n, ∀ fuel, n ≤ fuel → f fuel = some a

variable {f : ℕ → Option α} {g : ℕ → α → Option β} {a : α} {b : β}

theorem Returns.pure (a : α) : Returns (fun _ => some a) a := ⟨0, fun _ _ => rfl⟩

theorem Returns.congr {f' : ℕ → Option α} (h : Returns f a) (hf : ∀ fuel, f' fuel = f fuel) : Returns f' a := by
  obtain ⟨n, hn⟩ := h
  exact ⟨n, fun fuel hle => (hf fuel).trans (hn fuel hle)⟩

theorem Returns.bind (hf : Returns f a) (hg : Returns (g · a) b) : Returns (fun fuel => (f fuel).bind (g fuel)) b := by
  obtain ⟨n, hn⟩ := hf
  obtain ⟨m, hm⟩ := hg
  refine ⟨max n m, fun fuel hle => ?_⟩
  dsimp only
  rw [hn fuel ((le_max_left n m).trans hle)]
  exact hm fuel ((le_max_right n m).trans hle)

theorem Returns.map (hf : Returns f a) (h : α → β) : Returns (fun fuel => (f fuel).map h) (h a) := by
  obtain ⟨n, hn⟩ := hf
  refine ⟨n, fun fuel hle => ?_⟩
  dsimp only
  rw [hn fuel hle, Option.map_some]

theorem Returns.step (h : Returns (fun fuel => f (fuel + 1)) a) : Returns f a := by
  obtain ⟨n, hn⟩ := h
  refine ⟨n + 1, fun fuel hle => ?_⟩
  obtain ⟨k, rfl⟩ := Nat.exists_eq_add_of_le' (show 1 ≤ fuel by omega)
  exact hn k (by omega)

theorem Returns.unique {a' : α} (h : Returns f a) (h' : Returns f a') : a = a' := by
  obtain ⟨n, hn⟩ := h
  obtain ⟨m, hm⟩ := h'
  have he := (hn (max n m) (le_max_left n m)).symm.trans (hm (max n m) (le_max_right n m))
  exact Option.some.inj he

end AppArmor.Fuel

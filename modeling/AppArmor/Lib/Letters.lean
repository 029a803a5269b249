import Mathlib.Computability.Language

open Computability

/-! Languages read through a map of their letters. -/

namespace Letters

open List Language

variable {α β : Type} {f : α → β} {L M : Language β} {w : List α}

def comap (f : α → β) (L : Language β) : Language α := {w | w.map f ∈ L}

theorem mem_comap : w ∈ comap f L ↔ w.map f ∈ L := Iff.rfl

theorem comap_one : comap f 1 = 1 := by
  ext w
  rw [mem_comap, mem_one, mem_one, map_eq_nil_iff]

theorem comap_add : comap f (L + M) = comap f L + comap f M := rfl

theorem comap_mul : comap f (L * M) = comap f L * comap f M := by
  ext w
  rw [mem_comap, mem_mul, mem_mul]
  constructor
  · rintro ⟨a, ha, b, hb, he⟩
    obtain ⟨u, v, rfl, rfl, rfl⟩ := map_eq_append_iff.mp he.symm
    exact ⟨u, ha, v, hb, rfl⟩
  · rintro ⟨u, hu, v, hv, rfl⟩
    exact ⟨u.map f, hu, v.map f, hv, map_append.symm⟩

theorem comap_kstar : comap f L∗ = (comap f L)∗ := by
  ext w
  rw [mem_comap, mem_kstar, mem_kstar]
  constructor
  · rintro ⟨ws, he, hws⟩
    induction ws generalizing w with
    | nil => exact ⟨[], map_eq_nil_iff.mp he, by simp⟩
    | cons x ws ih =>
      obtain ⟨hx, hrest⟩ := forall_mem_cons.mp hws
      obtain ⟨u, v, rfl, rfl, hv⟩ := map_eq_append_iff.mp he
      obtain ⟨vs, rfl, hvs⟩ := ih v hv hrest
      exact ⟨u :: vs, rfl, forall_mem_cons.mpr ⟨hx, hvs⟩⟩
  · rintro ⟨ws, rfl, hws⟩
    exact ⟨ws.map (map f), map_flatten, forall_mem_map.mpr hws⟩

end Letters

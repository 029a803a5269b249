import Mathlib.Data.Set.Basic
import Mathlib.Tactic

namespace Colouring

variable {α : Type*}

def Refines (f g : α → Option ℕ) : Prop := ∀ x y, g x = g y → f x = f y

def Separates (g : α → Option ℕ) (S : Set α) : Prop := ∀ x y, g x = g y → (x ∈ S ↔ y ∈ S)

structure Numbered (g : α → Option ℕ) (n : ℕ) : Prop where
  pos : 0 < n
  range : ∀ x k, g x = some k → 0 < k ∧ k < n
  used : ∀ k, 0 < k → k < n → ∃ x, g x = some k

def paint (f : α → Option ℕ) (S : Set α) [DecidablePred (· ∈ S)] (n : ℕ) (x : α) : Option ℕ := if x ∈ S then some n else f x

variable {f g h : α → Option ℕ} {S : Set α} {n : ℕ}

theorem Refines.refl (f : α → Option ℕ) : Refines f f := fun _ _ h => h

theorem Refines.trans (hfg : Refines f g) (hgh : Refines g h) : Refines f h := fun x y he => hfg x y (hgh x y he)

theorem Separates.mono (hs : Separates f S) (hr : Refines f g) : Separates g S := fun x y he => hs x y (hr x y he)

section Paint

variable [DecidablePred (· ∈ S)]

theorem paint_of_mem {x : α} (hx : x ∈ S) : paint f S n x = some n := if_pos hx

theorem paint_of_notMem {x : α} (hx : x ∉ S) : paint f S n x = f x := if_neg hx

theorem paint_congr {x y : α} (hf : f x = f y) (hS : x ∈ S ↔ y ∈ S) : paint f S n x = paint f S n y := by
  by_cases hx : x ∈ S
  · rw [paint_of_mem hx, paint_of_mem (hS.mp hx)]
  · rw [paint_of_notMem hx, paint_of_notMem fun hy => hx (hS.mpr hy), hf]

theorem Numbered.separates_paint (hf : Numbered f n) : Separates (paint f S n) S := by
  have hin : ∀ x y, x ∈ S → paint f S n x = paint f S n y → y ∈ S := by
    intro x y hx he
    by_contra hy
    rw [paint_of_mem hx, paint_of_notMem hy] at he
    exact lt_irrefl n (hf.range y n he.symm).2
  exact fun x y he => ⟨fun hx => hin x y hx he, fun hy => hin y x hy he.symm⟩

theorem Numbered.refines_paint (hf : Numbered f n) (hone : ∀ x ∈ S, ∀ y ∈ S, f x = f y) : Refines f (paint f S n) := by
  intro x y he
  have hiff := hf.separates_paint x y he
  by_cases hx : x ∈ S
  · exact hone x hx y (hiff.mp hx)
  · rwa [paint_of_notMem hx, paint_of_notMem fun hy => hx (hiff.mpr hy)] at he

theorem Numbered.paint (hf : Numbered f n) (hne : S.Nonempty) (hleft : ∀ k x, x ∈ S → f x = some k → ∃ y ∉ S, f y = some k) :
    Numbered (paint f S n) (n + 1) := by
  have hpos := hf.pos
  refine ⟨by omega, fun x k hk => ?_, fun k h₀ hk => ?_⟩
  · by_cases hx : x ∈ S
    · rw [paint_of_mem hx] at hk
      obtain rfl := Option.some.inj hk
      omega
    · rw [paint_of_notMem hx] at hk
      have := hf.range x k hk
      omega
  · rcases Nat.lt_succ_iff_lt_or_eq.mp hk with hk | rfl
    · obtain ⟨x, hx⟩ := hf.used k h₀ hk
      by_cases hxS : x ∈ S
      · obtain ⟨y, hy, hyk⟩ := hleft k x hxS hx
        exact ⟨y, by rw [paint_of_notMem hy, hyk]⟩
      · exact ⟨x, by rw [paint_of_notMem hxS, hx]⟩
    · obtain ⟨x, hx⟩ := hne
      exact ⟨x, paint_of_mem hx⟩

end Paint

theorem Numbered.le_card (hg : Numbered g n) {keys : Finset α} (hkeys : ∀ x, (g x).isSome → x ∈ keys) : n ≤ keys.card + 1 := by
  classical
  have hsub : Finset.Ico 1 n ⊆ keys.image fun x => (g x).getD 0 := by
    intro k hk
    obtain ⟨hk₁, hk₂⟩ := Finset.mem_Ico.mp hk
    obtain ⟨x, hx⟩ := hg.used k hk₁ hk₂
    refine Finset.mem_image.mpr ⟨x, hkeys x (by rw [hx]; rfl), ?_⟩
    rw [hx]
    rfl
  have hcard := (Finset.card_le_card hsub).trans Finset.card_image_le
  rw [Nat.card_Ico] at hcard
  omega

end Colouring

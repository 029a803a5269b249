import Mathlib.Data.List.Perm.Basic
import Mathlib.Tactic

namespace AppArmor.RankFold

open List Option

variable {α β : Type} (rank : α → ℤ) (op : β → α → Option β) (empty : β)

/-- One step of a fold that keeps only the elements of highest rank: a lower rank is skipped,
a higher one starts over from `empty`. -/
def step (s : ℤ × β) (a : α) : Option (ℤ × β) :=
  if rank a < s.1 then some s
  else (op (if s.1 < rank a then empty else s.2) a).map (rank a, ·)

def run (k₀ : ℤ) (l : List α) : Option (ℤ × β) := l.foldlM (step rank op empty) (k₀, empty)

def atRank (k : ℤ) (l : List α) : List α := l.filter (fun a => rank a = k)

def level (k : ℤ) (l : List α) : Option β := (atRank rank k l).foldlM op empty

variable {rank op empty} {k₀ : ℤ} {l l' : List α}

variable {k : ℤ}

theorem mem_atRank {a : α} : a ∈ atRank rank k l ↔ a ∈ l ∧ rank a = k := by
  simp [atRank]

theorem atRank_perm (h : l.Perm l') (k : ℤ) : (atRank rank k l).Perm (atRank rank k l') := h.filter _

theorem atRank_self (h : ∀ a ∈ l, rank a = k) : atRank rank k l = l :=
  filter_eq_self.mpr (by simpa using h)

def Outcome (rank : α → ℤ) (op : β → α → Option β) (empty : β) (k₀ : ℤ) (l : List α) :
    Option (ℤ × β) → Prop
  | none => ∃ k, k₀ ≤ k ∧ level rank op empty k l = none
  | some (k, b) => k₀ ≤ k ∧ level rank op empty k l = some b ∧ (∀ a ∈ l, rank a ≤ k) ∧
      (k₀ < k → ∃ a ∈ l, rank a = k)

theorem level_concat (k : ℤ) (l : List α) (a : α) :
    level rank op empty k (l ++ [a]) =
      if rank a = k then (level rank op empty k l).bind (op · a) else level rank op empty k l := by
  by_cases h : rank a = k
  · simp [level, atRank, filter_append, foldlM_append, h]
  · simp [level, atRank, filter_append, h]

theorem run_concat (l : List α) (a : α) :
    run rank op empty k₀ (l ++ [a]) = (run rank op empty k₀ l).bind (step rank op empty · a) := by
  simp [run, foldlM_append]

theorem run_outcome (l : List α) : Outcome rank op empty k₀ l (run rank op empty k₀ l) := by
  -- the invariant is over prefixes, so the induction peels the last element
  induction l using reverseRecOn with
  | nil => simp [run, Outcome, level, atRank]
  | append_singleton l a ih =>
    rw [run_concat]
    cases hr : run rank op empty k₀ l with
    | none =>
      rw [hr] at ih
      obtain ⟨k, hk, hl⟩ := ih
      exact ⟨k, hk, by rw [level_concat, hl]; simp⟩
    | some s =>
      obtain ⟨k, b⟩ := s
      rw [hr] at ih
      obtain ⟨hk, hl, hle, hex⟩ := ih
      rcases lt_trichotomy (rank a) k with h | h | h
      · have hs : step rank op empty (k, b) a = some (k, b) := by simp [step, h]
        rw [bind_some, hs]
        refine ⟨hk, by rw [level_concat, if_neg h.ne, hl], ?_, ?_⟩
        · intro x hx
          rcases mem_append.mp hx with hx | hx
          · exact hle x hx
          · rw [mem_singleton.mp hx]; exact h.le
        · intro hlt
          obtain ⟨x, hx, hxk⟩ := hex hlt
          exact ⟨x, mem_append_left _ hx, hxk⟩
      · have hs : step rank op empty (k, b) a = (op b a).map (k, ·) := by simp [step, h]
        have hl' : level rank op empty k (l ++ [a]) = op b a := by
          rw [level_concat, if_pos h, hl, bind_some]
        rw [bind_some, hs]
        cases ho : op b a with
        | none => exact ⟨k, hk, by rw [hl', ho]⟩
        | some c =>
          refine ⟨hk, by rw [hl', ho], ?_, fun _ => ⟨a, by simp, h⟩⟩
          intro x hx
          rcases mem_append.mp hx with hx | hx
          · exact hle x hx
          · rw [mem_singleton.mp hx]; exact h.le
      · have hs : step rank op empty (k, b) a = (op empty a).map (rank a, ·) := by
          simp [step, h, not_lt.mpr h.le]
        have hnil : atRank rank (rank a) l = [] := by
          apply filter_eq_nil_iff.mpr
          intro x hx
          have := hle x hx
          simp only [decide_eq_true_eq]
          omega
        have hl' : level rank op empty (rank a) (l ++ [a]) = op empty a := by
          rw [level_concat, if_pos rfl, level, hnil]; simp
        rw [bind_some, hs]
        cases ho : op empty a with
        | none => exact ⟨rank a, by omega, by rw [hl', ho]⟩
        | some c =>
          refine ⟨by omega, by rw [hl', ho], ?_, fun _ => ⟨a, by simp, rfl⟩⟩
          intro x hx
          rcases mem_append.mp hx with hx | hx
          · have := hle x hx; omega
          · rw [mem_singleton.mp hx]

theorem run_none_level (h : run rank op empty k₀ l = none) :
    ∃ k, k₀ ≤ k ∧ level rank op empty k l = none := by
  have := @run_outcome α β rank op empty k₀ l
  rwa [h] at this

theorem run_some_level {b : β} (h : run rank op empty k₀ l = some (k, b)) :
    k₀ ≤ k ∧ level rank op empty k l = some b ∧ (∀ a ∈ l, rank a ≤ k) ∧
      (k₀ < k → ∃ a ∈ l, rank a = k) := by
  have := @run_outcome α β rank op empty k₀ l
  rwa [h] at this

theorem run_none_of_top (hk : k₀ ≤ k) (htop : ∀ a ∈ l, rank a ≤ k)
    (h : level rank op empty k l = none) : run rank op empty k₀ l = none := by
  cases hr : run rank op empty k₀ l with
  | none => rfl
  | some s =>
    obtain ⟨j, b⟩ := s
    obtain ⟨hj, hl, hle, hex⟩ := run_some_level hr
    have hne : atRank rank k l ≠ [] := by
      intro he
      simp [level, he] at h
    obtain ⟨a, ha⟩ := exists_mem_of_ne_nil _ hne
    obtain ⟨hal, hak⟩ := mem_atRank.mp ha
    have hkj : k ≤ j := hak ▸ hle a hal
    rcases hkj.eq_or_lt with rfl | hlt
    · rw [hl] at h; cases h
    · obtain ⟨x, hx, hxj⟩ := hex (by omega)
      have := htop x hx
      omega

theorem run_none_of_prefix (hk : k₀ ≤ k) (hl : ∀ a ∈ l, rank a = k)
    (h : l.foldlM op empty = none) (rest : List α) : run rank op empty k₀ (l ++ rest) = none := by
  have hr : run rank op empty k₀ l = none := by
    apply run_none_of_top hk (fun a ha => (hl a ha).le)
    rwa [level, atRank_self hl]
  rw [run, foldlM_append]
  change (run rank op empty k₀ l).bind _ = none
  rw [hr, bind_none]

theorem run_skip {b : β} (h : ∀ a ∈ l, rank a < k) : l.foldlM (step rank op empty) (k, b) = some (k, b) := by
  induction l with
  | nil => rfl
  | cons a l ih =>
    have ha : step rank op empty (k, b) a = some (k, b) := by simp [step, h a (by simp)]
    rw [foldlM_cons, ha]
    exact ih (fun x hx => h x (mem_cons_of_mem _ hx))

theorem run_top_first (hk : k₀ ≤ k) (hl : ∀ a ∈ l, rank a = k) (hne : k₀ < k → l ≠ [])
    (hl' : ∀ a ∈ l', rank a < k) :
    run rank op empty k₀ (l ++ l') = (l.foldlM op empty).map (k, ·) := by
  cases hf : l.foldlM op empty with
  | none => exact run_none_of_prefix hk hl hf l'
  | some b =>
    have hlev : ∀ j c, run rank op empty k₀ l = some (j, c) → j = k ∧ c = b := by
      intro j c hr
      obtain ⟨hj, hlc, hle, hex⟩ := run_some_level hr
      have hjk : j = k := by
        rcases hj.eq_or_lt with rfl | hlt
        · by_contra hne'
          obtain ⟨a, ha⟩ := exists_mem_of_ne_nil _ (hne (by omega))
          have := hle a ha
          have := hl a ha
          omega
        · obtain ⟨x, hx, hxj⟩ := hex hlt
          exact hxj ▸ hl x hx
      subst hjk
      rw [level, atRank_self hl, hf] at hlc
      exact ⟨rfl, (some.inj hlc).symm⟩
    rw [run, foldlM_append]
    change (run rank op empty k₀ l).bind _ = _
    cases hr : run rank op empty k₀ l with
    | none =>
      obtain ⟨j, _, hj⟩ := run_none_level hr
      by_cases hjk : j = k
      · subst hjk
        rw [level, atRank_self hl, hf] at hj
        cases hj
      · have : atRank rank j l = [] := by
          apply filter_eq_nil_iff.mpr
          intro a ha
          simp [hl a ha, Ne.symm hjk]
        simp [level, this] at hj
    | some s =>
      obtain ⟨rfl, rfl⟩ := hlev s.1 s.2 hr
      rw [bind_some]
      exact run_skip hl'

def topRank (rank : α → ℤ) (k₀ : ℤ) (l : List α) : ℤ := (l.map rank).foldr max k₀

theorem le_topRank : k₀ ≤ topRank rank k₀ l := by
  induction l with
  | nil => exact le_rfl
  | cons a l ih => exact ih.trans (le_max_right _ _)

theorem rank_le_topRank {a : α} (h : a ∈ l) : rank a ≤ topRank rank k₀ l := by
  induction l with
  | nil => cases h
  | cons b l ih =>
    rcases mem_cons.mp h with rfl | h
    · exact le_max_left _ _
    · exact (ih h).trans (le_max_right _ _)

theorem topRank_attained (h : k₀ < topRank rank k₀ l) : ∃ a ∈ l, rank a = topRank rank k₀ l := by
  induction l with
  | nil => exact absurd h (lt_irrefl _)
  | cons b l ih =>
    have he : topRank rank k₀ (b :: l) = max (rank b) (topRank rank k₀ l) := rfl
    rcases le_total (topRank rank k₀ l) (rank b) with hb | hb
    · exact ⟨b, by simp, by rw [he, max_eq_left hb]⟩
    · rw [he, max_eq_right hb] at h ⊢
      obtain ⟨a, ha, hr⟩ := ih h
      exact ⟨a, mem_cons_of_mem _ ha, hr⟩

theorem topRank_le (hk : k₀ ≤ k) (h : ∀ a ∈ l, rank a ≤ k) : topRank rank k₀ l ≤ k := by
  by_contra hlt
  obtain ⟨a, ha, hr⟩ := topRank_attained (show k₀ < topRank rank k₀ l by omega)
  have := h a ha
  omega

theorem topRank_perm (h : l.Perm l') : topRank rank k₀ l = topRank rank k₀ l' := by
  apply le_antisymm
  · exact topRank_le le_topRank fun a ha => rank_le_topRank (h.mem_iff.mp ha)
  · exact topRank_le le_topRank fun a ha => rank_le_topRank (h.mem_iff.mpr ha)

theorem run_some_top {b : β} (h : run rank op empty k₀ l = some (k, b)) : k = topRank rank k₀ l := by
  obtain ⟨hk, _, hle, hex⟩ := run_some_level h
  apply le_antisymm
  · rcases hk.eq_or_lt with rfl | hlt
    · exact le_topRank
    · obtain ⟨a, ha, rfl⟩ := hex hlt
      exact rank_le_topRank ha
  · exact topRank_le hk hle

end AppArmor.RankFold

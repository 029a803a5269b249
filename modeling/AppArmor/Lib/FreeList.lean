import Mathlib.Data.List.Basic
import Mathlib.Data.List.Range
import Mathlib.Data.List.TakeWhile
import Mathlib.Tactic

namespace AppArmor.FreeList

open List Function

structure Links where
  first : ℕ
  prev : ℕ → ℕ
  next : ℕ → ℕ

def unlink (s : Links) (a : ℕ) : Links where
  first := if a = s.first then s.next a else s.first
  prev := if s.next a ≠ 0 then Function.update s.prev (s.next a) (s.prev a) else s.prev
  next := if s.prev a ≠ 0 then Function.update s.next (s.prev a) (s.next a) else s.next

def appendStep (a : Links × ℕ) (i : ℕ) : Links × ℕ :=
  ({ a.1 with
      prev := Function.update a.1.prev i a.2
      next := if a.2 ≠ 0 then Function.update a.1.next a.2 i else a.1.next }, i)

def append (s : Links) (last start stop : ℕ) : Links :=
  let r := (List.range' start (stop - start)).foldl appendStep (s, last)
  { r.1 with next := Function.update r.1.next (stop - 1) 0 }

def find (s : Links) (p : ℕ → Bool) : ℕ → ℕ → ℕ → Option (ℕ × ℕ)
  | _, prev, 0 => some (prev, 0)
  | 0, _, _ + 1 => none
  | fuel + 1, prev, x + 1 => if p (x + 1) then some (prev, x + 1) else find s p fuel (x + 1) (s.next (x + 1))

def Chain (s : Links) : ℕ → List ℕ → Prop
  | _, [] => True
  | p, a :: l => s.prev a = p ∧ s.next a = l.headD 0 ∧ Chain s a l

structure Holds (s : Links) (l : List ℕ) : Prop where
  first : s.first = l.headD 0
  chain : Chain s 0 l
  pos : ∀ a ∈ l, 0 < a
  sorted : l.Pairwise (· < ·)

variable {s : Links} {l l₁ l₂ : List ℕ} {a p : ℕ}

theorem Chain.congr {s' : Links} (h : Chain s p l) (hprev : ∀ b ∈ l, s'.prev b = s.prev b)
    (hnext : ∀ b ∈ l, s'.next b = s.next b) : Chain s' p l := by
  induction l generalizing p with
  | nil => trivial
  | cons b l ih =>
    obtain ⟨hb, hn, hl⟩ := h
    refine ⟨?_, ?_, ?_⟩
    · rw [hprev b (by simp), hb]
    · rw [hnext b (by simp), hn]
    · apply ih hl
      · exact fun c hc => hprev c (mem_cons_of_mem b hc)
      · exact fun c hc => hnext c (mem_cons_of_mem b hc)

theorem Chain.at (h : Chain s p (l₁ ++ a :: l₂)) : s.prev a = l₁.getLastD p ∧ s.next a = l₂.headD 0 := by
  induction l₁ generalizing p with
  | nil => exact ⟨h.1, h.2.1⟩
  | cons b l₁ ih =>
    have hb := ih h.2.2
    rwa [getLastD_cons]

theorem Chain.suffix (h : Chain s p (l₁ ++ l₂)) : Chain s (l₁.getLastD p) l₂ := by
  induction l₁ generalizing p with
  | nil => exact h
  | cons b l₁ ih =>
    rw [getLastD_cons]
    exact ih h.2.2

theorem getLastD_append : (l₁ ++ l₂).getLastD p = l₂.getLastD (l₁.getLastD p) := by
  induction l₁ generalizing p with
  | nil => rfl
  | cons b l₁ ih => rw [cons_append, getLastD_cons, getLastD_cons, ih]

theorem unlink_next_of_ne {c : ℕ} (h : c ≠ s.prev a) : (unlink s a).next c = s.next c := by
  unfold unlink
  dsimp only
  split_ifs
  · exact update_of_ne h _ _
  · rfl

theorem unlink_prev_of_ne {c : ℕ} (h : c ≠ s.next a) : (unlink s a).prev c = s.prev c := by
  unfold unlink
  dsimp only
  split_ifs
  · exact update_of_ne h _ _
  · rfl

theorem unlink_next_prev (h : s.prev a ≠ 0) : (unlink s a).next (s.prev a) = s.next a := by
  unfold unlink
  dsimp only
  rw [if_pos h, update_self]

theorem unlink_prev_next (h : s.next a ≠ 0) : (unlink s a).prev (s.next a) = s.prev a := by
  unfold unlink
  dsimp only
  rw [if_pos h, update_self]

theorem Chain.unlink_tail (hl : Chain s a l) (hnext : s.next a = l.headD 0) (hnd : l.Nodup) (hpos : ∀ b ∈ l, 0 < b)
    (hp : s.prev a ∉ l) : Chain (unlink s a) (s.prev a) l := by
  cases l with
  | nil => trivial
  | cons b l =>
    obtain ⟨hb, hn, hl⟩ := hl
    rw [headD_cons] at hnext
    rw [mem_cons, not_or] at hp
    refine ⟨?_, ?_, ?_⟩
    · rw [← hnext]
      apply unlink_prev_next
      rw [hnext]
      exact (hpos b (by simp)).ne'
    · rw [unlink_next_of_ne (Ne.symm hp.1), hn]
    · apply hl.congr
      · intro c hc
        apply unlink_prev_of_ne
        rw [hnext]
        exact fun he => (nodup_cons.mp hnd).1 (he ▸ hc)
      · intro c hc
        apply unlink_next_of_ne
        exact fun he => hp.2 (he ▸ hc)

theorem Chain.unlink (h : Chain s p (l₁ ++ a :: l₂)) (hnd : (p :: (l₁ ++ a :: l₂)).Nodup)
    (hpos : ∀ b ∈ l₁ ++ a :: l₂, 0 < b) : Chain (unlink s a) p (l₁ ++ l₂) := by
  induction l₁ generalizing p with
  | nil =>
    obtain ⟨hprev, hnext, hl⟩ := h
    rw [nil_append] at hnd hpos
    rw [← hprev] at hnd ⊢
    rw [nodup_cons, mem_cons, not_or, nodup_cons] at hnd
    exact hl.unlink_tail hnext hnd.2.2 (fun b hb => hpos b (mem_cons_of_mem a hb)) hnd.1.2
  | cons b l₁ ih =>
    have hat := h.2.2.at
    obtain ⟨hb, hn, hl⟩ := h
    have hnd' := (nodup_cons.mp hnd).2
    have hbl : b ∉ l₁ ++ a :: l₂ := (nodup_cons.mp hnd').1
    refine ⟨?_, ?_, ih hl hnd' fun c hc => hpos c (mem_cons_of_mem b hc)⟩
    · -- `b` is not the element after `a`
      rw [unlink_prev_of_ne, hb]
      rw [hat.2]
      rintro rfl
      cases l₂ with
      | nil => exact absurd (hpos 0 (by simp)) (lt_irrefl 0)
      | cons c l₂ => simp at hbl
    · cases l₁ with
      | nil =>
        have hprev : s.prev a = b := hat.1
        have hb0 : s.prev a ≠ 0 := hprev ▸ (hpos b (by simp)).ne'
        rw [← hprev, unlink_next_prev hb0, hat.2]
        rfl
      | cons c l₁ =>
        rw [unlink_next_of_ne, hn]
        · simp
        · rw [hat.1, getLastD_cons]
          rintro rfl
          apply hbl
          apply mem_append_left
          exact getLastD_mem_cons

theorem Holds.nodup (h : Holds s l) : l.Nodup := h.sorted.imp fun h => h.ne

theorem Holds.zero_notMem (h : Holds s l) : 0 ∉ l := fun h₀ => lt_irrefl 0 (h.pos 0 h₀)

theorem Holds.unlink (h : Holds s (l₁ ++ a :: l₂)) : Holds (unlink s a) (l₁ ++ l₂) := by
  have hsub : (l₁ ++ l₂).Sublist (l₁ ++ a :: l₂) := (sublist_cons_self a l₂).append_left l₁
  refine ⟨?_, ?_, fun b hb => h.pos b (hsub.subset hb), h.sorted.sublist hsub⟩
  · have hat := h.chain.at
    unfold FreeList.unlink
    dsimp only
    rw [h.first, hat.2]
    cases l₁ with
    | nil => simp
    | cons b l₁ =>
      rw [if_neg, cons_append, cons_append, headD_cons, headD_cons]
      have hnd := h.nodup
      rw [cons_append, nodup_cons] at hnd
      simp only [cons_append, headD_cons]
      rintro rfl
      simp at hnd
  · exact h.chain.unlink (nodup_cons.mpr ⟨h.zero_notMem, h.nodup⟩) h.pos

theorem find_spec (q : ℕ → Bool) (fuel prev : ℕ) (h : Chain s p l) (hpos : ∀ b ∈ l, 0 < b)
    (hfuel : l.length ≤ fuel) : find s q fuel prev (l.headD 0) =
      some ((l.takeWhile fun b => !q b).getLastD prev, (l.dropWhile fun b => !q b).headD 0) := by
  induction l generalizing p prev fuel with
  | nil => cases fuel <;> rfl
  | cons b l ih =>
    obtain ⟨_, hn, hl⟩ := h
    cases fuel with
    | zero => simp at hfuel
    | succ fuel =>
      obtain ⟨c, rfl⟩ := Nat.exists_eq_succ_of_ne_zero (hpos b (by simp)).ne'
      rw [headD_cons, find]
      by_cases hq : q (c + 1)
      · simp [hq]
      · have hstep := ih fuel (c + 1) hl (fun d hd => hpos d (mem_cons_of_mem _ hd)) (by simpa using hfuel)
        have hq' : (!q (c + 1)) = true := by simpa using hq
        rw [if_neg hq, hn, hstep]
        simp only [takeWhile_cons, dropWhile_cons, Nat.succ_eq_add_one, hq', if_true, getLastD_cons]

theorem Holds.find (h : Holds s (l₁ ++ l₂)) (q : ℕ → Bool) {fuel : ℕ} (hfuel : l₂.length ≤ fuel) :
    ∃ m₁ m₂, l₂ = m₁ ++ m₂ ∧ find s q fuel (l₁.getLastD 0) (l₂.headD 0) = some ((l₁ ++ m₁).getLastD 0, m₂.headD 0) ∧
      (∀ a ∈ m₁, q a = false) ∧ ∀ a ∈ m₂.head?, q a = true := by
  refine ⟨l₂.takeWhile fun b => !q b, l₂.dropWhile fun b => !q b, takeWhile_append_dropWhile.symm, ?_, ?_, ?_⟩
  · rw [find_spec q fuel _ h.chain.suffix (fun b hb => h.pos b (mem_append_right _ hb)) hfuel, getLastD_append]
  · intro a ha
    simpa using mem_takeWhile_imp ha
  · intro a ha
    have hnot := head?_dropWhile_not (fun b => !q b) l₂
    rw [Option.mem_def] at ha
    rw [ha] at hnot
    simpa using hnot

def Open (s : Links) : ℕ → List ℕ → Prop
  | _, [] => True
  | p, [a] => s.prev a = p
  | p, a :: b :: l => s.prev a = p ∧ s.next a = b ∧ Open s a (b :: l)

theorem Chain.toOpen (h : Chain s p l) : Open s p l := by
  induction l generalizing p with
  | nil => trivial
  | cons a l ih =>
    cases l with
    | nil => exact h.1
    | cons b l => exact ⟨h.1, h.2.1, ih h.2.2⟩

theorem Open.appendStep {i : ℕ} (h : Open s p l) (hnd : l.Nodup) (hpos : ∀ b ∈ l, 0 < b) (hi : i ∉ l) :
    Open (appendStep (s, l.getLastD p) i).1 p (l ++ [i]) := by
  have hprev : ∀ b ≠ i, (FreeList.appendStep (s, l.getLastD p) i).1.prev b = s.prev b := fun b hb =>
    update_of_ne hb _ _
  induction l generalizing p with
  | nil => exact update_self ..
  | cons a l ih =>
    rw [mem_cons, not_or] at hi
    cases l with
    | nil =>
      have ha : a ≠ 0 := (hpos a (by simp)).ne'
      refine ⟨?_, ?_, ?_⟩
      · rw [hprev a (Ne.symm hi.1)]
        exact h
      · simp [FreeList.appendStep, ha]
      · exact update_self ..
    | cons b l =>
      obtain ⟨ha, hn, hl⟩ := h
      obtain ⟨hab, hnd⟩ := nodup_cons.mp hnd
      refine ⟨?_, ?_, ih hl hnd (fun c hc => hpos c (mem_cons_of_mem a hc)) hi.2 hprev⟩
      · rw [hprev a (Ne.symm hi.1), ha]
      · -- `a` is not the last element
        have hne : a ≠ (a :: b :: l).getLastD p := by
          rw [getLastD_cons, getLastD_cons]
          intro he
          apply hab
          rw [he]
          exact getLastD_mem_cons
        unfold FreeList.appendStep
        dsimp only
        split_ifs
        · rw [update_of_ne hne, hn]
        · exact hn

theorem getLastD_append_singleton (i : ℕ) : (l ++ [i]).getLastD p = i := by
  simp [getLastD_eq_getLast?]

theorem foldl_appendStep (n : ℕ) {start : ℕ} (h : Open s p l) (hnd : l.Nodup) (hpos : ∀ b ∈ l, 0 < b)
    (hlt : ∀ b ∈ l, b < start) (hstart : 0 < start) :
    Open ((List.range' start n).foldl appendStep (s, l.getLastD p)).1 p (l ++ List.range' start n) ∧
      ((List.range' start n).foldl appendStep (s, l.getLastD p)).2 = (l ++ List.range' start n).getLastD p ∧
      ((List.range' start n).foldl appendStep (s, l.getLastD p)).1.first = s.first := by
  induction n generalizing s l start with
  | zero =>
    rw [range'_zero, append_nil]
    exact ⟨h, rfl, rfl⟩
  | succ n ih =>
    have hnot : start ∉ l := fun hm => lt_irrefl _ (hlt start hm)
    have hstep := h.appendStep hnd hpos hnot
    have hpos' : ∀ b ∈ l ++ [start], 0 < b := by
      intro b hb
      rcases mem_append.mp hb with hb | hb
      · exact hpos b hb
      · exact mem_singleton.mp hb ▸ hstart
    have hlt' : ∀ b ∈ l ++ [start], b < start + 1 := by
      intro b hb
      rcases mem_append.mp hb with hb | hb
      · exact (hlt b hb).trans (Nat.lt_succ_self _)
      · exact mem_singleton.mp hb ▸ Nat.lt_succ_self _
    have hnd' : (l ++ [start]).Nodup := by
      rw [nodup_append]
      refine ⟨hnd, nodup_singleton _, ?_⟩
      rintro a ha b hb rfl
      exact hnot (mem_singleton.mp hb ▸ ha)
    obtain ⟨ho, hl, hf⟩ := ih hstep hnd' hpos' hlt' (Nat.succ_pos _)
    rw [getLastD_append_singleton] at ho hl hf
    rw [range'_succ, foldl_cons, append_cons]
    exact ⟨ho, hl, hf⟩

theorem Open.close (h : Open s p l) (hnd : l.Nodup) (hne : l ≠ []) :
    Chain { s with next := Function.update s.next (l.getLastD p) 0 } p l := by
  induction l generalizing p with
  | nil => exact absurd rfl hne
  | cons a l ih =>
    cases l with
    | nil => exact ⟨h, update_self .., trivial⟩
    | cons b l =>
      obtain ⟨ha, hn, hl⟩ := h
      obtain ⟨hab, hnd⟩ := nodup_cons.mp hnd
      refine ⟨ha, ?_, ih hl hnd (by simp)⟩
      dsimp only
      rw [update_of_ne, hn, headD_cons]
      intro he
      apply hab
      rw [he, getLastD_cons, getLastD_cons]
      exact getLastD_mem_cons

theorem Holds.append (h : Holds s l) {start stop : ℕ} (hlt : ∀ b ∈ l, b < start) (hstart : 0 < start)
    (hstop : start < stop) :
    Holds { append s (l.getLastD 0) start stop with first := if s.first = 0 then start else s.first }
      (l ++ List.range' start (stop - start)) := by
  obtain ⟨ho, hl, -⟩ := foldl_appendStep (stop - start) h.chain.toOpen h.nodup h.pos hlt hstart
  have hsorted : (l ++ range' start (stop - start)).Pairwise (· < ·) := by
    refine pairwise_append.mpr ⟨h.sorted, pairwise_lt_range' .., fun a ha b hb => ?_⟩
    exact (hlt a ha).trans_le (mem_range'_1.mp hb).1
  have hlast : (l ++ range' start (stop - start)).getLastD 0 = stop - 1 := by
    have hsplit : range' start (stop - start) = range' start (stop - start - 1) ++ [stop - 1] := by
      have hn : stop - start = (stop - start - 1) + 1 := by omega
      conv_lhs => rw [hn]
      rw [range'_concat]
      congr 2
      omega
    rw [hsplit, ← append_assoc, getLastD_append_singleton]
  have hne : l ++ range' start (stop - start) ≠ [] := by
    simp
    omega
  refine ⟨?_, ?_, ?_, hsorted⟩
  · dsimp only
    rw [h.first]
    cases l with
    | nil =>
      have hn : stop - start = (stop - start - 1) + 1 := by omega
      rw [hn, range'_succ]
      simp
    | cons a l => simp [(h.pos a (by simp)).ne']
  · have hclose := ho.close (hsorted.imp fun h => h.ne) hne
    rw [hlast] at hclose
    exact hclose.congr (fun _ _ => rfl) fun _ _ => rfl
  · intro b hb
    rcases mem_append.mp hb with hb | hb
    · exact h.pos b hb
    · exact hstart.trans_le (mem_range'_1.mp hb).1

end AppArmor.FreeList

import AppArmor.Hfa.DiffEncode

namespace AppArmor

open List Function

namespace Diff

variable {d : DFA} {s r : ℕ}

theorem mem_intRange {lo hi i : ℤ} : i ∈ intRange lo hi ↔ lo ≤ i ∧ i < hi := by
  simp only [intRange, mem_map, mem_range]
  constructor
  · rintro ⟨k, hk, rfl⟩
    omega
  · intro h
    exact ⟨(i - lo).toNat, by omega, by omega⟩

theorem intRange_nodup (lo hi : ℤ) : (intRange lo hi).Nodup := by
  refine List.Nodup.map (fun a b h => ?_) nodup_range
  omega

theorem intRange_append {lo mid hi : ℤ} (h₁ : lo ≤ mid) (h₂ : mid ≤ hi) :
    (intRange lo hi).Perm (intRange lo mid ++ intRange mid hi) := by
  refine (perm_ext_iff_of_nodup (intRange_nodup lo hi) ?_).mpr fun i => ?_
  · refine nodup_append.mpr ⟨intRange_nodup _ _, intRange_nodup _ _, fun a ha b hb => ?_⟩
    rw [mem_intRange] at ha hb
    omega
  · simp only [mem_append, mem_intRange]
    omega

theorem firstChar_le (m : CharMap ℕ) : firstChar m ≤ 0 := by
  unfold firstChar
  split
  · split_ifs <;> omega
  · rfl

theorem toChar_byte (i : ℤ) : 0 ≤ toChar i ∧ toChar i < 256 := by
  unfold toChar
  omega

theorem countP_bytes {c : ℤ} (h₀ : 0 ≤ c) (h₁ : c < 256) : (intRange 0 256).countP (fun i => toChar i = c) = 1 := by
  have hcongr : (intRange 0 256).countP (fun i => toChar i = c) = (intRange 0 256).count c := by
    refine countP_congr fun i hi => ?_
    rw [mem_intRange] at hi
    have : toChar i = i := Int.emod_eq_of_lt hi.1 hi.2
    simp [this]
  rw [hcongr, count_eq_one_of_mem (intRange_nodup 0 256) (mem_intRange.mpr ⟨h₀, h₁⟩)]

def Wraps (first c : ℤ) : Prop := ∃ i, first ≤ i ∧ i < 0 ∧ toChar i = c

def visit (o n : ℕ) : Option ℕ → Option ℕ
  | some t => if t = n then none else some t
  | none => if o = n then none else some o

theorem visit_visit_visit (o n : ℕ) (x : Option ℕ) : visit o n (visit o n (visit o n x)) = visit o n (visit o n x) := by
  cases x with
  | none =>
    by_cases h : o = n <;> simp [visit, h]
  | some t =>
    by_cases ht : t = n <;> by_cases h : o = n <;> simp [visit, ht, h]

theorem visit_iterate (o n k : ℕ) (x : Option ℕ) : (visit o n)^[k + 2] x = visit o n (visit o n x) := by
  induction k with
  | zero => rfl
  | succ k ih =>
    rw [iterate_succ_apply', ih, visit_visit_visit]

def relTrans (o : ℕ) (next : ℤ → ℕ) (m : CharMap ℕ) (i : ℤ) : CharMap ℕ :=
  match m[toChar i]? with
  | some t => if t = next (toChar i) then m.erase (toChar i) else m
  | none => if o = next (toChar i) then m else m.insert (toChar i) o

theorem relTrans_get (o : ℕ) (next : ℤ → ℕ) (m : CharMap ℕ) (i c : ℤ) :
    (relTrans o next m i)[c]? = if toChar i = c then visit o (next c) m[c]? else m[c]? := by
  unfold relTrans
  by_cases hc : toChar i = c
  · subst hc
    rw [if_pos rfl]
    cases hm : m[toChar i]? with
    | some t =>
      simp only [visit]
      split_ifs
      · rw [CharMap.getElem?_erase', if_pos rfl]
      · exact hm
    | none =>
      simp only [visit]
      split_ifs
      · exact hm
      · rw [CharMap.getElem?_insert', if_pos rfl]
  · rw [if_neg hc]
    split
    · split_ifs
      · rw [CharMap.getElem?_erase', if_neg hc]
      · rfl
    · split_ifs
      · rfl
      · rw [CharMap.getElem?_insert', if_neg hc]

theorem foldl_relTrans_get (o : ℕ) (next : ℤ → ℕ) (l : List ℤ) (m : CharMap ℕ) (c : ℤ) :
    (l.foldl (relTrans o next) m)[c]? = (visit o (next c))^[l.countP fun i => toChar i = c] m[c]? := by
  induction l generalizing m with
  | nil => rfl
  | cons i l ih =>
    rw [foldl_cons, ih, relTrans_get, countP_cons]
    by_cases hc : toChar i = c
    · simp [hc]
    · simp [hc]

def relRow (d : DFA) (s r : ℕ) : CharMap ℕ :=
  (intRange (firstChar (d.state r).trans) d.upperBound).foldl (relTrans (d.state s).otherwise (d.delta r))
    (d.state s).trans

section Row

variable {c : ℤ}

theorem relRow_oob (hc : c < 0 ∨ 256 ≤ c) : (relRow d s r)[c]? = (d.state s).trans[c]? := by
  have hcount : (intRange (firstChar (d.state r).trans) d.upperBound).countP (fun i => toChar i = c) = 0 := by
    rw [countP_eq_zero]
    intro i _
    have := toChar_byte i
    simp
    omega
  rw [relRow, foldl_relTrans_get, hcount]
  rfl

theorem countP_range (hub : d.upperBound = 256) (h₀ : 0 ≤ c) (h₁ : c < 256) :
    (intRange (firstChar (d.state r).trans) d.upperBound).countP (fun i => toChar i = c) =
      (intRange (firstChar (d.state r).trans) 0).countP (fun i => toChar i = c) + 1 := by
  rw [hub, (intRange_append (firstChar_le _) (by omega)).countP_eq, countP_append, countP_bytes h₀ h₁]

theorem relRow_byte (hub : d.upperBound = 256) (h₀ : 0 ≤ c) (h₁ : c < 256)
    (hw : ¬ Wraps (firstChar (d.state r).trans) c) :
    (relRow d s r)[c]? = visit (d.state s).otherwise (d.delta r c) (d.state s).trans[c]? := by
  have hcount : (intRange (firstChar (d.state r).trans) 0).countP (fun i => toChar i = c) = 0 := by
    rw [countP_eq_zero]
    intro i hi
    rw [mem_intRange] at hi
    simpa using fun h => hw ⟨i, hi.1, hi.2, h⟩
  rw [relRow, foldl_relTrans_get, countP_range hub h₀ h₁, hcount]
  rfl

theorem relRow_wrapped (hub : d.upperBound = 256) (h₀ : 0 ≤ c) (h₁ : c < 256)
    (hw : Wraps (firstChar (d.state r).trans) c) :
    (relRow d s r)[c]? = visit (d.state s).otherwise (d.delta r c)
      (visit (d.state s).otherwise (d.delta r c) (d.state s).trans[c]?) := by
  obtain ⟨i, hi, hi0, hic⟩ := hw
  have hpos : 0 < (intRange (firstChar (d.state r).trans) 0).countP (fun i => toChar i = c) :=
    countP_pos_iff.mpr ⟨i, mem_intRange.mpr ⟨hi, hi0⟩, by simpa using hic⟩
  obtain ⟨k, hk⟩ := Nat.exists_eq_add_of_lt hpos
  rw [relRow, foldl_relTrans_get, countP_range hub h₀ h₁, hk, show 0 + k + 1 + 1 = k + 2 by omega, visit_iterate]

end Row

def withRow (d : DFA) (s : ℕ) (m : CharMap ℕ) : DFA :=
  { d with state := Function.update d.state s { d.state s with diff := true, trans := m } }

theorem withRow_self (m : CharMap ℕ) :
    (withRow d s m).state s = { d.state s with diff := true, trans := m } := update_self ..

theorem setTrans_withRow (m m' : CharMap ℕ) : setTrans (withRow d s m) s m' = withRow d s m' := by
  simp [setTrans, withRow, update_idem]

theorem withRow_next (hne : r ≠ s) (hr : (d.state r).diff = false) (m : CharMap ℕ) (c : ℤ) :
    (withRow d s m).next r c = some (d.delta r c) := by
  have hstate : (withRow d s m).state r = d.state r := update_of_ne hne ..
  rw [DFA.next_eq_delta (by rw [hstate, hr]), DFA.delta, DFA.delta, hstate]

theorem relStep_withRow (hne : r ≠ s) (hr : (d.state r).diff = false) (m : CharMap ℕ) (w : ℤ) (i : ℤ) :
    relStep s r (withRow d s m, w) i = some (withRow d s (relTrans (d.state s).otherwise (d.delta r) m i),
      w + m.size - (relTrans (d.state s).otherwise (d.delta r) m i).size) := by
  unfold relStep relTrans
  rw [withRow_next hne hr, withRow_self, Option.map_some]
  have hmem : m.contains (toChar i) = m[toChar i]?.isSome := Std.ExtTreeMap.contains_eq_isSome_getElem?
  cases hm : m[toChar i]? with
  | some t =>
    rw [hm, Option.isSome_some] at hmem
    have hpos : m.size ≠ 0 := fun h => by simp [Std.ExtTreeMap.eq_empty_iff_size_eq_zero.mpr h] at hmem
    simp only
    split_ifs
    · rw [setTrans_withRow, Std.ExtTreeMap.size_erase, if_pos hmem, show w + m.size - (m.size - 1 : ℕ) = w + 1 by omega]
    · rw [add_sub_cancel_right]
  | none =>
    rw [hm, Option.isSome_none] at hmem
    simp only
    split_ifs
    · rw [add_sub_cancel_right]
    · rw [setTrans_withRow, Std.ExtTreeMap.size_insert, hmem, if_neg Bool.false_ne_true,
        show w + m.size - (m.size + 1 : ℕ) = w - 1 by omega]

theorem foldlM_relStep (hne : r ≠ s) (hr : (d.state r).diff = false) (l : List ℤ) (m : CharMap ℕ) (w : ℤ) :
    l.foldlM (relStep s r) (withRow d s m, w) =
      some (withRow d s (l.foldl (relTrans (d.state s).otherwise (d.delta r)) m),
        w + m.size - (l.foldl (relTrans (d.state s).otherwise (d.delta r)) m).size) := by
  induction l generalizing m w with
  | nil => simp
  | cons i l ih =>
    rw [foldlM_cons, relStep_withRow hne hr]
    refine (ih _ _).trans ?_
    rw [foldl_cons, sub_add_cancel]

def relState (d : DFA) (s r : ℕ) : State :=
  { d.state s with diff := true, trans := relRow d s r, otherwise := r }

theorem makeRelative_eq (hne : r ≠ s) (hr : (d.state r).diff = false) (hs : (d.state s).diff = false) :
    makeRelative d s r = some ({ d with state := Function.update d.state s (relState d s r) },
      ((d.state s).trans.size : ℤ) - (relRow d s r).size) := by
  have hset : setDiff d s = withRow d s (d.state s).trans := rfl
  rw [makeRelative, if_neg hne.symm, hs, if_neg Bool.false_ne_true, hset, foldlM_relStep hne hr, Option.map_some]
  simp [setOtherwise, withRow, relState, relRow, update_idem]

end Diff

end AppArmor

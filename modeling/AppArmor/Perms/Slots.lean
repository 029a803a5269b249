import AppArmor.Perms.Resolve

namespace AppArmor.Resolve

open Perm RankFold List Function

def isSlot (filedfa : Bool) (i : ℕ) : Bool := i < 32 && !(filedfa && allExecType.getLsbD i)

variable {filedfa : Bool} {i : ℕ}

variable {m : MatchFlag} {a b : Perm32} {flags : List MatchFlag}

theorem carries_slot (h : carries filedfa i m) :
    isSlot filedfa i := by
  have hi : i < 32 := BitVec.lt_of_getLsbD h
  cases filedfa with
  | false => simp [isSlot, hi]
  | true =>
    simp only [carries, check, ↓reduceIte, BitVec.getLsbD_and, BitVec.getLsbD_not,
      Bool.and_eq_true, Bool.not_eq_true', decide_eq_true_eq] at h
    simp only [isSlot, hi, decide_true, Bool.true_and, h.2.2, Bool.not_false]

theorem amask_disjoint (filedfa : Bool) : ∀ i < 32, ∀ j < 32,
    (isSlot filedfa i ∧ isSlot filedfa j ∧ i ≠ j) → amask filedfa i &&& amask filedfa j = 0 := by
  cases filedfa <;> decide

theorem amask_cover (filedfa : Bool) : ∀ b < 32, ∃ i < 32, isSlot filedfa i ∧ (amask filedfa i).getLsbD b := by
  cases filedfa <;> decide

theorem isSlot_lt (h : isSlot filedfa i) : i < 32 := by
  simp only [isSlot, Bool.and_eq_true, decide_eq_true_eq] at h
  exact h.1

theorem permsT_ext_slots {p q : PermsT}
    (h : ∀ i, isSlot filedfa i → p.within (amask filedfa i) = q.within (amask filedfa i)) : p = q := by
  have key : ∀ f : PermsT → Perm32, (∀ r a, f (PermsT.within r a) = f r &&& a) → f p = f q := by
    intro f hf
    apply BitVec.eq_of_getLsbD_eq
    intro b hb
    obtain ⟨i, _, hi, hbit⟩ := amask_cover filedfa b hb
    have he := congrArg (fun r => (f r).getLsbD b) (h i hi)
    simpa [hf, hbit] using he
  exact PermsT.ext (key _ fun _ _ => rfl) (key _ fun _ _ => rfl) (key _ fun _ _ => rfl)
    (key _ fun _ _ => rfl) (key _ fun _ _ => rfl)

theorem getLsbD_of_disjoint (h : a &&& b = 0) {k : ℕ} (ha : a.getLsbD k) :
    b.getLsbD k = false := by
  have := congrArg (·.getLsbD k) h
  simpa [ha] using this

theorem getLsbD_xmask {k : ℕ} (h : (xmask filedfa i).getLsbD k) :
    (amask filedfa i).getLsbD k := by
  simp [amask, h]

theorem within_clearBits_self (p : PermsT) (a : Perm32) : (p.clearBits a).within a = PermsT.clear := by
  simp only [PermsT.clearBits, PermsT.within, PermsT.clear, PermsT.mk.injEq]
  refine ⟨?_, ?_, ?_, ?_, ?_⟩ <;> · ext k hk; simp

theorem within_clearBits_disjoint (h : a &&& b = 0) (p : PermsT) :
    (p.clearBits a).within b = p.within b := by
  have key : ∀ v : Perm32, (v &&& ~~~a) &&& b = v &&& b := by
    intro v
    apply BitVec.eq_of_getLsbD_eq
    intro k hk
    cases ha : a.getLsbD k with
    | false => simp only [BitVec.getLsbD_and, BitVec.getLsbD_not, ha, hk, decide_true, Bool.not_false, Bool.and_true]
    | true => simp [getLsbD_of_disjoint h ha]
  simp only [PermsT.clearBits, PermsT.within, key]

theorem merge_disjoint (h : amask filedfa i &&& b = 0)
    (p : PermsT) (m : MatchFlag) : (merge filedfa i p m).within b = p.within b := by
  have hset : ∀ v w : Perm32, (v ||| (w &&& amask filedfa i)) &&& b = v &&& b := by
    intro v w
    apply BitVec.eq_of_getLsbD_eq
    intro k hk
    cases ha : (amask filedfa i).getLsbD k with
    | false => simp [ha]
    | true => simp [getLsbD_of_disjoint h ha]
  have hclear : ∀ v a : Perm32, (∀ k, a.getLsbD k → (amask filedfa i).getLsbD k) → (v &&& ~~~a) &&& b = v &&& b := by
    intro v a ha
    apply BitVec.eq_of_getLsbD_eq
    intro k hk
    cases hb : a.getLsbD k with
    | false => simp only [BitVec.getLsbD_and, BitVec.getLsbD_not, hb, hk, decide_true, Bool.not_false, Bool.and_true]
    | true => simp [getLsbD_of_disjoint h (ha k hb)]
  have hx := fun v => hclear v (xmask filedfa i) (fun k => getLsbD_xmask)
  have ha := fun v => hclear v (amask filedfa i) (fun k hk => hk)
  cases hm : m.kind with
  | deny =>
    have hc : ∀ v, (v ||| (m.perms &&& amask filedfa i &&& compatContMatch)) &&& b = v &&& b := by
      intro v
      rw [BitVec.and_assoc, BitVec.and_comm (amask filedfa i), ← BitVec.and_assoc]
      exact hset v _
    simp only [merge, hm, PermsT.within, hset, hc, ha]
  | exact => simp only [merge, hm, PermsT.within, hset, hx]
  | allow | prompt => simp only [merge, hm, PermsT.within, hset]

theorem merge_within (filedfa : Bool) (i : ℕ) (p : PermsT) (m : MatchFlag) :
    (merge filedfa i p m).within (amask filedfa i) = merge filedfa i (p.within (amask filedfa i)) m := by
  have hset : ∀ v w a : Perm32, (v ||| (w &&& a)) &&& a = (v &&& a) ||| (w &&& a) := by
    intro v w a; ext k hk; simp; grind
  have hcomm : ∀ v x a : Perm32, (v &&& ~~~x) &&& a = (v &&& a) &&& ~~~x := by
    intro v x a; ext k hk; simp; grind
  cases hm : m.kind with
  | deny =>
    have hc : ∀ v w a c : Perm32, (v ||| (w &&& a &&& c)) &&& a = (v &&& a) ||| (w &&& a &&& c) := by
      intro v w a c; ext k hk; simp; grind
    simp only [merge, hm, PermsT.within, hset, hc, hcomm]
  | exact => simp only [merge, hm, PermsT.within, hset, hcomm]
  | allow | prompt => simp only [merge, hm, PermsT.within, hset]

theorem xmask_zero (filedfa : Bool) : ∀ i < 32, (i ≠ 0 ∧ i ≠ 14) → xmask filedfa i = 0 := by
  cases filedfa <;> decide

theorem hits_within {p : Perm32} (h : a &&& b = b) : hits (p &&& a) b = hits p b := by
  rw [hits, hits, BitVec.and_assoc, h]

theorem hits_outside {p : Perm32} (h : a &&& b = 0) : hits (p &&& a) b = false := by
  simp [hits, BitVec.and_assoc, h]

theorem conflict_within (hi : i < 32) (m : MatchFlag) (p : PermsT) :
    conflict filedfa i m (p.within (amask filedfa i)) = conflict filedfa i m p := by
  have ha : hits (p.allow &&& amask filedfa i) (amask filedfa i) = hits p.allow (amask filedfa i) :=
    hits_within (BitVec.and_self)
  cases filedfa with
  | false => simp [conflict]
  | true =>
    by_cases h0 : i = 0
    · subst h0
      have hx : isMergedXConsistent (p.allow &&& amask true 0) (m.perms &&& amask true 0) =
          isMergedXConsistent p.allow (m.perms &&& amask true 0) := by
        have ht : amask true 0 &&& userExecType = userExecType := by decide
        simp only [isMergedXConsistent, hits_outside (show amask true 0 &&& otherExec = 0 by decide),
          hits_within (show amask true 0 &&& userExec = userExec by decide), BitVec.and_assoc, ht,
          Bool.and_false, Bool.false_and]
      simp only [conflict, PermsT.within, ha, hx]
    · by_cases h14 : i = 14
      · subst h14
        have hx : isMergedXConsistent (p.allow &&& amask true 14) (m.perms &&& amask true 14) =
            isMergedXConsistent p.allow (m.perms &&& amask true 14) := by
          have ht : amask true 14 &&& otherExecType = otherExecType := by decide
          simp only [isMergedXConsistent, hits_outside (show amask true 14 &&& userExec = 0 by decide),
            hits_within (show amask true 14 &&& otherExec = otherExec by decide), BitVec.and_assoc, ht,
            Bool.and_false, Bool.false_and]
        simp only [conflict, PermsT.within, ha, hx]
      · simp [conflict, xmask_zero true i hi ⟨h0, h14⟩]

theorem applyMatch_within (hi : i < 32) (m : MatchFlag) (p : PermsT) :
    (applyMatch filedfa i p m).map (·.within (amask filedfa i)) =
      applyMatch filedfa i (p.within (amask filedfa i)) m := by
  unfold applyMatch
  rw [conflict_within hi]
  split_ifs
  · rfl
  · rw [Option.map_some, merge_within]

theorem applyMatch_disjoint (h : amask filedfa i &&& b = 0)
    {p q : PermsT} (he : applyMatch filedfa i p m = some q) : q.within b = p.within b := by
  unfold applyMatch at he
  split_ifs at he
  rw [← Option.some.inj he, merge_disjoint h]

def view (filedfa : Bool) (i : ℕ) (s : Acc) : ℤ × PermsT :=
  (s.priority i, s.perms.within (amask filedfa i))

def slotStep (filedfa : Bool) (i : ℕ) : ℤ × PermsT → MatchFlag → Option (ℤ × PermsT) :=
  step (scaledPriority i) (applyMatch filedfa i) PermsT.clear

theorem priUpdatePerm_view (hi : i < 32) (m : MatchFlag) (s : Acc) :
    (priUpdatePerm filedfa i m s).map (view filedfa i) = slotStep filedfa i (view filedfa i s) m := by
  rw [slotStep, show view filedfa i s = (s.priority i, s.perms.within (amask filedfa i)) from rfl]
  unfold priUpdatePerm step
  dsimp only
  split_ifs with h hlt
  · rfl
  · rw [← within_clearBits_self s.perms, ← applyMatch_within hi]
    simp [comp_def, view]
  · rw [← applyMatch_within hi]
    simp [comp_def, view]

theorem priUpdatePerm_frame {j : ℕ} (hi : isSlot filedfa i) (hj : isSlot filedfa j)
    (hne : i ≠ j) {s s' : Acc} (h : priUpdatePerm filedfa i m s = some s') :
    view filedfa j s' = view filedfa j s := by
  have hd := amask_disjoint filedfa i (isSlot_lt hi) j (isSlot_lt hj) ⟨hi, hj, hne⟩
  unfold priUpdatePerm at h
  simp only at h
  split_ifs at h with h1 h2
  · rw [Option.some.inj h]
  · obtain ⟨q, hq, rfl⟩ := Option.map_eq_some_iff.mp h
    simp only [view, update_of_ne hne.symm, applyMatch_disjoint hd hq, within_clearBits_disjoint hd]
  · obtain ⟨q, hq, rfl⟩ := Option.map_eq_some_iff.mp h
    simp only [view, update_of_ne hne.symm, applyMatch_disjoint hd hq]

def updates (filedfa : Bool) (flags : List MatchFlag) : List (MatchFlag × ℕ) :=
  flags.flatMap (fun m => (checkBits filedfa m).map (m, ·))

def runUpdates (filedfa : Bool) (l : List (MatchFlag × ℕ)) (s : Acc) : Option Acc :=
  l.foldlM (fun s u => priUpdatePerm filedfa u.2 u.1 s) s

theorem foldlM_visit (filedfa : Bool) (flags : List MatchFlag) (s : Acc) :
    flags.foldlM (visit filedfa) s = runUpdates filedfa (updates filedfa flags) s := by
  induction flags generalizing s with
  | nil => rfl
  | cons m flags ih =>
    simp only [foldlM_cons, updates, flatMap_cons, runUpdates, foldlM_append,
      visit, foldlM_map]
    congr 1
    funext s'
    rw [ih]
    rfl

def slotUpdates (i : ℕ) (l : List (MatchFlag × ℕ)) : List MatchFlag :=
  (l.filter (fun u => u.2 = i)).map Prod.fst

theorem slotUpdates_updates (hi : i < 32) (flags : List MatchFlag) :
    slotUpdates i (updates filedfa flags) = flags.filter (carries filedfa i) := by
  have hone : ∀ m, slotUpdates i ((checkBits filedfa m).map (m, ·)) =
      if carries filedfa i m then [m] else [] := by
    intro m
    simp only [slotUpdates, checkBits, filter_map, map_map, comp_def, filter_filter]
    have hr : (range 32).filter (fun a => decide (a = i) && carries filedfa a m) =
        if carries filedfa i m then [i] else [] := by
      have : ∀ n, (range n).filter (fun a => decide (a = i) && carries filedfa a m) =
          if i < n ∧ carries filedfa i m then [i] else [] := by
        intro n
        induction n with
        | zero => simp
        | succ n ih =>
          rw [range_succ, filter_append, ih]
          rcases lt_trichotomy i n with h | h | h
          · simp [h, h.ne', show i < n + 1 by omega]
          · subst h; simp [filter_cons]
          · simp [show ¬ i < n by omega, show ¬ i < n + 1 by omega, h.ne]
      simpa [hi] using this 32
    rw [hr]
    split_ifs <;> rfl
  induction flags with
  | nil => rfl
  | cons m flags ih =>
    have happ : slotUpdates i (updates filedfa (m :: flags)) =
        slotUpdates i ((checkBits filedfa m).map (m, ·)) ++ slotUpdates i (updates filedfa flags) := by
      simp [slotUpdates, updates]
    rw [happ, hone, ih, filter_cons]
    split_ifs <;> rfl

theorem updates_slot {u : MatchFlag × ℕ}
    (h : u ∈ updates filedfa flags) : isSlot filedfa u.2 := by
  simp only [updates, checkBits, mem_flatMap, mem_map, mem_filter] at h
  obtain ⟨m, _, i, ⟨_, hc⟩, rfl⟩ := h
  exact carries_slot hc

theorem runUpdates_views (l : List (MatchFlag × ℕ)) (hl : ∀ u ∈ l, isSlot filedfa u.2) (s : Acc) :
    match runUpdates filedfa l s with
    | some s' => ∀ i, isSlot filedfa i →
        (slotUpdates i l).foldlM (slotStep filedfa i) (view filedfa i s) = some (view filedfa i s')
    | none => ∃ i, isSlot filedfa i ∧
        (slotUpdates i l).foldlM (slotStep filedfa i) (view filedfa i s) = none := by
  induction l generalizing s with
  | nil =>
    intro i _
    rfl
  | cons u l ih =>
    obtain ⟨m, j⟩ := u
    have hj : isSlot filedfa j := hl (m, j) (by simp)
    have hv := @priUpdatePerm_view filedfa j (isSlot_lt hj) m s
    have hrun : runUpdates filedfa ((m, j) :: l) s =
        (priUpdatePerm filedfa j m s).bind (runUpdates filedfa l) := rfl
    have hself : slotUpdates j ((m, j) :: l) = m :: slotUpdates j l := by simp [slotUpdates]
    cases hu : priUpdatePerm filedfa j m s with
    | none =>
      rw [hu] at hv
      rw [hrun, hu]
      refine ⟨j, hj, ?_⟩
      rw [hself, foldlM_cons, ← hv]
      rfl
    | some s₁ =>
      rw [hu] at hv
      have hslots : ∀ i, isSlot filedfa i →
          (slotUpdates i ((m, j) :: l)).foldlM (slotStep filedfa i) (view filedfa i s) =
            (slotUpdates i l).foldlM (slotStep filedfa i) (view filedfa i s₁) := by
        intro i hi
        by_cases hij : j = i
        · subst hij
          rw [hself, foldlM_cons, ← hv]
          rfl
        · rw [priUpdatePerm_frame hj hi hij hu]
          simp [slotUpdates, hij]
      have := ih (fun u hu => hl u (mem_cons_of_mem _ hu)) s₁
      rw [hrun, hu, Option.bind_some]
      cases hr : runUpdates filedfa l s₁ with
      | none =>
        rw [hr] at this
        obtain ⟨i, hi, he⟩ := this
        exact ⟨i, hi, by rw [hslots i hi, he]⟩
      | some s' =>
        rw [hr] at this
        intro i hi
        rw [hslots i hi, this i hi]

def carriers (filedfa : Bool) (i : ℕ) (flags : List MatchFlag) : List MatchFlag :=
  flags.filter (carries filedfa i)

def slotRun (filedfa : Bool) (i : ℕ) (flags : List MatchFlag) : Option (ℤ × PermsT) :=
  run (scaledPriority i) (applyMatch filedfa i) PermsT.clear initialPriority (carriers filedfa i flags)

theorem fold_views (filedfa : Bool) (flags : List MatchFlag) :
    match flags.foldlM (visit filedfa) accInit with
    | some s => ∀ i, isSlot filedfa i → slotRun filedfa i flags = some (view filedfa i s)
    | none => ∃ i, isSlot filedfa i ∧ slotRun filedfa i flags = none := by
  have h := runUpdates_views (updates filedfa flags) (fun _ => updates_slot) accInit
  have hinit : ∀ i, view filedfa i accInit = (initialPriority, PermsT.clear) := by
    intro i
    simp [view, accInit, PermsT.within, PermsT.clear]
  have hrun : ∀ i, isSlot filedfa i → slotRun filedfa i flags =
      (slotUpdates i (updates filedfa flags)).foldlM (slotStep filedfa i) (view filedfa i accInit) := by
    intro i hi
    rw [slotUpdates_updates (isSlot_lt hi), hinit]
    rfl
  rw [foldlM_visit]
  cases hr : runUpdates filedfa (updates filedfa flags) accInit with
  | none =>
    rw [hr] at h
    obtain ⟨i, hi, he⟩ := h
    exact ⟨i, hi, by rw [hrun i hi, he]⟩
  | some s =>
    rw [hr] at h
    intro i hi
    rw [hrun i hi, h i hi]

theorem permsT_none_iff :
    permsT filedfa flags = none ↔ ∃ i, isSlot filedfa i ∧ slotRun filedfa i flags = none := by
  have h := fold_views filedfa flags
  rw [permsT, Option.map_eq_none_iff]
  cases hr : flags.foldlM (visit filedfa) accInit with
  | none =>
    rw [hr] at h
    exact iff_of_true rfl h
  | some s =>
    rw [hr] at h
    apply iff_of_false (by simp)
    rintro ⟨i, hi, he⟩
    rw [h i hi] at he
    cases he

end AppArmor.Resolve

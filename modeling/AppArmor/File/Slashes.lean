import AppArmor.File.Entry

namespace AppArmor

open List

/-- A write through a pointer into the buffer; there is nothing to write to behind it. -/
def store (buf : Text) (i : ℕ) (c : Char) : Option Text := if i < buf.length then some (buf.set i c) else none

def slashLoop : ℕ → Text → (sptr dptr : ℕ) → (seenSlash : Bool) → Option Text
  | 0, _, _, _, _ => none
  | fuel + 1, buf, sptr, dptr, seen =>
    (buf[sptr]?).bind fun c =>
      if c = '\x00' then store buf dptr '\x00'
      else if c = '/' then
        if seen then slashLoop fuel buf (sptr + 1) dptr seen
        else (store buf dptr c).bind fun buf => slashLoop fuel buf (sptr + 1) (dptr + 1) true
      else if dptr < sptr then (store buf dptr c).bind fun buf => slashLoop fuel buf (sptr + 1) (dptr + 1) false
      else slashLoop fuel buf (sptr + 1) (dptr + 1) false

def strlen (buf : Text) : Option ℕ := buf.findIdx? (· = '\x00')

/-- The test for a leading `//` that is not followed by a third slash. -/
def leadingTwo (buf : Text) : Option Bool :=
  (buf[0]?).bind fun a =>
    if a ≠ '/' then some false
    else (buf[1]?).bind fun b => if b ≠ '/' then some false else (buf[2]?).map (· ≠ '/')

/-- `filter_slashes` on the memory from its argument on. -/
def filterSlashesIn (buf : Text) : Option Text :=
  (strlen buf).bind fun len =>
    if len < 2 then some buf
    else (leadingTwo buf).bind fun two =>
      if two then slashLoop buf.length buf 2 2 false else slashLoop buf.length buf 0 0 false

/-- The text with one slash for every longest run of slashes. -/
inductive Collapses : Text → Text → Prop
  | nil : Collapses [] []
  | run (n : ℕ) {s t} : s.head? ≠ some '/' → Collapses s t → Collapses (replicate (n + 1) '/' ++ s) ('/' :: t)
  | other {c s t} : c ≠ '/' → Collapses s t → Collapses (c :: s) (c :: t)

def TwoSlashes (s : Text) : Prop := ∃ r, s = '/' :: '/' :: r ∧ r.head? ≠ some '/'

def Filtered (s t : Text) : Prop :=
  (∃ r u, s = '/' :: '/' :: r ∧ r.head? ≠ some '/' ∧ t = '/' :: '/' :: u ∧ Collapses r u) ∨
    ¬ TwoSlashes s ∧ Collapses s t

section Squeeze

variable {s : Text} {seen : Bool}

theorem squeezeSlashes_slash (s : Text) :
    squeezeSlashes seen ('/' :: s) = if seen then squeezeSlashes true s else '/' :: squeezeSlashes true s := rfl

theorem squeezeSlashes_other {c : Char} (hc : c ≠ '/') (s : Text) :
    squeezeSlashes seen (c :: s) = c :: squeezeSlashes false s := if_neg hc

theorem squeezeSlashes_run (n : ℕ) (s : Text) : squeezeSlashes true (replicate n '/' ++ s) = squeezeSlashes true s := by
  induction n with
  | zero => rfl
  | succ n ih => exact ih

theorem squeezeSlashes_head (h : s.head? ≠ some '/') : squeezeSlashes seen s = squeezeSlashes false s := by
  cases s with
  | nil => rfl
  | cons c s =>
    have hc : c ≠ '/' := fun he => h (congrArg some he)
    rw [squeezeSlashes_other hc, squeezeSlashes_other hc]

theorem exists_run (s : Text) : ∃ k r, s = replicate k '/' ++ r ∧ r.head? ≠ some '/' := by
  induction s with
  | nil => exact ⟨0, [], rfl, by simp⟩
  | cons c s ih =>
    by_cases hc : c = '/'
    · obtain ⟨k, r, rfl, hr⟩ := ih
      exact ⟨k + 1, r, by rw [hc]; rfl, hr⟩
    · exact ⟨0, c :: s, rfl, by simpa using hc⟩

theorem squeezeSlashes_collapses (s : Text) : Collapses s (squeezeSlashes false s) := by
  induction hn : s.length using Nat.strong_induction_on generalizing s with
  | _ n ih =>
    cases s with
    | nil => exact .nil
    | cons c s =>
      by_cases hc : c = '/'
      · -- the longest run at the front, and what comes after it
        obtain ⟨k, r, rfl, hr⟩ := exists_run s
        rw [hc, squeezeSlashes_slash, if_neg Bool.false_ne_true, squeezeSlashes_run, squeezeSlashes_head hr]
        refine Collapses.run k hr (ih _ ?_ r rfl)
        rw [← hn, length_cons, length_append]
        omega
      · rw [squeezeSlashes_other hc]
        exact Collapses.other hc (ih _ (by rw [← hn, length_cons]; omega) s rfl)

theorem squeezeSlashes_idem (s : Text) : (∀ seen, squeezeSlashes false (squeezeSlashes seen s) = squeezeSlashes seen s) ∧
    squeezeSlashes true (squeezeSlashes true s) = squeezeSlashes true s := by
  induction s with
  | nil => exact ⟨fun _ => rfl, rfl⟩
  | cons c s ih =>
    by_cases hc : c = '/'
    · subst hc
      refine ⟨fun seen => ?_, ih.2⟩
      cases seen with
      | true => exact ih.1 true
      | false => exact congrArg (cons '/') ih.2
    · refine ⟨fun seen => ?_, ?_⟩
      · rw [squeezeSlashes_other hc, squeezeSlashes_other hc, ih.1]
      · rw [squeezeSlashes_other hc, squeezeSlashes_other hc, ih.1]

theorem squeezeSlashes_sublist (seen : Bool) (s : Text) : (squeezeSlashes seen s).Sublist s := by
  induction s generalizing seen with
  | nil => exact Sublist.refl _
  | cons c s ih =>
    rw [squeezeSlashes]
    split_ifs
    · exact (ih true).cons c
    · exact (ih true).cons_cons c
    · exact (ih false).cons_cons c

theorem filterSlashes_two (h : s.head? ≠ some '/') :
    filterSlashes ('/' :: '/' :: s) = '/' :: '/' :: squeezeSlashes false s := if_neg h

theorem filterSlashes_other (h : ¬ TwoSlashes s) : filterSlashes s = squeezeSlashes false s := by
  unfold filterSlashes
  split
  · rename_i r
    exact if_pos (by_contra fun hr => h ⟨r, rfl, hr⟩)
  · rfl

theorem filterSlashes_filtered (s : Text) : Filtered s (filterSlashes s) := by
  by_cases h : TwoSlashes s
  · obtain ⟨r, rfl, hr⟩ := h
    rw [filterSlashes_two hr]
    exact .inl ⟨r, _, rfl, hr, rfl, squeezeSlashes_collapses r⟩
  · rw [filterSlashes_other h]
    exact .inr ⟨h, squeezeSlashes_collapses s⟩

theorem filterSlashes_idem (s : Text) : filterSlashes (filterSlashes s) = filterSlashes s := by
  by_cases h : TwoSlashes s
  · obtain ⟨r, rfl, hr⟩ := h
    have hhead : (squeezeSlashes false r).head? ≠ some '/' := by
      cases r with
      | nil => exact hr
      | cons c r =>
        have hc : c ≠ '/' := fun he => hr (congrArg some he)
        rw [squeezeSlashes_other hc]
        exact hr
    rw [filterSlashes_two hr, filterSlashes_two hhead, (squeezeSlashes_idem r).1]
  · rw [filterSlashes_other h, filterSlashes_other, (squeezeSlashes_idem s).1]
    -- the second of two slashes would not have been kept
    rintro ⟨r, hr, -⟩
    have hidem := (squeezeSlashes_idem s).1 false
    rw [hr] at hidem
    have hlen := (squeezeSlashes_sublist true r).length_le
    have heq : squeezeSlashes true r = '/' :: r := (cons.inj hidem).2
    rw [heq, length_cons] at hlen
    omega

theorem filterSlashes_sublist (s : Text) : (filterSlashes s).Sublist s := by
  by_cases h : TwoSlashes s
  · obtain ⟨r, rfl, hr⟩ := h
    rw [filterSlashes_two hr]
    exact ((squeezeSlashes_sublist false r).cons_cons _).cons_cons _
  · rw [filterSlashes_other h]
    exact squeezeSlashes_sublist false s

end Squeeze

section InPlace

variable {s rest done gap : Text} {seen : Bool}

theorem store_append (done : Text) (g c : Char) (rest : Text) :
    store (done ++ g :: rest) done.length c = some (done ++ [c] ++ rest) := by
  rw [store, if_pos (by simp), set_append_right _ _ le_rfl, Nat.sub_self, set_cons_zero, append_assoc, singleton_append]

/-- Between the two pointers lies what has been read and not yet been written over. -/
theorem slashLoop_spec {fuel : ℕ} (hs : '\x00' ∉ s) (hfuel : s.length < fuel) (done gap rest : Text) (seen : Bool) :
    ∃ left, slashLoop fuel (done ++ (gap ++ (s ++ '\x00' :: rest))) (done.length + gap.length) done.length seen =
        some (done ++ squeezeSlashes seen s ++ '\x00' :: (left ++ rest)) ∧
      (squeezeSlashes seen s).length + left.length = gap.length + s.length := by
  induction s generalizing fuel done gap seen with
  | nil =>
    obtain ⟨fuel, rfl⟩ := Nat.exists_eq_succ_of_ne_zero (Nat.ne_zero_of_lt hfuel)
    obtain ⟨g, left, hg⟩ := exists_cons_of_ne_nil (show gap ++ ['\x00'] ≠ [] by simp)
    refine ⟨left, ?_, ?_⟩
    · have hbuf : gap ++ ('\x00' :: rest) = g :: (left ++ rest) := by rw [← cons_append, ← hg, append_assoc]; rfl
      have hread : (done ++ (gap ++ '\x00' :: rest))[done.length + gap.length]? = some '\x00' := by
        rw [← append_assoc, getElem?_append_right (by simp), length_append, Nat.sub_self]
        rfl
      rw [slashLoop, nil_append, hread, Option.bind_some, if_pos rfl, hbuf, store_append, squeezeSlashes, append_nil,
        append_assoc, singleton_append]
    · have := congrArg length hg
      simp only [length_append, length_cons, length_nil] at this
      simp only [squeezeSlashes, length_nil]
      omega
  | cons c s ih =>
    obtain ⟨hc0, hs⟩ := not_or.mp (mt mem_cons.mpr hs)
    obtain ⟨fuel, rfl⟩ := Nat.exists_eq_succ_of_ne_zero (Nat.ne_zero_of_lt hfuel)
    have hfuel' : s.length < fuel := Nat.lt_of_succ_lt_succ hfuel
    rw [length_cons]
    have hread : (done ++ (gap ++ (c :: s ++ '\x00' :: rest)))[done.length + gap.length]? = some c := by
      rw [← append_assoc, getElem?_append_right (by simp), length_append, Nat.sub_self]
      rfl
    -- the character at `sptr` written at `dptr`
    obtain ⟨g, gap', hg⟩ := exists_cons_of_ne_nil (show gap ++ [c] ≠ [] by simp)
    have hlen := congrArg length hg
    rw [length_append, length_singleton, length_cons] at hlen
    have hbuf : gap ++ (c :: s ++ '\x00' :: rest) = g :: (gap' ++ (s ++ '\x00' :: rest)) := by
      rw [← cons_append, ← hg, append_assoc]
      rfl
    have hwrite : ∀ seen, ∃ left, slashLoop fuel (done ++ [c] ++ (gap' ++ (s ++ '\x00' :: rest)))
          (done.length + gap.length + 1) (done.length + 1) seen =
            some (done ++ c :: squeezeSlashes seen s ++ '\x00' :: (left ++ rest)) ∧
        (squeezeSlashes seen s).length + 1 + left.length = gap.length + (s.length + 1) := by
      intro seen
      obtain ⟨left, hrun, hleft⟩ := ih hs hfuel' (done ++ [c]) gap' seen
      rw [length_append, length_singleton, show done.length + 1 + gap'.length = done.length + gap.length + 1 by omega,
        append_assoc done [c] (squeezeSlashes seen s), singleton_append] at hrun
      exact ⟨left, hrun, by omega⟩
    rw [slashLoop, hread, Option.bind_some, if_neg (Ne.symm hc0)]
    by_cases hc : c = '/'
    · rw [if_pos hc]
      cases seen with
      | true =>
        obtain ⟨left, hrun, hleft⟩ := ih hs hfuel' done (gap ++ [c]) true
        rw [length_append, length_singleton] at hrun hleft
        rw [append_assoc gap, ← add_assoc] at hrun
        rw [if_pos rfl, hc, squeezeSlashes_slash, if_pos rfl, ← hc]
        exact ⟨left, hrun, by omega⟩
      | false =>
        rw [if_neg Bool.false_ne_true, hbuf, store_append, Option.bind_some, hc, squeezeSlashes_slash,
          if_neg Bool.false_ne_true, ← hc]
        exact hwrite true
    · rw [if_neg hc, squeezeSlashes_other hc]
      split_ifs with hlt
      · rw [hbuf, store_append, Option.bind_some]
        exact hwrite false
      · have hgap : gap = [] := length_eq_zero_iff.mp (by omega)
        subst hgap
        obtain ⟨rfl, rfl⟩ := cons.inj hg
        have hw := hwrite false
        rwa [append_assoc, singleton_append] at hw

theorem strlen_append (hs : '\x00' ∉ s) (rest : Text) : strlen (s ++ '\x00' :: rest) = some s.length := by
  unfold strlen
  induction s with
  | nil => rfl
  | cons c s ih =>
    obtain ⟨hc, hs⟩ := not_or.mp (mt mem_cons.mpr hs)
    rw [cons_append, findIdx?_cons, if_neg (by simpa using Ne.symm hc), ih hs, Option.map_some, length_cons]

theorem leadingTwo_iff (rest : Text) (h : 2 ≤ s.length) :
    ∃ two, leadingTwo (s ++ '\x00' :: rest) = some two ∧ (two = true ↔ TwoSlashes s) := by
  rcases s with _ | ⟨a, _ | ⟨b, r⟩⟩
  · cases h
  · exact absurd h (by simp)
  · have htwo : TwoSlashes (a :: b :: r) ↔ a = '/' ∧ b = '/' ∧ r.head? ≠ some '/' := by simp [TwoSlashes, and_assoc]
    refine ⟨decide (a = '/' ∧ b = '/' ∧ r.head? ≠ some '/'), ?_, by rw [decide_eq_true_eq, htwo]⟩
    by_cases ha : a = '/'
    · by_cases hb : b = '/'
      · cases r <;> simp [leadingTwo, ha, hb]
      · simp [leadingTwo, ha, hb]
    · simp [leadingTwo, ha]

theorem filterSlashesIn_eq (hs : '\x00' ∉ s) (rest : Text) :
    ∃ left, filterSlashesIn (s ++ '\x00' :: rest) = some (filterSlashes s ++ '\x00' :: (left ++ rest)) ∧
      (filterSlashes s).length + left.length = s.length := by
  rw [filterSlashesIn, strlen_append hs, Option.bind_some]
  by_cases hlen : s.length < 2
  · have hshort : filterSlashes s = s := by
      rcases s with _ | ⟨c, _ | ⟨b, s⟩⟩
      · rfl
      · unfold filterSlashes squeezeSlashes
        simp [squeezeSlashes]
      · simp at hlen
    rw [if_pos hlen, hshort]
    exact ⟨[], rfl, rfl⟩
  · obtain ⟨two, htwo, hiff⟩ := leadingTwo_iff rest (not_lt.mp hlen)
    rw [if_neg hlen, htwo, Option.bind_some]
    by_cases h : TwoSlashes s
    · rw [if_pos (hiff.mpr h)]
      obtain ⟨r, rfl, hr⟩ := h
      rw [filterSlashes_two hr]
      obtain ⟨left, hrun, hleft⟩ := @slashLoop_spec r ('/' :: '/' :: r ++ '\x00' :: rest).length
        (fun h => hs (by simp [h])) (by simp; omega) ['/', '/'] [] rest false
      exact ⟨left, hrun, by simp at hleft ⊢; omega⟩
    · rw [if_neg (mt hiff.mp h), filterSlashes_other h]
      obtain ⟨left, hrun, hleft⟩ := @slashLoop_spec s (s ++ '\x00' :: rest).length hs (by simp) [] [] rest false
      exact ⟨left, hrun, by simpa using hleft⟩

/-- The buffer ends in any way behind the terminator, and nothing is read or written there. -/
theorem filterSlashes_in_place (hs : '\x00' ∉ s) (rest : Text) :
    ∃ t left, filterSlashesIn (s ++ '\x00' :: rest) = some (t ++ '\x00' :: (left ++ rest)) ∧
      t.length + left.length = s.length ∧ Filtered s t ∧
      filterSlashesIn (t ++ '\x00' :: (left ++ rest)) = some (t ++ '\x00' :: (left ++ rest)) := by
  obtain ⟨left, hrun, hlen⟩ := filterSlashesIn_eq hs rest
  refine ⟨filterSlashes s, left, hrun, hlen, filterSlashes_filtered s, ?_⟩
  obtain ⟨left', hrun', hlen'⟩ := filterSlashesIn_eq (fun h => hs ((filterSlashes_sublist s).subset h)) (left ++ rest)
  rw [filterSlashes_idem] at hrun' hlen'
  rw [hrun', length_eq_zero_iff.mp (show left'.length = 0 by omega)]
  rfl

theorem runs_in_place : ∃ t left, filterSlashesIn "///a//\x00".toList = some (t ++ '\x00' :: (left ++ [])) ∧
    t.length + left.length = 6 ∧ Filtered "///a//".toList t ∧
    filterSlashesIn (t ++ '\x00' :: (left ++ [])) = some (t ++ '\x00' :: (left ++ [])) :=
  @filterSlashes_in_place "///a//".toList (by decide) []

end InPlace

end AppArmor

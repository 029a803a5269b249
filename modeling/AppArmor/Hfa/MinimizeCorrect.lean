import AppArmor.Hfa.Minimize

namespace AppArmor

open Refine List Function

namespace DFA

structure Closed (d : DFA) : Prop where
  nodup : d.states.Nodup
  start : d.start ∈ d.states
  nonmatching : d.nonmatching ∈ d.states
  otherwise : ∀ i ∈ d.states, (d.state i).otherwise ∈ d.states
  trans : ∀ i ∈ d.states, ∀ (c : ℤ) t, (d.state i).trans[c]? = some t → t ∈ d.states

/-- An automaton as the constructor leaves it: no differential states, no transition the default covers. -/
structure Unencoded (d : DFA) : Prop extends d.Closed where
  diff : ∀ i, (d.state i).diff = false
  label : ∀ i ∈ d.states, (d.state i).label ≠ -1
  uncovered : ∀ i ∈ d.states, ∀ (c : ℤ) t, (d.state i).trans[c]? = some t → t ≠ (d.state i).otherwise

variable {d : DFA}

theorem Closed.delta (h : d.Closed) {i : ℕ} (hi : i ∈ d.states) (c : ℤ) : d.delta i c ∈ d.states := by
  unfold DFA.delta
  cases ht : (d.state i).trans[c]? with
  | none => exact h.otherwise i hi
  | some t => exact h.trans i hi c t ht

def obs (d : DFA) (i : ℕ) : Option PermsT := if i = d.start then none else some (d.state i).perms

theorem perms_eq_of_obs {i j : ℕ} (h : d.obs i = d.obs j) : (d.state i).perms = (d.state j).perms := by
  unfold obs at h
  split_ifs at h with hi hj hj
  · rw [hi, hj]
  · exact Option.some.inj h

end DFA

namespace Minimize

section SameMappings

variable {l : List (ℤ × ℕ)}

variable {c : ℤ} {l' : List (ℤ × ℕ)}

theorem lookup_eq_none (h : ∀ e ∈ l, c < e.1) : l.lookup c = none := by
  rw [lookup_eq_none_iff]
  intro e he
  have := h e he
  simp
  omega

theorem lookup_eq_some_iff (hl : l.Pairwise fun a b => a.1 < b.1) {t : ℕ} :
    l.lookup c = some t ↔ (c, t) ∈ l := by
  induction l with
  | nil => simp
  | cons e l ih =>
    obtain ⟨he, hl'⟩ := pairwise_cons.mp hl
    obtain ⟨c', t'⟩ := e
    by_cases hc : c = c'
    · subst hc
      have hnot : (c, t) ∉ l := fun h => absurd (he _ h) (lt_irrefl c)
      simp [hnot, eq_comm]
    · have hb : (c == c') = false := by simpa using hc
      simp [lookup_cons, hb, ih hl', hc]

def target (part : ℕ → ℕ) (o : ℕ) (l : List (ℤ × ℕ)) (c : ℤ) : ℕ := ((l.lookup c).map part).getD o

theorem target_of_lt (part : ℕ → ℕ) (o : ℕ) (h : ∀ e ∈ l, c < e.1) :
    target part o l c = o := by
  rw [target, lookup_eq_none h]
  rfl

theorem target_cons_self (part : ℕ → ℕ) (o : ℕ) (c : ℤ) (t : ℕ) (l : List (ℤ × ℕ)) :
    target part o ((c, t) :: l) c = part t := by
  simp [target]

theorem target_cons_ne (part : ℕ → ℕ) (o : ℕ) {c' : ℤ} (t : ℕ) (l : List (ℤ × ℕ)) (h : c ≠ c') :
    target part o ((c', t) :: l) c = target part o l c := by
  have hb : (c == c') = false := by simpa using h
  simp [target, lookup_cons, hb]

theorem target_cons_left (part : ℕ → ℕ) (o : ℕ) (t : ℕ) (hl : ∀ e ∈ l, c < e.1)
    (hl' : ∀ e ∈ l', c < e.1) : (∀ x, target part o ((c, t) :: l) x = target part o l' x) ↔
      part t = o ∧ ∀ x, target part o l x = target part o l' x := by
  constructor
  · intro h
    refine ⟨by rw [← target_cons_self part o c t l, h, target_of_lt part o hl'], fun x => ?_⟩
    by_cases hx : x = c
    · rw [hx, target_of_lt part o hl, target_of_lt part o hl']
    · rw [← h, target_cons_ne part o t l hx]
  · rintro ⟨ht, h⟩ x
    by_cases hx : x = c
    · rw [hx, target_cons_self, target_of_lt part o hl', ht]
    · rw [target_cons_ne part o t l hx, h]

theorem target_cons_both (part : ℕ → ℕ) (o : ℕ) (t t' : ℕ) (hl : ∀ e ∈ l, c < e.1)
    (hl' : ∀ e ∈ l', c < e.1) : (∀ x, target part o ((c, t) :: l) x = target part o ((c, t') :: l') x) ↔
      part t = part t' ∧ ∀ x, target part o l x = target part o l' x := by
  constructor
  · intro h
    refine ⟨by rw [← target_cons_self part o c t l, h, target_cons_self], fun x => ?_⟩
    by_cases hx : x = c
    · rw [hx, target_of_lt part o hl, target_of_lt part o hl']
    · rw [← target_cons_ne part o t l hx, h, target_cons_ne part o t' l' hx]
  · rintro ⟨ht, h⟩ x
    by_cases hx : x = c
    · rw [hx, target_cons_self, target_cons_self, ht]
    · rw [target_cons_ne part o t l hx, h, target_cons_ne part o t' l' hx]

theorem sameLoop_iff (part : ℕ → ℕ) (o n : ℕ) {l₁ l₂ : List (ℤ × ℕ)} (h₁ : l₁.Pairwise fun a b => a.1 < b.1)
    (h₂ : l₂.Pairwise fun a b => a.1 < b.1) (hn : l₁.length + l₂.length ≤ n) :
    sameLoop part o o n l₁ l₂ = true ↔ ∀ c, target part o l₁ c = target part o l₂ c := by
  induction n generalizing l₁ l₂ with
  | zero =>
    have e₁ : l₁ = [] := length_eq_zero_iff.mp (by omega)
    have e₂ : l₂ = [] := length_eq_zero_iff.mp (by omega)
    simp [e₁, e₂, sameLoop]
  | succ n ih =>
    rcases l₁ with _ | ⟨⟨c₁, t₁⟩, l₁⟩ <;> rcases l₂ with _ | ⟨⟨c₂, t₂⟩, l₂⟩
    · simp [sameLoop]
    · obtain ⟨hc, hl⟩ := pairwise_cons.mp h₂
      simp only [length_cons, length_nil] at hn
      rw [sameLoop, Bool.and_eq_true, decide_eq_true_eq, ih h₁ hl (by simp; omega)]
      have h := target_cons_left part o t₂ hc (forall_mem_nil fun e : ℤ × ℕ => c₂ < e.1)
      rw [forall_congr' fun x => eq_comm, and_congr_right_iff.mpr fun _ => forall_congr' fun x => eq_comm] at h
      exact h.symm
    · obtain ⟨hc, hl⟩ := pairwise_cons.mp h₁
      simp only [length_cons, length_nil] at hn
      rw [sameLoop, Bool.and_eq_true, decide_eq_true_eq, ih hl h₂ (by simp; omega), target_cons_left part o t₁ hc (by simp)]
    · obtain ⟨hc₁, hl₁⟩ := pairwise_cons.mp h₁
      obtain ⟨hc₂, hl₂⟩ := pairwise_cons.mp h₂
      simp only [length_cons] at hn
      rw [sameLoop]
      rcases lt_trichotomy c₁ c₂ with hlt | rfl | hlt
      · have hbefore : ∀ e ∈ (c₂, t₂) :: l₂, c₁ < e.1 := by
          intro e he
          rcases mem_cons.mp he with rfl | he
          · exact hlt
          · exact hlt.trans (hc₂ e he)
        rw [if_pos hlt, Bool.and_eq_true, decide_eq_true_eq, ih hl₁ h₂ (by simp; omega), target_cons_left part o t₁ hc₁ hbefore]
      · rw [if_neg (lt_irrefl _), if_pos rfl, Bool.and_eq_true, decide_eq_true_eq, ih hl₁ hl₂ (by omega),
          target_cons_both part o t₁ t₂ hc₁ hc₂]
      · have hbefore : ∀ e ∈ (c₁, t₁) :: l₁, c₂ < e.1 := by
          intro e he
          rcases mem_cons.mp he with rfl | he
          · exact hlt
          · exact hlt.trans (hc₁ e he)
        rw [if_neg hlt.not_gt, if_neg hlt.ne', Bool.and_eq_true, decide_eq_true_eq, ih h₁ hl₂ (by simp; omega)]
        have h := target_cons_left part o t₂ hc₂ hbefore
        rw [forall_congr' fun x => eq_comm, and_congr_right_iff.mpr fun _ => forall_congr' fun x => eq_comm,
          eq_comm (a := part t₂)] at h
        exact h.symm

variable {d : DFA}

theorem trans_sorted (m : CharMap ℕ) : m.toList.Pairwise fun a b => a.1 < b.1 :=
  Std.ExtTreeMap.ordered_keys_toList.imp fun h => compare_lt_iff_lt.mp h

theorem target_toList (d : DFA) (part : ℕ → ℕ) (s : ℕ) (c : ℤ) :
    target part (part (d.state s).otherwise) (d.state s).trans.toList c = part (d.delta s c) := by
  have hlookup : (d.state s).trans.toList.lookup c = (d.state s).trans[c]? := by
    ext t
    rw [lookup_eq_some_iff (trans_sorted _), Std.ExtTreeMap.mem_toList_iff_getElem?_eq_some]
  rw [target, hlookup, DFA.delta]
  cases (d.state s).trans[c]? <;> rfl

theorem exists_unlisted (m₁ m₂ : CharMap ℕ) : ∃ c : ℤ, m₁[c]? = none ∧ m₂[c]? = none := by
  obtain ⟨c, hc⟩ := Infinite.exists_notMem_finset (m₁.keys ++ m₂.keys).toFinset
  refine ⟨c, ?_, ?_⟩ <;>
  · rw [mem_toFinset, mem_append, not_or, Std.ExtTreeMap.mem_keys, Std.ExtTreeMap.mem_keys] at hc
    simp [hc.1, hc.2]

theorem sameMappings_iff (d : DFA) (part : ℕ → ℕ) (s t : ℕ) : sameMappings d part s t = true ↔
    (fun c => part (d.delta s c)) = fun c => part (d.delta t c) := by
  rw [funext_iff, sameMappings, Bool.and_eq_true, decide_eq_true_eq]
  constructor
  · rintro ⟨ho, h⟩ c
    rw [← ho, sameLoop_iff part _ _ (trans_sorted _) (trans_sorted _) le_rfl] at h
    rw [← target_toList d part s, ← target_toList d part t, h c, ho]
  · intro h
    have ho : part (d.state s).otherwise = part (d.state t).otherwise := by
      obtain ⟨c, hs, ht⟩ := exists_unlisted (d.state s).trans (d.state t).trans
      simpa [DFA.delta, hs, ht] using h c
    refine ⟨ho, ?_⟩
    rw [← ho, sameLoop_iff part _ _ (trans_sorted _) (trans_sorted _) le_rfl]
    intro c
    rw [target_toList, ho, target_toList, h c]

end SameMappings

section Initial

variable {d : DFA}

structure InitInv (d : DFA) (l : List ℕ) (s : Partition ℕ × List (PermsT × ℕ)) : Prop where
  valid : Valid l s.1
  mem : ∀ i ∈ l, i ≠ d.start → ((d.state i).perms, s.1.part i) ∈ s.2
  sound : ∀ e ∈ s.2, ∃ b ∈ s.1.blocks, b.id = e.2 ∧ ∀ i ∈ b.members, i ≠ d.start ∧ (d.state i).perms = e.1
  unique : ∀ e ∈ s.2, ∀ e' ∈ s.2, e.1 = e'.1 → e.2 = e'.2

variable {l : List ℕ} {s : Partition ℕ × List (PermsT × ℕ)}

theorem InitInv.initStep (h : InitInv d l s) {i : ℕ}
    (hi : i ∉ l) : InitInv d (l ++ [i]) (initStep d s i) := by
  have hne : ∀ j ∈ l, j ≠ i := fun j hj he => hi (he ▸ hj)
  have hsound : ∀ e ∈ s.2, ∃ b ∈ (s.1.newBlock i).blocks, b.id = e.2 ∧
      ∀ j ∈ b.members, j ≠ d.start ∧ (d.state j).perms = e.1 := by
    intro e he
    obtain ⟨b, hb, hid, hm⟩ := h.sound e he
    exact ⟨b, mem_append_left _ hb, hid, hm⟩
  unfold Minimize.initStep
  by_cases hstart : i = d.start
  · rw [if_pos hstart]
    refine ⟨h.valid.newBlock hi, fun j hj hjs => ?_, hsound, h.unique⟩
    have hjl : j ∈ l := (mem_append.mp hj).resolve_right fun hj =>
      hjs ((mem_singleton.mp hj).trans hstart)
    simpa [Partition.newBlock, hne j hjl] using h.mem j hjl hjs
  · rw [if_neg hstart]
    cases hfind : s.2.find? fun e => e.1.equiv (d.state i).perms with
    | none =>
      have hnew : ∀ e ∈ s.2, e.1 ≠ (d.state i).perms := fun e he heq =>
        find?_eq_none.mp hfind e he (PermsT.equiv_iff.mpr heq)
      refine ⟨h.valid.newBlock hi, fun j hj hjs => ?_, fun e he => ?_, fun e he e' he' heq => ?_⟩
      · rcases mem_append.mp hj with hjl | hj
        · refine mem_append_left _ ?_
          simpa [Partition.newBlock, hne j hjl] using h.mem j hjl hjs
        · rw [mem_singleton.mp hj]
          simp [Partition.newBlock]
      · rcases mem_append.mp he with he | he
        · exact hsound e he
        · rw [mem_singleton.mp he]
          exact ⟨⟨s.1.fresh, [i]⟩, by simp [Partition.newBlock], rfl, by simp [hstart]⟩
      · simp only [mem_append, mem_singleton] at he he'
        rcases he with he | rfl <;> rcases he' with he' | rfl
        · exact h.unique e he e' he' heq
        · exact absurd heq (hnew e he)
        · exact absurd heq.symm (hnew e' he')
        · rfl
    | some e =>
      have hperms : e.1 = (d.state i).perms :=
        PermsT.equiv_iff.mp (find?_some (p := fun e : PermsT × ℕ => e.1.equiv (d.state i).perms) hfind)
      have hemem := mem_of_find?_eq_some hfind
      obtain ⟨b, hb, hid, hm⟩ := h.sound e hemem
      simp only
      rw [← hid]
      refine ⟨h.valid.pushBack hi hb, fun j hj hjs => ?_, fun e' he' => ?_, h.unique⟩
      · rcases mem_append.mp hj with hjl | hj
        · simpa [Partition.pushBack, hne j hjl] using h.mem j hjl hjs
        · rw [mem_singleton.mp hj, ← hperms]
          simpa [Partition.pushBack, hid] using hemem
      · obtain ⟨b', hb', hid', hm'⟩ := h.sound e' he'
        refine ⟨_, mem_map.mpr ⟨b', hb', rfl⟩, ?_⟩
        by_cases hbb : b'.id = b.id
        · rw [if_pos hbb]
          refine ⟨hid', fun j hj => ?_⟩
          rcases mem_append.mp hj with hj | hj
          · exact hm' j hj
          · -- both entries name the block that `i` joins
            rw [mem_singleton.mp hj]
            obtain ⟨k, hk⟩ := exists_mem_of_ne_nil _ (h.valid.nonempty b' hb')
            have hbb' : b' = b := h.valid.block_eq hb' hb hbb
            exact ⟨hstart, by rw [← hperms, ← (hm' k hk).2, (hm k (hbb' ▸ hk)).2]⟩
        · rw [if_neg hbb]
          exact ⟨hid', hm'⟩

theorem initInv_foldl (hl : l.Nodup) : InitInv d l (l.foldl (initStep d) (.empty, [])) := by
  induction l using reverseRecOn with
  | nil => exact ⟨.empty, by simp, by simp, by simp⟩
  | append_singleton l i ih =>
    rw [nodup_append] at hl
    rw [foldl_append, foldl_cons, foldl_nil]
    exact (ih hl.1).initStep fun h => hl.2.2 i h i (by simp) rfl

theorem InitInv.part_eq_iff (h : InitInv d l s) {i j : ℕ}
    (hi : i ∈ l) (hj : j ∈ l) : s.1.part i = s.1.part j ↔ d.obs i = d.obs j := by
  -- a state other than the start state is in the block its permissions name
  have hblock : ∀ k ∈ l, ∀ k' ∈ l, k ≠ d.start → s.1.part k = s.1.part k' →
      k' ≠ d.start ∧ (d.state k').perms = (d.state k).perms := by
    intro k hk k' hk' hks he
    obtain ⟨b, hb, hid, hm⟩ := h.sound _ (h.mem k hk hks)
    obtain ⟨b', hb', hkb, hid'⟩ := h.valid.exists_block hk'
    have hbb : b' = b := h.valid.block_eq hb' hb (by rw [hid, ← hid', he])
    exact hm k' (hbb ▸ hkb)
  unfold DFA.obs
  by_cases his : i = d.start <;> by_cases hjs : j = d.start
  · simp [his, hjs]
  · rw [if_pos his, if_neg hjs]
    refine iff_of_false (fun he => (hblock j hj i hi hjs he.symm).1 his) (by simp)
  · rw [if_neg his, if_pos hjs]
    refine iff_of_false (fun he => (hblock i hi j hj his he).1 hjs) (by simp)
  · rw [if_neg his, if_neg hjs, Option.some_inj]
    exact ⟨fun he => (hblock i hi j hj his he).2.symm, h.unique _ (h.mem i hi his) _ (h.mem j hj hjs)⟩

end Initial

section Rep

variable {states : List ℕ} {p : Partition ℕ}

variable {i : ℕ}

theorem rep_of_mem (h : Valid states p) {b : Block ℕ} (hb : b ∈ p.blocks) {first : ℕ} {ms : List ℕ}
    (hm : b.members = first :: ms) (hi : i ∈ b.members) : rep p i = first := by
  have hfind : p.blocks.find? (fun a => a.id = p.part i) = some b := by
    cases hf : p.blocks.find? fun a => a.id = p.part i with
    | none => exact absurd (h.part b hb i hi).symm (by simpa using find?_eq_none.mp hf b hb)
    | some a =>
      have ha : a.id = p.part i := by simpa using find?_some hf
      rw [h.block_eq (mem_of_find?_eq_some hf) hb (ha.trans (h.part b hb i hi))]
  simp [rep, hfind, hm]

theorem exists_rep (h : Valid states p) (hi : i ∈ states) :
    ∃ b ∈ p.blocks, i ∈ b.members ∧ rep p i ∈ b.members ∧ b.members.head? = some (rep p i) := by
  obtain ⟨b, hb, hib, _⟩ := h.exists_block hi
  obtain ⟨first, ms, hm⟩ := exists_cons_of_ne_nil (h.nonempty b hb)
  rw [rep_of_mem h hb hm hib]
  exact ⟨b, hb, hib, by simp [hm], by simp [hm]⟩

theorem rep_mem (h : Valid states p) (hi : i ∈ states) : rep p i ∈ states := by
  obtain ⟨b, hb, _, hr, _⟩ := exists_rep h hi
  exact h.mem_states hb hr

theorem rep_eq_iff (h : Valid states p) {j : ℕ} (hi : i ∈ states) (hj : j ∈ states) :
    rep p i = rep p j ↔ p.part i = p.part j := by
  obtain ⟨a, ha, hia, hra, hfa⟩ := exists_rep h hi
  obtain ⟨b, hb, hjb, hrb, hfb⟩ := exists_rep h hj
  constructor
  · intro he
    have hab : a = b := h.mem_unique ha hb hra (he ▸ hrb)
    exact (h.part_eq_iff hi hj).mpr ⟨a, ha, hia, hab ▸ hjb⟩
  · intro he
    have hab : a = b := h.block_eq ha hb (by rw [← h.part a ha i hia, ← h.part b hb j hjb, he])
    rw [hab, hfb] at hfa
    exact (Option.some.inj hfa).symm

theorem rep_part (h : Valid states p) (hi : i ∈ states) : p.part (rep p i) = p.part i := by
  obtain ⟨b, hb, hib, hr, _⟩ := exists_rep h hi
  rw [h.part b hb i hib, h.part b hb _ hr]

theorem rep_rep (h : Valid states p) (hi : i ∈ states) : rep p (rep p i) = rep p i :=
  (rep_eq_iff h (rep_mem h hi) hi).mpr (rep_part h hi)

theorem rep_eq_self (h : Valid states p) (hlen : p.blocks.length = states.length) (hi : i ∈ states) :
    rep p i = i := by
  obtain ⟨b, hb, hib, _⟩ := h.exists_block hi
  have hone : ∀ l : List (Block ℕ), (∀ b ∈ l, b.members ≠ []) → l.length = (l.flatMap Block.members).length →
      ∀ b ∈ l, b.members.length = 1 := by
    intro l hne hl
    induction l with
    | nil => simp
    | cons a l ih =>
      have ha := length_pos_iff.mpr (hne a (by simp))
      have hle := length_le_flatMap fun b hb => hne b (mem_cons_of_mem _ hb)
      rw [flatMap_cons, length_append, length_cons] at hl
      intro b hb
      rcases mem_cons.mp hb with rfl | hb
      · omega
      · exact ih (fun b hb => hne b (mem_cons_of_mem _ hb)) (by omega) b hb
  obtain ⟨first, hm⟩ := length_eq_one_iff.mp
    (hone p.blocks h.nonempty (hlen.trans h.perm.length_eq.symm) b hb)
  rw [rep_of_mem h hb hm hib]
  rw [hm] at hib
  exact (mem_singleton.mp hib).symm

end Rep

section Remap

variable {p : Partition ℕ} {state : ℕ → State}

theorem foldlM_clearLabel {first : ℕ} {ms : List ℕ} (hfirst : first ∉ ms) (hnd : ms.Nodup)
    (hperms : ∀ i ∈ ms, (state first).perms = (state i).perms) :
    ms.foldlM (clearLabel first) state =
      .ok fun i => if i ∈ ms then { state i with label := -1 } else state i := by
  induction ms generalizing state with
  | nil => simp [pure, Except.pure]
  | cons m ms ih =>
    obtain ⟨hm, hnd⟩ := nodup_cons.mp hnd
    rw [mem_cons, not_or] at hfirst
    have hother : ∀ i ≠ m, update state m { state m with label := -1 } i = state i := fun i hi =>
      update_of_ne hi _ _
    rw [foldlM_cons, clearLabel, if_neg (not_not.mpr (hperms m (by simp)))]
    refine (ih hfirst.2 hnd fun i hi => ?_).trans ?_
    · rw [hother _ hfirst.1, hother i fun he => hm (he ▸ hi)]
      exact hperms i (mem_cons_of_mem _ hi)
    · congr 1
      funext i
      by_cases him : i = m
      · subst him
        simp [hm]
      · simp [him]

def remapped (p : Partition ℕ) (blocks : List (Block ℕ)) (state : ℕ → State) (i : ℕ) : State :=
  if i ∈ blocks.filterMap (fun b => b.members.head?) then remapState p (state i)
  else if i ∈ blocks.flatMap Block.members then { state i with label := -1 }
  else state i

variable {blocks : List (Block ℕ)}

variable {i : ℕ}

theorem remapped_congr {state' : ℕ → State} (h : state i = state' i) :
    remapped p blocks state i = remapped p blocks state' i := by
  simp only [remapped, h]

theorem mem_heads_cons {b : Block ℕ} :
    i ∈ (b :: blocks).filterMap (fun b => b.members.head?) ↔
      b.members.head? = some i ∨ i ∈ blocks.filterMap fun b => b.members.head? := by
  simp [mem_filterMap]

theorem mem_flatMap_of_mem_heads
    (h : i ∈ blocks.filterMap fun b => b.members.head?) : i ∈ blocks.flatMap Block.members := by
  obtain ⟨b, hb, hi⟩ := mem_filterMap.mp h
  exact mem_flatMap.mpr ⟨b, hb, mem_of_mem_head? hi⟩

theorem remapBlock_eq {b : Block ℕ} (hne : b.members ≠ []) (hnd : b.members.Nodup)
    (hperms : ∀ i ∈ b.members, ∀ j ∈ b.members, (state i).perms = (state j).perms) :
    remapBlock p state b = .ok (remapped p [b] state) := by
  obtain ⟨first, ms, hm⟩ := exists_cons_of_ne_nil hne
  rw [hm] at hnd hperms
  obtain ⟨hfirst, hnd⟩ := nodup_cons.mp hnd
  unfold remapBlock
  rw [hm]
  simp only
  have hother : ∀ i ≠ first, update state first (remapState p (state first)) i = state i := fun i hi =>
    update_of_ne hi _ _
  rw [foldlM_clearLabel hfirst hnd]
  · congr 1
    funext i
    unfold remapped
    by_cases hi : i = first
    · subst hi
      simp [hfirst, hm]
    · simp [hi, hm]
  · intro i hi
    rw [update_self, hother i fun he => hfirst (he ▸ hi)]
    exact hperms first (by simp) i (mem_cons_of_mem _ hi)

theorem foldlM_remapBlock (hne : ∀ b ∈ blocks, b.members ≠ [])
    (hnd : (blocks.flatMap Block.members).Nodup)
    (hperms : ∀ b ∈ blocks, ∀ i ∈ b.members, ∀ j ∈ b.members, (state i).perms = (state j).perms) :
    blocks.foldlM (remapBlock p) state = .ok (remapped p blocks state) := by
  induction blocks generalizing state with
  | nil => rfl
  | cons b blocks ih =>
    rw [flatMap_cons, nodup_append] at hnd
    obtain ⟨hb, hl, hdisj⟩ := hnd
    have hlater : ∀ i ∈ blocks.flatMap Block.members, remapped p [b] state i = state i := by
      intro i hi
      have hnot : i ∉ b.members := fun h => hdisj i h i hi rfl
      have hhead : b.members.head? ≠ some i := fun h => hnot (mem_of_mem_head? h)
      simp [remapped, hnot, hhead, eq_comm]
    rw [foldlM_cons, remapBlock_eq (hne b (by simp)) hb (hperms b (by simp))]
    refine (ih (fun a ha => hne a (mem_cons_of_mem _ ha)) hl fun a ha i hi j hj => ?_).trans ?_
    · rw [hlater i (mem_flatMap.mpr ⟨a, ha, hi⟩), hlater j (mem_flatMap.mpr ⟨a, ha, hj⟩)]
      exact hperms a (mem_cons_of_mem _ ha) i hi j hj
    · congr 1
      funext i
      by_cases hi : i ∈ blocks.flatMap Block.members
      · have hhead : b.members.head? ≠ some i := fun h => hdisj i (mem_of_mem_head? h) i hi rfl
        rw [remapped_congr (hlater i hi)]
        simp only [remapped, mem_heads_cons, flatMap_cons, mem_append, hi, hhead, or_true, false_or]
      · have hheads : i ∉ blocks.filterMap fun b => b.members.head? := fun h => hi (mem_flatMap_of_mem_heads h)
        rw [remapped, if_neg hheads, if_neg hi]
        simp only [remapped, mem_heads_cons, flatMap_cons, mem_append, hi, hheads, or_false,
          filterMap_nil, not_mem_nil, flatMap_nil]

theorem remapped_eq {states : List ℕ} (h : Valid states p) (hi : i ∈ states) :
    remapped p p.blocks state i =
      if rep p i = i then remapState p (state i) else { state i with label := -1 } := by
  obtain ⟨b, hb, hib, hr, hhead⟩ := exists_rep h hi
  have hmem : i ∈ p.blocks.filterMap (fun b => b.members.head?) ↔ rep p i = i := by
    rw [mem_filterMap]
    constructor
    · rintro ⟨a, ha, hai⟩
      have hab : a = b := h.mem_unique ha hb (mem_of_mem_head? hai) hib
      rw [hab, hhead] at hai
      exact Option.some.inj hai
    · exact fun he => ⟨b, hb, hhead.trans (congrArg some he)⟩
  have hflat : i ∈ p.blocks.flatMap Block.members := mem_flatMap.mpr ⟨b, hb, hib⟩
  unfold remapped
  simp only [hmem, hflat, if_true]

end Remap

end Minimize

open Minimize

structure Minimized (d d' : DFA) (rep : ℕ → ℕ) : Prop where
  mem : ∀ i, i ∈ d'.states ↔ i ∈ d.states ∧ rep i = i
  nodup : d'.states.Nodup
  rep_mem : ∀ i ∈ d.states, rep i ∈ d.states
  rep_rep : ∀ i ∈ d.states, rep (rep i) = rep i
  rep_eq_iff : ∀ i ∈ d.states, ∀ j ∈ d.states, rep i = rep j ↔ Indist d.delta d.obs i j
  start : d'.start = rep d.start
  nonmatching : d'.nonmatching = rep d.nonmatching
  perms : ∀ i, (d'.state i).perms = (d.state i).perms
  diff : ∀ i, (d'.state i).diff = (d.state i).diff
  label : ∀ i ∈ d'.states, (d'.state i).label ≠ -1
  otherwise : ∀ i ∈ d'.states, (d'.state i).otherwise = rep (d.state i).otherwise
  trans : ∀ i ∈ d'.states, ∀ c : ℤ, (d'.state i).trans[c]? =
    ((d.state i).trans[c]?).bind fun t => if rep t = rep (d.state i).otherwise then none else some (rep t)

section Spec

variable {d : DFA}

theorem repartition_initial (h : d.Closed) : ∃ p,
    repartition (sameMappings d) d.states.length (d.states.length + 1) (initial d) = some p ∧ Valid d.states p ∧
      ∀ i ∈ d.states, ∀ j ∈ d.states, p.part i = p.part j ↔ Indist d.delta d.obs i j := by
  have hinit : InitInv d d.states (d.states.foldl (initStep d) (.empty, [])) := initInv_foldl h.nodup
  obtain ⟨p, hp, hv, hs, hst⟩ := repartition_spec h.nodup (sameMappings_iff d) (d.states.length + 1) hinit.valid
    (by omega)
  have hclosed : ∀ i ∈ d.states, ∀ c, d.delta i c ∈ d.states := fun i hi c => h.delta hi c
  refine ⟨p, hp, hv, fun i hi j hj => ⟨?_, ?_⟩⟩
  · refine indist_of_stable hclosed (fun s hs' t ht he => congrFun (hst s hs' t ht he)) (fun s hs' t ht he => ?_) hi hj
    exact (hinit.part_eq_iff hs' ht).mp (hs.refines s hs' t ht he)
  · refine hs.coarser _ (respects_indist hclosed) (fun s hs' t ht he => ?_) i hi j hj
    exact (hinit.part_eq_iff hs' ht).mpr (he [])

theorem minimize_spec (h : d.Unencoded) : ∃ d' rep, d.minimize = .ok d' ∧ Minimized d d' rep := by
  obtain ⟨p, hp, hv, hpart⟩ := repartition_initial h.toClosed
  have hclass : ∀ i ∈ d.states, ∀ j ∈ d.states, rep p i = rep p j ↔ Indist d.delta d.obs i j := by
    intro i hi j hj
    rw [rep_eq_iff hv hi hj, hpart i hi j hj]
  have hperms : ∀ b ∈ p.blocks, ∀ i ∈ b.members, ∀ j ∈ b.members, (d.state i).perms = (d.state j).perms := by
    intro b hb i hi j hj
    have hi' := hv.mem_states hb hi
    have hj' := hv.mem_states hb hj
    exact DFA.perms_eq_of_obs ((hpart i hi' j hj').mp ((hv.part_eq_iff hi' hj').mpr ⟨b, hb, hi, hj⟩) [])
  unfold DFA.minimize
  rw [hp]
  simp only
  by_cases hlen : p.blocks.length = d.states.length
  · have hself := fun i hi => rep_eq_self hv hlen (i := i) hi
    refine ⟨d, rep p, if_pos hlen, ?_⟩
    refine ⟨fun i => ⟨fun hi => ⟨hi, hself i hi⟩, And.left⟩, h.nodup, fun i hi => rep_mem hv hi,
      fun i hi => rep_rep hv hi, hclass, (hself _ h.start).symm, (hself _ h.nonmatching).symm, fun _ => rfl, fun _ => rfl,
      h.label, fun i hi => (hself _ (h.otherwise i hi)).symm, fun i hi c => ?_⟩
    cases ht : (d.state i).trans[c]? with
    | none => rfl
    | some t =>
      rw [Option.bind_some, hself t (h.trans i hi c t ht), hself _ (h.otherwise i hi), if_neg (h.uncovered i hi c t ht)]
  · rw [if_neg hlen, foldlM_remapBlock hv.nonempty (hv.perm.nodup_iff.mpr h.nodup) hperms]
    refine ⟨_, rep p, rfl, ?_⟩
    have hmem : ∀ i, i ∈ d.states.filter (fun i => (remapped p p.blocks d.state i).label ≠ -1) ↔
        i ∈ d.states ∧ rep p i = i := by
      intro i
      rw [mem_filter]
      refine and_congr_right fun hi => ?_
      rw [remapped_eq hv hi]
      by_cases hr : rep p i = i
      · simp [hr, remapState, h.label i hi]
      · simp [hr]
    have hstate : ∀ i ∈ d.states.filter (fun i => (remapped p p.blocks d.state i).label ≠ -1),
        remapped p p.blocks d.state i = remapState p (d.state i) := by
      intro i hi
      obtain ⟨hi, hr⟩ := (hmem i).mp hi
      rw [remapped_eq hv hi, if_pos hr]
    refine ⟨hmem, h.nodup.filter _, fun i hi => rep_mem hv hi, fun i hi => rep_rep hv hi, hclass, rfl, rfl, ?_, ?_, ?_,
      ?_, ?_⟩
    · intro i
      simp only [remapped]
      split_ifs <;> rfl
    · intro i
      simp only [remapped]
      split_ifs <;> rfl
    · intro i hi
      simpa using (mem_filter.mp hi).2
    · intro i hi
      dsimp only
      rw [hstate i hi]
      rfl
    · intro i hi c
      dsimp only
      rw [hstate i hi]
      exact Std.ExtTreeMap.getElem?_filterMap'

end Spec

namespace Minimized

variable {d d' : DFA} {rep : ℕ → ℕ} {i j : ℕ}

theorem rep_mem' (h : Minimized d d' rep) (hi : i ∈ d.states) : rep i ∈ d'.states :=
  (h.mem _).mpr ⟨h.rep_mem i hi, h.rep_rep i hi⟩

theorem mem_old (h : Minimized d d' rep) (hi : i ∈ d'.states) : i ∈ d.states := ((h.mem i).mp hi).1

theorem delta (h : Minimized d d' rep) (hi : i ∈ d'.states) (c : ℤ) : d'.delta i c = rep (d.delta i c) := by
  unfold DFA.delta
  rw [h.trans i hi, h.otherwise i hi]
  cases (d.state i).trans[c]? with
  | none => rfl
  | some t =>
    rw [Option.bind_some, Option.getD_some]
    split_ifs with he
    · exact he.symm
    · rfl

theorem indist_rep (h : Minimized d d' rep) (hi : i ∈ d.states) : Indist d.delta d.obs (rep i) i :=
  (h.rep_eq_iff _ (h.rep_mem i hi) i hi).mp (h.rep_rep i hi)

theorem delta_rep (h : Minimized d d' rep) (hd : d.Closed) (hi : i ∈ d.states) (c : ℤ) :
    d'.delta (rep i) c = rep (d.delta i c) := by
  rw [h.delta (h.rep_mem' hi), h.rep_eq_iff _ (hd.delta (h.rep_mem i hi) c) _ (hd.delta hi c)]
  exact (h.indist_rep hi).step c

theorem foldl_delta (h : Minimized d d' rep) (hd : d.Closed) (hi : i ∈ d.states) (w : List ℤ) :
    w.foldl d'.delta (rep i) = rep (w.foldl d.delta i) := by
  induction w generalizing i with
  | nil => rfl
  | cons c w ih => rw [foldl_cons, foldl_cons, h.delta_rep hd hi, ih (hd.delta hi c)]

theorem perms_rep (h : Minimized d d' rep) (hi : i ∈ d.states) : (d'.state (rep i)).perms = (d.state i).perms := by
  rw [h.perms]
  exact DFA.perms_eq_of_obs (h.indist_rep hi [])

theorem closed (h : Minimized d d' rep) (hd : d.Closed) : d'.Closed where
  nodup := h.nodup
  start := h.start ▸ h.rep_mem' hd.start
  nonmatching := h.nonmatching ▸ h.rep_mem' hd.nonmatching
  otherwise := fun i hi => h.otherwise i hi ▸ h.rep_mem' (hd.otherwise i (h.mem_old hi))
  trans := by
    intro i hi c t ht
    rw [h.trans i hi] at ht
    obtain ⟨u, hu, ht⟩ := Option.bind_eq_some_iff.mp ht
    split_ifs at ht
    rw [← Option.some.inj ht]
    exact h.rep_mem' (hd.trans i (h.mem_old hi) c u hu)

theorem unencoded (h : Minimized d d' rep) (hd : d.Unencoded) : d'.Unencoded where
  toClosed := h.closed hd.toClosed
  diff := fun i => by rw [h.diff, hd.diff]
  label := h.label
  uncovered := by
    intro i hi c t ht
    rw [h.trans i hi] at ht
    obtain ⟨u, hu, ht⟩ := Option.bind_eq_some_iff.mp ht
    split_ifs at ht with hne
    rw [← Option.some.inj ht, h.otherwise i hi]
    exact hne

theorem coarsest (h : Minimized d d' rep) (hd : d.Closed) (hi : i ∈ d'.states) (hj : j ∈ d'.states)
    (his : i ≠ d'.start) (hjs : j ≠ d'.start) (hperms : (d'.state i).perms = (d'.state j).perms)
    (hdelta : ∀ c, d'.delta i c = d'.delta j c) : i = j := by
  obtain ⟨hi', hri⟩ := (h.mem i).mp hi
  obtain ⟨hj', hrj⟩ := (h.mem j).mp hj
  have hobs : ∀ k, rep k = k → k ≠ d'.start → d.obs k = some (d'.state k).perms := by
    intro k hk hks
    rw [DFA.obs, if_neg, h.perms]
    intro he
    exact hks (by rw [h.start, ← he, hk])
  rw [← hri, ← hrj, h.rep_eq_iff i hi' j hj']
  rintro (_ | ⟨c, w⟩)
  · exact (hobs i hri his).trans ((congrArg some hperms).trans (hobs j hrj hjs).symm)
  · have hc := hdelta c
    rw [h.delta hi, h.delta hj, h.rep_eq_iff _ (hd.delta hi' c) _ (hd.delta hj' c)] at hc
    exact hc w

end Minimized

end AppArmor

import AppArmor.Hfa.ChfaPack
import AppArmor.Hfa.DiffWrap

namespace AppArmor

open List Option Nat

namespace CHFA

variable {d : DFA} {done : List ℕ} {base : ℕ → ℕ} {t : CHFA} {s : ℕ}

theorem baseMask_word (b : ℕ) : baseMask (word d s b) = b % 2 ^ 24 := by
  have hflags : ∀ c, flags d s c % 2 ^ 24 = 0 := by
    intro c
    unfold flags
    split_ifs <;> rfl
  rw [baseMask, word, or_mod_two_pow, hflags, or_zero]

theorem testBit_word {b : ℕ} (hb : b < 2 ^ 24) : (word d s b).testBit 31 = (d.state s).diff := by
  have hflags : ∀ c, (flags d s c).testBit 31 = (d.state s).diff := by
    intro c
    unfold flags
    by_cases hc : c < 0 <;> cases (d.state s).diff <;> simp only [hc, if_true, if_false] <;> decide
  rw [word, testBit_or, hflags, testBit_lt_two_pow (hb.trans (by decide)), Bool.false_or]

theorem Packed.number_nonmatching (h : Packed d done base t) : t.number d.nonmatching = 0 := by
  rw [number, h.num, idxOf_cons_self]

theorem Packed.number_inj (h : Packed d done base t) {a b : ℕ} (ha : a ∈ d.nonmatching :: done)
    (he : t.number a = t.number b) : a = b := by
  rw [number, number, h.num] at he
  exact (idxOf_inj ha).mp he

theorem Packed.entry (h : Packed d done base t) (ho : (d.state d.nonmatching).otherwise = d.nonmatching)
    (ht : (d.state d.nonmatching).trans = ∅) (hd : (d.state d.nonmatching).diff = false)
    (hs : s ∈ d.nonmatching :: done) :
    t.defaultBase[t.number s]? = some ((d.state s).otherwise, word d s (base s)) := by
  have hword : word d d.nonmatching 0 = 0 := by
    rw [word, firstKey, ht, flags, hd]
    rfl
  have htable : t.defaultBase = (d.nonmatching :: done).map fun s => ((d.state s).otherwise, word d s (base s)) := by
    rw [h.table, map_cons, h.zero, ho, hword]
  rw [htable, number, h.num, getElem?_map, getElem?_idxOf hs]
  rfl

theorem Packed.owned_all (h : Packed d done base t) (ht : (d.state d.nonmatching).trans = ∅) (hs : s ∈ d.nonmatching :: done)
    (c : ℤ) (target : ℕ) (htarget : (d.state s).trans[c]? = some target) :
    0 < base s + c ∧ t.nextCheck (base s + c).toNat = some (target, s) := by
  rcases mem_cons.mp hs with rfl | hs
  · rw [ht, Std.ExtTreeMap.getElem?_empty] at htarget
    cases htarget
  · exact h.owned s hs c target htarget

theorem Packed.inside_all (h : Packed d done base t) (hrange : 256 ≤ d.maxRange) (hs : s ∈ d.nonmatching :: done) :
    base s + 255 < t.size := by
  rcases mem_cons.mp hs with rfl | hs
  · have := h.size
    rw [h.zero]
    omega
  · exact h.inside s hs

theorem Packed.owner_of_check (h : Packed d done base t) (hs : s ∈ done) (hne : s ≠ d.nonmatching) {p : ℕ}
    (hcheck : t.check p = t.number s) : ∃ (c : ℤ) (target : ℕ), (d.state s).trans[c]? = some target ∧ (p : ℤ) = base s + c := by
  have hpos : t.number s ≠ 0 := by
    rw [← h.number_nonmatching]
    exact fun he => hne (h.number_inj (mem_cons_of_mem _ hs) he)
  unfold check at hcheck
  cases hc : t.nextCheck p with
  | none =>
    rw [hc] at hcheck
    exact absurd hcheck.symm hpos
  | some e =>
    rw [hc] at hcheck
    have he : s = e.2 := h.number_inj (mem_cons_of_mem _ hs) hcheck.symm
    rcases Nat.eq_zero_or_pos p with rfl | hp
    · rw [h.first, some.injEq] at hc
      rw [← hc] at he
      exact absurd he hne
    · obtain ⟨-, c, hc, heq⟩ := h.owner p e.1 e.2 hp hc
      rw [← he] at hc heq
      exact ⟨c, e.1, hc, heq⟩

theorem Packed.check_iff (h : Packed d done base t) (hs : s ∈ done) (hne : s ≠ d.nonmatching) (c : ℕ) :
    t.check (base s + c) = t.number s ↔ ∃ target, (d.state s).trans[(c : ℤ)]? = some target := by
  constructor
  · intro hcheck
    obtain ⟨c', target, hc', heq⟩ := h.owner_of_check hs hne hcheck
    refine ⟨target, ?_⟩
    rwa [show (c : ℤ) = c' by omega]
  · rintro ⟨target, htarget⟩
    have ho := (h.owned s hs c target htarget).2
    rw [check, show base s + c = ((base s : ℤ) + c).toNat by omega, ho]
    rfl

theorem Packed.next_of_check_zero (h : Packed d done base t) (hnm : d.nonmatching ∉ done) {p : ℕ}
    (hcheck : t.check p = 0) : t.next p = 0 := by
  unfold check at hcheck
  unfold next
  cases hc : t.nextCheck p with
  | none => rfl
  | some e =>
    rw [hc] at hcheck
    have he : d.nonmatching = e.2 := h.number_inj mem_cons_self (h.number_nonmatching.trans hcheck.symm)
    rcases Nat.eq_zero_or_pos p with rfl | hp
    · rw [h.first, some.injEq] at hc
      rw [← hc]
      exact h.number_nonmatching
    · exact absurd (he ▸ (h.owner p e.1 e.2 hp hc).1) hnm

theorem scan_eq (h : d.Packable) {transHigh : Bool} (hp : Packed d (packOrder d transHigh) base t)
    (hsize : t.size ≤ 2 ^ 24) {c : ℕ} (hc : c < 256) (fuel : ℕ) (hs : s ∈ d.states) :
    t.scan c fuel (t.number s) = (d.nextFrom fuel s c).map t.number := by
  induction fuel generalizing s with
  | zero => rfl
  | succ fuel ih =>
    have hs' := (mem_packOrder h transHigh).mpr hs
    have hin := hp.inside_all h.maxRange hs'
    have hentry := hp.entry h.nonmatching_otherwise h.nonmatching_trans h.nonmatching_diff hs'
    rw [scan, hentry]
    simp only [bind_eq_bind, bind_some]
    rw [baseMask_word, mod_eq_of_lt (by omega), testBit_word (by omega), if_neg (by omega), DFA.nextFrom]
    by_cases hnm : s = d.nonmatching
    · subst hnm
      have hnot := (nodup_cons.mp (packOrder_nodup h transHigh)).1
      rw [h.nonmatching_trans, h.nonmatching_otherwise, h.nonmatching_diff, hp.number_nonmatching]
      simp only [Std.ExtTreeMap.getElem?_empty, Bool.false_eq_true, if_false, map_some, hp.number_nonmatching]
      split_ifs with hcheck
      · rw [hp.next_of_check_zero hnot hcheck]
      · rfl
    · have hdone : s ∈ packOrder d transHigh := (mem_cons.mp hs').resolve_left hnm
      have hiff := hp.check_iff hdone hnm c
      cases htr : (d.state s).trans[(c : ℤ)]? with
      | some target =>
        rw [if_pos (hiff.mpr ⟨target, htr⟩), next, show base s + c = ((base s : ℤ) + c).toNat by omega,
          (hp.owned s hdone c target htr).2]
        rfl
      | none =>
        rw [if_neg fun he => by
          obtain ⟨target, htarget⟩ := hiff.mp he
          rw [htr] at htarget
          cases htarget]
        dsimp only
        split_ifs
        · exact ih (h.otherwise s hs)
        · rfl

theorem length_packOrder (h : d.Packable) (transHigh : Bool) : (packOrder d transHigh).length + 1 = d.states.length := by
  have hperm : (d.nonmatching :: packOrder d transHigh).Perm d.states :=
    (perm_ext_iff_of_nodup (packOrder_nodup h transHigh) h.nodup).mpr fun s => mem_packOrder h transHigh
  rw [← hperm.length_eq, length_cons]

/-- Every window lies inside the tables, a slot belongs to one transition of one state, and, as long as the base indexes
leave the flags alone, the tables are scanned as the automaton is. -/
theorem chfa_scans (h : d.Packable) (transHigh : Bool) : ∃ (t : CHFA) (base : ℕ → ℕ), d.chfa transHigh = some t ∧
    t.size ≤ max (optimal d) d.maxRange.toNat + d.states.length * (256 + d.maxRange).toNat ∧
    (∀ s ∈ d.states, t.defaultBase[t.number s]? = some ((d.state s).otherwise, word d s (base s)) ∧
      base s + 255 < t.size) ∧
    (∀ s ∈ d.states, ∀ (c : ℤ) target, (d.state s).trans[c]? = some target →
      0 < base s + c ∧ t.nextCheck (base s + c).toNat = some (target, s)) ∧
    (∀ s₁ ∈ d.states, ∀ s₂ ∈ d.states, ∀ c₁ c₂ : ℤ, c₁ ∈ (d.state s₁).trans → c₂ ∈ (d.state s₂).trans →
      base s₁ + c₁ = base s₂ + c₂ → s₁ = s₂) ∧
    (t.size ≤ 2 ^ 24 → ∀ s ∈ d.states, ∀ c : ℕ, c < 256 → ∃ n, d.next s c = some n ∧
      t.scan c (d.states.length + 1) (t.number s) = some (t.number n)) := by
  obtain ⟨t, base, ht, hp, hgrown⟩ := chfa_packed_size h transHigh
  have hsize : t.size ≤ max (optimal d) d.maxRange.toNat + d.states.length * (256 + d.maxRange).toNat := by
    apply hgrown.trans (Nat.add_le_add_left (Nat.mul_le_mul_right _ _) _)
    rw [← length_packOrder h transHigh]
    exact le_succ _
  have hmem : ∀ s ∈ d.states, s ∈ d.nonmatching :: packOrder d transHigh := fun s hs => (mem_packOrder h _).mpr hs
  have howned : ∀ s ∈ d.states, ∀ (c : ℤ) target, (d.state s).trans[c]? = some target →
      0 < base s + c ∧ t.nextCheck (base s + c).toNat = some (target, s) := fun s hs =>
    hp.owned_all h.nonmatching_trans (hmem s hs)
  refine ⟨t, base, ht, hsize, fun s hs => ⟨?_, hp.inside_all h.maxRange (hmem s hs)⟩, howned, ?_, fun hsize s hs c hc => ?_⟩
  · exact hp.entry h.nonmatching_otherwise h.nonmatching_trans h.nonmatching_diff (hmem s hs)
  · intro s₁ h₁ s₂ h₂ c₁ c₂ hc₁ hc₂ he
    have ho₁ := (howned s₁ h₁ c₁ _ (Std.ExtTreeMap.getElem?_eq_some_getElem hc₁)).2
    have ho₂ := (howned s₂ h₂ c₂ _ (Std.ExtTreeMap.getElem?_eq_some_getElem hc₂)).2
    rw [he, ho₂, some.injEq, Prod.mk.injEq] at ho₁
    exact ho₁.2.symm
  · obtain ⟨n, hn⟩ := isSome_iff_exists.mp (h.chain s hs c (by omega) (by omega))
    refine ⟨n, hn, ?_⟩
    rw [scan_eq h hp hsize hc _ hs]
    change (d.next s c).map t.number = _
    rw [hn]
    rfl

theorem wrapped_scans : ∃ d d', DFA.build (fun _ => 0) wrapped wrapped.leafOrder true = .ok d ∧ d.diffEncode = some d' ∧
    d'.Packable ∧ ∃ (t : CHFA) (base : ℕ → ℕ), d'.chfa true = some t ∧ t.size ≤ 2 ^ 24 ∧
    (∀ s ∈ d'.states, t.defaultBase[t.number s]? = some ((d'.state s).otherwise, word d' s (base s)) ∧
      base s + 255 < t.size) ∧
    (∀ s ∈ d'.states, ∀ (c : ℤ) target, (d'.state s).trans[c]? = some target →
      0 < base s + c ∧ t.nextCheck (base s + c).toNat = some (target, s)) ∧
    (∀ s₁ ∈ d'.states, ∀ s₂ ∈ d'.states, ∀ c₁ c₂ : ℤ, c₁ ∈ (d'.state s₁).trans → c₂ ∈ (d'.state s₂).trans →
      base s₁ + c₁ = base s₂ + c₂ → s₁ = s₂) ∧
    (∀ s ∈ d'.states, ∀ c : ℕ, c < 256 → ∃ n, d'.next s c = some n ∧
      t.scan c (d'.states.length + 1) (t.number s) = some (t.number n)) := by
  have h : (DFA.build (fun _ => 0) wrapped wrapped.leafOrder true).toOption.any (fun d => d.diffEncode.any fun d' =>
      d'.Packable ∧ (d'.chfa true).any fun t => t.size ≤ 2 ^ 24) = true := by
    decide +kernel
  obtain ⟨d, hd, h⟩ := ok_of_any h
  obtain ⟨d', he, h⟩ := (Option.any_eq_true _ _).mp h
  obtain ⟨hpack, hsize⟩ := of_decide_eq_true h
  obtain ⟨t, base, ht, -, hentry, howned, hone, hscan⟩ := chfa_scans hpack true
  rw [ht] at hsize
  have hsize' : t.size ≤ 2 ^ 24 := of_decide_eq_true hsize
  exact ⟨d, d', hd, he, hpack, t, base, ht, hsize', hentry, howned, hone, hscan hsize'⟩

section Large

def bytesBelow (n : ℕ) : CharMap ℕ := (List.range n).foldl (fun m (c : ℕ) => m.insert (c : ℤ) 0) ∅

theorem bytesBelow_get (n : ℕ) (c : ℤ) : (bytesBelow n)[c]? = if 0 ≤ c ∧ c < n then some 0 else none := by
  unfold bytesBelow
  induction n with
  | zero =>
    rw [if_neg (by omega)]
    exact Std.ExtTreeMap.getElem?_empty
  | succ n ih =>
    rw [range_succ, foldl_append, foldl_cons, foldl_nil, Std.ExtTreeMap.getElem?_insert, ih]
    simp only [compare_eq_iff_eq]
    split_ifs <;> first | rfl | omega

def large (n : ℕ) : DFA where
  state i :=
    { label := i
      diff := false
      perms := PermsT.clear
      trans := if i < 2 then ∅ else bytesBelow 256
      otherwise := if i = 0 then 0 else 1
      proto := ⟨∅, none⟩ }
  states := List.range (n + 2)
  nonmatching := 0
  start := 1
  diffcount := 0
  oobRange := 0
  maxRange := 256
  ordRange := 8
  upperBound := 256
  filedfa := true

variable {n : ℕ}

theorem large_trans (s : ℕ) (c : ℤ) :
    ((large n).state s).trans[c]? = if 2 ≤ s ∧ 0 ≤ c ∧ c < 256 then some 0 else none := by
  unfold large
  dsimp only
  split_ifs with h₁ h₂ h₂
  · omega
  · exact Std.ExtTreeMap.getElem?_empty
  · rw [bytesBelow_get]
    exact if_pos h₂.2
  · rw [bytesBelow_get]
    exact if_neg fun h => h₂ ⟨by omega, h⟩

theorem mem_large : s ∈ (large n).states ↔ s < n + 2 := mem_range

theorem large_packable : (large n).Packable := by
  refine ⟨⟨nodup_range, mem_large.mpr ?_, mem_large.mpr ?_, ?_, ?_⟩, one_ne_zero, rfl, rfl, rfl, rfl, le_rfl, ?_, ?_⟩
  · exact le_add_left 2 n
  · exact succ_pos _
  · intro s _
    rw [mem_large]
    unfold large
    dsimp only
    split_ifs <;> omega
  · intro s _ c target ht
    rw [large_trans] at ht
    split_ifs at ht
    cases ht
    exact mem_large.mpr (succ_pos _)
  · intro s _ c target ht
    rw [large_trans] at ht
    split_ifs at ht with hc
    exact ⟨show -256 ≤ c by omega, hc.2.2⟩
  · intro s _ c _ _
    rw [DFA.next_eq_delta rfl]
    rfl

theorem large_base (h : Packed (large n) done base t)
    (hdone : ∀ s, 2 ≤ s → s < n + 2 → s ∈ done) {k : ℕ} (hn : k < n) : ∃ s, 2 ≤ s ∧ s < n + 2 ∧ 256 * k ≤ base s := by
  by_contra hnot
  push Not at hnot
  have hslot : ∀ s ∈ Finset.Ico 2 (n + 2), ∀ c ∈ Finset.range 256, t.nextCheck (base s + c) = some (0, s) := by
    intro s hs c hc
    rw [Finset.mem_Ico] at hs
    rw [Finset.mem_range] at hc
    have ho := (h.owned s (hdone s hs.1 hs.2) c 0 (by rw [large_trans, if_pos (by omega)])).2
    rwa [show ((base s : ℤ) + c).toNat = base s + c by omega] at ho
  have hcard : (Finset.Ico 2 (n + 2) ×ˢ Finset.range 256).card ≤ (Finset.range (256 * k + 255)).card := by
    apply Finset.card_le_card_of_injOn fun p => base p.1 + p.2
    · rintro ⟨s, c⟩ hp
      rw [Finset.mem_coe, Finset.mem_product, Finset.mem_Ico, Finset.mem_range] at hp
      have := hnot s hp.1.1 hp.1.2
      rw [Finset.mem_coe, Finset.mem_range]
      dsimp only at hp ⊢
      omega
    · rintro ⟨s, c⟩ hp ⟨s', c'⟩ hp' he
      rw [Finset.mem_coe, Finset.mem_product] at hp hp'
      have ho := hslot s hp.1 c hp.2
      have ho' := hslot s' hp'.1 c' hp'.2
      dsimp only at he
      rw [he, ho', some.injEq, Prod.mk.injEq] at ho
      have hs := ho.2
      subst hs
      rw [Prod.mk.injEq]
      exact ⟨rfl, by omega⟩
  rw [Finset.card_product, card_Ico, Finset.card_range, Finset.card_range] at hcard
  omega

theorem large_scan {transHigh : Bool} (h : Packed (large n) (packOrder (large n) transHigh) base t)
    (fuel : ℕ) (hs : s = 1 ∨ 2 ≤ s ∧ s < n + 2 ∧ 2 ^ 24 ≤ base s) : t.scan 0 fuel (t.number s) ≠ some 0 := by
  have hpack : (large n).Packable := large_packable
  have hstart : (large n).start ∈ packOrder (large n) transHigh := mem_cons_self
  induction fuel generalizing s with
  | zero => exact (some_ne_none 0).symm
  | succ fuel ih =>
    have hne : s ≠ 0 := by omega
    have hmem : s ∈ (large n).states := mem_large.mpr (by omega)
    have hall := (mem_packOrder hpack transHigh).mpr hmem
    have hdone : s ∈ packOrder (large n) transHigh := (mem_cons.mp hall).resolve_left hne
    have hother : ((large n).state s).otherwise = 1 := if_neg hne
    have hcheck : t.check (base s % 2 ^ 24) ≠ t.number s := by
      intro he
      obtain ⟨c, target, hc, heq⟩ := h.owner_of_check hdone hne he
      rw [large_trans] at hc
      split_ifs at hc
      omega
    have hnumber : t.number 1 ≠ 0 := by
      rw [← h.number_nonmatching]
      exact fun he => absurd (h.number_inj (mem_cons_of_mem _ hstart) he) one_ne_zero
    rw [scan, h.entry hpack.nonmatching_otherwise hpack.nonmatching_trans hpack.nonmatching_diff hall]
    simp only [bind_eq_bind, bind_some]
    rw [baseMask_word, add_zero, hother, if_neg hcheck]
    split_ifs
    · exact (some_ne_none 0).symm
    · exact ih (Or.inl rfl)
    · exact fun he => hnumber (some.inj he)

theorem large_misread : (large 65537).Packable ∧ ∀ transHigh, ∃ t, (large 65537).chfa transHigh = some t ∧
    ∃ s ∈ (large 65537).states, ∃ n, (large 65537).next s 0 = some n ∧
      ∀ fuel, t.scan 0 fuel (t.number s) ≠ some (t.number n) := by
  have hpack : ∀ n, (large n).Packable := fun n => large_packable
  have hread : ∀ n > 2 ^ 16, ∀ transHigh, ∃ t, (large n).chfa transHigh = some t ∧ ∃ s ∈ (large n).states,
      ∃ m, (large n).next s 0 = some m ∧ ∀ fuel, t.scan 0 fuel (t.number s) ≠ some (t.number m) := by
    intro n hn transHigh
    obtain ⟨t, base, ht, hp⟩ := chfa_packed (hpack n) transHigh
    have hdone : ∀ s, 2 ≤ s → s < n + 2 → s ∈ packOrder (large n) transHigh := by
      intro s h₂ hs
      have hall := (mem_packOrder (hpack n) transHigh).mpr (mem_large.mpr hs)
      exact (mem_cons.mp hall).resolve_left (show s ≠ 0 by omega)
    obtain ⟨s, h₂, hs, hbase⟩ := large_base hp hdone hn
    rw [show 256 * 2 ^ 16 = 2 ^ 24 by decide] at hbase
    refine ⟨t, ht, s, mem_large.mpr hs, 0, ?_, fun fuel => ?_⟩
    · rw [DFA.next_eq_delta rfl, DFA.delta, large_trans, if_pos (by omega)]
      rfl
    · have hzero : t.number 0 = 0 := hp.number_nonmatching
      rw [hzero]
      exact large_scan hp fuel (Or.inr ⟨h₂, hs, hbase⟩)
  exact ⟨hpack _, hread _ (by norm_num)⟩

end Large

end CHFA

end AppArmor

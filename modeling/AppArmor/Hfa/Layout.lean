import AppArmor.Hfa.ChfaScan
import AppArmor.Hfa.Classes
import AppArmor.Hfa.FlexCorrect

namespace AppArmor

open List Option Nat

namespace CHFA

section Base

variable {d : DFA} {s base : ℕ}

theorem flags_dvd (d : DFA) (s : ℕ) (c : ℤ) : 2 ^ 24 ∣ flags d s c := by
  unfold flags
  split_ifs <;> decide

theorem word_split (h : base < 2 ^ 24) : baseMask (word d s base) = base ∧
    word d s base / 2 ^ 24 * 2 ^ 24 = flags d s (firstKey (d.state s).trans) := by
  have hmask : baseMask (word d s base) = base := by
    rw [baseMask_word, Nat.mod_eq_of_lt h]
  obtain ⟨k, hk⟩ := flags_dvd d s (firstKey (d.state s).trans)
  have hword : word d s base = 2 ^ 24 * k + base := by
    rw [word, hk, Nat.or_comm, Nat.two_pow_add_eq_or_of_lt h]
  refine ⟨hmask, ?_⟩
  rw [hword, hk]
  omega

end Base

section Large

variable {n : ℕ}

theorem bytesBelow_size (n : ℕ) : (bytesBelow n).size ≤ n := by
  unfold bytesBelow
  induction n with
  | zero => exact le_of_eq Std.ExtTreeMap.size_empty
  | succ n ih =>
    rw [range_succ, foldl_append, foldl_cons, foldl_nil]
    exact Std.ExtTreeMap.size_insert_le.trans (succ_le_succ ih)

theorem optimal_large (n : ℕ) : optimal (large n) ≤ 2 + (n + 2) * 256 := by
  unfold optimal
  apply Nat.add_le_add_left
  have hsum := sum_le_card_nsmul (((large n).states.filter fun s => s ≠ (large n).start ∧ s ≠ (large n).nonmatching).map
    fun s => ((large n).state s).trans.size) 256 (by
      intro k hk
      obtain ⟨s, -, rfl⟩ := mem_map.mp hk
      change (if s < 2 then ∅ else bytesBelow 256).size ≤ 256
      split_ifs
      · exact Nat.zero_le _
      · exact bytesBelow_size 256)
  rw [length_map, smul_eq_mul] at hsum
  refine hsum.trans (Nat.mul_le_mul_right 256 ?_)
  calc _ ≤ (large n).states.length := length_filter_le _ _
    _ = n + 2 := length_range

theorem packOrder_large (n : ℕ) (transHigh : Bool) : (packOrder (large n) transHigh).length = n + 1 := by
  have hlen := length_packOrder (large_packable (n := n)) transHigh
  have hstates : (large n).states.length = n + 2 := length_range
  omega

theorem large_word (s base : ℕ) : word (large n) s base = base := by
  have hkey : 0 ≤ firstKey ((large n).state s).trans := by
    unfold firstKey
    cases hl : ((large n).state s).trans.toList with
    | nil => exact le_rfl
    | cons e l =>
      have he := Std.ExtTreeMap.mem_toList_iff_getElem?_eq_some.mp (hl ▸ mem_cons_self : e ∈ ((large n).state s).trans.toList)
      rw [large_trans] at he
      split_ifs at he with hc
      exact hc.2.1
  have hdiff : ((large n).state s).diff = false := rfl
  rw [word, flags, if_neg (not_lt.mpr hkey), hdiff, if_neg Bool.false_ne_true, or_zero, or_zero]

theorem large_tables (n : ℕ) (transHigh : Bool) : ∃ (t : CHFATables) (base : ℕ → ℕ),
    (large n).chfa transHigh = some t.toCHFA ∧ Packed (large n) (packOrder (large n) transHigh) base t.toCHFA ∧
    t.defaultBase.length = n + 2 ∧ t.size ≤ 2000 + 768 * n := by
  obtain ⟨c, base, hc, hp, hsize⟩ := chfa_packed_size (large_packable (n := n)) transHigh
  have hlen : c.defaultBase.length = n + 2 := by
    rw [hp.table, length_cons, length_map, packOrder_large]
  obtain ⟨t, ht, -⟩ := CHFATables.chfa_tables large_packable transHigh hc (replicate (n + 2) 0) [] ∅ 0
    (by rw [length_replicate, hlen]; omega) (Or.inl rfl)
  refine ⟨t, base, by rw [ht, hc], by rw [ht]; exact hp, by rw [ht, hlen], ?_⟩
  have hinitial : (initial (large n)).size = max (optimal (large n)) 256 := rfl
  have hoptimal := optimal_large n
  have hgrowth : (256 + (large n).maxRange).toNat = 512 := rfl
  rw [packOrder_large, hgrowth] at hsize
  rw [ht]
  omega

end Large

end CHFA

namespace CHFATables

open CHFA

variable {t : CHFATables}

theorem flexTableSerialize_isSome (t : CHFATables) (width maxSize : ℕ) :
    (t.flexTableSerialize width maxSize).isSome ↔ t.defaultBase.length < maxSize ∧ t.size < 2 ^ 32 - 1 := by
  unfold flexTableSerialize
  by_cases h₁ : maxSize ≤ t.defaultBase.length
  · rw [if_pos h₁]
    simp only [isSome_none, Bool.false_eq_true, false_iff]
    omega
  · by_cases h₂ : 2 ^ 32 - 1 ≤ t.size
    · rw [if_neg h₁, if_pos h₂]
      simp only [isSome_none, Bool.false_eq_true, false_iff]
      omega
    · rw [if_neg h₁, if_neg h₂]
      simp only [isSome_some, true_iff]
      omega

section Faithful

open Classes

theorem classedBytes_tables : ∃ t : CHFATables, classedBytes.chfa true = some t.toCHFA ∧ t.accept = [0, 1, 2, 3] ∧
    t.accept2 = [0, 0, 1, 1] ∧ t.eq = (spread 2).equivalenceClasses ∧ t.defaultBase.length = 4 ∧ t.size = 256 := by
  have h : classedBytes.Packable ∧ ((classedBytes.chfa true).any fun c => c.defaultBase.length = 4 ∧ c.size = 256) = true := by
    decide +kernel
  obtain ⟨hpack, hc⟩ := h
  cases hd : classedBytes.chfa true with
  | none =>
    rw [hd] at hc
    cases hc
  | some c =>
    rw [hd] at hc
    obtain ⟨hlen, hsize⟩ := of_decide_eq_true hc
    obtain ⟨t, rfl, haccept, haccept2, heq, -⟩ := chfa_tables hpack true hd [0, 1, 2, 3] [0, 0, 1, 1]
      (spread 2).equivalenceClasses 0 (by rw [hlen]; rfl) (Or.inr rfl)
    exact ⟨t, rfl, haccept, haccept2, heq, hlen, hsize⟩

theorem classedBytes_faithful : ∃ (t : CHFATables) (blob : Codec.Bytes), classedBytes.chfa true = some t.toCHFA ∧
    t.accept2 = [0, 0, 1, 1] ∧ t.eq = (spread 2).equivalenceClasses ∧ t.flexTable false false = some blob ∧
    t.FaithfulBlob 2 blob := by
  obtain ⟨t, ht, -, haccept2, heq, hlen, hsize⟩ := classedBytes_tables
  have haccepted : (t.flexTable false false).isSome := by
    change (t.flexTableSerialize 2 (2 ^ 16 - 1)).isSome
    rw [flexTableSerialize_isSome, hlen, hsize]
    decide
  obtain ⟨blob, hblob⟩ := isSome_iff_exists.mp haccepted
  have hbytes : t.tableBytes 2 < 2 ^ 32 := by
    unfold tableBytes
    rw [hlen, hsize]
    split_ifs <;> decide
  refine ⟨t, blob, ht, haccept2, heq, hblob, (flexTable_faithful_iff hblob).mpr ⟨hbytes, fun c hc => ?_⟩⟩
  have hclass : t.classOf c = classNum (spread 2).equivalenceClasses c := by
    rw [← heq]
    rfl
  have hle := classNum_le (d := spread 2) (spread_chars (by decide)) c
  have hne : classNum (spread 2).equivalenceClasses c ≠ 256 := fun hlast =>
    two_bytes_not_apart (allApart_of_last (spread_chars (by decide)) hlast)
  omega

theorem large_size {n k : ℕ} (hk : k < n) : ∃ t : CHFATables, (CHFA.large n).Packable ∧
    (CHFA.large n).chfa true = some t.toCHFA ∧ t.defaultBase.length = n + 2 ∧ 256 * k ≤ t.size ∧ t.size ≤ 2000 + 768 * n := by
  have hpack : (CHFA.large n).Packable := large_packable
  obtain ⟨t, base, ht, hp, hlen, hsize⟩ := large_tables n true
  have hmem : ∀ s < n + 2, s ∈ (CHFA.large n).nonmatching :: packOrder (CHFA.large n) true := fun s hs =>
    (mem_packOrder hpack true).mpr (mem_large.mpr hs)
  obtain ⟨s, h₂, hs, hbase⟩ := large_base hp (fun s h₂ hs => (mem_cons.mp (hmem s hs)).resolve_left (show s ≠ 0 by omega)) hk
  have hinside := hp.inside_all hpack.maxRange (hmem s hs)
  exact ⟨t, hpack, ht, hlen, by omega, hsize⟩

/-- The tables of `2 ^ 21 + 1` states that list every byte are accepted, but their size does not fit into the header. -/
theorem large_size_truncated : ∃ (t : CHFATables) (blob : Codec.Bytes), (CHFA.large (2 ^ 21 + 1)).Packable ∧
    (CHFA.large (2 ^ 21 + 1)).chfa true = some t.toCHFA ∧ t.flexTable true false = some blob ∧
    (∀ header tables, Flex.decodeFlex blob = some (header, tables) → header.ssize ≠ blob.length) ∧ ¬ t.FaithfulBlob 4 blob := by
  obtain ⟨t, hpack, ht, hlen, hlow, hhigh⟩ := large_size (show 2 ^ 21 < 2 ^ 21 + 1 by omega)
  have hlarge : t.large true = true := by
    rw [large, hlen]
    decide
  have haccepted : (t.flexTable true false).isSome := by
    rw [flexTable, if_pos hlarge, flexTableSerialize_isSome, hlen]
    omega
  obtain ⟨blob, hblob⟩ := isSome_iff_exists.mp haccepted
  have hwidth : t.stateWidth true = 4 := if_pos hlarge
  have hbytes : ¬ blob.length < 2 ^ 32 := by
    rw [flexTable_length hblob, hwidth]
    simp only [tableBytes, Flex.pad64]
    omega
  refine ⟨t, blob, hpack, ht, hblob, fun header tables hdecoded => ?_, fun hf => ?_⟩
  · rw [flexTable_decodes hblob] at hdecoded
    cases hdecoded
    exact fun he => hbytes (he ▸ mod_lt _ (by decide))
  · rw [← hwidth] at hf
    exact hbytes (FaithfulBlob.fits hblob hf).1

end Faithful

/-- With 65535 states the narrow layout is chosen, which is the first size that it does not take. -/
theorem flexTable_state32_iff (t : CHFATables) (flagsTable : Bool) (hlimit : t.defaultBase.length < 2 ^ 24 - 1) :
    (t.flexTable true flagsTable).isSome ↔
      t.size < 2 ^ 32 - 1 ∧ t.defaultBase.length ≠ 2 ^ 16 - 1 ∧ (flagsTable = true → 2 ^ 16 - 1 < t.defaultBase.length) := by
  unfold flexTable large
  rw [Bool.true_and]
  by_cases hwide : 2 ^ 16 - 1 < t.defaultBase.length
  · rw [if_pos (decide_eq_true hwide), flexTableSerialize_isSome]
    constructor
    · exact fun h => ⟨h.2, by omega, fun _ => hwide⟩
    · exact fun h => ⟨hlimit, h.1⟩
  · rw [if_neg (by rw [decide_eq_false hwide]; exact Bool.false_ne_true)]
    cases flagsTable with
    | true =>
      constructor
      · exact fun h => absurd h Bool.false_ne_true
      · exact fun h => absurd (h.2.2 rfl) hwide
    | false =>
      rw [if_neg Bool.false_ne_true, flexTableSerialize_isSome]
      constructor
      · exact fun h => ⟨h.2, by omega, fun hf => absurd hf Bool.false_ne_true⟩
      · exact fun h => ⟨by omega, h.1⟩

def twoStates (eq : CharMap ℕ) : CHFATables where
  defaultBase := [(0, 0), (0, 0)]
  nextCheck := Function.update (fun _ => none) 0 (some (0, 0))
  size := 256
  free := ⟨1, fun p => p - 1, fun p => if p = 255 then 0 else p + 1⟩
  num := [0, 1]
  accept := [0, 0]
  accept2 := []
  eq := eq
  chfaflags := 0
  accept_length := rfl
  accept2_length := Or.inl rfl
  numbered := le_rfl
  base_lt := by decide

theorem two_states_emitted : ((twoStates ∅).flexTable true false).isSome :=
  (flexTable_state32_iff (twoStates ∅) false (by decide)).mpr ⟨by decide, by decide, fun h => absurd h Bool.false_ne_true⟩

theorem states_65535_refused : ∃ t : CHFATables, (CHFA.large 65533).Packable ∧
    (CHFA.large 65533).chfa false = some t.toCHFA ∧ t.defaultBase.length = 65535 ∧ t.flexTable true false = none ∧
    (t.flexTableSerialize 4 (2 ^ 24 - 1)).isSome := by
  obtain ⟨t, -, ht, -, hlen, hsize⟩ := large_tables 65533 false
  refine ⟨t, large_packable, ht, hlen, ?_, ?_⟩
  · rw [flexTable, large, hlen, if_neg (by decide), if_neg Bool.false_ne_true, flexTableSerialize, if_pos (by rw [hlen]; decide)]
  · rw [flexTableSerialize_isSome, hlen]
    exact ⟨by decide, by omega⟩

theorem bases_fit {d : DFA} (h : d.Packable) {transHigh : Bool} (ht : d.chfa transHigh = some t.toCHFA)
    (hsize : t.size ≤ 2 ^ 24 + 255) : ∃ base : ℕ → ℕ,
    (∀ s ∈ d.states, ∀ (c : ℤ) target, (d.state s).trans[c]? = some target →
      t.nextCheck (base s + c).toNat = some (target, s)) ∧
    ∀ s ∈ d.states, base s < 2 ^ 24 ∧ ∃ w, t.baseVec[t.number s]? = some w ∧ baseMask w = base s ∧
      w / 2 ^ 24 * 2 ^ 24 = flags d s (firstKey (d.state s).trans) := by
  obtain ⟨t', base, ht', hp⟩ := chfa_packed h transHigh
  obtain rfl := some.inj (ht.symm.trans ht')
  have hmem : ∀ s ∈ d.states, s ∈ d.nonmatching :: packOrder d transHigh := fun s hs => (mem_packOrder h _).mpr hs
  refine ⟨base, fun s hs c target htarget => (hp.owned_all h.nonmatching_trans (hmem s hs) c target htarget).2, fun s hs => ?_⟩
  have hword := hp.entry h.nonmatching_otherwise h.nonmatching_trans h.nonmatching_diff (hmem s hs)
  have hinside := hp.inside_all h.maxRange (hmem s hs)
  have hbase : base s < 2 ^ 24 := by omega
  refine ⟨hbase, word d s (base s), ?_, word_split hbase⟩
  rw [baseVec, getElem?_map, hword]
  rfl

theorem three_full_states_fit : ∃ t : CHFATables, (CHFA.large 3).chfa true = some t.toCHFA ∧ ∃ base : ℕ → ℕ,
    (∀ s ∈ (CHFA.large 3).states, ∀ (c : ℤ) target, ((CHFA.large 3).state s).trans[c]? = some target →
      t.nextCheck (base s + c).toNat = some (target, s)) ∧
    ∀ s ∈ (CHFA.large 3).states, base s < 2 ^ 24 ∧ ∃ w, t.baseVec[t.number s]? = some w ∧ baseMask w = base s ∧
      w / 2 ^ 24 * 2 ^ 24 = flags (CHFA.large 3) s (firstKey ((CHFA.large 3).state s).trans) := by
  obtain ⟨t, -, ht, -, -, hsize⟩ := large_tables 3 true
  exact ⟨t, ht, bases_fit large_packable ht (by omega)⟩

theorem base_overruns_flags : ∃ t : CHFATables, (CHFA.large 65537).Packable ∧
    (CHFA.large 65537).chfa true = some t.toCHFA ∧ (t.flexTable true false).isSome ∧
    ∃ s ∈ (CHFA.large 65537).states, ∃ base, t.nextCheck base = some (0, s) ∧ 2 ^ 24 ≤ base ∧
      t.baseVec[t.number s]? = some base ∧ baseMask base ≠ base := by
  have hpack : ∀ n, (CHFA.large n).Packable := fun n => large_packable
  obtain ⟨t, base, ht, hp, hlen, hsize⟩ := large_tables 65537 true
  have hdone : ∀ s, 2 ≤ s → s < 65537 + 2 → s ∈ packOrder (CHFA.large 65537) true := by
    intro s h₂ hs
    have hall := (mem_packOrder (hpack 65537) true).mpr (mem_large.mpr hs)
    exact (mem_cons.mp hall).resolve_left (show s ≠ 0 by omega)
  obtain ⟨s, h₂, hs, hbase⟩ := large_base hp hdone (k := 2 ^ 16) (by decide)
  rw [show 256 * 2 ^ 16 = 2 ^ 24 by decide] at hbase
  refine ⟨t, hpack _, ht, ?_, s, mem_large.mpr hs, base s, ?_, hbase, ?_, ?_⟩
  · rw [flexTable, large, hlen, if_pos (by decide), flexTableSerialize_isSome, hlen]
    exact ⟨by decide, by omega⟩
  · have howned := (hp.owned s (hdone s h₂ hs) 0 0 (by rw [large_trans, if_pos (by omega)])).2
    rwa [show ((base s : ℤ) + 0).toNat = base s by omega] at howned
  · have hpacked := hpack 65537
    have hall := (mem_packOrder hpacked true).mpr (mem_large.mpr hs)
    rw [baseVec, getElem?_map,
      hp.entry hpacked.nonmatching_otherwise hpacked.nonmatching_trans hpacked.nonmatching_diff hall, map_some, large_word]
  · have hlt : baseMask (base s) < 2 ^ 24 := mod_lt _ (by decide)
    omega

end CHFATables

end AppArmor

import AppArmor.Hfa.Classes
import AppArmor.Hfa.DiffHops
import Mathlib.Algebra.BigOperators.Intervals

namespace AppArmor

open List

/-- No transition is on an out of band character, so the ranges are those of the bytes. Classes of bytes are counted from 1,
and there may be 256 of them. -/
structure DFA.InBand (d : DFA) : Prop where
  chars : ∀ s ∈ d.states, ∀ (c : ℤ) t, (d.state s).trans[c]? = some t → 0 ≤ c ∧ c ≤ 256
  maxRange : d.maxRange = 256

namespace Diff

variable {d : DFA} {s r : ℕ} {g : Dag} {rel : ℕ → Option ℕ}

def bytes : Finset ℤ := (intRange 0 256).toFinset

theorem mem_bytes {c : ℤ} : c ∈ bytes ↔ 0 ≤ c ∧ c < 256 := mem_toFinset.trans mem_intRange

theorem bytes_card : ∑ _c ∈ bytes, (1 : ℤ) = 256 := by
  rw [Finset.sum_const, bytes, toFinset_card_of_nodup (intRange_nodup 0 256)]
  simp [intRange]

def symbols : Finset ℤ := insert 256 bytes

theorem mem_symbols {c : ℤ} : c ∈ symbols ↔ 0 ≤ c ∧ c ≤ 256 := by
  rw [symbols, Finset.mem_insert, mem_bytes]
  omega

theorem sum_symbols {M : Type} [AddCommMonoid M] (f : ℤ → M) : ∑ c ∈ symbols, f c = f 256 + ∑ c ∈ bytes, f c := by
  apply Finset.sum_insert
  rw [mem_bytes]
  omega

def Symbols (m : CharMap ℕ) : Prop := ∀ (c : ℤ) t, m[c]? = some t → 0 ≤ c ∧ c ≤ 256

theorem sum_toList {M : Type} [AddCommMonoid M] {m : CharMap ℕ} (hm : Symbols m) (f : ℤ → ℕ → M) :
    (m.toList.map fun e => f e.1 e.2).sum = ∑ c ∈ symbols, (m[c]?).elim 0 (f c) := by
  have hget : ∀ e ∈ m.toList, m[e.1]? = some e.2 := fun e he => Std.ExtTreeMap.mem_toList_iff_getElem?_eq_some.mp he
  have hnodup : (m.toList.map Prod.fst).Nodup := by
    rw [Std.ExtTreeMap.map_fst_toList_eq_keys]
    exact Std.ExtTreeMap.nodup_keys
  have hkeys : (m.toList.map Prod.fst).toFinset ⊆ symbols := by
    intro c hc
    obtain ⟨e, he, rfl⟩ := mem_map.mp (mem_toFinset.mp hc)
    exact mem_symbols.mpr (hm e.1 e.2 (hget e he))
  rw [← Finset.sum_subset hkeys, sum_toFinset _ hnodup, map_map]
  · refine congrArg List.sum (map_congr_left fun e he => ?_)
    rw [Function.comp_apply, hget e he, Option.elim_some]
  · intro c _ hc
    cases hcm : m[c]? with
    | none => rfl
    | some t =>
      have he := mem_map_of_mem (f := Prod.fst) (Std.ExtTreeMap.mem_toList_iff_getElem?_eq_some.mpr hcm)
      exact absurd (mem_toFinset.mpr he) hc

theorem size_eq_sum {m : CharMap ℕ} (hm : Symbols m) : m.size = ∑ c ∈ symbols, (m[c]?).elim 0 fun _ => 1 := by
  rw [← sum_toList hm fun _ _ => 1, map_const', sum_replicate, Std.ExtTreeMap.length_toList, nsmul_one, Nat.cast_id]

theorem foldl_toList {m : CharMap ℕ} (hm : Symbols m) (f : ℤ → ℕ → ℤ) (k : ℤ → ℕ → ℕ) {step : ℤ × ℕ → ℤ × ℕ → ℤ × ℕ}
    (h : ∀ a e, step a e = (a.1 + f e.1 e.2, a.2 + k e.1 e.2)) (a : ℤ × ℕ) :
    m.toList.foldl step a = (a.1 + ∑ c ∈ symbols, (m[c]?).elim 0 (f c), a.2 + ∑ c ∈ symbols, (m[c]?).elim 0 (k c)) := by
  rw [← sum_toList hm, ← sum_toList hm]
  induction m.toList generalizing a with
  | nil => simp
  | cons e l ih =>
    rw [foldl_cons, ih, h, map_cons, map_cons, sum_cons, sum_cons, add_assoc, add_assoc]

/-- What is saved at a character on which the relative leads to `n`, by a state with transition `x` and default `o`. -/
def saving (o : ℕ) (x : Option ℕ) (n : ℕ) : ℤ := x.elim (if n = o then 0 else -1) fun t => if n = t then 1 else 0

theorem firstChar_symbols {m : CharMap ℕ} (hm : Symbols m) : firstChar m = 0 := by
  unfold firstChar
  cases he : m.toList.head? with
  | none => rfl
  | some e =>
    have hget := Std.ExtTreeMap.mem_toList_iff_getElem?_eq_some.mp (mem_of_mem_head? he)
    exact if_neg (by have := hm e.1 e.2 hget; omega)

theorem visit_saving (o n : ℕ) (x : Option ℕ) :
    ((x.elim 0 fun _ => 1 : ℕ) : ℤ) - ((visit o n x).elim 0 fun _ => 1 : ℕ) = saving o x n := by
  cases x with
  | none =>
    by_cases h : o = n
    · simp [visit, saving, h]
    · simp [visit, saving, h, Ne.symm h]
  | some t =>
    by_cases h : t = n
    · simp [visit, saving, h]
    · simp [visit, saving, h, Ne.symm h]

theorem relRow_size (hub : d.upperBound = 256) (hs : Symbols (d.state s).trans) (hr : Symbols (d.state r).trans) :
    ((d.state s).trans.size : ℤ) - (relRow d s r).size =
      ∑ c ∈ bytes, saving (d.state s).otherwise (d.state s).trans[c]? (d.delta r c) := by
  have hlast : (relRow d s r)[(256 : ℤ)]? = (d.state s).trans[(256 : ℤ)]? := relRow_oob (Or.inr le_rfl)
  have hrow : Symbols (relRow d s r) := by
    intro c t hc
    by_contra hout
    rw [relRow_oob (by omega)] at hc
    exact hout (hs c t hc)
  rw [size_eq_sum hs, size_eq_sum hrow, sum_symbols, sum_symbols, hlast, Nat.cast_add, Nat.cast_add, add_sub_add_left_eq_sub,
    Nat.cast_sum, Nat.cast_sum, ← Finset.sum_sub_distrib]
  refine Finset.sum_congr rfl fun c hc => ?_
  rw [mem_bytes] at hc
  rw [relRow_byte hub hc.1 hc.2, visit_saving]
  rw [firstChar_symbols hr]
  rintro ⟨i, hi, hi', -⟩
  omega

section Predicted

variable (d s r)

def shared (c : ℤ) : ℕ := ((d.state r).trans[c]?).elim 0 fun _ => ((d.state s).trans[c]?).elim 0 fun _ => 1

def own (c : ℤ) : ℕ := ((d.state s).trans[c]?).elim 0 fun _ => ((d.state r).trans[c]?).elim 1 fun _ => 0

def sharedSaving (c : ℤ) : ℤ := ((d.state r).trans[c]?).elim 0 (saving (d.state s).otherwise (d.state s).trans[c]?)

def ownSaving (c : ℤ) : ℤ :=
  ((d.state s).trans[c]?).elim 0 fun t => ((d.state r).trans[c]?).elim (if t = (d.state r).otherwise then 1 else 0) fun _ => 0

variable {d s r}

theorem weightShared_eq (hr : Symbols (d.state r).trans) :
    weightShared d s r = (∑ c ∈ symbols, sharedSaving d s r c, ∑ c ∈ symbols, shared d s r c) := by
  unfold weightShared
  rw [foldl_toList hr (fun c => saving (d.state s).otherwise (d.state s).trans[c]?)
    (fun c _ => ((d.state s).trans[c]?).elim 0 fun _ => 1), zero_add, zero_add]
  · rfl
  · intro a e
    unfold saving
    cases (d.state s).trans[e.1]? with
    | none =>
      dsimp only [Option.elim_none]
      split_ifs <;> simp [sub_eq_add_neg]
    | some t =>
      dsimp only [Option.elim_some]
      split_ifs <;> simp

theorem weightOwn_eq (hs : Symbols (d.state s).trans) (w : ℤ) :
    weightOwn d s r w = (w + ∑ c ∈ symbols, ownSaving d s r c, ∑ c ∈ symbols, own d s r c) := by
  unfold weightOwn
  rw [foldl_toList hs (fun c t => ((d.state r).trans[c]?).elim (if t = (d.state r).otherwise then 1 else 0) fun _ => 0)
    (fun c _ => ((d.state r).trans[c]?).elim 1 fun _ => 0), zero_add]
  · rfl
  · intro a e
    cases (d.state r).trans[e.1]? with
    | none =>
      dsimp only [Option.elim_none]
      split_ifs <;> simp
    | some t => simp

theorem size_eq_shared_add_own (hs : Symbols (d.state s).trans) :
    (d.state s).trans.size = ∑ c ∈ symbols, shared d s r c + ∑ c ∈ symbols, own d s r c := by
  rw [size_eq_sum hs, ← Finset.sum_add_distrib]
  refine Finset.sum_congr rfl fun c _ => ?_
  unfold shared own
  cases (d.state s).trans[c]? <;> cases (d.state r).trans[c]? <;> rfl

theorem ownSaving_eq_zero {c : ℤ} (h : own d s r c = 0) : ownSaving d s r c = 0 := by
  unfold own at h
  unfold ownSaving
  cases hs : (d.state s).trans[c]? with
  | none => rfl
  | some t =>
    cases hr : (d.state r).trans[c]? with
    | none => simp [hs, hr] at h
    | some n => rfl

/-- At a character that neither state lists the default of the relative has to be masked, unless the defaults agree. -/
theorem saving_delta (c : ℤ) : saving (d.state s).otherwise (d.state s).trans[c]? (d.delta r c) =
    sharedSaving d s r c + ownSaving d s r c + if (d.state r).otherwise = (d.state s).otherwise then 0
      else ((((d.state r).trans[c]?).elim 0 fun _ => 1 : ℕ) : ℤ) + own d s r c - 1 := by
  unfold sharedSaving ownSaving own DFA.delta
  cases (d.state r).trans[c]? with
  | some n => cases (d.state s).trans[c]? <;> simp
  | none =>
    cases (d.state s).trans[c]? with
    | none => split_ifs with h <;> simp [saving, h]
    | some t => simp [saving, eq_comm]

theorem weightOwn_total (hs : Symbols (d.state s).trans) (w : ℤ) :
    (if ∑ c ∈ symbols, shared d s r c < (d.state s).trans.size then weightOwn d s r w else (w, 0)) =
      (w + ∑ c ∈ symbols, ownSaving d s r c, ∑ c ∈ symbols, own d s r c) := by
  split_ifs with h
  · exact weightOwn_eq hs w
  · -- every transition is shared, so that none is left to count
    have hown : ∑ c ∈ symbols, own d s r c = 0 := by
      rw [@size_eq_shared_add_own d s r hs] at h
      omega
    have hzero := Finset.sum_eq_zero_iff.mp hown
    rw [hown, Finset.sum_eq_zero fun c hc => ownSaving_eq_zero (hzero c hc), add_zero]

variable (d s r) in
/-- What the last of 256 classes adds to the weight. It is not a byte, so that the encoding leaves it alone. -/
def lastSaving : ℤ :=
  sharedSaving d s r 256 + ownSaving d s r 256 + if (d.state r).otherwise = (d.state s).otherwise then 0
    else ((((d.state r).trans[(256 : ℤ)]?).elim 0 fun _ => 1 : ℕ) : ℤ) + own d s r 256

theorem diffWeight_eq (hs : Symbols (d.state s).trans) (hr : Symbols (d.state r).trans) (hmax : d.maxRange = 256)
    (hdiff : (d.state r).diff = false) (hne : s ≠ r) (hdepth : g.depth ((rel r).getD r) < g.depth s) :
    diffWeight d g rel s r =
      ∑ c ∈ bytes, saving (d.state s).otherwise (d.state s).trans[c]? (d.delta r c) + lastSaving d s r := by
  unfold diffWeight lastSaving
  rw [if_neg hne, if_neg (not_le.mpr hdepth), hdiff, if_neg Bool.false_ne_true]
  dsimp only
  rw [weightShared_eq hr, weightOwn_total hs, Finset.sum_congr rfl fun c _ => saving_delta c]
  rw [Finset.sum_add_distrib, Finset.sum_add_distrib]
  split_ifs
  · simp only [sum_symbols, Finset.sum_const_zero]
    ring
  · rw [Finset.sum_sub_distrib, Finset.sum_add_distrib, bytes_card, size_eq_sum hr, hmax]
    simp only [sum_symbols, Nat.cast_add, Nat.cast_sum]
    ring

end Predicted

end Diff

open Diff

/-- Counting the last of 256 classes makes no difference for the encoding of `s` relative to `r`. -/
def DFA.LastFits (d : DFA) (s r : ℕ) : Prop :=
  match (d.state s).trans[(256 : ℤ)]?, (d.state r).trans[(256 : ℤ)]? with
  | none, none => True
  | none, some n => n = (d.state s).otherwise ↔ (d.state r).otherwise = (d.state s).otherwise
  | some t, none => t ≠ (d.state r).otherwise ∧ (d.state r).otherwise = (d.state s).otherwise
  | some t, some n => n ≠ t ∧ (d.state r).otherwise = (d.state s).otherwise

theorem lastSaving_eq_zero {d : DFA} {s r : ℕ} : lastSaving d s r = 0 ↔ d.LastFits s r := by
  unfold lastSaving DFA.LastFits sharedSaving ownSaving own saving
  cases (d.state s).trans[(256 : ℤ)]? with
  | none =>
    cases (d.state r).trans[(256 : ℤ)]? with
    | none => simp
    | some n =>
      simp only [Option.elim_none, Option.elim_some]
      split_ifs with hn ho <;> simp [*]
  | some t =>
    cases (d.state r).trans[(256 : ℤ)]? with
    | none =>
      simp only [Option.elim_none, Option.elim_some]
      split_ifs with ht ho ho
      · simp [ht]
      · simp [ht]
      · rw [ho] at ht
        simp [ho, ht]
      · simp [ho]
    | some n =>
      simp only [Option.elim_some]
      split_ifs with hn ho <;> simp [*]

/-- The weight by which a relative is chosen is the number of transitions that the encoding removes, less those it adds, unless
the last of 256 classes is counted. -/
theorem diffWeight_exact_iff {d : DFA} (h : d.Encodable) (hd : d.InBand) :
    (∀ g rel, ∀ s ∈ d.states, ∀ r ∈ d.states, s ≠ r → g.depth ((rel r).getD r) < g.depth s →
      ∃ d' saved, makeRelative d s r = some (d', saved) ∧ ((d.state s).trans.size : ℤ) - (d'.state s).trans.size = saved ∧
        (diffWeight d g rel s r = saved ↔ d.LastFits s r)) ∧
    ∃ g d', makeDag d = some g ∧ d.diffEncode = some d' ∧ ∀ s r, d.relOf s = some r →
      (diffWeight d g (chooseRels d g) s r = ((d.state s).trans.size : ℤ) - (d'.state s).trans.size ↔ d.LastFits s r) := by
  constructor
  · intro g rel s hs r hr hne hdepth
    refine ⟨_, _, makeRelative_eq hne.symm (h.diff r) (h.diff s), ?_, ?_⟩
    · dsimp only
      rw [Function.update_self]
      rfl
    · rw [diffWeight_eq (hd.chars s hs) (hd.chars r hr) hd.maxRange (h.diff r) hne hdepth,
        relRow_size h.upperBound (hd.chars s hs) (hd.chars r hr), add_eq_left, lastSaving_eq_zero]
  · obtain ⟨g, hg, hl⟩ := makeDag_spec h.toClosed h.start_ne
    obtain ⟨d', rank, hd', henc⟩ := diffEncode_spec h
    refine ⟨g, d', hg, hd', fun s r hr => ?_⟩
    obtain ⟨hs, hrs⟩ := henc.rel_mem s r hr
    have hne : s ≠ r := fun he => lt_irrefl _ (he ▸ henc.rank_lt s r hr)
    have hdrop := chooseRels_drops hl s r (by rw [← hr, DFA.relOf, hg, Option.bind_some])
    rw [henc.relative s r hr, diffWeight_eq (hd.chars s hs) (hd.chars r hrs) hd.maxRange (h.diff r) hne hdrop, relState,
      relRow_size h.upperBound (hd.chars s hs) (hd.chars r hrs), add_eq_left, lastSaving_eq_zero]

section Runs

open Classes

def repeated : Node Pos :=
  let set : CNode := .charSet (((Chars.empty.insert 97).insert 98).insert 99)
  .cat [.alt [.cnode ⟨0, set⟩, .cat [.cnode ⟨1, .char 120⟩, .cnode ⟨2, set⟩]], .accept ⟨.allow, 0, Perm.mayRead, 0, 0⟩]

theorem repeated_weight : ∃ d, DFA.build (fun _ => 0) repeated repeated.leafOrder true = .ok d ∧ d.InBand ∧
    d.relOf 3 = some d.start ∧ ∃ g d', makeDag d = some g ∧ d.diffEncode = some d' ∧
    diffWeight d g (chooseRels d g) 3 d.start = ((d.state 3).trans.size : ℤ) - (d'.state 3).trans.size := by
  have h : (DFA.build (fun _ => 0) repeated repeated.leafOrder true).toOption.any (fun d => d.start ≠ d.nonmatching ∧
      d.relOf 3 = some d.start ∧ d.maxRange = 256 ∧
      ∀ s ∈ d.states, ∀ e ∈ (d.state s).trans.toList, 0 ≤ e.1 ∧ e.1 < 256) = true := by
    decide +kernel
  obtain ⟨d, hd, h⟩ := ok_of_any h
  obtain ⟨hne, hrel, hmax, hchars⟩ := of_decide_eq_true h
  have hget : ∀ s ∈ d.states, ∀ (c : ℤ) t, (d.state s).trans[c]? = some t → 0 ≤ c ∧ c < 256 := fun s hs c t ht =>
    hchars s hs (c, t) (Std.ExtTreeMap.mem_toList_iff_getElem?_eq_some.mpr ht)
  have hband : d.InBand := ⟨fun s hs c t ht => by have := hget s hs c t ht; omega, hmax⟩
  have hencodable := build_encodable hd hne
  obtain ⟨d₀, rank, -, henc⟩ := diffEncode_spec hencodable
  obtain ⟨h₃, hstart⟩ := henc.rel_mem 3 _ hrel
  have hnone : ∀ s ∈ d.states, (d.state s).trans[(256 : ℤ)]? = none := by
    intro s hs
    by_contra hsome
    obtain ⟨t, ht⟩ := Option.ne_none_iff_exists'.mp hsome
    have := hget s hs 256 t ht
    omega
  have hfits : d.LastFits 3 d.start := by
    rw [DFA.LastFits, hnone 3 h₃, hnone _ hstart]
    trivial
  obtain ⟨g, d', hg, hd', hiff⟩ := (diffWeight_exact_iff hencodable hband).2
  exact ⟨d, hd, hband, hrel, g, d', hg, hd', (hiff 3 d.start hrel).mpr hfits⟩

/-- Two states that lead to a different state for each byte, and to the same ones. -/
def echoed (n : ℕ) : DFA :=
  { spread n with state := Function.update (spread n).state 2 { (spread n).state 2 with trans := spreadTrans n } }

variable {n : ℕ}

theorem echoed_trans (s : ℕ) (c : ℤ) :
    ((echoed n).state s).trans[c]? = if (s = 1 ∨ s = 2) ∧ 0 ≤ c ∧ c < n then some (c.toNat + 2) else none := by
  change (Function.update (spread n).state 2 { (spread n).state 2 with trans := spreadTrans n } s).trans[c]? = _
  by_cases hs : s = 2
  · rw [hs, Function.update_self, spreadTrans_get]
    simp
  · rw [Function.update_of_ne hs, spread_trans]
    simp [hs]

theorem echoed_state (s : ℕ) : ((echoed n).state s).otherwise = 0 ∧ ((echoed n).state s).diff = false := by
  unfold echoed
  dsimp only
  by_cases hs : s = 2
  · rw [hs, Function.update_self]
    exact ⟨rfl, rfl⟩
  · rw [Function.update_of_ne hs]
    exact ⟨rfl, rfl⟩

theorem mem_echoed {s : ℕ} : s ∈ (echoed n).states ↔ s < n + 2 := mem_range

theorem echoed_closed (n : ℕ) : (echoed n).Closed := by
  have hspread := spread_closed n
  refine ⟨hspread.nodup, hspread.start, hspread.nonmatching, fun i _ => ?_, fun i _ c t ht => ?_⟩
  · rw [(echoed_state i).1]
    exact hspread.nonmatching
  · rw [echoed_trans] at ht
    split_ifs at ht with hc
    obtain rfl := Option.some.inj ht
    exact mem_echoed.mpr (by omega)

theorem echoed_chars (hn : n ≤ 256) : ∀ s ∈ (echoed n).states, ∀ c ∈ ((echoed n).state s).trans, c < 256 := by
  intro s _ c hc
  rw [Std.ExtTreeMap.mem_iff_isSome_getElem?, echoed_trans] at hc
  split_ifs at hc with hc'
  · omega
  · cases hc

theorem echoed_allApart : AllApart (echoed 256) := by
  have hstart := (echoed_closed 256).start
  have hget : ∀ c : ℤ, 0 ≤ c → c < 256 → ((echoed 256).state 1).trans[c]? = some (c.toNat + 2) := fun c h₀ hc => by
    rw [echoed_trans, if_pos ⟨Or.inl rfl, h₀, hc⟩]
  refine ⟨fun c h₀ hc => ⟨1, hstart, mem_of_get (hget c h₀ hc)⟩, fun x y hx₀ hx hy₀ hy hne => ⟨1, hstart, fun he => hne ?_⟩⟩
  rw [hget x hx₀ hx, hget y hy₀ hy] at he
  have := Option.some.inj he
  omega

def echoedClasses (n : ℕ) : DFA := (echoed n).applyEquivalenceClasses (echoed n).equivalenceClasses

theorem echoedClasses_encodable (n : ℕ) : (echoedClasses n).Encodable :=
  ⟨applied_closed (echoed_closed n), fun i => by rw [echoedClasses, applied_diff, (echoed_state i).2], rfl, one_ne_zero⟩

theorem echoedClasses_inBand (hn : n ≤ 256) : (echoedClasses n).InBand := by
  refine ⟨fun s (hs : s ∈ (echoed n).states) c t ht => ?_, rfl⟩
  rw [echoedClasses, applied_state hs] at ht
  obtain ⟨x, -, -, rfl⟩ := (classTrans_get (agree hs)).mp ht
  have := classNum_le (echoed_chars hn) x
  omega

theorem echoedClasses_last {c : ℤ} (h₀ : 0 ≤ c) (hc : c < n) (hlast : classNum (echoed n).equivalenceClasses c = 256) :
    lastSaving (echoedClasses n) 2 1 = 1 := by
  have hrow : ∀ s ∈ (echoed n).states, s = 1 ∨ s = 2 → ((echoedClasses n).state s).trans[(256 : ℤ)]? = some (c.toNat + 2) ∧
      ((echoedClasses n).state s).otherwise = 0 := by
    intro s hs h
    have hbyte := classTrans_byte hs h₀
    rw [hlast, echoed_trans, if_pos ⟨h, h₀, hc⟩] at hbyte
    rw [echoedClasses, applied_state hs]
    exact ⟨hbyte, (echoed_state s).1⟩
  obtain ⟨h₁, ho₁⟩ := hrow 1 (echoed_closed n).start (Or.inl rfl)
  obtain ⟨h₂, ho₂⟩ := hrow 2 (mem_echoed.mpr (by omega)) (Or.inr rfl)
  unfold lastSaving sharedSaving ownSaving own saving
  rw [h₁, ho₁, h₂, ho₂]
  simp

theorem echoedClasses_overcounted (hn : 0 < n ∧ n ≤ 256) (hlast : lastSaving (echoedClasses n) 2 1 = 1) {g : Dag}
    {rel : ℕ → Option ℕ} (hdepth : g.depth ((rel 1).getD 1) < g.depth 2) :
    ∃ d' saved, makeRelative (echoedClasses n) 2 1 = some (d', saved) ∧
      (((echoedClasses n).state 2).trans.size : ℤ) - (d'.state 2).trans.size = saved ∧
      diffWeight (echoedClasses n) g rel 2 1 = saved + 1 := by
  have hencodable := echoedClasses_encodable n
  have hband := echoedClasses_inBand hn.2
  have h₁ := hband.chars 1 (echoed_closed n).start
  have h₂ := hband.chars 2 (mem_echoed.mpr (by omega))
  refine ⟨_, _, makeRelative_eq (by decide) (hencodable.diff 1) (hencodable.diff 2), ?_, ?_⟩
  · dsimp only
    rw [Function.update_self]
    rfl
  · rw [diffWeight_eq h₂ h₁ hband.maxRange (hencodable.diff 1) (by decide) hdepth, hlast,
      relRow_size hencodable.upperBound h₂ h₁]

/-- Where each byte has a class of its own, the weight of a state with the row of its relative is one too high. -/
theorem last_class_overcounted : (echoedClasses 256).Encodable ∧ (echoedClasses 256).InBand ∧
    ∀ g rel, g.depth ((rel 1).getD 1) < g.depth 2 → ∃ d' saved, makeRelative (echoedClasses 256) 2 1 = some (d', saved) ∧
      (((echoedClasses 256).state 2).trans.size : ℤ) - (d'.state 2).trans.size = saved ∧
      diffWeight (echoedClasses 256) g rel 2 1 = saved + 1 := by
  obtain ⟨c, h₀, hc, hlast⟩ := echoed_allApart.exists_last (echoed_chars le_rfl)
  exact ⟨echoedClasses_encodable 256, echoedClasses_inBand le_rfl, fun g rel =>
    echoedClasses_overcounted ⟨by decide, le_rfl⟩ (echoedClasses_last h₀ hc hlast)⟩

end Runs

end AppArmor

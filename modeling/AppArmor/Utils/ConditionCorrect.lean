import AppArmor.Utils.Condition

namespace AppArmor

open Fuel List

section Decimals

/-- Digits that have the same value with and without the octal reading of a leading zero. -/
structure IsDigits (ds : Text) : Prop where
  digits : ∀ c ∈ ds, c.isDigit = true
  ne_nil : ds ≠ []
  zero : ds.head? = some '0' → (∀ c ∈ ds.dropLast, c = '0') ∧ ∀ c ∈ ds, digitValue c < 8

inductive IsDecimal : Text → ℤ → Prop
  | mk (neg : Bool) {ds} (hds : IsDigits ds) (hlow : -2 ^ 63 ≤ signed neg (digitsValue 10 ds))
      (hhigh : signed neg (digitsValue 10 ds) < 2 ^ 63) :
      IsDecimal ((if neg then ['-'] else []) ++ ds) (signed neg (digitsValue 10 ds))

variable {c : Char} {ds s : Text} {neg : Bool} {n : ℤ}

theorem digitValue_lt (h : c.isDigit = true) : digitValue c < 10 := by
  have hb := isDigit_bounds h
  rw [digitValue, if_pos h]
  omega

theorem isStripped_of_isDigit (h : c.isDigit = true) : isStripped c = false := by
  have hb := isDigit_bounds h
  rw [isStripped, decide_eq_false_iff_not]
  simp only [mem_cons, not_mem_nil, or_false]
  omega

theorem IsDigits.cons (h : IsDigits ds) : ∃ c cs, ds = c :: cs ∧ c.isDigit = true := by
  obtain ⟨c, cs, rfl⟩ := exists_cons_of_ne_nil h.ne_nil
  exact ⟨c, cs, rfl, h.digits c mem_cons_self⟩

theorem readSign_decimal (h : IsDigits ds) : readSign ((if neg then ['-'] else []) ++ ds) = (neg, ds) := by
  obtain ⟨c, cs, rfl, hc⟩ := h.cons
  cases neg with
  | true => rfl
  | false => exact readSign_of_isDigit hc cs

theorem dropWhile_decimal {p : Char → Bool} (hp : ∀ c, c.isDigit = true → p c = false) (hminus : p '-' = false) (h : IsDigits ds) :
    ((if neg then ['-'] else []) ++ ds).dropWhile p = (if neg then ['-'] else []) ++ ds := by
  obtain ⟨c, cs, rfl, hc⟩ := h.cons
  cases neg with
  | true => exact dropWhile_cons_of_neg (by rw [hminus]; exact Bool.false_ne_true)
  | false => exact dropWhile_cons_of_neg (by rw [hp c hc]; exact Bool.false_ne_true)

theorem strip_decimal (h : IsDigits ds) : strip ((if neg then ['-'] else []) ++ ds) = (if neg then ['-'] else []) ++ ds := by
  unfold strip
  rw [dropWhile_decimal (fun c => isStripped_of_isDigit) (by decide) h]
  obtain ⟨front, last, rfl⟩ : ∃ front last, ds = front ++ [last] := ⟨_, _, (dropLast_append_getLast h.ne_nil).symm⟩
  have hlast : isStripped last = false := isStripped_of_isDigit (h.digits last (by simp))
  rw [← append_assoc, reverse_append, reverse_singleton, singleton_append, dropWhile_cons_of_neg,
    reverse_cons, reverse_reverse]
  rw [hlast]
  exact Bool.false_ne_true

theorem takeWhile_digits {base : ℕ} (hbase : ∀ c ∈ ds, digitValue c < base) :
    ds.takeWhile (fun c => digitValue c < base) = ds ∧ ds.dropWhile (fun c => digitValue c < base) = [] := by
  have hall : ∀ c ∈ ds, decide (digitValue c < base) = true := fun c hc => decide_eq_true (hbase c hc)
  have htake := takeWhile_append_dropWhile (p := fun c => decide (digitValue c < base)) (l := ds)
  have hdrop := dropWhile_eq_nil_iff.mpr hall
  rw [hdrop, append_nil] at htake
  exact ⟨htake, hdrop⟩

theorem digitsValue_zeros (base : ℕ) {zs : Text} (hzs : ∀ c ∈ zs, c = '0') (d : Char) :
    digitsValue base (zs ++ [d]) = digitValue d := by
  induction zs with
  | nil => simp [digitsValue]
  | cons c zs ih =>
    obtain ⟨rfl, hrest⟩ := forall_mem_cons.mp hzs
    have hstep : 0 * base + digitValue '0' = 0 := by rw [Nat.zero_mul]; decide
    rw [← ih hrest, cons_append, digitsValue, foldl_cons, hstep, digitsValue]

theorem readBase_zero {cs : Text} (hcs : ∀ c ∈ cs, c.isDigit = true) : readBase ('0' :: cs) = (8, '0' :: cs) := by
  cases cs with
  | nil => rfl
  | cons c cs =>
    have hc := hcs c mem_cons_self
    rw [readBase]
    refine if_neg fun hx => ?_
    rcases hx.1 with rfl | rfl <;> exact absurd hc (by decide)

theorem readBase_digits (h : IsDigits ds) :
    ∃ base, readBase ds = (base, ds) ∧ (∀ c ∈ ds, digitValue c < base) ∧ digitsValue base ds = digitsValue 10 ds := by
  obtain ⟨c, cs, hcons, hc⟩ := h.cons
  by_cases hzero : c = '0'
  · obtain ⟨hzeros, hoctal⟩ := h.zero (by rw [hcons, hzero]; rfl)
    refine ⟨8, ?_, hoctal, ?_⟩
    · rw [hcons, hzero]
      exact readBase_zero fun d hd => h.digits d (hcons ▸ mem_cons_of_mem c hd)
    · have hsplit := dropLast_append_getLast h.ne_nil
      rw [← hsplit, digitsValue_zeros 8 hzeros, digitsValue_zeros 10 hzeros]
  · refine ⟨10, ?_, fun c hc => digitValue_lt (h.digits c hc), rfl⟩
    rw [hcons]
    unfold readBase
    split
    · next heq => exact absurd (cons.inj heq).1 hzero
    · next heq => exact absurd (cons.inj heq).1 hzero
    · rfl

theorem strtol_decimal (h : IsDecimal s n) : strtol s = some (n, []) := by
  cases h with
  | mk neg hds hlow hhigh =>
    obtain ⟨base, hread, hlt, hvalue⟩ := readBase_digits hds
    obtain ⟨htake, hdrop⟩ := takeWhile_digits hlt
    unfold strtol
    rw [dropWhile_decimal (fun c => isSpace_of_isDigit) (by decide) hds, readSign_decimal hds]
    dsimp only
    rw [hread]
    dsimp only
    rw [htake, hdrop, if_neg hds.ne_nil, hvalue, if_pos ⟨hlow, hhigh⟩]

theorem pythonInt_decimal (h : IsDecimal s n) : pythonInt s = some n := by
  cases h with
  | @mk neg ds hds hlow hhigh =>
    have hall : ds.all (fun c => c.isDigit || c = '_') = true := by
      rw [all_eq_true]
      intro c hc
      rw [hds.digits c hc, Bool.true_or]
    have hhead : ds.head?.any Char.isDigit = true := by
      obtain ⟨c, cs, rfl, hc⟩ := hds.cons
      exact hc
    have hlast : ds.getLast?.any Char.isDigit = true := by
      rw [getLast?_eq_getLast_of_ne_nil hds.ne_nil]
      exact hds.digits _ (getLast_mem hds.ne_nil)
    have hunder : ¬ ['_', '_'] <:+: ds := by
      intro hin
      have hmem : '_' ∈ ds := hin.subset mem_cons_self
      exact ne_of_isDigit (hds.digits _ hmem) rfl rfl
    have hfilter : ds.filter Char.isDigit = ds := filter_eq_self.mpr hds.digits
    unfold pythonInt
    rw [strip_decimal hds, readSign_decimal hds]
    dsimp only
    rw [if_pos ⟨hall, hhead, hlast, hunder⟩, hfilter]

theorem IsDecimal.ne_nil (h : IsDecimal s n) : s ≠ [] := by
  cases h with
  | mk neg hds => exact append_ne_nil_of_right_ne_nil _ hds.ne_nil

theorem strSetToLong_decimal (h : IsDecimal s n) : strSetToLong {s} = some (n, true) := by
  unfold strSetToLong
  rw [Finset.sort_singleton]
  dsimp only
  rw [if_neg h.ne_nil, strtol_decimal h]
  rfl

theorem convertSet_decimal (h : IsDecimal s n) : convertSet {s} = some n := by
  unfold convertSet
  rw [Finset.sort_singleton]
  exact pythonInt_decimal h

end Decimals

/-! ### Where the two evaluations agree -/

/-- The sets that the parser and the utils have for a term. The utils put an id with a blank in quotes and cut one at other
white space; for a variable the full expansion has to be what its first rule says. -/
inductive TermSet (T : CondTable) : CondTerm → (parser utils : Finset Text) → Prop
  | id {value id} (h : processVar value = none) (hid : idOf value = some id) : TermSet T (.id value) {value} {id}
  | setVar {x vs} (hx : processVar (refText x) = some x) (hclosed : ClosedVar T.symtab.defs x)
      (hrule : T.firstRule x = some vs) (hvs : ∀ r, r ∈ fullExpansion T.symtab.defs x ↔ r ∈ vs) :
      TermSet T (.setVar x) vs.toFinset vs.toFinset

/-- One renaming of the values, with no two of them becoming one, takes both sets of the parser to those of the utils. -/
def Renamed (A B A' B' : Finset Text) : Prop :=
  ∃ f : Text → Text, Set.InjOn f (A ∪ B) ∧ A.image f = A' ∧ B.image f = B'

/-- The comparisons on whose outcome the parser, with sets `A` and `B`, and the utils, with `A'` and `B'`, agree. An order is
one of numbers, or of a set with itself. -/
inductive SetOutcome : (A A' : Finset Text) → CondOp → (B B' : Finset Text) → Bool → Prop
  | isIn {A A' B B'} (h : Renamed A B A' B') : SetOutcome A A' .isIn B B' (A ⊆ B)
  | eq {A A' B B'} (h : Renamed A B A' B') : SetOutcome A A' .eq B B' (A = B)
  | ne {A A' B B'} (h : Renamed A B A' B') : SetOutcome A A' .ne B B' (A ≠ B)
  | numbers {a b n m} (ha : IsDecimal a n) (hb : IsDecimal b m) (op : OrderOp) :
      SetOutcome {a} {a} (.order op) {b} {b} (op.byLt (n < m) (m < n))
  | same {A A'} (h : (strSetToLong A).isSome) (op : OrderOp) : SetOutcome A A' (.order op) A A' (op.byLt false false)

/-- The conditions on whose value both sides agree: what is negated is true, and `defined` is asked of a set variable that
can be expanded, of a name that is not declared or, as of a set variable, of a boolean one. -/
inductive Agreed (T : CondTable) : Cond → Bool → Prop
  | or {a b x y} (ha : Agreed T a x) (hb : Agreed T b y) : Agreed T (.or a b) (x || y)
  | and {a b x y} (ha : Agreed T a x) (hb : Agreed T b y) : Agreed T (.and a b) (x && y)
  | not {a} (ha : Agreed T a true) : Agreed T (.not a) false
  | boolVar {x b} (hx : processVar (boolVarText x) = some x) (h : T.bools.lookup x = some b) :
      Agreed T (.boolVar x) b
  | definedSet {x} (hx : processVar (refText x) = some x) (hclosed : ClosedVar T.symtab.defs x) :
      Agreed T (.definedSet x) true
  | undefinedSet {x} (hx : processVar (refText x) = some x) (h : T.firstRule x = none) : Agreed T (.definedSet x) false
  | undefinedBool {x} (hx : processVar (boolVarText x) = some x) (h : T.symtab x = none) :
      Agreed T (.definedBool x) false
  | compare {l r op A A' B B' b} (hl : TermSet T l A A') (hr : TermSet T r B B')
      (h : SetOutcome A A' op B B' b) : Agreed T (.compare l op r) b

namespace CondTable

variable (T : CondTable) {x : Text} {vs : List Text} {b : Bool}

theorem symtab_bool (h : T.bools.lookup x = some b) : T.symtab x = some (.ofBoolean (if b then 1 else 0)) := by
  unfold symtab
  rw [h]

theorem rules_eq_nil : (T.sets.filter fun e => e.1 = x) = [] ↔ T.firstRule x = none := by
  rw [filter_eq_nil_iff, firstRule, lookup_eq_none_iff]
  refine forall₂_congr fun e _ => ?_
  rw [decide_eq_true_eq, bne_iff_ne, ne_comm]

theorem lookup_of_rules (hrules : (T.sets.filter fun e => e.1 = x) = [(x, vs)]) : T.firstRule x = some vs := by
  obtain ⟨before, after, hsets, hbefore, -, -⟩ := filter_eq_cons_iff.mp hrules
  rw [firstRule, hsets, lookup_append, lookup_eq_none_iff.mpr, Option.none_or, lookup_cons_self]
  intro e he
  rw [bne_iff_ne, ne_comm]
  simpa using hbefore e he

theorem symtab_eq_none (h : T.symtab x = none) : T.bools.lookup x = none ∧ T.firstRule x = none := by
  unfold symtab at h
  split at h
  · cases h
  · next hbools =>
    split at h
    · next hrules => exact ⟨hbools, T.rules_eq_nil.mp hrules⟩
    · cases h

theorem symtab_set {v : Variable} (hv : T.symtab x = some v) (htype : v.type = .set) :
    T.bools.lookup x = none ∧ (T.firstRule x).isSome ∧ v = .ofValues ((T.sets.filter fun e => e.1 = x).flatMap Prod.snd) := by
  unfold symtab at hv
  split at hv
  · cases hv
    cases htype
  · next hbools =>
    split at hv
    · cases hv
    · next hrules =>
      refine ⟨hbools, ?_, (Option.some.inj hv).symm⟩
      rw [Option.isSome_iff_ne_none]
      exact fun hnone => hrules (T.rules_eq_nil.mpr hnone)

theorem symtab_not_set {v : Variable} (h : T.firstRule x = none) (hv : T.symtab x = some v) : v.type ≠ .set := by
  intro htype
  have hsome := (T.symtab_set hv htype).2.1
  rw [h] at hsome
  cases hsome

theorem symtab_upToDate : T.symtab.UpToDate := by
  have hfresh : ∀ x v, T.symtab x = some v → v.expanded = [] ∧ v.Proper := by
    intro x v hv
    unfold symtab at hv
    split at hv
    · cases hv
      exact ⟨rfl, proper_ofBoolean _⟩
    · split at hv
      · cases hv
      · next hrules =>
        cases hv
        refine ⟨rfl, proper_ofValues ?_⟩
        obtain ⟨e, he⟩ := exists_mem_of_ne_nil _ hrules
        obtain ⟨v, hv⟩ := exists_mem_of_ne_nil _ (T.nonempty e.1 e.2 (mem_of_mem_filter he))
        exact ne_nil_of_mem (mem_flatMap.mpr ⟨e, he, hv⟩)
  exact ⟨fun x v hv => (hfresh x v hv).2, fun x v hv _ _ hne => absurd (hfresh x v hv).1 hne⟩

def Current (t : Symtab) : Prop := Filled T.symtab.defs T.symtab t

variable {T} {t t' : Symtab}

theorem Current.upToDate (h : T.Current t) : t.UpToDate := Filled.upToDate h T.symtab_upToDate

theorem Current.defs (h : T.Current t) : t.defs = T.symtab.defs := Filled.defs h

theorem Current.filled (h : T.Current t) (hfill : Filled t.defs t t') : T.Current t' := by
  rw [h.defs] at hfill
  exact Filled.trans h hfill (complete_ne_nil T.symtab_upToDate.defs_ne_nil)

theorem Current.not_set (h : T.Current t) (hrule : T.firstRule x = none) {v : Variable} (hv : t x = some v) : v.type ≠ .set := by
  rcases h x with he | ⟨v₀, E, hv₀, htype, -⟩
  · exact T.symtab_not_set hrule (he.symm.trans hv)
  · exact absurd htype (T.symtab_not_set hrule hv₀)

end CondTable

section Runs

variable {T : CondTable} {t t' : Symtab} {x : Text}

theorem andThen_returns {α β : Type} {r : ℕ → Option (Symtab × Option α)} {a : α}
    {f : ℕ → Symtab → α → Option (Symtab × Option β)} {res : Symtab × Option β} (hr : Returns r (t, some a))
    (hf : Returns (fun fuel => f fuel t a) res) : Returns (fun fuel => andThen (r fuel) (f fuel)) res := by
  obtain ⟨n, hn⟩ := hr
  obtain ⟨m, hm⟩ := hf
  refine ⟨max n m, fun fuel hle => ?_⟩
  dsimp only
  rw [hn fuel ((le_max_left n m).trans hle)]
  exact hm fuel ((le_max_right n m).trans hle)

theorem expand_returns (h : T.Current t) (hclosed : ClosedVar T.symtab.defs x) :
    ∃ t' v, Returns (fun fuel => expandVariable fuel t x) (t', .ok) ∧ T.Current t' ∧ t' x = some v ∧
      ∀ r, r ∈ v.expanded ↔ r ∈ fullExpansion T.symtab.defs x := by
  rw [← h.defs] at hclosed ⊢
  obtain ⟨t', v, hret, hfill, hv, hcomplete⟩ := expandVariable_fills h.upToDate hclosed
  exact ⟨t', v, hret, h.filled hfill, hv, hcomplete.1⟩

variable {A A' B B' : Finset Text} {b : Bool}

theorem getSet_returns {term : CondTerm} (h : T.Current t) (hA : TermSet T term A A') :
    ∃ t', T.Current t' ∧ Returns (fun fuel => getSet fuel t term.text) (t', some A) := by
  cases hA with
  | @id value id hvar hid =>
    refine ⟨t, h, (Returns.pure (t, some {value})).congr fun fuel => ?_⟩
    unfold getSet CondTerm.text
    rw [hvar]
  | @setVar x vs hx hclosed hrule hvs =>
    obtain ⟨t', v, hret, hcurrent, hv, hmem⟩ := expand_returns h hclosed
    have hset : v.expanded.toFinset = vs.toFinset := by
      ext r
      rw [mem_toFinset, mem_toFinset, hmem, hvs]
    refine ⟨t', hcurrent, ?_⟩
    have hmap := hret.map fun p => (p.1, if p.2 = ExpandRc.ok then (p.1 x).map fun v : Variable => v.expanded.toFinset else none)
    dsimp only at hmap
    rw [if_pos rfl, hv, Option.map_some, hset] at hmap
    obtain ⟨vs', hd, -⟩ := hclosed
    obtain ⟨v', hv', -⟩ := lookup_of_defs (h.defs ▸ hd)
    refine hmap.congr fun fuel => ?_
    unfold getSet CondTerm.text
    dsimp only
    rw [hx]
    dsimp only
    rw [hv']

theorem getSet_utils {term : CondTerm} (hA : TermSet T term A A') : T.getSet term = some A' := by
  cases hA with
  | id h hid =>
    rw [CondTable.getSet, hid]
    rfl
  | setVar hx hclosed hrule hvs =>
    rw [CondTable.getSet, hrule]
    rfl

theorem Renamed.subset_iff (h : Renamed A B A' B') : A' ⊆ B' ↔ A ⊆ B := by
  obtain ⟨f, hf, rfl, rfl⟩ := h
  refine ⟨fun hsub a ha => ?_, Finset.image_subset_image⟩
  obtain ⟨b, hb, hfb⟩ := Finset.mem_image.mp (hsub (Finset.mem_image_of_mem f ha))
  have hba : b = a := hf (Or.inr hb) (Or.inl ha) hfb
  rwa [← hba]

theorem Renamed.symm (h : Renamed A B A' B') : Renamed B A B' A' := by
  obtain ⟨f, hf, hA, hB⟩ := h
  exact ⟨f, Set.union_comm (A : Set Text) B ▸ hf, hB, hA⟩

theorem Renamed.eq_iff (h : Renamed A B A' B') : A' = B' ↔ A = B := by
  rw [Finset.Subset.antisymm_iff, Finset.Subset.antisymm_iff, h.subset_iff, h.symm.subset_iff]

theorem compareSets_outcome {op : CondOp} (h : SetOutcome A A' op B B' b) :
    compareSets A op B = some b := by
  cases h with
  | isIn | eq | ne => rfl
  | numbers ha hb op =>
    unfold compareSets
    rw [strSetToLong_decimal ha, strSetToLong_decimal hb]
  | same h op =>
    obtain ⟨⟨n, isNumber⟩, hn⟩ := Option.isSome_iff_exists.mp h
    have hirrefl : ¬ A.sort < A.sort := lt_irrefl _
    unfold compareSets
    dsimp only
    rw [hn]
    cases isNumber with
    | false => simp only [hirrefl, decide_false]
    | true => simp only [lt_self_iff_false, decide_false]

theorem compareCondition_outcome {op : CondOp} (h : SetOutcome A A' op B B' b) :
    compareCondition A' op B' = some b := by
  cases h with
  | isIn h => exact congrArg some (decide_eq_decide.mpr h.subset_iff)
  | eq h => exact congrArg some (decide_eq_decide.mpr h.eq_iff)
  | ne h => exact congrArg some (decide_eq_decide.mpr h.eq_iff.not)
  | numbers ha hb op =>
    unfold compareCondition
    rw [convertSet_decimal ha, convertSet_decimal hb]
  | same h op =>
    unfold compareCondition
    dsimp only
    cases convertSet A' with
    | none => cases op <;> simp [OrderOp.byLt]
    | some n => simp only [lt_self_iff_false, decide_false]

theorem definedVar_found (h : T.Current t) {var : Text} (hx : processVar var = some x) (hclosed : ClosedVar T.symtab.defs x) :
    ∃ t', T.Current t' ∧ Returns (fun fuel => condExpr.definedVar fuel t var) (t', some true) := by
  rw [← h.defs] at hclosed
  obtain ⟨t', v, hret, hfill, -⟩ := getSetVar_returns h.upToDate hx hclosed
  exact ⟨t', h.filled hfill, hret.map _⟩

theorem definedVar_notFound {var : Text} (hx : processVar var = some x) (hno : ∀ v, t x = some v → v.type ≠ .set) (fuel : ℕ) :
    condExpr.definedVar fuel t var = some (t, some false) := by
  unfold condExpr.definedVar getSetVar
  rw [hx]
  dsimp only
  cases hv : t x with
  | none => rfl
  | some v =>
    dsimp only
    rw [if_pos (hno v hv)]
    rfl

theorem condExpr_returns {e : Cond} (h : Agreed T e b) (ht : T.Current t) :
    ∃ t', T.Current t' ∧ Returns (fun fuel => condExpr fuel t e) (t', some b) := by
  induction h generalizing t with
  | or _ _ iha ihb | and _ _ iha ihb =>
    obtain ⟨ta, hta, ha⟩ := iha ht
    obtain ⟨tb, htb, hb⟩ := ihb hta
    exact ⟨tb, htb, andThen_returns ha (andThen_returns hb (Returns.pure _))⟩
  | not _ ih =>
    obtain ⟨ta, hta, ha⟩ := ih ht
    exact ⟨ta, hta, andThen_returns ha (Returns.pure _)⟩
  | @boolVar x b hx hb =>
    obtain ⟨E, hv, -⟩ := Filled.lookup ht (T.symtab_bool hb)
    refine ⟨t, ht, (Returns.pure _).congr fun fuel => ?_⟩
    unfold condExpr
    dsimp only
    rw [hx, Option.bind_some, hv]
    cases b <;> rfl
  | definedSet hx hclosed => exact definedVar_found ht hx hclosed
  | undefinedSet hx hrule =>
    exact ⟨t, ht, (Returns.pure _).congr fun fuel => definedVar_notFound hx (fun v => ht.not_set hrule) fuel⟩
  | undefinedBool hx hnone =>
    have hrule := (T.symtab_eq_none hnone).2
    exact ⟨t, ht, (Returns.pure _).congr fun fuel => definedVar_notFound hx (fun v => ht.not_set hrule) fuel⟩
  | compare hl hr hout =>
    obtain ⟨tl, htl, hleft⟩ := getSet_returns ht hl
    obtain ⟨tr, htr, hright⟩ := getSet_returns htl hr
    refine ⟨tr, htr, andThen_returns hleft (andThen_returns hright ?_)⟩
    rw [compareSets_outcome hout]
    exact Returns.pure _

theorem evaluateTree_agreed {e : Cond} (h : Agreed T e b) : evaluateTree T e = some b := by
  induction h with
  | or _ _ iha ihb | and _ _ iha ihb => rw [evaluateTree, iha, ihb]; rfl
  | not _ ih => rw [evaluateTree, ih]; rfl
  | boolVar _ hb => rw [evaluateTree, hb]
  | definedSet _ hclosed =>
    obtain ⟨vs, hd, -⟩ := hclosed
    obtain ⟨v, hv, htype, -⟩ := lookup_of_defs hd
    rw [evaluateTree, (T.symtab_set hv htype).2.1]
  | undefinedSet _ hrule => rw [evaluateTree, hrule]; rfl
  | undefinedBool _ hnone => rw [evaluateTree, (T.symtab_eq_none hnone).1]; rfl
  | compare hl hr hout =>
    rw [evaluateTree, getSet_utils hl, getSet_utils hr]
    exact compareCondition_outcome hout

theorem termSet_plain {vs : List Text} (hx : processVar (refText x) = some x) (hbools : T.bools.lookup x = none)
    (hrules : (T.sets.filter fun e => e.1 = x) = [(x, vs)]) (hplain : ∀ v ∈ vs, extractVariable v = none) :
    TermSet T (.setVar x) vs.toFinset vs.toFinset := by
  have hsymtab : T.symtab x = some (.ofValues vs) := by
    unfold CondTable.symtab
    rw [hbools, hrules]
    simp
  have hdefs : T.symtab.defs x = some (Variable.ofValues vs).values := by
    unfold Symtab.defs
    rw [hsymtab]
    rfl
  refine .setVar hx ⟨_, hdefs, fun v hv => .done (hplain v (mem_ofValues.mp hv))⟩ (T.lookup_of_rules hrules) fun r => ?_
  constructor
  · rintro ⟨values, hd, v, hv, hr⟩
    rw [hdefs] at hd
    cases hd
    rw [mem_ofValues] at hv
    rw [expands_none (hplain v hv)] at hr
    rwa [hr]
  · intro hr
    exact ⟨_, hdefs, r, mem_ofValues.mpr hr, .done (hplain r hr)⟩

end Runs

def flagName : Text := ['b']

def sizeName : Text := ['x']

def sampleTable (flag : Bool) : CondTable where
  bools := [(flagName, flag)]
  sets := [(sizeName, [['1', '2']])]
  apart := by
    intro x b vs hb hs
    rw [List.mem_singleton, Prod.mk.injEq] at hb hs
    exact absurd (hb.1.symm.trans hs.1) (by decide)
  nonempty := by
    intro x vs h
    rw [List.mem_singleton, Prod.mk.injEq] at h
    rw [h.2]
    exact List.cons_ne_nil _ _

def sampleCond : Cond :=
  .or (.and (.not (.boolVar flagName)) (.compare (.setVar sizeName) (.order .gt) (.id ['9'])))
    (.compare (.setVar sizeName) .ne (.id ['1', ' ', '2']))

theorem sampleCond_agreed : Agreed (sampleTable true) sampleCond true := by
  have htwelve : IsDecimal ['1', '2'] 12 := .mk false ⟨forall_mem_of_all (by decide), by decide, by decide⟩ (by decide) (by decide)
  have hnine : IsDecimal ['9'] 9 := .mk false ⟨forall_mem_of_all (by decide), by decide, by decide⟩ (by decide) (by decide)
  have hset : TermSet (sampleTable true) (.setVar sizeName) [['1', '2']].toFinset [['1', '2']].toFinset :=
    termSet_plain (by decide) (by decide) (by decide) (by decide)
  have hquoted : TermSet (sampleTable true) (.id ['1', ' ', '2']) {['1', ' ', '2']} {['"', '1', ' ', '2', '"']} :=
    .id (by decide) (by decide)
  have hrenamed : Renamed {['1', '2']} {['1', ' ', '2']} {['1', '2']} {['"', '1', ' ', '2', '"']} := by
    refine ⟨quoteIfNeeded, ?_, by decide, by decide⟩
    rw [Finset.coe_singleton, Finset.coe_singleton]
    rintro a (rfl | rfl) b (rfl | rfl) h
    · rfl
    · exact absurd h (by decide)
    · exact absurd h (by decide)
    · rfl
  exact .or (.and (.not (.boolVar (by decide) (by decide))) (.compare hset (.id (by decide) (by decide)) (.numbers htwelve hnine .gt)))
    (.compare hset hquoted (.ne hrenamed))

end AppArmor

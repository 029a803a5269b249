import AppArmor.Lib.Double
import AppArmor.Utils.ConditionCorrect
import Mathlib

namespace AppArmor

open List Option

inductive Rlimit
  | cpu | fsize | data | stack | core | rss | nofile | ofile | as | nproc | memlock | locks | sigpending | msgqueue | nice
  | rtprio | rttime
  deriving DecidableEq

inductive RlimitKind
  | size
  | number
  | cpu
  | rttime
  | nice
  deriving DecidableEq

def Rlimit.kind : Rlimit → RlimitKind
  | .fsize | .data | .stack | .core | .rss | .as | .memlock | .msgqueue => .size
  | .ofile | .nofile | .locks | .sigpending | .nproc | .rtprio => .number
  | .cpu => .cpu
  | .rttime => .rttime
  | .nice => .nice

def infinityText : Text := "infinity".toList

/-! ### The utils -/

def isLetter (c : Char) : Bool := ('a' ≤ c && c ≤ 'z') || ('A' ≤ c && c ≤ 'Z')

def atEnd (s : Text) : Bool := s = [] || s = ['\n']

def splitUnit (value : Text) : Option (ℕ × Text) :=
  let number := value.takeWhile Char.isDigit
  let rest := (value.dropWhile Char.isDigit).dropWhile isStripped
  if number ≠ [] ∧ atEnd (rest.dropWhile isLetter) then some (digitsValue 10 number, rest.takeWhile isLetter) else none

def sizeFactor (unit : Text) : Option ℕ :=
  if unit = [] then some 1
  else if unit = "K".toList ∨ unit = "KB".toList then some 1024
  else if unit = "M".toList ∨ unit = "MB".toList then some (1024 * 1024)
  else if unit = "G".toList ∨ unit = "GB".toList then some (1024 * 1024 * 1024)
  else none

def floatDiv (n d : ℕ) : Option ℚ :=
  let x := Double.round n
  if 2 ^ 1024 ≤ x then none else some (Double.round (x / d))

def timeToInt (cpu : Bool) (number : ℕ) (unit : Text) : Option ℚ :=
  let unit := if unit = [] then (if cpu then "seconds".toList else "us".toList) else unit
  if unit ∈ ["us".toList, "microsecond".toList, "microseconds".toList] then
    if cpu then none else floatDiv number 1000000
  else if unit ∈ ["ms".toList, "millisecond".toList, "milliseconds".toList] then
    if cpu then none else floatDiv number 1000
  else if unit ∈ ["s".toList, "sec".toList, "second".toList, "seconds".toList] then some number
  else if unit ∈ ["min".toList, "minute".toList, "minutes".toList] then some (number * 60 : ℕ)
  else if unit ∈ ["h".toList, "hour".toList, "hours".toList] then some (number * 60 * 60 : ℕ)
  else if unit ∈ ["d".toList, "day".toList, "days".toList] then some (number * 60 * 60 * 24 : ℕ)
  else if unit ∈ ["week".toList, "weeks".toList] then some (number * 60 * 60 * 24 * 7 : ℕ)
  else none

def niceValue (value : Text) : Option ℤ :=
  let sign := readSign value
  let number := sign.2.takeWhile Char.isDigit
  let short := number.length = 1 ∨ number.length = 2 ∧ number.head? ∈ [some '0', some '1']
  if value.head? ≠ some '+' ∧ atEnd (sign.2.dropWhile Char.isDigit) ∧ (short ∨ sign.1 ∧ number = "20".toList) then
    some (signed sign.1 (digitsValue 10 number))
  else none

inductive RlimitRule
  | all
  | value (asInt : ℚ)
  deriving DecidableEq

def RlimitRule.create (r : Rlimit) (value : Text) : Option RlimitRule :=
  if value = infinityText then some .all
  else if strip value = [] then none
  else
    match r.kind with
    | .size => (splitUnit value).bind fun p => (sizeFactor p.2).map fun k => .value (p.1 * k : ℕ)
    | .number =>
      let number := value.takeWhile Char.isDigit
      if number ≠ [] ∧ atEnd (value.dropWhile Char.isDigit) then some (.value (digitsValue 10 number)) else none
    | .cpu => (splitUnit value).bind fun p => (timeToInt true p.1 p.2).map .value
    | .rttime => (splitUnit value).bind fun p => (timeToInt false p.1 p.2).map .value
    | .nice => (niceValue value).map fun n => .value (0 - n)

def RlimitRule.isCovered : RlimitRule → RlimitRule → Bool
  | .all, _ => true
  | .value _, .all => false
  | .value a, .value b => !(b > a)

/-! ### The parser -/

def rlimitTokens (value : Text) : Option (Text × Option Text) :=
  if value = infinityText then some (value, none)
  else
    let sign := if value.head? = some '-' then ['-'] else []
    let body := value.drop sign.length
    let number := body.takeWhile Char.isDigit
    let rest := (body.dropWhile Char.isDigit).dropWhile fun c => c ∈ [' ', '\t', '\n']
    let unit := rest.takeWhile fun c => isLetter c || c = '_'
    let after := (rest.dropWhile fun c => isLetter c || c = '_').dropWhile fun c => c ∈ [' ', '\t', '\n']
    if number = [] ∨ after ≠ [] then none
    else some (sign ++ number, if unit = [] then none else some unit)

def strtoll (s : Text) : ℤ :=
  match strtol s with
  | some (n, _) => n
  | none => if (readSign (s.dropWhile isSpace)).1 then -2 ^ 63 else 2 ^ 63 - 1

def wrap64 (n : ℤ) : ℤ := (n + 2 ^ 63) % 2 ^ 64 - 2 ^ 63

def secondsPMs : ℤ := 1000 * 1000

def timeUnits : List (Text × ℤ) :=
  [("us".toList, 1), ("microsecond".toList, 1), ("microseconds".toList, 1),
    ("ms".toList, 1000), ("millisecond".toList, 1000), ("milliseconds".toList, 1000),
    ("s".toList, 1000 * 1000), ("sec".toList, secondsPMs), ("second".toList, secondsPMs), ("seconds".toList, secondsPMs),
    ("min".toList, 60 * secondsPMs), ("minute".toList, 60 * secondsPMs), ("minutes".toList, 60 * secondsPMs),
    ("h".toList, 60 * 60 * secondsPMs), ("hour".toList, 60 * 60 * secondsPMs), ("hours".toList, 60 * 60 * secondsPMs),
    ("d".toList, 24 * 60 * 60 * secondsPMs), ("day".toList, 24 * 60 * 60 * secondsPMs),
    ("days".toList, 24 * 60 * 60 * secondsPMs), ("week".toList, 7 * 24 * 60 * 60 * secondsPMs),
    ("weeks".toList, 7 * 24 * 60 * 60 * secondsPMs)]

def convertTimeUnits (value base : ℤ) : Option Text → ℤ
  | none => value
  | some unit =>
    match timeUnits.lookup unit with
    | some factor => if wrap64 (value * factor) < base then -1 else Int.tdiv (wrap64 (value * factor)) base
    | none => -2

def toRlim (n : ℤ) : ℕ := (n % 2 ^ 64).toNat

def rlimInfinity : ℕ := 2 ^ 64 - 1

def storeRlimit (r : Rlimit) (tmp : ℤ) (unit : Option Text) : Option ℕ :=
  match r.kind with
  | .cpu =>
    if tmp < 0 then none
    else
      let tmp := convertTimeUnits tmp secondsPMs unit
      if tmp < 0 then none else some (toRlim tmp)
  | .rttime =>
    if tmp < 0 then none
    else
      let tmp := convertTimeUnits tmp 1 unit
      if tmp < 0 then none else some (toRlim tmp)
  | .number => if unit.isSome ∨ tmp < 0 then none else some (toRlim tmp)
  | .nice => if unit.isSome ∨ tmp < -20 ∨ tmp > 19 then none else some (toRlim (tmp + 20))
  | .size =>
    if tmp < 0 then none
    else
      match unit with
      | none => some (toRlim tmp)
      | some unit =>
        if unit <+: "KB".toList then some (toRlim (wrap64 (tmp * 1024)))
        else if unit <+: "MB".toList then some (toRlim (wrap64 (tmp * (1024 * 1024))))
        else if unit <+: "GB".toList then some (toRlim (wrap64 (tmp * (1024 * 1024 * 1024))))
        else none

def addRlimit (r : Rlimit) (inValue : Text) (unit : Option Text) : Option ℕ :=
  if inValue = infinityText then some rlimInfinity else storeRlimit r (strtoll inValue) unit

def rlimitStored (r : Rlimit) (value : Text) : Option ℕ :=
  (rlimitTokens value).bind fun p => addRlimit r p.1 p.2

/-- `nice 0` and `nice 10`: the utils take the first one to cover the second, the parser stores 20 and 30. -/
theorem nice_order_differs :
    ∃ a₀ a₁₀, RlimitRule.create .nice "0".toList = some a₀ ∧ RlimitRule.create .nice "10".toList = some a₁₀ ∧
      a₀.isCovered a₁₀ = true ∧ rlimitStored .nice "0".toList = some 20 ∧ rlimitStored .nice "10".toList = some 30 := by
  refine ⟨.value (0 - 0), .value (0 - 10), ?_, ?_, ?_, ?_, ?_⟩
  all_goals decide +kernel

/-! ### Numerals that both read alike -/

structure RlimitNumeral (value ds blanks unit : Text) : Prop where
  text : value = ds ++ (blanks ++ unit)
  isDigits : IsDigits ds
  areBlanks : ∀ c ∈ blanks, c = ' ' ∨ c = '\t'
  letters : ∀ c ∈ unit, isLetter c = true

variable {p : Char → Bool} {l unit : Text} {c : Char} {r : Rlimit}

theorem takeWhile_none (h : ∀ c ∈ l, p c = false) : l.takeWhile p = [] ∧ l.dropWhile p = l := by
  cases l with
  | nil => exact ⟨rfl, rfl⟩
  | cons c l =>
    have hc : ¬p c = true := by simp [h c mem_cons_self]
    exact ⟨takeWhile_cons_of_neg hc, dropWhile_cons_of_neg hc⟩

theorem takeWhile_parts {l' : Text} (h : ∀ c ∈ l, p c = true) (h' : ∀ c ∈ l', p c = false) :
    (l ++ l').takeWhile p = l ∧ (l ++ l').dropWhile p = l' := by
  obtain ⟨htake, hdrop⟩ := takeWhile_none h'
  rw [takeWhile_append_of_pos h, dropWhile_append_of_pos h, htake, hdrop, append_nil]
  exact ⟨rfl, rfl⟩

theorem takeWhile_all (h : ∀ c ∈ l, p c = true) : l.takeWhile p = l ∧ l.dropWhile p = [] := by
  have hparts := takeWhile_parts h (fun c hc => absurd hc not_mem_nil)
  rwa [append_nil] at hparts

theorem isLetter_bounds (h : isLetter c = true) : 65 ≤ c.toNat := by
  simp only [isLetter, Bool.or_eq_true, Bool.and_eq_true, decide_eq_true_eq, Char.le_def, UInt32.le_iff_toNat_le] at h
  change 97 ≤ c.val.toNat ∧ _ ∨ 65 ≤ c.val.toNat ∧ _ at h
  change 65 ≤ c.val.toNat
  omega

theorem isLetter_facts (h : isLetter c = true) :
    c.isDigit = false ∧ isStripped c = false ∧ c ∉ [' ', '\t', '\n'] := by
  have hb := isLetter_bounds h
  refine ⟨?_, ?_, ?_⟩
  · by_contra hd
    have := isDigit_bounds (by simpa using hd)
    omega
  · have hhigh : c.toNat ≤ 122 := by
      simp only [isLetter, Bool.or_eq_true, Bool.and_eq_true, decide_eq_true_eq, Char.le_def, UInt32.le_iff_toNat_le] at h
      change _ ∧ c.val.toNat ≤ 122 ∨ _ ∧ c.val.toNat ≤ 90 at h
      change c.val.toNat ≤ 122
      omega
    rw [isStripped, decide_eq_false_iff_not]
    simp only [mem_cons, not_mem_nil, or_false]
    omega
  · intro hmem
    simp only [mem_cons, not_mem_nil, or_false] at hmem
    rcases hmem with rfl | rfl | rfl <;> exact absurd hb (by decide)

theorem ne_infinity_of_isDigit {cs : Text} (hc : c.isDigit = true) : c :: cs ≠ infinityText := by
  intro heq
  obtain ⟨rfl, -⟩ := cons.inj (show c :: cs = 'i' :: "nfinity".toList from heq)
  exact absurd hc (by decide)

section Numeral

variable {value ds blanks unit : Text} (h : RlimitNumeral value ds blanks unit)
include h

theorem RlimitNumeral.digits_split : value.takeWhile Char.isDigit = ds ∧ value.dropWhile Char.isDigit = blanks ++ unit := by
  rw [h.text]
  refine takeWhile_parts h.isDigits.digits fun c hc => ?_
  rcases mem_append.mp hc with hc | hc
  · rcases h.areBlanks c hc with rfl | rfl <;> rfl
  · exact (isLetter_facts (h.letters c hc)).1

theorem RlimitNumeral.unit_split {p : Char → Bool} (hblank : ∀ c, c = ' ' ∨ c = '\t' → p c = true)
    (hletter : ∀ c, isLetter c = true → p c = false) : (blanks ++ unit).dropWhile p = unit :=
  (takeWhile_parts (fun c hc => hblank c (h.areBlanks c hc)) fun c hc => hletter c (h.letters c hc)).2

theorem RlimitNumeral.head : ∃ c cs, value = c :: cs ∧ c.isDigit = true := by
  obtain ⟨c, cs, hds, hc⟩ := h.isDigits.cons
  exact ⟨c, cs ++ (blanks ++ unit), by rw [h.text, hds, cons_append], hc⟩

theorem RlimitNumeral.ne_infinity : value ≠ infinityText := by
  obtain ⟨c, cs, rfl, hc⟩ := h.head
  exact ne_infinity_of_isDigit hc

theorem splitUnit_numeral : splitUnit value = some (digitsValue 10 ds, unit) := by
  obtain ⟨htake, hdrop⟩ := h.digits_split
  have hunit : (blanks ++ unit).dropWhile isStripped = unit := by
    refine h.unit_split ?_ fun c hc => (isLetter_facts hc).2.1
    rintro c (rfl | rfl) <;> decide
  obtain ⟨hletters, hend⟩ := takeWhile_all h.letters
  simp only [splitUnit, htake, hdrop, hunit, hletters, hend]
  rw [if_pos ⟨h.isDigits.ne_nil, rfl⟩]

theorem rlimitTokens_numeral : rlimitTokens value = some (ds, if unit = [] then none else some unit) := by
  obtain ⟨htake, hdrop⟩ := h.digits_split
  obtain ⟨c, cs, hvalue, hc⟩ := h.head
  have hsign : ¬value.head? = some '-' := by
    rw [hvalue]
    intro heq
    exact ne_of_isDigit hc (d := '-') rfl (some.inj heq)
  have hunit : ((blanks ++ unit).dropWhile fun c => c ∈ [' ', '\t', '\n']) = unit := by
    refine h.unit_split ?_ fun c hc => decide_eq_false (isLetter_facts hc).2.2
    rintro c (rfl | rfl) <;> decide
  have hletters : ∀ c ∈ unit, (isLetter c || c = '_') = true := fun c hc => by rw [h.letters c hc, Bool.true_or]
  obtain ⟨hkeyword, hend⟩ := takeWhile_all hletters
  rw [rlimitTokens, if_neg h.ne_infinity, if_neg hsign]
  simp only [length_nil, drop_zero, htake, hdrop, hunit, hkeyword, hend, dropWhile_nil, nil_append]
  rw [if_neg (by simp [h.isDigits.ne_nil])]

theorem strtoll_numeral (hlt : digitsValue 10 ds < 2 ^ 63) : strtoll ds = digitsValue 10 ds := by
  have hdecimal : IsDecimal ds (signed false (digitsValue 10 ds)) :=
    IsDecimal.mk false h.isDigits (by simp [signed]) (by simpa [signed] using by exact_mod_cast hlt)
  rw [strtoll, strtol_decimal hdecimal]
  rfl

theorem rlimitStored_numeral (r : Rlimit) (hlt : digitsValue 10 ds < 2 ^ 63) :
    rlimitStored r value = storeRlimit r (digitsValue 10 ds) (if unit = [] then none else some unit) := by
  have hds : ds ≠ infinityText := by
    obtain ⟨c, cs, rfl, hc⟩ := h.isDigits.cons
    exact ne_infinity_of_isDigit hc
  rw [rlimitStored, rlimitTokens_numeral h, bind_some, addRlimit, if_neg hds, strtoll_numeral h hlt]

theorem RlimitNumeral.strip_ne_nil : strip value ≠ [] := by
  obtain ⟨c, cs, rfl, hc⟩ := h.head
  have hstripped := isStripped_of_isDigit hc
  rw [strip, dropWhile_cons_of_neg (by simp [hstripped]), Ne, reverse_eq_nil_iff, dropWhile_eq_nil_iff]
  intro hall
  rw [hall c (by simp)] at hstripped
  cases hstripped

end Numeral

variable {n : ℕ}

theorem wrap64_of_lt (h : n < 2 ^ 63) : wrap64 n = n := by
  unfold wrap64
  omega

theorem toRlim_of_lt (h : n < 2 ^ 63) : toRlim n = n := by
  unfold toRlim
  omega

def unitScale (r : Rlimit) (unit : Text) : ℕ :=
  match r.kind with
  | .size => (sizeFactor unit).getD 1
  | .cpu | .rttime => ((timeUnits.lookup unit).getD 1).toNat
  | .number | .nice => 1

/-- Below this limit, in microseconds, a double in seconds tells any two of them apart. -/
def fineBound : ℕ := 2 ^ 33 * 1000000

/-- A value that both read as the same limit: `infinity`, or a numeral of `IsDigits` whose limit is not too large. A number of
seconds is exact for the utils; micro- and milliseconds are divided. -/
inductive PlainValue (r : Rlimit) : Text → Prop
  | infinity : PlainValue r infinityText
  | numeral {value ds blanks unit} (h : RlimitNumeral value ds blanks unit) (hlt : digitsValue 10 ds * unitScale r unit < 2 ^ 63)
      (hfine : r = .rttime → unitScale r unit < 1000000 → digitsValue 10 ds * unitScale r unit < fineBound) :
      PlainValue r value

theorem storeRlimit_size {k : ℕ} (hkind : r.kind = .size) (hfactor : sizeFactor unit = some k)
    (hlt : n * k < 2 ^ 63) : storeRlimit r n (if unit = [] then none else some unit) = some (n * k) := by
  have hneg : ¬(n : ℤ) < 0 := by omega
  have hstore : toRlim (wrap64 (n * k)) = n * k := by
    have hwrap := wrap64_of_lt hlt
    push_cast at hwrap
    rw [hwrap]
    exact_mod_cast toRlim_of_lt hlt
  rw [storeRlimit.eq_def, hkind]
  dsimp only
  rw [if_neg hneg]
  simp only [sizeFactor] at hfactor
  split_ifs at hfactor with hnil hK hM hG <;> cases hfactor
  · rw [hnil, if_pos rfl, mul_one]
    exact congrArg some (toRlim_of_lt (by simpa using hlt))
  · rcases hK with rfl | rfl <;> exact congrArg some hstore
  · rcases hM with rfl | rfl <;> exact congrArg some hstore
  · rcases hG with rfl | rfl <;> exact congrArg some hstore

theorem timeToInt_cpu {x : ℚ} (hunit : unit ≠ []) (h : timeToInt true n unit = some x) :
    ∃ k : ℕ, timeUnits.lookup unit = some (k * 1000000) ∧ 1 ≤ k ∧ x = ((n * k : ℕ) : ℚ) := by
  simp only [timeToInt, if_neg hunit, mem_cons, not_mem_nil, or_false, if_true] at h
  split_ifs at h with hus hms hs hmin hh hd hweek <;> cases h
  · rcases hs with rfl | rfl | rfl | rfl <;> exact ⟨1, by decide, le_rfl, by push_cast; ring⟩
  · rcases hmin with rfl | rfl | rfl <;> exact ⟨60, by decide, by norm_num, by push_cast; ring⟩
  · rcases hh with rfl | rfl | rfl <;> exact ⟨3600, by decide, by norm_num, by push_cast; ring⟩
  · rcases hd with rfl | rfl | rfl <;> exact ⟨86400, by decide, by norm_num, by push_cast; ring⟩
  · rcases hweek with rfl | rfl <;> exact ⟨604800, by decide, by norm_num, by push_cast; ring⟩

theorem lookup_nil : timeUnits.lookup [] = none := by decide

theorem convertTimeUnits_none (value base : ℤ) : convertTimeUnits value base none = value := rfl

theorem convertTimeUnits_scaled {f : ℕ} (base : ℕ) (hlookup : timeUnits.lookup unit = some (f : ℤ))
    (hlt : n * f < 2 ^ 63) : convertTimeUnits n base (some unit) = if n * f < base then -1 else ((n * f / base : ℕ) : ℤ) := by
  have hwrap : wrap64 (n * f) = (n * f : ℕ) := by
    rw [← wrap64_of_lt hlt]
    push_cast
    rfl
  rw [convertTimeUnits, hlookup]
  dsimp only
  rw [hwrap]
  by_cases hbase : n * f < base
  · rw [if_pos hbase, if_pos (by exact_mod_cast hbase)]
  · rw [if_neg hbase, if_neg (by exact_mod_cast hbase)]
    rfl

theorem floatDiv_of_lt {d : ℕ} (hn : n < 2 ^ 53) : floatDiv n d = some (Double.round (n / d)) := by
  have hsmall : ¬(2 : ℚ) ^ 1024 ≤ n := by
    rw [not_le]
    calc (n : ℚ) < 2 ^ 53 := by exact_mod_cast hn
      _ ≤ 2 ^ 1024 := pow_le_pow_right₀ (by norm_num) (by norm_num)
  rw [floatDiv, Double.round_natCast hn, if_neg hsmall]

theorem round_seconds (hn : n < 2 ^ 53) : Double.round ((n * 1000000 : ℕ) / 1000000) = n := by
  rw [Nat.cast_mul, Nat.cast_ofNat, mul_div_cancel_right₀ (n : ℚ) (by norm_num), Double.round_natCast hn]

theorem floatDiv_millis (hn : n < 2 ^ 53) : floatDiv n 1000 = some (Double.round ((n * 1000 : ℕ) / 1000000)) := by
  rw [floatDiv_of_lt hn]
  congr 2
  push_cast
  field_simp
  ring

theorem round_unit {k : ℕ} (hlt : n * (k * 1000000) < 2 ^ 63) :
    ((n * k : ℕ) : ℚ) = Double.round ((n * (k * 1000000) : ℕ) / 1000000) := by
  rw [← mul_assoc] at hlt ⊢
  exact (round_seconds (by omega)).symm

/-- The limits, in microseconds, that the division by a million keeps apart from others. -/
def FineLimit (limit : ℕ) : Prop := limit < fineBound ∨ 1000000 ∣ limit

theorem timeToInt_rttime {x : ℚ} (h : timeToInt false n unit = some x)
    (hlt : n * ((timeUnits.lookup unit).getD 1).toNat < 2 ^ 63)
    (hfine : ((timeUnits.lookup unit).getD 1).toNat < 1000000 → n * ((timeUnits.lookup unit).getD 1).toNat < fineBound) :
    ∃ f : ℕ, (unit = [] ∧ f = 1 ∨ unit ≠ [] ∧ timeUnits.lookup unit = some (f : ℤ)) ∧ 1 ≤ f ∧ n * f < 2 ^ 63 ∧
      FineLimit (n * f) ∧ x = Double.round ((n * f : ℕ) / 1000000) := by
  by_cases hunit : unit = []
  · subst hunit
    have hn : n < fineBound := by simpa [lookup_nil] using hfine
    have hx : floatDiv n 1000000 = some x := h
    rw [floatDiv_of_lt (lt_trans hn (by decide))] at hx
    cases hx
    exact ⟨1, Or.inl ⟨rfl, rfl⟩, le_rfl, by simpa [lookup_nil] using hlt, Or.inl (by simpa using hn), by simp⟩
  · have key : ∀ f : ℕ, timeUnits.lookup unit = some (f : ℤ) → 1 ≤ f →
        (n * f < 2 ^ 63 → (f < 1000000 → n * f < fineBound) → FineLimit (n * f) ∧ x = Double.round ((n * f : ℕ) / 1000000)) →
        ∃ f : ℕ, (unit = [] ∧ f = 1 ∨ unit ≠ [] ∧ timeUnits.lookup unit = some (f : ℤ)) ∧ 1 ≤ f ∧ n * f < 2 ^ 63 ∧
          FineLimit (n * f) ∧ x = Double.round ((n * f : ℕ) / 1000000) := by
      intro f hlookup hone hx
      rw [hlookup, getD_some, Int.toNat_natCast] at hlt hfine
      exact ⟨f, Or.inr ⟨hunit, hlookup⟩, hone, hlt, hx hlt hfine⟩
    have whole : ∀ k : ℕ, timeUnits.lookup unit = some ((k * 1000000 : ℕ) : ℤ) → 1 ≤ k → x = ((n * k : ℕ) : ℚ) →
        ∃ f : ℕ, (unit = [] ∧ f = 1 ∨ unit ≠ [] ∧ timeUnits.lookup unit = some (f : ℤ)) ∧ 1 ≤ f ∧ n * f < 2 ^ 63 ∧
          FineLimit (n * f) ∧ x = Double.round ((n * f : ℕ) / 1000000) := by
      intro k hlookup hone hx
      refine key (k * 1000000) hlookup (by omega) fun hn _ => ⟨Or.inr ⟨n * k, by ring⟩, ?_⟩
      rw [hx, round_unit hn]
    simp only [timeToInt, if_neg hunit, mem_cons, not_mem_nil, or_false, Bool.false_eq_true, if_false] at h
    split_ifs at h with hus hms hs hmin hh hd hweek
    · refine key 1 (by rcases hus with rfl | rfl | rfl <;> decide) le_rfl fun _ hn => ?_
      replace hn := hn (by norm_num)
      rw [mul_one] at hn ⊢
      rw [floatDiv_of_lt (lt_trans hn (by decide))] at h
      cases h
      exact ⟨Or.inl hn, by simp⟩
    · refine key 1000 (by rcases hms with rfl | rfl | rfl <;> decide) (by norm_num) fun _ hn => ?_
      replace hn := hn (by norm_num)
      have hsmall : n < 2 ^ 53 := by
        unfold fineBound at hn
        omega
      rw [floatDiv_millis hsmall] at h
      cases h
      exact ⟨Or.inl hn, rfl⟩
    · cases h
      exact whole 1 (by rcases hs with rfl | rfl | rfl | rfl <;> decide) le_rfl (by rw [mul_one])
    · cases h
      exact whole 60 (by rcases hmin with rfl | rfl | rfl <;> decide) (by norm_num) rfl
    · cases h
      exact whole (60 * 60) (by rcases hh with rfl | rfl | rfl <;> decide) (by norm_num) (by rw [mul_assoc])
    · cases h
      exact whole (60 * 60 * 24) (by rcases hd with rfl | rfl | rfl <;> decide) (by norm_num) (by rw [mul_assoc, mul_assoc, mul_assoc])
    · cases h
      exact whole (60 * 60 * 24 * 7) (by rcases hweek with rfl | rfl <;> decide) (by norm_num)
        (by rw [mul_assoc, mul_assoc, mul_assoc, mul_assoc, mul_assoc])

section Stored

variable {r : Rlimit} {value ds blanks unit : Text} {a : RlimitRule} {b : ℕ} (h : RlimitNumeral value ds blanks unit)
  (ha : RlimitRule.create r value = some a) (hb : rlimitStored r value = some b)
include h ha hb

theorem create_number (hkind : r.kind = .number) (hlt : digitsValue 10 ds < 2 ^ 63) : b < 2 ^ 63 ∧ a = .value b := by
  obtain ⟨htake, -⟩ := h.digits_split
  rw [RlimitRule.create, if_neg h.ne_infinity, if_neg h.strip_ne_nil, hkind] at ha
  rw [rlimitStored_numeral h r hlt, storeRlimit.eq_def, hkind] at hb
  dsimp only at ha hb
  rw [htake] at ha
  rw [toRlim_of_lt hlt] at hb
  split_ifs at ha hb
  all_goals
    cases ha
    cases hb
    exact ⟨hlt, rfl⟩

theorem create_size (hkind : r.kind = .size) (hlt : digitsValue 10 ds * unitScale r unit < 2 ^ 63) :
    b < 2 ^ 63 ∧ a = .value b := by
  rw [RlimitRule.create, if_neg h.ne_infinity, if_neg h.strip_ne_nil, hkind, splitUnit_numeral h] at ha
  dsimp only [bind_some] at ha
  rw [unitScale, hkind] at hlt
  cases hfactor : sizeFactor unit with
  | none => rw [hfactor] at ha; cases ha
  | some k =>
    rw [hfactor] at ha hlt
    cases ha
    dsimp only [getD_some] at hlt
    have hone : 1 ≤ k := by
      simp only [sizeFactor] at hfactor
      split_ifs at hfactor <;> cases hfactor <;> norm_num
    have hds : digitsValue 10 ds < 2 ^ 63 := lt_of_le_of_lt (Nat.le_mul_of_pos_right _ hone) hlt
    rw [rlimitStored_numeral h r hds, storeRlimit_size hkind hfactor hlt] at hb
    cases hb
    exact ⟨hlt, rfl⟩

theorem create_cpu (hkind : r.kind = .cpu) (hlt : digitsValue 10 ds * unitScale r unit < 2 ^ 63) :
    b < 2 ^ 63 ∧ a = .value b := by
  rw [RlimitRule.create, if_neg h.ne_infinity, if_neg h.strip_ne_nil, hkind, splitUnit_numeral h] at ha
  dsimp only [bind_some] at ha
  cases hx : timeToInt true (digitsValue 10 ds) unit with
  | none => rw [hx] at ha; cases ha
  | some x =>
    rw [hx] at ha
    cases ha
    rw [unitScale, hkind] at hlt
    dsimp only at hlt
    by_cases hunit : unit = []
    · subst hunit
      have hds : digitsValue 10 ds < 2 ^ 63 := by simpa [lookup_nil] using hlt
      rw [rlimitStored_numeral h r hds, storeRlimit.eq_def, hkind] at hb
      rw [if_pos rfl, convertTimeUnits_none, if_neg (by omega), if_neg (by omega), toRlim_of_lt hds] at hb
      cases hb
      cases hx
      exact ⟨hds, rfl⟩
    · obtain ⟨k, hlookup, hone, rfl⟩ := timeToInt_cpu hunit hx
      have hlookup' : timeUnits.lookup unit = some ((k * 1000000 : ℕ) : ℤ) := by rw [hlookup]; push_cast; rfl
      rw [hlookup', getD_some, Int.toNat_natCast] at hlt
      have hds : digitsValue 10 ds < 2 ^ 63 := lt_of_le_of_lt (Nat.le_mul_of_pos_right _ (by omega)) hlt
      have hscaled := convertTimeUnits_scaled 1000000 hlookup' hlt
      rw [rlimitStored_numeral h r hds, storeRlimit.eq_def, hkind] at hb
      dsimp only at hb
      rw [if_neg hunit, if_neg (by omega), show secondsPMs = ((1000000 : ℕ) : ℤ) from rfl, hscaled, ← mul_assoc,
        Nat.mul_div_cancel _ (by norm_num)] at hb
      split_ifs at hb with hsmall hneg
      · omega
      · have hlimit : digitsValue 10 ds * k < 2 ^ 63 := by nlinarith
        rw [toRlim_of_lt hlimit] at hb
        cases hb
        exact ⟨hlimit, rfl⟩

theorem create_rttime (hkind : r.kind = .rttime) (hlt : digitsValue 10 ds * unitScale r unit < 2 ^ 63)
    (hfine : unitScale r unit < 1000000 → digitsValue 10 ds * unitScale r unit < fineBound) :
    b < 2 ^ 63 ∧ FineLimit b ∧ a = .value (Double.round (b / 1000000)) := by
  rw [RlimitRule.create, if_neg h.ne_infinity, if_neg h.strip_ne_nil, hkind, splitUnit_numeral h] at ha
  dsimp only [bind_some] at ha
  cases hx : timeToInt false (digitsValue 10 ds) unit with
  | none => rw [hx] at ha; cases ha
  | some x =>
    rw [hx] at ha
    cases ha
    rw [unitScale, hkind] at hlt hfine
    obtain ⟨f, hf, hone, hlimit, hfine, rfl⟩ := timeToInt_rttime hx hlt hfine
    have hds : digitsValue 10 ds < 2 ^ 63 := lt_of_le_of_lt (Nat.le_mul_of_pos_right _ hone) hlimit
    rw [rlimitStored_numeral h r hds, storeRlimit.eq_def, hkind] at hb
    dsimp only at hb
    rcases hf with ⟨rfl, rfl⟩ | ⟨hunit, hlookup⟩
    · rw [if_pos rfl, convertTimeUnits_none, if_neg (by omega), if_neg (by omega), toRlim_of_lt hds] at hb
      cases hb
      rw [mul_one] at hfine ⊢
      exact ⟨hds, hfine, rfl⟩
    · have hscaled := convertTimeUnits_scaled 1 hlookup hlimit
      rw [Nat.div_one] at hscaled
      rw [if_neg hunit, if_neg (by omega), show (1 : ℤ) = ((1 : ℕ) : ℤ) from rfl, hscaled] at hb
      split_ifs at hb with hsmall hneg
      · omega
      · rw [toRlim_of_lt hlimit] at hb
        cases hb
        exact ⟨hlimit, hfine, rfl⟩

end Stored

/-! ### The order of the limits -/

def comparedAs (r : Rlimit) (limit : ℕ) : ℚ := if r = .rttime then Double.round (limit / 1000000) else limit

theorem create_plain {value : Text} {a : RlimitRule} {b : ℕ} (hnice : r ≠ .nice) (h : PlainValue r value)
    (ha : RlimitRule.create r value = some a) (hb : rlimitStored r value = some b) :
    a = .all ∧ b = rlimInfinity ∨ b < 2 ^ 63 ∧ (r = .rttime → FineLimit b) ∧ a = .value (comparedAs r b) := by
  cases h with
  | infinity =>
    rw [RlimitRule.create, if_pos rfl] at ha
    cases ha
    cases hb
    exact Or.inl ⟨rfl, rfl⟩
  | numeral h hlt hfine =>
    right
    by_cases hrt : r = .rttime
    · subst hrt
      obtain ⟨hb, hfine, ha⟩ := create_rttime h ha hb rfl hlt (hfine rfl)
      exact ⟨hb, fun _ => hfine, ha⟩
    · have hother : b < 2 ^ 63 ∧ a = .value b := by
        cases hkind : r.kind with
        | size => exact create_size h ha hb hkind hlt
        | number => exact create_number h ha hb hkind (by simpa [unitScale, hkind] using hlt)
        | cpu => exact create_cpu h ha hb hkind hlt
        | rttime => cases r <;> first | exact absurd rfl hrt | cases hkind
        | nice => cases r <;> first | exact absurd rfl hnice | cases hkind
      rw [comparedAs, if_neg hrt]
      exact ⟨hother.1, fun h => absurd h hrt, hother.2⟩

theorem round_fine_lt {b₁ b₂ : ℕ} (hlt : b₁ < b₂) (hbound : b₂ < fineBound) :
    Double.round (b₁ / 1000000) < Double.round (b₂ / 1000000) := by
  have hstep : (b₁ : ℚ) + 1 ≤ b₂ := by exact_mod_cast hlt
  have hhigh : (b₂ : ℚ) < 2 ^ 33 * 1000000 := by exact_mod_cast hbound
  refine @Double.round_lt_round _ _ (1 / 1000000) 33 (by positivity) ?_ ?_ (by norm_num)
  · rw [← add_div]
    exact div_le_div_of_nonneg_right hstep (by norm_num)
  · rw [div_lt_iff₀ (by norm_num)]
    exact_mod_cast hhigh

theorem round_whole {b : ℕ} (hb : b < 2 ^ 63) (hdvd : 1000000 ∣ b) : Double.round (b / 1000000) = b / 1000000 := by
  obtain ⟨m, rfl⟩ := hdvd
  rw [mul_comm, round_seconds (by omega), Nat.cast_mul, Nat.cast_ofNat, mul_div_cancel_right₀ (m : ℚ) (by norm_num)]

theorem round_lt_fineBound {b : ℕ} (hb : b < fineBound) : Double.round (b / 1000000) < 2 ^ 33 := by
  rcases Nat.eq_zero_or_pos b with rfl | hpos
  · simp [Double.round]
  · have hq : (0 : ℚ) < b / 1000000 := by positivity
    have hhigh : (b : ℚ) + 1 ≤ 2 ^ 33 * 1000000 := by exact_mod_cast hb
    have hlow : (b : ℚ) / 1000000 ≤ 2 ^ 33 - 1 / 1000000 := by
      rw [div_le_iff₀ (by norm_num)]
      linarith
    have hlt : (b : ℚ) / 1000000 < 2 ^ (33 : ℤ) := by
      norm_num at hlow ⊢
      linarith
    have hulp := Double.ulp_le hq hlt
    have herr := (abs_le.mp (Double.round_error hq)).2
    norm_num at hulp hlow ⊢
    linarith

theorem comparedAs_lt {b₁ b₂ : ℕ} (hlt : b₁ < b₂) (hbound : b₂ < 2 ^ 63) (h₁ : r = .rttime → FineLimit b₁)
    (h₂ : r = .rttime → FineLimit b₂) : comparedAs r b₁ < comparedAs r b₂ := by
  unfold comparedAs
  split_ifs with hrt
  · rcases h₂ hrt with hfine | hwhole
    · exact round_fine_lt hlt hfine
    · rw [round_whole hbound hwhole]
      rcases h₁ hrt with hfine | hwhole₁
      · by_cases hsmall : b₂ < fineBound
        · rw [← round_whole hbound hwhole]
          exact round_fine_lt hlt hsmall
        · -- between the two lies the bound
          refine (round_lt_fineBound hfine).trans_le ?_
          rw [le_div_iff₀ (by norm_num)]
          exact_mod_cast not_lt.mp hsmall
      · rw [round_whole (hlt.trans hbound) hwhole₁]
        exact div_lt_div_of_pos_right (by exact_mod_cast hlt) (by norm_num)
  · exact_mod_cast hlt

theorem comparedAs_lt_iff {b₁ b₂ : ℕ} (hb₁ : b₁ < 2 ^ 63) (hb₂ : b₂ < 2 ^ 63) (h₁ : r = .rttime → FineLimit b₁)
    (h₂ : r = .rttime → FineLimit b₂) : comparedAs r b₁ < comparedAs r b₂ ↔ b₁ < b₂ := by
  refine ⟨fun h => ?_, fun h => comparedAs_lt h hb₂ h₁ h₂⟩
  by_contra hle
  rcases (not_lt.mp hle).eq_or_lt with rfl | hlt
  · exact lt_irrefl _ h
  · exact lt_asymm h (comparedAs_lt hlt hb₁ h₂ h₁)

theorem toRlim_lt {n : ℤ} (hlow : 0 ≤ n) (hhigh : n < 2 ^ 63) : toRlim n < rlimInfinity := by
  unfold toRlim rlimInfinity
  omega

theorem strtoll_bounds (s : Text) : strtoll s < 2 ^ 63 := by
  unfold strtoll
  split
  · next n rest heq =>
    unfold strtol at heq
    dsimp only at heq
    split_ifs at heq with hds hrange
    · cases heq
      norm_num
    · cases heq
      exact hrange.2
  · split_ifs <;> norm_num

theorem wrap64_lt (n : ℤ) : wrap64 n < 2 ^ 63 := by
  unfold wrap64
  omega

theorem convertTimeUnits_lt {value : ℤ} (hvalue : value < 2 ^ 63) {base : ℤ} (hbase : 0 < base) (unit : Option Text) :
    convertTimeUnits value base unit < 2 ^ 63 := by
  cases unit with
  | none => exact hvalue
  | some unit =>
    rw [convertTimeUnits]
    split
    · next factor _ =>
      have hwrap := wrap64_lt (value * factor)
      split_ifs with hsmall
      · norm_num
      · have hpos : 0 ≤ wrap64 (value * factor) := by omega
        exact (Int.tdiv_le_self _ hpos).trans_lt hwrap
    · norm_num

theorem storeRlimit_lt {tmp : ℤ} {unit : Option Text} {b : ℕ} (htmp : tmp < 2 ^ 63) (h : storeRlimit r tmp unit = some b) :
    b < rlimInfinity := by
  unfold storeRlimit at h
  dsimp only at h
  split at h
  case h_5 =>
    split at h
    · cases h
    · split at h
      · cases h
        exact toRlim_lt (by omega) htmp
      · -- the stored number is a multiple of 1024
        split_ifs at h
        all_goals
          cases h
          unfold toRlim wrap64 rlimInfinity
          omega
  all_goals split_ifs at h
  · cases h
    exact toRlim_lt (by omega) (convertTimeUnits_lt htmp (by decide) unit)
  · cases h
    exact toRlim_lt (by omega) (convertTimeUnits_lt htmp (by decide) unit)
  · cases h
    exact toRlim_lt (by omega) htmp
  · cases h
    exact toRlim_lt (by omega) (by omega)

theorem rlimitTokens_ne_infinity {value : Text} {p : Text × Option Text} (hvalue : value ≠ infinityText)
    (h : rlimitTokens value = some p) : p.1 ≠ infinityText := by
  have hdigit : ∀ number : Text, number ≠ [] → (∀ c ∈ number, c.isDigit = true) → ∀ sign, sign ++ number ≠ infinityText := by
    intro number hne hall sign heq
    obtain ⟨c, hc⟩ := exists_mem_of_ne_nil number hne
    have hmem : c ∈ infinityText := heq ▸ mem_append_right sign hc
    have hno : ∀ c ∈ infinityText, c.isDigit = false := forall_mem_of_all (by decide)
    have hyes := hall c hc
    rw [hno c hmem] at hyes
    cases hyes
  rw [rlimitTokens, if_neg hvalue] at h
  dsimp only at h
  generalize (if value.head? = some '-' then ['-'] else []) = sign at h
  split at h
  · cases h
  · next hparts =>
    cases h
    exact hdigit _ (fun hnumber => hparts (Or.inl hnumber)) (fun c hc => mem_takeWhile_imp hc) sign

theorem rlimitStored_lt {value : Text} {b : ℕ} (hvalue : value ≠ infinityText) (h : rlimitStored r value = some b) :
    b < rlimInfinity := by
  obtain ⟨p, htokens, hadd⟩ := bind_eq_some_iff.mp h
  rw [addRlimit, if_neg (rlimitTokens_ne_infinity hvalue htokens)] at hadd
  exact storeRlimit_lt (strtoll_bounds _) hadd

theorem rlimitStored_le {value : Text} {b : ℕ} (h : rlimitStored r value = some b) : b ≤ rlimInfinity := by
  by_cases hvalue : value = infinityText
  · subst hvalue
    cases h
    exact le_rfl
  · exact (rlimitStored_lt hvalue h).le

theorem isCovered_self (a : RlimitRule) : a.isCovered a = true := by
  cases a <;> simp [RlimitRule.isCovered]

theorem create_ne_all {value : Text} {a : RlimitRule} (hvalue : value ≠ infinityText) (h : RlimitRule.create r value = some a) :
    ∃ q, a = .value q := by
  rw [RlimitRule.create, if_neg hvalue] at h
  split_ifs at h
  cases hkind : r.kind with
  | size | cpu | rttime =>
    rw [hkind] at h
    obtain ⟨p, -, hp⟩ := bind_eq_some_iff.mp h
    obtain ⟨q, -, rfl⟩ := map_eq_some_iff.mp hp
    exact ⟨_, rfl⟩
  | number =>
    rw [hkind] at h
    dsimp only at h
    split_ifs at h
    cases h
    exact ⟨_, rfl⟩
  | nice =>
    rw [hkind] at h
    obtain ⟨n, -, rfl⟩ := map_eq_some_iff.mp h
    exact ⟨_, rfl⟩

/-! ### `nice` -/

theorem IsDecimal.ne_infinity {value : Text} {n : ℤ} (h : IsDecimal value n) : value ≠ infinityText := by
  cases h with
  | @mk neg ds hds hlow hhigh =>
    obtain ⟨c, cs, rfl, hc⟩ := hds.cons
    cases neg with
    | true => exact fun heq => absurd (cons.inj heq).1 (by decide)
    | false => exact ne_infinity_of_isDigit hc

theorem niceValue_decimal {value : Text} {n m : ℤ} (h : IsDecimal value n) (hm : niceValue value = some m) : m = n := by
  cases h with
  | @mk neg ds hds hlow hhigh =>
    obtain ⟨htake, -⟩ := takeWhile_all hds.digits
    unfold niceValue at hm
    rw [readSign_decimal hds] at hm
    dsimp only at hm
    rw [htake] at hm
    generalize (if neg then ['-'] else []) ++ ds = value at hm
    split at hm
    · cases hm
      rfl
    · cases hm

theorem create_nice {value : Text} {n : ℤ} {a : RlimitRule} (h : IsDecimal value n) (ha : RlimitRule.create .nice value = some a) :
    a = .value (0 - n) := by
  rw [RlimitRule.create, if_neg h.ne_infinity] at ha
  split_ifs at ha
  obtain ⟨q, hq, rfl⟩ := map_eq_some_iff.mp ha
  obtain ⟨m, hm, hmq⟩ := bind_eq_some_iff.mp hq
  cases hmq
  rw [niceValue_decimal h hm]

theorem rlimitTokens_decimal {value : Text} {n : ℤ} (h : IsDecimal value n) : rlimitTokens value = some (value, none) := by
  have hne := h.ne_infinity
  cases h with
  | @mk neg ds hds hlow hhigh =>
    obtain ⟨htake, hdrop⟩ := takeWhile_all hds.digits
    obtain ⟨c, cs, hcons, hc⟩ := hds.cons
    have hsign : (if ((if neg then ['-'] else []) ++ ds).head? = some '-' then ['-'] else []) = (if neg then ['-'] else [] : Text) := by
      cases neg with
      | true => rfl
      | false =>
        rw [if_neg Bool.false_ne_true, nil_append, hcons, if_neg]
        exact fun heq => ne_of_isDigit hc (d := '-') rfl (some.inj heq)
    rw [rlimitTokens, if_neg hne]
    dsimp only
    rw [hsign, drop_left, htake, hdrop]
    exact if_neg (by simp [hds.ne_nil])

theorem rlimitStored_nice {value : Text} {n : ℤ} {b : ℕ} (h : IsDecimal value n) (hb : rlimitStored .nice value = some b) :
    (b : ℤ) = n + 20 := by
  have hstrtoll : strtoll value = n := by rw [strtoll, strtol_decimal h]
  rw [rlimitStored, rlimitTokens_decimal h, bind_some, addRlimit, if_neg h.ne_infinity, hstrtoll] at hb
  change (if _ then _ else _) = _ at hb
  split_ifs at hb with hrange
  cases hb
  push Not at hrange
  unfold toRlim
  omega

/-- For all limits but `nice`, and values that both read as numbers of the usual size, a rule covers another one exactly
if the parser stores a limit for it that is at least as large. A rule covers itself, `infinity` covers all and nothing else
covers it. For `nice` this is so only for the same number. -/
theorem isCovered_iff_stored_le {r : Rlimit} {v₁ v₂ : Text} {a₁ a₂ : RlimitRule} {b₁ b₂ : ℕ}
    (ha₁ : RlimitRule.create r v₁ = some a₁) (ha₂ : RlimitRule.create r v₂ = some a₂)
    (hb₁ : rlimitStored r v₁ = some b₁) (hb₂ : rlimitStored r v₂ = some b₂) :
    (v₁ = v₂ ∨ v₁ = infinityText ∨ v₂ = infinityText ∨ r ≠ .nice ∧ PlainValue r v₁ ∧ PlainValue r v₂ →
        (a₁.isCovered a₂ = true ↔ b₂ ≤ b₁)) ∧
      ∀ n₁ n₂, r = .nice → IsDecimal v₁ n₁ → IsDecimal v₂ n₂ → ((a₁.isCovered a₂ = true ↔ b₂ ≤ b₁) ↔ n₁ = n₂) := by
  constructor
  · rintro (rfl | rfl | rfl | ⟨hnice, hv₁, hv₂⟩)
    · cases ha₁.symm.trans ha₂
      cases hb₁.symm.trans hb₂
      simp [isCovered_self]
    · rw [RlimitRule.create, if_pos rfl] at ha₁
      cases ha₁
      cases hb₁
      simp [RlimitRule.isCovered, rlimitStored_le hb₂]
    · rw [RlimitRule.create, if_pos rfl] at ha₂
      cases ha₂
      cases hb₂
      by_cases hv : v₁ = infinityText
      · subst hv
        rw [RlimitRule.create, if_pos rfl] at ha₁
        cases ha₁
        cases hb₁
        simp [RlimitRule.isCovered]
      · obtain ⟨q, rfl⟩ := create_ne_all hv ha₁
        have hlt := rlimitStored_lt hv hb₁
        simp only [RlimitRule.isCovered, Bool.false_eq_true, false_iff]
        omega
    · rcases create_plain hnice hv₁ ha₁ hb₁ with ⟨rfl, rfl⟩ | ⟨hlt₁, hfine₁, rfl⟩
      · simp [RlimitRule.isCovered, rlimitStored_le hb₂]
      · rcases create_plain hnice hv₂ ha₂ hb₂ with ⟨rfl, rfl⟩ | ⟨hlt₂, hfine₂, rfl⟩
        · simp only [RlimitRule.isCovered, Bool.false_eq_true, false_iff]
          unfold rlimInfinity
          omega
        · simp only [RlimitRule.isCovered, Bool.not_eq_true', decide_eq_false_iff_not, gt_iff_lt,
            comparedAs_lt_iff hlt₁ hlt₂ hfine₁ hfine₂]
          omega
  · rintro n₁ n₂ rfl hv₁ hv₂
    rw [create_nice hv₁ ha₁, create_nice hv₂ ha₂]
    have hstored₁ := rlimitStored_nice hv₁ hb₁
    have hstored₂ := rlimitStored_nice hv₂ hb₂
    have hcovered : (RlimitRule.value (0 - n₁)).isCovered (.value (0 - n₂)) = true ↔ n₁ ≤ n₂ := by
      simp only [RlimitRule.isCovered, Bool.not_eq_true', decide_eq_false_iff_not, gt_iff_lt, not_lt, zero_sub, neg_le_neg_iff,
        Int.cast_le]
    rw [hcovered]
    constructor
    · intro h
      by_contra hne
      rcases lt_or_gt_of_ne hne with hlt | hlt
      · have := h.mp hlt.le
        omega
      · have := h.mpr (by omega)
        omega
    · rintro rfl
      constructor
      · intro _
        omega
      · exact fun _ => le_rfl

theorem seconds_cover_minutes : (RlimitRule.value 10000000000).isCovered (.value 300) = true ↔
    300 * 1000000 ≤ 10000000000 * 1000000 := by
  have h₁ : RlimitNumeral "10000000000s".toList "10000000000".toList [] "s".toList :=
    ⟨rfl, ⟨forall_mem_of_all (by decide), by decide, by decide⟩, by simp, forall_mem_of_all (by decide)⟩
  have h₂ : RlimitNumeral "5 min".toList "5".toList [' '] "min".toList :=
    ⟨rfl, ⟨forall_mem_of_all (by decide), by decide, by decide⟩, by simp, forall_mem_of_all (by decide)⟩
  refine (@isCovered_iff_stored_le .rttime "10000000000s".toList "5 min".toList _ _ _ _ ?_ ?_ ?_ ?_).1
    (Or.inr (Or.inr (Or.inr ⟨by decide, .numeral h₁ ?_ ?_, .numeral h₂ ?_ ?_⟩)))
  all_goals decide +kernel

end AppArmor

import AppArmor.Interface.Features
import Mathlib

namespace AppArmor.Interface

open List Option Nat

/-! ### Paths -/

abbrev Dir := List Text

def pathStep (dir : Dir) (name : Text) : Dir :=
  if name = [] ∨ name = ['.'] then dir else if name = ['.', '.'] then dir.dropLast else dir ++ [name]

def resolve (dir : Dir) (path : Text) : Dir :=
  (path.splitOnP (· = '/')).foldl pathStep (if path.head? = some '/' then [] else dir)

/-! ### The cache -/

inductive FeaturesFile (F : Type)
  | missing
  | unreadable
  | present (features : F)
  deriving DecidableEq

/-- The directories and their `.features`; a directory that has one is listed in the directory above it. -/
structure CacheTree (F : Type) where
  entries : Dir → Option (List Text)
  features : Dir → FeaturesFile F
  plain : ∀ {dir names}, entries dir = some names → ∀ name ∈ names, '/' ∉ name
  listed : ∀ {dir name}, features (dir ++ [name]) ≠ .missing → ∃ names, entries dir = some names ∧ name ∈ names

structure FeaturesId (F : Type) where
  id : F → Text
  ne_nil : ∀ f, id f ≠ []
  digits : ∀ f, ∀ c ∈ id f, c.isDigit ∨ c ∈ ['a', 'b', 'c', 'd', 'e', 'f']

inductive FeaturesCheck
  | equal
  | enoent
  | eexist
  | failed
  deriving DecidableEq

structure MissData where
  cacheName : Option Text
  n : ℤ
  deriving DecidableEq

def strtolDecimal (s : Text) : ℤ × Text :=
  let sign := readSign (s.dropWhile isSpace)
  let ds := sign.2.takeWhile Char.isDigit
  if ds = [] then (0, s)
  else (max (-2 ^ 63) (min (2 ^ 63 - 1) (signed sign.1 (Nat.ofDigitChars 10 ds 0))), sign.2.dropWhile Char.isDigit)

def afterDot (name : Text) : Text := (name.dropWhile (· ≠ '.')).drop 1

def printInt (n : ℤ) : Text :=
  let n := (n + 2 ^ 31) % 2 ^ 32 - 2 ^ 31
  (if n < 0 then ['-'] else []) ++ Nat.toDigits 10 n.natAbs

section Cache

variable {F : Type} [DecidableEq F] (ids : FeaturesId F) (tree : CacheTree F) (features : F)

def featuresCheck (dir : Dir) (path : Text) : FeaturesCheck :=
  match tree.features (resolve dir path) with
  | .missing => .enoent
  | .unreadable => .failed
  | .present f => if f = features then .equal else .eexist

def cacheMissCb (path : Text) (dir : Dir) (name : Text) (data : MissData) : ℤ × MissData :=
  -- the pattern of `fnmatch` is the id, a dot and a star
  if ¬ ids.id features ++ ['.'] <+: name then (0, data)
  else
    match featuresCheck tree features dir (path ++ '/' :: name) with
    | .equal | .enoent => (1, { data with cacheName := some (path ++ '/' :: name) })
    | .failed => (-1, data)
    | .eexist =>
      let r := strtolDecimal (afterDot name)
      if r.1 = -2 ^ 63 ∨ r.1 = 2 ^ 63 - 1 ∨ r.2 = afterDot name then (-1, data)
      else (0, { data with n := max data.n r.1 })

def dirForEach (cb : Text → MissData → ℤ × MissData) : List Text → ℤ × MissData → ℤ × MissData
  | [], r => r
  | name :: names, r =>
    let r' := cb name r.2
    if r'.1 ≠ 0 then r' else dirForEach cb names r'

def cacheDirFromPathAndFeatures (garbage : ℤ) (dir : Dir) (path : Text) : Option Text :=
  let cacheDir := path ++ '/' :: (ids.id features ++ ['.', '0'])
  match featuresCheck tree features dir cacheDir with
  | .equal | .enoent => some cacheDir
  | .failed => none
  | .eexist =>
    -- an empty path cannot be opened
    match if path = [] then none else tree.entries (resolve dir path) with
    | none => none
    | some names =>
      let r := dirForEach (cacheMissCb ids tree features path (resolve dir path)) names (garbage, ⟨none, -1⟩)
      if r.1 = 1 then r.2.cacheName
      else if r.1 ≠ 0 then none
      else some (path ++ '/' :: (ids.id features ++ '.' :: printInt (r.2.n + 1)))

def OwnCache (dir : Dir) (path : Text) : Prop :=
  tree.features (resolve dir path) = .missing ∨ tree.features (resolve dir path) = .present features

/-! ### The contents that give a directory of the same features -/

/-- The entries that `cache_miss_cb` looks at. -/
def cacheNames (names : List Text) : List Text := names.filter fun name => ids.id features ++ ['.'] <+: name

def numberOf (name : Text) : ℤ := (strtolDecimal (afterDot name)).1

def Numbered (name : Text) : Prop :=
  ¬ (numberOf name = -2 ^ 63 ∨ numberOf name = 2 ^ 63 - 1 ∨ (strtolDecimal (afterDot name)).2 = afterDot name)

instance (name : Text) : Decidable (Numbered name) := instDecidableNot

def highestNumber (n : ℤ) (names : List Text) : ℤ := names.foldl (fun n name => max n (numberOf name)) n

def endsSearch (path : Text) (dir : Dir) (name : Text) : Bool :=
  featuresCheck tree features dir (path ++ '/' :: name) ≠ .eexist ∨ ¬ Numbered name

/-- The first directory of the id is not that of others, or the entry at which the search ends is one for the features also
where it is, or all entries are those of others and the next number, as it is printed, is not taken by others. -/
def OwnContent (dir : Dir) (path : Text) : Prop :=
  featuresCheck tree features dir (path ++ '/' :: (ids.id features ++ ['.', '0'])) ≠ .eexist ∨ path = [] ∨
    ∀ names, tree.entries (resolve dir path) = some names →
      match (cacheNames ids features names).find? (endsSearch tree features path (resolve dir path)) with
      | some name =>
        OwnCache tree features (resolve dir path) (path ++ '/' :: name) → OwnCache tree features dir (path ++ '/' :: name)
      | none =>
        highestNumber (-1) (cacheNames ids features names) < 2 ^ 31 - 1 ∨
          OwnCache tree features dir
            (path ++ '/' :: (ids.id features ++ '.' :: printInt (highestNumber (-1) (cacheNames ids features names) + 1)))

def SmallNumbers (dir : Dir) : Prop :=
  ∀ names, tree.entries dir = some names → ∀ name ∈ cacheNames ids features names, numberOf name < 2 ^ 31 - 1

end Cache

def FindsOwnCache (dir : Dir) (path : Text) : Prop :=
  ∀ (F : Type) [DecidableEq F] (ids : FeaturesId F) (tree : CacheTree F) (features : F) (garbage : ℤ),
    SmallNumbers ids tree features (resolve dir path) → ∀ cachePath,
      cacheDirFromPathAndFeatures ids tree features garbage dir path = some cachePath →
        OwnCache tree features dir cachePath

/-! ### Resolving -/

theorem resolve_name (dir : Dir) (path : Text) {name : Text} (hslash : '/' ∉ name) (hne : name ≠ [])
    (hdot : name ≠ ['.']) (hdots : name ≠ ['.', '.']) (hpath : path ≠ []) :
    resolve dir (path ++ '/' :: name) = resolve dir path ++ [name] := by
  have hsplit : name.splitOnP (· = '/') = [name] :=
    splitOnP_eq_singleton fun c hc => decide_eq_false fun h => hslash (h ▸ hc)
  rw [resolve, splitOnP_append_cons _ _ (by decide), hsplit, foldl_append, head?_append_of_ne_nil _ hpath,
    foldl_cons, foldl_nil, pathStep, if_neg (by simp [hne, hdot]), if_neg hdots]
  rfl

/-! ### Reading the directory -/

section Read

variable {F : Type} [DecidableEq F] {ids : FeaturesId F} {tree : CacheTree F} {features : F} {path name : Text} {dir : Dir}
  {data : MissData} {names : List Text} {r : ℤ × MissData}

theorem ownCache_iff_check :
    OwnCache tree features dir path ↔
      featuresCheck tree features dir path = .equal ∨ featuresCheck tree features dir path = .enoent := by
  unfold featuresCheck OwnCache
  cases tree.features (resolve dir path) with
  | missing | unreadable => simp
  | present f =>
    by_cases heq : f = features
    · simp [heq]
    · simp [heq]

theorem cacheMissCb_skips (h : ¬ ids.id features ++ ['.'] <+: name) :
    cacheMissCb ids tree features path dir name data = (0, data) := by
  rw [cacheMissCb, if_pos h]

theorem cacheMissCb_goes_on (h : ids.id features ++ ['.'] <+: name) (hgo : endsSearch tree features path dir name = false) :
    cacheMissCb ids tree features path dir name data = (0, { data with n := max data.n (numberOf name) }) := by
  rw [endsSearch, decide_eq_false_iff_not, not_or, not_not, not_not] at hgo
  rw [cacheMissCb, if_neg (not_not.mpr h), hgo.1]
  exact if_neg hgo.2

theorem cacheMissCb_found (h : ids.id features ++ ['.'] <+: name) (hown : OwnCache tree features dir (path ++ '/' :: name)) :
    cacheMissCb ids tree features path dir name data = (1, { data with cacheName := some (path ++ '/' :: name) }) := by
  rw [cacheMissCb, if_neg (not_not.mpr h)]
  rcases ownCache_iff_check.mp hown with hcheck | hcheck
  · rw [hcheck]
  · rw [hcheck]

theorem cacheMissCb_fails (h : ids.id features ++ ['.'] <+: name) (hends : endsSearch tree features path dir name = true)
    (hother : ¬ OwnCache tree features dir (path ++ '/' :: name)) :
    cacheMissCb ids tree features path dir name data = (-1, data) := by
  rw [ownCache_iff_check, not_or] at hother
  rw [cacheMissCb, if_neg (not_not.mpr h)]
  cases hcheck : featuresCheck tree features dir (path ++ '/' :: name) with
  | equal => exact absurd hcheck hother.1
  | enoent => exact absurd hcheck hother.2
  | failed => rfl
  | eexist =>
    rw [endsSearch, decide_eq_true_eq] at hends
    exact if_pos (not_not.mp (hends.resolve_left (not_not.mpr hcheck)))

theorem cacheMissCb_ends (h : ids.id features ++ ['.'] <+: name) (hends : endsSearch tree features path dir name = true) :
    (cacheMissCb ids tree features path dir name data).1 ≠ 0 := by
  by_cases hown : OwnCache tree features dir (path ++ '/' :: name)
  · rw [cacheMissCb_found h hown]
    exact one_ne_zero
  · rw [cacheMissCb_fails h hends hown]
    exact show (-1 : ℤ) ≠ 0 by decide

/-- The loop stops at the first entry that ends the search, or has the highest number at its end. -/
theorem dirForEach_scan (hr : names ≠ [] ∨ r.1 = 0) :
    (∀ name, (cacheNames ids features names).find? (endsSearch tree features path dir) = some name →
        ∃ data, dirForEach (cacheMissCb ids tree features path dir) names r = cacheMissCb ids tree features path dir name data) ∧
      ((cacheNames ids features names).find? (endsSearch tree features path dir) = none →
        (dirForEach (cacheMissCb ids tree features path dir) names r).1 = 0 ∧
          (dirForEach (cacheMissCb ids tree features path dir) names r).2.n =
            highestNumber r.2.n (cacheNames ids features names)) := by
  induction names generalizing r with
  | nil => exact ⟨fun name h => absurd h (by simp [cacheNames]), fun _ => ⟨hr.resolve_left fun h => h rfl, rfl⟩⟩
  | cons name names ih =>
    rw [dirForEach]
    by_cases hm : ids.id features ++ ['.'] <+: name
    · have hnames : cacheNames ids features (name :: names) = name :: cacheNames ids features names :=
        filter_cons_of_pos (decide_eq_true hm)
      rw [hnames]
      cases hends : endsSearch tree features path dir name with
      | true =>
        rw [find?_cons_of_pos hends, if_pos (cacheMissCb_ends hm hends)]
        exact ⟨fun n hn => ⟨r.2, some.inj hn ▸ rfl⟩, fun hn => absurd hn (some_ne_none name)⟩
      | false =>
        rw [find?_cons_of_neg (by rw [hends]; decide), cacheMissCb_goes_on hm hends, if_neg (not_not.mpr rfl)]
        exact ih (Or.inr rfl)
    · have hnames : cacheNames ids features (name :: names) = cacheNames ids features names :=
        filter_cons_of_neg (by simpa using hm)
      rw [hnames, cacheMissCb_skips hm, if_neg (not_not.mpr rfl)]
      exact ih (Or.inr rfl)

theorem highestNumber_le (n : ℤ) (names : List Text) :
    n ≤ highestNumber n names ∧ ∀ name ∈ names, numberOf name ≤ highestNumber n names := by
  induction names generalizing n with
  | nil => exact ⟨le_rfl, fun _ hmem => absurd hmem not_mem_nil⟩
  | cons name names ih =>
    obtain ⟨hle, hall⟩ := ih (max n (numberOf name))
    exact ⟨(le_max_left _ _).trans hle, forall_mem_cons.mpr ⟨(le_max_right _ _).trans hle, hall⟩⟩

theorem highestNumber_lt {n b : ℤ} (hn : n < b) (h : ∀ name ∈ names, numberOf name < b) : highestNumber n names < b := by
  induction names generalizing n with
  | nil => exact hn
  | cons name names ih =>
    rw [forall_mem_cons] at h
    exact ih (max_lt hn h.1) h.2

end Read

/-! ### The number of a new directory -/

section Number

variable {F : Type} {ids : FeaturesId F} {f : F}

theorem FeaturesId.not_mem (ids : FeaturesId F) (f : F) {c : Char} (hd : c.isDigit = false)
    (hx : c ∉ ['a', 'b', 'c', 'd', 'e', 'f']) : c ∉ ids.id f := by
  intro hmem
  rcases ids.digits f c hmem with h | h
  · rw [h] at hd
    cases hd
  · exact hx h

theorem afterDot_id (rest : Text) : afterDot (ids.id f ++ '.' :: rest) = rest := by
  have hall : ∀ c ∈ ids.id f, decide (c ≠ '.') = true := fun c hc => decide_eq_true fun h =>
    ids.not_mem f (by decide) (by decide) (h ▸ hc)
  rw [afterDot, dropWhile_append_of_pos hall, dropWhile_cons_of_neg (by decide), drop_one, tail_cons]

theorem printInt_small {m : ℕ} (h : m < 2 ^ 31) : printInt m = Nat.toDigits 10 m := by
  have hmod : ((m : ℤ) + 2 ^ 31) % 2 ^ 32 - 2 ^ 31 = m := by
    rw [Int.emod_eq_of_lt (by omega) (by omega)]
    omega
  rw [printInt, hmod]
  simp

theorem strtolDecimal_toDigits {m : ℕ} (h : m < 2 ^ 63) : (strtolDecimal (Nat.toDigits 10 m)).1 = m := by
  have hdigit : ∀ c ∈ toDigits 10 m, c.isDigit = true := fun c hc =>
    isDigit_of_mem_toDigits (by decide) (by decide) hc
  obtain ⟨c, cs, hcs⟩ := exists_cons_of_ne_nil (toDigits_ne_nil (n := m) (b := 10))
  have hc : c.isDigit = true := hdigit c (by rw [hcs]; exact mem_cons_self)
  have hspace : (toDigits 10 m).dropWhile isSpace = toDigits 10 m := by
    rw [hcs, dropWhile_cons_of_neg (by rw [isSpace_of_isDigit hc]; decide)]
  have hsign : readSign (toDigits 10 m) = (false, toDigits 10 m) := by
    rw [hcs, readSign_of_isDigit hc]
  have htake : (toDigits 10 m).takeWhile Char.isDigit = toDigits 10 m := takeWhile_eq_self_iff.mpr hdigit
  rw [strtolDecimal, hspace, hsign]
  dsimp only
  rw [htake, if_neg toDigits_ne_nil, ofDigitChars_toDigits (by decide) (by decide), signed]
  simp
  omega

end Number

/-! ### The directory that is found -/

section Found

variable {F : Type} {ids : FeaturesId F} {tree : CacheTree F} {features : F} {path : Text} {dir : Dir}

theorem resolve_cache (dir : Dir) (hpath : path ≠ []) {name : Text} (hm : ids.id features ++ ['.'] <+: name)
    (hslash : '/' ∉ name) : resolve dir (path ++ '/' :: name) = resolve dir path ++ [name] := by
  obtain ⟨rest, rfl⟩ := hm
  obtain ⟨c, cs, hid⟩ := exists_cons_of_ne_nil (ids.ne_nil features)
  have hc : c ≠ '.' := fun h => ids.not_mem features (c := '.') (by decide) (by decide) (by rw [hid, h]; exact mem_cons_self)
  apply resolve_name dir path hslash
  · simp
  · rw [hid]
    exact fun h => hc (cons.inj h).1
  · rw [hid]
    exact fun h => hc (cons.inj h).1
  · exact hpath

theorem slash_not_mem_number (m : ℕ) : '/' ∉ ids.id features ++ '.' :: Nat.toDigits 10 m := by
  intro h
  rcases mem_append.mp h with h | h
  · exact ids.not_mem features (by decide) (by decide) h
  · rcases mem_cons.mp h with h | h
    · exact absurd h (by decide)
    · exact absurd (isDigit_of_mem_toDigits (by decide) (by decide) h) (by decide)

theorem number_matches (ids : FeaturesId F) (features : F) (number : Text) :
    ids.id features ++ ['.'] <+: ids.id features ++ '.' :: number :=
  ⟨number, by rw [append_assoc]; rfl⟩

theorem resolve_number (ids : FeaturesId F) (features : F) (dir : Dir) (hpath : path ≠ []) (m : ℕ) :
    resolve dir (path ++ '/' :: (ids.id features ++ '.' :: Nat.toDigits 10 m)) =
      resolve dir path ++ [ids.id features ++ '.' :: Nat.toDigits 10 m] :=
  resolve_cache dir hpath (number_matches ids features _) (slash_not_mem_number m)

theorem missing_of_highest {names : List Text} {m : ℕ} (hentries : tree.entries dir = some names) (hm : m < 2 ^ 63)
    (h : ∀ name ∈ cacheNames ids features names, numberOf name < m) :
    tree.features (dir ++ [ids.id features ++ '.' :: Nat.toDigits 10 m]) = .missing := by
  by_contra hne
  obtain ⟨names', hnames', hmem⟩ := tree.listed hne
  obtain rfl : names' = names := some.inj (hnames'.symm.trans hentries)
  have hlt := h _ (mem_filter.mpr ⟨hmem, decide_eq_true (number_matches ids features _)⟩)
  rw [numberOf, afterDot_id, strtolDecimal_toDigits hm] at hlt
  exact lt_irrefl _ hlt

theorem entries_ne_nil [DecidableEq F] {names : List Text} (hpath : path ≠ []) (hentries : tree.entries (resolve dir path) = some names)
    (hcheck : featuresCheck tree features dir (path ++ '/' :: (ids.id features ++ ['.', '0'])) = .eexist) : names ≠ [] := by
  rintro rfl
  have hres : resolve dir (path ++ '/' :: (ids.id features ++ ['.', '0'])) =
      resolve dir path ++ [ids.id features ++ ['.', '0']] := resolve_number ids features dir hpath 0
  have hzero : tree.features (resolve dir path ++ [ids.id features ++ ['.', '0']]) ≠ .missing := by
    intro hmiss
    rw [featuresCheck, hres, hmiss] at hcheck
    cases hcheck
  obtain ⟨names, hnames, hmem⟩ := tree.listed hzero
  rw [hentries, some.injEq] at hnames
  rw [← hnames] at hmem
  exact absurd hmem not_mem_nil

/-- The number after the highest one is printed as it is, and free, if it is small. -/
theorem ownCache_next {names : List Text} (hpath : path ≠ []) (hentries : tree.entries (resolve dir path) = some names)
    (hsmall : highestNumber (-1) (cacheNames ids features names) < 2 ^ 31 - 1) :
    OwnCache tree features dir
      (path ++ '/' :: (ids.id features ++ '.' :: printInt (highestNumber (-1) (cacheNames ids features names) + 1))) := by
  obtain ⟨hlow, hall⟩ := highestNumber_le (-1) (cacheNames ids features names)
  obtain ⟨m, hm⟩ := Int.eq_ofNat_of_zero_le (by omega : 0 ≤ highestNumber (-1) (cacheNames ids features names) + 1)
  rw [hm, printInt_small (by omega), OwnCache, resolve_number ids features dir hpath m]
  refine .inl (missing_of_highest hentries (by omega) fun name hmem => ?_)
  have hle := hall name hmem
  omega

variable [DecidableEq F]

theorem ownCache_iff_content (ids : FeaturesId F) (tree : CacheTree F) (features : F) (garbage : ℤ) (dir : Dir) (path : Text) :
    (∀ cachePath, cacheDirFromPathAndFeatures ids tree features garbage dir path = some cachePath →
        OwnCache tree features dir cachePath) ↔ OwnContent ids tree features dir path := by
  unfold cacheDirFromPathAndFeatures OwnContent
  cases hcheck : featuresCheck tree features dir (path ++ '/' :: (ids.id features ++ ['.', '0'])) with
  | equal => simpa [hcheck] using ownCache_iff_check.mpr (Or.inl hcheck)
  | enoent => simpa [hcheck] using ownCache_iff_check.mpr (Or.inr hcheck)
  | failed => simp [hcheck]
  | eexist =>
    by_cases hpath : path = []
    · subst hpath
      rw [nil_append] at hcheck
      simp [hcheck]
    cases hentries : tree.entries (resolve dir path) with
    | none => simp [hcheck, hpath]
    | some names =>
      have hscan := @dirForEach_scan F _ ids tree features path (resolve dir path) names (garbage, ⟨none, -1⟩)
        (Or.inl (entries_ne_nil hpath hentries hcheck))
      simp only [hcheck, hpath, if_false, false_or, ne_eq, not_true_eq_false, some.injEq, forall_eq']
      cases hfind : (cacheNames ids features names).find? (endsSearch tree features path (resolve dir path)) with
      | some name =>
        obtain ⟨data, hrun⟩ := hscan.1 name hfind
        have hm : ids.id features ++ ['.'] <+: name := of_decide_eq_true (mem_filter.mp (mem_of_find?_eq_some hfind)).2
        rw [hrun]
        by_cases hown : OwnCache tree features (resolve dir path) (path ++ '/' :: name)
        · rw [cacheMissCb_found hm hown]
          simp [hown]
        · rw [cacheMissCb_fails hm (find?_some hfind) hown]
          simp [hown]
      | none =>
        obtain ⟨hzero, hhighest⟩ := hscan.2 hfind
        rw [hzero, hhighest]
        simp only [zero_ne_one, if_false, not_true_eq_false, some.injEq, forall_eq']
        exact ⟨Or.inr, fun h => h.elim (ownCache_next hpath hentries) id⟩

theorem ownContent_of_self (hself : resolve (resolve dir path) path = resolve dir path)
    (hsmall : SmallNumbers ids tree features (resolve dir path)) : OwnContent ids tree features dir path := by
  by_cases hpath : path = []
  · exact Or.inr (Or.inl hpath)
  · refine Or.inr (Or.inr fun names hentries => ?_)
    split
    · next name hfind =>
      have hname := mem_filter.mp (mem_of_find?_eq_some hfind)
      have hm : ids.id features ++ ['.'] <+: name := of_decide_eq_true hname.2
      have hslash := tree.plain hentries name hname.1
      rw [OwnCache, OwnCache, resolve_cache _ hpath hm hslash, resolve_cache _ hpath hm hslash, hself]
      exact id
    · exact Or.inl (highestNumber_lt (by norm_num) (hsmall names hentries))

end Found

/-! ### Colliding features -/

def collidingId : FeaturesId Bool where
  id _ := ['0']
  ne_nil _ := List.cons_ne_nil _ _
  digits _ c hc := by
    rw [List.mem_singleton.mp hc]
    exact .inl rfl

def collidingTree (top : Dir) (caches : List Text) (hplain : ∀ name ∈ caches, '/' ∉ name) : CacheTree Bool where
  entries dir := if dir = top then some caches else none
  features dir := if dir ∈ caches.map (top ++ [·]) then .present true else .missing
  plain := by
    intro dir names h
    split_ifs at h
    rw [← Option.some.inj h]
    exact hplain
  listed := by
    intro dir name h
    split_ifs at h with hmem
    · obtain ⟨name', hname', heq⟩ := List.mem_map.mp hmem
      obtain ⟨rfl, hsame⟩ := List.append_inj' heq rfl
      refine ⟨caches, if_pos rfl, ?_⟩
      rwa [← List.singleton_inj.mp hsame]
    · exact absurd rfl h

theorem collidingTree_features (top : Dir) {name : Text} (hplain : ∀ n ∈ [name], '/' ∉ n) (dir : Dir) :
    (collidingTree top [name] hplain).features (dir ++ [name]) = if dir = top then .present true else .missing := by
  rw [collidingTree]
  simp

theorem not_findsOwnCache {dir : Dir} {path : Text} (hself : resolve (resolve dir path) path ≠ resolve dir path) :
    ¬ FindsOwnCache dir path := by
  intro hown
  have hpath : path ≠ [] := by
    rintro rfl
    exact hself rfl
  have hplain : ∀ name ∈ ["0.0".toList], '/' ∉ name := by decide
  let tree := collidingTree (resolve dir path) ["0.0".toList] hplain
  have hname : ∀ dir, resolve dir (path ++ '/' :: "0.0".toList) = resolve dir path ++ ["0.0".toList] := fun dir =>
    resolve_number collidingId false dir hpath 0
  have hentries : tree.entries (resolve dir path) = some ["0.0".toList] := if_pos rfl
  have hother : tree.features (resolve dir (path ++ '/' :: "0.0".toList)) = .present true := by
    rw [hname, collidingTree_features, if_pos rfl]
  have helse : tree.features (resolve (resolve dir path) (path ++ '/' :: "0.0".toList)) = .missing := by
    rw [hname, collidingTree_features, if_neg hself]
  have hsmall : SmallNumbers collidingId tree false (resolve dir path) := by
    intro names hnames name hmem
    rw [hentries, some.injEq] at hnames
    rw [← hnames] at hmem
    rw [mem_singleton.mp (mem_of_mem_filter hmem)]
    decide
  have hcb : cacheMissCb collidingId tree false path (resolve dir path) "0.0".toList ⟨none, -1⟩ =
      (1, ⟨some (path ++ '/' :: "0.0".toList), -1⟩) := by
    rw [cacheMissCb, if_neg (by decide), featuresCheck, helse]
  have hfound : cacheDirFromPathAndFeatures collidingId tree false 0 dir path = some (path ++ '/' :: "0.0".toList) := by
    have hcheck : featuresCheck tree false dir (path ++ '/' :: (collidingId.id false ++ ['.', '0'])) = .eexist := by
      rw [featuresCheck, show collidingId.id false ++ ['.', '0'] = "0.0".toList from rfl, hother]
      rfl
    rw [cacheDirFromPathAndFeatures]
    simp only [hcheck, if_neg hpath, hentries, dirForEach, hcb]
    rfl
  have hres := hown Bool collidingId tree false 0 hsmall _ hfound
  rw [OwnCache, hother] at hres
  rcases hres with h | h <;> cases h

/-- For a content of the file system, the directory is one for the features exactly if the content is as `OwnContent` says.
The paths for which this is so for all contents with small numbers are those that lead to a directory also from there, as
absolute paths do. -/
theorem cacheDir_own_iff (dir : Dir) (path : Text) :
    (∀ (F : Type) [DecidableEq F] (ids : FeaturesId F) (tree : CacheTree F) (features : F) (garbage : ℤ),
        (∀ cachePath, cacheDirFromPathAndFeatures ids tree features garbage dir path = some cachePath →
          OwnCache tree features dir cachePath) ↔ OwnContent ids tree features dir path) ∧
      (FindsOwnCache dir path ↔ resolve (resolve dir path) path = resolve dir path) := by
  refine ⟨fun F _ ids tree features garbage => ownCache_iff_content ids tree features garbage dir path, ?_, ?_⟩
  · exact fun h => by_contra fun hself => not_findsOwnCache hself h
  · intro hself F _ ids tree features garbage hsmall
    exact (ownCache_iff_content ids tree features garbage dir path).mpr (ownContent_of_self hself hsmall)

def singleCache : CacheTree Bool := collidingTree ["d".toList, "c".toList] ["0.0".toList] (by decide)

def numberedCaches : CacheTree Bool := collidingTree ["c".toList] ["0.0".toList, "0.4294967295".toList] (by decide)

/-- For the path `c` the only cache, which is for other features, is taken; for `/c` it is when a number is too large. -/
theorem other_cache_found :
    cacheDirFromPathAndFeatures collidingId singleCache false 0 ["d".toList] "c".toList = some "c/0.0".toList ∧
      singleCache.features (resolve ["d".toList] "c/0.0".toList) = .present true ∧
      cacheDirFromPathAndFeatures collidingId numberedCaches false 0 [] "/c".toList = some "/c/0.0".toList ∧
      numberedCaches.features (resolve [] "/c/0.0".toList) = .present true := by
  decide +kernel

end AppArmor.Interface

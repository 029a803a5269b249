import AppArmor.Glob.Escape
import Mathlib.Data.Char
import Mathlib.Data.List.Lex
import Mathlib.Data.List.Sort
import Mathlib.Tactic

namespace AppArmor

inductive Outcome (α : Type)
  | ok (a : α)
  | failed
  | fault
  deriving DecidableEq

def Outcome.bind {α β : Type} : Outcome α → (α → Outcome β) → Outcome β
  | ok a, f => f a
  | failed, _ => failed
  | fault, _ => fault

/-- The first `size` entries of the overlay, each with its directory; for how many there is memory, and `max_size`. -/
structure Overlay where
  entries : List (ℕ × Text)
  allocated : ℕ
  maxSize : ℕ
  deriving DecidableEq

def intMax : ℕ := 2 ^ 31 - 1

def sizeofInt : ℕ := 4

section Merge

/- The locals `size` and `max_size` of the caller are at these addresses; `alloc` says whether there is memory for so many
entries. -/
variable (sizeAt maxSizeAt : ℕ) (alloc : ℕ → Bool)

def insertEntry (o : Overlay) (pos remaining dirfd : ℕ) (name : Text) : Outcome Overlay :=
  let chunk := max remaining 32
  -- pointers are compared, not the numbers
  let grow := decide (maxSizeAt ≤ sizeAt + sizeofInt)
  -- `*max_size + chunk` is an int
  if intMax < o.maxSize + chunk then .fault
  else if grow ∧ ¬ alloc (o.maxSize + chunk) then .failed
  else
    let allocated := if grow then o.maxSize + chunk else o.allocated
    let size := o.entries.length + 1
    -- the entries from `pos` on are moved up, the first write being to `overlay[size]`
    if allocated ≤ size then .fault
    else .ok ⟨o.entries.take pos ++ (dirfd, name) :: o.entries.drop pos, allocated, o.maxSize + chunk⟩

theorem insertEntry_length {sizeAt maxSizeAt : ℕ} {alloc : ℕ → Bool} {o o' : Overlay} {pos remaining dirfd : ℕ} {name : Text}
    (h : insertEntry sizeAt maxSizeAt alloc o pos remaining dirfd name = .ok o') : o'.entries.length = o.entries.length + 1 := by
  unfold insertEntry at h
  dsimp only at h
  split_ifs at h
  all_goals
    cases h
    simp only [List.length_append, List.length_cons, List.length_take, List.length_drop]
    omega

def mergeDir (dirfd : ℕ) (o : Overlay) (y : ℕ) (list : List Text) : Outcome Overlay :=
  match list with
  | [] => .ok o
  | name :: rest =>
    if hlt : ∃ e ∈ o.entries[y]?, e.2 < name then mergeDir dirfd o (y + 1) (name :: rest)
    else if ∃ e ∈ o.entries[y]?, e.2 = name then mergeDir dirfd o (y + 1) rest
    else
      match hins : insertEntry sizeAt maxSizeAt alloc o y (rest.length + 1) dirfd name with
      | .ok o' => mergeDir dirfd o' (y + 1) rest
      | .failed => .failed
      | .fault => .fault
termination_by o.entries.length - y + list.length
decreasing_by
  · obtain ⟨e, he, -⟩ := hlt
    have hy := (List.getElem?_eq_some_iff.mp he).1
    simp only [List.length_cons]
    omega
  · simp only [List.length_cons]
    omega
  · have hlen := insertEntry_length hins
    simp only [List.length_cons]
    omega

def readdirfd (names : List Text) : List Text :=
  (names.filter fun name => name ≠ ['.'] ∧ name ≠ ['.', '.']).insertionSort (· ≤ ·)

def mergeLayers (o : Overlay) (i : ℕ) : List (Option (List Text)) → Outcome Overlay
  | [] => .ok o
  | none :: _ => .failed
  | some names :: layers => (mergeDir sizeAt maxSizeAt alloc i o 0 (readdirfd names)).bind fun o => mergeLayers o (i + 1) layers

end Merge

inductive FileStat
  | symlink
  | regular (size : ℕ)
  | directory
  | other
  deriving DecidableEq

def strstr (s text : Text) : Option ℕ := (List.range (s.length + 1)).find? fun i => text.isPrefixOf (s.drop i)

def ignoredSuffixes : List (Text × Bool) :=
  [(".dpkg-new".toList, true), (".dpkg-old".toList, true), (".dpkg-dist".toList, true), (".dpkg-bak".toList, true),
    (".dpkg-remove".toList, true), (".pacsave".toList, true), (".pacnew".toList, true), (".rpmnew".toList, false),
    (".rpmsave".toList, false), (".orig".toList, false), (".rej".toList, false), ("~".toList, false)]

def isBlacklisted (name : Text) : ℤ :=
  if name = [] ∨ name.head? = some '.' ∨ name = "README".toList then 1
  else
    match ignoredSuffixes.find? fun suffix => (strstr name suffix.1).any (· + suffix.1.length = name.length) with
    | none => 0
    | some (_, silent) => if silent then 1 else -1

def replaceAllLoads (name : Text) (st : FileStat) : Bool :=
  if st = .symlink then false
  else if st = .regular 0 then false
  else st ≠ .directory ∧ isBlacklisted name = 0

section ForEach

variable (stat : ℕ × Text → Option FileStat) (load : ℕ × Text → Bool)

def forEach : List (ℕ × Text) → List (ℕ × Text) × Bool
  | [] => ([], true)
  | e :: entries =>
    match stat e with
    | none => ([], false)
    | some st =>
      if replaceAllLoads e.2 st then
        if load e then (e :: (forEach entries).1, (forEach entries).2) else ([e], false)
      else forEach entries

def replaceAll (sizeAt maxSizeAt : ℕ) (alloc : ℕ → Bool) (layers : List (Option (List Text))) :
    Outcome (List (ℕ × Text) × Bool) :=
  (mergeLayers sizeAt maxSizeAt alloc ⟨[], 0, 0⟩ 0 layers).bind fun o => .ok (forEach stat load o.entries)

end ForEach

end AppArmor

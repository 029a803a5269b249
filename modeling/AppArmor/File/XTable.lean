import AppArmor.File.Modes
import AppArmor.Interface.PolicyCache

namespace AppArmor

open Perm List Option

structure NamedEntry where
  name : Text
  ntName : Option Text
  perms : Perm32
  deriving DecidableEq

def localIndex : ℕ := 3

def execCount : ℕ := 16

/-- The named transitions of a profile. The slots after the local one are filled from the first on and never cleared, so the
table is the list of their labels. -/
structure ExecTable where
  labels : List Text
  nodup : labels.Nodup
  fits : localIndex + labels.length < execCount

def ExecTable.slot (table : ExecTable) (n : ℕ) : Option Text :=
  if localIndex < n then table.labels[n - (localIndex + 1)]? else none

def addEntryToXTable (table : ExecTable) (name : Text) : Option (ℕ × ExecTable) :=
  if hmem : name ∈ table.labels then some (localIndex + 1 + table.labels.idxOf name, table)
  else if hroom : localIndex + 1 + table.labels.length < execCount then
    some (localIndex + 1 + table.labels.length,
      ⟨table.labels ++ [name], by simpa using table.nodup.concat hmem, by simpa [← add_assoc, add_right_comm] using hroom⟩)
  else none

def labelContainsNs (label : Text) : Bool := (parseLabel label).any (·.2.1.isSome)

def localPerms (perms : Perm32) : Bool :=
  perms &&& execModifiers == shiftPerms execLocal 0 ||
    perms &&& execModifiers <<< otherShift == shiftPerms execLocal otherShift

/-- The test for a local transition. It compares the profile's name with the text from the `//` on, where the text before
the `//` is meant. -/
def namesLocal (prof name nt : Text) : Bool :=
  (strstr nt "//".toList).any fun k => (nt.drop k).take k != prof.take k && nt.drop (k + 2) == name

def childLabel (prof name : Text) : Text := prof ++ "//".toList ++ name

def addNamedTransition (prof : Text) (table : ExecTable) (name nt : Text) (perms : Perm32) : Option (ℕ × ExecTable) :=
  if !labelContainsNs nt then
    if namesLocal prof name nt then some (localIndex, table)
    else if localPerms perms then
      if nt = name then some (localIndex, table) else addEntryToXTable table (childLabel prof nt)
    else addEntryToXTable table nt
  else addEntryToXTable table nt

def setIndex (perms : Perm32) (n : ℕ) : Perm32 :=
  let index := (if hits perms userExec then BitVec.ofNat 32 n <<< 10 else 0) |||
    (if hits perms otherExec then BitVec.ofNat 32 n <<< 10 <<< otherShift else 0)
  let modifiers := execModifiers ||| execModifiers <<< otherShift
  (perms &&& ~~~modifiers) ||| (index &&& modifiers)

def postParseProfileFile (prof : Text) : ExecTable → List NamedEntry → Option (ExecTable × List NamedEntry)
  | table, [] => some (table, [])
  | table, e :: es =>
    match e.ntName with
    | none => (postParseProfileFile prof table es).map fun out => (out.1, e :: out.2)
    | some nt =>
      (addNamedTransition prof table e.name nt e.perms).bind fun added =>
        (postParseProfileFile prof added.2 es).map fun out => (out.1, ⟨e.name, none, setIndex e.perms added.1⟩ :: out.2)

/-- The label a transition asks for: a `c` transition names a child of the profile. -/
def targetLabel (prof nt : Text) (perms : Perm32) : Text :=
  if !labelContainsNs nt && localPerms perms then childLabel prof nt else nt

def Directs (prof : Text) (table : ExecTable) (e : NamedEntry) (nt : Text) (n : ℕ) : Prop :=
  n = localIndex ∧ targetLabel prof nt e.perms = childLabel prof e.name ∨ table.slot n = some (targetLabel prof nt e.perms)

def Misled (prof : Text) (e : NamedEntry) : Prop :=
  ∃ nt, e.ntName = some nt ∧ labelContainsNs nt = false ∧ namesLocal prof e.name nt = true ∧
    targetLabel prof nt e.perms ≠ childLabel prof e.name

/-- The entry gets an index, which leads to its target unless the transition is taken for a local one. -/
def Served (prof : Text) (table : ExecTable) (e e' : NamedEntry) : Prop :=
  ∀ nt, e.ntName = some nt →
    ∃ n < execCount, e'.perms = setIndex e.perms n ∧ (Directs prof table e nt n ↔ ¬ Misled prof e)

variable {prof nt : Text} {table table' : ExecTable} {perms : Perm32} {n : ℕ} {e : NamedEntry} {es : List NamedEntry}

theorem slot_mono {x : Text} (hp : table.labels <+: table'.labels) (h : table.slot n = some x) : table'.slot n = some x := by
  unfold ExecTable.slot at *
  split_ifs at * with hn
  obtain ⟨rest, hrest⟩ := hp
  rwa [← hrest, List.getElem?_append_left (List.getElem?_eq_some_iff.mp h).1]

variable {added : ℕ × ExecTable}

theorem addEntryToXTable_some {label : Text} (h : addEntryToXTable table label = some added) :
    added.1 < execCount ∧ added.2.slot added.1 = some label ∧ table.labels <+: added.2.labels ∧
      ∀ l ∈ added.2.labels, l ∈ table.labels ∨ l = label := by
  have hfits := table.fits
  unfold addEntryToXTable at h
  split_ifs at h with hmem hroom
  · obtain rfl := some.inj h
    have hlt := idxOf_lt_length_iff.mpr hmem
    refine ⟨by dsimp only; omega, ?_, prefix_rfl, fun l hl => Or.inl hl⟩
    rw [ExecTable.slot, if_pos (by dsimp only; omega), Nat.add_sub_cancel_left, getElem?_idxOf hmem]
  · obtain rfl := some.inj h
    refine ⟨hroom, ?_, prefix_append _ _, by simp⟩
    rw [ExecTable.slot, if_pos (by dsimp only; omega), Nat.add_sub_cancel_left, getElem?_concat_length]

theorem addEntryToXTable_none {label : Text} (h : addEntryToXTable table label = none) :
    label ∉ table.labels ∧ execCount ≤ localIndex + 1 + table.labels.length := by
  unfold addEntryToXTable at h
  split_ifs at h with hmem hroom
  exact ⟨hmem, not_lt.mp hroom⟩

theorem addNamedTransition_eq {name : Text} : addNamedTransition prof table name nt perms =
    if !labelContainsNs nt && (namesLocal prof name nt || localPerms perms && nt == name) then some (localIndex, table)
    else addEntryToXTable table (targetLabel prof nt perms) := by
  unfold addNamedTransition targetLabel
  cases labelContainsNs nt <;> cases namesLocal prof name nt <;> cases localPerms perms <;> simp

theorem addNamedTransition_some (hnt : e.ntName = some nt)
    (h : addNamedTransition prof table e.name nt e.perms = some added) :
    added.1 < execCount ∧ table.labels <+: added.2.labels ∧
      (∀ l ∈ added.2.labels, l ∈ table.labels ∨ l = targetLabel prof nt e.perms) ∧
      ∀ table', added.2.labels <+: table'.labels → (Directs prof table' e nt added.1 ↔ ¬ Misled prof e) := by
  rw [addNamedTransition_eq] at h
  have hmisled : Misled prof e ↔ labelContainsNs nt = false ∧ namesLocal prof e.name nt = true ∧
      targetLabel prof nt e.perms ≠ childLabel prof e.name := by simp [Misled, hnt]
  rw [hmisled]
  split_ifs at h with hlocal
  · obtain rfl := some.inj h
    refine ⟨show localIndex < execCount by decide, prefix_rfl, fun l hl => Or.inl hl, fun table' _ => ?_⟩
    rw [Directs, show table'.slot localIndex = none from rfl]
    simp only [Bool.and_eq_true, Bool.not_eq_true', Bool.or_eq_true, beq_iff_eq] at hlocal
    obtain ⟨hns, hnames | ⟨hperms, rfl⟩⟩ := hlocal
    · simp [hns, hnames]
    · simp [targetLabel, hns, hperms]
  · obtain ⟨hlt, hslot, hp, hmem⟩ := addEntryToXTable_some h
    refine ⟨hlt, hp, hmem, fun table' hp' => iff_of_true (Or.inr (slot_mono hp' hslot)) ?_⟩
    rintro ⟨hns, hnames, -⟩
    exact hlocal (by simp [hns, hnames])

theorem postParse_served {out : ExecTable × List NamedEntry} (h : postParseProfileFile prof table es = some out) :
    table.labels <+: out.1.labels ∧ List.Forall₂ (Served prof out.1) es out.2 := by
  induction es generalizing table out with
  | nil =>
    obtain rfl := some.inj h
    exact ⟨prefix_rfl, .nil⟩
  | cons e es ih =>
    rw [postParseProfileFile] at h
    cases hnt : e.ntName with
    | none =>
      rw [hnt] at h
      obtain ⟨out, hout, rfl⟩ := map_eq_some_iff.mp h
      obtain ⟨hp, hall⟩ := ih hout
      refine ⟨hp, .cons (fun nt hnt' => ?_) hall⟩
      rw [hnt] at hnt'
      cases hnt'
    | some nt =>
      rw [hnt] at h
      obtain ⟨added, hadded, h⟩ := bind_eq_some_iff.mp h
      obtain ⟨out, hout, rfl⟩ := map_eq_some_iff.mp h
      obtain ⟨hp, hall⟩ := ih hout
      obtain ⟨hlt, hgrow, -, hdirects⟩ := addNamedTransition_some hnt hadded
      refine ⟨hgrow.trans hp, .cons (fun nt' hnt' => ⟨added.1, hlt, rfl, ?_⟩) hall⟩
      obtain rfl := some.inj (hnt.symm.trans hnt')
      exact hdirects out.1 hp

theorem postParse_full (h : postParseProfileFile prof table es = none) :
    ∃ labels : List Text, labels.Nodup ∧ execCount ≤ localIndex + labels.length ∧
      ∀ l ∈ labels, l ∈ table.labels ∨ ∃ e ∈ es, ∃ nt, e.ntName = some nt ∧ l = targetLabel prof nt e.perms := by
  induction es generalizing table with
  | nil => cases h
  | cons e es ih =>
    rw [postParseProfileFile] at h
    cases hnt : e.ntName with
    | none =>
      rw [hnt] at h
      obtain ⟨labels, hl, hmany, hall⟩ := ih (map_eq_none_iff.mp h)
      exact ⟨labels, hl, hmany, fun l hl => (hall l hl).imp id fun ⟨e', he', hn⟩ => ⟨e', mem_cons_of_mem _ he', hn⟩⟩
    | some nt =>
      have hself : ∃ e' ∈ e :: es, ∃ nt', e'.ntName = some nt' ∧ targetLabel prof nt e.perms = targetLabel prof nt' e'.perms :=
        ⟨e, mem_cons_self, nt, hnt, rfl⟩
      rw [hnt] at h
      cases hadded : addNamedTransition prof table e.name nt e.perms with
      | none =>
        rw [addNamedTransition_eq] at hadded
        split_ifs at hadded
        obtain ⟨hmem, hfull⟩ := addEntryToXTable_none hadded
        refine ⟨targetLabel prof nt e.perms :: table.labels, table.nodup.cons hmem, ?_,
          forall_mem_cons.mpr ⟨Or.inr hself, fun l hl => Or.inl hl⟩⟩
        rw [length_cons]
        omega
      | some added =>
        dsimp only at h
        rw [hadded] at h
        obtain ⟨labels, hl, hmany, hall⟩ := ih (map_eq_none_iff.mp h)
        refine ⟨labels, hl, hmany, fun l hl => ?_⟩
        rcases hall l hl with hl | ⟨e', he', hn⟩
        · refine ((addNamedTransition_some hnt hadded).2.2.1 l hl).imp id fun he => ?_
          rw [he]
          exact hself
        · exact Or.inr ⟨e', mem_cons_of_mem _ he', hn⟩

theorem postParseProfileFile_interns (prof : Text) (table : ExecTable) (es : List NamedEntry) :
    (postParseProfileFile prof table es = none → ∃ labels : List Text, labels.Nodup ∧ execCount ≤ localIndex + labels.length ∧
        ∀ l ∈ labels, l ∈ table.labels ∨ ∃ e ∈ es, ∃ nt, e.ntName = some nt ∧ l = targetLabel prof nt e.perms) ∧
      ∀ out, postParseProfileFile prof table es = some out → (∀ n x, table.slot n = some x → out.1.slot n = some x) ∧
        List.Forall₂ (Served prof out.1) es out.2 :=
  ⟨postParse_full, fun _ h => ⟨fun _ _ => slot_mono (postParse_served h).1, (postParse_served h).2⟩⟩

/-- `/x px -> other///x`, in the profile `a`. -/
def otherChild : NamedEntry := ⟨"/x".toList, some "other///x".toList, mayExec ||| execProfile⟩

theorem otherChild_redirected : ∃ out, postParseProfileFile "a".toList ⟨[], .nil, by decide⟩ [otherChild] = some out ∧
    (out.1.labels = [] ∧ out.2.map (·.perms &&& execModifiers) = [BitVec.ofNat 32 localIndex <<< 10]) ∧
      targetLabel "a".toList "other///x".toList otherChild.perms = "other///x".toList :=
  ⟨_, rfl, by decide +kernel⟩

end AppArmor

import AppArmor.Hfa.ChfaPack
import AppArmor.Hfa.DiffWrap

namespace AppArmor

open List Option Nat

structure PermsEntry where
  allow : Perm32
  prompt : Perm32
  audit : Perm32
  quiet : Perm32
  xindex : Perm32
  deriving DecidableEq

namespace PermsEntry

def none : PermsEntry := ⟨0, 0, 0, 0, 0⟩

section Compat

open Perm

def aaMayOpen : Perm32 := 0x40
def aaMayCreate : Perm32 := 0x10
def aaMayDelete : Perm32 := 0x20
def aaMaySetattr : Perm32 := 0x100
def aaMayGetattr : Perm32 := 0x200
def aaMayChmod : Perm32 := 0x1000
def aaMayChown : Perm32 := 0x2000
def aaMayLock : Perm32 := 0x8000
def aaLinkSubset : Perm32 := aaMayLock
def aaExecMmap : Perm32 := 0x10000
def aaMayLink : Perm32 := 0x40000
def aaContMatch : Perm32 := 0x08000000
def aaMayOnexec : Perm32 := 0x20000000
def aaMayChangeProfile : Perm32 := 0x40000000
def aaXName : Perm32 := 0x04000000
def aaXTable : Perm32 := 0x08000000
def aaXUnsafe : Perm32 := 0x10000000
def aaXChild : Perm32 := 0x20000000
def aaXInherit : Perm32 := 0x40000000
def aaXUnconfined : Perm32 := 0x80000000

def onlyIf (x test bit : Perm32) : Perm32 := if hits x test then bit else 0

def dfaMapXindex (mask : Perm32) : Perm32 :=
  let oldIndex := (mask >>> 10) &&& 0xf
  onlyIf mask 0x100 aaXUnsafe ||| onlyIf mask 0x200 aaXInherit ||| onlyIf mask 0x80 aaXUnconfined |||
    if oldIndex = 1 then aaXUnconfined
    else if oldIndex = 2 then aaXName
    else if oldIndex = 3 then aaXName ||| aaXChild
    else if oldIndex ≠ 0 then aaXTable ||| (oldIndex - 4)
    else 0

def dfaUserAllow (accept1 : Perm32) : Perm32 := (accept1 &&& 0x7f) ||| (accept1 &&& 0x80000000)

def dfaUserAudit (accept2 : Perm32) : Perm32 := accept2 &&& 0x7f

def dfaUserQuiet (accept2 : Perm32) : Perm32 := (accept2 >>> 7) &&& 0x7f

def dfaUserXindex (accept1 : Perm32) : Perm32 := dfaMapXindex (accept1 &&& 0x3fff)

def dfaOtherAllow (accept1 : Perm32) : Perm32 := ((accept1 >>> 14) &&& 0x7f) ||| (accept1 &&& 0x80000000)

def dfaOtherAudit (accept2 : Perm32) : Perm32 := (accept2 >>> 14) &&& 0x7f

def dfaOtherQuiet (accept2 : Perm32) : Perm32 := ((accept2 >>> 7) >>> 14) &&& 0x7f

def dfaOtherXindex (accept1 : Perm32) : Perm32 := dfaMapXindex ((accept1 >>> 14) &&& 0x3fff)

def mapOldPerms (old : Perm32) : Perm32 :=
  (old &&& 0xf) ||| onlyIf old mayRead (aaMayGetattr ||| aaMayOpen) |||
    onlyIf old mayWrite (aaMaySetattr ||| aaMayCreate ||| aaMayDelete ||| aaMayChmod ||| aaMayChown ||| aaMayOpen) |||
    onlyIf old 0x10 aaMayLink ||| onlyIf old 0x20 (aaMayLock ||| aaLinkSubset) ||| onlyIf old 0x40 aaExecMmap

def computeFpermsAllow (accept1 : Perm32) : Perm32 :=
  aaMayGetattr ||| onlyIf accept1 0x80000000 aaMayChangeProfile ||| onlyIf accept1 0x40000000 aaMayOnexec

def computeFpermsUser (accept1 accept2 accept3 : Perm32) : PermsEntry :=
  let allow := mapOldPerms (dfaUserAllow accept1) ||| computeFpermsAllow accept1
  ⟨allow, mapOldPerms (dfaUserAllow accept3) &&& ~~~allow, mapOldPerms (dfaUserAudit accept2), mapOldPerms (dfaUserQuiet accept2),
    dfaUserXindex accept1⟩

def computeFpermsOther (accept1 accept2 accept3 : Perm32) : PermsEntry :=
  let allow := mapOldPerms (dfaOtherAllow accept1) ||| computeFpermsAllow accept1
  ⟨allow, mapOldPerms (dfaOtherAllow accept3) &&& ~~~allow, mapOldPerms (dfaOtherAudit accept2),
    mapOldPerms (dfaOtherQuiet accept2), dfaOtherXindex accept1⟩

def mapOther (x : Perm32) : Perm32 := ((x &&& 0x3) <<< 8) ||| ((x &&& 0x1c) <<< 18) ||| ((x &&& 0x60) <<< 19)

def computePermsEntry (accept1 accept2 accept3 : Perm32) : PermsEntry :=
  ⟨dfaUserAllow accept1 ||| onlyIf accept1 compatContMatch aaContMatch ||| mapOther (dfaOtherAllow accept1) ||| aaMayLock,
    dfaUserAllow accept3 ||| mapOther (dfaOtherAllow accept3), dfaUserAudit accept2 ||| mapOther (dfaOtherAudit accept2),
    dfaUserQuiet accept2 ||| mapOther (dfaOtherQuiet accept2), 0⟩

def packAuditCtl (audit quiet : Perm32) : Perm32 := (audit &&& 0x1fc07f) ||| ((quiet &&& 0x1fc07f) <<< 7)

end Compat

def ofPerms (filedfa : Bool) (p : PermsT) : List PermsEntry :=
  let accept2 := packAuditCtl p.audit p.quiet
  if filedfa then [computeFpermsUser p.allow accept2 p.prompt, computeFpermsOther p.allow accept2 p.prompt]
  else [computePermsEntry p.allow accept2 p.prompt]

end PermsEntry

def permsMult (filedfa : Bool) : ℕ := if filedfa then 2 else 1

structure PermsTable where
  table : List PermsEntry
  idxmap : List (PermsT × ℕ)

namespace PermsTable

def ent (filedfa : Bool) (t : PermsTable) (p : PermsT) (pos : ℕ) : Option PermsTable :=
  let entries := PermsEntry.ofPerms filedfa p
  if pos + entries.length ≤ t.table.length then
    some ⟨t.table.take pos ++ entries ++ t.table.drop (pos + entries.length),
      if (t.idxmap.lookup p).isSome then t.idxmap else (p, pos) :: t.idxmap⟩
  else none

def fill (filedfa : Bool) (nonmatching : PermsT) (t : PermsTable) : List PermsT → ℕ → Option PermsTable
  | [], _ => some t
  | p :: l, pos =>
    if p = nonmatching then fill filedfa nonmatching t l pos
    else (t.ent filedfa p pos).bind fun t => fill filedfa nonmatching t l (pos + permsMult filedfa)

end PermsTable

/-- `compute_perms_table`: the table, and the index of each state. `uniqPerms` is what the cache holds; `none` is an exception or a
write behind the end of the table. -/
def DFA.computePermsTable (d : DFA) (uniqPerms : List PermsT) : Option (List PermsEntry × (ℕ → ℕ)) := do
  let mult := permsMult d.filedfa
  let nonmatching := (d.state d.nonmatching).perms
  let t ← PermsTable.ent d.filedfa ⟨List.replicate (uniqPerms.length * mult) PermsEntry.none, []⟩ nonmatching 0
  let t ← PermsTable.fill d.filedfa nonmatching t uniqPerms mult
  if d.states.all fun s => s = d.nonmatching ∨ s = d.start ∨ (t.idxmap.lookup (d.state s).perms).isSome then
    return (t.table, fun s => if s = d.nonmatching ∨ s = d.start then 0 else (t.idxmap.lookup (d.state s).perms).getD 0)
  else Option.none

def DFA.acceptIndexes (d : DFA) (idx : ℕ → ℕ) (transHigh : Bool) : List ℕ := (d.nonmatching :: CHFA.packOrder d transHigh).map idx

def entriesAt (filedfa : Bool) (table : List PermsEntry) (i : ℕ) : List PermsEntry := (table.drop i).take (permsMult filedfa)

namespace PermsTable

variable {filedfa : Bool} {l done : List PermsT} {p nonmatching : PermsT}

theorem length_ofPerms (filedfa : Bool) (p : PermsT) : (PermsEntry.ofPerms filedfa p).length = permsMult filedfa := by
  cases filedfa <;> rfl

theorem length_entries (filedfa : Bool) (l : List PermsT) :
    (l.flatMap (PermsEntry.ofPerms filedfa)).length = l.length * permsMult filedfa := by
  induction l with
  | nil => simp
  | cons p l ih => rw [flatMap_cons, length_append, length_ofPerms, ih, length_cons, succ_mul, add_comm]

/-- The table once the permissions of `done` have been entered, one after the other, with room for `n` more. -/
structure Holds (filedfa : Bool) (done : List PermsT) (n : ℕ) (t : PermsTable) : Prop where
  table : t.table = done.flatMap (PermsEntry.ofPerms filedfa) ++ List.replicate (n * permsMult filedfa) PermsEntry.none
  idxmap : ∀ q, t.idxmap.lookup q = if q ∈ done then some (done.idxOf q * permsMult filedfa) else Option.none

variable {t : PermsTable}

theorem Holds.ent {n : ℕ} (h : Holds filedfa done (n + 1) t) (hp : p ∉ done) :
    ∃ t', t.ent filedfa p (done.length * permsMult filedfa) = some t' ∧ Holds filedfa (done ++ [p]) n t' := by
  have hlen := length_ofPerms filedfa p
  have hdone := length_entries filedfa done
  have hroom : done.length * permsMult filedfa + permsMult filedfa ≤ t.table.length := by
    rw [h.table, length_append, hdone, length_replicate, Nat.succ_mul]
    omega
  have hlookup : t.idxmap.lookup p = none := by rw [h.idxmap, if_neg hp]
  refine ⟨_, by rw [PermsTable.ent]; exact if_pos (by rw [hlen]; exact hroom), ?_, fun q => ?_⟩
  · dsimp only
    rw [h.table, hlen, flatMap_append, flatMap_singleton, ← hdone, take_left, drop_append, Nat.add_sub_cancel_left,
      drop_eq_nil_of_le (Nat.le_add_right _ _), nil_append, drop_replicate, Nat.succ_mul, Nat.add_sub_cancel]
  · dsimp only
    rw [hlookup]
    simp only [isSome_none, Bool.false_eq_true, if_false]
    rw [lookup_cons]
    by_cases hq : q = p
    · subst hq
      rw [beq_self_eq_true, if_pos (by simp), idxOf_append_of_notMem hp]
      simp
    · rw [beq_false_of_ne hq, h.idxmap]
      by_cases hmem : q ∈ done
      · rw [if_pos hmem, if_pos (mem_append_left _ hmem), idxOf_append_of_mem hmem]
      · rw [if_neg hmem, if_neg (by simp [hmem, hq])]

theorem fill_spec {n : ℕ} (h : Holds filedfa done n t) (hfirst : nonmatching ∈ done) (hnodup : (l.filter (· != nonmatching)).Nodup)
    (hnew : ∀ q ∈ l, q ≠ nonmatching → q ∉ done) (hroom : (l.filter (· != nonmatching)).length = n) :
    ∃ t', fill filedfa nonmatching t l (done.length * permsMult filedfa) = some t' ∧
      Holds filedfa (done ++ l.filter (· != nonmatching)) 0 t' := by
  induction l generalizing done n t with
  | nil =>
    obtain rfl : 0 = n := hroom
    exact ⟨t, rfl, by simpa using h⟩
  | cons p l ih =>
    obtain ⟨hp, hnew⟩ := forall_mem_cons.mp hnew
    by_cases hpn : p = nonmatching
    · rw [filter_cons_of_neg (by simp [hpn])] at hnodup hroom ⊢
      rw [fill, if_pos hpn]
      exact ih h hfirst hnodup hnew hroom
    · rw [filter_cons_of_pos (by simp [hpn])] at hnodup hroom ⊢
      obtain ⟨hnot, hnodup⟩ := nodup_cons.mp hnodup
      obtain ⟨n, rfl⟩ : ∃ m, n = m + 1 := ⟨n - 1, by rw [length_cons] at hroom; omega⟩
      obtain ⟨t₁, ht₁, h₁⟩ := h.ent (hp hpn)
      have hnew₁ : ∀ q ∈ l, q ≠ nonmatching → q ∉ done ++ [p] := by
        intro q hq hqn hmem
        rcases mem_append.mp hmem with hmem | hmem
        · exact hnew q hq hqn hmem
        · obtain rfl := mem_singleton.mp hmem
          exact hnot (mem_filter.mpr ⟨hq, by simp [hqn]⟩)
      obtain ⟨t', ht', h'⟩ := ih h₁ (mem_append_left _ hfirst) hnodup hnew₁ (by rw [length_cons] at hroom; omega)
      refine ⟨t', ?_, by simpa using h'⟩
      rw [fill, if_neg hpn, ht₁, bind_some, ← ht', length_append, length_singleton, succ_mul]

theorem Holds.entriesAt (h : Holds filedfa done 0 t) (hp : p ∈ done) :
    entriesAt filedfa t.table (done.idxOf p * permsMult filedfa) = PermsEntry.ofPerms filedfa p := by
  obtain ⟨l₁, l₂, rfl, hnot⟩ := eq_append_cons_of_mem hp
  rw [AppArmor.entriesAt, h.table, idxOf_append_of_notMem hnot, idxOf_cons_self, add_zero, zero_mul,
    replicate_zero, append_nil, flatMap_append, flatMap_cons, ← length_entries filedfa l₁, drop_left,
    ← length_ofPerms filedfa p, take_left]

end PermsTable

section Result

variable {d : DFA} {uniqPerms : List PermsT}

def tableOrder (d : DFA) (uniqPerms : List PermsT) : List PermsT :=
  (d.state d.nonmatching).perms :: uniqPerms.filter (· != (d.state d.nonmatching).perms)

theorem mem_tableOrder {p : PermsT} (hp : p ∈ uniqPerms) : p ∈ tableOrder d uniqPerms := by
  by_cases he : p = (d.state d.nonmatching).perms
  · rw [he]
    exact mem_cons_self
  · exact mem_cons_of_mem _ (mem_filter.mpr ⟨hp, bne_iff_ne.mpr he⟩)

def tableIndex (d : DFA) (uniqPerms : List PermsT) (s : ℕ) : ℕ :=
  if s = d.nonmatching ∨ s = d.start then 0 else (tableOrder d uniqPerms).idxOf (d.state s).perms * permsMult d.filedfa

theorem computePermsTable_spec (hd : d.Closed) (hnodup : uniqPerms.Nodup)
    (huniq : ∀ s ∈ d.states, (d.state s).perms ∈ uniqPerms) : ∃ t idx, d.computePermsTable uniqPerms = some (t.table, idx) ∧
      PermsTable.Holds d.filedfa (tableOrder d uniqPerms) 0 t ∧ ∀ s ∈ d.states, idx s = tableIndex d uniqPerms s := by
  have hroom : (uniqPerms.filter (· != (d.state d.nonmatching).perms)).length + 1 = uniqPerms.length := by
    have hmem := huniq d.nonmatching hd.nonmatching
    rw [← hnodup.erase_eq_filter, length_erase_of_mem hmem]
    have hpos := length_pos_of_mem hmem
    omega
  have hempty : PermsTable.Holds d.filedfa [] ((uniqPerms.filter (· != (d.state d.nonmatching).perms)).length + 1)
      ⟨replicate (uniqPerms.length * permsMult d.filedfa) PermsEntry.none, []⟩ :=
    ⟨by rw [hroom]; rfl, fun q => rfl⟩
  obtain ⟨t₁, ht₁, h₁⟩ := hempty.ent (p := (d.state d.nonmatching).perms) not_mem_nil
  obtain ⟨t, ht, h⟩ := PermsTable.fill_spec (l := uniqPerms) h₁ (mem_singleton.mpr rfl) (hnodup.filter _)
    (fun q _ hq hmem => hq (mem_singleton.mp hmem)) rfl
  have hlookup : ∀ s ∈ d.states, t.idxmap.lookup (d.state s).perms =
      some ((tableOrder d uniqPerms).idxOf (d.state s).perms * permsMult d.filedfa) := by
    intro s hs
    rw [h.idxmap]
    exact if_pos (mem_tableOrder (huniq s hs))
  have hall : (d.states.all fun s => s = d.nonmatching ∨ s = d.start ∨ (t.idxmap.lookup (d.state s).perms).isSome) = true := by
    refine all_eq_true.mpr fun s hs => decide_eq_true (Or.inr (Or.inr ?_))
    rw [hlookup s hs]
    rfl
  have hfirst : [(d.state d.nonmatching).perms].length * permsMult d.filedfa = permsMult d.filedfa := one_mul _
  rw [nil_append, hfirst] at ht
  rw [length_nil, zero_mul] at ht₁
  refine ⟨t, fun s => if s = d.nonmatching ∨ s = d.start then 0 else (t.idxmap.lookup (d.state s).perms).getD 0, ?_, h,
    fun s hs => ?_⟩
  · rw [DFA.computePermsTable, ht₁]
    simp only [bind_eq_bind, bind_some]
    rw [ht]
    simp only [bind_some]
    rw [if_pos hall]
    rfl
  · simp only [hlookup s hs]
    rfl

theorem mem_numbered {transHigh : Bool} {s : ℕ} (hs : s ∈ d.states) : s ∈ d.nonmatching :: CHFA.packOrder d transHigh := by
  rw [CHFA.packOrder, mem_cons, mem_cons, CHFA.mem_insertOrder]
  by_cases h₁ : s = d.nonmatching
  · exact Or.inl h₁
  · by_cases h₂ : s = d.start
    · exact Or.inr (Or.inl h₂)
    · exact Or.inr (Or.inr ⟨hs, h₂, h₁⟩)

theorem computePermsTable_own_iff (hd : d.Closed) (hnodup : uniqPerms.Nodup)
    (huniq : ∀ s ∈ d.states, (d.state s).perms ∈ uniqPerms) (transHigh : Bool) :
    ∃ table idx, d.computePermsTable uniqPerms = some (table, idx) ∧
      ((∀ s ∈ d.states, ∃ i, (d.acceptIndexes idx transHigh)[(d.nonmatching :: CHFA.packOrder d transHigh).idxOf s]? = some i ∧
        entriesAt d.filedfa table i = PermsEntry.ofPerms d.filedfa (d.state s).perms) ↔
      PermsEntry.ofPerms d.filedfa (d.state d.start).perms = PermsEntry.ofPerms d.filedfa (d.state d.nonmatching).perms) := by
  obtain ⟨t, idx, hcompute, h, hidx⟩ := computePermsTable_spec hd hnodup huniq
  have haccept : ∀ s ∈ d.states, (d.acceptIndexes idx transHigh)[(d.nonmatching :: CHFA.packOrder d transHigh).idxOf s]? =
      some (tableIndex d uniqPerms s) := by
    intro s hs
    rw [DFA.acceptIndexes, getElem?_map, getElem?_idxOf (mem_numbered hs), map_some, hidx s hs]
  have hzero : entriesAt d.filedfa t.table 0 = PermsEntry.ofPerms d.filedfa (d.state d.nonmatching).perms := by
    have hat := h.entriesAt (p := (d.state d.nonmatching).perms) mem_cons_self
    rwa [tableOrder, idxOf_cons_self, zero_mul] at hat
  refine ⟨t.table, idx, hcompute, fun hown => ?_, fun hsame s hs => ⟨_, haccept s hs, ?_⟩⟩
  · obtain ⟨i, hi, hentries⟩ := hown d.start hd.start
    rw [haccept d.start hd.start, tableIndex, if_pos (Or.inr rfl)] at hi
    obtain rfl := some.inj hi
    rw [← hentries, hzero]
  · unfold tableIndex
    split_ifs with hspecial
    · rw [hzero]
      rcases hspecial with rfl | rfl
      · rfl
      · exact hsame.symm
    · exact h.entriesAt (mem_tableOrder (huniq s hs))

theorem wrapped_own_entries : ∃ d, DFA.build (fun _ => 0) wrapped wrapped.leafOrder true = .ok d ∧
    ∃ table idx, d.computePermsTable (d.states.map fun s => (d.state s).perms).dedup = some (table, idx) ∧
      ((∀ s ∈ d.states, ∃ i, (d.acceptIndexes idx true)[(d.nonmatching :: CHFA.packOrder d true).idxOf s]? = some i ∧
        entriesAt d.filedfa table i = PermsEntry.ofPerms d.filedfa (d.state s).perms) ↔
      PermsEntry.ofPerms d.filedfa (d.state d.start).perms = PermsEntry.ofPerms d.filedfa (d.state d.nonmatching).perms) := by
  have hne : (DFA.build (fun _ => 0) wrapped wrapped.leafOrder true).toOption.any (fun d => d.start ≠ d.nonmatching) = true := by
    decide +kernel
  obtain ⟨d, hd, hne⟩ := ok_of_any hne
  refine ⟨d, hd, computePermsTable_own_iff (build_encodable hd (of_decide_eq_true hne)).toClosed (nodup_dedup _) ?_ true⟩
  exact fun s hs => mem_dedup.mpr (mem_map.mpr ⟨s, hs, rfl⟩)

/-- The rule `[^b]*` accepts in the start state; the entry of the start state does not allow to write. -/
theorem start_entry_lost : ∃ d, DFA.build (fun _ => 0) twoRules twoRules.leafOrder true = .ok d ∧
    ∃ table idx, d.computePermsTable (d.states.map fun s => (d.state s).perms).dedup = some (table, idx) ∧
      (d.state d.start).perms.allow = Perm.mayWrite ∧
      (d.acceptIndexes idx true)[(d.nonmatching :: CHFA.packOrder d true).idxOf d.start]? = some 0 ∧
      ((entriesAt d.filedfa table 0).map fun e => e.allow &&& Perm.mayWrite) = [0, 0] ∧
      ((PermsEntry.ofPerms d.filedfa (d.state d.start).perms).map fun e => e.allow &&& Perm.mayWrite) = [Perm.mayWrite, 0] := by
  have h : (DFA.build (fun _ => 0) twoRules twoRules.leafOrder true).toOption.any (fun d =>
      (d.computePermsTable (d.states.map fun s => (d.state s).perms).dedup).any fun t =>
        (d.state d.start).perms.allow = Perm.mayWrite ∧
        (d.acceptIndexes t.2 true)[(d.nonmatching :: CHFA.packOrder d true).idxOf d.start]? = some 0 ∧
        ((entriesAt d.filedfa t.1 0).map fun e => e.allow &&& Perm.mayWrite) = [0, 0] ∧
        ((PermsEntry.ofPerms d.filedfa (d.state d.start).perms).map fun e => e.allow &&& Perm.mayWrite) =
          [Perm.mayWrite, 0]) = true := by
    decide +kernel
  obtain ⟨d, hd, h⟩ := ok_of_any h
  obtain ⟨t, ht, h⟩ := (Option.any_eq_true _ _).mp h
  exact ⟨d, hd, t.1, t.2, ht, of_decide_eq_true h⟩

end Result

end AppArmor

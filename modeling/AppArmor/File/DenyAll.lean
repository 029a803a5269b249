import AppArmor.File.Merge
import AppArmor.File.Prefix
import AppArmor.File.Resolved
import Mathlib

open Computability

namespace AppArmor

open Perm Resolve List Option BitVec Language

def IsPath (w : List Byte) : Prop := ∃ v, w = 47 :: v ∧ (0 : Byte) ∉ v

def IsLinkTarget (t : List Byte) : Prop := ∃ c v, t = 47 :: c :: v ∧ c ≠ 47

def FileRule (e : CodEntry) : Prop := e.perms &&& ~~~(userPerms ||| otherPerms) = 0

def sparingPerms : Perm32 := (userPerms &&& ~~~oldMayLink) ||| otherExec ||| (otherExecType &&& ~~~otherExecInherit)

/-- A rule that grants something grants other users nothing but exec, without the `m` that `ix` implies, and the owner no link. -/
def Spares (e : CodEntry) : Prop :=
  e.ruleMode = .deny ∨ e.ruleMode = .prompt ∨ e.perms &&& ~~~sparingPerms = 0

instance (e : CodEntry) : Decidable (FileRule e) := inferInstanceAs (Decidable (_ = _))

instance (e : CodEntry) : Decidable (Spares e) := inferInstanceAs (Decidable (_ ∨ _ ∨ _ = _))

def execPerms : Perm32 := execBits ||| allExecType

section Resolves

variable {rs : List RuleVec} {w : List Byte} {p : PermsT} {i b : ℕ}

variable {r : RuleVec}

theorem flag_deny {addr : UniquePerm → ℕ} (h : r.mode = .deny) : (r.flag addr).kind = .deny := by
  unfold RuleVec.flag RuleVec.uniquePerm UniquePerm.kind
  rw [h]

def Restrained (G : Set Grant) (w : List Byte) : Prop :=
  ∀ g ∈ G, g.word = w → g.audited = false → g.priority ≤ 0 ∧ g.bit ≠ contMatchBit ∧
    (g.mode ≠ .deny → g.mode ≠ .prompt → (~~~sparingPerms).getLsbD g.bit = false)

def Denies (G : Set Grant) (w : List Byte) (i : ℕ) : Prop :=
  ∃ g ∈ G, g.word = w ∧ g.audited = false ∧ g.mode = .deny ∧ g.priority = 0 ∧ g.bit = i

theorem Restrained.rule (h : Restrained (MergeWalk.total RuleVec.grants rs) w) (hr : r ∈ rs)
    (hw : w ∈ r.tree.byteWords) (hb : r.perms.getLsbD b = true) : r.priority ≤ 0 ∧ b ≠ contMatchBit ∧
      (r.mode ≠ .deny → r.mode ≠ .prompt → (~~~sparingPerms).getLsbD b = false) :=
  h ⟨w, r.priority, r.mode, r.tree.exactMatch, false, b⟩ (mem_total_grants.mpr ⟨r, hr, hw, rfl, rfl, rfl, hb⟩) rfl rfl

theorem Denies.rule (h : Denies (MergeWalk.total RuleVec.grants rs) w i) :
    ∃ r ∈ rs, w ∈ r.tree.byteWords ∧ r.mode = .deny ∧ r.priority = 0 ∧ r.perms.getLsbD i = true := by
  obtain ⟨g, hg, rfl, haudit, hmode, hpriority, rfl⟩ := h
  obtain ⟨r, hr, hw, hp, hm, -, hbit⟩ := mem_total_grants.mp hg
  rw [haudit] at hbit
  exact ⟨r, hr, hw, hm ▸ hmode, hp ▸ hpriority, hbit⟩

theorem denies_of_rule (hr : r ∈ rs) (hw : w ∈ r.tree.byteWords) (hmode : r.mode = .deny)
    (hpriority : r.priority = 0) (hbit : r.perms.getLsbD i = true) : Denies (MergeWalk.total RuleVec.grants rs) w i :=
  ⟨⟨w, r.priority, r.mode, r.tree.exactMatch, false, i⟩, mem_total_grants.mpr ⟨r, hr, hw, rfl, rfl, rfl, hbit⟩, rfl, rfl,
    hmode, hpriority, rfl⟩

theorem spared_slots : ∀ b < 32, (~~~sparingPerms).getLsbD b = true →
    ∃ i < 32, isSlot true i ∧ (amask true i).getLsbD b = true := by decide +kernel

theorem Resolves.denied (h : Resolves true rs w p) (hrs : Restrained (MergeWalk.total RuleVec.grants rs) w)
    (hi : isSlot true i) (hcont : i ≠ contMatchBit) (hother : i ≠ execOtherMmapShift)
    (hd : Denies (MergeWalk.total RuleVec.grants rs) w i) : p.allow.getLsbD i = false := by
  obtain ⟨addr, flags, hflags, hperms⟩ := h
  obtain ⟨s, hs, rfl⟩ := map_eq_some_iff.mp hperms
  obtain ⟨r, hr, hw, hmode, hzero, hbit⟩ := hd.rule
  have hpriority : ∀ c, ∀ m ∈ flags, m.perms.getLsbD c = true → m.priority ≤ 0 := by
    intro c m hm hc
    obtain ⟨r, hr, hw, rfl⟩ := (hflags m).mp hm
    exact (hrs.rule hr hw hc).1
  have hden : 3 ≤ s.priority i ∧ s.perms.allow.getLsbD i = false := by
    have hden := slot_denied hs hi hcont ((hflags _).mpr ⟨r, hr, hw, rfl⟩) (flag_deny hmode) hbit
    rw [show (r.flag addr).priority = 0 from hzero] at hden
    exact hden (hpriority i)
  refine Bool.eq_false_iff.mpr fun ha => ?_
  rcases impliedMmap_source ha with ha | ⟨rfl, hexec, hle⟩ | ⟨rfl, -⟩
  · rw [hden.2] at ha
    cases ha
  · obtain ⟨m, hm, -, hper, hm0, hm'⟩ := slot_allow_source hs (isSlot_exec true (Or.inl rfl)) (by decide) hexec
    have hbelow := @scaledPriority_permissive 0 m (hper.resolve_left (by decide))
    have := hpriority _ m hm hm0
    change s.priority execMmapShift ≤ s.priority 0 at hle
    omega
  · exact hother rfl

theorem Resolves.spared (h : Resolves true rs w p) (hrs : Restrained (MergeWalk.total RuleVec.grants rs) w)
    (hb : (~~~sparingPerms).getLsbD b = true) : p.allow.getLsbD b = false := by
  obtain ⟨addr, flags, hflags, hperms⟩ := h
  obtain ⟨s, hs, rfl⟩ := map_eq_some_iff.mp hperms
  -- no slot takes such a bit from anywhere
  have hslot : ∀ c, (~~~sparingPerms).getLsbD c = true → s.perms.allow.getLsbD c = false := by
    intro c hc
    refine Bool.eq_false_iff.mpr fun ha => ?_
    obtain ⟨j, -, hj, hin⟩ := spared_slots c (lt_of_getLsbD hc) hc
    obtain ⟨m, hm, -, hper, hbit, -⟩ := slot_allow_source hs hj hin ha
    obtain ⟨r, hr, hw, rfl⟩ := (hflags m).mp hm
    obtain ⟨-, hcont, hspare⟩ := hrs.rule hr hw hbit
    obtain ⟨hdeny, hprompt⟩ := permissive_flag.mp (hper.resolve_left hcont)
    rw [hspare hdeny hprompt] at hc
    cases hc
  refine Bool.eq_false_iff.mpr fun ha => ?_
  rcases impliedMmap_source ha with ha | ⟨rfl, -⟩ | ⟨rfl, hinherit⟩
  · rw [hslot b hb] at ha
    cases ha
  · revert hb
    decide
  · have hbit : s.perms.allow.getLsbD 23 = true := by
      rw [← hits_bit (show 23 < 32 by decide)]
      exact hinherit
    rw [hslot 23 (by decide)] at hbit
    cases hbit

end Resolves

section Rules

variable {stacking : Bool} {es : List CodEntry} {rs : List RuleVec}

variable {e : CodEntry} {r : RuleVec}

theorem addOne_from {perms audit : Perm32} {first : Text} {others : List Text}
    (h : (e.addRuleVec perms audit first others).map ([·]) = some rs) (hr : r ∈ rs) : r.From e perms := by
  obtain ⟨r', hrule, rfl⟩ := map_eq_some_iff.mp h
  rw [mem_singleton.mp hr]
  exact addRuleVec_from hrule

theorem addFileRule_from {tbuf : Text} (h : e.addFileRule tbuf = some rs) (hr : r ∈ rs) :
    ∃ mask, r.From e (e.perms &&& mask) := by
  have hnil : ∀ {P : Prop}, some [] = some rs → P := by
    intro P h
    cases h
    cases hr
  unfold CodEntry.addFileRule at h
  by_cases hprofile : isChangeProfilePerms e.perms = true
  · rw [if_pos hprofile] at h
    exact hnil h
  · rw [if_neg hprofile] at h
    by_cases hdeny : e.ruleMode = .deny
    · rw [if_pos hdeny] at h
      by_cases hother : hits e.perms (~~~linkBits) = true
      · rw [if_pos hother] at h
        exact ⟨_, addOne_from h hr⟩
      · rw [if_neg hother] at h
        exact hnil h
    · rw [if_neg hdeny] at h
      refine ⟨allOnes 32, ?_⟩
      rw [and_allOnes]
      exact addOne_from h hr

theorem addLinkRule_from {tbuf : Text} (h : e.addLinkRule tbuf = some rs) (hr : r ∈ rs) :
    r.From e (linkPerms e.linkTarget.2 e.perms) := by
  unfold CodEntry.addLinkRule at h
  by_cases hlink : hits e.perms linkBits = true
  · rw [if_pos hlink] at h
    obtain ⟨lbuf, -, h⟩ := bind_eq_some_iff.mp h
    exact addOne_from h hr
  · rw [if_neg hlink] at h
    cases h
    cases hr

theorem linkPerms_source {subset : Bool} {p : Perm32} {b : ℕ} (h : (linkPerms subset p).getLsbD b = true) :
    p.getLsbD b = true ∨ b = 5 := by
  have hlt := lt_of_getLsbD h
  have htest : ∀ b < 32, linkSubsetTest.getLsbD b = true → b = 5 := by decide
  unfold linkPerms linkToLinkSubset at h
  cases subset with
  | true =>
    simp only [↓reduceIte, getLsbD_or, getLsbD_and, Bool.or_eq_true, Bool.and_eq_true] at h
    exact h.imp And.right fun h => htest b hlt h.2
  | false =>
    simp only [Bool.false_eq_true, ↓reduceIte, getLsbD_and, Bool.and_eq_true] at h
    exact Or.inl h.2

theorem process_source (hfile : isChangeProfilePerms e.perms = false) (h : e.process stacking = some rs)
    (hr : r ∈ rs) : r.priority = e.priority ∧ r.mode = e.ruleMode ∧
      ∀ b, r.perms.getLsbD b = true → e.perms.getLsbD b = true ∨ b = 5 := by
  obtain ⟨tbuf, -, h⟩ := bind_eq_some_iff.mp h
  obtain ⟨file, hrule, h⟩ := bind_eq_some_iff.mp h
  obtain ⟨link, hlink, h⟩ := bind_eq_some_iff.mp h
  obtain ⟨profile, hprofile, h⟩ := bind_eq_some_iff.mp h
  cases h
  unfold CodEntry.addChangeProfileRules at hprofile
  rw [hfile, if_neg Bool.false_ne_true] at hprofile
  cases hprofile
  rw [append_nil] at hr
  rcases mem_append.mp hr with hr | hr
  · obtain ⟨mask, hp, hm, hperms⟩ := addFileRule_from hrule hr
    refine ⟨hp, hm, fun b hb => Or.inl ?_⟩
    rw [hperms, getLsbD_and, Bool.and_eq_true] at hb
    exact hb.1
  · obtain ⟨hp, hm, hperms⟩ := addLinkRule_from hlink hr
    refine ⟨hp, hm, fun b hb => ?_⟩
    rw [hperms] at hb
    exact linkPerms_source hb

theorem FileRule.not_changeProfile (h : FileRule e) : isChangeProfilePerms e.perms = false := by
  have hmask : ~~~(userPerms ||| otherPerms) &&& changeProfile = changeProfile := by decide
  unfold isChangeProfilePerms hits
  rw [← hmask, ← BitVec.and_assoc, show e.perms &&& ~~~(userPerms ||| otherPerms) = 0 from h]
  simp

theorem restrained_of_entries (hes : ∀ e ∈ es, FileRule e ∧ e.priority ≤ 0 ∧ Spares e)
    (hrs : processEntries stacking es = some rs) (w : List Byte) :
    Restrained (MergeWalk.total RuleVec.grants rs) w := by
  have hmem : ∀ {p m : Perm32} {b : ℕ}, p &&& m = 0 → p.getLsbD b = true → m.getLsbD b = false := by
    intro p m b hzero hp
    have hbit := congrArg (·.getLsbD b) hzero
    simpa [hp] using hbit
  intro g hg hword haudit
  obtain ⟨r, hr, hw, hp, hm, -, hbit⟩ := mem_total_grants.mp hg
  rw [haudit] at hbit
  obtain ⟨e, he, rs', hproc, hr⟩ := (mem_processEntries hrs).mp hr
  obtain ⟨hfile, hpriority, hspare⟩ := hes e he
  obtain ⟨hp', hm', hperms⟩ := process_source hfile.not_changeProfile hproc hr
  have hfive : ∀ {m : Perm32}, e.perms &&& m = 0 → m.getLsbD 5 = false → m.getLsbD g.bit = false := by
    intro m hzero h5
    rcases hperms g.bit hbit with hb | hb
    · exact hmem hzero hb
    · rw [hb]
      exact h5
  refine ⟨?_, ?_, fun hdeny hprompt => ?_⟩
  · rw [hp, hp']
    exact hpriority
  · intro hcont
    have hb := hfive hfile (by decide)
    rw [hcont] at hb
    revert hb
    decide
  · rw [hm, hm'] at hdeny hprompt
    exact hfive ((hspare.resolve_left hdeny).resolve_left hprompt) (by decide)

end Rules

def denyAllEntry (audit : AuditT) : CodEntry :=
  ⟨0, "/\x7b**,\x7d".toList, none, basePerms &&& ~~~(execType ||| mayExec), audit, .deny, false⟩

theorem denyAllEntry_mem {audit : AuditT} {all : List CodEntry}
    (h : allFileEntries ⟨0, audit, .deny, .unspecified⟩ = .ok all) : ∃ a, denyAllEntry a ∈ all := by
  have hok : ∀ audit, ∃ a ix, allFileEntries ⟨0, audit, .deny, .unspecified⟩ = .ok [denyAllEntry a, ix] := by
    intro audit
    cases audit with
    | force => exact ⟨.unspecified, _, rfl⟩
    | unspecified | implied | quiet => exact ⟨.implied, _, rfl⟩
  obtain ⟨a, ix, hok⟩ := hok audit
  rw [hok] at h
  cases h
  exact ⟨a, mem_cons_self⟩

def anyFileTree : Tree := .cat (.cnode (.char 47)) (.alt (.star (.cnode (anyLeaf .default))) .eps)

def linkTargetTree : Tree :=
  .cat (.cat (.cnode (.char 47)) (.cnode (csetLeaf true (Chars.empty.insert 47)))) (.star (.cnode .anyChar))

theorem IsPath.mem {w : List Byte} (h : IsPath w) : w ∈ anyFileTree.byteWords := by
  obtain ⟨v, rfl, hv⟩ := h
  rw [anyFileTree, Tree.byteWords_cat, Tree.byteWords_alt, Tree.byteWords_star, byteWords_anyLeaf, Tree.byteWords_cnode]
  refine append_mem_mul (a := [47]) ⟨47, rfl, rfl⟩ (Or.inl (mem_byteLang_kstar.mpr ?_))
  rintro b hb - rfl
  exact hv hb

theorem IsLinkTarget.mem {t : List Byte} (h : IsLinkTarget t) : t ∈ linkTargetTree.byteWords := by
  obtain ⟨c, v, rfl, hc⟩ := h
  rw [linkTargetTree, Tree.byteWords_cat, Tree.byteWords_cat, Tree.byteWords_star, Tree.byteWords_cnode, Tree.byteWords_cnode,
    Tree.byteWords_cnode]
  refine append_mem_mul (a := [47, c]) (append_mem_mul (a := [47]) ⟨47, rfl, rfl⟩ ⟨c, ?_, rfl⟩) ?_
  · refine (csetLeaf_matches _ _ _).mpr ?_
    rw [Chars.mem_insert]
    simp only [Chars.notMem_empty, or_false, Bool.true_eq_false, iff_false]
    exact fun h => hc (Fin.ext (Int.ofNat_inj.mp h))
  · exact mem_byteLang_kstar.mpr fun _ _ => rfl

theorem process_denyAllEntry (stacking : Bool) (a : AuditT) : ∃ audit audit',
    (denyAllEntry a).process stacking = some [⟨0, .deny, 0x6e, audit, anyFileTree, [], false⟩,
      ⟨0, .deny, 0x30, audit', anyFileTree, [linkTargetTree], false⟩] := by
  refine ⟨if a.isForce then 0x6e else 0, if a.isForce then 0x10 else 0, ?_⟩
  cases stacking <;> cases a <;> decide +kernel

theorem mem_pair {t u : Tree} {w v : List Byte} (hw : w ∈ t.byteWords) (hv : v ∈ u.byteWords) :
    w ++ 0 :: v ∈ (Tree.catWithSeparator false t u).byteWords := by
  rw [Tree.catWithSeparator, Tree.byteWords_cat, Tree.byteWords_cat, Tree.byteWords_cnode]
  have hsep : w ++ [0] ∈ t.byteWords * byteLang fun b => (CNode.char (Tree.separator false)).matches (b.val : ℤ) :=
    append_mem_mul hw ⟨0, rfl, rfl⟩
  rw [append_cons]
  exact append_mem_mul hsep hv

theorem denyAllEntry_denies {stacking : Bool} {es : List CodEntry} {rs : List RuleVec} {a : AuditT}
    (ha : denyAllEntry a ∈ es) (hrs : processEntries stacking es = some rs) :
    (∀ w i, IsPath w → (0x6e : Perm32).getLsbD i = true → Denies (MergeWalk.total RuleVec.grants rs) w i) ∧
      ∀ w t, IsPath w → IsLinkTarget t → Denies (MergeWalk.total RuleVec.grants rs) (w ++ 0 :: t) 4 := by
  obtain ⟨audit, audit', hproc⟩ := process_denyAllEntry stacking a
  constructor
  · intro w i hw hi
    have hr := (mem_processEntries hrs).mpr ⟨_, ha, _, hproc, mem_cons_self⟩
    exact denies_of_rule hr hw.mem rfl rfl hi
  · intro w t hw ht
    have hr := (mem_processEntries hrs).mpr ⟨_, ha, _, hproc, mem_cons_of_mem _ mem_cons_self⟩
    exact denies_of_rule hr (mem_pair hw.mem ht.mem) rfl rfl (show (0x30 : Perm32).getLsbD 4 = true by decide)

theorem eq_zero_of_bits {p m : Perm32} (h : ∀ b < 32, m.getLsbD b = true → p.getLsbD b = false) : p &&& m = 0 := by
  apply eq_of_getLsbD_eq
  intro b hb
  cases hm : m.getLsbD b with
  | false => simp [hm]
  | true => simp [h b hb hm]

def denyAllExec (audit : AuditT) : CodEntry :=
  ⟨-1, "/\x7b**,\x7d".toList, none, mayExec ||| mayExec <<< otherShift, audit, .deny, false⟩

def denyAllRules : List RuleVec :=
  [⟨0, .deny, 0x6e, 0x6e, anyFileTree, [], false⟩, ⟨0, .deny, 0x30, 0x10, anyFileTree, [linkTargetTree], false⟩,
    ⟨-1, .deny, 0x4001, 0x4001, anyFileTree, [], false⟩]

end AppArmor

import AppArmor.File.Grants
import AppArmor.Glob.Match

namespace AppArmor

open Perm List BitVec

def strrcmpFrom : Text → Text → ℤ
  | [], [] => 0
  | [], _ :: _ => -1
  | _ :: _, [] => 1
  | x :: a, y :: b =>
    if x.toNat = y.toNat then strrcmpFrom a b else (x.toNat : ℤ) - y.toNat

def strrcmp (a b : Text) : ℤ := strrcmpFrom a.reverse b.reverse

def linkComp (e₁ e₂ : CodEntry) : ℤ :=
  match e₁.linkName, e₂.linkName with
  | some l₁, some l₂ =>
    if strrcmp l₁ l₂ ≠ 0 then strrcmp l₁ l₂
    else (if e₂.subset then 1 else 0) - (if e₁.subset then 1 else 0)
  | some _, none => 1
  | none, some _ => -1
  | none, none => 0

def fileComp (e₁ e₂ : CodEntry) : ℤ :=
  if linkComp e₁ e₂ ≠ 0 then linkComp e₁ e₂
  else if e₁.ruleMode ≠ e₂.ruleMode then if e₁.ruleMode.toNat < e₂.ruleMode.toNat then -1 else 1
  else if !e₁.audit.eq e₂.audit then if e₁.audit.toNat < e₂.audit.toNat then -1 else 1
  else if e₁.priority ≠ e₂.priority then e₂.priority - e₁.priority
  else strrcmp e₁.name e₂.name

/-- Some order for the entries. Nothing more can be said: `file_comp` takes an implied audit for a forced one only when it
comes first. -/
structure QSort where
  sort : List CodEntry → List CodEntry
  perm : ∀ es, (sort es).Perm es

def mergeEntries (cur next : CodEntry) : Option CodEntry :=
  if isMergedXConsistent cur.perms next.perms then some { cur with perms := cur.perms ||| next.perms } else none

def mergeFile (qsort : QSort) (es : List CodEntry) : Option (List CodEntry) :=
  if es.length < 2 then some es
  else
    match qsort.sort es with
    | [] => some []
    | e :: es => MergeWalk.walk (fun cur next => fileComp cur next = 0) mergeEntries e es

theorem strrcmp_eq_zero {a b : Text} : strrcmp a b = 0 ↔ a = b := by
  have hfrom : ∀ a b : Text, strrcmpFrom a b = 0 ↔ a = b := by
    intro a
    induction a with
    | nil => intro b; cases b <;> simp [strrcmpFrom]
    | cons x a ih =>
      intro b
      cases b with
      | nil => simp [strrcmpFrom]
      | cons y b =>
        rw [strrcmpFrom]
        by_cases hxy : x.toNat = y.toNat
        · have hchar : x = y := Char.toNat_inj.mp hxy
          simp [hchar, ih]
        · have hchar : x ≠ y := fun h => hxy (congrArg Char.toNat h)
          simp only [hxy, if_false, cons.injEq, hchar, false_and, iff_false]
          omega
  rw [strrcmp, hfrom, reverse_inj]

structure Mergeable (e f : CodEntry) : Prop where
  linkName : e.linkName = f.linkName
  subset : e.linkName.isSome → e.subset = f.subset
  ruleMode : e.ruleMode = f.ruleMode
  audit : e.audit.eq f.audit = true
  priority : e.priority = f.priority
  name : e.name = f.name

theorem linkComp_eq_zero {e f : CodEntry} :
    linkComp e f = 0 ↔ e.linkName = f.linkName ∧ (e.linkName.isSome → e.subset = f.subset) := by
  have hsub : ((if f.subset then 1 else 0) - (if e.subset then 1 else 0) : ℤ) = 0 ↔ e.subset = f.subset := by
    cases e.subset <;> cases f.subset <;> decide
  unfold linkComp
  cases e.linkName with
  | none => cases f.linkName <;> simp
  | some l =>
    cases f.linkName with
    | none => simp
    | some l' =>
      dsimp only
      by_cases hl : strrcmp l l' = 0
      · rw [if_neg (not_not.mpr hl), hsub]
        simp [strrcmp_eq_zero.mp hl]
      · rw [if_pos hl]
        simp [hl, mt strrcmp_eq_zero.mpr hl]

theorem fileComp_eq_zero {e f : CodEntry} : fileComp e f = 0 ↔ Mergeable e f := by
  unfold fileComp
  constructor
  · intro h
    split_ifs at h with hlink hmode hmode' haudit haudit' hpriority
    · exact absurd h hlink
    · cases h
    · cases h
    · exact absurd (by omega) hpriority
    · obtain ⟨hname, hsubset⟩ := linkComp_eq_zero.mp (not_not.mp hlink)
      exact ⟨hname, hsubset, not_not.mp hmode, by simpa using haudit, not_not.mp hpriority, strrcmp_eq_zero.mp h⟩
  · rintro ⟨hname, hsubset, hmode, haudit, hpriority, hn⟩
    rw [if_neg (not_not.mpr (linkComp_eq_zero.mpr ⟨hname, hsubset⟩)), if_neg (not_not.mpr hmode), if_neg (by simpa using haudit),
      if_neg (not_not.mpr hpriority)]
    exact strrcmp_eq_zero.mpr hn

section Linear

variable {e : CodEntry} {first : Text} {others : List Text} {rule : Perm32 → Option (List RuleVec)}
  {g : Perm32 → Perm32} {mask : Perm32}

theorem grants_or (t : Tree) (us : List Tree) (p q a b : Perm32) :
    RuleVec.grants ⟨e.priority, e.ruleMode, p ||| q, a ||| b, t, us, false⟩ =
      RuleVec.grants ⟨e.priority, e.ruleMode, p, a, t, us, false⟩ ∪
        RuleVec.grants ⟨e.priority, e.ruleMode, q, b, t, us, false⟩ := by
  ext g
  simp only [RuleVec.grants, RuleVec.tree, Set.mem_ofPred_eq, Set.mem_union]
  cases g.audited <;> simp <;> tauto

theorem grantsOf_addRuleVec (e : CodEntry) (first : Text) (others : List Text) (p q a b : Perm32) :
    grantsOf ((e.addRuleVec (p ||| q) (a ||| b) first others).map ([·])) =
      grantsOf ((e.addRuleVec p a first others).map ([·])) ⊔ grantsOf ((e.addRuleVec q b first others).map ([·])) := by
  unfold CodEntry.addRuleVec
  cases regexTree first with
  | none => rfl
  | some t =>
    cases others.mapM regexTree with
    | none => rfl
    | some us =>
      have hone : ∀ r : RuleVec, MergeWalk.total RuleVec.grants [r] = r.grants := fun r => sup_bot_eq _
      change WithTop.some (MergeWalk.total RuleVec.grants [_]) = WithTop.some (MergeWalk.total RuleVec.grants [_] ⊔
        MergeWalk.total RuleVec.grants [_])
      rw [hone, hone, hone, grants_or]
      rfl

theorem guarded_or (hrule : ∀ x y, grantsOf (rule (x ||| y)) = grantsOf (rule x) ⊔ grantsOf (rule y))
    (hg : ∀ x y, g (x ||| y) = g x ||| g y) (hzero : ∀ x, hits x mask = false → g x = 0) (p q : Perm32) :
    grantsOf (if hits (p ||| q) mask then rule (g (p ||| q)) else some []) =
      grantsOf (if hits p mask then rule (g p) else some []) ⊔ grantsOf (if hits q mask then rule (g q) else some []) := by
  rw [hits_or, hg]
  cases hp : hits p mask with
  | true =>
    cases hq : hits q mask with
    | true => exact hrule _ _
    | false =>
      rw [hzero q hq]
      simp
  | false =>
    rw [hzero p hp]
    cases hq : hits q mask <;> simp

end Linear

section Entries

variable {stacking : Bool} {e f : CodEntry} {tbuf : Text} {p q : Perm32}

theorem and_eq_zero_of_not_hits {x m : Perm32} (h : hits x m = false) : x &&& m = 0 := by simpa [hits] using h

def auditedRule (e : CodEntry) (first : Text) (others : List Text) (a : Perm32 → Perm32) (x : Perm32) :
    Option (List RuleVec) :=
  (e.addRuleVec x (if e.audit.isForce then a x else 0) first others).map ([·])

theorem auditedRule_or (e : CodEntry) (first : Text) (others : List Text) {a : Perm32 → Perm32}
    (ha : ∀ x y, a (x ||| y) = a x ||| a y) (x y : Perm32) :
    grantsOf (auditedRule e first others a (x ||| y)) =
      grantsOf (auditedRule e first others a x) ⊔ grantsOf (auditedRule e first others a y) := by
  unfold auditedRule
  rw [← grantsOf_addRuleVec, ha]
  cases e.audit.isForce <;> simp

theorem isChangeProfilePerms_or (h : isChangeProfilePerms p = isChangeProfilePerms q) :
    isChangeProfilePerms (p ||| q) = isChangeProfilePerms q := by
  rw [isChangeProfilePerms, hits_or]
  change (isChangeProfilePerms p || isChangeProfilePerms q) = _
  rw [h, Bool.or_self]

theorem addFileRule_or (h : isChangeProfilePerms p = isChangeProfilePerms q) :
    grantsOf (CodEntry.addFileRule { e with perms := p ||| q } tbuf) =
      grantsOf (CodEntry.addFileRule { e with perms := p } tbuf) ⊔
        grantsOf (CodEntry.addFileRule { e with perms := q } tbuf) := by
  have hrule := @auditedRule_or e tbuf [] (fun x => x) (fun _ _ => rfl)
  unfold CodEntry.addFileRule
  dsimp only
  rw [isChangeProfilePerms_or h, h]
  cases isChangeProfilePerms q with
  | true => exact (sup_idem _).symm
  | false =>
    rw [if_neg Bool.false_ne_true, if_neg Bool.false_ne_true, if_neg Bool.false_ne_true]
    by_cases hdeny : e.ruleMode = .deny
    · rw [if_pos hdeny, if_pos hdeny, if_pos hdeny]
      refine guarded_or hrule (g := (· &&& ~~~(linkBits ||| changeProfile)))
        (fun x y => BitVec.and_or_distrib_right) (fun x hx => ?_) p q
      have hzero := and_eq_zero_of_not_hits hx
      rw [BitVec.not_or, ← BitVec.and_assoc, hzero]
      exact BitVec.zero_and
    · rw [if_neg hdeny, if_neg hdeny, if_neg hdeny]
      exact hrule p q

def linkPerms (subset : Bool) (p : Perm32) : Perm32 :=
  if subset then (linkBits &&& p) ||| linkToLinkSubset (linkBits &&& p) else linkBits &&& p

theorem linkPerms_or (subset : Bool) (p q : Perm32) :
    linkPerms subset (p ||| q) = linkPerms subset p ||| linkPerms subset q := by
  have hdist : linkBits &&& (p ||| q) = (linkBits &&& p) ||| (linkBits &&& q) := and_or_distrib_left
  unfold linkPerms linkToLinkSubset
  cases subset with
  | false => exact hdist
  | true =>
    rw [if_pos rfl, if_pos rfl, if_pos rfl, hdist, shiftLeft_or_distrib, and_or_distrib_right]
    ac_rfl

theorem addLinkRule_or :
    grantsOf (CodEntry.addLinkRule { e with perms := p ||| q } tbuf) =
      grantsOf (CodEntry.addLinkRule { e with perms := p } tbuf) ⊔
        grantsOf (CodEntry.addLinkRule { e with perms := q } tbuf) := by
  have hzero : ∀ subset x, hits x linkBits = false → linkPerms subset x = 0 := by
    intro subset x hx
    have hand : linkBits &&& x = 0 := by
      rw [BitVec.and_comm]
      exact and_eq_zero_of_not_hits hx
    unfold linkPerms
    rw [hand]
    cases subset <;> rfl
  have hrule := fun lbuf => @auditedRule_or e tbuf [lbuf] (· &&& linkBits) fun x y => BitVec.and_or_distrib_right
  cases htarget : e.linkTarget.1 with
  | none =>
    have hlink : ∀ x, CodEntry.addLinkRule { e with perms := x } tbuf = if hits x linkBits then none else some [] := by
      intro x
      change (if hits x linkBits then e.linkTarget.1.bind _ else _) = _
      rw [htarget]
      rfl
    rw [hlink, hlink, hlink]
    exact @guarded_or (fun _ => none) _ _ (fun _ _ => rfl) (linkPerms_or true) (hzero true) p q
  | some lbuf =>
    have hlink : ∀ x, CodEntry.addLinkRule { e with perms := x } tbuf =
        if hits x linkBits then auditedRule e tbuf [lbuf] (· &&& linkBits) (linkPerms e.linkTarget.2 x) else some [] := by
      intro x
      change (if hits x linkBits then e.linkTarget.1.bind _ else _) = _
      rw [htarget]
      rfl
    rw [hlink, hlink, hlink]
    exact guarded_or (hrule lbuf) (linkPerms_or e.linkTarget.2) (hzero e.linkTarget.2) p q

theorem grantsOf_three (x y z : Option RuleVec) :
    grantsOf (do return [← x, ← y, ← z]) =
      grantsOf (x.map ([·])) ⊔ grantsOf (y.map ([·])) ⊔ grantsOf (z.map ([·])) := by
  rw [← grantsOf_bind, ← grantsOf_bind]
  cases x <;> cases y <;> cases z <;> rfl

theorem addChangeProfileRules_or (h : isChangeProfilePerms p = isChangeProfilePerms q) :
    grantsOf (CodEntry.addChangeProfileRules stacking { e with perms := p ||| q } tbuf) =
      grantsOf (CodEntry.addChangeProfileRules stacking { e with perms := p } tbuf) ⊔
        grantsOf (CodEntry.addChangeProfileRules stacking { e with perms := q } tbuf) := by
  unfold CodEntry.addChangeProfileRules
  dsimp only
  rw [isChangeProfilePerms_or h, h]
  cases isChangeProfilePerms q with
  | false => exact (sup_idem _).symm
  | true =>
    rw [if_pos rfl, if_pos rfl, if_pos rfl]
    change grantsOf (e.onexecPattern.bind _) = grantsOf (e.onexecPattern.bind _) ⊔ grantsOf (e.onexecPattern.bind _)
    cases e.onexecPattern with
    | none => rfl
    | some exec =>
      cases CodEntry.profileTarget stacking tbuf with
      | none => rfl
      | some target =>
        have hperms : ∀ m : Perm32, onexec ||| ((p ||| q) &&& m) = (onexec ||| (p &&& m)) ||| (onexec ||| (q &&& m)) := by
          intro m
          rw [and_or_distrib_right]
          ext i
          simp only [getElem_or]
          cases onexec[i] <;> simp
        have hpair := grantsOf_addRuleVec e exec (target.1 :: target.2)
          (onexec ||| (p &&& (execBits ||| allExecUnsafe))) (onexec ||| (q &&& (execBits ||| allExecUnsafe))) 0 0
        rw [← hperms] at hpair
        refine (grantsOf_three _ _ _).trans ?_
        refine Eq.trans ?_ (congrArg₂ (· ⊔ ·) (grantsOf_three _ _ _) (grantsOf_three _ _ _)).symm
        refine (congrArg (_ ⊔ ·) hpair).trans ?_
        exact sup_sup_distrib_left _ _ _

theorem process_or (h : isChangeProfilePerms p = isChangeProfilePerms q) :
    grantsOf (CodEntry.process stacking { e with perms := p ||| q }) =
      grantsOf (CodEntry.process stacking { e with perms := p }) ⊔
        grantsOf (CodEntry.process stacking { e with perms := q }) := by
  rw [grantsOf_process, grantsOf_process, grantsOf_process]
  dsimp only
  rw [isChangeProfilePerms_or h, h]
  cases convertEntry (if isChangeProfilePerms q then e.name else filterSlashes e.name) with
  | none => rfl
  | some tbuf =>
    dsimp only
    rw [addFileRule_or h, addLinkRule_or, addChangeProfileRules_or h, sup_sup_sup_comm (grantsOf _) (grantsOf _),
      sup_sup_sup_comm (grantsOf _ ⊔ grantsOf _)]

theorem isForce_of_eq {a b : AuditT} (h : a.eq b = true) : a.isForce = b.isForce := by
  cases a <;> cases b <;> revert h <;> decide

theorem Mergeable.process (h : Mergeable e f) :
    f.process stacking = CodEntry.process stacking { e with perms := f.perms } := by
  obtain ⟨priority, name, link, perms, audit, mode, subset⟩ := e
  obtain ⟨priority', name', link', perms', audit', mode', subset'⟩ := f
  obtain ⟨hlink, hsubset, hmode, haudit, hpriority, hname⟩ := h
  dsimp only at hlink hsubset hmode haudit hpriority hname ⊢
  subst hlink hmode hpriority hname
  have htarget : CodEntry.linkTarget ⟨priority, name, link, perms', audit', mode, subset'⟩ =
      CodEntry.linkTarget ⟨priority, name, link, perms', audit, mode, subset⟩ := by
    cases link with
    | none => rfl
    | some link =>
      rw [hsubset rfl]
      rfl
  unfold CodEntry.process CodEntry.addFileRule CodEntry.addLinkRule
  rw [htarget, isForce_of_eq haudit]
  rfl

def SeparateProfiles (es : List CodEntry) : Prop :=
  ∀ e ∈ es, ∀ f ∈ es, fileComp e f = 0 → isChangeProfilePerms e.perms = isChangeProfilePerms f.perms

instance (es : List CodEntry) : Decidable (SeparateProfiles es) :=
  inferInstanceAs (Decidable (∀ e ∈ es, ∀ f ∈ es, fileComp e f = 0 → _))

theorem mergeFile_total (stacking : Bool) (qsort : QSort) {es es' : List CodEntry} (hes : SeparateProfiles es)
    (h : mergeFile qsort es = some es') : MergeWalk.total (fun e => grantsOf (e.process stacking)) es' =
      MergeWalk.total (fun e => grantsOf (e.process stacking)) es := by
  unfold mergeFile at h
  split_ifs at h with hlen
  · rw [Option.some.inj h]
  have hperm := qsort.perm es
  rw [← MergeWalk.total_perm hperm]
  cases hsort : qsort.sort es with
  | nil =>
    rw [hsort] at h
    rw [← Option.some.inj h]
  | cons cur rest =>
    rw [hsort] at h hperm
    -- an entry has the permissions of some entries, and all else from one of the list
    refine MergeWalk.walk_total _ _ (P := fun e => ∃ e₀ ∈ es, e = { e₀ with perms := e.perms } ∧
      isChangeProfilePerms e.perms = isChangeProfilePerms e₀.perms) ?_ ?_ ?_ h
    · rintro a b c ⟨a₀, ha₀, ha, hpa⟩ ⟨b₀, hb₀, hb, hpb⟩ hsame hmerge
      have hab : Mergeable a b := fileComp_eq_zero.mp (of_decide_eq_true hsame)
      have hab₀ : Mergeable a₀ b₀ := by
        rw [ha, hb] at hab
        exact ⟨hab.linkName, hab.subset, hab.ruleMode, hab.audit, hab.priority, hab.name⟩
      have hcp : isChangeProfilePerms a.perms = isChangeProfilePerms b.perms := by
        rw [hpa, hpb]
        exact hes a₀ ha₀ b₀ hb₀ (fileComp_eq_zero.mpr hab₀)
      unfold mergeEntries at hmerge
      split_ifs at hmerge
      obtain rfl := Option.some.inj hmerge
      refine ⟨⟨a₀, ha₀, ?_, ?_⟩, ?_⟩
      · rw [ha]
      · rw [← hpa, hcp]
        exact isChangeProfilePerms_or hcp
      · rw [hab.process, process_or hcp]
    · exact ⟨cur, hperm.mem_iff.mp mem_cons_self, rfl, rfl⟩
    · exact fun e he => ⟨e, hperm.mem_iff.mp (mem_cons_of_mem _ he), rfl, rfl⟩

theorem mergeFile_grants (stacking : Bool) (qsort : QSort) {es es' : List CodEntry} (hes : SeparateProfiles es)
    (h : mergeFile qsort es = some es') :
    grantsOf (processEntries stacking es') = grantsOf (processEntries stacking es) := by
  rw [grantsOf_processEntries, mergeFile_total stacking qsort hes h, grantsOf_processEntries]

end Entries

def keepOrder : QSort := ⟨id, fun _ => .refl _⟩

theorem readWrite_merged : ∃ es',
    mergeFile keepOrder [newEntry "/foo".toList mayRead none, newEntry "/foo".toList mayWrite none] = some es' ∧
      grantsOf (processEntries true es') = grantsOf (processEntries true
        [newEntry "/foo".toList mayRead none, newEntry "/foo".toList mayWrite none]) :=
  ⟨[newEntry "/foo".toList (mayRead ||| mayWrite) none], by decide +kernel,
    mergeFile_grants true keepOrder (by decide +kernel) (by decide +kernel)⟩

deriving instance DecidableEq for RuleVec

def fooTree : Tree :=
  .cat (.cat (.cat (.cnode (.char 47)) (.cnode (.char 102))) (.cnode (.char 111))) (.cnode (.char 111))

def anyExecTree : Tree :=
  .cat (.cat (.cnode (.char 47)) (.cnode (wildLeaf .default))) (.star (.cnode (anyLeaf .default)))

def fooProfileRules : List RuleVec :=
  [⟨0, .unspecified, changeProfile ||| onexec, 0, fooTree, [], false⟩,
    ⟨0, .unspecified, onexec, 0, anyExecTree, [], false⟩, ⟨0, .unspecified, onexec, 0, anyExecTree, [fooTree], false⟩]

/-- A rule for a file and a change_profile rule to a profile of the same name are merged, and the file can no longer be
read. -/
theorem merged_profile_loses_read :
    mergeFile keepOrder [newEntry "/foo".toList mayRead none, newEntry "/foo".toList changeProfile none] =
        some [newEntry "/foo".toList (mayRead ||| changeProfile) none] ∧
      ∃ rs rs', processEntries true [newEntry "/foo".toList mayRead none, newEntry "/foo".toList changeProfile none] =
          some rs ∧
        processEntries true [newEntry "/foo".toList (mayRead ||| changeProfile) none] = some rs' ∧
        ∃ g, g ∈ MergeWalk.total RuleVec.grants rs ∧ g ∉ MergeWalk.total RuleVec.grants rs' := by
  refine ⟨by decide +kernel, ⟨0, .unspecified, mayRead, 0, fooTree, [], false⟩ :: fooProfileRules, fooProfileRules,
    by decide +kernel, by decide +kernel, ⟨[47, 102, 111, 111], 0, .unspecified, true, false, 2⟩, ?_, ?_⟩
  · rw [mem_total_grants]
    exact ⟨_, mem_cons_self, Tree.matchBytes_iff.mp (by decide +kernel), rfl, rfl, rfl, rfl⟩
  · rw [mem_total_grants]
    rintro ⟨r, hr, -, -, -, -, hbit⟩
    have hnone : ∀ r ∈ fooProfileRules, r.perms.getLsbD 2 = false := by decide
    change r.perms.getLsbD 2 = true at hbit
    rw [hnone r hr] at hbit
    cases hbit

end AppArmor

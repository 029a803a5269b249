import AppArmor.Lib.Dict
import AppArmor.Utils.LogEvent
import AppArmor.Utils.Ruleset
import Mathlib

namespace AppArmor.Utils

open List

inductive SockKey
  | ip
  | port
  | interface
  | label
  | addr
  | attr
  | opt
  | type
  | protocol
  deriving DecidableEq

structure CondDict where
  items : List (SockKey × Text)
  functional : Functional items
  line : ∀ item ∈ items, '\n' ∉ item.2

abbrev Conds := Option CondDict

def isCoveredPlain (self other : Text) : Option Bool := if other = [] then none else some (self = other)

def isCoveredField : Option Text → Option Text → Option Bool
  | _, some [] => none
  | none, _ => some true
  | some _, none => some false
  | some v, some w => some (v = w)

def isCoveredList (self other : Option (Finset Text)) : Option Bool :=
  if other = some ∅ then none
  else
    match self, other with
    | none, _ => some true
    | some _, none => some false
    | some s, some t => some (t ⊆ s)

def coveredItems (value : Text → Text → Option Bool) (d : List (SockKey × Text)) : List (SockKey × Text) → Option Bool
  | [] => some true
  | item :: other =>
    match d.lookup item.1 with
    -- a condition of `d` that `other` has not is never looked at
    | none => coveredItems value d other
    | some v => (value v item.2).bind fun b => if b then coveredItems value d other else some false

def isCoveredDict (value : Text → Text → Option Bool) : Conds → Conds → Option Bool
  | none, _ => some true
  | some _, none => some false
  | some d, some other => coveredItems value d.items other.items

def andAlso (a : Option Bool) (b : Option Bool) : Option Bool := a.bind fun x => if x then b else some false

structure NetworkLocals where
  accesses : Option (Finset Text)
  domain : Option Text
  typeOrProtocol : Option Text
  localExpr : Conds
  peerExpr : Conds

def NetworkLocals.isCovered (self other : NetworkLocals) : Option Bool :=
  andAlso (isCoveredList self.accesses other.accesses) <|
  andAlso (isCoveredField self.domain other.domain) <|
  andAlso (isCoveredField self.typeOrProtocol other.typeOrProtocol) <|
  andAlso (isCoveredDict isCoveredPlain self.localExpr other.localExpr) <|
  isCoveredDict isCoveredPlain self.peerExpr other.peerExpr

structure UnixLocals where
  accesses : Option (Finset Text)
  ruleConds : Conds
  localExpr : Conds
  peerExpr : Conds

def isCoveredPattern (self other : Text) : Option Bool := (Aare.new self).matchAare (Aare.new other)

def UnixLocals.isCovered (self other : UnixLocals) : Option Bool :=
  andAlso (isCoveredList self.accesses other.accesses) <|
  andAlso (isCoveredDict isCoveredPattern self.ruleConds other.ruleConds) <|
  andAlso (isCoveredDict isCoveredPattern self.localExpr other.localExpr) <|
  isCoveredDict isCoveredPattern self.peerExpr other.peerExpr

/-! ### Socket operations -/

/-- An operation on a socket: the access, the domain, type and protocol, and the values that conditions are about. -/
structure SockOp where
  access : Text
  domain : Text
  kinds : Finset Text
  rule : SockKey → Text
  here : SockKey → Text
  peer : SockKey → Text

section Meaning

variable (meets : SockKey → Text → Text → Prop)

def Conds.Met (conds : Conds) (values : SockKey → Text) : Prop :=
  ∀ d, conds = some d → ∀ item ∈ d.items, meets item.1 item.2 (values item.1)

structure NetworkLocals.Allows (r : NetworkLocals) (op : SockOp) : Prop where
  access : ∀ s, r.accesses = some s → op.access ∈ s
  domain : ∀ x, r.domain = some x → op.domain = x
  kind : ∀ x, r.typeOrProtocol = some x → x ∈ op.kinds
  here : r.localExpr.Met meets op.here
  peer : r.peerExpr.Met meets op.peer

structure UnixLocals.Allows (r : UnixLocals) (op : SockOp) : Prop where
  access : ∀ s, r.accesses = some s → op.access ∈ s
  rule : r.ruleConds.Met meets op.rule
  here : r.localExpr.Met meets op.here
  peer : r.peerExpr.Met meets op.peer

end Meaning

def Matches (_ : SockKey) (pattern value : Text) : Prop := (Aare.new pattern).matchText value = some true

def Conds.KeysIn (self other : Conds) : Prop :=
  ∀ d, self = some d → ∃ o, other = some o ∧ ∀ item ∈ d.items, ∃ v, (item.1, v) ∈ o.items

section Sound

variable {value : Text → Text → Option Bool} {meets : SockKey → Text → Text → Prop} {self other : Conds}
  {values : SockKey → Text}

theorem andAlso_eq_true {a b : Option Bool} (h : andAlso a b = some true) : a = some true ∧ b = some true := by
  rw [andAlso, Option.bind_eq_some_iff] at h
  obtain ⟨x, hx, hb⟩ := h
  cases x with
  | true => exact ⟨hx, hb⟩
  | false => cases hb

variable {s t : Option (Finset Text)}

theorem isCoveredList_mem (h : isCoveredList s t = some true) {x : Text}
    (hx : ∀ u, t = some u → x ∈ u) : ∀ u, s = some u → x ∈ u := by
  rintro u rfl
  unfold isCoveredList at h
  split_ifs at h
  cases t with
  | none => cases h
  | some t => exact of_decide_eq_true (Option.some.inj h) (hx t rfl)

theorem isCoveredField_eq {s t : Option Text} (h : isCoveredField s t = some true) {v : Text} (hv : s = some v) :
    t = some v := by
  subst hv
  cases t with
  | none => cases h
  | some w =>
    cases w with
    | nil => cases h
    | cons c w =>
      rw [of_decide_eq_true (Option.some.inj h)]

theorem coveredItems_value {d o : List (SockKey × Text)} (h : coveredItems value d o = some true)
    {k : SockKey} {v w : Text} (hv : d.lookup k = some v) (hw : (k, w) ∈ o) : value v w = some true := by
  induction o with
  | nil => exact absurd hw not_mem_nil
  | cons item o ih =>
    rw [coveredItems] at h
    rcases mem_cons.mp hw with rfl | hw
    · rw [hv] at h
      obtain ⟨b, hb, h⟩ := Option.bind_eq_some_iff.mp h
      cases b with
      | true => exact hb
      | false => cases h
    · apply ih ?_ hw
      cases hl : d.lookup item.1 with
      | none =>
        rw [hl] at h
        exact h
      | some u =>
        rw [hl] at h
        obtain ⟨b, -, h⟩ := Option.bind_eq_some_iff.mp h
        cases b with
        | true => exact h
        | false => cases h

theorem isCoveredDict_met (hvalue : ∀ o, other = some o → ∀ item ∈ o.items, ∀ v, value v item.2 = some true →
      meets item.1 item.2 (values item.1) → meets item.1 v (values item.1))
    (h : isCoveredDict value self other = some true) (hkeys : self.KeysIn other) (hmet : other.Met meets values) :
    self.Met meets values := by
  rintro d rfl item hitem
  obtain ⟨o, rfl, hall⟩ := hkeys d rfl
  obtain ⟨w, hw⟩ := hall item hitem
  have hlook : d.items.lookup item.1 = some item.2 := d.functional.lookup_eq hitem
  exact hvalue o rfl _ hw _ (coveredItems_value h hlook hw) (hmet o rfl _ hw)

theorem isCoveredList_exists (h : isCoveredList s t = some true) :
    ∃ x : Text, ∀ u, t = some u → x ∈ u := by
  unfold isCoveredList at h
  split_ifs at h with hempty
  cases t with
  | none => exact ⟨[], by simp⟩
  | some t =>
    have hne : t ≠ ∅ := fun he => hempty (congrArg some he)
    obtain ⟨x, hx⟩ := Finset.nonempty_iff_ne_empty.mpr hne
    refine ⟨x, ?_⟩
    rintro u hu
    exact Option.some.inj hu ▸ hx

theorem isCoveredDict_some {d : CondDict} (h : isCoveredDict value (some d) other = some true) : ∃ o, other = some o := by
  cases other with
  | none => cases h
  | some o => exact ⟨o, rfl⟩

theorem BaseRule.isCovered_localvars {ρ : Type} {localCovered : ρ → ρ → Option Bool} {a b : BaseRule ρ} {x y z : Bool}
    (h : a.isCovered localCovered b x y z = some true) : localCovered a.localvars b.localvars = some true := by
  rw [BaseRule.isCovered] at h
  split_ifs at h
  all_goals first | exact h | cases h

end Sound

section Network

variable {a b : NetworkLocals}

theorem NetworkLocals.isCovered_fields (h : a.isCovered b = some true) :
    isCoveredList a.accesses b.accesses = some true ∧ isCoveredField a.domain b.domain = some true ∧
      isCoveredField a.typeOrProtocol b.typeOrProtocol = some true ∧
      isCoveredDict isCoveredPlain a.localExpr b.localExpr = some true ∧
      isCoveredDict isCoveredPlain a.peerExpr b.peerExpr = some true := by
  obtain ⟨haccess, h⟩ := andAlso_eq_true h
  obtain ⟨hdomain, h⟩ := andAlso_eq_true h
  obtain ⟨hkind, h⟩ := andAlso_eq_true h
  obtain ⟨hhere, hpeer⟩ := andAlso_eq_true h
  exact ⟨haccess, hdomain, hkind, hhere, hpeer⟩

theorem isCoveredPlain_eq {v w : Text} (h : isCoveredPlain v w = some true) : v = w := by
  rw [isCoveredPlain] at h
  split_ifs at h
  exact of_decide_eq_true (Option.some.inj h)

theorem NetworkLocals.allows_of_keysIn (h : a.isCovered b = some true) (hhere : a.localExpr.KeysIn b.localExpr)
    (hpeer : a.peerExpr.KeysIn b.peerExpr) {meets : SockKey → Text → Text → Prop} {op : SockOp} (hb : b.Allows meets op) :
    a.Allows meets op := by
  obtain ⟨caccess, cdomain, ckind, chere, cpeer⟩ := NetworkLocals.isCovered_fields h
  have hvalue : ∀ (item : SockKey × Text) (v x : Text), isCoveredPlain v item.2 = some true →
      meets item.1 item.2 x → meets item.1 v x := fun item v x hv hm => isCoveredPlain_eq hv ▸ hm
  refine ⟨isCoveredList_mem caccess hb.access, ?_, ?_, ?_, ?_⟩
  · exact fun x hx => hb.domain x (isCoveredField_eq cdomain hx)
  · exact fun x hx => hb.kind x (isCoveredField_eq ckind hx)
  · exact isCoveredDict_met (fun _ _ item _ v => hvalue item v _) chere hhere hb.here
  · exact isCoveredDict_met (fun _ _ item _ v => hvalue item v _) cpeer hpeer hb.peer

open Classical in
noncomputable def onlyFor (conds : Conds) (k : SockKey) : Text :=
  if ∃ o, conds = some o ∧ ∃ v, (k, v) ∈ o.items then ['x'] else []

def isPresent (_ : SockKey) (_ value : Text) : Prop := value ≠ []

theorem met_onlyFor (conds : Conds) : conds.Met isPresent (onlyFor conds) := by
  rintro o rfl item hitem
  rw [isPresent, onlyFor, if_pos ⟨o, rfl, item.2, hitem⟩]
  exact cons_ne_nil _ _

theorem keysIn_of_met {value : Text → Text → Option Bool} {self other : Conds} (h : isCoveredDict value self other = some true)
    (hmet : self.Met isPresent (onlyFor other)) : self.KeysIn other := by
  rintro d rfl
  obtain ⟨o, rfl⟩ := isCoveredDict_some h
  refine ⟨o, rfl, ?_⟩
  intro item hitem
  by_contra hno
  apply hmet d rfl item hitem
  rw [onlyFor, if_neg]
  rintro ⟨o', ho, v, hv⟩
  rw [← Option.some.inj ho] at hv
  exact hno ⟨v, hv⟩

theorem NetworkLocals.keysIn_of_allows (h : a.isCovered b = some true)
    (hall : ∀ op, b.Allows isPresent op → a.Allows isPresent op) :
    a.localExpr.KeysIn b.localExpr ∧ a.peerExpr.KeysIn b.peerExpr := by
  obtain ⟨caccess, -, -, chere, cpeer⟩ := NetworkLocals.isCovered_fields h
  obtain ⟨access, haccess⟩ := isCoveredList_exists caccess
  have hb : b.Allows isPresent ⟨access, b.domain.getD [], b.typeOrProtocol.toFinset, fun _ => [],
      onlyFor b.localExpr, onlyFor b.peerExpr⟩ := by
    refine ⟨haccess, ?_, ?_, met_onlyFor _, met_onlyFor _⟩
    · exact fun x hx => by rw [hx]; rfl
    · exact fun x hx => by simp [hx]
  have ha := hall _ hb
  exact ⟨keysIn_of_met chere ha.here, keysIn_of_met cpeer ha.peer⟩

end Network

section Unix

variable {a b : UnixLocals} {v w x : Text}

def Conds.Unmarked (conds : Conds) : Prop := ∀ d, conds = some d → ∀ item ∈ d.items, ¬ multiGlob <:+: item.2

theorem isStripped_of_isAlphanum {c : Char} (h : c.isAlphanum = true) : isStripped c = false := by
  have hbounds : 48 ≤ c.toNat ∧ c.toNat ≤ 122 := by
    simp only [Char.isAlphanum, Char.isAlpha, Char.isUpper, Char.isLower, Char.isDigit, Bool.or_eq_true, Bool.and_eq_true,
      decide_eq_true_eq, ge_iff_le, UInt32.le_iff_toNat_le] at h
    simp at h
    omega
  rw [isStripped, decide_eq_false_iff_not]
  simp only [mem_cons, not_mem_nil, or_false]
  omega

theorem plainText_of_isPlainPath (h : isPlainPath w = true) (hline : '\n' ∉ w) (hmark : ¬ multiGlob <:+: w) :
    PlainText w ∧ convertExpressionToAare w = w := by
  have hchars : ∀ c ∈ w, c.isAlphanum = true ∨ c ∈ ['/', '.', '_', '-'] := by
    rw [isPlainPath, Bool.or_eq_true] at h
    rcases h with h | h
    · rw [Bool.and_eq_true, all_eq_true] at h
      intro c hc
      have := h.2 c hc
      simpa using this
    · rw [Bool.and_eq_true, decide_eq_true_iff] at h
      exact absurd (mem_of_getLast? h.1) hline
  have hfree : ∀ c ∈ w, ∀ l : List Char, (l.all fun x => !(x.isAlphanum || ['/', '.', '_', '-'].contains x)) = true → c ∉ l := by
    intro c hc l hl hcl
    have hno := all_eq_true.mp hl c hcl
    rcases hchars c hc with hal | hmem
    · simp [hal] at hno
    · rw [contains_iff_mem.mpr hmem, Bool.or_true] at hno
      cases hno
  have hstripped : ∀ c ∈ w, isStripped c = false := by
    intro c hc
    rcases hchars c hc with hal | hmem
    · exact isStripped_of_isAlphanum hal
    · have hall : (['/', '.', '_', '-'].all fun c => isStripped c = false) = true := by decide
      exact forall_mem_of_all hall c hmem
  refine ⟨⟨⟨?_, hmark⟩, ?_, ?_, ?_, ?_⟩, ?_⟩
  · rintro a b c rfl
    exact absurd mem_cons_self (hfree '{' (by simp) ['{'] (by decide))
  · exact fun c hc => hfree c hc _ (by decide)
  · intro c _ hin
    have hb : '\\' ∈ w := hin.subset mem_cons_self
    exact hfree _ hb ['\\'] (by decide) mem_cons_self
  · exact fun c hc => hstripped c (mem_of_head? hc)
  · intro c hc
    have hmem := mem_of_getLast? hc
    refine ⟨hstripped c hmem, ?_⟩
    rintro rfl
    exact hfree _ hmem ['$'] (by decide) mem_cons_self
  · exact convertExpressionToAare_self fun c hc => hfree c hc _ (by decide)

theorem isCoveredPattern_matches {k : SockKey} (hline : '\n' ∉ w) (hmark : ¬ multiGlob <:+: w)
    (h : isCoveredPattern v w = some true) (hx : Matches k w x) : Matches k v x := by
  have hcase : isCoveredPattern v w = if isPlainPath w then (Aare.new v).matchText w else some (v = w) := rfl
  rw [hcase] at h
  split_ifs at h with hplain
  · obtain ⟨htext, hself⟩ := plainText_of_isPlainPath hplain hline hmark
    have hex := matches_plain htext x none
    rw [hself] at hex
    have hor : x = w ∨ x = w ++ ['\n'] := of_decide_eq_true (Option.some.inj (hex.symm.trans hx))
    rcases hor with rfl | rfl
    · exact h
    · -- the dollar at the end does not see the newline
      rw [Aare.matchText, Option.map_eq_some_iff] at h
      obtain ⟨r, hr, hm⟩ := h
      rw [Matches, Aare.matchText, hr, Option.map_some, PyRe.matchStart_withNewline hline hm]
  · rw [of_decide_eq_true (Option.some.inj h)]
    exact hx

theorem UnixLocals.allows_of_keysIn (h : a.isCovered b = some true) (hrule : a.ruleConds.KeysIn b.ruleConds)
    (hhere : a.localExpr.KeysIn b.localExpr) (hpeer : a.peerExpr.KeysIn b.peerExpr)
    (hmark : b.ruleConds.Unmarked ∧ b.localExpr.Unmarked ∧ b.peerExpr.Unmarked) {op : SockOp} (hb : b.Allows Matches op) :
    a.Allows Matches op := by
  obtain ⟨caccess, h⟩ := andAlso_eq_true h
  obtain ⟨crule, h⟩ := andAlso_eq_true h
  obtain ⟨chere, cpeer⟩ := andAlso_eq_true h
  have hmet : ∀ {self other : Conds} {values : SockKey → Text}, isCoveredDict isCoveredPattern self other = some true →
      self.KeysIn other → other.Unmarked → other.Met Matches values → self.Met Matches values := by
    intro self other values hcov hkeys hun
    refine isCoveredDict_met ?_ hcov hkeys
    intro o ho item hitem v
    exact isCoveredPattern_matches (o.line item hitem) (hun o ho item hitem)
  exact ⟨isCoveredList_mem caccess hb.access, hmet crule hrule hmark.1 hb.rule, hmet chere hhere hmark.2.1 hb.here,
    hmet cpeer hpeer hmark.2.2 hb.peer⟩

end Unix

/-- A covered network rule is contained if and only if each condition of the covering rule has one of the same key in it;
so is a covered unix rule if it has. -/
theorem isCovered_contains (x y z : Bool) :
    (∀ a b : BaseRule NetworkLocals, a.isCovered NetworkLocals.isCovered b x y z = some true →
      ((∀ meets op, b.localvars.Allows meets op → a.localvars.Allows meets op) ↔
        a.localvars.localExpr.KeysIn b.localvars.localExpr ∧ a.localvars.peerExpr.KeysIn b.localvars.peerExpr)) ∧
    ∀ c d : BaseRule UnixLocals, c.isCovered UnixLocals.isCovered d x y z = some true →
      c.localvars.ruleConds.KeysIn d.localvars.ruleConds → c.localvars.localExpr.KeysIn d.localvars.localExpr →
      c.localvars.peerExpr.KeysIn d.localvars.peerExpr →
      d.localvars.ruleConds.Unmarked ∧ d.localvars.localExpr.Unmarked ∧ d.localvars.peerExpr.Unmarked →
      ∀ op, d.localvars.Allows Matches op → c.localvars.Allows Matches op := by
  refine ⟨fun a b hab => ⟨fun hall => ?_, fun hkeys meets op hb => ?_⟩, fun c d hcd hrule hhere hpeer hmark op hd => ?_⟩
  · exact NetworkLocals.keysIn_of_allows (BaseRule.isCovered_localvars hab) (hall isPresent)
  · exact NetworkLocals.allows_of_keysIn (BaseRule.isCovered_localvars hab) hkeys.1 hkeys.2 hb
  · exact UnixLocals.allows_of_keysIn (BaseRule.isCovered_localvars hcd) hrule hhere hpeer hmark hd

def cond (k : SockKey) (v : Text) (h : '\n' ∉ v) : Conds :=
  some ⟨[(k, v)], fun _ _ _ ha hb => by simp_all, fun item hitem => by rw [List.mem_singleton.mp hitem]; exact h⟩

def networkRule (conds : Conds) : BaseRule NetworkLocals :=
  ⟨false, false, none, ⟨none, some "inet".toList, some "stream".toList, conds, none⟩⟩

def unixRule (conds : Conds) : BaseRule UnixLocals := ⟨false, false, none, ⟨some {"send".toList}, none, none, conds⟩⟩

def portRule : BaseRule NetworkLocals := networkRule (cond .port "80".toList (by decide))

def addrRule : BaseRule UnixLocals := unixRule (cond .addr "/run/a".toList (by decide))

def ipPortRule : BaseRule NetworkLocals :=
  networkRule (some ⟨[(.ip, "127.0.0.1".toList), (.port, "80".toList)], fun _ _ _ ha hb => by simp at ha hb; grind,
    forall_mem_of_all (by decide)⟩)

def anyAddrRule : BaseRule UnixLocals := unixRule (cond .addr "/run/*".toList (by decide))

theorem refined_rules_contained :
    (∀ meets op, ipPortRule.localvars.Allows meets op → portRule.localvars.Allows meets op) ∧
      ∀ op, addrRule.localvars.Allows Matches op → anyAddrRule.localvars.Allows Matches op := by
  have hall : ∀ conds : Conds, Conds.KeysIn none conds := fun _ d hd => by cases hd
  have hnone : Conds.Unmarked none := fun d hd => by cases hd
  have hport : portRule.localvars.localExpr.KeysIn ipPortRule.localvars.localExpr := by
    intro d hd
    refine ⟨_, rfl, ?_⟩
    rw [← Option.some.inj hd]
    intro item hitem
    rw [mem_singleton.mp hitem]
    exact ⟨"80".toList, mem_cons_of_mem _ mem_cons_self⟩
  have haddr : anyAddrRule.localvars.peerExpr.KeysIn addrRule.localvars.peerExpr := by
    intro d hd
    refine ⟨_, rfl, ?_⟩
    rw [← Option.some.inj hd]
    intro item hitem
    rw [mem_singleton.mp hitem]
    exact ⟨"/run/a".toList, mem_cons_self⟩
  have hun : addrRule.localvars.peerExpr.Unmarked := by
    intro d hd item hitem
    rw [← Option.some.inj hd] at hitem
    rw [mem_singleton.mp hitem]
    decide +kernel
  have h := isCovered_contains true true true
  exact ⟨(h.1 portRule ipPortRule (by decide +kernel)).mpr ⟨hport, hall _⟩,
    h.2 anyAddrRule addrRule (by decide +kernel) (hall _) (hall _) haddr ⟨hnone, hnone, hun⟩⟩

def otherOp : SockOp :=
  ⟨"send".toList, "inet".toList, {"stream".toList}, fun _ => [], fun k => if k = .ip then "127.0.0.1".toList else "22".toList,
    fun k => if k = .label then "p".toList else "/run/b".toList⟩

theorem port_ignored :
    (portRule.isCovered NetworkLocals.isCovered (networkRule (cond .ip "127.0.0.1".toList (by decide))) true true true = some true ∧
      (networkRule (cond .ip "127.0.0.1".toList (by decide))).localvars.Allows (fun _ v x => x = v) otherOp ∧
      ¬ portRule.localvars.Allows (fun _ v x => x = v) otherOp) ∧
    (addrRule.isCovered UnixLocals.isCovered (unixRule (cond .label "p".toList (by decide))) true true true = some true ∧
      (unixRule (cond .label "p".toList (by decide))).localvars.Allows Matches otherOp ∧
      ¬ addrRule.localvars.Allows Matches otherOp) := by
  have hmet : ∀ (meets : SockKey → Text → Text → Prop) (k : SockKey) (v : Text) (h : '\n' ∉ v) (values : SockKey → Text),
      (cond k v h).Met meets values ↔ meets k v (values k) := by
    intro meets k v h values
    constructor
    · exact fun hmet => hmet _ rfl _ (mem_singleton_self _)
    · intro hk d hd item hitem
      rw [← Option.some.inj hd] at hitem
      rw [mem_singleton.mp hitem]
      exact hk
  have hnone : ∀ (meets : SockKey → Text → Text → Prop) (values : SockKey → Text), Conds.Met meets none values :=
    fun _ _ d hd => by cases hd
  refine ⟨⟨by decide +kernel, ⟨?_, ?_, ?_, ?_, hnone _ _⟩, ?_⟩, by decide +kernel, ⟨?_, hnone _ _, hnone _ _, ?_⟩, ?_⟩
  · exact fun s hs => by cases hs
  · exact fun x hx => Option.some.inj hx
  · intro x hx
    rw [← Option.some.inj hx]
    exact Finset.mem_singleton_self _
  · exact (hmet _ _ _ (by decide) _).mpr (by decide)
  · intro h
    exact absurd ((hmet _ _ _ (by decide) _).mp h.here) (by decide)
  · intro s hs
    rw [← Option.some.inj hs]
    exact Finset.mem_singleton_self _
  · exact (hmet _ _ _ (by decide) _).mpr (by unfold Matches; decide +kernel)
  · intro h
    exact absurd ((hmet _ _ _ (by decide) _).mp h.peer) (by unfold Matches; decide +kernel)

end AppArmor.Utils

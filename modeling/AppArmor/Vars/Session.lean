import AppArmor.Vars.Correct

namespace AppArmor

open Fuel List Function

namespace Symtab

def add (t : Symtab) (x : Text) (v : Variable) : Symtab := if (t x).isSome then t else Function.update t x (some v)

def addSetValue (t : Symtab) (var : Text) (values : List Text) : Symtab :=
  match processVar var with
  | none => t
  | some x => t.modify x fun v => if v.type = .set then { v with values := values.foldl (fun s y => insertText y s) v.values } else v

def delete (t : Symtab) (x : Text) : Symtab := Function.update t x none

end Symtab

inductive GetResult
  | notFound
  | found (x : Text)
  | aborted
  deriving DecidableEq

def getSetVar (fuel : ℕ) (t : Symtab) (var : Text) : Option (Symtab × GetResult) :=
  match processVar var with
  | none => some (t, .notFound)
  | some x =>
    match t x with
    | none => some (t, .notFound)
    | some v =>
      if v.type ≠ .set then some (t, .notFound)
      else (expandVariable fuel t x).map fun (t, rc) => (t, if rc = .aborted then .aborted else .found x)

/-- The operations on the table. `save` and `restore` are those of `saved_var`, which `process_profile_variables` has for
each built-in variable that it redefines. -/
inductive SymOp
  | addVar (var : Text) (values : List Text)
  | addBoolean (var : Text) (b : ℤ)
  | addValue (x value : Text)
  | addSetValue (var : Text) (values : List Text)
  | getSetVar (var : Text)
  | deleteVar (x : Text)
  | save (x : Text)
  | restore

structure Session where
  table : Symtab
  saved : List (Text × Option Variable)

def Session.init : Session := ⟨fun _ => none, []⟩

def Session.step (fuel : ℕ) (s : Session) : SymOp → Option Session
  | .addVar var values =>
    match processVar var with
    | none => some s
    | some x => some { s with table := s.table.add x (.ofValues values) }
  | .addBoolean var b =>
    match processVar var with
    | none => some s
    | some x => some { s with table := s.table.add x (.ofBoolean b) }
  | .addValue x value => some { s with table := s.table.add x (.ofValues [value]) }
  | .addSetValue var values => some { s with table := s.table.addSetValue var values }
  | .getSetVar var => (getSetVar fuel s.table var).map fun (t, _) => { s with table := t }
  | .deleteVar x => some { s with table := s.table.delete x }
  | .save x => some ⟨s.table.delete x, (x, s.table x) :: s.saved⟩
  | .restore =>
    match s.saved with
    | [] => some s
    | (x, none) :: saved => some ⟨s.table.delete x, saved⟩
    | (x, some v) :: saved => some ⟨(s.table.delete x).add x v, saved⟩

section Frame

variable {D D' : Definitions} {s x : Text}

theorem Closed.congr (h : Closed D s) (hagree : ∀ y z, Uses D s y → Reaches D y z → D' z = D z) :
    Closed D' s ∧ ∀ t, Expands D' s t ↔ Expands D s t := by
  induction h with
  | done he => exact ⟨.done he, fun t => by rw [expands_none he, expands_none he]⟩
  | @step s pre var suffix x vs he hx hd hvs hrest ihv ihr =>
    have hd' : D' x = some vs := (hagree x x (.here he hx) Relation.ReflTransGen.refl).trans hd
    have hvals : ∀ v ∈ vs, Closed D' v ∧ ∀ t, Expands D' v t ↔ Expands D v t := by
      intro v hv
      refine ihv v hv fun y z hy hz => hagree x z (.here he hx) ?_
      exact Relation.ReflTransGen.head ⟨vs, hd, v, hv, hy⟩ hz
    have hfull : ∀ r, r ∈ fullExpansion D' x ↔ r ∈ fullExpansion D x := by
      intro r
      constructor
      · rintro ⟨vs', hds, v, hv, hr⟩
        rw [hd'] at hds
        cases hds
        exact ⟨vs, hd, v, hv, ((hvals v hv).2 r).mp hr⟩
      · rintro ⟨vs', hds, v, hv, hr⟩
        rw [hd] at hds
        cases hds
        exact ⟨vs, hd', v, hv, ((hvals v hv).2 r).mpr hr⟩
    have htail : ∀ r ∈ fullExpansion D x, Closed D' (pre ++ r ++ suffix) ∧
        ∀ t, Expands D' (pre ++ r ++ suffix) t ↔ Expands D (pre ++ r ++ suffix) t := by
      intro r hr
      refine ihr r hr fun y z hy hz => hagree y z (.later ⟨pre, var, suffix, x, he, hx, r, hr, rfl⟩ hy) hz
    refine ⟨.step he hx hd' (fun v hv => (hvals v hv).1) fun r hr => (htail r ((hfull r).mp hr)).1, fun t => ?_⟩
    rw [expands_iff he hx, expands_iff he hx]
    constructor
    · rintro ⟨r, hr, ht⟩
      have hr' := (hfull r).mp hr
      exact ⟨r, hr', ((htail r hr').2 t).mp ht⟩
    · rintro ⟨r, hr, ht⟩
      exact ⟨r, (hfull r).mpr hr, ((htail r hr).2 t).mpr ht⟩

theorem Complete.congr {E : List Text} (h : Complete D x E) (hagree : ∀ y, Reaches D x y → D' y = D y) : Complete D' x E := by
  obtain ⟨hmem, vs, hd, hclosed⟩ := h
  have hd' : D' x = some vs := (hagree x Relation.ReflTransGen.refl).trans hd
  have hvals : ∀ v ∈ vs, Closed D' v ∧ ∀ t, Expands D' v t ↔ Expands D v t := by
    intro v hv
    exact (hclosed v hv).congr fun y z hy hz => hagree z (Relation.ReflTransGen.head ⟨vs, hd, v, hv, hy⟩ hz)
  refine ⟨fun r => ?_, vs, hd', fun v hv => (hvals v hv).1⟩
  rw [hmem]
  constructor
  · rintro ⟨vs', hds, v, hv, hr⟩
    rw [hd] at hds
    cases hds
    exact ⟨vs, hd', v, hv, ((hvals v hv).2 r).mpr hr⟩
  · rintro ⟨vs', hds, v, hv, hr⟩
    rw [hd'] at hds
    cases hds
    exact ⟨vs, hd, v, hv, ((hvals v hv).2 r).mp hr⟩

end Frame

structure Variable.Proper (v : Variable) : Prop where
  idle : v.expanding = false
  values : v.type = .set → v.values ≠ []

structure Symtab.UpToDate (t : Symtab) : Prop where
  proper : ∀ x v, t x = some v → v.Proper
  coherent : Coherent t.defs t

def Unused (t : Symtab) (x : Text) : Prop :=
  ∀ w v, t w = some v → v.type = .set → v.expanded ≠ [] → w ≠ x → ¬ Reaches t.defs w x

/-- The definitions in the table each time that a variable was saved. -/
def Session.note (s : Session) (defs : List Definitions) : SymOp → List Definitions
  | .save _ => s.table.defs :: defs
  | .restore => defs.tail
  | _ => defs

def Session.Safe (s : Session) (defs : List Definitions) : SymOp → Prop
  | .addVar _ values => values ≠ []
  | .addBoolean _ _ => True
  | .addValue _ _ => True
  | .addSetValue var _ => ∀ x v, processVar var = some x → s.table x = some v → v.expanded = [] ∧ Unused s.table x
  | .getSetVar var => ∀ x v, processVar var = some x → s.table x = some v → v.type = .set → ClosedVar s.table.defs x
  | .deleteVar x => Unused s.table x
  | .save x => Unused s.table x
  -- what an expansion that comes back depends on is defined as it was when the variable was saved
  | .restore => ∀ x v saved, s.saved = (x, v) :: saved → Unused s.table x ∧
      ∀ v', v = some v' → v'.expanded ≠ [] → ∀ D ∈ defs.head?, ∀ y, Reaches D x y → ((s.table.delete x).add x v').defs y = D y

section Steps

variable {t t' : Symtab} {x y : Text} {v : Variable}

theorem Symtab.UpToDate.defs_ne_nil (h : t.UpToDate) : ∀ x vs, t.defs x = some vs → vs ≠ [] := by
  intro x vs hd
  obtain ⟨v, hv, htype, rfl⟩ := lookup_of_defs hd
  exact (h.proper x v hv).values htype

theorem defs_update_of_ne (w : Option Variable) (h : y ≠ x) : Symtab.defs (Function.update t x w) y = t.defs y := by
  unfold Symtab.defs
  rw [update_of_ne h]

theorem Symtab.UpToDate.update (h : t.UpToDate) (hunused : Unused t x) {w : Option Variable}
    (hw : ∀ v, w = some v → v.Proper ∧
      (v.type = .set → v.expanded ≠ [] → Complete (Symtab.defs (Function.update t x w)) x v.expanded)) :
    Symtab.UpToDate (Function.update t x w) := by
  refine ⟨fun y v hv => ?_, fun y v hv htype hexp hne => ?_⟩
  · by_cases hy : y = x
    · subst hy
      rw [update_self] at hv
      exact (hw v hv).1
    · rw [update_of_ne hy] at hv
      exact h.proper y v hv
  · by_cases hy : y = x
    · subst hy
      rw [update_self] at hv
      exact (hw v hv).2 htype hne
    · rw [update_of_ne hy] at hv
      refine (h.coherent y v hv htype hexp hne).congr fun z hz => defs_update_of_ne w ?_
      rintro rfl
      exact hunused y v hv htype hne hy hz

theorem Symtab.UpToDate.unused_of_none (h : t.UpToDate) (hx : t x = none) : Unused t x := by
  intro w v hv htype hne _ hr
  obtain ⟨vs, hd, -⟩ := (h.coherent w v hv htype (h.proper w v hv).idle hne).2.reaches hr
  obtain ⟨v', hv', -⟩ := lookup_of_defs hd
  rw [hx] at hv'
  cases hv'

theorem Symtab.UpToDate.add (h : t.UpToDate) (hv : v.Proper) (hnew : v.expanded = []) : (t.add x v).UpToDate := by
  unfold Symtab.add
  split_ifs with hx
  · exact h
  · have hnone : t x = none := by simpa using hx
    refine h.update (h.unused_of_none hnone) fun w hw => ?_
    cases hw
    exact ⟨hv, fun _ hne => absurd hnew hne⟩

theorem Symtab.UpToDate.delete (h : t.UpToDate) (hunused : Unused t x) : (t.delete x).UpToDate :=
  h.update hunused fun _ hv => nomatch hv

theorem foldl_insertText_ne_nil (values : List Text) {l : List Text} (h : l ≠ [] ∨ values ≠ []) :
    values.foldl (fun s x => insertText x s) l ≠ [] := by
  induction values generalizing l with
  | nil => simpa using h
  | cons y values ih =>
    refine ih (Or.inl ?_)
    exact ne_nil_of_mem (mem_insertText.mpr (Or.inl rfl))

theorem proper_ofValues {values : List Text} (h : values ≠ []) : (Variable.ofValues values).Proper :=
  ⟨rfl, fun _ => foldl_insertText_ne_nil values (Or.inr h)⟩

theorem proper_ofBoolean (b : ℤ) : (Variable.ofBoolean b).Proper := ⟨rfl, fun h => nomatch h⟩

theorem Symtab.UpToDate.addSetValue (h : t.UpToDate) {var : Text} (values : List Text)
    (hsafe : ∀ x v, processVar var = some x → t x = some v → v.expanded = [] ∧ Unused t x) :
    (t.addSetValue var values).UpToDate := by
  unfold Symtab.addSetValue
  cases hx : processVar var with
  | none => exact h
  | some x =>
    dsimp only
    cases hv : t x with
    | none =>
      rw [Symtab.modify, hv, Option.map_none, ← hv, update_eq_self]
      exact h
    | some v =>
      obtain ⟨hempty, hunused⟩ := hsafe x v hx hv
      obtain ⟨hidle, hvalues⟩ := h.proper x v hv
      rw [modify_eq hv]
      refine h.update hunused fun w hw => ?_
      cases hw
      split_ifs with htype
      · exact ⟨⟨hidle, fun _ => foldl_insertText_ne_nil values (Or.inl (hvalues htype))⟩, fun _ hne => absurd hempty hne⟩
      · exact ⟨⟨hidle, hvalues⟩, fun htype' => absurd htype' htype⟩

theorem Filled.upToDate (hfill : Filled t.defs t t') (h : t.UpToDate) : t'.UpToDate := by
  refine ⟨fun y v' hv' => ?_, ?_⟩
  · rcases hfill y with he | ⟨v, E, hv, -, -, -, -, he⟩
    · exact h.proper y v' (he ▸ hv')
    · rw [he] at hv'
      cases hv'
      obtain ⟨hidle, hvalues⟩ := h.proper y v hv
      exact ⟨hidle, hvalues⟩
  · rw [hfill.defs]
    exact hfill.coherent h.coherent

theorem expandVariable_fills (h : t.UpToDate) (hclosed : ClosedVar t.defs x) :
    ∃ t' v, Returns (fun fuel => expandVariable fuel t x) (t', .ok) ∧ Filled t.defs t t' ∧ t' x = some v ∧
      Complete t.defs x v.expanded := by
  obtain ⟨vs, hd, -⟩ := id hclosed
  obtain ⟨v, hv, -⟩ := lookup_of_defs hd
  have hidle : Idle t.defs t x := fun y _ v hv => (h.proper y v hv).idle
  obtain ⟨t', hret⟩ := expandVariable_returns h.defs_ne_nil hclosed t rfl h.coherent hidle
  obtain ⟨n, hn⟩ := id hret
  obtain ⟨-, hfill, v', hv', -, hcomplete⟩ := (expand_sound (complete_ne_nil h.defs_ne_nil) n).1 t x t' v rfl h.coherent hv
    (h.proper x v hv).idle (hn n le_rfl)
  exact ⟨t', v', hret, hfill, hv', hcomplete⟩

theorem getSetVar_returns (h : t.UpToDate) {var : Text} (hx : processVar var = some x) (hclosed : ClosedVar t.defs x) :
    ∃ t' v, Returns (fun fuel => getSetVar fuel t var) (t', .found x) ∧ Filled t.defs t t' ∧ t' x = some v ∧
      Complete t.defs x v.expanded := by
  obtain ⟨t', v', hret, hfill, hv', hcomplete⟩ := expandVariable_fills h hclosed
  obtain ⟨vs, hd, -⟩ := hclosed
  obtain ⟨v, hv, htype, -⟩ := lookup_of_defs hd
  refine ⟨t', v', ?_, hfill, hv', hcomplete⟩
  refine (hret.map fun (t, rc) => (t, if rc = ExpandRc.aborted then GetResult.aborted else .found x)).congr fun fuel => ?_
  unfold getSetVar
  rw [hx]
  dsimp only
  rw [hv]
  dsimp only
  rw [if_neg (not_not.mpr htype)]

end Steps

inductive Session.SafeRun : List Definitions → Session → Prop
  | init : SafeRun [] .init
  | step {defs s s' op} (h : SafeRun defs s) (hsafe : s.Safe defs op) (hstep : Returns (fun fuel => s.step fuel op) s') :
      SafeRun (s.note defs op) s'

/-- A saved variable that was expanded was so under the definitions of then. -/
def SavedFull (D : Definitions) (entry : Text × Option Variable) : Prop :=
  ∀ v, entry.2 = some v → v.Proper ∧ (v.type = .set → v.expanded ≠ [] → Complete D entry.1 v.expanded)

structure Session.Consistent (defs : List Definitions) (s : Session) : Prop where
  table : s.table.UpToDate
  saved : Forall₂ SavedFull defs s.saved

theorem Session.Consistent.step {defs : List Definitions} {s s' : Session} {op : SymOp} (h : s.Consistent defs)
    (hsafe : s.Safe defs op) (hstep : Returns (fun fuel => s.step fuel op) s') : s'.Consistent (s.note defs op) := by
  have hconst : ∀ {s₁ : Session}, (∀ fuel, s.step fuel op = some s₁) → s' = s₁ := by
    intro s₁ hs₁
    exact hstep.unique ⟨0, fun fuel _ => hs₁ fuel⟩
  cases op with
  | addVar var values =>
    cases hx : processVar var with
    | none =>
      rw [hconst fun fuel => by rw [Session.step, hx]]
      exact h
    | some x =>
      rw [hconst fun fuel => by rw [Session.step, hx]]
      exact ⟨h.table.add (proper_ofValues hsafe) rfl, h.saved⟩
  | addBoolean var b =>
    cases hx : processVar var with
    | none =>
      rw [hconst fun fuel => by rw [Session.step, hx]]
      exact h
    | some x =>
      rw [hconst fun fuel => by rw [Session.step, hx]]
      exact ⟨h.table.add (proper_ofBoolean b) rfl, h.saved⟩
  | addValue x value =>
    rw [hconst fun fuel => rfl]
    exact ⟨h.table.add (proper_ofValues (cons_ne_nil _ _)) rfl, h.saved⟩
  | addSetValue var values =>
    rw [hconst fun fuel => rfl]
    exact ⟨h.table.addSetValue values hsafe, h.saved⟩
  | getSetVar var =>
    have hnone : (∀ fuel, getSetVar fuel s.table var = some (s.table, .notFound)) → s'.Consistent defs := by
      intro hget
      rw [hconst fun fuel => by rw [Session.step, hget]; rfl]
      exact h
    cases hx : processVar var with
    | none => exact hnone fun fuel => by rw [getSetVar, hx]
    | some x =>
      cases hv : s.table x with
      | none => exact hnone fun fuel => by rw [getSetVar, hx]; dsimp only; rw [hv]
      | some v =>
        by_cases htype : v.type = .set
        · obtain ⟨t', -, hret, hfill, -⟩ := getSetVar_returns h.table hx (hsafe x v hx hv htype)
          have hstep' : Returns (fun fuel => s.step fuel (.getSetVar var)) { s with table := t' } :=
            (hret.map fun p => ({ s with table := p.1 } : Session)).congr fun fuel => rfl
          rw [hstep.unique hstep']
          exact ⟨hfill.upToDate h.table, h.saved⟩
        · exact hnone fun fuel => by rw [getSetVar, hx]; dsimp only; rw [hv]; dsimp only; rw [if_pos htype]
  | deleteVar x =>
    rw [hconst fun fuel => rfl]
    exact ⟨h.table.delete hsafe, h.saved⟩
  | save x =>
    rw [hconst fun fuel => rfl]
    refine ⟨h.table.delete hsafe, .cons (fun v hv => ?_) h.saved⟩
    have hproper := h.table.proper x v hv
    exact ⟨hproper, fun htype hne => h.table.coherent x v hv htype hproper.idle hne⟩
  | restore =>
    cases hsaved : s.saved with
    | nil =>
      rw [hconst fun fuel => by rw [Session.step, hsaved]]
      have hsame := h.saved
      rw [hsaved, forall₂_nil_right_iff] at hsame
      refine ⟨h.table, ?_⟩
      rw [hsaved, hsame]
      exact .nil
    | cons entry saved =>
      obtain ⟨x, v⟩ := entry
      obtain ⟨hunused, hagree⟩ := hsafe x v saved hsaved
      have hall := h.saved
      rw [hsaved] at hall
      obtain ⟨D, defs, hentry, hrest, rfl⟩ := forall₂_cons_right_iff.mp hall
      cases v with
      | none =>
        rw [hconst fun fuel => by rw [Session.step, hsaved]]
        exact ⟨h.table.delete hunused, hrest⟩
      | some v =>
        rw [hconst fun fuel => by rw [Session.step, hsaved]]
        refine ⟨?_, hrest⟩
        have hadd : (s.table.delete x).add x v = update s.table x (some v) := by
          unfold Symtab.add Symtab.delete
          rw [update_self, Option.isSome_none, if_neg Bool.false_ne_true, update_idem]
        obtain ⟨hproper, hcomplete⟩ := hentry v rfl
        change ((s.table.delete x).add x v).UpToDate
        rw [hadd]
        refine h.table.update hunused fun w hw => ?_
        cases hw
        refine ⟨hproper, fun htype hne => (hcomplete htype hne).congr fun y hy => ?_⟩
        rw [← hadd]
        exact hagree v rfl hne D rfl y hy

theorem Session.SafeRun.consistent {defs : List Definitions} {s : Session} (h : s.SafeRun defs) : s.Consistent defs := by
  induction h with
  | init => exact ⟨⟨fun _ _ hv => (nomatch hv), fun _ _ hv => (nomatch hv)⟩, .nil⟩
  | step _ hsafe hstep ih => exact ih.step hsafe hstep

/-- In a session of safe operations `get_set_var` hands out the full expansion of the definitions in the table. -/
theorem getSetVar_hands_out_full {defs : List Definitions} {s : Session} (h : s.SafeRun defs) {var x : Text}
    (hx : processVar var = some x) (hclosed : ClosedVar s.table.defs x) :
    ∃ t' v, Returns (fun fuel => getSetVar fuel s.table var) (t', .found x) ∧ t' x = some v ∧
      ∀ r, r ∈ v.expanded ↔ r ∈ fullExpansion s.table.defs x := by
  obtain ⟨t', v, hret, -, hv, hcomplete⟩ := getSetVar_returns h.consistent.table hx hclosed
  exact ⟨t', v, hret, hv, hcomplete.1⟩

def aText : Text := ['a']
def aVar : Text := ['@', '{', 'a', '}']

section Redefined

def nameText : Text := ['n']
def nameVar : Text := ['@', '{', 'n', '}']

/-- The variable `a` and a built-in variable `n`. -/
def withName (a n : Option Variable) : Symtab := fun y => if y = aText then a else if y = nameText then n else none

def plainVar (w : Text) (E : List Text) : Variable := ⟨.set, 0, [w], E, false⟩

variable {a n : Option Variable}

theorem update_a (v : Option Variable) : Function.update (withName a n) aText v = withName v n := by
  funext y
  by_cases hy : y = aText
  · rw [hy, update_self, withName, if_pos rfl]
  · rw [update_of_ne hy, withName, withName, if_neg hy, if_neg hy]

theorem update_n (v : Option Variable) : Function.update (withName a n) nameText v = withName a v := by
  funext y
  by_cases hy : y = nameText
  · subst hy
    rw [update_self]
    rfl
  · rw [update_of_ne hy, withName, withName, if_neg hy, if_neg hy]

/-- Values without references. -/
def PlainOpt (n : Option Variable) : Prop := ∀ v, n = some v → ∃ w E, v = plainVar w E ∧ extractVariable w = none

theorem plainOpt_some {w : Text} {E : List Text} (h : extractVariable w = none) : PlainOpt (some (plainVar w E)) := by
  rintro v ⟨⟩
  exact ⟨w, E, rfl, h⟩

theorem defs_withName (ha : PlainOpt a) (hn : PlainOpt n) {y : Text} {vs : List Text} (hd : (withName a n).defs y = some vs) :
    ∃ w, vs = [w] ∧ extractVariable w = none := by
  obtain ⟨v, hv, -, rfl⟩ := lookup_of_defs hd
  rw [withName] at hv
  split_ifs at hv
  · obtain ⟨w, E, rfl, hw⟩ := ha v hv
    exact ⟨w, rfl, hw⟩
  · obtain ⟨w, E, rfl, hw⟩ := hn v hv
    exact ⟨w, rfl, hw⟩

theorem reaches_withName (ha : PlainOpt a) (hn : PlainOpt n) {y z : Text} (h : Reaches (withName a n).defs y z) : z = y := by
  rcases Relation.ReflTransGen.cases_head h with rfl | ⟨u, ⟨vs, hd, w, hw, hu⟩, -⟩
  · rfl
  · obtain ⟨w', rfl, hnone⟩ := defs_withName ha hn hd
    rw [mem_singleton.mp hw] at hu
    cases hu with
    | here he =>
      rw [hnone] at he
      cases he
    | later hr =>
      obtain ⟨pre, var, suffix, x, he, -⟩ := hr
      rw [hnone] at he
      cases he

theorem unused_withName (ha : PlainOpt a) (hn : PlainOpt n) (x : Text) : Unused (withName a n) x :=
  fun _ _ _ _ _ hne hr => hne (reaches_withName ha hn hr).symm

theorem closedVar_withName (ha : PlainOpt a) (hn : PlainOpt n) {x : Text} {v : Variable} (hv : withName a n x = some v)
    (htype : v.type = .set) : ClosedVar (withName a n).defs x := by
  have hd : (withName a n).defs x = some v.values := by
    rw [Symtab.defs, hv, Option.bind_some, if_pos htype]
  refine ⟨_, hd, fun w hw => ?_⟩
  obtain ⟨w', hvs, hnone⟩ := defs_withName ha hn hd
  rw [hvs, mem_singleton] at hw
  rw [hw]
  exact .done hnone

theorem expand_withName {x w : Text} {t : Symtab} (ht : t x = some (plainVar w [])) (hw : extractVariable w = none) :
    Returns (fun fuel => expandVariable fuel t x) (Function.update t x (some (plainVar w [w])), .ok) := by
  refine ⟨3, fun fuel hle => ?_⟩
  obtain ⟨k, rfl⟩ := Nat.exists_eq_add_of_le' hle
  dsimp only
  rw [expandVariable, ht]
  dsimp only [plainVar]
  rw [if_neg (by decide), if_neg (by simp), expandWork, hw]
  dsimp only
  rw [expandWork, Option.map_some, Symtab.insertExpanded, Symtab.setExpanding, Symtab.setExpanding, modify_eq ht,
    modify_eq (update_self ..), update_idem, modify_eq (update_self ..), update_idem]
  rfl

theorem get_withName {var x w : Text} {t : Symtab} {saved : List (Text × Option Variable)} (hx : processVar var = some x)
    (ht : t x = some (plainVar w [])) (hw : extractVariable w = none) :
    Returns (fun fuel => Session.step fuel ⟨t, saved⟩ (.getSetVar var)) ⟨Function.update t x (some (plainVar w [w])), saved⟩ := by
  have hget := (expand_withName ht hw).map fun p => (⟨p.1, saved⟩ : Session)
  refine hget.congr fun fuel => ?_
  rw [Session.step, getSetVar, hx]
  dsimp only
  rw [ht]
  dsimp only [plainVar]
  rw [if_neg (by decide), Option.map_map]
  rfl

theorem returns_const {s s' : Session} {op : SymOp} (h : ∀ fuel, s.step fuel op = some s') :
    Returns (fun fuel => s.step fuel op) s' := ⟨0, fun fuel _ => h fuel⟩

def xFull : Option Variable := some (plainVar ['x'] [['x']])
def pFull : Option Variable := some (plainVar ['p'] [['p']])

/-- The variable `a` is expanded, and `n` is expanded, saved, redefined, expanded again and restored. -/
theorem redefined_safeRun : ∃ defs, Session.SafeRun defs ⟨withName xFull pFull, []⟩ := by
  have hx : PlainOpt xFull := plainOpt_some (by decide)
  have hp : PlainOpt pFull := plainOpt_some (by decide)
  have hnone : PlainOpt none := fun _ h => nomatch h
  have hgetA : Returns (fun fuel => Session.step fuel ⟨withName (some (plainVar ['x'] [])) none, []⟩ (.getSetVar aVar))
      ⟨withName xFull none, []⟩ := by
    have h := @get_withName aVar aText ['x'] (withName (some (plainVar ['x'] [])) none) [] (by decide) rfl (by decide)
    rwa [update_a] at h
  have hgetN : ∀ (w : Text) saved, extractVariable w = none →
      Returns (fun fuel => Session.step fuel ⟨withName xFull (some (plainVar w [])), saved⟩ (.getSetVar nameVar))
        ⟨withName xFull (some (plainVar w [w])), saved⟩ := by
    intro w saved hw
    have h := @get_withName nameVar nameText w (withName xFull (some (plainVar w []))) saved (by decide) rfl hw
    rwa [update_n] at h
  have hinit : Session.init = ⟨withName none none, []⟩ := by
    have hempty : withName none none = fun _ => none := by
      funext y
      simp [withName]
    rw [hempty]
    rfl
  have hadd : ∀ w saved, Returns (fun fuel => Session.step fuel ⟨withName xFull none, saved⟩ (.addValue nameText w))
      ⟨withName xFull (some (plainVar w [])), saved⟩ := by
    intro w saved
    rw [← @update_n xFull none (some (plainVar w []))]
    exact returns_const fun fuel => rfl
  have hfirst : Returns (fun fuel => Session.init.step fuel (.addVar aVar [['x']]))
      ⟨withName (some (plainVar ['x'] [])) none, []⟩ := by
    rw [hinit, ← @update_a none none (some (plainVar ['x'] []))]
    exact returns_const fun fuel => rfl
  have hsave : Returns (fun fuel => Session.step fuel ⟨withName xFull pFull, []⟩ (.save nameText))
      ⟨withName xFull none, [(nameText, pFull)]⟩ := by
    rw [← @update_n xFull pFull none]
    exact returns_const fun fuel => rfl
  have hback : ((withName xFull (some (plainVar ['q'] [['q']]))).delete nameText).add nameText (plainVar ['p'] [['p']]) =
      withName xFull pFull := by
    rw [Symtab.delete, update_n, ← @update_n xFull none pFull]
    rfl
  have hrestore : Returns (fun fuel =>
      Session.step fuel ⟨withName xFull (some (plainVar ['q'] [['q']])), [(nameText, pFull)]⟩ .restore)
        ⟨withName xFull pFull, []⟩ := by
    rw [← hback]
    exact returns_const fun fuel => rfl
  have hclosed : ∀ {n defs saved var}, PlainOpt n → Session.Safe ⟨withName xFull n, saved⟩ defs (.getSetVar var) :=
    fun hn y v _ hv htype => closedVar_withName hx hn hv htype
  have h₁ := @Session.SafeRun.step _ _ _ (.addVar aVar [['x']]) .init (cons_ne_nil _ _) hfirst
  have h₂ := @Session.SafeRun.step _ _ _ (.getSetVar aVar) h₁
    (fun y v _ hv htype => closedVar_withName (plainOpt_some (by decide)) hnone hv htype) hgetA
  have h₃ := @Session.SafeRun.step _ _ _ (.addValue nameText ['p']) h₂ trivial (hadd ['p'] [])
  have h₄ := h₃.step (hclosed (plainOpt_some (by decide))) (hgetN ['p'] [] (by decide))
  have h₅ := @Session.SafeRun.step _ _ _ (.save nameText) h₄ (unused_withName hx hp nameText) hsave
  have h₆ := @Session.SafeRun.step _ _ _ (.addValue nameText ['q']) h₅ trivial (hadd ['q'] _)
  have h₇ := h₆.step (hclosed (plainOpt_some (by decide))) (hgetN ['q'] _ (by decide))
  refine ⟨_, @Session.SafeRun.step _ _ _ .restore h₇ ?_ hrestore⟩
  rintro x v saved ⟨⟩
  refine ⟨unused_withName hx (plainOpt_some (by decide)) nameText, ?_⟩
  rintro v ⟨⟩ - D ⟨⟩ y hy
  rw [hback]
  rfl

theorem redefined_hands_out : ∃ t' v, Returns (fun fuel => getSetVar fuel (withName xFull pFull) nameVar) (t', .found nameText) ∧
    t' nameText = some v ∧ ∀ r, r ∈ v.expanded ↔ r ∈ fullExpansion (withName xFull pFull).defs nameText := by
  obtain ⟨defs, hrun⟩ := redefined_safeRun
  exact getSetVar_hands_out_full hrun (by decide) (closedVar_withName (plainOpt_some (by decide)) (plainOpt_some (by decide)) rfl rfl)

end Redefined

def Session.run (fuel : ℕ) (s : Session) (ops : List SymOp) : Option Session := ops.foldlM (fun s op => s.step fuel op) s

def profileName : Text := "profile_name".toList
def runDir : Text := "run".toList
def runDirVar : Text := "@\x7brun\x7d".toList

def twoProfiles : List SymOp :=
  [.addVar runDirVar ["/@\x7bprofile_name\x7d".toList], .save profileName, .addValue profileName ['p'], .getSetVar runDirVar,
    .restore, .save profileName, .addValue profileName ['q'], .getSetVar runDirVar]

def extended : List SymOp := [.addVar aVar [['x']], .getSetVar aVar, .addSetValue aVar [['y']], .getSetVar aVar]

/-- The second profile is handed out the expansion for the first one, and an extended variable its old values. -/
theorem get_set_var_stale :
    (∃ s v, Session.run 10 .init twoProfiles = some s ∧ s.table runDir = some v ∧ v.expanded = [['/', 'p']] ∧
        ['/', 'q'] ∈ fullExpansion s.table.defs runDir) ∧
      ∃ s v, Session.run 10 .init extended = some s ∧ s.table aText = some v ∧ v.expanded = [['x']] ∧
        ['y'] ∈ fullExpansion s.table.defs aText := by
  have hlook : ∀ {ops x v}, ((Session.run 10 .init ops).bind fun s => s.table x) = some v →
      ∃ s, Session.run 10 .init ops = some s ∧ s.table x = some v := fun h => Option.bind_eq_some_iff.mp h
  constructor
  · have hrun : ((Session.run 10 .init twoProfiles).bind fun s => s.table runDir) =
        some ⟨.set, 0, ["/@\x7bprofile_name\x7d".toList], [['/', 'p']], false⟩ := by decide +kernel
    have hname : ((Session.run 10 .init twoProfiles).bind fun s => s.table profileName) =
        some ⟨.set, 0, [['q']], [], false⟩ := by decide +kernel
    obtain ⟨s, hs, hv⟩ := hlook hrun
    obtain ⟨s', hs', hv'⟩ := hlook hname
    rw [hs] at hs'
    cases hs'
    have he : extractVariable "/@\x7bprofile_name\x7d".toList = some (['/'], "@\x7bprofile_name\x7d".toList, []) := by
      decide +kernel
    have hx : processVar "@\x7bprofile_name\x7d".toList = some profileName := by decide +kernel
    have hd : s.table.defs profileName = some [['q']] := by
      rw [Symtab.defs, hv']
      rfl
    refine ⟨s, _, hs, hv, rfl, _, by rw [Symtab.defs, hv]; rfl, _, mem_singleton_self _, ?_⟩
    exact .step he hx hd (mem_singleton_self _) (.done (by decide)) (.done (by decide))
  · have hrun : ((Session.run 10 .init extended).bind fun s => s.table aText) =
        some ⟨.set, 0, [['x'], ['y']], [['x']], false⟩ := by decide +kernel
    obtain ⟨s, hs, hv⟩ := hlook hrun
    exact ⟨s, _, hs, hv, rfl, _, by rw [Symtab.defs, hv]; rfl, ['y'], by simp, .done (by decide)⟩

end AppArmor

import AppArmor.Vars.Session

namespace AppArmor

open Fuel List Option

def trimLeadingSlash (s : Text) : Text := s.dropWhile (· = '/')

def trimTrailingSlash (s : Text) : Text := (s.reverse.dropWhile (· = '/')).reverse

def filterLeadingSlash (pre : Text) : Bool := pre.getLast? = some '/' && pre.any (· ≠ '/')

def filterTrailingSlash (suffix : Text) : Bool := suffix.head? = some '/'

def trimValue (pre suffix s : Text) : Text :=
  let s := if filterLeadingSlash pre then trimLeadingSlash s else s
  if filterTrailingSlash suffix then trimTrailingSlash s else s

def alternation (vs : List Text) : Text :=
  let body := List.intercalate [','] vs
  if 1 < vs.length then '{' :: body ++ ['}'] else body

/-- How `expand_by_alternation` ends. `undefinedBehaviour` is the use of the first value of a variable that has none. -/
inductive AltResult
  | ok (name : Text)
  | failed
  | exited
  | undefinedBehaviour
  deriving DecidableEq

def expandByAlternation : ℕ → Symtab → Text → Option (Symtab × List Text × AltResult)
  | 0, _, _ => none
  | fuel + 1, t, name =>
    match extractVariable name with
    | none => some (t, [], .ok name)
    | some (pre, var, suffix) =>
      match (isVar var).1 with
      | .valid =>
        match getSetVar fuel t var with
        | none => none
        | some (t, .notFound) => some (t, [], .failed)
        | some (t, .aborted) => some (t, [], .exited)
        | some (t, .found x) =>
          match t x with
          | none => some (t, [x], .failed)
          | some v =>
            if v.expanded = [] then some (t, [x], .undefinedBehaviour)
            else
              match expandByAlternation fuel t (alternation (v.expanded.map (trimValue pre suffix)) ++ suffix) with
              | none => none
              | some (t, used, .ok name) => some (t, x :: used, .ok (pre ++ name))
              | some (t, used, r) => some (t, x :: used, r)
      -- taken for an alternation of the deprecated form
      | .invalComma => some (t, [], .ok name)
      | _ => some (t, [], .exited)

inductive Call
  | getSetVar (var : Text)
  | expandVariable (x : Text)
  | expandByAlternation (name : Text)

def Call.run (fuel : ℕ) (t : Symtab) : Call → Option (Symtab × Option (List Text))
  | .getSetVar var =>
    (AppArmor.getSetVar fuel t var).map fun (t, r) => (t, match r with | .found x => some [x] | _ => none)
  | .expandVariable x =>
    (AppArmor.expandVariable fuel t x).map fun (t, rc) => (t, if rc = .ok then some [x] else none)
  | .expandByAlternation name =>
    (AppArmor.expandByAlternation fuel t name).map fun (t, used, r) => (t, match r with | .ok _ => some used | _ => none)

def runCalls (fuel : ℕ) (t : Symtab) (calls : List Call) : Option Symtab :=
  calls.foldlM (fun t call => (call.run fuel t).map Prod.fst) t

theorem expand_mono (fuel : ℕ) :
    (∀ t x r, expandVariable fuel t x = some r → expandVariable (fuel + 1) t x = some r) ∧
      ∀ t x work r, expandWork fuel t x work = some r → expandWork (fuel + 1) t x work = some r := by
  induction fuel with
  | zero =>
    constructor
    · intro t x r h
      rw [expandVariable] at h
      cases h
    · intro t x work r h
      rw [expandWork] at h
      cases h
  | succ fuel ih =>
    constructor
    · intro t x r h
      rw [expandVariable] at h ⊢
      cases hv : t x with
      | none =>
        rw [hv] at h
        exact h
      | some v =>
        rw [hv] at h
        dsimp only at h ⊢
        split_ifs at h ⊢
        · exact h
        · exact h
        · obtain ⟨r', hr', rfl⟩ := map_eq_some_iff.mp h
          rw [ih.2 _ _ _ _ hr']
          rfl
    · intro t x work r h
      cases work with
      | nil => exact h
      | cons value work =>
        rw [expandWork] at h ⊢
        cases he : extractVariable value with
        | none =>
          rw [he] at h
          exact ih.2 _ _ _ _ h
        | some parts =>
          obtain ⟨pre, var, suffix⟩ := parts
          rw [he] at h
          dsimp only at h ⊢
          cases hy : processVar var with
          | none =>
            rw [hy] at h
            exact h
          | some y =>
            rw [hy] at h
            dsimp only at h ⊢
            cases href : t y with
            | none =>
              rw [href] at h
              exact h
            | some ref =>
              rw [href] at h
              dsimp only at h ⊢
              split_ifs at h ⊢
              · exact h
              · cases hcall : expandVariable fuel t y with
                | none =>
                  rw [hcall] at h
                  cases h
                | some res =>
                  rw [hcall] at h
                  rw [ih.1 _ _ _ hcall]
                  obtain ⟨t₁, rc⟩ := res
                  cases rc with
                  | failed | aborted => exact h
                  | ok =>
                    dsimp only at h ⊢
                    cases href' : t₁ y with
                    | none =>
                      rw [href'] at h
                      exact h
                    | some ref' =>
                      rw [href'] at h
                      dsimp only at h ⊢
                      split_ifs at h ⊢
                      · exact h
                      · exact ih.2 _ _ _ _ h

theorem expandVariable_le {fuel fuel' : ℕ} (hle : fuel ≤ fuel') {t : Symtab} {x : Text} {r : Symtab × ExpandRc}
    (h : expandVariable fuel t x = some r) : expandVariable fuel' t x = some r := by
  induction hle with
  | refl => exact h
  | step _ ih => exact (expand_mono _).1 t x r ih

theorem expandVariable_unique {fuel : ℕ} {t : Symtab} {x : Text} {r r' : Symtab × ExpandRc}
    (h : expandVariable fuel t x = some r) (hret : Returns (fun fuel => expandVariable fuel t x) r') : r = r' := by
  obtain ⟨n, hn⟩ := hret
  have hmax : expandVariable (max n fuel) t x = some r' := hn (max n fuel) (le_max_left n fuel)
  rw [expandVariable_le (le_max_right n fuel) h] at hmax
  exact some.inj hmax

def ClosedIfSet (D : Definitions) (x : Text) : Prop := ∀ vs, D x = some vs → ClosedVar D x

/-- The variables that a name is expanded with: its first one, and those of what it is replaced by. -/
inductive AltNames (D : Definitions) : Text → Text → Prop
  | here {name pre var suffix x} (he : extractVariable name = some (pre, var, suffix)) (hx : processVar var = some x) :
      AltNames D name x
  | later {name pre var suffix x y} {E : List Text} (he : extractVariable name = some (pre, var, suffix)) (hx : processVar var = some x)
      (hE : ∀ r, r ∈ E ↔ r ∈ fullExpansion D x) (h : AltNames D (alternation (E.map (trimValue pre suffix)) ++ suffix) y) :
      AltNames D name y

def Call.Names (D : Definitions) : Call → Text → Prop
  | .getSetVar var, x => processVar var = some x
  | .expandVariable y, x => x = y
  | .expandByAlternation name, x => AltNames D name x

def Call.Closed (D : Definitions) (call : Call) : Prop := ∀ x, call.Names D x → ClosedIfSet D x

def Symtab.Full (t : Symtab) (D : Definitions) (x : Text) : Prop := ∃ v, t x = some v ∧ Complete D x v.expanded

section Calls

variable {t t' : Symtab} {x : Text}

theorem Symtab.Full.filled (h : t.Full t.defs x) (hup : t.UpToDate) (hfill : Filled t.defs t t') : t'.Full t.defs x := by
  obtain ⟨v, hv, hcomplete⟩ := h
  rcases hfill x with he | ⟨w, -, hw, -, -, hempty, -, -⟩
  · exact ⟨v, he.trans hv, hcomplete⟩
  · rw [hv] at hw
    cases hw
    exact absurd hempty (complete_ne_nil hup.defs_ne_nil x _ hcomplete)

variable {fuel : ℕ}

theorem expandVariable_full (hup : t.UpToDate) (hclosed : ClosedIfSet t.defs x) {rc : ExpandRc}
    (hrun : expandVariable fuel t x = some (t', rc)) : Filled t.defs t t' ∧ (rc = .ok → t'.Full t.defs x) := by
  cases fuel with
  | zero =>
    rw [expandVariable] at hrun
    cases hrun
  | succ fuel =>
    cases hv : t x with
    | none =>
      rw [expandVariable, hv] at hrun
      cases hrun
      exact ⟨Filled.refl _ _, fun h => by cases h⟩
    | some v =>
      cases htype : v.type with
      | boolean =>
        rw [expandVariable, hv] at hrun
        dsimp only at hrun
        rw [if_pos htype] at hrun
        cases hrun
        exact ⟨Filled.refl _ _, fun h => by cases h⟩
      | set =>
        have hd : t.defs x = some v.values := by
          unfold Symtab.defs
          rw [hv, bind_some, if_pos htype]
        have hidle : Idle t.defs t x := fun y _ w hw => (hup.proper y w hw).idle
        obtain ⟨t₁, hret⟩ := expandVariable_returns hup.defs_ne_nil (hclosed _ hd) t rfl hup.coherent hidle
        cases expandVariable_unique hrun hret
        obtain ⟨-, hfill, v', hv', -, hcomplete⟩ :=
          (expand_sound (complete_ne_nil hup.defs_ne_nil) (fuel + 1)).1 t x t' v rfl hup.coherent hv (hup.proper x v hv).idle hrun
        exact ⟨hfill, fun _ => ⟨v', hv', hcomplete⟩⟩

theorem getSetVar_full (hup : t.UpToDate) {var : Text} (hclosed : ∀ x, processVar var = some x → ClosedIfSet t.defs x) {r : GetResult}
    (hrun : getSetVar fuel t var = some (t', r)) : Filled t.defs t t' ∧ ∀ x, r = .found x → t'.Full t.defs x := by
  have hsame : some (t, GetResult.notFound) = some (t', r) → Filled t.defs t t' ∧ ∀ x, r = .found x → t'.Full t.defs x := by
    intro he
    cases he
    exact ⟨Filled.refl _ _, fun x hx => nomatch hx⟩
  unfold getSetVar at hrun
  cases hx : processVar var with
  | none =>
    rw [hx] at hrun
    exact hsame hrun
  | some x =>
    replace hclosed := hclosed x hx
    rw [hx] at hrun
    dsimp only at hrun
    cases hv : t x with
    | none =>
      rw [hv] at hrun
      exact hsame hrun
    | some v =>
      rw [hv] at hrun
      dsimp only at hrun
      by_cases htype : v.type = .set
      · rw [if_neg (not_not.mpr htype)] at hrun
        obtain ⟨⟨t₁, rc⟩, hcall, he⟩ := map_eq_some_iff.mp hrun
        cases he
        obtain ⟨hfill, hfull⟩ := expandVariable_full hup hclosed hcall
        refine ⟨hfill, fun y hy => ?_⟩
        have hd : t.defs x = some v.values := by
          unfold Symtab.defs
          rw [hv, bind_some, if_pos htype]
        have hidle : Idle t.defs t x := fun y _ w hw => (hup.proper y w hw).idle
        obtain ⟨t₂, hret⟩ := expandVariable_returns hup.defs_ne_nil (hclosed _ hd) t rfl hup.coherent hidle
        cases expandVariable_unique hcall hret
        cases hy
        exact hfull rfl
      · rw [if_pos htype] at hrun
        exact hsame hrun

theorem getSetVar_found {var : Text} (hrun : getSetVar fuel t var = some (t', .found x)) : processVar var = some x := by
  unfold getSetVar at hrun
  cases hx : processVar var with
  | none =>
    rw [hx] at hrun
    cases hrun
  | some y =>
    rw [hx] at hrun
    dsimp only at hrun
    cases hv : t y with
    | none =>
      rw [hv] at hrun
      cases hrun
    | some v =>
      rw [hv] at hrun
      dsimp only at hrun
      split_ifs at hrun
      · cases hrun
      · obtain ⟨⟨t₁, rc⟩, -, he⟩ := map_eq_some_iff.mp hrun
        cases rc <;> cases he <;> rfl

theorem expandByAlternation_full {name : Text} {used : List Text} {r : AltResult} (hup : t.UpToDate)
    (hclosed : ∀ x, AltNames t.defs name x → ClosedIfSet t.defs x) (hrun : expandByAlternation fuel t name = some (t', used, r)) :
    Filled t.defs t t' ∧ ((∃ name', r = .ok name') → ∀ x ∈ used, t'.Full t.defs x) := by
  induction fuel generalizing t t' name used r with
  | zero => cases hrun
  | succ fuel ih =>
    have hsame : ∀ {r'}, some (t, [], r') = some (t', used, r) →
        Filled t.defs t t' ∧ ((∃ name', r = .ok name') → ∀ x ∈ used, t'.Full t.defs x) := by
      intro r' he
      cases he
      exact ⟨Filled.refl _ _, fun _ x hx => nomatch hx⟩
    rw [expandByAlternation] at hrun
    cases he : extractVariable name with
    | none =>
      rw [he] at hrun
      exact hsame hrun
    | some parts =>
      obtain ⟨pre, var, suffix⟩ := parts
      rw [he] at hrun
      dsimp only at hrun
      cases hstatus : (isVar var).1 <;> rw [hstatus] at hrun <;> dsimp only at hrun
      case valid =>
        cases hget : getSetVar fuel t var with
        | none =>
          rw [hget] at hrun
          cases hrun
        | some res =>
          obtain ⟨t₁, found⟩ := res
          obtain ⟨hfill, hfull⟩ := getSetVar_full hup (fun x hx => hclosed x (.here he hx)) hget
          rw [hget] at hrun
          cases found with
          | notFound | aborted =>
            cases hrun
            exact ⟨hfill, fun _ x hx => nomatch hx⟩
          | found x =>
            have hx := hfull x rfl
            have hname : processVar var = some x := getSetVar_found hget
            obtain ⟨v, hv, hcomplete⟩ := id hx
            dsimp only at hrun
            rw [hv] at hrun
            dsimp only at hrun
            rw [if_neg (complete_ne_nil hup.defs_ne_nil x _ hcomplete)] at hrun
            have hup₁ := hfill.upToDate hup
            have hrest : ∀ y, AltNames t₁.defs (alternation (v.expanded.map (trimValue pre suffix)) ++ suffix) y →
                ClosedIfSet t₁.defs y := by
              rw [hfill.defs]
              exact fun y hy => hclosed y (.later he hname hcomplete.1 hy)
            rw [← hfill.defs] at hx
            cases hrec : expandByAlternation fuel t₁ (alternation (v.expanded.map (trimValue pre suffix)) ++ suffix) with
            | none =>
              rw [hrec] at hrun
              cases hrun
            | some res =>
              obtain ⟨t₂, used₂, r₂⟩ := res
              rw [hrec] at hrun
              obtain ⟨hfill₂, hfull₂⟩ := ih hup₁ hrest hrec
              have hx₂ := hx.filled hup₁ hfill₂
              rw [hfill.defs] at hfill₂ hfull₂ hx₂
              have hall := hfill.trans hfill₂ (complete_ne_nil hup.defs_ne_nil)
              cases r₂ with
              | ok name' =>
                cases hrun
                refine ⟨hall, fun _ y hy => ?_⟩
                rcases mem_cons.mp hy with rfl | hy
                · exact hx₂
                · exact hfull₂ ⟨name', rfl⟩ y hy
              | failed | exited | undefinedBehaviour =>
                cases hrun
                exact ⟨hall, fun ⟨_, hok⟩ => nomatch hok⟩
      all_goals exact hsame hrun

theorem Call.run_full {call : Call} {used : Option (List Text)} (hup : t.UpToDate) (hclosed : call.Closed t.defs)
    (hrun : call.run fuel t = some (t', used)) : Filled t.defs t t' ∧ ∀ l, used = some l → ∀ x ∈ l, t'.Full t.defs x := by
  cases call with
  | getSetVar var =>
    obtain ⟨⟨t₁, r⟩, hcall, he⟩ := map_eq_some_iff.mp hrun
    cases he
    obtain ⟨hfill, hfull⟩ := getSetVar_full hup hclosed hcall
    refine ⟨hfill, fun l hl x hx => ?_⟩
    cases r with
    | found y =>
      cases hl
      rw [mem_singleton.mp hx]
      exact hfull y rfl
    | notFound | aborted => cases hl
  | expandVariable y =>
    obtain ⟨⟨t₁, rc⟩, hcall, he⟩ := map_eq_some_iff.mp hrun
    cases he
    obtain ⟨hfill, hfull⟩ := expandVariable_full hup (hclosed y rfl) hcall
    refine ⟨hfill, fun l hl x hx => ?_⟩
    by_cases hok : rc = .ok
    · rw [if_pos hok] at hl
      cases hl
      rw [mem_singleton.mp hx]
      exact hfull hok
    · rw [if_neg hok] at hl
      cases hl
  | expandByAlternation name =>
    obtain ⟨⟨t₁, l₁, r⟩, hcall, he⟩ := map_eq_some_iff.mp hrun
    cases he
    obtain ⟨hfill, hfull⟩ := expandByAlternation_full hup hclosed hcall
    refine ⟨hfill, fun l hl => ?_⟩
    cases r with
    | ok name' =>
      cases hl
      exact hfull ⟨name', rfl⟩
    | failed | exited | undefinedBehaviour => cases hl

theorem runCalls_filled {calls : List Call} (hup : t.UpToDate) (hclosed : ∀ call ∈ calls, call.Closed t.defs)
    (hrun : runCalls fuel t calls = some t') : Filled t.defs t t' := by
  induction calls generalizing t with
  | nil =>
    cases hrun
    exact Filled.refl _ _
  | cons call calls ih =>
    unfold runCalls at hrun
    rw [foldlM_cons] at hrun
    obtain ⟨t₁, hfst, hrest⟩ := bind_eq_some_iff.mp hrun
    obtain ⟨⟨t₂, used⟩, hcall, rfl⟩ := map_eq_some_iff.mp hfst
    have hfill := (Call.run_full hup (hclosed call mem_cons_self) hcall).1
    have hlater : ∀ call' ∈ calls, call'.Closed t₂.defs := by
      rw [hfill.defs]
      exact fun call' h => hclosed call' (mem_cons_of_mem _ h)
    have hrest' := ih (hfill.upToDate hup) hlater hrest
    rw [hfill.defs] at hrest'
    exact hfill.trans hrest' (complete_ne_nil hup.defs_ne_nil)

end Calls

/-- When the set variables that the calls name can be expanded in full, a call that succeeds has used full expansions only. -/
theorem calls_complete {t t₁ t₂ : Symtab} (hup : t.UpToDate) {fuel : ℕ} {calls : List Call} {call : Call}
    (hclosed : ∀ c ∈ call :: calls, c.Closed t.defs) (hcalls : runCalls fuel t calls = some t₁) {used : List Text}
    (hrun : call.run fuel t₁ = some (t₂, some used)) :
    ∀ x ∈ used, ∃ v, t₂ x = some v ∧ ∀ r, r ∈ v.expanded ↔ r ∈ fullExpansion t.defs x := by
  intro x hx
  have hfill := runCalls_filled hup (fun c hc => hclosed c (mem_cons_of_mem _ hc)) hcalls
  have hlast : call.Closed t₁.defs := by
    rw [hfill.defs]
    exact hclosed call mem_cons_self
  obtain ⟨-, hfull⟩ := Call.run_full (hfill.upToDate hup) hlast hrun
  obtain ⟨v, hv, hcomplete⟩ := hfull used rfl x hx
  rw [hfill.defs] at hcomplete
  exact ⟨v, hv, hcomplete.1⟩

theorem extractLoop_none {s : Text} (h : '@' ∉ s) (i : ℕ) (b : Bool) : extractLoop i b none s = none := by
  induction s generalizing i b with
  | nil => rfl
  | cons c s ih =>
    obtain ⟨hc, hs⟩ := not_or.mp (mem_cons.not.mp h)
    have hne : c ≠ '@' := Ne.symm hc
    rw [extractLoop.eq_def]
    dsimp only
    rw [if_neg hne]
    split_ifs <;> exact ih hs _ _

theorem extractVariable_none {s : Text} (h : '@' ∉ s) : extractVariable s = none := by
  rw [extractVariable, extractLoop_none h]
  rfl

theorem notMem_alternation {vs : List Text} (h : ∀ u ∈ vs, '@' ∉ u) : '@' ∉ alternation vs := by
  have hbody : '@' ∉ List.intercalate [','] vs := by
    induction vs with
    | nil => exact not_mem_nil
    | cons u vs ih =>
      have hrest := ih fun v hv => h v (mem_cons_of_mem _ hv)
      cases vs with
      | nil => simpa [List.intercalate] using h u mem_cons_self
      | cons v vs =>
        have hsplit : List.intercalate [','] (u :: v :: vs) = u ++ ',' :: List.intercalate [','] (v :: vs) := rfl
        rw [hsplit, mem_append, mem_cons]
        rintro (hu | hc | hv)
        · exact h u mem_cons_self hu
        · exact absurd hc (by decide)
        · exact hrest hv
  rw [alternation]
  split_ifs
  · simpa using hbody
  · exact hbody

def bText : Text := ['b']
def bVar : Text := ['@', '{', 'b', '}']
def cText : Text := ['c']

/-- The variable `c` refers to one that is not there. -/
def threeVariables : Symtab :=
  Symtab.add (Symtab.add (Symtab.add (fun _ => none) aText (.ofValues [['x']])) bText (.ofValues [['y'], aVar])) cText
    (.ofValues [['z'], ['@', '{', 'd', '}']])

theorem threeVariables_upToDate : threeVariables.UpToDate := by
  have hempty : Symtab.UpToDate (fun _ => none) := ⟨fun _ _ hv => (nomatch hv), fun _ _ hv => (nomatch hv)⟩
  exact ((hempty.add (proper_ofValues (cons_ne_nil _ _)) rfl).add (proper_ofValues (cons_ne_nil _ _)) rfl).add
    (proper_ofValues (cons_ne_nil _ _)) rfl

theorem threeVariables_expansion {x r : Text} (hx : x = aText ∨ x = bText) (hr : r ∈ fullExpansion threeVariables.defs x) :
    r = ['x'] ∨ r = ['y'] := by
  have ha : ∀ r ∈ fullExpansion threeVariables.defs aText, r = ['x'] := by
    rintro r ⟨vs, hd, v, hv, hr⟩
    have hda : threeVariables.defs aText = some [['x']] := by decide
    rw [hda] at hd
    cases hd
    rw [mem_singleton.mp hv, expands_none (by decide)] at hr
    exact hr
  rcases hx with rfl | rfl
  · exact Or.inl (ha r hr)
  · obtain ⟨vs, hd, v, hv, hr⟩ := hr
    have hdb : threeVariables.defs bText = some [aVar, ['y']] := by decide
    have he : extractVariable aVar = some ([], aVar, []) := by decide
    have hp : processVar aVar = some aText := by decide
    rw [hdb] at hd
    cases hd
    rcases List.mem_pair.mp hv with rfl | rfl
    · obtain ⟨r', hr', hr⟩ := (expands_iff he hp).mp hr
      rw [ha r' hr', expands_none (by decide)] at hr
      exact Or.inl hr
    · rw [expands_none (by decide)] at hr
      exact Or.inr hr

theorem threeVariables_closed {x : Text} (hx : x = aText ∨ x = bText) : ClosedVar threeVariables.defs x := by
  have ha : threeVariables.defs aText = some [['x']] := by decide
  have hb : threeVariables.defs bText = some [aVar, ['y']] := by decide
  have hplain : ∀ v ∈ [['x']], Closed threeVariables.defs v := fun v hv => by
    rw [mem_singleton.mp hv]
    exact .done (by decide)
  rcases hx with rfl | rfl
  · exact ⟨_, ha, hplain⟩
  · refine ⟨_, hb, fun v hv => ?_⟩
    rcases List.mem_pair.mp hv with rfl | rfl
    · have he : extractVariable aVar = some ([], aVar, []) := by decide
      refine .step he (by decide) ha hplain fun r hr => ?_
      rcases threeVariables_expansion (Or.inl rfl) hr with rfl | rfl
      · exact .done (by decide)
      · exact .done (by decide)
    · exact .done (by decide)

theorem threeVariables_names {y : Text} (h : AltNames threeVariables.defs ('/' :: bVar) y) : y = bText := by
  have he : extractVariable ('/' :: bVar) = some (['/'], bVar, []) := by decide
  have hp : processVar bVar = some bText := by decide
  cases h with
  | here he' hx =>
    rw [he] at he'
    cases he'
    rw [hp] at hx
    exact (some.inj hx).symm
  | @later _ _ _ _ _ _ E he' hx hE h =>
    rw [he] at he'
    cases he'
    rw [hp] at hx
    cases hx
    -- the values have no references
    have hvalues : ∀ u ∈ E.map (trimValue ['/'] []), '@' ∉ u := by
      intro u hu
      obtain ⟨r, hr, rfl⟩ := mem_map.mp hu
      rcases threeVariables_expansion (Or.inr rfl) ((hE r).mp hr) with rfl | rfl <;> decide
    have hnone : extractVariable (alternation (E.map (trimValue ['/'] [])) ++ []) = none := by
      rw [append_nil]
      exact extractVariable_none (notMem_alternation hvalues)
    cases h with
    | here he' => rw [hnone] at he'; cases he'
    | later he' => rw [hnone] at he'; cases he'

theorem threeVariables_complete :
    ∃ t₁ t₂ v, runCalls 9 threeVariables [.getSetVar aVar] = some t₁ ∧
      (Call.expandByAlternation ('/' :: bVar)).run 9 t₁ = some (t₂, some [bText]) ∧ t₂ bText = some v ∧
        ∀ r, r ∈ v.expanded ↔ r ∈ fullExpansion threeVariables.defs bText := by
  have hboth : ((runCalls 9 threeVariables [.getSetVar aVar]).bind fun t =>
      ((Call.expandByAlternation ('/' :: bVar)).run 9 t).map Prod.snd) = some (some [bText]) := by decide
  obtain ⟨t₁, hcalls, hrun⟩ := bind_eq_some_iff.mp hboth
  obtain ⟨⟨t₂, used⟩, hrun, rfl⟩ := map_eq_some_iff.mp hrun
  have hclosed : ∀ c ∈ [Call.expandByAlternation ('/' :: bVar), .getSetVar aVar], c.Closed threeVariables.defs := by
    intro c hc x hx vs _
    rcases List.mem_pair.mp hc with rfl | rfl
    · exact threeVariables_closed (Or.inr (threeVariables_names hx))
    · have hp : processVar aVar = some aText := by decide
      exact threeVariables_closed (Or.inl (some.inj (hx.symm.trans hp)))
  obtain ⟨v, hv, hmem⟩ := calls_complete threeVariables_upToDate hclosed hcalls hrun bText (mem_singleton_self _)
  exact ⟨t₁, t₂, v, hcalls, hrun, hv, hmem⟩

def danglingVariable : Symtab := Symtab.add (fun _ => none) aText (.ofValues [['/', 'x'], bVar])

/-- The reference that fails leaves a value behind: the name is expanded with it, and the next expansion takes it for the whole. -/
theorem dangling_reference_succeeds :
    (expandVariable 9 danglingVariable aText).map Prod.snd = some .failed ∧
      (expandByAlternation 9 danglingVariable aVar).map Prod.snd = some ([aText], .ok ['/', 'x']) ∧
      (runCalls 9 danglingVariable [.expandVariable aText]).bind (fun t => (expandVariable 9 t aText).map Prod.snd) = some .ok ∧
      ¬ ClosedVar danglingVariable.defs aText := by
  refine ⟨by decide, by decide, by decide, fun hclosed => ?_⟩
  have ha : danglingVariable.defs aText = some [['/', 'x'], bVar] := by decide
  have he : extractVariable bVar = some ([], bVar, []) := by decide
  have hp : processVar bVar = some bText := by decide
  obtain ⟨vs, hd, hvals⟩ := hclosed
  rw [ha] at hd
  cases hd
  cases hvals bVar (by decide) with
  | done hnone =>
    rw [he] at hnone
    cases hnone
  | step he' hp' hd' _ _ =>
    rw [he] at he'
    cases he'
    rw [hp] at hp'
    cases hp'
    have hb : danglingVariable.defs bText = none := by decide
    rw [hb] at hd'
    cases hd'

end AppArmor

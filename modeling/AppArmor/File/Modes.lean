import AppArmor.File.Prefix
import Mathlib

namespace AppArmor

open Perm List Option

namespace Perm

def execLocal : Perm32 := 1#32 <<< 10 ||| 1#32 <<< 11

def filePerms : Perm32 := userPerms ||| otherPerms

def shiftPerms (mode : Perm32) (shift : ℕ) : Perm32 := ((mode &&& basePerms) <<< shift) ||| (mode &&& ~~~filePerms)

end Perm

inductive PermsError
  | writeAppend
  | inherit
  | qualifier (thisc : Char)
  | qualifierNext (thisc next : Char)
  | unexpected (c : Char)
  | invalidPerm (perms : Perm32)
  deriving DecidableEq

inductive PermsResult
  | ok (perms : Perm32)
  | error (e : PermsError)
  | overrun
  deriving DecidableEq

def isDiffQual (perms q : Perm32) : Bool := hits perms mayExec && perms &&& execType != q &&& execType

def addQualifier (perms tperms : Perm32) (e : PermsError) (skip : ℕ) : Except PermsError (Perm32 × ℕ) :=
  if isDiffQual perms tperms then .error e else .ok (perms ||| tperms, skip)

def addDomain (perms tperms : Perm32) (thisc next : Char) : Except PermsError (Perm32 × ℕ) :=
  if next.toLower = 'i' then addQualifier perms (tperms ||| execInherit) (.qualifierNext thisc next) 2
  else if next.toLower = 'u' then addQualifier perms (tperms ||| execPux) (.qualifierNext thisc next) 2
  else addQualifier perms tperms (.qualifier thisc) 1

def switchPerms (readImpliesExec : Bool) (perms : Perm32) (thisc next : Char) : Option (Except PermsError (Perm32 × ℕ)) :=
  match thisc with
  | 'r' => some (.ok (perms ||| if readImpliesExec then mayRead ||| oldExecMmap else mayRead, 0))
  | 'w' =>
    some (if hits perms mayAppend && !hits perms mayWrite then .error .writeAppend
      else .ok (perms ||| (mayWrite ||| mayAppend), 0))
  | 'a' => some (if hits perms mayWrite then .error .writeAppend else .ok (perms ||| mayAppend, 0))
  | 'l' => some (.ok (perms ||| oldMayLink, 0))
  | 'k' => some (.ok (perms ||| oldMayLock, 0))
  | 'i' => some (if hits perms execModifiers then .error .inherit else .ok (perms ||| (execInherit ||| mayExec), 1))
  | 'u' => some (addQualifier perms (execUnsafe ||| (execUnconfined ||| mayExec)) (.qualifier thisc) 1)
  | 'U' => some (addQualifier perms (execUnconfined ||| mayExec) (.qualifier thisc) 1)
  | 'p' => some (addDomain perms (execUnsafe ||| (execProfile ||| mayExec)) thisc next)
  | 'P' => some (addDomain perms (execProfile ||| mayExec) thisc next)
  | 'c' => some (addDomain perms (execUnsafe ||| (execLocal ||| mayExec)) thisc next)
  | 'C' => some (addDomain perms (execLocal ||| mayExec) thisc next)
  | 'm' => some (.ok (perms ||| oldExecMmap, 0))
  | 'x' => some (.ok (perms ||| mayExec, 0))
  | _ => none

def stepPerms (readImpliesExec : Bool) (perms : Perm32) (thisc next : Char) : Except PermsError (Perm32 × ℕ) :=
  match switchPerms readImpliesExec perms thisc next with
  | some r => r
  | none =>
    let lower := thisc.toLower
    if lower ∈ ['r', 'w', 'a', 'l', 'i', 'm', 'x'] then
      (switchPerms readImpliesExec perms lower next).getD (.error (.unexpected thisc))
    else .error (.unexpected thisc)

def parseSubPermsFrom (readImpliesExec : Bool) : Text → (skip : ℕ) → Perm32 → PermsResult
  | [], 0, perms => .ok perms
  | [], _ + 1, _ => .overrun
  | _ :: s, k + 1, perms => parseSubPermsFrom readImpliesExec s k perms
  | c :: s, 0, perms =>
    match stepPerms readImpliesExec perms c (s.headD '\x00') with
    | .error e => .error e
    | .ok (perms', k) => parseSubPermsFrom readImpliesExec s k perms'

def parsePerms (readImpliesExec : Bool) (strPerms : Text) : PermsResult :=
  match parseSubPermsFrom readImpliesExec strPerms 0 0 with
  | .ok tmp =>
    let perms := shiftPerms tmp 0 ||| shiftPerms tmp otherShift
    if hits perms (~~~filePerms) then .error (.invalidPerm perms) else .ok perms
  | r => r

/-! ### Tokens -/

/-- The tokens of `MODE_CHARS`. `cap` and `capX` say whether a letter and the `x` are capitals, where the lexer allows
both; `safe` is the capital of a qualifier, which means something. -/
inductive ModeToken
  | read (cap : Bool)
  | write (cap : Bool)
  | append
  | link (cap : Bool)
  | mmap (cap : Bool)
  | lock
  | exec (cap : Bool)
  | inherit (cap capX : Bool)
  | unconfined (safe capX : Bool)
  | domain (isLocal safe capX : Bool)
  | domainInherit (isLocal safe cap capX : Bool)
  | domainUnconfined (isLocal safe cap capX : Bool)
  deriving DecidableEq

def letter (cap : Bool) (c : Char) : Char := if cap then c.toUpper else c

def domainLetter (isLocal safe : Bool) : Char := letter safe (if isLocal then 'c' else 'p')

def domainPerms (isLocal safe : Bool) : Perm32 :=
  (if safe then 0 else execUnsafe) ||| ((if isLocal then execLocal else execProfile) ||| mayExec)

namespace ModeToken

def text : ModeToken → Text
  | .read cap => [letter cap 'r']
  | .write cap => [letter cap 'w']
  | .append => ['a']
  | .link cap => [letter cap 'l']
  | .mmap cap => [letter cap 'm']
  | .lock => ['k']
  | .exec cap => [letter cap 'x']
  | .inherit cap capX => [letter cap 'i', letter capX 'x']
  | .unconfined safe capX => [letter safe 'u', letter capX 'x']
  | .domain isLocal safe capX => [domainLetter isLocal safe, letter capX 'x']
  | .domainInherit isLocal safe cap capX => [domainLetter isLocal safe, letter cap 'i', letter capX 'x']
  | .domainUnconfined isLocal safe cap capX => [domainLetter isLocal safe, letter cap 'u', letter capX 'x']

def qualifier : ModeToken → Option Perm32
  | .unconfined safe _ => some ((if safe then 0 else execUnsafe) ||| (execUnconfined ||| mayExec))
  | .domain isLocal safe _ => some (domainPerms isLocal safe)
  | .domainInherit isLocal safe _ _ => some (domainPerms isLocal safe ||| execInherit)
  | .domainUnconfined isLocal safe _ _ => some (domainPerms isLocal safe ||| execPux)
  | _ => none

def mask (readImpliesExec : Bool) : ModeToken → Perm32
  | .read _ => if readImpliesExec then mayRead ||| oldExecMmap else mayRead
  | .write _ => mayWrite ||| mayAppend
  | .append => mayAppend
  | .link _ => oldMayLink
  | .mmap _ => oldExecMmap
  | .lock => oldMayLock
  | .exec _ => mayExec
  | .inherit _ _ => execInherit ||| mayExec
  | t => t.qualifier.getD 0

def refused (perms : Perm32) : ModeToken → Bool
  | .write _ => hits perms mayAppend && !hits perms mayWrite
  | .append => hits perms mayWrite
  | .inherit _ _ => hits perms execModifiers
  | t => t.qualifier.any (isDiffQual perms)

def step (readImpliesExec : Bool) (perms : Option Perm32) (t : ModeToken) : Option Perm32 :=
  perms.bind fun perms => if t.refused perms then none else some (perms ||| t.mask readImpliesExec)

/-- The permissions that the tokens give, unless one is refused. -/
def run (readImpliesExec : Bool) (perms : Perm32) (ts : List ModeToken) : Option Perm32 :=
  ts.foldl (step readImpliesExec) (some perms)

end ModeToken

open ModeToken

def PermsResult.toOption : PermsResult → Option Perm32
  | .ok perms => some perms
  | _ => none

def modeText (ts : List ModeToken) : Text := ts.flatMap ModeToken.text

variable {rx : Bool} {perms m : Perm32} {ts : List ModeToken}

theorem parseSubPermsFrom_guarded {g : Bool} {c : Char} {s : Text} {e : PermsError} {k : ℕ}
    (h : stepPerms rx perms c (s.headD '\x00') = if g then .error e else .ok (perms ||| m, k)) :
    (g = true ∧ ∃ e, parseSubPermsFrom rx (c :: s) 0 perms = .error e) ∨
      g = false ∧ parseSubPermsFrom rx (c :: s) 0 perms = parseSubPermsFrom rx s k (perms ||| m) := by
  rw [parseSubPermsFrom, h]
  cases g with
  | true => exact Or.inl ⟨rfl, e, rfl⟩
  | false => exact Or.inr ⟨rfl, rfl⟩

theorem parseSubPermsFrom_token (rx : Bool) (t : ModeToken) (s : Text) (perms : Perm32) :
    (t.refused perms = true ∧ ∃ e, parseSubPermsFrom rx (t.text ++ s) 0 perms = .error e) ∨
      t.refused perms = false ∧ parseSubPermsFrom rx (t.text ++ s) 0 perms =
        parseSubPermsFrom rx s 0 (perms ||| t.mask rx) := by
  cases t with
  | read cap => right; cases cap <;> exact ⟨rfl, rfl⟩
  | write cap =>
    refine parseSubPermsFrom_guarded (c := letter cap 'w') (e := .writeAppend) (k := 0) ?_
    cases cap <;> rfl
  | append => exact parseSubPermsFrom_guarded (c := 'a') (e := .writeAppend) (k := 0) rfl
  | link cap | mmap cap => right; cases cap <;> exact ⟨rfl, rfl⟩
  | lock => right; exact ⟨rfl, rfl⟩
  | exec cap => right; cases cap <;> exact ⟨rfl, rfl⟩
  | inherit cap capX =>
    refine parseSubPermsFrom_guarded (c := letter cap 'i') (s := letter capX 'x' :: s) (e := .inherit) (k := 1) ?_
    cases cap <;> cases capX <;> rfl
  | unconfined safe capX =>
    refine parseSubPermsFrom_guarded (c := letter safe 'u') (s := letter capX 'x' :: s)
      (e := .qualifier (letter safe 'u')) (k := 1) ?_
    cases safe <;> cases capX <;> rfl
  | domain isLocal safe capX =>
    refine parseSubPermsFrom_guarded (c := domainLetter isLocal safe) (s := letter capX 'x' :: s)
      (e := .qualifier (domainLetter isLocal safe)) (k := 1) ?_
    cases isLocal <;> cases safe <;> cases capX <;> rfl
  | domainInherit isLocal safe cap capX =>
    refine parseSubPermsFrom_guarded (c := domainLetter isLocal safe) (s := letter cap 'i' :: letter capX 'x' :: s)
      (e := .qualifierNext (domainLetter isLocal safe) (letter cap 'i')) (k := 2) ?_
    cases isLocal <;> cases safe <;> cases cap <;> rfl
  | domainUnconfined isLocal safe cap capX =>
    refine parseSubPermsFrom_guarded (c := domainLetter isLocal safe) (s := letter cap 'u' :: letter capX 'x' :: s)
      (e := .qualifierNext (domainLetter isLocal safe) (letter cap 'u')) (k := 2) ?_
    cases isLocal <;> cases safe <;> cases cap <;> rfl

theorem foldl_step_none (rx : Bool) (ts : List ModeToken) :
    ts.foldl (step rx) none = none := by
  induction ts with
  | nil => rfl
  | cons t ts ih => exact ih

theorem run_cons (t : ModeToken) :
    run rx perms (t :: ts) = if t.refused perms then none else run rx (perms ||| t.mask rx) ts := by
  rw [run, foldl_cons, step, bind_some]
  split
  · exact foldl_step_none rx ts
  · rfl

theorem run_append {us : List ModeToken} : run rx perms (ts ++ us) = (run rx perms ts).bind fun perms' => run rx perms' us := by
  rw [run, foldl_append, ← run]
  cases run rx perms ts with
  | none => exact foldl_step_none rx us
  | some perms' => rfl

theorem parseSubPermsFrom_tokens (rx : Bool) (ts : List ModeToken) (perms : Perm32) :
    (parseSubPermsFrom rx (modeText ts) 0 perms).toOption =
        run rx perms ts ∧
      parseSubPermsFrom rx (modeText ts) 0 perms ≠ .overrun := by
  induction ts generalizing perms with
  | nil => exact ⟨rfl, by rintro ⟨⟩⟩
  | cons t ts ih =>
    have htext : modeText (t :: ts) = t.text ++ modeText ts := rfl
    rw [htext, run_cons]
    rcases parseSubPermsFrom_token rx t (modeText ts) perms with ⟨href, e, he⟩ | ⟨href, he⟩
    · rw [he, if_pos href]
      exact ⟨rfl, by rintro ⟨⟩⟩
    · rw [he, if_neg (by simp [href])]
      exact ih (perms ||| t.mask rx)

/-! ### The order of the tokens -/

def ModeToken.access : ModeToken → Option Bool
  | .write _ => some true
  | .append => some false
  | _ => none

def accessRefused (canWrite canAppend : Bool) : Option Bool → Bool
  | some true => canAppend && !canWrite
  | some false => canWrite
  | none => false

inductive ExecClass
  | none
  | bare
  | inherit
  | qualifier (q : Perm32)
  deriving DecidableEq

def ModeToken.execClass : ModeToken → ExecClass
  | .exec _ => .bare
  | .inherit _ _ => .inherit
  | t => (t.qualifier.map .qualifier).getD .none

def execRefused (perms : Perm32) : ExecClass → Bool
  | .inherit => hits perms execModifiers
  | .qualifier q => isDiffQual perms q
  | _ => false

def ExecClass.type : ExecClass → Perm32
  | .inherit => execInherit
  | .qualifier q => q &&& execType
  | _ => 0

section Token

variable (rx : Bool) (t : ModeToken)

theorem ModeToken.refused_eq (perms : Perm32) :
    t.refused perms =
      (accessRefused (hits perms mayWrite) (hits perms mayAppend) t.access || execRefused perms t.execClass) := by
  cases t <;> simp [refused, access, execClass, accessRefused, execRefused, qualifier]

theorem ModeToken.mask_bits :
    (hits (t.mask rx) mayWrite = decide (t.access = some true) ∧
      hits (t.mask rx) mayAppend = t.access.isSome) ∧
    hits (t.mask rx) mayExec = decide (t.execClass ≠ .none) ∧
      t.mask rx &&& execType = t.execClass.type := by
  cases t
  case read cap => cases rx <;> decide +revert
  all_goals
    dsimp only [mask, qualifier, access, execClass, Option.getD, Option.map]
    decide +revert

theorem ModeToken.qualifier_modifiers : hits (t.qualifier.getD execModifiers) execModifiers = true := by
  cases t
  all_goals
    dsimp only [qualifier, Option.getD]
    decide +revert

theorem ModeToken.execClass_qualifier {q : Perm32} : t.execClass = .qualifier q ↔ t.qualifier = some q := by
  cases t <;> simp [execClass, qualifier]

end Token

def SanePerms (perms : Perm32) : Prop := hits perms mayExec = false → perms &&& execType = 0

theorem sanePerms_step (h : SanePerms perms) (t : ModeToken) :
    SanePerms (perms ||| t.mask rx) := by
  obtain ⟨-, hexec, htype⟩ := t.mask_bits rx
  intro hnone
  rw [hits_or, Bool.or_eq_false_iff, hexec, decide_eq_false_iff_not, not_not] at hnone
  rw [BitVec.and_or_distrib_right, h hnone.1, htype, hnone.2]
  rfl

theorem accessRefused_comm (canWrite canAppend : Bool) (a b : Option Bool) :
    (accessRefused canWrite canAppend a ||
        accessRefused (canWrite || decide (a = some true)) (canAppend || a.isSome) b) =
      (accessRefused canWrite canAppend b ||
        accessRefused (canWrite || decide (b = some true)) (canAppend || b.isSome) a) := by
  decide +revert

theorem hits_execModifiers (perms : Perm32) : hits perms execModifiers = hits (perms &&& execType) execModifiers := by
  unfold hits
  rw [BitVec.and_assoc, show execType &&& execModifiers = execModifiers by decide]

theorem isDiffQual_or {q : Perm32} (hm : hits m mayExec = true) :
    isDiffQual (perms ||| m) q = ((perms &&& execType) ||| (m &&& execType) != q &&& execType) := by
  rw [isDiffQual, hits_or, hm, Bool.or_true, Bool.true_and, BitVec.and_or_distrib_right]

theorem isDiffQual_comm {q q' m' : Perm32} (hsane : SanePerms perms) (hm : hits m mayExec = true)
    (hm' : hits m' mayExec = true) (ht : m &&& execType = q &&& execType) (ht' : m' &&& execType = q' &&& execType) :
    (isDiffQual perms q || isDiffQual (perms ||| m) q') = (isDiffQual perms q' || isDiffQual (perms ||| m') q) := by
  rw [isDiffQual_or hm, isDiffQual_or hm', ht, ht']
  unfold isDiffQual
  cases hexec : hits perms mayExec with
  | false =>
    rw [hsane hexec]
    simp [bne_comm]
  | true =>
    by_cases hq : perms &&& execType = q &&& execType
    · by_cases hq' : perms &&& execType = q' &&& execType
      · simp [← hq, ← hq']
      · simp [← hq, hq']
    · by_cases hq' : perms &&& execType = q' &&& execType
      · simp [← hq', hq]
      · simp [bne_iff_ne.mpr hq, bne_iff_ne.mpr hq']

def ExecClass.Clash : ExecClass → ExecClass → Prop
  | .bare, .qualifier _ => True
  | .qualifier _, .bare => True
  | _, _ => False

theorem execRefused_or_of_type {c : ExecClass} (hexec : hits m mayExec = false)
    (htype : m &&& execType = 0) : execRefused (perms ||| m) c = execRefused perms c := by
  have hor : (perms ||| m) &&& execType = perms &&& execType := by
    rw [BitVec.and_or_distrib_right, htype]
    simp
  cases c with
  | inherit => rw [execRefused, execRefused, hits_execModifiers, hor, ← hits_execModifiers]
  | qualifier q => rw [execRefused, execRefused, isDiffQual, isDiffQual, hor, hits_or, hexec, Bool.or_false]
  | none | bare => rfl

section Commute

variable (rx : Bool) (perms : Perm32) (t u : ModeToken)

theorem execRefused_inherit {q : Perm32} (ht : t.execClass = .inherit) (hu : u.execClass = .qualifier q) :
    (execRefused perms .inherit || execRefused (perms ||| t.mask rx) (.qualifier q)) = true ∧
      (execRefused perms (.qualifier q) || execRefused (perms ||| u.mask rx) .inherit) = true := by
  obtain ⟨-, hexec, htype⟩ := t.mask_bits rx
  obtain ⟨-, -, htype'⟩ := u.mask_bits rx
  rw [ht] at hexec htype
  rw [hu] at htype'
  have hmod : hits q execModifiers = true := by
    have hq := u.qualifier_modifiers
    rwa [(u.execClass_qualifier).mp hu] at hq
  rw [hits_execModifiers] at hmod
  constructor
  · rw [execRefused, execRefused, isDiffQual_or (by simpa using hexec), Bool.or_eq_true, bne_iff_ne]
    by_cases hnone : hits perms execModifiers = true
    · exact Or.inl hnone
    · right
      intro heq
      apply hnone
      rw [← heq, hits_or, htype] at hmod
      rw [hits_execModifiers]
      simpa [ExecClass.type, show hits execInherit execModifiers = false by decide] using hmod
  · rw [execRefused, execRefused, Bool.or_eq_true, hits_or, hits_execModifiers (u.mask rx), htype']
    right
    rw [ExecClass.type, hmod, Bool.or_true]

theorem execRefused_or_inherit (h : t.execClass = .bare ∨ t.execClass = .inherit) :
    execRefused (perms ||| t.mask rx) .inherit = execRefused perms .inherit := by
  obtain ⟨-, -, htype⟩ := t.mask_bits rx
  have hnone : hits (t.mask rx) execModifiers = false := by
    rw [hits_execModifiers, htype]
    rcases h with h | h <;> rw [h] <;> decide
  rw [execRefused, execRefused, hits_or, hnone, Bool.or_false]

theorem execRefused_comm (hsane : SanePerms perms) (h : ¬t.execClass.Clash u.execClass) :
    (execRefused perms t.execClass || execRefused (perms ||| t.mask rx) u.execClass) =
      (execRefused perms u.execClass || execRefused (perms ||| u.mask rx) t.execClass) := by
  obtain ⟨-, hexec, htype⟩ := t.mask_bits rx
  obtain ⟨-, hexec', htype'⟩ := u.mask_bits rx
  have hnone : ∀ {v : ModeToken} {c : ExecClass}, v.execClass = .none →
      execRefused (perms ||| v.mask rx) c = execRefused perms c := by
    intro v c hv
    obtain ⟨-, hexec, htype⟩ := v.mask_bits rx
    rw [hv] at hexec htype
    exact execRefused_or_of_type (by simpa using hexec) htype
  cases ht : t.execClass with
  | none => rw [hnone ht]; simp [execRefused]
  | bare =>
    cases hu : u.execClass with
    | none => rw [hnone hu]; simp [execRefused]
    | bare => rfl
    | inherit => rw [execRefused_or_inherit rx perms t (Or.inl ht)]; simp [execRefused]
    | qualifier q =>
      rw [ht, hu] at h
      exact absurd trivial h
  | inherit =>
    cases hu : u.execClass with
    | none => rw [hnone hu]; simp [execRefused]
    | bare => rw [execRefused_or_inherit rx perms u (Or.inl hu)]; simp [execRefused]
    | inherit => rw [execRefused_or_inherit rx perms t (Or.inr ht), execRefused_or_inherit rx perms u (Or.inr hu)]
    | qualifier q =>
      obtain ⟨hleft, hright⟩ := execRefused_inherit rx perms t u ht hu
      rw [hleft, hright]
  | qualifier q =>
    cases hu : u.execClass with
    | none => rw [hnone hu]; simp [execRefused]
    | bare =>
      rw [ht, hu] at h
      exact absurd trivial h
    | inherit =>
      obtain ⟨hleft, hright⟩ := execRefused_inherit rx perms u t hu ht
      rw [hleft, hright]
    | qualifier q' =>
      rw [ht] at hexec htype
      rw [hu] at hexec' htype'
      exact isDiffQual_comm hsane (by simpa using hexec) (by simpa using hexec') htype htype'

theorem step_comm (hsane : SanePerms perms) (h : ¬t.execClass.Clash u.execClass) :
    step rx (step rx (some perms) t) u =
      step rx (step rx (some perms) u) t := by
  have htwo : ∀ v w : ModeToken, step rx (step rx (some perms) v) w =
      if v.refused perms || w.refused (perms ||| v.mask rx) then none
      else some (perms ||| v.mask rx ||| w.mask rx) := by
    intro v w
    unfold step
    rw [bind_some]
    cases hv : v.refused perms <;> simp
  have hrefused : (t.refused perms || u.refused (perms ||| t.mask rx)) =
      (u.refused perms || t.refused (perms ||| u.mask rx)) := by
    obtain ⟨⟨htw, hta⟩, -⟩ := t.mask_bits rx
    obtain ⟨⟨huw, hua⟩, -⟩ := u.mask_bits rx
    have haccess := accessRefused_comm (hits perms mayWrite) (hits perms mayAppend) t.access u.access
    have hexec := execRefused_comm rx perms t u hsane h
    simp only [refused_eq, hits_or, htw, hta, huw, hua]
    have hparts : ∀ a e a' e' : Bool, ((a || e) || (a' || e')) = ((a || a') || (e || e')) := by decide
    rw [hparts, haccess, hexec, hparts]
  rw [htwo, htwo, hrefused, BitVec.or_assoc, BitVec.or_comm (t.mask rx), ← BitVec.or_assoc]

end Commute

theorem foldl_perm {α β : Type} {f : β → α → β} {I : β → Prop} {l l' : List α} (h : l.Perm l')
    (hstep : ∀ z x, I z → I (f z x)) (hcomm : ∀ x ∈ l, ∀ y ∈ l, ∀ z, I z → f (f z x) y = f (f z y) x) (z : β)
    (hz : I z) : l.foldl f z = l'.foldl f z := by
  induction h generalizing z with
  | nil => rfl
  | cons a h ih =>
    exact ih (fun x hx y hy => hcomm x (mem_cons_of_mem a hx) y (mem_cons_of_mem a hy)) _ (hstep z a hz)
  | swap a b l =>
    rw [foldl_cons, foldl_cons, foldl_cons, foldl_cons, hcomm b (by simp) a (by simp) z hz]
  | trans h₁ h₂ ih₁ ih₂ =>
    rw [ih₁ hcomm z hz, ih₂ (fun x hx y hy => hcomm x (h₁.mem_iff.mpr hx) y (h₁.mem_iff.mpr hy)) z hz]

def bareExec (ts : List ModeToken) : Prop := ∃ t ∈ ts, t.execClass = .bare

def qualifiedExec (ts : List ModeToken) : Prop := ∃ t ∈ ts, ∃ q, t.execClass = .qualifier q

theorem run_perm {ts' : List ModeToken} (h : ts.Perm ts')
    (hts : ¬(bareExec ts ∧ qualifiedExec ts)) :
    run rx 0 ts = run rx 0 ts' := by
  refine foldl_perm (I := fun z => ∀ perms, z = some perms → SanePerms perms) h ?_ ?_ _ ?_
  · rintro z t hz perms hperms
    obtain ⟨perms', rfl, hsome⟩ := bind_eq_some_iff.mp hperms
    split at hsome
    · cases hsome
    · cases hsome
      exact sanePerms_step (hz perms' rfl) t
  · intro t ht u hu z hz
    cases z with
    | none => rfl
    | some perms =>
      refine step_comm rx perms t u (hz perms rfl) fun hclash => hts ?_
      cases hct : t.execClass <;> cases hcu : u.execClass <;> rw [hct, hcu] at hclash <;> try exact absurd hclash id
      · exact ⟨⟨t, ht, hct⟩, u, hu, _, hcu⟩
      · exact ⟨⟨u, hu, hcu⟩, t, ht, _, hct⟩
  · rintro perms ⟨⟩ -
    rfl

theorem run_qualified (h : qualifiedExec ts)
    (hexec : hits perms mayExec = true) (hmod : hits perms execModifiers = false) :
    run rx perms ts = none := by
  induction ts generalizing perms with
  | nil =>
    obtain ⟨t, ht, -⟩ := h
    cases ht
  | cons t ts ih =>
    rw [run_cons]
    split
    · rfl
    · next hrefused =>
      rw [refused_eq, Bool.or_eq_true, not_or] at hrefused
      obtain ⟨-, -, htype⟩ := t.mask_bits rx
      have hclass : ∀ q, t.execClass ≠ .qualifier q := by
        intro q hq
        apply hrefused.2
        rw [hq, execRefused, isDiffQual, hexec, Bool.true_and, bne_iff_ne]
        intro heq
        have hqmod := t.qualifier_modifiers
        rw [(t.execClass_qualifier).mp hq, getD_some, hits_execModifiers, ← heq, ← hits_execModifiers, hmod] at hqmod
        cases hqmod
      apply ih
      · obtain ⟨u, hu, q, hq⟩ := h
        rcases mem_cons.mp hu with rfl | hu
        · exact absurd hq (hclass q)
        · exact ⟨u, hu, q, hq⟩
      · rw [hits_or, hexec, Bool.true_or]
      · rw [hits_or, hmod, Bool.false_or, hits_execModifiers, htype]
        cases hc : t.execClass with
        | qualifier q => exact absurd hc (hclass q)
        | none | bare | inherit => decide

theorem parsePerms_tokens (rx : Bool) (ts : List ModeToken) :
    (parsePerms rx (modeText ts)).toOption =
        (run rx 0 ts).bind (fun tmp =>
          let perms := shiftPerms tmp 0 ||| shiftPerms tmp otherShift
          if hits perms (~~~filePerms) then none else some perms) ∧
      parsePerms rx (modeText ts) ≠ .overrun := by
  obtain ⟨hfold, hover⟩ := parseSubPermsFrom_tokens rx ts 0
  rw [← hfold, parsePerms]
  cases hresult : parseSubPermsFrom rx (modeText ts) 0 0 with
  | ok tmp =>
    by_cases hinvalid : hits (shiftPerms tmp 0 ||| shiftPerms tmp otherShift) (~~~filePerms) = true
    · simp [PermsResult.toOption, hinvalid]
    · simp [PermsResult.toOption, hinvalid]
  | error e => exact ⟨rfl, by rintro ⟨⟩⟩
  | overrun => exact absurd hresult hover

/-! ### Tokens that no order reconciles -/

/-- `a` with `w`, or a qualifier with `ix` or with another qualifier. -/
def ModeToken.Conflicts (t u : ModeToken) : Prop :=
  (t.access = some false ∧ u.access = some true) ∨ ∃ q, u.execClass = .qualifier q ∧
    (t.execClass = .inherit ∨ ∃ q', t.execClass = .qualifier q' ∧ q' &&& execType ≠ q &&& execType)

def totalMask (rx : Bool) (ts : List ModeToken) : Perm32 :=
  ts.foldl (fun perms t => perms ||| t.mask rx) 0

section Conflict

variable {t u : ModeToken}

@[simp] theorem totalMask_nil : totalMask rx [] = 0 := rfl

theorem totalMask_concat : totalMask rx (ts ++ [t]) = totalMask rx ts ||| t.mask rx := by
  rw [totalMask, foldl_append]
  rfl

theorem totalMask_access : hits (totalMask rx ts) mayWrite = ts.any (fun t => t.access = some true) ∧
    hits (totalMask rx ts) mayAppend = ts.any fun t => t.access.isSome := by
  induction ts using reverseRecOn with
  | nil => simp [hits]
  | append_singleton ts t ih =>
    obtain ⟨⟨hw, ha⟩, -⟩ := t.mask_bits rx
    rw [totalMask_concat, hits_or, hits_or, ih.1, ih.2, hw, ha]
    simp

theorem totalMask_exec : hits (totalMask rx ts) mayExec = ts.any fun t => t.execClass ≠ .none := by
  induction ts using reverseRecOn with
  | nil => simp [hits]
  | append_singleton ts t ih =>
    obtain ⟨-, hexec, -⟩ := t.mask_bits rx
    rw [totalMask_concat, hits_or, ih, hexec]
    simp

theorem totalMask_type {v : Perm32} (h : ∀ t ∈ ts, t.execClass.type = 0 ∨ t.execClass.type = v) :
    totalMask rx ts &&& execType = if ∃ t ∈ ts, t.execClass.type = v then v else 0 := by
  induction ts using reverseRecOn with
  | nil => simp
  | append_singleton ts t ih =>
    obtain ⟨-, -, htype⟩ := t.mask_bits rx
    rw [totalMask_concat, BitVec.and_or_distrib_right, ih fun u hu => h u (mem_append_left _ hu), htype]
    rcases h t (by simp) with h₀ | hv
    · by_cases hv : v = 0
      · simp [h₀, hv]
      · have hne : t.execClass.type ≠ v := by rw [h₀]; exact Ne.symm hv
        have hmem : (∃ u ∈ ts ++ [t], u.execClass.type = v) ↔ ∃ u ∈ ts, u.execClass.type = v := by
          simp [hne]
        rw [h₀, if_congr hmem rfl rfl]
        exact BitVec.or_zero
    · split_ifs <;> simp_all

theorem run_total (h : run rx 0 ts = some perms) : perms = totalMask rx ts := by
  induction ts using reverseRecOn generalizing perms with
  | nil => exact (some.inj h).symm
  | append_singleton ts t ih =>
    rw [run_append] at h
    obtain ⟨perms', hts, ht⟩ := bind_eq_some_iff.mp h
    rw [run_cons, ih hts] at ht
    split_ifs at ht
    rw [totalMask_concat]
    exact (some.inj ht).symm

theorem ModeToken.qualifier_type {q : Perm32} (h : t.execClass = .qualifier q) : q &&& execType ≠ 0 ∧ q &&& execType ≠ execInherit := by
  have hmod := t.qualifier_modifiers
  rw [(t.execClass_qualifier).mp h, getD_some, hits_execModifiers] at hmod
  constructor
  all_goals
    intro he
    rw [he] at hmod
    revert hmod
    decide

theorem refused_totalMask (hbare : ∀ u ∈ ts, u.execClass ≠ .bare) (h : ∀ u ∈ ts, ¬ u.Conflicts t ∧ ¬ t.Conflicts u) :
    t.refused (totalMask rx ts) = false := by
  obtain ⟨hw, ha⟩ := @totalMask_access rx ts
  rw [refused_eq, Bool.or_eq_false_iff, hw, ha]
  constructor
  · cases hacc : t.access with
    | none => rfl
    | some write =>
      cases write with
      | false =>
        rw [accessRefused, List.any_eq_false]
        intro u hu hwrite
        exact (h u hu).2 (Or.inl ⟨hacc, of_decide_eq_true hwrite⟩)
      | true =>
        rw [accessRefused, Bool.and_eq_false_iff, Bool.not_eq_false', List.any_eq_false, List.any_eq_true]
        by_cases hany : ∃ u ∈ ts, u.access = some true
        · obtain ⟨u, hu, hwrite⟩ := hany
          exact Or.inr ⟨u, hu, decide_eq_true hwrite⟩
        · refine Or.inl fun u hu hsome => ?_
          obtain ⟨w, hacc'⟩ := isSome_iff_exists.mp hsome
          cases w with
          | false => exact (h u hu).1 (Or.inl ⟨hacc', hacc⟩)
          | true => exact hany ⟨u, hu, hacc'⟩
  · cases hclass : t.execClass with
    | none | bare => rfl
    | inherit =>
      have htype : ∀ u ∈ ts, u.execClass.type = 0 ∨ u.execClass.type = execInherit := by
        intro u hu
        cases hu' : u.execClass with
        | none | bare => exact Or.inl rfl
        | inherit => exact Or.inr rfl
        | qualifier q => exact absurd (Or.inr ⟨q, hu', Or.inl hclass⟩) (h u hu).2
      rw [execRefused, hits_execModifiers, totalMask_type htype]
      split_ifs <;> decide
    | qualifier q =>
      have hclasses : ∀ u ∈ ts, u.execClass = .none ∨ u.execClass.type = q &&& execType := by
        intro u hu
        cases hu' : u.execClass with
        | none => exact Or.inl rfl
        | bare => exact absurd hu' (hbare u hu)
        | inherit => exact absurd (Or.inr ⟨q, hclass, Or.inl hu'⟩) (h u hu).1
        | qualifier q' =>
          refine Or.inr ?_
          by_contra hne
          exact (h u hu).1 (Or.inr ⟨q, hclass, Or.inr ⟨q', hu', hne⟩⟩)
      have htype : ∀ u ∈ ts, u.execClass.type = 0 ∨ u.execClass.type = q &&& execType := fun u hu =>
        (hclasses u hu).imp (fun h => by rw [h]; rfl) id
      rw [execRefused, isDiffQual, totalMask_exec, totalMask_type htype, Bool.and_eq_false_iff]
      by_cases hany : ∃ u ∈ ts, u.execClass ≠ .none
      · obtain ⟨u, hu, hne⟩ := hany
        rw [if_pos ⟨u, hu, (hclasses u hu).resolve_left hne⟩]
        exact Or.inr (by simp)
      · exact Or.inl (List.any_eq_false.mpr fun u hu hne => hany ⟨u, hu, of_decide_eq_true hne⟩)

theorem run_isSome (hbare : ∀ t ∈ ts, t.execClass ≠ .bare) (h : ∀ t ∈ ts, ∀ u ∈ ts, ¬ t.Conflicts u) :
    (run rx 0 ts).isSome := by
  induction ts using reverseRecOn with
  | nil => rfl
  | append_singleton ts t ih =>
    have hleft : ∀ u ∈ ts, u ∈ ts ++ [t] := fun u hu => mem_append_left _ hu
    obtain ⟨perms, hts⟩ := isSome_iff_exists.mp
      (ih (fun u hu => hbare u (hleft u hu)) fun u hu v hv => h u (hleft u hu) v (hleft v hv))
    have hrefused := @refused_totalMask rx ts t (fun u hu => hbare u (hleft u hu)) fun u hu =>
      ⟨h u (hleft u hu) t (by simp), h t (by simp) u (hleft u hu)⟩
    rw [run_append, hts, bind_some, run_cons, run_total hts, hrefused]
    rfl

theorem run_conflict (h : t.Conflicts u) : run rx 0 (t :: u :: ts) = none := by
  obtain ⟨⟨htw, hta⟩, hexec, htype⟩ := t.mask_bits rx
  have hzero : (0 : Perm32) ||| t.mask rx = t.mask rx := BitVec.zero_or
  have hrefused : u.refused (t.mask rx) = true := by
    rw [refused_eq, Bool.or_eq_true]
    rcases h with ⟨ht, hu⟩ | ⟨q, hu, ht⟩
    · left
      rw [hu, accessRefused, htw, hta, ht]
      rfl
    · right
      rw [hu, execRefused, isDiffQual, hexec, htype, Bool.and_eq_true, decide_eq_true_eq, bne_iff_ne]
      rcases ht with ht | ⟨q', ht, hne⟩
      · rw [ht]
        exact ⟨by decide, Ne.symm (u.qualifier_type hu).2⟩
      · rw [ht]
        exact ⟨by rintro ⟨⟩, hne⟩
  rw [run_cons, run_cons, hzero, if_pos hrefused, ite_self]

/-- The bare `x` only makes a string harder to accept. -/
theorem run_filter {perms' : Perm32} (hperms : perms = perms' ∨ perms = perms' ||| mayExec)
    (h : (run rx perms ts).isSome) :
    (run rx perms' (ts.filter fun t => t.execClass ≠ .bare)).isSome := by
  induction ts generalizing perms perms' with
  | nil => rfl
  | cons t ts ih =>
    rw [run_cons] at h
    by_cases hrefused : t.refused perms = true
    · rw [if_pos hrefused] at h
      cases h
    rw [if_neg hrefused] at h
    rw [filter_cons]
    have hor : ∀ m, perms ||| m = perms' ||| m ∨ perms ||| m = perms' ||| m ||| mayExec := by
      intro m
      refine hperms.imp (fun he => by rw [he]) fun he => ?_
      rw [he, BitVec.or_assoc, BitVec.or_comm mayExec, BitVec.or_assoc]
    by_cases hbare : t.execClass = .bare
    · rw [if_neg (by simp [hbare])]
      have hmask : t.mask rx = mayExec := by
        cases t <;> simp [execClass, qualifier] at hbare
        rfl
      rw [hmask] at h
      refine ih (Or.inr ?_) h
      rcases hperms with rfl | rfl
      · rfl
      · rw [BitVec.or_assoc, BitVec.or_self]
    · rw [if_pos (by simp [hbare]), run_cons]
      have hless : t.refused perms' = true → t.refused perms = true := by
        have hbits : hits perms mayWrite = hits perms' mayWrite ∧ hits perms mayAppend = hits perms' mayAppend ∧
            perms &&& execType = perms' &&& execType := by
          rcases hperms with rfl | rfl
          · exact ⟨rfl, rfl, rfl⟩
          · refine ⟨?_, ?_, ?_⟩
            · rw [hits_or, show hits mayExec mayWrite = false by decide, Bool.or_false]
            · rw [hits_or, show hits mayExec mayAppend = false by decide, Bool.or_false]
            · rw [BitVec.and_or_distrib_right, show mayExec &&& execType = 0 by decide]
              exact BitVec.or_zero
        have hexec : hits perms' mayExec = true → hits perms mayExec = true := by
          intro hhit
          rcases hperms with rfl | rfl
          · exact hhit
          · rw [hits_or, hhit, Bool.true_or]
        rw [refused_eq, refused_eq, hbits.1, hbits.2.1, Bool.or_eq_true, Bool.or_eq_true]
        refine Or.imp_right fun h => ?_
        cases hclass : t.execClass with
        | none | bare =>
          rw [hclass] at h
          cases h
        | inherit =>
          rw [hclass, execRefused, hits_execModifiers, ← hbits.2.2] at h
          rwa [execRefused, hits_execModifiers]
        | qualifier q =>
          rw [hclass, execRefused, isDiffQual, Bool.and_eq_true] at h
          rw [execRefused, isDiffQual, hbits.2.2, hexec h.1, h.2]
          rfl
      rw [if_neg fun hr => hrefused (hless hr)]
      exact ih (hor _) h

theorem valid_totalMask (rx : Bool) (ts : List ModeToken) :
    hits (shiftPerms (totalMask rx ts) 0 ||| shiftPerms (totalMask rx ts) otherShift) (~~~filePerms) =
      false := by
  have hzero : totalMask rx ts &&& ~~~filePerms = 0 := by
    induction ts using reverseRecOn with
    | nil => simp
    | append_singleton ts t ih =>
      have hmask : t.mask rx &&& ~~~filePerms = 0 := by
        cases t <;> cases rx <;> decide +revert
      rw [totalMask_concat, BitVec.and_or_distrib_right, ih, hmask]
      rfl
  have hbase : ∀ shift, shift = 0 ∨ shift = otherShift → ((totalMask rx ts &&& basePerms) <<< shift) &&& ~~~filePerms = 0 := by
    have hbits : ∀ b < 32, ∀ shift, shift = 0 ∨ shift = otherShift → (~~~filePerms).getLsbD b = true →
        (basePerms <<< shift).getLsbD b = false := by
      rintro b hb shift (rfl | rfl) <;> revert b <;> decide
    intro shift hshift
    refine BitVec.eq_of_getLsbD_eq fun b hb => ?_
    have hb' := hbits b hb shift hshift
    simp only [BitVec.getLsbD_and, BitVec.getLsbD_shiftLeft] at hb' ⊢
    cases hf : (~~~filePerms).getLsbD b with
    | false => simp
    | true =>
      have := hb' hf
      grind
  simp only [hits, shiftPerms, BitVec.and_or_distrib_right, hbase 0 (Or.inl rfl), hbase otherShift (Or.inr rfl), hzero]
  decide

theorem parsePerms_accepted {ts : List ModeToken} : (parsePerms rx (modeText ts)).toOption = none ↔
    run rx 0 ts = none := by
  rw [(parsePerms_tokens rx ts).1]
  cases h : run rx 0 ts with
  | none => simp
  | some perms =>
    have hvalid := valid_totalMask rx ts
    rw [← run_total h] at hvalid
    simp [hvalid]

/-- A string whose tokens conflict is refused in every order, and only that. -/
theorem refused_always_iff : (∀ ts' : List ModeToken, ts'.Perm ts → run rx 0 ts' = none) ↔
    ∃ t ∈ ts, ∃ u ∈ ts, t.Conflicts u := by
  constructor
  · intro h
    by_contra hnone
    have hfree : ∀ t ∈ ts, ∀ u ∈ ts, ¬ t.Conflicts u := fun t ht u hu hc => hnone ⟨t, ht, u, hu, hc⟩
    -- the bare ones last
    have hrefused := h _ (filter_append_perm (fun t => t.execClass ≠ .bare) ts)
    have hsome := @run_isSome rx (ts.filter fun t => t.execClass ≠ .bare)
      (fun t ht => by simpa using (mem_filter.mp ht).2) fun t ht u hu => hfree t (mem_of_mem_filter ht) u (mem_of_mem_filter hu)
    obtain ⟨perms, hperms⟩ := isSome_iff_exists.mp hsome
    rw [run_append, hperms, bind_some] at hrefused
    have hlast : ∀ (l : List ModeToken) (perms : Perm32), (∀ t ∈ l, t.execClass = .bare) → (run rx perms l).isSome := by
      intro l
      induction l with
      | nil => exact fun _ _ => rfl
      | cons t l ih =>
        intro perms hl
        have hfalse : t.refused perms = false := by
          have ht := hl t mem_cons_self
          cases t <;> simp [execClass, qualifier] at ht
          rfl
        rw [run_cons, hfalse]
        exact ih _ fun u hu => hl u (mem_cons_of_mem t hu)
    have hbare := hlast (ts.filter fun t => !decide (t.execClass ≠ .bare)) perms fun t ht => by simpa using (mem_filter.mp ht).2
    rw [hrefused] at hbare
    cases hbare
  · rintro ⟨t, ht, u, hu, hc⟩ ts' hperm
    by_contra hsome
    have hfilter := run_filter (Or.inl rfl) (Option.ne_none_iff_isSome.mp hsome)
    have hnotbare : t.execClass ≠ .bare ∧ u.execClass ≠ .bare ∧ t ≠ u := by
      rcases hc with ⟨hta, hua⟩ | ⟨q, huc, htc⟩
      · refine ⟨?_, ?_, by rintro rfl; rw [hta] at hua; cases hua⟩
        · cases t <;> simp [access] at hta
          decide
        · cases u <;> simp [access] at hua
          rintro ⟨⟩
      · rcases htc with htc | ⟨q', htc, hne⟩
        · refine ⟨by rw [htc]; rintro ⟨⟩, by rw [huc]; rintro ⟨⟩, ?_⟩
          rintro rfl
          rw [htc] at huc
          cases huc
        · refine ⟨by rw [htc]; rintro ⟨⟩, by rw [huc]; rintro ⟨⟩, ?_⟩
          rintro rfl
          rw [htc] at huc
          cases huc
          exact hne rfl
    have hmem : ∀ v ∈ ts, v.execClass ≠ .bare → v ∈ ts'.filter fun t => t.execClass ≠ .bare := fun v hv hne =>
      mem_filter.mpr ⟨hperm.mem_iff.mpr hv, decide_eq_true hne⟩
    have htm := hmem t ht hnotbare.1
    have hum := (mem_erase_of_ne hnotbare.2.2.symm).mpr (hmem u hu hnotbare.2.1)
    have hfront : (t :: u :: ((ts'.filter fun t => t.execClass ≠ .bare).erase t).erase u).Perm
        (ts'.filter fun t => t.execClass ≠ .bare) := ((perm_cons_erase hum).symm.cons t).trans (perm_cons_erase htm).symm
    have hsame := @run_perm rx _ _ hfront (by
      rintro ⟨⟨v, hv, hbare⟩, -⟩
      exact absurd hbare (of_decide_eq_true (mem_filter.mp (hfront.mem_iff.mp hv)).2))
    rw [← hsame, run_conflict hc] at hfilter
    cases hfilter

end Conflict

/-- All orders of the tokens are refused or give the same permissions, without a read after the end, exactly if there is
no bare `x` beside a qualifier, or two tokens conflict. -/
theorem parsePerms_reorder_iff (rx : Bool) (ts : List ModeToken) :
    (∀ ts', ts'.Perm ts →
        (parsePerms rx (modeText ts')).toOption = (parsePerms rx (modeText ts)).toOption ∧
          parsePerms rx (modeText ts') ≠ .overrun) ↔
      ¬(bareExec ts ∧ qualifiedExec ts) ∨ ∃ t ∈ ts, ∃ u ∈ ts, t.Conflicts u := by
  rw [← @refused_always_iff rx]
  constructor
  · intro h
    by_cases hts : bareExec ts ∧ qualifiedExec ts
    · right
      obtain ⟨⟨t, ht, hbare⟩, u, hu, q, hq⟩ := hts
      -- the order that begins with the bare `x` is refused
      have hfirst : (t :: ts.erase t).Perm ts := (perm_cons_erase ht).symm
      have hqualified : qualifiedExec (ts.erase t) := by
        refine ⟨u, ?_, q, hq⟩
        rcases mem_cons.mp (hfirst.mem_iff.mpr hu) with rfl | hmem
        · rw [hbare] at hq
          cases hq
        · exact hmem
      obtain ⟨-, hexec, htype⟩ := t.mask_bits rx
      rw [hbare] at hexec htype
      have hrefused : t.refused 0 = false := by
        cases t <;> rfl
      have hnone : run rx 0 (t :: ts.erase t) = none := by
        rw [run_cons, if_neg (by rw [hrefused]; exact Bool.false_ne_true)]
        refine run_qualified hqualified ?_ ?_
        · rw [hits_or, hexec]
          rfl
        · rw [hits_or, hits_execModifiers (t.mask rx), htype]
          decide
      have hrejected := parsePerms_accepted.mpr hnone
      rw [(h _ hfirst).1] at hrejected
      intro ts' hperm
      apply parsePerms_accepted.mp
      rw [(h ts' hperm).1, hrejected]
    · exact Or.inl hts
  · intro h ts' hperm
    refine ⟨?_, (parsePerms_tokens rx ts').2⟩
    rcases h with hts | hnone
    · rw [(parsePerms_tokens rx ts').1, (parsePerms_tokens rx ts).1,
        run_perm hperm.symm hts]
    · rw [parsePerms_accepted.mpr (hnone ts' hperm), parsePerms_accepted.mpr (hnone ts (List.Perm.refl ts))]

theorem bare_exec_order :
    modeText [.unconfined false false, .exec false] = "uxx".toList ∧ modeText [.exec false, .unconfined false false] = "xux".toList ∧
      (∃ perms, parsePerms false "uxx".toList = .ok perms) ∧ parsePerms false "xux".toList = .error (.qualifier 'u') := by
  refine ⟨by decide, by decide, ⟨_, rfl⟩, by decide⟩

end AppArmor

import AppArmor.Perms.Bits
import AppArmor.Lib.RankFold

namespace AppArmor.Resolve

open Perm

def bit (i : ℕ) : Perm32 := 1#32 <<< i

def xmask (filedfa : Bool) (i : ℕ) : Perm32 :=
  if filedfa then
    if hits (bit i) userExec then userExecType
    else if hits (bit i) otherExec then otherExecType
    else 0
  else 0

def amask (filedfa : Bool) (i : ℕ) : Perm32 := bit i ||| xmask filedfa i

def scaledPriority (i : ℕ) (m : MatchFlag) : ℤ :=
  m.priority * 4 +
    match m.kind with
    | .deny => 3
    | .exact => if hits (bit i) execBits then 2 else 1
    | .allow => 1
    | .prompt => 0

structure Acc where
  priority : ℕ → ℤ
  perms : PermsT

def conflict (filedfa : Bool) (i : ℕ) (m : MatchFlag) (p : PermsT) : Bool :=
  filedfa && xmask filedfa i != 0 && hits p.allow (amask filedfa i) &&
    !isMergedXConsistent p.allow (m.perms &&& amask filedfa i)

def merge (filedfa : Bool) (i : ℕ) (p : PermsT) (m : MatchFlag) : PermsT :=
  let a := amask filedfa i
  let x := xmask filedfa i
  match m.kind with
  | .deny =>
    { allow := (p.allow &&& ~~~a) ||| (m.perms &&& a &&& compatContMatch)
      deny := p.deny ||| (m.perms &&& a)
      prompt := p.prompt &&& ~~~a
      audit := p.audit &&& ~~~a
      quiet := p.quiet ||| (m.audit &&& a) }
  | .exact =>
    { p with
      allow := (p.allow &&& ~~~x) ||| (m.perms &&& a)
      prompt := p.prompt &&& ~~~x
      audit := (p.audit &&& ~~~x) ||| (m.audit &&& a) }
  | .allow =>
    { p with
      allow := p.allow ||| (m.perms &&& a)
      audit := p.audit ||| (m.audit &&& a) }
  | .prompt =>
    { p with
      prompt := p.prompt ||| (m.perms &&& a)
      audit := p.audit ||| (m.audit &&& a) }

def applyMatch (filedfa : Bool) (i : ℕ) (p : PermsT) (m : MatchFlag) : Option PermsT :=
  if m.kind ≠ .deny ∧ conflict filedfa i m p then none else some (merge filedfa i p m)

def priUpdatePerm (filedfa : Bool) (i : ℕ) (m : MatchFlag) (s : Acc) : Option Acc :=
  let pri := scaledPriority i m
  if pri < s.priority i then some s
  else
    let p := if s.priority i < pri then s.perms.clearBits (amask filedfa i) else s.perms
    (applyMatch filedfa i p m).map (fun q => ⟨Function.update s.priority i pri, q⟩)

def check (filedfa : Bool) (m : MatchFlag) : Perm32 :=
  if filedfa then (m.perms ||| m.audit) &&& ~~~allExecType else m.perms ||| m.audit

def carries (filedfa : Bool) (i : ℕ) (m : MatchFlag) : Bool := (check filedfa m).getLsbD i

def checkBits (filedfa : Bool) (m : MatchFlag) : List ℕ :=
  (List.range 32).filter (fun i => carries filedfa i m)

def visit (filedfa : Bool) (s : Acc) (m : MatchFlag) : Option Acc :=
  (checkBits filedfa m).foldlM (fun s i => priUpdatePerm filedfa i m s) s

def initialPriority : ℤ := minInternalPriority * 4

def accInit : Acc := ⟨fun _ => initialPriority, PermsT.clear⟩

def addImpliedIxMmap (priority : ℕ → ℤ) (mask : Perm32) : (ℕ → ℤ) × Perm32 :=
  let s :=
    if hits mask mayExec && hits mask execInherit && priority execMmapShift ≤ priority mayExecShift then
      (Function.update priority execMmapShift (priority mayExecShift), mask ||| userExecMmap)
    else (priority, mask)
  if hits s.2 otherExec && hits s.2 otherExecInherit && s.1 execOtherMmapShift ≤ s.1 mayOtherExecShift then
    (Function.update s.1 execOtherMmapShift (s.1 mayOtherExecShift), s.2 ||| otherExecMmap)
  else s

def impliedMmap (filedfa : Bool) (s : Acc) : PermsT :=
  if filedfa && hits s.perms.allow execBits then
    { s.perms with allow := (addImpliedIxMmap s.priority s.perms.allow).2 }
  else s.perms

def permsT (filedfa : Bool) (flags : List MatchFlag) : Option PermsT :=
  (flags.foldlM (visit filedfa) accInit).map (impliedMmap filedfa)

end AppArmor.Resolve

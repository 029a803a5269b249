import AppArmor.File.Entry

namespace AppArmor

open Perm

namespace Perm

def basePerms : Perm32 :=
  mayExec ||| mayWrite ||| mayRead ||| mayAppend ||| oldMayLink ||| oldMayLock ||| execPux ||| oldExecMmap |||
    execUnsafe ||| execInherit ||| execModifiers
def userPerms : Perm32 := basePerms
def otherPerms : Perm32 := basePerms <<< otherShift
def sharedPerms : Perm32 := 1#32 <<< 30 ||| changeProfile

end Perm

inductive OwnerT
  | unspecified
  | specified
  | not
  deriving DecidableEq

structure Prefixes where
  priority : ℤ
  audit : AuditT
  ruleMode : RuleMode
  owner : OwnerT
  deriving DecidableEq

inductive PrefixError
  | conflictingMode
  | conflictingAudit
  | denyExecQualifier
  | missingExecQualifier
  deriving DecidableEq

def checkXQualifier (e : CodEntry) : Except PrefixError CodEntry :=
  if hits e.perms execBits then
    if e.ruleMode = .deny ∧ hits e.perms allExecType then .error .denyExecQualifier
    else if e.ruleMode ≠ .deny ∧ !hits e.perms allExecType then .error .missingExecQualifier
    else .ok e
  else .ok e

def impliedAudit (e : CodEntry) (p : Prefixes) : CodEntry :=
  if (p.ruleMode = .deny ∨ e.ruleMode = .deny) ∧ (p.audit = .force ∨ e.audit = .force) then
    { e with ruleMode := .deny, audit := .unspecified }
  else if p.ruleMode = .deny then { e with ruleMode := .deny, audit := .implied }
  else if p.audit ≠ .unspecified then { e with audit := p.audit }
  else e

def genericAddPrefix (e : CodEntry) (p : Prefixes) : Except PrefixError CodEntry :=
  if p.ruleMode ≠ .unspecified ∧ e.ruleMode ≠ .unspecified ∧ e.ruleMode ≠ p.ruleMode then .error .conflictingMode
  else
    let e := if p.ruleMode ≠ .unspecified then { e with ruleMode := p.ruleMode } else e
    let e := if p.priority ≠ 0 then { e with priority := p.priority } else e
    if p.audit ≠ .unspecified ∧ e.audit ≠ .unspecified ∧ e.audit ≠ .implied ∧ !e.audit.eq p.audit then
      .error .conflictingAudit
    else .ok (impliedAudit e p)

def restrictOwner (owner : OwnerT) (perms : Perm32) : Perm32 :=
  match owner with
  | .unspecified => perms
  | .specified => perms &&& (userPerms ||| sharedPerms)
  | .not => perms &&& (otherPerms ||| sharedPerms)

def entryAddPrefix (e : CodEntry) (p : Prefixes) : Except PrefixError CodEntry := do
  let e ← genericAddPrefix e p
  checkXQualifier { e with perms := restrictOwner p.owner e.perms }

def allFileEntries (p : Prefixes) : Except PrefixError (List CodEntry) := do
  let perms := basePerms &&& ~~~(execType ||| mayExec)
  let perms := if p.ruleMode ≠ .deny then perms ||| perms <<< otherShift else perms
  let file ← entryAddPrefix (newEntry "/\x7b**,\x7d".toList perms none) p
  let exec := if p.ruleMode ≠ .deny then mayExec ||| execInherit else mayExec
  let exec := exec ||| exec <<< otherShift
  let ix ← entryAddPrefix (newEntry "/\x7b**,\x7d".toList exec none) { p with priority := p.priority - 1 }
  return [file, ix]

end AppArmor

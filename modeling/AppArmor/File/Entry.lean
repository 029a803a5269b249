import AppArmor.Expr.Aare
import AppArmor.Glob.Convert
import AppArmor.Glob.Regex

namespace AppArmor

open Perm

inductive AuditT
  | unspecified
  | implied
  | force
  | quiet
  deriving DecidableEq

namespace AuditT

def eq (a b : AuditT) : Bool := if b = .force then a = .force || a = .implied else a = b

def isForce (a : AuditT) : Bool := a.eq .force

def toNat : AuditT → ℕ
  | .unspecified => 0
  | .implied => 1
  | .force => 2
  | .quiet => 3

end AuditT

def RuleMode.toNat : RuleMode → ℕ
  | .unspecified => 0
  | .allow => 1
  | .deny => 2
  | .prompt => 3

/-- A file or change_profile rule. `linkName` is also the `onexec` of the source, which has a union of the two. -/
structure CodEntry where
  priority : ℤ
  name : Text
  linkName : Option Text
  perms : Perm32
  audit : AuditT
  ruleMode : RuleMode
  subset : Bool
  deriving DecidableEq

def newEntry (id : Text) (perms : Perm32) (linkId : Option Text) : CodEntry :=
  ⟨0, id, linkId, perms, .unspecified, .unspecified, false⟩

def squeezeSlashes : (seenSlash : Bool) → Text → Text
  | _, [] => []
  | seen, c :: s =>
    if c = '/' then if seen then squeezeSlashes true s else c :: squeezeSlashes true s
    else c :: squeezeSlashes false s

def filterSlashes : Text → Text
  | '/' :: '/' :: s => if s.head? = some '/' then squeezeSlashes false ('/' :: '/' :: s) else '/' :: '/' :: squeezeSlashes false s
  | s => squeezeSlashes false s

def parseLabel (label : Text) : Option (Bool × Option Text × Text) :=
  let (stack, label) := match label with | '&' :: s => (true, s) | s => (false, s)
  match label with
  | ':' :: s =>
    let ns := s.takeWhile (· ≠ ':')
    match s.dropWhile (· ≠ ':') with
    | [] => none
    | _ :: rest =>
      let name := match rest with | '/' :: '/' :: name => name | name => name
      if ns = [] ∨ name = [] then none else some (stack, some ns, name)
  | name => if name = [] then none else some (stack, none, name)

def regexTree (s : Text) : Option Tree :=
  match regexParse s with
  | .tree t => some t
  | _ => none

def convertEntry (s : Text) : Option Text :=
  match convertAaregexToPcre s false .default [] with
  | .ok (_, pcre, _) => some pcre
  | .error _ => none

def isChangeProfilePerms (perms : Perm32) : Bool := hits perms changeProfile

namespace CodEntry

def addRuleVec (e : CodEntry) (perms audit : Perm32) (first : Text) (others : List Text) : Option RuleVec := do
  let tree ← regexTree first
  let trees ← others.mapM regexTree
  return ⟨e.priority, e.ruleMode, perms, audit, tree, trees, false⟩

def addFileRule (e : CodEntry) (tbuf : Text) : Option (List RuleVec) :=
  if isChangeProfilePerms e.perms then some []
  else if e.ruleMode = .deny then
    -- the link bit is left to the pair, of which both parts must match
    if hits e.perms (~~~linkBits) then
      let perms := e.perms &&& ~~~(linkBits ||| changeProfile)
      (e.addRuleVec perms (if e.audit.isForce then perms else 0) tbuf []).map ([·])
    else some []
  else (e.addRuleVec e.perms (if e.audit.isForce then e.perms else 0) tbuf []).map ([·])

def linkTarget (e : CodEntry) : Option Text × Bool :=
  match e.linkName with
  | some link => (convertEntry (filterSlashes link), e.subset)
  | none => (some "/[^/].*".toList, true)

def addLinkRule (e : CodEntry) (tbuf : Text) : Option (List RuleVec) :=
  if hits e.perms linkBits then
    let link := linkBits &&& e.perms
    let perms := if e.linkTarget.2 then link ||| linkToLinkSubset link else link
    e.linkTarget.1.bind fun lbuf =>
      (e.addRuleVec perms (if e.audit.isForce then perms &&& linkBits else 0) tbuf [lbuf]).map ([·])
  else some []

def profileTarget (stacking : Bool) (tbuf : Text) : Option (Text × List Text) :=
  if stacking then some (tbuf, [])
  else
    match parseLabel tbuf with
    | some (false, some ns, name) => some (ns, [name])
    | some (false, none, name) => some (name, [])
    | _ => none

def onexecPattern (e : CodEntry) : Option Text :=
  match e.linkName with
  | some onexec => convertEntry onexec
  | none => some "/[^/\\x00][^\\x00]*".toList

def addChangeProfileRules (stacking : Bool) (e : CodEntry) (tbuf : Text) : Option (List RuleVec) :=
  if isChangeProfilePerms e.perms then do
    let exec ← e.onexecPattern
    let target ← profileTarget stacking tbuf
    return [← e.addRuleVec (changeProfile ||| onexec) 0 target.1 target.2,
      ← e.addRuleVec onexec 0 exec [],
      ← e.addRuleVec (onexec ||| (e.perms &&& (execBits ||| allExecUnsafe))) 0 exec (target.1 :: target.2)]
  else some []

def process (stacking : Bool) (e : CodEntry) : Option (List RuleVec) := do
  let tbuf ← convertEntry (if isChangeProfilePerms e.perms then e.name else filterSlashes e.name)
  let file ← e.addFileRule tbuf
  let link ← e.addLinkRule tbuf
  let profile ← e.addChangeProfileRules stacking tbuf
  return file ++ link ++ profile

end CodEntry

def processEntries (stacking : Bool) (es : List CodEntry) : Option (List RuleVec) :=
  (es.mapM (CodEntry.process stacking)).map List.flatten

end AppArmor

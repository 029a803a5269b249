import Mathlib.Data.BitVec
import Mathlib.Tactic

namespace AppArmor

abbrev Perm32 := BitVec 32

namespace Perm

def otherShift : ℕ := 14
def mayExecShift : ℕ := 0
def mayOtherExecShift : ℕ := mayExecShift + otherShift
def execMmapShift : ℕ := 6
def execOtherMmapShift : ℕ := execMmapShift + otherShift

def mayExec : Perm32 := 1#32 <<< 0
def mayWrite : Perm32 := 1#32 <<< 1
def mayRead : Perm32 := 1#32 <<< 2
def mayAppend : Perm32 := 1#32 <<< 3
def oldMayLink : Perm32 := 1#32 <<< 4
def oldMayLock : Perm32 := 1#32 <<< 5
def oldExecMmap : Perm32 := 1#32 <<< 6
def execPux : Perm32 := 1#32 <<< 7
def execUnsafe : Perm32 := 1#32 <<< 8
def execInherit : Perm32 := 1#32 <<< 9
def execUnconfined : Perm32 := 1#32 <<< 10
def execProfile : Perm32 := 1#32 <<< 11
def execModifiers : Perm32 := 1#32 <<< 10 ||| 1#32 <<< 11 ||| 1#32 <<< 12 ||| 1#32 <<< 13
def execType : Perm32 := execUnsafe ||| execInherit ||| execPux ||| execModifiers

def onexec : Perm32 := 1#32 <<< 30
def changeProfile : Perm32 := 1#32 <<< 31
def compatContMatch : Perm32 := 0x08000000#32 <<< 1

def userExec : Perm32 := mayExec
def otherExec : Perm32 := mayExec <<< otherShift
def execBits : Perm32 := userExec ||| otherExec
def userExecType : Perm32 := execType
def otherExecType : Perm32 := execType <<< otherShift
def allExecType : Perm32 := userExecType ||| otherExecType
def allExecUnsafe : Perm32 := execUnsafe ||| execUnsafe <<< otherShift
def otherExecInherit : Perm32 := execInherit <<< otherShift
def userExecMmap : Perm32 := oldExecMmap
def otherExecMmap : Perm32 := oldExecMmap <<< otherShift

def linkBits : Perm32 := oldMayLink ||| oldMayLink <<< otherShift
def linkSubsetTest : Perm32 := oldMayLink <<< 1
def linkToLinkSubset (x : Perm32) : Perm32 := (x <<< 1) &&& linkSubsetTest

def hits (a b : Perm32) : Bool := a &&& b != 0

def isMergedXConsistent (a b : Perm32) : Bool :=
  !(hits a userExec && hits b userExec && a &&& userExecType != b &&& userExecType) &&
    !(hits a otherExec && hits b otherExec && a &&& otherExecType != b &&& otherExecType)

end Perm

open Perm in
theorem hits_or (p q m : Perm32) : hits (p ||| q) m = (hits p m || hits q m) := by
  unfold hits
  rw [BitVec.and_or_distrib_right]
  have hzero : (p &&& m) ||| (q &&& m) = 0 ↔ p &&& m = 0 ∧ q &&& m = 0 := BitVec.or_eq_zero_iff
  rw [Bool.eq_iff_iff, Bool.or_eq_true, bne_iff_ne, bne_iff_ne, bne_iff_ne, ne_eq, hzero]
  tauto

def minPolicyPriority : ℤ := -1000
def minInternalPriority : ℤ := minPolicyPriority - 1

inductive FlagKind
  | allow
  | exact
  | deny
  | prompt
  deriving DecidableEq, Repr

structure MatchFlag where
  kind : FlagKind
  priority : ℤ
  perms : Perm32
  audit : Perm32
  addr : ℕ
  deriving DecidableEq, Repr

@[ext]
structure PermsT where
  allow : Perm32
  deny : Perm32
  prompt : Perm32
  audit : Perm32
  quiet : Perm32
  deriving DecidableEq, Repr

namespace PermsT

def clear : PermsT := ⟨0, 0, 0, 0, 0⟩

def isAccept (p : PermsT) : Bool := p.allow ||| p.deny ||| p.prompt ||| p.audit ||| p.quiet != 0

def clearBits (p : PermsT) (bits : Perm32) : PermsT :=
  ⟨p.allow &&& ~~~bits, p.deny &&& ~~~bits, p.prompt &&& ~~~bits, p.audit &&& ~~~bits, p.quiet &&& ~~~bits⟩

def within (p : PermsT) (bits : Perm32) : PermsT :=
  ⟨p.allow &&& bits, p.deny &&& bits, p.prompt &&& bits, p.audit &&& bits, p.quiet &&& bits⟩

end PermsT

end AppArmor

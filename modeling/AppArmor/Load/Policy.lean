import Mathlib.Data.PNat.Basic
import Mathlib.Tactic

namespace AppArmor.Load

abbrev Errno := ℕ+

def eio : Errno := 5

inductive LoadOption
  | add | remove | replace | stdout | ofile
  deriving DecidableEq, Repr

structure Config where
  option : LoadOption
  kernelLoad : Bool
  /-- `zstd_compress_policy == ZSTD_COMPRESS_POLICY` -/
  compress : Bool
  /-- `cache_fd != -1` -/
  cache : Bool

structure Outcomes where
  dup : Option Errno
  compress : Bool
  kernel : Option Errno
  output : Option Errno
  cacheWrite : Except Errno ℕ

inductive Profile
  | mk (name : String) (rawSize : ℕ) (outcomes : Outcomes) (hats : List Profile)

inductive Step
  | dup | compress | kernel | output | cache
  deriving DecidableEq, Repr

structure Attempt where
  profile : String
  step : Step
  ok : Bool
  deriving DecidableEq, Repr

structure Run where
  log : List Attempt
  ret : ℤ
  deriving DecidableEq, Repr

def attempt (name : String) (step : Step) (result : Option Errno) (r : Run) : Run :=
  match result with
  | none => { r with log := r.log ++ [⟨name, step, true⟩] }
  | some e => ⟨r.log ++ [⟨name, step, false⟩], -(e : ℤ)⟩

variable (cfg : Config)

def openFd (name : String) (o : Outcomes) : Run :=
  match cfg.option with
  | .add | .remove | .replace => ⟨[], 0⟩
  | .stdout | .ofile => attempt name .dup o.dup ⟨[], 0⟩

def removePolicy (name : String) (o : Outcomes) (r : Run) : Run :=
  if cfg.kernelLoad then attempt name .kernel o.kernel r else r

def sendPolicy (name : String) (o : Outcomes) (r : Run) : Run :=
  if cfg.kernelLoad then
    match cfg.option with
    | .add | .replace => attempt name .kernel o.kernel r
    | _ => r
  else
    match cfg.option with
    | .stdout | .ofile => attempt name .output o.output r
    | _ => r

def writeCache (name : String) (rawSize : ℕ) (o : Outcomes) (r : Run) : Run :=
  if cfg.cache then
    match o.cacheWrite with
    | .error e => attempt name .cache (some e) r
    | .ok wsize => attempt name .cache (if wsize < rawSize then some eio else none) r
  else r

def serializeOwn (name : String) (rawSize : ℕ) (o : Outcomes) : Run × Bool :=
  let r := openFd cfg name o
  if r.ret ≠ 0 then (r, true)
  else if cfg.option = .remove then (removePolicy cfg name o r, false)
  else if cfg.compress then
    if o.compress then
      let r := { r with log := r.log ++ [⟨name, .compress, true⟩] }
      (writeCache cfg name rawSize o (sendPolicy cfg name o r), false)
    else (⟨r.log ++ [⟨name, .compress, false⟩], -1⟩, true)
  else (writeCache cfg name rawSize o (sendPolicy cfg name o r), false)

def reported (ret : ℤ) : ℤ := if ret < 0 then ret else 0

mutual

def sdSerializeProfile : Profile → Run
  | .mk name rawSize o hats =>
    let (own, exited) := serializeOwn cfg name rawSize o
    if exited then own
    else if hats ≠ [] ∧ cfg.option ≠ .remove then
      -- `load_flattened_hats`
      let r := loadPolicyList hats
      if r.ret = 0 then ⟨own.log ++ r.log, 0⟩ else ⟨own.log ++ r.log, own.ret⟩
    else own

def loadPolicyList : List Profile → Run
  | [] => ⟨[], 0⟩
  | p :: ps =>
    let r := sdSerializeProfile p
    if reported r.ret ≠ 0 then ⟨r.log, reported r.ret⟩
    else
      let rest := loadPolicyList ps
      ⟨r.log ++ rest.log, rest.ret⟩

end

def loadProfile (p : Profile) : Run :=
  let r := sdSerializeProfile cfg p
  ⟨r.log, reported r.ret⟩

def loadPolicy (policyList : List Profile) : Run := loadPolicyList cfg policyList

theorem loadPolicyList_cons (p : Profile) (ps : List Profile) :
    loadPolicyList cfg (p :: ps) = if (loadProfile cfg p).ret ≠ 0 then loadProfile cfg p
      else ⟨(loadProfile cfg p).log ++ (loadPolicyList cfg ps).log, (loadPolicyList cfg ps).ret⟩ := by
  rw [loadPolicyList]
  rfl

end AppArmor.Load

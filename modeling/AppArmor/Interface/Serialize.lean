import AppArmor.Interface.TaggedCorrect

namespace AppArmor.Interface

open Codec

structure CString where
  bytes : Bytes
  length_lt : bytes.length + 1 < 2 ^ 31

structure Blob where
  bytes : Bytes
  length_lt : bytes.length < 2 ^ 31

def ascii (s : String) : Bytes := s.toList.map fun c => UInt8.ofNat c.toNat

structure AaPerms where
  allow : UInt32
  deny : UInt32
  subtree : UInt32
  cond : UInt32
  kill : UInt32
  complain : UInt32
  prompt : UInt32
  audit : UInt32
  quiet : UInt32
  hide : UInt32
  xindex : UInt32
  tag : UInt32
  label : UInt32

def AaPerms.fields (p : AaPerms) : List UInt32 :=
  [0, p.allow, p.deny, p.subtree, p.cond, p.kill, p.complain, p.prompt, p.audit, p.quiet, p.hide, p.xindex, p.tag,
    p.label]

structure Features where
  permsCreate : Bool
  disconnectedIpc : Bool
  flagSignal : Bool
  flagError : Bool
  identityNames : Bool
  networkPolicydb : Bool
  network : Bool
  permstable32 : Bool
  permstable32Version : ℕ

inductive Mode
  | unspecified | enforce | complain | kill | unconfined | prompt | defaultAllow | conflict
  deriving DecidableEq, Repr

def profileModePacked : Mode → UInt32
  | .unspecified => 0
  | .enforce => 0
  | .complain => 1
  | .kill => 2
  | .unconfined => 3
  | .prompt => 4
  -- until dominance is fixed use unconfined mode for default_allow
  | .defaultAllow => 3
  | .conflict => 6

structure FlagVals where
  flags : UInt32
  mode : Mode
  audit : UInt32
  path : UInt32
  disconnectedPath : Option CString
  disconnectedIpc : Option CString
  signal : UInt32
  error : UInt32

structure Capabilities where
  allow : UInt64
  audit : UInt64
  deny : UInt64
  quiet : UInt64

structure NetMasks where
  allow : UInt32
  audit : UInt32
  deny : UInt32
  quiet : UInt32

def rlimNlimits : ℕ := 16

structure Rlimits where
  specified : UInt32
  limits : List UInt64
  limits_length : limits.length = rlimNlimits

structure DfaData where
  dfa : Option Blob
  permsTable : List AaPerms

def execCount : ℕ := 16

structure Profile where
  name : CString
  /-- `get_name(false)` -/
  hname : CString
  ns : Option CString
  xmatch : DfaData
  xmatchLen : UInt32
  flags : FlagVals
  caps : Capabilities
  identities : List CString
  xattrs : List CString
  rlimits : Rlimits
  /-- The table has one entry for each of the `get_af_max()` address families. -/
  net : Option (List NetMasks)
  policy : DfaData
  dfa : DfaData
  execTable : List (Option CString)
  execTable_length : execTable.length = execCount

section Write

variable (cfg : Features)

def puts (l : List Put) : Put := l.foldr (· ++ ·) Put.nothing

def sdWriteUint32 (n : UInt32) : Put := sdWriteUint .w32 n.toNat

def sdSerializeIdentity (l : List CString) : Put :=
  puts [sdWriteArray (some (ascii "identity")) l.length, puts (l.map fun s => sdWriteString s.bytes none), sdWriteArrayend]

def sdSerializePerm (p : AaPerms) : Put := puts (p.fields.map sdWriteUint32)

def sdSerializePermstable (table : List AaPerms) (filedfa : Bool) : Put :=
  puts [sdWriteStruct (some (ascii "perms")), sdWriteName (some (ascii "version")), sdWriteUint32 1,
    sdWriteArray none table.length, puts (table.map sdSerializePerm), sdWriteArrayend, sdWriteStructend,
    if filedfa ∧ 0 < table.length ∧ 3 ≤ cfg.permstable32Version then
      puts [sdWriteName (some (ascii "permsv")), sdWriteUint32 3]
    else Put.nothing]

def sdSerializeDfa (d : DfaData) (filedfa : Bool) : Put :=
  match d.dfa with
  | none => Put.nothing
  | some b =>
    puts [if 2 ≤ cfg.permstable32Version ∧ 0 < d.permsTable.length then sdSerializePermstable cfg d.permsTable filedfa
      else Put.nothing, sdWriteAlignedBlob b.bytes (some (ascii "aadfa"))]

def sdSerializeRlimits (r : Rlimits) : Put :=
  if r.specified = 0 then Put.nothing
  else
    puts [sdWriteStruct (some (ascii "rlimits")), sdWriteUint32 r.specified, sdWriteArray none rlimNlimits,
      puts (r.limits.map fun n => sdWriteUint .w64 n.toNat), sdWriteArrayend, sdWriteStructend]

def overwriteColon : Bytes → Bytes
  | [] => []
  | b :: bs => if b = 58 then 0 :: bs else b :: overwriteColon bs

def xtableLabel : Bytes → Bytes
  | [] => []
  | b :: bs => if b = 58 then b :: overwriteColon bs else b :: bs

def sdWriteLabel : Option CString → Put
  | none => Put.nothing
  | some s => sdWriteStrn (xtableLabel s.bytes ++ [0]) none

def sdSerializeXtable (table : List (Option CString)) : Put :=
  if (table[4]?).join.isNone then Put.nothing
  else
    -- the entries are counted in a loop of their own
    let count := (table.drop 4).foldl (fun count e => if e.isSome then count + 1 else count) 0
    puts [sdWriteStruct (some (ascii "xtable")), sdWriteArray none count,
      puts ((table.drop 4).map sdWriteLabel), sdWriteArrayend, sdWriteStructend]

def sdSerializeXattrs (l : List CString) : Put :=
  if l = [] then Put.nothing
  else
    let count := l.foldl (fun count _ => count + 1) 0
    puts [sdWriteStruct (some (ascii "xattrs")), sdWriteArray none count,
      puts (l.map fun s => sdWriteString s.bytes none), sdWriteArrayend, sdWriteStructend]

def pathFlags (path : UInt32) : UInt32 :=
  (if path &&& 0x1 ≠ 0 then 0x8 else 0) ||| (if path &&& 0x10 ≠ 0 then 0x10000 else 0) |||
    (if path &&& 0x40 ≠ 0 then 0x4 else 0) ||| (if path &&& 0x4 ≠ 0 then 0x10 else 0) |||
    (if path &&& 0x100 ≠ 0 then 0x20 else 0)

def lowCaps (x : UInt64) : UInt32 := (x &&& 0xffffffff).toUInt32

def highCaps (x : UInt64) : UInt32 := ((x >>> 32) &&& 0xffffffff).toUInt32

def Capabilities.allowed (c : Capabilities) : UInt64 := c.allow &&& ~~~c.deny

def Capabilities.words (c : Capabilities) (half : UInt64 → UInt32) : List UInt32 :=
  [half c.allowed, half (c.allowed &&& c.audit), half (c.deny &&& c.quiet), 0]

def NetMasks.words (n : NetMasks) : List UInt16 :=
  let allowed := (n.allow &&& ~~~n.deny).toUInt16
  [allowed, (allowed.toUInt32 &&& n.audit).toUInt16, (n.deny &&& n.quiet).toUInt16]

def sdSerializeNet (net : Option (List NetMasks)) : Put :=
  if cfg.networkPolicydb then Put.nothing
  else
    match net with
    | none => Put.nothing
    | some l =>
      if cfg.network then
        puts [sdWriteArray (some (ascii "net_allowed_af")) l.length,
          puts (l.map fun n => puts (n.words.map fun w => sdWriteUint .w16 w.toNat)), sdWriteArrayend]
      else Put.nothing

def sdWriteOptString (s : Option CString) (name : String) : Put :=
  match s with
  | none => Put.nothing
  | some s => sdWriteString s.bytes (some (ascii name))

def sdSerializeProfile (p : Profile) (flattened : Bool) : Put :=
  puts [sdWriteStruct (some (ascii "profile")),
    sdWriteString (if flattened then p.hname.bytes else p.name.bytes) none,
    if cfg.permsCreate ∧ p.xmatch.dfa.isSome then
      puts [sdSerializeDfa cfg p.xmatch false, sdWriteUint32 p.xmatchLen]
    else Put.nothing,
    sdWriteOptString p.flags.disconnectedPath "disconnected",
    if cfg.disconnectedIpc then sdWriteOptString p.flags.disconnectedIpc "disconnected_ipc" else Put.nothing,
    if p.flags.signal ≠ 0 ∧ cfg.flagSignal then puts [sdWriteName (some (ascii "kill")), sdWriteUint32 p.flags.signal]
    else Put.nothing,
    if p.flags.error ≠ 0 ∧ cfg.flagError then puts [sdWriteName (some (ascii "error")), sdWriteUint32 p.flags.error]
    else Put.nothing,
    sdWriteStruct (some (ascii "flags")),
    sdWriteUint32 p.flags.flags,
    sdWriteUint32 (profileModePacked p.flags.mode),
    sdWriteUint32 p.flags.audit,
    sdWriteStructend,
    if p.flags.path ≠ 0 then puts [sdWriteName (some (ascii "path_flags")), sdWriteUint32 (pathFlags p.flags.path)]
    else Put.nothing,
    puts ((p.caps.words lowCaps).map sdWriteUint32),
    sdWriteStruct (some (ascii "caps64")),
    puts ((p.caps.words highCaps).map sdWriteUint32),
    sdWriteStructend,
    if cfg.identityNames then sdSerializeIdentity p.identities else Put.nothing,
    sdSerializeXattrs p.xattrs,
    sdSerializeRlimits p.rlimits,
    sdSerializeNet cfg p.net,
    if p.policy.dfa.isSome then
      puts [sdWriteStruct (some (ascii "policydb")), sdSerializeDfa cfg p.policy false,
        if cfg.permstable32 then sdSerializeXtable p.execTable else Put.nothing, sdWriteStructend]
    else Put.nothing,
    sdSerializeDfa cfg p.dfa true,
    if p.dfa.dfa.isSome then sdSerializeXtable p.execTable else Put.nothing,
    sdWriteStructend]

end Write

section Items

variable (cfg : Features)

def num32 (n : UInt32) (name : Option String) : Item := .num (name.map ascii) .w32 n.toNat

def string (s : CString) (name : Option String) : Item := .str (name.map ascii) (s.bytes ++ [0])

def arrayOf (name : Option String) (elems : List (List Item)) : Item :=
  .array (name.map ascii) elems.length elems.flatten

def permsItem (p : AaPerms) : List Item := p.fields.map (num32 · none)

def permsTableItems (table : List AaPerms) (filedfa : Bool) : List Item :=
  .struct (some (ascii "perms")) [num32 1 (some "version"), arrayOf none (table.map permsItem)] ::
    if filedfa ∧ 3 ≤ cfg.permstable32Version then [num32 3 (some "permsv")] else []

def dfaItems (d : DfaData) (filedfa : Bool) : List Item :=
  match d.dfa with
  | none => []
  | some b =>
    (if 2 ≤ cfg.permstable32Version ∧ d.permsTable ≠ [] then permsTableItems cfg d.permsTable filedfa else []) ++
      [.blob (some (ascii "aadfa")) b.bytes]

def xtableItems (table : List (Option CString)) : List Item :=
  if (table[4]?).join.isNone then []
  else
    [.struct (some (ascii "xtable"))
      [arrayOf none (((table.drop 4).filterMap id).map fun s => [.str none (xtableLabel s.bytes ++ [0])])]]

def netItems (net : Option (List NetMasks)) : List Item :=
  match net with
  | none => []
  | some l =>
    if cfg.networkPolicydb = false ∧ cfg.network then
      [arrayOf (some "net_allowed_af") (l.map fun n => n.words.map fun w => .num none .w16 w.toNat)]
    else []

def profileItem (p : Profile) (flattened : Bool) : Item :=
  .struct (some (ascii "profile")) <|
    [string (if flattened then p.hname else p.name) none] ++
    (if cfg.permsCreate ∧ p.xmatch.dfa.isSome then dfaItems cfg p.xmatch false ++ [num32 p.xmatchLen none] else []) ++
    (p.flags.disconnectedPath.toList.map (string · (some "disconnected"))) ++
    (if cfg.disconnectedIpc then p.flags.disconnectedIpc.toList.map (string · (some "disconnected_ipc")) else []) ++
    (if p.flags.signal ≠ 0 ∧ cfg.flagSignal then [num32 p.flags.signal (some "kill")] else []) ++
    (if p.flags.error ≠ 0 ∧ cfg.flagError then [num32 p.flags.error (some "error")] else []) ++
    [.struct (some (ascii "flags"))
      [num32 p.flags.flags none, num32 (profileModePacked p.flags.mode) none, num32 p.flags.audit none]] ++
    (if p.flags.path ≠ 0 then [num32 (pathFlags p.flags.path) (some "path_flags")] else []) ++
    (p.caps.words lowCaps).map (num32 · none) ++
    [.struct (some (ascii "caps64")) ((p.caps.words highCaps).map (num32 · none))] ++
    (if cfg.identityNames then [arrayOf (some "identity") (p.identities.map fun s => [string s none])] else []) ++
    (if p.xattrs = [] then []
      else [.struct (some (ascii "xattrs")) [arrayOf none (p.xattrs.map fun s => [string s none])]]) ++
    (if p.rlimits.specified = 0 then []
      else [.struct (some (ascii "rlimits"))
        [num32 p.rlimits.specified none, arrayOf none (p.rlimits.limits.map fun n => [.num none .w64 n.toNat])]]) ++
    netItems cfg p.net ++
    (if p.policy.dfa.isSome then
      [.struct (some (ascii "policydb"))
        (dfaItems cfg p.policy false ++ if cfg.permstable32 then xtableItems p.execTable else [])]
      else []) ++
    dfaItems cfg p.dfa true ++
    if p.dfa.dfa.isSome then xtableItems p.execTable else []

end Items

end AppArmor.Interface

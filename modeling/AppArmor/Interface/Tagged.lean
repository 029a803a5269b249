import AppArmor.Lib.Codec

namespace AppArmor.Interface

open Codec List

inductive SdCode
  | u8 | u16 | u32 | u64 | name | string | blob | struct | structEnd | list | listEnd | array | arrayEnd | offset
  deriving DecidableEq, Repr

def SdCode.toByte : SdCode → UInt8
  | u8 => 0
  | u16 => 1
  | u32 => 2
  | u64 => 3
  | name => 4
  | string => 5
  | blob => 6
  | struct => 7
  | structEnd => 8
  | list => 9
  | listEnd => 10
  | array => 11
  | arrayEnd => 12
  | offset => 13

def SdCode.ofByte (b : UInt8) : Option SdCode :=
  [u8, u16, u32, u64, name, string, blob, struct, structEnd, list, listEnd, array, arrayEnd, offset].find?
    fun c => c.toByte = b

theorem SdCode.ofByte_toByte (c : SdCode) : ofByte c.toByte = some c := by
  cases c <;> rfl

abbrev Put := ℕ → Bytes

def Put.seq (a b : Put) : Put := fun p => a p ++ b (p + (a p).length)

instance : Append Put := ⟨Put.seq⟩

def Put.nothing : Put := fun _ => []

theorem Put.append_apply (a b : Put) (p : ℕ) : (a ++ b) p = a p ++ b (p + (a p).length) := rfl

theorem Put.append_assoc (a b c : Put) : a ++ b ++ c = a ++ (b ++ c) := by
  funext p
  simp only [Put.append_apply, List.append_assoc, List.length_append, Nat.add_assoc]

theorem Put.nothing_append (a : Put) : nothing ++ a = a := rfl

theorem Put.append_nothing (a : Put) : a ++ nothing = a := by
  funext p
  exact append_nil _

def sdWriteCode (code : SdCode) : Put := fun _ => [code.toByte]

def sdWrite16 (n : ℕ) : Put := fun _ => leBytes 2 n

def sdWrite32 (n : ℕ) : Put := fun _ => leBytes 4 n

def sdWriteBytes (b : Bytes) : Put := fun _ => b

inductive Width
  | w16 | w32 | w64
  deriving DecidableEq, Repr

def Width.bytes : Width → ℕ
  | w16 => 2
  | w32 => 4
  | w64 => 8

def Width.code : Width → SdCode
  | w16 => .u16
  | w32 => .u32
  | w64 => .u64

def sdWriteUint (w : Width) (n : ℕ) : Put := sdWriteCode w.code ++ fun _ => leBytes w.bytes n

def sdWriteName : Option Bytes → Put
  | none => Put.nothing
  | some name => sdWriteCode .name ++ sdWrite16 (name.length + 1) ++ sdWriteBytes (name ++ [0])

def sdWriteAlignedBlob (b : Bytes) (name : Option Bytes) : Put :=
  sdWriteName name ++ fun p =>
    let pad := padding 8 (p + 5)
    (sdWriteCode .blob ++ sdWrite32 (b.length + pad) ++ sdWriteBytes (List.replicate pad 0) ++ sdWriteBytes b) p

def sdWriteStrn (b : Bytes) (name : Option Bytes) : Put :=
  sdWriteName name ++ sdWriteCode .string ++ sdWrite16 b.length ++ sdWriteBytes b

def sdWriteString (s : Bytes) (name : Option Bytes) : Put := sdWriteStrn (s ++ [0]) name

def sdWriteStruct (name : Option Bytes) : Put := sdWriteName name ++ sdWriteCode .struct

def sdWriteStructend : Put := sdWriteCode .structEnd

def sdWriteArray (name : Option Bytes) (size : ℕ) : Put := sdWriteName name ++ sdWriteCode .array ++ sdWrite16 size

def sdWriteArrayend : Put := sdWriteCode .arrayEnd

/-- What the tagged grammar describes. A string holds its trailing NUL, if it has one; an array holds the announced
number of elements, and their items. -/
inductive Item
  | num (name : Option Bytes) (w : Width) (n : ℕ)
  | str (name : Option Bytes) (b : Bytes)
  | blob (name : Option Bytes) (b : Bytes)
  | struct (name : Option Bytes) (items : List Item)
  | array (name : Option Bytes) (count : ℕ) (items : List Item)

theorem Item.induct {P : Item → Prop} (num : ∀ name w n, P (.num name w n)) (str : ∀ name b, P (.str name b))
    (blob : ∀ name b, P (.blob name b)) (struct : ∀ name items, (∀ x ∈ items, P x) → P (.struct name items))
    (array : ∀ name count items, (∀ x ∈ items, P x) → P (.array name count items)) (x : Item) : P x := by
  refine @Item.rec P (fun xs => ∀ x ∈ xs, P x) num str blob struct array ?nil ?cons x
  case nil =>
    intro x hx
    exact absurd hx not_mem_nil
  case cons =>
    intro x xs hx hxs y hy
    rcases mem_cons.mp hy with rfl | hy
    · exact hx
    · exact hxs y hy

mutual

def Item.put : Item → Put
  | .num name w n => sdWriteName name ++ sdWriteUint w n
  | .str name b => sdWriteStrn b name
  | .blob name b => sdWriteAlignedBlob b name
  | .struct name items => sdWriteStruct name ++ putItems items ++ sdWriteStructend
  | .array name count items => sdWriteArray name count ++ putItems items ++ sdWriteArrayend

def putItems : List Item → Put
  | [] => Put.nothing
  | x :: xs => x.put ++ putItems xs

end

theorem putItems_append (xs ys : List Item) : putItems (xs ++ ys) = putItems xs ++ putItems ys := by
  induction xs with
  | nil => rfl
  | cons x xs ih => rw [cons_append, putItems, ih, putItems, Put.append_assoc]

def readCode : Reader SdCode := do
  let b ← bytes 1
  match b.head?.bind SdCode.ofByte with
  | some code => return code
  | none => reject

def readSized (w : ℕ) : Reader Bytes := do
  let n ← leNat w
  bytes n

def readName : SdCode → Reader (Option Bytes × SdCode)
  | .name => do
    let name ← readSized 2
    let code ← readCode
    return (some name.dropLast, code)
  | code => return (none, code)

def readBlob : Reader Bytes := do
  let size ← leNat 4
  let pos ← position
  if size < padding 8 pos then reject
  else
    let _ ← bytes (padding 8 pos)
    bytes (size - padding 8 pos)

def readBody (items : SdCode → Reader (List Item)) (name : Option Bytes) : SdCode → Reader Item
  | .u16 => return .num name .w16 (← leNat 2)
  | .u32 => return .num name .w32 (← leNat 4)
  | .u64 => return .num name .w64 (← leNat 8)
  | .string => return .str name (← readSized 2)
  | .blob => return .blob name (← readBlob)
  | .struct => return .struct name (← items .structEnd)
  | .array => do
    let count ← leNat 2
    return .array name count (← items .arrayEnd)
  | _ => reject

def readFrom (items : SdCode → Reader (List Item)) (code : SdCode) : Reader Item := do
  let (name, code) ← readName code
  readBody items name code

def readItems : ℕ → SdCode → Reader (List Item)
  | 0, _ => reject
  | fuel + 1, close => do
    let code ← readCode
    if code = close then return []
    else
      let x ← readFrom (readItems fuel) code
      return x :: (← readItems fuel close)

def readItem (fuel : ℕ) : Reader Item := do
  let code ← readCode
  readFrom (readItems fuel) code

def decodeItem (p : ℕ) (bs : Bytes) : Option Item := do
  let (x, i) ← readItem bs.length ⟨p, bs⟩
  if i.rest = [] then some x else none

inductive Item.Fits : Item → Prop
  | num {name w n} (hname : ∀ b ∈ name, b.length + 1 < 2 ^ 16)
      (hn : n < 256 ^ w.bytes) : Fits (.num name w n)
  | str {name b} (hname : ∀ b ∈ name, b.length + 1 < 2 ^ 16) (hb : b.length < 2 ^ 16) :
      Fits (.str name b)
  | blob {name b} (hname : ∀ b ∈ name, b.length + 1 < 2 ^ 16) : Fits (.blob name b)
  | struct {name items} (hname : ∀ b ∈ name, b.length + 1 < 2 ^ 16)
      (hitems : ∀ x ∈ items, Fits x) : Fits (.struct name items)
  | array {name count items} (hname : ∀ b ∈ name, b.length + 1 < 2 ^ 16)
      (hcount : count < 2 ^ 16) (hitems : ∀ x ∈ items, Fits x) : Fits (.array name count items)

end AppArmor.Interface

import AppArmor.Hfa.ChfaPack
import AppArmor.Lib.Codec

namespace AppArmor

open Codec

/-- A compressed automaton with all its tables. Classes are numbered from 1, characters without a class have class 0. -/
structure CHFATables extends CHFA where
  accept : List UInt32
  accept2 : List UInt32
  eq : CharMap ℕ
  chfaflags : ℕ
  accept_length : accept.length = max defaultBase.length 2
  accept2_length : accept2 = [] ∨ accept2.length = accept.length
  numbered : num.length ≤ defaultBase.length
  base_lt : size < 2 ^ 32 → ∀ e ∈ defaultBase, e.2 < 2 ^ 32

namespace Flex

def regexMagic : ℕ := 0x1B5E783D

def idAccept : ℕ := 1

def idBase : ℕ := 2

def idChk : ℕ := 3

def idDef : ℕ := 4

def idEc : ℕ := 5

def idAccept2 : ℕ := 7

def idNxt : ℕ := 8

def setHeaderSize : ℕ := 14

def headerSize : ℕ := 12

def thVersion : Bytes := [110, 111, 116, 102, 108, 101, 120, 0]

def pad64 (i : ℕ) : ℕ := (i + 7) / 8 * 8

def fill64 (i : ℕ) : Bytes := List.replicate (if i % 8 ≠ 0 then 8 - i % 8 else 0) 0

def flexTableSize (width n : ℕ) : ℕ := pad64 (headerSize + width * n)

def writeFlexTable (id width : ℕ) (elems : List ℕ) : Bytes :=
  beBytes 2 id ++ (beBytes 2 width ++ (beBytes 4 0 ++ (beBytes 4 elems.length ++ (elems.flatMap (beBytes width) ++
    fill64 (headerSize + width * elems.length)))))

end Flex

namespace CHFATables

open Flex

variable (t : CHFATables)

def acceptVec : List ℕ := t.accept.map UInt32.toNat

def accept2Vec : List ℕ := t.accept2.map UInt32.toNat

def classOf (c : ℕ) : ℕ := (t.eq[(c : ℤ)]?).getD 0

def equivVec : List ℕ := (List.range 256).map t.classOf

def defaultVec : List ℕ := t.defaultBase.map fun e => t.number e.1

def baseVec : List ℕ := t.defaultBase.map Prod.snd

-- a slot without an owner holds null pointers, and `num[NULL]` is 0
def nextVec : List ℕ := (List.range t.size).map t.next

def checkVec : List ℕ := (List.range t.size).map t.check

def setSize (hsize width : ℕ) : ℕ :=
  hsize + flexTableSize 4 t.accept.length +
    (if t.accept2 ≠ [] then flexTableSize 4 t.accept2.length else 0) +
    (if t.eq.size ≠ 0 then flexTableSize 1 t.equivVec.length else 0) +
    flexTableSize 4 t.baseVec.length + flexTableSize width t.defaultVec.length +
    flexTableSize width t.nextVec.length + flexTableSize width t.checkVec.length

def flexTableSerialize (width maxSize : ℕ) : Option Bytes :=
  if maxSize ≤ t.defaultBase.length then none
  else if 2 ^ 32 - 1 ≤ t.size then none
  else
    let hsize := pad64 (setHeaderSize + thVersion.length)
    some (beBytes 4 regexMagic ++ (beBytes 4 hsize ++ (beBytes 4 (t.setSize hsize width) ++ (beBytes 2 t.chfaflags ++
      (thVersion ++ fill64 (setHeaderSize + thVersion.length))))) ++
      (writeFlexTable idAccept 4 t.acceptVec ++
      (if t.accept2 ≠ [] then writeFlexTable idAccept2 4 t.accept2Vec else []) ++
      (if t.eq.size ≠ 0 then writeFlexTable idEc 1 t.equivVec else []) ++
      writeFlexTable idBase 4 t.baseVec ++ writeFlexTable idDef width t.defaultVec ++
      writeFlexTable idNxt width t.nextVec ++ writeFlexTable idChk width t.checkVec))

def large (state32 : Bool) : Bool := state32 && 2 ^ 16 - 1 < t.defaultBase.length

def stateWidth (state32 : Bool) : ℕ := if t.large state32 then 4 else 2

def flexTable (state32 flagsTable : Bool) : Option Bytes :=
  if t.large state32 then t.flexTableSerialize 4 (2 ^ 24 - 1)
  else if flagsTable then none
  else t.flexTableSerialize 2 (2 ^ 16 - 1)

end CHFATables

namespace Flex

structure SetHeader where
  magic : ℕ
  hsize : ℕ
  ssize : ℕ
  flags : ℕ
  deriving DecidableEq, Repr

structure Table where
  id : ℕ
  width : ℕ
  start : ℕ
  elems : List ℕ
  deriving DecidableEq, Repr

def readTable : Reader Table := do
  let start ← position
  let id ← beNat 2
  let width ← beNat 2
  let hilen ← beNat 4
  let lolen ← beNat 4
  let elems ← many (beNat width) (hilen * 2 ^ 32 + lolen)
  align 8
  return ⟨id, width, start, elems⟩

def readSetHeader : Reader SetHeader := do
  let magic ← beNat 4
  let hsize ← beNat 4
  let ssize ← beNat 4
  let flags ← beNat 2
  let _ ← bytes (hsize - setHeaderSize)
  return ⟨magic, hsize, ssize, flags⟩

def readFlex (fuel : ℕ) : Reader (SetHeader × List Table) := do
  let header ← readSetHeader
  let tables ← untilEnd readTable fuel
  return (header, tables)

def decodeFlex (blob : Bytes) : Option (SetHeader × List Table) := decode (readFlex blob.length) blob

end Flex

namespace CHFATables

open Flex

def content (t : CHFATables) (width : ℕ) : List (ℕ × ℕ × List ℕ) :=
  [(idAccept, 4, t.acceptVec)] ++
    (if t.accept2 ≠ [] then [(idAccept2, 4, t.accept2Vec)] else []) ++
    (if t.eq.size ≠ 0 then [(idEc, 1, t.equivVec)] else []) ++
    [(idBase, 4, t.baseVec), (idDef, width, t.defaultVec), (idNxt, width, t.nextVec), (idChk, width, t.checkVec)]

def FaithfulBlob (t : CHFATables) (width : ℕ) (blob : Bytes) : Prop :=
  ∃ header tables, decodeFlex blob = some (header, tables) ∧ header.ssize = blob.length ∧
    (∀ table ∈ tables, table.start % 8 = 0) ∧
    tables.map (fun table => (table.id, table.width, table.elems)) = t.content width

end CHFATables

end AppArmor

import AppArmor.Hfa.Dfa
import AppArmor.Lib.FreeList

namespace AppArmor

open FreeList

/-- The tables of a compressed automaton. `num` lists the states by their number. A slot of `next_check` holds the next
state and the owner of the slot, if it has one. -/
structure CHFA where
  defaultBase : List (ℕ × ℕ)
  nextCheck : ℕ → Option (ℕ × ℕ)
  size : ℕ
  free : Links
  num : List ℕ

namespace CHFA

def diffEncodeBit : ℕ := 0x80000000

def matchFlagOob : ℕ := 0x20000000

def baseMask (x : ℕ) : ℕ := x % 2 ^ 24

def number (t : CHFA) (s : ℕ) : ℕ := t.num.idxOf s

def addNum (t : CHFA) (s : ℕ) : CHFA := if s ∈ t.num then t else { t with num := t.num ++ [s] }

def fitsIn (t : CHFA) (pos : ℕ) (trans : List (ℤ × ℕ)) : Bool :=
  let base : ℤ := pos - (trans.head?.map Prod.fst).getD 0
  if base < 0 then false else fits base trans
where
  -- the table is resized when it is too small, so what lies behind its end fits
  fits (base : ℤ) : List (ℤ × ℕ) → Bool
    | [] => true
    | e :: l =>
      if (t.size : ℤ) ≤ base + e.1 then true
      else if (t.nextCheck (base + e.1).toNat).isSome then false
      else fits base l

def grow (t : CHFA) (last n : ℕ) : CHFA :=
  { t with
    size := t.size + n
    free := { FreeList.append t.free last t.size (t.size + n) with
      first := if t.free.first = 0 then t.size else t.free.first } }

def findPos (ub c : ℤ) (trans : List (ℤ × ℕ)) : ℕ → CHFA → ℕ → ℕ → Option (CHFA × ℕ)
  | 0, _, _, _ => none
  | fuel + 1, t, prev, x => do
    let (prev, x) ← FreeList.find t.free (fun x => ¬ ((x : ℤ) < c ∨ (x : ℤ) + c < 0)) t.size prev x
    let (prev, x) ← FreeList.find t.free (fun x => t.fitsIn x trans) t.size prev x
    if x = 0 then findPos ub c trans fuel (t.grow prev (ub - c).toNat) prev t.size
    else if (t.size : ℤ) ≤ (x : ℤ) + (ub - 1) - c then do
      let (last, _) ← FreeList.find t.free (fun _ => false) t.size prev x
      return (t.grow last ((ub - 1) - c - (t.size - 1 - x)).toNat, x)
    else return (t, x)

def setSlot (from_ : ℕ) (base : ℤ) (t : CHFA) (e : ℤ × ℕ) : CHFA :=
  let pos := (base + e.1).toNat
  { t with
    nextCheck := Function.update t.nextCheck pos (some (e.2, from_))
    free := unlink t.free pos }

def flags (d : DFA) (s : ℕ) (c : ℤ) : ℕ :=
  (if c < 0 then matchFlagOob else 0) ||| if (d.state s).diff then diffEncodeBit else 0

def insertState (d : DFA) (t : CHFA) (from_ : ℕ) : Option CHFA :=
  let other := (d.state from_).otherwise
  match (d.state from_).trans.toList with
  | [] => some { t with defaultBase := t.defaultBase ++ [(other, flags d from_ 0)] }
  | (c, target) :: l => do
    let trans := (c, target) :: l
    let (t, x) ← findPos d.upperBound c trans 2 t 0 t.free.first
    let base : ℤ := x - c
    let t := trans.foldl (setSlot from_ base) t
    return { t with defaultBase := t.defaultBase ++ [(other, base.toNat ||| flags d from_ c)] }

def orderKey (d : DFA) (s : ℕ) : ℕ :=
  let l := (d.state s).trans.toList
  let range := ((l.getLast?.map Prod.fst).getD 0 - (l.head?.map Prod.fst).getD 0).toNat
  ((d.maxRange.toNat - l.length) <<< d.ordRange.toNat) ||| (d.maxRange.toNat - range)

def insertOrder (d : DFA) (transHigh : Bool) : List ℕ :=
  let l := d.states.filter fun s => s ≠ d.start ∧ s ≠ d.nonmatching
  if transHigh then l.insertionSort fun a b => orderKey d a ≤ orderKey d b else l

def optimal (d : DFA) : ℕ :=
  2 + ((d.states.filter fun s => s ≠ d.start ∧ s ≠ d.nonmatching).map fun s => (d.state s).trans.size).sum

def initial (d : DFA) : CHFA :=
  let size := max (optimal d) d.maxRange.toNat
  { defaultBase := [(d.nonmatching, 0)]
    nextCheck := Function.update (fun _ => none) 0 (some (d.nonmatching, d.nonmatching))
    size := size
    free := { FreeList.append ⟨0, fun _ => 0, fun _ => 0⟩ 0 1 size with first := 1 }
    num := [d.nonmatching] }

def addState (d : DFA) (t : CHFA) (s : ℕ) : Option CHFA := (insertState d t s).map fun t => t.addNum s

end CHFA

open CHFA in
def DFA.chfa (d : DFA) (transHigh : Bool) : Option CHFA :=
  (d.start :: insertOrder d transHigh).foldlM (addState d) (initial d)

namespace CHFA

def next (t : CHFA) (pos : ℕ) : ℕ := ((t.nextCheck pos).map fun e => t.number e.1).getD 0

def check (t : CHFA) (pos : ℕ) : ℕ := ((t.nextCheck pos).map fun e => t.number e.2).getD 0

def scan (t : CHFA) (c : ℕ) : ℕ → ℕ → Option ℕ
  | 0, _ => none
  | fuel + 1, n => do
    let (other, word) ← t.defaultBase[n]?
    let pos := baseMask word + c
    if t.size ≤ pos then none
    else if t.check pos = n then some (t.next pos)
    else if word.testBit 31 then scan t c fuel (t.number other)
    else some (t.number other)

end CHFA

end AppArmor

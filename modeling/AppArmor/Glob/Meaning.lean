import AppArmor.Glob.Convert
import AppArmor.Lib.Letters

open Computability

namespace AppArmor

abbrev Byte := Fin 256

instance neZeroByte : NeZero 256 := ⟨by decide⟩

def byteLang (p : Byte → Prop) : Language Byte := {w | ∃ b, p b ∧ w = [b]}

theorem mem_byteLang_kstar {p : Byte → Prop} {w : List Byte} : w ∈ (byteLang p)∗ ↔ ∀ b ∈ w, p b := by
  rw [Language.mem_kstar]
  constructor
  · rintro ⟨ws, rfl, hws⟩ b hb
    obtain ⟨u, hu, hbu⟩ := List.mem_flatten.mp hb
    obtain ⟨c, hc, rfl⟩ := hws u hu
    rw [List.mem_singleton.mp hbu]
    exact hc
  · intro h
    refine ⟨w.map ([·]), (List.flatMap_singleton' w).symm, fun y hy => ?_⟩
    obtain ⟨b, hb, rfl⟩ := List.mem_map.mp hy
    exact ⟨b, h b hb, rfl⟩

inductive ClassItem
  | char (c : ℕ)
  | range (a b : ℕ)
  deriving DecidableEq

def ClassItem.Has : ClassItem → ℕ → Prop
  | .char c, x => x = c
  | .range a b, x => min a b ≤ x ∧ x ≤ max a b

inductive Glob
  | empty
  | lit (c : ℕ)
  | star (whole : Bool)
  | doubleStar (whole : Bool)
  | any
  | cls (neg : Bool) (items : List ClassItem)
  | seq (g h : Glob)
  | alt (g h : Glob)
  deriving DecidableEq

namespace Glob

def WildByte (glob : GlobType) (b : Byte) : Prop := b.val ≠ '/'.toNat ∧ (glob = .default → b ≠ 0)

def AnyByte (glob : GlobType) (b : Byte) : Prop := glob = .default → b ≠ 0

def ClassByte (neg : Bool) (items : List ClassItem) (b : Byte) : Prop := (∃ i ∈ items, i.Has b) ↔ neg = false

def lang (glob : GlobType) : Glob → Language Byte
  | .empty => 1
  | .lit c => byteLang (·.val = c)
  | .star whole => (if whole then byteLang (WildByte glob) else 1) * (byteLang (WildByte glob))∗
  | .doubleStar whole => (if whole then byteLang (WildByte glob) else 1) * (byteLang (AnyByte glob))∗
  | .any => byteLang (WildByte glob)
  | .cls neg items => byteLang (ClassByte neg items)
  | .seq g h => lang glob g * lang glob h
  | .alt g h => lang glob g + lang glob h

end Glob

inductive GlobToken
  | lit (c : ℕ)
  | star (whole : Bool)
  | doubleStar (whole : Bool)
  | any
  | cls (neg : Bool) (items : List ClassItem)
  | openBrace
  | comma
  | closeBrace
  deriving DecidableEq

structure GlobFrame where
  alts : Option Glob
  last : Glob
  deriving DecidableEq

namespace GlobFrame

def empty : GlobFrame := ⟨none, .empty⟩

def add (f : GlobFrame) (g : Glob) : GlobFrame := { f with last := .seq f.last g }

def glob (f : GlobFrame) : Glob :=
  match f.alts with
  | none => f.last
  | some a => .alt a f.last

end GlobFrame

/-- The glob that the tokens spell within the groupings `outer`. A comma separates alternatives in a grouping, and is a
character everywhere else. -/
def readGlob : List GlobToken → (outer : List GlobFrame) → GlobFrame → Option Glob
  | [], [], f => some f.glob
  | [], _ :: _, _ => none
  | .lit c :: ts, outer, f => readGlob ts outer (f.add (.lit c))
  | .star w :: ts, outer, f => readGlob ts outer (f.add (.star w))
  | .doubleStar w :: ts, outer, f => readGlob ts outer (f.add (.doubleStar w))
  | .any :: ts, outer, f => readGlob ts outer (f.add .any)
  | .cls neg items :: ts, outer, f => readGlob ts outer (f.add (.cls neg items))
  | .openBrace :: ts, outer, f => readGlob ts (f :: outer) .empty
  | .comma :: ts, [], f => readGlob ts [] (f.add (.lit ','.toNat))
  | .comma :: ts, g :: outer, f => readGlob ts (g :: outer) ⟨some f.glob, .empty⟩
  | .closeBrace :: _, [], _ => none
  | .closeBrace :: ts, g :: outer, f => readGlob ts outer (g.add f.glob)

def globOf (ts : List GlobToken) : Option Glob := readGlob ts [] .empty

def Quotes (c : Char) (s : Text) : Prop := ∃ k, strEscseq [] (c :: s) = .error k

/-- `c` and `d` are an escape sequence for `v`. When the next character is quoted, its quote is dropped; then it must not
become a part of the sequence. -/
structure Escapes (c : Char) (d s : Text) (v : ℕ) : Prop where
  seq : strEscseq [] (c :: (d ++ s)) = .char v (d.length + 1)
  quoted : ∀ x s', s = '\\' :: x :: s' → Quotes x s' → strEscseq [] (c :: (d ++ x :: s')) = .char v (d.length + 1)

/-- How a character can be spelled in a class, with `s` after it. A quoted `,` has no spelling, and neither has a quoted
`-` or `^` where the bare one has another meaning. -/
inductive ClassChar : (first : Bool) → (p s : Text) → (c : ℕ) → Prop
  | raw {first s} (c : Char) : c ∉ "\\*?]-^".toList → ClassChar first [c] s c.toNat
  | dash {s} : ClassChar true ['-'] s '-'.toNat
  | caret {s} : ClassChar false ['^'] s '^'.toNat
  | quoted {first s} (c : Char) : Quotes c s → c ∉ ",-^".toList → ClassChar first ['\\', c] s c.toNat
  | quotedDash {s} : ClassChar true ['\\', '-'] s '-'.toNat
  | quotedCaret {s} : ClassChar false ['\\', '^'] s '^'.toNat
  | escape {first c d s v} : Escapes c d s v → ClassChar first ('\\' :: c :: d) s v

inductive ClassText : (first : Bool) → Text → List ClassItem → Text → Prop
  | close {s : Text} : ClassText false (']' :: s) [] s
  | char {first p s r c items} : ClassChar first p s c →
      ClassText false s items r → ClassText first (p ++ s) (.char c :: items) r
  | range {first} {p q s r : Text} {a b items} : ClassChar first p ('-' :: (q ++ s)) a →
      ClassChar false q s b → ClassText false s items r → ClassText first (p ++ '-' :: (q ++ s)) (.range a b :: items) r

inductive GlobText : (slash : Bool) → Text → List GlobToken → Prop
  | nil {slash} : GlobText slash [] []
  | raw {slash s ts} (c : Char) : c ∉ "\\*?[]\x7b\x7d,".toList →
      GlobText (c = '/') s ts → GlobText slash (c :: s) (.lit c.toNat :: ts)
  | quoted {slash s ts} (c : Char) : Quotes c s →
      GlobText (c = '/') s ts → GlobText slash ('\\' :: c :: s) (.lit c.toNat :: ts)
  | escape {slash c d s v ts} : Escapes c d s v →
      GlobText false s ts → GlobText slash ('\\' :: c :: (d ++ s)) (.lit v :: ts)
  | star {slash s ts} : s.head? ≠ some '*' →
      GlobText false s ts → GlobText slash ('*' :: s) (.star (slash && endsComponent s) :: ts)
  | doubleStar {slash s ts} :
      GlobText false s ts → GlobText slash ('*' :: '*' :: s) (.doubleStar (slash && endsComponent s) :: ts)
  | any {slash s ts} : GlobText false s ts → GlobText slash ('?' :: s) (.any :: ts)
  | cls {slash s r items ts} : ClassText true s items r →
      GlobText false r ts → GlobText slash ('[' :: s) (.cls false items :: ts)
  | negCls {slash s r items ts} : ClassText true s items r →
      GlobText false r ts → GlobText slash ('[' :: '^' :: s) (.cls true items :: ts)
  | negCaret {slash} {p s r : Text} {items ts} :
      p = ['^'] ∨ p = ['\\', '^'] → ClassText false s items r → GlobText false r ts →
      GlobText slash ('[' :: '^' :: (p ++ s)) (.cls true (.char '^'.toNat :: items) :: ts)
  | openBrace {slash s ts} : GlobText false s ts → GlobText slash ('{' :: s) (.openBrace :: ts)
  | comma {slash s ts} : GlobText false s ts → GlobText slash (',' :: s) (.comma :: ts)
  | closeBrace {slash s ts} : GlobText false s ts → GlobText slash ('}' :: s) (.closeBrace :: ts)

end AppArmor

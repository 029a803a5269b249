import AppArmor.Perms.Bits
import AppArmor.Lib.Glushkov

namespace AppArmor

open Computability List

structure Chars where
  elems : List ℤ
  sorted : elems.Pairwise (· < ·)
  deriving DecidableEq

namespace Chars

def empty : Chars := ⟨[], List.Pairwise.nil⟩

instance : Membership ℤ Chars := ⟨fun s c => c ∈ s.elems⟩

instance (s : Chars) (c : ℤ) : Decidable (c ∈ s) := inferInstanceAs (Decidable (c ∈ s.elems))

theorem mem_def {s : Chars} {c : ℤ} : c ∈ s ↔ c ∈ s.elems := Iff.rfl

def insertList (c : ℤ) : List ℤ → List ℤ
  | [] => [c]
  | d :: l => if c < d then c :: d :: l else if c = d then d :: l else d :: insertList c l

theorem mem_insertList {c d : ℤ} {l : List ℤ} : d ∈ insertList c l ↔ d = c ∨ d ∈ l := by
  induction l with
  | nil => simp [insertList]
  | cons e l ih =>
    unfold insertList
    split_ifs with h₁ h₂
    · simp
    · subst h₂; simp
    · simp only [mem_cons, ih]
      tauto

theorem insertList_sorted {c : ℤ} {l : List ℤ} (h : l.Pairwise (· < ·)) :
    (insertList c l).Pairwise (· < ·) := by
  induction l with
  | nil => simp [insertList]
  | cons d l ih =>
    obtain ⟨hd, hl⟩ := pairwise_cons.mp h
    unfold insertList
    split_ifs with h₁ h₂
    · refine pairwise_cons.mpr ⟨?_, h⟩
      intro e he
      rcases mem_cons.mp he with rfl | he
      · exact h₁
      · exact h₁.trans (hd e he)
    · exact h
    · refine pairwise_cons.mpr ⟨?_, ih hl⟩
      intro e he
      rcases mem_insertList.mp he with rfl | he
      · omega
      · exact hd e he

def insert (s : Chars) (c : ℤ) : Chars := ⟨insertList c s.elems, insertList_sorted s.sorted⟩

theorem mem_insert {s : Chars} {c d : ℤ} : d ∈ s.insert c ↔ d = c ∨ d ∈ s := mem_insertList

end Chars

inductive CNode
  | char (c : ℤ)
  | charSet (chars : Chars)
  | notCharSet (chars : Chars)
  | anyChar
  deriving DecidableEq

def CNode.matches : CNode → ℤ → Bool
  | .char c, x => x = c
  | .charSet s, x => x ∈ s
  | .notCharSet s, x => 0 ≤ x ∧ x ∉ s
  | .anyChar, x => 0 ≤ x

/-- Expression trees over character leaves of type `α`. `sharedTree` carries the address by which two
references are known to be the same subtree. -/
inductive Node (α : Type)
  | eps
  | cnode (a : α)
  | star (t : Node α)
  | optional (t : Node α)
  | plus (t : Node α)
  | cat (ts : List (Node α))
  | alt (ts : List (Node α))
  | accept (m : MatchFlag)
  | sharedTree (addr : ℕ) (t : Node α)

namespace Node

variable {α σ : Type}

@[elab_as_elim, induction_eliminator]
theorem induct {motive : Node α → Prop} (eps : motive .eps) (cnode : ∀ a, motive (.cnode a))
    (star : ∀ t, motive t → motive (.star t)) (optional : ∀ t, motive t → motive (.optional t))
    (plus : ∀ t, motive t → motive (.plus t)) (cat : ∀ ts, (∀ t ∈ ts, motive t) → motive (.cat ts))
    (alt : ∀ ts, (∀ t ∈ ts, motive t) → motive (.alt ts)) (accept : ∀ m, motive (.accept m))
    (sharedTree : ∀ addr t, motive t → motive (.sharedTree addr t)) (t : Node α) : motive t :=
  @Node.rec α motive (fun ts => ∀ t ∈ ts, motive t) eps cnode star optional plus cat alt accept sharedTree
    (fun _ h => absurd h not_mem_nil)
    (fun _ _ ht hts u hu => (mem_cons.mp hu).elim (fun h => h ▸ ht) (hts u)) t

section Language

variable (f : α → Language σ) (g : MatchFlag → Language σ)

def langWith : Node α → Language σ
  | .eps => 1
  | .cnode a => f a
  | .star t => (langWith t)∗
  | .optional t => 1 + langWith t
  | .plus t => langWith t * (langWith t)∗
  | .cat ts => catWith ts
  | .alt ts => altWith ts
  | .accept m => g m
  | .sharedTree _ t => langWith t
where
  catWith : List (Node α) → Language σ
    | [] => 1
    | t :: ts => langWith t * catWith ts
  altWith : List (Node α) → Language σ
    | [] => 0
    | t :: ts => langWith t + altWith ts

theorem langWith_cat (ts : List (Node α)) : langWith f g (.cat ts) = (ts.map (langWith f g)).prod := by
  rw [langWith]
  induction ts with
  | nil => rfl
  | cons t ts ih => rw [langWith.catWith, ih, map_cons, prod_cons]

theorem langWith_alt (ts : List (Node α)) : langWith f g (.alt ts) = (ts.map (langWith f g)).sum := by
  rw [langWith]
  induction ts with
  | nil => rfl
  | cons t ts ih => rw [langWith.altWith, ih, map_cons, sum_cons]

end Language

end Node

inductive Sym
  | ch (c : ℤ)
  | acc (m : MatchFlag)
  deriving DecidableEq

def CNode.lang (n : CNode) : Language Sym := {w | ∃ c, n.matches c ∧ w = [.ch c]}

theorem CNode.mem_lang {n : CNode} {w : List Sym} : w ∈ n.lang ↔ ∃ c, n.matches c ∧ w = [.ch c] := Iff.rfl

def acceptLang (m : MatchFlag) : Language Sym := {[.acc m]}

/-- The language of an expression tree; accept nodes are letters, so that it also says which words lead to
which accept node. -/
def Node.lang (t : Node CNode) : Language Sym := t.langWith CNode.lang acceptLang

namespace Node

variable {t : Node CNode} {ts us : List (Node CNode)} {w : List Sym}

@[simp]
theorem lang_eps : (eps : Node CNode).lang = 1 := rfl

@[simp]
theorem lang_cnode (a : CNode) : (cnode a : Node CNode).lang = a.lang := rfl

@[simp]
theorem lang_star (t : Node CNode) : (star t).lang = t.lang∗ := rfl

@[simp]
theorem lang_optional (t : Node CNode) : (optional t).lang = 1 + t.lang := rfl

@[simp]
theorem lang_plus (t : Node CNode) : (plus t).lang = t.lang * t.lang∗ := rfl

theorem lang_cat (ts : List (Node CNode)) : (cat ts).lang = (ts.map lang).prod := langWith_cat ..

@[simp]
theorem lang_cat_cons : (cat (t :: ts)).lang = t.lang * (cat ts).lang := rfl

@[simp]
theorem lang_cat_nil : (cat [] : Node CNode).lang = 1 := rfl

theorem lang_cat_append : (cat (ts ++ us)).lang = (cat ts).lang * (cat us).lang := by
  rw [lang_cat, map_append, prod_append, ← lang_cat, ← lang_cat]

theorem mem_lang_alt : w ∈ (alt ts).lang ↔ ∃ t ∈ ts, w ∈ t.lang := by
  induction ts with
  | nil =>
    change w ∈ (0 : Language Sym) ↔ _
    simp [Language.notMem_zero]
  | cons t ts ih =>
    change w ∈ t.lang + (alt ts).lang ↔ _
    rw [Language.mem_add, ih, exists_mem_cons_iff]

end Node

end AppArmor

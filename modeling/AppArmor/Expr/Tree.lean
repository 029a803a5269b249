import AppArmor.Expr.Vector

namespace AppArmor

def LeafClosed (Q : CNode → Prop) : Prop :=
  ∀ a, isCharOrCharset (.cnode a) → (∀ c, a.matches c → ∃ b, Q b ∧ b.matches c) → Q a

/-- An expression tree as the parser builds it: Cat and Alt nodes have two children. A shared subtree is opaque, and is
given by its address. -/
inductive Tree
  | eps
  | cnode (a : CNode)
  | star (t : Tree)
  | optional (t : Tree)
  | plus (t : Tree)
  | cat (l r : Tree)
  | alt (l r : Tree)
  | accept (m : MatchFlag)
  | shared (addr : ℕ)
  deriving DecidableEq

namespace Tree

open Vec (NChild)

def toNode (env : ℕ → Node CNode) : Tree → Node CNode
  | .eps => .eps
  | .cnode a => .cnode a
  | .star t => .star (toNode env t)
  | .optional t => .optional (toNode env t)
  | .plus t => .plus (toNode env t)
  | .cat l r => .cat [toNode env l, toNode env r]
  | .alt l r => .alt [toNode env l, toNode env r]
  | .accept m => .accept m
  | .shared a => .sharedTree a (env a)

def lang (env : ℕ → Node CNode) (t : Tree) : Language Sym := (t.toNode env).lang

def Over (Q : CNode → Prop) : Tree → Prop
  | .eps => True
  | .cnode a => Q a
  | .star t => Over Q t
  | .optional t => Over Q t
  | .plus t => Over Q t
  | .cat l r => Over Q l ∧ Over Q r
  | .alt l r => Over Q l ∧ Over Q r
  | .accept _ => False
  | .shared _ => False

def eq (t u : Tree) : Bool := (t.toNode fun _ => .eps).cmp (u.toNode fun _ => .eps) = .eq

def pair (k : NChild) (dir : Bool) (x y : Tree) : Tree :=
  match k with
  | .cat => if dir then .cat y x else .cat x y
  | .alt => if dir then .alt y x else .alt x y

def split (k : NChild) (dir : Bool) (t : Tree) : Option (Tree × Tree) :=
  match k, t with
  | .cat, .cat l r => some (if dir then (r, l) else (l, r))
  | .alt, .alt l r => some (if dir then (r, l) else (l, r))
  | _, _ => none

section Lemmas

variable {env : ℕ → Node CNode} {k : NChild} {dir : Bool} {t x y : Tree}

theorem split_eq_some : split k dir t = some (x, y) ↔ t = pair k dir x y := by
  cases k <;> cases dir <;> cases t <;> simp [split, pair, and_comm]

theorem split_pair : split k dir (pair k dir x y) = some (x, y) := split_eq_some.mpr rfl

@[simp]
theorem over_pair {Q : CNode → Prop} : Over Q (pair k dir x y) ↔ Over Q x ∧ Over Q y := by
  cases k <;> cases dir <;> simp [pair, Over, and_comm]

theorem coherent_toNode (t : Tree) : Node.Coherent env (t.toNode env) := by
  induction t with
  | cat l r hl hr | alt l r hl hr => simp [toNode, hl, hr]
  | star t ih | optional t ih | plus t ih => exact ih
  | shared a => rfl
  | _ => trivial

theorem toNode_inj {t u : Tree} (h : t.toNode env = u.toNode env) : t = u := by
  induction t generalizing u with
  | eps => cases u <;> simp [toNode] at h ⊢
  | cnode a => cases u <;> simp [toNode] at h ⊢; exact h
  | star t ih | optional t ih | plus t ih => cases u <;> simp [toNode] at h ⊢; exact ih h
  | cat l r hl hr | alt l r hl hr => cases u <;> simp [toNode] at h ⊢; exact ⟨hl h.1, hr h.2⟩
  | accept m => cases u <;> simp [toNode] at h ⊢; exact h
  | shared a => cases u <;> simp [toNode] at h ⊢; exact h.1

end Lemmas

theorem eq_iff {t u : Tree} : t.eq u = true ↔ t = u := by
  rw [eq, decide_eq_true_eq]
  constructor
  · exact fun h => toNode_inj (Node.cmp_eq (coherent_toNode t) (coherent_toNode u) h)
  · rintro rfl
    exact Node.cmp_self _

section Lang

variable {env : ℕ → Node CNode} (l r : Tree)

@[simp]
theorem lang_eps : lang env eps = 1 := rfl

theorem lang_cat : lang env (cat l r) = lang env l * lang env r := by
  change lang env l * (lang env r * 1) = _
  rw [mul_one]

theorem lang_alt : lang env (alt l r) = lang env l + lang env r := by
  change lang env l + (lang env r + 0) = _
  rw [add_zero]

end Lang

end Tree

end AppArmor

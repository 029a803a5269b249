import AppArmor.Expr.Node
import Mathlib.Order.Compare

namespace AppArmor

open List

def Chars.cmp (s t : Chars) : Ordering :=
  (compare s.elems.length t.elems.length).then (chars s.elems t.elems)
where
  chars : List ℤ → List ℤ → Ordering
    | c :: l, d :: k => (compare c d).then (chars l k)
    | _, _ => .eq

def CNode.typeFlags : CNode → ℕ
  | .char _ => 2 ^ 3 + 2 ^ 5 + 2 ^ 6 + 2 ^ 7
  | .charSet _ => 2 ^ 3 + 2 ^ 5 + 2 ^ 6 + 2 ^ 8
  | .notCharSet _ => 2 ^ 3 + 2 ^ 5 + 2 ^ 6 + 2 ^ 9
  | .anyChar => 2 ^ 3 + 2 ^ 5 + 2 ^ 6 + 2 ^ 10

def CNode.cmp (a b : CNode) : Ordering :=
  (compare a.typeFlags b.typeFlags).then <|
    match a, b with
    | .char c, .char d => compare c d
    | .charSet s, .charSet t => s.cmp t
    | .notCharSet s, .notCharSet t => s.cmp t
    | _, _ => .eq

def MatchFlag.typeFlags (m : MatchFlag) : ℕ :=
  2 ^ 3 + 2 ^ 5 + 2 ^ 15 + 2 ^ 16 + 2 ^ 17 +
    match m.kind with
    | .allow => 0
    | .exact => 2 ^ 18
    | .deny => 2 ^ 19
    | .prompt => 2 ^ 20

def MatchFlag.cmp (a b : MatchFlag) : Ordering :=
  (compare a.typeFlags b.typeFlags).then <| (compare a.priority b.priority).then <|
    (compare a.perms.toNat b.perms.toNat).then <| (compare a.audit.toNat b.audit.toNat).then <| compare a.addr b.addr

namespace Node

def typeFlags : Node CNode → ℕ
  | .eps => 2 ^ 3 + 2 ^ 4
  | .cnode a => a.typeFlags
  | .star _ => 2 ^ 0 + 2 ^ 1 + 2 ^ 11
  | .optional _ => 2 ^ 0 + 2 ^ 1 + 2 ^ 12
  | .plus _ => 2 ^ 0 + 2 ^ 1 + 2 ^ 13
  | .cat _ => 2 ^ 0 + 2 ^ 2 + 2 ^ 22
  | .alt _ => 2 ^ 0 + 2 ^ 2 + 2 ^ 14
  | .accept m => m.typeFlags
  | .sharedTree _ _ => 2 ^ 0 + 2 ^ 1 + 2 ^ 21

def cmp : Node CNode → Node CNode → Ordering
  | .cnode a, .cnode b => a.cmp b
  | .star t, .star u => cmp t u
  | .optional t, .optional u => cmp t u
  | .plus t, .plus u => cmp t u
  | .cat ts, .cat us => (compare ts.length us.length).then (cmpList ts us)
  | .alt ts, .alt us => (compare ts.length us.length).then (cmpList ts us)
  | .accept m, .accept n => m.cmp n
  | .sharedTree a _, .sharedTree b _ => compare a b
  | t, u => compare t.typeFlags u.typeFlags
where
  cmpList : List (Node CNode) → List (Node CNode) → Ordering
    | t :: ts, u :: us => (cmp t u).then (cmpList ts us)
    | _, _ => .eq

section Coherent

variable {α : Type} (env : ℕ → Node α)

def Coherent : Node α → Prop
  | .star t => Coherent t
  | .optional t => Coherent t
  | .plus t => Coherent t
  | .cat ts => coherentAll ts
  | .alt ts => coherentAll ts
  | .sharedTree a t => t = env a
  | .eps => True
  | .cnode _ => True
  | .accept _ => True
where
  coherentAll : List (Node α) → Prop
    | [] => True
    | t :: ts => Coherent t ∧ coherentAll ts

variable {env}

variable {ts : List (Node α)}

theorem coherentAll_iff : Coherent.coherentAll env ts ↔ ∀ t ∈ ts, Coherent env t := by
  induction ts with
  | nil => simp [Coherent.coherentAll]
  | cons t ts ih => rw [Coherent.coherentAll, ih, forall_mem_cons]

@[simp]
theorem coherent_cat : Coherent env (.cat ts) ↔ ∀ t ∈ ts, Coherent env t := by
  rw [Coherent, coherentAll_iff]

@[simp]
theorem coherent_alt : Coherent env (.alt ts) ↔ ∀ t ∈ ts, Coherent env t := by
  rw [Coherent, coherentAll_iff]

end Coherent

end Node

theorem Chars.cmp_eq {s t : Chars} (h : s.cmp t = .eq) : s = t := by
  have hchars : ∀ l k : List ℤ, l.length = k.length → cmp.chars l k = .eq → l = k := by
    intro l
    induction l with
    | nil =>
      intro k hk _
      exact (length_eq_zero_iff.mp hk.symm).symm
    | cons c l ih =>
      intro k hk h
      cases k with
      | nil => cases hk
      | cons d k =>
        rw [cmp.chars, Ordering.then_eq_eq, compare_eq_iff_eq] at h
        rw [h.1, ih k (Nat.succ.inj hk) h.2]
  rw [cmp, Ordering.then_eq_eq, compare_eq_iff_eq] at h
  cases s
  cases t
  rw [Chars.mk.injEq]
  exact hchars _ _ h.1 h.2

theorem CNode.cmp_eq {a b : CNode} (h : a.cmp b = .eq) : a = b := by
  cases a <;> cases b <;> simp [cmp, typeFlags] at h ⊢
  case char.char => exact h
  case charSet.charSet => exact Chars.cmp_eq h
  case notCharSet.notCharSet => exact Chars.cmp_eq h

theorem MatchFlag.cmp_eq {a b : MatchFlag} (h : a.cmp b = .eq) : a = b := by
  simp only [cmp, Ordering.then_eq_eq, compare_eq_iff_eq, typeFlags] at h
  obtain ⟨hkind, hprio, hperms, haudit, haddr⟩ := h
  have hk : a.kind = b.kind := by
    cases ha : a.kind <;> cases hb : b.kind <;> first | rfl | simp [ha, hb] at hkind
  rw [MatchFlag.mk.injEq]
  exact ⟨hk, hprio, BitVec.eq_of_toNat_eq hperms, BitVec.eq_of_toNat_eq haudit, haddr⟩

namespace Node

def ctor : Node CNode → ℕ
  | .eps => 0
  | .cnode _ => 1
  | .star _ => 2
  | .optional _ => 3
  | .plus _ => 4
  | .cat _ => 5
  | .alt _ => 6
  | .accept _ => 7
  | .sharedTree _ _ => 8

def ctorOf (flags : ℕ) : ℕ :=
  if flags.testBit 22 then 5 else if flags.testBit 21 then 8 else if flags.testBit 17 then 7
  else if flags.testBit 14 then 6 else if flags.testBit 13 then 4 else if flags.testBit 12 then 3
  else if flags.testBit 11 then 2 else if flags.testBit 6 then 1 else 0

theorem ctorOf_typeFlags (t : Node CNode) : ctorOf t.typeFlags = t.ctor := by
  cases t with
  | cnode a => cases a <;> simp only [typeFlags, CNode.typeFlags, ctor] <;> decide
  | accept m => cases hk : m.kind <;> simp only [typeFlags, MatchFlag.typeFlags, hk, ctor] <;> decide
  | _ =>
    simp only [typeFlags, ctor]
    decide

variable {t u : Node CNode}

theorem ctor_eq_of_typeFlags (h : compare t.typeFlags u.typeFlags = .eq) : t.ctor = u.ctor := by
  rw [← ctorOf_typeFlags t, ← ctorOf_typeFlags u, compare_eq_iff_eq.mp h]

theorem ctor_eq_of_cmp (h : t.cmp u = .eq) : t.ctor = u.ctor := by
  unfold cmp at h
  split at h <;> first | rfl | exact ctor_eq_of_typeFlags h

theorem cmpList_eq {ts us : List (Node CNode)} (hlen : ts.length = us.length) (h : cmp.cmpList ts us = .eq)
    (hall : ∀ t ∈ ts, ∀ u ∈ us, t.cmp u = .eq → t = u) : ts = us := by
  induction ts generalizing us with
  | nil => exact (length_eq_zero_iff.mp hlen.symm).symm
  | cons t ts ih =>
    cases us with
    | nil => cases hlen
    | cons u us =>
      rw [cmp.cmpList, Ordering.then_eq_eq] at h
      rw [hall t (by simp) u (by simp) h.1, ih (Nat.succ.inj hlen) h.2 fun t ht u hu => ?_]
      exact hall t (mem_cons_of_mem _ ht) u (mem_cons_of_mem _ hu)

theorem cmp_eq {env : ℕ → Node CNode} (ht : Coherent env t) (hu : Coherent env u)
    (h : t.cmp u = .eq) : t = u := by
  have hctor := ctor_eq_of_cmp h
  induction t generalizing u with
  | eps => cases u <;> first | rfl | cases hctor
  | cnode a =>
    cases u <;> try cases hctor
    rw [CNode.cmp_eq h]
  | star t ih | optional t ih | plus t ih =>
    cases u <;> try cases hctor
    rw [Coherent] at ht hu
    rw [cmp] at h
    rw [ih ht hu h (ctor_eq_of_cmp h)]
  | cat ts ih =>
    cases u <;> try cases hctor
    rw [cmp, Ordering.then_eq_eq, compare_eq_iff_eq] at h
    rw [coherent_cat] at ht hu
    rw [cmpList_eq h.1 h.2 fun t htm u hum he => ih t htm (ht t htm) (hu u hum) he (ctor_eq_of_cmp he)]
  | alt ts ih =>
    cases u <;> try cases hctor
    rw [cmp, Ordering.then_eq_eq, compare_eq_iff_eq] at h
    rw [coherent_alt] at ht hu
    rw [cmpList_eq h.1 h.2 fun t htm u hum he => ih t htm (ht t htm) (hu u hum) he (ctor_eq_of_cmp he)]
  | accept m =>
    cases u <;> try cases hctor
    rw [MatchFlag.cmp_eq h]
  | sharedTree a t =>
    cases u <;> try cases hctor
    have ha := compare_eq_iff_eq.mp h
    rw [Coherent] at ht hu
    rw [ht, hu, ha]

end Node

theorem Chars.cmp_self (s : Chars) : s.cmp s = .eq := by
  have hchars : ∀ l : List ℤ, cmp.chars l l = .eq := by
    intro l
    induction l with
    | nil => rfl
    | cons c l ih => rw [cmp.chars, ih, Ordering.then_eq, compare_eq_iff_eq]
  rw [cmp, hchars, Ordering.then_eq, compare_eq_iff_eq]

theorem CNode.cmp_self (a : CNode) : a.cmp a = .eq := by
  cases a <;> simp [cmp, Chars.cmp_self]

theorem MatchFlag.cmp_self (m : MatchFlag) : m.cmp m = .eq := by
  simp [cmp]

theorem Node.cmp_self (t : Node CNode) : t.cmp t = .eq := by
  have hlist : ∀ ts : List (Node CNode), (∀ t ∈ ts, t.cmp t = .eq) → cmp.cmpList ts ts = .eq := by
    intro ts
    induction ts with
    | nil => exact fun _ => rfl
    | cons t ts ih =>
      intro h
      obtain ⟨ht, hts⟩ := forall_mem_cons.mp h
      rw [cmp.cmpList, ht, ih hts]
      rfl
  induction t with
  | eps => simp [cmp]
  | cnode a => rw [cmp, CNode.cmp_self]
  | star t ih | optional t ih | plus t ih => rw [cmp, ih]
  | cat ts ih | alt ts ih => rw [cmp, hlist ts ih, Ordering.then_eq, compare_eq_iff_eq]
  | accept m => rw [cmp, MatchFlag.cmp_self]
  | sharedTree a t => rw [cmp, compare_eq_iff_eq]

end AppArmor

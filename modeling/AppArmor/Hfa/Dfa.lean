import AppArmor.Hfa.Cases
import AppArmor.Perms.Resolve

namespace AppArmor

structure ProtoState where
  nnodes : NodeSet
  anodes : Option NodeSet
  deriving DecidableEq

structure State where
  label : ℤ
  /-- `flags & DiffEncodeFlag` -/
  diff : Bool
  perms : PermsT
  trans : CharMap ℕ
  otherwise : ℕ
  proto : ProtoState

structure DFA where
  state : ℕ → State
  states : List ℕ
  nonmatching : ℕ
  start : ℕ
  diffcount : ℕ
  oobRange : ℤ
  maxRange : ℤ
  ordRange : ℤ
  upperBound : ℤ
  filedfa : Bool

namespace DFA

variable (d : DFA)

def nextFrom : ℕ → ℕ → ℤ → Option ℕ
  | 0, _, _ => none
  | fuel + 1, s, c =>
    match (d.state s).trans[c]? with
    | some t => some t
    | none => if (d.state s).diff then nextFrom fuel (d.state s).otherwise c else some (d.state s).otherwise

def next (s : ℕ) (c : ℤ) : Option ℕ := d.nextFrom (d.states.length + 1) s c

def matchLen (s : ℕ) (w : List ℤ) : Option ℕ := w.foldlM d.next s

def delta (s : ℕ) (c : ℤ) : ℕ := ((d.state s).trans[c]?).getD (d.state s).otherwise

variable {d}

theorem next_eq_delta {s : ℕ} (h : (d.state s).diff = false) (c : ℤ) : d.next s c = some (d.delta s c) := by
  unfold next nextFrom delta
  cases (d.state s).trans[c]? <;> simp [h]

theorem matchLen_eq_foldl (h : ∀ s, (d.state s).diff = false) (s : ℕ) (w : List ℤ) :
    d.matchLen s w = some (w.foldl d.delta s) := by
  unfold matchLen
  induction w generalizing s with
  | nil => rfl
  | cons c w ih =>
    rw [List.foldlM_cons, next_eq_delta (h s), List.foldl_cons]
    exact ih _

end DFA

end AppArmor

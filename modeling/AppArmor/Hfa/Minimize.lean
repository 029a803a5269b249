import AppArmor.Lib.Refine
import AppArmor.Hfa.Dfa

namespace AppArmor

open Refine

def PermsT.lt (p q : PermsT) : Bool :=
  if p.allow ≠ q.allow then p.allow < q.allow
  else if p.deny ≠ q.deny then p.deny < q.deny
  else if p.prompt ≠ q.prompt then p.prompt < q.prompt
  else if p.audit ≠ q.audit then p.audit < q.audit
  else if p.audit ≠ q.audit then q.audit < p.audit
  else p.quiet < q.quiet

def PermsT.equiv (p q : PermsT) : Bool := !p.lt q && !q.lt p

theorem PermsT.equiv_iff {p q : PermsT} : p.equiv q = true ↔ p = q := by
  have hlt : ∀ {a b : Perm32}, a ≠ b → a < b ∨ b < a := fun h => by bv_omega
  constructor
  · intro h
    simp only [equiv, lt, Bool.and_eq_true, Bool.not_eq_true'] at h
    obtain ⟨h₁, h₂⟩ := h
    by_cases ha : p.allow = q.allow
    · by_cases hd : p.deny = q.deny
      · by_cases hp : p.prompt = q.prompt
        · by_cases hau : p.audit = q.audit
          · by_cases hq : p.quiet = q.quiet
            · cases p; cases q; simp_all
            · rcases hlt hq with h | h <;> simp_all
          · rcases hlt hau with h | h <;> simp_all
        · rcases hlt hp with h | h <;> simp_all
      · rcases hlt hd with h | h <;> simp_all
    · rcases hlt ha with h | h <;> simp_all
  · rintro rfl
    simp [equiv, lt]

namespace Minimize

def sameLoop (part : ℕ → ℕ) (o₁ o₂ : ℕ) : ℕ → List (ℤ × ℕ) → List (ℤ × ℕ) → Bool
  | 0, _, _ => true
  | _ + 1, [], [] => true
  | n + 1, (_, t₁) :: l₁, [] => part t₁ = o₂ && sameLoop part o₁ o₂ n l₁ []
  | n + 1, [], (_, t₂) :: l₂ => part t₂ = o₁ && sameLoop part o₁ o₂ n [] l₂
  | n + 1, (c₁, t₁) :: l₁, (c₂, t₂) :: l₂ =>
    if c₁ < c₂ then part t₁ = o₂ && sameLoop part o₁ o₂ n l₁ ((c₂, t₂) :: l₂)
    else if c₁ = c₂ then part t₁ = part t₂ && sameLoop part o₁ o₂ n l₁ l₂
    else o₁ = part t₂ && sameLoop part o₁ o₂ n ((c₁, t₁) :: l₁) l₂

def sameMappings (d : DFA) (part : ℕ → ℕ) (s₁ s₂ : ℕ) : Bool :=
  let o₁ := part (d.state s₁).otherwise
  let o₂ := part (d.state s₂).otherwise
  let l₁ := (d.state s₁).trans.toList
  let l₂ := (d.state s₂).trans.toList
  o₁ = o₂ && sameLoop part o₁ o₂ (l₁.length + l₂.length) l₁ l₂

def initStep (d : DFA) (s : Partition ℕ × List (PermsT × ℕ)) (i : ℕ) : Partition ℕ × List (PermsT × ℕ) :=
  if i = d.start then (s.1.newBlock i, s.2)
  else
    match s.2.find? fun e => e.1.equiv (d.state i).perms with
    | none => (s.1.newBlock i, s.2 ++ [((d.state i).perms, s.1.fresh)])
    | some e => (s.1.pushBack e.2 i, s.2)

def initial (d : DFA) : Partition ℕ := (d.states.foldl (initStep d) (.empty, [])).1

def rep (p : Partition ℕ) (t : ℕ) : ℕ :=
  ((p.blocks.find? fun b => b.id = p.part t).bind fun b => b.members.head?).getD t

def remapState (p : Partition ℕ) (s : State) : State :=
  { s with
    otherwise := rep p s.otherwise
    trans := s.trans.filterMap fun _ t => if rep p t = rep p s.otherwise then none else some (rep p t) }

inductive MinimizeError
  | differentPerms
  | outOfFuel
  deriving DecidableEq

def clearLabel (first : ℕ) (state : ℕ → State) (i : ℕ) : Except MinimizeError (ℕ → State) :=
  if (state first).perms ≠ (state i).perms then .error .differentPerms
  else .ok (Function.update state i { state i with label := -1 })

def remapBlock (p : Partition ℕ) (state : ℕ → State) (b : Block ℕ) : Except MinimizeError (ℕ → State) :=
  match b.members with
  | [] => .ok state
  | first :: ms => ms.foldlM (clearLabel first) (Function.update state first (remapState p (state first)))

end Minimize

open Minimize in
def DFA.minimize (d : DFA) : Except MinimizeError DFA :=
  match repartition (sameMappings d) d.states.length (d.states.length + 1) (initial d) with
  | none => .error .outOfFuel
  | some p =>
    if p.blocks.length = d.states.length then .ok d
    else do
      let state ← p.blocks.foldlM (remapBlock p) d.state
      return { d with
        state := state
        states := d.states.filter fun i => (state i).label ≠ -1
        nonmatching := rep p d.nonmatching
        start := rep p d.start }

end AppArmor

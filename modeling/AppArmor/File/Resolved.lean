import AppArmor.File.Grants
import AppArmor.Glob.Match
import AppArmor.Hfa.Recognize
import AppArmor.Perms.Allowed

namespace AppArmor

open Fuel Resolve

def RuleVec.flag (addr : UniquePerm → ℕ) (r : RuleVec) : MatchFlag :=
  ⟨r.uniquePerm.kind, r.priority, r.perms, r.audit, addr r.uniquePerm⟩

def RuleVec.Allows (r : RuleVec) : Prop := r.mode ≠ .deny ∧ r.mode ≠ .prompt

theorem permissive_flag {r : RuleVec} {addr : UniquePerm → ℕ} : Permissive (r.flag addr) ↔ r.Allows := by
  unfold Permissive RuleVec.Allows RuleVec.flag RuleVec.uniquePerm UniquePerm.kind
  cases r.mode <;> cases r.tree.exactMatch <;> simp

/-- The permissions that a word gets from the rules: those of the accept nodes of the rules that match it, which are
visited in some order. -/
def Resolves (filedfa : Bool) (rs : List RuleVec) (w : List Byte) (p : PermsT) : Prop :=
  ∃ (addr : UniquePerm → ℕ) (flags : List MatchFlag),
    (∀ m, m ∈ flags ↔ ∃ r ∈ rs, w ∈ r.tree.byteWords ∧ m = r.flag addr) ∧ permsT filedfa flags = some p

theorem resolves_of_match {filedfa : Bool} {rs : List RuleVec} {w : List Byte} {p : PermsT} (addr : UniquePerm → ℕ)
    (hp : permsT filedfa ((rs.filter fun r => r.tree.matchBytes w).map (RuleVec.flag addr)) = some p) :
    Resolves filedfa rs w p := by
  refine ⟨addr, _, fun m => ?_, hp⟩
  rw [List.mem_map]
  constructor
  · rintro ⟨r, hr, rfl⟩
    obtain ⟨hr, hmatch⟩ := List.mem_filter.mp hr
    exact ⟨r, hr, Tree.matchBytes_iff.mp hmatch, rfl⟩
  · rintro ⟨r, hr, hw, rfl⟩
    exact ⟨r, List.mem_filter.mpr ⟨hr, Tree.matchBytes_iff.mpr hw⟩, rfl⟩

def flaggedRules (addr : UniquePerm → ℕ) (rs : List RuleVec) : List (Tree × MatchFlag) := rs.map fun r => (r.tree, r.flag addr)

end AppArmor

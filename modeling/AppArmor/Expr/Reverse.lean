import AppArmor.Expr.AareCorrect
import AppArmor.Perms.Resolve

namespace AppArmor

open Resolve

namespace Tree

theorem flip_flip (t : Tree) : t.flip.flip = t := by
  induction t with
  | star t ih | optional t ih | plus t ih => simp only [flip, ih]
  | cat l r ihl ihr | alt l r ihl ihr => simp only [flip, ihl, ihr]
  | _ => rfl

end Tree

namespace AareRules

variable {filedfa : Bool} {w : List Sym} {p : PermsT}

/-- The rules added one after the other, each with the address that a new accept node for it would have. -/
def addRules (rs : AareRules) (c : UniquePermsCache) : List (ℕ × RuleVec) → AareRules
  | [] => rs
  | r :: rules => addRules (rs.addRuleVec c r.1 r.2).1 (rs.addRuleVec c r.1 r.2).2 rules

/-- The accept nodes of the rules that match a word, in the order in which they are visited, resolve to `p`. -/
def MatchedWith (filedfa : Bool) (rs : AareRules) (w : List Sym) (p : PermsT) : Prop :=
  ∃ flags : List MatchFlag, (∀ m, m ∈ flags ↔ Maps rs.exprMap m w) ∧ permsT filedfa flags = some p

theorem addRuleVec_exprMap (rs : AareRules) (c : UniquePermsCache) (addr : ℕ) (r : RuleVec) :
    (rs.addRuleVec c addr r).1.exprMap = insertExpr (c.insert r.uniquePerm addr).1 r.tree rs.exprMap := by
  unfold addRuleVec addToRules
  -- a reversed rule set flips the tree here and once more where it is put into the map
  cases rs.reverse <;> simp [Tree.flip_flip]

theorem addRules_exprMap {rs rs' : AareRules} (h : rs.exprMap = rs'.exprMap) (c : UniquePermsCache)
    (rules : List (ℕ × RuleVec)) : (rs.addRules c rules).exprMap = (rs'.addRules c rules).exprMap := by
  induction rules generalizing rs rs' c with
  | nil => exact h
  | cons r rules ih =>
    apply ih
    rw [addRuleVec_exprMap, addRuleVec_exprMap, h]

def plain (cache : ℕ) : AareRules := ⟨cache, false, []⟩

def reversed (cache : ℕ) : AareRules := ⟨cache, true, []⟩

/-- The words of the rules that share an accept node. -/
def ruleWords (rules : List (ℕ × RuleVec)) (u : UniquePerm) : Language Sym :=
  {w | ∃ r ∈ rules, r.2.uniquePerm = u ∧ w ∈ r.2.tree.words}

theorem mem_ruleWords {rules : List (ℕ × RuleVec)} {u : UniquePerm} :
    w ∈ ruleWords rules u ↔ ∃ r ∈ rules, r.2.uniquePerm = u ∧ w ∈ r.2.tree.words := Iff.rfl

def ReversalClosed (rules : List (ℕ × RuleVec)) : Prop :=
  ∀ u w, w ∈ ruleWords rules u ↔ w.reverse ∈ ruleWords rules u

end AareRules

namespace UniquePermsCache

variable {c : UniquePermsCache} {p q : UniquePerm} {m : MatchFlag} {addr : ℕ} {rules : List (ℕ × RuleVec)}

def insertRules (c : UniquePermsCache) : List (ℕ × RuleVec) → UniquePermsCache
  | [] => c
  | r :: rules => insertRules (c.insert r.2.uniquePerm r.1).2 rules

/-- Every accept node, those of the cache and those still to be made, has an address of its own. -/
def Fresh (c : UniquePermsCache) (rules : List (ℕ × RuleVec)) : Prop :=
  (rules.map Prod.fst ++ c.nodes.map fun e => e.2.addr).Nodup

theorem lookup_insert : (c.insert p addr).2.nodes.lookup p = some (c.insert p addr).1 := by
  unfold insert
  split
  · next m h => exact h
  · exact List.lookup_cons_self

theorem lookup_insert_of_some (h : c.nodes.lookup q = some m) : (c.insert p addr).2.nodes.lookup q = some m := by
  unfold insert
  split
  · exact h
  · next hnone =>
    have hne : q ≠ p := by
      rintro rfl
      rw [hnone] at h
      cases h
    rw [List.lookup_cons, beq_false_of_ne hne]
    exact h

theorem lookup_insertRules_of_some (h : c.nodes.lookup q = some m) : (c.insertRules rules).nodes.lookup q = some m := by
  induction rules generalizing c with
  | nil => exact h
  | cons r rules ih => exact ih (lookup_insert_of_some h)

theorem fresh_insert {r : ℕ × RuleVec} (h : c.Fresh (r :: rules)) : (c.insert r.2.uniquePerm r.1).2.Fresh rules := by
  unfold Fresh at h ⊢
  rw [List.map_cons, List.cons_append] at h
  unfold insert
  split
  · exact (List.nodup_cons.mp h).2
  · exact (List.perm_middle.nodup_iff).mpr h

theorem fresh_insertRules (h : c.Fresh rules) : ((c.insertRules rules).nodes.map fun e => e.2.addr).Nodup := by
  induction rules generalizing c with
  | nil => exact h
  | cons r rules ih => exact ih (fresh_insert h)

theorem eq_of_lookup (hc : (c.nodes.map fun e => e.2.addr).Nodup) (hp : c.nodes.lookup p = some m)
    (hq : c.nodes.lookup q = some m) : p = q := by
  have hmem : ∀ r, c.nodes.lookup r = some m → (r, m) ∈ c.nodes := fun r hr => by
    obtain ⟨l₁, l₂, hl, -⟩ := List.lookup_eq_some_iff.mp hr
    rw [hl]
    exact List.mem_append_right l₁ List.mem_cons_self
  have heq := List.inj_on_of_nodup_map hc (hmem p hp) (hmem q hq) rfl
  exact congrArg Prod.fst heq

end UniquePermsCache

namespace AareRules

open UniquePermsCache

/-- Each rule ends under the node that the cache has for it in the end. -/
theorem maps_addRules {rs : AareRules} {c : UniquePermsCache} {rules : List (ℕ × RuleVec)} {m : MatchFlag} :
    Maps (rs.addRules c rules).exprMap m w ↔
      Maps rs.exprMap m w ∨ ∃ u, (c.insertRules rules).nodes.lookup u = some m ∧ w ∈ ruleWords rules u := by
  induction rules generalizing rs c with
  | nil => simp [addRules, mem_ruleWords]
  | cons r rules ih =>
    have hnode : ((c.insert r.2.uniquePerm r.1).2.insertRules rules).nodes.lookup r.2.uniquePerm =
        some (c.insert r.2.uniquePerm r.1).1 := lookup_insertRules_of_some lookup_insert
    rw [addRules, ih, addRuleVec_exprMap, maps_insertExpr, or_assoc, insertRules]
    refine or_congr_right ?_
    constructor
    · rintro (⟨rfl, hw⟩ | ⟨u, hu, r', hr', hw⟩)
      · exact ⟨r.2.uniquePerm, hnode, r, List.mem_cons_self, rfl, hw⟩
      · exact ⟨u, hu, r', List.mem_cons_of_mem r hr', hw⟩
    · rintro ⟨u, hu, r', hr', rfl, hw⟩
      rcases List.mem_cons.mp hr' with rfl | hr'
      · rw [hnode] at hu
        exact Or.inl ⟨Option.some.inj hu, hw⟩
      · exact Or.inr ⟨_, hu, r', hr', rfl, hw⟩

theorem lookup_insertRules {c : UniquePermsCache} {rules : List (ℕ × RuleVec)} {r : ℕ × RuleVec} (hr : r ∈ rules) :
    ∃ m, (c.insertRules rules).nodes.lookup r.2.uniquePerm = some m := by
  induction rules generalizing c with
  | nil => cases hr
  | cons r' rules ih =>
    rcases List.mem_cons.mp hr with rfl | hr
    · exact ⟨_, lookup_insertRules_of_some (c := (c.insert r.2.uniquePerm r.1).2) lookup_insert⟩
    · exact ih hr

theorem maps_plain {cache : ℕ} {c : UniquePermsCache} {rules : List (ℕ × RuleVec)} {m : MatchFlag} :
    Maps ((plain cache).addRules c rules).exprMap m w ↔
      ∃ u, (c.insertRules rules).nodes.lookup u = some m ∧ w ∈ ruleWords rules u := by
  have hnone : ¬ Maps (plain cache).exprMap m w := by
    rintro ⟨_, he, _⟩
    exact List.not_mem_nil he
  rw [maps_addRules, or_iff_right hnone]

/-- The accept nodes of a reversed set are those of the reversed word exactly if the rules of each accept node match the
reversals of what they match; the permissions then agree too. -/
theorem reversed_matches_iff (filedfa : Bool) (cache : ℕ) (c : UniquePermsCache) (rules : List (ℕ × RuleVec))
    (hfresh : c.Fresh rules) :
    ((∀ w m, Maps ((reversed cache).addRules c rules).exprMap m w ↔
        Maps ((plain cache).addRules c rules).exprMap m w.reverse) ↔ ReversalClosed rules) ∧
      (ReversalClosed rules → ∀ w p, MatchedWith filedfa ((reversed cache).addRules c rules) w p ↔
        MatchedWith filedfa ((plain cache).addRules c rules) w.reverse p) := by
  have hsame := addRules_exprMap (show (reversed cache).exprMap = (plain cache).exprMap from rfl) c rules
  have hiff : (∀ w m, Maps ((reversed cache).addRules c rules).exprMap m w ↔
      Maps ((plain cache).addRules c rules).exprMap m w.reverse) ↔ ReversalClosed rules := by
    rw [hsame]
    simp only [maps_plain]
    constructor
    · intro h u w
      have hone : ∀ w, w ∈ ruleWords rules u → w.reverse ∈ ruleWords rules u := by
        rintro w ⟨r, hr, rfl, hw⟩
        obtain ⟨m, hm⟩ := lookup_insertRules (c := c) hr
        obtain ⟨u', hu', hw'⟩ := (h w m).mp ⟨_, hm, r, hr, rfl, hw⟩
        rwa [eq_of_lookup (fresh_insertRules hfresh) hm hu']
      refine ⟨hone w, fun hw => ?_⟩
      have := hone _ hw
      rwa [List.reverse_reverse] at this
    · intro h w m
      exact exists_congr fun u => and_congr_right fun _ => h u w
  refine ⟨hiff, fun h w p => ?_⟩
  unfold MatchedWith
  simp only [hiff.mpr h w]

def pairRule (perms : Perm32) (a b : ℤ) : RuleVec :=
  ⟨0, .allow, perms, 0, .cat (.cnode (.char a)) (.cnode (.char b)), [], false⟩

theorem mem_pairRule {perms : Perm32} {a b : ℤ} : w ∈ (pairRule perms a b).tree.words ↔ w = [.ch a, .ch b] := by
  have htree : (pairRule perms a b).tree.words = (CNode.char a).lang * ((CNode.char b).lang * 1) := rfl
  have hchar : ∀ c, (CNode.char c).lang = {[.ch c]} := by
    intro c
    ext w
    simp only [CNode.mem_lang, CNode.matches, decide_eq_true_eq, exists_eq_left]
    exact Iff.rfl
  have hpair : (pairRule perms a b).tree.words = {[.ch a, .ch b]} := by
    rw [htree, hchar, hchar, mul_one]
    exact Set.image2_singleton
  rw [hpair]
  exact Iff.rfl

/-- `aa` to be read, `ab` and `ba` to be written. -/
def mirrored : List (ℕ × RuleVec) := [(1, pairRule 4 97 97), (2, pairRule 2 97 98), (3, pairRule 2 98 97)]

theorem mirrored_closed : ReversalClosed mirrored := by
  have hone : ∀ u w, w ∈ ruleWords mirrored u → w.reverse ∈ ruleWords mirrored u := by
    rintro u w ⟨r, hr, rfl, hw⟩
    simp only [mirrored, List.mem_cons, List.not_mem_nil, or_false] at hr
    rcases hr with rfl | rfl | rfl <;> cases mem_pairRule.mp hw
    · exact ⟨(1, pairRule 4 97 97), by simp [mirrored], rfl, mem_pairRule.mpr rfl⟩
    · exact ⟨(3, pairRule 2 98 97), by simp [mirrored], rfl, mem_pairRule.mpr rfl⟩
    · exact ⟨(2, pairRule 2 97 98), by simp [mirrored], rfl, mem_pairRule.mpr rfl⟩
  refine fun u w => ⟨hone u w, fun hw => ?_⟩
  have := hone u _ hw
  rwa [List.reverse_reverse] at this

theorem mirrored_plain : MatchedWith true ((plain 0).addRules ⟨[]⟩ mirrored) [.ch 98, .ch 97] ⟨2, 0, 0, 0, 0⟩ := by
  refine ⟨[⟨.exact, 0, 2, 0, 2⟩], fun m => ?_, by decide +kernel⟩
  rw [maps_plain, List.mem_singleton]
  constructor
  · rintro rfl
    exact ⟨(pairRule 2 98 97).uniquePerm, by decide, (3, pairRule 2 98 97), by simp [mirrored], rfl, mem_pairRule.mpr rfl⟩
  · rintro ⟨u, hu, r, hr, rfl, hw⟩
    simp only [mirrored, List.mem_cons, List.not_mem_nil, or_false] at hr
    rcases hr with rfl | rfl | rfl <;> cases mem_pairRule.mp hw
    exact (Option.some.inj hu).symm

theorem mirrored_reversed : MatchedWith true ((reversed 0).addRules ⟨[]⟩ mirrored) [.ch 97, .ch 98] ⟨2, 0, 0, 0, 0⟩ :=
  ((reversed_matches_iff true 0 ⟨[]⟩ mirrored (by unfold Fresh; decide)).2 mirrored_closed _ _).mpr mirrored_plain

def abRule : RuleVec := pairRule 4 97 98

theorem abRule_words {m : MatchFlag} (reverse : Bool) :
    Maps (addRules ⟨0, reverse, []⟩ ⟨[]⟩ [(1, abRule)]).exprMap m w ↔
      m = ⟨.exact, 0, 4, 0, 1⟩ ∧ w = [.ch 97, .ch 98] := by
  have hflag : ((UniquePermsCache.mk []).insert abRule.uniquePerm 1).1 = ⟨.exact, 0, 4, 0, 1⟩ := by decide
  rw [addRules, addRules, addRuleVec_exprMap, maps_insertExpr, hflag, abRule, mem_pairRule]
  have hnone : ¬ Maps (plain 0).exprMap m w := by
    rintro ⟨_, he, _⟩
    exact List.not_mem_nil he
  exact (or_iff_right hnone).trans (and_congr eq_comm Iff.rfl)

theorem abRule_not_reversed : ∃ w p, MatchedWith true (addRules (reversed 0) ⟨[]⟩ [(1, abRule)]) w p ∧
    ¬ MatchedWith true (addRules (plain 0) ⟨[]⟩ [(1, abRule)]) w.reverse p := by
  refine ⟨[.ch 97, .ch 98], ⟨4, 0, 0, 0, 0⟩, ⟨[⟨.exact, 0, 4, 0, 1⟩], fun m => ?_, by decide +kernel⟩, ?_⟩
  · rw [reversed, abRule_words, and_iff_left rfl, List.mem_singleton]
  · rintro ⟨flags, hflags, hp⟩
    have hnone : flags = [] := by
      refine List.eq_nil_iff_forall_not_mem.mpr fun m hm => ?_
      have := ((abRule_words false).mp ((hflags m).mp hm)).2
      simp at this
    rw [hnone] at hp
    revert hp
    decide

end AareRules

end AppArmor

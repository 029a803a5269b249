import AppArmor.Expr.Local

namespace AppArmor

open Glushkov List

namespace Node

variable {α : Type}

/-- The trees `aare_rules` hands to the automaton: alternatives of expressions that each end in an accept node. -/
inductive RuleTree : Node α → Prop
  | rule {t} (m : MatchFlag) (h : Plain t) : RuleTree (.cat [t, .accept m])
  | alt {ts} (h : ∀ t ∈ ts, RuleTree t) : RuleTree (.alt ts)

def rules : Node α → List (Node α × MatchFlag)
  | .cat [t, .accept m] => [(t, m)]
  | .alt ts => rulesList ts
  | _ => []
where
  rulesList : List (Node α) → List (Node α × MatchFlag)
    | [] => []
    | t :: ts => rules t ++ rulesList ts

theorem rulesList_eq (ts : List (Node α)) : rules.rulesList ts = ts.flatMap rules := by
  induction ts with
  | nil => rfl
  | cons t ts ih => rw [rules.rulesList, ih, flatMap_cons]

theorem rules_alt (ts : List (Node α)) : (alt ts).rules = ts.flatMap rules := by
  rw [rules, rulesList_eq]

theorem RuleTree.sharedFree {t : Node α} (h : RuleTree t) : SharedFree t := by
  induction h with
  | rule m h =>
    refine .cat fun t ht => ?_
    rcases mem_cons.mp ht with rfl | ht
    · exact h.sharedFree
    · rw [mem_singleton.mp ht]
      exact .accept m
  | alt _ ih => exact .alt ih

theorem RuleTree.flags_eq {t : Node α} (h : RuleTree t) : t.flags = t.rules.map Prod.snd := by
  induction h with
  | rule m h => simp [flags, flags.flagsList, rules, h.flags_eq]
  | alt _ ih =>
    rw [flags_alt, rules_alt, map_flatMap]
    exact flatMap_congr ih

theorem RuleTree.cnodes_eq {t : Node α} (h : RuleTree t) : t.cnodes = t.rules.flatMap (·.1.cnodes) := by
  induction h with
  | rule m h => simp [cnodes, cnodes.cnodesList, rules]
  | alt _ ih =>
    rw [cnodes_alt, rules_alt, flatMap_assoc]
    exact flatMap_congr ih

def ruleLang (rs : List (Node Pos × MatchFlag)) : Language ImportantNode :=
  {w | ∃ r ∈ rs, ∃ u ∈ r.1.posLang, w = u ++ [.accept r.2]}

theorem ruleLang_append (rs rs' : List (Node Pos × MatchFlag)) :
    ruleLang (rs ++ rs') = ruleLang rs + ruleLang rs' := by
  ext w
  rw [Language.mem_add]
  simp only [ruleLang, mem_append, or_and_right, exists_or]
  rfl

/-- What the positions of a rule tree are: the accept nodes only end words, and the words are those of the rules. -/
structure RulePositions (t : Node Pos) : Prop where
  final : ∀ p ∈ t.accepts, t.posInfo.Final p
  lang : t.posInfo.lang = ruleLang t.rules

theorem accept_notMem_places (t : Node Pos) (m : MatchFlag) : ImportantNode.accept m ∉ t.places := by
  simp [places]

variable {t : Node Pos}

theorem RulePositions.follow_accept (h : RulePositions t) (m : MatchFlag) :
    t.posInfo.follow (.accept m) = ∅ := by
  by_cases hm : ImportantNode.accept m ∈ t.accepts
  · exact (h.final _ hm).follow
  · apply t.posInfo_on.outside
    intro hp
    rcases Finset.mem_union.mp hp with hp | hp
    · exact accept_notMem_places t m hp
    · exact hm hp

theorem rule_positions (m : MatchFlag) (h : Plain t) (hn : t.cnodes.Nodup) :
    RulePositions (.cat [t, .accept m]) := by
  have hi : posInfo (.cat [t, .accept m]) = t.posInfo.cat (.leaf (.accept m)) := by
    rw [posInfo, posInfo.catInfo, posInfo.catInfo, posInfo.catInfo, eps_cat]
    rfl
  have haccepts : (cat [t, .accept m]).accepts = {.accept m} := by simp [accepts, flags, flags.flagsList, h.flags_eq]
  have hleaf : (PosInfo.leaf (ImportantNode.accept m)).On {.accept m} := .leaf_on (Finset.mem_singleton_self _)
  have hnot := accept_notMem_places t m
  have ht := h.posInfo_on
  refine ⟨?_, ?_⟩
  · intro p hp
    rw [haccepts] at hp
    rw [Finset.mem_singleton.mp hp, hi]
    have hl : ImportantNode.accept m ∉ t.posInfo.last := fun hl => hnot (ht.last hl)
    exact ⟨by simp [PosInfo.cat, PosInfo.leaf], by simp [PosInfo.cat, PosInfo.leaf, ht.outside _ hnot, hl]⟩
  · rw [hi, PosInfo.lang_cat ht hleaf (Finset.disjoint_singleton_right.mpr hnot), h.posInfo_lang hn, PosInfo.lang_leaf]
    ext w
    rw [Language.mem_mul]
    constructor
    · rintro ⟨u, hu, v, hv, rfl⟩
      rw [Set.mem_singleton_iff.mp hv]
      exact ⟨(t, m), by simp [rules], u, hu, rfl⟩
    · rintro ⟨r, hr, u, hu, rfl⟩
      rw [rules, mem_singleton] at hr
      rw [hr] at hu ⊢
      exact ⟨u, hu, _, rfl, rfl⟩

theorem alt_positions {ts : List (Node Pos)} (ih : ∀ t ∈ ts, RulePositions t) (hn : (alt ts).cnodes.Nodup) :
    RulePositions (.alt ts) := by
  induction ts with
  | nil =>
    refine ⟨by simp [accepts, flags_alt], ?_⟩
    rw [posInfo, posInfo.altInfo, PosInfo.lang_empty]
    ext w
    refine iff_of_false (Language.notMem_zero w) ?_
    rintro ⟨r, hr, _⟩
    rw [rules_alt] at hr
    exact absurd hr (by simp)
  | cons t ts iht =>
    have hi : posInfo (.alt (t :: ts)) = t.posInfo.alt (posInfo (.alt ts)) := rfl
    have hrules : (alt (t :: ts)).rules = t.rules ++ (alt ts).rules := by
      rw [rules_alt, rules_alt, flatMap_cons]
    have hcnodes : (alt (t :: ts)).cnodes = t.cnodes ++ (alt ts).cnodes := by
      rw [cnodes_alt, cnodes_alt, flatMap_cons]
    have haccepts : (alt (t :: ts)).accepts = t.accepts ∪ (alt ts).accepts := by
      rw [accepts, flags_alt, flatMap_cons, map_append, toFinset_append, ← flags_alt]
      rfl
    rw [hcnodes] at hn
    have h₁ := ih t (by simp)
    have h₂ := iht (fun u hu => ih u (mem_cons_of_mem _ hu)) (nodup_append.mp hn).2.1
    -- the two sides can share accept nodes, and nothing else
    have hshared : ∀ p ∈ t.positions, p ∈ (alt ts).positions → PosInfo.Agree t.posInfo (posInfo (.alt ts)) p := by
      intro p hp hp'
      cases p with
      | cnode a =>
        have hnot : ∀ u : Node Pos, ImportantNode.cnode a ∈ u.positions → ImportantNode.cnode a ∈ u.places := by
          intro u hu
          exact (Finset.mem_union.mp hu).resolve_right (by simp [accepts])
        exact absurd (hnot _ hp') (Finset.disjoint_left.mp (disjoint_places hn) (hnot _ hp))
      | accept m =>
        have hacc : ∀ u : Node Pos, ImportantNode.accept m ∈ u.positions → ImportantNode.accept m ∈ u.accepts :=
          fun u hu => (Finset.mem_union.mp hu).resolve_left (accept_notMem_places u m)
        exact (h₁.final _ (hacc _ hp)).agree (h₂.final _ (hacc _ hp'))
    refine ⟨?_, ?_⟩
    · intro p hp
      obtain ⟨m, _, rfl⟩ := mem_accepts.mp hp
      rw [haccepts] at hp
      refine ⟨?_, by rw [hi]; simp [PosInfo.alt, h₁.follow_accept, h₂.follow_accept]⟩
      rw [hi]
      rcases Finset.mem_union.mp hp with h | h
      · exact Finset.mem_union_left _ (h₁.final _ h).last
      · exact Finset.mem_union_right _ (h₂.final _ h).last
    · rw [hi, PosInfo.lang_alt t.posInfo_on (posInfo_on (.alt ts)) hshared, h₁.lang, h₂.lang, hrules, ruleLang_append]

theorem RuleTree.positions_spec (h : RuleTree t) (hn : t.cnodes.Nodup) : RulePositions t := by
  induction h with
  | @rule t m h => exact rule_positions m h (by simpa [cnodes, cnodes.cnodesList] using hn)
  | @alt ts _ ih =>
    have hts := hn
    rw [cnodes_alt] at hts
    exact alt_positions (fun t ht => ih t ht ((nodup_flatMap.mp hts).1 t ht)) hn

def reach (t : Node Pos) (w : List ℤ) : NodeSet := Glushkov.reach t.posInfo (fun p c => p.reads (.ch c)) w

theorem reach_subset (t : Node Pos) (w : List ℤ) : t.reach w ⊆ t.positions := Glushkov.reach_subset t.posInfo_on

theorem accept_mem_reach (h : RuleTree t) (hn : t.cnodes.Nodup) (w : List ℤ) (m : MatchFlag) :
    .accept m ∈ t.reach w ↔ ∃ r ∈ t.rules, r.2 = m ∧ w.map .ch ∈ r.1.contents.lang := by
  have hp := h.positions_spec hn
  have hread : ∀ u : List ImportantNode, List.Forall₂ (fun p c => p.reads (.ch c)) u w ↔
      List.Forall₂ (fun p x => p.reads x) u (w.map .ch) := fun u => by rw [forall₂_map_right_iff]
  by_cases hm : ImportantNode.accept m ∈ t.accepts
  · rw [reach, mem_reach (hp.final _ hm).last, hp.lang]
    simp only [hread, ← readAs_posLang, mem_readAs]
    constructor
    · rintro ⟨u, hu, r, hr, v, hv, he⟩
      obtain ⟨rfl, hrm⟩ := append_inj' he rfl
      exact ⟨r, hr, by simpa using hrm.symm, u, hv, hu⟩
    · rintro ⟨r, hr, rfl, u, hu, hw⟩
      exact ⟨u, hw, r, hr, u, hu, rfl⟩
  · constructor
    · intro hmem
      rcases Finset.mem_union.mp (reach_subset t w hmem) with hc | hc
      · exact absurd hc (by simp [places])
      · exact absurd hc hm
    · rintro ⟨r, hr, rfl, _⟩
      exact absurd (mem_accepts.mpr ⟨r.2, by rw [h.flags_eq]; exact mem_map_of_mem hr, rfl⟩) hm

end Node

end AppArmor

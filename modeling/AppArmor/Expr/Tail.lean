import AppArmor.Expr.Rules
import AppArmor.Expr.Shared

namespace AppArmor

open Glushkov List Language

namespace Node

variable {α : Type}

/-- The trees of a rule set with a tail: every accept node has a reference to the tail as its alternative. -/
inductive TailTree (addr : ℕ) (tail : Node α) : Node α → Prop
  | rule {t} (m : MatchFlag) (h : Plain t) : TailTree addr tail (.cat [t, .alt [.accept m, .sharedTree addr tail]])
  | alt {t u} (ht : TailTree addr tail t) (hu : TailTree addr tail u) : TailTree addr tail (.alt [t, u])

def heads : Node α → List (Node α × MatchFlag)
  | .cat [t, .alt [.accept m, _]] => [(t, m)]
  | .alt [t, u] => heads t ++ heads u
  | _ => []

def headLeaves (t : Node α) : List α := t.heads.flatMap (·.1.cnodes)

variable {addr : ℕ} {tail : Node α}

variable {t : Node α}

theorem TailTree.cnodes_cases (h : TailTree addr tail t) {a : α} (ha : a ∈ t.cnodes) :
    a ∈ t.headLeaves ∨ a ∈ tail.cnodes := by
  induction h with
  | rule m h =>
    simpa [cnodes, cnodes.cnodesList, headLeaves, heads] using ha
  | @alt t u _ _ iht ihu =>
    have hcnodes : (Node.alt [t, u]).cnodes = t.cnodes ++ u.cnodes := by simp [cnodes_alt]
    have hleaves : (Node.alt [t, u]).headLeaves = t.headLeaves ++ u.headLeaves := by simp [headLeaves, heads]
    rw [hcnodes, mem_append] at ha
    rw [hleaves, mem_append]
    rcases ha with ha | ha
    · exact (iht ha).imp_left Or.inl
    · exact (ihu ha).imp_left Or.inr

theorem TailTree.coherent (h : TailTree addr tail t) : Coherent (fun _ => tail) t := by
  have hplain : ∀ {u : Node α}, Plain u → Coherent (fun _ => tail) u := by
    intro u hu
    induction hu with
    | star _ ih | optional _ ih | plus _ ih => exact ih
    | cat _ ih => exact coherent_cat.mpr ih
    | alt _ ih => exact coherent_alt.mpr ih
    | _ => trivial
  induction h with
  | rule m h =>
    refine coherent_cat.mpr (forall_mem_cons.mpr ⟨hplain h, forall_mem_singleton.mpr ?_⟩)
    exact coherent_alt.mpr (forall_mem_cons.mpr ⟨trivial, forall_mem_singleton.mpr rfl⟩)
  | alt _ _ iht ihu => simp [iht, ihu]

theorem TailTree.refs_eq (h : TailTree addr tail t) (a : ℕ) :
    t.refs a = if addr = a then t.heads.length else 0 := by
  induction h with
  | rule m h => simp [refs, refs.refsList, h.sharedFree.refs_eq, heads]
  | @alt t u _ _ iht ihu =>
    simp only [refs, refs.refsList, iht, ihu, heads, length_append]
    split_ifs <;> rfl

theorem TailTree.mem_flags (h : TailTree addr tail t) {m : MatchFlag} :
    m ∈ t.flags ↔ m ∈ t.heads.map Prod.snd ∨ m ∈ tail.flags := by
  induction h with
  | rule m' h => simp [flags, flags.flagsList, h.flags_eq, heads]
  | @alt t u _ _ iht ihu =>
    have hflags : (Node.alt [t, u]).flags = t.flags ++ u.flags := by simp [flags_alt]
    rw [hflags, mem_append, iht, ihu, heads, map_append, mem_append, or_or_or_comm, or_self]

section Positions

variable {tail t u : Node Pos} {hs hs' : List (Node Pos × MatchFlag)}

def tailLang (tail : Node Pos) (hs : List (Node Pos × MatchFlag)) : Language ImportantNode :=
  {w | ∃ h ∈ hs, ∃ u ∈ h.1.posLang, w = u ++ [.accept h.2] ∨ ∃ v ∈ tail.posInfo.lang, w = u ++ v}

theorem tailLang_append : tailLang tail (hs ++ hs') = tailLang tail hs + tailLang tail hs' := by
  ext w
  rw [mem_add]
  simp only [tailLang, mem_append, or_and_right, exists_or]
  rfl

/-- What the positions of a tree with a tail are: those of the tail lead on as they do in the tail alone. -/
structure TailPositions (tail t : Node Pos) : Prop where
  final : ∀ p ∈ t.accepts, t.posInfo.Final p
  agree : ∀ p ∈ tail.places, PosInfo.Agree t.posInfo tail.posInfo p
  lang : t.posInfo.lang = tailLang tail t.heads

theorem accept_mem_positions {m : MatchFlag} : .accept m ∈ t.positions ↔ .accept m ∈ t.accepts := by
  rw [positions, Finset.mem_union]
  exact or_iff_right (accept_notMem_places t m)

theorem cnode_mem_positions {a : Pos} : .cnode a ∈ t.positions ↔ a ∈ t.cnodes := by
  simp [positions, places, accepts]

theorem posInfo_alt₂ (t u : Node Pos) : posInfo (.alt [t, u]) = t.posInfo.alt u.posInfo := by
  rw [posInfo, posInfo.altInfo, posInfo.altInfo, posInfo.altInfo, PosInfo.alt_empty]

theorem posInfo_cat₂ (t u : Node Pos) : posInfo (.cat [t, u]) = t.posInfo.cat u.posInfo := by
  rw [posInfo, posInfo.catInfo, posInfo.catInfo, posInfo.catInfo, eps_cat]

def endInfo (tail : Node Pos) (m : MatchFlag) : PosInfo ImportantNode := (PosInfo.leaf (.accept m)).alt tail.posInfo

theorem endInfo_on (tail : Node Pos) (m : MatchFlag) : (endInfo tail m).On (insert (.accept m) tail.positions) := by
  apply PosInfo.On.alt_on
  · exact .leaf_on (Finset.mem_insert_self _ _)
  · exact tail.posInfo_on.mono (Finset.subset_insert _ _)

theorem endInfo_lang (htail : ∀ p ∈ tail.accepts, tail.posInfo.Final p) (m : MatchFlag) :
    (endInfo tail m).lang = {[.accept m]} + tail.posInfo.lang := by
  have hleaf : (PosInfo.leaf (ImportantNode.accept m)).On {.accept m} := .leaf_on (Finset.mem_singleton_self _)
  rw [endInfo, PosInfo.lang_alt hleaf tail.posInfo_on, PosInfo.lang_leaf]
  intro p hp hp'
  rw [Finset.mem_singleton.mp hp] at hp' ⊢
  exact PosInfo.Final.agree ⟨Finset.mem_singleton_self _, rfl⟩ (htail _ (accept_mem_positions.mp hp'))

theorem rule_tailPositions (htail : ∀ p ∈ tail.accepts, tail.posInfo.Final p) (m : MatchFlag) (h : Plain t)
    (hn : (t.cnodes ++ tail.cnodes).Nodup) :
    TailPositions tail (.cat [t, .alt [.accept m, .sharedTree addr tail]]) := by
  have hi : posInfo (.cat [t, .alt [.accept m, .sharedTree addr tail]]) = t.posInfo.cat (endInfo tail m) := by
    rw [posInfo_cat₂, posInfo_alt₂]
    rfl
  have ht := h.posInfo_on
  have hout : ∀ p, p ∉ t.places → t.posInfo.follow p = ∅ ∧ p ∉ t.posInfo.last :=
    fun p hp => ⟨ht.outside p hp, fun hl => hp (ht.last hl)⟩
  -- away from the expression only the end counts
  have hcat : ∀ p, p ∉ t.places → PosInfo.Agree (t.posInfo.cat (endInfo tail m)) (endInfo tail m) p := by
    intro p hp
    obtain ⟨hf, hl⟩ := hout p hp
    refine ⟨?_, by simp [PosInfo.cat, hf, hl]⟩
    simp only [PosInfo.cat, Finset.mem_union]
    split_ifs <;> simp [hl]
  have hdisj : ∀ p ∈ tail.places, p ∉ t.places :=
    fun p hp hp' => Finset.disjoint_left.mp (disjoint_places hn) hp' hp
  refine ⟨fun p hp => ?_, fun p hp => ?_, ?_⟩
  · obtain ⟨m', hm', rfl⟩ := mem_accepts.mp hp
    have hagree := hcat _ (accept_notMem_places t m')
    have hend : (endInfo tail m).Final (.accept m') := by
      by_cases hmem : ImportantNode.accept m' ∈ tail.accepts
      · have hfin := htail _ hmem
        exact ⟨Finset.mem_union_right _ hfin.last, by simp [endInfo, PosInfo.alt, PosInfo.leaf, hfin.follow]⟩
      · have hm : m' = m := by
          have hor : m' = m ∨ m' ∈ tail.flags := by simpa [flags, flags.flagsList, h.flags_eq] using hm'
          exact hor.resolve_right fun hc => hmem (mem_accepts.mpr ⟨m', hc, rfl⟩)
        have hfollow : tail.posInfo.follow (.accept m') = ∅ :=
          tail.posInfo_on.outside _ fun hc => hmem (accept_mem_positions.mp hc)
        exact ⟨Finset.mem_union_left _ (by rw [hm]; exact Finset.mem_singleton_self _),
          by simp [endInfo, PosInfo.alt, PosInfo.leaf, hfollow]⟩
    rw [hi]
    exact ⟨hagree.last.mpr hend.last, hagree.follow.trans hend.follow⟩
  · have hagree := hcat p (hdisj p hp)
    obtain ⟨a, -, rfl⟩ := mem_places.mp hp
    rw [hi]
    exact ⟨hagree.last.trans (by simp [endInfo, PosInfo.alt, PosInfo.leaf]),
      hagree.follow.trans (by simp [endInfo, PosInfo.alt, PosInfo.leaf])⟩
  · have hd : Disjoint t.places (insert (.accept m) tail.positions) := by
      rw [Finset.disjoint_insert_right]
      refine ⟨accept_notMem_places t m, Finset.disjoint_right.mpr fun p hp hp' => ?_⟩
      obtain ⟨a, -, rfl⟩ := mem_places.mp hp'
      exact hdisj _ (mem_places.mpr ⟨a, cnode_mem_positions.mp hp, rfl⟩) hp'
    rw [hi, PosInfo.lang_cat ht (endInfo_on tail m) hd, h.posInfo_lang (nodup_append.mp hn).1, endInfo_lang htail]
    ext w
    rw [mem_mul]
    constructor
    · rintro ⟨x, hx, v, hv, rfl⟩
      rcases hv with hv | hv
      · exact ⟨(t, m), by simp [heads], x, hx, Or.inl (by rw [Set.mem_singleton_iff.mp hv])⟩
      · exact ⟨(t, m), by simp [heads], x, hx, Or.inr ⟨v, hv, rfl⟩⟩
    · rintro ⟨r, hr, x, hx, hw⟩
      rw [heads, mem_singleton] at hr
      rw [hr] at hx hw
      rcases hw with rfl | ⟨v, hv, rfl⟩
      · exact ⟨x, hx, _, Or.inl rfl, rfl⟩
      · exact ⟨x, hx, v, Or.inr hv, rfl⟩

theorem alt_tailPositions (ht : TailTree addr tail t) (hu : TailTree addr tail u) (h₁ : TailPositions tail t)
    (h₂ : TailPositions tail u) (hn : (t.headLeaves ++ u.headLeaves).Nodup) : TailPositions tail (.alt [t, u]) := by
  have haccepts : (alt [t, u]).accepts = t.accepts ∪ u.accepts := by
    simp [accepts, flags_alt]
  have hfinal : ∀ {v : Node Pos} {p : ImportantNode}, TailPositions tail v → p ∈ v.accepts ∨ p ∉ v.positions →
      v.posInfo.follow p = ∅ := by
    intro v p hv hp
    rcases hp with hp | hp
    · exact (hv.final p hp).follow
    · exact v.posInfo_on.outside p hp
  -- what the two sides share are accept nodes and the tail
  have hshared : ∀ p ∈ t.positions, p ∈ u.positions → PosInfo.Agree t.posInfo u.posInfo p := by
    intro p hp hp'
    cases p with
    | accept m => exact (h₁.final _ (accept_mem_positions.mp hp)).agree (h₂.final _ (accept_mem_positions.mp hp'))
    | cnode a =>
      have hmem : a ∈ tail.cnodes := by
        rcases ht.cnodes_cases (cnode_mem_positions.mp hp) with h | h
        · rcases hu.cnodes_cases (cnode_mem_positions.mp hp') with h' | h'
          · exact absurd rfl ((nodup_append.mp hn).2.2 a h a h')
          · exact h'
        · exact h
      have hplace : ImportantNode.cnode a ∈ tail.places := mem_places.mpr ⟨a, hmem, rfl⟩
      have ht := h₁.agree _ hplace
      have hu := h₂.agree _ hplace
      exact ⟨ht.last.trans hu.last.symm, ht.follow.trans hu.follow.symm⟩
  refine ⟨fun p hp => ?_, fun p hp => ?_, ?_⟩
  · rw [haccepts, Finset.mem_union] at hp
    have hor : ∀ v : Node Pos, p ∈ v.accepts ∨ p ∉ v.positions := by
      intro v
      have hacc : ∃ m, p = .accept m := by
        rcases hp with hp | hp
        all_goals
          obtain ⟨m, -, rfl⟩ := mem_accepts.mp hp
          exact ⟨m, rfl⟩
      obtain ⟨m, rfl⟩ := hacc
      by_cases hv : ImportantNode.accept m ∈ v.accepts
      · exact Or.inl hv
      · exact Or.inr fun hc => hv (accept_mem_positions.mp hc)
    rw [posInfo_alt₂]
    refine ⟨?_, ?_⟩
    · rcases hp with hp | hp
      · exact Finset.mem_union_left _ (h₁.final p hp).last
      · exact Finset.mem_union_right _ (h₂.final p hp).last
    · simp only [PosInfo.alt, hfinal h₁ (hor t), hfinal h₂ (hor u), Finset.union_empty]
  · have ht := h₁.agree p hp
    have hu := h₂.agree p hp
    rw [posInfo_alt₂]
    refine ⟨?_, ?_⟩
    · simp only [PosInfo.alt, Finset.mem_union, ht.last, hu.last, or_self]
    · simp only [PosInfo.alt, ht.follow, hu.follow, Finset.union_self]
  · rw [posInfo_alt₂, PosInfo.lang_alt t.posInfo_on u.posInfo_on hshared, h₁.lang, h₂.lang, heads, tailLang_append]

theorem TailTree.positions_spec (htail : ∀ p ∈ tail.accepts, tail.posInfo.Final p) (h : TailTree addr tail t)
    (hn : (t.headLeaves ++ tail.cnodes).Nodup) : TailPositions tail t := by
  induction h with
  | rule m h => exact rule_tailPositions htail m h (by simpa [headLeaves, heads] using hn)
  | @alt t u ht hu iht ihu =>
    have hleaves : (Node.alt [t, u]).headLeaves = t.headLeaves ++ u.headLeaves := by simp [headLeaves, heads]
    rw [hleaves, append_assoc] at hn
    have hn' := nodup_append.mp hn
    refine alt_tailPositions ht hu (iht ?_) (ihu hn'.2.1) ?_
    · exact hn.sublist (List.Sublist.append_left (sublist_append_right _ _) _)
    · exact hn.sublist (List.Sublist.append_left (sublist_append_left _ _) _)

end Positions

section Separated

variable {sep : Pos} {t u : Node Pos}

theorem separated_positions (hu : RuleTree u) (hn : (sep :: u.cnodes).Nodup) :
    (∀ p ∈ (cat [.cnode sep, u]).accepts, (posInfo (.cat [.cnode sep, u])).Final p) ∧
      (posInfo (.cat [.cnode sep, u])).lang = {[.cnode sep]} * ruleLang u.rules := by
  obtain ⟨hnot, hn'⟩ := nodup_cons.mp hn
  have hp := hu.positions_spec hn'
  have hmem : ImportantNode.cnode sep ∉ u.positions := fun hc => hnot (cnode_mem_positions.mp hc)
  have hleaf : (posInfo (.cnode sep)).On {.cnode sep} := .leaf_on (Finset.mem_singleton_self _)
  rw [posInfo_cat₂]
  refine ⟨fun p hacc => ?_, ?_⟩
  · have hacc' : p ∈ u.accepts := by simpa [accepts, flags, flags.flagsList] using hacc
    have hne : p ≠ .cnode sep := by
      obtain ⟨m, -, rfl⟩ := mem_accepts.mp hacc'
      exact fun h => by cases h
    have hfin := hp.final p hacc'
    refine ⟨Finset.mem_union_right _ hfin.last, ?_⟩
    simp [PosInfo.cat, posInfo, PosInfo.leaf, hfin.follow, hne]
  · rw [PosInfo.lang_cat hleaf u.posInfo_on (Finset.disjoint_singleton_left.mpr hmem), hp.lang, posInfo, PosInfo.lang_leaf]

theorem readAs_singleton_cnode (p : Pos) :
    readAs (fun p x => ImportantNode.reads p x) {[.cnode p]} = p.node.lang := by
  have h := readAs_posLang (.cnode p)
  exact h

theorem accept_mem_reach_tail (ht : TailTree addr (.cat [.cnode sep, u]) t) (hu : RuleTree u)
    (hn : (t.headLeaves ++ sep :: u.cnodes).Nodup) (w : List ℤ) (m : MatchFlag) :
    .accept m ∈ t.reach w ↔ (∃ h ∈ t.heads, h.2 = m ∧ w.map .ch ∈ h.1.contents.lang) ∨
      ∃ h ∈ t.heads, ∃ r ∈ u.rules, r.2 = m ∧
        w.map .ch ∈ h.1.contents.lang * (sep.node.lang * r.1.contents.lang) := by
  obtain ⟨hfin, hsep⟩ := separated_positions hu (nodup_append.mp hn).2.1
  have hcn : (cat [.cnode sep, u]).cnodes = sep :: u.cnodes := by simp [cnodes, cnodes.cnodesList]
  have hp := ht.positions_spec hfin (by rwa [hcn])
  have hread : ∀ x : List ImportantNode, List.Forall₂ (fun p c => p.reads (.ch c)) x w ↔
      List.Forall₂ (fun p x => p.reads x) x (w.map .ch) := fun x => by rw [forall₂_map_right_iff]
  by_cases hm : ImportantNode.accept m ∈ t.accepts
  · rw [reach, mem_reach (hp.final _ hm).last, hp.lang, tailLang, hsep]
    simp only [hread]
    constructor
    · rintro ⟨x, hx, h, hh, y, hy, he⟩
      rcases he with he | ⟨v, hv, he⟩
      · obtain ⟨rfl, hrm⟩ := append_inj' he rfl
        exact Or.inl ⟨h, hh, by simpa using hrm.symm, by rw [← readAs_posLang]; exact ⟨x, hy, hx⟩⟩
      · obtain ⟨a, ha, v', ⟨r, hr, z, hz, rfl⟩, rfl⟩ := mem_mul.mp hv
        rw [← append_assoc, ← append_assoc] at he
        obtain ⟨rfl, hrm⟩ := append_inj' he rfl
        refine Or.inr ⟨h, hh, r, hr, by simpa using hrm.symm, ?_⟩
        rw [← readAs_posLang, ← readAs_posLang, ← readAs_singleton_cnode, ← readAs_mul, ← readAs_mul]
        refine ⟨y ++ (a ++ z), append_mem_mul hy (append_mem_mul ha hz), ?_⟩
        rwa [← append_assoc]
    · rintro (⟨h, hh, rfl, hw⟩ | ⟨h, hh, r, hr, rfl, hw⟩)
      · rw [← readAs_posLang] at hw
        obtain ⟨y, hy, hx⟩ := hw
        exact ⟨y, hx, h, hh, y, hy, Or.inl rfl⟩
      · rw [← readAs_posLang, ← readAs_posLang, ← readAs_singleton_cnode, ← readAs_mul, ← readAs_mul] at hw
        obtain ⟨x, hx, hr'⟩ := hw
        obtain ⟨y, hy, v, hv, rfl⟩ := mem_mul.mp hx
        obtain ⟨a, ha, z, hz, rfl⟩ := mem_mul.mp hv
        refine ⟨y ++ (a ++ z), hr', h, hh, y, hy, Or.inr ⟨a ++ (z ++ [.accept r.2]), ?_, by simp⟩⟩
        exact append_mem_mul ha ⟨r, hr, z, hz, rfl⟩
  · constructor
    · intro hmem
      exact absurd (accept_mem_positions.mp (reach_subset t w hmem)) hm
    · intro hw
      refine absurd (mem_accepts.mpr ⟨m, ht.mem_flags.mpr ?_, rfl⟩) hm
      rcases hw with ⟨h, hh, rfl, -⟩ | ⟨h, hh, r, hr, rfl, -⟩
      · exact Or.inl (mem_map_of_mem hh)
      · refine Or.inr ?_
        rw [flags_cat]
        simpa [flags, hu.flags_eq] using ⟨r.1, hr⟩

end Separated

end Node

end AppArmor

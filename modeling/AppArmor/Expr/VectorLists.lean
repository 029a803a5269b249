import AppArmor.Expr.Vector
import Mathlib.Data.List.TakeWhile

namespace AppArmor.Vec

open Node List

variable {ts us : List (Node CNode)} {t u : Node CNode} {w : List Sym} {env : ℕ → Node CNode}

/-- A property of trees that the simplification keeps: it is that of the parts, and holds of a set of characters taken
from leaves that have it. -/
structure Hereditary (env : ℕ → Node CNode) (H : Node CNode → Prop) : Prop where
  coherent : ∀ {t}, H t → Coherent env t
  eps : H .eps
  star : ∀ {t}, H (.star t) ↔ H t
  optional : ∀ {t}, H (.optional t) ↔ H t
  plus : ∀ {t}, H (.plus t) ↔ H t
  cat : ∀ {ts}, H (.cat ts) ↔ ∀ t ∈ ts, H t
  alt : ∀ {ts}, H (.alt ts) ↔ ∀ t ∈ ts, H t
  chars : ∀ {ts : List (Node CNode)}, (∀ t ∈ ts, isCharOrCharset t) → (∀ t ∈ ts, H t) →
    H (charNode (ts.foldl insertChars .empty))

variable {H : Node CNode → Prop}

section Weight

variable {α : Type}

theorem weights_eq (ts : List (Node α)) : weight.weights ts = (ts.map weight).sum := by
  induction ts with
  | nil => rfl
  | cons t ts ih => rw [weight.weights, ih, map_cons, sum_cons]

theorem weight_pos (t : Node α) : 0 < weight t := by
  cases t <;> simp only [weight] <;> omega

theorem weights_pos {ts : List (Node α)} (h : ts ≠ []) : 0 < weight.weights ts := by
  cases ts with
  | nil => exact absurd rfl h
  | cons t ts => exact Nat.add_pos_left (weight_pos t) _

theorem weight_le_weights {ts : List (Node α)} {t : Node α} (h : t ∈ ts) : weight t ≤ weight.weights ts := by
  rw [weights_eq]
  exact single_le_sum (fun _ _ => Nat.zero_le _) _ (mem_map_of_mem h)

theorem weights_append (ts us : List (Node α)) :
    weight.weights (ts ++ us) = weight.weights ts + weight.weights us := by
  rw [weights_eq, weights_eq, weights_eq, map_append, sum_append]

theorem weights_le_of_sublist {ts us : List (Node α)} (h : ts.Sublist us) :
    weight.weights ts ≤ weight.weights us := by
  rw [weights_eq, weights_eq]
  exact (h.map weight).sum_le_sum fun _ _ => Nat.zero_le _

theorem weights_le_flatMap {β : Type} (f : β → List (Node α)) {l : List β} {b : β} (h : b ∈ l) :
    weight.weights (f b) ≤ weight.weights (l.flatMap f) := by
  obtain ⟨l₁, l₂, rfl⟩ := append_of_mem h
  rw [flatMap_append, flatMap_cons, weights_append, weights_append]
  omega

theorem weights_eq_of_perm {ts us : List (Node α)} (h : ts.Perm us) :
    weight.weights ts = weight.weights us := by
  rw [weights_eq, weights_eq]
  exact (h.map weight).sum_eq

end Weight

section Flatten

variable {k : NChild}

variable {α : Type} {f : Node CNode → List (Node CNode)}

theorem flattenNode_eq (ts : List (Node α)) : flattenNode k ts = ts.flatMap (flattenNode.splice k) := by
  induction ts with
  | nil => rfl
  | cons t ts ih => rw [flattenNode, ih, flatMap_cons]

theorem splice_induction {P : Node α → List (Node α) → Prop}
    (hnode : ∀ ts, (∀ t ∈ ts, P t (flattenNode.splice k t)) → P (k.node ts) (ts.flatMap (flattenNode.splice k)))
    (hother : ∀ t, P t [t]) (t : Node α) : P t (flattenNode.splice k t) := by
  induction t with
  | cat ts ih | alt ts ih =>
    rw [flattenNode.splice]
    split_ifs with hk
    · subst hk
      rw [flattenNode_eq]
      exact hnode ts ih
    · exact hother _
  | _ => exact hother _

theorem lang_cat_flatMap (h : ∀ t ∈ ts, (cat (f t)).lang = t.lang) :
    (cat (ts.flatMap f)).lang = (cat ts).lang := by
  induction ts with
  | nil => rfl
  | cons t ts ih =>
    obtain ⟨ht, hts⟩ := forall_mem_cons.mp h
    rw [flatMap_cons, lang_cat_append, ht, ih hts, lang_cat_cons]

theorem lang_alt_flatMap (h : ∀ t ∈ ts, (alt (f t)).lang = t.lang) :
    (alt (ts.flatMap f)).lang = (alt ts).lang := by
  ext w
  rw [mem_lang_alt, mem_lang_alt]
  constructor
  · rintro ⟨u, hu, hw⟩
    obtain ⟨t, ht, hut⟩ := mem_flatMap.mp hu
    exact ⟨t, ht, h t ht ▸ mem_lang_alt.mpr ⟨u, hut, hw⟩⟩
  · rintro ⟨t, ht, hw⟩
    rw [← h t ht, mem_lang_alt] at hw
    obtain ⟨u, hu, hw⟩ := hw
    exact ⟨u, mem_flatMap.mpr ⟨t, ht, hu⟩, hw⟩

theorem weights_flatMap {ts : List (Node α)} {f : Node α → List (Node α)}
    (h : ∀ t ∈ ts, weight.weights (f t) ≤ weight t) : weight.weights (ts.flatMap f) ≤ weight.weights ts := by
  induction ts with
  | nil => exact le_rfl
  | cons t ts ih =>
    obtain ⟨ht, hts⟩ := forall_mem_cons.mp h
    rw [flatMap_cons, weights_append, weight.weights]
    exact Nat.add_le_add ht (ih hts)

theorem lang_flattenNode (k : NChild) (ts : List (Node CNode)) : (k.node (flattenNode k ts)).lang = (k.node ts).lang := by
  rw [flattenNode_eq]
  cases k with
  | cat =>
    apply lang_cat_flatMap
    exact fun t _ => splice_induction (P := fun t us => (cat us).lang = t.lang) (fun _ => lang_cat_flatMap)
      (fun _ => mul_one _) t
  | alt =>
    apply lang_alt_flatMap
    exact fun t _ => splice_induction (P := fun t us => (alt us).lang = t.lang) (fun _ => lang_alt_flatMap)
      (fun _ => add_zero _) t

theorem weights_flattenNode (k : NChild) (ts : List (Node α)) :
    weight.weights (flattenNode k ts) ≤ weight.weights ts := by
  rw [flattenNode_eq]
  apply weights_flatMap
  refine fun t _ => splice_induction (P := fun t us => weight.weights us ≤ weight t) (fun us hus => ?_)
    (fun _ => le_rfl) t
  apply (weights_flatMap hus).trans
  cases k <;> exact Nat.le_add_left _ _

theorem Hereditary.flattenNode (hH : Hereditary env H) (h : ∀ t ∈ ts, H t) : ∀ t ∈ flattenNode k ts, H t := by
  intro u hu
  rw [flattenNode_eq, mem_flatMap] at hu
  obtain ⟨t, ht, hu⟩ := hu
  refine splice_induction (P := fun t us => H t → ∀ u ∈ us, H u) (fun ts hts hc u hu => ?_)
    (fun t ht u hu => mem_singleton.mp hu ▸ ht) t (h t ht) u hu
  obtain ⟨a, ha, hu⟩ := mem_flatMap.mp hu
  refine hts a ha ?_ u hu
  cases k with
  | cat => exact hH.cat.mp hc a ha
  | alt => exact hH.alt.mp hc a ha

end Flatten

theorem lang_collapseCat (ts : List (Node CNode)) : (collapseCat ts).lang = (cat ts).lang := by
  unfold collapseCat
  split
  · rfl
  · exact (mul_one _).symm
  · rfl

theorem Hereditary.collapseCat (hH : Hereditary env H) (h : ∀ t ∈ ts, H t) : H (collapseCat ts) := by
  unfold Vec.collapseCat
  split
  · exact hH.eps
  · exact h _ (by simp)
  · exact hH.cat.mpr h

theorem lang_cat_filter (ts : List (Node CNode)) : (cat (ts.filter (!·.isEps))).lang = (cat ts).lang := by
  induction ts with
  | nil => rfl
  | cons t ts ih =>
    rw [filter_cons, lang_cat_cons]
    split_ifs with ht
    · rw [lang_cat_cons, ih]
    · have heps : t = .eps := by
        cases t <;> simp [isEps] at ht ⊢
      rw [heps, lang_eps, one_mul, ih]

theorem lang_simplifyVecCat (ts : List (Node CNode)) : (simplifyVecCat ts).lang = (cat ts).lang := by
  rw [simplifyVecCat, lang_collapseCat, lang_cat_filter]
  exact lang_flattenNode .cat ts

theorem Hereditary.simplifyVecCat (hH : Hereditary env H) (h : ∀ t ∈ ts, H t) : H (simplifyVecCat ts) :=
  hH.collapseCat fun t ht => hH.flattenNode h t (mem_of_mem_filter ht)

section Chars

variable {s : Chars}

theorem mem_foldl_insert {l : List ℤ} {c : ℤ} : c ∈ l.foldl Chars.insert s ↔ c ∈ s ∨ c ∈ l := by
  induction l generalizing s with
  | nil => simp
  | cons d l ih =>
    rw [foldl_cons, ih, Chars.mem_insert, mem_cons]
    tauto

theorem mem_insertChars (h : isCharOrCharset t) {c : ℤ} :
    c ∈ insertChars s t ↔ c ∈ s ∨ [.ch c] ∈ t.lang := by
  cases t with
  | cnode a =>
    cases a with
    | char d =>
      rw [insertChars, Chars.mem_insert, lang_cnode, CNode.mem_lang]
      simp [CNode.matches, or_comm]
    | charSet k =>
      rw [insertChars, mem_foldl_insert, lang_cnode, CNode.mem_lang]
      simp [CNode.matches, Chars.mem_def]
    | _ => cases h
  | _ => cases h

theorem eq_ch_of_mem_lang (h : isCharOrCharset t) (hw : w ∈ t.lang) : ∃ c, w = [.ch c] := by
  cases t with
  | cnode a =>
    obtain ⟨c, -, hc⟩ := hw
    exact ⟨c, hc⟩
  | _ => cases h

theorem mem_foldl_insertChars (h : ∀ t ∈ ts, isCharOrCharset t) {c : ℤ} :
    c ∈ ts.foldl insertChars s ↔ c ∈ s ∨ ∃ t ∈ ts, [.ch c] ∈ t.lang := by
  induction ts generalizing s with
  | nil => simp
  | cons t ts ih =>
    obtain ⟨ht, hts⟩ := forall_mem_cons.mp h
    rw [foldl_cons, ih hts, mem_insertChars ht, exists_mem_cons_iff, or_assoc]

theorem mem_lang_charNode : w ∈ (charNode s).lang ↔ ∃ c ∈ s, w = [.ch c] := by
  unfold charNode
  split
  · rename_i c hc
    rw [lang_cnode, CNode.mem_lang]
    simp [CNode.matches, Chars.mem_def, hc]
  · rw [lang_cnode, CNode.mem_lang]
    simp [CNode.matches]

theorem lang_mergeAltChars (ts : List (Node CNode)) : (alt (mergeAltChars ts)).lang = (alt ts).lang := by
  unfold mergeAltChars
  dsimp only
  split_ifs
  · rfl
  · have hcs : ∀ t ∈ ts.filter isCharOrCharset, isCharOrCharset t := fun t ht => (mem_filter.mp ht).2
    ext w
    simp only [mem_lang_alt, mem_append, mem_singleton]
    constructor
    · rintro ⟨t, ht | rfl, hw⟩
      · exact ⟨t, mem_of_mem_filter ht, hw⟩
      · obtain ⟨c, hc, rfl⟩ := mem_lang_charNode.mp hw
        rcases (mem_foldl_insertChars hcs).mp hc with hc | ⟨t, ht, hw⟩
        · cases hc
        · exact ⟨t, mem_of_mem_filter ht, hw⟩
    · rintro ⟨t, ht, hw⟩
      by_cases hc : isCharOrCharset t
      · obtain ⟨c, rfl⟩ := eq_ch_of_mem_lang hc hw
        refine ⟨_, Or.inr rfl, mem_lang_charNode.mpr ⟨c, ?_, rfl⟩⟩
        exact (mem_foldl_insertChars hcs).mpr (Or.inr ⟨t, mem_filter.mpr ⟨ht, hc⟩, hw⟩)
      · exact ⟨t, Or.inl (mem_filter.mpr ⟨ht, by simpa using hc⟩), hw⟩

theorem Hereditary.mergeAltChars (hH : Hereditary env H) (h : ∀ t ∈ ts, H t) : ∀ t ∈ mergeAltChars ts, H t := by
  intro t ht
  unfold Vec.mergeAltChars at ht
  dsimp only at ht
  split_ifs at ht
  · exact h t ht
  · rcases mem_append.mp ht with ht | ht
    · exact h t (mem_of_mem_filter ht)
    · rw [mem_singleton.mp ht]
      exact hH.chars (fun u hu => (mem_filter.mp hu).2) fun u hu => h u (mem_of_mem_filter hu)

theorem weights_mergeAltChars (ts : List (Node CNode)) : weight.weights (mergeAltChars ts) ≤ weight.weights ts := by
  unfold mergeAltChars
  dsimp only
  split_ifs with hlen
  · exact le_rfl
  · have hnode : ∀ s, weight (charNode s) = 1 := by
      intro s
      unfold charNode
      split <;> rfl
    have hpos : (ts.filter isCharOrCharset).length ≤ weight.weights (ts.filter isCharOrCharset) := by
      rw [weights_eq, ← length_map (f := weight)]
      apply length_le_sum_of_one_le
      intro n hn
      obtain ⟨t, -, rfl⟩ := mem_map.mp hn
      exact weight_pos t
    have hperm := weights_eq_of_perm (filter_append_perm isCharOrCharset ts)
    rw [weights_append] at hperm ⊢
    rw [weight.weights, weight.weights, hnode]
    omega

end Chars

section Order

variable {dir : Bool}

theorem vecSort_perm (dir : Bool) (ts : List (Node CNode)) : (vecSort dir ts).Perm ts := perm_insertionSort ..

theorem lang_alt_of_mem (h : ∀ t, t ∈ ts ↔ t ∈ us) : (alt ts).lang = (alt us).lang := by
  ext w
  simp only [mem_lang_alt, h]

def CatsLast (ts : List (Node CNode)) : Prop := ts.Pairwise fun t u => t.isCat → u.isCat

theorem vecCmp_cat_left (ht : t.isCat) (hu : ¬ u.isCat) : vecCmp dir t u = .gt := by
  rw [vecCmp, if_neg fun h => hu h.2]
  cases t <;> cases ht
  cases u with
  | cat _ => exact absurd rfl hu
  | cnode a => cases a <;> rfl
  | accept m => cases hk : m.kind <;> simp [Node.cmp, Node.typeFlags, MatchFlag.typeFlags, hk] <;> rfl
  | _ => rfl

theorem vecCmp_cat_right (ht : ¬ t.isCat) (hu : u.isCat) : vecCmp dir t u = .lt := by
  rw [vecCmp, if_neg fun h => ht h.1]
  cases u <;> cases hu
  cases t with
  | cat _ => exact absurd rfl ht
  | cnode a => cases a <;> rfl
  | accept m => cases hk : m.kind <;> simp [Node.cmp, Node.typeFlags, MatchFlag.typeFlags, hk] <;> rfl
  | _ => rfl

theorem CatsLast.orderedInsert (h : CatsLast ts) (t : Node CNode) :
    CatsLast (ts.orderedInsert (fun t u => vecCmp dir t u ≠ .gt) t) := by
  induction ts with
  | nil => simp [CatsLast]
  | cons u ts ih =>
    obtain ⟨hu, hts⟩ := List.pairwise_cons.mp h
    rw [List.orderedInsert]
    split_ifs with hr
    · refine List.pairwise_cons.mpr ⟨fun a ha ht => ?_, h⟩
      have hcat : u.isCat := by
        by_contra hu
        exact hr (vecCmp_cat_left ht hu)
      rcases List.mem_cons.mp ha with rfl | ha
      · exact hcat
      · exact hu a ha hcat
    · refine List.pairwise_cons.mpr ⟨fun a ha hcat => ?_, ih hts⟩
      rcases (List.mem_orderedInsert _).mp ha with rfl | ha
      · by_contra ht
        exact hr (by rw [vecCmp_cat_right ht hcat]; decide)
      · exact hu a ha hcat

theorem catsLast_vecSort (ts : List (Node CNode)) : CatsLast (vecSort dir ts) := by
  unfold vecSort
  induction ts with
  | nil => exact List.Pairwise.nil
  | cons t ts ih => exact ih.orderedInsert t

theorem CatsLast.dropWhile (h : CatsLast ts) : ∀ t ∈ ts.dropWhile (!·.isCat), t.isCat := by
  induction ts with
  | nil => exact fun t ht => absurd ht not_mem_nil
  | cons u ts ih =>
    obtain ⟨hu, hts⟩ := pairwise_cons.mp h
    rw [dropWhile_cons]
    split_ifs with hcat
    · exact ih hts
    · have hucat : u.isCat := by simpa using hcat
      exact forall_mem_cons.mpr ⟨hucat, fun t ht => hu t ht hucat⟩

theorem foldl_dedupStep_sublist (out ts : List (Node CNode)) : (ts.foldl dedupStep out).Sublist (out ++ ts) := by
  induction ts generalizing out with
  | nil => simp
  | cons t ts ih =>
    rw [foldl_cons, dedupStep]
    split_ifs
    · exact (ih out).trans ((sublist_cons_self t ts).append_left out)
    · have hsub := ih (out ++ [t])
      rwa [← append_cons] at hsub

theorem Hereditary.mem_foldl_dedupStep (hH : Hereditary env H) {out : List (Node CNode)} (hout : ∀ t ∈ out, H t)
    (h : ∀ t ∈ ts, H t) :
    t ∈ ts.foldl dedupStep out ↔ t ∈ out ∨ t ∈ ts := by
  induction ts generalizing out with
  | nil => simp
  | cons u ts ih =>
    obtain ⟨hu, hts⟩ := forall_mem_cons.mp h
    rw [foldl_cons, dedupStep]
    split_ifs with hlast
    · -- `u` is the last node of `out`
      have hmem : u ∈ out := by
        cases hv : out.getLast? with
        | none =>
          rw [hv] at hlast
          cases hlast
        | some v =>
          rw [hv] at hlast
          have hvo : v ∈ out := mem_of_mem_getLast? hv
          rwa [cmp_eq (hH.coherent (hout v hvo)) (hH.coherent hu) (of_decide_eq_true hlast)] at hvo
      rw [ih hout hts, mem_cons]
      constructor
      · tauto
      · rintro (ht | rfl | ht) <;> tauto
    · have hout' : ∀ t ∈ out ++ [u], H t := by
        intro t ht
        rcases mem_append.mp ht with ht | ht
        · exact hout t ht
        · exact mem_singleton.mp ht ▸ hu
      rw [ih hout' hts, mem_append, mem_singleton, mem_cons, or_assoc]

end Order

end AppArmor.Vec

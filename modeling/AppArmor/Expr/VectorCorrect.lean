import AppArmor.Expr.VectorLists

namespace AppArmor

open List Nat

namespace Vec

open Node

variable {ts us : List (Node CNode)} {t u : Node CNode} {w : List Sym} {env : ℕ → Node CNode}
  {H : Node CNode → Prop}

section Split

variable {dir : Bool}

def join (dir : Bool) (common rest : Language Sym) : Language Sym := if dir then rest * common else common * rest

theorem join_one (c : Language Sym) : join dir c 1 = c := by
  cases dir
  · exact mul_one c
  · exact one_mul c

theorem mem_join_alt {c : Language Sym} : w ∈ join dir c (alt ts).lang ↔ ∃ t ∈ ts, w ∈ join dir c t.lang := by
  cases dir
  · simp only [join, Bool.false_eq_true, if_false, Language.mem_mul, mem_lang_alt]
    constructor
    · rintro ⟨a, ha, b, ⟨t, ht, hb⟩, rfl⟩
      exact ⟨t, ht, a, ha, b, hb, rfl⟩
    · rintro ⟨t, ht, a, ha, b, hb, rfl⟩
      exact ⟨a, ha, b, ⟨t, ht, hb⟩, rfl⟩
  · simp only [join, if_true, Language.mem_mul, mem_lang_alt]
    constructor
    · rintro ⟨a, ⟨t, ht, ha⟩, b, hb, rfl⟩
      exact ⟨t, ht, a, ha, b, hb, rfl⟩
    · rintro ⟨t, ht, a, ha, b, hb, rfl⟩
      exact ⟨a, ⟨t, ht, ha⟩, b, hb, rfl⟩

theorem lang_eq_join (ht : t.isCat) (len : ℕ) :
    t.lang = join dir (cat (catCommon dir t len)).lang (catRemainder dir t len).lang := by
  cases t <;> cases ht
  rename_i ts
  cases dir
  · simp only [join, catCommon, catRemainder, child, Bool.false_eq_true, if_false, lang_collapseCat]
    rw [← lang_cat_append, take_append_drop]
  · simp only [join, catCommon, catRemainder, child, if_true, lang_collapseCat]
    rw [← lang_cat_append, take_append_drop]

theorem take_append_replicate (l : List (Node CNode)) (len : ℕ) :
    l.take len ++ List.replicate (len - l.length) .eps = (List.range len).map fun k => l[k]?.getD .eps := by
  apply ext_getElem?
  intro k
  rw [getElem?_append, getElem?_map, getElem?_take, getElem?_replicate, length_take]
  by_cases hk : k < len
  · rw [getElem?_range hk]
    by_cases hl : k < l.length
    · simp [hk, hl]
    · have h₁ : ¬ k < min len l.length := by omega
      have h₂ : k - min len l.length < len - l.length := by omega
      simp [h₁, h₂, getElem?_eq_none (not_lt.mp hl)]
  · have h₁ : ¬ k < min len l.length := by omega
    have h₂ : ¬ k - min len l.length < len - l.length := by omega
    simp [h₁, h₂, hk]

theorem lang_cat_replicate (n : ℕ) : (cat (List.replicate n eps)).lang = 1 := by
  induction n with
  | zero => rfl
  | succ n ih => rw [replicate_succ, lang_cat_cons, lang_eps, one_mul, ih]

theorem lang_catCommon (t : Node CNode) (len : ℕ) : (cat (catCommon dir t len)).lang =
    (cat (if dir then ((List.range len).map (catElem dir t)).reverse else (List.range len).map (catElem dir t))).lang := by
  unfold catCommon catElem ends
  cases dir
  · simp only [Bool.false_eq_true, if_false]
    rw [← take_append_replicate, lang_cat_append, lang_cat_replicate, mul_one]
  · simp only [if_true]
    rw [← take_append_replicate, reverse_append, lang_cat_append, reverse_replicate, lang_cat_replicate, one_mul,
      take_reverse, reverse_reverse]

theorem lang_catCommon_congr {len : ℕ} (h : ∀ k < len, catElem dir t k = catElem dir u k) :
    (cat (catCommon dir t len)).lang = (cat (catCommon dir u len)).lang := by
  have hmap : (range len).map (catElem dir t) = (range len).map (catElem dir u) :=
    map_congr_left fun k hk => h k (mem_range.mp hk)
  rw [lang_catCommon, lang_catCommon, hmap]

theorem lang_catCommon_one (t : Node CNode) : (cat (catCommon dir t 1)).lang = (catElem dir t 0).lang := by
  rw [lang_catCommon]
  cases dir <;> exact mul_one _

theorem Hereditary.child (hH : Hereditary env H) (ht : H t) : ∀ u ∈ t.child, H u := by
  cases t with
  | cat ts => exact hH.cat.mp ht
  | _ => exact fun u hu => absurd hu not_mem_nil

theorem Hereditary.catElem (hH : Hereditary env H) (ht : H t) (k : ℕ) : H (catElem dir t k) := by
  unfold Vec.catElem ends
  cases he : (if dir then t.child.reverse else t.child)[k]? with
  | none => exact hH.eps
  | some u =>
    have hmem := mem_of_getElem? he
    apply hH.child ht u
    split_ifs at hmem
    · exact mem_reverse.mp hmem
    · exact hmem

theorem Hereditary.catRemainder (hH : Hereditary env H) (ht : H t) (len : ℕ) : H (catRemainder dir t len) := by
  apply hH.collapseCat
  intro u hu
  apply hH.child ht u
  split_ifs at hu
  · exact mem_of_mem_take hu
  · exact mem_of_mem_drop hu

theorem Hereditary.catCommon (hH : Hereditary env H) (dir : Bool) (ht : H t) (len : ℕ) : ∀ u ∈ catCommon dir t len, H u := by
  intro u hu
  apply hH.child ht u
  unfold Vec.catCommon at hu
  split_ifs at hu
  · exact mem_of_mem_drop hu
  · exact mem_of_mem_take hu

theorem weight_collapseCat {α : Type} (ts : List (Node α)) : weight (collapseCat ts) ≤ 2 + weight.weights ts := by
  unfold collapseCat
  split
  · simp only [weight]
    omega
  · simp only [weight.weights]
    omega
  · exact le_rfl

theorem weight_catRemainder {α : Type} (dir : Bool) {t : Node α} (ht : t.isCat) {len : ℕ} (hlen : 1 ≤ len) :
    weight (catRemainder dir t len) < weight t := by
  cases t <;> cases ht
  rename_i ts
  rw [catRemainder, weight]
  rcases eq_nil_or_concat ts with rfl | ⟨us, u, hts⟩
  · cases dir <;> simp [child, collapseCat, weight, weight.weights]
  · have hn : 0 < ts.length := by simp [hts]
    refine (weight_collapseCat _).trans_lt (Nat.add_lt_add_left ?_ 2)
    cases dir
    · have hpos : 0 < weight.weights (ts.take len) := weights_pos (length_pos_iff.mp (by rw [length_take]; omega))
      have hsum := weights_append (ts.take len) (ts.drop len)
      rw [take_append_drop] at hsum
      simp only [child, Bool.false_eq_true, if_false]
      omega
    · have hpos : 0 < weight.weights (ts.drop (ts.length - len)) := weights_pos (by simp; omega)
      have hsum := weights_append (ts.take (ts.length - len)) (ts.drop (ts.length - len))
      rw [take_append_drop] at hsum
      simp only [child, if_true]
      omega

end Split

section Runs

variable {dir : Bool}

theorem runs_spec (dir : Bool) (fuel : ℕ) (hlen : ts.length ≤ fuel) : (runs dir fuel ts).flatMap Run.nodes = ts ∧
    ∀ r ∈ runs dir fuel ts, ∀ u ∈ r.others, sameElem dir 0 r.first u := by
  induction fuel generalizing ts with
  | zero =>
    rw [length_eq_zero_iff.mp (le_zero.mp hlen)]
    exact ⟨rfl, fun r hr => absurd hr not_mem_nil⟩
  | succ fuel ih =>
    cases ts with
    | nil => exact ⟨rfl, fun r hr => absurd hr not_mem_nil⟩
    | cons t ts =>
      have hdrop : (ts.dropWhile (sameElem dir 0 t)).length ≤ fuel :=
        ((dropWhile_sublist _).length_le).trans (le_of_succ_le_succ hlen)
      obtain ⟨hflat, hsame⟩ := ih hdrop
      rw [runs]
      refine ⟨?_, forall_mem_cons.mpr ⟨fun u hu => mem_takeWhile_imp hu, hsame⟩⟩
      rw [flatMap_cons, hflat, Run.nodes, cons_append, takeWhile_append_dropWhile]

theorem commonLen_pos (t : Node CNode) (us : List (Node CNode)) : 1 ≤ commonLen dir t us := by
  have hloop : ∀ n len, len ≤ commonLen.loop dir t us n len := by
    intro n
    induction n with
    | zero => exact fun _ => le_rfl
    | succ n ih =>
      intro len
      rw [commonLen.loop]
      split_ifs
      · exact (le_succ len).trans (ih _)
      · exact le_rfl
  exact hloop _ 1

theorem sameElem_of_lt_commonLen (h₀ : ∀ u ∈ us, sameElem dir 0 t u) {k : ℕ} (hk : k < commonLen dir t us) :
    ∀ u ∈ us, sameElem dir k t u := by
  have hloop : ∀ n len, (∀ k < len, ∀ u ∈ us, sameElem dir k t u) →
      ∀ k < commonLen.loop dir t us n len, ∀ u ∈ us, sameElem dir k t u := by
    intro n
    induction n with
    | zero => exact fun _ h => h
    | succ n ih =>
      intro len h
      rw [commonLen.loop]
      split_ifs with hall
      · refine ih (len + 1) fun k hk => ?_
        rcases Nat.lt_succ_iff_lt_or_eq.mp hk with hk | rfl
        · exact h k hk
        · exact all_eq_true.mp hall
      · exact h
  refine hloop _ 1 (fun k hk => ?_) k hk
  rw [Nat.lt_one_iff.mp hk]
  exact h₀

structure Run.Valid (H : Node CNode → Prop) (dir : Bool) (r : Run) : Prop where
  isCat : ∀ t ∈ r.nodes, t.isCat
  holds : ∀ t ∈ r.nodes, H t
  same : ∀ u ∈ r.others, sameElem dir 0 r.first u

def Simplifies (H : Node CNode → Prop) (n : ℕ) (f : List (Node CNode) → Option (Node CNode)) : Prop :=
  ∀ ts, weight.weights ts < n → (∀ t ∈ ts, H t) →
    ∃ a, f ts = some a ∧ H a ∧ a.lang = (alt ts).lang

variable {r : Run} {f : List (Node CNode) → Option (Node CNode)} {n : ℕ}

theorem Run.Valid.catElem_eq (hH : Hereditary env H) (h : r.Valid H dir) {len : ℕ} (hlen : len = 1 ∨ len = commonLen dir r.first r.others) :
    ∀ t ∈ r.nodes, ∀ k < len, catElem dir t k = catElem dir r.first k := by
  intro t ht k hk
  rcases mem_cons.mp ht with rfl | hu
  · rfl
  · have hsame : sameElem dir k r.first t := by
      rcases hlen with rfl | rfl
      · rw [lt_one_iff.mp hk]
        exact h.same t hu
      · exact sameElem_of_lt_commonLen h.same hk t hu
    exact cmp_eq (hH.coherent (hH.catElem (h.holds t ht) k)) (hH.coherent (hH.catElem (h.holds _ mem_cons_self) k))
      (of_decide_eq_true hsame)

theorem weights_remainders (dir : Bool) {len : ℕ} (hlen : 1 ≤ len) (h : ∀ t ∈ ts, t.isCat) :
    weight.weights (ts.map (catRemainder dir · len)) + ts.length ≤ weight.weights ts := by
  induction ts with
  | nil => exact le_rfl
  | cons t ts ih =>
    obtain ⟨ht, hts⟩ := forall_mem_cons.mp h
    have hlt := weight_catRemainder dir ht hlen
    have := ih hts
    rw [map_cons, weight.weights, weight.weights, length_cons]
    omega

theorem factorRun_spec (hH : Hereditary env H) (hf : Simplifies H n f) (h : r.Valid H dir) (withLeaf : Bool)
    (hn : weight.weights r.nodes + (if withLeaf then 1 else 0) ≤ n) :
    ∃ a, factorRun dir f r withLeaf = some a ∧ H a ∧
      ∀ w, w ∈ a.lang ↔ (∃ t ∈ r.nodes, w ∈ t.lang) ∨ withLeaf ∧ w ∈ (r.key dir).lang := by
  set len := if withLeaf then 1 else commonLen dir r.first r.others with hlen
  set rest := r.nodes.map (catRemainder dir · len) ++ if withLeaf then [.eps] else [] with hrest
  have hlen' : len = 1 ∨ len = commonLen dir r.first r.others := by
    rw [hlen]
    split_ifs
    · exact Or.inl rfl
    · exact Or.inr rfl
  have hpos : 1 ≤ len := by
    rcases hlen' with h | h
    · exact h.ge
    · exact h ▸ commonLen_pos _ _
  have hweight : weight.weights rest < n := by
    have hrem := weights_remainders dir hpos h.isCat
    have hne : 0 < r.nodes.length := succ_pos _
    rw [hrest, weights_append]
    split_ifs at hn ⊢ <;> simp only [weight.weights, weight] <;> omega
  have hcoh : ∀ t ∈ rest, H t := by
    intro t ht
    rcases mem_append.mp ht with ht | ht
    · obtain ⟨u, hu, rfl⟩ := mem_map.mp ht
      exact hH.catRemainder (h.holds u hu) len
    · split_ifs at ht
      · rw [mem_singleton.mp ht]
        exact hH.eps
      · cases ht
  obtain ⟨a, ha, hac, halang⟩ := hf rest hweight hcoh
  have hcommon := hH.catCommon dir (h.holds r.first mem_cons_self) len
  refine ⟨simplifyVecCat (if dir then a :: catCommon dir r.first len else catCommon dir r.first len ++ [a]), ?_, ?_, ?_⟩
  · unfold factorRun
    rw [← hlen]
    dsimp only
    rw [← hrest, ha]
    rfl
  · apply hH.simplifyVecCat
    intro t ht
    split_ifs at ht
    · rcases mem_cons.mp ht with rfl | ht
      · exact hac
      · exact hcommon t ht
    · rcases mem_append.mp ht with ht | ht
      · exact hcommon t ht
      · exact mem_singleton.mp ht ▸ hac
  · intro w
    have hjoin : (simplifyVecCat (if dir then a :: catCommon dir r.first len else catCommon dir r.first len ++ [a])).lang =
        join dir (cat (catCommon dir r.first len)).lang (alt rest).lang := by
      rw [lang_simplifyVecCat, ← halang]
      cases dir
      · simp only [Bool.false_eq_true, if_false, lang_cat_append, lang_cat_cons, lang_cat_nil, mul_one]
        rfl
      · rfl
    have hnode : ∀ t ∈ r.nodes, join dir (cat (catCommon dir r.first len)).lang (catRemainder dir t len).lang = t.lang := by
      intro t ht
      rw [← lang_catCommon_congr (h.catElem_eq hH hlen' t ht), ← lang_eq_join (h.isCat t ht)]
    rw [hjoin, mem_join_alt]
    constructor
    · rintro ⟨b, hb, hw⟩
      rcases mem_append.mp hb with hb | hb
      · obtain ⟨t, ht, rfl⟩ := mem_map.mp hb
        exact Or.inl ⟨t, ht, hnode t ht ▸ hw⟩
      · split_ifs at hb with hleaf
        · rw [mem_singleton.mp hb, lang_eps, join_one, hlen, if_pos hleaf, lang_catCommon_one] at hw
          exact Or.inr ⟨hleaf, hw⟩
        · cases hb
    · rintro (⟨t, ht, hw⟩ | ⟨hleaf, hw⟩)
      · exact ⟨_, mem_append_left _ (mem_map_of_mem ht), (hnode t ht).symm ▸ hw⟩
      · refine ⟨.eps, mem_append_right _ (by simp [hleaf]), ?_⟩
        rw [lang_eps, join_one, hlen, if_pos hleaf, lang_catCommon_one]
        exact hw

variable {leaves : List (Node CNode)}

theorem findLeaf_eq_some (hH : Hereditary env H) {key : Node CNode} {i : ℕ} (hl : ∀ t ∈ leaves, H t)
    (hk : H key) (h : findLeaf leaves key = some i) : leaves[i]? = some key := by
  unfold findLeaf at h
  dsimp only at h
  split_ifs at h with hany
  cases h
  cases hx : leaves[(leaves.takeWhile fun t => t.cmp key = .lt).length]? with
  | none =>
    rw [hx] at hany
    cases hany
  | some x =>
    rw [hx] at hany
    rw [cmp_eq (hH.coherent (hl x (mem_of_getElem? hx))) (hH.coherent hk) (of_decide_eq_true hany)]

theorem factorOne_spec (hH : Hereditary env H) (hf : Simplifies H n f) (h : r.Valid H dir)
    (hl : ∀ t ∈ leaves, H t) (hn : weight.weights leaves + weight.weights r.nodes ≤ n) :
    ∃ a, factorOne dir f leaves r = some a ∧ H a ∧
      ∀ w, w ∈ a.lang ↔ (∃ t ∈ r.nodes, w ∈ t.lang) ∨
        ∃ i x, findLeaf leaves (r.key dir) = some i ∧ leaves[i]? = some x ∧ w ∈ x.lang := by
  have hkey : H (r.key dir) := hH.catElem (h.holds _ mem_cons_self) 0
  unfold factorOne
  split_ifs with hfac
  · have hleaf : (findLeaf leaves (r.key dir)).isSome → 1 ≤ weight.weights leaves := by
      intro hs
      obtain ⟨i, hi⟩ := Option.isSome_iff_exists.mp hs
      have hmem := mem_of_getElem? (findLeaf_eq_some hH hl hkey hi)
      exact weights_pos (ne_nil_of_mem hmem)
    obtain ⟨a, ha, hac, halang⟩ := factorRun_spec hH hf h (findLeaf leaves (r.key dir)).isSome (by
      split_ifs with hs
      · have := hleaf hs
        omega
      · omega)
    refine ⟨a, ha, hac, fun w => (halang w).trans (or_congr_right ?_)⟩
    constructor
    · rintro ⟨hs, hw⟩
      obtain ⟨i, hi⟩ := Option.isSome_iff_exists.mp hs
      exact ⟨i, _, hi, findLeaf_eq_some hH hl hkey hi, hw⟩
    · rintro ⟨i, x, hi, hx, hw⟩
      rw [findLeaf_eq_some hH hl hkey hi] at hx
      exact ⟨by rw [hi]; rfl, Option.some.inj hx ▸ hw⟩
  · rw [Run.factored, Bool.or_eq_true, not_or] at hfac
    have hothers : r.others = [] := by simpa using hfac.1
    refine ⟨r.first, rfl, h.holds _ mem_cons_self, fun w => ?_⟩
    rw [Run.nodes, hothers]
    constructor
    · exact fun hw => Or.inl ⟨r.first, mem_cons_self, hw⟩
    · rintro (⟨t, ht, hw⟩ | ⟨i, x, hi, -, -⟩)
      · rwa [mem_singleton.mp ht] at hw
      · exact absurd (by rw [hi]; rfl) hfac.2

variable {α β : Type}

theorem mapM_exists {g : α → Option β} {P : α → β → Prop} {l : List α}
    (h : ∀ a ∈ l, ∃ b, g a = some b ∧ P a b) : ∃ bs, l.mapM g = some bs ∧ List.Forall₂ P l bs := by
  induction l with
  | nil => exact ⟨[], rfl, .nil⟩
  | cons a l ih =>
    obtain ⟨⟨b, hb, hab⟩, hl⟩ := forall_mem_cons.mp h
    obtain ⟨bs, hbs, hall⟩ := ih hl
    refine ⟨b :: bs, ?_, .cons hab hall⟩
    rw [mapM_cons, hb, hbs]
    rfl

theorem exists_mem_right {P : α → β → Prop} {l : List α} {m : List β} (h : List.Forall₂ P l m) {b : β}
    (hb : b ∈ m) : ∃ a ∈ l, P a b := by
  induction h with
  | nil => cases hb
  | cons hab _ ih =>
    rcases mem_cons.mp hb with rfl | hb
    · exact ⟨_, mem_cons_self, hab⟩
    · obtain ⟨a, ha, hp⟩ := ih hb
      exact ⟨a, mem_cons_of_mem _ ha, hp⟩

theorem exists_mem_left {P : α → β → Prop} {l : List α} {m : List β} (h : List.Forall₂ P l m) {a : α}
    (ha : a ∈ l) : ∃ b ∈ m, P a b := exists_mem_right h.flip ha

theorem mem_unused {rs : List Run} : t ∈ unused dir leaves rs ↔
    ∃ i, leaves[i]? = some t ∧ ∀ r ∈ rs, findLeaf leaves (r.key dir) ≠ some i := by
  unfold unused
  simp only [mem_map, mem_filter, mem_filterMap, Prod.exists, mem_zipIdx_iff_getElem?,
    decide_eq_true_eq, not_exists, not_and, exists_and_right, exists_eq_right]

theorem factorAlt_spec (hH : Hereditary env H) (dir : Bool) (hf : Simplifies H n f) (hcat : CatsLast ts) (hc : ∀ t ∈ ts, H t)
    (hn : weight.weights ts ≤ n) :
    ∃ us, factorAlt dir f ts = some us ∧ (∀ t ∈ us, H t) ∧ (alt us).lang = (alt ts).lang := by
  unfold factorAlt
  dsimp only
  split_ifs with hany
  · set leaves := ts.takeWhile (!·.isCat) with hleaves
    set cats := ts.dropWhile (!·.isCat) with hcats
    have hsplit : leaves ++ cats = ts := takeWhile_append_dropWhile
    set rs := runs dir cats.length cats with hrs
    obtain ⟨hflat, hsame⟩ := runs_spec dir cats.length (le_refl cats.length)
    rw [← hrs] at hflat hsame
    have hmem : ∀ r ∈ rs, ∀ t ∈ r.nodes, t ∈ cats := fun r hr t ht => hflat ▸ mem_flatMap.mpr ⟨r, hr, ht⟩
    have hcl : ∀ t ∈ leaves, H t := fun t ht => hc t (hsplit ▸ mem_append_left _ ht)
    have hvalid : ∀ r ∈ rs, r.Valid H dir := by
      intro r hr
      refine ⟨fun t ht => hcat.dropWhile t (hmem r hr t ht), fun t ht => ?_, hsame r hr⟩
      exact hc t (hsplit ▸ mem_append_right _ (hmem r hr t ht))
    have hweight : ∀ r ∈ rs, weight.weights leaves + weight.weights r.nodes ≤ n := by
      intro r hr
      have hle := weights_le_flatMap Run.nodes hr
      rw [hflat] at hle
      rw [← hsplit, weights_append] at hn
      omega
    obtain ⟨out, hout, hall⟩ := mapM_exists fun r hr => factorOne_spec hH hf (hvalid r hr) hcl (hweight r hr)
    rw [hout]
    refine ⟨_, rfl, fun t ht => ?_, ?_⟩
    · rcases mem_append.mp ((vecSort_perm dir _).mem_iff.mp ht) with ht | ht
      · obtain ⟨r, -, hr, -⟩ := exists_mem_right hall ht
        exact hr
      · obtain ⟨i, hi, -⟩ := mem_unused.mp ht
        exact hcl t (mem_of_getElem? hi)
    · rw [lang_alt_of_mem fun t => (vecSort_perm dir _).mem_iff, ← hsplit]
      ext w
      simp only [mem_lang_alt, mem_append]
      constructor
      · rintro ⟨t, ht | ht, hw⟩
        · obtain ⟨r, hr, -, hlang⟩ := exists_mem_right hall ht
          rcases (hlang w).mp hw with ⟨u, hu, hw⟩ | ⟨i, x, -, hx, hw⟩
          · exact ⟨u, Or.inr (hmem r hr u hu), hw⟩
          · exact ⟨x, Or.inl (mem_of_getElem? hx), hw⟩
        · obtain ⟨i, hi, -⟩ := mem_unused.mp ht
          exact ⟨t, Or.inl (mem_of_getElem? hi), hw⟩
      · rintro ⟨t, ht | ht, hw⟩
        · -- a leaf is used by a run, or kept
          obtain ⟨i, hi⟩ := mem_iff_getElem?.mp ht
          by_cases hused : ∃ r ∈ rs, findLeaf leaves (r.key dir) = some i
          · obtain ⟨r, hr, hfind⟩ := hused
            obtain ⟨a, ha, -, hlang⟩ := exists_mem_left hall hr
            exact ⟨a, Or.inl ha, (hlang w).mpr (Or.inr ⟨i, t, hfind, hi, hw⟩)⟩
          · push Not at hused
            exact ⟨t, Or.inr (mem_unused.mpr ⟨i, hi, hused⟩), hw⟩
        · rw [← hflat] at ht
          obtain ⟨r, hr, ht⟩ := mem_flatMap.mp ht
          obtain ⟨a, ha, -, hlang⟩ := exists_mem_left hall hr
          exact ⟨a, Or.inl ha, (hlang w).mpr (Or.inl ⟨t, ht, hw⟩)⟩
  · exact ⟨ts, rfl, hc, rfl⟩

theorem lang_collapseAlt (ts : List (Node CNode)) : (collapseAlt ts).lang = (alt ts).lang := by
  unfold collapseAlt
  split
  · exact (add_zero _).symm
  · rfl

theorem Hereditary.collapseAlt (hH : Hereditary env H) (h : ∀ t ∈ ts, H t) : H (collapseAlt ts) := by
  unfold Vec.collapseAlt
  split
  · exact h _ (by simp)
  · exact hH.alt.mpr h

theorem simplifyVecAlt_spec (hH : Hereditary env H) (dir : Bool) (fuel : ℕ) : Simplifies H fuel (simplifyVecAlt dir fuel) := by
  induction fuel with
  | zero => exact fun ts hn => absurd hn (not_lt_zero _)
  | succ fuel ih =>
    intro ts hn hc
    set ms := mergeAltChars (flattenNode .alt ts) with hms
    have hcm : ∀ t ∈ ms, H t := hH.mergeAltChars (hH.flattenNode hc)
    have hcs : ∀ t ∈ vecSort dir ms, H t := fun t ht => hcm t ((vecSort_perm dir ms).mem_iff.mp ht)
    set ds := (vecSort dir ms).foldl dedupStep [] with hds
    have hsub : ds.Sublist (vecSort dir ms) := foldl_dedupStep_sublist [] _
    have hmem : ∀ t, t ∈ ds ↔ t ∈ ms := by
      intro t
      have hnil : ∀ t ∈ ([] : List (Node CNode)), H t := fun _ h => absurd h not_mem_nil
      rw [hds, hH.mem_foldl_dedupStep hnil hcs, (vecSort_perm dir ms).mem_iff]
      simp
    have hweight : weight.weights ds ≤ fuel := by
      have h₁ := weights_le_of_sublist hsub
      have h₂ := weights_eq_of_perm (vecSort_perm dir ms)
      have h₃ := weights_mergeAltChars (flattenNode .alt ts)
      have h₄ := weights_flattenNode .alt ts
      rw [← hms] at h₃
      omega
    obtain ⟨us, hus, hcu, hlang⟩ := factorAlt_spec hH dir ih ((catsLast_vecSort ms).sublist hsub)
      (fun t ht => hcm t ((hmem t).mp ht)) hweight
    refine ⟨collapseAlt us, ?_, hH.collapseAlt hcu, ?_⟩
    · rw [simplifyVecAlt, ← hms, ← hds, hus]
      rfl
    · rw [lang_collapseAlt, hlang, lang_alt_of_mem hmem, hms, lang_mergeAltChars]
      exact lang_flattenNode .alt ts

end Runs

theorem coherent_hereditary (env : ℕ → Node CNode) : Hereditary env (Coherent env) where
  coherent h := h
  eps := trivial
  star := Iff.rfl
  optional := Iff.rfl
  plus := Iff.rfl
  cat := coherent_cat
  alt := coherent_alt
  chars _ _ := by
    unfold charNode
    split <;> trivial

theorem forall₂_lang_cat (h : List.Forall₂ (fun t u => H u ∧ u.lang = t.lang) ts us) :
    (cat us).lang = (cat ts).lang := by
  induction h with
  | nil => rfl
  | cons hab _ ih => rw [lang_cat_cons, lang_cat_cons, hab.2, ih]

theorem forall₂_lang_alt (h : List.Forall₂ (fun t u => H u ∧ u.lang = t.lang) ts us) :
    (alt us).lang = (alt ts).lang := by
  induction h with
  | nil => rfl
  | @cons t u ts us hab _ ih =>
    change u.lang + (alt us).lang = t.lang + (alt ts).lang
    rw [hab.2, ih]

theorem weight_lt_of_mem_flatten {k : NChild} (h : t ∈ flattenNode k ts) : weight t < weight (k.node ts) := by
  have h₁ := weight_le_weights h
  have h₂ := weights_flattenNode k ts
  cases k <;> simp only [NChild.node, weight] <;> omega

theorem simplifyVec_spec (hH : Hereditary env H) (dir : Bool) (fuel : ℕ) (hw : weight t < fuel) (hc : H t) :
    ∃ u, simplifyVec dir fuel t = some u ∧ H u ∧ u.lang = t.lang := by
  induction fuel generalizing t with
  | zero => exact absurd hw (not_lt_zero _)
  | succ fuel ih =>
    cases t with
    | star t =>
      obtain ⟨u, hu, hcu, hlang⟩ := ih (t := t) (by rw [weight] at hw; omega) (hH.star.mp hc)
      exact ⟨.star u, by rw [simplifyVec, hu]; rfl, hH.star.mpr hcu, by rw [lang_star, lang_star, hlang]⟩
    | optional t =>
      obtain ⟨u, hu, hcu, hlang⟩ := ih (t := t) (by rw [weight] at hw; omega) (hH.optional.mp hc)
      exact ⟨.optional u, by rw [simplifyVec, hu]; rfl, hH.optional.mpr hcu, by rw [lang_optional, lang_optional, hlang]⟩
    | plus t =>
      obtain ⟨u, hu, hcu, hlang⟩ := ih (t := t) (by rw [weight] at hw; omega) (hH.plus.mp hc)
      exact ⟨.plus u, by rw [simplifyVec, hu]; rfl, hH.plus.mpr hcu, by rw [lang_plus, lang_plus, hlang]⟩
    | cat ts =>
      have hcs := hH.flattenNode (k := .cat) (hH.cat.mp hc)
      obtain ⟨us, hus, hall⟩ := mapM_exists fun t ht => ih ((weight_lt_of_mem_flatten (k := .cat) ht).trans_le
        (le_of_lt_succ hw)) (hcs t ht)
      refine ⟨simplifyVecCat us, by rw [simplifyVec, hus]; rfl, hH.simplifyVecCat fun u hu => ?_, ?_⟩
      · obtain ⟨t, -, hcu, -⟩ := exists_mem_right hall hu
        exact hcu
      · rw [lang_simplifyVecCat, forall₂_lang_cat hall]
        exact lang_flattenNode .cat ts
    | alt ts =>
      have hcs := hH.flattenNode (k := .alt) (hH.alt.mp hc)
      obtain ⟨us, hus, hall⟩ := mapM_exists fun t ht => ih ((weight_lt_of_mem_flatten (k := .alt) ht).trans_le
        (le_of_lt_succ hw)) (hcs t ht)
      have hcu : ∀ u ∈ us, H u := by
        intro u hu
        obtain ⟨t, -, hcu, -⟩ := exists_mem_right hall hu
        exact hcu
      obtain ⟨a, ha, hca, hlang⟩ := simplifyVecAlt_spec hH dir _ us (lt_succ_self _) hcu
      refine ⟨a, ?_, hca, ?_⟩
      · rw [simplifyVec, hus]
        exact ha
      · rw [hlang, forall₂_lang_alt hall]
        exact lang_flattenNode .alt ts
    | eps | cnode a | accept m | sharedTree a t => exact ⟨_, rfl, hc, rfl⟩

theorem simplifyTreeVec_spec (hH : Hereditary env H) (left : Bool) (hc : H t) :
    ∃ u, simplifyTreeVec left t = some u ∧ H u ∧ u.lang = t.lang := by
  obtain ⟨u, hu, hcu, hlang⟩ := simplifyVec_spec hH (!left) _ (lt_succ_self (weight t)) hc
  obtain ⟨v, hv, hcv, hlang'⟩ := simplifyVec_spec hH left _ (lt_succ_self (weight u)) hcu
  refine ⟨v, ?_, hcv, hlang'.trans hlang⟩
  rw [simplifyTreeVec, hu]
  exact hv

end Vec

theorem simplifyTreeVec_lang (left : Bool) (t : Node CNode) (h : ∃ env, Node.Coherent env t) :
    ∃ u, simplifyTreeVec left t = some u ∧ u.lang = t.lang := by
  obtain ⟨env, hc⟩ := h
  obtain ⟨u, hu, -, hlang⟩ := Vec.simplifyTreeVec_spec (Vec.coherent_hereditary env) left hc
  exact ⟨u, hu, hlang⟩

def twoTails : Node CNode :=
  let tail : Node CNode := .sharedTree 0 (.cnode (.char 120))
  .alt [.cat [.cnode (.char 97), tail], .cat [.cnode (.char 97), .cnode (.char 98), tail]]

theorem twoTails_coherent : Node.Coherent (fun _ => .cnode (.char 120)) twoTails := by
  simp [twoTails, Node.Coherent, Node.Coherent.coherentAll]

theorem twoTails_simplified : ∃ u, simplifyTreeVec false twoTails = some u ∧ u.lang = twoTails.lang :=
  simplifyTreeVec_lang false twoTails ⟨_, twoTails_coherent⟩

end AppArmor

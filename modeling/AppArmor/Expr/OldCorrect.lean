import AppArmor.Expr.OldNormal

namespace AppArmor

open List Nat Language

namespace Tree

open Fuel
open Vec (NChild join)

variable {env : ℕ → Node CNode} {dir : Bool} {t u x y : Tree} {w : List Sym}

structure Reduces (env : ℕ → Node CNode) (t u : Tree) : Prop where
  lang : lang env u = lang env t
  mass : mass u < mass t
  plain : ∀ {Q}, LeafClosed Q → t.Over Q → u.Over Q

theorem Reduces.keeps (h : Reduces env t u) : Keeps env t u := ⟨h.lang, h.mass.le, h.plain⟩

theorem join_add (a b c : Language Sym) : join dir a (b + c) = join dir a b + join dir a c := by
  cases dir
  · exact mul_add a b c
  · exact add_mul b c a

theorem lang_mergeCharset {a b : CNode} (ha : isCharOrCharset (.cnode a)) (hb : isCharOrCharset (.cnode b)) :
    (mergeCharset a b).lang = a.lang + b.lang := by
  have hset : ∀ (s : Chars) (c : CNode), isCharOrCharset (.cnode c) →
      (CNode.charSet (insertChars s (.cnode c))).lang = (CNode.charSet s).lang + c.lang := by
    intro s c hc
    ext w
    rw [mem_add, CNode.mem_lang, CNode.mem_lang]
    constructor
    · rintro ⟨d, hd, rfl⟩
      rcases (Vec.mem_insertChars hc).mp (of_decide_eq_true hd) with hd | hd
      · exact Or.inl ⟨d, decide_eq_true hd, rfl⟩
      · exact Or.inr hd
    · rintro (⟨d, hd, rfl⟩ | hw)
      · exact ⟨d, decide_eq_true ((Vec.mem_insertChars hc).mpr (Or.inl (of_decide_eq_true hd))), rfl⟩
      · obtain ⟨d, rfl⟩ := Vec.eq_ch_of_mem_lang hc hw
        exact ⟨d, decide_eq_true ((Vec.mem_insertChars hc).mpr (Or.inr hw)), rfl⟩
  have hempty : (CNode.charSet .empty).lang = 0 := by
    ext w
    rw [CNode.mem_lang]
    refine iff_of_false ?_ (notMem_zero w)
    rintro ⟨d, hd, -⟩
    exact not_mem_nil (of_decide_eq_true (p := d ∈ Chars.empty.elems) hd)
  unfold mergeCharset
  split
  · exact hset _ _ hb
  · rw [hset _ _ ha, add_comm]
  · rw [hset _ _ hb, hset _ _ ha, hempty, zero_add]

theorem mergeCharset_leaf {Q : CNode → Prop} (hQ : LeafClosed Q) {a b : CNode} (ha : isCharOrCharset (.cnode a))
    (hb : isCharOrCharset (.cnode b)) (hqa : Q a) (hqb : Q b) : Q (mergeCharset a b) := by
  refine hQ _ (by unfold mergeCharset; split <;> rfl) fun c hc => ?_
  have hw : [Sym.ch c] ∈ (mergeCharset a b).lang := ⟨c, hc, rfl⟩
  rw [lang_mergeCharset ha hb, mem_add, CNode.mem_lang, CNode.mem_lang] at hw
  rcases hw with ⟨d, hd, he⟩ | ⟨d, hd, he⟩
  · cases he
    exact ⟨a, hqa, hd⟩
  · cases he
    exact ⟨b, hqb, hd⟩

theorem altDup_reduces (h : altDup x y = some u) : Reduces env (pair .alt dir x y) u := by
  unfold altDup at h
  split_ifs at h with heq
  cases h
  rw [← eq_iff.mp heq]
  exact ⟨by rw [lang_pair_alt, add_self], (mass_lt_pair .alt dir u u).1, fun _ h => (over_pair.mp h).1⟩

theorem altChars_reduces (h : altChars x y = some u) : Reduces env (pair .alt dir x y) u := by
  unfold altChars at h
  split at h
  · split_ifs at h with hc
    cases h
    refine ⟨?_, by rw [mass_pair_alt]; exact Nat.lt_of_sub_eq_succ rfl, fun hQ h => ?_⟩
    · rw [lang_pair_alt]
      exact lang_mergeCharset hc.1 hc.2
    · rw [over_pair] at h
      exact mergeCharset_leaf hQ hc.1 hc.2 h.1 h.2
  · cases h

theorem altCats_reduces (h : altCats dir x y = some u) : Reduces env (pair .alt dir x y) u := by
  obtain ⟨⟨a, b⟩, hx, h⟩ := Option.bind_eq_some_iff.mp h
  obtain ⟨⟨a', c⟩, hy, h⟩ := Option.bind_eq_some_iff.mp h
  dsimp only at h
  split_ifs at h with heq
  cases h
  rw [split_eq_some.mp hx, split_eq_some.mp hy, ← eq_iff.mp heq]
  have ha := two_le_mass a
  have hb := two_le_mass b
  have hc := two_le_mass c
  refine ⟨?_, ?_, fun _ h => ?_⟩
  · rw [lang_pair_cat, lang_pair_alt, lang_pair_alt, lang_pair_cat, lang_pair_cat, join_add]
  · rw [mass_pair_cat, mass_pair_alt, mass_pair_alt, mass_pair_cat, mass_pair_cat]
    nlinarith
  · simp only [over_pair] at h ⊢
    exact ⟨h.1.1, h.1.2, h.2.2⟩

theorem mass_factor (a b : Tree) :
    mass (pair .cat dir a (pair .alt dir b .eps)) < mass (pair .cat dir a b) * mass a := by
  have ha := two_le_mass a
  have hb := two_le_mass b
  rw [mass_pair_cat, mass_pair_alt, mass_pair_cat, show mass .eps = 2 from rfl]
  nlinarith

theorem lang_factor (a b : Tree) :
    lang env (pair .cat dir a (pair .alt dir b .eps)) = lang env (pair .cat dir a b) + lang env a := by
  rw [lang_pair_cat, lang_pair_alt, lang_pair_cat, join_add, lang_eps, Vec.join_one]

theorem altRight_reduces (h : altRight dir x y = some u) : Reduces env (pair .alt dir x y) u := by
  obtain ⟨⟨a, b⟩, hy, h⟩ := Option.bind_eq_some_iff.mp h
  dsimp only at h
  split_ifs at h with heq
  cases h
  rw [split_eq_some.mp hy, eq_iff.mp heq]
  refine ⟨?_, ?_, fun _ h => ?_⟩
  · rw [lang_factor, lang_pair_alt, add_comm]
  · rw [mass_pair_alt, mul_comm]
    exact mass_factor a b
  · simp only [over_pair] at h ⊢
    exact ⟨h.1, h.2.2, trivial⟩

theorem altLeft_reduces (h : altLeft dir x y = some u) : Reduces env (pair .alt dir x y) u := by
  obtain ⟨⟨a, b⟩, hx, h⟩ := Option.bind_eq_some_iff.mp h
  dsimp only at h
  split_ifs at h with heq
  cases h
  rw [split_eq_some.mp hx, ← eq_iff.mp heq]
  refine ⟨?_, ?_, fun _ h => ?_⟩
  · rw [lang_factor, lang_pair_alt]
  · rw [mass_pair_alt]
    exact mass_factor a b
  · simp only [over_pair] at h ⊢
    exact ⟨h.1.1, h.1.2, trivial⟩

theorem orElse_eq_some {a b : Option Tree} (h : (a <|> b) = some u) : a = some u ∨ b = some u := by
  cases a with
  | none => exact Or.inr h
  | some a => exact Or.inl h

theorem basicAltFactor_reduces (h : basicAltFactor dir x y = some u) : Reduces env (pair .alt dir x y) u := by
  rcases orElse_eq_some h with h | h
  · exact altDup_reduces h
  rcases orElse_eq_some h with h | h
  · exact altChars_reduces h
  rcases orElse_eq_some h with h | h
  · exact altCats_reduces h
  rcases orElse_eq_some h with h | h
  · exact altRight_reduces h
  · exact altLeft_reduces h

theorem catEps_reduces (h : catEps dir t = some u) : Reduces env t u := by
  obtain ⟨⟨x, y⟩, hs, h⟩ := Option.bind_eq_some_iff.mp h
  dsimp only at h
  split_ifs at h with heps
  cases h
  rw [split_eq_some.mp hs, heps]
  exact ⟨by rw [lang_pair_cat, lang_eps, Vec.join_one], (mass_lt_pair .cat dir u .eps).1, fun _ h => (over_pair.mp h).1⟩

theorem basicSimplify_reduces (h : basicSimplify dir t = some u) : Reduces env t u := by
  rcases orElse_eq_some h with h | h
  · exact catEps_reduces h
  · obtain ⟨p, hp, h⟩ := Option.bind_eq_some_iff.mp h
    rw [split_eq_some.mp hp]
    exact basicAltFactor_reduces h

theorem basicSimplify_keeps (dir : Bool) (t : Tree) : Keeps env t ((basicSimplify dir t).getD t) := by
  cases h : basicSimplify dir t with
  | none => exact Keeps.refl t
  | some u => exact (basicSimplify_reduces h).keeps

section Chain

theorem ofChain_chain (dir : Bool) (t : Tree) : ofChain dir (chain dir t).1 (chain dir t).2 = t := by
  induction t with
  | alt l r hl hr =>
    cases dir
    · exact congrArg (Tree.alt l) hr
    · exact congrArg (fun l => Tree.alt l r) hl
  | _ => rfl

variable {es : List Tree} {last : Tree}

theorem mem_lang_ofChain :
    w ∈ lang env (ofChain dir es last) ↔ (∃ e ∈ es, w ∈ lang env e) ∨ w ∈ lang env last := by
  induction es with
  | nil => simp [ofChain]
  | cons e es ih =>
    rw [ofChain, foldr_cons, lang_pair_alt, mem_add, ← ofChain, ih, exists_mem_cons_iff, or_assoc]

theorem over_ofChain {Q : CNode → Prop} :
    (ofChain dir es last).Over Q ↔ (∀ e ∈ es, e.Over Q) ∧ last.Over Q := by
  induction es with
  | nil => simp [ofChain]
  | cons e es ih => rw [ofChain, foldr_cons, over_pair, ← ofChain, ih, forall_mem_cons, and_assoc]

def prodMass (es : List Tree) : ℕ := (es.map mass).prod

theorem prodMass_nil : prodMass [] = 1 := rfl

theorem prodMass_cons (e : Tree) (es : List Tree) : prodMass (e :: es) = mass e * prodMass es := prod_cons

theorem prodMass_append (es es' : List Tree) : prodMass (es ++ es') = prodMass es * prodMass es' := by
  rw [prodMass, map_append, prod_append, prodMass, prodMass]

theorem prodMass_pos (es : List Tree) : 0 < prodMass es := by
  induction es with
  | nil => exact one_pos
  | cons e es ih =>
    rw [prodMass_cons]
    exact mul_pos (by have := two_le_mass e; omega) ih

theorem mass_ofChain : mass (ofChain dir es last) = prodMass es * mass last := by
  induction es with
  | nil => exact (one_mul _).symm
  | cons e es ih => rw [ofChain, foldr_cons, mass_pair_alt, ← ofChain, ih, prodMass_cons, mul_assoc]

theorem prodMass_suffix {es' : List Tree} (h : es <:+ es') :
    prodMass es ≤ prodMass es' ∧ (es.length < es'.length → prodMass es < prodMass es') := by
  obtain ⟨front, rfl⟩ := h
  cases front with
  | nil => exact ⟨le_rfl, fun h => absurd h (lt_irrefl _)⟩
  | cons e front =>
    have he := two_le_mass e
    have hf := prodMass_pos front
    have hes := prodMass_pos es
    have hlt : prodMass es < prodMass (e :: front ++ es) := by
      rw [cons_append, prodMass_cons, prodMass_append]
      nlinarith [mul_pos hf hes]
    exact ⟨hlt.le, fun _ => hlt⟩

theorem dropDups_spec (g es : List Tree) (hg : g ≠ []) :
    dropDups (g ++ es) es <:+ g ++ es ∧ ∀ x, x ∈ dropDups (g ++ es) es ↔ x ∈ g ++ es := by
  induction es generalizing g with
  | nil => exact ⟨suffix_refl _, fun _ => Iff.rfl⟩
  | cons e es ih =>
    cases g with
    | nil => exact absurd rfl hg
    | cons c g =>
      rw [dropDups, foldl_cons, ← dropDups]
      dsimp only [cons_append]
      split_ifs with hdup
      · rw [eq_iff.mp hdup]
        have hfront : g ++ e :: es = g ++ [e] ++ es := by rw [append_assoc, singleton_append]
        rw [hfront]
        obtain ⟨hsuf, hmem⟩ := ih (g ++ [e]) (by simp)
        refine ⟨hsuf.trans (suffix_cons _ _), fun x => (hmem x).trans ?_⟩
        rw [mem_cons, append_assoc, singleton_append, mem_append, mem_cons]
        tauto
      · have hfront : c :: (g ++ e :: es) = c :: g ++ [e] ++ es := by simp
        rw [hfront]
        exact ih (c :: g ++ [e]) (by simp)

end Chain

section Extract

theorem sharesHead_cases {a e : Tree} (h : sharesHead dir a e) : a = e ∨ ∃ b, e = pair .cat dir a b := by
  rw [sharesHead, Bool.or_eq_true, Option.any_eq_true] at h
  rcases h with ⟨⟨a', b⟩, hs, ha⟩ | h
  · rw [eq_iff.mp ha]
    exact Or.inr ⟨b, split_eq_some.mp hs⟩
  · exact Or.inl (eq_iff.mp h)

theorem headOf_cases (dir : Bool) (s : Tree) : headOf dir s = s ∨ ∃ b, s = pair .cat dir (headOf dir s) b := by
  cases hs : split .cat dir s with
  | none => exact Or.inl (by rw [headOf, hs]; rfl)
  | some p =>
    have hhead : headOf dir s = p.1 := by rw [headOf, hs]; rfl
    rw [hhead]
    exact Or.inr ⟨p.2, split_eq_some.mp hs⟩

theorem isSome_orElse {a b : Option Tree} (h : a.isSome ∨ b.isSome) : (a <|> b).isSome := by
  cases a with
  | none => exact h.resolve_left Bool.false_ne_true
  | some a => rfl

def StartsWith (dir : Bool) (a t : Tree) : Prop := a = t ∨ ∃ b, t = pair .cat dir a b

theorem basicAltFactor_isSome {a : Tree} (hx : StartsWith dir a x) (hy : StartsWith dir a y) :
    (basicAltFactor dir x y).isSome := by
  have heq : a.eq a := eq_iff.mpr rfl
  rcases hx with rfl | ⟨b, rfl⟩
  · rcases hy with rfl | ⟨c, rfl⟩
    · refine isSome_orElse (Or.inl ?_)
      rw [altDup, if_pos heq]
      rfl
    · refine isSome_orElse (Or.inr (isSome_orElse (Or.inr (isSome_orElse (Or.inr (isSome_orElse (Or.inl ?_)))))))
      rw [altRight, split_pair]
      simp [heq]
  · rcases hy with rfl | ⟨c, rfl⟩
    · refine isSome_orElse (Or.inr (isSome_orElse (Or.inr (isSome_orElse (Or.inr (isSome_orElse (Or.inr ?_)))))))
      rw [altLeft, split_pair]
      simp [heq]
    · refine isSome_orElse (Or.inr (isSome_orElse (Or.inr (isSome_orElse (Or.inl ?_)))))
      rw [altCats, split_pair, split_pair]
      simp [heq]

theorem factor_reduces {a : Tree} (hx : StartsWith dir a x) (hy : StartsWith dir a y) :
    Reduces env (pair .alt dir x y) ((basicSimplify dir (pair .alt dir x y)).getD (pair .alt dir x y)) := by
  have hsome : (basicSimplify dir (pair .alt dir x y)).isSome := by
    refine isSome_orElse (Or.inr ?_)
    rw [split_pair]
    exact basicAltFactor_isSome hx hy
  obtain ⟨u, hu⟩ := Option.isSome_iff_exists.mp hsome
  rw [hu]
  exact basicSimplify_reduces hu

def Extract.Means (env : ℕ → Node CNode) (s : Extract) (w : List Sym) : Prop :=
  w ∈ lang env s.subject ∨ ∃ e ∈ s.kept, w ∈ lang env e

def Extract.load (s : Extract) : ℕ := mass s.subject * prodMass s.kept

variable {s : Extract} {e : Tree}

theorem extractStep_means : (extractStep dir s e).Means env w ↔ s.Means env w ∨ w ∈ lang env e := by
  unfold extractStep
  split_ifs
  · simp only [Extract.Means]
    rw [(basicSimplify_keeps dir _).lang, lang_pair_alt, mem_add]
    grind
  · simp only [Extract.Means, mem_append, mem_singleton, or_and_right, exists_or, exists_eq_left]
    grind

theorem extractStep_load :
    (extractStep dir s e).load + (extractStep dir s e).count ≤ s.load * mass e + s.count ∧
      s.count ≤ (extractStep dir s e).count := by
  unfold extractStep
  split_ifs with hshare
  · have hred : Reduces (fun _ => Node.eps) _ _ := factor_reduces (sharesHead_cases hshare) (headOf_cases dir s.subject)
    have hm := hred.mass
    have hk := prodMass_pos s.kept
    rw [mass_pair_alt] at hm
    refine ⟨?_, le_succ _⟩
    simp only [Extract.load]
    nlinarith
  · refine ⟨le_of_eq ?_, le_rfl⟩
    simp only [Extract.load, prodMass_append, prodMass_cons]
    rw [prodMass_nil, mul_one, mul_assoc]

theorem extract_means {es : List Tree} :
    (es.foldl (extractStep dir) s).Means env w ↔ s.Means env w ∨ ∃ e ∈ es, w ∈ lang env e := by
  induction es generalizing s with
  | nil => simp
  | cons e es ih => rw [foldl_cons, ih, extractStep_means, exists_mem_cons_iff, or_assoc]

def Extract.Over (Q : CNode → Prop) (s : Extract) : Prop := s.subject.Over Q ∧ ∀ e ∈ s.kept, e.Over Q

variable {Q : CNode → Prop}

theorem extractStep_over (hQ : LeafClosed Q) (hs : s.Over Q) (he : e.Over Q) :
    (extractStep dir s e).Over Q := by
  unfold extractStep
  split_ifs
  · have hkeeps : Keeps (fun _ => .eps) _ _ := basicSimplify_keeps dir (pair .alt dir e s.subject)
    exact ⟨hkeeps.plain hQ (over_pair.mpr ⟨he, hs.1⟩), hs.2⟩
  · exact ⟨hs.1, forall_mem_append.mpr ⟨hs.2, forall_mem_singleton.mpr he⟩⟩

theorem extract_over (hQ : LeafClosed Q) {es : List Tree} (hs : s.Over Q) (hes : ∀ e ∈ es, e.Over Q) :
    (es.foldl (extractStep dir) s).Over Q := by
  induction es generalizing s with
  | nil => exact hs
  | cons e es ih =>
    obtain ⟨he, hes⟩ := forall_mem_cons.mp hes
    exact ih (extractStep_over hQ hs he) hes

theorem extract_load {es : List Tree} :
    (es.foldl (extractStep dir) s).load + (es.foldl (extractStep dir) s).count ≤ s.load * prodMass es + s.count := by
  induction es generalizing s with
  | nil => exact le_of_eq (by rw [prodMass_nil, Nat.mul_one]; rfl)
  | cons e es ih =>
    obtain ⟨hstep, hcount⟩ := @extractStep_load dir s e
    have hes := prodMass_pos es
    rw [foldl_cons, prodMass_cons]
    refine (ih (s := extractStep dir s e)).trans ?_
    obtain ⟨d, hd⟩ := Nat.exists_eq_add_of_le hcount
    have hle : (extractStep dir s e).load + d ≤ s.load * mass e := by omega
    have hmul := Nat.mul_le_mul_right (prodMass es) hle
    rw [hd]
    nlinarith [Nat.mul_le_mul_left d hes]

theorem mem_lang_rejoin {last : Tree} :
    w ∈ lang env (rejoin dir s last).1 ↔ s.Means env w ∨ w ∈ lang env last := by
  unfold rejoin Extract.Means
  split_ifs
  · cases hk : s.kept.getLast? with
    | none =>
      rw [getLast?_eq_none_iff.mp hk, (basicSimplify_keeps dir _).lang, lang_pair_alt, mem_add]
      simp
    | some e =>
      obtain ⟨front, hfront⟩ := getLast?_eq_some_iff.mp hk
      dsimp only
      rw [lang_pair_alt, mem_add, mem_lang_ofChain, (basicSimplify_keeps dir _).lang, lang_pair_alt,
        mem_add, hfront, dropLast_concat]
      simp only [mem_append, mem_singleton, or_and_right, exists_or, exists_eq_left]
      grind
  · rw [lang_pair_alt, mem_add, mem_lang_ofChain]
    grind

theorem over_rejoin (hQ : LeafClosed Q) {last : Tree} (hs : s.Over Q) (hl : last.Over Q) :
    (rejoin dir s last).1.Over Q := by
  unfold rejoin
  split_ifs
  · have hkeeps : Keeps (fun _ => .eps) _ _ := basicSimplify_keeps dir (pair .alt dir s.subject last)
    have hover := hkeeps.plain hQ (over_pair.mpr ⟨hs.1, hl⟩)
    cases hk : s.kept.getLast? with
    | none => exact hover
    | some e =>
      dsimp only
      exact over_pair.mpr ⟨hs.2 e (mem_of_getLast? hk),
        over_ofChain.mpr ⟨fun x hx => hs.2 x (mem_of_mem_dropLast hx), hover⟩⟩
  · dsimp only
    exact over_pair.mpr ⟨hl, over_ofChain.mpr ⟨hs.2, hs.1⟩⟩

theorem mass_rejoin {last : Tree} :
    mass (rejoin dir s last).1 + (rejoin dir s last).2 ≤ s.load * mass last + s.count := by
  unfold rejoin Extract.load
  split_ifs with hshare
  · have hred : Reduces (fun _ => Node.eps) _ _ := factor_reduces (headOf_cases dir s.subject) (sharesHead_cases hshare)
    have hm := hred.mass
    rw [mass_pair_alt] at hm
    cases hk : s.kept.getLast? with
    | none =>
      dsimp only
      rw [getLast?_eq_none_iff.mp hk, prodMass_nil, mul_one]
      omega
    | some e =>
      obtain ⟨front, hfront⟩ := getLast?_eq_some_iff.mp hk
      have he := two_le_mass e
      have hf := prodMass_pos front
      dsimp only
      rw [hfront, dropLast_concat, mass_pair_alt, mass_ofChain, prodMass_append, prodMass_cons,
        prodMass_nil, mul_one]
      nlinarith [mul_pos (show 0 < mass e by omega) hf]
  · refine le_of_eq ?_
    dsimp only
    rw [mass_pair_alt, mass_ofChain]
    ring

end Extract

structure Pass.Sound (env : ℕ → Node CNode) (changed : Bool) (t : Tree) (p : Pass) : Prop where
  keeps : Keeps env t p.tree
  less : p.changed → changed ∨ mass p.tree < mass t

theorem Pass.Sound.before {changed changed' : Bool} {p : Pass} (h : Pass.Sound env changed u p) (hr : Reduces env t u) :
    Pass.Sound env changed' t p :=
  ⟨hr.keeps.trans h.keeps, fun _ => Or.inr (h.keeps.mass.trans_lt hr.mass)⟩

theorem baseLoop_chain {p : Pass} {c e last : Tree} {es : List Tree} (hb : basicSimplify dir p.tree = none)
    (hc : chain dir p.tree = (c :: e :: es, last)) :
    (∃ u modified moved, Reduces env p.tree u ∧ ∀ fuel, baseLoop dir (fuel + 1) p = baseLoop dir fuel ⟨u, modified, moved⟩) ∨
      ∃ q, Pass.Sound env p.changed p.tree q ∧ ∀ fuel, baseLoop dir (fuel + 1) p = some q := by
  have htree : p.tree = ofChain dir (c :: e :: es) last := by
    have h := ofChain_chain dir p.tree
    rw [hc] at h
    exact h.symm
  obtain ⟨hsuf, hmem⟩ := dropDups_spec [c] (e :: es) (cons_ne_nil _ _)
  rw [singleton_append] at hsuf hmem
  cases hd : dropDups (c :: e :: es) (e :: es) with
  | nil =>
    rw [hd] at hmem
    exact absurd ((hmem c).mpr (mem_cons_self)) not_mem_nil
  | cons c' es' =>
    have hrun : ∀ fuel, baseLoop dir (fuel + 1) p = if c'.eq last then baseLoop dir fuel ⟨ofChain dir es' last, true, true⟩
        else if (rejoin dir (es'.foldl (extractStep dir) ⟨c', [], 0⟩) last).2 = 0 then
          some ⟨(rejoin dir (es'.foldl (extractStep dir) ⟨c', [], 0⟩) last).1, p.modified,
            p.moved || es'.length < (e :: es).length⟩
        else baseLoop dir fuel ⟨(rejoin dir (es'.foldl (extractStep dir) ⟨c', [], 0⟩) last).1, true,
          p.moved || es'.length < (e :: es).length⟩ := by
      intro fuel
      rw [baseLoop, hb, hc]
      dsimp only
      rw [hd]
    rw [hd] at hsuf hmem
    obtain ⟨hle, hlt⟩ := prodMass_suffix hsuf
    have hlast := two_le_mass last
    -- what remains of the chain means the same
    have hlang : ∀ w, w ∈ lang env p.tree ↔ (w ∈ lang env c' ∨ ∃ e ∈ es', w ∈ lang env e) ∨ w ∈ lang env last := by
      intro w
      rw [htree, mem_lang_ofChain]
      simp only [← hmem, exists_mem_cons_iff]
    have hmass : mass p.tree = prodMass (c :: e :: es) * mass last := by rw [htree, mass_ofChain]
    have hover : ∀ {Q}, p.tree.Over Q → (c'.Over Q ∧ ∀ e ∈ es', e.Over Q) ∧ last.Over Q := by
      intro Q h
      rw [htree, over_ofChain] at h
      simp only [← hmem, forall_mem_cons] at h
      exact h
    rw [prodMass_cons c' es'] at hle hlt
    by_cases hc' : c'.eq last
    · refine Or.inl ⟨ofChain dir es' last, true, true, ⟨?_, ?_, fun _ h => ?_⟩, fun fuel => by rw [hrun fuel, if_pos hc']⟩
      · ext w
        rw [hlang w, mem_lang_ofChain, eq_iff.mp hc']
        grind
      · have h₁ := two_le_mass c'
        have h₂ := prodMass_pos es'
        rw [hmass, mass_ofChain]
        apply mul_lt_mul_of_pos_right _ (by omega)
        nlinarith
      · exact over_ofChain.mpr ⟨(hover h).1.2, (hover h).2⟩
    · have hmeans : ∀ w, w ∈ lang env (rejoin dir (es'.foldl (extractStep dir) ⟨c', [], 0⟩) last).1 ↔
          w ∈ lang env p.tree := by
        intro w
        rw [mem_lang_rejoin, extract_means, hlang w]
        simp [Extract.Means]
      have hload : mass (rejoin dir (es'.foldl (extractStep dir) ⟨c', [], 0⟩) last).1 +
          (rejoin dir (es'.foldl (extractStep dir) ⟨c', [], 0⟩) last).2 ≤ mass c' * prodMass es' * mass last := by
        refine mass_rejoin.trans ?_
        have h := @extract_load dir ⟨c', [], 0⟩ es'
        rw [show (Extract.mk c' [] 0).load = mass c' from mul_one _] at h
        dsimp only at h
        nlinarith
      have hrejoin : ∀ {Q}, LeafClosed Q → p.tree.Over Q →
          (rejoin dir (es'.foldl (extractStep dir) ⟨c', [], 0⟩) last).1.Over Q := by
        intro Q hQ h
        obtain ⟨⟨hc, hes⟩, hl⟩ := hover h
        exact over_rejoin hQ (extract_over hQ ⟨hc, by simp⟩ hes) hl
      have hmul := mul_le_mul_right (mass last) hle
      generalize rejoin dir (es'.foldl (extractStep dir) ⟨c', [], 0⟩) last = r at hrun hmeans hload hrejoin
      by_cases hcount : r.2 = 0
      · refine Or.inr ⟨⟨r.1, p.modified, p.moved || es'.length < (e :: es).length⟩, ⟨?_, ?_⟩, fun fuel => ?_⟩
        · exact ⟨ext hmeans, by dsimp only; omega, hrejoin⟩
        · intro hch
          rw [Pass.changed, Bool.or_eq_true, Bool.or_eq_true, decide_eq_true_iff] at hch
          rcases hch with hch | hch | hch
          · exact Or.inl (by rw [Pass.changed, hch, Bool.true_or])
          · exact Or.inl (by rw [Pass.changed, hch, Bool.or_true])
          · have hless := hlt (succ_lt_succ hch)
            have hmul' := mul_lt_mul_of_pos_right hless (show 0 < mass last by omega)
            exact Or.inr (by dsimp only; omega)
        · rw [hrun fuel, if_neg hc', if_pos hcount]
      · refine Or.inl ⟨r.1, true, p.moved || es'.length < (e :: es).length, ⟨ext hmeans, by omega, hrejoin⟩, fun fuel => ?_⟩
        rw [hrun fuel, if_neg hc', if_neg hcount]

theorem baseLoop_spec (p : Pass) :
    ∃ q, Returns (fun fuel => baseLoop dir fuel p) q ∧ Pass.Sound env p.changed p.tree q := by
  induction hm : mass p.tree using Nat.strong_induction_on generalizing p with
  | _ m ih =>
    have hstop : (∀ fuel, baseLoop dir (fuel + 1) p = some p) →
        ∃ q, Returns (fun fuel => baseLoop dir fuel p) q ∧ Pass.Sound env p.changed p.tree q := fun h =>
      ⟨p, Returns.step ((Returns.pure p).congr h), Keeps.refl _, fun h => Or.inl h⟩
    have hgo : ∀ {u modified moved}, Reduces env p.tree u →
        (∀ fuel, baseLoop dir (fuel + 1) p = baseLoop dir fuel ⟨u, modified, moved⟩) →
        ∃ q, Returns (fun fuel => baseLoop dir fuel p) q ∧ Pass.Sound env p.changed p.tree q := by
      intro u modified moved hred hrun
      obtain ⟨q, hq, hsound⟩ := ih (mass u) (hm ▸ hred.mass) ⟨u, modified, moved⟩ rfl
      exact ⟨q, Returns.step (hq.congr hrun), hsound.before hred⟩
    cases hb : basicSimplify dir p.tree with
    | some u =>
      apply hgo (basicSimplify_reduces hb)
      intro fuel
      rw [baseLoop, hb]
    | none =>
      rcases hc : chain dir p.tree with ⟨_ | ⟨c, _ | ⟨e, es⟩⟩, last⟩
      · exact hstop fun fuel => by rw [baseLoop, hb, hc]
      · exact hstop fun fuel => by rw [baseLoop, hb, hc]
      · rcases @baseLoop_chain env dir p c e last es hb hc with ⟨u, modified, moved, hred, hrun⟩ | ⟨q, hsound, hrun⟩
        · exact hgo hred hrun
        · exact ⟨q, Returns.step ((Returns.pure q).congr hrun), hsound⟩

theorem mass_pair_lt {k : NChild} {x' y' : Tree} (hx : mass x' ≤ mass x) (hy : mass y' ≤ mass y)
    (h : mass x' < mass x ∨ mass y' < mass y) : mass (pair k dir x' y') < mass (pair k dir x y) := by
  have hx' := two_le_mass x'
  have hy' := two_le_mass y'
  cases k with
  | cat =>
    rw [mass_pair_cat, mass_pair_cat]
    omega
  | alt =>
    rw [mass_pair_alt, mass_pair_alt]
    rcases h with h | h
    · exact Nat.mul_lt_mul_of_lt_of_le h hy (by omega)
    · exact Nat.mul_lt_mul_of_le_of_lt hx h (by omega)

theorem base_node {k : NChild} {l r : Tree} (hl : ∃ p, Returns (fun fuel => simplifyTreeBase dir fuel l) p ∧ p.Sound env false l)
    (hr : ∃ p, Returns (fun fuel => simplifyTreeBase dir fuel r) p ∧ p.Sound env false r) :
    ∃ p, Returns (fun fuel => (simplifyTreeBase dir fuel l).bind fun p => (simplifyTreeBase dir fuel r).bind fun q =>
      baseLoop dir fuel ⟨pair k false p.tree q.tree, p.changed || q.changed, false⟩) p ∧
      p.Sound env false (pair k false l r) := by
  obtain ⟨p, hp, hsp⟩ := hl
  obtain ⟨q, hq, hsq⟩ := hr
  obtain ⟨s, hs, hss⟩ := @baseLoop_spec env dir
    ⟨pair k false p.tree q.tree, p.changed || q.changed, false⟩
  refine ⟨s, hp.bind (hq.bind hs), (hsp.keeps.pair hsq.keeps).trans hss.keeps, fun hch => Or.inr ?_⟩
  rcases hss.less hch with hch | hlt
  · refine hss.keeps.mass.trans_lt (mass_pair_lt hsp.keeps.mass hsq.keeps.mass ?_)
    rw [Pass.changed, Bool.or_false, Bool.or_eq_true] at hch
    rcases hch with hch | hch
    · exact Or.inl ((hsp.less hch).resolve_left Bool.false_ne_true)
    · exact Or.inr ((hsq.less hch).resolve_left Bool.false_ne_true)
  · exact hlt.trans_le (hsp.keeps.pair hsq.keeps).mass

theorem simplifyTreeBase_spec (t : Tree) :
    ∃ p, Returns (fun fuel => simplifyTreeBase dir fuel t) p ∧ p.Sound env false t := by
  have hone : ∀ (f : Tree → Tree) {t : Tree} {p : Pass}, (∀ u, mass (f u) = mass u + 1) →
      (Keeps env t p.tree → Keeps env (f t) (f p.tree)) → p.Sound env false t →
      Pass.Sound env false (f t) ⟨f p.tree, p.changed, false⟩ := by
    intro f t p hf hkeeps hp
    refine ⟨hkeeps hp.keeps, fun hch => Or.inr ?_⟩
    rw [Pass.changed, Bool.or_false] at hch
    have hlt := (hp.less hch).resolve_left Bool.false_ne_true
    dsimp only
    rw [hf, hf]
    omega
  induction t with
  | star t ih =>
    obtain ⟨p, hp, hs⟩ := ih
    exact ⟨_, Returns.step ((hp.map fun p => ⟨.star p.tree, p.changed, false⟩).congr fun fuel => rfl),
      hone Tree.star (fun _ => rfl) Keeps.star hs⟩
  | optional t ih =>
    obtain ⟨p, hp, hs⟩ := ih
    exact ⟨_, Returns.step ((hp.map fun p => ⟨.optional p.tree, p.changed, false⟩).congr fun fuel => rfl),
      hone Tree.optional (fun _ => rfl) Keeps.optional hs⟩
  | plus t ih =>
    obtain ⟨p, hp, hs⟩ := ih
    exact ⟨_, Returns.step ((hp.map fun p => ⟨.plus p.tree, p.changed, false⟩).congr fun fuel => rfl),
      hone Tree.plus (fun _ => rfl) Keeps.plus hs⟩
  | cat l r hl hr =>
    obtain ⟨p, hp, hs⟩ := base_node (k := .cat) hl hr
    exact ⟨p, Returns.step (hp.congr fun fuel => rfl), hs⟩
  | alt l r hl hr =>
    obtain ⟨p, hp, hs⟩ := base_node (k := .alt) hl hr
    exact ⟨p, Returns.step (hp.congr fun fuel => rfl), hs⟩
  | _ =>
    refine ⟨_, Returns.step ((Returns.pure _).congr fun fuel => rfl), Keeps.refl _, fun hch => ?_⟩
    cases hch

theorem normalize_if_spec (normal : Bool) (t : Tree) :
    ∃ u, Returns (fun fuel => if normal then normalize dir fuel t else some t) u ∧ Keeps env t u := by
  cases normal
  · exact ⟨t, Returns.pure t, Keeps.refl t⟩
  · exact normalize_spec dir t

theorem simplifyPasses_spec (normal : Bool) (t : Tree) :
    ∃ u, Returns (fun fuel => simplifyPasses dir normal fuel t) u ∧ Keeps env t u := by
  induction hm : mass t using Nat.strong_induction_on generalizing t with
  | _ m ih =>
    obtain ⟨u, hu, hku⟩ := @normalize_if_spec env dir normal t
    obtain ⟨p, hp, hsp⟩ := @simplifyTreeBase_spec env dir u
    have hkp := hku.trans hsp.keeps
    have hlast : ∃ v, Returns (fun fuel => if p.modified then simplifyPasses dir normal fuel p.tree else some p.tree) v ∧
        Keeps env t v := by
      cases hmod : p.modified with
      | false => exact ⟨p.tree, Returns.pure _, hkp⟩
      | true =>
        have hless := (hsp.less (by rw [Pass.changed, hmod, Bool.true_or])).resolve_left Bool.false_ne_true
        have hmass := hku.mass
        obtain ⟨v, hv, hkv⟩ := ih (mass p.tree) (by omega) p.tree rfl
        exact ⟨v, hv, hkp.trans hkv⟩
    obtain ⟨v, hv, hkv⟩ := hlast
    have hpass : Returns (fun fuel => (simplifyTreeBase dir fuel u).bind fun p =>
        if p.modified then simplifyPasses dir normal fuel p.tree else some p.tree) v :=
      hp.bind (g := fun fuel p => if p.modified then simplifyPasses dir normal fuel p.tree else some p.tree) hv
    have hrun := hu.bind (g := fun fuel t => (simplifyTreeBase dir fuel t).bind fun p =>
        if p.modified then simplifyPasses dir normal fuel p.tree else some p.tree) hpass
    refine ⟨v, Returns.step (hrun.congr fun fuel => ?_), hkv⟩
    cases normal <;> rfl

end Tree

theorem simplifyTreeOld_spec (env : ℕ → Node CNode) (opts : TreeFlags) (t : Tree) :
    ∃ u, Fuel.Returns (fun fuel => simplifyTreeOld opts fuel t) u ∧ Tree.Keeps env t u := by
  obtain ⟨u, hu, hku⟩ := @Tree.simplifyPasses_spec env (!opts.left) opts.normal t
  obtain ⟨v, hv, hkv⟩ := @Tree.simplifyPasses_spec env opts.left opts.normal u
  exact ⟨v, (hu.bind hv).congr fun fuel => rfl, hku.trans hkv⟩

theorem simplifyTreeOld_terminates :
    (∀ k dir x y, ∃ r, Fuel.Returns (fun fuel => Tree.normalizeLoop k dir fuel x y) r) ∧
      (∀ dir t, ∃ u, Fuel.Returns (fun fuel => Tree.normalize dir fuel t) u) ∧
      (∀ dir normal t, ∃ u, Fuel.Returns (fun fuel => Tree.simplifyPasses dir normal fuel t) u) ∧
      ∀ opts t, ∃ u, Fuel.Returns (fun fuel => simplifyTreeOld opts fuel t) u := by
  refine ⟨Tree.normalizeLoop_ends, fun dir t => ?_, fun dir normal t => ?_, fun opts t => ?_⟩
  · obtain ⟨u, hu, -⟩ := @Tree.normalize_spec (fun _ => .eps) dir t
    exact ⟨u, hu⟩
  · obtain ⟨u, hu, -⟩ := @Tree.simplifyPasses_spec (fun _ => .eps) dir normal t
    exact ⟨u, hu⟩
  · obtain ⟨u, hu, -⟩ := simplifyTreeOld_spec (fun _ => .eps) opts t
    exact ⟨u, hu⟩

/-- The old simplification ends, in either direction and with or without normalisation, and keeps the language. -/
theorem simplifyTreeOld_lang (env : ℕ → Node CNode) (opts : TreeFlags) (t : Tree) :
    ∃ u, Fuel.Returns (fun fuel => simplifyTreeOld opts fuel t) u ∧ u.lang env = t.lang env := by
  obtain ⟨u, hu, hk⟩ := simplifyTreeOld_spec env opts t
  exact ⟨u, hu, hk.lang⟩

end AppArmor

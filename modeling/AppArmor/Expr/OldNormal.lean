import AppArmor.Expr.Old
import AppArmor.Expr.VectorCorrect
import AppArmor.Lib.Fuel

namespace AppArmor.Tree

open Fuel Computability Nat
open Vec (NChild join)

variable {env : ℕ → Node CNode} {k : NChild} {dir : Bool} {t u x y : Tree}

def mass : Tree → ℕ
  | .star t => mass t + 1
  | .optional t => mass t + 1
  | .plus t => mass t + 1
  | .cat l r => mass l + mass r
  | .alt l r => mass l * mass r
  | _ => 2

theorem two_le_mass (t : Tree) : 2 ≤ mass t := by
  induction t with
  | star t ih | optional t ih | plus t ih => exact ih.trans (Nat.le_succ _)
  | cat l r hl hr => exact hl.trans (Nat.le_add_right _ _)
  | alt l r hl hr => exact hl.trans (Nat.le_mul_of_pos_right _ (by omega))
  | _ => exact le_rfl

theorem mass_pair_cat : mass (pair .cat dir x y) = mass x + mass y := by
  cases dir
  · rfl
  · exact add_comm _ _

theorem mass_pair_alt : mass (pair .alt dir x y) = mass x * mass y := by
  cases dir
  · rfl
  · exact mul_comm _ _

theorem mass_lt_pair (k : NChild) (dir : Bool) (x y : Tree) :
    mass x < mass (pair k dir x y) ∧ mass y < mass (pair k dir x y) := by
  have hx := two_le_mass x
  have hy := two_le_mass y
  cases k with
  | cat =>
    rw [mass_pair_cat]
    omega
  | alt =>
    rw [mass_pair_alt]
    constructor <;> nlinarith

theorem mass_pair_le {x' y' : Tree} (hx : mass x' ≤ mass x) (hy : mass y' ≤ mass y) :
    mass (pair k dir x' y') ≤ mass (pair k dir x y) := by
  cases k with
  | cat =>
    rw [mass_pair_cat, mass_pair_cat]
    omega
  | alt =>
    rw [mass_pair_alt, mass_pair_alt]
    exact Nat.mul_le_mul hx hy

theorem lang_pair_cat : lang env (pair .cat dir x y) = join dir (lang env x) (lang env y) := by
  cases dir
  · exact lang_cat x y
  · exact lang_cat y x

theorem lang_pair_alt : lang env (pair .alt dir x y) = lang env x + lang env y := by
  cases dir
  · exact lang_alt x y
  · exact (lang_alt y x).trans (add_comm _ _)

theorem join_assoc (a b c : Language Sym) : join dir (join dir a b) c = join dir a (join dir b c) := by
  cases dir
  · exact mul_assoc a b c
  · exact (mul_assoc c b a).symm

theorem one_join (a : Language Sym) : join dir 1 a = a := by
  cases dir
  · exact one_mul a
  · exact mul_one a

theorem lang_pair_assoc (a b : Tree) :
    lang env (pair k dir (pair k dir a b) y) = lang env (pair k dir a (pair k dir b y)) := by
  cases k with
  | cat => simp only [lang_pair_cat, join_assoc]
  | alt => simp only [lang_pair_alt, add_assoc]

theorem mass_pair_assoc (a b : Tree) :
    mass (pair k dir (pair k dir a b) y) = mass (pair k dir a (pair k dir b y)) := by
  cases k with
  | cat => simp only [mass_pair_cat, add_assoc]
  | alt => simp only [mass_pair_alt, mul_assoc]

theorem lang_pair_congr {x' y' : Tree} (hx : lang env x' = lang env x) (hy : lang env y' = lang env y) :
    lang env (pair k dir x' y') = lang env (pair k dir x y) := by
  cases k with
  | cat => rw [lang_pair_cat, lang_pair_cat, hx, hy]
  | alt => rw [lang_pair_alt, lang_pair_alt, hx, hy]

theorem simplifyEpsPair_cases (t : Tree) :
    simplifyEpsPair t = t ∨ simplifyEpsPair t = .eps ∧ (t = .cat .eps .eps ∨ t = .alt .eps .eps) := by
  unfold simplifyEpsPair
  split
  · exact Or.inr ⟨rfl, Or.inl rfl⟩
  · exact Or.inr ⟨rfl, Or.inr rfl⟩
  · exact Or.inl rfl

theorem lang_simplifyEpsPair (t : Tree) : lang env (simplifyEpsPair t) = lang env t := by
  rcases simplifyEpsPair_cases t with h | ⟨h, rfl | rfl⟩
  · rw [h]
  · rw [h, lang_cat, lang_eps, mul_one]
  · rw [h, lang_alt, lang_eps, Language.add_self]

theorem mass_simplifyEpsPair (t : Tree) : mass (simplifyEpsPair t) ≤ mass t := by
  rcases simplifyEpsPair_cases t with h | ⟨h, rfl | rfl⟩
  · rw [h]
  · rw [h]
    decide
  · rw [h]
    decide

theorem over_simplifyEpsPair {Q : CNode → Prop} (h : t.Over Q) : (simplifyEpsPair t).Over Q := by
  rcases simplifyEpsPair_cases t with he | ⟨he, -⟩
  · rwa [he]
  · rw [he]
    trivial

theorem simplifyEpsPair_pair (h : x ≠ .eps ∨ y ≠ .eps) : simplifyEpsPair (pair k dir x y) = pair k dir x y := by
  rcases simplifyEpsPair_cases (pair k dir x y) with he | ⟨-, he | he⟩
  · exact he
  · cases k <;> cases dir <;> simp [pair] at he <;> tauto
  · cases k <;> cases dir <;> simp [pair] at he <;> tauto

theorem pair_ne_eps : pair k dir x y ≠ .eps := by
  cases k <;> cases dir <;> simp [pair]

structure Keeps (env : ℕ → Node CNode) (t u : Tree) : Prop where
  lang : lang env u = lang env t
  mass : mass u ≤ mass t
  plain : ∀ {Q}, LeafClosed Q → t.Over Q → u.Over Q

theorem Keeps.refl (t : Tree) : Keeps env t t := ⟨rfl, le_rfl, fun _ h => h⟩

theorem Keeps.trans {v : Tree} (h : Keeps env t u) (h' : Keeps env u v) : Keeps env t v :=
  ⟨h'.lang.trans h.lang, h'.mass.trans h.mass, fun hQ ht => h'.plain hQ (h.plain hQ ht)⟩

theorem Keeps.star (h : Keeps env t u) : Keeps env (.star t) (.star u) := by
  refine ⟨?_, succ_le_succ h.mass, h.plain⟩
  change (Tree.lang env u)∗ = (Tree.lang env t)∗
  rw [h.lang]

theorem Keeps.optional (h : Keeps env t u) : Keeps env (.optional t) (.optional u) := by
  refine ⟨?_, succ_le_succ h.mass, h.plain⟩
  change 1 + Tree.lang env u = 1 + Tree.lang env t
  rw [h.lang]

theorem Keeps.plus (h : Keeps env t u) : Keeps env (.plus t) (.plus u) := by
  refine ⟨?_, succ_le_succ h.mass, h.plain⟩
  change Tree.lang env u * (Tree.lang env u)∗ = Tree.lang env t * (Tree.lang env t)∗
  rw [h.lang]

theorem Keeps.pair {x' y' : Tree} (hx : Keeps env x x') (hy : Keeps env y y') :
    Keeps env (pair k dir x y) (pair k dir x' y') := by
  refine ⟨lang_pair_congr hx.lang hy.lang, mass_pair_le hx.mass hy.mass, fun hQ h => ?_⟩
  rw [over_pair] at h ⊢
  exact ⟨hx.plain hQ h.1, hy.plain hQ h.2⟩

section Step

theorem normalizeStep_eps (hy : y ≠ .eps) : normalizeStep k dir .eps y = some (simplifyEpsPair y, .eps) :=
  if_pos ⟨rfl, hy⟩

theorem normalizeStep_pair (a b : Tree) :
    normalizeStep k dir (pair k dir a b) y = some (a, simplifyEpsPair (pair k dir b y)) := by
  rw [normalizeStep, if_neg fun h => pair_ne_eps h.1, split_pair]

variable {x' y' : Tree}

theorem normalizeStep_cases (h : normalizeStep k dir x y = some (x', y')) :
    (x = .eps ∧ y ≠ .eps ∧ x' = simplifyEpsPair y ∧ y' = .eps) ∨
      (∃ b, x = pair k dir x' b ∧ y' = simplifyEpsPair (pair k dir b y)) ∨
      (k = .alt ∧ x.isCharset ∧ y.isChar ∧ x' = y ∧ y' = x) := by
  by_cases heps : x = .eps ∧ y ≠ .eps
  · obtain ⟨rfl, hy⟩ := heps
    rw [normalizeStep_eps hy] at h
    cases h
    exact Or.inl ⟨rfl, hy, rfl, rfl⟩
  · rw [normalizeStep, if_neg heps] at h
    cases hs : split k dir x with
    | some p =>
      rw [hs] at h
      cases h
      exact Or.inr (Or.inl ⟨p.2, split_eq_some.mp hs, rfl⟩)
    | none =>
      rw [hs] at h
      by_cases hchar : k = .alt ∧ x.isCharset ∧ y.isChar
      · rw [if_pos hchar] at h
        cases h
        exact Or.inr (Or.inr ⟨hchar.1, hchar.2.1, hchar.2.2, rfl, rfl⟩)
      · rw [if_neg hchar] at h
        cases h

theorem normalizeStep_spec (h : normalizeStep k dir x y = some (x', y')) :
    Keeps env (pair k dir x y) (pair k dir x' y') := by
  rcases normalizeStep_cases h with ⟨rfl, -, rfl, rfl⟩ | ⟨b, rfl, rfl⟩ | ⟨rfl, -, -, rfl, rfl⟩
  · have hm := mass_simplifyEpsPair y
    have hover : ∀ {Q}, LeafClosed Q → (pair k dir .eps y).Over Q → (pair k dir (simplifyEpsPair y) .eps).Over Q := by
      intro Q _ h
      rw [over_pair] at h ⊢
      exact ⟨over_simplifyEpsPair h.2, h.1⟩
    cases k with
    | cat =>
      refine ⟨?_, ?_, hover⟩
      · rw [lang_pair_cat, lang_pair_cat, lang_eps, one_join, Vec.join_one, lang_simplifyEpsPair]
      · rw [mass_pair_cat, mass_pair_cat]
        omega
    | alt =>
      refine ⟨?_, ?_, hover⟩
      · rw [lang_pair_alt, lang_pair_alt, lang_simplifyEpsPair]
        exact add_comm _ _
      · rw [mass_pair_alt, mass_pair_alt, mul_comm]
        exact mul_le_mul_left _ hm
  · refine ⟨?_, ?_, fun _ h => ?_⟩
    · rw [lang_pair_assoc]
      exact lang_pair_congr rfl (lang_simplifyEpsPair _)
    · rw [mass_pair_assoc]
      exact mass_pair_le le_rfl (mass_simplifyEpsPair _)
    · rw [over_pair, over_pair] at h
      exact over_pair.mpr ⟨h.1.1, over_simplifyEpsPair (over_pair.mpr ⟨h.1.2, h.2⟩)⟩
  · refine ⟨?_, ?_, fun _ h => over_pair.mpr (over_pair.mp h).symm⟩
    · rw [lang_pair_alt, lang_pair_alt]
      exact add_comm _ _
    · rw [mass_pair_alt, mass_pair_alt, mul_comm]

theorem normalizeLoop_spec {fuel : ℕ} (h : normalizeLoop k dir fuel x y = some (x', y')) :
    Keeps env (pair k dir x y) (pair k dir x' y') := by
  induction fuel generalizing x y with
  | zero => cases h
  | succ fuel ih =>
    rw [normalizeLoop] at h
    cases hs : normalizeStep k dir x y with
    | none =>
      rw [hs] at h
      cases h
      exact Keeps.refl _
    | some p =>
      rw [hs] at h
      exact (normalizeStep_spec hs).trans (ih h)

end Step

def leaves (k : NChild) : Tree → ℕ
  | .cat l r => if k = .cat then leaves k l + leaves k r else 1
  | .alt l r => if k = .alt then leaves k l + leaves k r else 1
  | _ => 1

theorem leaves_pair : leaves k (pair k dir x y) = leaves k x + leaves k y := by
  cases k <;> cases dir <;> simp [pair, leaves, add_comm]

theorem leaves_eps (k : NChild) : leaves k .eps = 1 := rfl

theorem leaves_pos (k : NChild) (t : Tree) : 0 < leaves k t := by
  induction t with
  | cat l r hl _ | alt l r hl _ =>
    rw [leaves]
    split_ifs
    · exact Nat.add_pos_left hl _
    · exact Nat.one_pos
  | _ => exact Nat.one_pos

def lag (k : NChild) (dir : Bool) (t : Tree) : ℕ :=
  match split k dir t with
  | some (u, v) => if v = .eps then 0 else leaves k u + 1
  | none => 0

theorem lag_pair : lag k dir (pair k dir x y) = if y = .eps then 0 else leaves k x + 1 := by
  rw [lag, split_pair]

theorem pair_induction (k : NChild) (dir : Bool) {P : Tree → Prop} (leaf : ∀ t, split k dir t = none → P t)
    (node : ∀ a b, P a → P b → P (pair k dir a b)) (t : Tree) : P t := by
  induction t with
  | cat l r hl hr =>
    cases k with
    | alt => exact leaf _ rfl
    | cat =>
      cases dir
      · exact node l r hl hr
      · exact node r l hr hl
  | alt l r hl hr =>
    cases k with
    | cat => exact leaf _ rfl
    | alt =>
      cases dir
      · exact node l r hl hr
      · exact node r l hr hl
  | _ => exact leaf _ (by cases k <;> rfl)

def Ends (k : NChild) (dir : Bool) (x y : Tree) : Prop :=
  ∃ r, Returns (fun fuel => normalizeLoop k dir fuel x y) r

theorem Ends.of_step {x' y' : Tree} (h : normalizeStep k dir x y = some (x', y')) (he : Ends k dir x' y') :
    Ends k dir x y := by
  obtain ⟨r, hr⟩ := he
  refine ⟨r, Returns.step (hr.congr fun fuel => ?_)⟩
  rw [normalizeLoop, h]

theorem Ends.of_stop (h : normalizeStep k dir x y = none) : Ends k dir x y := by
  refine ⟨(x, y), Returns.step ((Returns.pure (x, y)).congr fun fuel => ?_)⟩
  rw [normalizeLoop, h]

theorem normalizeStep_leaf (hx : split k dir x = none) (hne : x ≠ .eps) :
    normalizeStep k dir x y = if k = .alt ∧ x.isCharset ∧ y.isChar then some (y, x) else none := by
  rw [normalizeStep, if_neg fun h => hne h.1, hx]

theorem Ends.of_leaf (hx : split k dir x = none) (hne : x ≠ .eps) : Ends k dir x y := by
  by_cases hchar : k = .alt ∧ x.isCharset ∧ y.isChar
  · have hstep := normalizeStep_leaf (y := y) hx hne
    rw [if_pos hchar] at hstep
    refine Ends.of_step hstep (Ends.of_stop ?_)
    obtain ⟨rfl, -, hy⟩ := hchar
    have hys : split .alt dir y = none ∧ y ≠ .eps ∧ y.isCharset = false := by
      cases y with
      | cnode a => cases a <;> simp [isChar, isCharset, split] at hy ⊢
      | _ => cases hy
    rw [normalizeStep_leaf hys.1 hys.2.1, if_neg]
    rw [hys.2.2]
    simp
  · apply Ends.of_stop
    rw [normalizeStep_leaf hx hne, if_neg hchar]

theorem ends_eps_eps : Ends k dir .eps .eps := by
  apply Ends.of_stop
  cases k <;> rfl

theorem Ends.simplifyEpsPair (h : Ends k dir t .eps) : Ends k dir (simplifyEpsPair t) .eps := by
  rcases simplifyEpsPair_cases t with he | ⟨he, -⟩
  · rwa [he]
  · rw [he]
    exact ends_eps_eps

theorem ends_before {w : Tree} (hw : w ≠ .eps)
    (h : ∀ a b, b ≠ .eps → leaves k a + 1 ≤ leaves k u → leaves k a + leaves k b + 1 = leaves k u + leaves k w →
      Ends k dir (pair k dir a b) .eps)
    (hleaf : u = .eps → Ends k dir w .eps) : Ends k dir u w := by
  induction u using pair_induction k dir generalizing w with
  | leaf u hu =>
    by_cases heps : u = .eps
    · subst heps
      exact Ends.of_step (normalizeStep_eps hw) (hleaf rfl).simplifyEpsPair
    · exact Ends.of_leaf hu heps
  | node a b iha _ =>
    have hstep : normalizeStep k dir (pair k dir a b) w = _ := normalizeStep_pair a b
    rw [simplifyEpsPair_pair (Or.inr hw)] at hstep
    apply Ends.of_step hstep
    have hb := leaves_pos k b
    refine iha pair_ne_eps (fun c e he h₁ h₂ => h c e he ?_ ?_) fun ha => h b w hw ?_ ?_
    · rw [leaves_pair]
      omega
    · rw [leaves_pair] at h₂ ⊢
      omega
    · rw [ha, leaves_pair, leaves_eps]
      omega
    · rw [ha, leaves_pair, leaves_eps]
      omega

theorem ends_eps (t : Tree) : Ends k dir t .eps := by
  induction hn : leaves k t using Nat.strong_induction_on generalizing t with
  | _ n ihn =>
    induction hg : lag k dir t using Nat.strong_induction_on generalizing t with
    | _ g ihg =>
      cases hs : split k dir t with
      | none =>
        by_cases heps : t = .eps
        · rw [heps]
          exact ends_eps_eps
        · exact Ends.of_leaf hs heps
      | some p =>
        obtain ⟨u, v⟩ := p
        have ht := split_eq_some.mp hs
        subst ht
        have hv := leaves_pos k v
        rw [leaves_pair] at hn
        apply Ends.of_step (normalizeStep_pair u v)
        by_cases hveps : v = .eps
        · have hpair : simplifyEpsPair (pair k dir .eps .eps) = .eps := by cases k <;> cases dir <;> rfl
          rw [hveps, hpair]
          exact ihn (leaves k u) (by omega) u rfl
        · have hlag : lag k dir (pair k dir u v) = leaves k u + 1 := by rw [lag_pair, if_neg hveps]
          rw [simplifyEpsPair_pair (Or.inl hveps)]
          refine ends_before pair_ne_eps (fun a b hb h₁ h₂ => ?_) fun hu => ?_
          · rw [leaves_pair, leaves_eps] at h₂
            refine ihg (lag k dir (pair k dir a b)) ?_ _ (by rw [leaves_pair]; omega) rfl
            rw [lag_pair, if_neg hb]
            omega
          · subst hu
            refine ihg (lag k dir (pair k dir v .eps)) ?_ _ (by rw [leaves_pair, leaves_eps] at *; omega) rfl
            rw [lag_pair, if_pos rfl]
            omega

theorem normalizeLoop_ends (k : NChild) (dir : Bool) (x y : Tree) : Ends k dir x y := by
  induction x using pair_induction k dir generalizing y with
  | leaf x hx =>
    by_cases heps : x = .eps
    · subst heps
      by_cases hy : y = .eps
      · rw [hy]
        exact ends_eps_eps
      · exact Ends.of_step (normalizeStep_eps hy) (ends_eps y).simplifyEpsPair
    · exact Ends.of_leaf hx heps
  | node a b iha _ => exact Ends.of_step (normalizeStep_pair a b) (iha _)

theorem normalize_node (env : ℕ → Node CNode) (k : NChild) (dir : Bool) (x y : Tree) (ih : ∀ z, mass z < mass (pair k dir x y) →
      ∃ u, Returns (fun fuel => normalize dir fuel z) u ∧ Keeps env z u) :
    ∃ u, Returns (fun fuel => (normalizeLoop k dir fuel x y).bind fun p => (normalize dir fuel p.1).bind fun x =>
      (normalize dir fuel p.2).bind fun y => some (pair k dir x y)) u ∧ Keeps env (pair k dir x y) u := by
  obtain ⟨⟨x', y'⟩, hloop⟩ := normalizeLoop_ends k dir x y
  have hspec : Keeps env (pair k dir x y) (pair k dir x' y') := by
    obtain ⟨n, hn⟩ := hloop
    exact normalizeLoop_spec (hn n le_rfl)
  obtain ⟨hx, hy⟩ := mass_lt_pair k dir x' y'
  obtain ⟨x'', hretx, hkx⟩ := ih x' (hx.trans_le hspec.mass)
  obtain ⟨y'', hrety, hky⟩ := ih y' (hy.trans_le hspec.mass)
  refine ⟨Tree.pair k dir x'' y'', ?_, hspec.trans (hkx.pair hky)⟩
  exact hloop.bind (hretx.bind (hrety.bind (Returns.pure _)))

theorem normalize_spec (dir : Bool) (t : Tree) :
    ∃ u, Returns (fun fuel => normalize dir fuel t) u ∧ Keeps env t u := by
  induction hm : mass t using Nat.strong_induction_on generalizing t with
  | _ m ih =>
    have ih' : ∀ z, mass z < m → ∃ u, Returns (fun fuel => normalize dir fuel z) u ∧ Keeps env z u :=
      fun z hz => ih (mass z) hz z rfl
    cases t with
    | star t =>
      obtain ⟨u, hu, hk⟩ := ih' t (by rw [← hm, mass]; omega)
      exact ⟨.star u, Returns.step ((hu.map Tree.star).congr fun fuel => rfl), hk.star⟩
    | optional t =>
      obtain ⟨u, hu, hk⟩ := ih' t (by rw [← hm, mass]; omega)
      exact ⟨.optional u, Returns.step ((hu.map Tree.optional).congr fun fuel => rfl), hk.optional⟩
    | plus t =>
      obtain ⟨u, hu, hk⟩ := ih' t (by rw [← hm, mass]; omega)
      exact ⟨.plus u, Returns.step ((hu.map Tree.plus).congr fun fuel => rfl), hk.plus⟩
    | cat l r =>
      have hp : pair .cat dir (if dir then r else l) (if dir then l else r) = .cat l r := by cases dir <;> rfl
      have hnode := normalize_node env .cat dir (if dir then r else l) (if dir then l else r) (by rw [hp, hm]; exact ih')
      rw [hp] at hnode
      obtain ⟨u, hu, hk⟩ := hnode
      exact ⟨u, Returns.step (hu.congr fun fuel => rfl), hk⟩
    | alt l r =>
      have hp : pair .alt dir (if dir then r else l) (if dir then l else r) = .alt l r := by cases dir <;> rfl
      have hnode := normalize_node env .alt dir (if dir then r else l) (if dir then l else r) (by rw [hp, hm]; exact ih')
      rw [hp] at hnode
      obtain ⟨u, hu, hk⟩ := hnode
      exact ⟨u, Returns.step (hu.congr fun fuel => rfl), hk⟩
    | _ => exact ⟨_, Returns.step ((Returns.pure _).congr fun fuel => rfl), Keeps.refl _⟩

end AppArmor.Tree

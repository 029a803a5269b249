import Mathlib.Computability.Language
import Mathlib.Tactic

namespace AppArmor.Glushkov

open Computability List Finset Language

variable {α : Type}

/-- What the position construction knows about an expression: whether it matches the empty word, the
positions that can begin and end a word, and the positions that can come after a position. -/
structure PosInfo (α : Type) where
  nullable : Bool
  first : Finset α
  last : Finset α
  follow : α → Finset α

def Chain (follow : α → Finset α) (last : Finset α) : α → List α → Prop
  | p, [] => p ∈ last
  | p, q :: w => q ∈ follow p ∧ Chain follow last q w

namespace PosInfo

def lang (i : PosInfo α) : Language α :=
  {w | match w with
    | [] => i.nullable
    | p :: w => p ∈ i.first ∧ Chain i.follow i.last p w}

def empty : PosInfo α := ⟨false, ∅, ∅, fun _ => ∅⟩

def eps : PosInfo α := ⟨true, ∅, ∅, fun _ => ∅⟩

def leaf (p : α) : PosInfo α := ⟨false, {p}, {p}, fun _ => ∅⟩

def optional (i : PosInfo α) : PosInfo α := { i with nullable := true }

structure On (i : PosInfo α) (s : Finset α) : Prop where
  first : i.first ⊆ s
  last : i.last ⊆ s
  follow : ∀ p, i.follow p ⊆ s
  outside : ∀ p, p ∉ s → i.follow p = ∅

structure Final (i : PosInfo α) (p : α) : Prop where
  last : p ∈ i.last
  follow : i.follow p = ∅

variable {i j : PosInfo α} {s t : Finset α} {p q : α} {w v : List α}

@[simp]
theorem nil_mem_lang : [] ∈ i.lang ↔ i.nullable := Iff.rfl

@[simp]
theorem cons_mem_lang : p :: w ∈ i.lang ↔ p ∈ i.first ∧ Chain i.follow i.last p w := Iff.rfl

theorem lang_empty : (empty : PosInfo α).lang = 0 := by
  ext w
  cases w <;> simp [empty]

theorem lang_eps : (eps : PosInfo α).lang = 1 := by
  ext w
  cases w <;> simp [eps, mem_one]

theorem lang_leaf (p : α) : (leaf p).lang = {[p]} := by
  ext w
  cases w with
  | nil => exact iff_of_false (by simp [leaf]) (fun h => cons_ne_nil _ _ (Set.mem_singleton_iff.mp h).symm)
  | cons q w =>
    have hw : Chain (leaf p).follow (leaf p).last q w ↔ q = p ∧ w = [] := by
      cases w <;> simp [Chain, leaf]
    rw [cons_mem_lang, hw]
    constructor
    · rintro ⟨_, rfl, rfl⟩
      rfl
    · intro h
      obtain ⟨rfl, rfl⟩ := cons.inj (Set.mem_singleton_iff.mp h)
      exact ⟨by simp [leaf], rfl, rfl⟩

theorem lang_optional (i : PosInfo α) : i.optional.lang = 1 + i.lang := by
  ext w
  rw [mem_add, mem_one]
  cases w <;> simp [optional]

theorem cons_mem_kstar {l : Language α} : p :: w ∈ l∗ ↔ ∃ u v, w = u ++ v ∧ p :: u ∈ l ∧ v ∈ l∗ := by
  constructor
  · intro h
    obtain ⟨ws, he, hws⟩ := mem_kstar_iff_exists_nonempty.mp h
    cases ws with
    | nil => exact absurd he (by simp)
    | cons u ws =>
      obtain ⟨hu, hne⟩ := hws u (by simp)
      cases u with
      | nil => exact absurd rfl hne
      | cons q u =>
        obtain ⟨rfl, rfl⟩ := cons.inj he
        exact ⟨u, ws.flatten, rfl, hu, join_mem_kstar fun y hy => (hws y (mem_cons_of_mem _ hy)).1⟩
  · rintro ⟨u, v, rfl, hu, hv⟩
    rw [← one_add_self_mul_kstar_eq_kstar]
    exact Or.inr (append_mem_mul hu hv)

theorem On.empty_on : (empty : PosInfo α).On s := by constructor <;> simp [empty]

theorem On.eps_on : (eps : PosInfo α).On s := by constructor <;> simp [eps]

theorem On.leaf_on (h : p ∈ s) : (leaf p).On s := by constructor <;> simp [leaf, h]

theorem On.mono (h : i.On s) (hst : s ⊆ t) : i.On t :=
  ⟨h.first.trans hst, h.last.trans hst, fun p => (h.follow p).trans hst, fun p hp => h.outside p fun hs => hp (hst hs)⟩

theorem On.optional_on (hi : i.On s) : i.optional.On s := ⟨hi.first, hi.last, hi.follow, hi.outside⟩

structure Agree (i j : PosInfo α) (p : α) : Prop where
  last : p ∈ i.last ↔ p ∈ j.last
  follow : i.follow p = j.follow p

theorem Final.agree (hi : i.Final p) (hj : j.Final p) : Agree i j p :=
  ⟨iff_of_true hi.last hj.last, hi.follow.trans hj.follow.symm⟩

theorem Agree.symm (h : Agree i j p) : Agree j i p := ⟨h.last.symm, h.follow.symm⟩

variable [DecidableEq α]

def alt (i j : PosInfo α) : PosInfo α :=
  ⟨i.nullable || j.nullable, i.first ∪ j.first, i.last ∪ j.last, fun p => i.follow p ∪ j.follow p⟩

def cat (i j : PosInfo α) : PosInfo α :=
  ⟨i.nullable && j.nullable, i.first ∪ (if i.nullable then j.first else ∅),
    (if j.nullable then i.last else ∅) ∪ j.last,
    fun p => i.follow p ∪ j.follow p ∪ (if p ∈ i.last then j.first else ∅)⟩

def plus (i : PosInfo α) : PosInfo α :=
  { i with follow := fun p => i.follow p ∪ (if p ∈ i.last then i.first else ∅) }

def star (i : PosInfo α) : PosInfo α := i.plus.optional

theorem On.alt_on (hi : i.On s) (hj : j.On s) : (i.alt j).On s :=
  ⟨union_subset hi.first hj.first, union_subset hi.last hj.last,
    fun p => union_subset (hi.follow p) (hj.follow p),
    fun p hp => by simp [alt, hi.outside p hp, hj.outside p hp]⟩

theorem On.cat_on (hi : i.On s) (hj : j.On s) : (i.cat j).On s := by
  refine ⟨?_, ?_, fun p => ?_, fun p hp => ?_⟩
  · refine union_subset hi.first ?_
    split_ifs
    · exact hj.first
    · exact empty_subset s
  · refine union_subset ?_ hj.last
    split_ifs
    · exact hi.last
    · exact empty_subset s
  · refine union_subset (union_subset (hi.follow p) (hj.follow p)) ?_
    split_ifs
    · exact hj.first
    · exact empty_subset s
  · have hl : p ∉ i.last := fun h => hp (hi.last h)
    simp [cat, hi.outside p hp, hj.outside p hp, hl]

theorem On.plus_on (hi : i.On s) : i.plus.On s := by
  refine ⟨hi.first, hi.last, fun p => ?_, fun p hp => ?_⟩
  · refine union_subset (hi.follow p) ?_
    split_ifs
    · exact hi.first
    · exact empty_subset s
  · have hl : p ∉ i.last := fun h => hp (hi.last h)
    simp [plus, hi.outside p hp, hl]

theorem On.star_on (hi : i.On s) : i.star.On s := hi.plus_on.optional_on

theorem chain_alt (hi : i.On s) (hj : j.On t) (hf : ∀ p ∈ s, p ∈ t → Agree i j p) (hp : p ∈ s) :
    Chain (i.alt j).follow (i.alt j).last p w ↔ Chain i.follow i.last p w := by
  induction w generalizing p with
  | nil =>
    simp only [Chain, alt, mem_union]
    constructor
    · rintro (h | h)
      · exact h
      · exact (hf p hp (hj.last h)).last.mpr h
    · exact Or.inl
  | cons q w ih =>
    have hq : (i.alt j).follow p = i.follow p := by
      by_cases ht : p ∈ t
      · simp only [alt, (hf p hp ht).follow, union_self]
      · simp only [alt, hj.outside p ht, union_empty]
    simp only [Chain, hq]
    constructor
    · rintro ⟨h, hc⟩
      exact ⟨h, (ih (hi.follow p h)).mp hc⟩
    · rintro ⟨h, hc⟩
      exact ⟨h, (ih (hi.follow p h)).mpr hc⟩

@[simp]
theorem alt_empty (i : PosInfo α) : i.alt empty = i := by
  simp [alt, empty]

theorem alt_comm (i j : PosInfo α) : i.alt j = j.alt i := by
  simp only [alt, Bool.or_comm, union_comm]

theorem lang_alt (hi : i.On s) (hj : j.On t) (hf : ∀ p ∈ s, p ∈ t → Agree i j p) :
    (i.alt j).lang = i.lang + j.lang := by
  ext w
  rw [mem_add]
  cases w with
  | nil => simp [alt]
  | cons p w =>
    simp only [cons_mem_lang]
    have hl : p ∈ i.first → (Chain (i.alt j).follow (i.alt j).last p w ↔ Chain i.follow i.last p w) :=
      fun h => chain_alt hi hj hf (hi.first h)
    have hr : p ∈ j.first → (Chain (i.alt j).follow (i.alt j).last p w ↔ Chain j.follow j.last p w) := by
      intro h
      rw [alt_comm]
      exact chain_alt hj hi (fun q ht hs => (hf q hs ht).symm) (hj.first h)
    have hfirst : p ∈ (i.alt j).first ↔ p ∈ i.first ∨ p ∈ j.first := by simp [alt]
    rw [hfirst]
    constructor
    · rintro ⟨h | h, hc⟩
      · exact .inl ⟨h, (hl h).mp hc⟩
      · exact .inr ⟨h, (hr h).mp hc⟩
    · rintro (⟨h, hc⟩ | ⟨h, hc⟩)
      · exact ⟨.inl h, (hl h).mpr hc⟩
      · exact ⟨.inr h, (hr h).mpr hc⟩

section Cat

variable (hi : i.On s) (hj : j.On t) (hd : Disjoint s t)
include hi hj hd

theorem chain_cat_right (hq : q ∈ t) :
    Chain (i.cat j).follow (i.cat j).last q w ↔ Chain j.follow j.last q w := by
  induction w generalizing q with
  | nil =>
    have hs : q ∉ i.last := fun h => disjoint_left.mp hd (hi.last h) hq
    simp only [Chain, cat, mem_union]
    split_ifs <;> simp [hs]
  | cons r w ih =>
    have hs : q ∉ s := fun h => disjoint_left.mp hd h hq
    have hl : q ∉ i.last := fun h => hs (hi.last h)
    have hf : (i.cat j).follow q = j.follow q := by simp [cat, hi.outside q hs, hl]
    simp only [Chain, hf]
    constructor
    · rintro ⟨h, hc⟩
      exact ⟨h, (ih (hj.follow q h)).mp hc⟩
    · rintro ⟨h, hc⟩
      exact ⟨h, (ih (hj.follow q h)).mpr hc⟩

theorem chain_cat_left (hp : p ∈ s) :
    Chain (i.cat j).follow (i.cat j).last p w ↔
      (j.nullable ∧ Chain i.follow i.last p w) ∨
        ∃ u q v, w = u ++ q :: v ∧ Chain i.follow i.last p u ∧ q ∈ j.first ∧ Chain j.follow j.last q v := by
  induction w generalizing p with
  | nil =>
    have hl : p ∉ j.last := fun h => disjoint_left.mp hd hp (hj.last h)
    simp only [Chain, cat, mem_union, hl, or_false]
    cases j.nullable <;> simp
  | cons r w ih =>
    have ht : p ∉ t := fun h => disjoint_left.mp hd hp h
    have hf : r ∈ (i.cat j).follow p ↔ r ∈ i.follow p ∨ (p ∈ i.last ∧ r ∈ j.first) := by
      simp only [cat, hj.outside p ht, mem_union, notMem_empty, or_false]
      split_ifs with h <;> simp [h]
    simp only [Chain, hf]
    constructor
    · rintro ⟨h | ⟨hl, hr⟩, hc⟩
      · rcases (ih (hi.follow p h)).mp hc with ⟨hn, hc'⟩ | ⟨u, q, v, rfl, hu, hq, hv⟩
        · exact .inl ⟨hn, h, hc'⟩
        · exact .inr ⟨r :: u, q, v, rfl, ⟨h, hu⟩, hq, hv⟩
      · exact .inr ⟨[], r, w, rfl, hl, hr, (chain_cat_right hi hj hd (hj.first hr)).mp hc⟩
    · rintro (⟨hn, h, hc⟩ | ⟨u, q, v, he, hu, hq, hv⟩)
      · exact ⟨.inl h, (ih (hi.follow p h)).mpr (.inl ⟨hn, hc⟩)⟩
      · cases u with
        | nil =>
          obtain ⟨rfl, rfl⟩ := cons.inj he
          exact ⟨.inr ⟨hu, hq⟩, (chain_cat_right hi hj hd (hj.first hq)).mpr hv⟩
        | cons r' u =>
          obtain ⟨rfl, rfl⟩ := cons.inj he
          exact ⟨.inl hu.1, (ih (hi.follow p hu.1)).mpr (.inr ⟨u, q, v, rfl, hu.2, hq, hv⟩)⟩

theorem lang_cat : (i.cat j).lang = i.lang * j.lang := by
  ext w
  rw [mem_mul]
  cases w with
  | nil =>
    constructor
    · intro h
      have hn : i.nullable = true ∧ j.nullable = true := by simpa [cat] using h
      exact ⟨[], hn.1, [], hn.2, rfl⟩
    · rintro ⟨a, ha, b, hb, hab⟩
      obtain ⟨rfl, rfl⟩ := append_eq_nil_iff.mp hab
      rw [nil_mem_lang] at ha hb ⊢
      simp [cat, ha, hb]
  | cons p w =>
    have hfirst : p ∈ (i.cat j).first ↔ p ∈ i.first ∨ (i.nullable = true ∧ p ∈ j.first) := by
      simp only [cat, mem_union]
      split_ifs with h <;> simp [h]
    rw [cons_mem_lang, hfirst]
    constructor
    · rintro ⟨h | ⟨hn, h⟩, hc⟩
      · rcases (chain_cat_left hi hj hd (hi.first h)).mp hc with ⟨hn, hc'⟩ | ⟨u, q, v, rfl, hu, hq, hv⟩
        · exact ⟨p :: w, ⟨h, hc'⟩, [], hn, append_nil _⟩
        · exact ⟨p :: u, ⟨h, hu⟩, q :: v, ⟨hq, hv⟩, rfl⟩
      · exact ⟨[], hn, p :: w, ⟨h, (chain_cat_right hi hj hd (hj.first h)).mp hc⟩, rfl⟩
    · rintro ⟨a, ha, b, hb, hab⟩
      cases a with
      | nil =>
        rw [nil_append] at hab
        subst hab
        exact ⟨.inr ⟨ha, hb.1⟩, (chain_cat_right hi hj hd (hj.first hb.1)).mpr hb.2⟩
      | cons p' a =>
        obtain ⟨rfl, rfl⟩ := cons.inj hab
        refine ⟨.inl ha.1, (chain_cat_left hi hj hd (hi.first ha.1)).mpr ?_⟩
        cases b with
        | nil => exact .inl ⟨hb, by rw [append_eq, append_nil]; exact ha.2⟩
        | cons q b => exact .inr ⟨a, q, b, rfl, ha.2, hb.1, hb.2⟩

end Cat

theorem chain_plus_append (hw : Chain i.follow i.last p w) (hv : ∀ q ∈ i.last, Chain i.plus.follow i.plus.last q v) :
    Chain i.plus.follow i.plus.last p (w ++ v) := by
  induction w generalizing p with
  | nil => exact hv p hw
  | cons q w ih => exact ⟨mem_union_left _ hw.1, ih hw.2⟩

theorem chain_plus_of_kstar (hp : p ∈ i.last) (hw : w ∈ i.lang∗) : Chain i.plus.follow i.plus.last p w := by
  obtain ⟨ws, rfl, hws⟩ := mem_kstar_iff_exists_nonempty.mp hw
  clear hw
  induction ws generalizing p with
  | nil => exact hp
  | cons u ws ih =>
    obtain ⟨hu, hne⟩ := hws u (by simp)
    cases u with
    | nil => exact absurd rfl hne
    | cons q u =>
      refine ⟨mem_union_right _ ?_, ?_⟩
      · rw [if_pos hp]; exact hu.1
      · exact chain_plus_append hu.2 fun r hr => ih hr fun y hy => hws y (mem_cons_of_mem _ hy)

theorem chain_plus : Chain i.plus.follow i.plus.last p w ↔
    ∃ u v, w = u ++ v ∧ Chain i.follow i.last p u ∧ v ∈ i.lang∗ := by
  constructor
  · intro h
    induction w generalizing p with
    | nil => exact ⟨[], [], rfl, h, nil_mem_kstar _⟩
    | cons q w ih =>
      obtain ⟨hq, hc⟩ := h
      obtain ⟨u, v, rfl, hu, hv⟩ := ih hc
      rcases mem_union.mp hq with hq | hq
      · exact ⟨q :: u, v, rfl, ⟨hq, hu⟩, hv⟩
      · -- a new round starts at `q`
        split_ifs at hq with hl
        · refine ⟨[], q :: (u ++ v), rfl, hl, ?_⟩
          have hmem : (q :: u) ++ v ∈ i.lang * i.lang∗ := append_mem_mul ⟨hq, hu⟩ hv
          rw [← one_add_self_mul_kstar_eq_kstar]
          exact Or.inr hmem
        · exact absurd hq (notMem_empty q)
  · rintro ⟨u, v, rfl, hu, hv⟩
    exact chain_plus_append hu fun q hq => chain_plus_of_kstar hq hv

theorem cons_mem_plus : p :: w ∈ i.plus.lang ↔ p :: w ∈ i.lang∗ := by
  rw [cons_mem_lang, chain_plus, cons_mem_kstar]
  constructor
  · rintro ⟨h, u, v, rfl, hu, hv⟩
    exact ⟨u, v, rfl, ⟨h, hu⟩, hv⟩
  · rintro ⟨u, v, rfl, hu, hv⟩
    exact ⟨hu.1, u, v, rfl, hu.2, hv⟩

theorem lang_star (i : PosInfo α) : i.star.lang = i.lang∗ := by
  ext w
  cases w with
  | nil => exact iff_of_true rfl (nil_mem_kstar _)
  | cons p w =>
    change p :: w ∈ i.plus.lang ↔ p :: w ∈ i.lang∗
    exact cons_mem_plus

theorem lang_plus (i : PosInfo α) : i.plus.lang = i.lang * i.lang∗ := by
  ext w
  cases w with
  | nil =>
    rw [mem_mul]
    constructor
    · intro h
      exact ⟨[], h, [], nil_mem_kstar _, rfl⟩
    · rintro ⟨a, ha, b, _, hab⟩
      obtain ⟨rfl, rfl⟩ := append_eq_nil_iff.mp hab
      exact ha
  | cons p w =>
    rw [cons_mem_plus]
    constructor
    · intro h
      obtain ⟨u, v, rfl, hu, hv⟩ := cons_mem_kstar.mp h
      exact append_mem_mul hu hv
    · intro h
      rw [← one_add_self_mul_kstar_eq_kstar]
      exact Or.inr h

end PosInfo

section Subset

def Steps (follow : α → Finset α) : Finset α → List α → α → Prop
  | s, [], q => q ∈ s
  | s, p :: u, q => p ∈ s ∧ Steps follow (follow p) u q

variable {i : PosInfo α} {q : α}

variable {u : List α}

theorem chain_of_steps {p : α} :
    Chain i.follow i.last p (u ++ [q]) ↔ Steps i.follow (i.follow p) u q ∧ q ∈ i.last := by
  induction u generalizing p with
  | nil => rfl
  | cons r u ih => simp only [cons_append, Chain, Steps, ih, and_assoc]

theorem append_mem_lang : u ++ [q] ∈ i.lang ↔ Steps i.follow i.first u q ∧ q ∈ i.last := by
  cases u with
  | nil => rfl
  | cons p u => rw [cons_append, PosInfo.cons_mem_lang, chain_of_steps, Steps, and_assoc]

variable {σ : Type} [DecidableEq α] (i) (R : α → σ → Bool)

def advance (s : Finset α) (c : σ) : Finset α := (s.filter (R · c)).biUnion i.follow

def reach (w : List σ) : Finset α := w.foldl (advance i R) i.first

variable {i R} {s t : Finset α} {w : List σ}

theorem steps_advance {c : σ} :
    Steps i.follow (advance i R s c) u q ↔ ∃ p ∈ s, R p c ∧ Steps i.follow (i.follow p) u q := by
  cases u with
  | nil => simp [Steps, advance, and_assoc]
  | cons r u =>
    simp only [Steps, advance, Finset.mem_biUnion, Finset.mem_filter]
    constructor
    · rintro ⟨⟨p, ⟨hp, hc⟩, hr⟩, hs⟩
      exact ⟨p, hp, hc, hr, hs⟩
    · rintro ⟨p, hp, hc, hr, hs⟩
      exact ⟨⟨p, ⟨hp, hc⟩, hr⟩, hs⟩

theorem mem_foldl_advance : q ∈ w.foldl (advance i R) s ↔
    ∃ u, List.Forall₂ (fun p c => R p c) u w ∧ Steps i.follow s u q := by
  induction w generalizing s with
  | nil => simp [Steps]
  | cons c w ih =>
    rw [foldl_cons, ih]
    simp only [steps_advance]
    constructor
    · rintro ⟨u, hu, p, hp, hc, hs⟩
      exact ⟨p :: u, .cons hc hu, hp, hs⟩
    · rintro ⟨_, hu, hs⟩
      cases hu with
      | cons hc hu => exact ⟨_, hu, _, hs.1, hc, hs.2⟩

theorem mem_reach (hq : q ∈ i.last) :
    q ∈ reach i R w ↔ ∃ u, List.Forall₂ (fun p c => R p c) u w ∧ u ++ [q] ∈ i.lang := by
  simp only [reach, mem_foldl_advance, append_mem_lang, hq, and_true]

theorem advance_subset (hi : i.On t) {c : σ} : advance i R s c ⊆ t :=
  biUnion_subset.mpr fun p _ => hi.follow p

theorem reach_subset (hi : i.On t) : reach i R w ⊆ t := by
  rw [reach]
  induction w using reverseRecOn with
  | nil => exact hi.first
  | append_singleton w c _ =>
    rw [foldl_append]
    exact advance_subset hi

end Subset

section Letters

variable {σ : Type} {R : α → σ → Prop} {l m : Language α}

def readAs (R : α → σ → Prop) (l : Language α) : Language σ := {w | ∃ u ∈ l, List.Forall₂ R u w}

theorem mem_readAs {w : List σ} : w ∈ readAs R l ↔ ∃ u ∈ l, List.Forall₂ R u w := Iff.rfl

theorem readAs_zero : readAs R 0 = 0 := by
  ext w
  exact iff_of_false (fun ⟨u, hu, _⟩ => notMem_zero u hu) (notMem_zero w)

theorem readAs_one : readAs R 1 = 1 := by
  ext w
  simp [mem_readAs, mem_one]

theorem readAs_add : readAs R (l + m) = readAs R l + readAs R m := by
  ext w
  simp only [mem_readAs, mem_add, or_and_right, exists_or]

theorem readAs_mul : readAs R (l * m) = readAs R l * readAs R m := by
  ext w
  simp only [mem_readAs, mem_mul]
  constructor
  · rintro ⟨_, ⟨a, ha, b, hb, rfl⟩, h⟩
    have h₁ := (forall₂_take_append w a b h.flip).flip
    have h₂ := (forall₂_drop_append w a b h.flip).flip
    exact ⟨_, ⟨a, ha, h₁⟩, _, ⟨b, hb, h₂⟩, take_append_drop _ w⟩
  · rintro ⟨w₁, ⟨a, ha, h₁⟩, w₂, ⟨b, hb, h₂⟩, rfl⟩
    exact ⟨a ++ b, ⟨a, ha, b, hb, rfl⟩, rel_append h₁ h₂⟩

theorem readAs_pow (n : ℕ) : readAs R (l ^ n) = readAs R l ^ n := by
  induction n with
  | zero => rw [pow_zero, pow_zero, readAs_one]
  | succ n ih => rw [pow_succ, pow_succ, readAs_mul, ih]

theorem readAs_kstar : readAs R l∗ = (readAs R l)∗ := by
  ext w
  simp only [mem_readAs, kstar_eq_iSup_pow, mem_iSup]
  constructor
  · rintro ⟨u, ⟨n, hu⟩, h⟩
    exact ⟨n, readAs_pow n ▸ mem_readAs.mpr ⟨u, hu, h⟩⟩
  · rintro ⟨n, hw⟩
    rw [← readAs_pow] at hw
    obtain ⟨u, hu, h⟩ := hw
    exact ⟨u, ⟨n, hu⟩, h⟩

theorem readAs_singleton (a : α) : readAs R {[a]} = {w | ∃ c, R a c ∧ w = [c]} := by
  ext w
  constructor
  · rintro ⟨u, hu, h⟩
    rw [Set.mem_singleton_iff.mp hu] at h
    cases h with
    | cons hc ht =>
      cases ht
      exact ⟨_, hc, rfl⟩
  · rintro ⟨c, hc, rfl⟩
    exact ⟨[a], rfl, .cons hc .nil⟩

end Letters

end AppArmor.Glushkov

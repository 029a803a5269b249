import Mathlib.Tactic
import Mathlib.Logic.Relation

namespace PyRe

open List

inductive Item
  | char (c : Char)
  | range (a b : Char)
  deriving DecidableEq

def Item.has : Item → Char → Bool
  | .char c, x => x = c
  | .range a b, x => a ≤ x ∧ x ≤ b

inductive Re
  | eps
  | char (c : Char)
  | any
  | set (neg : Bool) (items : List Item)
  | seq (r s : Re)
  | alt (r s : Re)
  | star (r : Re)
  | plus (r : Re)
  | opt (r : Re)
  | behind (neg : Bool) (c : Char)
  | bol
  | eol
  deriving DecidableEq

structure Place where
  before : List Char
  after : List Char
  deriving DecidableEq

def one (p : Char → Bool) (q : Place) : List Place :=
  match q.after with
  | [] => []
  | c :: s => if p c then [⟨c :: q.before, s⟩] else []

def rounds (f : Place → List Place) : ℕ → Place → List Place
  | 0, p => [p]
  | n + 1, p => p :: ((f p).filter fun q => q.after.length < p.after.length).flatMap (rounds f n)

def setHas (neg : Bool) (items : List Item) (c : Char) : Bool := items.any (·.has c) != neg

def ends : Re → Place → List Place
  | .eps => fun p => [p]
  | .char c => one (· = c)
  | .any => one (· ≠ '\n')
  | .set neg items => one (setHas neg items)
  | .seq r s => fun p => (ends r p).flatMap (ends s)
  | .alt r s => fun p => ends r p ++ ends s p
  | .star r => fun p => rounds (ends r) p.after.length p
  | .plus r => fun p => (ends r p).flatMap fun q => rounds (ends r) q.after.length q
  | .opt r => fun p => ends r p ++ [p]
  | .behind neg c => fun p => if (p.before.head? = some c) ↔ neg = false then [p] else []
  | .bol => fun p => if p.before = [] then [p] else []
  -- before a newline at the end, too
  | .eol => fun p => if p.after = [] ∨ p.after = ['\n'] then [p] else []

def matchStart (r : Re) (s : List Char) : Bool := !(ends r ⟨[], s⟩).isEmpty

section Ends

def Over (p : Place) (w : List Char) (q : Place) : Prop := p.after = w ++ q.after ∧ q.before = w.reverse ++ p.before

variable {p q q' : Place} {w w' : List Char} {r s : Re}

theorem Over.refl (p : Place) : Over p [] p := ⟨rfl, rfl⟩

theorem Over.trans (h : Over p w q) (h' : Over q w' q') : Over p (w ++ w') q' := by
  obtain ⟨ha, hb⟩ := h
  obtain ⟨ha', hb'⟩ := h'
  refine ⟨?_, ?_⟩
  · rw [ha, ha', append_assoc]
  · rw [hb', hb, reverse_append, append_assoc]

theorem Over.eq_nil (h : Over p [] q) : q = p := by
  obtain ⟨ha, hb⟩ := h
  cases p
  cases q
  simp_all

theorem over_append_iff : Over p (w ++ w') q' ↔ ∃ q, Over p w q ∧ Over q w' q' := by
  constructor
  · rintro ⟨ha, hb⟩
    refine ⟨⟨w.reverse ++ p.before, w' ++ q'.after⟩, ⟨?_, rfl⟩, rfl, ?_⟩
    · rw [ha, append_assoc]
    · rw [hb, reverse_append, append_assoc]
  · rintro ⟨q, h, h'⟩
    exact h.trans h'

theorem Over.length (h : Over p w q) : p.after.length = w.length + q.after.length := by
  rw [h.1, length_append]

theorem mem_one {f : Char → Bool} : q ∈ one f p ↔ ∃ c, f c = true ∧ Over p [c] q := by
  obtain ⟨b, a⟩ := p
  obtain ⟨b', a'⟩ := q
  unfold one Over
  cases a with
  | nil => simp
  | cons c a =>
    by_cases hc : f c
    · simp only [hc, if_true, mem_singleton, Place.mk.injEq]
      constructor
      · rintro ⟨rfl, rfl⟩
        exact ⟨c, hc, rfl, rfl⟩
      · rintro ⟨d, -, ha, hb⟩
        obtain ⟨rfl, rfl⟩ := cons.inj ha
        exact ⟨hb, rfl⟩
    · simp only [hc, Bool.false_eq_true, if_false, not_mem_nil, false_iff]
      rintro ⟨d, hd, ha, -⟩
      obtain ⟨rfl, -⟩ := cons.inj ha
      exact hc hd

variable {f : Place → List Place} {neg : Bool} {c : Char}

theorem rounds_over (hf : ∀ p, ∀ q ∈ f p, ∃ w, Over p w q) (n : ℕ) :
    ∀ p, ∀ q ∈ rounds f n p, ∃ w, Over p w q := by
  induction n with
  | zero =>
    intro p q hq
    rw [rounds, mem_singleton] at hq
    exact ⟨[], hq ▸ Over.refl p⟩
  | succ n ih =>
    intro p q hq
    rw [rounds] at hq
    rcases mem_cons.mp hq with rfl | hq
    · exact ⟨[], Over.refl q⟩
    · obtain ⟨q₁, hq₁, hq⟩ := mem_flatMap.mp hq
      obtain ⟨w, hw⟩ := hf p q₁ (mem_of_mem_filter hq₁)
      obtain ⟨w', hw'⟩ := ih q₁ q hq
      exact ⟨w ++ w', hw.trans hw'⟩

theorem ends_over (r : Re) : ∀ p, ∀ q ∈ ends r p, ∃ w, Over p w q := by
  have hone : ∀ f p, ∀ q ∈ one f p, ∃ w, Over p w q := by
    intro f p q hq
    obtain ⟨c, -, hc⟩ := mem_one.mp hq
    exact ⟨[c], hc⟩
  have hsame : ∀ {c : Prop} [Decidable c] (p : Place), ∀ q ∈ (if c then [p] else []), ∃ w, Over p w q := by
    intro c _ p q hq
    split_ifs at hq
    · rw [mem_singleton.mp hq]
      exact ⟨[], Over.refl p⟩
    · cases hq
  induction r with
  | eps =>
    intro p q hq
    rw [mem_singleton.mp hq]
    exact ⟨[], Over.refl p⟩
  | char c | any | set neg items => exact hone _
  | seq r s ihr ihs =>
    intro p q hq
    obtain ⟨q₁, hq₁, hq⟩ := mem_flatMap.mp hq
    obtain ⟨w, hw⟩ := ihr p q₁ hq₁
    obtain ⟨w', hw'⟩ := ihs q₁ q hq
    exact ⟨w ++ w', hw.trans hw'⟩
  | alt r s ihr ihs =>
    intro p q hq
    rcases mem_append.mp hq with hq | hq
    · exact ihr p q hq
    · exact ihs p q hq
  | star r ih => exact fun p => rounds_over ih p.after.length p
  | plus r ih =>
    intro p q hq
    obtain ⟨q₁, hq₁, hq⟩ := mem_flatMap.mp hq
    obtain ⟨w, hw⟩ := ih p q₁ hq₁
    obtain ⟨w', hw'⟩ := rounds_over ih q₁.after.length q₁ q hq
    exact ⟨w ++ w', hw.trans hw'⟩
  | opt r ih =>
    intro p q hq
    rcases mem_append.mp hq with hq | hq
    · exact ih p q hq
    · rw [mem_singleton.mp hq]
      exact ⟨[], Over.refl p⟩
  | behind neg c | bol | eol => exact fun p q hq => hsame p q hq

theorem mem_rounds (hf : ∀ p, ∀ q ∈ f p, ∃ w, Over p w q) {n : ℕ} (hn : p.after.length ≤ n) :
    q ∈ rounds f n p ↔ Relation.ReflTransGen (fun a b => b ∈ f a) p q := by
  constructor
  · intro hq
    clear hn
    induction n generalizing p with
    | zero => rw [mem_singleton.mp hq]
    | succ n ih =>
      rw [rounds] at hq
      rcases mem_cons.mp hq with rfl | hq
      · exact Relation.ReflTransGen.refl
      · obtain ⟨q₁, hq₁, hq⟩ := mem_flatMap.mp hq
        exact Relation.ReflTransGen.head (mem_of_mem_filter hq₁) (ih hq)
  · intro h
    induction h using Relation.ReflTransGen.head_induction_on generalizing n with
    | refl => cases n <;> simp [rounds]
    | @head p p₁ hstep _ ih =>
      obtain ⟨w, hw⟩ := hf p p₁ hstep
      have hlen := hw.length
      by_cases hnil : w = []
      · -- a round that does not get on changes nothing
        subst hnil
        rw [← hw.eq_nil]
        apply ih
        rw [hw.eq_nil]
        exact hn
      · have hpos : 0 < w.length := length_pos_of_ne_nil hnil
        obtain ⟨n, rfl⟩ : ∃ m, n = m + 1 := ⟨n - 1, by omega⟩
        rw [rounds]
        refine mem_cons_of_mem _ (mem_flatMap.mpr ⟨p₁, mem_filter.mpr ⟨hstep, ?_⟩, ih (by omega)⟩)
        simp only [decide_eq_true_eq]
        omega

theorem mem_ends_star : q ∈ ends (.star r) p ↔ Relation.ReflTransGen (fun a b => b ∈ ends r a) p q :=
  mem_rounds (ends_over r) le_rfl

theorem mem_ends_seq : q ∈ ends (.seq r s) p ↔ ∃ q₁ ∈ ends r p, q ∈ ends s q₁ := mem_flatMap

theorem mem_ends_alt : q ∈ ends (.alt r s) p ↔ q ∈ ends r p ∨ q ∈ ends s p := mem_append

theorem mem_ends_plus : q ∈ ends (.plus r) p ↔ ∃ q₁ ∈ ends r p, q ∈ ends (.star r) q₁ := mem_flatMap

theorem mem_ends_char : q ∈ ends (.char c) p ↔ Over p [c] q := by
  refine mem_one.trans ⟨?_, fun h => ⟨c, by simp, h⟩⟩
  rintro ⟨d, hd, h⟩
  simp only [decide_eq_true_eq] at hd
  exact hd ▸ h

theorem mem_ends_behind :
    q ∈ ends (.behind neg c) p ↔ q = p ∧ (p.before.head? = some c ↔ neg = false) := by
  unfold ends
  split_ifs with h
  · simp [h]
  · simp [h]

theorem mem_ends_bol : q ∈ ends .bol p ↔ q = p ∧ p.before = [] := by
  unfold ends
  split_ifs with h
  · simp [h]
  · simp [h]

theorem mem_ends_eol : q ∈ ends .eol p ↔ q = p ∧ (p.after = [] ∨ p.after = ['\n']) := by
  unfold ends
  split_ifs with h
  · simp [h]
  · simp [h]

variable {g : Char → Bool}

theorem mem_star_one (hr : ends r = one g) : q ∈ ends (.star r) p ↔ ∃ w, (∀ c ∈ w, g c = true) ∧ Over p w q := by
  rw [mem_ends_star, hr]
  constructor
  · intro h
    induction h using Relation.ReflTransGen.head_induction_on with
    | refl => exact ⟨[], by simp, Over.refl q⟩
    | head hstep _ ih =>
      obtain ⟨c, hc, hover⟩ := mem_one.mp hstep
      obtain ⟨w, hw, hover'⟩ := ih
      exact ⟨c :: w, forall_mem_cons.mpr ⟨hc, hw⟩, hover.trans hover'⟩
  · rintro ⟨w, hw, hover⟩
    induction w generalizing p with
    | nil => rw [hover.eq_nil]
    | cons c w ih =>
      obtain ⟨hc, hw⟩ := forall_mem_cons.mp hw
      obtain ⟨m, h₁, h₂⟩ := over_append_iff.mp (show Over p ([c] ++ w) q from hover)
      exact Relation.ReflTransGen.head (mem_one.mpr ⟨c, hc, h₁⟩) (ih hw h₂)

theorem mem_plus_one (hr : ends r = one g) :
    q ∈ ends (.plus r) p ↔ ∃ w, w ≠ [] ∧ (∀ c ∈ w, g c = true) ∧ Over p w q := by
  rw [mem_ends_plus]
  constructor
  · rintro ⟨m, hm, hq⟩
    rw [hr] at hm
    obtain ⟨c, hc, hover⟩ := mem_one.mp hm
    obtain ⟨w, hw, hover'⟩ := (mem_star_one hr).mp hq
    exact ⟨c :: w, cons_ne_nil c w, forall_mem_cons.mpr ⟨hc, hw⟩, hover.trans hover'⟩
  · rintro ⟨w, hne, hw, hover⟩
    obtain ⟨c, w, rfl⟩ := exists_cons_of_ne_nil hne
    obtain ⟨hc, hw⟩ := forall_mem_cons.mp hw
    obtain ⟨m, h₁, h₂⟩ := over_append_iff.mp (show Over p ([c] ++ w) q from hover)
    exact ⟨m, by rw [hr]; exact mem_one.mpr ⟨c, hc, h₁⟩, (mem_star_one hr).mpr ⟨w, hw, h₂⟩⟩

def Place.withNewline (p : Place) : Place := ⟨p.before, p.after ++ ['\n']⟩

theorem Over.withNewline (h : Over p w q) : Over p.withNewline w q.withNewline := by
  obtain ⟨ha, hb⟩ := h
  refine ⟨?_, hb⟩
  change p.after ++ ['\n'] = w ++ (q.after ++ ['\n'])
  rw [ha, append_assoc]

theorem Over.notMem (h : Over p w q) (hc : c ∉ p.after) : c ∉ q.after := by
  rw [h.1, mem_append, not_or] at hc
  exact hc.2

theorem notMem_of_ends (h : q ∈ ends r p) (hc : c ∉ p.after) : c ∉ q.after := by
  obtain ⟨w, hw⟩ := ends_over r p q h
  exact hw.notMem hc

theorem ends_withNewline (r : Re) : ∀ p q, '\n' ∉ p.after → q ∈ ends r p → q.withNewline ∈ ends r p.withNewline := by
  have hone : ∀ (f : Char → Bool) (p q : Place), q ∈ one f p → q.withNewline ∈ one f p.withNewline := by
    intro f p q hq
    obtain ⟨c, hc, hover⟩ := mem_one.mp hq
    exact mem_one.mpr ⟨c, hc, hover.withNewline⟩
  have hstar : ∀ r, (∀ p q, '\n' ∉ p.after → q ∈ ends r p → q.withNewline ∈ ends r p.withNewline) →
      ∀ p q, '\n' ∉ p.after → q ∈ ends (.star r) p → q.withNewline ∈ ends (.star r) p.withNewline := by
    intro r ih p q hp hq
    rw [mem_ends_star] at hq ⊢
    induction hq using Relation.ReflTransGen.head_induction_on with
    | refl => exact Relation.ReflTransGen.refl
    | head hstep _ ihr => exact Relation.ReflTransGen.head (ih _ _ hp hstep) (ihr (notMem_of_ends hstep hp))
  induction r with
  | eps =>
    intro p q _ hq
    rw [mem_singleton.mp hq]
    exact mem_singleton_self _
  | char c | any | set neg items => exact fun p q _ => hone _ p q
  | seq r s ihr ihs =>
    intro p q hp hq
    obtain ⟨q₁, hq₁, hq⟩ := mem_ends_seq.mp hq
    exact mem_ends_seq.mpr ⟨_, ihr p q₁ hp hq₁, ihs q₁ q (notMem_of_ends hq₁ hp) hq⟩
  | alt r s ihr ihs =>
    intro p q hp hq
    rw [mem_ends_alt] at hq ⊢
    exact hq.imp (ihr p q hp) (ihs p q hp)
  | star r ih => exact hstar r ih
  | plus r ih =>
    intro p q hp hq
    obtain ⟨q₁, hq₁, hq⟩ := mem_ends_plus.mp hq
    exact mem_ends_plus.mpr ⟨_, ih p q₁ hp hq₁, hstar r ih q₁ q (notMem_of_ends hq₁ hp) hq⟩
  | opt r ih =>
    intro p q hp hq
    rcases mem_append.mp hq with hq | hq
    · exact mem_append_left _ (ih p q hp hq)
    · rw [mem_singleton.mp hq]
      exact mem_append_right _ (mem_singleton_self _)
  | behind neg c =>
    intro p q _ hq
    obtain ⟨rfl, hb⟩ := mem_ends_behind.mp hq
    exact mem_ends_behind.mpr ⟨rfl, hb⟩
  | bol =>
    intro p q _ hq
    unfold ends at hq ⊢
    split_ifs at hq with hb
    · rw [mem_singleton.mp hq, if_pos (show p.withNewline.before = [] from hb)]
      exact mem_singleton_self _
    · cases hq
  | eol =>
    intro p q hp hq
    unfold ends at hq ⊢
    split_ifs at hq with ha
    · have hnil : p.after = [] := by
        rcases ha with ha | ha
        · exact ha
        · simp [ha] at hp
      have hafter : p.withNewline.after = ['\n'] := by rw [Place.withNewline, hnil]; rfl
      rw [mem_singleton.mp hq, if_pos (Or.inr hafter)]
      exact mem_singleton_self _
    · cases hq

theorem matchStart_withNewline {t : List Char} (h : '\n' ∉ t) (hm : matchStart r t = true) :
    matchStart r (t ++ ['\n']) = true := by
  rw [matchStart, Bool.not_eq_true', isEmpty_eq_false_iff_exists_mem] at hm ⊢
  obtain ⟨q, hq⟩ := hm
  exact ⟨q.withNewline, ends_withNewline r ⟨[], t⟩ q h hq⟩

end Ends

inductive Token
  | char (c : Char)
  | any
  | set (neg : Bool) (items : List Item)
  | star
  | plus
  | opt
  | openGroup
  | bar
  | closeGroup
  | behind (neg : Bool) (c : Char)
  | bol
  | eol
  deriving DecidableEq

inductive Mode
  | text
  | set (neg : Bool) (items : List Item)

@[grind =]
def lex : Mode → List Char → Option (List Token)
  | .text, [] => some []
  | .text, '\\' :: c :: s => if c.isAlphanum then none else (lex .text s).map (.char c :: ·)
  | .text, ['\\'] => none
  | .text, '[' :: '^' :: ']' :: s => lex (.set true [.char ']']) s
  | .text, '[' :: '^' :: s => lex (.set true []) s
  | .text, '[' :: ']' :: s => lex (.set false [.char ']']) s
  | .text, '[' :: s => lex (.set false []) s
  | .text, '(' :: '?' :: '<' :: '=' :: c :: ')' :: s => (lex .text s).map (.behind false c :: ·)
  | .text, '(' :: '?' :: '<' :: '!' :: c :: ')' :: s => (lex .text s).map (.behind true c :: ·)
  | .text, '(' :: '?' :: _ => none
  | .text, '(' :: s => (lex .text s).map (.openGroup :: ·)
  | .text, ')' :: s => (lex .text s).map (.closeGroup :: ·)
  | .text, '|' :: s => (lex .text s).map (.bar :: ·)
  | .text, '*' :: s => (lex .text s).map (.star :: ·)
  | .text, '+' :: s => (lex .text s).map (.plus :: ·)
  | .text, '?' :: s => (lex .text s).map (.opt :: ·)
  | .text, '^' :: s => (lex .text s).map (.bol :: ·)
  | .text, '$' :: s => (lex .text s).map (.eol :: ·)
  | .text, '.' :: s => (lex .text s).map (.any :: ·)
  | .text, '{' :: _ => none
  | .text, c :: s => (lex .text s).map (.char c :: ·)
  | .set _ _, [] => none
  | .set neg items, ']' :: s => (lex .text s).map (.set neg items.reverse :: ·)
  | .set neg items, '\\' :: c :: s =>
    if c.isAlphanum ∨ s.head? = some '-' then none else lex (.set neg (.char c :: items)) s
  | .set neg items, a :: '-' :: ']' :: s => (lex .text s).map (.set neg (items.reverse ++ [.char a, .char '-']) :: ·)
  | .set neg items, a :: '-' :: b :: s => if b = '\\' ∨ b < a then none else lex (.set neg (.range a b :: items)) s
  | .set neg items, a :: s => lex (.set neg (.char a :: items)) s

/-- A group under construction: the alternatives before the last bar, what comes after it, and its last item, which can
still be repeated. -/
structure Frame where
  alts : Option Re
  terms : Re
  last : Option Re

namespace Frame

def empty : Frame := ⟨none, .eps, none⟩

def flush (f : Frame) : Re :=
  match f.last with
  | none => f.terms
  | some r => .seq f.terms r

def add (f : Frame) (r : Re) : Frame := ⟨f.alts, f.flush, some r⟩

def close (f : Frame) (r : Re) : Frame := ⟨f.alts, .seq f.flush r, none⟩

def re (f : Frame) : Re :=
  match f.alts with
  | none => f.flush
  | some r => .alt r f.flush

def quantify (f : Frame) (g : Re → Re) : Option Frame := f.last.map fun r => ⟨f.alts, .seq f.terms (g r), none⟩

end Frame

def read : List Token → (outer : List Frame) → Frame → Option Re
  | [], [], f => some f.re
  | [], _ :: _, _ => none
  | .char c :: ts, outer, f => read ts outer (f.add (.char c))
  | .any :: ts, outer, f => read ts outer (f.add .any)
  | .set neg items :: ts, outer, f => read ts outer (f.add (.set neg items))
  | .star :: ts, outer, f => (f.quantify .star).bind (read ts outer)
  | .plus :: ts, outer, f => (f.quantify .plus).bind (read ts outer)
  | .opt :: ts, outer, f => (f.quantify .opt).bind (read ts outer)
  | .openGroup :: ts, outer, f => read ts (f :: outer) .empty
  | .bar :: ts, outer, f => read ts outer ⟨some f.re, .eps, none⟩
  | .closeGroup :: _, [], _ => none
  | .closeGroup :: ts, g :: outer, f => read ts outer (g.add f.re)
  | .behind neg c :: ts, outer, f => read ts outer (f.close (.behind neg c))
  | .bol :: ts, outer, f => read ts outer (f.close .bol)
  | .eol :: ts, outer, f => read ts outer (f.close .eol)

def compile (text : List Char) : Option Re := (lex .text text).bind fun ts => read ts [] .empty

section Lex

variable {a b c : Char} {s : List Char} {neg : Bool} {items : List Item}

theorem lex_char (h : c ∉ ['\\', '[', '(', ')', '|', '*', '+', '?', '^', '$', '.', '{']) :
    lex .text (c :: s) = (lex .text s).map (.char c :: ·) := by
  simp only [mem_cons, not_mem_nil, or_false, not_or] at h
  rw [lex] <;> simp_all

theorem lex_quoted (h : c.isAlphanum = false) : lex .text ('\\' :: c :: s) = (lex .text s).map (.char c :: ·) := by
  rw [lex, if_neg (by rw [h]; decide)]

end Lex

end PyRe

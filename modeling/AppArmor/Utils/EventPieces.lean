import AppArmor.Utils.Aare
import Mathlib

namespace AppArmor

open List Option

def aareEscapeChars : List Char := ['\\', '?', '*', '[', ']', '{', '}', '"', '!']

def convertExpressionToAare (expression : Text) : Text :=
  aareEscapeChars.foldl (fun expression char => replaceText [char] ['\\', char] expression) expression

def quoteChars (l : List Char) (c : Char) : Text := if c ∈ l then ['\\', c] else [c]

section Quote

variable {l : List Char} {s : Text}

theorem replaceText_quoteChars {c : Char} (hb : '\\' ≠ c) (hc : c ∉ l) (s : Text) :
    replaceText [c] ['\\', c] (s.flatMap (quoteChars l)) = s.flatMap (quoteChars (l ++ [c])) := by
  rw [replaceText_single, flatMap_assoc]
  apply flatMap_congr
  intro x _
  by_cases hx : x ∈ l
  · have hxc : x ≠ c := fun h => hc (h ▸ hx)
    simp [quoteChars, hx, hb, hxc]
  · by_cases hxc : x = c
    · simp [quoteChars, hxc, hc]
    · simp [quoteChars, hx, hxc]

theorem convertExpressionToAare_eq (s : Text) : convertExpressionToAare s = s.flatMap (quoteChars aareEscapeChars) := by
  have hfirst : replaceText ['\\'] ['\\', '\\'] s = s.flatMap (quoteChars ['\\']) := by
    rw [replaceText_single]
    apply flatMap_congr
    intro c _
    by_cases hc : c = '\\'
    · simp [quoteChars, hc]
    · simp [quoteChars, hc]
  simp only [convertExpressionToAare, aareEscapeChars, foldl_cons, foldl_nil, hfirst]
  rw [replaceText_quoteChars (by decide) (by decide), replaceText_quoteChars (by decide) (by decide),
    replaceText_quoteChars (by decide) (by decide), replaceText_quoteChars (by decide) (by decide),
    replaceText_quoteChars (by decide) (by decide), replaceText_quoteChars (by decide) (by decide),
    replaceText_quoteChars (by decide) (by decide), replaceText_quoteChars (by decide) (by decide)]
  rfl

theorem getLast?_quoteChars (l : List Char) (s : Text) : (s.flatMap (quoteChars l)).getLast? = s.getLast? := by
  rcases eq_nil_or_concat' s with rfl | ⟨s, c, rfl⟩
  · rfl
  · rw [flatMap_append, flatMap_singleton, getLast?_concat, getLast?_append]
    by_cases hc : c ∈ l
    · simp [quoteChars, hc]
    · simp [quoteChars, hc]

theorem head?_quoteChars {c : Char} (hc : (s.flatMap (quoteChars l)).head? = some c) : c = '\\' ∨ s.head? = some c := by
  cases s with
  | nil => cases hc
  | cons x s =>
    rw [flatMap_cons, quoteChars] at hc
    split_ifs at hc
    · exact .inl (some.inj hc).symm
    · exact .inr hc

theorem convertExpressionToAare_self (h : ∀ c ∈ s, c ∉ aareEscapeChars) : convertExpressionToAare s = s := by
  rw [convertExpressionToAare_eq]
  calc s.flatMap (quoteChars aareEscapeChars) = s.flatMap (fun c => [c]) :=
        flatMap_congr fun c hc => if_neg (h c hc)
    _ = s := flatMap_singleton' s

theorem replaceText_absent {old : Text} (new : Text) (h : ¬ old <:+: s) : replaceText old new s = s := by
  unfold replaceText
  induction s with
  | nil => rfl
  | cons c s ih =>
    rw [infix_cons_iff, not_or] at h
    rw [replaceFrom_other new h.1, ih h.2]

theorem infix_of_append {c : Char} {w t : Text} (hc : c ∉ t) (h : c :: w <:+: t ++ s) : c :: w <:+: s := by
  induction t with
  | nil => exact h
  | cons d t ih =>
    rw [mem_cons, not_or] at hc
    rw [cons_append, infix_cons_iff, cons_prefix_cons] at h
    exact ih hc.2 (h.resolve_left fun hpre => hc.1 hpre.1)

end Quote

/-! ### The parts of an expression -/

/-- The parts of the expression that is made of a text: `lit c` matches `c`, and the other parts are operators that the text
turns into, or anchors that are added to it. -/
inductive EventPiece
  | lit (c : Char)
  | any
  | plus
  | bol (source : Text)
  | eol (source : Text)
  | bar
  | quest
  | star
  deriving DecidableEq

def specialChars : List Char := ['.', '+', '$']

def expressionQuoted : List Char := aareEscapeChars ++ ['(', ')'] ++ specialChars

def questText : Text := "[^/\x00]".toList

def starText : Text := "(((?<=/)[^/\x00]+)|((?<!/)[^/\x00]*))".toList

namespace EventPiece

def source : EventPiece → Text
  | lit c => [c]
  | any => ['.']
  | plus => ['\\', '+']
  | bol source | eol source => source
  | bar => ['|']
  | quest => ['?']
  | star => ['*']

/-- The text before the wildcards are replaced. -/
def draft : EventPiece → Text
  | lit c => quoteChars expressionQuoted c
  | any => ['.']
  | plus => ['\\', '\\', '+']
  | bol _ => ['^']
  | eol _ => ['$']
  | bar => ['|']
  | quest => ['\\', '?']
  | star => ['\\', '*']

def text : EventPiece → Text
  | quest => '\\' :: questText
  | star => '\\' :: starText
  | x => x.draft

def Literal : EventPiece → Prop
  | lit _ => True
  | _ => False

def Fair : EventPiece → Prop
  | lit c => c ∉ ['?', '*', '^', '|']
  | bol source | eol source => source ≠ []
  | _ => True

def ofChar (c : Char) : EventPiece :=
  if c = '?' then quest else if c = '*' then star else if c = '^' then bol ['^'] else if c = '|' then bar else lit c

end EventPiece

open EventPiece

def eventPieces : Text → List EventPiece
  | [] => []
  | '\\' :: '.' :: s => lit '\\' :: any :: eventPieces s
  | '\\' :: '+' :: s => plus :: eventPieces s
  | '\\' :: '$' :: s => lit '\\' :: eol ['$'] :: eventPieces s
  | c :: s => ofChar c :: eventPieces s

section Pieces

variable {s : Text}

theorem source_eventPieces (s : Text) : (eventPieces s).flatMap source = s := by
  fun_induction eventPieces s with
  | case1 => rfl
  | case2 s ih | case4 s ih =>
    rw [flatMap_cons, flatMap_cons, ih]
    rfl
  | case3 s ih =>
    rw [flatMap_cons, ih]
    rfl
  | case5 c s _ _ _ ih =>
    have hc : (ofChar c).source = [c] := by
      unfold ofChar
      split_ifs with h h h h
      · rw [h]; rfl
      · rw [h]; rfl
      · rw [h]; rfl
      · rw [h]; rfl
      · rfl
    rw [flatMap_cons, ih, hc]
    rfl

theorem fair_ofChar (c : Char) : (ofChar c).Fair := by
  unfold ofChar
  split_ifs with h₁ h₂ h₃ h₄
  · trivial
  · trivial
  · exact cons_ne_nil _ _
  · trivial
  · simp [Fair, h₁, h₂, h₃, h₄]

theorem fair_eventPieces (s : Text) : ∀ x ∈ eventPieces s, x.Fair := by
  fun_induction eventPieces s with
  | case1 => exact fun x hx => absurd hx not_mem_nil
  | case2 s ih => exact forall_mem_cons.mpr ⟨(by decide : _ ∉ _), forall_mem_cons.mpr ⟨trivial, ih⟩⟩
  | case4 s ih => exact forall_mem_cons.mpr ⟨(by decide : _ ∉ _), forall_mem_cons.mpr ⟨cons_ne_nil _ _, ih⟩⟩
  | case3 s ih => exact forall_mem_cons.mpr ⟨trivial, ih⟩
  | case5 c s _ _ _ ih => exact forall_mem_cons.mpr ⟨fair_ofChar c, ih⟩

theorem draft_ofChar {c : Char} (hc : c ∉ specialChars) : (ofChar c).draft = quoteChars (aareEscapeChars ++ ['(', ')']) c := by
  unfold ofChar
  split_ifs with h₁ h₂ h₃ h₄
  · subst h₁; decide
  · subst h₂; decide
  · subst h₃; decide
  · subst h₄; decide
  · simp only [draft, quoteChars, expressionQuoted, mem_append, hc, or_false]

theorem escapeSpecial_plain {c : Char} {prev : Option Char} (h : c ∉ specialChars ∨ prev = some '\\') :
    escapeSpecial prev (c :: s) = c :: escapeSpecial (some c) s := by
  rw [escapeSpecial, if_neg]
  exact fun hc => h.elim (fun hno => hno hc.1) fun hprev => hc.2 hprev

theorem escapeSpecial_slash (prev : Option Char) (c : Char) (s : Text) :
    escapeSpecial prev ('\\' :: '\\' :: c :: s) = '\\' :: '\\' :: c :: escapeSpecial (some c) s := by
  rw [escapeSpecial_plain (.inl (by decide)), escapeSpecial_plain (.inl (by decide)), escapeSpecial_plain (.inr rfl)]

theorem escapeSpecial_event {prev : Option Char} (hprev : prev = some '\\' → ∀ c, s.head? = some c → c ∉ specialChars) :
    escapeSpecial prev (s.flatMap (quoteChars (aareEscapeChars ++ ['(', ')']))) = (eventPieces s).flatMap draft := by
  fun_induction eventPieces s generalizing prev with
  | case1 => rfl
  | case2 s ih | case3 s ih | case4 s ih =>
    exact (escapeSpecial_slash prev _ (s.flatMap _)).trans
      (congrArg ('\\' :: '\\' :: _ :: ·) (ih fun h => absurd h (by decide)))
  | case5 c s h₁ h₂ h₃ ih =>
    have hrest : escapeSpecial (some c) (s.flatMap (quoteChars (aareEscapeChars ++ ['(', ')']))) = (eventPieces s).flatMap draft := by
      apply ih
      intro hc d hd hmem
      obtain ⟨s', rfl⟩ := head?_eq_some_iff.mp hd
      simp only [specialChars, mem_cons, not_mem_nil, or_false] at hmem
      rcases hmem with rfl | rfl | rfl
      · exact h₁ s' (some.inj hc) rfl
      · exact h₂ s' (some.inj hc) rfl
      · exact h₃ s' (some.inj hc) rfl
    rw [flatMap_cons, flatMap_cons, ← hrest]
    by_cases hspecial : c ∈ specialChars
    · have hp : prev ≠ some '\\' := fun hp => hprev hp c rfl hspecial
      have hquote : quoteChars (aareEscapeChars ++ ['(', ')']) c = [c] ∧ (ofChar c).draft = ['\\', c] := by
        simp only [specialChars, mem_cons, not_mem_nil, or_false] at hspecial
        rcases hspecial with rfl | rfl | rfl <;> decide
      rw [hquote.1, hquote.2, cons_append, nil_append, escapeSpecial, if_pos ⟨hspecial, hp⟩]
      rfl
    · rw [draft_ofChar hspecial, quoteChars]
      split_ifs with hc
      · rw [cons_append, cons_append, nil_append, escapeSpecial_plain (.inl (by decide)), escapeSpecial_plain (.inr rfl)]
        rfl
      · rw [cons_append, nil_append, escapeSpecial_plain (.inl hspecial)]
        rfl

end Pieces

/-! ### Braces -/

/-- A line with a brace and a closing one behind it has a newline before or behind them. -/
def Unpaired (s : Text) : Prop := ∀ a b c, s = a ++ '{' :: (b ++ '}' :: c) → '}' ∉ b → '\n' ∈ a ∨ '\n' ∈ c

def isBraceOrLine (c : Char) : Bool := c ∈ ['{', '}', '\n']

section Braces

variable {s t prev p after : Text}

theorem regexParen_some {s : Text} (h : regexParen s = some (prev, p, after)) :
    ∃ rest, s = prev ++ '{' :: (p ++ '}' :: rest) ∧ '\n' ∉ prev ∧ '}' ∉ p ∧ restOfLine rest = some after := by
  induction s generalizing prev with
  | nil => cases h
  | cons x s ih =>
    rw [regexParen] at h
    split at h
    · next prev' p' after' heq =>
      cases h
      by_cases hx : x = '\n'
      · rw [if_pos hx] at heq
        cases heq
      · rw [if_neg hx] at heq
        obtain ⟨rest, rfl, hprev, hrest⟩ := ih heq
        exact ⟨rest, rfl, not_mem_cons_of_ne_of_not_mem (Ne.symm hx) hprev, hrest⟩
    · split_ifs at h with hopen
      obtain ⟨after', hafter, heq⟩ := map_eq_some_iff.mp h
      cases heq
      have hclose : (s.dropWhile (· ≠ '}')) = '}' :: (s.dropWhile (· ≠ '}')).tail := by
        cases hd : s.dropWhile (· ≠ '}') with
        | nil =>
          rw [dropWhile_eq_nil_iff] at hd
          exact absurd (hd '}' hopen.2) (by decide)
        | cons y rest =>
          have hy := head?_dropWhile_not (· ≠ '}') s
          rw [hd] at hy
          simp at hy
          rw [hy]
          rfl
      refine ⟨(s.dropWhile (· ≠ '}')).tail, ?_, not_mem_nil, fun hmem => ?_, hafter⟩
      · rw [← hclose, takeWhile_append_dropWhile, hopen.1]
        rfl
      · exact absurd (mem_takeWhile_imp hmem) (by decide)

theorem unpaired_filter (h : Unpaired s) : Unpaired (s.filter isBraceOrLine) := by
  rintro a b c heq hb
  obtain ⟨a, s₁, rfl, rfl, h₁⟩ := filter_eq_append_iff.mp heq
  obtain ⟨a', s₂, rfl, ha', -, h₂⟩ := filter_eq_cons_iff.mp h₁
  obtain ⟨b, s₃, rfl, rfl, h₃⟩ := filter_eq_append_iff.mp h₂
  obtain ⟨b', c, rfl, hb', -, rfl⟩ := filter_eq_cons_iff.mp h₃
  have hnot : '}' ∉ b ++ b' := by
    rw [mem_append, not_or]
    exact ⟨fun hmem => hb (mem_filter.mpr ⟨hmem, rfl⟩), fun hmem => hb' _ hmem rfl⟩
  refine (h (a ++ a') (b ++ b') c (by simp) hnot).imp (fun hmem => ?_) fun hmem => mem_filter.mpr ⟨hmem, rfl⟩
  exact mem_filter.mpr ⟨(mem_append.mp hmem).resolve_right fun hmem => ha' _ hmem rfl, rfl⟩

theorem unpaired_of_filter (h : Unpaired (s.filter isBraceOrLine)) : Unpaired s := by
  rintro a b c rfl hb
  have hline := h (a.filter isBraceOrLine) (b.filter isBraceOrLine) (c.filter isBraceOrLine) (by simp [isBraceOrLine])
    fun hmem => hb (mem_of_mem_filter hmem)
  exact hline.imp mem_of_mem_filter mem_of_mem_filter

theorem regexParen_none (h : Unpaired s) (hlast : s.getLast? ≠ some '\n') : regexParen s = none := by
  by_contra hsome
  obtain ⟨⟨prev, p, after⟩, hfound⟩ := Option.ne_none_iff_exists'.mp hsome
  obtain ⟨rest, rfl, hprev, hp, hrest⟩ := regexParen_some hfound
  have hline := (h prev p rest rfl hp).resolve_left hprev
  rw [restOfLine, if_neg (not_not.mpr hline)] at hrest
  split_ifs at hrest with hend
  obtain ⟨t, rfl⟩ := getLast?_eq_some_iff.mp hend.2
  exact hlast (getLast?_eq_some_iff.mpr ⟨prev ++ '{' :: (p ++ '}' :: t), by simp⟩)

end Braces

/-! ### Wildcards -/

section Wildcards

variable {ps : List EventPiece}

theorem replaced_quoteChars {c : Char} (hc : (lit c).Fair) :
    ((quoteChars expressionQuoted c).flatMap fun c => if c = '?' then questText else [c]) = quoteChars expressionQuoted c ∧
      ((quoteChars expressionQuoted c).flatMap fun c => if c = '*' then starText else [c]) = quoteChars expressionQuoted c := by
  simp only [Fair, mem_cons, not_mem_nil, or_false, not_or] at hc
  unfold quoteChars
  split_ifs <;> simp [hc]

def EventPiece.wild (x : EventPiece) : Text := if x = quest then x.text else x.draft

theorem replaceText_quest (hfair : ∀ x ∈ ps, x.Fair) : replaceText ['?'] questText (ps.flatMap draft) = ps.flatMap wild := by
  rw [replaceText_single, flatMap_assoc]
  refine flatMap_congr fun x hx => ?_
  cases x with
  | lit c => exact (replaced_quoteChars (hfair _ hx)).1
  | any | plus | bol | eol | bar | star => rfl
  | quest => decide +kernel

/-- A piece starts with another character than `*`, and only the star has one. -/
theorem wild_cons {x : EventPiece} (hx : x.Fair) : ∃ c t, x.wild = c :: t ∧ c ≠ '*' ∧ (x ≠ star → '*' ∉ t) := by
  cases x with
  | lit c =>
    have hc : c ≠ '*' := by
      rintro rfl
      exact hx (by decide)
    change ∃ d t, quoteChars expressionQuoted c = d :: t ∧ d ≠ '*' ∧ (_ → '*' ∉ t)
    unfold quoteChars
    split_ifs
    · exact ⟨'\\', [c], rfl, by decide, fun _ => by simp [Ne.symm hc]⟩
    · exact ⟨c, [], rfl, hc, fun _ => not_mem_nil⟩
  | star => exact ⟨'\\', ['*'], rfl, by decide, fun h => absurd rfl h⟩
  | any | plus | bol | eol | bar | quest => exact ⟨_, _, rfl, by decide, fun _ => by decide +kernel⟩

theorem stars_absent (hfair : ∀ x ∈ ps, x.Fair) : ¬ ['*', '*'] <:+: ps.flatMap wild := by
  induction ps with
  | nil => decide
  | cons x ps ih =>
    obtain ⟨hx, hrest⟩ := forall_mem_cons.mp hfair
    obtain ⟨c, t, hwild, hc, ht⟩ := wild_cons hx
    rw [flatMap_cons, hwild, cons_append, infix_cons_iff, cons_prefix_cons]
    rintro (⟨he, -⟩ | hin)
    · exact hc he.symm
    · by_cases hstar : x = EventPiece.star
      · subst hstar
        cases hwild
        rw [cons_append, infix_cons_iff, cons_prefix_cons] at hin
        refine hin.elim (fun hpre => ?_) (ih hrest)
        cases ps with
        | nil => exact absurd hpre.2 (by decide)
        | cons y ps =>
          obtain ⟨d, u, hwild, hd, -⟩ := wild_cons (hrest y mem_cons_self)
          rw [nil_append, flatMap_cons, hwild, cons_append, cons_prefix_cons] at hpre
          exact hd hpre.2.1.symm
      · exact ih hrest (infix_of_append (ht hstar) hin)

theorem replaceText_star (hfair : ∀ x ∈ ps, x.Fair) : replaceText ['*'] starText (ps.flatMap wild) = ps.flatMap text := by
  rw [replaceText_single, flatMap_assoc]
  refine flatMap_congr fun x hx => ?_
  cases x with
  | lit c => exact (replaced_quoteChars (hfair _ hx)).2
  | any | plus | bol | eol | bar => rfl
  | quest | star => decide +kernel

end Wildcards

/-! ### The marker -/

section Marker

variable {ps : List EventPiece} {c : Char} {w : Text}

theorem text_plain (x : EventPiece) : (∃ c, x = lit c ∧ x.text = [c]) ∨ x.text ≠ [] ∧ ∀ c ∈ multiGlob, c ∉ x.text := by
  have hno : ∀ l : Text, (multiGlob.all fun c => c ∉ l) = true → ∀ c ∈ multiGlob, c ∉ l := fun l => forall_mem_of_all
  cases x with
  | lit c =>
    by_cases hc : c ∈ expressionQuoted
    · right
      have htext : (lit c).text = ['\\', c] := if_pos hc
      have hall : ∀ d ∈ multiGlob, d ∉ '\\' :: expressionQuoted := hno _ (by decide +kernel)
      rw [htext]
      refine ⟨cons_ne_nil _ _, fun d hd hmem => hall d hd ?_⟩
      rw [mem_cons, mem_singleton] at hmem
      rcases hmem with rfl | rfl
      · exact mem_cons_self
      · exact mem_cons_of_mem _ hc
    · exact .inl ⟨c, rfl, if_neg hc⟩
  | any | plus | quest | star => exact .inr ⟨cons_ne_nil _ _, hno _ (by decide +kernel)⟩
  | bol => exact .inr ⟨cons_ne_nil _ _, hno ['^'] (by decide +kernel)⟩
  | eol => exact .inr ⟨cons_ne_nil _ _, hno ['$'] (by decide +kernel)⟩
  | bar => exact .inr ⟨cons_ne_nil _ _, hno ['|'] (by decide +kernel)⟩

theorem prefix_source (hw : ∀ c ∈ w, c ∈ multiGlob) (h : w <+: ps.flatMap text) : w <+: ps.flatMap source := by
  induction w generalizing ps with
  | nil => exact nil_prefix
  | cons c w ih =>
    obtain ⟨hc, hw⟩ := forall_mem_cons.mp hw
    cases ps with
    | nil => exact absurd (prefix_nil.mp h) (cons_ne_nil _ _)
    | cons x ps =>
      rw [flatMap_cons] at h ⊢
      rcases text_plain x with ⟨d, rfl, htext⟩ | ⟨hne, hno⟩
      · rw [htext] at h
        obtain ⟨rfl, hpre⟩ := cons_prefix_cons.mp h
        exact cons_prefix_cons.mpr ⟨rfl, ih hw hpre⟩
      · obtain ⟨d, t, ht⟩ := exists_cons_of_ne_nil hne
        rw [ht] at h hno
        exact absurd mem_cons_self ((cons_prefix_cons.mp h).1 ▸ hno c hc)

theorem infix_source (hw : ∀ d ∈ c :: w, d ∈ multiGlob) (h : c :: w <:+: ps.flatMap text) : c :: w <:+: ps.flatMap source := by
  induction ps with
  | nil => exact h
  | cons x ps ih =>
    have hrest : c :: w <:+: ps.flatMap text → c :: w <:+: (x :: ps).flatMap source := by
      intro hin
      rw [flatMap_cons]
      exact (ih hin).trans (suffix_append _ _).isInfix
    rcases text_plain x with ⟨d, rfl, htext⟩ | ⟨-, hno⟩
    · have hin := h
      rw [flatMap_cons, htext, cons_append, infix_cons_iff, ← cons_append, ← htext, ← flatMap_cons] at hin
      exact hin.elim (fun hpre => (prefix_source hw hpre).isInfix) hrest
    · exact hrest (infix_of_append (hno c (hw c mem_cons_self)) h)

end Marker

/-! ### Texts that stand for themselves -/

section Literal

variable {s : Text} {ps : List EventPiece}

theorem literal_ofChar (c : Char) : (ofChar c).Literal ↔ c ∉ ['?', '*', '^', '|'] := by
  unfold ofChar
  split_ifs with h₁ h₂ h₃ h₄
  · simp [Literal, h₁]
  · simp [Literal, h₂]
  · simp [Literal, h₃]
  · simp [Literal, h₄]
  · simp [Literal, h₁, h₂, h₃, h₄]

theorem literal_eventPieces (s : Text) :
    (∀ x ∈ eventPieces s, x.Literal) ↔ (∀ c ∈ s, c ∉ ['?', '*', '^', '|']) ∧ ∀ c ∈ specialChars, ¬ ['\\', c] <:+: s := by
  fun_induction eventPieces s with
  | case1 => exact ⟨fun _ => ⟨by simp, fun c _ h => absurd (infix_nil.mp h) (by simp)⟩, fun _ => by simp⟩
  | case2 s ih =>
    exact ⟨fun h => absurd (h any (by simp)) id, fun h => absurd ⟨[], s, rfl⟩ (h.2 '.' (by decide))⟩
  | case3 s ih =>
    exact ⟨fun h => absurd (h plus (by simp)) id, fun h => absurd ⟨[], s, rfl⟩ (h.2 '+' (by decide))⟩
  | case4 s ih =>
    exact ⟨fun h => absurd (h (eol ['$']) (by simp)) id, fun h => absurd ⟨[], s, rfl⟩ (h.2 '$' (by decide))⟩
  | case5 c s h₁ h₂ h₃ ih =>
    have hfirst : ∀ d ∈ specialChars, ¬ ['\\', d] <+: c :: s := by
      rintro d hd ⟨rest, hrest⟩
      obtain ⟨hc, hs⟩ := cons.inj hrest
      simp only [specialChars, mem_cons, not_mem_nil, or_false] at hd
      rcases hd with rfl | rfl | rfl
      · exact h₁ rest hc.symm hs.symm
      · exact h₂ rest hc.symm hs.symm
      · exact h₃ rest hc.symm hs.symm
    rw [forall_mem_cons, forall_mem_cons, literal_ofChar, ih, and_assoc]
    refine and_congr_right fun _ => and_congr_right fun _ => forall₂_congr fun d hd => not_congr ?_
    rw [infix_cons_iff]
    exact ⟨.inr, fun h => h.resolve_left (hfirst d hd)⟩

end Literal

/-! ### The expression -/

/-- The text has nothing that is rewritten for the sake of braces or as the marker of `**`. -/
structure Untouched (s : Text) : Prop where
  parens : Unpaired s
  marker : ¬ multiGlob <:+: s

def trimEnd (s : Text) : Text := (s.reverse.dropWhile isStripped).reverse

def expressionPieces (s : Text) : List EventPiece :=
  bol [] :: (eventPieces s ++ if s.getLast? = some '$' then [] else [eol []])

section Expression

variable {s : Text}

theorem trimEnd_append (s : Text) : ∃ blanks, s = trimEnd s ++ blanks ∧ ∀ c ∈ blanks, isStripped c = true := by
  refine ⟨(s.reverse.takeWhile isStripped).reverse, ?_, fun c hc => mem_takeWhile_imp (mem_reverse.mp hc)⟩
  rw [trimEnd, ← reverse_append, takeWhile_append_dropWhile, reverse_reverse]

theorem getLast?_trimEnd {c : Char} (h : (trimEnd s).getLast? = some c) : isStripped c = false := by
  rw [trimEnd, getLast?_reverse] at h
  have hhead := head?_dropWhile_not isStripped s.reverse
  rw [h] at hhead
  simpa using hhead

theorem dropWhile_stripped {t : Text} (h : ∀ c, t.head? = some c → isStripped c = false) : t.dropWhile isStripped = t := by
  cases t with
  | nil => rfl
  | cons c t =>
    rw [dropWhile_cons_of_neg]
    rw [h c rfl]
    exact Bool.false_ne_true

theorem strip_event (h : ∀ c, s.head? = some c → isStripped c = false) :
    strip (convertExpressionToAare s) = (trimEnd s).flatMap (quoteChars aareEscapeChars) := by
  obtain ⟨blanks, hs, hblanks⟩ := trimEnd_append s
  have hkeep : blanks.flatMap (quoteChars aareEscapeChars) = blanks := by
    calc blanks.flatMap (quoteChars aareEscapeChars) = blanks.flatMap (fun c => [c]) := by
          refine flatMap_congr fun c hc => if_neg fun hmem => ?_
          have hall : ∀ c ∈ aareEscapeChars, isStripped c = false := forall_mem_of_all (by decide)
          exact absurd (hblanks c hc) (by rw [hall c hmem]; exact Bool.false_ne_true)
      _ = blanks := flatMap_singleton' blanks
  have hfront : (convertExpressionToAare s).dropWhile isStripped = convertExpressionToAare s := by
    refine dropWhile_stripped fun c hc => ?_
    rw [convertExpressionToAare_eq] at hc
    rcases head?_quoteChars hc with rfl | hc
    · decide
    · exact h c hc
  have hback : ((trimEnd s).flatMap (quoteChars aareEscapeChars)).reverse.dropWhile isStripped =
      ((trimEnd s).flatMap (quoteChars aareEscapeChars)).reverse := by
    refine dropWhile_stripped fun c hc => ?_
    rw [head?_reverse, getLast?_quoteChars] at hc
    exact getLast?_trimEnd hc
  rw [strip, hfront, convertExpressionToAare_eq]
  conv_lhs => rw [hs]
  rw [flatMap_append, hkeep, reverse_append, dropWhile_append_of_pos fun c hc => hblanks c (mem_reverse.mp hc), hback,
    reverse_reverse]

theorem filter_quoteChars (l : List Char) (s : Text) :
    (s.flatMap (quoteChars l)).filter isBraceOrLine = s.filter isBraceOrLine := by
  induction s with
  | nil => rfl
  | cons c s ih =>
    have hc : (quoteChars l c).filter isBraceOrLine = [c].filter isBraceOrLine := by
      unfold quoteChars
      split_ifs
      · exact filter_cons_of_neg (by decide)
      · rfl
    rw [flatMap_cons, filter_append, hc, ih, ← filter_append, singleton_append]

theorem filter_escapeSpecial (prev : Option Char) (s : Text) :
    (escapeSpecial prev s).filter isBraceOrLine = s.filter isBraceOrLine := by
  induction s generalizing prev with
  | nil => rfl
  | cons c s ih =>
    rw [escapeSpecial]
    split_ifs
    · rw [filter_cons_of_neg (by decide), filter_cons, ih, ← filter_cons]
    · rw [filter_cons, ih, ← filter_cons]

theorem getLast?_escapeSpecial (prev : Option Char) (s : Text) : (escapeSpecial prev s).getLast? = s.getLast? := by
  induction s generalizing prev with
  | nil => rfl
  | cons c s ih =>
    rw [escapeSpecial]
    split_ifs <;> simp [getLast?_cons, ih]

theorem replaceParens_none {t : Text} (h : regexParen t = none) (n : ℕ) : replaceParens n t = t := by
  cases n with
  | zero => rfl
  | succ n => rw [replaceParens, h]

/-- The expression for an event is made of pieces of its text. -/
theorem convertRegexp_event (hfirst : ∀ c, s.head? = some c → isStripped c = false ∧ c ≠ '^') (hs : Untouched (trimEnd s)) :
    convertRegexp (convertExpressionToAare s) = (expressionPieces (trimEnd s)).flatMap text := by
  have hlast : (trimEnd s).getLast? ≠ some '\n' := fun h => absurd (getLast?_trimEnd h) (by decide)
  have hstrip := strip_event fun c hc => (hfirst c hc).1
  have hhead : (trimEnd s).head? ≠ some '^' := by
    obtain ⟨blanks, hblanks, -⟩ := trimEnd_append s
    exact fun hc => (hfirst '^' (by rw [hblanks, head?_append, hc]; rfl)).2 rfl
  generalize trimEnd s = u at hs hlast hstrip hhead ⊢
  have hquote : replaceText [')'] ['\\', ')'] (replaceText ['('] ['\\', '('] (u.flatMap (quoteChars aareEscapeChars))) =
      u.flatMap (quoteChars (aareEscapeChars ++ ['(', ')'])) := by
    rw [replaceText_quoteChars (by decide) (by decide), replaceText_quoteChars (by decide) (by decide)]
    rfl
  have hcaret : (u.flatMap (quoteChars (aareEscapeChars ++ ['(', ')']))).head? ≠ some '^' := fun hc =>
    (head?_quoteChars hc).elim (by decide) hhead
  have hdraft := @escapeSpecial_event u none fun h => absurd h (by simp)
  have hparens : regexParen ((eventPieces u).flatMap draft) = none := by
    rw [← hdraft]
    apply regexParen_none
    · apply unpaired_of_filter
      rw [filter_escapeSpecial, filter_quoteChars]
      exact unpaired_filter hs.parens
    · rwa [getLast?_escapeSpecial, getLast?_quoteChars]
  have hmarker : ¬ multiGlob <:+: (eventPieces u).flatMap text := by
    have hchars : ∀ c ∈ '_' :: multiGlob.tail, c ∈ multiGlob := fun c hc => hc
    exact fun hin => hs.marker (source_eventPieces u ▸ infix_source hchars hin)
  have hfair := fair_eventPieces u
  unfold convertRegexp
  dsimp only
  rw [hstrip, hquote, hdraft, replaceParens_none hparens]
  change (if _ then _ else _) = _
  rw [show "[^/\x00]".toList = questText from rfl, replaceText_quest hfair, replaceText_absent _ (stars_absent hfair),
    show "(((?<=/)[^/\x00]+)|((?<!/)[^/\x00]*))".toList = starText from rfl, replaceText_star hfair,
    replaceText_absent _ hmarker, if_neg hcaret, getLast?_quoteChars]
  unfold expressionPieces
  split_ifs with hend
  · rw [append_nil, flatMap_cons]
    rfl
  · rw [flatMap_cons, flatMap_append]
    rfl

end Expression

end AppArmor

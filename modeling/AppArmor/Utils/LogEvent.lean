import AppArmor.Utils.EventMatch

namespace AppArmor

open PyRe List Option EventPiece

def Aare.ofLog (s : Text) : Option Aare :=
  if s.head? = some '/' then some ⟨convertExpressionToAare s, some s⟩ else none

def ExactFor (s t : Text) : Prop := (Aare.ofLog s).bind (·.matchText t) = some (decide (t = s))

structure PlainText (s : Text) : Prop extends Untouched s where
  chars : ∀ c ∈ s, c ∉ ['?', '*', '^', '|']
  quoted : ∀ c ∈ specialChars, ¬ ['\\', c] <:+: s
  first : ∀ c, s.head? = some c → isStripped c = false
  last : ∀ c, s.getLast? = some c → isStripped c = false ∧ c ≠ '$'

section Event

variable {s : Text}

theorem trimEnd_self (h : ∀ c, s.getLast? = some c → isStripped c = false) : trimEnd s = s := by
  rw [trimEnd, dropWhile_stripped, reverse_reverse]
  intro c hc
  rw [head?_reverse] at hc
  exact h c hc

theorem trimEnd_begins (s : Text) : trimEnd s <+: s := by
  obtain ⟨blanks, hs, -⟩ := trimEnd_append s
  exact ⟨blanks, hs.symm⟩

/-- The pattern of an event raises if a star is left in it, and matches as its pieces do. -/
theorem matchText_event (hfirst : ∀ c, s.head? = some c → isStripped c = false ∧ c ≠ '^') (hs : Untouched (trimEnd s))
    (orig : Option Text) (t : Text) (b : Bool) : (Aare.mk (convertExpressionToAare s) orig).matchText t = some b ↔
      EventPiece.star ∉ expressionPieces (trimEnd s) ∧ (b = true ↔ Matched (expressionPieces (trimEnd s)) t) := by
  have hchars : ∀ x ∈ expressionPieces (trimEnd s), ∀ c, x = lit c → x.Fair := by
    rintro x hx c rfl
    rcases mem_cons.mp hx with hx | hx
    · cases hx
    · rcases mem_append.mp hx with hx | hx
      · exact fair_eventPieces _ _ hx
      · split_ifs at hx
        · cases hx
        · cases mem_singleton.mp hx
  obtain ⟨hraises, hmatches⟩ := compile_pieces hchars
  rw [Aare.matchText, convertRegexp_event hfirst hs]
  by_cases hin : EventPiece.star ∈ expressionPieces (trimEnd s)
  · simp [hraises hin, hin]
  · obtain ⟨r, hr, hstart⟩ := hmatches hin
    rw [hr, map_some, some.injEq, and_iff_right hin, ← hstart]
    constructor
    · rintro rfl
      exact Iff.rfl
    · exact fun h => (Bool.eq_iff_iff.mpr h).symm

theorem PlainText.not_anchor (h : PlainText s) : ∀ c, s.head? = some c → isStripped c = false ∧ c ≠ '^' := by
  intro c hc
  refine ⟨h.first c hc, ?_⟩
  rintro rfl
  exact h.chars _ (mem_of_head? hc) (by decide)

theorem matches_plain (h : PlainText s) (t : Text) (orig : Option Text) :
    (Aare.mk (convertExpressionToAare s) orig).matchText t = some (decide (t = s ∨ t = s ++ ['\n'])) := by
  have htrim := trimEnd_self fun c hc => (h.last c hc).1
  have hps : ∀ x ∈ eventPieces s, x.Literal := (literal_eventPieces s).mpr ⟨h.chars, h.quoted⟩
  have hmatches := matchText_event h.not_anchor (htrim.symm ▸ h.toUntouched)
  rw [htrim] at hmatches
  have hpieces : expressionPieces s = bol [] :: (eventPieces s ++ [eol []]) := by
    rw [expressionPieces, if_neg fun hc => (h.last _ hc).2 rfl]
  rw [hmatches, decide_eq_true_iff, hpieces, matched_literal hps, source_eventPieces]
  refine ⟨fun hstar => ?_, Iff.rfl⟩
  simp only [mem_cons, mem_append, not_mem_nil, or_false, reduceCtorEq, false_or] at hstar
  exact hps _ hstar

theorem ofLog_exact_iff (h : s.head? = some '/') (hs : Untouched (trimEnd s)) :
    ((∀ t, t ≠ s ++ ['\n'] → ExactFor s t) ↔ PlainText s) ∧ (PlainText s → ∀ t, ExactFor s t ↔ t ≠ s ++ ['\n']) := by
  have hlog : ∀ t, (Aare.ofLog s).bind (·.matchText t) = (Aare.mk (convertExpressionToAare s) (some s)).matchText t := by
    intro t
    rw [Aare.ofLog, if_pos h, bind_some]
  have hplain : PlainText s → ∀ t, ExactFor s t ↔ t ≠ s ++ ['\n'] := by
    intro hs t
    rw [ExactFor, hlog, matches_plain hs, some.injEq, decide_eq_decide]
    constructor
    · rintro hiff rfl
      exact absurd (hiff.mp (.inr rfl)) (by simp)
    · exact fun hne => ⟨fun ht => ht.resolve_right hne, .inl⟩
  refine ⟨⟨fun hexact => ?_, fun hs t => (hplain hs t).mpr⟩, hplain⟩
  have hfirst : ∀ c, s.head? = some c → isStripped c = false ∧ c ≠ '^' := by
    intro c hc
    rw [h, some.injEq] at hc
    rw [← hc]
    decide
  have hmatched : ∀ t, t ≠ s ++ ['\n'] → (Matched (expressionPieces (trimEnd s)) t ↔ t = s) := by
    intro t ht
    have hb := hexact t ht
    rw [ExactFor, hlog, matchText_event hfirst hs, decide_eq_true_iff] at hb
    exact hb.2.symm
  obtain ⟨htrim, hlast, hps⟩ := literal_of_exact (trimEnd_begins s) hmatched
  rw [htrim] at hs hps
  obtain ⟨hchars, hquoted⟩ := (literal_eventPieces s).mp hps
  refine ⟨hs, hchars, hquoted, fun c hc => (hfirst c hc).1, fun c hc => ⟨?_, ?_⟩⟩
  · rw [← htrim] at hc
    exact getLast?_trimEnd hc
  · rintro rfl
    exact hlast hc

end Event

def bracedName : Text := "/a\x7db\\c[0]\x7b.txt".toList

theorem bracedName_plain : PlainText bracedName := by
  refine ⟨⟨fun a b c heq => ?_, by decide +kernel⟩, forall_mem_of_all (by decide), forall_mem_of_all (by decide +kernel), ?_, ?_⟩
  · have hin : '}' ∈ bracedName.dropWhile (· ≠ '{') := by
      rw [heq, dropWhile_append]
      split_ifs
      · simp
      · simp
    exact absurd hin (by decide)
  · intro c hc
    rw [← some.inj hc]
    decide
  · intro c hc
    rw [show bracedName.getLast? = some 't' from rfl, some.injEq] at hc
    rw [← hc]
    decide

theorem plain_event_exact : ExactFor bracedName "/a\x7db\\c[0]\x7bxtxt".toList ∧ ¬ ExactFor bracedName (bracedName ++ ['\n']) := by
  have htrim : trimEnd bracedName = bracedName := by decide +kernel
  have hiff := (@ofLog_exact_iff bracedName rfl (htrim.symm ▸ bracedName_plain.toUntouched)).2 bracedName_plain
  exact ⟨(hiff _).mpr (by decide), fun hexact => (hiff _).mp hexact rfl⟩

/-- A newline at the end is not seen; a star raises; a question mark, which has a backslash, is still taken for a wildcard. -/
theorem event_pattern_differs :
    (Aare.ofLog "/a".toList).bind (·.matchText "/a\n".toList) = some true ∧
      (Aare.ofLog "/*".toList).bind (·.matchText "/*".toList) = none ∧
      (Aare.ofLog "/a?".toList).bind (·.matchText "/a?".toList) = some false := by
  decide +kernel

end AppArmor

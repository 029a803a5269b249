import AppArmor.Glob.Correct
import AppArmor.Glob.Unquoted

namespace AppArmor

open List Prod Except

inductive LexPosition (text : Text) : Text → Prop
  | start : LexPosition text text
  | next {c} {s : Text} {t len} : LexPosition text (c :: s) → regexLex c s = .token t len → LexPosition text (s.drop len)

def LexProgress (text : Text) : Prop :=
  ∀ c s, LexPosition text (c :: s) → ∃ t len, regexLex c s = .token t len ∧ len ≤ s.length

/-- Every backslash begins an escape sequence, or stands before a comma; the index says whether there is such a comma. -/
inductive Escaped : Bool → Text → Prop
  | nil : Escaped false []
  | plain {b c s} : c ≠ '\\' → Escaped b s → Escaped b (c :: s)
  | escape {b c} {s : Text} {v k} : strEscseq escapable (c :: s) = .char v k → Escaped b s → Escaped b ('\\' :: c :: s)
  | comma {b s} : Escaped b s → Escaped true ('\\' :: ',' :: s)

section Sequences

variable {base n v k : ℕ} {c : Char} {s chrs : Text}

theorem strntol_split (h : strntol base 255 n s 0 = (v, k)) :
    ∃ d r, s = d ++ r ∧ k = d.length ∧ ∀ x ∈ d, chrtoi x base ≠ none := by
  have hle : k ≤ s.length := by
    have hle := (strntol_le base 255 s n 0).2
    rwa [h] at hle
  have hlen : (s.take k).length = k := length_take_of_le hle
  refine ⟨s.take k, s.drop k, (take_append_drop k s).symm, hlen.symm, ?_⟩
  apply strntol_digits (s := s.drop k) (v := v)
  rw [take_append_drop, hlen]
  exact h

theorem escapeNumber_split (hb : base ≤ 16) (h : escapeNumber base n s = .char v k) :
    ∃ d r, s = d ++ r ∧ k = d.length + 1 ∧ ∀ x ∈ d, chrtoi x 16 ≠ none := by
  obtain ⟨k, rfl⟩ : ∃ j, k = j + 1 := Nat.exists_eq_add_of_le' (escapeNumber_char h).1
  obtain ⟨d, r, hs, hk, hd⟩ := strntol_split (escapeNumber_eq_char.mp h).2
  exact ⟨d, r, hs, by rw [hk], fun x hx hnone => hd x hx (chrtoi_mono hb hnone)⟩

theorem strEscseq_split (h : strEscseq chrs (c :: s) = .char v k) :
    ∃ d r, s = d ++ r ∧ k = d.length + 1 ∧ ∀ x ∈ d, chrtoi x 16 ≠ none := by
  rw [strEscseq_cons] at h
  by_cases hoct : isodigit c = true
  · rw [if_pos hoct] at h
    obtain ⟨hv, hk⟩ := EscSeq.char.inj h
    obtain ⟨d, r, hs, hlen, hd⟩ := strntol_split (Prod.ext hv hk)
    have hpos : 1 ≤ k := by
      rw [← hk]
      exact octal_pos hoct
    cases d with
    | nil => exact absurd hlen (by simp only [length_nil]; omega)
    | cons x d =>
      obtain ⟨rfl, rfl⟩ := cons.inj hs
      exact ⟨d, r, rfl, hlen, fun y hy hnone => hd y (mem_cons_of_mem _ hy) (chrtoi_mono (by omega) hnone)⟩
  rw [if_neg hoct] at h
  by_cases hdec : c = 'd'
  · rw [if_pos hdec] at h
    exact escapeNumber_split (by omega) h
  rw [if_neg hdec] at h
  by_cases hhex : c = 'x'
  · rw [if_pos hhex] at h
    exact escapeNumber_split (by omega) h
  rw [if_neg hhex] at h
  have hk : k = 1 := by
    cases hsimple : simpleEscape c with
    | some w => simp_all
    | none => by_cases hmem : c ∈ chrs <;> simp_all
  exact ⟨[], s, rfl, hk, fun x hx => absurd hx not_mem_nil⟩

theorem escapeNumber_append (h : escapeNumber base n s = .char v k) (o : Text) :
    ∃ v' k', escapeNumber base n (s ++ o) = .char v' k' := by
  obtain ⟨k, rfl⟩ : ∃ j, k = j + 1 := Nat.exists_eq_add_of_le' (escapeNumber_char h).1
  obtain ⟨hk, hnum⟩ := escapeNumber_eq_char.mp h
  have hle := strntol_append_le base 255 s o n 0
  rw [hnum] at hle
  refine ⟨_, _, escapeNumber_eq_char.mpr ⟨?_, rfl⟩⟩
  omega

theorem strEscseq_append (h : strEscseq chrs (c :: s) = .char v k) (o : Text) :
    ∃ v' k', strEscseq chrs (c :: (s ++ o)) = .char v' k' := by
  rw [strEscseq_cons] at h ⊢
  by_cases hoct : isodigit c = true
  · rw [if_pos hoct]
    exact ⟨_, _, rfl⟩
  rw [if_neg hoct] at h ⊢
  by_cases hdec : c = 'd'
  · rw [if_pos hdec] at h ⊢
    exact escapeNumber_append h o
  rw [if_neg hdec] at h ⊢
  by_cases hhex : c = 'x'
  · rw [if_pos hhex] at h ⊢
    exact escapeNumber_append h o
  rw [if_neg hhex] at h ⊢
  exact ⟨v, k, h⟩

theorem not_special_of_digit {x : Char} (h : chrtoi x 16 ≠ none) : x ∉ "\\[]".toList :=
  fun hmem => h (forall_mem_of_all (p := fun x => chrtoi x 16 = none) (by decide) x hmem)

end Sequences

namespace Escaped

variable {b b' : Bool} {c : Char} {s o : Text}

theorem append (h : Escaped b s) (ho : Escaped b' o) : Escaped (b || b') (s ++ o) := by
  induction h with
  | nil => exact ho
  | plain hc _ ih => exact .plain hc ih
  | escape hseq _ ih =>
    obtain ⟨v', k', hseq'⟩ := strEscseq_append hseq o
    exact .escape hseq' ih
  | comma _ ih => exact .comma ih

theorem of_plain (h : '\\' ∉ s) : Escaped false s := by
  induction s with
  | nil => exact .nil
  | cons c s ih =>
    rw [mem_cons, not_or] at h
    exact .plain (fun hc => h.1 hc.symm) (ih h.2)

theorem pair (h : c ∈ '\\' :: escapable) : Escaped false ['\\', c] := by
  have hseq : ∀ x ∈ '\\' :: escapable, strEscseq escapable [x] = .char x.toNat 1 :=
    forall_mem_of_all (by decide)
  exact .escape (hseq c h) .nil

theorem drop_digits {d : Text} (h : Escaped b (d ++ s)) (hd : ∀ x ∈ d, x ≠ '\\') : Escaped b s := by
  induction d with
  | nil => exact h
  | cons x d ih =>
    have hx := hd x mem_cons_self
    rw [cons_append] at h
    generalize hr : d ++ s = r at h
    cases h with
    | plain _ h =>
      rw [← hr] at h
      exact ih h fun y hy => hd y (mem_cons_of_mem _ hy)
    | escape | comma => exact absurd rfl hx

theorem regexLex_plain (hc : c ≠ '\\') : ∃ t, regexLex c s = .token t 0 := by
  unfold regexLex
  split
  case h_11 => exact absurd rfl hc
  all_goals exact ⟨_, rfl⟩

theorem lex (h : Escaped b (c :: s)) :
    (∃ t len, regexLex c s = .token t len ∧ len ≤ s.length ∧ Escaped b (s.drop len)) ∨
      b = true ∧ regexLex c s = .again := by
  cases h with
  | plain hc h =>
    obtain ⟨t, ht⟩ := regexLex_plain (s := s) hc
    exact Or.inl ⟨t, 0, ht, Nat.zero_le _, h⟩
  | @escape _ e s v k hseq h =>
    obtain ⟨d, r, rfl, rfl, hd⟩ := strEscseq_split hseq
    refine Or.inl ⟨.char v, d.length + 1, ?_, ?_, ?_⟩
    · unfold regexLex
      simp only [hseq]
    · simp only [length_cons, length_append]
      omega
    · rw [drop_succ_cons, drop_left]
      exact h.drop_digits fun x hx hback => not_special_of_digit (hd x hx) (by rw [hback]; decide)
  | comma h => exact Or.inr ⟨rfl, rfl⟩

theorem position {text : Text} (h : Escaped false text) (hpos : LexPosition text s) : Escaped false s := by
  induction hpos with
  | start => exact h
  | @next c s t len _ hlex ih =>
    rcases ih.lex with ⟨t', len', hlex', -, hrest⟩ | ⟨hb, -⟩
    · rw [hlex] at hlex'
      obtain ⟨-, rfl⟩ := Lexed.token.inj hlex'
      exact hrest
    · cases hb

theorem progress (h : Escaped false s) : LexProgress s := by
  intro c r hpos
  rcases (h.position hpos).lex with ⟨t, len, hlex, hlen, -⟩ | ⟨hb, -⟩
  · exact ⟨t, len, hlex, hlen⟩
  · cases hb

theorem not_progress {text : Text} (hpos : LexPosition text s) (h : Escaped true s) : ¬LexProgress text := by
  intro hprogress
  induction hn : s.length using Nat.strong_induction_on generalizing s with
  | _ n ih =>
    cases s with
    | nil => cases h
    | cons c s =>
      rcases h.lex with ⟨t, len, hlex, -, hrest⟩ | ⟨-, hagain⟩
      · refine ih (s.drop len).length ?_ (hpos.next hlex) hrest rfl
        rw [length_drop, ← hn, length_cons]
        omega
      · obtain ⟨t, len, hlex, -⟩ := hprogress c s hpos
        rw [hagain] at hlex
        cases hlex

theorem progress_iff (h : Escaped b s) : LexProgress s ↔ b = false := by
  cases b with
  | false => exact ⟨fun _ => rfl, fun _ => h.progress⟩
  | true => exact ⟨fun hprogress => absurd hprogress (h.not_progress .start), fun hb => absurd hb (by decide)⟩

theorem lexes (h : Escaped false s) : ∃ ts, Lexes s ts := by
  induction hn : s.length using Nat.strong_induction_on generalizing s with
  | _ n ih =>
    cases s with
    | nil => exact ⟨[], .nil⟩
    | cons c s =>
      rcases h.lex with ⟨t, len, hlex, hlen, hrest⟩ | ⟨hb, -⟩
      · obtain ⟨ts, hts⟩ := ih (s.drop len).length (by rw [length_drop, ← hn, length_cons]; omega) hrest rfl
        have hcons : Lexes ((c :: s.take len) ++ s.drop len) (t :: ts) := by
          refine .cons ⟨c, s.take len, rfl, ?_⟩ hts
          rw [take_append_drop, length_take_of_le hlen]
          exact hlex
        rw [cons_append, take_append_drop] at hcons
        exact ⟨t :: ts, hcons⟩
      · cases hb

end Escaped

theorem RegexState.parse_ends (ts : List RegexToken) (q : RegexState) :
    (∃ t, q.parse ts = .tree t) ∨ q.parse ts = .syntaxError := by
  induction ts generalizing q with
  | nil =>
    unfold RegexState.parse
    cases q.finish with
    | none => exact Or.inr rfl
    | some t => exact Or.inl ⟨t, rfl⟩
  | cons t ts ih =>
    unfold RegexState.parse
    cases q.step t with
    | none => exact Or.inr rfl
    | some q => exact ih q

theorem Escaped.regexParse_ends {s : Text} (h : Escaped false s) :
    (∃ t, regexParse s = .tree t) ∨ regexParse s = .syntaxError := by
  obtain ⟨ts, hts⟩ := h.lexes
  rw [regexParse, regexRun_lexes hts]
  exact RegexState.parse_ends ts .init

def classAfter (cls : Bool) (c : Char) : Bool :=
  if c = '[' then true
  else if c = ']' then false
  else cls

def escapesComma : (escape cls : Bool) → Text → Bool
  | _, _, [] => false
  | true, cls, c :: s => (cls && c == ',') || escapesComma false cls s
  | false, cls, c :: s => if c = '\\' then escapesComma true cls s else escapesComma false (classAfter cls c) s

theorem escapesComma_skip {d r : Text} (cls : Bool) (hd : ∀ x ∈ d, x ∉ "\\[]".toList) :
    escapesComma false cls (d ++ r) = escapesComma false cls r := by
  induction d with
  | nil => rfl
  | cons x d ih =>
    have hx := hd x mem_cons_self
    simp only [String.reduceToList, mem_cons, not_mem_nil, or_false, not_or] at hx
    rw [cons_append, escapesComma, if_neg hx.1, classAfter, if_neg hx.2.1, if_neg hx.2.2]
    exact ih fun y hy => hd y (mem_cons_of_mem _ hy)

theorem escapesComma_cons {escape cls : Bool} {c : Char} {d r : Text} (hc : c = '\\' → escape = true)
    (hd : ∀ x ∈ d, x ∉ "\\[]".toList) : escapesComma escape cls (c :: (d ++ r)) =
      ((escape && (cls && c == ',')) || escapesComma false (if escape then cls else classAfter cls c) r) := by
  cases escape with
  | true => rw [escapesComma, escapesComma_skip cls hd, Bool.true_and, if_pos rfl]
  | false =>
    rw [escapesComma, if_neg fun h => absurd (hc h) (by decide), escapesComma_skip _ hd, Bool.false_and, Bool.false_or]
    rfl

section Converts

variable {glob : GlobType} {st st' : Converter} {c : Char} {s : Text} {pos k : ℕ}

structure Emits (st st' : Converter) (c : Char) (s : Text) (k : ℕ) : Prop where
  skips : ∃ d r, s = d ++ r ∧ k = d.length ∧ ∀ x ∈ d, x ∉ "\\[]".toList
  cls : st'.inCharClass = if st.escape then st.inCharClass else classAfter st.inCharClass c
  pcre : ∃ q, st'.pcre = st.pcre ++ q ∧ Escaped (st.escape && (st.inCharClass && c == ',')) q

theorem skips_nil (s : Text) : ∃ d r, s = d ++ r ∧ 0 = d.length ∧ ∀ x ∈ d, x ∉ "\\[]".toList :=
  ⟨[], s, rfl, rfl, fun _ hx => absurd hx not_mem_nil⟩

theorem escaped_unless_comma {q : Text} (hc : c ≠ ',') (hq : Escaped false q) :
    Escaped (st.escape && (st.inCharClass && c == ',')) q := by
  rwa [beq_false_of_ne hc, Bool.and_false, Bool.and_false]

theorem emits_plain {q : Text} (hc : c ≠ ',')
    (hcls : st'.inCharClass = if st.escape then st.inCharClass else classAfter st.inCharClass c)
    (hp : st'.pcre = st.pcre ++ q) (hq : Escaped false q) : Emits st st' c s 0 :=
  ⟨skips_nil s, hcls, q, hp, escaped_unless_comma hc hq⟩

theorem emits_append {q : Text} (hc : c ∉ "[],".toList) (hq : Escaped false q) : Emits st (st.append q) c s 0 := by
  simp only [String.reduceToList, mem_cons, not_mem_nil, or_false, not_or] at hc
  refine emits_plain hc.2.2 ?_ rfl hq
  rw [classAfter, if_neg hc.1, if_neg hc.2.1, ite_self]
  rfl

theorem wildOut_escaped (glob : GlobType) : Escaped false (wildOut glob) := by
  cases glob with
  | default =>
    have hnul : Escaped false "\\x00]".toList := .escape (v := 0) (k := 3) (by decide) (.of_plain (by decide))
    exact (Escaped.of_plain (s := "[^/".toList) (by decide)).append hnul
  | null => exact .of_plain (by decide)

theorem anyOut_escaped (glob : GlobType) : Escaped false (anyOut glob) := by
  cases glob with
  | default =>
    have hnul : Escaped false "\\x00]".toList := .escape (v := 0) (k := 3) (by decide) (.of_plain (by decide))
    exact (Escaped.of_plain (s := "[^".toList) (by decide)).append hnul
  | null => exact .of_plain (by decide)

theorem wholeOut_escaped (glob : GlobType) (whole : Bool) : Escaped false (wholeOut glob whole) := by
  cases whole with
  | false => exact .nil
  | true => exact wildOut_escaped glob

theorem convertStar_emits (he : st.escape = false) (h : convertStar glob pos s st = (st', k)) : Emits st st' '*' s k := by
  have hfields := updateRePos_fields (st.append (wholeOut glob (wholeAt st s))) pos
  have hcls : ((st.append (wholeOut glob (wholeAt st s))).updateRePos pos).inCharClass =
      if st.escape then st.inCharClass else classAfter st.inCharClass '*' := by
    rw [hfields.2.1, he]
    rfl
  have hstar : Escaped false ['*'] := .of_plain (by decide)
  have hwhole := wholeOut_escaped glob (wholeAt st s)
  unfold convertStar at h
  rw [append_whole] at h
  dsimp only at h
  split at h
  · rw [appendGlob_doubleStar] at h
    obtain ⟨rfl, rfl⟩ := mk.inj h
    refine ⟨⟨['*'], _, rfl, rfl, forall_mem_singleton.mpr (by decide)⟩, hcls, _, ?_, escaped_unless_comma (by decide)
      (hwhole.append ((anyOut_escaped glob).append hstar))⟩
    rw [← append_assoc]
    exact congrArg (· ++ (anyOut glob ++ ['*'])) hfields.1
  · rw [appendGlob_star] at h
    obtain ⟨rfl, rfl⟩ := mk.inj h
    refine emits_plain (by decide) hcls ?_
      (hwhole.append ((wildOut_escaped glob).append hstar))
    rw [← append_assoc]
    exact congrArg (· ++ (wildOut glob ++ ['*'])) hfields.1

theorem convertDefault_single (h : st.escape = true → ∀ v k, strEscseq [] (c :: s) ≠ .char v k) :
    convertDefault c s st = (st.append [c], 0) := by
  unfold convertDefault
  split_ifs with he
  · split
    next v k hseq => exact absurd hseq (h he v k)
    next => rfl
  · rfl

theorem convertDefault_emits (hc : c ∉ "\\[],".toList) (h : convertDefault c s st = (st', k)) : Emits st st' c s k := by
  have hback : c ≠ '\\' := by
    rintro rfl
    exact hc (by decide)
  have hclass : c ∉ "[],".toList := fun hmem => hc (mem_cons_of_mem _ hmem)
  by_cases hseq : st.escape = true ∧ ∃ v k, strEscseq [] (c :: s) = .char v k
  · obtain ⟨he, v, len, hseq⟩ := hseq
    obtain ⟨d, r, rfl, rfl, hd⟩ := strEscseq_split hseq
    have hescaped : Escaped false ('\\' :: c :: d) := by
      have halone : strEscseq escapable (c :: (d ++ [])) = .char v (d.length + 1) :=
        strEscseq_stops hseq fun x hx => by cases hx
      rw [append_nil] at halone
      exact .escape halone (.of_plain fun hmem => not_special_of_digit (hd _ hmem) (by decide))
    have hemits : Emits st (st.append ('\\' :: c :: d)) c (d ++ r) 0 := emits_append hclass hescaped
    rw [convertDefault, if_pos he, hseq] at h
    obtain ⟨rfl, rfl⟩ := mk.inj h
    refine ⟨⟨d, r, rfl, rfl, fun x hx => not_special_of_digit (hd x hx)⟩, hemits.cls, ?_⟩
    rw [take_succ_cons, take_left]
    exact hemits.pcre
  · rw [convertDefault_single fun he v k hchar => hseq ⟨he, v, k, hchar⟩] at h
    obtain ⟨rfl, rfl⟩ := mk.inj h
    exact emits_append hclass (.plain hback .nil)

theorem convertDefault_special (hc : c ∈ ".+|()".toList) (h : convertDefault c s (st.append ['\\']) = (st', k)) :
    Emits st st' c s k := by
  have hspecial : ∀ c ∈ ".+|()".toList, c ≠ '\\' ∧ c ∈ "*?[]\x7b\x7d,^$.+|()".toList ∧ c ∉ "[],".toList ∧
      c ∈ '\\' :: escapable := forall_mem_of_all (by decide)
  obtain ⟨hback, hmem, hclass, hpair⟩ := hspecial c hc
  have hseq (v k : ℕ) : strEscseq [] (c :: s) ≠ .char v k := by
    intro hchar
    rcases escape_start hchar with heq | hnot
    · exact hback heq
    · exact hnot hmem
  rw [convertDefault_single fun _ => hseq] at h
  obtain ⟨rfl, rfl⟩ := mk.inj h
  have happend : (st.append ['\\']).append [c] = st.append ['\\', c] := by
    unfold Converter.append
    rw [append_assoc]
    rfl
  rw [happend]
  exact emits_append hclass (.pair hpair)

theorem convertChar_emits (h : convertChar glob pos c s st = .ok (st', k)) (hc : c = '\\' → st.escape = true) :
    Emits st st' c s k := by
  have hfields := updateRePos_fields st pos
  unfold convertChar at h
  split at h
  case h_1 =>
    cases h
    exact emits_append (by decide) (.pair (by decide))
  case h_2 =>
    split_ifs at h with he
    · cases h
      exact emits_append (by decide) (.pair (by decide))
    · exact convertStar_emits (Bool.eq_false_iff.mpr he) (ok.inj h)
  case h_3 =>
    split_ifs at h with he
    · cases h
      exact emits_append (by decide) (.of_plain (by decide))
    · rw [appendGlob_wild] at h
      cases h
      refine emits_plain (by decide) ?_ (congrArg (· ++ wildOut glob) hfields.1) (wildOut_escaped glob)
      rw [if_neg he]
      exact hfields.2.1
  case h_4 =>
    split_ifs at h with he
    · cases h
      exact emits_plain (by decide) (if_pos he).symm rfl (.pair (by decide))
    · cases h
      exact emits_plain (by decide) (if_neg he).symm (congrArg (· ++ ['[']) hfields.1) (.of_plain (by decide))
  case h_5 =>
    split_ifs at h with he
    · cases h
      exact emits_plain (by decide) (if_pos he).symm rfl (.pair (by decide))
    · cases h
      exact emits_plain (by decide) (if_neg he).symm rfl (.of_plain (by decide))
  case h_6 =>
    split_ifs at h with he
    · cases h
      exact emits_append (by decide) (.pair (by decide))
    · cases h
      exact emits_append (by decide) (.of_plain (by decide))
    · cases h
      refine emits_plain (by decide) ?_ (congrArg (· ++ ['(']) hfields.1) (.of_plain (by decide))
      rw [if_neg he]
      exact hfields.2.1
  case h_7 =>
    split_ifs at h with he hcls
    · cases h
      exact emits_append (by decide) (.pair (by decide))
    · cases h
      exact emits_append (by decide) (.of_plain (by decide))
    · split at h
      · cases h
      · split_ifs at h
        cases h
        exact emits_plain (by decide) (if_neg he).symm rfl (.of_plain (by decide))
  case h_8 =>
    have hcomma (q : Text) (hq : Escaped (st.escape && (st.inCharClass && ',' == ',')) q) :
        Emits st (st.append q) ',' s 0 := ⟨skips_nil s, (ite_self _).symm, q, rfl, hq⟩
    have hraw : Escaped false [','] := .of_plain (by decide)
    have hbar : Escaped false ['|'] := .of_plain (by decide)
    split_ifs at h with he hcls hcls
    · cases h
      refine hcomma ['\\', ','] ?_
      rw [he, hcls]
      exact .comma .nil
    · cases h
      refine hcomma [','] ?_
      rwa [he, Bool.eq_false_iff.mpr hcls]
    · cases h
      refine hcomma [','] ?_
      rwa [Bool.eq_false_iff.mpr he]
    · rw [Bool.not_eq_true] at he
      split at h
      · cases h
        refine hcomma [','] ?_
        rwa [he]
      · cases h
        refine ⟨skips_nil s, (ite_self _).symm, ['|'], rfl, ?_⟩
        rwa [he]
  case h_9 | h_10 =>
    cases h
    refine emits_append (by decide) ?_
    split_ifs
    · exact .of_plain (by decide)
    · exact .pair (by decide)
  case h_16 =>
    refine convertDefault_emits ?_ (ok.inj h)
    simp_all
  all_goals exact convertDefault_special (by decide) (ok.inj h)

theorem convertRun_escaped (h : convertRun glob s 0 pos st = .ok st') :
    ∃ q, st'.pcre = st.pcre ++ q ∧ Escaped (escapesComma st.escape st.inCharClass s) q := by
  induction hn : s.length using Nat.strong_induction_on generalizing s pos st with
  | _ n ih =>
    cases s with
    | nil =>
      obtain rfl := ok.inj h
      refine ⟨[], (append_nil _).symm, ?_⟩
      cases st.escape <;> exact .nil
    | cons c s =>
      have hlt : s.length < n := by
        rw [← hn]
        exact Nat.lt_succ_self _
      rw [convertRun] at h
      by_cases hback : c = '\\' ∧ st.escape = false
      · rw [if_pos hback] at h
        obtain ⟨q, hq, hesc⟩ := ih s.length hlt h rfl
        refine ⟨q, hq, ?_⟩
        rwa [hback.2, escapesComma, if_pos hback.1]
      · rw [if_neg hback] at h
        cases hchar : convertChar glob pos c s st with
        | error e =>
          rw [hchar] at h
          cases h
        | ok r =>
          obtain ⟨st₁, k⟩ := r
          rw [hchar] at h
          have hquote : c = '\\' → st.escape = true := by
            intro hc
            by_contra hesc
            exact hback ⟨hc, Bool.eq_false_iff.mpr hesc⟩
          have hemits := convertChar_emits hchar hquote
          obtain ⟨d, r, rfl, rfl, hd⟩ := hemits.skips
          obtain ⟨q₁, hq₁, hesc₁⟩ := hemits.pcre
          have hrun : convertRun glob r 0 (pos + 1 + d.length) { st₁ with escape := false } = .ok st' := by
            rw [← convertRun_skip]
            exact h
          obtain ⟨q, hq, hesc⟩ := ih r.length (by rw [length_append] at hlt; omega) hrun rfl
          refine ⟨q₁ ++ q, ?_, ?_⟩
          · rw [hq, ← append_assoc, ← hq₁]
          · have happend := hesc₁.append hesc
            rw [hemits.cls] at happend
            rwa [escapesComma_cons hquote hd]

end Converts

theorem convert_escaped {aare pcre pcre' : Text} {anchor : Bool} {glob : GlobType} {ptype : PatternT} {firstRePos : ℕ}
    (h : convertAaregexToPcre aare anchor glob pcre = .ok (ptype, pcre', firstRePos)) :
    ∃ out, pcre' = pcre ++ out ∧ Escaped (escapesComma false false aare) out := by
  have hcaret : Escaped false ['^'] := .of_plain (by decide)
  have hdollar : Escaped false ['$'] := .of_plain (by decide)
  rw [convertAaregexToPcre] at h
  cases hrun : convertRun glob aare 0 0 ⟨if anchor then pcre ++ ['^'] else pcre, false, [], false, .basic, 0⟩ with
  | error e =>
    rw [hrun] at h
    cases h
  | ok st =>
    obtain ⟨q, hq, hesc⟩ := convertRun_escaped hrun
    rw [hrun] at h
    dsimp only at h hq hesc
    split_ifs at h hq with hopen hescape hanchor
    · obtain ⟨-, rfl, -⟩ := mk.inj (ok.inj h)
      refine ⟨['^'] ++ (q ++ ['$']), ?_, ?_⟩
      · rw [hq]
        simp only [append_assoc]
      · have hwhole := hcaret.append (hesc.append hdollar)
        rwa [Bool.or_false, Bool.false_or] at hwhole
    · obtain ⟨-, rfl, -⟩ := mk.inj (ok.inj h)
      exact ⟨q, hq, hesc⟩

/-- The converter writes an escape sequence that the lexer does not know only for a comma in a character class. -/
theorem regexLex_progress_iff {aare pcre pcre' : Text} {anchor : Bool} {glob : GlobType} {ptype : PatternT} {firstRePos : ℕ}
    (h : convertAaregexToPcre aare anchor glob pcre = .ok (ptype, pcre', firstRePos)) :
    ∃ out, pcre' = pcre ++ out ∧ (LexProgress out ↔ escapesComma false false aare = false) ∧
      (LexProgress out → (∃ t, regexParse out = .tree t) ∨ regexParse out = .syntaxError) := by
  obtain ⟨out, hout, hescaped⟩ := convert_escaped h
  refine ⟨out, hout, hescaped.progress_iff, fun hprogress => ?_⟩
  rw [hescaped.progress_iff.mp hprogress] at hescaped
  exact hescaped.regexParse_ends

theorem class_progress : ∃ out, "[a\\x2c]".toList = [] ++ out ∧ (LexProgress out ↔ escapesComma false false "[a\\x2c]".toList = false) ∧
    (LexProgress out → (∃ t, regexParse out = .tree t) ∨ regexParse out = .syntaxError) :=
  regexLex_progress_iff (by decide :
    convertAaregexToPcre "[a\\x2c]".toList false .default [] = .ok (.regex, "[a\\x2c]".toList, 0))

theorem escaped_comma_repeats : ∃ pcre, convertAaregexToPcre "[a\\,b]".toList false .default [] = .ok (.regex, pcre, 0) ∧
    LexPosition pcre ['\\', ',', 'b', ']'] ∧ regexLex '\\' [',', 'b', ']'] = .again ∧ regexParse pcre = .diverges := by
  have hopen : regexLex '[' ['a', '\\', ',', 'b', ']'] = .token .lbrack 0 := rfl
  have hchar : regexLex 'a' ['\\', ',', 'b', ']'] = .token (.char 97) 0 := rfl
  exact ⟨['[', 'a', '\\', ',', 'b', ']'], by decide, .next (.next .start hopen) hchar, by decide, by decide⟩

end AppArmor

import AppArmor.Glob.Pieces

namespace AppArmor

open List

section Classes

variable {glob : GlobType} {st : Converter} {first : Bool} {p s r : Text} {c : ℕ} {items : List ClassItem}

structure ClassCharOut (glob : GlobType) (first : Bool) (p s : Text) (c : ℕ) (q : Text) (t : RegexToken) : Prop where
  piece : ∀ {st : Converter}, st.escape = false → st.inCharClass = true →
    Piece glob st (p ++ s) s q true st.groupingCount
  token : ClassToken first t c
  lexes : ∀ {o}, Follows s o → LexesAs q o t
  follows : ∀ {o}, Follows (p ++ s) (q ++ o)

theorem quotes_dash (s : Text) : Quotes '-' s := ⟨0, rfl⟩

theorem quotes_caret (s : Text) : Quotes '^' s := ⟨0, rfl⟩

theorem classChar_out (glob : GlobType) (h : ClassChar first p s c) : ∃ q t, ClassCharOut glob first p s c q t := by
  have hraw : ∀ {first : Bool} (c : Char) (t : RegexToken), c ∉ "\\*?]".toList → ClassToken first t c.toNat →
      (∀ o, LexesAs (rawOut true c) o t) → ClassCharOut glob first [c] s c.toNat (rawOut true c) t :=
    fun c t hc ht hlex => ⟨fun hst hcls => hcls ▸ piece_raw hst hc (Or.inl hcls), ht, fun _ => hlex _, follows_rawOut⟩
  have hquoted : ∀ {first : Bool} (c : Char) (t : RegexToken), Quotes c s → c ≠ ',' → ClassToken first t c.toNat →
      (∀ o, LexesAs (quotedOut true c) o t) → ClassCharOut glob first ['\\', c] s c.toNat (quotedOut true c) t :=
    fun c t hc hcomma ht hlex =>
      ⟨fun hst hcls => hcls ▸ piece_quoted hst hc (Or.inr hcomma), ht, fun _ => hlex _, follows_quotedOut hc⟩
  cases h with
  | raw c hc =>
    obtain ⟨t, hlex, ht⟩ := @classToken_rawOut c (by simp_all)
    exact ⟨_, t, hraw c t (by simp_all) (ht _) hlex⟩
  | dash => exact ⟨_, .dash, hraw '-' .dash (by decide) rfl fun o => ⟨'-', [], rfl, rfl⟩⟩
  | caret => exact ⟨_, .caret, hraw '^' .caret (by decide) rfl fun o => ⟨'^', [], rfl, rfl⟩⟩
  | quoted c hq hc =>
    have hback := hq.ne_backslash
    obtain ⟨t, hlex, ht⟩ := @classToken_quotedOut c (by simp_all)
    exact ⟨_, t, hquoted c t hq (by rintro rfl; exact hc (by decide)) (ht _) hlex⟩
  | quotedDash =>
    exact ⟨_, .dash, hquoted '-' .dash (quotes_dash s) (by decide) rfl fun o => ⟨'-', [], rfl, rfl⟩⟩
  | quotedCaret =>
    exact ⟨_, .caret, hquoted '^' .caret (quotes_caret s) (by decide) rfl fun o => ⟨'^', [], rfl, rfl⟩⟩
  | @escape _ x d _ _ hx =>
    exact ⟨_, .char c, fun hst hcls => hcls ▸ piece_escape hst hx, by cases first <;> rfl,
      fun ho => lexesAs_seq (hx.strEscseq_eq ho _), follows_cons (by decide)⟩

structure ClassOut (glob : GlobType) (first : Bool) (s : Text) (items : List ClassItem) (r q : Text)
    (us : List RegexToken) : Prop where
  piece : ∀ {st : Converter}, st.escape = false → st.inCharClass = true →
    Piece glob st s r (q ++ [']']) false st.groupingCount
  tokens : ClassTokens first items us
  lexes : ∀ {o rs}, Lexes o rs → Lexes (q ++ ']' :: o) (us ++ rs)
  follows : ∀ {o}, Follows s (q ++ ']' :: o)

theorem piece_close (hst : st.escape = false) (hcls : st.inCharClass = true) :
    Piece glob st (']' :: s) s [']'] false st.groupingCount := by
  intro pos
  apply convertRun_char (d := []) glob pos (fun h => by cases h)
  refine ⟨({ st with inCharClass := false }).append [']'], ?_, rfl, rfl, rfl, rfl⟩
  simp [convertChar, hst, hcls]

theorem lexes_cons {t : RegexToken} {o : Text} {c : Char} {ts : List RegexToken} (ht : ∀ o, regexLex c o = .token t 0)
    (h : Lexes o ts) : Lexes (c :: o) (t :: ts) :=
  .cons (p := [c]) ⟨c, [], rfl, ht _⟩ h

theorem classText_out (glob : GlobType) (h : ClassText first s items r) : ∃ q us, ClassOut glob first s items r q us := by
  induction h with
  | close =>
    exact ⟨[], [.rbrack], piece_close, .close, fun h => lexes_cons (fun _ => rfl) h, follows_cons (by decide)⟩
  | @char first p s r c items hc _ ih =>
    obtain ⟨q, t, hq⟩ := classChar_out glob hc
    obtain ⟨qs, us, hqs⟩ := ih
    refine ⟨q ++ qs, t :: us, fun hst hcls => ?_, .char hq.token hqs.tokens, fun h => ?_, @fun o => ?_⟩
    · rw [append_assoc]
      refine (hq.piece hst hcls).trans fun st' hst' hcls' hgroups => ?_
      rw [← hgroups]
      exact hqs.piece hst' hcls'
    · rw [append_assoc]
      exact .cons (hq.lexes hqs.follows) (hqs.lexes h)
    · rw [append_assoc]
      exact hq.follows
  | @range first p p' s r a b items ha hb _ ih =>
    obtain ⟨q, t, hq⟩ := classChar_out glob ha
    obtain ⟨q', t', hq'⟩ := classChar_out glob hb
    obtain ⟨qs, us, hqs⟩ := ih
    refine ⟨q ++ ('-' :: (q' ++ qs)), t :: .dash :: t' :: us, fun hst hcls => ?_, .range hq.token hq'.token hqs.tokens,
      fun h => ?_, @fun o => ?_⟩
    · rw [append_assoc]
      refine (hq.piece hst hcls).trans fun st₁ hst₁ hcls₁ hgroups₁ => ?_
      have hdash := @piece_raw glob st₁ '-' (p' ++ s) hst₁ (by decide) (Or.inl hcls₁)
      rw [hcls₁] at hdash
      have hout : '-' :: (q' ++ qs) ++ [']'] = ['-'] ++ (q' ++ (qs ++ [']'])) := by simp
      rw [hout]
      refine hdash.trans fun st₂ hst₂ hcls₂ hgroups₂ => ?_
      refine (hq'.piece hst₂ hcls₂).trans fun st₃ hst₃ hcls₃ hgroups₃ => ?_
      rw [← hgroups₁, ← hgroups₂, ← hgroups₃]
      exact hqs.piece hst₃ hcls₃
    · rw [append_assoc, cons_append, append_assoc]
      refine .cons (hq.lexes (follows_cons (by decide))) (lexes_cons (fun _ => rfl) ?_)
      exact .cons (hq'.lexes hqs.follows) (hqs.lexes h)
    · rw [append_assoc]
      exact hq.follows

end Classes

def wildOut : GlobType → Text
  | .default => ['[', '^', '/', '\\', 'x', '0', '0', ']']
  | .null => ['[', '^', '/', ']']

def anyOut : GlobType → Text
  | .default => ['[', '^', '\\', 'x', '0', '0', ']']
  | .null => ['.']

def wholeOut (glob : GlobType) (whole : Bool) : Text := if whole then wildOut glob else []

section Wildcards

variable {glob : GlobType} {st : Converter} {s o : Text} {pos : ℕ} {rs : List RegexToken}

theorem lexes_nul (h : Lexes o rs) : Lexes ('\\' :: 'x' :: '0' :: '0' :: o) (.char 0 :: rs) :=
  .cons (p := ['\\', 'x', '0', '0']) (lexesAs_seq (d := ['0', '0']) rfl) h

theorem lexes_wild (h : Lexes o rs) : Lexes (wildOut glob ++ o) (wildTokens glob ++ rs) := by
  have hclose : Lexes (']' :: o) (.rbrack :: rs) := lexes_cons (fun _ => rfl) h
  cases glob with
  | default =>
    exact lexes_cons (fun _ => rfl) (lexes_cons (fun _ => rfl) (lexes_cons (fun _ => rfl) (lexes_nul hclose)))
  | null => exact lexes_cons (fun _ => rfl) (lexes_cons (fun _ => rfl) (lexes_cons (fun _ => rfl) hclose))

theorem lexes_any (h : Lexes o rs) : Lexes (anyOut glob ++ o) (anyTokens glob ++ rs) := by
  cases glob with
  | default =>
    have hclose : Lexes (']' :: o) (.rbrack :: rs) := lexes_cons (fun _ => rfl) h
    exact lexes_cons (fun _ => rfl) (lexes_cons (fun _ => rfl) (lexes_nul hclose))
  | null => exact lexes_cons (fun _ => rfl) h

theorem lexes_whole {w : Bool} (h : Lexes o rs) : Lexes (wholeOut glob w ++ o) (wholeTokens glob w ++ rs) := by
  cases w with
  | true => exact lexes_wild h
  | false => exact h

theorem follows_wild : Follows s (wildOut glob ++ o) := by
  cases glob <;> exact follows_cons (by decide)

theorem follows_whole {w : Bool} (h : Follows s o) : Follows s (wholeOut glob w ++ o) := by
  cases w with
  | true => exact follows_wild
  | false => exact h

theorem follows_any : Follows s (anyOut glob ++ o) := by
  cases glob <;> exact follows_cons (by decide)

theorem appendGlob_wild (st : Converter) :
    st.appendGlob glob "[^/\\x00]".toList "[^/]".toList = st.append (wildOut glob) := by
  cases glob
  · exact congrArg st.append (by decide)
  · exact congrArg st.append (by decide)

theorem appendGlob_star (st : Converter) :
    st.appendGlob glob "[^/\\x00]*".toList "[^/]*".toList = st.append (wildOut glob ++ ['*']) := by
  cases glob
  · exact congrArg st.append (by decide)
  · exact congrArg st.append (by decide)

theorem appendGlob_doubleStar (st : Converter) :
    st.appendGlob glob "[^\\x00]*".toList ".*".toList = st.append (anyOut glob ++ ['*']) := by
  cases glob
  · exact congrArg st.append (by decide)
  · exact congrArg st.append (by decide)

variable {q r : Text} {items : List ClassItem}

theorem appends_append {st' : Converter} {q' : Text} {cls : Bool} {groups : List ℕ}
    (h : st'.pcre = st.pcre ++ q ∧ st'.inCharClass = cls ∧ st'.groupingCount = groups) :
    Appends st (q ++ q') cls groups { st'.append q' with escape := false } := by
  refine ⟨?_, rfl, h.2.1, h.2.2⟩
  change st'.pcre ++ q' = _
  rw [h.1, append_assoc]

theorem updateRePos_fields (st : Converter) (pos : ℕ) : (st.updateRePos pos).pcre = st.pcre ∧
    (st.updateRePos pos).inCharClass = st.inCharClass ∧ (st.updateRePos pos).groupingCount = st.groupingCount := by
  unfold Converter.updateRePos
  split_ifs <;> exact ⟨rfl, rfl, rfl⟩

def wholeAt (st : Converter) (s : Text) : Bool := decide (st.pcre.getLast? = some '/') && endsComponent s

theorem append_whole :
    (if st.pcre.getLast? = some '/' ∧ endsComponent s = true then
      st.appendGlob glob "[^/\\x00]".toList "[^/]".toList else st) = st.append (wholeOut glob (wholeAt st s)) := by
  have hwhole : wholeAt st s = true ↔ st.pcre.getLast? = some '/' ∧ endsComponent s = true := by simp [wholeAt]
  rw [appendGlob_wild]
  split_ifs with h
  · rw [hwhole.mpr h]
    rfl
  · rw [Bool.eq_false_iff.mpr (mt hwhole.mp h)]
    simp [Converter.append, wholeOut]

theorem piece_star (hst : st.escape = false) (hs : s.head? ≠ some '*') :
    Piece glob st ('*' :: s) s (wholeOut glob (wholeAt st s) ++ (wildOut glob ++ ['*'])) st.inCharClass
      st.groupingCount := by
  intro pos
  apply convertRun_char (d := []) glob pos (fun h => by cases h)
  have hstar : convertStar glob pos s st =
      ((((st.append (wholeOut glob (wholeAt st s))).regex pos).append (wildOut glob ++ ['*'])), 0) := by
    unfold convertStar
    rw [append_whole]
    dsimp only
    rw [appendGlob_star]
    split
    · exact absurd rfl hs
    · rfl
  refine ⟨((st.append (wholeOut glob (wholeAt st s))).regex pos).append (wildOut glob ++ ['*']), ?_, ?_⟩
  · rw [convertChar, hst]
    exact congrArg Except.ok hstar
  · exact appends_append (updateRePos_fields (st.append (wholeOut glob (wholeAt st s))) pos)

theorem piece_doubleStar (hst : st.escape = false) :
    Piece glob st ('*' :: '*' :: s) s (wholeOut glob (wholeAt st s) ++ (anyOut glob ++ ['*'])) st.inCharClass
      st.groupingCount := by
  intro pos
  apply convertRun_char (d := ['*']) glob pos (fun h => by cases h)
  have hwhole : wholeAt st ('*' :: s) = wholeAt st s := by simp [wholeAt, endsComponent]
  obtain ⟨ptype, hstar⟩ : ∃ ptype, convertStar glob pos ('*' :: s) st =
      (Converter.append { (st.append (wholeOut glob (wholeAt st s))).updateRePos pos with ptype := ptype }
        (anyOut glob ++ ['*']), 1) := by
    unfold convertStar
    rw [append_whole, hwhole]
    exact ⟨_, congrArg (·, 1) (appendGlob_doubleStar _)⟩
  refine ⟨Converter.append { (st.append (wholeOut glob (wholeAt st s))).updateRePos pos with ptype := ptype }
        (anyOut glob ++ ['*']), ?_, ?_⟩
  · rw [convertChar, hst]
    exact congrArg Except.ok hstar
  · exact appends_append (updateRePos_fields (st.append (wholeOut glob (wholeAt st s))) pos)

theorem piece_any (hst : st.escape = false) :
    Piece glob st ('?' :: s) s (wildOut glob) st.inCharClass st.groupingCount := by
  intro pos
  apply convertRun_char (d := []) glob pos (fun h => by cases h)
  refine ⟨(st.regex pos).append (wildOut glob), ?_, ?_⟩
  · rw [convertChar, hst, appendGlob_wild]
    rfl
  · refine appends_append (q := []) ?_
    rw [append_nil]
    exact updateRePos_fields st pos

theorem piece_openClass (hst : st.escape = false) :
    Piece glob st ('[' :: s) s ['['] true st.groupingCount := by
  intro pos
  apply convertRun_char (d := []) glob pos (fun h => by cases h)
  obtain ⟨hpcre, -, hgroups⟩ := updateRePos_fields st pos
  refine ⟨Converter.append { st.regex pos with inCharClass := true } ['['], ?_, ?_⟩
  · rw [convertChar, hst]
    rfl
  · refine appends_append (q := []) ⟨?_, rfl, hgroups⟩
    rw [append_nil]
    exact hpcre

theorem piece_openNeg (hst : st.escape = false) :
    Piece glob st ('[' :: '^' :: s) s ['[', '^'] true st.groupingCount := by
  refine (piece_openClass hst).trans fun st₁ hst₁ hcls₁ hgroups => ?_
  have hcaret := @piece_raw glob st₁ '^' s hst₁ (by decide) (Or.inl hcls₁)
  rw [hcls₁, hgroups] at hcaret
  exact hcaret

theorem piece_caret {p : Text} (hp : p = ['^'] ∨ p = ['\\', '^']) (hst : st.escape = false)
    (hcls : st.inCharClass = true) : Piece glob st (p ++ s) s ['^'] true st.groupingCount := by
  rcases hp with rfl | rfl
  · have hraw := @piece_raw glob st '^' s hst (by decide) (Or.inl hcls)
    rw [hcls] at hraw
    exact hraw
  · have hquoted := @piece_quoted glob st '^' s hst (quotes_caret s) (Or.inr (by decide))
    rw [hcls] at hquoted
    exact hquoted

variable {us : List RegexToken}

theorem ClassOut.piece_cls (hq : ClassOut glob true s items r q us)
    (hst : st.escape = false) : Piece glob st ('[' :: s) r ('[' :: q ++ [']']) false st.groupingCount :=
  (piece_openClass hst).trans fun _ hst₁ hcls₁ hgroups => hgroups ▸ hq.piece hst₁ hcls₁

theorem ClassOut.piece_negCls
    (hq : ClassOut glob true s items r q us) (hst : st.escape = false) :
    Piece glob st ('[' :: '^' :: s) r ('[' :: '^' :: q ++ [']']) false st.groupingCount :=
  (piece_openNeg hst).trans fun _ hst₁ hcls₁ hgroups => hgroups ▸ hq.piece hst₁ hcls₁

theorem ClassOut.piece_negCaret {p : Text}
    (hq : ClassOut glob false s items r q us) (hp : p = ['^'] ∨ p = ['\\', '^']) (hst : st.escape = false) :
    Piece glob st ('[' :: '^' :: (p ++ s)) r ('[' :: '^' :: '^' :: q ++ [']']) false st.groupingCount := by
  refine (piece_openNeg hst).trans fun st₁ hst₁ hcls₁ hgroups₁ => ?_
  refine (piece_caret hp hst₁ hcls₁).trans fun st₂ hst₂ hcls₂ hgroups₂ => ?_
  rw [← hgroups₁, ← hgroups₂]
  exact hq.piece hst₂ hcls₂

end Wildcards

section Groups

variable {glob : GlobType} {st st' : Converter} {s : Text} {pos : ℕ}

theorem convertRun_ok {c : Char} (hc : c ≠ '\\') (h : convertRun glob (c :: s) 0 pos st = .ok st') :
    ∃ st₁ k, convertChar glob pos c s st = .ok (st₁, k) ∧
      convertRun glob s k (pos + 1) { st₁ with escape := false } = .ok st' := by
  rw [convertRun, if_neg fun h => hc h.1] at h
  split at h
  · rename_i st₁ k hchar
    exact ⟨st₁, k, hchar, h⟩
  · cases h

theorem openBrace_ok (hst : st.escape = false) (hcls : st.inCharClass = false)
    (h : convertRun glob ('{' :: s) 0 pos st = .ok st') :
    ∃ pos' st₁, convertRun glob s 0 pos' st₁ = .ok st' ∧ Appends st ['('] false (0 :: st.groupingCount) st₁ := by
  obtain ⟨st₁, k, hchar, hrun⟩ := convertRun_ok (by decide) h
  rw [convertChar, hst, hcls] at hchar
  simp only [Bool.false_eq_true, if_false] at hchar
  split_ifs at hchar with hdepth
  cases hchar
  refine ⟨pos + 1, _, hrun, appends_append (q := []) ⟨?_, ?_, rfl⟩⟩
  · rw [append_nil]
    exact (updateRePos_fields st pos).1
  · exact (updateRePos_fields st pos).2.1.trans hcls

theorem closeBrace_ok (hst : st.escape = false) (hcls : st.inCharClass = false)
    (h : convertRun glob ('}' :: s) 0 pos st = .ok st') :
    ∃ pos' st₁ n groups, st.groupingCount = n :: groups ∧ convertRun glob s 0 pos' st₁ = .ok st' ∧
      Appends st [')'] false groups st₁ := by
  obtain ⟨st₁, k, hchar, hrun⟩ := convertRun_ok (by decide) h
  rw [convertChar, hst, hcls] at hchar
  simp only [Bool.false_eq_true, if_false] at hchar
  cases hgroups : st.groupingCount with
  | nil => simp [hgroups] at hchar
  | cons n groups =>
    rw [hgroups] at hchar
    dsimp only at hchar
    split_ifs at hchar with hn
    cases hchar
    exact ⟨pos + 1, _, n, groups, rfl, hrun, rfl, rfl, rfl, rfl⟩

theorem comma_ok (hst : st.escape = false) (hcls : st.inCharClass = false)
    (h : convertRun glob (',' :: s) 0 pos st = .ok st') :
    ∃ pos' st₁ groups, convertRun glob s 0 pos' st₁ = .ok st' ∧
      Appends st [if st.groupingCount = [] then ',' else '|'] false groups st₁ ∧
      groups.length = st.groupingCount.length := by
  obtain ⟨st₁, k, hchar, hrun⟩ := convertRun_ok (by decide) h
  rw [convertChar, hst, hcls] at hchar
  simp only [Bool.false_eq_true, if_false] at hchar
  cases hgroups : st.groupingCount with
  | nil =>
    rw [hgroups] at hchar
    cases hchar
    exact ⟨pos + 1, _, [], hrun, ⟨rfl, rfl, hcls, hgroups⟩, rfl⟩
  | cons n groups =>
    rw [hgroups] at hchar
    cases hchar
    exact ⟨pos + 1, _, (n + 1) :: groups, hrun, ⟨rfl, rfl, rfl, rfl⟩, rfl⟩

end Groups

section Text

variable {glob : GlobType}

theorem getLast_rawOut (cls : Bool) (c : Char) : (rawOut cls c).getLast? = some c := by
  unfold rawOut
  split_ifs <;> rfl

theorem getLast_quotedOut (cls : Bool) (c : Char) : (quotedOut cls c).getLast? = some c := by
  unfold quotedOut
  split_ifs
  · rfl
  · exact getLast_rawOut cls c

variable {s q : Text} {st st' : Converter} {cls : Bool} {groups : List ℕ}

theorem strntol_digits {base maxval n val v : ℕ} {d : Text} (h : strntol base maxval n (d ++ s) val = (v, d.length)) :
    ∀ x ∈ d, chrtoi x base ≠ none := by
  induction d generalizing n val with
  | nil => simp
  | cons x d ih =>
    obtain ⟨m, w, -, hw, -, hrec⟩ := strntol_succ_iff.mp h
    exact forall_mem_cons.mpr ⟨by simp [hw], ih hrec⟩

theorem Escapes.getLast_ne {c : Char} {d : Text} {v : ℕ} (h : Escapes c d s v) :
    ('\\' :: c :: d).getLast? ≠ some '/' := by
  have hdigit : ∀ {base : ℕ}, base ≤ 16 → (∀ x ∈ d, chrtoi x base ≠ none) → '/' ∉ d :=
    fun hb hd hmem => hd _ hmem (chrtoi_mono hb (by decide))
  have hc : c ≠ '/' := by
    rintro rfl
    have hseq := h.seq
    rw [strEscseq_cons] at hseq
    simp [isodigit, simpleEscape] at hseq
  have hd : '/' ∉ d := by
    have hseq := h.seq
    rw [strEscseq_cons] at hseq
    simp only [not_mem_nil, if_false] at hseq
    split_ifs at hseq with hoct hdec hhex
    · obtain ⟨hv, hk⟩ := EscSeq.char.inj hseq
      have hnum : strntol 8 255 3 (c :: d ++ s) 0 = (v, (c :: d).length) := Prod.ext hv hk
      exact hdigit (by omega) (forall_mem_cons.mp (strntol_digits hnum)).2
    · exact hdigit (by omega) (strntol_digits (escapeNumber_eq_char.mp hseq).2)
    · exact hdigit (by omega) (strntol_digits (escapeNumber_eq_char.mp hseq).2)
    · split at hseq
      · obtain rfl : d = [] := by simpa using (EscSeq.char.inj hseq).2
        exact not_mem_nil
      · cases hseq
  intro hlast
  have hmem := mem_of_getLast? hlast
  simp only [mem_cons] at hmem
  rcases hmem with hmem | hmem | hmem
  · exact absurd hmem (by decide)
  · exact hc hmem.symm
  · exact hd hmem

structure TextOut (glob : GlobType) (st st' : Converter) (s : Text) (ts : List GlobToken) (o : Text)
    (rs : List RegexToken) : Prop where
  pcre : st'.pcre = st.pcre ++ o
  lexes : Lexes o rs
  renders : Renders glob st.groupingCount.length ts rs
  follows : Follows s o

theorem Piece.run {r : Text} {pos : ℕ}
    (h : Piece glob st s r q cls groups) (hrun : convertRun glob s 0 pos st = .ok st') :
    ∃ pos' st₁, convertRun glob r 0 pos' st₁ = .ok st' ∧ Appends st q cls groups st₁ := by
  obtain ⟨pos', st₁, hrun₁, happ⟩ := h pos
  exact ⟨pos', st₁, hrun₁.symm.trans hrun, happ⟩

theorem Appends.slash {x : Char}
    (h : Appends st q cls groups st') (hq : q.getLast? = some x) :
    decide (x = '/') = decide (st'.pcre.getLast? = some '/') := by
  rw [h.pcre, getLast?_append, hq]
  simp

variable {ts : List GlobToken}

theorem TextOut.cons {st₁ : Converter} {r o : Text} {t : GlobToken}
    {us rs : List RegexToken} (ho : TextOut glob st₁ st' r ts o rs)
    (happ : Appends st q cls groups st₁) (hlex : Lexes (q ++ o) us) (hfollows : Follows s (q ++ o))
    (hrenders : Renders glob groups.length ts rs → Renders glob st.groupingCount.length (t :: ts) us) :
    TextOut glob st st' s (t :: ts) (q ++ o) us :=
  ⟨by rw [ho.pcre, happ.pcre, append_assoc], hlex, hrenders (happ.groups ▸ ho.renders), hfollows⟩

theorem globText_out {slash : Bool} (h : GlobText slash s ts)
    {pos : ℕ} (hst : st.escape = false) (hcls : st.inCharClass = false)
    (hslash : slash = decide (st.pcre.getLast? = some '/')) (hrun : convertRun glob s 0 pos st = .ok st')
    (hend : st'.groupingCount = []) : ∃ o rs, TextOut glob st st' s ts o rs := by
  induction h generalizing st pos with
  | nil =>
    obtain rfl := Except.ok.inj hrun
    refine ⟨[], [], (append_nil _).symm, .nil, ?_, follows_nil⟩
    rw [hend]
    exact .nil
  | @raw slash s ts c hc _ ih =>
    have hpiece := @piece_raw glob st c s hst (by simp_all) (Or.inr (by simp_all))
    rw [hcls] at hpiece
    obtain ⟨pos', st₁, hrun₁, happ⟩ := hpiece.run hrun
    obtain ⟨o, rs, ho⟩ := ih happ.escape happ.cls (happ.slash (getLast_rawOut _ c)) hrun₁
    rcases @lexesAs_rawOut c (by simp_all) with hlex | ⟨rfl, hlex⟩
    · exact ⟨_, _, ho.cons happ (.cons (hlex o) ho.lexes) follows_rawOut .lit⟩
    · exact ⟨_, _, ho.cons happ (.cons (hlex o) ho.lexes) follows_rawOut .dash⟩
  | @quoted slash s ts c hc _ ih =>
    have hpiece := @piece_quoted glob st c s hst hc (Or.inl hcls)
    rw [hcls] at hpiece
    obtain ⟨pos', st₁, hrun₁, happ⟩ := hpiece.run hrun
    obtain ⟨o, rs, ho⟩ := ih happ.escape happ.cls (happ.slash (getLast_quotedOut _ c)) hrun₁
    rcases lexesAs_quotedOut hc.ne_backslash with hlex | ⟨rfl, hlex⟩
    · exact ⟨_, _, ho.cons happ (.cons (hlex o) ho.lexes) (follows_quotedOut hc) .lit⟩
    · exact ⟨_, _, ho.cons happ (.cons (hlex o) ho.lexes) (follows_quotedOut hc) .dash⟩
  | @escape slash c d s v ts hc _ ih =>
    obtain ⟨pos', st₁, hrun₁, happ⟩ := (piece_escape hst hc).run hrun
    have hlast : false = decide (st₁.pcre.getLast? = some '/') := by
      have hne := hc.getLast_ne
      rw [happ.pcre, getLast?_append]
      simp_all
    obtain ⟨o, rs, ho⟩ := ih happ.escape (happ.cls.trans hcls) hlast hrun₁
    exact ⟨_, _, ho.cons happ (.cons (lexesAs_seq (hc.strEscseq_eq ho.follows _)) ho.lexes)
      (follows_cons (by decide)) .lit⟩
  | @star slash s ts hs _ ih =>
    obtain ⟨pos', st₁, hrun₁, happ⟩ := (piece_star hst hs).run hrun
    obtain ⟨o, rs, ho⟩ := ih happ.escape (happ.cls.trans hcls) (happ.slash (x := '*') (by simp)) hrun₁
    have hlex : Lexes (wholeOut glob (wholeAt st s) ++ (wildOut glob ++ ['*']) ++ o)
        (wholeTokens glob (wholeAt st s) ++ (wildTokens glob ++ .star :: rs)) := by
      rw [append_assoc, append_assoc]
      exact lexes_whole (lexes_wild (lexes_cons (fun _ => rfl) ho.lexes))
    refine ⟨_, _, ho.cons happ hlex ?_ ?_⟩
    · rw [append_assoc, append_assoc]
      exact follows_whole follows_wild
    · rw [hslash]
      exact .star
  | @doubleStar slash s ts _ ih =>
    obtain ⟨pos', st₁, hrun₁, happ⟩ := (piece_doubleStar hst).run hrun
    obtain ⟨o, rs, ho⟩ := ih happ.escape (happ.cls.trans hcls) (happ.slash (x := '*') (by simp)) hrun₁
    have hlex : Lexes (wholeOut glob (wholeAt st s) ++ (anyOut glob ++ ['*']) ++ o)
        (wholeTokens glob (wholeAt st s) ++ (anyTokens glob ++ .star :: rs)) := by
      rw [append_assoc, append_assoc]
      exact lexes_whole (lexes_any (lexes_cons (fun _ => rfl) ho.lexes))
    refine ⟨_, _, ho.cons happ hlex ?_ ?_⟩
    · rw [append_assoc, append_assoc]
      exact follows_whole follows_any
    · rw [hslash]
      exact .doubleStar
  | @any slash s ts _ ih =>
    obtain ⟨pos', st₁, hrun₁, happ⟩ := (piece_any hst).run hrun
    have hlast : (wildOut glob).getLast? = some ']' := by cases glob <;> rfl
    obtain ⟨o, rs, ho⟩ := ih happ.escape (happ.cls.trans hcls) (happ.slash hlast) hrun₁
    exact ⟨_, _, ho.cons happ (lexes_wild ho.lexes) follows_wild .any⟩
  | @cls slash s r items ts hitems _ ih =>
    obtain ⟨q, us, hq⟩ := classText_out glob hitems
    obtain ⟨pos', st₁, hrun₁, happ⟩ := (hq.piece_cls hst).run hrun
    obtain ⟨o, rs, ho⟩ := ih happ.escape happ.cls (happ.slash getLast?_concat) hrun₁
    have hlex : Lexes ('[' :: q ++ [']'] ++ o) (.lbrack :: us ++ rs) := by
      rw [append_assoc]
      exact lexes_cons (fun _ => rfl) (hq.lexes ho.lexes)
    exact ⟨_, _, ho.cons happ hlex (follows_cons (by decide)) (.cls hq.tokens)⟩
  | @negCls slash s r items ts hitems _ ih =>
    obtain ⟨q, us, hq⟩ := classText_out glob hitems
    obtain ⟨pos', st₁, hrun₁, happ⟩ := (hq.piece_negCls hst).run hrun
    obtain ⟨o, rs, ho⟩ := ih happ.escape happ.cls (happ.slash getLast?_concat) hrun₁
    have hlex : Lexes ('[' :: '^' :: q ++ [']'] ++ o) (.lbrack :: .caret :: us ++ rs) := by
      rw [append_assoc]
      exact lexes_cons (fun _ => rfl) (lexes_cons (fun _ => rfl) (hq.lexes ho.lexes))
    exact ⟨_, _, ho.cons happ hlex (follows_cons (by decide)) (.negCls hq.tokens)⟩
  | @negCaret slash p s r items ts hp hitems _ ih =>
    obtain ⟨q, us, hq⟩ := classText_out glob hitems
    obtain ⟨pos', st₁, hrun₁, happ⟩ := (hq.piece_negCaret hp hst).run hrun
    obtain ⟨o, rs, ho⟩ := ih happ.escape happ.cls (happ.slash getLast?_concat) hrun₁
    have hlex : Lexes ('[' :: '^' :: '^' :: q ++ [']'] ++ o) (.lbrack :: .caret :: .caret :: us ++ rs) := by
      rw [append_assoc]
      exact lexes_cons (fun _ => rfl) (lexes_cons (fun _ => rfl) (lexes_cons (fun _ => rfl) (hq.lexes ho.lexes)))
    exact ⟨_, _, ho.cons happ hlex (follows_cons (by decide)) (.negCaret hq.tokens)⟩
  | @openBrace slash s ts _ ih =>
    obtain ⟨pos', st₁, hrun₁, happ⟩ := openBrace_ok hst hcls hrun
    obtain ⟨o, rs, ho⟩ := ih happ.escape happ.cls (happ.slash (x := '(') rfl) hrun₁
    exact ⟨_, _, ho.cons happ (lexes_cons (fun _ => rfl) ho.lexes) (follows_cons (by decide)) .openBrace⟩
  | @comma slash s ts _ ih =>
    obtain ⟨pos', st₁, groups, hrun₁, happ, hlen⟩ := comma_ok hst hcls hrun
    cases hgroups : st.groupingCount with
    | nil =>
      rw [hgroups] at happ hlen
      obtain ⟨o, rs, ho⟩ := ih happ.escape happ.cls (happ.slash (x := ',') rfl) hrun₁
      refine ⟨_, _, ho.cons happ (lexes_cons (fun _ => rfl) ho.lexes) (follows_cons (by decide)) fun h => ?_⟩
      rw [hlen] at h
      rw [hgroups]
      exact .literalComma h
    | cons n outer =>
      rw [hgroups, if_neg (cons_ne_nil n outer)] at happ
      rw [hgroups] at hlen
      obtain ⟨o, rs, ho⟩ := ih happ.escape happ.cls (happ.slash (x := '|') rfl) hrun₁
      refine ⟨_, _, ho.cons happ (lexes_cons (fun _ => rfl) ho.lexes) (follows_cons (by decide)) fun h => ?_⟩
      rw [hlen] at h
      rw [hgroups]
      exact .comma h
  | @closeBrace slash s ts _ ih =>
    obtain ⟨pos', st₁, n, groups, hgroups, hrun₁, happ⟩ := closeBrace_ok hst hcls hrun
    obtain ⟨o, rs, ho⟩ := ih happ.escape happ.cls (happ.slash (x := ')') rfl) hrun₁
    refine ⟨_, _, ho.cons happ (lexes_cons (fun _ => rfl) ho.lexes) (follows_cons (by decide)) fun h => ?_⟩
    rw [hgroups]
    exact .closeBrace h

theorem convert_parse {aare pcre out : Text} {ptype : PatternT} {firstRePos : ℕ}
    (h : GlobText (decide (pcre.getLast? = some '/')) aare ts)
    (hok : convertAaregexToPcre aare false glob pcre = .ok (ptype, out, firstRePos)) :
    ∃ o g t, out = pcre ++ o ∧ globOf ts = some g ∧ regexParse o = .tree t ∧ t.byteWords = g.lang glob := by
  rw [convertAaregexToPcre] at hok
  simp only [Bool.false_eq_true, if_false] at hok
  split at hok
  · rename_i st hrun
    split_ifs at hok with hclosed hescape
    cases hok
    have hgroups : st.groupingCount = [] := by
      by_contra hne
      exact hclosed (Or.inl hne)
    obtain ⟨o, rs, ho⟩ := globText_out h rfl rfl rfl hrun hgroups
    obtain ⟨g, t, hg, ht, hw⟩ := parse_renders ho.renders rfl StateSim.init
    exact ⟨o, g, t, ho.pcre, hg, (regexRun_lexes ho.lexes _).trans ht, hw⟩
  · cases hok

/-- The text of a glob is parsed to an expression for the names that the glob stands for. -/
theorem convertAaregexToPcre_meaning (glob : GlobType) {aare pcre out : Text} {ts : List GlobToken} {ptype : PatternT}
    {firstRePos : ℕ} (h : GlobText (decide (pcre.getLast? = some '/')) aare ts)
    (hok : convertAaregexToPcre aare false glob pcre = .ok (ptype, out, firstRePos)) :
    ∃ o g t, out = pcre ++ o ∧ globOf ts = some g ∧ regexParse o = .tree t ∧ ∀ w, w ∈ t.byteWords ↔ w ∈ g.lang glob := by
  obtain ⟨o, g, t, hout, hg, ht, hw⟩ := convert_parse h hok
  exact ⟨o, g, t, hout, hg, ht, fun w => by rw [hw]⟩

end Text

def sampleGlob : Text := ['/', '*', '/', '[', 'a', '-', 'c', '\\', ']', ']', '{', ',', '?', '}']

theorem sampleGlob_text : GlobText false sampleGlob
    [.lit 47, .star true, .lit 47, .cls false [.range 97 99, .char 93], .openBrace, .comma, .any, .closeBrace] := by
  have hcls : ClassText true ['a', '-', 'c', '\\', ']', ']', '{', ',', '?', '}'] [.range 97 99, .char 93]
      ['{', ',', '?', '}'] :=
    .range (p := ['a']) (q := ['c']) (.raw 'a' (by decide)) (.raw 'c' (by decide))
      (.char (p := ['\\', ']']) (.quoted ']' ⟨0, rfl⟩ (by decide)) .close)
  exact .raw '/' (by decide) (.star (by decide) (.raw '/' (by decide) (.cls hcls
    (.openBrace (.comma (.any (.closeBrace .nil)))))))

theorem sampleGlob_meaning : ∃ ptype out pos, convertAaregexToPcre sampleGlob false .default [] = .ok (ptype, out, pos) ∧
    ∃ o g t, out = [] ++ o ∧ globOf [.lit 47, .star true, .lit 47, .cls false [.range 97 99, .char 93], .openBrace,
      .comma, .any, .closeBrace] = some g ∧ regexParse o = .tree t ∧ ∀ w, w ∈ t.byteWords ↔ w ∈ g.lang .default :=
  ⟨_, _, _, rfl, convertAaregexToPcre_meaning .default sampleGlob_text rfl⟩

/-- A wildcard does not match NUL bytes, and a star that is no whole component can be empty. -/
theorem glob_meaning_exceptions :
    (convertAaregexToPcre "?".toList false .default [] = .ok (.regex, "[^/\\x00]".toList, 0) ∧
      ∃ t, regexParse "[^/\\x00]".toList = .tree t ∧ [0] ∉ t.byteWords) ∧
    (convertAaregexToPcre "/*b".toList false .default [] = .ok (.regex, "/[^/\\x00]*b".toList, 1) ∧
      ∃ t, regexParse "/[^/\\x00]*b".toList = .tree t ∧ [47, 98] ∈ t.byteWords) := by
  refine ⟨⟨by decide +kernel, .cnode (wildLeaf .default), by decide +kernel, ?_⟩, ⟨by decide +kernel,
    .cat (.cat (.cnode (.char 47)) (.star (.cnode (wildLeaf .default)))) (.cnode (.char 98)), by decide +kernel, ?_⟩⟩
  · rw [byteWords_wildLeaf]
    rintro ⟨b, hb, he⟩
    cases he
    exact hb.2 rfl rfl
  · rw [Tree.byteWords_cat, Tree.byteWords_cat, Tree.byteWords_star, Tree.byteWords_cnode, Tree.byteWords_cnode]
    exact ⟨[47], ⟨[47], ⟨47, by decide, rfl⟩, [], Language.nil_mem_kstar _, rfl⟩, [98], ⟨98, by decide, rfl⟩, rfl⟩

end AppArmor

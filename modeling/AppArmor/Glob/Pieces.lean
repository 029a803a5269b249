import AppArmor.Glob.Tokens

namespace AppArmor

open List

section Escape

variable {base maxval n val v k : ℕ} {c : Char} {d s o chrs : Text}

def Stops (base : ℕ) (s o : Text) : Prop := ∀ x, o.head? = some x → chrtoi x base = none ∨ s.head? = some x

theorem strntol_zero_iff : strntol base maxval n s val = (v, 0) ↔
    val = v ∧ (n = 0 ∨ ∀ x w, s.head? = some x → chrtoi x base = some w → maxval < val * base + w) := by
  cases n with
  | zero => simp [strntol]
  | succ n =>
    cases s with
    | nil => simp [strntol]
    | cons x s =>
      cases hx : chrtoi x base with
      | none => grind [strntol]
      | some w => by_cases hmax : val * base + w > maxval <;> grind [strntol]

theorem strntol_succ_iff : strntol base maxval n (c :: s) val = (v, k + 1) ↔
    ∃ m w, n = m + 1 ∧ chrtoi c base = some w ∧ val * base + w ≤ maxval ∧
      strntol base maxval m s (val * base + w) = (v, k) := by
  cases n with
  | zero => simp [strntol]
  | succ n =>
    cases hc : chrtoi c base with
    | none => simp [strntol, hc]
    | some w =>
      by_cases hmax : val * base + w > maxval
      · simp [strntol, hc, hmax]
      · simp [strntol, hc, hmax, Prod.ext_iff]
        omega

theorem strntol_stops (h : strntol base maxval n (d ++ s) val = (v, d.length)) (ho : Stops base s o) :
    strntol base maxval n (d ++ o) val = (v, d.length) := by
  induction d generalizing n val with
  | nil =>
    obtain ⟨hv, hn⟩ := strntol_zero_iff.mp h
    refine strntol_zero_iff.mpr ⟨hv, hn.imp_right fun hs x w hx hw => ?_⟩
    rcases ho x hx with hnone | hsame
    · rw [hnone] at hw
      cases hw
    · exact hs x w hsame hw
  | cons x d ih =>
    obtain ⟨m, w, hn, hw, hmax, hrec⟩ := strntol_succ_iff.mp h
    exact strntol_succ_iff.mpr ⟨m, w, hn, hw, hmax, ih hrec⟩

theorem chrtoi_mono {base' : ℕ} (hb : base ≤ base') (h : chrtoi c base' = none) : chrtoi c base = none := by
  unfold chrtoi at h ⊢
  rw [Option.filter_eq_none_iff] at h ⊢
  intro a ha
  have hlt := h a ha
  simp only [decide_eq_true_eq] at hlt ⊢
  omega

theorem Stops.mono {base' : ℕ} (h : Stops base' s o) (hb : base ≤ base') : Stops base s o :=
  fun x hx => (h x hx).imp_left (chrtoi_mono hb)

theorem strEscseq_cons : strEscseq chrs (c :: s) =
    if isodigit c then .char (strntol 8 255 3 (c :: s) 0).1 (strntol 8 255 3 (c :: s) 0).2
    else if c = 'd' then escapeNumber 10 3 s
    else if c = 'x' then escapeNumber 16 2 s
    else
      match simpleEscape c with
      | some v => .char v 1
      | none => if c ∈ chrs then .char c.toNat 1 else .error 0 := rfl

theorem escapeNumber_eq_char :
    escapeNumber base n s = .char v (k + 1) ↔ k ≠ 0 ∧ strntol base 255 n s 0 = (v, k) := by
  unfold escapeNumber
  generalize strntol base 255 n s 0 = r
  obtain ⟨v', k'⟩ := r
  by_cases hk : k' = 0
  · simp [hk]
    omega
  · simp [hk]
    omega

theorem strEscseq_stops (h : strEscseq [] (c :: (d ++ s)) = .char v (d.length + 1)) (ho : Stops 16 s o) :
    strEscseq chrs (c :: (d ++ o)) = .char v (d.length + 1) := by
  rw [strEscseq_cons] at h ⊢
  by_cases hoct : isodigit c = true
  · rw [if_pos hoct] at h ⊢
    have hnum : strntol 8 255 3 (c :: (d ++ s)) 0 = (v, d.length + 1) := by
      obtain ⟨hv, hk⟩ := EscSeq.char.inj h
      exact Prod.ext hv hk
    rw [← cons_append] at hnum ⊢
    rw [strntol_stops (d := c :: d) hnum (ho.mono (by omega))]
    rfl
  rw [if_neg hoct] at h ⊢
  by_cases hdec : c = 'd'
  · rw [if_pos hdec] at h ⊢
    obtain ⟨hk, hnum⟩ := escapeNumber_eq_char.mp h
    exact escapeNumber_eq_char.mpr ⟨hk, strntol_stops hnum (ho.mono (by omega))⟩
  rw [if_neg hdec] at h ⊢
  by_cases hhex : c = 'x'
  · rw [if_pos hhex] at h ⊢
    obtain ⟨hk, hnum⟩ := escapeNumber_eq_char.mp h
    exact escapeNumber_eq_char.mpr ⟨hk, strntol_stops hnum ho⟩
  rw [if_neg hhex] at h ⊢
  cases hc : simpleEscape c with
  | none => simp [hc] at h
  | some w => simpa [hc] using h

end Escape

def rawOut (cls : Bool) (c : Char) : Text :=
  if c ∈ ".+|()".toList ∨ c ∈ "^$".toList ∧ cls = false then ['\\', c] else [c]

def quotedOut (cls : Bool) (c : Char) : Text := if c ∈ "*[]\x7b\x7d".toList then ['\\', c] else rawOut cls c

structure Appends (st : Converter) (q : Text) (cls : Bool) (groups : List ℕ) (st' : Converter) : Prop where
  pcre : st'.pcre = st.pcre ++ q
  escape : st'.escape = false
  cls : st'.inCharClass = cls
  groups : st'.groupingCount = groups

def Piece (glob : GlobType) (st : Converter) (s r q : Text) (cls : Bool) (groups : List ℕ) : Prop :=
  ∀ pos, ∃ pos' st', convertRun glob s 0 pos st = convertRun glob r 0 pos' st' ∧ Appends st q cls groups st'

theorem Piece.trans {glob : GlobType} {st : Converter} {s r r' q q' : Text} {cls cls' : Bool} {groups groups' : List ℕ}
    (h : Piece glob st s r q cls groups)
    (h' : ∀ st', st'.escape = false → st'.inCharClass = cls → st'.groupingCount = groups →
      Piece glob st' r r' q' cls' groups') : Piece glob st s r' (q ++ q') cls' groups' := by
  intro pos
  obtain ⟨pos₁, st₁, hrun₁, happ₁⟩ := h pos
  obtain ⟨pos₂, st₂, hrun₂, happ₂⟩ := h' st₁ happ₁.escape happ₁.cls happ₁.groups pos₁
  refine ⟨pos₂, st₂, hrun₁.trans hrun₂, ?_, happ₂.escape, happ₂.cls, happ₂.groups⟩
  rw [happ₂.pcre, happ₁.pcre, append_assoc]

section Pieces

variable {glob : GlobType} {st st' : Converter} {c : Char} {s d : Text} {pos v : ℕ}

theorem convertDefault_raw (h : st.escape = false) : convertDefault c s st = (st.append [c], 0) := by
  rw [convertDefault, h]
  rfl

theorem convertDefault_quoted (h : Quotes c s) : convertDefault c s st = (st.append [c], 0) := by
  obtain ⟨k, hk⟩ := h
  rw [convertDefault, hk]
  simp

theorem convertChar_raw (hst : st.escape = false) (hc : c ∉ "\\*?]".toList)
    (hcls : st.inCharClass = true ∨ c ∉ "[\x7b\x7d,".toList) :
    ∃ st', convertChar glob pos c s st = .ok (st', 0) ∧
      Appends st (rawOut st.inCharClass c) st.inCharClass st.groupingCount { st' with escape := false } := by
  have hregex : (st.regex pos).escape = st.escape ∧ (st.regex pos).pcre = st.pcre ∧
      (st.regex pos).groupingCount = st.groupingCount := by
    unfold Converter.regex Converter.updateRePos
    split_ifs <;> exact ⟨rfl, rfl, rfl⟩
  unfold convertChar
  split
  case h_4 | h_6 | h_7 | h_8 =>
    have hin : st.inCharClass = true := hcls.resolve_right (by decide)
    rw [hst, hin]
    refine ⟨_, rfl, ?_, ?_, ?_, ?_⟩ <;> simp [Converter.append, rawOut, hregex, hin]
  case h_9 | h_10 => exact ⟨_, rfl, by cases hin : st.inCharClass <;> simp [Converter.append, rawOut], rfl, rfl, rfl⟩
  case h_11 | h_12 | h_13 | h_14 | h_15 =>
    refine ⟨_, congrArg _ (convertDefault_raw hst), ?_, rfl, rfl, rfl⟩
    simp [Converter.append, rawOut]
  case h_16 =>
    refine ⟨_, congrArg _ (convertDefault_raw hst), ?_, rfl, rfl, rfl⟩
    simp_all [Converter.append, rawOut]
  all_goals exact absurd (by decide) hc

theorem Quotes.ne_backslash (h : Quotes c s) : c ≠ '\\' := by
  rintro rfl
  obtain ⟨k, hk⟩ := h
  rw [strEscseq_cons] at hk
  simp [isodigit, simpleEscape] at hk

theorem convertChar_quoted (hst : st.escape = true) (hc : Quotes c s) (hcls : st.inCharClass = false ∨ c ≠ ',') :
    ∃ st', convertChar glob pos c s st = .ok (st', 0) ∧
      Appends st (quotedOut st.inCharClass c) st.inCharClass st.groupingCount { st' with escape := false } := by
  have hback := hc.ne_backslash
  unfold convertChar
  split
  case h_1 => exact absurd rfl hback
  case h_2 | h_3 | h_4 | h_5 | h_6 | h_7 =>
    rw [hst]
    refine ⟨_, rfl, ?_, rfl, rfl, rfl⟩
    simp [Converter.append, quotedOut, rawOut]
  case h_8 =>
    have hin : st.inCharClass = false := hcls.resolve_right (fun h => h rfl)
    rw [hst, hin]
    refine ⟨_, rfl, ?_, rfl, hin, rfl⟩
    simp [Converter.append, quotedOut, rawOut]
  case h_9 | h_10 =>
    exact ⟨_, rfl, by cases hin : st.inCharClass <;> simp [Converter.append, quotedOut, rawOut], rfl, rfl, rfl⟩
  case h_11 | h_12 | h_13 | h_14 | h_15 =>
    refine ⟨_, congrArg _ (convertDefault_quoted hc), ?_, rfl, rfl, rfl⟩
    simp [Converter.append, quotedOut, rawOut]
  case h_16 =>
    refine ⟨_, congrArg _ (convertDefault_quoted hc), ?_, rfl, rfl, rfl⟩
    simp_all [Converter.append, quotedOut, rawOut]

theorem escape_start {k : ℕ} (h : strEscseq [] (c :: s) = .char v k) :
    c = '\\' ∨ c ∉ "*?[]\x7b\x7d,^$.+|()".toList := by
  by_contra hcon
  rw [not_or, not_not] at hcon
  have hc : c ∈ ['*', '?', '[', ']', '{', '}', ',', '^', '$', '.', '+', '|', '(', ')'] := hcon.2
  have hnone : ∀ c ∈ ['*', '?', '[', ']', '{', '}', ',', '^', '$', '.', '+', '|', '(', ')'],
      isodigit c = false ∧ c ≠ 'd' ∧ c ≠ 'x' ∧ simpleEscape c = none := forall_mem_of_all (by decide)
  obtain ⟨hoct, hdec, hhex, hsimple⟩ := hnone c hc
  rw [strEscseq_cons, hoct, if_neg hdec, if_neg hhex, hsimple] at h
  simp at h

theorem convertChar_escape (hst : st.escape = true) (h : strEscseq [] (c :: (d ++ s)) = .char v (d.length + 1)) :
    ∃ st', convertChar glob pos c (d ++ s) st = .ok (st', d.length) ∧
      Appends st ('\\' :: c :: d) st.inCharClass st.groupingCount { st' with escape := false } := by
  have hdefault : convertDefault c (d ++ s) st = (st.append ('\\' :: c :: d), d.length) := by
    rw [convertDefault, hst, h]
    simp
  by_cases hback : c = '\\'
  · subst hback
    have hd : d.length = 0 := by
      rw [strEscseq_cons] at h
      simp [isodigit, simpleEscape] at h
      simpa using h.2
    obtain rfl := length_eq_zero_iff.mp hd
    exact ⟨_, rfl, rfl, rfl, rfl, rfl⟩
  · have hc := (escape_start h).resolve_left hback
    have hchar : convertChar glob pos c (d ++ s) st = .ok (convertDefault c (d ++ s) st) := by
      unfold convertChar
      split
      case h_1 => exact absurd rfl hback
      case h_16 => rfl
      all_goals exact absurd (by decide) hc
    rw [hchar, hdefault]
    exact ⟨_, rfl, rfl, rfl, rfl, rfl⟩

theorem convertRun_skip (p s : Text) (pos : ℕ) (st : Converter) :
    convertRun glob (p ++ s) p.length pos st = convertRun glob s 0 (pos + p.length) st := by
  induction p generalizing pos with
  | nil => rfl
  | cons c p ih =>
    rw [cons_append, length_cons, convertRun, ih]
    congr 1
    omega

theorem convertRun_char {q : Text} {cls : Bool} {groups : List ℕ} (glob : GlobType) (pos : ℕ) (hc : c = '\\' → st.escape = true)
    (h : ∃ st', convertChar glob pos c (d ++ s) st = .ok (st', d.length) ∧
      Appends st q cls groups { st' with escape := false }) :
    ∃ pos' st', convertRun glob (c :: (d ++ s)) 0 pos st = convertRun glob s 0 pos' st' ∧
      Appends st q cls groups st' := by
  obtain ⟨st', hchar, happ⟩ := h
  refine ⟨pos + 1 + d.length, _, ?_, happ⟩
  rw [convertRun, if_neg (fun h => by simp [hc h.1] at h), hchar]
  exact convertRun_skip d s _ _

theorem convertRun_backslash (h : st.escape = false) (s : Text) (pos : ℕ) :
    convertRun glob ('\\' :: s) 0 pos st = convertRun glob s 0 (pos + 1) { st with escape := true } := by
  rw [convertRun, if_pos ⟨rfl, h⟩]

theorem piece_raw (hst : st.escape = false) (hc : c ∉ "\\*?]".toList)
    (hcls : st.inCharClass = true ∨ c ∉ "[\x7b\x7d,".toList) :
    Piece glob st (c :: s) s (rawOut st.inCharClass c) st.inCharClass st.groupingCount := by
  intro pos
  refine convertRun_char (d := []) glob pos (fun h => ?_) (convertChar_raw hst hc hcls)
  subst h
  exact absurd (by decide) hc

theorem piece_quoted (hst : st.escape = false) (hc : Quotes c s) (hcls : st.inCharClass = false ∨ c ≠ ',') :
    Piece glob st ('\\' :: c :: s) s (quotedOut st.inCharClass c) st.inCharClass st.groupingCount := by
  intro pos
  have hchar := @convertChar_quoted glob { st with escape := true } c s (pos + 1) rfl hc hcls
  obtain ⟨pos', st', hrun, happ⟩ := convertRun_char (d := []) glob (pos + 1) (fun _ => rfl) hchar
  exact ⟨pos', st', (convertRun_backslash hst _ pos).trans hrun, happ.pcre, happ.escape, happ.cls, happ.groups⟩

theorem piece_escape (hst : st.escape = false) (h : Escapes c d s v) :
    Piece glob st ('\\' :: c :: (d ++ s)) s ('\\' :: c :: d) st.inCharClass st.groupingCount := by
  intro pos
  have hchar := @convertChar_escape glob { st with escape := true } c s d (pos + 1) v rfl h.seq
  obtain ⟨pos', st', hrun, happ⟩ := convertRun_char glob (pos + 1) (fun _ => rfl) hchar
  exact ⟨pos', st', (convertRun_backslash hst _ pos).trans hrun, happ.pcre, happ.escape, happ.cls, happ.groups⟩

end Pieces

def Follows (s o : Text) : Prop :=
  ∀ x, o.head? = some x → chrtoi x 16 = none ∨ s.head? = some x ∨ ∃ s', s = '\\' :: x :: s' ∧ Quotes x s'

section Lexing

variable {c : Char} {d s o : Text} {v : ℕ} {cls : Bool}

theorem follows_nil : Follows s [] := by
  rintro x ⟨⟩

theorem follows_cons (hc : chrtoi c 16 = none) : Follows s (c :: o) := by
  rintro x ⟨⟩
  exact Or.inl hc

theorem head_rawOut (cls : Bool) (c : Char) : ∃ q, rawOut cls c = '\\' :: q ∨ rawOut cls c = c :: q := by
  unfold rawOut
  split_ifs
  · exact ⟨_, Or.inl rfl⟩
  · exact ⟨_, Or.inr rfl⟩

theorem follows_rawOut : Follows (c :: s) (rawOut cls c ++ o) := by
  obtain ⟨q, hq | hq⟩ := head_rawOut cls c
  · rw [hq]
    exact follows_cons (by decide)
  · rw [hq]
    rintro x ⟨⟩
    exact Or.inr (Or.inl rfl)

theorem follows_quotedOut (h : Quotes c s) : Follows ('\\' :: c :: s) (quotedOut cls c ++ o) := by
  unfold quotedOut
  split_ifs
  · exact follows_cons (by decide)
  · obtain ⟨q, hq | hq⟩ := head_rawOut cls c
    · rw [hq]
      exact follows_cons (by decide)
    · rw [hq]
      rintro x ⟨⟩
      exact Or.inr (Or.inr ⟨s, rfl, h⟩)

theorem Escapes.strEscseq_eq (h : Escapes c d s v) (ho : Follows s o) (chrs : Text) :
    strEscseq chrs (c :: (d ++ o)) = .char v (d.length + 1) := by
  by_cases hq : ∃ x s', o.head? = some x ∧ s = '\\' :: x :: s' ∧ Quotes x s'
  · obtain ⟨x, s', hx, hs, hquotes⟩ := hq
    refine strEscseq_stops (h.quoted x s' hs hquotes) fun y hy => Or.inr ?_
    rw [← hy, hx]
    rfl
  · refine strEscseq_stops h.seq fun x hx => ?_
    rcases ho x hx with hnone | hsame | ⟨s', hs, hquotes⟩
    · exact Or.inl hnone
    · exact Or.inr hsame
    · exact absurd ⟨x, s', hx, hs, hquotes⟩ hq

theorem lexesAs_plain (hc : c ∉ "\\*+.|^-[]()".toList) : LexesAs [c] o (.char c.toNat) := by
  refine ⟨c, [], rfl, ?_⟩
  unfold regexLex
  split
  case h_12 => rfl
  all_goals exact absurd (by decide) hc

theorem lexesAs_seq (h : strEscseq escapable (c :: (d ++ o)) = .char v (d.length + 1)) :
    LexesAs ('\\' :: c :: d) o (.char v) := by
  refine ⟨'\\', c :: d, rfl, ?_⟩
  rw [cons_append, regexLex, h]
  rfl

theorem lexesAs_escapable (hc : c ∈ escapable) : LexesAs ['\\', c] o (.char c.toNat) := by
  apply lexesAs_seq
  have hnone : ∀ c ∈ escapable, isodigit c = false ∧ c ≠ 'd' ∧ c ≠ 'x' ∧ simpleEscape c = none :=
    forall_mem_of_all (by decide)
  obtain ⟨hoct, hdec, hhex, hsimple⟩ := hnone c hc
  rw [strEscseq_cons, hoct, if_neg hdec, if_neg hhex, hsimple]
  simp [hc]

theorem lexesAs_rawOut (hc : c ∉ "\\*[]".toList) :
    (∀ o, LexesAs (rawOut false c) o (.char c.toNat)) ∨ c = '-' ∧ ∀ o, LexesAs (rawOut false c) o .dash := by
  unfold rawOut
  split_ifs with h
  · refine Or.inl fun o => lexesAs_escapable ?_
    have hmem : ∀ c, c ∈ ".+|()".toList ∨ c ∈ "^$".toList ∧ false = false → c ∈ escapable := by
      intro c hc
      rcases hc with hc | ⟨hc, -⟩
      · exact (show ∀ c ∈ ".+|()".toList, c ∈ escapable from forall_mem_of_all (by decide)) c hc
      · exact (show ∀ c ∈ "^$".toList, c ∈ escapable from forall_mem_of_all (by decide)) c hc
    exact hmem c h
  · by_cases hdash : c = '-'
    · exact Or.inr ⟨hdash, fun o => ⟨c, [], rfl, by rw [hdash]; rfl⟩⟩
    · refine Or.inl fun o => lexesAs_plain ?_
      simp_all

theorem lexesAs_quotedOut (hc : c ≠ '\\') :
    (∀ o, LexesAs (quotedOut false c) o (.char c.toNat)) ∨ c = '-' ∧ ∀ o, LexesAs (quotedOut false c) o .dash := by
  unfold quotedOut
  split_ifs with h
  · exact Or.inl fun o => lexesAs_escapable ((show ∀ c ∈ "*[]\x7b\x7d".toList, c ∈ escapable from forall_mem_of_all (by decide)) c h)
  · apply lexesAs_rawOut
    simp_all

theorem classToken_rawOut (hc : c ∉ "\\*]-^".toList) :
    ∃ t, (∀ o, LexesAs (rawOut true c) o t) ∧ ∀ first, ClassToken first t c.toNat := by
  have hout : rawOut true c = if c ∈ ".+|()".toList then ['\\', c] else [c] := by simp [rawOut]
  rw [hout]
  split_ifs with h
  · exact ⟨.char c.toNat, fun o => lexesAs_escapable ((show ∀ c ∈ ".+|()".toList, c ∈ escapable from forall_mem_of_all (by decide)) c h),
      fun first => by cases first <;> rfl⟩
  · by_cases hopen : c = '['
    · subst hopen
      exact ⟨.lbrack, fun o => ⟨'[', [], rfl, rfl⟩, fun first => by cases first <;> rfl⟩
    · refine ⟨.char c.toNat, fun o => lexesAs_plain ?_, fun first => by cases first <;> rfl⟩
      simp_all

theorem classToken_quotedOut (hc : c ∉ "\\-^".toList) :
    ∃ t, (∀ o, LexesAs (quotedOut true c) o t) ∧ ∀ first, ClassToken first t c.toNat := by
  unfold quotedOut
  split_ifs with h
  · exact ⟨.char c.toNat,
      fun o => lexesAs_escapable ((show ∀ c ∈ "*[]\x7b\x7d".toList, c ∈ escapable from forall_mem_of_all (by decide)) c h),
      fun first => by cases first <;> rfl⟩
  · apply classToken_rawOut
    simp_all

end Lexing

end AppArmor

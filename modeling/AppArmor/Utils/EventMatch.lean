import AppArmor.Utils.EventPieces

namespace AppArmor

open PyRe List Option EventPiece

namespace EventPiece

def reTokens : EventPiece → List Token
  | lit c => [.char c]
  | any => [.any]
  | plus => [.char '\\', .plus]
  | bol _ => [.bol]
  | eol _ => [.eol]
  | bar => [.bar]
  | quest => [.char '[', .bol, .char '/', .char '\x00', .char ']']
  | star =>
    [.char '(', .openGroup, .behind false '/', .set true [.char '/', .char '\x00'], .plus, .closeGroup, .bar,
      .openGroup, .behind true '/', .set true [.char '/', .char '\x00'], .star, .closeGroup, .closeGroup]

/-- The piece can take `v`, with `before` in front of it, last character first, and `after` behind it. -/
def Takes : EventPiece → (before v after : Text) → Prop
  | lit c, _, v, _ => v = [c]
  | any, _, v, _ => ∃ c ≠ '\n', v = [c]
  | plus, _, v, _ => v ≠ [] ∧ ∀ c ∈ v, c = '\\'
  | bol _, before, v, _ => v = [] ∧ before = []
  | eol _, _, v, after => v = [] ∧ (after = [] ∨ after = ['\n'])
  | bar, _, _, _ | quest, _, _, _ | star, _, _, _ => False

end EventPiece

def Spells : List EventPiece → (before w after : Text) → Prop
  | [], _, w, _ => w = []
  | x :: ps, before, w, after =>
    ∃ v w', w = v ++ w' ∧ x.Takes before v (w' ++ after) ∧ Spells ps (v.reverse ++ before) w' after

section Lex

variable {x : EventPiece} {ps : List EventPiece}

theorem foldr_tokens (ts : List Token) (r : Option (List Token)) :
    (ts.foldr (fun token r => r.map (token :: ·)) r) = r.map (ts ++ ·) := by
  induction ts with
  | nil => exact (Option.map_id' ).symm
  | cons token ts ih =>
    rw [foldr_cons, ih, Option.map_map]
    rfl

theorem lex_piece (hx : ∀ c, x = lit c → x.Fair) (t : Text) :
    lex .text (x.text ++ t) = x.reTokens.foldr (fun token r => r.map (token :: ·)) (lex .text t) := by
  cases x with
  | lit c =>
    change lex .text (quoteChars expressionQuoted c ++ t) = (lex .text t).map (.char c :: ·)
    rw [quoteChars]
    split_ifs with hquoted
    · have hall : ∀ c ∈ expressionQuoted, c.isAlphanum = false := forall_mem_of_all (by decide)
      exact lex_quoted (hall c hquoted)
    · have hall : ∀ c ∈ ['\\', '[', '(', ')', '|', '*', '+', '?', '^', '$', '.', '{'],
          c ∈ expressionQuoted ∨ c ∈ ['?', '*', '^', '|'] := forall_mem_of_all (by decide)
      exact lex_char fun hmem => (hall c hmem).elim hquoted (hx c rfl)
  | any | plus | bol | eol | bar | quest | star => rfl

theorem lex_pieces (hps : ∀ x ∈ ps, ∀ c, x = lit c → x.Fair) : lex .text (ps.flatMap text) = some (ps.flatMap reTokens) := by
  induction ps with
  | nil => rfl
  | cons x ps ih =>
    obtain ⟨hx, hrest⟩ := forall_mem_cons.mp hps
    rw [flatMap_cons, lex_piece hx, ih hrest, foldr_tokens, flatMap_cons]
    rfl

end Lex

/-! ### What the expression matches -/

section Read

variable {x : EventPiece} {ps : List EventPiece} {f : Frame} {p q : Place}

def Moves (x : EventPiece) (p q : Place) : Prop := ∃ v, Over p v q ∧ x.Takes p.before v q.after

def Goes (ps : List EventPiece) (p q : Place) : Prop := ∃ w, Over p w q ∧ Spells ps p.before w q.after

theorem goes_nil : Goes [] p q ↔ q = p := by
  constructor
  · rintro ⟨w, hover, rfl⟩
    exact hover.eq_nil
  · rintro rfl
    exact ⟨[], Over.refl q, rfl⟩

theorem goes_cons : Goes (x :: ps) p q ↔ ∃ m, Moves x p m ∧ Goes ps m q := by
  constructor
  · rintro ⟨w, hover, v, w', rfl, htakes, hspells⟩
    obtain ⟨m, hv, hw'⟩ := over_append_iff.mp hover
    refine ⟨m, ⟨v, hv, ?_⟩, w', hw', ?_⟩
    · rwa [hw'.1]
    · rwa [hv.2]
  · rintro ⟨m, ⟨v, hv, htakes⟩, w', hw', hspells⟩
    refine ⟨v ++ w', hv.trans hw', v, w', rfl, ?_, ?_⟩
    · rwa [← hw'.1]
    · rwa [← hv.2]

theorem read_piece (hbar : x ≠ bar) (hstar : x ≠ star) (f : Frame) :
    ∃ f' : Frame, (∀ ts, read (x.reTokens ++ ts) [] f = read ts [] f') ∧ f'.alts = f.alts ∧
      ∀ p q, q ∈ ends f'.flush p ↔ ∃ m ∈ ends f.flush p, Moves x m q := by
  have hadd : ∀ r, (∀ m q, q ∈ ends r m ↔ Moves x m q) → ∀ f' : Frame, f'.flush = .seq f.flush r →
      ∀ p q, q ∈ ends f'.flush p ↔ ∃ m ∈ ends f.flush p, Moves x m q := by
    intro r hr f' hf p q
    rw [hf, mem_ends_seq]
    simp only [hr]
  cases x with
  | lit c =>
    refine ⟨f.add (.char c), fun ts => rfl, rfl, hadd (.char c) (fun m q => ?_) _ rfl⟩
    rw [mem_ends_char, Moves]
    simp only [Takes, exists_eq_right]
  | any =>
    refine ⟨f.add .any, fun ts => rfl, rfl, hadd .any (fun m q => mem_one.trans ?_) _ rfl⟩
    simp only [decide_eq_true_eq, Moves, Takes]
    constructor
    · exact fun ⟨c, hc, hover⟩ => ⟨[c], hover, c, hc, rfl⟩
    · rintro ⟨v, hover, c, hc, rfl⟩
      exact ⟨c, hc, hover⟩
  | plus =>
    refine ⟨⟨f.alts, .seq f.flush (.plus (.char '\\')), none⟩, fun ts => rfl, rfl, hadd _ (fun m q => (mem_plus_one rfl).trans ?_) _ rfl⟩
    simp only [decide_eq_true_eq, Moves, Takes]
    exact exists_congr fun w => by tauto
  | bol =>
    refine ⟨f.close .bol, fun ts => rfl, rfl, hadd .bol (fun m q => ?_) _ rfl⟩
    rw [mem_ends_bol]
    constructor
    · rintro ⟨rfl, h⟩
      exact ⟨[], Over.refl _, rfl, h⟩
    · rintro ⟨v, hover, rfl, h⟩
      exact ⟨hover.eq_nil, h⟩
  | eol =>
    refine ⟨f.close .eol, fun ts => rfl, rfl, hadd .eol (fun m q => ?_) _ rfl⟩
    rw [mem_ends_eol]
    constructor
    · rintro ⟨rfl, h⟩
      exact ⟨[], Over.refl _, rfl, h⟩
    · rintro ⟨v, hover, rfl, h⟩
      obtain rfl := hover.eq_nil
      exact ⟨rfl, h⟩
  | bar => exact absurd rfl hbar
  | quest =>
    refine ⟨((((f.add (.char '[')).close .bol).add (.char '/')).add (.char '\x00')).add (.char ']'), fun ts => rfl, rfl, fun p q => ?_⟩
    -- a `^` behind a character matches nowhere
    constructor
    · intro hq
      obtain ⟨m₁, hm₁, -⟩ := mem_ends_seq.mp hq
      obtain ⟨m₂, hm₂, -⟩ := mem_ends_seq.mp hm₁
      obtain ⟨m₃, hm₃, -⟩ := mem_ends_seq.mp hm₂
      obtain ⟨m₄, hm₄, hbol⟩ := mem_ends_seq.mp hm₃
      obtain ⟨m₅, -, hchar⟩ := mem_ends_seq.mp hm₄
      have hbefore := (mem_ends_char.mp hchar).2
      rw [(mem_ends_bol.mp hbol).2] at hbefore
      cases hbefore
    · rintro ⟨m, -, v, -, hno⟩
      exact absurd hno id
  | star => exact absurd rfl hstar

theorem read_star (h : star ∈ ps) (f : Frame) : read (ps.flatMap reTokens) [] f = none := by
  induction ps generalizing f with
  | nil => exact absurd h not_mem_nil
  | cons x ps ih =>
    rw [flatMap_cons]
    by_cases hstar : x = star
    · rw [hstar]
      rfl
    · have hrest := (mem_cons.mp h).resolve_left (Ne.symm hstar)
      by_cases hbar : x = bar
      · rw [hbar]
        exact ih hrest _
      · obtain ⟨f', hread, -⟩ := read_piece hbar hstar f
        rw [hread]
        exact ih hrest f'

/-- The alternatives that a list of pieces stands for. -/
def branches (ps : List EventPiece) : List (List EventPiece) := ps.splitOnP (· = bar)

/-- The first alternative goes on from where `r` ends, the others begin anew. -/
def Enters (r : Re) (p q : Place) : List (List EventPiece) → Prop
  | [] => False
  | b :: bs => (∃ m ∈ ends r p, Goes b m q) ∨ ∃ b' ∈ bs, Goes b' p q

theorem branches_ne_nil (ps : List EventPiece) : branches ps ≠ [] := splitOnP_ne_nil _ ps

theorem branches_bar (ps : List EventPiece) : branches (bar :: ps) = [] :: branches ps := by
  rw [branches, splitOnP_cons_eq_if_modifyHead]
  rfl

theorem branches_cons (hbar : x ≠ bar) (ps : List EventPiece) :
    ∃ b bs, branches ps = b :: bs ∧ branches (x :: ps) = (x :: b) :: bs := by
  obtain ⟨b, bs, hps⟩ := exists_cons_of_ne_nil (branches_ne_nil ps)
  refine ⟨b, bs, hps, ?_⟩
  rw [branches, splitOnP_cons_eq_if_modifyHead, if_neg (by simpa using hbar), ← branches, hps]
  rfl

theorem mem_ends_re (f : Frame) : q ∈ ends f.re p ↔ (∃ r, f.alts = some r ∧ q ∈ ends r p) ∨ q ∈ ends f.flush p := by
  rw [Frame.re]
  cases f.alts with
  | none => simp
  | some r => simp [mem_ends_alt]

theorem enters_eps {bs : List (List EventPiece)} (hne : bs ≠ []) : Enters .eps p q bs ↔ ∃ b ∈ bs, Goes b p q := by
  obtain ⟨b, bs, rfl⟩ := exists_cons_of_ne_nil hne
  simp [Enters, ends]

theorem read_branches (hstar : star ∉ ps) (f : Frame) :
    ∃ r, read (ps.flatMap reTokens) [] f = some r ∧
      ∀ p q, q ∈ ends r p ↔ (∃ r', f.alts = some r' ∧ q ∈ ends r' p) ∨ Enters f.flush p q (branches ps) := by
  induction ps generalizing f with
  | nil =>
    refine ⟨f.re, rfl, fun p q => (mem_ends_re f).trans (or_congr_right ?_)⟩
    change _ ↔ (∃ m ∈ ends f.flush p, Goes [] m q) ∨ ∃ b ∈ [], Goes b p q
    simp [goes_nil]
  | cons x ps ih =>
    rw [mem_cons, not_or] at hstar
    by_cases hbar : x = bar
    · subst hbar
      obtain ⟨r, hr, hends⟩ := ih hstar.2 ⟨some f.re, .eps, none⟩
      refine ⟨r, hr, fun p q => ?_⟩
      have hflush : Frame.flush ⟨some f.re, .eps, none⟩ = .eps := rfl
      rw [hends, hflush, branches_bar, enters_eps (branches_ne_nil ps), Enters]
      simp only [some.injEq, exists_eq_left', mem_ends_re, goes_nil, exists_eq_right']
      exact or_assoc
    · obtain ⟨f', hread, halts, hflush⟩ := read_piece hbar (Ne.symm hstar.1) f
      obtain ⟨r, hr, hends⟩ := ih hstar.2 f'
      obtain ⟨b, bs, hps, hcons⟩ := branches_cons hbar ps
      refine ⟨r, by rw [flatMap_cons, hread, hr], fun p q => ?_⟩
      have hfirst : (∃ m ∈ ends f'.flush p, Goes b m q) ↔ ∃ m ∈ ends f.flush p, Goes (x :: b) m q := by
        simp only [hflush, goes_cons]
        constructor
        · rintro ⟨m, ⟨m₀, hm₀, hmove⟩, hgo⟩
          exact ⟨m₀, hm₀, m, hmove, hgo⟩
        · rintro ⟨m₀, hm₀, m, hmove, hgo⟩
          exact ⟨m, ⟨m₀, hm₀, hmove⟩, hgo⟩
      rw [hends, halts, hps, hcons, Enters, Enters, hfirst]

def Matched (ps : List EventPiece) (t : Text) : Prop := ∃ b ∈ branches ps, ∃ w after, t = w ++ after ∧ Spells b [] w after

/-- An expression of pieces compiles unless it has a star, and matches what one of its alternatives spells. -/
theorem compile_pieces (hps : ∀ x ∈ ps, ∀ c, x = lit c → x.Fair) :
    (star ∈ ps → compile (ps.flatMap text) = none) ∧
      (star ∉ ps → ∃ r, compile (ps.flatMap text) = some r ∧ ∀ t, matchStart r t = true ↔ Matched ps t) := by
  have hcompile : compile (ps.flatMap text) = read (ps.flatMap reTokens) [] .empty := by rw [compile, lex_pieces hps, bind_some]
  refine ⟨fun hstar => hcompile.trans (read_star hstar _), fun hstar => ?_⟩
  obtain ⟨r, hr, hends⟩ := read_branches hstar .empty
  refine ⟨r, hcompile.trans hr, fun t => ?_⟩
  rw [matchStart, Bool.not_eq_true', isEmpty_eq_false_iff_exists_mem]
  have hnone : ∀ q, ¬ ∃ r', Frame.empty.alts = some r' ∧ q ∈ ends r' ⟨[], t⟩ := by
    rintro q ⟨r', hr', -⟩
    cases hr'
  simp only [hends, hnone, false_or, show Frame.empty.flush = .eps from rfl, enters_eps (branches_ne_nil ps)]
  constructor
  · rintro ⟨q, b, hb, w, hover, hspells⟩
    exact ⟨b, hb, w, q.after, hover.1, hspells⟩
  · rintro ⟨b, hb, w, after, rfl, hspells⟩
    exact ⟨⟨w.reverse, after⟩, b, hb, w, ⟨rfl, by simp⟩, hspells⟩

end Read

/-! ### The words of an alternative -/

section Words

variable {x : EventPiece} {ps qs : List EventPiece} {before w after : Text}

/-- A piece sees only the last character before it. -/
theorem EventPiece.Takes.of_head {before' v : Text} (hhead : before.head? = before'.head?) (h : x.Takes before v after) :
    x.Takes before' v after := by
  cases x with
  | bol => exact ⟨h.1, head?_eq_none_iff.mp (by rw [← hhead, h.2]; rfl)⟩
  | lit | any | plus | eol | bar | quest | star => exact h

theorem Spells.of_head {before' : Text} (hhead : before.head? = before'.head?) (h : Spells ps before w after) :
    Spells ps before' w after := by
  induction ps generalizing before before' w with
  | nil => exact h
  | cons x ps ih =>
    obtain ⟨v, w', hw, htakes, hrest⟩ := h
    refine ⟨v, w', hw, htakes.of_head hhead, ih ?_ hrest⟩
    rw [head?_append, head?_append, hhead]

theorem spells_append : Spells (ps ++ qs) before w after ↔
    ∃ v w', w = v ++ w' ∧ Spells ps before v (w' ++ after) ∧ Spells qs (v.reverse ++ before) w' after := by
  induction ps generalizing before w with
  | nil =>
    constructor
    · exact fun h => ⟨[], w, rfl, rfl, h⟩
    · rintro ⟨v, w', rfl, rfl, h⟩
      exact h
  | cons x ps ih =>
    constructor
    · rintro ⟨v, w', rfl, htakes, hrest⟩
      obtain ⟨v', w', rfl, hps, hqs⟩ := ih.mp hrest
      refine ⟨v ++ v', w', (append_assoc v v' w').symm, ⟨v, v', rfl, ?_, hps⟩, ?_⟩
      · rwa [← append_assoc]
      · rwa [reverse_append, append_assoc]
    · rintro ⟨_, w', rfl, ⟨v, v', rfl, htakes, hps⟩, hqs⟩
      refine ⟨v, v' ++ w', append_assoc v v' w', ?_, ih.mpr ⟨v', w', rfl, hps, ?_⟩⟩
      · rwa [append_assoc]
      · rwa [reverse_append, append_assoc] at hqs

theorem Spells.atEnd {source : Text} (hmem : eol source ∈ ps) (h : Spells ps before w after) :
    after = [] ∨ after = ['\n'] := by
  obtain ⟨ps₁, ps₂, rfl⟩ := append_of_mem hmem
  obtain ⟨v, w', -, -, v', w'', -, htakes, -⟩ := spells_append.mp h
  rcases htakes.2 with hnil | hline
  · exact .inl (append_eq_nil_iff.mp hnil).2
  · exact (append_eq_singleton_iff.mp hline).elim (fun h => .inr h.2) fun h => .inl h.2

/-- What stands behind the word is seen by `$` alone. -/
theorem Spells.of_after {after' : Text}
    (hafter : (∃ source, eol source ∈ ps) → ∀ u, u ++ after = [] ∨ u ++ after = ['\n'] → u ++ after' = [] ∨ u ++ after' = ['\n'])
    (h : Spells ps before w after) : Spells ps before w after' := by
  induction ps generalizing before w with
  | nil => exact h
  | cons x ps ih =>
    obtain ⟨v, w', hw, htakes, hrest⟩ := h
    refine ⟨v, w', hw, ?_, ih (fun ⟨source, hmem⟩ => hafter ⟨source, mem_cons_of_mem _ hmem⟩) hrest⟩
    cases x with
    | eol source => exact ⟨htakes.1, hafter ⟨source, mem_cons_self⟩ _ htakes.2⟩
    | lit | any | plus | bol | bar | quest | star => exact htakes

/-- The piece takes one character for one of the text, or is an anchor that the text does not have. -/
def EventPiece.Single : EventPiece → Prop
  | lit _ | any => True
  | bol source | eol source => source = []
  | _ => False

/-- A piece takes no more characters than the text has in its place, or it can take two more. -/
theorem EventPiece.Takes.length_le {v : Text} (h : x.Takes before v after) :
    (2 ≤ v.length ∧ ∃ v', v'.length = v.length + 2 ∧ v'.reverse.head? = v.reverse.head? ∧ x.Takes before v' after) ∨
      v.length ≤ x.source.length ∧ (v.length = x.source.length → x.Single) := by
  cases x with
  | lit c =>
    right
    rw [show v = [c] from h]
    exact ⟨le_rfl, fun _ => trivial⟩
  | any =>
    right
    obtain ⟨c, -, rfl⟩ := h
    exact ⟨le_rfl, fun _ => trivial⟩
  | plus =>
    by_cases hlen : 2 ≤ v.length
    · obtain ⟨c, u, rfl⟩ := exists_cons_of_ne_nil h.1
      have hc := h.2 c mem_cons_self
      refine .inl ⟨hlen, '\\' :: '\\' :: c :: u, rfl, by simp, cons_ne_nil _ _, ?_⟩
      exact forall_mem_cons.mpr ⟨rfl, forall_mem_cons.mpr ⟨rfl, h.2⟩⟩
    · have hsource : plus.source.length = 2 := rfl
      exact .inr ⟨by omega, fun _ => by omega⟩
  | bol source | eol source =>
    right
    obtain rfl := h.1
    exact ⟨Nat.zero_le _, fun hlen => length_eq_zero_iff.mp hlen.symm⟩
  | bar | quest | star => exact absurd h id

theorem Spells.length_le (h : Spells ps before w after) :
    (2 ≤ w.length ∧ ∃ w', w'.length = w.length + 2 ∧ Spells ps before w' after) ∨
      w.length ≤ (ps.flatMap source).length ∧ (w.length = (ps.flatMap source).length → ∀ x ∈ ps, x.Single) := by
  induction ps generalizing before w with
  | nil =>
    obtain rfl : w = [] := h
    exact .inr ⟨le_rfl, fun _ x hx => absurd hx not_mem_nil⟩
  | cons x ps ih =>
    obtain ⟨v, w, rfl, htakes, hrest⟩ := h
    rw [flatMap_cons, length_append, length_append]
    rcases ih hrest with ⟨hlen, w', hlen', hlonger⟩ | ⟨hle, heq⟩
    · refine .inl ⟨by omega, v ++ w', by rw [length_append]; omega, v, w', rfl, ?_, hlonger⟩
      -- with a `$` here at most a newline is left
      cases x with
      | eol =>
        have hshort : (w ++ after).length ≤ 1 := by rcases htakes.2 with h | h <;> rw [h] <;> decide
        rw [length_append] at hshort
        omega
      | lit | any | plus | bol | bar | quest | star => exact htakes
    · rcases htakes.length_le with ⟨hlen, v', hlen', hhead, hlonger⟩ | ⟨hle', heq'⟩
      · refine .inl ⟨by omega, v' ++ w, by rw [length_append]; omega, v', w, rfl, hlonger, hrest.of_head ?_⟩
        rw [head?_append, head?_append, hhead]
      · refine .inr ⟨by omega, fun hlen => forall_mem_cons.mpr ⟨heq' (by omega), heq (by omega)⟩⟩

theorem branches_length (ps : List EventPiece) :
    branches ps = [ps] ∨ ∀ b ∈ branches ps, (b.flatMap source).length < (ps.flatMap source).length := by
  induction ps with
  | nil => exact .inl rfl
  | cons x ps ih =>
    by_cases hbar : x = bar
    · subst hbar
      right
      rw [branches_bar, flatMap_cons, length_append]
      have hle : ∀ b ∈ branches ps, (b.flatMap source).length ≤ (ps.flatMap source).length := by
        intro b hb
        rcases ih with hone | hless
        · rw [hone, mem_singleton] at hb
          rw [hb]
        · exact (hless b hb).le
      have hone : bar.source.length = 1 := rfl
      refine forall_mem_cons.mpr ⟨by rw [hone]; exact Nat.lt_of_lt_of_le zero_lt_one (Nat.le_add_right _ _), fun b hb => ?_⟩
      have := hle b hb
      omega
    · obtain ⟨b, bs, hps, hcons⟩ := branches_cons hbar ps
      rw [hps] at ih
      rw [hcons]
      rcases ih with hone | hless
      · obtain ⟨rfl, rfl⟩ := cons.inj hone
        exact .inl rfl
      · right
        obtain ⟨hb, hbs⟩ := forall_mem_cons.mp hless
        refine forall_mem_cons.mpr ⟨?_, fun b' hb' => ?_⟩
        · rw [flatMap_cons, flatMap_cons, length_append, length_append]
          omega
        · rw [flatMap_cons, length_append]
          have := hbs b' hb'
          omega

end Words

/-! ### Expressions that match one text -/

def EventPiece.fill : EventPiece → Text
  | lit c => [c]
  | any => ['x']
  | _ => []

section Exact

variable {ps : List EventPiece} {before w after s u : Text}

theorem spells_fill (hps : ∀ x ∈ ps, x.Single ∧ x.Fair) : Spells ps before (ps.flatMap fill) after := by
  induction ps generalizing before with
  | nil => rfl
  | cons x ps ih =>
    obtain ⟨⟨hsingle, hfair⟩, hrest⟩ := forall_mem_cons.mp hps
    cases x with
    | lit c => exact ⟨[c], _, rfl, rfl, ih hrest⟩
    | any => exact ⟨['x'], _, rfl, ⟨'x', by decide, rfl⟩, ih hrest⟩
    | bol | eol => exact absurd hsingle hfair
    | plus | bar | quest | star => exact absurd hsingle id

theorem length_fill (hps : ∀ x ∈ ps, x.Single) : (ps.flatMap fill).length = (ps.flatMap source).length := by
  rw [length_flatMap, length_flatMap]
  refine congrArg sum (map_congr_left fun x hx => ?_)
  have hsingle := hps x hx
  cases x with
  | lit | any => rfl
  | bol | eol => rw [show _ = [] from hsingle]; rfl
  | plus | bar | quest | star => exact absurd hsingle id

theorem literal_of_fill (hps : ∀ x ∈ ps, x.Single ∧ x.Fair) (h : ps.flatMap fill = ps.flatMap source) : ∀ x ∈ ps, x.Literal := by
  induction ps with
  | nil => exact fun x hx => absurd hx not_mem_nil
  | cons x ps ih =>
    obtain ⟨⟨hsingle, hfair⟩, hrest⟩ := forall_mem_cons.mp hps
    rw [flatMap_cons, flatMap_cons] at h
    cases x with
    | lit c => exact forall_mem_cons.mpr ⟨trivial, ih hrest (cons.inj h).2⟩
    | any => exact absurd (cons.inj h).1 (by decide)
    | bol | eol => exact absurd hsingle hfair
    | plus | bar | quest | star => exact absurd hsingle id

theorem spells_literal (hps : ∀ x ∈ ps, x.Literal) : Spells ps before w after ↔ w = ps.flatMap source := by
  induction ps generalizing before w with
  | nil => exact Iff.rfl
  | cons x ps ih =>
    obtain ⟨hx, hrest⟩ := forall_mem_cons.mp hps
    cases x with
    | lit c =>
      constructor
      · rintro ⟨v, w', rfl, rfl, hspells⟩
        rw [(ih hrest).mp hspells]
        rfl
      · exact fun hw => ⟨[c], _, hw, rfl, (ih hrest).mpr rfl⟩
    | any | plus | bol | eol | bar | quest | star => exact absurd hx id

theorem spells_anchored : Spells (bol [] :: (ps ++ [eol []])) [] w after ↔ Spells ps [] w after ∧ (after = [] ∨ after = ['\n']) := by
  constructor
  · rintro ⟨v, w', rfl, ⟨rfl, -⟩, hspells⟩
    obtain ⟨v, w', rfl, hps, v', w'', rfl, ⟨rfl, hend⟩, rfl⟩ := spells_append.mp hspells
    exact ⟨by simpa using hps, hend⟩
  · rintro ⟨hps, hend⟩
    exact ⟨[], w, rfl, ⟨rfl, rfl⟩, spells_append.mpr ⟨w, [], (append_nil w).symm, hps, [], [], rfl, ⟨rfl, hend⟩, rfl⟩⟩

theorem matched_literal (hps : ∀ x ∈ ps, x.Literal) {t : Text} : Matched (bol [] :: (ps ++ [eol []])) t ↔
    t = ps.flatMap source ∨ t = ps.flatMap source ++ ['\n'] := by
  have hbranches : branches (bol [] :: (ps ++ [eol []])) = [bol [] :: (ps ++ [eol []])] := by
    refine splitOnP_eq_singleton fun x hx => ?_
    rcases mem_cons.mp hx with rfl | hx
    · rfl
    · rcases mem_append.mp hx with hx | hx
      · have hlit := hps x hx
        cases x with
        | lit => rfl
        | any | plus | bol | eol | bar | quest | star => exact absurd hlit id
      · rw [mem_singleton.mp hx]
        rfl
  rw [Matched, hbranches]
  simp only [mem_singleton, exists_eq_left, spells_anchored, spells_literal hps]
  constructor
  · rintro ⟨w, after, rfl, rfl, rfl | rfl⟩
    · exact .inl (append_nil _)
    · exact .inr rfl
  · rintro (rfl | rfl)
    · exact ⟨_, [], (append_nil _).symm, rfl, .inl rfl⟩
    · exact ⟨_, ['\n'], rfl, rfl, .inr rfl⟩

theorem source_expressionPieces (u : Text) : (expressionPieces u).flatMap source = u := by
  rw [expressionPieces, flatMap_cons, flatMap_append, source_eventPieces]
  split_ifs
  · exact append_nil _
  · exact append_nil _

/-- An expression that matches one text only is made of its characters. -/
theorem literal_of_exact (hu : u <+: s) (hexact : ∀ t, t ≠ s ++ ['\n'] → (Matched (expressionPieces u) t ↔ t = s)) :
    u = s ∧ s.getLast? ≠ some '$' ∧ ∀ x ∈ eventPieces u, x.Literal := by
  have hlen : ∀ t, Matched (expressionPieces u) t → t.length = s.length ∨ t.length = s.length + 1 := by
    intro t ht
    by_cases hline : t = s ++ ['\n']
    · exact .inr (by rw [hline, length_append, length_singleton])
    · exact .inl (by rw [(hexact t hline).mp ht])
  obtain ⟨b, hb, w, after, hs, hspells⟩ := (hexact s (by simp)).mpr rfl
  -- without a `$` the text could go on
  obtain ⟨source, heol⟩ : ∃ source, eol source ∈ b := by
    by_contra hnone
    have hlonger := @Spells.of_after b [] w after (after ++ ['x', 'x']) (fun h => absurd h hnone) hspells
    have := hlen _ ⟨b, hb, w, _, rfl, hlonger⟩
    simp only [hs, length_append, length_cons, length_nil] at this
    omega
  have hafter : after = [] := by
    rcases hspells.atEnd heol with h | rfl
    · exact h
    · have hshorter := @Spells.of_after b [] w ['\n'] [] (fun _ v hv => by simp_all) hspells
      have := hlen _ ⟨b, hb, w, _, rfl, hshorter⟩
      simp only [hs, length_append, length_cons, length_nil] at this
      omega
  rw [hafter] at hspells
  rw [hafter, append_nil] at hs
  rw [← hs] at hspells
  rcases hspells.length_le with ⟨-, w', hlonger, hspells'⟩ | ⟨hle, hsingle⟩
  · have := hlen _ ⟨b, hb, w', _, rfl, hspells'⟩
    rw [append_nil] at this
    omega
  have hshort := hu.length_le
  have hall : branches (expressionPieces u) = [expressionPieces u] := by
    refine (branches_length _).resolve_right fun hless => ?_
    have := hless b hb
    rw [source_expressionPieces] at this
    omega
  rw [hall, mem_singleton] at hb
  subst hb
  rw [source_expressionPieces] at hle hsingle
  obtain rfl : u = s := hu.eq_of_length (by omega)
  have hpieces : ∀ x ∈ eventPieces u, x.Single ∧ x.Fair := fun x hx =>
    ⟨hsingle rfl x (mem_cons_of_mem _ (mem_append_left _ hx)), fair_eventPieces u x hx⟩
  have hlast : u.getLast? ≠ some '$' := by
    intro hend
    rw [expressionPieces, if_pos hend, append_nil] at heol
    rcases mem_cons.mp heol with heq | hmem
    · cases heq
    · exact absurd (hpieces _ hmem).1 (hpieces _ hmem).2
  refine ⟨rfl, hlast, literal_of_fill hpieces ?_⟩
  have hfill : Matched (expressionPieces u) ((eventPieces u).flatMap fill) := by
    refine ⟨_, by rw [hall]; exact mem_singleton_self _, (eventPieces u).flatMap fill, [], (append_nil _).symm, ?_⟩
    rw [expressionPieces, if_neg hlast]
    exact spells_anchored.mpr ⟨spells_fill hpieces, .inl rfl⟩
  have hlength := length_fill fun x hx => (hpieces x hx).1
  rw [source_eventPieces] at hlength ⊢
  refine (hexact _ fun hline => ?_).mp hfill
  rw [hline, length_append, length_singleton] at hlength
  omega

end Exact

end AppArmor

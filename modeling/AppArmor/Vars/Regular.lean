import AppArmor.Vars.Correct

namespace AppArmor

open Fuel List Function Nat

def refText (x : Text) : Text := '@' :: '{' :: (x ++ ['}'])

inductive VarPiece
  | lit (u : Text)
  | esc (c : Char) (u : Text)
  | ref (x : Text)
  deriving DecidableEq

/-- The two ways to keep an `@` at the end of one text and a `{` at the start of the next apart. -/
inductive JoinRule
  | noTrailingAt
  | noLeadingBrace
  deriving DecidableEq

def JoinRule.Apart : JoinRule → Text → Prop
  | noTrailingAt, u => u.getLast? ≠ some '@'
  | noLeadingBrace, u => u.head? ≠ some '{'

instance (m : JoinRule) (u : Text) : Decidable (m.Apart u) := by
  cases m <;> exact instDecidableNot

/-- No `@{` stands in the text or arises where it is joined with others. -/
def JoinRule.Sealed (m : JoinRule) (u : Text) : Prop := ¬ ['@', '{'] <:+: u ∧ m.Apart u

instance (m : JoinRule) (u : Text) : Decidable (m.Sealed u) := instDecidableAnd

namespace VarPiece

def text : VarPiece → Text
  | lit u => u
  | esc c u => '\\' :: c :: u
  | ref x => refText x

def Valid (m : JoinRule) : VarPiece → Prop
  | lit u => '\\' ∉ u ∧ m.Sealed u
  | esc c u => '\\' ∉ u ∧ m.Sealed ('\\' :: c :: u)
  | ref x => x.head?.any Char.isAlpha = true ∧ ∀ c ∈ x, c = '_' ∨ c.isAlphanum = true

def isRef : VarPiece → Bool
  | ref _ => true
  | _ => false

end VarPiece

def textOf (ps : List VarPiece) : Text := ps.flatMap VarPiece.text

def refCount (ps : List VarPiece) : ℕ := ps.countP VarPiece.isRef

structure IsPieces (m : JoinRule) (s : Text) (ps : List VarPiece) : Prop where
  valid : ∀ p ∈ ps, p.Valid m
  text : s = textOf ps

def Regular (m : JoinRule) (s : Text) : Prop := ∃ ps, IsPieces m s ps

def RefFree (m : JoinRule) (s : Text) : Prop := ∃ ps, IsPieces m s ps ∧ ∀ p ∈ ps, p.isRef = false

section Extract

variable {m : JoinRule} {ps : List VarPiece} {x s : Text} {i : ℕ}

theorem textOf_cons (p : VarPiece) (ps : List VarPiece) : textOf (p :: ps) = p.text ++ textOf ps := flatMap_cons

theorem textOf_append (ps qs : List VarPiece) : textOf (ps ++ qs) = textOf ps ++ textOf qs := flatMap_append

theorem extractLoop_slash (b : Bool) (start : Option ℕ) :
    extractLoop i b start ('\\' :: s) = extractLoop (i + 1) (!b) start s := by
  rw [extractLoop.eq_def]
  exact if_pos rfl

variable {c : Char} {u : Text}

theorem extractLoop_plain (hslash : c ≠ '\\') (hat : c ≠ '@') (hbrace : c ≠ '}') (b : Bool) (start : Option ℕ) :
    extractLoop i b start (c :: s) = extractLoop (i + 1) false start s := by
  rw [extractLoop.eq_def]
  dsimp only
  rw [if_neg hslash, if_neg hat, if_neg hbrace]

theorem extractLoop_open (c : Char) (start : Option ℕ) :
    extractLoop i false start ('@' :: '{' :: c :: s) = extractLoop (i + 3) false (some i) s := by
  rw [extractLoop.eq_def]
  dsimp only
  rw [if_neg (by decide), if_pos rfl, if_neg Bool.false_ne_true]
  rfl

theorem extractLoop_close (start : ℕ) : extractLoop i false (some start) ('}' :: s) = some (start, i) := by
  rw [extractLoop.eq_def]
  dsimp only
  rw [if_neg (by decide), if_neg (by decide), if_pos rfl, if_neg Bool.false_ne_true]

theorem extractLoop_lit (hslash : c ≠ '\\') (hat : c ≠ '@') (b : Bool) :
    extractLoop i b none (c :: s) = extractLoop (i + 1) false none s := by
  by_cases hbrace : c = '}'
  · rw [extractLoop.eq_def]
    dsimp only
    rw [if_neg hslash, if_neg hat, if_pos hbrace, ite_self]
  · exact extractLoop_plain hslash hat hbrace b none

/-- What stands behind a valid piece: with `noLeadingBrace`, no `{`. -/
def JoinRule.Follows (m : JoinRule) (s : Text) : Prop := m = .noLeadingBrace → s.head? ≠ some '{'

theorem extractLoop_at (h : s.head? ≠ some '{') : extractLoop i false none ('@' :: s) = extractLoop (i + 1) false none s := by
  rw [extractLoop.eq_def]
  dsimp only
  rw [if_neg (by decide), if_pos rfl, if_neg Bool.false_ne_true]
  split
  · exact absurd rfl h
  · exact absurd rfl h
  · rfl

theorem head_of_not_open (h : ¬ ['@', '{'] <:+: '@' :: u ++ s.take 1) : (u ++ s).head? ≠ some '{' := by
  intro hhead
  apply h
  cases u with
  | nil =>
    obtain ⟨s', rfl⟩ := head?_eq_some_iff.mp hhead
    exact infix_rfl
  | cons d u =>
    cases hhead
    exact ⟨[], u ++ s.take 1, rfl⟩

theorem extractLoop_run (hslash : '\\' ∉ u) (hopen : ¬ ['@', '{'] <:+: u ++ s.take 1) :
    extractLoop i false none (u ++ s) = extractLoop (i + u.length) false none s := by
  induction u generalizing i with
  | nil => rfl
  | cons c u ih =>
    have hstep : extractLoop i false none (c :: (u ++ s)) = extractLoop (i + 1) false none (u ++ s) := by
      by_cases hat : c = '@'
      · rw [hat] at hopen ⊢
        exact extractLoop_at (head_of_not_open hopen)
      · exact extractLoop_lit (fun hc => hslash (hc ▸ mem_cons_self)) hat false
    rw [cons_append, hstep, ih (fun h => hslash (mem_cons_of_mem c h)) fun h => hopen (h.trans (infix_cons infix_rfl)), length_cons,
      add_assoc, add_comm 1]

theorem JoinRule.Sealed.not_open (hu : m.Sealed u) (hs : m.Follows s) : ¬ ['@', '{'] <:+: u ++ s.take 1 := by
  obtain ⟨hopen, hapart⟩ := hu
  cases s with
  | nil => rwa [take_nil, append_nil]
  | cons c s =>
    rintro ⟨a, b, hab⟩
    rcases eq_nil_or_concat b with rfl | ⟨b, d, rfl⟩
    · -- the brace would be the first character behind the run
      rw [append_nil, take_succ_cons, take_zero, show (['@', '{'] : Text) = ['@'] ++ ['{'] from rfl, ← append_assoc] at hab
      obtain ⟨hu, hc⟩ := append_inj' hab rfl
      cases hc
      cases m with
      | noTrailingAt => exact hapart (hu ▸ getLast?_concat)
      | noLeadingBrace => exact hs rfl rfl
    · rw [take_succ_cons, take_zero, concat_eq_append, ← append_assoc] at hab
      exact hopen ⟨a, b, (append_inj' hab rfl).1⟩

theorem follows_textOf (hps : ∀ p ∈ ps, p.Valid m) (hs : m.Follows s) : m.Follows (textOf ps ++ s) := by
  rintro rfl
  induction ps with
  | nil => exact hs rfl
  | cons p ps ih =>
    obtain ⟨hp, hrest⟩ := forall_mem_cons.mp hps
    rw [textOf_cons, append_assoc]
    cases p with
    | esc c u => simp [VarPiece.text]
    | ref x => simp [VarPiece.text, refText]
    | lit u =>
      cases u with
      | nil => exact ih hrest
      | cons c u => exact hp.2.2

theorem extractLoop_escaped : extractLoop i true none (c :: s) = extractLoop (i + 1) false none s := by
  by_cases hslash : c = '\\'
  · rw [hslash, extractLoop_slash]
    rfl
  · by_cases hat : c = '@'
    · rw [hat, extractLoop.eq_def]
      exact (if_neg (by decide)).trans ((if_pos rfl).trans (if_pos rfl))
    · exact extractLoop_lit hslash hat true

theorem extractLoop_piece {p : VarPiece} (hp : p.Valid m) (href : p.isRef = false) (hs : m.Follows s) :
    extractLoop i false none (p.text ++ s) = extractLoop (i + p.text.length) false none s := by
  cases p with
  | lit u => exact extractLoop_run hp.1 (hp.2.not_open hs)
  | esc c u =>
    have hopen : ¬ ['@', '{'] <:+: u ++ s.take 1 := fun h =>
      hp.2.not_open hs (h.trans (suffix_append ['\\', c] (u ++ s.take 1)).isInfix)
    have hlen : (VarPiece.esc c u).text.length = 2 + u.length := by
      rw [VarPiece.text, length_cons, length_cons]
      omega
    change extractLoop i false none ('\\' :: c :: (u ++ s)) = _
    rw [extractLoop_slash, hlen, ← add_assoc, ← extractLoop_run hp.1 hopen]
    exact extractLoop_escaped
  | ref x => cases href

theorem extractLoop_pieces (hps : ∀ p ∈ ps, p.Valid m) (href : ∀ p ∈ ps, p.isRef = false) (hs : m.Follows s) :
    extractLoop i false none (textOf ps ++ s) = extractLoop (i + (textOf ps).length) false none s := by
  induction ps generalizing i with
  | nil => rfl
  | cons p ps ih =>
    rw [forall_mem_cons] at hps href
    rw [textOf_cons, append_assoc, extractLoop_piece hps.1 href.1 (follows_textOf hps.2 hs), ih hps.2 href.2, length_append,
      add_assoc]

theorem extractLoop_refFree (h : RefFree m u) (hs : m.Follows s) :
    extractLoop i false none (u ++ s) = extractLoop (i + u.length) false none s := by
  obtain ⟨ps, ⟨hps, rfl⟩, href⟩ := h
  exact extractLoop_pieces hps href hs

theorem RefFree.append (hs : RefFree m s) (hu : RefFree m u) : RefFree m (s ++ u) := by
  obtain ⟨ps, hps, hpref⟩ := hs
  obtain ⟨qs, hqs, hqref⟩ := hu
  refine ⟨ps ++ qs, ⟨forall_mem_append.mpr ⟨hps.valid, hqs.valid⟩, ?_⟩, forall_mem_append.mpr ⟨hpref, hqref⟩⟩
  rw [textOf_append, hps.text, hqs.text]

theorem name_char (h : c = '_' ∨ c.isAlphanum = true) : c ≠ '\\' ∧ c ≠ '@' ∧ c ≠ '}' ∧ c ≠ ',' := by
  refine ⟨?_, ?_, ?_, ?_⟩
  all_goals
    rintro rfl
    revert h
    decide

theorem name_cons (hx : (VarPiece.ref x).Valid m) : ∃ c cs, x = c :: cs ∧ c.isAlpha = true := by
  obtain ⟨hfirst, -⟩ := hx
  cases x with
  | nil => cases hfirst
  | cons c cs => exact ⟨c, cs, rfl, hfirst⟩

theorem extractLoop_name {start : ℕ} (hx : ∀ c ∈ x, c = '_' ∨ c.isAlphanum = true) :
    extractLoop i false (some start) (x ++ '}' :: s) = some (start, i + x.length) := by
  induction x generalizing i with
  | nil => exact extractLoop_close start
  | cons c x ih =>
    rw [forall_mem_cons] at hx
    obtain ⟨hslash, hat, hbrace, -⟩ := name_char hx.1
    rw [cons_append, extractLoop_plain hslash hat hbrace, ih hx.2, length_cons, add_assoc, add_comm 1]

theorem extractLoop_ref (hx : (VarPiece.ref x).Valid m) :
    extractLoop i false none (refText x ++ s) = some (i, i + x.length + 2) := by
  obtain ⟨c, x, rfl, -⟩ := name_cons hx
  have hname := hx.2
  have htail : extractLoop (i + 3) false (some i) (x ++ '}' :: s) = some (i, i + 3 + x.length) :=
    extractLoop_name fun d hd => hname d (mem_cons_of_mem c hd)
  have htext : refText (c :: x) ++ s = '@' :: '{' :: c :: (x ++ '}' :: s) := by simp [refText]
  rw [htext, extractLoop_open, htail, length_cons]
  congr 2
  omega

theorem extractVariable_refFree (h : RefFree m s) : extractVariable s = none := by
  obtain ⟨ps, ⟨hps, rfl⟩, href⟩ := h
  have hloop := @extractLoop_pieces m ps [] 0 hps href fun _ => by simp
  rw [append_nil] at hloop
  rw [extractVariable, hloop]
  rfl

theorem extractVariable_of_loop (h : extractLoop 0 false none (u ++ refText x ++ s) = some (u.length, u.length + x.length + 2)) :
    extractVariable (u ++ refText x ++ s) = some (u, refText x, s) := by
  have hlen : (refText x).length = x.length + 3 := by simp [refText]
  have hstop : u.length + x.length + 2 - u.length + 1 = (refText x).length := by omega
  have hrest : u.length + x.length + 2 + 1 = (u ++ refText x).length := by
    rw [length_append]
    omega
  rw [extractVariable, h, Option.map_some]
  dsimp only
  rw [hstop, hrest, drop_left, append_assoc, take_left, drop_left, take_left]

theorem extractVariable_pieces {qs : List VarPiece} (hps : ∀ p ∈ ps, p.Valid m) (href : ∀ p ∈ ps, p.isRef = false)
    (hx : (VarPiece.ref x).Valid m) :
    extractVariable (textOf (ps ++ .ref x :: qs)) = some (textOf ps, refText x, textOf qs) := by
  rw [textOf_append, textOf_cons, VarPiece.text, ← append_assoc]
  apply extractVariable_of_loop
  rw [append_assoc, extractLoop_pieces hps href fun _ => by simp [refText], extractLoop_ref hx, zero_add]

theorem checkName_valid {first : Char} (hfirst : first.isAlpha = true) (hx : ∀ c ∈ x, c = '_' ∨ c.isAlphanum = true) :
    checkName first x = .valid := by
  induction x with
  | nil => rfl
  | cons c x ih =>
    rw [forall_mem_cons] at hx
    rw [checkName, ih hx.2]
    by_cases hc : c = first
    · rw [if_pos hc, if_pos (hc ▸ hfirst)]
    · rw [if_neg hc, if_pos hx.1]

theorem processVar_ref (hx : (VarPiece.ref x).Valid m) : processVar (refText x) = some x := by
  obtain ⟨c, cs, hcons, hfirst⟩ := name_cons hx
  have hlast : (x ++ ['}']).getLast? = some '}' := getLast?_concat
  have hvar : isVar (refText x) = (.valid, x) := by
    unfold isVar refText
    simp only [true_or, if_true, hlast, dropLast_concat]
    rw [hcons, headD_cons, ← hcons, checkName_valid hfirst hx.2]
  rw [processVar, hvar, if_pos rfl]

end Extract

def Product (D : Definitions) : List VarPiece → Text → Prop
  | [], t => t = []
  | .ref x :: ps, t => ∃ r ∈ fullExpansion D x, ∃ t', t = r ++ t' ∧ Product D ps t'
  | p :: ps, t => ∃ t', t = p.text ++ t' ∧ Product D ps t'

def RegularDefs (m : JoinRule) (D : Definitions) : Prop := ∀ x vs, D x = some vs → ∀ v ∈ vs, Regular m v

section Pieces

variable {m : JoinRule} {D : Definitions} {ps qs : List VarPiece} {s t x : Text}

theorem refs_cases (ps : List VarPiece) :
    (∀ p ∈ ps, p.isRef = false) ∨ ∃ pre x suf, ps = pre ++ .ref x :: suf ∧ ∀ p ∈ pre, p.isRef = false := by
  induction ps with
  | nil => exact Or.inl fun p hp => absurd hp not_mem_nil
  | cons p ps ih =>
    cases hp : p.isRef with
    | true =>
      cases p with
      | ref x => exact Or.inr ⟨[], x, ps, rfl, fun p hp => absurd hp not_mem_nil⟩
      | lit u | esc c u => cases hp
    | false =>
      rcases ih with hnone | ⟨pre, x, suf, rfl, hpre⟩
      · exact Or.inl (forall_mem_cons.mpr ⟨hp, hnone⟩)
      · exact Or.inr ⟨p :: pre, x, suf, rfl, forall_mem_cons.mpr ⟨hp, hpre⟩⟩

theorem refCount_eq_zero (h : ∀ p ∈ ps, p.isRef = false) : refCount ps = 0 := by
  rw [refCount, countP_eq_zero]
  intro p hp
  rw [h p hp]
  exact Bool.false_ne_true

theorem refCount_replace (pre rs suf : List VarPiece) (h : ∀ p ∈ rs, p.isRef = false) :
    refCount (pre ++ rs ++ suf) < refCount (pre ++ .ref x :: suf) := by
  have hrs := refCount_eq_zero h
  unfold refCount at hrs ⊢
  rw [countP_append, countP_append, countP_append, countP_cons_of_pos rfl, hrs]
  omega

theorem product_cons {p : VarPiece} (hp : p.isRef = false) : Product D (p :: ps) t ↔ ∃ t', t = p.text ++ t' ∧ Product D ps t' := by
  cases p with
  | lit u | esc c u => exact Iff.rfl
  | ref x => cases hp

theorem product_append (h : ∀ p ∈ ps, p.isRef = false) :
    Product D (ps ++ qs) t ↔ ∃ t', t = textOf ps ++ t' ∧ Product D qs t' := by
  induction ps generalizing t with
  | nil => exact ⟨fun hq => ⟨t, rfl, hq⟩, fun ⟨t', ht, hq⟩ => ht ▸ hq⟩
  | cons p ps ih =>
    rw [forall_mem_cons] at h
    rw [cons_append, product_cons h.1]
    constructor
    · rintro ⟨t₁, rfl, hrest⟩
      obtain ⟨t₂, rfl, hq⟩ := (ih h.2).mp hrest
      exact ⟨t₂, by rw [textOf_cons, append_assoc], hq⟩
    · rintro ⟨t', rfl, hq⟩
      exact ⟨textOf ps ++ t', by rw [textOf_cons, append_assoc], (ih h.2).mpr ⟨t', rfl, hq⟩⟩

variable {pre suf : List VarPiece}

theorem IsPieces.replace {rs : List VarPiece} {r : Text} (hps : ∀ p ∈ pre ++ .ref x :: suf, p.Valid m) (hr : IsPieces m r rs) :
    IsPieces m (textOf pre ++ r ++ textOf suf) (pre ++ rs ++ suf) := by
  refine ⟨fun p hp => ?_, by rw [textOf_append, textOf_append, hr.text]⟩
  rw [mem_append, mem_append] at hp
  rcases hp with (hp | hp) | hp
  · exact hps p (mem_append_left _ hp)
  · exact hr.valid p hp
  · exact hps p (mem_append_right _ (mem_cons_of_mem _ hp))

structure Reference (m : JoinRule) (ps pre : List VarPiece) (x : Text) (suf : List VarPiece) : Prop where
  split : ps = pre ++ .ref x :: suf
  valid : ∀ p ∈ ps, p.Valid m
  first : ∀ p ∈ pre, p.isRef = false

theorem Reference.extract (h : Reference m ps pre x suf) :
    extractVariable (textOf ps) = some (textOf pre, refText x, textOf suf) ∧ processVar (refText x) = some x := by
  have hvalid := h.valid
  rw [h.split, forall_mem_append, forall_mem_cons] at hvalid
  rw [h.split]
  exact ⟨extractVariable_pieces hvalid.1 h.first hvalid.2.1, processVar_ref hvalid.2.1⟩

theorem pieces_cases (hps : ∀ p ∈ ps, p.Valid m) : RefFree m (textOf ps) ∨ ∃ pre x suf, Reference m ps pre x suf := by
  rcases refs_cases ps with hnone | ⟨pre, x, suf, hsplit, hpre⟩
  · exact Or.inl ⟨ps, ⟨hps, rfl⟩, hnone⟩
  · exact Or.inr ⟨pre, x, suf, hsplit, hps, hpre⟩

theorem expands_refFree (hD : RegularDefs m D) (h : Expands D s t) (hs : Regular m s) : RefFree m t := by
  induction h with
  | done h =>
    obtain ⟨ps, hps, rfl⟩ := hs
    rcases pieces_cases hps with hfree | ⟨pre, x, suf, href⟩
    · exact hfree
    · rw [href.extract.1] at h
      cases h
  | step h hx hd hv _ _ ihr iht =>
    obtain ⟨rs, hrs, -⟩ := ihr (hD _ _ hd _ hv)
    obtain ⟨ps, hps, rfl⟩ := hs
    rcases pieces_cases hps with hfree | ⟨pre, x, suf, href⟩
    · rw [extractVariable_refFree hfree] at h
      cases h
    · rw [href.extract.1] at h
      cases h
      exact iht ⟨_, IsPieces.replace (href.split ▸ hps) hrs⟩

theorem fullExpansion_refFree (hD : RegularDefs m D) {r : Text} (h : r ∈ fullExpansion D x) : RefFree m r := by
  obtain ⟨vs, hd, v, hv, hr⟩ := h
  exact expands_refFree hD hr (hD x vs hd v hv)

theorem expands_iff_product (hD : RegularDefs m D) (hps : ∀ p ∈ ps, p.Valid m) : Expands D (textOf ps) t ↔ Product D ps t := by
  induction hn : refCount ps using Nat.strong_induction_on generalizing ps t with
  | _ n ih =>
    rcases refs_cases ps with hnone | ⟨pre, x, suf, hsplit, hpre⟩
    · rw [expands_none (extractVariable_refFree ⟨ps, ⟨hps, rfl⟩, hnone⟩)]
      have happ := @product_append D ps [] t hnone
      rw [append_nil] at happ
      rw [happ]
      constructor
      · rintro rfl
        exact ⟨[], (append_nil _).symm, rfl⟩
      · rintro ⟨t', rfl, rfl⟩
        exact append_nil _
    · have href : Reference m ps pre x suf := ⟨hsplit, hps, hpre⟩
      rw [expands_iff href.extract.1 href.extract.2, hsplit, product_append hpre]
      have hrest : ∀ r ∈ fullExpansion D x, Expands D (textOf pre ++ r ++ textOf suf) t ↔
          ∃ t', t = textOf pre ++ r ++ t' ∧ Product D suf t' := by
        intro r hr
        obtain ⟨rs, hrs, hfree⟩ := fullExpansion_refFree hD hr
        have hpieces := IsPieces.replace (hsplit ▸ hps) hrs
        have hcount : refCount (pre ++ rs ++ suf) < n := by
          rw [← hn, hsplit]
          exact refCount_replace pre rs suf hfree
        have hboth : ∀ p ∈ pre ++ rs, p.isRef = false := forall_mem_append.mpr ⟨hpre, hfree⟩
        rw [hpieces.text, ih _ hcount hpieces.valid rfl, product_append hboth, textOf_append, hrs.text]
      constructor
      · rintro ⟨r, hr, ht⟩
        obtain ⟨t', rfl, hsuf⟩ := (hrest r hr).mp ht
        exact ⟨r ++ t', append_assoc .., r, hr, t', rfl, hsuf⟩
      · rintro ⟨-, rfl, r, hr, t', rfl, hsuf⟩
        exact ⟨r, hr, (hrest r hr).mpr ⟨t', (append_assoc ..).symm, hsuf⟩⟩

end Pieces

section References

variable {m : JoinRule} {D : Definitions} {ps : List VarPiece} {s x y : Text}

def Mentions (m : JoinRule) (D : Definitions) (x y : Text) : Prop := ∃ vs, D x = some vs ∧ ∃ v ∈ vs, ∃ ps, IsPieces m v ps ∧ .ref y ∈ ps

def Faulty (m : JoinRule) (D : Definitions) (x : Text) : Prop :=
  ∃ y, Relation.ReflTransGen (Mentions m D) x y ∧ (D y = none ∨ Relation.TransGen (Mentions m D) y y)

theorem closed_of_refs (hD : RegularDefs m D) (hps : ∀ p ∈ ps, p.Valid m) (hrefs : ∀ y, .ref y ∈ ps → ClosedVar D y) :
    Closed D (textOf ps) := by
  induction hn : refCount ps using Nat.strong_induction_on generalizing ps with
  | _ n ih =>
    rcases pieces_cases hps with hfree | ⟨pre, x, suf, href⟩
    · exact .done (extractVariable_refFree hfree)
    · have hmem : .ref x ∈ ps := href.split ▸ mem_append_right _ mem_cons_self
      obtain ⟨vs, hd, hvs⟩ := hrefs x hmem
      refine .step href.extract.1 href.extract.2 hd hvs fun r hr => ?_
      obtain ⟨rs, hrs, hfree⟩ := fullExpansion_refFree hD hr
      have hpieces := IsPieces.replace (href.split ▸ hps) hrs
      rw [hpieces.text]
      refine ih _ ?_ hpieces.valid (fun y hy => ?_) rfl
      · rw [← hn, href.split]
        exact refCount_replace pre rs suf hfree
      · rw [mem_append, mem_append] at hy
        rcases hy with (hy | hy) | hy
        · exact hrefs y (href.split ▸ mem_append_left _ hy)
        · cases hfree _ hy
        · exact hrefs y (href.split ▸ mem_append_right _ (mem_cons_of_mem _ hy))

variable (hvals : ∀ x vs, D x = some vs → vs ≠ []) (hD : RegularDefs m D)

include hvals hD

theorem Closed.refs (h : Closed D s) (hs : IsPieces m s ps) (hy : .ref y ∈ ps) :
    ClosedVar D y ∧ Acc (fun b a => Mentions m D a b) y := by
  induction h generalizing ps y with
  | done he =>
    exfalso
    rcases refs_cases ps with hnone | ⟨pre, x, suf, hsplit, hpre⟩
    · cases hnone _ hy
    · rw [hs.text, (Reference.mk hsplit hs.valid hpre).extract.1] at he
      cases he
  | @step s pre var suffix x vs he hx hd hvs _ ihv ihr =>
    rcases refs_cases ps with hnone | ⟨pre', x', suf, hsplit, hpre⟩
    · cases hnone _ hy
    · have href : Reference m ps pre' x' suf := ⟨hsplit, hs.valid, hpre⟩
      rw [hs.text, href.extract.1] at he
      cases he
      rw [href.extract.2] at hx
      cases hx
      have hclosed : ClosedVar D x := ⟨vs, hd, hvs⟩
      have hacc : Acc (fun b a => Mentions m D a b) x := by
        refine ⟨_, fun z hz => ?_⟩
        obtain ⟨vs', hd', v, hv, qs, hqs, hz⟩ := hz
        rw [hd] at hd'
        cases hd'
        exact (ihv v hv hqs hz).2
      rw [hsplit, mem_append, mem_cons] at hy
      rcases hy with hy | hy | hy
      · cases hpre _ hy
      · cases hy
        exact ⟨hclosed, hacc⟩
      · -- the reference is still there when the first one has been replaced
        obtain ⟨v, hv⟩ := exists_mem_of_ne_nil _ (hvals _ _ hd)
        obtain ⟨r, hr⟩ := (hvs v hv).expands hvals
        have hfull : r ∈ fullExpansion D x := ⟨vs, hd, v, hv, hr⟩
        obtain ⟨rs, hrs, -⟩ := fullExpansion_refFree hD hfull
        exact ihr r hfull (IsPieces.replace (hsplit ▸ hs.valid) hrs) (mem_append_right _ hy)

theorem ClosedVar.mentions (h : ClosedVar D x) (hy : Mentions m D x y) : ClosedVar D y ∧ Acc (fun b a => Mentions m D a b) y := by
  obtain ⟨vs, hd, hclosed⟩ := h
  obtain ⟨vs', hd', v, hv, ps, hps, hy⟩ := hy
  rw [hd] at hd'
  cases hd'
  exact (hclosed v hv).refs hvals hD hps hy

theorem ClosedVar.not_faulty (h : ClosedVar D x) : ¬ Faulty m D x := by
  rintro ⟨y, hpath, hfault⟩
  have hy : ClosedVar D y := by
    clear hfault
    induction hpath with
    | refl => exact h
    | tail _ hstep ih => exact (ih.mentions hvals hD hstep).1
  rcases hfault with hnone | hcycle
  · obtain ⟨vs, hd, -⟩ := hy
    rw [hnone] at hd
    cases hd
  · have hacc : Acc (fun b a => Mentions m D a b) y := ⟨_, fun z hz => (hy.mentions hvals hD hz).2⟩
    clear hpath hy
    induction hacc with
    | intro y _ ih =>
      obtain ⟨z, hyz, hzy⟩ := Relation.TransGen.head'_iff.mp hcycle
      exact ih z hyz (Relation.TransGen.tail' hzy hyz)

end References

/-! ### The expansion of regular values ends -/

def Frame (t t' : Symtab) : Prop :=
  ∀ y, (t' y).map (fun v => { v with expanded := [] }) = (t y).map fun v => { v with expanded := [] }

structure Tame (m : JoinRule) (D : Definitions) (t : Symtab) : Prop where
  defs : t.defs = D
  expanded : ∀ y v, t y = some v → ∀ r ∈ v.expanded, RefFree m r

section Ends

variable {m : JoinRule} {D : Definitions} {t t' t'' : Symtab} {x y : Text} {v : Variable}

theorem Frame.refl (t : Symtab) : Frame t t := fun _ => rfl

theorem Frame.trans (h : Frame t t') (h' : Frame t' t'') : Frame t t'' := fun y => (h' y).trans (h y)

theorem Frame.lookup (h : Frame t t') (hv : t y = some v) : ∃ E, t' y = some { v with expanded := E } := by
  have hy := h y
  rw [hv, Option.map_some, Option.map_eq_some_iff] at hy
  obtain ⟨v', hv', heq⟩ := hy
  refine ⟨v'.expanded, ?_⟩
  rw [hv']
  cases v
  cases v'
  simp only [Variable.mk.injEq] at heq
  simp [heq.1, heq.2.1, heq.2.2.1, heq.2.2.2]

theorem Frame.symm (h : Frame t t') : Frame t' t := fun y => (h y).symm

theorem Frame.none (h : Frame t t') (hy : t y = none) : t' y = none := by
  have hmap := h y
  rw [hy, Option.map_none, Option.map_eq_none_iff] at hmap
  exact hmap

theorem Frame.update (h : Frame t t') (hv : t x = some v) (E : List Text) :
    Frame t (Function.update t' x (some { v with expanded := E })) := by
  intro y
  by_cases hy : y = x
  · rw [hy, update_self, hv]
    rfl
  · rw [update_of_ne hy]
    exact h y

theorem Tame.update (h : Tame m D t) {w : Variable} (hv : t x = some v) (htype : w.type = v.type) (hvalues : w.values = v.values)
    (hw : ∀ r ∈ w.expanded, RefFree m r) : Tame m D (Function.update t x (some w)) := by
  refine ⟨(defs_update hv w htype hvalues).trans h.defs, fun y u hu => ?_⟩
  by_cases hy : y = x
  · rw [hy, update_self] at hu
    cases hu
    exact hw
  · rw [update_of_ne hy] at hu
    exact h.expanded y u hu

def Ends (m : JoinRule) (D : Definitions) (t : Symtab) (x : Text) : Prop :=
  ∃ t' rc, Returns (fun fuel => expandVariable fuel t x) (t', rc) ∧ Frame t t' ∧ Tame m D t'

def EndsWork (m : JoinRule) (D : Definitions) (t : Symtab) (x : Text) (work : List Text) : Prop :=
  ∃ t' rc, Returns (fun fuel => expandWork fuel t x work) (t', rc) ∧ Frame t t' ∧ Tame m D t'

theorem EndsWork.stop (h : Tame m D t) {work : List Text} {rc : ExpandRc} (hrun : ∀ fuel, expandWork (fuel + 1) t x work = some (t, rc)) :
    EndsWork m D t x work :=
  ⟨t, rc, Returns.step ((Returns.pure (t, rc)).congr hrun), Frame.refl t, h⟩

theorem expandWork_ref {value pre var suffix : Text} {work : List Text} {fuel : ℕ}
    (he : extractVariable value = some (pre, var, suffix)) (hy : processVar var = some y) :
    expandWork (fuel + 1) t x (value :: work) =
      match t y with
      | none => some (t, .failed)
      | some ref =>
        if ref.expanding then some (t, .failed)
        else
          match expandVariable fuel t y with
          | none => none
          | some (t, .failed) => some (t, .failed)
          | some (t, .aborted) => some (t, .aborted)
          | some (t, .ok) =>
            match t y with
            | none => some (t, .failed)
            | some ref =>
              if ref.expanded = [] then some (t, .aborted)
              else expandWork fuel t x (work ++ ref.expanded.map fun r => pre ++ r ++ suffix) := by
  rw [expandWork, he]
  dsimp only
  generalize processVar var = found at hy ⊢
  subst hy
  rfl

theorem expandWork_ends (wps : List (List VarPiece)) (hwps : ∀ ps ∈ wps, ∀ p ∈ ps, p.Valid m) (ht : Tame m D t) (hv : t x = some v)
    (hnested : ∀ t₁ y w, Frame t t₁ → Tame m D t₁ → t₁ y = some w → w.expanding = false → Ends m D t₁ y) :
    EndsWork m D t x (wps.map textOf) := by
  have hacc : Acc (Relation.CutExpand (· < ·)) ((wps.map refCount : List ℕ) : Multiset ℕ) :=
    (WellFounded.cutExpand lt_wfRel.wf).apply _
  generalize hm : ((wps.map refCount : List ℕ) : Multiset ℕ) = counts at hacc
  induction hacc generalizing wps t v with
  | intro counts _ ih =>
    cases wps with
    | nil => exact EndsWork.stop ht fun fuel => rfl
    | cons ps wps =>
      obtain ⟨hps, hrest⟩ := forall_mem_cons.mp hwps
      rw [map_cons] at hm ⊢
      rcases refs_cases ps with hnone | ⟨pre, y, suf, hsplit, hpre⟩
      · -- no reference is left: the value goes to the expanded ones
        have hfree : RefFree m (textOf ps) := ⟨ps, ⟨hps, rfl⟩, hnone⟩
        have hins : t.insertExpanded x (textOf ps) =
            update t x (some { v with expanded := insertText (textOf ps) v.expanded }) := modify_eq hv _
        have hframe : Frame t (t.insertExpanded x (textOf ps)) := hins ▸ (Frame.refl t).update hv _
        have htame : Tame m D (t.insertExpanded x (textOf ps)) := by
          rw [hins]
          refine ht.update hv rfl rfl fun r hr => ?_
          rcases mem_insertText.mp hr with rfl | hr
          · exact hfree
          · exact ht.expanded x v hv r hr
        have hcut : Relation.CutExpand (· < ·) ((wps.map refCount : List ℕ) : Multiset ℕ) counts := by
          have hcut := @cut_head ℕ (· < ·) (refCount ps) (wps.map refCount) [] (by simp)
          rwa [append_nil, hm] at hcut
        obtain ⟨E, hv'⟩ := hframe.lookup hv
        obtain ⟨t', rc, hret, hframe', htame'⟩ := ih _ hcut wps hrest htame hv'
          (fun t₁ z w h => hnested t₁ z w (hframe.trans h)) rfl
        refine ⟨t', rc, Returns.step (hret.congr fun fuel => ?_), hframe.trans hframe', htame'⟩
        rw [expandWork, extractVariable_refFree hfree]
      · obtain ⟨hextract, hname⟩ := (Reference.mk hsplit hps hpre).extract
        have hrun := fun fuel => @expandWork_ref t x y _ _ _ _ (wps.map textOf) fuel hextract hname
        cases href : t y with
        | none =>
          rw [href] at hrun
          exact EndsWork.stop ht hrun
        | some ref =>
          rw [href] at hrun
          dsimp only at hrun
          by_cases hexp : ref.expanding = true
          · simp only [if_pos hexp] at hrun
            exact EndsWork.stop ht hrun
          · simp only [if_neg hexp] at hrun
            obtain ⟨t₁, rc, hret, hframe, htame⟩ := hnested t y ref (Frame.refl t) ht href (Bool.eq_false_of_not_eq_true hexp)
            have hstop : ∀ rc', (∀ fuel, expandVariable fuel t y = some (t₁, rc) →
                expandWork (fuel + 1) t x (textOf ps :: wps.map textOf) = some (t₁, rc')) →
                EndsWork m D t x (textOf ps :: wps.map textOf) := by
              intro rc' h
              obtain ⟨n, hn⟩ := hret
              exact ⟨t₁, rc', Returns.step ⟨n, fun fuel hle => h fuel (hn fuel hle)⟩, hframe, htame⟩
            cases rc with
            | failed => exact hstop .failed fun fuel hcall => by rw [hrun, hcall]
            | aborted => exact hstop .aborted fun fuel hcall => by rw [hrun, hcall]
            | ok =>
              obtain ⟨E, href₁⟩ := hframe.lookup href
              by_cases hempty : E = []
              · refine hstop .aborted fun fuel hcall => ?_
                rw [hrun, hcall]
                dsimp only
                rw [href₁]
                exact if_pos hempty
              · -- each of the new values has one reference less
                choose! rs hrs hfree using htame.expanded y _ href₁
                have hwork : (wps ++ E.map fun r => pre ++ rs r ++ suf).map textOf =
                    wps.map textOf ++ E.map fun r => textOf pre ++ r ++ textOf suf := by
                  rw [map_append, map_map]
                  refine congrArg _ (map_congr_left fun r hr => ?_)
                  exact (IsPieces.replace (hsplit ▸ hps) (hrs r hr)).text.symm
                have hvalid : ∀ qs ∈ wps ++ E.map fun r => pre ++ rs r ++ suf, ∀ p ∈ qs, p.Valid m := by
                  intro qs hqs
                  rcases mem_append.mp hqs with hqs | hqs
                  · exact hrest qs hqs
                  · obtain ⟨r, hr, rfl⟩ := mem_map.mp hqs
                    exact (IsPieces.replace (hsplit ▸ hps) (hrs r hr)).valid
                have hcut : Relation.CutExpand (· < ·)
                    (((wps ++ E.map fun r => pre ++ rs r ++ suf).map refCount : List ℕ) : Multiset ℕ) counts := by
                  rw [← hm, map_append]
                  refine cut_head fun k hk => ?_
                  rw [map_map] at hk
                  obtain ⟨r, hr, rfl⟩ := mem_map.mp hk
                  rw [hsplit]
                  exact refCount_replace pre (rs r) suf (hfree r hr)
                obtain ⟨E', hv₁⟩ := hframe.lookup hv
                obtain ⟨t', rc, hret', hframe', htame'⟩ := ih _ hcut _ hvalid htame hv₁
                  (fun t₂ z w h => hnested t₂ z w (hframe.trans h)) rfl
                rw [hwork] at hret'
                obtain ⟨n, hn⟩ := hret
                obtain ⟨k, hk⟩ := hret'
                refine ⟨t', rc, Returns.step ⟨max n k, fun fuel hle => ?_⟩, hframe.trans hframe', htame'⟩
                have hcall : expandVariable fuel t y = some (t₁, .ok) := hn fuel ((le_max_left n k).trans hle)
                dsimp only
                rw [hrun, hcall]
                dsimp only
                rw [href₁]
                dsimp only
                rw [if_neg hempty]
                exact hk fuel ((le_max_right n k).trans hle)

def idleKeys (keys : Finset Text) (t : Symtab) : Finset Text := keys.filter fun y => (t y).any fun v => !v.expanding

theorem Frame.idleKeys (h : Frame t t') (keys : Finset Text) : idleKeys keys t' = idleKeys keys t := by
  refine Finset.filter_congr fun y _ => ?_
  cases hv : t y with
  | none => rw [h.none hv]
  | some v =>
    obtain ⟨E, hv'⟩ := h.lookup hv
    rw [hv']
    rfl

theorem idleKeys_update {keys : Finset Text} {w : Variable} (hx : x ∈ keys) (hv : t x = some v) (hidle : v.expanding = false)
    (hw : w.expanding = true) : (idleKeys keys (Function.update t x (some w))).card < (idleKeys keys t).card := by
  apply Finset.card_lt_card
  rw [Finset.ssubset_iff_of_subset]
  · refine ⟨x, Finset.mem_filter.mpr ⟨hx, ?_⟩, fun hmem => ?_⟩
    · rw [hv, Option.any_some, hidle]
      rfl
    · have hany := (Finset.mem_filter.mp hmem).2
      rw [update_self, Option.any_some, hw] at hany
      cases hany
  · intro y hy
    obtain ⟨hkey, hany⟩ := Finset.mem_filter.mp hy
    refine Finset.mem_filter.mpr ⟨hkey, ?_⟩
    by_cases hyx : y = x
    · rw [hyx, update_self, Option.any_some, hw] at hany
      cases hany
    · rwa [update_of_ne hyx] at hany

theorem expandVariable_ends (hD : RegularDefs m D) {keys : Finset Text} (hkeys : ∀ y v, t y = some v → y ∈ keys) (ht : Tame m D t)
    (hv : t x = some v) (hidle : v.expanding = false) : Ends m D t x := by
  induction hn : (idleKeys keys t).card using Nat.strong_induction_on generalizing t x v with
  | _ n ih =>
    by_cases htype : v.type = .boolean
    · refine ⟨t, .failed, Returns.step ((Returns.pure _).congr fun fuel => ?_), Frame.refl t, ht⟩
      rw [expandVariable, hv]
      exact if_pos htype
    · by_cases hdone : v.expanded ≠ []
      · refine ⟨t, .ok, Returns.step ((Returns.pure _).congr fun fuel => ?_), Frame.refl t, ht⟩
        rw [expandVariable, hv]
        dsimp only
        rw [if_neg htype, if_pos hdone]
      · have hset : t.setExpanding x true = update t x (some { v with expanding := true }) := modify_eq hv _
        have hvx : t.setExpanding x true x = some { v with expanding := true } := by
          rw [hset, update_self]
        have htame : Tame m D (t.setExpanding x true) := hset ▸ ht.update hv rfl rfl (ht.expanded x v hv)
        have hless : (idleKeys keys (t.setExpanding x true)).card < n := by
          rw [hset, ← hn]
          exact idleKeys_update (hkeys x v hv) hv hidle rfl
        have hkeys' : ∀ y w, t.setExpanding x true y = some w → y ∈ keys := by
          intro y w hw
          by_cases hyx : y = x
          · exact hyx ▸ hkeys x v hv
          · rw [hset, update_of_ne hyx] at hw
            exact hkeys y w hw
        have hregular : ∀ u ∈ v.values, Regular m u := by
          have htype' : v.type = .set := by
            cases h : v.type with
            | boolean => exact absurd h htype
            | set => rfl
          refine hD x v.values ?_
          rw [← ht.defs, Symtab.defs, hv]
          exact if_pos htype'
        choose! ps hps using hregular
        have hwork := @expandWork_ends m D (t.setExpanding x true) x _ (v.values.map ps)
          (by
            intro qs hqs
            obtain ⟨u, hu, rfl⟩ := mem_map.mp hqs
            exact (hps u hu).valid)
          htame hvx
          (by
            intro t₁ y w hframe htame₁ hw hwidle
            refine ih _ hless (fun z u hu => ?_) htame₁ hw hwidle (by rw [hframe.idleKeys])
            obtain ⟨E, hu'⟩ := hframe.symm.lookup hu
            exact hkeys' z _ hu')
        have hvalues : (v.values.map ps).map textOf = v.values := by
          rw [map_map]
          conv_rhs => rw [← map_id v.values]
          exact map_congr_left fun u hu => (hps u hu).text.symm
        rw [hvalues] at hwork
        obtain ⟨t', rc, hret, hframe, htame'⟩ := hwork
        obtain ⟨E, hv'⟩ := hframe.lookup hvx
        have hreset : t'.setExpanding x false = update t' x (some { v with expanded := E }) := by
          rw [Symtab.setExpanding, modify_eq hv', ← hidle]
        refine ⟨t'.setExpanding x false, rc, Returns.step ?_, ?_, ?_⟩
        · refine (hret.map fun p => (p.1.setExpanding x false, p.2)).congr fun fuel => ?_
          rw [expandVariable, hv]
          dsimp only
          rw [if_neg htype, if_neg hdone]
        · rw [hreset]
          intro y
          by_cases hyx : y = x
          · rw [hyx, update_self, hv]
            rfl
          · have hy := hframe y
            rw [hset, update_of_ne hyx] at hy
            rwa [update_of_ne hyx]
        · rw [hreset]
          have hexpanded := htame'.expanded x _ hv'
          exact htame'.update hv' rfl rfl hexpanded

end Ends

end AppArmor

import AppArmor.Expr.AareCorrect
import AppArmor.Glob.Meaning
import AppArmor.Glob.Regex

open Computability

namespace AppArmor

open Letters List

def Tree.byteWords (t : Tree) : Language Byte := comap (fun b : Byte => Sym.ch (b.val : ℤ)) t.words

namespace Tree

variable (t u : Tree)

@[simp]
theorem byteWords_eps : byteWords .eps = 1 := comap_one

theorem byteWords_cat : byteWords (.cat t u) = byteWords t * byteWords u := by
  rw [byteWords, words, lang_cat, comap_mul]
  rfl

theorem byteWords_alt : byteWords (.alt t u) = byteWords t + byteWords u := by
  rw [byteWords, words, lang_alt, comap_add]
  rfl

theorem byteWords_star : byteWords (.star t) = (byteWords t)∗ := comap_kstar

theorem byteWords_cnode (a : CNode) : byteWords (.cnode a) = byteLang fun b => a.matches (b.val : ℤ) := by
  ext w
  constructor
  · rintro ⟨c, hc, hw⟩
    obtain ⟨b, w, rfl, hb, hw'⟩ := map_eq_cons_iff.mp hw
    obtain rfl := map_eq_nil_iff.mp hw'
    cases hb
    exact ⟨b, hc, rfl⟩
  · rintro ⟨b, hb, rfl⟩
    exact ⟨b, hb, rfl⟩

end Tree

def LexesAs (p o : Text) (t : RegexToken) : Prop := ∃ c q, p = c :: q ∧ regexLex c (q ++ o) = .token t q.length

inductive Lexes : Text → List RegexToken → Prop
  | nil : Lexes [] []
  | cons {p o t ts} : LexesAs p o t → Lexes o ts → Lexes (p ++ o) (t :: ts)

def RegexState.parse : List RegexToken → RegexState → RegexResult
  | [], q =>
    match q.finish with
    | some t => .tree t
    | none => .syntaxError
  | t :: ts, q =>
    match q.step t with
    | some q => parse ts q
    | none => .syntaxError

theorem regexRun_skip (p o : Text) (q : RegexState) : regexRun (p ++ o) p.length q = regexRun o 0 q := by
  induction p with
  | nil => rfl
  | cons c p ih => exact ih

theorem regexRun_lexes {o : Text} {ts : List RegexToken} (h : Lexes o ts) (q : RegexState) :
    regexRun o 0 q = q.parse ts := by
  induction h generalizing q with
  | nil => rfl
  | @cons p o t ts ht _ ih =>
    obtain ⟨c, p, rfl, hlex⟩ := ht
    rw [cons_append, regexRun, hlex, RegexState.parse]
    dsimp only
    cases q.step t with
    | none => rfl
    | some q' =>
      dsimp only
      rw [regexRun_skip, ih]

def ClassToken (first : Bool) (t : RegexToken) (c : ℕ) : Prop := (if first then csetChar1 t else csetCharN t) = some c

inductive ClassTokens : (first : Bool) → List ClassItem → List RegexToken → Prop
  | close : ClassTokens false [] [.rbrack]
  | char {first t c items ts} :
      ClassToken first t c → ClassTokens false items ts → ClassTokens first (.char c :: items) (t :: ts)
  | range {first t u a b items ts} :
      ClassToken first t a → ClassToken false u b → ClassTokens false items ts →
      ClassTokens first (.range a b :: items) (t :: .dash :: u :: ts)

def wildTokens : GlobType → List RegexToken
  | .default => [.lbrack, .caret, .char '/'.toNat, .char 0, .rbrack]
  | .null => [.lbrack, .caret, .char '/'.toNat, .rbrack]

def anyTokens : GlobType → List RegexToken
  | .default => [.lbrack, .caret, .char 0, .rbrack]
  | .null => [.dot]

def wholeTokens (glob : GlobType) (whole : Bool) : List RegexToken := if whole then wildTokens glob else []

inductive Renders (glob : GlobType) : ℕ → List GlobToken → List RegexToken → Prop
  | nil : Renders glob 0 [] []
  | lit {n c ts rs} : Renders glob n ts rs → Renders glob n (.lit c :: ts) (.char c :: rs)
  | dash {n ts rs} : Renders glob n ts rs → Renders glob n (.lit '-'.toNat :: ts) (.dash :: rs)
  | star {n w ts rs} : Renders glob n ts rs →
      Renders glob n (.star w :: ts) (wholeTokens glob w ++ (wildTokens glob ++ .star :: rs))
  | doubleStar {n w ts rs} : Renders glob n ts rs →
      Renders glob n (.doubleStar w :: ts) (wholeTokens glob w ++ (anyTokens glob ++ .star :: rs))
  | any {n ts rs} : Renders glob n ts rs → Renders glob n (.any :: ts) (wildTokens glob ++ rs)
  | cls {n items us ts rs} :
      ClassTokens true items us → Renders glob n ts rs → Renders glob n (.cls false items :: ts) (.lbrack :: us ++ rs)
  | negCls {n items us ts rs} :
      ClassTokens true items us → Renders glob n ts rs →
      Renders glob n (.cls true items :: ts) (.lbrack :: .caret :: us ++ rs)
  | negCaret {n items us ts rs} :
      ClassTokens false items us → Renders glob n ts rs →
      Renders glob n (.cls true (.char '^'.toNat :: items) :: ts) (.lbrack :: .caret :: .caret :: us ++ rs)
  | openBrace {n ts rs} : Renders glob (n + 1) ts rs → Renders glob n (.openBrace :: ts) (.lparen :: rs)
  | literalComma {ts rs} : Renders glob 0 ts rs → Renders glob 0 (.comma :: ts) (.char ','.toNat :: rs)
  | comma {n ts rs} : Renders glob (n + 1) ts rs → Renders glob (n + 1) (.comma :: ts) (.bar :: rs)
  | closeBrace {n ts rs} : Renders glob n ts rs → Renders glob (n + 1) (.closeBrace :: ts) (.rparen :: rs)

section Classes

variable {q : RegexState} {neg first : Bool} {chars : Chars} {items : List ClassItem} {us rs : List RegexToken}

theorem Chars.notMem_empty {x : ℤ} : x ∉ Chars.empty := not_mem_nil

theorem Chars.mem_insertRange {s : Chars} {a b : ℕ} {x : ℤ} :
    x ∈ s.insertRange a b ↔ (∃ n : ℕ, x = n ∧ (ClassItem.range a b).Has n) ∨ x ∈ s := by
  have hfold : ∀ (l : List ℕ) (s : Chars), x ∈ l.foldl (fun s (c : ℕ) => s.insert (c : ℤ)) s ↔
      (∃ n ∈ l, x = (n : ℤ)) ∨ x ∈ s := by
    intro l
    induction l with
    | nil => simp
    | cons c l ih =>
      intro s
      rw [foldl_cons, ih, Chars.mem_insert]
      simp only [mem_cons, exists_eq_or_imp]
      rw [or_left_comm, or_assoc]
  rw [insertRange, hfold]
  refine or_congr_left (exists_congr fun n => ?_)
  rw [mem_range'_1, and_comm]
  refine and_congr_right fun _ => ?_
  simp only [ClassItem.Has]
  omega

theorem csetLeaf_matches (neg : Bool) (s : Chars) (b : Byte) :
    (csetLeaf neg s).matches (b.val : ℤ) ↔ ((b.val : ℤ) ∈ s ↔ neg = false) := by
  unfold csetLeaf
  split_ifs with hneg
  · simp [CNode.matches, hneg]
  · have hneg : neg = false := by simpa using hneg
    split
    · rename_i c hc
      simp [CNode.matches, hneg, Chars.mem_def, hc]
    · simp [CNode.matches, hneg]

theorem byteWords_csetLeaf (h : ∀ x : ℕ, (x : ℤ) ∈ chars ↔ ∃ i ∈ items, i.Has x) :
    (Tree.cnode (csetLeaf neg chars)).byteWords = byteLang (Glob.ClassByte neg items) := by
  rw [Tree.byteWords_cnode]
  congr 1
  ext b
  rw [csetLeaf_matches, h, Glob.ClassByte]

def RegexState.close (q : RegexState) (leaf : CNode) : RegexState :=
  { q with frame := q.frame.addTerm (.cnode leaf), cls := none }

variable {pending : Option ℕ}

theorem step_items {pending : Option ℕ} {t : RegexToken} {c : ℕ} (hq : q.cls = some (.items neg chars pending))
    (ht : ClassToken false t c) : q.step t =
      some { q with cls := some (.items neg (pending.elim chars fun d => chars.insert (d : ℤ)) (some c)) } := by
  rw [RegexState.step, hq]
  cases t <;> simp [ClassToken, csetCharN, csetChar] at ht <;> subst ht <;> cases pending <;> rfl

theorem parse_range {a b : ℕ} {u : RegexToken} (hu : csetCharN u = some b) (hq : q.cls = some (.items neg chars (some a))) :
    q.parse (.dash :: u :: rs) = RegexState.parse rs { q with cls := some (.items neg (chars.insertRange a b) none) } := by
  have hdash : q.step .dash = some { q with cls := some (.range neg chars a) } := by
    rw [RegexState.step, hq]
    rfl
  have hend : RegexState.step { q with cls := some (.range neg chars a) } u =
      some { q with cls := some (.items neg (chars.insertRange a b) none) } := by
    rw [RegexState.step]
    simp [RegexState.stepClass, hu]
  rw [RegexState.parse, hdash]
  dsimp only
  rw [RegexState.parse, hend]

theorem parse_items (rs : List RegexToken) (h : ClassTokens false items us) {pending : Option ℕ}
    (hq : q.cls = some (.items neg chars pending)) :
    ∃ leaf, q.parse (us ++ rs) = (q.close (csetLeaf neg leaf)).parse rs ∧
      ∀ x : ℕ, (x : ℤ) ∈ leaf ↔ (x : ℤ) ∈ chars ∨ pending = some x ∨ ∃ i ∈ items, i.Has x := by
  generalize hfirst : false = first at h
  induction h generalizing q chars pending with
  | close =>
    refine ⟨pending.elim chars fun d => chars.insert (d : ℤ), ?_, fun x => ?_⟩
    · cases pending <;> simp [RegexState.parse, RegexState.step, hq, RegexState.stepClass, RegexState.close]
    · cases pending <;> simp [Chars.mem_insert, eq_comm, or_comm]
  | @char first t c items us ht _ ih =>
    subst hfirst
    obtain ⟨leaf, hparse, hleaf⟩ := ih rfl (q := { q with
        cls := some (.items neg (pending.elim chars fun d => chars.insert (d : ℤ)) (some c)) }) rfl
    refine ⟨leaf, ?_, fun x => ?_⟩
    · rw [cons_append, RegexState.parse, step_items hq ht]
      exact hparse
    · rw [hleaf]
      cases pending <;> simp [Chars.mem_insert, ClassItem.Has] <;> grind
  | @range first t u a b items us ht hu _ ih =>
    subst hfirst
    obtain ⟨leaf, hparse, hleaf⟩ := ih rfl (q := { q with
        cls := some (.items neg ((pending.elim chars fun d => chars.insert (d : ℤ)).insertRange a b) none) }) rfl
    refine ⟨leaf, ?_, fun x => ?_⟩
    · rw [cons_append, RegexState.parse, step_items hq ht]
      dsimp only
      rw [cons_append, cons_append, parse_range (by simpa [ClassToken] using hu) rfl]
      exact hparse
    · rw [hleaf, Chars.mem_insertRange]
      cases pending <;> simp [Chars.mem_insert] <;> grind

theorem parse_start (rs : List RegexToken) (h : ClassTokens true items us) (hq : q.cls = some (.start neg)) :
    ∃ leaf, q.parse (us ++ rs) = (q.close (csetLeaf neg leaf)).parse rs ∧
      ∀ x : ℕ, (x : ℤ) ∈ leaf ↔ ∃ i ∈ items, i.Has x := by
  have hstart : ∀ {t : RegexToken} {c : ℕ}, ClassToken true t c →
      q.step t = some { q with cls := some (.items neg .empty (some c)) } := by
    intro t c ht
    rw [RegexState.step, hq]
    cases t <;> simp [ClassToken, csetChar1, csetChar] at ht <;> subst ht <;> cases neg <;> rfl
  cases h with
  | @char _ t c items us ht hus =>
    obtain ⟨leaf, hparse, hleaf⟩ := parse_items (q := { q with cls := some (.items neg .empty (some c)) }) rs hus rfl
    refine ⟨leaf, ?_, fun x => ?_⟩
    · rw [cons_append, RegexState.parse, hstart ht]
      exact hparse
    · rw [hleaf]
      simp [Chars.notMem_empty, ClassItem.Has, eq_comm]
  | @range _ t u a b items us ht hu hus =>
    obtain ⟨leaf, hparse, hleaf⟩ := parse_items rs
      (q := { q with cls := some (.items neg (Chars.empty.insertRange a b) none) }) hus rfl
    refine ⟨leaf, ?_, fun x => ?_⟩
    · rw [cons_append, RegexState.parse, hstart ht]
      dsimp only
      rw [cons_append, cons_append, parse_range (by simpa [ClassToken] using hu) rfl]
      exact hparse
    · rw [hleaf, Chars.mem_insertRange]
      simp [Chars.notMem_empty]

end Classes

theorem ExprFrame.flush_last (e : ExprFrame) : e.flush.last = none := by
  cases e with
  | mk alts terms last => cases last <;> rfl

theorem ExprFrame.flush_flush (e : ExprFrame) : e.flush.flush = e.flush := by
  rw [flush, flush_last]

theorem RegexState.close_flush (q : RegexState) (cls : Option ClassState) (leaf : CNode) :
    close { q with frame := q.frame.flush, cls := cls } leaf = q.close leaf := by
  simp only [close, ExprFrame.addTerm, ExprFrame.flush_flush]

structure FrameSim (glob : GlobType) (f : GlobFrame) (e : ExprFrame) : Prop where
  alts : Option.Rel (fun g t => t.byteWords = g.lang glob) f.alts e.alts
  terms : (e.flush.terms.getD .eps).byteWords = f.last.lang glob

namespace FrameSim

variable {glob : GlobType} {f : GlobFrame} {e : ExprFrame} {g : Glob} {t : Tree}

theorem empty : FrameSim glob .empty .empty := ⟨.none, Tree.byteWords_eps⟩

theorem flush (h : FrameSim glob f e) : FrameSim glob f e.flush := by
  refine ⟨?_, (congrArg (fun e : ExprFrame => (e.terms.getD .eps).byteWords) e.flush_flush).trans h.terms⟩
  cases e with
  | mk alts terms last => cases last <;> exact h.alts

theorem addQterm (h : FrameSim glob f e) (hlast : e.last = none) (ht : t.byteWords = g.lang glob) :
    FrameSim glob (f.add g) (e.addQterm t) := by
  refine ⟨h.alts, ?_⟩
  have hterms := h.terms
  cases e with
  | mk alts terms last =>
    subst hlast
    cases terms with
    | none =>
      have hone : (1 : Language Byte) = f.last.lang glob := by
        rw [← hterms, ← Tree.byteWords_eps]
        rfl
      change t.byteWords = f.last.lang glob * g.lang glob
      rw [← hone, one_mul, ht]
    | some u =>
      change (Tree.cat u t).byteWords = f.last.lang glob * g.lang glob
      rw [Tree.byteWords_cat, ht, ← hterms]
      rfl

theorem addTerm (h : FrameSim glob f e) (ht : t.byteWords = g.lang glob) : FrameSim glob (f.add g) (e.addTerm t) := by
  have hadd := h.flush.addQterm e.flush_last ht
  exact ⟨hadd.alts, hadd.terms⟩

theorem expr (h : FrameSim glob f e) : e.expr.byteWords = f.glob.lang glob := by
  have halts := h.alts
  unfold ExprFrame.expr GlobFrame.glob
  cases hf : f.alts with
  | none =>
    cases he : e.alts with
    | none => exact h.terms
    | some t => rw [hf, he] at halts; cases halts
  | some g =>
    cases he : e.alts with
    | none => rw [hf, he] at halts; cases halts
    | some t =>
      rw [hf, he] at halts
      cases halts with
      | some ht =>
        change (Tree.alt t (e.flush.terms.getD .eps)).byteWords = g.lang glob + f.last.lang glob
        rw [Tree.byteWords_alt, ht, h.terms]

theorem regroup {h : Glob} {k : Glob} (hk : k.lang glob = g.lang glob * h.lang glob)
    (hs : FrameSim glob ((f.add g).add h) e) : FrameSim glob (f.add k) e := by
  refine ⟨hs.alts, hs.terms.trans ?_⟩
  change f.last.lang glob * g.lang glob * h.lang glob = f.last.lang glob * k.lang glob
  rw [hk, mul_assoc]

end FrameSim

section Pieces

variable {glob : GlobType} {q : RegexState} {rs : List RegexToken}

def wildLeaf : GlobType → CNode
  | .default => csetLeaf true ((Chars.empty.insert '/'.toNat).insert 0)
  | .null => csetLeaf true (Chars.empty.insert '/'.toNat)

def anyLeaf : GlobType → CNode
  | .default => csetLeaf true (Chars.empty.insert 0)
  | .null => .anyChar

theorem parse_wild (hq : q.cls = none) : q.parse (wildTokens glob ++ rs) = (q.close (wildLeaf glob)).parse rs := by
  cases q with
  | mk outer frame cls =>
    subst hq
    cases frame with
    | mk alts terms last => cases glob <;> cases last <;> rfl

theorem parse_any (hq : q.cls = none) : q.parse (anyTokens glob ++ rs) = (q.close (anyLeaf glob)).parse rs := by
  cases q with
  | mk outer frame cls =>
    subst hq
    cases frame with
    | mk alts terms last => cases glob <;> cases last <;> rfl

theorem parse_star {leaf : CNode} :
    (q.close leaf).parse (.star :: rs) =
      RegexState.parse rs { q with frame := q.frame.flush.addQterm (.star (.cnode leaf)), cls := none } := rfl

theorem byteWords_wildLeaf : (Tree.cnode (wildLeaf glob)).byteWords = byteLang (Glob.WildByte glob) := by
  rw [Tree.byteWords_cnode]
  congr 1
  ext b
  cases glob with
  | default =>
    rw [wildLeaf, csetLeaf_matches, Chars.mem_insert, Chars.mem_insert]
    simp [Glob.WildByte, Chars.notMem_empty, and_comm]
    omega
  | null =>
    rw [wildLeaf, csetLeaf_matches, Chars.mem_insert]
    simp [Glob.WildByte, Chars.notMem_empty]
    omega

theorem byteWords_anyLeaf : (Tree.cnode (anyLeaf glob)).byteWords = byteLang (Glob.AnyByte glob) := by
  rw [Tree.byteWords_cnode]
  congr 1
  ext b
  cases glob with
  | default =>
    rw [anyLeaf, csetLeaf_matches, Chars.mem_insert]
    simp [Glob.AnyByte, Chars.notMem_empty]
  | null => simp [anyLeaf, CNode.matches, Glob.AnyByte]

end Pieces

structure StateSim (glob : GlobType) (outer : List GlobFrame) (f : GlobFrame) (q : RegexState) : Prop where
  outer : List.Forall₂ (FrameSim glob) outer q.outer
  frame : FrameSim glob f q.frame
  cls : q.cls = none

namespace StateSim

variable {glob : GlobType} {outer : List GlobFrame} {f : GlobFrame} {q : RegexState} {g : Glob} {leaf : CNode}

theorem init : StateSim glob [] .empty .init := ⟨.nil, .empty, rfl⟩

theorem close (h : StateSim glob outer f q) (hleaf : (Tree.cnode leaf).byteWords = g.lang glob) :
    StateSim glob outer (f.add g) (q.close leaf) := ⟨h.outer, h.frame.addTerm hleaf, rfl⟩

theorem repeated (h : StateSim glob outer f q) (hg : g.lang glob = (Tree.cnode leaf).byteWords∗) :
    StateSim glob outer (f.add g)
      { q with frame := q.frame.flush.addQterm (.star (.cnode leaf)), cls := none } :=
  ⟨h.outer, h.frame.flush.addQterm q.frame.flush_last (by rw [Tree.byteWords_star, hg]), rfl⟩

theorem regroup {h k : Glob} (hk : k.lang glob = g.lang glob * h.lang glob)
    (hs : StateSim glob outer ((f.add g).add h) q) : StateSim glob outer (f.add k) q :=
  ⟨hs.outer, hs.frame.regroup hk, hs.cls⟩

end StateSim

variable {q : RegexState} {items : List ClassItem} {us : List RegexToken} {outer : List GlobFrame}

theorem parse_step {q' : RegexState} {t : RegexToken} (hq : q.cls = none) (h : q.stepTerm t = some q')
    (rs : List RegexToken) : q.parse (t :: rs) = q'.parse rs := by
  rw [RegexState.parse, RegexState.step, hq]
  dsimp only
  rw [h]

theorem parse_leaf {t : RegexToken} {c : ℕ} (hq : q.cls = none)
    (ht : t = .char c ∨ t = .dash ∧ c = '-'.toNat) (rs : List RegexToken) :
    q.parse (t :: rs) = (q.close (.char c)).parse rs := by
  apply parse_step hq
  rcases ht with rfl | ⟨rfl, rfl⟩
  · rw [RegexState.stepTerm, RegexState.close, hq]
  · rw [RegexState.stepTerm, RegexState.close, hq]

theorem byteWords_char (glob : GlobType) (c : ℕ) :
    (Tree.cnode (.char c)).byteWords = (Glob.lit c).lang glob := by
  rw [Tree.byteWords_cnode]
  simp only [CNode.matches, decide_eq_true_eq, Nat.cast_inj]
  rfl

theorem parse_class (glob : GlobType)
    (hq : q.cls = none) (h : ClassTokens true items us) (neg : Bool) (rs : List RegexToken) :
    ∃ leaf, q.parse (.lbrack :: ((if neg then [.caret] else []) ++ us ++ rs)) = (q.close leaf).parse rs ∧
      (Tree.cnode leaf).byteWords = (Glob.cls neg items).lang glob := by
  obtain ⟨chars, hparse, hchars⟩ := parse_start rs h
    (q := { q with frame := q.frame.flush, cls := some (.start neg) }) rfl
  refine ⟨csetLeaf neg chars, ?_, byteWords_csetLeaf hchars⟩
  rw [parse_step hq rfl, ← q.close_flush (some (.start neg)), ← hparse]
  cases neg <;> rfl

theorem parse_negCaret (glob : GlobType)
    (hq : q.cls = none) (h : ClassTokens false items us) (rs : List RegexToken) :
    ∃ leaf, q.parse (.lbrack :: .caret :: .caret :: us ++ rs) = (q.close leaf).parse rs ∧
      (Tree.cnode leaf).byteWords = (Glob.cls true (.char '^'.toNat :: items)).lang glob := by
  obtain ⟨chars, hparse, hchars⟩ := parse_items rs h
    (q := { q with frame := q.frame.flush, cls := some (.items true (Chars.empty.insert '^'.toNat) none) }) rfl
  refine ⟨csetLeaf true chars, ?_, byteWords_csetLeaf fun x => ?_⟩
  · rw [cons_append, parse_step hq rfl, ← q.close_flush (some (.items true (Chars.empty.insert '^'.toNat) none)), ← hparse]
    rfl
  · rw [hchars, Chars.mem_insert]
    simp only [Chars.notMem_empty, or_false, reduceCtorEq, false_or, exists_mem_cons_iff, ClassItem.Has]
    rw [Nat.cast_inj]

theorem StateSim.whole {glob : GlobType} {f : GlobFrame}
    (hq : StateSim glob outer f q) (w : Bool) (rs : List RegexToken) :
    ∃ q', q.parse (wholeTokens glob w ++ rs) = q'.parse rs ∧
      StateSim glob outer (f.add (if w then .any else .empty)) q' := by
  cases w with
  | true => exact ⟨_, parse_wild hq.cls, hq.close byteWords_wildLeaf⟩
  | false =>
    refine ⟨q, rfl, hq.outer, ⟨hq.frame.alts, hq.frame.terms.trans ?_⟩, hq.cls⟩
    exact (mul_one _).symm

theorem StateSim.starred (hq : StateSim glob outer f q) (w : Bool) {ts : List RegexToken} {leaf : CNode} {k : Glob}
    (hts : ∀ {q : RegexState} {rs}, q.cls = none → q.parse (ts ++ rs) = (q.close leaf).parse rs) {g : Glob}
    (hg : g.lang glob = (Tree.cnode leaf).byteWords∗)
    (hk : k.lang glob = (if w then Glob.any else .empty).lang glob * g.lang glob) (rs : List RegexToken) :
    ∃ q', q.parse (wholeTokens glob w ++ (ts ++ .star :: rs)) = q'.parse rs ∧ StateSim glob outer (f.add k) q' := by
  obtain ⟨q', hparse, hq'⟩ := hq.whole w (ts ++ .star :: rs)
  exact ⟨_, by rw [hparse, hts hq'.cls, parse_star], (hq'.repeated hg).regroup hk⟩

theorem parse_renders {glob : GlobType} {n : ℕ} {ts : List GlobToken} {rs : List RegexToken}
    (h : Renders glob n ts rs) {f : GlobFrame} (hn : outer.length = n)
    (hq : StateSim glob outer f q) :
    ∃ g t, readGlob ts outer f = some g ∧ q.parse rs = .tree t ∧ t.byteWords = g.lang glob := by
  induction h generalizing outer f q with
  | nil =>
    obtain rfl := length_eq_zero_iff.mp hn
    have houter : q.outer = [] := forall₂_nil_left_iff.mp hq.outer
    refine ⟨f.glob, q.frame.expr, rfl, ?_, hq.frame.expr⟩
    rw [RegexState.parse, RegexState.finish, if_pos ⟨houter, hq.cls⟩]
  | @lit n c ts rs _ ih =>
    rw [parse_leaf hq.cls (Or.inl rfl)]
    exact ih hn (hq.close (byteWords_char glob c))
  | @dash n ts rs _ ih =>
    rw [parse_leaf hq.cls (Or.inr ⟨rfl, rfl⟩)]
    exact ih hn (hq.close (byteWords_char glob _))
  | @star n w ts rs _ ih =>
    have hstar : (Glob.star false).lang glob = (Tree.cnode (wildLeaf glob)).byteWords∗ := by
      rw [byteWords_wildLeaf]
      exact one_mul _
    obtain ⟨q', hparse, hq'⟩ := hq.starred w parse_wild hstar (k := .star w) (by cases w <;> simp [Glob.lang]) rs
    rw [hparse]
    exact ih hn hq'
  | @doubleStar n w ts rs _ ih =>
    have hstar : (Glob.doubleStar false).lang glob = (Tree.cnode (anyLeaf glob)).byteWords∗ := by
      rw [byteWords_anyLeaf]
      exact one_mul _
    obtain ⟨q', hparse, hq'⟩ := hq.starred w parse_any hstar (k := .doubleStar w) (by cases w <;> simp [Glob.lang]) rs
    rw [hparse]
    exact ih hn hq'
  | @any n ts rs _ ih =>
    rw [parse_wild hq.cls]
    exact ih hn (hq.close byteWords_wildLeaf)
  | @cls n items us ts rs hus _ ih =>
    obtain ⟨leaf, hparse, hleaf⟩ := parse_class glob hq.cls hus false rs
    obtain ⟨g, t, hg, ht, hw⟩ := ih hn (hq.close hleaf)
    exact ⟨g, t, hg, hparse.trans ht, hw⟩
  | @negCls n items us ts rs hus _ ih =>
    obtain ⟨leaf, hparse, hleaf⟩ := parse_class glob hq.cls hus true rs
    obtain ⟨g, t, hg, ht, hw⟩ := ih hn (hq.close hleaf)
    exact ⟨g, t, hg, hparse.trans ht, hw⟩
  | @negCaret n items us ts rs hus _ ih =>
    obtain ⟨leaf, hparse, hleaf⟩ := parse_negCaret glob hq.cls hus rs
    obtain ⟨g, t, hg, ht, hw⟩ := ih hn (hq.close hleaf)
    exact ⟨g, t, hg, hparse.trans ht, hw⟩
  | @openBrace n ts rs _ ih =>
    rw [parse_step hq.cls rfl]
    exact ih (congrArg (· + 1) hn) ⟨.cons hq.frame.flush hq.outer, .empty, hq.cls⟩
  | @literalComma ts rs _ ih =>
    obtain rfl := length_eq_zero_iff.mp hn
    rw [parse_leaf hq.cls (Or.inl rfl)]
    exact ih rfl (hq.close (byteWords_char glob _))
  | @comma n ts rs _ ih =>
    rw [parse_step hq.cls rfl]
    cases outer with
    | nil => cases hn
    | cons e outer => exact ih hn ⟨hq.outer, ⟨.some hq.frame.expr, Tree.byteWords_eps⟩, hq.cls⟩
  | @closeBrace n ts rs _ ih =>
    cases outer with
    | nil => cases hn
    | cons e outer =>
      obtain ⟨e', outer', he, houter, hq'⟩ := forall₂_cons_left_iff.mp hq.outer
      have hstep : q.stepTerm .rparen = some { q with outer := outer', frame := e'.addTerm q.frame.expr } := by
        rw [RegexState.stepTerm, hq']
      rw [parse_step hq.cls hstep]
      exact ih (Nat.succ.inj hn) ⟨houter, he.addTerm hq.frame.expr, hq.cls⟩

end AppArmor

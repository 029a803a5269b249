import AppArmor.Utils.Aare
import AppArmor.Vars.Alternation
import AppArmor.Vars.Regular
import Mathlib

namespace AppArmor

open Fuel List

/-! ### `expand_var` of the utils -/

def isVarChar (c : Char) : Bool := c ≠ ',' ∧ c ≠ '}' ∧ isStripped c = false

def matchVariable : Text → Option Text
  | '@' :: '{' :: s =>
    let x := s.takeWhile isVarChar
    if x ≠ [] ∧ (s.dropWhile isVarChar).head? = some '}' then some x else none
  | _ => none

inductive Part
  | lit (c : Char)
  | var (x : Text)

def varParts : Text → (skip : ℕ) → List Part
  | [], _ => []
  | _ :: s, skip + 1 => varParts s skip
  | c :: s, 0 =>
    match matchVariable (c :: s) with
    | some x => .var x :: varParts s (x.length + 2)
    | none => .lit c :: varParts s 0

def tryThen {α β : Type} (r : Option (Option α)) (f : α → Option (Option β)) : Option (Option β) :=
  match r with
  | none => none
  | some none => some none
  | some (some a) => f a

section Expand

variable (var : Text → Option (Option (List Text)))

def expandParts : List Part → Option (Option (List Text))
  | [] => some (some [[]])
  | .lit c :: parts => tryThen (expandParts parts) fun ts => some (some (ts.map (c :: ·)))
  | .var x :: parts => tryThen (var x) fun rs => tryThen (expandParts parts) fun ts =>
      some (some (rs.flatMap fun r => ts.map (r ++ ·)))

def expandString (s : Text) : Option (Option (List Text)) := expandParts var (varParts s 0)

def expandValues : List Text → Option (Option (List Text))
  | [] => some (some [])
  | v :: vs => tryThen (expandString var v) fun rs => tryThen (expandValues vs) fun ts => some (some (rs ++ ts))

end Expand

def expandVar (D : Definitions) : ℕ → (seen : List Text) → Text → Option (Option (List Text))
  | 0, _, _ => none
  | fuel + 1, seen, x =>
    if x ∈ seen then some none
    else
      match D x with
      | none => some none
      | some vs => expandValues (expandVar D fuel (x :: seen)) vs

section TryThen

variable {α β : Type} {r : Option (Option α)} {f : α → Option (Option β)} {b : β}

theorem tryThen_ok : tryThen r f = some (some b) ↔ ∃ a, r = some (some a) ∧ f a = some (some b) := by
  unfold tryThen
  split <;> simp

theorem tryThen_raise : tryThen r f = some none ↔ r = some none ∨ ∃ a, r = some (some a) ∧ f a = some none := by
  unfold tryThen
  split <;> simp

theorem tryThen_returns {r : ℕ → Option (Option α)} {f : ℕ → α → Option (Option β)} {res : Option α} (hr : Returns r res)
    (hf : ∀ a, res = some a → ∃ b, Returns (f · a) b) : ∃ b, Returns (fun fuel => tryThen (r fuel) (f fuel)) b := by
  obtain ⟨n, hn⟩ := hr
  cases res with
  | none => exact ⟨none, n, fun fuel hle => by dsimp only; rw [hn fuel hle]; rfl⟩
  | some a =>
    obtain ⟨b, m, hm⟩ := hf a rfl
    refine ⟨b, max n m, fun fuel hle => ?_⟩
    dsimp only
    rw [hn fuel ((le_max_left n m).trans hle)]
    exact hm fuel ((le_max_right n m).trans hle)

end TryThen

section Parts

variable {m : JoinRule} {ps : List VarPiece} {x s : Text}

def VarPiece.parts : VarPiece → List Part
  | .ref x => [.var x]
  | p => p.text.map .lit

theorem matchVariable_none {c : Char} (h : c = '@' → s.head? ≠ some '{') : matchVariable (c :: s) = none := by
  unfold matchVariable
  split
  · next heq =>
    obtain ⟨hc, hs⟩ := cons.inj heq
    rw [hs] at h
    exact absurd rfl (h hc)
  · rfl

theorem varParts_lit {c : Char} (h : c = '@' → s.head? ≠ some '{') : varParts (c :: s) 0 = .lit c :: varParts s 0 := by
  rw [varParts, matchVariable_none h]

theorem varParts_run {u : Text} (hopen : ¬ ['@', '{'] <:+: u ++ s.take 1) :
    varParts (u ++ s) 0 = u.map Part.lit ++ varParts s 0 := by
  induction u with
  | nil => rfl
  | cons c u ih =>
    rw [cons_append, varParts_lit, ih fun h => hopen (h.trans (infix_cons infix_rfl))]
    · rfl
    · rintro rfl
      exact head_of_not_open hopen

theorem varParts_skip (u s : Text) : varParts (u ++ s) u.length = varParts s 0 := by
  induction u with
  | nil => rfl
  | cons c u ih => exact ih

theorem isVarChar_name {c : Char} (h : c = '_' ∨ c.isAlphanum = true) : isVarChar c = true := by
  obtain ⟨-, -, hbrace, hcomma⟩ := name_char h
  have hspace : isStripped c = false := by
    have hlow : 48 ≤ c.toNat ∧ c.toNat ≤ 122 := by
      rcases h with rfl | h
      · decide
      · simp only [Char.isAlphanum, Char.isAlpha, Char.isUpper, Char.isLower, Char.isDigit, Bool.or_eq_true,
          Bool.and_eq_true, decide_eq_true_eq, UInt32.le_iff_toNat_le] at h
        change (65 ≤ c.toNat ∧ c.toNat ≤ 90 ∨ 97 ≤ c.toNat ∧ c.toNat ≤ 122) ∨ 48 ≤ c.toNat ∧ c.toNat ≤ 57 at h
        omega
    rw [isStripped, decide_eq_false_iff_not]
    simp only [mem_cons, not_mem_nil, or_false]
    omega
  rw [isVarChar, decide_eq_true_eq]
  exact ⟨hcomma, hbrace, hspace⟩

theorem matchVariable_ref (hx : (VarPiece.ref x).Valid m) : matchVariable (refText x ++ s) = some x := by
  have hall : ∀ c ∈ x, isVarChar c = true := fun c hc => isVarChar_name (hx.2 c hc)
  have hstop : isVarChar '}' = false := by decide
  have htext : refText x ++ s = '@' :: '{' :: (x ++ '}' :: s) := by simp [refText]
  have htake : (x ++ '}' :: s).takeWhile isVarChar = x := by
    rw [takeWhile_append_of_pos hall, takeWhile_cons_of_neg (by rw [hstop]; exact Bool.false_ne_true), append_nil]
  have hdrop : (x ++ '}' :: s).dropWhile isVarChar = '}' :: s := by
    rw [dropWhile_append_of_pos hall, dropWhile_cons_of_neg (by rw [hstop]; exact Bool.false_ne_true)]
  obtain ⟨c, cs, hcons, -⟩ := name_cons hx
  rw [htext, matchVariable, htake, hdrop, if_pos ⟨by rw [hcons]; exact cons_ne_nil c cs, rfl⟩]

theorem varParts_ref (hx : (VarPiece.ref x).Valid m) : varParts (refText x ++ s) 0 = .var x :: varParts s 0 := by
  have htext : refText x ++ s = '@' :: (('{' :: (x ++ ['}'])) ++ s) := rfl
  have hlen : ('{' :: (x ++ ['}'])).length = x.length + 2 := by simp
  have hmatch := @matchVariable_ref m x s hx
  rw [htext] at hmatch ⊢
  rw [varParts, hmatch]
  dsimp only
  rw [← hlen, varParts_skip]

theorem varParts_textOf (hps : ∀ p ∈ ps, p.Valid m) : varParts (textOf ps) 0 = ps.flatMap VarPiece.parts := by
  induction ps with
  | nil => rfl
  | cons p ps ih =>
    obtain ⟨hp, hrest⟩ := forall_mem_cons.mp hps
    have hfollows : m.Follows (textOf ps ++ []) := follows_textOf hrest fun _ => by simp
    rw [append_nil] at hfollows
    rw [textOf_cons, flatMap_cons, ← ih hrest]
    cases p with
    | lit u | esc c u => exact varParts_run (hp.2.not_open hfollows)
    | ref x => exact varParts_ref hp

end Parts

section Correct

variable {m : JoinRule} {D : Definitions} {ps : List VarPiece} {x : Text} {var : Text → Option (Option (List Text))}

def GoodVar (D : Definitions) (var : Text → Option (Option (List Text))) : Prop :=
  ∀ x rs, var x = some (some rs) → ClosedVar D x ∧ ∀ r, r ∈ rs ↔ r ∈ fullExpansion D x

theorem expandParts_lits {cs : Text} {parts : List Part} {L : List Text}
    (h : expandParts var (cs.map Part.lit ++ parts) = some (some L)) :
    ∃ ts, expandParts var parts = some (some ts) ∧ L = ts.map (cs ++ ·) := by
  induction cs generalizing L with
  | nil => exact ⟨L, h, by simp⟩
  | cons c cs ih =>
    obtain ⟨us, hus, hL⟩ := tryThen_ok.mp h
    obtain ⟨ts, hts, rfl⟩ := ih hus
    cases hL
    exact ⟨ts, hts, by rw [map_map]; rfl⟩

theorem parts_of_not_ref {p : VarPiece} (hp : p.isRef = false) : p.parts = p.text.map Part.lit := by
  cases p with
  | lit u | esc c u => rfl
  | ref x => cases hp

theorem expandParts_lits_raise {cs : Text} {parts : List Part} (h : expandParts var (cs.map Part.lit ++ parts) = some none) :
    expandParts var parts = some none := by
  induction cs with
  | nil => exact h
  | cons c cs ih =>
    rcases tryThen_raise.mp h with h | ⟨ts, -, h⟩
    · exact ih h
    · cases h

theorem expandParts_ok (hvar : GoodVar D var) {L : List Text} (h : expandParts var (ps.flatMap VarPiece.parts) = some (some L)) :
    (∀ y, .ref y ∈ ps → ClosedVar D y) ∧ ∀ t, t ∈ L ↔ Product D ps t := by
  induction ps generalizing L with
  | nil =>
    cases h
    exact ⟨fun y hy => absurd hy not_mem_nil, fun t => mem_singleton⟩
  | cons p ps ih =>
    rw [flatMap_cons] at h
    cases hp : p.isRef with
    | false =>
      rw [parts_of_not_ref hp] at h
      obtain ⟨ts, hts, rfl⟩ := expandParts_lits h
      obtain ⟨hclosed, hmem⟩ := ih hts
      refine ⟨fun y hy => ?_, fun t => ?_⟩
      · rcases mem_cons.mp hy with rfl | hy
        · cases hp
        · exact hclosed y hy
      · rw [product_cons hp, mem_map]
        constructor
        · rintro ⟨t', ht', rfl⟩
          exact ⟨t', rfl, (hmem t').mp ht'⟩
        · rintro ⟨t', rfl, ht'⟩
          exact ⟨t', (hmem t').mpr ht', rfl⟩
    | true =>
      cases p with
      | lit u | esc c u => cases hp
      | ref x =>
        obtain ⟨rs, hrs, h⟩ := tryThen_ok.mp h
        obtain ⟨ts, hts, hL⟩ := tryThen_ok.mp h
        cases hL
        obtain ⟨hx, hfull⟩ := hvar x rs hrs
        obtain ⟨hclosed, hmem⟩ := ih hts
        refine ⟨fun y hy => ?_, fun t => ?_⟩
        · rcases mem_cons.mp hy with hy | hy
          · cases hy
            exact hx
          · exact hclosed y hy
        · rw [mem_flatMap]
          constructor
          · rintro ⟨r, hr, ht⟩
            obtain ⟨t', ht', rfl⟩ := mem_map.mp ht
            exact ⟨r, (hfull r).mp hr, t', rfl, (hmem t').mp ht'⟩
          · rintro ⟨r, hr, t', rfl, ht'⟩
            exact ⟨r, (hfull r).mpr hr, mem_map.mpr ⟨t', (hmem t').mpr ht', rfl⟩⟩

theorem expandParts_raise (h : expandParts var (ps.flatMap VarPiece.parts) = some none) :
    ∃ y, .ref y ∈ ps ∧ var y = some none := by
  induction ps with
  | nil => cases h
  | cons p ps ih =>
    have htail : expandParts var (ps.flatMap VarPiece.parts) = some none → ∃ y, .ref y ∈ p :: ps ∧ var y = some none := by
      intro h
      obtain ⟨y, hy, hraise⟩ := ih h
      exact ⟨y, mem_cons_of_mem p hy, hraise⟩
    rw [flatMap_cons] at h
    cases p with
    | lit u | esc c u => exact htail (expandParts_lits_raise h)
    | ref x =>
      rcases tryThen_raise.mp h with h | ⟨rs, -, h⟩
      · exact ⟨x, mem_cons_self, h⟩
      · rcases tryThen_raise.mp h with h | ⟨ts, -, h⟩
        · exact htail h
        · cases h

theorem expandValues_ok (hD : RegularDefs m D) (hvar : GoodVar D var) {vs L : List Text} (hvs : ∀ v ∈ vs, Regular m v)
    (h : expandValues var vs = some (some L)) : (∀ v ∈ vs, Closed D v) ∧ ∀ t, t ∈ L ↔ ∃ v ∈ vs, Expands D v t := by
  induction vs generalizing L with
  | nil =>
    cases h
    exact ⟨fun v hv => absurd hv not_mem_nil, fun t => by simp⟩
  | cons v vs ih =>
    obtain ⟨⟨ps, hps, rfl⟩, hrest⟩ := forall_mem_cons.mp hvs
    obtain ⟨rs, hrs, h⟩ := tryThen_ok.mp h
    obtain ⟨ts, hts, hL⟩ := tryThen_ok.mp h
    cases hL
    rw [expandString, varParts_textOf hps] at hrs
    obtain ⟨hrefs, hprod⟩ := expandParts_ok hvar hrs
    obtain ⟨hclosed, hmem⟩ := ih hrest hts
    refine ⟨forall_mem_cons.mpr ⟨closed_of_refs hD hps hrefs, hclosed⟩, fun t => ?_⟩
    rw [mem_append, hprod, hmem, ← expands_iff_product hD hps]
    simp

theorem expandValues_raise {vs : List Text} (hvs : ∀ v ∈ vs, Regular m v) (h : expandValues var vs = some none) :
    ∃ v ∈ vs, ∃ ps, IsPieces m v ps ∧ ∃ y, .ref y ∈ ps ∧ var y = some none := by
  induction vs with
  | nil => cases h
  | cons v vs ih =>
    obtain ⟨⟨ps, hps, htext⟩, hrest⟩ := forall_mem_cons.mp hvs
    rcases tryThen_raise.mp h with h | ⟨rs, -, h⟩
    · rw [expandString, htext, varParts_textOf hps] at h
      exact ⟨v, mem_cons_self, ps, ⟨hps, htext⟩, expandParts_raise h⟩
    · rcases tryThen_raise.mp h with h | ⟨ts, -, h⟩
      · obtain ⟨w, hw, hraise⟩ := ih hrest h
        exact ⟨w, mem_cons_of_mem v hw, hraise⟩
      · cases h

theorem expandVar_ok (hD : RegularDefs m D) (fuel : ℕ) (seen : List Text) : GoodVar D (expandVar D fuel seen) := by
  induction fuel generalizing seen with
  | zero => exact fun x rs h => nomatch h
  | succ fuel ih =>
    intro x rs h
    rw [expandVar] at h
    by_cases hseen : x ∈ seen
    · rw [if_pos hseen] at h
      cases h
    · rw [if_neg hseen] at h
      cases hd : D x with
      | none =>
        rw [hd] at h
        cases h
      | some vs =>
        rw [hd] at h
        obtain ⟨hclosed, hmem⟩ := expandValues_ok hD (ih (x :: seen)) (hD x vs hd) h
        refine ⟨⟨vs, hd, hclosed⟩, fun r => (hmem r).trans ?_⟩
        constructor
        · rintro ⟨v, hv, hr⟩
          exact ⟨vs, hd, v, hv, hr⟩
        · rintro ⟨vs', hd', v, hv, hr⟩
          rw [hd] at hd'
          cases hd'
          exact ⟨v, hv, hr⟩

theorem expandVar_raise (hD : RegularDefs m D) {fuel : ℕ} {seen : List Text}
    (hseen : ∀ z ∈ seen, Relation.TransGen (Mentions m D) z x) (h : expandVar D fuel seen x = some none) : Faulty m D x := by
  induction fuel generalizing seen x with
  | zero => cases h
  | succ fuel ih =>
    rw [expandVar] at h
    by_cases hx : x ∈ seen
    · exact ⟨x, Relation.ReflTransGen.refl, Or.inr (hseen x hx)⟩
    · rw [if_neg hx] at h
      cases hd : D x with
      | none => exact ⟨x, Relation.ReflTransGen.refl, Or.inl hd⟩
      | some vs =>
        rw [hd] at h
        obtain ⟨v, hv, ps, hps, y, hy, hraise⟩ := expandValues_raise (hD x vs hd) h
        have hxy : Mentions m D x y := ⟨vs, hd, v, hv, ps, hps, hy⟩
        have hseen' : ∀ z ∈ x :: seen, Relation.TransGen (Mentions m D) z y := by
          refine forall_mem_cons.mpr ⟨Relation.TransGen.single hxy, fun z hz => ?_⟩
          exact (hseen z hz).tail hxy
        obtain ⟨z, hpath, hfault⟩ := ih hseen' hraise
        exact ⟨z, Relation.ReflTransGen.head hxy hpath, hfault⟩

end Correct

section Returns

variable {D : Definitions} {x : Text} {var : ℕ → Text → Option (Option (List Text))}

theorem expandParts_returns (hvar : ∀ y, ∃ r, Returns (var · y) r) (parts : List Part) :
    ∃ r, Returns (fun fuel => expandParts (var fuel) parts) r := by
  induction parts with
  | nil => exact ⟨_, Returns.pure _⟩
  | cons part parts ih =>
    obtain ⟨rest, hrest⟩ := ih
    cases part with
    | lit c => exact tryThen_returns hrest fun ts _ => ⟨_, Returns.pure _⟩
    | var y =>
      obtain ⟨r, hr⟩ := hvar y
      exact tryThen_returns hr fun rs _ => tryThen_returns hrest fun ts _ => ⟨_, Returns.pure _⟩

theorem expandValues_returns (hvar : ∀ y, ∃ r, Returns (var · y) r) (vs : List Text) :
    ∃ r, Returns (fun fuel => expandValues (var fuel) vs) r := by
  induction vs with
  | nil => exact ⟨_, Returns.pure _⟩
  | cons v vs ih =>
    obtain ⟨r, hr⟩ := expandParts_returns hvar (varParts v 0)
    obtain ⟨rest, hrest⟩ := ih
    exact tryThen_returns hr fun rs _ => tryThen_returns hrest fun ts _ => ⟨_, Returns.pure _⟩

theorem expandVar_returns {keys : Finset Text} (hkeys : ∀ y vs, D y = some vs → y ∈ keys) (seen : List Text) (x : Text) :
    ∃ r, Returns (fun fuel => expandVar D fuel seen x) r := by
  induction hn : (keys.filter (· ∉ seen)).card using Nat.strong_induction_on generalizing seen x with
  | _ n ih =>
    by_cases hseen : x ∈ seen
    · exact ⟨none, Returns.step ((Returns.pure none).congr fun fuel => by rw [expandVar, if_pos hseen])⟩
    · cases hd : D x with
      | none =>
        refine ⟨none, Returns.step ((Returns.pure none).congr fun fuel => ?_)⟩
        rw [expandVar, if_neg hseen, hd]
      | some vs =>
        have hless : (keys.filter (· ∉ x :: seen)).card < n := by
          rw [← hn]
          apply Finset.card_lt_card
          rw [Finset.ssubset_iff_of_subset]
          · exact ⟨x, Finset.mem_filter.mpr ⟨hkeys x vs hd, hseen⟩, fun hmem =>
              (Finset.mem_filter.mp hmem).2 mem_cons_self⟩
          · exact Finset.monotone_filter_right keys fun y _ hy hmem => hy (mem_cons_of_mem x hmem)
        obtain ⟨r, hr⟩ := expandValues_returns (fun y => ih _ hless (x :: seen) y rfl) vs
        refine ⟨r, Returns.step (hr.congr fun fuel => ?_)⟩
        rw [expandVar, if_neg hseen, hd]

end Returns

structure SetTable where
  entries : List (Text × List Text)
  nonempty : ∀ x vs, (x, vs) ∈ entries → vs ≠ []

namespace SetTable

def symtab (T : SetTable) : Symtab := fun x => (T.entries.lookup x).map Variable.ofValues

def dict (T : SetTable) : Definitions := T.symtab.defs

variable (T : SetTable) {x : Text} {v : Variable}

theorem symtab_some (hv : T.symtab x = some v) : ∃ vs, (x, vs) ∈ T.entries ∧ v = .ofValues vs := by
  obtain ⟨vs, hlookup, rfl⟩ := Option.map_eq_some_iff.mp hv
  obtain ⟨front, back, hentries, -⟩ := lookup_eq_some_iff.mp hlookup
  exact ⟨vs, by rw [hentries]; simp, rfl⟩

theorem symtab_upToDate : T.symtab.UpToDate := by
  refine ⟨fun x v hv => ?_, fun x v hv _ _ hne => ?_⟩
  · obtain ⟨vs, hmem, rfl⟩ := T.symtab_some hv
    exact proper_ofValues (T.nonempty x vs hmem)
  · obtain ⟨vs, -, rfl⟩ := T.symtab_some hv
    exact absurd rfl hne

/-- A `@{`, which is not escaped, begins a reference with a valid name. Either no text before, between or behind the
references of a value ends in `@` or none of them begins with `{`, so that no reference arises where texts are joined. -/
def IsRegular (m : JoinRule) : Prop := ∀ x vs, (x, vs) ∈ T.entries → ∀ v ∈ vs, Regular m v

variable {T} {m : JoinRule}

theorem IsRegular.dict (h : T.IsRegular m) : RegularDefs m T.dict := by
  intro x vs hd v hv
  obtain ⟨w, hw, -, rfl⟩ := lookup_of_defs hd
  obtain ⟨us, hmem, rfl⟩ := T.symtab_some hw
  exact h x us hmem v (mem_ofValues.mp hv)

end SetTable

def pairTable (value : Text) : SetTable where
  entries := [(aText, [value]), (bText, [['x']])]
  nonempty := by
    intro x vs h
    rcases List.mem_cons.mp h with h | h
    · cases h
      exact List.cons_ne_nil _ _
    · cases List.mem_singleton.mp h
      exact List.cons_ne_nil _ _

def mailTable : SetTable where
  entries := [(aText, [['u', '@'], ['@', '@', 'h']]), (bText, [['x'], 'y' :: '@' :: 'z' :: '@' :: (refText aText ++ ['@'])])]
  nonempty := by
    intro x vs h
    rcases List.mem_cons.mp h with h | h
    · cases h
      exact List.cons_ne_nil _ _
    · cases List.mem_singleton.mp h
      exact List.cons_ne_nil _ _

theorem mailTable_regular : mailTable.IsRegular .noLeadingBrace := by
  have hrun : ∀ u : Text, (VarPiece.lit u).Valid .noLeadingBrace → Regular .noLeadingBrace u := fun u hu =>
    ⟨[.lit u], fun p hp => mem_singleton.mp hp ▸ hu, by simp [textOf, VarPiece.text]⟩
  intro x vs hx v hv
  rcases mem_cons.mp hx with hx | hx
  · cases hx
    rcases mem_cons.mp hv with rfl | hv
    · exact hrun _ ⟨by decide, by decide⟩
    · rw [mem_singleton.mp hv]
      exact hrun _ ⟨by decide, by decide⟩
  · cases mem_singleton.mp hx
    rcases mem_cons.mp hv with rfl | hv
    · exact hrun _ ⟨by decide, by decide⟩
    · rw [mem_singleton.mp hv]
      refine ⟨[.lit ['y', '@', 'z', '@'], .ref aText, .lit ['@']], fun p hp => ?_, rfl⟩
      simp only [mem_cons, not_mem_nil, or_false] at hp
      rcases hp with rfl | rfl | rfl
      · exact ⟨by decide, by decide⟩
      · exact ⟨by decide, forall_mem_of_all (by decide)⟩
      · exact ⟨by decide, by decide⟩

def braceB : Text := ['{', 'b', '}']

def loopTable : SetTable where
  entries := [(aText, ['@' :: bVar]), (bText, [braceB ++ braceB ++ ['@', '@']])]
  nonempty := by
    intro x vs h
    rcases List.mem_cons.mp h with h | h
    · cases h
      exact List.cons_ne_nil _ _
    · cases List.mem_singleton.mp h
      exact List.cons_ne_nil _ _

def braces : ℕ → Text
  | 0 => []
  | k + 1 => braces k ++ braceB

theorem braces_refFree (k : ℕ) : RefFree .noTrailingAt (braces k) := by
  induction k with
  | zero => exact ⟨[], ⟨fun p hp => absurd hp not_mem_nil, rfl⟩, fun p hp => absurd hp not_mem_nil⟩
  | succ k ih =>
    refine ih.append ⟨[.lit braceB], ⟨fun p hp => ?_, rfl⟩, by decide⟩
    rw [mem_singleton.mp hp]
    exact ⟨by decide, by decide⟩

theorem extract_braces (k : ℕ) (s : Text) :
    extractVariable (braces k ++ bVar ++ s) = some (braces k, bVar, s) ∧
      extractVariable (braces k ++ ['@'] ++ bVar ++ s) = some (braces k ++ ['@'], bVar, s) := by
  have hvalid : (VarPiece.ref bText).Valid .noTrailingAt := ⟨by decide, forall_mem_of_all (by decide)⟩
  have hat : ∀ i, extractLoop i false none (['@'] ++ (bVar ++ s)) = extractLoop (i + 1) false none (bVar ++ s) := by
    intro i
    rw [extractLoop.eq_def]
    rfl
  have href : ∀ i, extractLoop i false none (bVar ++ s) = some (i, i + 1 + 2) := fun i => extractLoop_ref hvalid
  constructor
  · refine extractVariable_of_loop (x := bText) ?_
    change extractLoop 0 false none (braces k ++ bVar ++ s) = _
    rw [append_assoc, extractLoop_refFree (braces_refFree k) nofun, href, Nat.zero_add]
    rfl
  · refine extractVariable_of_loop (x := bText) ?_
    change extractLoop 0 false none (braces k ++ ['@'] ++ bVar ++ s) = _
    rw [append_assoc, append_assoc, extractLoop_refFree (braces_refFree k) nofun, hat, href, Nat.zero_add,
      length_append]
    rfl

def Looping (t : Symtab) : Prop :=
  t bText = some ⟨.set, 0, [braceB ++ braceB ++ ['@', '@']], [braceB ++ braceB ++ ['@', '@']], false⟩

theorem looping_step {t : Symtab} (ht : Looping t) {value pre suffix : Text} (he : extractVariable value = some (pre, bVar, suffix))
    (fuel : ℕ) (hnext : expandWork fuel t aText [pre ++ (braceB ++ braceB ++ ['@', '@']) ++ suffix] = none) :
    expandWork (fuel + 1) t aText [value] = none := by
  rw [expandWork_ref he (show processVar bVar = some bText by decide), ht]
  cases fuel with
  | zero => rfl
  | succ fuel =>
    have hcall : expandVariable (fuel + 1) t bText = some (t, .ok) := by
      rw [expandVariable, ht]
      rfl
    dsimp only
    rw [if_neg Bool.false_ne_true, hcall]
    dsimp only
    rw [ht]
    exact hnext

theorem looping_runs {t : Symtab} (ht : Looping t) (fuel : ℕ) :
    (∀ k s, expandWork fuel t aText [braces k ++ ['@'] ++ bVar ++ s] = none) ∧
      ∀ k s, expandWork fuel t aText [braces k ++ bVar ++ (braceB ++ s)] = none := by
  induction fuel with
  | zero => exact ⟨fun k s => rfl, fun k s => rfl⟩
  | succ fuel ih =>
    constructor
    · intro k s
      refine looping_step ht (extract_braces k s).2 fuel ?_
      have hnext := ih.2 k (['@', '@'] ++ s)
      have htext : braces k ++ ['@'] ++ (braceB ++ braceB ++ ['@', '@']) ++ s = braces k ++ bVar ++ (braceB ++ (['@', '@'] ++ s)) := by
        simp [bVar, braceB]
      rwa [htext]
    · intro k s
      refine looping_step ht (extract_braces k (braceB ++ s)).1 fuel ?_
      have hnext := ih.1 (k + 2) s
      have htext : braces k ++ (braceB ++ braceB ++ ['@', '@']) ++ (braceB ++ s) = braces (k + 2) ++ ['@'] ++ bVar ++ s := by
        simp [braces, bVar, braceB]
      rwa [htext]

def loopStart : Symtab :=
  (((loopTable.symtab.setExpanding aText true).setExpanding bText true).insertExpanded bText
    (braceB ++ braceB ++ ['@', '@'])).setExpanding bText false

theorem loopStart_looping : Looping loopStart := by
  unfold Looping
  decide

theorem loopTable_runs (fuel : ℕ) : expandVariable fuel loopTable.symtab aText = none := by
  cases fuel with
  | zero => rfl
  | succ fuel =>
    have hwork : expandWork fuel (loopTable.symtab.setExpanding aText true) aText ['@' :: bVar] = none := by
      cases fuel with
      | zero => rfl
      | succ fuel =>
        have hb : loopTable.symtab.setExpanding aText true bText = some (.ofValues [braceB ++ braceB ++ ['@', '@']]) := by decide
        have he : extractVariable ('@' :: bVar) = some (['@'], bVar, []) := (extract_braces 0 []).2
        rw [expandWork_ref he (show processVar bVar = some bText by decide), hb]
        dsimp only
        rw [if_neg (show ¬ (Variable.ofValues [braceB ++ braceB ++ ['@', '@']]).expanding = true by decide)]
        -- `@{b}` is expanded once, in three calls
        rcases fuel with _ | _ | _ | fuel
        · rfl
        · rfl
        · rfl
        · have hcall : expandVariable (fuel + 3) (loopTable.symtab.setExpanding aText true) bText = some (loopStart, .ok) := rfl
          rw [hcall]
          dsimp only
          rw [loopStart_looping]
          exact (looping_runs loopStart_looping (fuel + 3)).2 0 ['@', '@']
    have ha : loopTable.symtab aText = some (.ofValues ['@' :: bVar]) := by decide
    rw [expandVariable, ha]
    exact congrArg (Option.map _) hwork

end AppArmor

import AppArmor.Vars.Expansion

namespace AppArmor

open Fuel List Function

def Symtab.defs (t : Symtab) : Definitions := fun x => (t x).bind fun v => if v.type = .set then some v.values else none

def Complete (D : Definitions) (y : Text) (E : List Text) : Prop := (∀ r, r ∈ E ↔ r ∈ fullExpansion D y) ∧ ClosedVar D y

def Coherent (D : Definitions) (t : Symtab) : Prop :=
  ∀ y v, t y = some v → v.type = .set → v.expanding = false → v.expanded ≠ [] → Complete D y v.expanded

def Filled (D : Definitions) (t t' : Symtab) : Prop :=
  ∀ y, t' y = t y ∨ ∃ v E, t y = some v ∧ v.type = .set ∧ v.expanding = false ∧ v.expanded = [] ∧ Complete D y E ∧
    t' y = some { v with expanded := E }

section Filled

variable {D : Definitions} {t t' t'' : Symtab} {x y : Text} {v : Variable} {E : List Text}

theorem Filled.refl (D : Definitions) (t : Symtab) : Filled D t t := fun _ => Or.inl rfl

theorem Filled.trans (h : Filled D t t') (h' : Filled D t' t'') (hne : ∀ y E, Complete D y E → E ≠ []) : Filled D t t'' := by
  intro y
  rcases h y with h | ⟨v, E, hv, htype, hexp, hempty, hE, h⟩
  · rw [← h]
    exact h' y
  · rcases h' y with h' | ⟨v', E', hv', -, -, hempty', -⟩
    · exact Or.inr ⟨v, E, hv, htype, hexp, hempty, hE, h'.trans h⟩
    · rw [h] at hv'
      cases hv'
      exact absurd hempty' (hne y E hE)

theorem Filled.lookup (h : Filled D t t') (hv : t x = some v) :
    ∃ E, t' x = some { v with expanded := E } ∧ (v.expanding = true → E = v.expanded) := by
  rcases h x with h | ⟨v', E, hv', -, hexp, -, -, h⟩
  · exact ⟨v.expanded, h.trans hv, fun _ => rfl⟩
  · rw [hv] at hv'
    cases hv'
    refine ⟨E, h, fun ht => ?_⟩
    rw [hexp] at ht
    cases ht

theorem Filled.defs (h : Filled D t t') : t'.defs = t.defs := by
  funext y
  unfold Symtab.defs
  rcases h y with h | ⟨v, E, hv, -, -, -, -, h⟩
  · rw [h]
  · rw [h, hv]
    rfl

theorem Filled.coherent (h : Filled D t t') (hc : Coherent D t) : Coherent D t' := by
  intro y v hv htype hexp hne
  rcases h y with h | ⟨v', E, hv', htype', hexp', -, hE, h⟩
  · exact hc y v (h ▸ hv) htype hexp hne
  · rw [h] at hv
    cases hv
    exact hE

theorem Filled.expanding (h : Filled D t t') {v' : Variable} (hv' : t' y = some v') :
    ∃ v, t y = some v ∧ v.expanding = v'.expanding := by
  rcases h y with h | ⟨v, E, hv, -, -, -, -, h⟩
  · exact ⟨v', h ▸ hv', rfl⟩
  · rw [h] at hv'
    cases hv'
    exact ⟨v, hv, rfl⟩

theorem Filled.update (h : Filled D t t') (w : Option Variable) : Filled D (Function.update t x w) (Function.update t' x w) := by
  intro y
  by_cases hy : y = x
  · subst hy
    left
    rw [update_self, update_self]
  · rw [update_of_ne hy, update_of_ne hy]
    exact h y

theorem defs_update (hv : t x = some v) (w : Variable) (htype : w.type = v.type) (hvalues : w.values = v.values) :
    Symtab.defs (Function.update t x (some w)) = t.defs := by
  funext y
  unfold Symtab.defs
  by_cases hy : y = x
  · subst hy
    rw [update_self, hv, Option.bind_some, Option.bind_some, htype, hvalues]
  · rw [update_of_ne hy]

theorem modify_eq (hv : t x = some v) (f : Variable → Variable) : t.modify x f = Function.update t x (some (f v)) := by
  rw [Symtab.modify, hv]
  rfl

theorem Coherent.update_expanding (hc : Coherent D t) {w : Variable} (hw : w.expanding = true) :
    Coherent D (Function.update t x (some w)) := by
  intro y v hv htype hexp hne
  by_cases hy : y = x
  · subst hy
    rw [update_self] at hv
    cases hv
    rw [hw] at hexp
    cases hexp
  · rw [update_of_ne hy] at hv
    exact hc y v hv htype hexp hne

end Filled

section Sound

variable {D : Definitions}

def SoundVariable (D : Definitions) (fuel : ℕ) : Prop :=
  ∀ t x t' v, t.defs = D → Coherent D t → t x = some v → v.expanding = false →
    expandVariable fuel t x = some (t', .ok) →
      v.type = .set ∧ Filled D t t' ∧ ∃ v', t' x = some v' ∧ v'.expanding = false ∧ Complete D x v'.expanded

def SoundWork (D : Definitions) (fuel : ℕ) : Prop :=
  ∀ t x work t' v, t.defs = D → Coherent D t → t x = some v → v.expanding = true →
    expandWork fuel t x work = some (t', .ok) →
      (∀ w ∈ work, Closed D w) ∧ ∃ E, (∀ r, r ∈ E ↔ r ∈ v.expanded ∨ ∃ w ∈ work, Expands D w r) ∧
        Filled D (Function.update t x (some { v with expanded := E })) t'

variable (hne : ∀ y E, Complete D y E → E ≠ [])

include hne

theorem soundWork_succ {fuel : ℕ} (hvar : SoundVariable D fuel) (hwork : SoundWork D fuel) : SoundWork D (fuel + 1) := by
  intro t x work t' v hdefs hc hv hexp h
  cases work with
  | nil =>
    rw [expandWork] at h
    cases h
    refine ⟨by simp, v.expanded, by simp, ?_⟩
    have hself : update t x (some { v with expanded := v.expanded }) = t := by
      rw [← hv]
      exact update_eq_self x t
    rw [hself]
    exact .refl D t
  | cons value work =>
    rw [expandWork] at h
    cases he : extractVariable value with
    | none =>
      rw [he] at h
      dsimp only at h
      rw [Symtab.insertExpanded, modify_eq hv] at h
      obtain ⟨hclosed, E, hE, hfill⟩ := hwork _ x work t' { v with expanded := insertText value v.expanded }
        ((defs_update hv { v with expanded := insertText value v.expanded } rfl rfl).trans hdefs) (hc.update_expanding hexp) (update_self ..) hexp h
      refine ⟨forall_mem_cons.mpr ⟨.done he, hclosed⟩, E, fun r => ?_, ?_⟩
      · rw [hE, mem_insertText, exists_mem_cons_iff, expands_none he]
        tauto
      · rwa [update_idem] at hfill
    | some parts =>
      obtain ⟨pre, var, suffix⟩ := parts
      rw [he] at h
      dsimp only at h
      cases hy : processVar var with
      | none =>
        rw [hy] at h
        cases h
      | some y =>
        rw [hy] at h
        dsimp only at h
        cases href : t y with
        | none =>
          rw [href] at h
          cases h
        | some ref =>
          rw [href] at h
          dsimp only at h
          by_cases hrexp : ref.expanding = true
          · rw [if_pos hrexp] at h
            cases h
          rw [if_neg hrexp] at h
          cases hcall : expandVariable fuel t y with
          | none =>
            rw [hcall] at h
            cases h
          | some res =>
            obtain ⟨t₁, rc⟩ := res
            rw [hcall] at h
            cases rc with
            | failed | aborted => cases h
            | ok =>
              obtain ⟨-, hfill₁, ref', href', -, hcomplete⟩ := hvar t y t₁ ref hdefs hc href (by simpa using hrexp) hcall
              obtain ⟨E₁, hv₁, hsame⟩ := hfill₁.lookup hv
              rw [hsame hexp] at hv₁
              dsimp only at h
              rw [href'] at h
              dsimp only at h
              rw [if_neg (hne y _ hcomplete)] at h
              obtain ⟨hclosed, E, hE, hfill⟩ := hwork t₁ x _ t' v (hfill₁.defs.trans hdefs) (hfill₁.coherent hc) hv₁ hexp h
              have hmem : ∀ r, r ∈ fullExpansion D y → r ∈ ref'.expanded := fun r hr => (hcomplete.1 r).mpr hr
              obtain ⟨vs, hd, hvs⟩ := hcomplete.2
              refine ⟨forall_mem_cons.mpr ⟨.step he hy hd hvs fun r hr => hclosed _ ?_, fun w hw => hclosed w ?_⟩, E,
                fun r => ?_, (hfill₁.update _).trans hfill hne⟩
              · exact mem_append_right _ (mem_map_of_mem (hmem r hr))
              · exact mem_append_left _ hw
              · rw [hE, exists_mem_cons_iff, expands_iff he hy]
                simp only [mem_append, or_and_right, exists_or, mem_map]
                constructor
                · rintro (h | h | ⟨w, ⟨r', hr', rfl⟩, hw⟩)
                  · exact Or.inl h
                  · exact Or.inr (Or.inr h)
                  · exact Or.inr (Or.inl ⟨r', (hcomplete.1 r').mp hr', hw⟩)
                · rintro (h | ⟨r', hr', hw⟩ | h)
                  · exact Or.inl h
                  · exact Or.inr (Or.inr ⟨_, ⟨r', hmem r' hr', rfl⟩, hw⟩)
                  · exact Or.inr (Or.inl h)

omit hne in
theorem soundVariable_succ {fuel : ℕ} (hwork : SoundWork D fuel) : SoundVariable D (fuel + 1) := by
  intro t x t' v hdefs hc hv hexp h
  rw [expandVariable, hv] at h
  dsimp only at h
  by_cases hbool : v.type = .boolean
  · rw [if_pos hbool] at h
    cases h
  rw [if_neg hbool] at h
  have htype : v.type = .set := by
    revert hbool
    cases v.type <;> simp
  refine ⟨htype, ?_⟩
  by_cases hdone : v.expanded ≠ []
  · rw [if_pos hdone] at h
    cases h
    exact ⟨.refl D t, v, hv, hexp, hc x v hv htype hexp hdone⟩
  rw [if_neg hdone] at h
  obtain ⟨⟨t₁, rc⟩, hrun, h⟩ := Option.map_eq_some_iff.mp h
  cases h
  rw [Symtab.setExpanding, modify_eq hv] at hrun
  obtain ⟨hclosed, E, hE, hfill⟩ := hwork _ x v.values t₁ { v with expanding := true }
    ((defs_update hv { v with expanding := true } rfl rfl).trans hdefs) (hc.update_expanding rfl) (update_self ..) rfl hrun
  rw [update_idem] at hfill
  have hx : t₁ x = some { v with expanding := true, expanded := E } := by
    obtain ⟨E', hx, hsame⟩ := hfill.lookup (update_self ..)
    rw [hsame rfl] at hx
    exact hx
  have hd : D x = some v.values := by
    rw [← hdefs, Symtab.defs, hv, Option.bind_some, if_pos htype]
  have hempty : v.expanded = [] := not_not.mp hdone
  have hcomplete : Complete D x E := by
    refine ⟨fun r => ?_, v.values, hd, hclosed⟩
    rw [hE, hempty]
    constructor
    · rintro (h | ⟨w, hw, hr⟩)
      · cases h
      · exact ⟨v.values, hd, w, hw, hr⟩
    · rintro ⟨vs, hd', w, hw, hr⟩
      rw [hd] at hd'
      cases hd'
      exact Or.inr ⟨w, hw, hr⟩
  have ht' : t₁.setExpanding x false = update t₁ x (some { v with expanded := E }) := by
    rw [Symtab.setExpanding, modify_eq hx]
    congr 3
    exact hexp.symm
  refine ⟨?_, { v with expanded := E }, ?_, hexp, hcomplete⟩
  · rw [ht']
    intro y
    by_cases hy : y = x
    · subst hy
      rw [update_self]
      exact Or.inr ⟨v, E, hv, htype, hexp, hempty, hcomplete, rfl⟩
    · rw [update_of_ne hy]
      have := hfill y
      rw [update_of_ne hy] at this
      exact this
  · rw [ht', update_self]

theorem expand_sound (fuel : ℕ) : SoundVariable D fuel ∧ SoundWork D fuel := by
  induction fuel with
  | zero =>
    constructor
    · intro t x t' v _ _ _ _ h
      rw [expandVariable] at h
      cases h
    · intro t x work t' v _ _ _ _ h
      rw [expandWork] at h
      cases h
  | succ fuel ih => exact ⟨soundVariable_succ ih.2, soundWork_succ hne ih.1 ih.2⟩

end Sound

section Returns

variable {D : Definitions} {t : Symtab} {x y : Text}

theorem complete_ne_nil (hvals : ∀ x vs, D x = some vs → vs ≠ []) (y : Text) (E : List Text) (h : Complete D y E) : E ≠ [] := by
  obtain ⟨hmem, vs, hd, hclosed⟩ := h
  obtain ⟨v, hv⟩ := exists_mem_of_ne_nil _ (hvals y vs hd)
  obtain ⟨r, hr⟩ := (hclosed v hv).expands hvals
  exact ne_nil_of_mem ((hmem r).mpr ⟨vs, hd, v, hv, hr⟩)

theorem lookup_of_defs {vs : List Text} (h : t.defs x = some vs) : ∃ v, t x = some v ∧ v.type = .set ∧ v.values = vs := by
  obtain ⟨v, hv, h⟩ := Option.bind_eq_some_iff.mp h
  split_ifs at h with htype
  cases h
  exact ⟨v, hv, htype, rfl⟩

def ReplacedClosed (D : Definitions) (s' s : Text) : Prop := Replaced D s' s ∧ Closed D s

instance (D : Definitions) : Std.Irrefl (ReplacedClosed D) := by
  refine ⟨fun s h => ?_⟩
  have hacc := h.2.acc_replaced
  induction hacc with
  | intro s _ ih => exact ih s h.1 h

theorem acc_work {work : List Text} (h : ∀ w ∈ work, Closed D w) :
    Acc (Relation.CutExpand (ReplacedClosed D)) (work : Multiset Text) := by
  refine Relation.acc_of_singleton fun s hs => Acc.cutExpand ?_
  have hsub : Subrelation (ReplacedClosed D) (Replaced D) := fun h => h.1
  exact hsub.accessible (h s hs).acc_replaced

theorem cut_head {α : Type} {r : α → α → Prop} {a : α} {work l : List α} (h : ∀ b ∈ l, r b a) :
    Relation.CutExpand r ((work ++ l : List α) : Multiset α) ((a :: work : List α) : Multiset α) := by
  refine ⟨(l : Multiset α), a, h, ?_⟩
  rw [← Multiset.coe_singleton, Multiset.coe_add, Multiset.coe_add, Multiset.coe_eq_coe]
  exact perm_append_singleton a (work ++ l)

def Idle (D : Definitions) (t : Symtab) (x : Text) : Prop := ∀ y, Reaches D x y → ∀ v, t y = some v → v.expanding = false

theorem Idle.filled {t' : Symtab} (h : Idle D t x) (hfill : Filled D t t') : Idle D t' x := by
  intro y hy v' hv'
  obtain ⟨v, hv, he⟩ := hfill.expanding hv'
  rw [← he]
  exact h y hy v hv

theorem Idle.update {w : Variable} (h : Idle D t y) (hxy : ¬ Reaches D y x) : Idle D (Function.update t x (some w)) y := by
  intro z hz v hv
  have hne : z ≠ x := by
    rintro rfl
    exact hxy hz
  rw [update_of_ne hne] at hv
  exact h z hz v hv

def Expandable (D : Definitions) (y : Text) : Prop :=
  ∀ t : Symtab, t.defs = D → Coherent D t → Idle D t y → ∃ t', Returns (fun fuel => expandVariable fuel t y) (t', .ok)

theorem expandWork_returns (hvals : ∀ x vs, D x = some vs → vs ≠ []) (hx : ClosedVar D x)
    (hnested : ∀ y, Refers D x y → Expandable D y) {work : List Text} (hclosed : ∀ w ∈ work, Closed D w)
    (huses : ∀ w ∈ work, ∀ y, Uses D w y → Refers D x y) {v : Variable} (hdefs : t.defs = D) (hc : Coherent D t)
    (hv : t x = some v) (hexp : v.expanding = true) (hidle : ∀ y, Refers D x y → Idle D t y) :
    ∃ t', Returns (fun fuel => expandWork fuel t x work) (t', .ok) := by
  have hne := complete_ne_nil hvals
  generalize hm : (work : Multiset Text) = m
  have hacc := acc_work hclosed
  rw [hm] at hacc
  induction hacc generalizing work t v with
  | intro m _ ih =>
    cases work with
    | nil =>
      refine ⟨t, ⟨1, fun fuel hle => ?_⟩⟩
      obtain ⟨n, rfl⟩ := Nat.exists_eq_add_of_le' hle
      rfl
    | cons value work =>
      obtain ⟨hval, hrest⟩ := forall_mem_cons.mp hclosed
      obtain ⟨hvalUses, hrestUses⟩ := forall_mem_cons.mp huses
      cases he : extractVariable value with
      | none =>
        have hcut : Relation.CutExpand (ReplacedClosed D) (work : Multiset Text) m := by
          have hcut := @cut_head Text (ReplacedClosed D) value work [] (by simp)
          rwa [append_nil, hm] at hcut
        have hfree : ∀ y, Refers D x y → Idle D (t.insertExpanded x value) y := by
          intro y hy
          rw [Symtab.insertExpanded, modify_eq hv]
          exact (hidle y hy).update (hx.acyclic hy)
        have hins : t.insertExpanded x value = update t x (some { v with expanded := insertText value v.expanded }) :=
          modify_eq hv _
        have hdefs' : (t.insertExpanded x value).defs = D := by
          rw [hins, defs_update hv { v with expanded := insertText value v.expanded } rfl rfl, hdefs]
        have hc' : Coherent D (t.insertExpanded x value) := by
          rw [hins]
          exact hc.update_expanding hexp
        have hv' : t.insertExpanded x value x = some { v with expanded := insertText value v.expanded } := by
          rw [hins]
          exact update_self ..
        obtain ⟨t', ht'⟩ := ih _ hcut hrest hrestUses hdefs' hc' hv' hexp hfree rfl
        refine ⟨t', Returns.step (ht'.congr fun fuel => ?_)⟩
        rw [expandWork, he]
      | some parts =>
        obtain ⟨pre, var, suffix⟩ := parts
        obtain ⟨y, hy, hclosedVar, hreplaced⟩ := closed_of_reference hval he
        have hxy : Refers D x y := hvalUses y (.here he hy)
        obtain ⟨vs, hd, -⟩ := hclosedVar
        obtain ⟨ref, href, -, -⟩ := lookup_of_defs (hdefs ▸ hd)
        have hrexp : ref.expanding = false := hidle y hxy y Relation.ReflTransGen.refl ref href
        obtain ⟨t₁, n, hn⟩ := hnested y hxy t hdefs hc (hidle y hxy)
        obtain ⟨-, hfill, ref', href', -, hcomplete⟩ := (expand_sound hne n).1 t y t₁ ref hdefs hc href hrexp (hn n le_rfl)
        obtain ⟨E, hv₁, hsame⟩ := hfill.lookup hv
        rw [hsame hexp] at hv₁
        have hnew : ∀ s ∈ ref'.expanded.map fun r => pre ++ r ++ suffix, Replaced D s value := by
          intro s hs
          obtain ⟨r, hr, rfl⟩ := mem_map.mp hs
          exact ⟨pre, var, suffix, y, he, hy, r, (hcomplete.1 r).mp hr, rfl⟩
        have hclosed' : ∀ s ∈ work ++ ref'.expanded.map fun r => pre ++ r ++ suffix, Closed D s := by
          intro s hs
          rcases mem_append.mp hs with hs | hs
          · exact hrest s hs
          · exact hval.replaced (hnew s hs)
        have huses' : ∀ s ∈ work ++ ref'.expanded.map fun r => pre ++ r ++ suffix, ∀ z, Uses D s z → Refers D x z := by
          intro s hs z hz
          rcases mem_append.mp hs with hs | hs
          · exact hrestUses s hs z hz
          · exact hvalUses z (.later (hnew s hs) hz)
        have hcut := @cut_head Text (ReplacedClosed D) value work _ fun s hs => ⟨hnew s hs, hval⟩
        rw [hm] at hcut
        obtain ⟨t', k, hk⟩ := ih _ hcut hclosed' huses' (hfill.defs.trans hdefs) (hfill.coherent hc) hv₁ hexp
          (fun z hz => (hidle z hz).filled hfill) rfl
        refine ⟨t', max n k + 1, fun fuel hle => ?_⟩
        obtain ⟨m', rfl⟩ := Nat.exists_eq_add_of_le' (show 1 ≤ fuel by omega)
        have hcall := hn m' (by omega)
        have hloop := hk m' (by omega)
        dsimp only at hcall hloop ⊢
        rw [expandWork, he]
        dsimp only
        rw [hy]
        dsimp only
        rw [href]
        dsimp only
        rw [hrexp, if_neg Bool.false_ne_true, hcall]
        dsimp only
        rw [href']
        dsimp only
        rw [if_neg (hne y _ hcomplete), hloop]

theorem expandVariable_returns (hvals : ∀ x vs, D x = some vs → vs ≠ []) (hx : ClosedVar D x) : Expandable D x := by
  have hacc := hx.acc
  induction hacc with
  | intro x _ ih =>
    intro t hdefs hc hidle
    obtain ⟨vs, hd, hclosed⟩ := hx
    obtain ⟨v, hv, htype, rfl⟩ := lookup_of_defs (hdefs ▸ hd)
    have hexp : v.expanding = false := hidle x Relation.ReflTransGen.refl v hv
    by_cases hdone : v.expanded ≠ []
    · refine ⟨t, 1, fun fuel hle => ?_⟩
      obtain ⟨n, rfl⟩ := Nat.exists_eq_add_of_le' hle
      dsimp only
      rw [expandVariable, hv]
      dsimp only
      rw [if_neg (by rw [htype]; decide), if_pos hdone]
    · have hset : t.setExpanding x true = update t x (some { v with expanding := true }) := modify_eq hv _
      have hx : ClosedVar D x := ⟨_, hd, hclosed⟩
      have hdefs' : (t.setExpanding x true).defs = D := by
        rw [hset, defs_update hv { v with expanding := true } rfl rfl, hdefs]
      have hc' : Coherent D (t.setExpanding x true) := by
        rw [hset]
        exact hc.update_expanding rfl
      have hv' : t.setExpanding x true x = some { v with expanding := true } := by
        rw [hset]
        exact update_self ..
      have hidle' : ∀ y, Refers D x y → Idle D (t.setExpanding x true) y := by
        intro y hy
        rw [hset]
        exact Idle.update (fun z hz => hidle z (Relation.ReflTransGen.head hy hz)) (hx.acyclic hy)
      obtain ⟨t', n, hn⟩ := expandWork_returns hvals hx (fun y hy => ih y hy (hx.refers hy)) hclosed
        (fun w hw y hu => ⟨_, hd, w, hw, hu⟩) hdefs' hc' hv' rfl hidle'
      refine ⟨t'.setExpanding x false, n + 1, fun fuel hle => ?_⟩
      obtain ⟨m, rfl⟩ := Nat.exists_eq_add_of_le' (show 1 ≤ fuel by omega)
      have hrun := hn m (by omega)
      dsimp only at hrun ⊢
      rw [expandVariable, hv]
      dsimp only
      rw [if_neg (by rw [htype]; decide), if_neg hdone, hrun]
      rfl

end Returns

end AppArmor

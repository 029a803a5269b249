import AppArmor.Utils.Aare
import AppArmor.Utils.Severity

namespace AppArmor.Utils

open List

section Circles

variable {vars : VariableMap} {p q name : Text}

theorem replaces_iff : Replaces vars p q ↔ ∃ name values, firstVariable p = some name ∧ vars name = some values ∧
    ∃ replacement ∈ values, q = variableReplace name replacement p := by
  constructor
  · rintro ⟨hname, hvalues, hmem⟩
    exact ⟨_, _, hname, hvalues, _, hmem, rfl⟩
  · rintro ⟨name, values, hname, hvalues, replacement, hmem, rfl⟩
    exact .mk hname hvalues hmem

theorem acyclic_plain (hp : firstVariable p = none) : Acyclic vars p := by
  refine .mk (fun name hname => ?_) fun q hq => ?_
  · rw [hp] at hname
    cases hname
  · obtain ⟨name, -, hname, -⟩ := replaces_iff.mp hq
    rw [hp] at hname
    cases hname

theorem acyclic_variable {values : List Text} (hp : firstVariable p = some name)
    (hvalues : vars name = some values) (hall : ∀ r ∈ values, Acyclic vars (variableReplace name r p)) : Acyclic vars p := by
  refine .mk (fun name' hname => ?_) fun q hq => ?_
  · rw [hp] at hname
    cases hname
    rw [hvalues]
    exact Option.some_ne_none values
  · obtain ⟨name', values', hname', hvalues', r, hr, rfl⟩ := replaces_iff.mp hq
    rw [hp] at hname'
    cases hname'
    rw [hvalues] at hvalues'
    cases hvalues'
    exact hall r hr

end Circles

section Parts

inductive PathPart
  | char (c : Char)
  | var (name : Text)

namespace PathPart

def text : PathPart → Text
  | .char c => [c]
  | .var name => variableText name

def Plain : PathPart → Prop
  | .char c => c ≠ '@'
  | .var name => ∀ c ∈ name, c ∉ "@\x7b\x7d.".toList

def names : List PathPart → List Text
  | [] => []
  | .char _ :: parts => names parts
  | .var name :: parts => name :: names parts

def replace (name : Text) (values : List PathPart) : PathPart → List PathPart
  | .char c => [.char c]
  | .var m => if m = name then values else [.var m]

end PathPart

def partsText (parts : List PathPart) : Text := parts.flatMap PathPart.text

variable {name m : Text} {parts values : List PathPart}

theorem readName_text (h : (PathPart.var name).Plain) (s : Text) : readName (name ++ '}' :: s) = some name := by
  change ∀ c ∈ name, c ∉ "@\x7b\x7d.".toList at h
  induction name with
  | nil => rfl
  | cons c name ih =>
    rw [forall_mem_cons] at h
    have hc := h.1
    simp only [String.reduceToList, mem_cons, not_mem_nil, or_false, not_or] at hc
    rw [cons_append, readName, if_neg hc.2.2.1, if_neg fun hor => hor.elim hc.2.1 hc.2.2.2, ih h.2]
    rfl

theorem firstVariable_parts (h : ∀ q ∈ parts, q.Plain) : firstVariable (partsText parts) = (PathPart.names parts).head? := by
  induction parts with
  | nil => rfl
  | cons q parts ih =>
    rw [forall_mem_cons] at h
    cases q with
    | char c =>
      change firstVariable (c :: partsText parts) = _
      rw [firstVariable, if_neg fun hand => h.1 hand.1]
      exact ih h.2
    | var name =>
      have htext : partsText (.var name :: parts) = '@' :: '{' :: (name ++ '}' :: partsText parts) := by
        change variableText name ++ partsText parts = _
        rw [variableText, cons_append, cons_append, append_assoc]
        rfl
      rw [htext, firstVariable, if_pos ⟨rfl, rfl⟩, tail_cons, readName_text h.1]
      rfl

theorem not_prefix_variable (hname : (PathPart.var name).Plain) (hm : (PathPart.var m).Plain) (hne : m ≠ name) (s : Text) :
    ¬variableText name <+: variableText m ++ s := by
  rintro ⟨t, ht⟩
  have hrest : name ++ '}' :: t = m ++ '}' :: s := by
    simpa [variableText] using ht
  have hread := readName_text hname t
  rw [hrest, readName_text hm s] at hread
  exact hne (Option.some.inj hread)

theorem replaceFrom_no_at {old new t s : Text} (ht : '@' ∉ t) :
    replaceFrom ('@' :: old) new (t ++ s) 0 = t ++ replaceFrom ('@' :: old) new s 0 := by
  apply replaceFrom_append
  rintro a b rfl hb hpre
  obtain ⟨c, b, rfl⟩ := exists_cons_of_ne_nil hb
  have hc := (cons_prefix_cons.mp hpre).1
  exact ht (mem_append_right _ (hc ▸ mem_cons_self))

theorem replaceText_parts (hname : (PathPart.var name).Plain) (h : ∀ q ∈ parts, q.Plain) :
    replaceText (variableText name) (partsText values) (partsText parts) =
      partsText (parts.flatMap (PathPart.replace name values)) := by
  unfold replaceText
  induction parts with
  | nil => rfl
  | cons q parts ih =>
    rw [forall_mem_cons] at h
    have hcons : partsText (q :: parts) = q.text ++ partsText parts := rfl
    have happend : partsText ((q :: parts).flatMap (PathPart.replace name values)) =
        partsText (q.replace name values) ++ partsText (parts.flatMap (PathPart.replace name values)) := by
      rw [flatMap_cons]
      exact flatMap_append
    rw [hcons, happend, ← ih h.2]
    cases q with
    | char c =>
      have hc : '@' ∉ [c] := fun hmem => h.1 (mem_singleton.mp hmem).symm
      exact replaceFrom_no_at hc
    | var m =>
      by_cases hm : m = name
      · subst hm
        rw [PathPart.replace, if_pos rfl]
        exact replaceFrom_head _ _ (cons_ne_nil _ _)
      · rw [PathPart.replace, if_neg hm]
        have hat : '@' ∉ '{' :: (m ++ ['}']) := by
          simp only [mem_cons, mem_append, not_mem_nil, or_false, not_or]
          exact ⟨by decide, fun hmem => h.1 '@' hmem (by decide), by decide⟩
        have hrest : replaceFrom (variableText name) (partsText values) ('{' :: (m ++ ['}']) ++ partsText parts) 0 =
            '{' :: (m ++ ['}']) ++ replaceFrom (variableText name) (partsText values) (partsText parts) 0 :=
          replaceFrom_no_at hat
        have hsingle : partsText [.var m] = variableText m := append_nil _
        rw [hsingle]
        change replaceFrom (variableText name) (partsText values) ('@' :: ('{' :: (m ++ ['}']) ++ partsText parts)) 0 = _
        have hfirst : ¬variableText name <+: '@' :: ('{' :: (m ++ ['}']) ++ partsText parts) :=
          not_prefix_variable hname h.1 hm (partsText parts)
        rw [replaceFrom_other _ hfirst, hrest]
        rfl

theorem tail_parts (h : ['/'] <+: partsText values) :
    ∃ values', values'.Sublist values ∧ (partsText values).tail = partsText values' := by
  cases values with
  | nil => exact ⟨[], .slnil, rfl⟩
  | cons q values =>
    cases q with
    | char c => exact ⟨values, sublist_cons_self _ _, rfl⟩
    | var name =>
      have hhead := (cons_prefix_cons.mp h).1
      exact absurd hhead (by decide)

theorem dropLast_parts (h : ['/'] <:+ partsText values) :
    ∃ values', values'.Sublist values ∧ (partsText values).dropLast = partsText values' := by
  induction values using reverseRecOn with
  | nil => exact ⟨[], .slnil, rfl⟩
  | append_singleton values q _ =>
    have happend : partsText (values ++ [q]) = partsText values ++ q.text := by
      unfold partsText
      rw [flatMap_append, flatMap_singleton]
    rw [happend] at h ⊢
    cases q with
    | char c => exact ⟨values, sublist_append_left _ _, dropLast_concat⟩
    | var name =>
      have hlast : (partsText values ++ variableText name).getLast? = some '}' := by
        rw [variableText, ← cons_append, ← cons_append, ← append_assoc]
        exact getLast?_concat
      obtain ⟨t, ht⟩ := h
      rw [PathPart.text] at ht
      rw [← ht, getLast?_concat] at hlast
      exact absurd (Option.some.inj hlast) (by decide)

theorem variableReplace_parts (values : List PathPart) (hname : (PathPart.var name).Plain) (h : ∀ q ∈ parts, q.Plain) :
    ∃ values', values'.Sublist values ∧
      variableReplace name (partsText values) (partsText parts) = partsText (parts.flatMap (PathPart.replace name values')) := by
  unfold variableReplace
  dsimp only
  obtain ⟨values₁, hsub₁, hvalues₁⟩ : ∃ values₁, values₁.Sublist values ∧
      (if ['/'] <+: partsText values ∧ ¬['/', '/'] <+: partsText values ∧
          decide ('/' :: variableText name <:+: partsText parts ∧ ¬ '/' :: '/' :: variableText name <:+: partsText parts) = true
        then (partsText values).tail else partsText values) = partsText values₁ := by
    split_ifs with hlead
    · exact tail_parts hlead.1
    · exact ⟨values, .refl _, rfl⟩
  rw [hvalues₁]
  obtain ⟨values₂, hsub₂, hvalues₂⟩ : ∃ values₂, values₂.Sublist values₁ ∧
      (if ['/'] <:+ partsText values₁ ∧ ¬['/', '/'] <:+ partsText values₁ ∧
          decide (variableText name ++ ['/'] <:+: partsText parts ∧ ¬variableText name ++ ['/', '/'] <:+: partsText parts) = true
        then (partsText values₁).dropLast else partsText values₁) = partsText values₂ := by
    split_ifs with htrail
    · exact dropLast_parts htrail.1
    · exact ⟨values₁, .refl _, rfl⟩
  rw [hvalues₂]
  exact ⟨values₂, hsub₂.trans hsub₁, replaceText_parts hname h⟩

theorem names_append (parts values : List PathPart) :
    PathPart.names (parts ++ values) = PathPart.names parts ++ PathPart.names values := by
  induction parts with
  | nil => rfl
  | cons q parts ih =>
    cases q with
    | char c => exact ih
    | var name => exact congrArg (name :: ·) ih

theorem mem_names : m ∈ PathPart.names parts ↔ PathPart.var m ∈ parts := by
  induction parts with
  | nil => simp [PathPart.names]
  | cons q parts ih =>
    cases q with
    | char c | var name => simp [PathPart.names, ih]

theorem ranks_replace (rank : Text → ℕ) (hrank : ∀ m ∈ PathPart.names values, rank m < rank name) (parts : List PathPart) :
    ∃ Y : Multiset ℕ, (∀ y ∈ Y, y < rank name) ∧
      ((PathPart.names (parts.flatMap (PathPart.replace name values))).map rank : Multiset ℕ) =
        (((PathPart.names parts).filter (· ≠ name)).map rank : Multiset ℕ) + Y := by
  induction parts with
  | nil => exact ⟨0, fun y hy => absurd hy (Multiset.notMem_zero y), rfl⟩
  | cons q parts ih =>
    obtain ⟨Y, hY, hsplit⟩ := ih
    rw [flatMap_cons, names_append, map_append, ← Multiset.coe_add, hsplit]
    cases q with
    | char c => exact ⟨Y, hY, by rw [PathPart.replace]; exact zero_add _⟩
    | var m =>
      by_cases hm : m = name
      · subst hm
        refine ⟨((PathPart.names values).map rank : Multiset ℕ) + Y, fun y hy => ?_, ?_⟩
        · rcases Multiset.mem_add.mp hy with hy | hy
          · obtain ⟨m', hm', rfl⟩ := mem_map.mp (Multiset.mem_coe.mp hy)
            exact hrank m' hm'
          · exact hY y hy
        · rw [PathPart.replace, if_pos rfl, PathPart.names, filter_cons_of_neg (by simp)]
          exact add_left_comm _ _ _
      · refine ⟨Y, hY, ?_⟩
        have hfilter : (PathPart.names (.var m :: parts)).filter (· ≠ name) = m :: (PathPart.names parts).filter (· ≠ name) :=
          filter_cons_of_pos (decide_eq_true hm)
        rw [PathPart.replace, if_neg hm, hfilter, ← add_assoc]
        rfl

theorem acyclic_of_ranked {vars : VariableMap} (rank : Text → ℕ)
    (hvars : ∀ name texts, vars name = some texts → ∀ r ∈ texts, ∃ values, r = partsText values ∧ (∀ q ∈ values, q.Plain) ∧
      ∀ m ∈ PathPart.names values, vars m ≠ none ∧ rank m < rank name)
    (h : ∀ q ∈ parts, q.Plain) (hdefined : ∀ m ∈ PathPart.names parts, vars m ≠ none) : Acyclic vars (partsText parts) := by
  have hwf : WellFounded (Multiset.IsDershowitzMannaLT : Multiset ℕ → Multiset ℕ → Prop) :=
    Multiset.wellFounded_isDershowitzMannaLT
  induction hM : ((PathPart.names parts).map rank : Multiset ℕ) using hwf.induction generalizing parts with
  | _ M ih =>
    cases hfirst : (PathPart.names parts).head? with
    | none => exact acyclic_plain ((firstVariable_parts h).trans hfirst)
    | some name =>
      have hmem : name ∈ PathPart.names parts := mem_of_mem_head? hfirst
      obtain ⟨texts, htexts⟩ := Option.ne_none_iff_exists'.mp (hdefined name hmem)
      refine acyclic_variable ((firstVariable_parts h).trans hfirst) htexts fun r hr => ?_
      obtain ⟨values, rfl, hplain, hlower⟩ := hvars name texts htexts r hr
      obtain ⟨values', hsub, hreplace⟩ := variableReplace_parts values (h _ (mem_names.mp hmem)) h
      have hlower' : ∀ m ∈ PathPart.names values', vars m ≠ none ∧ rank m < rank name :=
        fun m hm => hlower m (mem_names.mpr (hsub.subset (mem_names.mp hm)))
      have hkept : ∀ q ∈ parts.flatMap (PathPart.replace name values'), q ∈ parts ∨ q ∈ values' := by
        intro q hq
        obtain ⟨p, hp, hq⟩ := mem_flatMap.mp hq
        cases p with
        | char c =>
          obtain rfl := mem_singleton.mp hq
          exact Or.inl hp
        | var m =>
          rw [PathPart.replace] at hq
          split_ifs at hq
          · exact Or.inr hq
          · obtain rfl := mem_singleton.mp hq
            exact Or.inl hp
      rw [hreplace]
      refine ih _ ?_ (fun q hq => ?_) (fun m hm => ?_) rfl
      · obtain ⟨Y, hY, hsplit⟩ := ranks_replace rank (fun m hm => (hlower' m hm).2) parts
        have htop : rank name ∈ (((PathPart.names parts).filter (¬· ≠ name)).map rank : Multiset ℕ) :=
          mem_map.mpr ⟨name, mem_filter.mpr ⟨hmem, by simp⟩, rfl⟩
        refine ⟨_, Y, _, fun hempty => ?_, hsplit, ?_, fun y hy => ⟨rank name, htop, hY y hy⟩⟩
        · rw [hempty] at htop
          exact Multiset.notMem_zero _ htop
        · rw [← hM, Multiset.coe_add, ← map_append, Multiset.coe_eq_coe]
          refine List.Perm.map rank (List.Perm.symm ?_)
          simpa using filter_append_perm (· ≠ name) (PathPart.names parts)
      · rcases hkept q hq with hq | hq
        · exact h q hq
        · exact hplain q (hsub.subset hq)
      · rcases hkept _ (mem_names.mp hm) with hq | hq
        · exact hdefined m (mem_names.mpr hq)
        · exact (hlower' m (mem_names.mpr hq)).1

theorem parts_of_plain {s : Text} (hs : '@' ∉ s) :
    ∃ values, s = partsText values ∧ (∀ q ∈ values, q.Plain) ∧ PathPart.names values = [] := by
  induction s with
  | nil => exact ⟨[], rfl, fun q hq => absurd hq not_mem_nil, rfl⟩
  | cons c s ih =>
    rw [mem_cons, not_or] at hs
    obtain ⟨values, rfl, hplain, hnames⟩ := ih hs.2
    exact ⟨.char c :: values, rfl, forall_mem_cons.mpr ⟨fun hc => hs.1 hc.symm, hplain⟩, hnames⟩

end Parts

end AppArmor.Utils

import AppArmor.Hfa.DiffWrap
import AppArmor.Lib.Colouring

namespace AppArmor

open Colouring List Nat

namespace Classes

structure Numbering where
  classes : CharMap ℕ
  next : ℕ

-- the source keeps these sets in a map whose keys are the addresses of the states, so their order, and with it the numbers
-- of the classes, may differ from run to run
def nodeSets (trans : CharMap ℕ) : List (List ℤ) :=
  let edges := trans.toList.filter fun e => 0 ≤ e.1
  ((edges.map Prod.snd).dedup.insertionSort (· ≤ ·)).map fun target => (edges.filter fun e => e.2 = target).map Prod.fst

def classNum (eq : CharMap ℕ) (c : ℤ) : ℕ := (eq[c]?).getD 0

def nodeClasses (classes : CharMap ℕ) (chars : List ℤ) : List (ℕ × List ℤ) :=
  ((chars.map (classNum classes)).dedup.insertionSort (· ≤ ·)).map fun k => (k, chars.filter fun c => classNum classes c = k)

def enter (n : Numbering) (chars : List ℤ) : Numbering where
  classes := chars.foldl (fun m c => m.insertIfNew c n.next) n.classes
  next := if chars.any fun c => c ∉ n.classes then n.next + 1 else n.next

def split (n : Numbering) (e : ℕ × List ℤ) : Numbering :=
  if n.classes.toList.any fun l => l.2 = e.1 ∧ l.1 ∉ e.2 then
    ⟨e.2.foldl (fun m c => m.insert c n.next) n.classes, n.next + 1⟩
  else n

def refineSet (n : Numbering) (chars : List ℤ) : Numbering :=
  (nodeClasses (enter n chars).classes chars).foldl split (enter n chars)

def refineState (n : Numbering) (trans : CharMap ℕ) : Numbering := (nodeSets trans).foldl refineSet n

def numbering (d : DFA) : Numbering := d.states.foldl (fun n s => refineState n (d.state s).trans) ⟨∅, 1⟩

def classTrans (eq : CharMap ℕ) (trans : CharMap ℕ) : CharMap ℕ :=
  trans.toList.foldl (fun m e => if e.1 < 0 then m else m.insertIfNew (classNum eq e.1) e.2) ∅

def classByte (eq : CharMap ℕ) (c : ℤ) : ℕ := classNum eq c % 2 ^ 8

end Classes

open Classes

def DFA.equivalenceClasses (d : DFA) : CharMap ℕ := (numbering d).classes

def DFA.applyEquivalenceClasses (d : DFA) (eq : CharMap ℕ) : DFA :=
  { d with
    state := fun s => if s ∈ d.states then { d.state s with trans := classTrans eq (d.state s).trans } else d.state s }

namespace Classes

section Refine

variable {n : Numbering} {chars cs : List ℤ} {k : ℕ} {c : ℤ}

def colour (m : CharMap ℕ) (c : ℤ) : Option ℕ := m[c]?

theorem colour_insert (m : CharMap ℕ) (x : ℤ) (v : ℕ) (c : ℤ) : colour (m.insert x v) c = if x = c then some v else colour m c :=
  CharMap.getElem?_insert' m x c v

theorem colour_insertIfNew (m : CharMap ℕ) (x : ℤ) (v : ℕ) (c : ℤ) :
    colour (m.insertIfNew x v) c = if x = c ∧ colour m c = none then some v else colour m c := by
  unfold colour
  rw [Std.ExtTreeMap.getElem?_insertIfNew]
  simp only [compare_eq_iff_eq]
  by_cases hxc : x = c
  · subst hxc
    simp only [true_and, Std.ExtTreeMap.mem_iff_isSome_getElem?, Option.not_isSome_iff_eq_none]
  · simp [hxc]

theorem colour_entered (m : CharMap ℕ) (v : ℕ) (chars : List ℤ) :
    colour (chars.foldl (fun m c => m.insertIfNew c v) m) = paint (colour m) {c | c ∈ chars ∧ colour m c = none} v := by
  funext c
  induction chars generalizing m with
  | nil => rfl
  | cons x chars ih =>
    rw [foldl_cons, ih, paint, paint]
    simp only [Set.mem_ofPred_eq, colour_insertIfNew, mem_cons]
    by_cases hxc : x = c
    · subst hxc
      by_cases hnone : colour m x = none
      · simp [hnone]
      · simp [hnone]
    · have hcx : ¬ c = x := fun h => hxc h.symm
      simp [hxc, hcx]

theorem colour_moved (m : CharMap ℕ) (v : ℕ) (cs : List ℤ) :
    colour (cs.foldl (fun m c => m.insert c v) m) = paint (colour m) {c | c ∈ cs} v := by
  funext c
  induction cs generalizing m with
  | nil => rfl
  | cons x cs ih =>
    rw [foldl_cons, ih, paint, paint, colour_insert]
    by_cases hxc : x = c
    · subst hxc
      by_cases hmem : x ∈ cs
      · simp [hmem]
      · simp [hmem]
    · have hcx : ¬ c = x := fun h => hxc h.symm
      simp [hxc, hcx]

def Numbering.Ok (n : Numbering) : Prop := Numbered (colour n.classes) n.next

structure Grows (n n' : Numbering) (keys : Set ℤ) : Prop where
  ok : n'.Ok
  refines : Refines (colour n.classes) (colour n'.classes)
  keys : ∀ c, (colour n'.classes c).isSome ↔ (colour n.classes c).isSome ∨ c ∈ keys

theorem Grows.refl (hn : n.Ok) : Grows n n ∅ := ⟨hn, Refines.refl _, fun c => by simp⟩

theorem Grows.trans {n' n'' : Numbering} {K K' : Set ℤ} (h : Grows n n' K) (h' : Grows n' n'' K') : Grows n n'' (K ∪ K') :=
  ⟨h'.ok, h.refines.trans h'.refines, fun c => by rw [h'.keys, h.keys, or_assoc, Set.mem_union]⟩

/-- Steps that each establish something that refining does not undo establish all of it. -/
theorem foldl_grows {α : Type} {step : Numbering → α → Numbering} {K : α → Set ℤ} {P : α → CharMap ℕ → Prop}
    (hmono : ∀ {a m m'}, P a m → Refines (colour m) (colour m') → P a m')
    (hstep : ∀ (n : Numbering) a, n.Ok → Grows n (step n a) (K a) ∧ P a (step n a).classes) (l : List α) (hn : n.Ok) :
    Grows n (l.foldl step n) {c | ∃ a ∈ l, c ∈ K a} ∧ ∀ a ∈ l, P a (l.foldl step n).classes := by
  induction l generalizing n with
  | nil => exact ⟨by simpa using Grows.refl hn, fun a ha => by cases ha⟩
  | cons a l ih =>
    obtain ⟨hgrow, ha⟩ := hstep n a hn
    obtain ⟨hgrow', hl⟩ := ih hgrow.ok
    rw [foldl_cons]
    refine ⟨?_, forall_mem_cons.mpr ⟨hmono ha hgrow'.refines, hl⟩⟩
    have hkeys : {c | ∃ b ∈ a :: l, c ∈ K b} = K a ∪ {c | ∃ b ∈ l, c ∈ K b} := by
      ext c
      simp
    exact hkeys ▸ hgrow.trans hgrow'

theorem enter_spec (hn : n.Ok) (chars : List ℤ) : Grows n (enter n chars) {c | c ∈ chars} := by
  have hcolour := colour_entered n.classes n.next chars
  have hnew : ∀ c, c ∈ n.classes ↔ colour n.classes c ≠ none := fun c => by
    rw [colour, Std.ExtTreeMap.mem_iff_isSome_getElem?, Option.isSome_iff_ne_none]
  refine ⟨?_, ?_, fun c => ?_⟩
  · rw [Numbering.Ok, enter]
    dsimp only
    rw [hcolour]
    by_cases hany : (chars.any fun c => c ∉ n.classes) = true
    · rw [if_pos hany]
      obtain ⟨c, hc, hcn⟩ := any_eq_true.mp hany
      refine hn.paint ⟨c, hc, ?_⟩ ?_
      · by_contra hne
        exact absurd ((hnew c).mpr hne) (of_decide_eq_true hcn)
      · rintro k x ⟨-, hx⟩ hk
        rw [hx] at hk
        cases hk
    · rw [if_neg hany]
      have hempty : paint (colour n.classes) {c | c ∈ chars ∧ colour n.classes c = none} n.next = colour n.classes := by
        funext c
        apply paint_of_notMem
        rintro ⟨hc, hnone⟩
        refine hany (any_eq_true.mpr ⟨c, hc, decide_eq_true ?_⟩)
        exact fun hmem => (hnew c).mp hmem hnone
      rw [hempty]
      exact hn
  · change Refines _ (colour (chars.foldl (fun m c => m.insertIfNew c n.next) n.classes))
    rw [hcolour]
    exact hn.refines_paint fun x hx y hy => hx.2.trans hy.2.symm
  · change (colour (chars.foldl (fun m c => m.insertIfNew c n.next) n.classes) c).isSome ↔ _
    rw [hcolour]
    by_cases hc : c ∈ {c | c ∈ chars ∧ colour n.classes c = none}
    · rw [paint_of_mem hc]
      simp [hc.1]
    · rw [paint_of_notMem hc]
      constructor
      · exact Or.inl
      · rintro (h | h)
        · exact h
        · by_contra hnone
          exact hc ⟨h, Option.not_isSome_iff_eq_none.mp hnone⟩

theorem split_spec (hn : n.Ok) (hne : cs ≠ []) (hcs : ∀ c ∈ cs, colour n.classes c = some k) :
    Grows n (split n (k, cs)) ∅ ∧ Separates (colour (split n (k, cs)).classes) {c | c ∈ cs} ∧
    ∀ c ∉ cs, colour (split n (k, cs)).classes c = colour n.classes c := by
  unfold split
  by_cases hother : (n.classes.toList.any fun l => l.2 = k ∧ l.1 ∉ cs) = true
  · rw [if_pos hother]
    obtain ⟨⟨l, k'⟩, hl, hlk⟩ := any_eq_true.mp hother
    obtain ⟨rfl, hlcs⟩ := of_decide_eq_true hlk
    have hlcolour : colour n.classes l = some k' := Std.ExtTreeMap.mem_toList_iff_getElem?_eq_some.mp hl
    have hcolour := colour_moved n.classes n.next cs
    obtain ⟨c, hc⟩ := exists_mem_of_ne_nil cs hne
    refine ⟨⟨?_, ?_, fun x => ?_⟩, ?_, fun x hx => ?_⟩
    all_goals dsimp only [Numbering.Ok]; rw [hcolour]
    · refine hn.paint ⟨c, hc⟩ fun j x hx hj => ?_
      rw [hcs x hx] at hj
      obtain rfl := Option.some.inj hj
      exact ⟨l, hlcs, hlcolour⟩
    · exact hn.refines_paint fun x hx y hy => (hcs x hx).trans (hcs y hy).symm
    · rw [Set.mem_empty_iff_false, or_false]
      by_cases hx : x ∈ cs
      · rw [paint_of_mem (S := {c | c ∈ cs}) hx, hcs x hx]
        rfl
      · rw [paint_of_notMem (S := {c | c ∈ cs}) hx]
    · exact hn.separates_paint
    · exact paint_of_notMem hx
  · rw [if_neg hother]
    refine ⟨.refl hn, ?_, fun _ _ => rfl⟩
    have hall : ∀ x, colour n.classes x = some k → x ∈ cs := by
      intro x hx
      by_contra hnot
      exact hother (any_eq_true.mpr ⟨(x, k), Std.ExtTreeMap.mem_toList_iff_getElem?_eq_some.mpr hx,
        decide_eq_true ⟨rfl, hnot⟩⟩)
    intro x y he
    constructor
    · exact fun hx => hall y (he ▸ hcs x hx)
    · exact fun hy => hall x (he.trans (hcs y hy))

theorem foldl_split_spec (l : List (ℕ × List ℤ)) (hn : n.Ok) (hnodup : (l.map Prod.fst).Nodup)
    (hl : ∀ e ∈ l, e.2 ≠ [] ∧ ∀ c ∈ e.2, colour n.classes c = some e.1) :
    Grows n (l.foldl split n) ∅ ∧ ∀ e ∈ l, Separates (colour (l.foldl split n).classes) {c | c ∈ e.2} := by
  induction l generalizing n with
  | nil => exact ⟨.refl hn, fun e he => by cases he⟩
  | cons e l ih =>
    obtain ⟨k, cs⟩ := e
    obtain ⟨hk, hnodup⟩ := nodup_cons.mp hnodup
    obtain ⟨⟨hne, hcs⟩, hl⟩ := forall_mem_cons.mp hl
    obtain ⟨hgrow, hsep, hkeep⟩ := split_spec hn hne hcs
    have hl' : ∀ e ∈ l, e.2 ≠ [] ∧ ∀ c ∈ e.2, colour (split n (k, cs)).classes c = some e.1 := by
      intro e he
      refine ⟨(hl e he).1, fun c hc => ?_⟩
      rw [hkeep c ?_, (hl e he).2 c hc]
      intro hmem
      have hsame := Option.some.inj ((hcs c hmem).symm.trans ((hl e he).2 c hc))
      exact hk (mem_map.mpr ⟨e, he, hsame.symm⟩)
    obtain ⟨hgrow', hsep'⟩ := ih hgrow.ok hnodup hl'
    rw [foldl_cons]
    exact ⟨by simpa using hgrow.trans hgrow', forall_mem_cons.mpr ⟨hsep.mono hgrow'.refines, hsep'⟩⟩

theorem mem_nodeClasses {m : CharMap ℕ} (hc : c ∈ chars) : ∃ e ∈ nodeClasses m chars, c ∈ e.2 := by
  refine ⟨(classNum m c, chars.filter fun x => classNum m x = classNum m c), mem_map.mpr ⟨classNum m c, ?_, rfl⟩, ?_⟩
  · rw [mem_insertionSort, mem_dedup]
    exact mem_map.mpr ⟨c, hc, rfl⟩
  · exact mem_filter.mpr ⟨hc, decide_eq_true rfl⟩

theorem refineSet_spec (chars : List ℤ) (hn : n.Ok) : Grows n (refineSet n chars) {c | c ∈ chars} ∧
    Separates (colour (refineSet n chars).classes) {c | c ∈ chars} := by
  have hgrow := enter_spec hn chars
  have hnodup : ((nodeClasses (enter n chars).classes chars).map Prod.fst).Nodup := by
    rw [nodeClasses, map_map]
    change (map id _).Nodup
    rw [map_id, (perm_insertionSort ..).nodup_iff]
    exact nodup_dedup _
  have hparts : ∀ e ∈ nodeClasses (enter n chars).classes chars,
      e.2 ≠ [] ∧ ∀ c ∈ e.2, colour (enter n chars).classes c = some e.1 := by
    intro e he
    obtain ⟨k, hk, rfl⟩ := mem_map.mp he
    rw [mem_insertionSort, mem_dedup] at hk
    obtain ⟨x, hx, hxk⟩ := mem_map.mp hk
    refine ⟨ne_nil_of_mem (mem_filter.mpr ⟨hx, decide_eq_true hxk⟩), fun c hc => ?_⟩
    obtain ⟨hc, hck⟩ := mem_filter.mp hc
    obtain ⟨j, hj⟩ := Option.isSome_iff_exists.mp ((hgrow.keys c).mpr (Or.inr hc))
    have hjk := of_decide_eq_true hck
    rw [colour] at hj
    rw [classNum, hj, Option.getD_some] at hjk
    rw [colour, hj, hjk]
  obtain ⟨hgrow', hsep⟩ := foldl_split_spec _ hgrow.ok hnodup hparts
  refine ⟨by simpa [refineSet] using hgrow.trans hgrow', ?_⟩
  have hin : ∀ x y, x ∈ chars → colour (refineSet n chars).classes x = colour (refineSet n chars).classes y → y ∈ chars := by
    intro x y hx he
    obtain ⟨e, hmem, hxe⟩ := mem_nodeClasses (m := (enter n chars).classes) hx
    have hye := (hsep e hmem x y he).mp hxe
    obtain ⟨k, -, rfl⟩ := mem_map.mp hmem
    exact (mem_filter.mp hye).1
  exact fun x y he => ⟨fun hx => hin x y hx he, fun hy => hin y x hy he.symm⟩

variable {trans : CharMap ℕ}

theorem mem_edgesTo {target : ℕ} :
    c ∈ ((trans.toList.filter fun e => 0 ≤ e.1).filter fun e => e.2 = target).map Prod.fst ↔ 0 ≤ c ∧ trans[c]? = some target := by
  simp only [mem_map, mem_filter, decide_eq_true_eq]
  constructor
  · rintro ⟨⟨x, v⟩, ⟨⟨he, h₀⟩, rfl⟩, rfl⟩
    exact ⟨h₀, Std.ExtTreeMap.mem_toList_iff_getElem?_eq_some.mp he⟩
  · rintro ⟨h₀, he⟩
    exact ⟨(c, target), ⟨⟨Std.ExtTreeMap.mem_toList_iff_getElem?_eq_some.mpr he, h₀⟩, rfl⟩, rfl⟩

theorem mem_nodeSets {S : List ℤ} (hS : S ∈ nodeSets trans) :
    ∃ target, ∀ c, c ∈ S ↔ 0 ≤ c ∧ trans[c]? = some target := by
  obtain ⟨target, -, rfl⟩ := mem_map.mp hS
  exact ⟨target, fun c => mem_edgesTo⟩

theorem exists_nodeSet {target : ℕ} (h₀ : 0 ≤ c) (hc : trans[c]? = some target) :
    ∃ S ∈ nodeSets trans, ∀ x, x ∈ S ↔ 0 ≤ x ∧ trans[x]? = some target := by
  have hmem : (c, target) ∈ trans.toList.filter fun e => 0 ≤ e.1 :=
    mem_filter.mpr ⟨Std.ExtTreeMap.mem_toList_iff_getElem?_eq_some.mpr hc, decide_eq_true h₀⟩
  refine ⟨_, mem_map.mpr ⟨target, ?_, rfl⟩, fun x => mem_edgesTo⟩
  rw [mem_insertionSort, mem_dedup]
  exact mem_map.mpr ⟨(c, target), hmem, rfl⟩

def Agrees (m : CharMap ℕ) (trans : CharMap ℕ) : Prop :=
  ∀ x y, 0 ≤ x → 0 ≤ y → colour m x = colour m y → trans[x]? = trans[y]?

theorem Agrees.mono {m m' : CharMap ℕ} (h : Agrees m trans) (hr : Refines (colour m) (colour m')) : Agrees m' trans :=
  fun x y hx hy he => h x y hx hy (hr x y he)

theorem refineState_spec (trans : CharMap ℕ) (hn : n.Ok) : Grows n (refineState n trans) {c | 0 ≤ c ∧ c ∈ trans} ∧
    Agrees (refineState n trans).classes trans := by
  obtain ⟨hgrow, hsep⟩ := foldl_grows (P := fun S m => Separates (colour m) {c | c ∈ S}) Separates.mono (fun _ => refineSet_spec)
    (nodeSets trans) hn
  refine ⟨⟨hgrow.ok, hgrow.refines, fun c => ?_⟩, ?_⟩
  rotate_left
  · have hlead : ∀ x y target, 0 ≤ x → colour (refineState n trans).classes x = colour (refineState n trans).classes y →
        trans[x]? = some target → trans[y]? = some target := by
      intro x y target hx he htarget
      obtain ⟨S, hS, hmem⟩ := exists_nodeSet hx htarget
      exact ((hmem y).mp ((hsep S hS x y he).mp ((hmem x).mpr ⟨hx, htarget⟩))).2
    intro x y hx hy he
    cases htx : trans[x]? with
    | some target => exact (hlead x y target hx he htx).symm
    | none =>
      cases hty : trans[y]? with
      | none => rfl
      | some target =>
        rw [hlead y x target hy he.symm hty] at htx
        cases htx
  · rw [refineState, hgrow.keys c]
    apply or_congr_right
    constructor
    · rintro ⟨S, hS, hc⟩
      obtain ⟨target, hmem⟩ := mem_nodeSets hS
      obtain ⟨h₀, hget⟩ := (hmem c).mp hc
      exact ⟨h₀, Std.ExtTreeMap.mem_iff_isSome_getElem?.mpr (by rw [hget]; rfl)⟩
    · rintro ⟨h₀, hc⟩
      obtain ⟨target, htarget⟩ := Option.isSome_iff_exists.mp (Std.ExtTreeMap.mem_iff_isSome_getElem?.mp hc)
      obtain ⟨S, hS, hmem⟩ := exists_nodeSet h₀ htarget
      exact ⟨S, hS, (hmem c).mpr ⟨h₀, htarget⟩⟩

theorem numbering_spec (d : DFA) : (numbering d).Ok ∧ (∀ s ∈ d.states, Agrees (numbering d).classes (d.state s).trans) ∧
    ∀ c, (colour (numbering d).classes c).isSome ↔ 0 ≤ c ∧ ∃ s ∈ d.states, c ∈ (d.state s).trans := by
  have hempty : ∀ c, colour (∅ : CharMap ℕ) c = none := fun c => Std.ExtTreeMap.getElem?_empty
  have hn : Numbering.Ok ⟨∅, 1⟩ := by
    refine ⟨one_pos, fun x k hk => ?_, fun k h₀ (hk : k < 1) => by omega⟩
    rw [hempty] at hk
    cases hk
  obtain ⟨hgrow, hagree⟩ := foldl_grows (P := fun s m => Agrees m (d.state s).trans) Agrees.mono
    (fun _ s => refineState_spec (d.state s).trans) d.states hn
  refine ⟨hgrow.ok, hagree, fun c => (hgrow.keys c).trans ?_⟩
  rw [hempty]
  simp only [Option.isSome_none, Bool.false_eq_true, false_or]
  exact ⟨fun ⟨s, hs, h₀, hc⟩ => ⟨h₀, s, hs, hc⟩, fun ⟨h₀, s, hs, hc⟩ => ⟨s, hs, h₀, hc⟩⟩

end Refine

section Coarse

variable {n : Numbering} {x y : ℤ}

theorem enter_same {chars : List ℤ} (h : colour n.classes x = colour n.classes y) (hxy : x ∈ chars ↔ y ∈ chars) :
    colour (enter n chars).classes x = colour (enter n chars).classes y := by
  have hcolour := colour_entered n.classes n.next chars
  rw [enter]
  dsimp only
  rw [hcolour]
  exact paint_congr h (by rw [Set.mem_ofPred_eq, Set.mem_ofPred_eq, hxy, h])

theorem split_same {e : ℕ × List ℤ} (h : colour n.classes x = colour n.classes y) (hxy : x ∈ e.2 ↔ y ∈ e.2) :
    colour (split n e).classes x = colour (split n e).classes y := by
  have hcolour := colour_moved n.classes n.next e.2
  unfold split
  split_ifs
  · dsimp only
    rw [hcolour]
    exact paint_congr h hxy
  · exact h

theorem foldl_same {α : Type} {step : Numbering → α → Numbering} {l : List α}
    (hstep : ∀ (n : Numbering), ∀ a ∈ l, colour n.classes x = colour n.classes y →
      colour (step n a).classes x = colour (step n a).classes y) (h : colour n.classes x = colour n.classes y) :
    colour (l.foldl step n).classes x = colour (l.foldl step n).classes y := by
  induction l generalizing n with
  | nil => exact h
  | cons a l ih =>
    rw [foldl_cons]
    exact ih (fun n b hb => hstep n b (mem_cons_of_mem a hb)) (hstep n a mem_cons_self h)

theorem refineSet_same {chars : List ℤ} (h : colour n.classes x = colour n.classes y) (hxy : x ∈ chars ↔ y ∈ chars) :
    colour (refineSet n chars).classes x = colour (refineSet n chars).classes y := by
  have hentered := enter_same h hxy
  refine foldl_same (fun m e he hm => split_same hm ?_) hentered
  obtain ⟨k, -, rfl⟩ := mem_map.mp he
  dsimp only
  rw [mem_filter, mem_filter, hxy, classNum, classNum, ← colour, ← colour, hentered]

theorem refineState_same {trans : CharMap ℕ} (hx : 0 ≤ x) (hy : 0 ≤ y) (htrans : trans[x]? = trans[y]?)
    (h : colour n.classes x = colour n.classes y) :
    colour (refineState n trans).classes x = colour (refineState n trans).classes y := by
  refine foldl_same (fun m S hS hm => refineSet_same hm ?_) h
  obtain ⟨target, hmem⟩ := mem_nodeSets hS
  rw [hmem, hmem, htrans]
  exact and_congr_left fun _ => iff_of_true hx hy

/-- Characters are told apart by a state only. -/
theorem numbering_same {d : DFA} (hx : 0 ≤ x) (hy : 0 ≤ y) (h : ∀ s ∈ d.states, (d.state s).trans[x]? = (d.state s).trans[y]?) :
    colour d.equivalenceClasses x = colour d.equivalenceClasses y :=
  foldl_same (fun _ s hs => refineState_same hx hy (h s hs)) rfl

end Coarse

section Apply

variable {d : DFA} {eq trans : CharMap ℕ}

theorem classTrans_find (l : List (ℤ × ℕ)) (m : CharMap ℕ) (k : ℤ) :
    colour (l.foldl (fun m e => if e.1 < 0 then m else m.insertIfNew (classNum eq e.1) e.2) m) k =
      (colour m k).or ((l.find? fun e => 0 ≤ e.1 ∧ (classNum eq e.1 : ℤ) = k).map Prod.snd) := by
  induction l generalizing m with
  | nil => exact (Option.or_none).symm
  | cons e l ih =>
    rw [foldl_cons, ih, find?_cons]
    by_cases hneg : e.1 < 0
    · simp [hneg, not_le.mpr hneg]
    · rw [if_neg hneg, colour_insertIfNew]
      by_cases hk : (classNum eq e.1 : ℤ) = k
      · cases hm : colour m k <;> simp [hk, not_lt.mp hneg]
      · simp [hk]

theorem classTrans_get (hagree : ∀ (x y : ℤ) t t', 0 ≤ x → 0 ≤ y → trans[x]? = some t → trans[y]? = some t' →
    classNum eq x = classNum eq y → t = t') {k : ℤ} {target : ℕ} :
    (classTrans eq trans)[k]? = some target ↔ ∃ c : ℤ, 0 ≤ c ∧ trans[c]? = some target ∧ (classNum eq c : ℤ) = k := by
  have hlist : ∀ {e}, e ∈ trans.toList ↔ trans[e.1]? = some e.2 := Std.ExtTreeMap.mem_toList_iff_getElem?_eq_some
  have hempty : colour (∅ : CharMap ℕ) k = none := Std.ExtTreeMap.getElem?_empty
  have hfind := @classTrans_find eq trans.toList ∅ k
  rw [hempty, Option.none_or] at hfind
  change colour (classTrans eq trans) k = some target ↔ _
  rw [classTrans, hfind, Option.map_eq_some_iff]
  constructor
  · rintro ⟨e, he, rfl⟩
    obtain ⟨h₀, hk⟩ : 0 ≤ e.1 ∧ (classNum eq e.1 : ℤ) = k := by simpa using find?_some he
    exact ⟨e.1, h₀, hlist.mp (mem_of_find?_eq_some he), hk⟩
  · rintro ⟨c, h₀, hc, hk⟩
    cases he : trans.toList.find? fun e => 0 ≤ e.1 ∧ (classNum eq e.1 : ℤ) = k with
    | none => exact absurd (decide_eq_true ⟨h₀, hk⟩) (find?_eq_none.mp he (c, target) (hlist.mpr hc))
    | some e =>
      obtain ⟨h₀', hk'⟩ : 0 ≤ e.1 ∧ (classNum eq e.1 : ℤ) = k := by simpa using find?_some he
      refine ⟨e, rfl, hagree e.1 c e.2 target h₀' h₀ (hlist.mp (mem_of_find?_eq_some he)) hc ?_⟩
      exact_mod_cast hk'.trans hk.symm

def classChar (eq : CharMap ℕ) (c : ℤ) : ℤ := if c < 0 then c else classNum eq c

variable {s : ℕ} {c : ℤ}

theorem colour_eq_of_classNum {m : CharMap ℕ} {x y : ℤ} (hx : (colour m x).isSome) (hy : (colour m y).isSome)
    (he : classNum m x = classNum m y) : colour m x = colour m y := by
  obtain ⟨j, hj⟩ := Option.isSome_iff_exists.mp hx
  obtain ⟨k, hk⟩ := Option.isSome_iff_exists.mp hy
  rw [classNum, classNum, ← colour, ← colour, hj, hk, Option.getD_some, Option.getD_some] at he
  rw [hj, hk, he]

theorem isSome_colour (hs : s ∈ d.states) (h₀ : 0 ≤ c) (hc : c ∈ (d.state s).trans) :
    (colour d.equivalenceClasses c).isSome := ((numbering_spec d).2.2 c).mpr ⟨h₀, s, hs, hc⟩

theorem classNum_pos (hs : s ∈ d.states) (h₀ : 0 ≤ c) (hc : c ∈ (d.state s).trans) : 0 < classNum d.equivalenceClasses c := by
  obtain ⟨k, hk⟩ := Option.isSome_iff_exists.mp (isSome_colour hs h₀ hc)
  have hpos := ((numbering_spec d).1.range c k hk).1
  rw [colour] at hk
  rwa [classNum, hk]

theorem classNum_le (hchars : ∀ s ∈ d.states, ∀ c ∈ (d.state s).trans, c < 256) (c : ℤ) :
    classNum d.equivalenceClasses c ≤ 256 := by
  obtain ⟨hok, -, hkeys⟩ := numbering_spec d
  have hnext : (numbering d).next ≤ (Finset.Ico (0 : ℤ) 256).card + 1 := by
    refine hok.le_card fun x hx => ?_
    obtain ⟨h₀, s, hs, hmem⟩ := (hkeys x).mp hx
    exact Finset.mem_Ico.mpr ⟨h₀, hchars s hs x hmem⟩
  rw [Int.card_Ico] at hnext
  rw [classNum]
  cases hk : (d.equivalenceClasses[c]? : Option ℕ) with
  | none => exact zero_le _
  | some k =>
    have hlt := (hok.range c k hk).2
    rw [Option.getD_some]
    omega

/-- Every byte is listed, and any two of them lead to different states somewhere. -/
structure AllApart (d : DFA) : Prop where
  listed : ∀ c : ℤ, 0 ≤ c → c < 256 → ∃ s ∈ d.states, c ∈ (d.state s).trans
  apart : ∀ x y : ℤ, 0 ≤ x → x < 256 → 0 ≤ y → y < 256 → x ≠ y → ∃ s ∈ d.states, (d.state s).trans[x]? ≠ (d.state s).trans[y]?

theorem AllApart.exists_last (h : AllApart d) (hchars : ∀ s ∈ d.states, ∀ c ∈ (d.state s).trans, c < 256) :
    ∃ c : ℤ, 0 ≤ c ∧ c < 256 ∧ classNum d.equivalenceClasses c = 256 := by
  have hcolour : ∀ c : ℤ, 0 ≤ c → c < 256 → (colour d.equivalenceClasses c).isSome := fun c h₀ hc => by
    obtain ⟨s, hs, hmem⟩ := h.listed c h₀ hc
    exact isSome_colour hs h₀ hmem
  have hsub : (Finset.Ico (0 : ℤ) 256).image (classNum d.equivalenceClasses) ⊆ Finset.Icc 1 256 := by
    intro k hk
    obtain ⟨c, hc, rfl⟩ := Finset.mem_image.mp hk
    obtain ⟨h₀, hc⟩ := Finset.mem_Ico.mp hc
    obtain ⟨s, hs, hmem⟩ := h.listed c h₀ hc
    exact Finset.mem_Icc.mpr ⟨classNum_pos hs h₀ hmem, classNum_le hchars c⟩
  have hcard : (Finset.Icc 1 256).card ≤ ((Finset.Ico (0 : ℤ) 256).image (classNum d.equivalenceClasses)).card := by
    rw [Finset.card_image_of_injOn]
    · rw [Int.card_Ico, card_Icc]
      decide
    · intro x hx y hy he
      obtain ⟨hx₀, hx⟩ := Finset.mem_Ico.mp hx
      obtain ⟨hy₀, hy⟩ := Finset.mem_Ico.mp hy
      by_contra hne
      obtain ⟨s, hs, hdiffer⟩ := h.apart x y hx₀ hx hy₀ hy hne
      exact hdiffer ((numbering_spec d).2.1 s hs x y hx₀ hy₀ (colour_eq_of_classNum (hcolour x hx₀ hx) (hcolour y hy₀ hy) he))
  have hlast : 256 ∈ (Finset.Ico (0 : ℤ) 256).image (classNum d.equivalenceClasses) := by
    rw [Finset.eq_of_subset_of_card_le hsub hcard]
    exact Finset.mem_Icc.mpr ⟨by decide, le_rfl⟩
  obtain ⟨c, hc, hclass⟩ := Finset.mem_image.mp hlast
  obtain ⟨h₀, hc⟩ := Finset.mem_Ico.mp hc
  exact ⟨c, h₀, hc, hclass⟩

theorem allApart_of_last (hchars : ∀ s ∈ d.states, ∀ c ∈ (d.state s).trans, c < 256)
    (hlast : classNum d.equivalenceClasses c = 256) : AllApart d := by
  obtain ⟨hok, -, hkeys⟩ := numbering_spec d
  have hsome : colour d.equivalenceClasses c = some 256 := by
    rw [classNum, ← colour] at hlast
    cases hc : colour d.equivalenceClasses c with
    | none =>
      rw [hc] at hlast
      cases hlast
    | some k =>
      rw [hc, Option.getD_some] at hlast
      rw [hlast]
  have hnext := (hok.range c 256 hsome).2
  -- the 256 numbers need 256 bytes, so that none is left out and no two share one
  have hsub : ∀ keys : Finset ℤ, (∀ x, (colour d.equivalenceClasses x).isSome → ∃ y ∈ keys, classNum d.equivalenceClasses y =
      classNum d.equivalenceClasses x) → 256 ≤ keys.card := by
    intro keys hall
    have hle : Finset.Icc 1 256 ⊆ keys.image (classNum d.equivalenceClasses) := by
      intro k hk
      obtain ⟨hk₁, hk₂⟩ := Finset.mem_Icc.mp hk
      obtain ⟨x, hx⟩ := hok.used k hk₁ (by omega)
      obtain ⟨y, hy, he⟩ := hall x (by rw [DFA.equivalenceClasses, hx]; rfl)
      refine Finset.mem_image.mpr ⟨y, hy, he.trans ?_⟩
      rw [classNum, ← colour, DFA.equivalenceClasses, hx, Option.getD_some]
    have hcard := (Finset.card_le_card hle).trans Finset.card_image_le
    rwa [card_Icc] at hcard
  have hbyte : ∀ x, (colour d.equivalenceClasses x).isSome → x ∈ Finset.Ico (0 : ℤ) 256 := by
    intro x hx
    obtain ⟨h₀, s, hs, hmem⟩ := (hkeys x).mp hx
    exact Finset.mem_Ico.mpr ⟨h₀, hchars s hs x hmem⟩
  have herase : ∀ b : ℤ, 0 ≤ b → b < 256 → ((Finset.Ico (0 : ℤ) 256).erase b).card = 255 := by
    intro b h₀ hb
    rw [Finset.card_erase_of_mem (Finset.mem_Ico.mpr ⟨h₀, hb⟩), Int.card_Ico]
    rfl
  refine ⟨fun b h₀ hb => ?_, fun x y hx₀ hx hy₀ hy hne => ?_⟩
  · by_contra hnot
    have hcard := hsub ((Finset.Ico (0 : ℤ) 256).erase b) fun x hx => by
      refine ⟨x, Finset.mem_erase.mpr ⟨?_, hbyte x hx⟩, rfl⟩
      rintro rfl
      exact hnot ((hkeys x).mp hx).2
    rw [herase b h₀ hb] at hcard
    omega
  · by_contra hnot
    push Not at hnot
    have hsame := numbering_same hx₀ hy₀ hnot
    have hcard := hsub ((Finset.Ico (0 : ℤ) 256).erase x) fun z hz => by
      by_cases hzx : z = x
      · refine ⟨y, Finset.mem_erase.mpr ⟨hne.symm, Finset.mem_Ico.mpr ⟨hy₀, hy⟩⟩, ?_⟩
        rw [hzx, classNum, classNum, ← colour, ← colour, hsame]
      · exact ⟨z, Finset.mem_erase.mpr ⟨hzx, hbyte z hz⟩, rfl⟩
    rw [herase x hx₀ hx] at hcard
    omega

theorem mem_of_get {m : CharMap ℕ} {t : ℕ} (h : m[c]? = some t) : c ∈ m :=
  Std.ExtTreeMap.mem_iff_isSome_getElem?.mpr (by rw [h]; rfl)

theorem agree (hs : s ∈ d.states) : ∀ (x y : ℤ) t t', 0 ≤ x → 0 ≤ y → (d.state s).trans[x]? = some t →
    (d.state s).trans[y]? = some t' → classNum d.equivalenceClasses x = classNum d.equivalenceClasses y → t = t' := by
  intro x y t t' hx hy ht ht' he
  have hsame := (numbering_spec d).2.1 s hs x y hx hy
    (colour_eq_of_classNum (isSome_colour hs hx (mem_of_get ht)) (isSome_colour hs hy (mem_of_get ht')) he)
  exact Option.some.inj (ht.symm.trans (hsame.trans ht'))

theorem classTrans_byte (hs : s ∈ d.states) (h₀ : 0 ≤ c) :
    (classTrans d.equivalenceClasses (d.state s).trans)[(classNum d.equivalenceClasses c : ℤ)]? = (d.state s).trans[c]? := by
  have hiff : ∀ target, (classTrans d.equivalenceClasses (d.state s).trans)[(classNum d.equivalenceClasses c : ℤ)]? = some target ↔
      (d.state s).trans[c]? = some target := by
    intro target
    rw [classTrans_get (agree hs)]
    constructor
    · rintro ⟨x, hx, hget, he⟩
      have hnum : classNum d.equivalenceClasses x = classNum d.equivalenceClasses c := by exact_mod_cast he
      have hpos := classNum_pos hs hx (mem_of_get hget)
      have hcsome : (colour d.equivalenceClasses c).isSome := by
        by_contra hnone
        rw [Option.not_isSome_iff_eq_none, colour] at hnone
        rw [hnum, classNum, hnone] at hpos
        exact lt_irrefl 0 hpos
      rw [← (numbering_spec d).2.1 s hs x c hx h₀ (colour_eq_of_classNum (isSome_colour hs hx (mem_of_get hget)) hcsome hnum)]
      exact hget
    · exact fun hget => ⟨c, h₀, hget, rfl⟩
  exact Option.ext fun target => hiff target

theorem classTrans_none (hs : s ∈ d.states) (hc : c ≤ 0) : (classTrans d.equivalenceClasses (d.state s).trans)[c]? = none := by
  by_contra hne
  obtain ⟨target, htarget⟩ := Option.ne_none_iff_exists'.mp hne
  obtain ⟨x, hx, hget, he⟩ := (classTrans_get (agree hs)).mp htarget
  have hpos := classNum_pos hs hx (mem_of_get hget)
  omega

theorem applied_state (hs : s ∈ d.states) (eq : CharMap ℕ) :
    (d.applyEquivalenceClasses eq).state s = { d.state s with trans := classTrans eq (d.state s).trans } := if_pos hs

theorem applied_perms (s : ℕ) (eq : CharMap ℕ) : ((d.applyEquivalenceClasses eq).state s).perms = (d.state s).perms := by
  by_cases hs : s ∈ d.states
  · rw [applied_state hs]
  · exact congrArg State.perms (if_neg hs)

theorem applied_diff (s : ℕ) (eq : CharMap ℕ) : ((d.applyEquivalenceClasses eq).state s).diff = (d.state s).diff := by
  by_cases hs : s ∈ d.states
  · rw [applied_state hs]
  · exact congrArg State.diff (if_neg hs)

theorem applied_closed (hd : d.Closed) : (d.applyEquivalenceClasses d.equivalenceClasses).Closed := by
  refine ⟨hd.nodup, hd.start, hd.nonmatching, fun s (hs : s ∈ d.states) => ?_,
    fun s (hs : s ∈ d.states) c t ht => ?_⟩
  · rw [applied_state hs]
    exact hd.otherwise s hs
  · rw [applied_state hs] at ht
    obtain ⟨x, -, hget, -⟩ := (classTrans_get (agree hs)).mp ht
    exact hd.trans s hs x t hget

theorem classByte_last (h : classNum eq c = 256) : classByte eq c = 0 := by
  rw [classByte, h]
  rfl

theorem applied_next_zero (hs : s ∈ d.states) (hdiff : (d.state s).diff = false) :
    (d.applyEquivalenceClasses d.equivalenceClasses).next s 0 = some (d.state s).otherwise := by
  have hstate := applied_state hs d.equivalenceClasses
  have hnone := classTrans_none hs (le_refl 0)
  rw [DFA.next_eq_delta (by rw [hstate]; exact hdiff), DFA.delta, hstate]
  dsimp only
  rw [hnone]
  rfl

theorem applied_nextFrom (hd : d.Closed) {c' : ℤ}
    (hrow : ∀ s ∈ d.states, (classTrans eq (d.state s).trans)[c']? = (d.state s).trans[c]?) (fuel : ℕ) (hs : s ∈ d.states) :
    (d.applyEquivalenceClasses eq).nextFrom fuel s c' = d.nextFrom fuel s c := by
  induction fuel generalizing s with
  | zero => rfl
  | succ fuel ih =>
    unfold DFA.nextFrom
    rw [applied_state hs]
    dsimp only
    rw [hrow s hs]
    cases (d.state s).trans[c]? with
    | some t => rfl
    | none =>
      dsimp only
      rw [ih (hd.otherwise s hs)]

theorem nextFrom_mem (hd : d.Closed) {fuel t : ℕ} (hs : s ∈ d.states) (h : d.nextFrom fuel s c = some t) : t ∈ d.states := by
  induction fuel generalizing s with
  | zero => cases h
  | succ fuel ih =>
    unfold DFA.nextFrom at h
    cases htr : (d.state s).trans[c]? with
    | some t' =>
      rw [htr] at h
      obtain rfl := Option.some.inj h
      exact hd.trans s hs c _ htr
    | none =>
      rw [htr] at h
      dsimp only at h
      split_ifs at h
      · exact ih (hd.otherwise s hs) h
      · obtain rfl := Option.some.inj h
        exact hd.otherwise s hs

end Apply

end Classes

section Results

variable {d : DFA}

/-- The class that is emitted for a byte leads where the byte does, unless each byte has a class of its own: the table of the
classes has one byte for each character, and the classes are counted from 1. -/
theorem equivalenceClasses_exact_iff (hd : d.Closed) (hchars : ∀ s ∈ d.states, ∀ c ∈ (d.state s).trans, c < 256) :
    ((∀ s ∈ d.states, ∀ c : ℤ, 0 ≤ c → c < 256 →
      ((d.applyEquivalenceClasses d.equivalenceClasses).state s).trans[(classByte d.equivalenceClasses c : ℤ)]? =
        (d.state s).trans[c]?) ↔ ¬ AllApart d) ∧
    (¬ AllApart d → ∀ s ∈ d.states, ∀ c : ℤ, 0 ≤ c → c < 256 →
      (d.applyEquivalenceClasses d.equivalenceClasses).next s (classByte d.equivalenceClasses c) = d.next s c) := by
  have hne : ¬ AllApart d → ∀ c : ℤ, classNum d.equivalenceClasses c ≠ 256 := fun hnot c hlast =>
    hnot (allApart_of_last hchars hlast)
  have hrow : ∀ c : ℤ, 0 ≤ c → classNum d.equivalenceClasses c ≠ 256 → ∀ s ∈ d.states,
      (classTrans d.equivalenceClasses (d.state s).trans)[(classByte d.equivalenceClasses c : ℤ)]? = (d.state s).trans[c]? := by
    intro c h₀ hne s hs
    have hle := classNum_le hchars c
    rw [classByte, mod_eq_of_lt (by omega), classTrans_byte hs h₀]
  refine ⟨⟨fun hall hapart => ?_, fun hnot s hs c h₀ hc => ?_⟩, fun hnot s hs c h₀ hc => ?_⟩
  · obtain ⟨c, h₀, hc, hlast⟩ := hapart.exists_last hchars
    -- some state has a transition for `c`, but none has one for class 0
    obtain ⟨s, hs, hmem⟩ := hapart.listed c h₀ hc
    have hget := hall s hs c h₀ hc
    have hnone := classTrans_none hs (le_refl 0)
    rw [classByte_last hlast, applied_state hs, cast_zero, hnone] at hget
    rw [Std.ExtTreeMap.mem_iff_isSome_getElem?, ← hget] at hmem
    cases hmem
  · rw [applied_state hs]
    exact hrow c h₀ (hne hnot c) s hs
  · exact applied_nextFrom hd (hrow c h₀ (hne hnot c)) _ hs

section Spread

def spreadTrans (n : ℕ) : CharMap ℕ := (List.range n).foldl (fun m (c : ℕ) => m.insert (c : ℤ) (c + 2)) ∅

theorem spreadTrans_get (n : ℕ) (c : ℤ) : (spreadTrans n)[c]? = if 0 ≤ c ∧ c < n then some (c.toNat + 2) else none := by
  unfold spreadTrans
  induction n with
  | zero =>
    rw [if_neg (by omega)]
    exact Std.ExtTreeMap.getElem?_empty
  | succ n ih =>
    rw [range_succ, foldl_append, foldl_cons, foldl_nil, CharMap.getElem?_insert', ih]
    by_cases hc : (n : ℤ) = c
    · rw [if_pos hc, if_pos (by omega)]
      congr 1
      omega
    · rw [if_neg hc]
      split_ifs <;> first | rfl | omega

def spread (n : ℕ) : DFA where
  state i := ⟨i, false, PermsT.clear, if i = 1 then spreadTrans n else ∅, 0, ⟨∅, none⟩⟩
  states := List.range (n + 2)
  nonmatching := 0
  start := 1
  diffcount := 0
  oobRange := 0
  maxRange := 256
  ordRange := 8
  upperBound := 256
  filedfa := true

variable {n : ℕ}

theorem spread_trans (s : ℕ) (c : ℤ) :
    ((spread n).state s).trans[c]? = if s = 1 ∧ 0 ≤ c ∧ c < n then some (c.toNat + 2) else none := by
  change (if s = 1 then spreadTrans n else ∅)[c]? = _
  by_cases hs : s = 1
  · rw [if_pos hs, spreadTrans_get]
    simp [hs]
  · rw [if_neg hs, if_neg fun h => hs h.1]
    exact Std.ExtTreeMap.getElem?_empty

theorem spread_closed (n : ℕ) : (spread n).Closed := by
  have hmem : ∀ s, s ∈ (spread n).states ↔ s < n + 2 := fun s => mem_range
  refine ⟨nodup_range, (hmem _).mpr ?_, (hmem _).mpr (succ_pos _), fun i _ => (hmem _).mpr (succ_pos _), ?_⟩
  · exact le_add_left 2 n
  · intro i _ c t ht
    rw [spread_trans] at ht
    split_ifs at ht with hc
    obtain rfl := Option.some.inj ht
    exact (hmem _).mpr (by omega)

theorem spread_chars (hn : n ≤ 256) : ∀ s ∈ (spread n).states, ∀ c ∈ ((spread n).state s).trans, c < 256 := by
  intro s _ c hc
  rw [Std.ExtTreeMap.mem_iff_isSome_getElem?, spread_trans] at hc
  split_ifs at hc with hc'
  · omega
  · cases hc

theorem spread_allApart : AllApart (spread 256) := by
  have hstart := (spread_closed 256).start
  have hget : ∀ c : ℤ, 0 ≤ c → c < 256 → ((spread 256).state 1).trans[c]? = some (c.toNat + 2) := fun c h₀ hc => by
    rw [spread_trans, if_pos ⟨rfl, h₀, hc⟩]
  refine ⟨fun c h₀ hc => ⟨1, hstart, mem_of_get (hget c h₀ hc)⟩, fun x y hx₀ hx hy₀ hy hne => ⟨1, hstart, fun he => hne ?_⟩⟩
  rw [hget x hx₀ hx, hget y hy₀ hy] at he
  have := Option.some.inj he
  omega

theorem two_bytes_not_apart : ¬ AllApart (spread 2) := by
  intro h
  obtain ⟨s, -, hmem⟩ := h.listed 2 (by decide) (by decide)
  rw [Std.ExtTreeMap.mem_iff_isSome_getElem?, spread_trans, if_neg (by omega)] at hmem
  cases hmem

def classedBytes : DFA := (spread 2).applyEquivalenceClasses (spread 2).equivalenceClasses

theorem two_bytes_exact : ¬ AllApart (spread 2) ∧ (∀ s ∈ (spread 2).states, ∀ c : ℤ, 0 ≤ c → c < 256 →
      (classedBytes.state s).trans[(classByte (spread 2).equivalenceClasses c : ℤ)]? = ((spread 2).state s).trans[c]?) ∧
    ∀ s ∈ (spread 2).states, ∀ c : ℤ, 0 ≤ c → c < 256 →
      classedBytes.next s (classByte (spread 2).equivalenceClasses c) = (spread 2).next s c := by
  obtain ⟨hrows, hnext⟩ := equivalenceClasses_exact_iff (spread_closed 2) (spread_chars (by decide))
  exact ⟨two_bytes_not_apart, hrows.mpr two_bytes_not_apart, hnext two_bytes_not_apart⟩

theorem last_class_misread : ∃ c : ℤ, 0 ≤ c ∧ c < 256 ∧ classNum (spread 256).equivalenceClasses c = 256 ∧
    (spread 256).next 1 c = some (c.toNat + 2) ∧
    ((spread 256).applyEquivalenceClasses (spread 256).equivalenceClasses).next 1
      (classByte (spread 256).equivalenceClasses c) = some 0 := by
  obtain ⟨c, h₀, hc, hclass⟩ := spread_allApart.exists_last (spread_chars le_rfl)
  refine ⟨c, h₀, hc, hclass, ?_, ?_⟩
  · rw [DFA.next, DFA.nextFrom, spread_trans, if_pos ⟨rfl, h₀, hc⟩]
  · rw [classByte_last hclass]
    exact applied_next_zero (spread_closed 256).start rfl

end Spread

theorem applyEquivalenceClasses_oob_iff (hd : d.Closed) :
    ((∀ s ∈ d.states, ∀ c : ℤ, c < 0 →
      ((d.applyEquivalenceClasses d.equivalenceClasses).state s).trans[c]? = (d.state s).trans[c]?) ↔
      ∀ s ∈ d.states, ∀ c : ℤ, c < 0 → (d.state s).trans[c]? = none) ∧
    ((∀ s ∈ d.states, ∀ c : ℤ, c < 0 → (d.state s).trans[c]? = none) → ∀ s ∈ d.states, ∀ w : List ℤ,
      ((d.applyEquivalenceClasses d.equivalenceClasses).matchLen s (w.map (classChar d.equivalenceClasses))).map
        (fun t => ((d.applyEquivalenceClasses d.equivalenceClasses).state t).perms) =
      (d.matchLen s w).map fun t => (d.state t).perms) := by
  refine ⟨⟨fun h s hs c hc => ?_, fun h s hs c hc => ?_⟩, fun h s hs w => ?_⟩
  · rw [← h s hs c hc, applied_state hs]
    exact classTrans_none hs hc.le
  · rw [h s hs c hc, applied_state hs]
    exact classTrans_none hs hc.le
  · have hrow : ∀ c : ℤ, ∀ s ∈ d.states,
        (classTrans d.equivalenceClasses (d.state s).trans)[classChar d.equivalenceClasses c]? = (d.state s).trans[c]? := by
      intro c s hs
      unfold classChar
      split_ifs with hc
      · rw [h s hs c hc]
        exact classTrans_none hs hc.le
      · exact classTrans_byte hs (not_lt.mp hc)
    have hmatch : (d.applyEquivalenceClasses d.equivalenceClasses).matchLen s (w.map (classChar d.equivalenceClasses)) =
        d.matchLen s w := by
      unfold DFA.matchLen
      induction w generalizing s with
      | nil => rfl
      | cons c w ih =>
        have hnext : (d.applyEquivalenceClasses d.equivalenceClasses).next s (classChar d.equivalenceClasses c) = d.next s c :=
          applied_nextFrom hd (hrow c) _ hs
        rw [map_cons, foldlM_cons, foldlM_cons, hnext]
        cases hc : d.next s c with
        | none => rfl
        | some t => exact ih t (nextFrom_mem hd hs hc)
    rw [hmatch]
    exact congrFun (congrArg Option.map (funext fun t => applied_perms t _)) _

theorem two_bytes_words :
    ((∀ s ∈ (spread 2).states, ∀ c : ℤ, c < 0 →
      (((spread 2).applyEquivalenceClasses (spread 2).equivalenceClasses).state s).trans[c]? = ((spread 2).state s).trans[c]?) ↔
      ∀ s ∈ (spread 2).states, ∀ c : ℤ, c < 0 → ((spread 2).state s).trans[c]? = none) ∧
    ((∀ s ∈ (spread 2).states, ∀ c : ℤ, c < 0 → ((spread 2).state s).trans[c]? = none) → ∀ s ∈ (spread 2).states,
      ∀ w : List ℤ, (((spread 2).applyEquivalenceClasses (spread 2).equivalenceClasses).matchLen s
        (w.map (classChar (spread 2).equivalenceClasses))).map
          (fun t => (((spread 2).applyEquivalenceClasses (spread 2).equivalenceClasses).state t).perms) =
        ((spread 2).matchLen s w).map fun t => ((spread 2).state t).perms) :=
  applyEquivalenceClasses_oob_iff (spread_closed 2)

theorem oob_dropped : ∃ d, DFA.build (fun _ => 0) wrapped wrapped.leafOrder true = .ok d ∧
    ((d.matchLen d.start [-1]).map fun t => (d.state t).perms.allow) = some Perm.mayRead ∧
    (((d.applyEquivalenceClasses d.equivalenceClasses).matchLen d.start [-1]).map fun t => (d.state t).perms.allow) = some 0 := by
  have h : (DFA.build (fun _ => 0) wrapped wrapped.leafOrder true).toOption.any (fun d =>
      (((d.matchLen d.start [-1]).map fun t => (d.state t).perms.allow) = some Perm.mayRead) ∧
      (((d.applyEquivalenceClasses d.equivalenceClasses).matchLen d.start [-1]).map fun t => (d.state t).perms.allow) =
        some 0) = true := by
    decide +kernel
  obtain ⟨d, hd, h⟩ := ok_of_any h
  exact ⟨d, hd, of_decide_eq_true h⟩

end Results

end AppArmor

import AppArmor.Expr.Positions

namespace AppArmor

open Glushkov List Function

def ImportantNode.reads : ImportantNode → Sym → Bool
  | .cnode p, .ch c => p.node.matches c
  | .accept m, .acc m' => m = m'
  | .cnode _, .acc _ => false
  | .accept _, .ch _ => false

@[simp]
theorem ImportantNode.reads_cnode_ch (p : Pos) (c : ℤ) : (ImportantNode.cnode p).reads (.ch c) = p.node.matches c := rfl

@[simp]
theorem ImportantNode.reads_accept_ch (m : MatchFlag) (c : ℤ) : (ImportantNode.accept m).reads (.ch c) = false := rfl

namespace Node

variable {α β : Type}

def map (f : α → β) : Node α → Node β
  | .eps => .eps
  | .cnode a => .cnode (f a)
  | .star t => .star (map f t)
  | .optional t => .optional (map f t)
  | .plus t => .plus (map f t)
  | .cat ts => .cat (mapList ts)
  | .alt ts => .alt (mapList ts)
  | .accept m => .accept m
  | .sharedTree a t => .sharedTree a (map f t)
where
  mapList : List (Node α) → List (Node β)
    | [] => []
    | t :: ts => map f t :: mapList ts

theorem mapList_eq (f : α → β) (ts : List (Node α)) : map.mapList f ts = ts.map (map f) := by
  induction ts with
  | nil => rfl
  | cons t ts ih => rw [map.mapList, ih, map_cons]

def contents (t : Node Pos) : Node CNode := t.map Pos.node

def cnodes : Node α → List α
  | .eps => []
  | .cnode a => [a]
  | .star t => cnodes t
  | .optional t => cnodes t
  | .plus t => cnodes t
  | .cat ts => cnodesList ts
  | .alt ts => cnodesList ts
  | .accept _ => []
  | .sharedTree _ t => cnodes t
where
  cnodesList : List (Node α) → List α
    | [] => []
    | t :: ts => cnodes t ++ cnodesList ts

theorem cnodesList_eq (ts : List (Node α)) : cnodes.cnodesList ts = ts.flatMap cnodes := by
  induction ts with
  | nil => rfl
  | cons t ts ih => rw [cnodes.cnodesList, ih, flatMap_cons]

theorem cnodes_cat (ts : List (Node α)) : (cat ts).cnodes = ts.flatMap cnodes := by
  rw [cnodes, cnodesList_eq]

theorem cnodes_alt (ts : List (Node α)) : (alt ts).cnodes = ts.flatMap cnodes := by
  rw [cnodes, cnodesList_eq]

def flags : Node α → List MatchFlag
  | .eps => []
  | .cnode _ => []
  | .star t => flags t
  | .optional t => flags t
  | .plus t => flags t
  | .cat ts => flagsList ts
  | .alt ts => flagsList ts
  | .accept m => [m]
  | .sharedTree _ t => flags t
where
  flagsList : List (Node α) → List MatchFlag
    | [] => []
    | t :: ts => flags t ++ flagsList ts

theorem flagsList_eq (ts : List (Node α)) : flags.flagsList ts = ts.flatMap flags := by
  induction ts with
  | nil => rfl
  | cons t ts ih => rw [flags.flagsList, ih, flatMap_cons]

theorem flags_cat (ts : List (Node α)) : (cat ts).flags = ts.flatMap flags := by
  rw [flags, flagsList_eq]

theorem flags_alt (ts : List (Node α)) : (alt ts).flags = ts.flatMap flags := by
  rw [flags, flagsList_eq]

inductive Plain : Node α → Prop
  | eps : Plain .eps
  | cnode (a : α) : Plain (.cnode a)
  | star {t} (h : Plain t) : Plain (.star t)
  | optional {t} (h : Plain t) : Plain (.optional t)
  | plus {t} (h : Plain t) : Plain (.plus t)
  | cat {ts} (h : ∀ t ∈ ts, Plain t) : Plain (.cat ts)
  | alt {ts} (h : ∀ t ∈ ts, Plain t) : Plain (.alt ts)

theorem Plain.cat₂ {s t : Node α} (hs : Plain s) (ht : Plain t) : Plain (.cat [s, t]) :=
  .cat (forall_mem_cons.mpr ⟨hs, forall_mem_singleton.mpr ht⟩)

theorem Plain.alt₂ {s t : Node α} (hs : Plain s) (ht : Plain t) : Plain (.alt [s, t]) :=
  .alt (forall_mem_cons.mpr ⟨hs, forall_mem_singleton.mpr ht⟩)

theorem Plain.sharedFree {t : Node α} (h : Plain t) : SharedFree t := by
  induction h with
  | eps => exact .eps
  | cnode a => exact .cnode a
  | star _ ih => exact .star ih
  | optional _ ih => exact .optional ih
  | plus _ ih => exact .plus ih
  | cat _ ih => exact .cat ih
  | alt _ ih => exact .alt ih

def posLang (t : Node Pos) : Language ImportantNode :=
  t.langWith (fun p => {[.cnode p]}) (fun m => {[.accept m]})

theorem readAs_posLang (t : Node Pos) : readAs (fun p x => p.reads x) t.posLang = t.contents.lang := by
  unfold posLang contents Node.lang
  induction t with
  | eps => exact readAs_one
  | cnode p =>
    rw [langWith, readAs_singleton, map, langWith]
    ext w
    constructor
    · rintro ⟨x, hx, rfl⟩
      cases x with
      | ch c => exact ⟨c, hx, rfl⟩
      | acc m => exact absurd hx (by simp [ImportantNode.reads])
    · rintro ⟨c, hc, rfl⟩
      exact ⟨.ch c, hc, rfl⟩
  | star t ih => rw [langWith, readAs_kstar, ih, map, langWith]
  | optional t ih => rw [langWith, readAs_add, readAs_one, ih, map, langWith]
  | plus t ih => rw [langWith, readAs_mul, readAs_kstar, ih, map, langWith]
  | cat ts ih =>
    rw [map, mapList_eq, langWith_cat, langWith_cat, map_map]
    induction ts with
    | nil => exact readAs_one
    | cons t ts iht =>
      rw [map_cons, prod_cons, readAs_mul, ih t (by simp), iht fun u hu => ih u (mem_cons_of_mem _ hu)]
      rfl
  | alt ts ih =>
    rw [map, mapList_eq, langWith_alt, langWith_alt, map_map]
    induction ts with
    | nil => exact readAs_zero
    | cons t ts iht =>
      rw [map_cons, sum_cons, readAs_add, ih t (by simp), iht fun u hu => ih u (mem_cons_of_mem _ hu)]
      rfl
  | accept m =>
    rw [langWith, readAs_singleton, map, langWith]
    ext w
    constructor
    · rintro ⟨x, hx, rfl⟩
      cases x with
      | ch c => exact absurd hx (by simp [ImportantNode.reads])
      | acc m' =>
        have hm : m = m' := by simpa [ImportantNode.reads] using hx
        rw [hm]
        rfl
    · intro hw
      exact ⟨.acc m, by simp [ImportantNode.reads], hw⟩
  | sharedTree a t ih => rw [langWith, ih, map, langWith]

def places (t : Node Pos) : NodeSet := (t.cnodes.map .cnode).toFinset

variable {t : Node Pos} {ts : List (Node Pos)}

theorem mem_places {p : ImportantNode} : p ∈ t.places ↔ ∃ a ∈ t.cnodes, .cnode a = p := by
  simp [places]

theorem places_subset_cat (h : t ∈ ts) : t.places ⊆ (cat ts).places := by
  intro p hp
  obtain ⟨a, ha, rfl⟩ := mem_places.mp hp
  exact mem_places.mpr ⟨a, by rw [cnodes_cat]; exact mem_flatMap.mpr ⟨t, h, ha⟩, rfl⟩

theorem places_alt (ts : List (Node Pos)) : (alt ts).places = (cat ts).places := by
  rw [places, places, cnodes_alt, cnodes_cat]

variable {i : PosInfo ImportantNode}

theorem catInfo_on {s : NodeSet} (h : ∀ t ∈ ts, t.posInfo.On s)
    (hi : i.On s) : (posInfo.catInfo ts i).On s := by
  induction ts generalizing i with
  | nil => exact hi
  | cons t ts ih => exact ih (fun u hu => h u (mem_cons_of_mem _ hu)) (hi.cat_on (h t (by simp)))

theorem altInfo_on {s : NodeSet} (h : ∀ t ∈ ts, t.posInfo.On s) :
    (posInfo.altInfo ts).On s := by
  induction ts with
  | nil => exact .empty_on
  | cons t ts ih => exact (h t (by simp)).alt_on (ih fun u hu => h u (mem_cons_of_mem _ hu))

def accepts (t : Node α) : NodeSet := (t.flags.map .accept).toFinset

theorem mem_accepts {t : Node α} {p : ImportantNode} : p ∈ t.accepts ↔ ∃ m ∈ t.flags, .accept m = p := by
  simp [accepts]

def positions (t : Node Pos) : NodeSet := t.places ∪ t.accepts

theorem positions_subset_cat (h : t ∈ ts) :
    t.positions ⊆ (cat ts).positions := by
  refine Finset.union_subset_union (places_subset_cat h) ?_
  intro p hp
  obtain ⟨m, hm, rfl⟩ := mem_accepts.mp hp
  exact mem_accepts.mpr ⟨m, by rw [flags_cat]; exact mem_flatMap.mpr ⟨t, h, hm⟩, rfl⟩

theorem positions_alt (ts : List (Node Pos)) : (alt ts).positions = (cat ts).positions := by
  rw [positions, positions, places_alt, accepts, accepts, flags_alt, flags_cat]

theorem posInfo_on (t : Node Pos) : t.posInfo.On t.positions := by
  induction t with
  | eps => exact .eps_on
  | cnode p => exact .leaf_on (by simp [positions, places, cnodes])
  | star _ ih => exact ih.star_on
  | optional _ ih => exact ih.optional_on
  | plus _ ih => exact ih.plus_on
  | cat ts ih => exact catInfo_on (fun t ht => (ih t ht).mono (positions_subset_cat ht)) .eps_on
  | alt ts ih =>
    rw [positions_alt]
    exact altInfo_on fun t ht => (ih t ht).mono (positions_subset_cat ht)
  | accept m => exact .leaf_on (by simp [positions, accepts, flags])
  | sharedTree _ _ ih => exact ih

theorem Plain.flags_eq {t : Node α} (h : Plain t) : t.flags = [] := by
  induction h with
  | eps | cnode a => rfl
  | star _ ih | optional _ ih | plus _ ih => exact ih
  | cat _ ih =>
    rw [flags_cat]
    exact flatMap_eq_nil_iff.mpr ih
  | alt _ ih =>
    rw [flags_alt]
    exact flatMap_eq_nil_iff.mpr ih

theorem Plain.posInfo_on (h : Plain t) : t.posInfo.On t.places := by
  have hp : t.positions = t.places := by simp [positions, accepts, h.flags_eq]
  exact hp ▸ t.posInfo_on

theorem disjoint_places {l l' : List Pos} (h : (l ++ l').Nodup) :
    Disjoint (l.map ImportantNode.cnode).toFinset (l'.map ImportantNode.cnode).toFinset := by
  rw [Finset.disjoint_left]
  intro p hp hp'
  obtain ⟨a, ha, rfl⟩ := mem_map.mp (mem_toFinset.mp hp)
  obtain ⟨b, hb, he⟩ := mem_map.mp (mem_toFinset.mp hp')
  obtain rfl : b = a := by simpa using he
  exact (nodup_append.mp h).2.2 b ha b hb rfl

theorem catInfo_lang (hp : ∀ t ∈ ts, Plain t)
    (ih : ∀ t ∈ ts, t.posInfo.lang = t.posLang) {l : List Pos}
    (hi : i.On (l.map .cnode).toFinset) (hn : (l ++ (cat ts).cnodes).Nodup) :
    (posInfo.catInfo ts i).lang = i.lang * (ts.map posLang).prod := by
  induction ts generalizing i l with
  | nil => rw [posInfo.catInfo, map_nil, prod_nil, mul_one]
  | cons t ts iht =>
    have hsplit : (cat (t :: ts)).cnodes = t.cnodes ++ (cat ts).cnodes := by
      rw [cnodes_cat, cnodes_cat, flatMap_cons]
    rw [hsplit, ← append_assoc] at hn
    have ht := (hp t (by simp)).posInfo_on
    have hcat := PosInfo.lang_cat hi ht (disjoint_places (nodup_append.mp hn).1)
    have hon : (i.cat t.posInfo).On ((l ++ t.cnodes).map .cnode).toFinset := by
      rw [map_append, toFinset_append]
      exact (hi.mono Finset.subset_union_left).cat_on (ht.mono Finset.subset_union_right)
    rw [posInfo.catInfo, iht (fun u hu => hp u (mem_cons_of_mem _ hu))
      (fun u hu => ih u (mem_cons_of_mem _ hu)) hon hn, hcat, ih t (by simp), map_cons, prod_cons, mul_assoc]

theorem altInfo_lang (hp : ∀ t ∈ ts, Plain t)
    (ih : ∀ t ∈ ts, t.posInfo.lang = t.posLang) (hn : (cat ts).cnodes.Nodup) :
    (posInfo.altInfo ts).lang = (ts.map posLang).sum := by
  induction ts with
  | nil => exact PosInfo.lang_empty
  | cons t ts iht =>
    have hp' : ∀ u ∈ ts, Plain u := fun u hu => hp u (mem_cons_of_mem _ hu)
    rw [cnodes_cat, flatMap_cons, ← cnodes_cat] at hn
    have hts : (posInfo.altInfo ts).On (cat ts).places :=
      altInfo_on fun u hu => (hp' u hu).posInfo_on.mono (places_subset_cat hu)
    have hd : ∀ p ∈ t.places, p ∈ (cat ts).places → PosInfo.Agree t.posInfo (posInfo.altInfo ts) p :=
      fun p h h' => absurd h' (Finset.disjoint_left.mp (disjoint_places hn) h)
    rw [posInfo.altInfo, PosInfo.lang_alt (hp t (by simp)).posInfo_on hts hd, ih t (by simp),
      iht hp' (fun u hu => ih u (mem_cons_of_mem _ hu)) (nodup_append.mp hn).2.1, map_cons, sum_cons]

theorem Plain.posInfo_lang (h : Plain t) (hn : t.cnodes.Nodup) : t.posInfo.lang = t.posLang := by
  induction h with
  | eps => exact PosInfo.lang_eps
  | cnode p => exact PosInfo.lang_leaf _
  | star _ ih => rw [posInfo, PosInfo.lang_star, ih hn]; rfl
  | optional _ ih => rw [posInfo, PosInfo.lang_optional, ih hn]; rfl
  | plus _ ih => rw [posInfo, PosInfo.lang_plus, ih hn]; rfl
  | @cat ts h ih =>
    have hsub : ∀ t ∈ ts, t.posInfo.lang = t.posLang := by
      intro t ht
      rw [cnodes_cat] at hn
      exact ih t ht ((nodup_flatMap.mp hn).1 t ht)
    rw [posInfo, catInfo_lang h hsub (l := []) .eps_on (by simpa using hn), PosInfo.lang_eps, one_mul]
    exact (langWith_cat _ _ ts).symm
  | @alt ts h ih =>
    rw [cnodes_alt] at hn
    have hsub : ∀ t ∈ ts, t.posInfo.lang = t.posLang :=
      fun t ht => ih t ht ((nodup_flatMap.mp hn).1 t ht)
    rw [posInfo, altInfo_lang h hsub (by rwa [cnodes_cat])]
    exact (langWith_alt _ _ ts).symm

end Node

section Within

variable {refcount : ℕ → ℕ} {u : NodeSet}

structure PosState.Within (s : PosState) (u : NodeSet) : Prop where
  followpos : ∀ p, s.followpos p ⊆ u
  first : ∀ a, (s.shared a).first ⊆ u
  last : ∀ a, (s.shared a).last ⊆ u

structure PosResult.Within (r : PosResult) (u : NodeSet) : Prop where
  first : r.firstpos ⊆ u
  last : r.lastpos ⊆ u
  state : r.state.Within u

variable {s : PosState}

theorem PosState.Within.addFollow (h : s.Within u) {last first : NodeSet} (hf : first ⊆ u) :
    (s.addFollow last first).Within u := by
  refine ⟨fun p => ?_, h.first, h.last⟩
  unfold PosState.addFollow
  dsimp only
  split_ifs
  · exact Finset.union_subset (h.followpos p) hf
  · exact h.followpos p

theorem PosState.Within.update (h : s.Within u) (a : ℕ) {k : SharedCache} (hf : k.first ⊆ u)
    (hl : k.last ⊆ u) : (PosState.mk s.followpos (Function.update s.shared a k)).Within u := by
  refine ⟨h.followpos, fun b => ?_, fun b => ?_⟩
  · rcases eq_or_ne b a with rfl | hb
    · simpa only [update_self]
    · simpa only [update_of_ne hb] using h.first b
  · rcases eq_or_ne b a with rfl | hb
    · simpa only [update_self]
    · simpa only [update_of_ne hb] using h.last b

theorem PosState.Within.reference (h : s.Within u) (n a : ℕ) {f l : NodeSet} (hf : f ⊆ u)
    (hl : l ⊆ u) : (s.reference n a f l).Within u := by
  refine ⟨Finset.union_subset hf (h.first a), Finset.union_subset hl (h.last a), ?_⟩
  unfold PosState.reference
  dsimp only
  split_ifs
  · exact h.update a (Finset.empty_subset u) (Finset.empty_subset u)
  · exact h.update a (h.first a) (h.last a)

namespace Node

variable {ts : List (Node Pos)} {f l : NodeSet} {s : PosState}

theorem catLoop_within
    (ih : ∀ t ∈ ts, ∀ f l s, f ⊆ u → l ⊆ u → s.Within u → (computePos refcount t f l s).Within u)
    {n : Bool} {left : NodeSet} (hf : f ⊆ u) (hleft : left ⊆ u) (hl : l ⊆ u) (hs : s.Within u) :
    (computePos.catLoop refcount ts n f left l s).Within u := by
  induction ts generalizing n f left s with
  | nil => exact ⟨hf, Finset.union_subset hl hleft, hs⟩
  | cons t ts iht =>
    have hr := ih t (by simp) ∅ ∅ s (Finset.empty_subset u) (Finset.empty_subset u) hs
    rw [computePos.catLoop]
    apply iht (fun v hv => ih v (mem_cons_of_mem _ hv))
    · split_ifs
      · exact Finset.union_subset hf hr.first
      · exact hf
    · split_ifs
      · exact Finset.union_subset hr.last hleft
      · exact hr.last
    · exact hr.state.addFollow hr.first

theorem altLoop_within
    (ih : ∀ t ∈ ts, ∀ f l s, f ⊆ u → l ⊆ u → s.Within u → (computePos refcount t f l s).Within u)
    {n : Bool} (hf : f ⊆ u) (hl : l ⊆ u) (hs : s.Within u) :
    (computePos.altLoop refcount ts n f l s).Within u := by
  induction ts generalizing n f l s with
  | nil => exact ⟨hf, hl, hs⟩
  | cons t ts iht =>
    have hr := ih t (by simp) f l s hf hl hs
    rw [computePos.altLoop]
    exact iht (fun v hv => ih v (mem_cons_of_mem _ hv)) hr.first hr.last hr.state

theorem computePos_within {t : Node Pos} (ht : t.positions ⊆ u) (hf : f ⊆ u)
    (hl : l ⊆ u) (hs : s.Within u) : (computePos refcount t f l s).Within u := by
  induction t generalizing f l s with
  | eps => exact ⟨hf, hl, hs⟩
  | cnode p =>
    have hp : ImportantNode.cnode p ∈ u := ht (by simp [positions, places, cnodes])
    exact ⟨Finset.insert_subset hp hf, Finset.insert_subset hp hl, hs⟩
  | accept m =>
    have hp : ImportantNode.accept m ∈ u := ht (by simp [positions, accepts, flags])
    exact ⟨Finset.insert_subset hp hf, Finset.insert_subset hp hl, hs⟩
  | star t ih | plus t ih =>
    have hr := ih ht (Finset.empty_subset u) (Finset.empty_subset u) hs
    exact ⟨Finset.union_subset hf hr.first, Finset.union_subset hl hr.last, hr.state.addFollow hr.first⟩
  | optional t ih =>
    have hr := ih ht hf hl hs
    exact ⟨hr.first, hr.last, hr.state⟩
  | cat ts ih =>
    have hsub : ∀ t ∈ ts, t.positions ⊆ u := fun t h => (positions_subset_cat h).trans ht
    have ih' := fun t h f l s hf hl hs => ih t h (hsub t h) (f := f) (l := l) (s := s) hf hl hs
    rw [computePos]
    cases ts with
    | nil => exact ⟨hf, hl, hs⟩
    | cons t ts =>
      have hr := ih' t (by simp) f ∅ s hf (Finset.empty_subset u) hs
      rw [computePos.computeCat]
      exact catLoop_within (fun v hv => ih' v (mem_cons_of_mem _ hv)) hr.first hr.last hl hr.state
  | alt ts ih =>
    rw [positions_alt] at ht
    have hsub : ∀ t ∈ ts, t.positions ⊆ u := fun t h => (positions_subset_cat h).trans ht
    rw [computePos]
    exact altLoop_within (fun t h f l s hf hl hs => ih t h (hsub t h) hf hl hs) hf hl hs
  | sharedTree a t ih =>
    have hr := ih ht (hs.first a) (hs.last a) hs
    rw [computePos]
    split_ifs with hc
    · exact hs.reference _ a hf hl
    · exact PosState.Within.reference (hr.state.update a hr.first hr.last) _ a hf hl

theorem computePos_clear_within (refcount : ℕ → ℕ) (t : Node Pos) :
    (computePos refcount t ∅ ∅ PosState.clear).firstpos ⊆ t.positions ∧
      ∀ p, (computePos refcount t ∅ ∅ PosState.clear).state.followpos p ⊆ t.positions := by
  have hclear : PosState.clear.Within t.positions := by constructor <;> simp [PosState.clear]
  have h : (computePos refcount t ∅ ∅ PosState.clear).Within t.positions :=
    computePos_within (subset_refl t.positions) (Finset.empty_subset _) (Finset.empty_subset _) hclear
  exact ⟨h.first, h.state.followpos⟩

end Node

end Within

end AppArmor

import AppArmor.Expr.Rules
import Std.Data.ExtTreeMap

namespace AppArmor

open List

abbrev CharMap (α : Type) := Std.ExtTreeMap ℤ α compare

namespace CharMap

variable {α : Type}

theorem getElem?_insert' (m : CharMap α) (k c : ℤ) (v : α) :
    (m.insert k v)[c]? = if k = c then some v else m[c]? := by
  simp [Std.ExtTreeMap.getElem?_insert]

theorem getElem?_erase' (m : CharMap α) (k c : ℤ) : (m.erase k)[c]? = if k = c then none else m[c]? := by
  simp [Std.ExtTreeMap.getElem?_erase]

end CharMap

structure Cases where
  cases : CharMap NodeSet
  otherwise : Option NodeSet

namespace Cases

def empty : Cases := ⟨∅, none⟩

def fresh (k : Cases) (c : ℤ) : NodeSet :=
  match k.otherwise with
  | some o => if 0 ≤ c then o else ∅
  | none => ∅

def addChar (follow : NodeSet) (k : Cases) (c : ℤ) : Cases :=
  { k with cases := k.cases.insert c ((k.cases[c]?).getD (k.fresh c) ∪ follow) }

def copyDefault (o : NodeSet) (m : CharMap NodeSet) (c : ℤ) : CharMap NodeSet :=
  if m[c]?.isSome then m else m.insert c o

def followNotCharSet (chars : Chars) (follow : NodeSet) (k : Cases) : Cases :=
  let o := k.otherwise.getD ∅
  let m := chars.elems.foldl (copyDefault o) k.cases
  ⟨m.map (fun c s => if 0 ≤ c ∧ c ∉ chars then s ∪ follow else s), some (o ∪ follow)⟩

def followAnyChar (follow : NodeSet) (k : Cases) : Cases :=
  ⟨k.cases.map (fun c s => if 0 ≤ c then s ∪ follow else s), some (k.otherwise.getD ∅ ∪ follow)⟩

def follow (followpos : ImportantNode → NodeSet) (k : Cases) (p : ImportantNode) : Cases :=
  match p with
  | .accept _ => k
  | .cnode a =>
    match a.node with
    | .char c => k.addChar (followpos p) c
    | .charSet chars => chars.elems.foldl (addChar (followpos p)) k
    | .notCharSet chars => k.followNotCharSet chars (followpos p)
    | .anyChar => k.followAnyChar (followpos p)

def ofNodes (followpos : ImportantNode → NodeSet) (l : List ImportantNode) : Cases :=
  l.foldl (follow followpos) empty

def get (k : Cases) (c : ℤ) : NodeSet := (k.cases[c]?).getD (k.otherwise.getD ∅)

end Cases

def CNode.lists : CNode → ℤ → Bool
  | .char c, x => x = c
  | .charSet s, x => x ∈ s
  | .notCharSet s, x => x ∈ s
  | .anyChar, _ => false

def CNode.isDefault : CNode → Bool
  | .notCharSet _ => true
  | .anyChar => true
  | _ => false

theorem CNode.matches_byte (n : CNode) {c : ℤ} (hc : 0 ≤ c) : n.matches c = (n.lists c != n.isDefault) := by
  cases n <;> simp [CNode.matches, CNode.lists, CNode.isDefault, hc]

namespace Cases

variable {followpos : ImportantNode → NodeSet} {k : Cases} {c : ℤ}

def freshFor (n : CNode) (k : Cases) (c : ℤ) : NodeSet :=
  if n.isDefault then k.otherwise.getD ∅ else k.fresh c

theorem foldl_addChar_otherwise (f : NodeSet) (l : List ℤ) (k : Cases) :
    (l.foldl (addChar f) k).otherwise = k.otherwise := by
  induction l generalizing k with
  | nil => rfl
  | cons d l ih => rw [foldl_cons, ih]; rfl

theorem foldl_addChar_cases (f : NodeSet) (l : List ℤ) (k : Cases) :
    (l.foldl (addChar f) k).cases[c]? =
      if c ∈ l then some ((k.cases[c]?).getD (k.fresh c) ∪ f) else k.cases[c]? := by
  induction l generalizing k with
  | nil => simp
  | cons d l ih =>
    have hfresh : (k.addChar f d).fresh c = k.fresh c := rfl
    have hget : (k.addChar f d).cases[c]? = if d = c then some ((k.cases[d]?).getD (k.fresh d) ∪ f) else k.cases[c]? :=
      CharMap.getElem?_insert' _ _ _ _
    rw [foldl_cons, ih, hfresh, hget]
    by_cases hdc : d = c
    · subst hdc
      simp
    · simp [hdc, Ne.symm hdc]

theorem foldl_copyDefault (o : NodeSet) (l : List ℤ) (m : CharMap NodeSet) :
    (l.foldl (copyDefault o) m)[c]? = if c ∈ l then some ((m[c]?).getD o) else m[c]? := by
  induction l generalizing m with
  | nil => simp
  | cons d l ih =>
    have hget : (copyDefault o m d)[c]? = if d = c then some ((m[c]?).getD o) else m[c]? := by
      unfold copyDefault
      split_ifs with h hdc hdc
      · subst hdc
        obtain ⟨v, hv⟩ := Option.isSome_iff_exists.mp h
        simp [hv]
      · rfl
      · subst hdc
        have hn : m[d]? = none := by simpa using h
        simp [hn]
      · simp [CharMap.getElem?_insert', hdc]
    rw [foldl_cons, ih, hget]
    by_cases hdc : d = c
    · subst hdc
      simp
    · simp [hdc, Ne.symm hdc]

theorem follow_otherwise (p : Pos) : (follow followpos k (.cnode p)).otherwise =
    if p.node.isDefault then some (k.otherwise.getD ∅ ∪ followpos (.cnode p)) else k.otherwise := by
  cases hn : p.node with
  | char d => simp [follow, hn, CNode.isDefault, addChar]
  | charSet s => simp [follow, hn, CNode.isDefault, foldl_addChar_otherwise]
  | notCharSet s => simp [follow, hn, CNode.isDefault, followNotCharSet]
  | anyChar => simp [follow, hn, CNode.isDefault, followAnyChar]

theorem follow_cases (p : Pos) : (follow followpos k (.cnode p)).cases[c]? =
    if (k.cases[c]?).isSome ∨ p.node.lists c then
      some ((k.cases[c]?).getD (freshFor p.node k c) ∪ (if p.node.matches c then followpos (.cnode p) else ∅))
    else none := by
  cases hn : p.node with
  | char d =>
    by_cases hdc : d = c
    · subst hdc
      simp [follow, hn, addChar, CNode.lists, CNode.matches, freshFor, CNode.isDefault]
    · cases hk : k.cases[c]? <;>
        simp [follow, hn, addChar, CNode.lists, CNode.matches, CharMap.getElem?_insert', hdc, Ne.symm hdc, hk]
  | charSet s =>
    simp only [follow, hn, foldl_addChar_cases, ← Chars.mem_def]
    by_cases hc : c ∈ s
    · simp [hc, CNode.lists, CNode.matches, freshFor, CNode.isDefault]
    · cases hk : k.cases[c]? <;> simp [hc, CNode.lists, CNode.matches]
  | notCharSet s =>
    simp only [follow, hn, followNotCharSet, Std.ExtTreeMap.getElem?_map, foldl_copyDefault, ← Chars.mem_def]
    by_cases hc : c ∈ s
    · simp [hc, CNode.lists, CNode.matches, freshFor, CNode.isDefault]
    · cases hk : k.cases[c]? with
      | none => simp [hc, CNode.lists]
      | some v =>
        by_cases h0 : 0 ≤ c <;> simp [hc, CNode.lists, CNode.matches, h0]
  | anyChar =>
    simp only [follow, hn, followAnyChar, Std.ExtTreeMap.getElem?_map]
    cases hk : k.cases[c]? with
    | none => simp [CNode.lists]
    | some v => by_cases h0 : 0 ≤ c <;> simp [CNode.matches, h0]

theorem follow_get (hc : 0 ≤ c) (p : ImportantNode) : (follow followpos k p).get c =
    k.get c ∪ (if p.reads (.ch c) then followpos p else ∅) := by
  cases p with
  | accept m => simp [follow, ImportantNode.reads]
  | cnode a =>
    have hfresh : freshFor a.node k c = k.otherwise.getD ∅ := by
      unfold freshFor fresh
      cases k.otherwise <;> simp [hc]
    have hreads : (ImportantNode.cnode a).reads (.ch c) = (a.node.lists c != a.node.isDefault) := a.node.matches_byte hc
    rw [get, get, follow_cases, follow_otherwise, hfresh, a.node.matches_byte hc, hreads]
    cases k.cases[c]? with
    | some v => simp
    | none => cases a.node.lists c <;> cases a.node.isDefault <;> simp

theorem ofNodes_get (hc : 0 ≤ c) (l : List ImportantNode) : (ofNodes followpos l).get c =
    (l.toFinset.filter (fun p => p.reads (.ch c))).biUnion followpos := by
  induction l using reverseRecOn with
  | nil => simp [ofNodes, get, empty]
  | append_singleton l p ih =>
    rw [ofNodes, foldl_append, foldl_cons, foldl_nil, follow_get hc]
    rw [ofNodes] at ih
    rw [ih]
    ext q
    simp only [Finset.mem_union, Finset.mem_biUnion, Finset.mem_filter, mem_toFinset, mem_append,
      mem_singleton]
    constructor
    · rintro (⟨r, ⟨hr, hrc⟩, hq⟩ | hq)
      · exact ⟨r, ⟨.inl hr, hrc⟩, hq⟩
      · split_ifs at hq with hp
        · exact ⟨p, ⟨.inr rfl, hp⟩, hq⟩
        · exact absurd hq (Finset.notMem_empty q)
    · rintro ⟨r, ⟨hr | rfl, hrc⟩, hq⟩
      · exact .inl ⟨r, ⟨hr, hrc⟩, hq⟩
      · exact .inr (by rw [if_pos hrc]; exact hq)

end Cases

end AppArmor

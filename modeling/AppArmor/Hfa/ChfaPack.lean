import AppArmor.Hfa.Chfa
import AppArmor.Hfa.MinimizeCorrect

namespace AppArmor

open FreeList List Option Function

namespace CHFA

section Slots

variable {t : CHFA}

/-- The free list holds the slots behind the first that have no owner, and nothing behind the end has one. -/
structure FreeInv (t : CHFA) (l : List ℕ) : Prop where
  holds : Holds t.free l
  mem : ∀ p, p ∈ l ↔ 0 < p ∧ p < t.size ∧ t.nextCheck p = none
  beyond : ∀ p, t.size ≤ p → t.nextCheck p = none
  pos : 0 < t.size

variable {l : List ℕ}

theorem FreeInv.length_le (h : FreeInv t l) : l.length ≤ t.size := by
  have hsub : l ⊆ range t.size := fun p hp => mem_range.mpr ((h.mem p).mp hp).2.1
  have hlen := (subperm_of_subset h.holds.nodup hsub).length_le
  rwa [length_range] at hlen

theorem FreeInv.setSlot (h : FreeInv t l) (s : ℕ) (base : ℤ) (e : ℤ × ℕ)
    (hp : (base + e.1).toNat ∈ l) : ∃ l', FreeInv (setSlot s base t e) l' := by
  obtain ⟨l₁, l₂, rfl⟩ := append_of_mem hp
  have hnd := h.holds.nodup
  have hsize := ((h.mem _).mp hp).2.1
  refine ⟨l₁ ++ l₂, h.holds.unlink, fun p => ?_, fun p hle => ?_, h.pos⟩
  · have hmem : p ∈ l₁ ++ l₂ ↔ p ∈ l₁ ++ (base + e.1).toNat :: l₂ ∧ p ≠ (base + e.1).toNat := by
      have hperm := perm_middle.nodup_iff.mp hnd
      rw [perm_middle.mem_iff, mem_cons]
      constructor
      · exact fun hm => ⟨Or.inr hm, fun he => (nodup_cons.mp hperm).1 (he ▸ hm)⟩
      · rintro ⟨he | hm, hne⟩
        · exact absurd he hne
        · exact hm
    rw [hmem, h.mem]
    simp only [CHFA.setSlot]
    by_cases hpe : p = (base + e.1).toNat
    · simp [hpe]
    · simp [hpe]
  · have hne : p ≠ (base + e.1).toNat := by
      rintro rfl
      exact absurd hsize (not_lt.mpr hle)
    rw [CHFA.setSlot]
    dsimp only
    rw [update_of_ne hne]
    exact h.beyond p hle

theorem FreeInv.grow (h : FreeInv t l) {n : ℕ} (hn : 0 < n) :
    FreeInv (t.grow (l.getLastD 0) n) (l ++ List.range' t.size n) := by
  have hlt : ∀ b ∈ l, b < t.size := fun b hb => ((h.mem b).mp hb).2.1
  have hpos := h.pos
  have happ := h.holds.append hlt h.pos (show t.size < t.size + n by omega)
  rw [Nat.add_sub_cancel_left] at happ
  refine ⟨happ, fun p => ?_, fun p hp => h.beyond p (le_of_add_le_left (b := n) hp), ?_⟩
  · rw [mem_append, h.mem, mem_range'_1]
    change _ ↔ 0 < p ∧ p < t.size + n ∧ t.nextCheck p = none
    constructor
    · rintro (⟨h₀, h₁, h₂⟩ | ⟨h₁, h₂⟩)
      · exact ⟨h₀, by omega, h₂⟩
      · exact ⟨by omega, h₂, h.beyond p h₁⟩
    · rintro ⟨h₀, h₁, h₂⟩
      by_cases hp : p < t.size
      · exact Or.inl ⟨h₀, hp, h₂⟩
      · exact Or.inr ⟨by omega, h₁⟩
  · change 0 < t.size + n
    omega

end Slots

section Find

variable {t : CHFA}

variable {tr : List (ℤ × ℕ)}

theorem fits_iff (hb : ∀ p, t.size ≤ p → t.nextCheck p = none) {base : ℤ}
    (hsorted : tr.Pairwise fun a b => a.1 < b.1) :
    fitsIn.fits t base tr = true ↔ ∀ e ∈ tr, t.nextCheck (base + e.1).toNat = none := by
  induction tr with
  | nil => simp [fitsIn.fits]
  | cons e tr ih =>
    rw [pairwise_cons] at hsorted
    rw [fitsIn.fits]
    split_ifs with hsize hsome
    · -- the later entries lie behind the end as well
      refine iff_of_true rfl fun a ha => hb _ ?_
      rcases mem_cons.mp ha with rfl | ha
      · omega
      · have := hsorted.1 a ha
        omega
    · refine iff_of_false id fun h => ?_
      rw [h e mem_cons_self] at hsome
      cases hsome
    · rw [ih hsorted.2, forall_mem_cons]
      exact (and_iff_right (not_isSome_iff_eq_none.mp hsome)).symm

variable {c : ℤ} {target : ℕ}

theorem fitsIn_iff (hb : ∀ p, t.size ≤ p → t.nextCheck p = none) {x : ℕ}
    (hsorted : ((c, target) :: tr).Pairwise fun a b => a.1 < b.1) :
    t.fitsIn x ((c, target) :: tr) = true ↔
      c ≤ x ∧ ∀ e ∈ (c, target) :: tr, t.nextCheck (x - c + e.1).toNat = none := by
  change (if (x : ℤ) - c < 0 then false else fitsIn.fits t (x - c) ((c, target) :: tr)) = true ↔ _
  split_ifs with hneg
  · refine iff_of_false id fun h => ?_
    omega
  · rw [fits_iff hb hsorted]
    exact (and_iff_right (by omega)).symm

def Fits (t : CHFA) (c : ℤ) (tr : List (ℤ × ℕ)) (x : ℕ) : Prop :=
  c ≤ x ∧ ∀ e ∈ tr, t.nextCheck (x - c + e.1).toNat = none

theorem findPos_round {l₁ l₂ : List ℕ} (h : FreeInv t (l₁ ++ l₂))
    (hsorted : ((c, target) :: tr).Pairwise fun a b => a.1 < b.1) (ub : ℤ) (fuel : ℕ) :
    ∃ m₁ m₂, l₂ = m₁ ++ m₂ ∧ (∀ x ∈ m₁, Fits t c ((c, target) :: tr) x → (x : ℤ) + c < 0) ∧
      (∀ x ∈ m₂.head?, Fits t c ((c, target) :: tr) x) ∧
      findPos ub c ((c, target) :: tr) (fuel + 1) t (l₁.getLastD 0) (l₂.headD 0) =
        if m₂.headD 0 = 0 then
          findPos ub c ((c, target) :: tr) fuel (t.grow ((l₁ ++ m₁).getLastD 0) (ub - c).toNat)
            ((l₁ ++ m₁).getLastD 0) t.size
        else if (t.size : ℤ) ≤ (m₂.headD 0 : ℕ) + (ub - 1) - c then
          some (t.grow ((l₁ ++ l₂).getLastD 0) ((ub - 1) - c - (t.size - 1 - (m₂.headD 0 : ℕ))).toNat, m₂.headD 0)
        else some (t, m₂.headD 0) := by
  have hlen := h.length_le
  rw [length_append] at hlen
  obtain ⟨k₁, k₂, rfl, hfind₁, hk₁, -⟩ := h.holds.find (fun x => ¬ ((x : ℤ) < c ∨ (x : ℤ) + c < 0))
    (show l₂.length ≤ t.size by omega)
  rw [length_append] at hlen
  have hh := h.holds
  rw [← append_assoc] at hh
  obtain ⟨m₁, m₂, rfl, hfind₂, hm₁, hm₂⟩ := hh.find (fun x => t.fitsIn x ((c, target) :: tr))
    (show k₂.length ≤ t.size by omega)
  rw [length_append] at hlen
  refine ⟨k₁ ++ m₁, m₂, (append_assoc ..).symm, ?_, ?_, ?_⟩
  · intro x hx hfit
    rcases mem_append.mp hx with hx | hx
    · have hq := hk₁ x hx
      have := hfit.1
      simp only [not_or, not_lt, decide_eq_false_iff_not, not_and, not_le] at hq
      exact hq this
    · exact absurd ((fitsIn_iff h.beyond hsorted).mpr hfit) (by simp [hm₁ x hx])
  · exact fun x hx => (fitsIn_iff h.beyond hsorted).mp (hm₂ x hx)
  · rw [findPos, hfind₁]
    simp only [bind_eq_bind, bind_some]
    rw [hfind₂, append_assoc]
    simp only [bind_some]
    split_ifs with hx hsize
    · rfl
    · rw [← append_assoc] at hh
      obtain ⟨n₁, n₂, hn, hfind₃, -, hlast⟩ := hh.find (fun _ => false) (show m₂.length ≤ t.size by omega)
      have hn₂ : n₂ = [] := by
        cases n₂ with
        | nil => rfl
        | cons a n₂ => exact absurd (hlast a rfl) Bool.false_ne_true
      rw [hn₂, append_nil] at hn
      rw [append_assoc l₁ k₁ m₁, ← hn] at hfind₃
      rw [hfind₃]
      simp only [bind_some, append_assoc]
      rfl
    · rfl

structure Extends (t t' : CHFA) : Prop where
  nextCheck : t'.nextCheck = t.nextCheck
  defaultBase : t'.defaultBase = t.defaultBase
  num : t'.num = t.num
  size : t.size ≤ t'.size

theorem Extends.grow (t : CHFA) (last n : ℕ) : Extends t (t.grow last n) := ⟨rfl, rfl, rfl, Nat.le_add_right _ _⟩

theorem Fits.at_size (hb : ∀ p, t.size ≤ p → t.nextCheck p = none)
    (hsorted : ((c, target) :: tr).Pairwise fun a b => a.1 < b.1) (hc : c ≤ t.size) :
    Fits t c ((c, target) :: tr) t.size := by
  refine ⟨hc, fun e he => hb _ ?_⟩
  rcases mem_cons.mp he with rfl | he
  · omega
  · have := (pairwise_cons.mp hsorted).1 e he
    omega

theorem findPos_spec {l : List ℕ} (h : FreeInv t l)
    (hsorted : ((c, target) :: tr).Pairwise fun a b => a.1 < b.1) (hlo : -t.size ≤ c) (hhi : c < 256)
    (hsize : 256 ≤ t.size) :
    ∃ t' x l', findPos 256 c ((c, target) :: tr) 2 t 0 t.free.first = some (t', x) ∧ Extends t t' ∧
      FreeInv t' l' ∧ 0 < x ∧ Fits t c ((c, target) :: tr) x ∧ (x : ℤ) - c + 255 < t'.size ∧
      t'.size ≤ t.size + (256 - c).toNat := by
  have hround : FreeInv t ([] ++ l) := h
  obtain ⟨m₁, m₂, rfl, -, hm₂, hres⟩ := findPos_round hround hsorted 256 1
  rw [getLastD_nil, ← h.holds.first] at hres
  rw [hres]
  cases m₂ with
  | nil =>
    -- nothing fits: the search goes on behind the old end, where the first slot does
    rw [append_nil, nil_append] at *
    rw [headD_nil, if_pos rfl]
    obtain ⟨n, hn⟩ : ∃ n, (256 - c).toNat = n + 1 := ⟨(256 - c).toNat - 1, by omega⟩
    have hg := h.grow (n := (256 - c).toNat) (by omega)
    have hfit := Fits.at_size h.beyond hsorted (show c ≤ t.size by omega)
    obtain ⟨k₁, k₂, hk, hk₁, hk₂, hres'⟩ := findPos_round hg hsorted 256 0
    have hhead : (range' t.size (256 - c).toNat).headD 0 = t.size := by
      rw [hn, range'_succ, headD_cons]
    rw [hhead] at hres'
    have hk₁nil : k₁ = [] := by
      cases k₁ with
      | nil => rfl
      | cons a k₁ =>
        rw [hk, cons_append, headD_cons] at hhead
        have := hk₁ a (by simp) (hhead ▸ hfit)
        omega
    rw [hk₁nil, nil_append] at hk
    rw [← hk, hhead, if_neg (by omega), if_neg] at hres'
    · refine ⟨_, t.size, _, hres', Extends.grow .., hg, by omega, hfit, ?_, le_rfl⟩
      change (t.size : ℤ) - c + 255 < (t.size + (256 - c).toNat : ℕ)
      omega
    · change ¬ ((t.size + (256 - c).toNat : ℕ) : ℤ) ≤ _
      omega
  | cons x m₂ =>
    have hx := h.holds.pos x (by simp)
    have hmem := (h.mem x).mp (by simp)
    have hfit := hm₂ x rfl
    rw [headD_cons, if_neg hx.ne']
    split_ifs with hend
    · refine ⟨_, x, _, rfl, Extends.grow .., h.grow (by omega), hx, hfit, ?_, ?_⟩
      · change (x : ℤ) - c + 255 < (t.size + _ : ℕ)
        omega
      · change t.size + _ ≤ _
        omega
    · exact ⟨t, x, _, rfl, ⟨rfl, rfl, rfl, le_rfl⟩, h, hx, hfit, by omega, by omega⟩

end Find

section Insert

structure Entered (s : ℕ) (base : ℤ) (tr : List (ℤ × ℕ)) (t t' : CHFA) : Prop where
  free : ∃ l, FreeInv t' l
  size : t'.size = t.size
  defaultBase : t'.defaultBase = t.defaultBase
  num : t'.num = t.num
  own : ∀ e ∈ tr, t'.nextCheck (base + e.1).toNat = some (e.2, s)
  other : ∀ p, (∀ e ∈ tr, p ≠ (base + e.1).toNat) → t'.nextCheck p = t.nextCheck p

theorem foldl_setSlot {t : CHFA} {s : ℕ} {base : ℤ} {tr : List (ℤ × ℕ)} {l : List ℕ} (h : FreeInv t l)
    (hsorted : tr.Pairwise fun a b => a.1 < b.1)
    (hfree : ∀ e ∈ tr, 0 < base + e.1 ∧ base + e.1 < t.size ∧ t.nextCheck (base + e.1).toNat = none) :
    Entered s base tr t (tr.foldl (setSlot s base) t) := by
  induction tr generalizing t l with
  | nil => exact ⟨⟨l, h⟩, rfl, rfl, rfl, (fun _ he => by cases he), fun _ _ => rfl⟩
  | cons e tr ih =>
    obtain ⟨hlt, hsorted⟩ := pairwise_cons.mp hsorted
    obtain ⟨⟨h₀, h₁, h₂⟩, hfree⟩ := forall_mem_cons.mp hfree
    obtain ⟨l', h'⟩ := h.setSlot s base e ((h.mem _).mpr ⟨by omega, by omega, h₂⟩)
    have hne : ∀ a ∈ tr, (base + a.1).toNat ≠ (base + e.1).toNat := by
      intro a ha
      have := hlt a ha
      omega
    have hrest := ih h' hsorted fun a ha => by
      obtain ⟨ha₀, ha₁, ha₂⟩ := hfree a ha
      refine ⟨ha₀, ha₁, ?_⟩
      rw [CHFA.setSlot]
      dsimp only
      rw [update_of_ne (hne a ha), ha₂]
    rw [foldl_cons]
    refine ⟨hrest.free, hrest.size, hrest.defaultBase, hrest.num, ?_, fun p hp => ?_⟩
    · refine forall_mem_cons.mpr ⟨?_, hrest.own⟩
      rw [hrest.other _ fun a ha => (hne a ha).symm]
      exact update_self ..
    · rw [forall_mem_cons] at hp
      rw [hrest.other p hp.2]
      exact update_of_ne hp.1 _ _

def firstKey (m : CharMap ℕ) : ℤ := (m.toList.head?.map Prod.fst).getD 0

def word (d : DFA) (s base : ℕ) : ℕ := base ||| flags d s (firstKey (d.state s).trans)

structure Packed (d : DFA) (done : List ℕ) (base : ℕ → ℕ) (t : CHFA) : Prop where
  free : ∃ l, FreeInv t l
  size : d.maxRange ≤ t.size
  first : t.nextCheck 0 = some (d.nonmatching, d.nonmatching)
  owned : ∀ s ∈ done, ∀ (c : ℤ) target, (d.state s).trans[c]? = some target →
    0 < base s + c ∧ t.nextCheck (base s + c).toNat = some (target, s)
  owner : ∀ p target s, 0 < p → t.nextCheck p = some (target, s) →
    s ∈ done ∧ ∃ c : ℤ, (d.state s).trans[c]? = some target ∧ (p : ℤ) = base s + c
  inside : ∀ s ∈ done, base s + 255 < t.size
  num : t.num = d.nonmatching :: done
  zero : base d.nonmatching = 0
  table : t.defaultBase = (d.nonmatching, 0) :: done.map fun s => ((d.state s).otherwise, word d s (base s))

theorem sorted_toList (m : CharMap ℕ) : m.toList.Pairwise fun a b => a.1 < b.1 := by
  have h := m.ordered_keys_toList
  exact h.imp fun h => by simpa [compare_lt_iff_lt] using h

variable {d : DFA} {done : List ℕ} {base : ℕ → ℕ} {t : CHFA} {s : ℕ}

theorem Packed.insert (h : Packed d done base t) (hs : s ∉ d.nonmatching :: done) {t₁ t₂ : CHFA} {b : ℕ}
    (h₁ : Extends t t₁) (hin : b + 255 < t₁.size)
    (h₂ : Entered s b (d.state s).trans.toList t₁ t₂) (hpos : ∀ e ∈ (d.state s).trans.toList, 0 < b + e.1)
    (hfree : ∀ e ∈ (d.state s).trans.toList, t.nextCheck (b + e.1).toNat = none) :
    Packed d (done ++ [s]) (Function.update base s b) (CHFA.addNum
      { t₂ with defaultBase := t₂.defaultBase ++ [((d.state s).otherwise, word d s b)] } s) := by
  rw [mem_cons, not_or] at hs
  have hnum : t₂.num = d.nonmatching :: done := by rw [h₂.num, h₁.num, h.num]
  have hsize : t₂.size = t₁.size := h₂.size
  have hle := h₁.size
  have hbase : ∀ a ∈ done, update base s b a = base a := fun a ha =>
    update_of_ne (fun he : a = s => hs.2 (he ▸ ha)) _ _
  have hkeep : ∀ p, t.nextCheck p ≠ none → t₂.nextCheck p = t.nextCheck p := by
    intro p hp
    rw [h₂.other p fun e he heq => hp (heq ▸ hfree e he), h₁.nextCheck]
  have hadd : s ∉ t₂.num := by
    rw [hnum, mem_cons, not_or]
    exact hs
  rw [CHFA.addNum, if_neg hadd]
  refine ⟨?_, ?_, ?_, ?_, ?_, ?_, ?_, ?_, ?_⟩
  · obtain ⟨l, hl⟩ := h₂.free
    exact ⟨l, hl.holds, hl.mem, hl.beyond, hl.pos⟩
  · have := h.size
    dsimp only
    omega
  · have h₀ := h.first
    dsimp only
    rwa [hkeep 0 (by rw [h₀]; exact some_ne_none _)]
  · intro a ha c target htarget
    rcases mem_append.mp ha with ha | ha
    · obtain ⟨hp, ho⟩ := h.owned a ha c target htarget
      dsimp only
      rw [hbase a ha, hkeep _ (by rw [ho]; exact some_ne_none _)]
      exact ⟨hp, ho⟩
    · rw [mem_singleton] at ha
      subst ha
      have he := Std.ExtTreeMap.mem_toList_iff_getElem?_eq_some.mpr htarget
      rw [update_self]
      exact ⟨hpos _ he, h₂.own _ he⟩
  · intro p target a hp ha
    dsimp only at ha
    by_cases hex : ∃ e ∈ (d.state s).trans.toList, p = (b + e.1).toNat
    · obtain ⟨e, he, rfl⟩ := hex
      rw [h₂.own e he] at ha
      cases ha
      refine ⟨by simp, e.1, Std.ExtTreeMap.mem_toList_iff_getElem?_eq_some.mp he, ?_⟩
      have := hpos e he
      rw [update_self]
      omega
    · rw [h₂.other p fun e he heq => hex ⟨e, he, heq⟩, h₁.nextCheck] at ha
      obtain ⟨hmem, hc⟩ := h.owner p target a hp ha
      rw [hbase a hmem]
      exact ⟨mem_append_left _ hmem, hc⟩
  · intro a ha
    dsimp only
    rcases mem_append.mp ha with ha | ha
    · have := h.inside a ha
      rw [hbase a ha]
      omega
    · rw [mem_singleton.mp ha, update_self]
      omega
  · dsimp only
    rw [hnum, cons_append]
  · rw [update_of_ne (Ne.symm hs.1), h.zero]
  · dsimp only
    rw [h₂.defaultBase, h₁.defaultBase, h.table, map_append, cons_append, map_singleton,
      update_self]
    congr 2
    apply map_congr_left
    intro a ha
    rw [hbase a ha]

theorem addNum_size (t : CHFA) (s : ℕ) : (t.addNum s).size = t.size := by
  unfold addNum
  split_ifs <;> rfl

theorem addState_spec (h : Packed d done base t) (hs : s ∉ d.nonmatching :: done) (hub : d.upperBound = 256)
    (hrange : 256 ≤ d.maxRange)
    (hchars : ∀ (c : ℤ) target, (d.state s).trans[c]? = some target → -d.maxRange ≤ c ∧ c < 256) :
    ∃ t' b, addState d t s = some t' ∧ Packed d (done ++ [s]) (Function.update base s b) t' ∧
      t'.size ≤ t.size + (256 + d.maxRange).toNat := by
  have hsize := h.size
  obtain ⟨l, hl⟩ := h.free
  unfold addState insertState
  cases htr : (d.state s).trans.toList with
  | nil =>
    refine ⟨_, 0, rfl, ?_, by rw [addNum_size]; exact Nat.le_add_right _ _⟩
    have hword : word d s 0 = flags d s 0 := by
      rw [word, firstKey, htr, Nat.zero_or]
      rfl
    rw [← hword]
    have hext : Extends t t := ⟨rfl, rfl, rfl, le_rfl⟩
    refine h.insert hs hext (by omega) ?_ ?_ ?_
    · rw [htr]
      exact foldl_setSlot hl List.Pairwise.nil fun _ he => by cases he
    · rw [htr]
      exact fun _ he => by cases he
    · rw [htr]
      exact fun _ he => by cases he
  | cons e tr =>
    obtain ⟨c, target⟩ := e
    have hsorted := sorted_toList (d.state s).trans
    have hget : ∀ e ∈ (d.state s).trans.toList, (d.state s).trans[e.1]? = some e.2 := fun e he =>
      Std.ExtTreeMap.mem_toList_iff_getElem?_eq_some.mp he
    rw [htr] at hsorted hget
    obtain ⟨hlo, hhi⟩ := hchars c target (hget _ mem_cons_self)
    obtain ⟨t₁, x, l₁, hfind, hext, hl₁, hx, hfit, hin, hgrown⟩ := findPos_spec hl hsorted (by omega) hhi (by omega)
    have hxc := hfit.1
    have hle : ∀ e ∈ (c, target) :: tr, c ≤ e.1 := by
      intro e he
      rcases mem_cons.mp he with rfl | he
      · exact le_rfl
      · exact ((pairwise_cons.mp hsorted).1 e he).le
    have hb : ((x : ℤ) - c).toNat = (x : ℤ) - c := Int.toNat_of_nonneg (by omega)
    dsimp only
    rw [hub, hfind]
    have hentered : Entered s ((x : ℤ) - c) ((c, target) :: tr) t₁ (((c, target) :: tr).foldl (setSlot s ((x : ℤ) - c)) t₁) := by
      apply foldl_setSlot hl₁ hsorted
      intro e he
      have h₁ := hle e he
      have h₂ := (hchars e.1 e.2 (hget e he)).2
      refine ⟨by omega, by omega, ?_⟩
      rw [hext.nextCheck]
      exact hfit.2 e he
    have hentered_size := hentered.size
    refine ⟨_, ((x : ℤ) - c).toNat, rfl, ?_, by rw [addNum_size]; dsimp only; omega⟩
    have hword : word d s ((x : ℤ) - c).toNat = ((x : ℤ) - c).toNat ||| flags d s c := by
      rw [word, firstKey, htr]
      rfl
    rw [← hword]
    refine h.insert hs hext (by omega) ?_ ?_ ?_
    · rw [htr, hb]
      exact hentered
    · intro e he
      rw [htr] at he
      have := hle e he
      omega
    · rw [htr, hb]
      exact hfit.2

end Insert

end CHFA

structure DFA.Packable (d : DFA) : Prop extends d.Closed where
  start_ne : d.start ≠ d.nonmatching
  nonmatching_trans : (d.state d.nonmatching).trans = ∅
  nonmatching_otherwise : (d.state d.nonmatching).otherwise = d.nonmatching
  nonmatching_diff : (d.state d.nonmatching).diff = false
  upperBound : d.upperBound = 256
  maxRange : 256 ≤ d.maxRange
  chars : ∀ s ∈ d.states, ∀ (c : ℤ) target, (d.state s).trans[c]? = some target → -d.maxRange ≤ c ∧ c < 256
  chain : ∀ s ∈ d.states, ∀ c : ℤ, 0 ≤ c → c < 256 → (d.next s c).isSome

theorem DFA.packable_iff (d : DFA) : d.Packable ↔
    (d.states.Nodup ∧ d.start ∈ d.states ∧ d.nonmatching ∈ d.states ∧ d.start ≠ d.nonmatching ∧
      (d.state d.nonmatching).trans.toList = [] ∧ (d.state d.nonmatching).otherwise = d.nonmatching ∧
      (d.state d.nonmatching).diff = false ∧ d.upperBound = 256 ∧ 256 ≤ d.maxRange) ∧
    ∀ s ∈ d.states, (d.state s).otherwise ∈ d.states ∧
      (∀ e ∈ (d.state s).trans.toList, e.2 ∈ d.states ∧ -d.maxRange ≤ e.1 ∧ e.1 < 256) ∧
      ∀ c ∈ List.range 256, (d.next s c).isSome := by
  constructor
  · intro h
    have htrans : (d.state d.nonmatching).trans.toList = [] := by
      rw [h.nonmatching_trans]
      rfl
    refine ⟨⟨h.nodup, h.start, h.nonmatching, h.start_ne, htrans, h.nonmatching_otherwise, h.nonmatching_diff, h.upperBound,
      h.maxRange⟩, fun s hs => ⟨h.otherwise s hs, fun e he => ?_, fun c hc => ?_⟩⟩
    · have hget := Std.ExtTreeMap.mem_toList_iff_getElem?_eq_some.mp he
      exact ⟨h.trans s hs e.1 e.2 hget, h.chars s hs e.1 e.2 hget⟩
    · have := mem_range.mp hc
      exact h.chain s hs c (by omega) (by omega)
  · rintro ⟨⟨hnd, hstart, hnm, hne, htrans, hother, hdiff, hub, hrange⟩, hall⟩
    have hempty : (d.state d.nonmatching).trans = ∅ := by
      apply Std.ExtTreeMap.ext_getElem?
      intro c
      rw [Std.ExtTreeMap.getElem?_empty, eq_none_iff_forall_ne_some]
      intro target ht
      have hmem := Std.ExtTreeMap.mem_toList_iff_getElem?_eq_some.mpr ht
      rw [htrans] at hmem
      cases hmem
    refine ⟨⟨hnd, hstart, hnm, fun s hs => (hall s hs).1, fun s hs c target ht => ?_⟩, hne, hempty, hother, hdiff, hub,
      hrange, fun s hs c target ht => ?_, fun s hs c h₀ h₁ => ?_⟩
    · exact ((hall s hs).2.1 _ (Std.ExtTreeMap.mem_toList_iff_getElem?_eq_some.mpr ht)).1
    · exact ((hall s hs).2.1 _ (Std.ExtTreeMap.mem_toList_iff_getElem?_eq_some.mpr ht)).2
    · have hc := (hall s hs).2.2 c.toNat (mem_range.mpr (by omega))
      rwa [Int.toNat_of_nonneg h₀] at hc

instance (d : DFA) : Decidable d.Packable := decidable_of_iff _ d.packable_iff.symm

namespace CHFA

variable {d : DFA}

theorem mem_insertOrder {transHigh : Bool} {s : ℕ} :
    s ∈ insertOrder d transHigh ↔ s ∈ d.states ∧ s ≠ d.start ∧ s ≠ d.nonmatching := by
  unfold insertOrder
  dsimp only
  split_ifs
  · rw [(perm_insertionSort ..).mem_iff]
    simp
  · simp

theorem insertOrder_nodup (h : d.states.Nodup) (transHigh : Bool) : (insertOrder d transHigh).Nodup := by
  unfold insertOrder
  dsimp only
  split_ifs
  · exact (perm_insertionSort ..).nodup_iff.mpr (h.filter _)
  · exact h.filter _

def packOrder (d : DFA) (transHigh : Bool) : List ℕ := d.start :: insertOrder d transHigh

theorem mem_packOrder (h : d.Packable) (transHigh : Bool) {s : ℕ} :
    s ∈ d.nonmatching :: packOrder d transHigh ↔ s ∈ d.states := by
  rw [packOrder, mem_cons, mem_cons, mem_insertOrder]
  constructor
  · rintro (rfl | rfl | hs)
    · exact h.nonmatching
    · exact h.start
    · exact hs.1
  · intro hs
    by_cases h₁ : s = d.nonmatching
    · exact Or.inl h₁
    · by_cases h₂ : s = d.start
      · exact Or.inr (Or.inl h₂)
      · exact Or.inr (Or.inr ⟨hs, h₂, h₁⟩)

theorem packOrder_nodup (h : d.Packable) (transHigh : Bool) : (d.nonmatching :: packOrder d transHigh).Nodup := by
  rw [packOrder, nodup_cons, nodup_cons, mem_cons, mem_insertOrder, mem_insertOrder]
  have := h.start_ne
  refine ⟨?_, ?_, insertOrder_nodup h.nodup transHigh⟩
  · rintro (he | ⟨-, -, he⟩)
    · exact this he.symm
    · exact he rfl
  · rintro ⟨-, he, -⟩
    exact he rfl

theorem initial_packed (h : d.Packable) : Packed d [] (fun _ => 0) (initial d) := by
  have hrange := h.maxRange
  have hsize : 1 < (initial d).size ∧ d.maxRange ≤ (initial d).size := by
    unfold initial
    dsimp only
    omega
  have hempty : Holds ⟨0, fun _ => 0, fun _ => 0⟩ [] := ⟨rfl, trivial, (fun _ h => by cases h), List.Pairwise.nil⟩
  have hholds := hempty.append (fun _ h => by cases h) Nat.one_pos hsize.1
  have hfirst : (initial d).nextCheck 0 = some (d.nonmatching, d.nonmatching) := by
    simp [initial]
  have hcheck : ∀ p, p ≠ 0 → (initial d).nextCheck p = none := by
    intro p hp
    simp [initial, hp]
  refine ⟨⟨_, hholds, fun p => ?_, fun p hp => hcheck p (by omega), by omega⟩, hsize.2, hfirst, ?_, ?_, ?_, rfl,
    rfl, rfl⟩
  · rw [nil_append, mem_range'_1]
    constructor
    · exact fun hp => ⟨hp.1, by omega, hcheck p (by omega)⟩
    · exact fun hp => ⟨hp.1, by omega⟩
  · exact fun _ h => by cases h
  · intro p target s hp hs
    rw [hcheck p hp.ne'] at hs
    cases hs
  · exact fun _ h => by cases h

theorem foldlM_addState (h : d.Packable) {done l : List ℕ} {base : ℕ → ℕ} {t : CHFA} (hp : Packed d done base t)
    (hnd : (d.nonmatching :: (done ++ l)).Nodup) (hl : ∀ s ∈ l, s ∈ d.states) :
    ∃ t' base', l.foldlM (addState d) t = some t' ∧ Packed d (done ++ l) base' t' ∧
      t'.size ≤ t.size + l.length * (256 + d.maxRange).toNat := by
  induction l generalizing done base t with
  | nil =>
    rw [append_nil]
    exact ⟨t, base, rfl, hp, Nat.le_add_right _ _⟩
  | cons s l ih =>
    have hs : s ∉ d.nonmatching :: done := by
      rw [← cons_append, nodup_append] at hnd
      exact fun hs => hnd.2.2 s hs s mem_cons_self rfl
    obtain ⟨t₁, b, hadd, hp₁, hgrown₁⟩ := addState_spec hp hs h.upperBound h.maxRange (h.chars s (hl s mem_cons_self))
    rw [append_cons] at hnd ⊢
    obtain ⟨t', base', hrun, hp', hgrown⟩ := ih hp₁ hnd fun a ha => hl a (mem_cons_of_mem s ha)
    refine ⟨t', base', ?_, hp', ?_⟩
    · rw [foldlM_cons, hadd]
      exact hrun
    · rw [length_cons, Nat.succ_mul]
      omega

theorem chfa_packed_size (h : d.Packable) (transHigh : Bool) :
    ∃ t base, d.chfa transHigh = some t ∧ Packed d (packOrder d transHigh) base t ∧
      t.size ≤ (initial d).size + (packOrder d transHigh).length * (256 + d.maxRange).toNat := by
  refine foldlM_addState h (initial_packed h) (packOrder_nodup h transHigh) fun s hs => ?_
  exact (mem_packOrder h _).mp (mem_cons_of_mem _ hs)

theorem chfa_packed (h : d.Packable) (transHigh : Bool) :
    ∃ t base, d.chfa transHigh = some t ∧ Packed d (packOrder d transHigh) base t := by
  obtain ⟨t, base, ht, hp, -⟩ := chfa_packed_size h transHigh
  exact ⟨t, base, ht, hp⟩

end CHFA

end AppArmor

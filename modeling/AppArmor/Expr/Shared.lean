import AppArmor.Expr.Compare
import AppArmor.Expr.Local

namespace AppArmor

open Glushkov List Finset Function

namespace Node

def refs {α : Type} (addr : ℕ) : Node α → ℕ
  | .eps => 0
  | .cnode _ => 0
  | .accept _ => 0
  | .star t => refs addr t
  | .optional t => refs addr t
  | .plus t => refs addr t
  | .cat ts => refsList ts
  | .alt ts => refsList ts
  | .sharedTree a _ => if a = addr then 1 else 0
where
  refsList : List (Node α) → ℕ
    | [] => 0
    | t :: ts => refs addr t + refsList ts

end Node

section Cached

variable {env : ℕ → Node Pos} {refcount k : ℕ → ℕ} {s : PosState}

/-- The caches after `k` references to each of the shared trees: nothing before the first one, and after the last one
nothing is known any more. -/
structure Cached (env : ℕ → Node Pos) (refcount k : ℕ → ℕ) (s : PosState) : Prop where
  fresh : ∀ a, k a = 0 → s.shared a = ⟨false, false, 0, ∅, ∅⟩
  used : ∀ a, 0 < k a → k a < refcount a →
    s.shared a = ⟨true, (env a).posInfo.nullable, k a, (env a).posInfo.first, (env a).posInfo.last⟩
  follow : ∀ a, 0 < k a → ∀ p, (env a).posInfo.follow p ⊆ s.followpos p

theorem Cached.clear : Cached env refcount (fun _ => 0) PosState.clear :=
  ⟨fun _ _ => rfl, fun _ h => absurd h (lt_irrefl 0), fun _ h => absurd h (lt_irrefl 0)⟩

theorem Cached.withFollow (h : Cached env refcount k s) (g : ImportantNode → NodeSet) :
    Cached env refcount k (s.withFollow g) :=
  ⟨h.fresh, h.used, fun a ha p => (h.follow a ha p).trans subset_union_left⟩

/-- What `compute_pos` has to return, and the caches it has to leave, for a tree with positions `i` that makes `n`
references. -/
structure PosResult.Shows (env : ℕ → Node Pos) (refcount n : ℕ → ℕ) (i : PosInfo ImportantNode) (f l : NodeSet)
    (s : PosState) (r : PosResult) : Prop where
  nullable : r.nullable = i.nullable
  first : r.firstpos = f ∪ i.first
  last : r.lastpos = l ∪ i.last
  followpos : ∀ p, r.state.followpos p = s.followpos p ∪ i.follow p
  cached : Cached env refcount n r.state

namespace Node

def Shown (env : ℕ → Node Pos) (refcount : ℕ → ℕ) (t : Node Pos) : Prop :=
  ∀ (k : ℕ → ℕ) (f l : NodeSet) (s : PosState), Cached env refcount k s → (∀ a, k a + t.refs a ≤ refcount a) →
    (t.computePos refcount f l s).Shows env refcount (fun a => k a + t.refs a) t.posInfo f l s

variable {t : Node Pos} {ts : List (Node Pos)} {i : PosInfo ImportantNode} {f l : NodeSet} {s₀ : PosState}

theorem SharedFree.refs_eq {α : Type} {t : Node α} (h : SharedFree t) (addr : ℕ) : t.refs addr = 0 := by
  have hlist : ∀ ts : List (Node α), (∀ t ∈ ts, t.refs addr = 0) → refs.refsList addr ts = 0 := by
    intro ts ih
    induction ts with
    | nil => rfl
    | cons t ts iht =>
      rw [refs.refsList, ih t (by simp), iht fun u hu => ih u (mem_cons_of_mem _ hu)]
  induction h with
  | star _ ih | optional _ ih | plus _ ih => exact ih
  | cat _ ih | alt _ ih => exact hlist _ ih
  | _ => rfl

theorem SharedFree.shown (h : SharedFree t) : Shown env refcount t := by
  intro k f l s hs _
  simp only [h.refs_eq, computePos_eq h]
  exact ⟨rfl, rfl, rfl, fun _ => rfl, hs.withFollow _⟩

theorem shown_sharedTree {a : ℕ} (ht : (env a).SharedFree) : Shown env refcount (.sharedTree a (env a)) := by
  intro k f l s hs hle
  have href : ∀ b, (sharedTree a (env a)).refs b = if a = b then 1 else 0 := fun b => rfl
  have hle := hle a
  rw [href, if_pos rfl] at hle
  have hother : ∀ {b}, a ≠ b → k b + (sharedTree a (env a)).refs b = k b := by
    intro b hb
    rw [href, if_neg hb, Nat.add_zero]
  have hself : k a + (sharedTree a (env a)).refs a = k a + 1 := by rw [href, if_pos rfl]
  -- the caches are right as soon as that of `a` is
  have hcached : ∀ (s' : PosState) (c : SharedCache), s'.shared = update s.shared a c →
      (∀ p, s'.followpos p = s.followpos p ∪ (env a).posInfo.follow p) →
      (k a + 1 < refcount a →
        c = ⟨true, (env a).posInfo.nullable, k a + 1, (env a).posInfo.first, (env a).posInfo.last⟩) →
      Cached env refcount (fun b => k b + (sharedTree a (env a)).refs b) s' := by
    intro s' c hshared hfollow hc
    refine ⟨fun b hb => ?_, fun b hb hlt => ?_, fun b hb p => ?_⟩
    · rcases eq_or_ne a b with rfl | hne
      · omega
      · rw [hother hne] at hb
        rw [hshared, update_of_ne hne.symm, hs.fresh b hb]
    · rcases eq_or_ne a b with rfl | hne
      · rw [hself] at hlt
        rw [hshared, update_self, hc hlt, hself]
      · rw [hother hne] at hb hlt ⊢
        rw [hshared, update_of_ne hne.symm, hs.used b hb hlt]
    · rw [hfollow]
      rcases eq_or_ne a b with rfl | hne
      · exact subset_union_right
      · rw [hother hne] at hb
        exact (hs.follow b hb p).trans subset_union_left
  rw [computePos]
  rcases Nat.eq_zero_or_pos (k a) with hk | hk
  · have hshared := hs.fresh a hk
    rw [hshared, if_neg Bool.false_ne_true, computePos_eq ht]
    simp only [posResult, PosResult.cache, PosState.reference, PosState.withFollow, hshared, empty_union,
      update_self, update_idem]
    refine ⟨rfl, rfl, rfl, fun _ => rfl, hcached _ _ rfl (fun _ => rfl) fun hlt => ?_⟩
    rw [if_neg (by omega), hk]
  · have hshared := hs.used a hk (by omega)
    have hfollow : ∀ p, s.followpos p ∪ (env a).posInfo.follow p = s.followpos p :=
      fun p => union_eq_left.mpr (hs.follow a hk p)
    rw [hshared, if_pos rfl]
    simp only [PosState.reference, hshared]
    refine ⟨rfl, rfl, rfl, fun p => (hfollow p).symm, hcached _ _ rfl (fun p => (hfollow p).symm) fun hlt => ?_⟩
    rw [if_neg (by omega)]

theorem catLoop_shows (ih : ∀ t ∈ ts, Shown env refcount t) (hs : Cached env refcount k s)
    (hfollow : ∀ p, s.followpos p = s₀.followpos p ∪ i.follow p) (hle : ∀ a, k a + refs.refsList a ts ≤ refcount a) :
    (computePos.catLoop refcount ts i.nullable (f ∪ i.first) i.last l s).Shows env refcount
      (fun a => k a + refs.refsList a ts) (posInfo.catInfo ts i) f l s₀ := by
  induction ts generalizing i k s with
  | nil => exact ⟨rfl, rfl, rfl, hfollow, hs⟩
  | cons t ts iht =>
    simp only [refs.refsList] at hle
    have hr := ih t (by simp) k ∅ ∅ s hs fun a => by have := hle a; omega
    have hfirst := hr.first
    have hlast := hr.last
    rw [empty_union] at hfirst hlast
    rw [computePos.catLoop, posInfo.catInfo, hr.nullable, hfirst, hlast]
    have hcat : (i.cat t.posInfo).nullable = (i.nullable && t.posInfo.nullable) := rfl
    have hf : (if i.nullable = true then f ∪ i.first ∪ t.posInfo.first else f ∪ i.first) = f ∪ (i.cat t.posInfo).first := by
      simp only [PosInfo.cat]
      split_ifs
      · exact union_assoc _ _ _
      · rw [union_empty]
    have hl : (if t.posInfo.nullable = true then t.posInfo.last ∪ i.last else t.posInfo.last) =
        (i.cat t.posInfo).last := by
      simp only [PosInfo.cat]
      split_ifs
      · exact union_comm _ _
      · exact (empty_union _).symm
    rw [← hcat, hf, hl]
    have hnext := iht (fun u hu => ih u (mem_cons_of_mem _ hu)) (i := i.cat t.posInfo)
      (s := (t.computePos refcount ∅ ∅ s).state.addFollow i.last t.posInfo.first)
      (by rw [PosState.addFollow_eq]; exact hr.cached.withFollow _) ?_ fun a => by have := hle a; omega
    · simpa only [refs.refsList, ← Nat.add_assoc] using hnext
    · intro p
      rw [PosState.addFollow_eq]
      simp only [PosState.withFollow, hr.followpos, hfollow, PosInfo.cat, union_assoc]

theorem altLoop_shows (ih : ∀ t ∈ ts, Shown env refcount t) (hs : Cached env refcount k s)
    (hle : ∀ a, k a + refs.refsList a ts ≤ refcount a) (b : Bool) :
    ((computePos.altLoop refcount ts b f l s).Shows env refcount (fun a => k a + refs.refsList a ts)
      { posInfo.altInfo ts with nullable := b || (posInfo.altInfo ts).nullable } f l s) := by
  induction ts generalizing b k s f l with
  | nil => exact ⟨by simp [computePos.altLoop, posInfo.altInfo, PosInfo.empty],
      by simp [computePos.altLoop, posInfo.altInfo, PosInfo.empty],
      by simp [computePos.altLoop, posInfo.altInfo, PosInfo.empty],
      by simp [computePos.altLoop, posInfo.altInfo, PosInfo.empty], hs⟩
  | cons t ts iht =>
    simp only [refs.refsList] at hle
    have hr := ih t (by simp) k f l s hs fun a => by have := hle a; omega
    have hnext := iht (fun u hu => ih u (mem_cons_of_mem _ hu)) (f := (t.computePos refcount f l s).firstpos)
      (l := (t.computePos refcount f l s).lastpos) hr.cached (fun a => by have := hle a; omega)
      (b || (t.computePos refcount f l s).nullable)
    rw [computePos.altLoop]
    refine ⟨?_, ?_, ?_, fun p => ?_, ?_⟩
    · rw [hnext.nullable, hr.nullable, posInfo.altInfo, PosInfo.alt, Bool.or_assoc]
    · rw [hnext.first, hr.first, posInfo.altInfo, PosInfo.alt, union_assoc]
    · rw [hnext.last, hr.last, posInfo.altInfo, PosInfo.alt, union_assoc]
    · rw [hnext.followpos, hr.followpos, posInfo.altInfo, PosInfo.alt, union_assoc]
    · simpa only [refs.refsList, ← Nat.add_assoc] using hnext.cached

theorem computePos_shown (henv : ∀ a, (env a).SharedFree) (ht : Coherent env t) : Shown env refcount t := by
  induction t with
  | eps => exact SharedFree.eps.shown
  | cnode p => exact (SharedFree.cnode p).shown
  | accept m => exact (SharedFree.accept m).shown
  | sharedTree a t _ =>
    obtain rfl : t = env a := ht
    exact shown_sharedTree (henv a)
  | star t ih =>
    intro k f l s hs hle
    have hr := ih ht k ∅ ∅ s hs hle
    rw [computePos, PosState.addFollow_eq]
    refine ⟨rfl, by rw [hr.first, empty_union]; rfl, by rw [hr.last, empty_union]; rfl, fun p => ?_,
      hr.cached.withFollow _⟩
    simp only [PosState.withFollow, hr.followpos, hr.first, hr.last, empty_union, union_assoc]
    rfl
  | plus t ih =>
    intro k f l s hs hle
    have hr := ih ht k ∅ ∅ s hs hle
    rw [computePos, PosState.addFollow_eq]
    refine ⟨hr.nullable, by rw [hr.first, empty_union]; rfl, by rw [hr.last, empty_union]; rfl, fun p => ?_,
      hr.cached.withFollow _⟩
    simp only [PosState.withFollow, hr.followpos, hr.first, hr.last, empty_union, union_assoc]
    rfl
  | optional t ih =>
    intro k f l s hs hle
    have hr := ih ht k f l s hs hle
    exact ⟨rfl, hr.first, hr.last, hr.followpos, hr.cached⟩
  | alt ts ih =>
    intro k f l s hs hle
    have hr := altLoop_shows (f := f) (l := l) (fun t h => ih t h (coherent_alt.mp ht t h)) hs hle false
    exact ⟨hr.nullable.trans (Bool.false_or _), hr.first, hr.last, hr.followpos, hr.cached⟩
  | cat ts ih =>
    intro k f l s hs hle
    have ih' := fun t h => ih t h (coherent_cat.mp ht t h)
    cases ts with
    | nil => exact ⟨rfl, (union_empty f).symm, (union_empty l).symm, fun _ => (union_empty _).symm, hs⟩
    | cons t ts =>
      have hle' : ∀ a, k a + (t.refs a + refs.refsList a ts) ≤ refcount a := hle
      have hr := ih' t (by simp) k f ∅ s hs fun a => by have := hle' a; omega
      have hloop := catLoop_shows (i := t.posInfo) (f := f) (l := l)
        (fun u hu => ih' u (mem_cons_of_mem _ hu)) hr.cached hr.followpos fun a => by have := hle' a; omega
      have hlast := hr.last
      rw [empty_union] at hlast
      rw [computePos, computePos.computeCat, hr.nullable, hr.first, hlast, posInfo, posInfo.catInfo, eps_cat]
      simp only [Nat.add_assoc] at hloop
      exact hloop

theorem computePos_shared (henv : ∀ a, (env a).SharedFree) (ht : Coherent env t) (hle : ∀ a, t.refs a ≤ refcount a) :
    (t.computePos refcount ∅ ∅ PosState.clear).firstpos = t.posInfo.first ∧
      (t.computePos refcount ∅ ∅ PosState.clear).state.followpos = t.posInfo.follow := by
  have h := computePos_shown henv ht (fun _ => 0) ∅ ∅ PosState.clear Cached.clear (by simpa using hle)
  refine ⟨h.first.trans (empty_union _), funext fun p => (h.followpos p).trans ?_⟩
  exact empty_union _

end Node

end Cached

end AppArmor

import AppArmor.Lib.Fuel
import Mathlib.Data.List.Basic
import Mathlib.Tactic

namespace AppArmor.Worklist

open Fuel List

variable {K : Type}

inductive Reach (succ : K → Option (List K)) (start : List K) : K → Prop
  | start {k} : k ∈ start → Reach succ start k
  | step {k c cs} : Reach succ start k → succ k = some cs → c ∈ cs → Reach succ start c

variable {succ : K → Option (List K)} {start todo seen : List K}

structure Walking (succ : K → Option (List K)) (start todo seen : List K) : Prop where
  reach : ∀ k, k ∈ seen ∨ k ∈ todo → Reach succ start k
  start : ∀ k ∈ start, k ∈ seen ∨ k ∈ todo
  closed : ∀ k ∈ seen, ∃ cs, succ k = some cs ∧ ∀ c ∈ cs, c ∈ seen ∨ c ∈ todo

def Ends (succ : K → Option (List K)) (start : List K) : Option (List K) → Prop
  | some seen => ∀ k, (k ∈ seen ↔ Reach succ start k) ∧ (k ∈ seen → succ k ≠ none)
  | none => ∃ k, Reach succ start k ∧ succ k = none

theorem Walking.skip {k : K} (h : Walking succ start (k :: todo) seen) (hk : k ∈ seen) : Walking succ start todo seen where
  reach c hc := h.reach c (hc.imp_right (mem_cons_of_mem k))
  start c hc := by
    rcases h.start c hc with hs | ht
    · exact .inl hs
    · rcases mem_cons.mp ht with rfl | ht
      · exact .inl hk
      · exact .inr ht
  closed c hc := by
    obtain ⟨cs, hcs, hall⟩ := h.closed c hc
    refine ⟨cs, hcs, fun d hd => ?_⟩
    rcases hall d hd with hs | ht
    · exact .inl hs
    · rcases mem_cons.mp ht with rfl | ht
      · exact .inl hk
      · exact .inr ht

theorem Walking.done (h : Walking succ start [] seen) : Ends succ start (some seen) := by
  intro k
  refine ⟨⟨fun hk => h.reach k (.inl hk), fun hr => ?_⟩, fun hk hnone => ?_⟩
  · induction hr with
    | start hk => exact (h.start _ hk).resolve_right not_mem_nil
    | step hr hsucc hc ih =>
      obtain ⟨cs, hcs, hall⟩ := h.closed _ ih
      rw [hsucc, Option.some.injEq] at hcs
      exact (hall _ (hcs ▸ hc)).resolve_right not_mem_nil
  · obtain ⟨cs, hcs, -⟩ := h.closed k hk
    rw [hnone] at hcs
    cases hcs

variable [DecidableEq K]

/-- The keys taken from `todo` that were not seen before, with their successors; the inner `none` is a key without an entry. -/
def walk (succ : K → Option (List K)) : ℕ → List K → List K → Option (Option (List K))
  | 0, _, _ => none
  | _ + 1, [], seen => some (some seen)
  | fuel + 1, k :: todo, seen =>
    if k ∈ seen then walk succ fuel todo seen
    else
      match succ k with
      | none => some none
      | some cs => walk succ fuel (todo ++ cs.filter (· ∉ seen ++ [k])) (seen ++ [k])

theorem Walking.take {k : K} {cs : List K} (h : Walking succ start (k :: todo) seen) (hk : succ k = some cs) :
    Walking succ start (todo ++ cs.filter (· ∉ seen ++ [k])) (seen ++ [k]) := by
  have hreach := h.reach k (.inr mem_cons_self)
  have hpending : ∀ c, c ∈ seen ∨ c ∈ k :: todo → c ∈ seen ++ [k] ∨ c ∈ todo ++ cs.filter (· ∉ seen ++ [k]) := by
    intro c hc
    rcases hc with hs | ht
    · exact .inl (mem_append_left _ hs)
    · rcases mem_cons.mp ht with rfl | ht
      · exact .inl (mem_append_right _ mem_cons_self)
      · exact .inr (mem_append_left _ ht)
  refine ⟨?_, fun c hc => hpending c (h.start c hc), ?_⟩
  · rintro c (hc | hc)
    · rcases mem_append.mp hc with hs | hck
      · exact h.reach c (.inl hs)
      · rw [mem_singleton.mp hck]
        exact hreach
    · rcases mem_append.mp hc with ht | hcs
      · exact h.reach c (.inr (mem_cons_of_mem k ht))
      · exact hreach.step hk (mem_of_mem_filter hcs)
  · intro c hc
    rcases mem_append.mp hc with hs | hck
    · obtain ⟨ds, hds, hall⟩ := h.closed c hs
      exact ⟨ds, hds, fun d hd => hpending d (hall d hd)⟩
    · rw [mem_singleton.mp hck]
      refine ⟨cs, hk, fun d hd => ?_⟩
      by_cases hd' : d ∈ seen ++ [k]
      · exact .inl hd'
      · exact .inr (mem_append_right _ (mem_filter.mpr ⟨hd, by simpa using hd'⟩))

theorem walk_returns {keys : List K} (hkeys : ∀ k, succ k ≠ none → k ∈ keys) (h : Walking succ start todo seen) :
    ∃ r, Returns (walk succ · todo seen) r ∧ Ends succ start r := by
  -- a key that is taken is no longer counted, and the others shorten the list
  induction hn : (keys.toFinset \ seen.toFinset).card using Nat.strong_induction_on generalizing todo seen with
  | _ n ih =>
    subst hn
    induction todo with
    | nil => exact ⟨some seen, Returns.step (Returns.pure _), h.done⟩
    | cons k todo ih' =>
      by_cases hk : k ∈ seen
      · obtain ⟨r, hr, hend⟩ := ih' (h.skip hk)
        refine ⟨r, Returns.step (hr.congr fun fuel => ?_), hend⟩
        rw [walk, if_pos hk]
      · cases hsucc : succ k with
        | none =>
          refine ⟨none, Returns.step ((Returns.pure _).congr fun fuel => ?_),
            k, h.reach k (.inr mem_cons_self), hsucc⟩
          rw [walk, if_neg hk, hsucc]
        | some cs =>
          have hlt : (keys.toFinset \ (seen ++ [k]).toFinset).card < (keys.toFinset \ seen.toFinset).card := by
            apply Finset.card_lt_card
            rw [Finset.ssubset_iff_of_subset]
            · have hmem := hkeys k (by rw [hsucc]; exact Option.some_ne_none cs)
              exact ⟨k, by simp [hmem, hk], by simp⟩
            · intro c
              simp only [Finset.mem_sdiff, mem_toFinset, mem_append]
              exact fun hc => ⟨hc.1, fun hs => hc.2 (.inl hs)⟩
          obtain ⟨r, hr, hend⟩ := ih _ hlt (h.take hsucc) rfl
          refine ⟨r, Returns.step (hr.congr fun fuel => ?_), hend⟩
          rw [walk, if_neg hk, hsucc]

end AppArmor.Worklist

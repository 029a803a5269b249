import AppArmor.Hfa.MinimizeCorrect
import AppArmor.Hfa.Recognize

namespace AppArmor

open Build

variable {u : NodeSet} {order : IterOrder u} {filedfa : Bool} {first : NodeSet}
  {followpos : ImportantNode → NodeSet} {d : DFA}

theorem Built.mem_states (h : Built order filedfa first followpos d) {i : ℕ} : i ∈ d.states ↔ i < d.states.length := by
  conv_lhs => rw [h.states]
  exact List.mem_range

theorem Built.unencoded (h : Built order filedfa first followpos d) : d.Unencoded where
  nodup := by
    rw [h.states]
    exact List.nodup_range
  start := h.mem_states.mpr h.start_lt
  nonmatching := h.mem_states.mpr h.nonmatching_lt
  otherwise := fun i hi => h.mem_states.mpr (h.otherwise_lt i (h.mem_states.mp hi))
  trans := fun i hi c t ht => h.mem_states.mpr (h.trans i (h.mem_states.mp hi) c t ht).1
  diff := h.diff
  label := fun i _ => by
    have := h.label i
    omega
  uncovered := fun i hi c t ht => (h.trans i (h.mem_states.mp hi) c t ht).2.2

theorem build_unencoded {refcount : ℕ → ℕ} {root : Node Pos} {order : IterOrder root.positions}
    (hd : DFA.build refcount root order filedfa = .ok d) : d.Unencoded := by
  rcases build_spec refcount root order filedfa with ⟨he, _⟩ | ⟨d', hok, h⟩
  · rw [he] at hd
    cases hd
  · rw [hok] at hd
    cases hd
    exact h.unencoded

/-- Minimization keeps the permissions every word leads to, and merges all states but the start state that have
the same permissions and the same successors on all characters, bytes or not. -/
theorem minimize_preserves_coarsest {refcount : ℕ → ℕ} {root : Node Pos} {order : IterOrder root.positions}
    (hd : DFA.build refcount root order filedfa = .ok d) :
    ∃ d', d.minimize = .ok d' ∧
      (∀ w : List ℤ, ∃ s s', d.matchLen d.start w = some s ∧ d'.matchLen d'.start w = some s' ∧
        (d'.state s').perms = (d.state s).perms) ∧
      ∀ s ∈ d'.states, ∀ t ∈ d'.states, s ≠ d'.start → t ≠ d'.start → (d'.state s).perms = (d'.state t).perms →
        (∀ c : ℤ, d'.next s c = d'.next t c) → s = t := by
  have hun := build_unencoded hd
  obtain ⟨d', rep, hok, h⟩ := minimize_spec hun
  have hun' := h.unencoded hun
  refine ⟨d', hok, fun w => ?_, fun s hs t ht hss hts hperms hnext => ?_⟩
  · refine ⟨_, _, DFA.matchLen_eq_foldl hun.diff d.start w, DFA.matchLen_eq_foldl hun'.diff d'.start w, ?_⟩
    rw [h.start, h.foldl_delta hun.toClosed hun.start, h.perms_rep]
    exact Refine.foldl_mem (fun i hi c => hun.delta hi c) hun.start w
  · refine h.coarsest hun.toClosed hs ht hss hts hperms fun c => ?_
    have hc := hnext c
    rwa [DFA.next_eq_delta (hun'.diff s), DFA.next_eq_delta (hun'.diff t), Option.some_inj] at hc

theorem twoRules_minimized : ∃ d, DFA.build (fun _ => 0) twoRules twoRules.leafOrder true = .ok d ∧
    ∃ d', d.minimize = .ok d' ∧
      (∀ w : List ℤ, ∃ s s', d.matchLen d.start w = some s ∧ d'.matchLen d'.start w = some s' ∧
        (d'.state s').perms = (d.state s).perms) ∧
      ∀ s ∈ d'.states, ∀ t ∈ d'.states, s ≠ d'.start → t ≠ d'.start → (d'.state s).perms = (d'.state t).perms →
        (∀ c : ℤ, d'.next s c = d'.next t c) → s = t := by
  obtain ⟨d, hd⟩ := twoRules_built
  exact ⟨d, hd, minimize_preserves_coarsest hd⟩

def twoOobs : Node Pos :=
  .cat [.alt [.cat [.cnode ⟨0, .char 97⟩, .cnode ⟨1, .char (-1)⟩], .cat [.cnode ⟨2, .char 98⟩, .cnode ⟨3, .char (-2)⟩]],
    .accept ⟨.allow, 0, Perm.mayRead, 0, 0⟩]

def DFA.buildMinimized (refcount : ℕ → ℕ) (root : Node Pos) (order : IterOrder root.positions) (filedfa : Bool) :
    Option DFA := (DFA.build refcount root order filedfa).toOption.bind fun d => d.minimize.toOption

theorem twoOobs_not_merged : ∃ d', DFA.buildMinimized (fun _ => 0) twoOobs twoOobs.leafOrder true = some d' ∧
    ∃ s ∈ d'.states, ∃ t ∈ d'.states, s ≠ t ∧ s ∉ [d'.start, d'.nonmatching] ∧ t ∉ [d'.start, d'.nonmatching] ∧
      (d'.state s).perms = (d'.state t).perms ∧ ∀ c ∈ List.range 256, d'.next s c = d'.next t c := by
  have h : (DFA.buildMinimized (fun _ => 0) twoOobs twoOobs.leafOrder true).any (fun d' =>
      2 ∈ d'.states ∧ 3 ∈ d'.states ∧ 2 ∉ [d'.start, d'.nonmatching] ∧ 3 ∉ [d'.start, d'.nonmatching] ∧
        (d'.state 2).perms = (d'.state 3).perms ∧ ∀ c ∈ List.range 256, d'.next 2 c = d'.next 3 c) = true := by
    decide +kernel
  cases hd : DFA.buildMinimized (fun _ => 0) twoOobs twoOobs.leafOrder true with
  | none =>
    rw [hd] at h
    cases h
  | some d' =>
    rw [hd] at h
    obtain ⟨h₂, h₃, hs, ht, hperms, hnext⟩ := of_decide_eq_true h
    exact ⟨d', rfl, 2, h₂, 3, h₃, by decide, hs, ht, hperms, hnext⟩

end AppArmor

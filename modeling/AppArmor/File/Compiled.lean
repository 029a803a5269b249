import AppArmor.File.Resolved
import AppArmor.Hfa.TailCorrect

namespace AppArmor

open AareRules Build Fuel List

variable {filedfa : Bool}

theorem AareRules.createRoot_none {rs : AareRules} (opts : TreeFlags) (oob : Bool) (hne : rs.exprMap ≠ [])
    (hplain : ∀ e ∈ rs.exprMap, e.2.Plain) :
    ∃ root, Returns (fun fuel => createRoot opts fuel rs none oob) (some root) ∧ root.tree.RuleTree ∧
      root.tree.cnodes.Nodup ∧ Forall₂ EntryOf rs.exprMap (root.tree.rules.map Prod.swap) := by
  obtain ⟨⟨es, last⟩, hes, hall, -, haddrs⟩ := entries_spec opts hplain 0
  have hes' : es ≠ [] := by
    rintro rfl
    exact hne (forall₂_nil_right_iff.mp hall)
  obtain ⟨t, hbuild, hrule, hrules, hcnodes⟩ := buildTree_none (forall₂_plain hall) hes'
  refine ⟨⟨t, 0⟩, ?_, hrule, ?_, ?_⟩
  · have hmap := hes.map fun r => (buildTree none r.1).map (Root.mk · 0)
    rw [hbuild] at hmap
    refine hmap.congr fun fuel => ?_
    simp [createRoot, Option.map_eq_bind]
  · apply Nodup.of_map Pos.addr
    rw [hcnodes, haddrs]
    exact nodup_range'
  · rwa [hrules, map_map, Prod.swap_swap_eq, map_id]

theorem permsOf_flags {u s : NodeSet} {order : IterOrder u} {p : PermsT} (hs : s ⊆ u)
    (h : permsOf order filedfa (splitNodeTypes s).anodes = some p) :
    ∃ flags, (∀ m, m ∈ flags ↔ .accept m ∈ s) ∧ Resolve.permsT filedfa flags = some p := by
  have hmem := mem_split_anodes s
  dsimp only [splitNodeTypes] at h hmem
  split_ifs at h hmem
  · -- without accept nodes the constructor is not asked, and nothing is permitted
    refine ⟨[], fun m => (iff_of_false not_mem_nil (by simp)).trans (hmem m), h ▸ ?_⟩
    cases filedfa <;> rfl
  · refine ⟨_, fun m => Iff.trans ?_ (hmem m), h⟩
    rw [Option.getD_some, mem_filterMap]
    nth_rewrite 2 [← (order.spec _ ((Finset.filter_subset _ _).trans hs)).2]
    rw [mem_toFinset]
    constructor
    · rintro ⟨_ | m', hp, hm⟩
      · cases hm
      · cases hm
        exact hp
    · exact fun hp => ⟨.accept m, hp, rfl⟩

/-- Whatever the simplification does and in whatever order nodes are visited, the automaton and the minimized one give
every path the permissions that the rules resolve to. -/
def Compiles (opts : TreeFlags) (oob : Bool) (cache : ℕ) (addr : UniquePerm → ℕ) (rs : List RuleVec) : Prop :=
  ∃ root, Returns (fun fuel => (ofRules cache (flaggedRules addr rs)).createRoot opts fuel none oob) (some root) ∧
    ∀ (order : IterOrder root.tree.positions) (filedfa : Bool),
      (DFA.build (fun _ => root.refcount) root.tree order filedfa = .error .conflict ∧ Conflict order filedfa) ∨
      ∃ d d', DFA.build (fun _ => root.refcount) root.tree order filedfa = .ok d ∧ d.minimize = .ok d' ∧
        ∀ w : List Byte, ∃ s s', d.matchLen d.start (w.map fun b => (b.val : ℤ)) = some s ∧
          d'.matchLen d'.start (w.map fun b => (b.val : ℤ)) = some s' ∧ (d'.state s').perms = (d.state s).perms ∧
          Resolves filedfa rs w (d.state s).perms

theorem ruleVecs_compile (opts : TreeFlags) (oob : Bool) (cache : ℕ) (addr : UniquePerm → ℕ) {rs : List RuleVec}
    (hne : rs ≠ []) (hplain : ∀ r ∈ rs, r.tree.Plain) : Compiles opts oob cache addr rs := by
  have hover : ∀ e ∈ (ofRules cache (flaggedRules addr rs)).exprMap, e.2.Plain :=
    over_ofRules (forall_mem_map.mpr hplain)
  obtain ⟨root, hret, hrule, hn, hall⟩ := createRoot_none opts oob
    (ofRules_ne_nil (mt map_eq_nil_iff.mp hne)) hover
  refine ⟨root, hret, fun order filedfa => ?_⟩
  rcases build_sharedFree (fun _ => root.refcount) hrule.sharedFree order filedfa with he | ⟨d, hok, h⟩
  · exact .inl he
  · obtain ⟨d', rep, hmin, hm⟩ := minimize_spec h.unencoded
    refine .inr ⟨d, d', hok, hmin, fun w => ⟨_, _, DFA.matchLen_eq_foldl h.diff _ _,
      DFA.matchLen_eq_foldl (hm.unencoded h.unencoded).diff _ _, ?_, ?_⟩⟩
    · rw [hm.start, hm.foldl_delta h.unencoded.toClosed h.unencoded.start, hm.perms_rep]
      exact h.mem_states.mpr (h.run_lt h.start_lt _)
    · have hlt := h.run_lt h.start_lt (w.map fun b => (b.val : ℤ))
      obtain ⟨flags, hflags, hperms⟩ := permsOf_flags (h.sub _ hlt) (h.proto _ hlt ▸ h.perms _ hlt)
      refine ⟨addr, flags, fun m => ?_, hperms⟩
      rw [hflags, h.nodes_run (by simp), Node.accept_mem_reach hrule hn, ← maps_iff hall, maps_ofRules, map_map]
      constructor
      · rintro ⟨_, he, rfl, hw⟩
        obtain ⟨r, hr, rfl⟩ := mem_map.mp he
        exact ⟨r, hr, hw, rfl⟩
      · rintro ⟨r, hr, hw, rfl⟩
        exact ⟨_, mem_map_of_mem hr, rfl, hw⟩

/-- Three rules for the path `a`: it may be read, `a*` may not be written, and with a higher priority `a` may be written. -/
def overlappingRules : List RuleVec :=
  [headVec, ⟨0, .deny, Perm.mayWrite, 0, .star (.cnode (.char 97)), [], false⟩,
    ⟨1, .allow, Perm.mayWrite, 0, .cat (.cnode (.char 97)) (.star (.cnode (.char 98))), [], false⟩]

theorem overlappingRules_compile : overlappingRules ≠ [] ∧ (∀ r ∈ overlappingRules, r.tree.Plain) ∧
    Compiles vectorFlags false 0 (fun p => p.perms.toNat) overlappingRules := by
  have hplain : ∀ r ∈ overlappingRules, r.tree.Plain :=
    forall_mem_cons.mpr ⟨trivial, forall_mem_cons.mpr ⟨trivial, forall_mem_singleton.mpr ⟨trivial, trivial⟩⟩⟩
  exact ⟨cons_ne_nil _ _, hplain, ruleVecs_compile _ _ _ _ (cons_ne_nil _ _) hplain⟩

end AppArmor

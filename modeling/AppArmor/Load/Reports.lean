import AppArmor.Load.Policy

namespace AppArmor.Load

open List

variable {cfg : Config} {name : String} {rawSize : ℕ} {o : Outcomes} {r : Run}

def Run.Clean (r : Run) : Prop := ∀ a ∈ r.log, a.ok = true

structure Run.Honest (r : Run) : Prop where
  nonpos : r.ret ≤ 0
  zero_iff : r.ret = 0 ↔ r.Clean

theorem clean_append {log log' : List Attempt} {ret : ℤ} :
    Run.Clean ⟨log ++ log', ret⟩ ↔ Run.Clean ⟨log, ret⟩ ∧ Run.Clean ⟨log', ret⟩ := by
  simp only [Run.Clean, mem_append, or_imp, forall_and]

theorem honest_start : Run.Honest ⟨[], 0⟩ := ⟨le_rfl, by simp [Run.Clean]⟩

theorem honest_snoc_ok (h : r.Honest) (a : Attempt) (ha : a.ok = true) : Run.Honest ⟨r.log ++ [a], r.ret⟩ := by
  refine ⟨h.nonpos, ?_⟩
  rw [clean_append]
  simp only [Run.Clean, mem_singleton, forall_eq, ha, and_true]
  exact h.zero_iff

theorem honest_snoc_failed {ret : ℤ} (log : List Attempt) (hret : ret < 0) (a : Attempt) (ha : a.ok = false) :
    Run.Honest ⟨log ++ [a], ret⟩ := by
  refine ⟨hret.le, iff_of_false hret.ne fun h => ?_⟩
  have hok := h a (by simp)
  rw [ha] at hok
  cases hok

theorem attempt_honest (h : r.Honest) (step : Step) (result : Option Errno) : (attempt name step result r).Honest := by
  cases result with
  | none => exact honest_snoc_ok h _ rfl
  | some e =>
    have he : -(e : ℤ) < 0 := by
      have := e.pos
      omega
    exact honest_snoc_failed r.log he _ rfl

theorem openFd_honest : (openFd cfg name o).Honest := by
  unfold openFd
  split
  all_goals first
    | exact honest_start
    | exact attempt_honest honest_start _ _

theorem removePolicy_honest (h : r.Honest) : (removePolicy cfg name o r).Honest := by
  unfold removePolicy
  split_ifs
  · exact attempt_honest h _ _
  · exact h

theorem sendPolicy_honest (h : r.Honest) : (sendPolicy cfg name o r).Honest := by
  unfold sendPolicy
  split_ifs
  all_goals
    split
    all_goals first
      | exact h
      | exact attempt_honest h _ _

theorem writeCache_honest (h : r.Honest) : (writeCache cfg name rawSize o r).Honest := by
  unfold writeCache
  split_ifs
  · split
    · exact attempt_honest h _ _
    · exact attempt_honest h _ _
  · exact h

theorem serializeOwn_honest : (serializeOwn cfg name rawSize o).1.Honest := by
  have hfd : (openFd cfg name o).Honest := openFd_honest
  unfold serializeOwn
  dsimp only
  split_ifs
  · exact hfd
  · exact removePolicy_honest hfd
  · exact writeCache_honest (sendPolicy_honest (honest_snoc_ok hfd _ rfl))
  · exact honest_snoc_failed _ (by decide) _ rfl
  · exact writeCache_honest (sendPolicy_honest hfd)

theorem serializeOwn_exited (h : (serializeOwn cfg name rawSize o).2 = true) :
    (serializeOwn cfg name rawSize o).1.ret ≠ 0 := by
  unfold serializeOwn at h ⊢
  dsimp only at h ⊢
  split_ifs at h ⊢ with hret
  · exact hret
  · exact (by decide : (-1 : ℤ) ≠ 0)

theorem Profile.induct {P : Profile → Prop}
    (mk : ∀ name rawSize o hats, (∀ h ∈ hats, P h) → P (.mk name rawSize o hats)) (p : Profile) : P p := by
  refine @Profile.rec P (fun ps => ∀ h ∈ ps, P h) mk ?nil ?cons p
  case nil =>
    intro h hh
    exact absurd hh not_mem_nil
  case cons =>
    intro p ps hp hps h hh
    rcases mem_cons.mp hh with rfl | hh
    · exact hp
    · exact hps h hh

inductive AllOk (cfg : Config) : Profile → Prop
  | mk {name : String} {rawSize : ℕ} {o : Outcomes} {hats : List Profile}
      (own : (serializeOwn cfg name rawSize o).1.ret = 0)
      (hats_ok : cfg.option ≠ .remove → ∀ h ∈ hats, AllOk cfg h) : AllOk cfg (.mk name rawSize o hats)

/-- The profile fails in a step of its own, so does one of its hats, and so on to a profile whose hats are not tried. -/
inductive FailChain (cfg : Config) : Profile → Prop
  | last {name : String} {rawSize : ℕ} {o : Outcomes} {hats : List Profile}
      (own : (serializeOwn cfg name rawSize o).1.ret ≠ 0)
      (ends : (serializeOwn cfg name rawSize o).2 = true ∨ hats = [] ∨ cfg.option = .remove) :
      FailChain cfg (.mk name rawSize o hats)
  | hat {name : String} {rawSize : ℕ} {o : Outcomes} {hats : List Profile} {h : Profile}
      (own : (serializeOwn cfg name rawSize o).1.ret ≠ 0) (mem : h ∈ hats) (chain : FailChain cfg h) :
      FailChain cfg (.mk name rawSize o hats)

section Hats

variable {p : Profile} {ps hats : List Profile}

theorem sdSerializeProfile_leaf
    (h : (serializeOwn cfg name rawSize o).2 = true ∨ hats = [] ∨ cfg.option = .remove) :
    sdSerializeProfile cfg (.mk name rawSize o hats) = (serializeOwn cfg name rawSize o).1 := by
  rw [sdSerializeProfile]
  dsimp only
  by_cases hex : (serializeOwn cfg name rawSize o).2 = true
  · rw [if_pos hex]
  · rw [if_neg hex, if_neg]
    rintro ⟨hne, hopt⟩
    rcases h with h | h | h
    · exact hex h
    · exact hne h
    · exact hopt h

theorem sdSerializeProfile_hats
    (h : ¬((serializeOwn cfg name rawSize o).2 = true ∨ hats = [] ∨ cfg.option = .remove)) :
    sdSerializeProfile cfg (.mk name rawSize o hats) =
      ⟨(serializeOwn cfg name rawSize o).1.log ++ (loadPolicyList cfg hats).log,
        if (loadPolicyList cfg hats).ret = 0 then 0 else (serializeOwn cfg name rawSize o).1.ret⟩ := by
  rw [not_or, not_or] at h
  rw [sdSerializeProfile]
  dsimp only
  rw [if_neg h.1, if_pos h.2]
  split_ifs <;> rfl

theorem sdSerializeProfile_nonpos : (sdSerializeProfile cfg p).ret ≤ 0 := by
  obtain ⟨name, rawSize, o, hats⟩ := p
  by_cases h : (serializeOwn cfg name rawSize o).2 = true ∨ hats = [] ∨ cfg.option = .remove
  · rw [sdSerializeProfile_leaf h]
    exact serializeOwn_honest.nonpos
  · rw [sdSerializeProfile_hats h]
    dsimp only
    split_ifs
    · exact le_rfl
    · exact serializeOwn_honest.nonpos

theorem loadProfile_eq : loadProfile cfg p = sdSerializeProfile cfg p := by
  have h := @sdSerializeProfile_nonpos cfg p
  have hr : reported (sdSerializeProfile cfg p).ret = (sdSerializeProfile cfg p).ret := by
    unfold reported
    split_ifs with hlt
    · rfl
    · omega
  rw [loadProfile, hr]

theorem loadPolicyList_ret (h : ∀ p ∈ ps, (loadProfile cfg p).ret ≠ 0 ↔ FailChain cfg p) :
    (loadPolicyList cfg ps).ret ≠ 0 ↔ ∃ p ∈ ps, FailChain cfg p := by
  induction ps with
  | nil => simp [loadPolicyList]
  | cons p ps ih =>
    have hp := h p (mem_cons_self)
    have hps := ih fun q hq => h q (mem_cons_of_mem p hq)
    rw [loadPolicyList_cons, exists_mem_cons_iff]
    by_cases hret : (loadProfile cfg p).ret = 0
    · rw [if_neg (not_not.mpr hret), hps]
      have hno := mt hp.mpr (not_not.mpr hret)
      simp only [hno, false_or]
    · rw [if_pos hret]
      exact iff_of_true hret (Or.inl (hp.mp hret))

theorem loadProfile_ret (p : Profile) : (loadProfile cfg p).ret ≠ 0 ↔ FailChain cfg p := by
  induction p using Profile.induct with
  | mk name rawSize o hats ih =>
    rw [loadProfile_eq]
    by_cases h : (serializeOwn cfg name rawSize o).2 = true ∨ hats = [] ∨ cfg.option = .remove
    · rw [sdSerializeProfile_leaf h]
      constructor
      · exact fun hown => .last hown h
      · rintro (⟨hown, -⟩ | ⟨hown, -, -⟩)
        · exact hown
        · exact hown
    · have hlist := loadPolicyList_ret ih
      rw [sdSerializeProfile_hats h]
      dsimp only
      constructor
      · intro hret
        have hne : (loadPolicyList cfg hats).ret ≠ 0 := fun hz => hret (if_pos hz)
        rw [if_neg hne] at hret
        obtain ⟨q, hq, hchain⟩ := hlist.mp hne
        exact .hat hret hq hchain
      · rintro (⟨-, hends⟩ | ⟨hown, hmem, hchain⟩)
        · exact absurd hends h
        · rw [if_neg (hlist.mpr ⟨_, hmem, hchain⟩)]
          exact hown

theorem loadProfile_ret_of_clean (h : (loadProfile cfg p).Clean) : (loadProfile cfg p).ret = 0 := by
  rw [loadProfile_eq] at h ⊢
  obtain ⟨name, rawSize, o, hats⟩ := p
  by_cases hl : (serializeOwn cfg name rawSize o).2 = true ∨ hats = [] ∨ cfg.option = .remove
  · rw [sdSerializeProfile_leaf hl] at h ⊢
    exact serializeOwn_honest.zero_iff.mpr h
  · rw [sdSerializeProfile_hats hl] at h ⊢
    have hown : (serializeOwn cfg name rawSize o).1.ret = 0 := serializeOwn_honest.zero_iff.mpr (clean_append.mp h).1
    dsimp only
    rw [hown, ite_self]

theorem loadPolicyList_clean (h : ∀ p ∈ ps, (loadProfile cfg p).Clean ↔ AllOk cfg p) :
    (loadPolicyList cfg ps).Clean ↔ ∀ p ∈ ps, AllOk cfg p := by
  induction ps with
  | nil => simp [loadPolicyList, Run.Clean]
  | cons p ps ih =>
    have hp := h p (mem_cons_self)
    have hps := ih fun q hq => h q (mem_cons_of_mem p hq)
    rw [loadPolicyList_cons, forall_mem_cons, ← hp, ← hps]
    by_cases hret : (loadProfile cfg p).ret = 0
    · rw [if_neg (not_not.mpr hret)]
      exact clean_append
    · rw [if_pos hret]
      have hnot : ¬(loadProfile cfg p).Clean := mt loadProfile_ret_of_clean hret
      exact iff_of_false hnot fun h => hnot h.1

theorem loadProfile_clean (p : Profile) : (loadProfile cfg p).Clean ↔ AllOk cfg p := by
  induction p using Profile.induct with
  | mk name rawSize o hats ih =>
    have hown : (serializeOwn cfg name rawSize o).1.ret = 0 ↔ _ := serializeOwn_honest.zero_iff
    rw [loadProfile_eq]
    by_cases h : (serializeOwn cfg name rawSize o).2 = true ∨ hats = [] ∨ cfg.option = .remove
    · rw [sdSerializeProfile_leaf h, ← hown]
      constructor
      · intro hret
        refine .mk hret fun hopt q hq => ?_
        rcases h with h | h | h
        · exact absurd hret (serializeOwn_exited h)
        · rw [h] at hq
          exact absurd hq not_mem_nil
        · exact absurd h hopt
      · rintro ⟨hret, -⟩
        exact hret
    · have hlist := loadPolicyList_clean ih
      rw [sdSerializeProfile_hats h]
      constructor
      · intro hclean
        obtain ⟨hc₁, hc₂⟩ := clean_append.mp hclean
        exact .mk (hown.mpr hc₁) fun _ => hlist.mp hc₂
      · rintro ⟨hret, hhats⟩
        exact clean_append.mpr ⟨hown.mp hret, hlist.mpr (hhats fun hopt => h (Or.inr (Or.inr hopt)))⟩

end Hats

/-- A failed step shows in the return value just when the failures line up: the hats' result replaces the profile's own
error, and is itself dropped when the profile had none. -/
theorem loadPolicy_reports_iff (cfg : Config) (policyList : List Profile) :
    ((∃ a ∈ (loadPolicy cfg policyList).log, a.ok = false) → (loadPolicy cfg policyList).ret ≠ 0) ↔
      (∀ p ∈ policyList, AllOk cfg p) ∨ ∃ p ∈ policyList, FailChain cfg p := by
  rw [← loadPolicyList_clean fun p _ => loadProfile_clean p, ← loadPolicyList_ret fun p _ => loadProfile_ret p]
  have hfail : (∃ a ∈ (loadPolicy cfg policyList).log, a.ok = false) ↔ ¬(loadPolicyList cfg policyList).Clean := by
    simp only [Run.Clean, loadPolicy, not_forall, Bool.not_eq_true, exists_prop]
  rw [hfail, or_iff_not_imp_left]
  rfl

def kernelOutcome (kernel : Option Errno) : Outcomes := ⟨none, true, kernel, none, .ok 0⟩

theorem refusedProfile_unreported :
    loadPolicy ⟨.replace, true, false, false⟩
      [.mk "/bin/foo" 0 (kernelOutcome (some 13)) [.mk "hat" 0 (kernelOutcome none) []]] =
      ⟨[⟨"/bin/foo", .kernel, false⟩, ⟨"hat", .kernel, true⟩], 0⟩ := by
  rfl

end AppArmor.Load

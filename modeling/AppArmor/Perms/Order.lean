import AppArmor.Perms.Slots

namespace AppArmor.Resolve

open Perm RankFold List

def modifiers (filedfa : Bool) (i : ℕ) (m : MatchFlag) : Perm32 := m.perms &&& xmask filedfa i

def withExec (i : ℕ) (l : List MatchFlag) : List MatchFlag := l.filter (fun m => m.perms.getLsbD i)

def Fits (filedfa : Bool) (i : ℕ) (f x : MatchFlag) : Prop :=
  match x.kind with
  | .exact => modifiers filedfa i f = modifiers filedfa i x
  | .allow => modifiers filedfa i f ||| modifiers filedfa i x = modifiers filedfa i x
  | .deny => True
  | .prompt => True

def NoClash (filedfa : Bool) (i : ℕ) (l : List MatchFlag) : Prop :=
  (withExec i l).length ≤ 1 ∨ ∀ x ∈ withExec i l, ∀ f ∈ l, Fits filedfa i f x

def Uniform (filedfa : Bool) (i : ℕ) (l : List MatchFlag) : Prop :=
  ∀ f ∈ l, ∀ g ∈ l,
    match f.kind with
    | .exact => modifiers filedfa i f = modifiers filedfa i g ∧
        f.audit &&& xmask filedfa i = g.audit &&& xmask filedfa i
    | .deny => f.perms &&& amask filedfa i &&& compatContMatch = g.perms &&& amask filedfa i &&& compatContMatch
    | .allow => True
    | .prompt => True

def ranked (filedfa : Bool) (i : ℕ) (k : ℤ) (flags : List MatchFlag) : List MatchFlag :=
  atRank (scaledPriority i) k (carriers filedfa i flags)

def slotTop (filedfa : Bool) (i : ℕ) (flags : List MatchFlag) : ℤ :=
  topRank (scaledPriority i) initialPriority (carriers filedfa i flags)

theorem withExec_perm {i : ℕ} {l l' : List MatchFlag} (h : l.Perm l') : (withExec i l).Perm (withExec i l') :=
  h.filter _

theorem NoClash.perm {filedfa : Bool} {i : ℕ} {l l' : List MatchFlag} (h : NoClash filedfa i l)
    (hp : l.Perm l') : NoClash filedfa i l' := by
  rcases h with h | h
  · exact .inl ((withExec_perm hp).length_eq ▸ h)
  · exact .inr fun x hx f hf => h x ((withExec_perm hp).mem_iff.mpr hx) f (hp.mem_iff.mpr hf)

theorem ranked_perm {filedfa : Bool} {l l' : List MatchFlag} (h : l.Perm l') (i : ℕ) (k : ℤ) :
    (ranked filedfa i k l).Perm (ranked filedfa i k l') := atRank_perm (h.filter _) k

variable {m : MatchFlag} {p : PermsT}

theorem mem_ranked {filedfa : Bool} {i : ℕ} {k : ℤ} {flags : List MatchFlag} :
    m ∈ ranked filedfa i k flags ↔ m ∈ flags ∧ carries filedfa i m ∧ scaledPriority i m = k := by
  simp [ranked, mem_atRank, carriers, and_assoc]

theorem kind_of_rank {i : ℕ} {f g : MatchFlag} (h : scaledPriority i f = scaledPriority i g) :
    f.kind = g.kind ∨ (hits (bit i) execBits = false ∧ f.kind ≠ .deny ∧ g.kind ≠ .deny ∧
      f.kind ≠ .prompt ∧ g.kind ≠ .prompt) := by
  unfold scaledPriority at h
  cases hb : hits (bit i) execBits <;> cases hf : f.kind <;> cases hg : g.kind <;>
    simp only [hb, hf, hg, Bool.false_eq_true, ↓reduceIte] at h <;> simp <;> omega

theorem slot_cases {filedfa : Bool} {i : ℕ} (h : isSlot filedfa i) :
    xmask filedfa i = 0 ∨ (filedfa = true ∧ (i = 0 ∨ i = 14)) := by
  by_cases he : i ≠ 0 ∧ i ≠ 14
  · exact .inl (xmask_zero filedfa i (isSlot_lt h) he)
  · cases filedfa with
    | false => exact .inl rfl
    | true => exact .inr ⟨rfl, by omega⟩

theorem conflict_zero {filedfa : Bool} {i : ℕ} (h : xmask filedfa i = 0) (m : MatchFlag) (p : PermsT) :
    conflict filedfa i m p = false := by
  simp [conflict, h]

theorem hits_bit {i : ℕ} (hi : i < 32) (p : Perm32) : hits p (bit i) = p.getLsbD i := by
  rw [hits, bit, ← BitVec.twoPow_eq, BitVec.and_twoPow]
  have hne : BitVec.twoPow 32 i ≠ 0#32 := by
    intro h
    have := congrArg (·.getLsbD i) h
    simp [hi] at this
  cases p.getLsbD i <;> simp [hne]

theorem getLsbD_bit {i : ℕ} (hi : i < 32) : (bit i).getLsbD i = true := by
  rw [bit, ← BitVec.twoPow_eq]
  simp [hi]

theorem conflict_exec {i : ℕ} (hi : i = 0 ∨ i = 14) (m : MatchFlag) (p : PermsT) :
    conflict true i m p = (p.allow.getLsbD i && m.perms.getLsbD i &&
      p.allow &&& xmask true i != modifiers true i m) := by
  have ha : hits p.allow (amask true i) = false → p.allow.getLsbD i = false := by
    intro h
    have hz : p.allow &&& amask true i = 0 := by simpa [hits] using h
    have := congrArg (·.getLsbD i) hz
    have hb := getLsbD_bit (show i < 32 by omega)
    simpa [amask, hb] using this
  have hx : isMergedXConsistent p.allow (m.perms &&& amask true i) =
      !(p.allow.getLsbD i && m.perms.getLsbD i && p.allow &&& xmask true i != modifiers true i m) := by
    rcases hi with rfl | rfl
    · rw [isMergedXConsistent, hits_outside (show amask true 0 &&& otherExec = 0 by decide),
        hits_within (show amask true 0 &&& userExec = userExec by decide), BitVec.and_assoc,
        show amask true 0 &&& userExecType = userExecType by decide]
      rw [show userExec = bit 0 from rfl, hits_bit (by omega), hits_bit (by omega)]
      simp only [Bool.and_false, Bool.false_and, Bool.not_false, Bool.and_true]
      rfl
    · rw [isMergedXConsistent, hits_outside (show amask true 14 &&& userExec = 0 by decide),
        hits_within (show amask true 14 &&& otherExec = otherExec by decide), BitVec.and_assoc, BitVec.and_assoc,
        show amask true 14 &&& otherExecType = otherExecType by decide]
      rw [show otherExec = bit 14 from rfl, hits_bit (by omega), hits_bit (by omega)]
      simp only [Bool.and_false, Bool.false_and, Bool.not_false, Bool.true_and]
      rfl
  have hne : xmask true i != 0 := by rcases hi with rfl | rfl <;> decide
  rw [conflict, hx, hne, Bool.not_not]
  cases hh : hits p.allow (amask true i) with
  | false => simp [ha hh]
  | true => simp

theorem exists_perm_cons {l : List MatchFlag} (h : m ∈ l) : ∃ r, l.Perm (m :: r) := by
  obtain ⟨s, t, rfl⟩ := append_of_mem h
  exact ⟨s ++ t, perm_middle⟩

theorem getLsbD_xmask_self {i : ℕ} (hi : i = 0 ∨ i = 14) : (xmask true i).getLsbD i = false := by
  rcases hi with rfl | rfl <;> decide

theorem getLsbD_amask_self {filedfa : Bool} {i : ℕ} (hi : i < 32) : (amask filedfa i).getLsbD i = true := by
  simp [amask, getLsbD_bit hi]

theorem merge_exec_bit {i : ℕ} (hi : i = 0 ∨ i = 14)     (hk : m.kind = .allow ∨ m.kind = .exact) :
    (merge true i p m).allow.getLsbD i = (p.allow.getLsbD i || m.perms.getLsbD i) := by
  have hlt : i < 32 := by omega
  have ha := @getLsbD_amask_self true i hlt
  rcases hk with hk | hk
  · simp only [merge, hk, BitVec.getLsbD_or, BitVec.getLsbD_and, ha, Bool.and_true]
  · simp only [merge, hk, BitVec.getLsbD_or, BitVec.getLsbD_and, ha, Bool.and_true, BitVec.getLsbD_not,
      getLsbD_xmask_self hi, hlt, decide_true, Bool.not_false]

theorem merge_allow_modifiers (filedfa : Bool) (i : ℕ) (hk : m.kind = .allow) :
    (merge filedfa i p m).allow &&& xmask filedfa i =
      (p.allow &&& xmask filedfa i) ||| modifiers filedfa i m := by
  have hx := @getLsbD_xmask filedfa i
  simp only [merge, hk, modifiers]
  apply BitVec.eq_of_getLsbD_eq
  intro k _
  have := @hx k
  cases h : (xmask filedfa i).getLsbD k <;> simp_all

theorem merge_exact_modifiers (filedfa : Bool) (i : ℕ) (hk : m.kind = .exact) :
    (merge filedfa i p m).allow &&& xmask filedfa i = modifiers filedfa i m ∧
      (merge filedfa i p m).audit &&& xmask filedfa i = m.audit &&& xmask filedfa i := by
  have hx := @getLsbD_xmask filedfa i
  simp only [merge, hk, modifiers]
  constructor <;>
  · apply BitVec.eq_of_getLsbD_eq
    intro k _
    have := @hx k
    cases h : (xmask filedfa i).getLsbD k <;> simp_all

theorem applyMatch_eq_some {filedfa : Bool} {i : ℕ}     (h : conflict filedfa i m p = false) : applyMatch filedfa i p m = some (merge filedfa i p m) := by
  simp [applyMatch, h]

theorem applyMatch_eq_none {filedfa : Bool} {i : ℕ} (hk : m.kind ≠ .deny)
    (h : conflict filedfa i m p = true) : applyMatch filedfa i p m = none := by
  simp [applyMatch, h, hk]

theorem foldlM_applyMatch_concat {filedfa : Bool} {i : ℕ} {q : PermsT} {l : List MatchFlag}
    (h : l.foldlM (applyMatch filedfa i) p = some q) :
    (l ++ [m]).foldlM (applyMatch filedfa i) p = applyMatch filedfa i q m := by
  simp [foldlM_append, h]

section ExecRank

variable {i : ℕ} {l : List MatchFlag}

theorem withExec_concat (l : List MatchFlag) (m : MatchFlag) :
    withExec i (l ++ [m]) = if m.perms.getLsbD i then withExec i l ++ [m] else withExec i l := by
  simp only [withExec, filter_append]
  cases h : m.perms.getLsbD i <;> simp [h]

theorem fold_single (hi : i = 0 ∨ i = 14) (hk : ∀ m ∈ l, m.kind = .allow ∨ m.kind = .exact)
    (h : (withExec i l).length ≤ 1) :
    ∃ q, l.foldlM (applyMatch true i) PermsT.clear = some q ∧ (q.allow.getLsbD i → withExec i l ≠ []) := by
  induction l using reverseRecOn with
  | nil => exact ⟨PermsT.clear, rfl, by simp [PermsT.clear]⟩
  | append_singleton l m ih =>
    rw [withExec_concat] at h
    have hlen : (withExec i l).length ≤ 1 := by
      split_ifs at h
      · simp only [length_append, length_singleton] at h; omega
      · exact h
    obtain ⟨q, hq, hb⟩ := ih (fun x hx => hk x (by simp [hx])) hlen
    have hc : conflict true i m q = false := by
      rw [conflict_exec hi]
      cases hqb : q.allow.getLsbD i with
      | false => simp
      | true =>
        cases hmb : m.perms.getLsbD i with
        | false => simp
        | true =>
          have hpos := length_pos_of_ne_nil (hb hqb)
          simp only [hmb, ↓reduceIte, length_append, length_singleton] at h
          omega
    refine ⟨_, (foldlM_applyMatch_concat hq).trans (applyMatch_eq_some hc), ?_⟩
    rw [merge_exec_bit hi (hk m (by simp)), withExec_concat]
    intro hor
    split_ifs with hm
    · simp
    · rcases Bool.or_eq_true_iff.mp hor with hq' | hm'
      · exact hb hq'
      · exact absurd hm' hm

theorem fold_common (hi : i = 0 ∨ i = 14) {t : Perm32} (kind : FlagKind) (hkind : kind = .allow ∨ kind = .exact)
    (hk : ∀ m ∈ l, m.kind = kind) (hx : ∀ m ∈ withExec i l, modifiers true i m = t)
    (hf : ∀ m ∈ l, if kind = .exact then modifiers true i m = t else modifiers true i m ||| t = t) :
    ∃ q, l.foldlM (applyMatch true i) PermsT.clear = some q ∧ (q.allow &&& xmask true i) ||| t = t ∧
      (q.allow.getLsbD i → q.allow &&& xmask true i = t) := by
  induction l using reverseRecOn with
  | nil => exact ⟨PermsT.clear, rfl, by simp [PermsT.clear], by simp [PermsT.clear]⟩
  | append_singleton l m ih =>
    have hsub : ∀ x ∈ withExec i l, x ∈ withExec i (l ++ [m]) := by
      intro x hx'
      rw [withExec_concat]
      split_ifs <;> simp [hx']
    obtain ⟨q, hq, hle, hb⟩ := ih (fun x hx' => hk x (by simp [hx'])) (fun x hx' => hx x (hsub x hx'))
      (fun x hx' => hf x (by simp [hx']))
    have hmk : m.kind = kind := hk m (by simp)
    have hmf := hf m (by simp)
    have hmx : m.perms.getLsbD i → modifiers true i m = t := by
      intro h
      exact hx m (by rw [withExec_concat, if_pos h]; simp)
    have hc : conflict true i m q = false := by
      rw [conflict_exec hi]
      cases hqb : q.allow.getLsbD i with
      | false => simp
      | true =>
        cases hmb : m.perms.getLsbD i with
        | false => simp
        | true => simp [hb hqb, hmx hmb]
    refine ⟨_, (foldlM_applyMatch_concat hq).trans (applyMatch_eq_some hc), ?_⟩
    rw [merge_exec_bit hi (by rw [hmk]; exact hkind)]
    rcases hkind with rfl | rfl
    · rw [if_neg (by simp)] at hmf
      rw [merge_allow_modifiers true i hmk]
      refine ⟨by rw [BitVec.or_assoc, hmf, hle], ?_⟩
      intro hor
      rcases Bool.or_eq_true_iff.mp hor with h | h
      · rw [hb h, BitVec.or_comm, hmf]
      · rw [hmx h, hle]
    · rw [if_pos rfl] at hmf
      rw [(merge_exact_modifiers true i hmk).1, hmf]
      exact ⟨BitVec.or_self, fun _ => rfl⟩

variable {filedfa : Bool} {f x : MatchFlag}

theorem foldlM_none_append
    (h : l.foldlM (applyMatch filedfa i) p = none) (l' : List MatchFlag) :
    (l ++ l').foldlM (applyMatch filedfa i) p = none := by
  rw [foldlM_append, h]
  rfl

theorem perm_pair (hf : f ∈ l) (hx : x ∈ l) (hne : f ≠ x) : ∃ r, ([f, x] ++ r).Perm l := by
  obtain ⟨r, hr⟩ := exists_perm_cons hf
  have hx' : x ∈ r := by
    rcases mem_cons.mp (hr.mem_iff.mp hx) with h | h
    · exact absurd h.symm hne
    · exact h
  obtain ⟨r', hr'⟩ := exists_perm_cons hx'
  exact ⟨r', (hr.trans (hr'.cons f)).symm⟩

theorem merge_first_modifiers (i : ℕ) (hk : m.kind = .allow ∨ m.kind = .exact) :
    (merge true i PermsT.clear m).allow &&& xmask true i = modifiers true i m := by
  rcases hk with hk | hk
  · rw [merge_allow_modifiers true i hk]
    simp [PermsT.clear]
  · exact (merge_exact_modifiers true i hk).1

theorem fold_pair_conflict (hi : i = 0 ∨ i = 14) (hfk : f.kind = .allow ∨ f.kind = .exact)
    (hxk : x.kind ≠ .deny) (hf : f.perms.getLsbD i) (hx : x.perms.getLsbD i)
    (hne : modifiers true i f ≠ modifiers true i x) (r : List MatchFlag) :
    ([f, x] ++ r).foldlM (applyMatch true i) PermsT.clear = none := by
  apply foldlM_none_append
  have h₁ : conflict true i f PermsT.clear = false := by rw [conflict_exec hi]; simp [PermsT.clear]
  have h₂ : conflict true i x (merge true i PermsT.clear f) = true := by
    rw [conflict_exec hi, merge_exec_bit hi hfk, merge_first_modifiers i hfk]
    simp [hf, hx, hne]
  simp [applyMatch_eq_some h₁, applyMatch_eq_none hxk h₂]

theorem fold_between_conflict (hi : i = 0 ∨ i = 14) {x' : MatchFlag} (hk : x.kind = .allow ∨ x.kind = .exact)
    (hfk : f.kind = x'.kind) (hxk : x'.kind = x.kind) (hx : x.perms.getLsbD i) (hf : f.perms.getLsbD i = false)
    (hx' : x'.perms.getLsbD i) (he : modifiers true i x = modifiers true i x') (hfit : ¬ Fits true i f x')
    (r : List MatchFlag) : ([x, f, x'] ++ r).foldlM (applyMatch true i) PermsT.clear = none := by
  apply foldlM_none_append
  have h₁ : conflict true i x PermsT.clear = false := by rw [conflict_exec hi]; simp [PermsT.clear]
  have h₂ : conflict true i f (merge true i PermsT.clear x) = false := by rw [conflict_exec hi, hf]; simp
  have hm : (merge true i (merge true i PermsT.clear x) f).allow &&& xmask true i ≠ modifiers true i x' := by
    rw [Fits] at hfit
    rcases hk with hk | hk
    · rw [hxk.trans hk] at hfit hfk
      rw [merge_allow_modifiers true i hfk, merge_first_modifiers i (.inl hk), he, BitVec.or_comm]
      exact hfit
    · rw [hxk.trans hk] at hfit hfk
      rw [(merge_exact_modifiers true i hfk).1]
      exact hfit
  have h₃ : conflict true i x' (merge true i (merge true i PermsT.clear x) f) = true := by
    rw [conflict_exec hi, merge_exec_bit hi (by rw [hfk, hxk]; exact hk), merge_exec_bit hi hk]
    simp [hx, hx', hm]
  have hd : x'.kind ≠ .deny := by rw [hxk]; rcases hk with hk | hk <;> simp [hk]
  simp [applyMatch_eq_some h₁, applyMatch_eq_some h₂, applyMatch_eq_none hd h₃]

theorem Fits.kind (h : ¬ Fits filedfa i f x) : x.kind = .allow ∨ x.kind = .exact := by
  unfold Fits at h
  cases hk : x.kind <;> simp_all

theorem Fits.modifiers_ne (h : ¬ Fits filedfa i f x) :
    modifiers filedfa i f ≠ modifiers filedfa i x := by
  intro he
  apply h
  unfold Fits
  cases x.kind <;> simp [he]

theorem exists_order_conflict (hi : i = 0 ∨ i = 14) (hk : ∀ f ∈ l, ∀ g ∈ l, f.kind = g.kind)
    (h : ¬ NoClash true i l) : ∃ l' : List MatchFlag, l'.Perm l ∧ l'.foldlM (applyMatch true i) PermsT.clear = none := by
  simp only [NoClash, not_or, not_le, not_forall] at h
  obtain ⟨hlen, x, hxe, f, hfl, hfit⟩ := h
  obtain ⟨hxl, hxb⟩ := mem_filter.mp hxe
  have hxk := Fits.kind hfit
  have hdeny : ∀ m ∈ l, m.kind ≠ .deny := by
    intro m hm
    rw [hk m hm x hxl]
    rcases hxk with hxk | hxk <;> simp [hxk]
  have hpair : ∀ g ∈ l, g.perms.getLsbD i → modifiers true i g ≠ modifiers true i x →
      ∃ l' : List MatchFlag, l'.Perm l ∧ l'.foldlM (applyMatch true i) PermsT.clear = none := by
    intro g hg hgb hne
    obtain ⟨r, hr⟩ := perm_pair hg hxl (fun he => hne (by rw [he]))
    exact ⟨_, hr, fold_pair_conflict hi (by rw [hk g hg x hxl]; exact hxk) (hdeny x hxl) hgb hxb hne r⟩
  cases hfb : f.perms.getLsbD i with
  | true => exact hpair f hfl hfb (Fits.modifiers_ne hfit)
  | false =>
    -- a second flag with the exec bit, at another place of the list than `x`
    obtain ⟨r, hr⟩ := exists_perm_cons hxe
    obtain ⟨x', hx'r⟩ := exists_mem_of_length_pos (show 0 < r.length by
      have := hr.length_eq
      simp only [length_cons] at this
      omega)
    have hx'e : x' ∈ withExec i l := hr.mem_iff.mpr (mem_cons_of_mem _ hx'r)
    obtain ⟨hx'l, hx'b⟩ := mem_filter.mp hx'e
    by_cases he : modifiers true i x' = modifiers true i x
    · obtain ⟨r', hr'⟩ := exists_perm_cons hx'r
      have hfn : f ∈ l.filter (fun m => !m.perms.getLsbD i) := mem_filter.mpr ⟨hfl, by simp [hfb]⟩
      obtain ⟨t, ht⟩ := exists_perm_cons hfn
      have hp : ([x', f, x] ++ (r' ++ t)).Perm l := by
        have h₁ : (x :: x' :: r' ++ (f :: t)).Perm l :=
          ((hr.trans (hr'.cons x)).symm.append ht.symm).trans (filter_append_perm _ l)
        refine List.Perm.trans ?_ h₁
        refine List.Perm.trans (List.Perm.cons x' ?_) (List.Perm.swap x x' _)
        refine List.Perm.trans (List.Perm.swap x f _) (List.Perm.cons x ?_)
        exact (@List.perm_middle _ f r' t).symm
      refine ⟨_, hp, fold_between_conflict hi ?_ (hk f hfl x hxl) (hk x hxl x' hx'l) hx'b hfb hxb he hfit _⟩
      rw [hk x' hx'l x hxl]
      exact hxk
    · exact hpair x' hx'l hx'b he

theorem fold_prompt (hi : i = 0 ∨ i = 14) (hk : ∀ m ∈ l, m.kind = .prompt) :
    ∃ q, l.foldlM (applyMatch true i) PermsT.clear = some q ∧ q.allow = 0 := by
  induction l using reverseRecOn with
  | nil => exact ⟨PermsT.clear, rfl, rfl⟩
  | append_singleton l m ih =>
    obtain ⟨q, hq, h0⟩ := ih (fun x hx => hk x (by simp [hx]))
    have hc : conflict true i m q = false := by rw [conflict_exec hi, h0]; simp
    refine ⟨_, (foldlM_applyMatch_concat hq).trans (applyMatch_eq_some hc), ?_⟩
    simp [merge, hk m (by simp), h0]

end ExecRank

theorem sameKind {i : ℕ} {l : List MatchFlag} (hi : i = 0 ∨ i = 14)
    (h : ∀ f ∈ l, ∀ g ∈ l, scaledPriority i f = scaledPriority i g) : ∀ f ∈ l, ∀ g ∈ l, f.kind = g.kind := by
  intro f hf g hg
  rcases kind_of_rank (h f hf g hg) with he | ⟨hb, _⟩
  · exact he
  · rcases hi with rfl | rfl <;> exact absurd hb (by decide)

theorem fold_noClash_kind {i : ℕ} {l : List MatchFlag} (hi : i = 0 ∨ i = 14) (kind : FlagKind)
    (hkind : kind = .allow ∨ kind = .exact) (hk : ∀ m ∈ l, m.kind = kind) (h : NoClash true i l) :
    ∃ q, l.foldlM (applyMatch true i) PermsT.clear = some q := by
  have hk' : ∀ m ∈ l, m.kind = .allow ∨ m.kind = .exact := fun m hm => by rw [hk m hm]; exact hkind
  have single : (withExec i l).length ≤ 1 → ∃ q, l.foldlM (applyMatch true i) PermsT.clear = some q := by
    intro hlen
    obtain ⟨q, hq, _⟩ := fold_single hi hk' hlen
    exact ⟨q, hq⟩
  rcases h with hlen | hfit
  · exact single hlen
  · cases hw : withExec i l with
    | nil => exact single (by simp [hw])
    | cons x r =>
      have hx : x ∈ withExec i l := by simp [hw]
      have hxk : x.kind = kind := hk x (mem_of_mem_filter hx)
      -- two flags with the exec bit fit each other
      have hsame : ∀ y ∈ withExec i l, modifiers true i y = modifiers true i x := by
        intro y hy
        have h₁ := hfit x hx y (mem_of_mem_filter hy)
        have h₂ := hfit y hy x (mem_of_mem_filter hx)
        have hyk : y.kind = kind := hk y (mem_of_mem_filter hy)
        rcases hkind with rfl | rfl
        · simp only [Fits, hxk, hyk] at h₁ h₂
          rw [← h₁, BitVec.or_comm, h₂]
        · simpa only [Fits, hxk] using h₁
      have hle : ∀ m ∈ l, if kind = .exact then modifiers true i m = modifiers true i x
          else modifiers true i m ||| modifiers true i x = modifiers true i x := by
        intro m hm
        have h₁ := hfit x hx m hm
        rcases hkind with rfl | rfl <;> simpa [Fits, hxk] using h₁
      obtain ⟨q, hq, _⟩ := fold_common hi kind hkind hk hsame hle
      exact ⟨q, hq⟩

theorem fold_total {filedfa : Bool} {i : ℕ} {l : List MatchFlag} (p : PermsT)
    (h : ∀ m ∈ l, m.kind = .deny ∨ ∀ q, conflict filedfa i m q = false) :
    l.foldlM (applyMatch filedfa i) p = some (l.foldl (merge filedfa i) p) := by
  induction l generalizing p with
  | nil => rfl
  | cons m l ih =>
    have hm : applyMatch filedfa i p m = some (merge filedfa i p m) := by
      rcases h m (by simp) with hd | hc
      · simp [applyMatch, hd]
      · exact applyMatch_eq_some (hc p)
    rw [foldlM_cons, hm]
    exact ih _ (fun x hx => h x (by simp [hx]))

theorem fold_noClash {filedfa : Bool} {i : ℕ} {l : List MatchFlag} (hi : isSlot filedfa i)
    (hk : ∀ f ∈ l, ∀ g ∈ l, scaledPriority i f = scaledPriority i g) (h : NoClash filedfa i l) :
    ∃ q, l.foldlM (applyMatch filedfa i) PermsT.clear = some q := by
  rcases slot_cases hi with hx | ⟨rfl, hexec⟩
  · exact ⟨_, fold_total _ fun m _ => .inr fun q => conflict_zero hx m q⟩
  · have hkind := sameKind hexec hk
    rcases l.eq_nil_or_concat with rfl | ⟨l', x₀, hl⟩
    · exact ⟨_, rfl⟩
    have hx₀ : x₀ ∈ l := by simp [hl]
    have hall : ∀ m ∈ l, m.kind = x₀.kind := fun m hm => hkind m hm x₀ hx₀
    cases hkx : x₀.kind with
    | deny => exact ⟨_, fold_total _ fun m hm => .inl ((hall m hm).trans hkx)⟩
    | prompt =>
      obtain ⟨q, hq, _⟩ := fold_prompt hexec fun m hm => (hall m hm).trans hkx
      exact ⟨q, hq⟩
    | allow => exact fold_noClash_kind hexec .allow (.inl rfl) (fun m hm => (hall m hm).trans hkx) h
    | exact => exact fold_noClash_kind hexec .exact (.inr rfl) (fun m hm => (hall m hm).trans hkx) h

theorem foldl_of_foldlM {filedfa : Bool} {i : ℕ} {l : List MatchFlag} {q : PermsT}
    (h : l.foldlM (applyMatch filedfa i) p = some q) : l.foldl (merge filedfa i) p = q := by
  induction l generalizing p with
  | nil => exact Option.some.inj h
  | cons m l ih =>
    rw [foldlM_cons] at h
    obtain ⟨r, hr, hl⟩ := Option.bind_eq_some_iff.mp h
    unfold applyMatch at hr
    split_ifs at hr
    rw [foldl_cons, Option.some.inj hr]
    exact ih hl

section Commute

variable {filedfa : Bool} {i : ℕ} {f g : MatchFlag}

theorem or_swap (v w w' : Perm32) : v ||| w ||| w' = v ||| w' ||| w := by
  rw [BitVec.or_assoc, BitVec.or_comm w, ← BitVec.or_assoc]

theorem or_replace_comm (v x a w w' : Perm32) (h : w &&& x = w' &&& x) (hxa : x &&& a = x) :
    ((v &&& ~~~x ||| (w &&& a)) &&& ~~~x) ||| (w' &&& a) = ((v &&& ~~~x ||| (w' &&& a)) &&& ~~~x) ||| (w &&& a) := by
  apply BitVec.eq_of_getLsbD_eq
  intro k hk
  have h' := congrArg (·.getLsbD k) h
  have hxa' := congrArg (·.getLsbD k) hxa
  simp only [BitVec.getLsbD_and, BitVec.getLsbD_or, BitVec.getLsbD_not, hk, decide_true, Bool.true_and] at *
  revert h' hxa'
  cases v.getLsbD k <;> cases x.getLsbD k <;> cases a.getLsbD k <;> cases w.getLsbD k <;>
    cases w'.getLsbD k <;> simp

theorem merge_comm_exact (hf : f.kind = .exact) (hg : g.kind = .exact)
    (hp : modifiers filedfa i f = modifiers filedfa i g)
    (ha : f.audit &&& xmask filedfa i = g.audit &&& xmask filedfa i) (p : PermsT) :
    merge filedfa i (merge filedfa i p f) g = merge filedfa i (merge filedfa i p g) f := by
  have hxa : xmask filedfa i &&& amask filedfa i = xmask filedfa i := by
    apply BitVec.eq_of_getLsbD_eq
    intro k _
    cases h : (xmask filedfa i).getLsbD k with
    | false => simp [h]
    | true => simp [h, getLsbD_xmask h]
  simp only [merge, hf, hg, PermsT.mk.injEq, true_and, and_true]
  exact ⟨or_replace_comm _ _ _ _ _ hp hxa, or_replace_comm _ _ _ _ _ ha hxa⟩

theorem merge_comm_deny (hf : f.kind = .deny) (hg : g.kind = .deny)
    (hp : f.perms &&& amask filedfa i &&& compatContMatch = g.perms &&& amask filedfa i &&& compatContMatch)
    (p : PermsT) : merge filedfa i (merge filedfa i p f) g = merge filedfa i (merge filedfa i p g) f := by
  simp only [merge, hf, hg, hp, PermsT.mk.injEq, true_and]
  exact ⟨or_swap _ _ _, or_swap _ _ _⟩

theorem merge_comm_allow (hf : f.kind = .allow) (hg : g.kind = .allow) (p : PermsT) :
    merge filedfa i (merge filedfa i p f) g = merge filedfa i (merge filedfa i p g) f := by
  simp only [merge, hf, hg, PermsT.mk.injEq, true_and, and_true]
  exact ⟨or_swap _ _ _, or_swap _ _ _⟩

theorem merge_comm_prompt (hf : f.kind = .prompt) (hg : g.kind = .prompt) (p : PermsT) :
    merge filedfa i (merge filedfa i p f) g = merge filedfa i (merge filedfa i p g) f := by
  simp only [merge, hf, hg, PermsT.mk.injEq, true_and, and_true]
  exact ⟨or_swap _ _ _, or_swap _ _ _⟩

end Commute

theorem foldl_merge_perm {filedfa : Bool} {i : ℕ} {l l' : List MatchFlag} (hi : isSlot filedfa i)
    (hk : ∀ f ∈ l, ∀ g ∈ l, scaledPriority i f = scaledPriority i g) (hu : Uniform filedfa i l) (hp : l.Perm l')
    (p : PermsT) : l.foldl (merge filedfa i) p = l'.foldl (merge filedfa i) p := by
  apply hp.foldl_eq'
  intro f hf g hg p
  have huf := hu f hf g hg
  rcases kind_of_rank (hk f hf g hg) with he | ⟨hb, hfd, hgd, hfp, hgp⟩
  · cases hfk : f.kind with
    | allow => exact (merge_comm_allow hfk (he ▸ hfk) p)
    | prompt => exact (merge_comm_prompt hfk (he ▸ hfk) p)
    | deny =>
      rw [hfk] at huf
      exact merge_comm_deny hfk (he ▸ hfk) huf p
    | exact =>
      rw [hfk] at huf
      exact merge_comm_exact hfk (he ▸ hfk) huf.1 huf.2 p
  · -- without modifiers an exact flag is merged as an allow flag
    have hx : xmask filedfa i = 0 := by
      rcases slot_cases hi with hx | ⟨_, rfl | rfl⟩
      · exact hx
      · exact absurd hb (by decide)
      · exact absurd hb (by decide)
    have hz : ~~~(0 : Perm32) = BitVec.allOnes 32 := by decide
    have hcomm : ∀ m : MatchFlag, m.kind ≠ .deny → m.kind ≠ .prompt →
        ∀ q, merge filedfa i q m = merge filedfa i q { m with kind := .allow } := by
      intro m hd hpr q
      cases hm : m.kind with
      | deny => exact absurd hm hd
      | prompt => exact absurd hm hpr
      | allow => simp only [merge, hm]
      | exact => simp only [merge, hm, hx, hz, BitVec.and_allOnes]
    rw [hcomm f hfd hfp, hcomm g hgd hgp, hcomm g hgd hgp, hcomm f hfd hfp]
    exact merge_comm_allow rfl rfl p

end AppArmor.Resolve

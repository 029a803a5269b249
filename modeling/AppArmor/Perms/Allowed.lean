import AppArmor.Perms.OrderSafe

namespace AppArmor.Resolve

open Perm RankFold List Option Function

variable {filedfa : Bool} {i b : ℕ} {flags l : List MatchFlag} {s : Acc} {p q : PermsT} {m : MatchFlag} {f : PermsT → Perm32}

def Permissive (m : MatchFlag) : Prop := m.kind = .allow ∨ m.kind = .exact

def contMatchBit : ℕ := 28

theorem getLsbD_contMatch : ∀ b < 32, b ≠ contMatchBit → compatContMatch.getLsbD b = false := by decide

theorem applyMatch_eq_merge (h : applyMatch filedfa i p m = some q) : q = merge filedfa i p m := by
  unfold applyMatch at h
  split_ifs at h
  exact (some.inj h).symm

def masks : List (PermsT → Perm32) := [PermsT.allow, PermsT.deny, PermsT.prompt, PermsT.audit, PermsT.quiet]

/-- What a flag has to say about its bits, each mask for itself. -/
def gives (m : MatchFlag) : PermsT :=
  match m.kind with
  | .deny => { PermsT.clear with deny := m.perms, quiet := m.audit }
  | .prompt => { PermsT.clear with prompt := m.perms, audit := m.audit }
  | .allow | .exact => { PermsT.clear with allow := m.perms, audit := m.audit }

theorem gives_allow : (gives m).allow.getLsbD b = true ↔ Permissive m ∧ m.perms.getLsbD b = true := by
  cases hm : m.kind <;> simp [gives, Permissive, hm, PermsT.clear]

def Feeds (f : PermsT → Perm32) (b : ℕ) (m : MatchFlag) : Prop :=
  (f (gives m)).getLsbD b = true ∨ b = contMatchBit ∧ m.perms.getLsbD b = true

theorem merge_source (hf : f ∈ masks) (h : (f (merge filedfa i p m)).getLsbD b = true) :
    (f p).getLsbD b = true ∨ Feeds f b m := by
  have hcont := getLsbD_contMatch b (BitVec.lt_of_getLsbD h)
  unfold Feeds
  simp only [masks, mem_cons, not_mem_nil, or_false] at hf
  rcases hf with rfl | rfl | rfl | rfl | rfl <;> cases hm : m.kind <;>
    simp only [merge, gives, hm, BitVec.getLsbD_or, BitVec.getLsbD_and, BitVec.getLsbD_not, Bool.or_eq_true,
      Bool.and_eq_true] at h ⊢ <;> grind

/-- Only a deny flag and, on the modifiers, an exact one take anything away. -/
theorem merge_keeps (hf : f ∈ masks) (hin : (amask filedfa i).getLsbD b = true)
    (hdeny : m.kind = .deny → f ∈ [PermsT.deny, PermsT.quiet])
    (hexact : m.kind = .exact → (xmask filedfa i).getLsbD b = false)
    (h : (f p).getLsbD b = true ∨ (f (gives m)).getLsbD b = true) : (f (merge filedfa i p m)).getLsbD b = true := by
  have hlt := BitVec.lt_of_getLsbD hin
  have hnot : PermsT.allow ∉ [PermsT.deny, PermsT.quiet] ∧ PermsT.prompt ∉ [PermsT.deny, PermsT.quiet] ∧
      PermsT.audit ∉ [PermsT.deny, PermsT.quiet] := by
    have hne : ∀ p : PermsT, ∀ f g : PermsT → Perm32, f p ≠ g p → f ≠ g := fun p f g h he => h (he ▸ rfl)
    simp only [mem_cons, not_mem_nil, or_false, not_or]
    exact ⟨⟨hne ⟨1, 0, 0, 0, 0⟩ _ _ (by decide), hne ⟨1, 0, 0, 0, 0⟩ _ _ (by decide)⟩,
      ⟨hne ⟨0, 0, 1, 0, 0⟩ _ _ (by decide), hne ⟨0, 0, 1, 0, 0⟩ _ _ (by decide)⟩,
      hne ⟨0, 0, 0, 1, 0⟩ _ _ (by decide), hne ⟨0, 0, 0, 1, 0⟩ _ _ (by decide)⟩
  simp only [masks, mem_cons, not_mem_nil, or_false] at hf
  rcases hf with rfl | rfl | rfl | rfl | rfl <;> cases hm : m.kind <;>
    simp_all [merge, gives, PermsT.clear]

theorem foldlM_source (hf : f ∈ masks) (h : l.foldlM (applyMatch filedfa i) p = some q)
    (hq : (f q).getLsbD b = true) : (f p).getLsbD b = true ∨ ∃ m ∈ l, Feeds f b m := by
  induction l generalizing p with
  | nil =>
    rw [some.inj h]
    exact Or.inl hq
  | cons m l ih =>
    rw [foldlM_cons] at h
    obtain ⟨p', hp', hq'⟩ := bind_eq_some_iff.mp h
    rcases ih hq' with hbit | ⟨m', hm', hsource⟩
    · rw [applyMatch_eq_merge hp'] at hbit
      exact (merge_source hf hbit).imp id fun hm => ⟨m, mem_cons_self, hm⟩
    · exact Or.inr ⟨m', mem_cons_of_mem _ hm', hsource⟩

theorem foldlM_keeps (hf : f ∈ masks) (hin : (amask filedfa i).getLsbD b = true)
    (hdeny : ∀ m ∈ l, m.kind = .deny → f ∈ [PermsT.deny, PermsT.quiet])
    (hexact : ∀ m ∈ l, m.kind = .exact → (xmask filedfa i).getLsbD b = false)
    (hbit : (f p).getLsbD b = true ∨ ∃ m ∈ l, (f (gives m)).getLsbD b = true)
    (h : l.foldlM (applyMatch filedfa i) p = some q) : (f q).getLsbD b = true := by
  induction l generalizing p with
  | nil =>
    rw [← some.inj h]
    simpa using hbit
  | cons m l ih =>
    rw [foldlM_cons] at h
    obtain ⟨p', hp', hq⟩ := bind_eq_some_iff.mp h
    have hhead := @merge_keeps filedfa i b p m f hf hin (hdeny m mem_cons_self) (hexact m mem_cons_self)
    rw [← applyMatch_eq_merge hp'] at hhead
    refine ih (fun m' hm' => hdeny m' (mem_cons_of_mem _ hm')) (fun m' hm' => hexact m' (mem_cons_of_mem _ hm')) ?_ hq
    rcases hbit with hbit | ⟨m', hm', hbit⟩
    · exact Or.inl (hhead (Or.inl hbit))
    · rcases mem_cons.mp hm' with rfl | hm'
      · exact Or.inl (hhead (Or.inr hbit))
      · exact Or.inr ⟨m', hm', hbit⟩

def Leads (filedfa : Bool) (i : ℕ) (flags : List MatchFlag) (m : MatchFlag) : Prop :=
  m ∈ flags ∧ carries filedfa i m = true ∧ initialPriority ≤ scaledPriority i m ∧
    ∀ m' ∈ flags, carries filedfa i m' = true → scaledPriority i m' ≤ scaledPriority i m

theorem within_getLsbD (hf : f ∈ masks) (hin : (amask filedfa i).getLsbD b = true) :
    (f (p.within (amask filedfa i))).getLsbD b = (f p).getLsbD b := by
  simp only [masks, mem_cons, not_mem_nil, or_false] at hf
  rcases hf with rfl | rfl | rfl | rfl | rfl <;> simp [PermsT.within, hin]

section Slot

variable (hs : flags.foldlM (visit filedfa) accInit = some s) (hi : isSlot filedfa i)

include hs hi

theorem slotRun_of_fold : slotRun filedfa i flags = some (s.priority i, s.perms.within (amask filedfa i)) := by
  have hviews := fold_views filedfa flags
  rw [hs] at hviews
  exact hviews i hi

theorem slot_level : level (scaledPriority i) (applyMatch filedfa i) PermsT.clear (s.priority i) (carriers filedfa i flags) =
    some (s.perms.within (amask filedfa i)) := (run_some_level (slotRun_of_fold hs hi)).2.1

theorem initial_le_slot : initialPriority ≤ s.priority i := (run_some_level (slotRun_of_fold hs hi)).1

theorem rank_le_slot (hm : m ∈ flags) (hc : carries filedfa i m) : scaledPriority i m ≤ s.priority i :=
  (run_some_level (slotRun_of_fold hs hi)).2.2.1 m (mem_filter.mpr ⟨hm, hc⟩)

theorem leads_iff : Leads filedfa i flags m ↔
    m ∈ atRank (scaledPriority i) (s.priority i) (carriers filedfa i flags) := by
  rw [mem_atRank, carriers, mem_filter]
  constructor
  · rintro ⟨hm, hc, hinit, htop⟩
    refine ⟨⟨hm, hc⟩, le_antisymm (rank_le_slot hs hi hm hc) ?_⟩
    rcases (initial_le_slot hs hi).eq_or_lt with heq | hlt
    · exact heq ▸ hinit
    · obtain ⟨m', hm', hrank⟩ := (run_some_level (slotRun_of_fold hs hi)).2.2.2 hlt
      obtain ⟨hmem, hc'⟩ := mem_filter.mp hm'
      exact hrank ▸ htop m' hmem hc'
  · rintro ⟨⟨hm, hc⟩, hrank⟩
    exact ⟨hm, hc, hrank ▸ initial_le_slot hs hi, fun m' hm' hc' => hrank ▸ rank_le_slot hs hi hm' hc'⟩

theorem slot_feed (hf : f ∈ masks) (hin : (amask filedfa i).getLsbD b = true)
    (h : (f s.perms).getLsbD b = true) : ∃ m, Leads filedfa i flags m ∧ Feeds f b m := by
  rw [← within_getLsbD hf hin] at h
  rcases foldlM_source hf (slot_level hs hi) h with hclear | ⟨m, hm, hbit⟩
  · simp only [masks, mem_cons, not_mem_nil, or_false] at hf
    rcases hf with rfl | rfl | rfl | rfl | rfl <;> simp [PermsT.clear] at hclear
  · exact ⟨m, (leads_iff hs hi).mpr hm, hbit⟩

theorem slot_source (hf : f ∈ masks) (hb : b ≠ contMatchBit) (hin : (amask filedfa i).getLsbD b = true)
    (h : (f s.perms).getLsbD b = true) : ∃ m, Leads filedfa i flags m ∧ (f (gives m)).getLsbD b = true := by
  obtain ⟨m, hm, hfeed⟩ := slot_feed hs hi hf hin h
  exact ⟨m, hm, hfeed.resolve_right fun hcont => hb hcont.1⟩

theorem slot_keeps (hf : f ∈ masks) (hin : (amask filedfa i).getLsbD b = true)
    (hexact : ∀ m, Leads filedfa i flags m → m.kind = .exact → (xmask filedfa i).getLsbD b = false)
    (hm : Leads filedfa i flags m) (hbit : (f (gives m)).getLsbD b = true) : (f s.perms).getLsbD b = true := by
  rw [← within_getLsbD hf hin]
  refine foldlM_keeps hf hin (fun m' hm' hdeny => ?_) (fun m' hm' => hexact m' ((leads_iff hs hi).mpr hm'))
    (Or.inr ⟨m, (leads_iff hs hi).mp hm, hbit⟩) (slot_level hs hi)
  have hrank := (mem_atRank.mp hm').2.trans (mem_atRank.mp ((leads_iff hs hi).mp hm)).2.symm
  have hkind : m.kind = .deny := by
    rcases kind_of_rank hrank with hkind | ⟨-, hne, -⟩
    · exact hkind ▸ hdeny
    · exact absurd hdeny hne
  simp only [masks, mem_cons, not_mem_nil, or_false] at hf
  rcases hf with rfl | rfl | rfl | rfl | rfl <;> simp [gives, hkind, PermsT.clear] at hbit ⊢

theorem slot_allow_source (hin : (amask filedfa i).getLsbD b = true) (ha : s.perms.allow.getLsbD b = true) :
    ∃ m ∈ flags, carries filedfa i m = true ∧ (b = contMatchBit ∨ Permissive m) ∧ m.perms.getLsbD b = true ∧
      scaledPriority i m = s.priority i := by
  obtain ⟨m, hm, hfeed⟩ := slot_feed hs hi (by simp [masks]) hin ha
  refine ⟨m, hm.1, hm.2.1, ?_⟩
  rw [and_iff_left (mem_atRank.mp ((leads_iff hs hi).mp hm)).2]
  rcases hfeed with hbit | ⟨hcont, hbit⟩
  · exact (gives_allow.mp hbit).imp Or.inr id
  · exact ⟨Or.inl hcont, hbit⟩

end Slot

theorem scaledPriority_permissive (hm : Permissive m) : scaledPriority i m ≤ m.priority * 4 + 2 := by
  unfold scaledPriority
  rcases hm with hm | hm
  · rw [hm]
    dsimp only
    omega
  · rw [hm]
    dsimp only
    split_ifs <;> omega

theorem scaledPriority_deny (hm : m.kind = .deny) : scaledPriority i m = m.priority * 4 + 3 := by
  rw [scaledPriority, hm]

def Decides (filedfa : Bool) (i : ℕ) (flags : List MatchFlag) (m : MatchFlag) : Prop :=
  m ∈ flags ∧ Permissive m ∧ m.perms.getLsbD i = true ∧ initialPriority ≤ scaledPriority i m ∧
    ∀ m' ∈ flags, carries filedfa i m' = true → scaledPriority i m' ≤ scaledPriority i m

theorem carries_of_perms (hslot : isSlot filedfa i) (h : m.perms.getLsbD i = true) : carries filedfa i m = true := by
  have hlt := isSlot_lt hslot
  cases filedfa with
  | false => simp [carries, check, h]
  | true =>
    simp only [isSlot, Bool.true_and, Bool.and_eq_true, Bool.not_eq_true'] at hslot
    simp only [carries, check, ↓reduceIte, BitVec.getLsbD_and, BitVec.getLsbD_or, BitVec.getLsbD_not, h, hslot.2, hlt,
      decide_true, Bool.true_or, Bool.not_false, Bool.and_true]

theorem slot_allow_iff (hs : flags.foldlM (visit filedfa) accInit = some s) (hi : isSlot filedfa i)
    (hx : xmask filedfa i = 0) (hcont : i ≠ contMatchBit) :
    s.perms.allow.getLsbD i = true ↔ ∃ m, Decides filedfa i flags m := by
  have hmask : (amask filedfa i).getLsbD i = true := getLsbD_amask_self (isSlot_lt hi)
  constructor
  · intro ha
    obtain ⟨m, ⟨hm, -, hinit, htop⟩, hbit⟩ := slot_source hs hi (by simp [masks]) hcont hmask ha
    exact ⟨m, hm, (gives_allow.mp hbit).1, (gives_allow.mp hbit).2, hinit, htop⟩
  · rintro ⟨m, hm, hper, hbit, hinit, htop⟩
    exact slot_keeps hs hi (by simp [masks]) hmask (fun _ _ _ => by simp [hx]) ⟨hm, carries_of_perms hi hbit, hinit, htop⟩
      (gives_allow.mpr ⟨hper, hbit⟩)

theorem slot_denied (hs : flags.foldlM (visit filedfa) accInit = some s) (hi : isSlot filedfa i) (hcont : i ≠ contMatchBit)
    {d : MatchFlag} (hd : d ∈ flags) (hkind : d.kind = .deny) (hbit : d.perms.getLsbD i = true)
    (hle : ∀ m ∈ flags, m.perms.getLsbD i = true → m.priority ≤ d.priority) :
    d.priority * 4 + 3 ≤ s.priority i ∧ s.perms.allow.getLsbD i = false := by
  have hrank := rank_le_slot hs hi hd (carries_of_perms hi hbit)
  rw [scaledPriority_deny hkind] at hrank
  refine ⟨hrank, Bool.eq_false_iff.mpr fun ha => ?_⟩
  obtain ⟨m, hm, -, hper, hmi, hm'⟩ := slot_allow_source hs hi (getLsbD_amask_self (isSlot_lt hi)) ha
  have hbelow := @scaledPriority_permissive i m (hper.resolve_left hcont)
  have := hle m hm hmi
  omega

theorem getLsbD_bit_iff (hi : i < 32) : (bit i).getLsbD b = true ↔ b = i := by
  rw [bit, ← BitVec.twoPow_eq, BitVec.getLsbD_twoPow]
  simp [hi, eq_comm]

/-- The implied `m` of an inherited exec wins over whatever the flags say about `m` at the same rank or below. -/
def Implies (s : Acc) (x mmap : ℕ) (inherit : Perm32) : Prop :=
  s.perms.allow.getLsbD x = true ∧ hits s.perms.allow inherit = true ∧ s.priority mmap ≤ s.priority x

theorem impliedMmap_allow_iff : (impliedMmap filedfa s).allow.getLsbD b = true ↔ s.perms.allow.getLsbD b = true ∨
    filedfa = true ∧ (b = execMmapShift ∧ Implies s mayExecShift execMmapShift execInherit ∨
      b = execOtherMmapShift ∧ Implies s mayOtherExecShift execOtherMmapShift otherExecInherit) := by
  have hcomm : ∀ v w : Perm32, hits v w = hits w v := fun v w => by rw [hits, BitVec.and_comm, hits]
  have hexec : hits s.perms.allow execBits =
      (s.perms.allow.getLsbD mayExecShift || s.perms.allow.getLsbD mayOtherExecShift) := by
    rw [hcomm, show execBits = bit mayExecShift ||| bit mayOtherExecShift by decide, hits_or, hcomm (bit _), hits_bit (by decide),
      hcomm (bit _), hits_bit (by decide)]
  have huser := hits_bit (show mayExecShift < 32 by decide) s.perms.allow
  have hother := hits_bit (show mayOtherExecShift < 32 by decide) s.perms.allow
  have h6 := @getLsbD_bit_iff execMmapShift b (by decide)
  have h20 := @getLsbD_bit_iff execOtherMmapShift b (by decide)
  unfold impliedMmap addImpliedIxMmap Implies
  rw [show mayExec = bit mayExecShift from rfl, show otherExec = bit mayOtherExecShift from rfl,
    show userExecMmap = bit execMmapShift from rfl, show otherExecMmap = bit execOtherMmapShift by decide]
  have hset : ∀ v : Perm32, hits (v ||| bit execMmapShift) (bit mayOtherExecShift) = v.getLsbD mayOtherExecShift ∧
      hits (v ||| bit execMmapShift) otherExecInherit = hits v otherExecInherit := by
    intro v
    rw [hits_or, hits_or, hits_bit (by decide), show hits (bit execMmapShift) (bit mayOtherExecShift) = false by decide,
      show hits (bit execMmapShift) otherExecInherit = false by decide, Bool.or_false, Bool.or_false]
    exact ⟨rfl, rfl⟩
  have hpri : ∀ v, update s.priority execMmapShift v execOtherMmapShift = s.priority execOtherMmapShift ∧
      update s.priority execMmapShift v mayOtherExecShift = s.priority mayOtherExecShift := fun v =>
    ⟨update_of_ne (by decide) _ _, update_of_ne (by decide) _ _⟩
  dsimp only
  split_ifs with hfile h1 h2 h2 <;> simp_all <;> grind

theorem impliedMmap_source (ha : (impliedMmap filedfa s).allow.getLsbD b = true) :
    s.perms.allow.getLsbD b = true ∨
      (b = execMmapShift ∧ s.perms.allow.getLsbD mayExecShift = true ∧ s.priority execMmapShift ≤ s.priority mayExecShift) ∨
      b = execOtherMmapShift ∧ hits s.perms.allow otherExecInherit = true := by
  refine (impliedMmap_allow_iff.mp ha).imp id fun h => h.2.imp (fun h => ?_) fun h => ?_
  · exact ⟨h.1, h.2.1, h.2.2.2⟩
  · exact ⟨h.1, h.2.2.1⟩

theorem impliedMmap_bit (hb : mmapBits.getLsbD b = false) : (impliedMmap filedfa s).allow.getLsbD b = s.perms.allow.getLsbD b := by
  by_cases hlt : b < 32
  · have hand : mmapBits &&& bit b = 0 := by
      have hhits := hits_bit hlt mmapBits
      rw [hb] at hhits
      simpa [hits] using hhits
    have hallow := congrArg (·.getLsbD b) (@impliedMmap_allow filedfa _ hand s)
    simpa [getLsbD_bit hlt] using hallow
  · rw [BitVec.getLsbD_of_ge _ _ (not_lt.mp hlt), BitVec.getLsbD_of_ge _ _ (not_lt.mp hlt)]

end AppArmor.Resolve

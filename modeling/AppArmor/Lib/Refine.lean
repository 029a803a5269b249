import Mathlib.Data.List.Perm.Basic
import Mathlib.Data.List.Nodup
import Mathlib.Tactic

namespace AppArmor.Refine

open List

structure Block (σ : Type*) where
  id : ℕ
  members : List σ

structure Partition (σ : Type*) where
  part : σ → ℕ
  blocks : List (Block σ)
  fresh : ℕ

namespace Partition

variable {σ : Type*}

def empty : Partition σ := ⟨fun _ => 0, [], 0⟩

variable [DecidableEq σ]

def newBlock (p : Partition σ) (s : σ) : Partition σ :=
  ⟨Function.update p.part s p.fresh, p.blocks ++ [⟨p.fresh, [s]⟩], p.fresh + 1⟩

def pushBack (p : Partition σ) (i : ℕ) (s : σ) : Partition σ :=
  { p with
    part := Function.update p.part s i
    blocks := p.blocks.map fun b => if b.id = i then ⟨b.id, b.members ++ [s]⟩ else b }

end Partition

section Algorithm

variable {σ : Type*} [DecidableEq σ] (same : (σ → ℕ) → σ → σ → Bool)

def pass : ℕ → List (Block σ) → List (Block σ) → (σ → ℕ) → ℕ → Option (Partition σ)
  | _, done, [], part, fresh => some ⟨part, done, fresh⟩
  | 0, _, _ :: _, _, _ => none
  | n + 1, done, ⟨_, []⟩ :: todo, part, fresh => pass n done todo part fresh
  | n + 1, done, ⟨i, rep :: ms⟩ :: todo, part, fresh =>
    let keep := ms.filter (same part rep)
    let moved := ms.filter fun s => !same part rep s
    if moved.isEmpty then pass n (done ++ [⟨i, rep :: ms⟩]) todo part fresh
    else
      -- the ids change only now: the pass above compares under the old ones
      pass n (done ++ [⟨i, rep :: keep⟩]) (⟨fresh, moved⟩ :: todo) (fun s => if s ∈ moved then fresh else part s)
        (fresh + 1)

def repartition (size : ℕ) : ℕ → Partition σ → Option (Partition σ)
  | 0, _ => none
  | n + 1, p =>
    match pass same size [] p.blocks p.part p.fresh with
    | none => none
    | some q => if q.fresh = p.fresh then some q else repartition size n q

end Algorithm

section Invariant

variable {σ : Type*} {states : List σ}

structure Valid (states : List σ) (p : Partition σ) : Prop where
  perm : (p.blocks.flatMap Block.members).Perm states
  nonempty : ∀ b ∈ p.blocks, b.members ≠ []
  ids : (p.blocks.map Block.id).Nodup
  id_lt : ∀ b ∈ p.blocks, b.id < p.fresh
  part : ∀ b ∈ p.blocks, ∀ s ∈ b.members, p.part s = b.id

theorem length_le_flatMap {l : List (Block σ)} (h : ∀ b ∈ l, b.members ≠ []) :
    l.length ≤ (l.flatMap Block.members).length := by
  induction l with
  | nil => simp
  | cons b l ih =>
    have hb := length_pos_iff.mpr (h b (by simp))
    have hl := ih fun c hc => h c (mem_cons_of_mem _ hc)
    rw [flatMap_cons, length_append, length_cons]
    omega

namespace Valid

variable {p : Partition σ}

theorem length_le (h : Valid states p) : p.blocks.length ≤ states.length :=
  (length_le_flatMap h.nonempty).trans_eq h.perm.length_eq

theorem mem_states (h : Valid states p) {b : Block σ} (hb : b ∈ p.blocks) {s : σ} (hs : s ∈ b.members) : s ∈ states :=
  h.perm.mem_iff.mp (mem_flatMap.mpr ⟨b, hb, hs⟩)

theorem exists_block (h : Valid states p) {s : σ} (hs : s ∈ states) : ∃ b ∈ p.blocks, s ∈ b.members ∧ p.part s = b.id := by
  obtain ⟨b, hb, hm⟩ := mem_flatMap.mp (h.perm.mem_iff.mpr hs)
  exact ⟨b, hb, hm, h.part b hb s hm⟩

theorem block_eq (h : Valid states p) {a b : Block σ} (ha : a ∈ p.blocks) (hb : b ∈ p.blocks) (hid : a.id = b.id) :
    a = b := inj_on_of_nodup_map h.ids ha hb hid

theorem part_eq_iff (h : Valid states p) {s t : σ} (hs : s ∈ states) (ht : t ∈ states) :
    p.part s = p.part t ↔ ∃ b ∈ p.blocks, s ∈ b.members ∧ t ∈ b.members := by
  constructor
  · intro he
    obtain ⟨a, ha, hsa, hpa⟩ := h.exists_block hs
    obtain ⟨b, hb, htb, hpb⟩ := h.exists_block ht
    have hab : a = b := h.block_eq ha hb (by rw [← hpa, ← hpb, he])
    exact ⟨a, ha, hsa, hab ▸ htb⟩
  · rintro ⟨b, hb, hsb, htb⟩
    rw [h.part b hb s hsb, h.part b hb t htb]

theorem mem_unique (h : Valid states p) {a b : Block σ} (ha : a ∈ p.blocks) (hb : b ∈ p.blocks) {s : σ}
    (hsa : s ∈ a.members) (hsb : s ∈ b.members) : a = b :=
  h.block_eq ha hb (by rw [← h.part a ha s hsa, h.part b hb s hsb])

section Grow

theorem empty : Valid [] (Partition.empty : Partition σ) := by
  constructor <;> simp [Partition.empty]

theorem part_lt (h : Valid states p) {s : σ} (hs : s ∈ states) : p.part s < p.fresh := by
  obtain ⟨b, hb, _, he⟩ := h.exists_block hs
  exact he ▸ h.id_lt b hb

theorem flatMap_pushBack {l : List (Block σ)} {b : Block σ} (s : σ) (hb : b ∈ l) (hids : (l.map Block.id).Nodup) :
    ((l.map fun a => if a.id = b.id then ⟨a.id, a.members ++ [s]⟩ else a).flatMap Block.members).Perm
      (l.flatMap Block.members ++ [s]) := by
  induction l with
  | nil => simp at hb
  | cons a l ih =>
    obtain ⟨ha, hl⟩ := nodup_cons.mp hids
    simp only [map_cons, flatMap_cons]
    by_cases he : a.id = b.id
    · have hrest : (l.map fun a => if a.id = b.id then (⟨a.id, a.members ++ [s]⟩ : Block σ) else a) = l := by
        refine (map_congr_left fun c hc => if_neg fun h => ha ?_).trans (map_id l)
        exact mem_map.mpr ⟨c, hc, h.trans he.symm⟩
      rw [if_pos he, hrest, append_assoc, append_assoc]
      exact perm_append_comm.append_left _
    · have hbl : b ∈ l := (mem_cons.mp hb).resolve_left fun h => he (by rw [h])
      rw [if_neg he, append_assoc]
      exact (ih hbl hl).append_left _

variable [DecidableEq σ]

theorem newBlock (h : Valid states p) {s : σ} (hs : s ∉ states) : Valid (states ++ [s]) (p.newBlock s) where
  perm := by
    simp only [Partition.newBlock, flatMap_append, flatMap_singleton]
    exact h.perm.append_right _
  nonempty := by
    intro b hb
    rcases mem_append.mp hb with hb | hb
    · exact h.nonempty b hb
    · simp [mem_singleton.mp hb]
  ids := by
    simp only [Partition.newBlock, map_append, map_cons, map_nil]
    refine nodup_append.mpr ⟨h.ids, nodup_singleton _, ?_⟩
    intro i hi j hj
    obtain ⟨b, hb, rfl⟩ := mem_map.mp hi
    rw [mem_singleton.mp hj]
    exact (h.id_lt b hb).ne
  id_lt := by
    intro b hb
    rcases mem_append.mp hb with hb | hb
    · exact (h.id_lt b hb).trans (Nat.lt_succ_self _)
    · rw [mem_singleton.mp hb]
      exact Nat.lt_succ_self _
  part := by
    intro b hb t ht
    rcases mem_append.mp hb with hb | hb
    · have hne : t ≠ s := fun he => hs (he ▸ h.mem_states hb ht)
      simpa [Partition.newBlock, hne] using h.part b hb t ht
    · rw [mem_singleton.mp hb] at ht ⊢
      rw [mem_singleton.mp ht]
      simp [Partition.newBlock]

theorem pushBack (h : Valid states p) {s : σ} (hs : s ∉ states) {b : Block σ} (hb : b ∈ p.blocks) :
    Valid (states ++ [s]) (p.pushBack b.id s) := by
  have hblocks : ∀ c ∈ (p.pushBack b.id s).blocks, ∃ a ∈ p.blocks, c.id = a.id ∧
      c.members = if a.id = b.id then a.members ++ [s] else a.members := by
    intro c hc
    obtain ⟨a, ha, rfl⟩ := mem_map.mp hc
    refine ⟨a, ha, ?_⟩
    split_ifs <;> exact ⟨rfl, rfl⟩
  refine ⟨?_, ?_, ?_, ?_, ?_⟩
  · exact (flatMap_pushBack s hb h.ids).trans (h.perm.append_right _)
  · intro c hc
    obtain ⟨a, ha, _, hm⟩ := hblocks c hc
    rw [hm]
    split_ifs
    · simp
    · exact h.nonempty a ha
  · have hids : (p.pushBack b.id s).blocks.map Block.id = p.blocks.map Block.id := by
      simp only [Partition.pushBack, map_map]
      refine map_congr_left fun a _ => ?_
      rw [Function.comp_apply]
      split_ifs <;> rfl
    rw [hids]
    exact h.ids
  · intro c hc
    obtain ⟨a, ha, hid, _⟩ := hblocks c hc
    exact hid ▸ h.id_lt a ha
  · intro c hc t ht
    obtain ⟨a, ha, hid, hm⟩ := hblocks c hc
    rw [hm] at ht
    rw [hid]
    by_cases hts : t = s
    · subst hts
      split_ifs at ht with he
      · simp [Partition.pushBack, he]
      · exact absurd (h.mem_states ha ht) hs
    · have hta : t ∈ a.members := by
        split_ifs at ht with he
        · exact (mem_append.mp ht).resolve_right fun h => hts (mem_singleton.mp h)
        · exact ht
      simpa [Partition.pushBack, hts] using h.part a ha t hta

end Grow

end Valid

variable {κ : Type*} (key : (σ → ℕ) → σ → κ) (states)

def Coarser (E : σ → σ → Prop) (part : σ → ℕ) : Prop := ∀ s ∈ states, ∀ t ∈ states, E s t → part s = part t

def Respects (E : σ → σ → Prop) : Prop :=
  ∀ part, Coarser states E part → ∀ s ∈ states, ∀ t ∈ states, E s t → key part s = key part t

structure Splits (p q : Partition σ) : Prop where
  fresh_le : p.fresh ≤ q.fresh
  length : q.blocks.length = p.blocks.length + (q.fresh - p.fresh)
  refines : ∀ s ∈ states, ∀ t ∈ states, q.part s = q.part t → p.part s = p.part t
  coarser : ∀ E, Respects states key E → Coarser states E p.part → Coarser states E q.part

variable {key states}

theorem Splits.refl (p : Partition σ) : Splits states key p p :=
  ⟨le_refl _, by omega, fun _ _ _ _ h => h, fun _ _ h => h⟩

theorem Splits.trans {p q r : Partition σ} (h₁ : Splits states key p q) (h₂ : Splits states key q r) :
    Splits states key p r := by
  refine ⟨h₁.fresh_le.trans h₂.fresh_le, ?_, ?_, fun E hE h => h₂.coarser E hE (h₁.coarser E hE h)⟩
  · have := h₁.length
    have := h₁.fresh_le
    have := h₂.length
    have := h₂.fresh_le
    omega
  · exact fun s hs t ht h => h₁.refines s hs t ht (h₂.refines s hs t ht h)

end Invariant

section Correct

variable {σ κ : Type*} [DecidableEq σ] {states : List σ} {same : (σ → ℕ) → σ → σ → Bool}
  {key : (σ → ℕ) → σ → κ}

section Split

variable {l₁ l₂ : List (Block σ)} {i fresh : ℕ} {ms : List σ} {rep : σ} {part : σ → ℕ} {keep : σ → Bool}

theorem Valid.split (hnd : states.Nodup) (h : Valid states ⟨part, l₁ ++ ⟨i, rep :: ms⟩ :: l₂, fresh⟩)
    (hmoved : (ms.filter fun s => !keep s) ≠ []) :
    Valid states ⟨fun s => if s ∈ ms.filter (fun s => !keep s) then fresh else part s,
      l₁ ++ ⟨i, rep :: ms.filter keep⟩ :: ⟨fresh, ms.filter fun s => !keep s⟩ :: l₂, fresh + 1⟩ := by
  have hflat := h.perm.nodup_iff.mpr hnd
  have hrep : i < fresh := h.id_lt ⟨i, rep :: ms⟩ (by simp)
  simp only [flatMap_append, flatMap_cons, nodup_append, nodup_cons, mem_append,
    mem_cons, cons_append] at hflat
  have hrepms := hflat.2.1.1
  -- an element of another block does not move
  have hother : ∀ b ∈ l₁ ++ l₂, ∀ s ∈ b.members, s ∉ ms := by
    intro b hb s hs hms
    have hi := h.part ⟨i, rep :: ms⟩ (by simp) s (by simp [hms])
    have hb' := h.part b (by simp only [mem_append, mem_cons] at hb ⊢; tauto) s hs
    have hids := h.ids
    simp only [map_append, map_cons, nodup_append, nodup_cons, mem_map, mem_cons]
      at hids
    rcases mem_append.mp hb with hb | hb
    · exact hids.2.2 b.id ⟨b, hb, rfl⟩ i (.inl rfl) (hb'.symm.trans hi)
    · exact hids.2.1.1 ⟨b, hb, hb'.symm.trans hi⟩
  have hin : ∀ b ∈ l₁ ++ l₂, b ∈ l₁ ++ ⟨i, rep :: ms⟩ :: l₂ := by
    intro b hb
    simp only [mem_append, mem_cons] at hb ⊢
    tauto
  have hcases : ∀ b ∈ l₁ ++ ⟨i, rep :: ms.filter keep⟩ :: ⟨fresh, ms.filter fun s => !keep s⟩ :: l₂,
      b ∈ l₁ ++ l₂ ∨ b = ⟨i, rep :: ms.filter keep⟩ ∨ b = ⟨fresh, ms.filter fun s => !keep s⟩ := by
    intro b hb
    simp only [mem_append, mem_cons] at hb ⊢
    tauto
  refine ⟨?_, ?_, ?_, ?_, ?_⟩
  · refine List.Perm.trans ?_ h.perm
    simp only [flatMap_append, flatMap_cons, cons_append]
    refine List.Perm.append_left _ (List.Perm.cons _ ?_)
    rw [← append_assoc]
    exact (filter_append_perm keep ms).append_right _
  · intro b hb
    rcases hcases b hb with hb | rfl | rfl
    · exact h.nonempty b (hin b hb)
    · simp
    · exact hmoved
  · have hids := h.ids
    have hlt : ∀ b ∈ l₁ ++ l₂, b.id < fresh := fun b hb => h.id_lt b (hin b hb)
    simp only [map_append, map_cons] at hids ⊢
    have hfresh : fresh ∉ l₁.map Block.id ++ i :: l₂.map Block.id := by
      intro hm
      simp only [mem_append, mem_cons, mem_map] at hm
      rcases hm with ⟨b, hb, he⟩ | he | ⟨b, hb, he⟩
      · exact absurd he (hlt b (mem_append_left _ hb)).ne
      · exact hrep.ne' he
      · exact absurd he (hlt b (mem_append_right _ hb)).ne
    refine (List.Perm.nodup_iff ?_).mpr (nodup_cons.mpr ⟨hfresh, hids⟩)
    rw [append_cons _ i (fresh :: _), append_cons _ i (l₂.map _)]
    exact perm_middle
  · intro b hb
    rcases hcases b hb with hb | rfl | rfl
    · exact (h.id_lt b (hin b hb)).trans (Nat.lt_succ_self _)
    · exact hrep.trans (Nat.lt_succ_self _)
    · exact Nat.lt_succ_self _
  · intro b hb s hs
    dsimp only
    rcases hcases b hb with hb | rfl | rfl
    · rw [if_neg (fun hm => hother b hb s hs (mem_of_mem_filter hm))]
      exact h.part b (hin b hb) s hs
    · rw [if_neg]
      · exact h.part ⟨i, rep :: ms⟩ (by simp) s
          (by rcases mem_cons.mp hs with rfl | hs
              · simp
              · exact mem_cons_of_mem _ (mem_of_mem_filter hs))
      · intro hm
        rcases mem_cons.mp hs with rfl | hs
        · exact hrepms (.inl (mem_of_mem_filter hm))
        · rw [mem_filter] at hs hm
          simp [hs.2] at hm
    · exact if_pos hs

theorem Splits.split (hsame : ∀ part s t, same part s t = true ↔ key part s = key part t)
    (h : Valid states ⟨part, l₁ ++ ⟨i, rep :: ms⟩ :: l₂, fresh⟩) :
    Splits states key ⟨part, l₁ ++ ⟨i, rep :: ms⟩ :: l₂, fresh⟩
      ⟨fun s => if s ∈ ms.filter (fun s => !same part rep s) then fresh else part s,
        l₁ ++ ⟨i, rep :: ms.filter (same part rep)⟩ :: ⟨fresh, ms.filter fun s => !same part rep s⟩ :: l₂,
        fresh + 1⟩ := by
  have hpart : ∀ s ∈ ms, part s = i := fun s hs => h.part ⟨i, rep :: ms⟩ (by simp) s (by simp [hs])
  have hlt : ∀ s ∈ states, part s < fresh := fun s hs => h.part_lt hs
  refine ⟨Nat.le_succ _, by simp; omega, ?_, ?_⟩
  · intro s hs t ht he
    dsimp only at he ⊢
    split_ifs at he with h₁ h₂ h₂
    · rw [hpart s (mem_of_mem_filter h₁), hpart t (mem_of_mem_filter h₂)]
    · exact absurd he (hlt t ht).ne'
    · exact absurd he (hlt s hs).ne
    · exact he
  · intro E hE hc s hs t ht hst
    have hkey := hE part hc s hs t ht hst
    have hpst : part s = part t := hc s hs t ht hst
    -- the two are compared with `rep` alike, and they are in `ms` together
    have hmem : same part rep s = same part rep t := by
      rw [Bool.eq_iff_iff, hsame, hsame, hkey]
    have hboth : ∀ u ∈ states, ∀ v ∈ states, part u = part v → same part rep u = same part rep v →
        u ∈ ms.filter (fun s => !same part rep s) → v ∈ ms.filter (fun s => !same part rep s) := by
      intro u hu v hv he hm hin
      rw [mem_filter] at hin ⊢
      refine ⟨?_, hm ▸ hin.2⟩
      obtain ⟨b, hb, hvb, hid⟩ := h.exists_block hv
      have hb' : b = ⟨i, rep :: ms⟩ := h.block_eq hb (by simp) (by rw [← hid, ← hpart u hin.1]; exact he.symm)
      subst hb'
      rcases mem_cons.mp hvb with rfl | hvb
      · have hrefl : same part v v = true := (hsame part v v).mpr rfl
        simp [hm, hrefl] at hin
      · exact hvb
    dsimp only
    by_cases hin : s ∈ ms.filter (fun s => !same part rep s)
    · rw [if_pos hin, if_pos (hboth s hs t ht hpst hmem hin)]
    · rw [if_neg hin, if_neg fun h => hin (hboth t ht s hs hpst.symm hmem.symm h), hpst]

end Split

theorem pass_spec (hnd : states.Nodup) (hsame : ∀ part s t, same part s t = true ↔ key part s = key part t) (n : ℕ)
    {done todo : List (Block σ)} {part : σ → ℕ} {fresh : ℕ} (h : Valid states ⟨part, done ++ todo, fresh⟩)
    (hfuel : states.length ≤ n + done.length) :
    ∃ q, pass same n done todo part fresh = some q ∧ Valid states q ∧
      Splits states key ⟨part, done ++ todo, fresh⟩ q ∧
      (q.fresh = fresh → q.part = part ∧
        ∀ b ∈ todo, ∀ s ∈ b.members, ∀ t ∈ b.members, key part s = key part t) := by
  induction n generalizing done todo part fresh with
  | zero =>
    have hle := h.length_le
    rw [List.length_append] at hle
    have htodo : todo = [] := List.length_eq_zero_iff.mp (by omega)
    subst htodo
    rw [List.append_nil] at h ⊢
    exact ⟨_, rfl, h, .refl _, fun _ => ⟨rfl, by simp⟩⟩
  | succ n ih =>
    rcases todo with _ | ⟨⟨i, _ | ⟨rep, ms⟩⟩, todo⟩
    · rw [List.append_nil] at h ⊢
      exact ⟨_, rfl, h, .refl _, fun _ => ⟨rfl, by simp⟩⟩
    · exact absurd rfl (h.nonempty ⟨i, []⟩ (by simp))
    · rw [pass]
      simp only [List.isEmpty_iff]
      by_cases hmoved : (ms.filter fun s => !same part rep s) = []
      · rw [if_pos hmoved]
        have hkeep : ∀ s ∈ rep :: ms, key part rep = key part s := by
          intro s hs
          rcases List.mem_cons.mp hs with rfl | hs
          · rfl
          · have := List.filter_eq_nil_iff.mp hmoved s hs
            exact (hsame part rep s).mp (by simpa using this)
        rw [List.append_cons done _ todo] at h ⊢
        obtain ⟨q, hq, hv, hs, hst⟩ := ih h (by rw [List.length_append, List.length_singleton]; omega)
        refine ⟨q, hq, hv, hs, fun he => ⟨(hst he).1, fun b hb s hs t ht => ?_⟩⟩
        rcases List.mem_cons.mp hb with rfl | hb
        · rw [← hkeep s hs, ← hkeep t ht]
        · exact (hst he).2 b hb s hs t ht
      · rw [if_neg hmoved]
        have hv := h.split hnd hmoved
        have hs := Splits.split hsame h
        rw [List.append_cons done ⟨i, rep :: ms.filter _⟩] at hv hs
        obtain ⟨q, hq, hv', hs', -⟩ := ih hv (by rw [List.length_append, List.length_singleton]; omega)
        refine ⟨q, hq, hv', hs.trans hs', fun he => ?_⟩
        have := hs'.fresh_le
        simp only at this
        omega

theorem repartition_spec (hnd : states.Nodup) (hsame : ∀ part s t, same part s t = true ↔ key part s = key part t)
    (n : ℕ) {p : Partition σ} (h : Valid states p) (hfuel : states.length < n + p.blocks.length) :
    ∃ q, repartition same states.length n p = some q ∧ Valid states q ∧ Splits states key p q ∧
      ∀ s ∈ states, ∀ t ∈ states, q.part s = q.part t → key q.part s = key q.part t := by
  induction n generalizing p with
  | zero =>
    have := h.length_le
    omega
  | succ n ih =>
    have hp : Valid states ⟨p.part, [] ++ p.blocks, p.fresh⟩ := h
    obtain ⟨q, hq, hv, hs, hst⟩ := pass_spec hnd hsame states.length hp (by simp)
    rw [repartition, hq]
    simp only
    by_cases hfresh : q.fresh = p.fresh
    · rw [if_pos hfresh]
      obtain ⟨hpart, hkey⟩ := hst hfresh
      refine ⟨q, rfl, hv, hs, fun s hss t hts he => ?_⟩
      rw [hpart] at he ⊢
      obtain ⟨b, hb, hsb, htb⟩ := (h.part_eq_iff hss hts).mp he
      exact hkey b hb s hsb t htb
    · rw [if_neg hfresh]
      have hlen : q.blocks.length = p.blocks.length + (q.fresh - p.fresh) := hs.length
      have hle : p.fresh ≤ q.fresh := hs.fresh_le
      obtain ⟨r, hr, hvr, hsr, hstr⟩ := ih hv (by omega)
      exact ⟨r, hr, hvr, hs.trans hsr, hstr⟩

end Correct

section Moore

variable {σ A O : Type*} {states : List σ} {delta : σ → A → σ} {obs : σ → O} {part : σ → ℕ}

def Indist (delta : σ → A → σ) (obs : σ → O) (s t : σ) : Prop :=
  ∀ w : List A, obs (w.foldl delta s) = obs (w.foldl delta t)

theorem Indist.step {s t : σ} (h : Indist delta obs s t) (a : A) : Indist delta obs (delta s a) (delta t a) :=
  fun w => h (a :: w)

theorem foldl_mem (hclosed : ∀ s ∈ states, ∀ a, delta s a ∈ states) {s : σ} (hs : s ∈ states) (w : List A) :
    w.foldl delta s ∈ states := by
  induction w generalizing s with
  | nil => exact hs
  | cons a w ih => exact ih (hclosed s hs a)

theorem respects_indist (hclosed : ∀ s ∈ states, ∀ a, delta s a ∈ states) :
    Respects states (fun part s a => part (delta s a)) (Indist delta obs) := by
  intro part hc s hs t ht h
  funext a
  exact hc _ (hclosed s hs a) _ (hclosed t ht a) (h.step a)

theorem indist_of_stable (hclosed : ∀ s ∈ states, ∀ a, delta s a ∈ states)
    (hstable : ∀ s ∈ states, ∀ t ∈ states, part s = part t → ∀ a, part (delta s a) = part (delta t a))
    (hobs : ∀ s ∈ states, ∀ t ∈ states, part s = part t → obs s = obs t) {s t : σ} (hs : s ∈ states) (ht : t ∈ states)
    (h : part s = part t) : Indist delta obs s t := by
  intro w
  induction w generalizing s t with
  | nil => exact hobs s hs t ht h
  | cons a w ih => exact ih (hclosed s hs a) (hclosed t ht a) (hstable s hs t ht h a)

end Moore

end AppArmor.Refine

import AppArmor.Hfa.BuildInv

namespace AppArmor

open List Except

namespace Cases

variable {followpos : ImportantNode → NodeSet} {u : NodeSet}

def Within (k : Cases) (u : NodeSet) : Prop :=
  k.otherwise.getD ∅ ⊆ u ∧ ∀ (c : ℤ) s, k.cases[c]? = some s → s ⊆ u

theorem freshFor_subset {k : Cases} (hk : k.otherwise.getD ∅ ⊆ u) (n : CNode) (c : ℤ) : freshFor n k c ⊆ u := by
  unfold freshFor fresh
  cases ho : k.otherwise with
  | none => simp
  | some o =>
    rw [ho] at hk
    split_ifs
    · exact hk
    · exact hk
    · exact Finset.empty_subset u

theorem follow_within (hf : ∀ p, followpos p ⊆ u) {k : Cases} (hk : k.Within u) (p : ImportantNode) :
    (follow followpos k p).Within u := by
  cases p with
  | accept m => exact hk
  | cnode a =>
    refine ⟨?_, fun c s hs => ?_⟩
    · rw [follow_otherwise]
      split_ifs
      · exact Finset.union_subset hk.1 (hf _)
      · exact hk.1
    · rw [follow_cases] at hs
      by_cases hc : (k.cases[c]?).isSome ∨ a.node.lists c
      · rw [if_pos hc] at hs
        rw [← Option.some.inj hs]
        apply Finset.union_subset
        · cases hv : k.cases[c]? with
          | some v => exact hk.2 c v hv
          | none => exact freshFor_subset hk.1 a.node c
        · split_ifs
          · exact hf _
          · exact Finset.empty_subset u
      · rw [if_neg hc] at hs
        cases hs

theorem ofNodes_within (hf : ∀ p, followpos p ⊆ u) (l : List ImportantNode) : (ofNodes followpos l).Within u := by
  induction l using reverseRecOn with
  | nil => exact ⟨by simp [ofNodes, empty], fun c s hs => by simp [ofNodes, empty] at hs⟩
  | append_singleton l p ih =>
    rw [ofNodes, foldl_append]
    exact follow_within hf ih p

end Cases

namespace Build

variable {u : NodeSet} {order : IterOrder u} {filedfa : Bool} {followpos : ImportantNode → NodeSet}
  {b b' : Builder} {i : ℕ}

section Transitions

variable (order followpos)

def kOf (b : Builder) (i : ℕ) : Cases := casesOf order followpos (b.state i).proto

def defaultOf (b : Builder) (i : ℕ) : NodeSet := (kOf order followpos b i).otherwise.getD ∅

def Sound (b : Builder) (i : ℕ) : Prop :=
  ∀ (c : ℤ) t, (b.state i).trans[c]? = some t →
    ∃ s, (kOf order followpos b i).cases[c]? = some s ∧ Maps b s t ∧ ¬ Maps b (defaultOf order followpos b i) t

def Handled (b : Builder) (i : ℕ) (c : ℤ) (s : NodeSet) : Prop :=
  ∃ t, Maps b s t ∧ ((b.state i).trans[c]? = some t ∨ Maps b (defaultOf order followpos b i) t)

def Done (b : Builder) (i : ℕ) : Prop :=
  Maps b (defaultOf order followpos b i) (b.state i).otherwise ∧
    ∀ (c : ℤ) s, (kOf order followpos b i).cases[c]? = some s → Handled order followpos b i c s

theorem kOf_congr (h : (b'.state i).proto = (b.state i).proto) : kOf order followpos b' i = kOf order followpos b i := by
  rw [kOf, kOf, h]

theorem defaultOf_congr (h : (b'.state i).proto = (b.state i).proto) :
    defaultOf order followpos b' i = defaultOf order followpos b i := by
  rw [defaultOf, defaultOf, kOf_congr order followpos h]

end Transitions

theorem Sound.mono (hm : b.nodeMap <+: b'.nodeMap) (hs : b'.state i = b.state i) (h : Sound order followpos b i) :
    Sound order followpos b' i := by
  intro c t ht
  rw [hs] at ht
  obtain ⟨s, hc, hst, hd⟩ := h c t ht
  have hp : (b'.state i).proto = (b.state i).proto := by rw [hs]
  rw [kOf_congr order followpos hp, defaultOf_congr order followpos hp]
  exact ⟨s, hc, hst.mono hm, fun hd' => hd (hd'.of_mono hm hst.lt)⟩

theorem Handled.mono (hm : b.nodeMap <+: b'.nodeMap) (hp : (b'.state i).proto = (b.state i).proto) {c : ℤ} {s : NodeSet}
    (ht : (b'.state i).trans[c]? = (b.state i).trans[c]?) (h : Handled order followpos b i c s) :
    Handled order followpos b' i c s := by
  obtain ⟨t, hst, h⟩ := h
  refine ⟨t, hst.mono hm, ?_⟩
  rw [defaultOf_congr order followpos hp, ht]
  exact h.imp id (Maps.mono hm)

theorem Done.mono (hm : b.nodeMap <+: b'.nodeMap) (hs : b'.state i = b.state i) (h : Done order followpos b i) :
    Done order followpos b' i := by
  have hp : (b'.state i).proto = (b.state i).proto := by rw [hs]
  refine ⟨?_, fun c s hc => ?_⟩
  · rw [defaultOf_congr order followpos hp, hs]
    exact h.1.mono hm
  · rw [kOf_congr order followpos hp] at hc
    exact (h.2 c s hc).mono hm hp (by rw [hs])

theorem Wf.congr (hb : Wf order filedfa b) (hmap : b'.nodeMap = b.nodeMap) (hstates : b'.states = b.states)
    (hqueue : b'.workQueue = b.workQueue) (hproto : ∀ j, (b'.state j).proto = (b.state j).proto)
    (hperms : ∀ j, (b'.state j).perms = (b.state j).perms) (hdiff : ∀ j, (b'.state j).diff = (b.state j).diff)
    (hlabel : ∀ j, (b'.state j).label = (b.state j).label) : Wf order filedfa b' where
  nodup := hmap ▸ hb.nodup
  sub := hmap ▸ hb.sub
  states := by rw [hstates, hmap, hb.states]
  proto := fun j p hj => by rw [hproto, hb.proto j p (hmap ▸ hj)]
  perms := fun j p hj => by rw [hperms, hb.perms j p (hmap ▸ hj)]
  diff := fun j => by rw [hdiff, hb.diff]
  label := fun j => by rw [hlabel]; exact hb.label j
  queue := by rw [hqueue, hmap]; exact hb.queue

theorem setOtherwise_state (t j : ℕ) : (setOtherwise i t b).state j =
    if j = i then { b.state i with otherwise := t } else b.state j := by
  unfold setOtherwise
  by_cases h : j = i
  · subst h; simp
  · simp [h]

theorem Wf.setOtherwise (hb : Wf order filedfa b) (i t : ℕ) : Wf order filedfa (setOtherwise i t b) := by
  refine hb.congr rfl rfl rfl ?_ ?_ ?_ ?_ <;>
  · intro j
    rw [setOtherwise_state]
    split_ifs with h
    · rw [h]
    · rfl

theorem Grows.setOtherwise (i t : ℕ) : Grows i b (setOtherwise i t b) where
  map := prefix_rfl
  old := fun j _ hne => by rw [setOtherwise_state, if_neg hne]
  trans := fun j h h' => absurd (lt_of_lt_of_le h' h) (lt_irrefl _)
  queue := ⟨[], (append_nil _).symm, (Nat.sub_self _).symm,
    fun j h h' => absurd (lt_of_lt_of_le h' h) (lt_irrefl _)⟩

theorem setTrans_nodeMap (c : ℤ) (t : ℕ) : (setTrans i c t b).nodeMap = b.nodeMap := by
  unfold setTrans
  split_ifs <;> rfl

theorem setTrans_workQueue (c : ℤ) (t : ℕ) : (setTrans i c t b).workQueue = b.workQueue := by
  unfold setTrans
  split_ifs <;> rfl

theorem setTrans_states (c : ℤ) (t : ℕ) : (setTrans i c t b).states = b.states := by
  unfold setTrans
  split_ifs <;> rfl

theorem setTrans_state (c : ℤ) (t j : ℕ) : (setTrans i c t b).state j =
    if j = i ∧ t ≠ (b.state i).otherwise then { b.state i with trans := (b.state i).trans.insert c t }
    else b.state j := by
  unfold setTrans
  by_cases ht : t = (b.state i).otherwise
  · simp [ht]
  · by_cases h : j = i
    · subst h; simp [ht]
    · simp [ht, h]

theorem Wf.setTrans (hb : Wf order filedfa b) (i : ℕ) (c : ℤ) (t : ℕ) : Wf order filedfa (setTrans i c t b) := by
  refine hb.congr (setTrans_nodeMap c t) (setTrans_states c t) (setTrans_workQueue c t) ?_ ?_ ?_ ?_ <;>
  · intro j
    rw [setTrans_state]
    split_ifs with h
    · rw [h.1]
    · rfl

theorem Grows.setTrans (i : ℕ) (c : ℤ) (t : ℕ) : Grows i b (setTrans i c t b) where
  map := by rw [setTrans_nodeMap]
  old := fun j _ hne => by rw [setTrans_state, if_neg (fun h => hne h.1)]
  trans := fun j h h' => absurd (lt_of_lt_of_le (setTrans_nodeMap c t ▸ h') h) (lt_irrefl _)
  queue := ⟨[], by rw [setTrans_workQueue, append_nil], by rw [setTrans_nodeMap]; simp,
    fun j h h' => absurd (lt_of_lt_of_le (setTrans_nodeMap c t ▸ h') h) (lt_irrefl _)⟩

structure Loop (order : IterOrder u) (filedfa : Bool) (followpos : ImportantNode → NodeSet) (i : ℕ)
    (b₀ : Builder) (l : List (ℤ × NodeSet)) (b : Builder) : Prop where
  wf : Wf order filedfa b
  grows : Grows i b₀ b
  proto : (b.state i).proto = (b₀.state i).proto
  otherwise : Maps b (defaultOf order followpos b₀ i) (b.state i).otherwise
  sound : Sound order followpos b i
  handled : ∀ e ∈ l, Handled order followpos b i e.1 e.2

variable {nonmatching : ℕ}

variable {l : List (ℤ × NodeSet)}

theorem addCase_spec {b₀ : Builder} {e : ℤ × NodeSet}
    (hi : i < b₀.nodeMap.length) (h : Loop order filedfa followpos i b₀ l b) (hsub : e.2 ⊆ u)
    (hl : ∀ e ∈ l, (kOf order followpos b₀ i).cases[e.1]? = some e.2)
    (he : (kOf order followpos b₀ i).cases[e.1]? = some e.2)
    (hok : addCase order filedfa nonmatching i b e = .ok b') : Loop order filedfa followpos i b₀ (l ++ [e]) b' := by
  obtain ⟨⟨t, b₁⟩, hnew, hok⟩ := bind_eq_ok hok
  obtain rfl : setTrans i e.1 t b₁ = b' := ok.inj hok
  have hib : i < b.nodeMap.length := hi.trans_le h.grows.length_le
  obtain ⟨hwf, hgrows, hold, ht⟩ := addNewState_spec h.wf hsub hnew i
  have hstate := hold i hib
  have hmap : b.nodeMap <+: (setTrans i e.1 t b₁).nodeMap := by rw [setTrans_nodeMap]; exact hgrows.map
  have ht' : Maps (setTrans i e.1 t b₁) e.2 t := by rw [Maps, setTrans_nodeMap]; exact ht
  have hproto : ((setTrans i e.1 t b₁).state i).proto = (b.state i).proto := by
    rw [setTrans_state]
    split_ifs <;> rw [hstate]
  have hk := kOf_congr order followpos hproto
  have hd := defaultOf_congr order followpos hproto
  have hk₀ := kOf_congr order followpos h.proto
  have hd₀ := defaultOf_congr order followpos h.proto
  have hother : ((setTrans i e.1 t b₁).state i).otherwise = (b.state i).otherwise := by
    rw [setTrans_state]
    split_ifs <;> rw [hstate]
  have hwf' := hwf.setTrans i e.1 t
  have hdef : Maps (setTrans i e.1 t b₁) (defaultOf order followpos b₀ i) (b.state i).otherwise := h.otherwise.mono hmap
  -- the new transition is absent exactly when the default covers it
  have htrans : ∀ c : ℤ, ((setTrans i e.1 t b₁).state i).trans[c]? =
      if c = e.1 ∧ t ≠ (b.state i).otherwise then some t else (b.state i).trans[c]? := by
    intro c
    rw [setTrans_state, hstate]
    by_cases hne : t = (b.state i).otherwise
    · simp [hne]
    · rw [if_pos ⟨rfl, hne⟩]
      simp only [CharMap.getElem?_insert', hne, ne_eq, not_false_eq_true, and_true, eq_comm]
  refine ⟨hwf', h.grows.trans' (hgrows.trans' (Grows.setTrans i e.1 t) hib) hi, hproto.trans h.proto,
    hother ▸ hdef, ?_, ?_⟩
  · intro c t' hc
    rw [htrans] at hc
    rw [hk, hd, hk₀, hd₀]
    split_ifs at hc with hce
    · obtain ⟨rfl, hne⟩ := hce
      obtain rfl := Option.some.inj hc
      exact ⟨e.2, he, ht', fun hm => hne (hwf'.maps_unique hm hdef)⟩
    · obtain ⟨s, hs, hst, hnd⟩ := h.sound c t' hc
      rw [hk₀] at hs
      rw [hd₀] at hnd
      exact ⟨s, hs, hst.mono hmap, fun hm => hnd (hm.of_mono hmap hst.lt)⟩
  · -- the entry just visited, also when it was visited before
    have hself : Handled order followpos (setTrans i e.1 t b₁) i e.1 e.2 := by
      refine ⟨t, ht', ?_⟩
      by_cases hne : t = (b.state i).otherwise
      · rw [hd, hd₀]
        exact .inr (hne ▸ hdef)
      · exact .inl (by rw [htrans, if_pos ⟨rfl, hne⟩])
    intro e' he'
    rcases mem_append.mp he' with he' | he'
    · by_cases hc : e'.1 = e.1
      · have h2 : e'.2 = e.2 := Option.some.inj ((hl e' he').symm.trans (hc ▸ he))
        rw [hc, h2]
        exact hself
      · exact (h.handled e' he').mono hmap hproto (by rw [htrans, if_neg fun hh => hc hh.1])
    · rw [mem_singleton.mp he']
      exact hself

theorem addCases_spec {b₀ : Builder} {es : List (ℤ × NodeSet)} (hi : i < b₀.nodeMap.length)
    (h : Loop order filedfa followpos i b₀ l b) (hsub : ∀ e ∈ es, e.2 ⊆ u)
    (hl : ∀ e ∈ l ++ es, (kOf order followpos b₀ i).cases[e.1]? = some e.2)
    (hok : es.foldlM (addCase order filedfa nonmatching i) b = .ok b') :
    Loop order filedfa followpos i b₀ (l ++ es) b' := by
  induction es generalizing b l with
  | nil =>
    obtain rfl := ok.inj hok
    rwa [append_nil]
  | cons e es ih =>
    rw [foldlM_cons] at hok
    obtain ⟨b₁, hc, hok⟩ := bind_eq_ok hok
    have h₁ := addCase_spec hi h (hsub e (by simp)) (fun e' he' => hl e' (by simp [he'])) (hl e (by simp)) hc
    simpa using ih h₁ (fun e' he' => hsub e' (mem_cons_of_mem _ he')) (by simpa using hl) hok

theorem addDefault_spec (hb : Wf order filedfa b) (hi : i < b.nodeMap.length)
    (hs : Sound order followpos b i) (hnm : Maps b ∅ nonmatching) (hsub : defaultOf order followpos b i ⊆ u)
    (hok : addDefault order filedfa nonmatching i (kOf order followpos b i).otherwise b = .ok b') :
    Loop order filedfa followpos i b [] b' := by
  -- both branches set the default after at most one state has been added
  have key : ∀ b₁ t, Wf order filedfa b₁ → Grows i b b₁ → b₁.state i = b.state i →
      Maps b₁ (defaultOf order followpos b i) t → Loop order filedfa followpos i b [] (setOtherwise i t b₁) := by
    intro b₁ t hwf hgrows hstate ht
    have hself : (setOtherwise i t b₁).state i = { b.state i with otherwise := t } := by
      rw [setOtherwise_state, if_pos rfl, hstate]
    have hproto : ((setOtherwise i t b₁).state i).proto = (b.state i).proto := by rw [hself]
    refine ⟨hwf.setOtherwise i t, hgrows.trans' (Grows.setOtherwise i t) hi, hproto, ?_, ?_, by simp⟩
    · rw [hself]
      exact ht
    · intro c t' hc
      rw [hself] at hc
      obtain ⟨s, hc', hst, hd⟩ := hs c t' hc
      rw [kOf_congr order followpos hproto, defaultOf_congr order followpos hproto]
      exact ⟨s, hc', hst.mono hgrows.map, fun hm => hd (hm.of_mono hgrows.map hst.lt)⟩
  unfold addDefault at hok
  cases ho : (kOf order followpos b i).otherwise with
  | none =>
    rw [ho] at hok
    obtain rfl := ok.inj hok
    exact key b nonmatching hb (Grows.refl i b) rfl (by rw [defaultOf, ho]; exact hnm)
  | some nodes =>
    rw [ho] at hok
    have hdef : defaultOf order followpos b i = nodes := by rw [defaultOf, ho]; rfl
    obtain ⟨⟨t, b₁⟩, hnew, hok⟩ := bind_eq_ok hok
    obtain rfl : setOtherwise i t b₁ = b' := ok.inj hok
    obtain ⟨hwf, hgrows, hold, ht⟩ := addNewState_spec hb (hdef ▸ hsub) hnew i
    exact key b₁ t hwf hgrows (hold i hi) (hdef ▸ ht)

theorem updateStateTransitions_spec (hb : Wf order filedfa b) (hi : i < b.nodeMap.length)
    (hs : Sound order followpos b i) (hnm : Maps b ∅ nonmatching) (hf : ∀ p, followpos p ⊆ u)
    (hok : updateStateTransitions order filedfa followpos nonmatching i b = .ok b') :
    Wf order filedfa b' ∧ Grows i b b' ∧ Sound order followpos b' i ∧ Done order followpos b' i := by
  obtain ⟨b₁, hdef, hok⟩ := bind_eq_ok hok
  have hwithin : (kOf order followpos b i).Within u := Cases.ofNodes_within hf _
  have hentry : ∀ e ∈ (kOf order followpos b i).cases.toList, (kOf order followpos b i).cases[e.1]? = some e.2 :=
    fun e he => Std.ExtTreeMap.mem_toList_iff_getElem?_eq_some.mp he
  have h := addCases_spec hi (addDefault_spec hb hi hs hnm hwithin.1 hdef)
    (fun e he => hwithin.2 e.1 e.2 (hentry e he)) (by simp) hok
  refine ⟨h.wf, h.grows, h.sound, ?_, ?_⟩
  · rw [defaultOf_congr order followpos h.proto]
    exact h.otherwise
  · intro c s hc
    rw [kOf_congr order followpos h.proto] at hc
    exact h.handled (c, s) (Std.ExtTreeMap.mem_toList_iff_getElem?_eq_some.mpr hc)

section Errors

def Conflict (order : IterOrder u) (filedfa : Bool) : Prop :=
  ∃ nodes ⊆ u, permsOf order filedfa (splitNodeTypes nodes).anodes = none

variable {e : BuildError}

theorem addNewState_error {nodes : NodeSet} {other : Option ℕ} (hn : nodes ⊆ u)
    (h : addNewState order filedfa nodes other b = .error e) : e = .conflict ∧ Conflict order filedfa := by
  unfold addNewState at h
  simp only at h
  cases hp : permsOf order filedfa (splitNodeTypes nodes).anodes with
  | none =>
    rw [hp] at h
    exact ⟨(error.inj h).symm, nodes, hn, hp⟩
  | some perms =>
    rw [hp] at h
    simp only at h
    cases hi : b.nodeMap.idxOf? (splitNodeTypes nodes) <;> rw [hi] at h <;> cases h

theorem addDefault_error {o : Option NodeSet} (ho : o.getD ∅ ⊆ u)
    (h : addDefault order filedfa nonmatching i o b = .error e) : e = .conflict ∧ Conflict order filedfa := by
  cases o with
  | none => cases h
  | some nodes =>
    rcases bind_eq_error h with hnew | ⟨r, _, hr⟩
    · exact addNewState_error ho hnew
    · cases hr

theorem addCases_error {l : List (ℤ × NodeSet)} (hl : ∀ x ∈ l, x.2 ⊆ u)
    (h : l.foldlM (addCase order filedfa nonmatching i) b = .error e) : e = .conflict ∧ Conflict order filedfa := by
  induction l generalizing b with
  | nil => cases h
  | cons x l ih =>
    rw [foldlM_cons] at h
    rcases bind_eq_error h with hx | ⟨b₁, _, htl⟩
    · rcases bind_eq_error hx with hnew | ⟨r, _, hr⟩
      · exact addNewState_error (hl x (by simp)) hnew
      · cases hr
    · exact ih (fun y hy => hl y (mem_cons_of_mem _ hy)) htl

theorem updateStateTransitions_error (hf : ∀ p, followpos p ⊆ u)
    (h : updateStateTransitions order filedfa followpos nonmatching i b = .error e) :
    e = .conflict ∧ Conflict order filedfa := by
  have hwithin : (kOf order followpos b i).Within u := Cases.ofNodes_within hf _
  rcases bind_eq_error h with hd | ⟨b₁, _, hc⟩
  · exact addDefault_error hwithin.1 hd
  · exact addCases_error (fun x hx => hwithin.2 x.1 x.2 (Std.ExtTreeMap.mem_toList_iff_getElem?_eq_some.mp hx)) hc

end Errors

end Build

end AppArmor

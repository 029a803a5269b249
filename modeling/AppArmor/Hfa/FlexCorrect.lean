import AppArmor.Hfa.Flex

namespace AppArmor

open Codec List Nat

namespace Flex

theorem length_fill64 (i : ℕ) : (fill64 i).length = padding 8 i := by
  rw [fill64, length_replicate, padding]
  split_ifs with h <;> omega

theorem length_fill64_add (i : ℕ) : i + (fill64 i).length = pad64 i := by
  rw [fill64, length_replicate, pad64]
  split_ifs with h <;> omega

theorem pad64_mod (i : ℕ) : pad64 i % 8 = 0 := mul_mod_left _ 8

theorem padding_of_aligned {p : ℕ} (hp : p % 8 = 0) (i : ℕ) : padding 8 (p + i) = padding 8 i := by
  rw [padding, padding, add_mod, hp, zero_add, mod_mod]

theorem length_flatMap_beBytes (w : ℕ) (es : List ℕ) : (es.flatMap (beBytes w)).length = w * es.length := by
  induction es with
  | nil => rfl
  | cons e es ih => rw [flatMap_cons, length_append, ih, length_beBytes, length_cons, mul_succ, add_comm]

theorem length_writeFlexTable (id w : ℕ) (es : List ℕ) :
    (writeFlexTable id w es).length = flexTableSize w es.length := by
  rw [flexTableSize, ← length_fill64_add, writeFlexTable]
  simp only [length_append, length_beBytes, length_flatMap_beBytes, headerSize]
  omega

structure Storable (x : ℕ × ℕ × List ℕ) : Prop where
  id : x.1 < 2 ^ 16
  width : x.2.1 < 2 ^ 16
  length : x.2.2.length < 2 ^ 32

def writeTable (x : ℕ × ℕ × List ℕ) : Bytes := writeFlexTable x.1 x.2.1 x.2.2

def narrow (x : ℕ × ℕ × List ℕ) : ℕ × ℕ × List ℕ := (x.1, x.2.1, x.2.2.map (· % 256 ^ x.2.1))

theorem reads_table {x : ℕ × ℕ × List ℕ} (hx : Storable x) {p : ℕ} (hp : p % 8 = 0) :
    Reads readTable p (writeTable x) ⟨x.1, x.2.1, p, (narrow x).2.2⟩ := by
  obtain ⟨id, w, es⟩ := x
  obtain ⟨hid, hw, hlen⟩ := hx
  dsimp only at hid hw hlen
  have h₁ := reads_beNat 2 id p
  have h₂ := reads_beNat 2 w (p + 2)
  have h₃ := reads_beNat 4 0 (p + 2 + 2)
  have h₄ := reads_beNat 4 es.length (p + 2 + 2 + 4)
  have h₅ : Reads (many (beNat w) es.length) (p + 2 + 2 + 4 + 4) (es.flatMap (beBytes w)) (es.map (· % 256 ^ w)) :=
    Reads.many (fun e p => reads_beNat w e p) es _
  have h₆ : Reads (align 8) (p + 2 + 2 + 4 + 4 + w * es.length) (fill64 (headerSize + w * es.length)) () := by
    apply reads_align
    rw [length_fill64, show p + 2 + 2 + 4 + 4 + w * es.length = p + (headerSize + w * es.length) by
      rw [headerSize]; omega, padding_of_aligned hp]
  rw [mod_eq_of_lt (show id < 256 ^ 2 by omega)] at h₁
  rw [mod_eq_of_lt (show w < 256 ^ 2 by omega)] at h₂
  rw [zero_mod] at h₃
  rw [mod_eq_of_lt (show es.length < 256 ^ 4 by omega)] at h₄
  refine ((reads_position p).bind (h₁.bind ?_)).congr (nil_append _).symm rfl
  rw [length_beBytes]
  apply h₂.bind
  rw [length_beBytes]
  apply h₃.bind
  rw [length_beBytes]
  apply h₄.bind
  rw [length_beBytes, zero_mul, zero_add]
  apply h₅.bind
  rw [length_flatMap_beBytes]
  exact h₆.map (fun _ => Table.mk id w p (es.map (· % 256 ^ w))) rfl

@[grind =]
def placed : ℕ → List (ℕ × ℕ × List ℕ) → List (Bytes × Table)
  | _, [] => []
  | p, x :: l => (writeTable x, ⟨x.1, x.2.1, p, (narrow x).2.2⟩) :: placed (p + (writeTable x).length) l

section Placed

variable {l : List (ℕ × ℕ × List ℕ)} {p : ℕ}

theorem writeTable_mod (x : ℕ × ℕ × List ℕ) : (writeTable x).length % 8 = 0 := by
  rw [writeTable, length_writeFlexTable]
  exact pad64_mod _

theorem aligned_next (hp : p % 8 = 0) (x : ℕ × ℕ × List ℕ) : (p + (writeTable x).length) % 8 = 0 := by
  have := writeTable_mod x
  omega

theorem placed_reads (hl : ∀ x ∈ l, Storable x) (hp : p % 8 = 0) : ReadsEach readTable p (placed p l) := by
  induction l generalizing p with
  | nil => trivial
  | cons x l ih =>
    obtain ⟨hx, hl⟩ := forall_mem_cons.mp hl
    refine ⟨fun he => ?_, reads_table hx hp, ih hl (aligned_next hp x)⟩
    have hlen := congrArg length he
    simp [writeTable, writeFlexTable] at hlen

theorem placed_bytes : (placed p l).flatMap Prod.fst = l.flatMap writeTable := by
  induction l generalizing p with
  | nil => rfl
  | cons x l ih => rw [placed, flatMap_cons, flatMap_cons, ih]

theorem length_placed : (placed p l).length = l.length := by
  induction l generalizing p with
  | nil => rfl
  | cons x l ih => rw [placed, length_cons, length_cons, ih]

theorem placed_start (hp : p % 8 = 0) : ∀ table ∈ (placed p l).map Prod.snd, table.start % 8 = 0 := by
  induction l generalizing p with
  | nil => exact fun table h => absurd h not_mem_nil
  | cons x l ih =>
    rw [placed, map_cons]
    exact forall_mem_cons.mpr ⟨hp, ih (aligned_next hp x)⟩

theorem placed_content :
    ((placed p l).map Prod.snd).map (fun table => (table.id, table.width, table.elems)) = l.map narrow := by
  induction l generalizing p with
  | nil => rfl
  | cons x l ih =>
    rw [placed, map_cons, map_cons, map_cons, ih]
    rfl

theorem length_le_bytes : l.length ≤ (l.flatMap writeTable).length := by
  induction l with
  | nil => exact le_rfl
  | cons x l ih =>
    have hpos : 0 < (writeTable x).length := by simp [writeTable, writeFlexTable]
    rw [flatMap_cons, length_append, length_cons]
    omega

end Placed

def setHeader (ssize flags : ℕ) : Bytes :=
  beBytes 4 regexMagic ++ (beBytes 4 24 ++ (beBytes 4 ssize ++ (beBytes 2 flags ++ (thVersion ++ fill64 22))))

theorem length_setHeader (ssize flags : ℕ) : (setHeader ssize flags).length = 24 := by
  simp only [setHeader, length_append, length_beBytes, thVersion, length_cons, length_nil, fill64]
  rfl

theorem reads_setHeader (ssize flags : ℕ) :
    Reads readSetHeader 0 (setHeader ssize flags) ⟨regexMagic, 24, ssize % 2 ^ 32, flags % 2 ^ 16⟩ := by
  have h₁ := reads_beNat 4 regexMagic 0
  have h₂ := reads_beNat 4 24 (0 + (beBytes 4 regexMagic).length)
  rw [show regexMagic % 256 ^ 4 = regexMagic from rfl] at h₁
  rw [show 24 % 256 ^ 4 = 24 from rfl] at h₂
  apply h₁.bind
  apply h₂.bind
  apply (reads_beNat 4 ssize _).bind
  apply (reads_beNat 2 flags _).bind
  exact (reads_bytes (thVersion ++ fill64 22) _ (24 - setHeaderSize) rfl).map
    (fun _ => SetHeader.mk regexMagic 24 (ssize % 2 ^ 32) (flags % 2 ^ 16)) rfl

theorem decodeFlex_eq {l : List (ℕ × ℕ × List ℕ)} (hl : ∀ x ∈ l, Storable x) (ssize flags : ℕ) :
    decodeFlex (setHeader ssize flags ++ l.flatMap writeTable) =
      some (⟨regexMagic, 24, ssize % 2 ^ 32, flags % 2 ^ 16⟩, (placed 24 l).map Prod.snd) := by
  have hfuel : (placed 24 l).length ≤ (setHeader ssize flags ++ l.flatMap writeTable).length := by
    rw [length_placed, length_append]
    exact length_le_bytes.trans (le_add_left _ _)
  have hend := untilEnd_eq (placed_reads hl (show 24 % 8 = 0 from rfl)) hfuel
  rw [placed_bytes] at hend
  have hhead := reads_setHeader ssize flags (l.flatMap writeTable)
  rw [length_setHeader] at hhead
  rw [decodeFlex, decode]
  have hread : readFlex (setHeader ssize flags ++ l.flatMap writeTable).length
      ⟨0, setHeader ssize flags ++ l.flatMap writeTable⟩ =
      some ((⟨regexMagic, 24, ssize % 2 ^ 32, flags % 2 ^ 16⟩, (placed 24 l).map Prod.snd),
        ⟨24 + (l.flatMap writeTable).length, []⟩) := by
    rw [readFlex, bind_eq hhead, bind_eq hend]
    rfl
  rw [hread]
  rfl

end Flex

namespace CHFATables

open Flex

variable {t : CHFATables} {width : ℕ} {blob : Bytes}

theorem number_le (t : CHFATables) (s : ℕ) : t.number s ≤ t.defaultBase.length :=
  idxOf_le_length.trans t.numbered

theorem next_le (t : CHFATables) (p : ℕ) : t.next p ≤ t.defaultBase.length := by
  rw [CHFA.next]
  cases t.nextCheck p with
  | none => exact zero_le _
  | some e => exact t.number_le e.1

theorem check_le (t : CHFATables) (p : ℕ) : t.check p ≤ t.defaultBase.length := by
  rw [CHFA.check]
  cases t.nextCheck p with
  | none => exact zero_le _
  | some e => exact t.number_le e.2

theorem narrow_content (hw : t.defaultBase.length < 256 ^ width) (hsize : t.size < 2 ^ 32) :
    (t.content width).map narrow = t.content width ↔ ∀ c < 256, t.classOf c < 256 := by
  have hkeep : ∀ (id w : ℕ) (es : List ℕ), (∀ e ∈ es, e < 256 ^ w) → narrow (id, w, es) = (id, w, es) := by
    intro id w es h
    have hes : es.map (· % 256 ^ w) = es := by
      rw [map_congr_left fun e he => mod_eq_of_lt (h e he), map_id']
    rw [narrow, hes]
  have hacc : narrow (idAccept, 4, t.acceptVec) = (idAccept, 4, t.acceptVec) := by
    apply hkeep
    intro e he
    obtain ⟨a, -, rfl⟩ := mem_map.mp he
    exact a.toNat_lt
  have hacc2 : narrow (idAccept2, 4, t.accept2Vec) = (idAccept2, 4, t.accept2Vec) := by
    apply hkeep
    intro e he
    obtain ⟨a, -, rfl⟩ := mem_map.mp he
    exact a.toNat_lt
  have hbase : narrow (idBase, 4, t.baseVec) = (idBase, 4, t.baseVec) := by
    apply hkeep
    intro e he
    obtain ⟨a, ha, rfl⟩ := mem_map.mp he
    exact t.base_lt hsize a ha
  have hdef : narrow (idDef, width, t.defaultVec) = (idDef, width, t.defaultVec) := by
    apply hkeep
    intro e he
    obtain ⟨a, -, rfl⟩ := mem_map.mp he
    exact (t.number_le a.1).trans_lt hw
  have hnext : narrow (idNxt, width, t.nextVec) = (idNxt, width, t.nextVec) := by
    apply hkeep
    intro e he
    obtain ⟨p, -, rfl⟩ := mem_map.mp he
    exact (t.next_le p).trans_lt hw
  have hcheck : narrow (idChk, width, t.checkVec) = (idChk, width, t.checkVec) := by
    apply hkeep
    intro e he
    obtain ⟨p, -, rfl⟩ := mem_map.mp he
    exact (t.check_le p).trans_lt hw
  have hec : narrow (idEc, 1, t.equivVec) = (idEc, 1, t.equivVec) ↔ ∀ c < 256, t.classOf c < 256 := by
    rw [narrow, Prod.mk.injEq, Prod.mk.injEq]
    simp only [true_and, equivVec, map_map, map_inj_left, mem_range, Function.comp_apply, pow_one]
    refine forall₂_congr fun c _ => ?_
    constructor
    · intro h
      rw [← h]
      exact mod_lt _ (by decide)
    · exact mod_eq_of_lt
  have hopt : ∀ x : ℕ × ℕ × List ℕ, narrow x = x → ∀ (q : Prop) [Decidable q],
      (if q then [x] else []).map narrow = if q then [x] else [] := by
    intro x hx q _
    split_ifs
    · rw [map_singleton, hx]
    · rfl
  rw [content, map_append, map_append, map_append, hopt _ hacc2]
  simp only [map_cons, map_nil, hacc, hbase, hdef, hnext, hcheck, append_cancel_right_eq,
    append_cancel_left_eq]
  by_cases heq : t.eq.size = 0
  · simp only [heq, ne_eq, not_true_eq_false, if_false, map_nil, true_iff]
    intro c _
    have hempty : t.eq = ∅ := Std.ExtTreeMap.eq_empty_iff_size_eq_zero.mpr heq
    rw [classOf, hempty]
    simp
  · simp only [heq, ne_eq, not_false_eq_true, if_true, map_cons, map_nil, cons.injEq, and_true]
    exact hec

theorem content_storable (hwidth : width < 2 ^ 16) (hlen : t.defaultBase.length < 2 ^ 32) (hsize : t.size < 2 ^ 32) :
    ∀ x ∈ t.content width, Storable x := by
  have hacc : t.acceptVec.length < 2 ^ 32 := by
    rw [acceptVec, length_map, t.accept_length]
    omega
  have hacc2 : t.accept2Vec.length < 2 ^ 32 := by
    rw [accept2Vec, length_map]
    rcases t.accept2_length with h | h
    · rw [h]
      exact (by decide : 0 < 2 ^ 32)
    · rw [h, t.accept_length]
      omega
  intro x hx
  simp only [content, mem_append, mem_cons, not_mem_nil, or_false] at hx
  rcases hx with ((rfl | hx) | hx) | rfl | rfl | rfl | rfl
  · exact ⟨show idAccept < 2 ^ 16 by decide, show 4 < 2 ^ 16 by decide, hacc⟩
  · split_ifs at hx
    · rw [mem_singleton.mp hx]
      exact ⟨show idAccept2 < 2 ^ 16 by decide, show 4 < 2 ^ 16 by decide, hacc2⟩
    · cases hx
  · split_ifs at hx
    · rw [mem_singleton.mp hx]
      exact ⟨show idEc < 2 ^ 16 by decide, show 1 < 2 ^ 16 by decide, by simp [equivVec]⟩
    · cases hx
  · exact ⟨show idBase < 2 ^ 16 by decide, show 4 < 2 ^ 16 by decide, by simpa [baseVec] using hlen⟩
  · exact ⟨show idDef < 2 ^ 16 by decide, hwidth, by simpa [defaultVec] using hlen⟩
  · exact ⟨show idNxt < 2 ^ 16 by decide, hwidth, by simpa [nextVec] using hsize⟩
  · exact ⟨show idChk < 2 ^ 16 by decide, hwidth, by simpa [checkVec] using hsize⟩

theorem bytes_content (t : CHFATables) (width : ℕ) : (t.content width).flatMap writeTable =
    writeFlexTable idAccept 4 t.acceptVec ++
      (if t.accept2 ≠ [] then writeFlexTable idAccept2 4 t.accept2Vec else []) ++
      (if t.eq.size ≠ 0 then writeFlexTable idEc 1 t.equivVec else []) ++
      writeFlexTable idBase 4 t.baseVec ++ writeFlexTable idDef width t.defaultVec ++
      writeFlexTable idNxt width t.nextVec ++ writeFlexTable idChk width t.checkVec := by
  rw [content]
  split_ifs <;> simp [writeTable]

theorem setSize_eq (t : CHFATables) (width : ℕ) : t.setSize 24 width = 24 + ((t.content width).flatMap writeTable).length := by
  rw [bytes_content, setSize]
  split_ifs <;>
    simp only [length_append, length_writeFlexTable, acceptVec, accept2Vec, length_map, length_nil] <;>
    omega

variable {state32 flagsTable : Bool}

theorem flexTable_cases (h : t.flexTable state32 flagsTable = some blob) :
    t.defaultBase.length < 256 ^ t.stateWidth state32 ∧ t.defaultBase.length < 2 ^ 32 ∧ t.size < 2 ^ 32 ∧
      blob = setHeader (t.setSize 24 (t.stateWidth state32)) t.chfaflags ++
        (t.content (t.stateWidth state32)).flatMap writeTable := by
  have hser : ∀ {w m : ℕ}, t.flexTableSerialize w m = some blob → t.defaultBase.length < m ∧ t.size < 2 ^ 32 ∧
      blob = setHeader (t.setSize 24 w) t.chfaflags ++ (t.content w).flatMap writeTable := by
    intro w m hs
    by_cases h₁ : m ≤ t.defaultBase.length
    · rw [flexTableSerialize, if_pos h₁] at hs
      cases hs
    · by_cases h₂ : 2 ^ 32 - 1 ≤ t.size
      · rw [flexTableSerialize, if_neg h₁, if_pos h₂] at hs
        cases hs
      · rw [flexTableSerialize, if_neg h₁, if_neg h₂] at hs
        refine ⟨by omega, by omega, ?_⟩
        rw [← Option.some.inj hs, bytes_content]
        rfl
  unfold flexTable at h
  unfold stateWidth
  split_ifs at h with hlarge
  · rw [if_pos hlarge]
    obtain ⟨h₁, h₂, h₃⟩ := hser h
    exact ⟨by omega, by omega, h₂, h₃⟩
  · rw [if_neg hlarge]
    obtain ⟨h₁, h₂, h₃⟩ := hser h
    exact ⟨by omega, by omega, h₂, h₃⟩

theorem flexTable_decodes (h : t.flexTable state32 flagsTable = some blob) :
    decodeFlex blob = some (⟨regexMagic, 24, blob.length % 2 ^ 32, t.chfaflags % 2 ^ 16⟩,
      (placed 24 (t.content (t.stateWidth state32))).map Prod.snd) := by
  obtain ⟨-, hlen, hsize, rfl⟩ := flexTable_cases h
  have hwidth : t.stateWidth state32 < 2 ^ 16 := by
    unfold stateWidth
    split_ifs <;> decide
  rw [decodeFlex_eq (content_storable hwidth hlen hsize), length_append, length_setHeader, ← setSize_eq]

theorem FaithfulBlob.fits (h : t.flexTable state32 flagsTable = some blob)
    (hf : t.FaithfulBlob (t.stateWidth state32) blob) : blob.length < 2 ^ 32 ∧ ∀ c < 256, t.classOf c < 256 := by
  obtain ⟨hw, -, hsize, -⟩ := flexTable_cases h
  obtain ⟨header, tables, hd, hs, -, hcontent⟩ := hf
  rw [flexTable_decodes h] at hd
  cases hd
  rw [placed_content] at hcontent
  dsimp only at hs
  exact ⟨hs ▸ mod_lt _ (by decide), (narrow_content hw hsize).mp hcontent⟩

theorem chfa_tables {d : DFA} (h : d.Packable) (transHigh : Bool) {c : CHFA} (hc : d.chfa transHigh = some c)
    (accept accept2 : List UInt32) (eq : CharMap ℕ) (chfaflags : ℕ)
    (ha : accept.length = max c.defaultBase.length 2) (ha2 : accept2 = [] ∨ accept2.length = accept.length) :
    ∃ t : CHFATables, t.toCHFA = c ∧ t.accept = accept ∧ t.accept2 = accept2 ∧ t.eq = eq ∧ t.chfaflags = chfaflags := by
  obtain ⟨c', base, hc', hp⟩ := CHFA.chfa_packed h transHigh
  rw [hc] at hc'
  cases hc'
  have hnum : c.num.length ≤ c.defaultBase.length := by
    rw [hp.num, hp.table]
    simp
  have hbase : c.size < 2 ^ 32 → ∀ e ∈ c.defaultBase, e.2 < 2 ^ 32 := by
    intro hsize e he
    rw [hp.table] at he
    rcases mem_cons.mp he with rfl | he
    · exact (by decide : 0 < 2 ^ 32)
    · obtain ⟨s, hs, rfl⟩ := mem_map.mp he
      have hin := hp.inside s hs
      have hflags : CHFA.flags d s (CHFA.firstKey (d.state s).trans) < 2 ^ 32 := by
        unfold CHFA.flags
        split_ifs <;> decide
      exact or_lt_two_pow (by omega) hflags
  exact ⟨⟨c, accept, accept2, eq, chfaflags, ha, ha2, hnum, hbase⟩, rfl, rfl, rfl, rfl, rfl⟩

/-- The bytes that the tables take, by the number of states and of entries of the transition tables. -/
def tableBytes (t : CHFATables) (width : ℕ) : ℕ :=
  24 + (if t.accept2 = [] then 1 else 2) * pad64 (12 + 4 * max t.defaultBase.length 2) + (if t.eq.size = 0 then 0 else 272) +
    pad64 (12 + 4 * t.defaultBase.length) + pad64 (12 + width * t.defaultBase.length) + 2 * pad64 (12 + width * t.size)

theorem setSize_eq_tableBytes (t : CHFATables) (width : ℕ) : t.setSize 24 width = t.tableBytes width := by
  have haccept2 : t.accept2 ≠ [] → t.accept2.length = max t.defaultBase.length 2 := fun hne =>
    (t.accept2_length.resolve_left hne).trans t.accept_length
  have hequiv : flexTableSize 1 t.equivVec.length = 272 := by
    rw [equivVec, length_map, length_range]
    rfl
  unfold setSize tableBytes
  rw [hequiv, t.accept_length]
  simp only [flexTableSize, headerSize, baseVec, defaultVec, nextVec, checkVec, length_map, length_range, ne_eq, ite_not]
  by_cases ha : t.accept2 = []
  · rw [if_pos ha, if_pos ha]
    omega
  · rw [if_neg ha, if_neg ha, haccept2 ha]
    omega

theorem flexTable_length {t : CHFATables} {state32 flagsTable : Bool} {blob : Bytes}
    (h : t.flexTable state32 flagsTable = some blob) : blob.length = t.tableBytes (t.stateWidth state32) := by
  obtain ⟨-, -, -, rfl⟩ := flexTable_cases h
  rw [length_append, length_setHeader, ← setSize_eq, setSize_eq_tableBytes]

/-- The blob of an accepted automaton is self-consistent and holds its tables unchanged, unless it has 2^32 bytes or
more, or the last of 256 classes is in use: the class table has one byte for each character. -/
theorem flexTable_faithful_iff {t : CHFATables} {state32 flagsTable : Bool} {blob : Bytes}
    (h : t.flexTable state32 flagsTable = some blob) : t.FaithfulBlob (t.stateWidth state32) blob ↔
      t.tableBytes (t.stateWidth state32) < 2 ^ 32 ∧ ∀ c < 256, t.classOf c < 256 := by
  rw [← flexTable_length h]
  refine ⟨FaithfulBlob.fits h, ?_⟩
  rintro ⟨hlt, hclass⟩
  obtain ⟨hw, -, hsize, -⟩ := flexTable_cases h
  refine ⟨_, _, flexTable_decodes h, mod_eq_of_lt hlt, placed_start rfl, ?_⟩
  rw [placed_content]
  exact (narrow_content hw hsize).mpr hclass

end CHFATables

end AppArmor

import AppArmor.Interface.Serialize

namespace AppArmor.Interface

open Codec List Option

theorem sdWriteName_none : sdWriteName none = Put.nothing := rfl

theorem puts_nil : puts [] = Put.nothing := rfl

theorem puts_cons (a : Put) (l : List Put) : puts (a :: l) = a ++ puts l := rfl

theorem puts_map {α : Type} {f : α → Put} {g : α → List Item} (h : ∀ a, f a = putItems (g a)) (l : List α) :
    puts (l.map f) = putItems (l.flatMap g) := by
  induction l with
  | nil => rfl
  | cons a l ih => rw [map_cons, puts_cons, ih, h, flatMap_cons, putItems_append]

theorem puts_map_put {α : Type} {f : α → Put} {g : α → Item} (h : ∀ a, f a = (g a).put) (l : List α) :
    puts (l.map f) = putItems (l.map g) := by
  induction l with
  | nil => rfl
  | cons a l ih => rw [map_cons, puts_cons, ih, h, map_cons, putItems]

theorem putItems_singleton (x : Item) : putItems [x] = x.put := Put.append_nothing _

theorem putItems_if (c : Prop) [Decidable c] (xs : List Item) :
    putItems (if c then xs else []) = if c then putItems xs else Put.nothing := by
  split_ifs <;> rfl

theorem put_num32 (n : UInt32) (name : Option String) :
    (num32 n name).put = sdWriteName (name.map ascii) ++ sdWriteUint32 n := by
  rw [num32, Item.put]
  rfl

theorem put_string (s : CString) (name : Option String) : (string s name).put = sdWriteString s.bytes (name.map ascii) := by
  rw [string, Item.put]
  rfl

theorem put_struct (name : Option Bytes) (items : List Item) :
    (Item.struct name items).put = sdWriteStruct name ++ (putItems items ++ sdWriteStructend) := by
  rw [Item.put, Put.append_assoc]

theorem put_arrayOf (name : Option String) (elems : List (List Item)) :
    (arrayOf name elems).put =
      sdWriteArray (name.map ascii) elems.length ++ (putItems elems.flatten ++ sdWriteArrayend) := by
  rw [arrayOf, Item.put, Put.append_assoc]

section Parts

variable (cfg : Features)

theorem puts_words (l : List UInt32) : puts (l.map sdWriteUint32) = putItems (l.map (num32 · none)) := by
  apply puts_map_put
  intro n
  rw [put_num32]
  rfl

theorem sdSerializeIdentity_eq (l : List CString) :
    sdSerializeIdentity l = (arrayOf (some "identity") (l.map fun s => [string s none])).put := by
  rw [put_arrayOf, sdSerializeIdentity, puts_map (g := fun s => [string s none])]
  · simp only [puts_cons, puts_nil, Put.append_nothing, length_map, flatMap_def]
    rfl
  · intro s
    rw [putItems_singleton, put_string]
    rfl

theorem sdSerializePermstable_eq (table : List AaPerms) (ht : table ≠ []) (filedfa : Bool) :
    sdSerializePermstable cfg table filedfa = putItems (permsTableItems cfg table filedfa) := by
  have hpos : 0 < table.length := length_pos_iff.mpr ht
  rw [sdSerializePermstable, puts_map (f := sdSerializePerm) (g := permsItem) fun p => puts_words p.fields]
  simp only [permsTableItems, putItems, putItems_if, put_struct, put_arrayOf, put_num32, puts_cons, puts_nil,
    Put.append_nothing, Put.append_assoc, length_map, flatMap_def, hpos, true_and, map_some,
    map_none]

theorem sdSerializeDfa_eq (d : DfaData) (filedfa : Bool) :
    sdSerializeDfa cfg d filedfa = putItems (dfaItems cfg d filedfa) := by
  unfold sdSerializeDfa dfaItems
  cases d.dfa with
  | none => rfl
  | some b =>
    dsimp only
    rw [putItems_append, putItems_if, putItems_singleton, Item.put, puts_cons, puts_cons, puts_nil, Put.append_nothing]
    by_cases ht : d.permsTable = []
    · simp [ht]
    · have hpos : 0 < d.permsTable.length := length_pos_iff.mpr ht
      simp only [hpos, ht, and_true, ne_eq, not_false_eq_true, sdSerializePermstable_eq cfg _ ht]

theorem sdSerializeRlimits_eq (r : Rlimits) :
    sdSerializeRlimits r = putItems (if r.specified = 0 then []
      else [.struct (some (ascii "rlimits"))
        [num32 r.specified none, arrayOf none (r.limits.map fun n => [.num none .w64 n.toNat])]]) := by
  unfold sdSerializeRlimits
  split_ifs
  · rfl
  · have hlimits : puts (r.limits.map fun n => sdWriteUint .w64 n.toNat) =
        putItems (r.limits.flatMap fun n => [.num none .w64 n.toNat]) := by
      apply puts_map
      intro n
      rw [putItems_singleton, Item.put]
      rfl
    rw [hlimits]
    simp only [putItems, put_struct, put_arrayOf, put_num32, puts_cons, puts_nil, Put.append_nothing, Put.append_assoc,
      length_map, flatMap_def, r.limits_length, map_none]
    rfl

theorem foldl_count (l : List (Option CString)) (n : ℕ) :
    l.foldl (fun count e => if e.isSome then count + 1 else count) n = n + (l.filterMap id).length := by
  induction l generalizing n with
  | nil => rfl
  | cons e l ih =>
    rw [foldl_cons, ih]
    cases e with
    | none => rfl
    | some s =>
      rw [show (some s :: l).filterMap id = s :: l.filterMap id from rfl, length_cons]
      exact Nat.add_right_comm n 1 _

theorem sdSerializeXtable_eq (table : List (Option CString)) : sdSerializeXtable table = putItems (xtableItems table) := by
  unfold sdSerializeXtable xtableItems
  split_ifs
  · rfl
  · have hlabels : puts ((table.drop 4).map sdWriteLabel) =
        putItems (((table.drop 4).filterMap id).flatMap fun s => [.str none (xtableLabel s.bytes ++ [0])]) := by
      induction table.drop 4 with
      | nil => rfl
      | cons e l ih =>
        rw [map_cons, puts_cons, ih]
        cases e with
        | none => rfl
        | some s =>
          rw [show (some s :: l).filterMap id = s :: l.filterMap id from rfl, flatMap_cons, putItems_append,
            putItems_singleton, Item.put]
          rfl
    dsimp only
    rw [hlabels, foldl_count, Nat.zero_add]
    simp only [putItems, put_struct, put_arrayOf, puts_cons, puts_nil, Put.append_nothing, Put.append_assoc,
      length_map, flatMap_def, map_none]

theorem foldl_succ (l : List CString) (n : ℕ) : l.foldl (fun count _ => count + 1) n = n + l.length := by
  induction l generalizing n with
  | nil => rfl
  | cons s l ih =>
    rw [foldl_cons, ih, length_cons]
    omega

theorem sdSerializeXattrs_eq (l : List CString) : sdSerializeXattrs l = putItems (if l = [] then []
      else [.struct (some (ascii "xattrs")) [arrayOf none (l.map fun s => [string s none])]]) := by
  unfold sdSerializeXattrs
  split_ifs
  · rfl
  · dsimp only
    rw [foldl_succ, Nat.zero_add, puts_map (g := fun s => [string s none])]
    · simp only [putItems, put_struct, put_arrayOf, puts_cons, puts_nil, Put.append_nothing, Put.append_assoc,
        length_map, flatMap_def, map_none]
    · intro s
      rw [putItems_singleton, put_string]
      rfl

theorem sdSerializeNet_eq (net : Option (List NetMasks)) : sdSerializeNet cfg net = putItems (netItems cfg net) := by
  unfold sdSerializeNet netItems
  cases net with
  | none => cases cfg.networkPolicydb <;> rfl
  | some l =>
    have hwords : ∀ n : NetMasks, puts (n.words.map fun w => sdWriteUint .w16 w.toNat) =
        putItems (n.words.map fun w => .num none .w16 w.toNat) := by
      intro n
      apply puts_map_put
      intro w
      rw [Item.put]
      rfl
    cases cfg.networkPolicydb with
    | true => rfl
    | false =>
      cases cfg.network with
      | false => rfl
      | true =>
        simp only [puts_map hwords, putItems_singleton, put_arrayOf, puts_cons, puts_nil, Put.append_nothing,
          flatMap_def, length_map, map_some, and_self, if_true, Bool.false_eq_true, if_false]

theorem sdWriteOptString_eq (s : Option CString) (name : String) :
    sdWriteOptString s name = putItems (s.toList.map (string · (some name))) := by
  cases s with
  | none => rfl
  | some s =>
    rw [toList_some, map_singleton, putItems_singleton, put_string]
    rfl

theorem sdSerializeProfile_eq (p : Profile) (flattened : Bool) :
    sdSerializeProfile cfg p flattened = (profileItem cfg p flattened).put := by
  have hname : sdWriteString (if flattened then p.hname.bytes else p.name.bytes) none =
      (string (if flattened then p.hname else p.name) none).put := by
    cases flattened <;> rw [put_string] <;> rfl
  rw [profileItem, put_struct, sdSerializeProfile]
  simp only [putItems_append, putItems_if, puts_cons, puts_nil, Put.append_nothing,
    Put.append_assoc, hname, sdSerializeDfa_eq, sdSerializeRlimits_eq, sdSerializeXtable_eq, sdSerializeXattrs_eq,
    sdSerializeNet_eq, sdSerializeIdentity_eq, sdWriteOptString_eq, puts_words, put_struct, put_num32, putItems,
    map_some, map_none, sdWriteName_none, Put.nothing_append]

end Parts

section Blobs

variable (cfg : Features)

theorem blobsFit_arrayOf {name : Option String} {elems : List (List Item)} (h : ∀ e ∈ elems, ∀ x ∈ e, Item.BlobsFit x) :
    (arrayOf name elems).BlobsFit := by
  refine .array fun x hx => ?_
  obtain ⟨e, he, hx⟩ := mem_flatten.mp hx
  exact h e he x hx

theorem blobsFit_if {c : Prop} [Decidable c] {xs : List Item} (h : ∀ x ∈ xs, Item.BlobsFit x) :
    ∀ x ∈ (if c then xs else []), Item.BlobsFit x := by
  split_ifs
  · exact h
  · exact fun x hx => absurd hx not_mem_nil

theorem blobsFit_words {α : Type} {g : α → Item} (h : ∀ a, (g a).BlobsFit) (l : List α) :
    ∀ x ∈ l.map g, x.BlobsFit := by
  intro x hx
  obtain ⟨a, -, rfl⟩ := mem_map.mp hx
  exact h a

theorem blobsFit_singleton {x : Item} (h : x.BlobsFit) : ∀ y ∈ [x], y.BlobsFit := by
  intro y hy
  rwa [mem_singleton.mp hy]

theorem blobsFit_append {xs ys : List Item} (hx : ∀ x ∈ xs, Item.BlobsFit x) (hy : ∀ y ∈ ys, Item.BlobsFit y) :
    ∀ z ∈ xs ++ ys, Item.BlobsFit z := forall_mem_append.mpr ⟨hx, hy⟩

theorem blobsFit_arrayOf_map {α : Type} {name : Option String} {g : α → List Item} (h : ∀ a, ∀ x ∈ g a, Item.BlobsFit x)
    (l : List α) : (arrayOf name (l.map g)).BlobsFit := by
  apply blobsFit_arrayOf
  intro e he
  obtain ⟨a, -, rfl⟩ := mem_map.mp he
  exact h a

theorem blobsFit_dfaItems (d : DfaData) (filedfa : Bool) : ∀ x ∈ dfaItems cfg d filedfa, x.BlobsFit := by
  unfold dfaItems
  cases d.dfa with
  | none => exact fun x hx => absurd hx not_mem_nil
  | some b =>
    apply blobsFit_append
    · apply blobsFit_if
      refine forall_mem_cons.mpr ⟨.struct (forall_mem_cons.mpr ⟨.num, blobsFit_singleton ?_⟩), ?_⟩
      · exact blobsFit_arrayOf_map (fun p : AaPerms => blobsFit_words (fun _ => .num) p.fields) _
      · exact blobsFit_if (blobsFit_singleton .num)
    · exact blobsFit_singleton (.blob b.length_lt)

theorem blobsFit_xtableItems (table : List (Option CString)) : ∀ x ∈ xtableItems table, x.BlobsFit := by
  unfold xtableItems
  split_ifs
  · exact fun x hx => absurd hx not_mem_nil
  · apply blobsFit_singleton
    exact .struct (blobsFit_singleton (blobsFit_arrayOf_map (fun _ => blobsFit_singleton .str) _))

theorem blobsFit_netItems (net : Option (List NetMasks)) : ∀ x ∈ netItems cfg net, x.BlobsFit := by
  unfold netItems
  cases net with
  | none => exact fun x hx => absurd hx not_mem_nil
  | some l =>
    apply blobsFit_if
    exact blobsFit_singleton (blobsFit_arrayOf_map (fun n => blobsFit_words (fun _ => .num) n.words) l)

theorem blobsFit_profileItem (p : Profile) (flattened : Bool) : (profileItem cfg p flattened).BlobsFit := by
  have helse : ∀ {c : Prop} [Decidable c] {xs : List Item}, (∀ x ∈ xs, Item.BlobsFit x) →
      ∀ x ∈ (if c then [] else xs), Item.BlobsFit x := by
    intro c _ xs h
    split_ifs
    · exact fun x hx => absurd hx not_mem_nil
    · exact h
  refine .struct ?_
  repeat' apply blobsFit_append
  · exact blobsFit_singleton .str
  · exact blobsFit_if (blobsFit_append (blobsFit_dfaItems cfg _ _) (blobsFit_singleton .num))
  · exact blobsFit_words (fun _ => .str) _
  · exact blobsFit_if (blobsFit_words (fun _ => .str) _)
  · exact blobsFit_if (blobsFit_singleton .num)
  · exact blobsFit_if (blobsFit_singleton .num)
  · apply blobsFit_singleton
    exact .struct (forall_mem_cons.mpr ⟨.num, forall_mem_cons.mpr ⟨.num, blobsFit_singleton .num⟩⟩)
  · exact blobsFit_if (blobsFit_singleton .num)
  · exact blobsFit_words (fun _ => .num) _
  · exact blobsFit_singleton (.struct (blobsFit_words (fun _ => .num) _))
  · exact blobsFit_if (blobsFit_singleton (blobsFit_arrayOf_map (fun _ => blobsFit_singleton .str) _))
  · apply helse
    exact blobsFit_singleton (.struct (blobsFit_singleton (blobsFit_arrayOf_map (fun _ => blobsFit_singleton .str) _)))
  · apply helse
    refine blobsFit_singleton (.struct (forall_mem_cons.mpr ⟨.num, blobsFit_singleton ?_⟩))
    exact blobsFit_arrayOf_map (fun _ => blobsFit_singleton .num) _
  · exact blobsFit_netItems cfg _
  · apply blobsFit_if
    exact blobsFit_singleton (.struct (blobsFit_append (blobsFit_dfaItems cfg _ _) (blobsFit_if (blobsFit_xtableItems _))))
  · exact blobsFit_dfaItems cfg _ _
  · exact blobsFit_if (blobsFit_xtableItems _)

end Blobs

/-- Decoding the stream of a profile, wherever it starts, gives the values back just when every name and string, with
its NUL, and every array fits its 16 bit length. -/
theorem sdSerializeProfile_decodes_iff (cfg : Features) (p : Profile) (flattened : Bool) (pos : ℕ) :
    decodeItem pos (sdSerializeProfile cfg p flattened pos) = some (profileItem cfg p flattened) ↔
      (profileItem cfg p flattened).Fits := by
  rw [sdSerializeProfile_eq]
  exact decodeItem_put_iff (blobsFit_profileItem cfg p flattened) pos

def noFeatures : Features := ⟨false, false, false, false, false, false, false, false, 0⟩

def emptyProfile (name : CString) : Profile where
  name := name
  hname := name
  ns := none
  xmatch := ⟨none, []⟩
  xmatchLen := 0
  flags := ⟨0, .enforce, 0, 0, none, none, 0, 0⟩
  caps := ⟨0, 0, 0, 0⟩
  identities := []
  xattrs := []
  rlimits := ⟨0, List.replicate 16 0, rfl⟩
  net := none
  policy := ⟨none, []⟩
  dfa := ⟨none, []⟩
  execTable := List.replicate 16 none
  execTable_length := rfl

theorem name_lost (name : CString) (h : 2 ^ 16 ≤ name.bytes.length + 1) :
    decodeItem 0 (sdSerializeProfile noFeatures (emptyProfile name) false 0) ≠
      some (profileItem noFeatures (emptyProfile name) false) := by
  intro hdec
  have hfits := decodeItem_fits hdec
  cases hfits with
  | struct hname hitems =>
    have hstr := hitems (string name none) (by simp [emptyProfile])
    cases hstr with
    | str _ hlen =>
      rw [length_append, length_singleton] at hlen
      omega

def nameOf (n : ℕ) (h : n + 1 < 2 ^ 31) : CString := ⟨List.replicate n 97, by rwa [List.length_replicate]⟩

theorem length_nameOf (n : ℕ) (h : n + 1 < 2 ^ 31) : (nameOf n h).bytes.length = n := length_replicate

theorem longName_lost :
    decodeItem 0 (sdSerializeProfile noFeatures (emptyProfile (nameOf 65535 (by decide))) false 0) ≠
      some (profileItem noFeatures (emptyProfile (nameOf 65535 (by decide))) false) := by
  apply name_lost
  rw [length_nameOf]
  decide

end AppArmor.Interface

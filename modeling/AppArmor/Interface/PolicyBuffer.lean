import AppArmor.Interface.SerializeCorrect

namespace AppArmor.Interface

open Codec List Option

def sdSerializeTopProfile (cfg : Features) (version : UInt32) (p : Profile) (hasParent : Bool) : Put :=
  puts [sdWriteName (some (ascii "version")), sdWriteUint32 version, sdWriteOptString p.ns "namespace",
    sdSerializeProfile cfg p hasParent]

def headerVersion : Bytes := [4, 8, 0, 118, 101, 114, 115, 105, 111, 110, 0]

def compared : Bytes → Bytes → ℕ
  | [], _ => 0
  | _ :: _, [] => 1
  | a :: as, b :: bs => if a = b then compared as bs + 1 else 1

/-- The loop of `next_profile_buffer`, with `left` bytes of the buffer left: how far the next header is, and whether a comparison
goes beyond the buffer. -/
@[grind =]
def nextProfileBuffer : (left : ℕ) → (b : Bytes) → Option ℕ × Bool
  | 0, _ => (none, false)
  | left + 1, b =>
    let beyond : Bool := left + 1 < compared headerVersion b
    if headerVersion.isPrefixOf b then (some 0, beyond)
    else
      let rest := nextProfileBuffer left b.tail
      (rest.1.map (· + 1), beyond || rest.2)

structure Trace where
  writes : List Bytes
  ok : Bool
  beyond : Bool

/-- The loop of `write_policy_buffer`. With less than a header left, or more than an `int` holds, the search for the next
profile does not end in the buffer (`none`). -/
@[grind =]
def writeLoop (accept : Bytes → Bool) : ℕ → (b : Bytes) → (size : ℕ) → Option Trace
  | 0, _, _ => none
  | fuel + 1, b, size =>
    if size < headerVersion.length ∨ 2 ^ 31 ≤ size then none
    else
      match nextProfileBuffer (size - headerVersion.length) (b.drop headerVersion.length) with
      | (none, beyond) => some ⟨[b.take size], accept (b.take size), beyond⟩
      | (some k, beyond) =>
        let bsize := headerVersion.length + k
        if accept (b.take bsize) then
          (writeLoop accept fuel (b.drop bsize) (size - bsize)).map fun t =>
            ⟨b.take bsize :: t.writes, t.ok, beyond || t.beyond⟩
        else some ⟨[b.take bsize], false, beyond⟩

def writePolicyBuffer (accept : Bytes → Bool) (buffer after : Bytes) : Option Trace :=
  writeLoop accept (buffer.length + 1) (buffer ++ after) buffer.length

section Search

variable {b : Bytes} {left : ℕ}

theorem lt_compared_iff {h : Bytes} {r : ℕ} : r < compared h b ↔ r < h.length ∧ h.take r <+: b := by
  induction h generalizing b r with
  | nil => simp [compared]
  | cons a h ih =>
    cases b with
    | nil => cases r <;> simp [compared]
    | cons c b =>
      rw [compared]
      cases r with
      | zero => split_ifs <;> simp
      | succ r =>
        rw [take_succ_cons, cons_prefix_cons]
        split_ifs with hac
        · rw [Nat.add_lt_add_iff_right, ih]
          simp [hac]
        · simp [hac]

theorem nextProfileBuffer_some {k : ℕ} (h : (nextProfileBuffer left b).1 = some k) :
    k < left ∧ headerVersion <+: b.drop k ∧ ∀ q < k, ¬ headerVersion <+: b.drop q := by
  induction left generalizing b k with
  | zero => exact nomatch h
  | succ left ih =>
    rw [nextProfileBuffer] at h
    by_cases hb : headerVersion.isPrefixOf b
    · rw [if_pos hb] at h
      obtain rfl := some.inj h
      exact ⟨by omega, isPrefixOf_iff_prefix.mp hb, fun q hq => absurd hq (Nat.not_lt_zero q)⟩
    · rw [if_neg hb] at h
      obtain ⟨k', hk', rfl⟩ := map_eq_some_iff.mp h
      obtain ⟨hlt, hhere, hbefore⟩ := ih hk'
      rw [drop_tail] at hhere
      refine ⟨by omega, hhere, fun q hq => ?_⟩
      cases q with
      | zero => rwa [drop_zero, ← isPrefixOf_iff_prefix]
      | succ q =>
        rw [← drop_tail]
        exact hbefore q (by omega)

theorem nextProfileBuffer_none (h : (nextProfileBuffer left b).1 = none) :
    ∀ q < left, ¬ headerVersion <+: b.drop q := by
  induction left generalizing b with
  | zero => exact fun q hq => absurd hq (Nat.not_lt_zero q)
  | succ left ih =>
    rw [nextProfileBuffer] at h
    by_cases hb : headerVersion.isPrefixOf b
    · rw [if_pos hb] at h
      exact nomatch h
    · rw [if_neg hb] at h
      intro q hq
      cases q with
      | zero => rwa [drop_zero, ← isPrefixOf_iff_prefix]
      | succ q =>
        rw [← drop_tail]
        exact ih (map_eq_none_iff.mp h) q (by omega)

theorem nextProfileBuffer_beyond : (nextProfileBuffer left b).2 = true ↔
    ∃ q < left, (∀ q' < q, ¬ headerVersion <+: b.drop q') ∧ left - q < headerVersion.length ∧
      headerVersion.take (left - q) <+: b.drop q := by
  induction left generalizing b with
  | zero => simp [nextProfileBuffer]
  | succ left ih =>
    rw [nextProfileBuffer]
    by_cases hb : headerVersion.isPrefixOf b
    · rw [if_pos hb, decide_eq_true_iff, lt_compared_iff]
      constructor
      · rintro ⟨hlt, htake⟩
        exact ⟨0, by omega, fun q hq => absurd hq (Nat.not_lt_zero q), hlt, htake⟩
      · rintro ⟨q, hq, hbefore, hlt, htake⟩
        cases q with
        | zero => exact ⟨hlt, htake⟩
        | succ q => exact absurd ( isPrefixOf_iff_prefix.mp hb) (hbefore 0 (by omega))
    · rw [if_neg hb]
      dsimp only
      rw [Bool.or_eq_true, decide_eq_true_iff, lt_compared_iff, ih]
      constructor
      · rintro (⟨hlt, htake⟩ | ⟨q, hq, hbefore, hlt, htake⟩)
        · exact ⟨0, by omega, fun q hq => absurd hq (Nat.not_lt_zero q), hlt, htake⟩
        · rw [drop_tail] at htake
          refine ⟨q + 1, by omega, fun q' hq' => ?_, by rwa [Nat.add_sub_add_right], by rwa [Nat.add_sub_add_right]⟩
          cases q' with
          | zero => rwa [drop_zero, ← isPrefixOf_iff_prefix]
          | succ q' =>
            rw [← drop_tail]
            exact hbefore q' (by omega)
      · rintro ⟨q, hq, hbefore, hlt, htake⟩
        cases q with
        | zero => exact Or.inl ⟨hlt, htake⟩
        | succ q =>
          rw [Nat.add_sub_add_right] at hlt htake
          refine Or.inr ⟨q, by omega, fun q' hq' => ?_, hlt, by rwa [drop_tail]⟩
          rw [drop_tail]
          exact hbefore (q' + 1) (by omega)

end Search

structure Framed (bs : Bytes) : Prop where
  starts : headerVersion <+: bs
  ends : [8] <:+ bs
  long : 2 * headerVersion.length - 1 ≤ bs.length

section Framed

variable {bs body tail : Bytes}

theorem header_getElem {k : ℕ} (hk : 0 < k) : headerVersion[k]? ≠ some 4 := by
  intro h
  have hlt : k < headerVersion.length := (List.getElem?_eq_some_iff.mp h).1
  have hall : ∀ k < 11, 0 < k → headerVersion[k]? ≠ some 4 := by decide
  exact hall k hlt hk h

theorem Framed.exists_body (h : Framed bs) : ∃ body, bs = headerVersion ++ body ∧ headerVersion.length - 1 ≤ body.length := by
  obtain ⟨body, rfl⟩ := h.starts
  have hlong := h.long
  rw [length_append] at hlong
  exact ⟨body, rfl, by omega⟩

theorem header_in_tail_iff : headerVersion <:+: (headerVersion ++ body).tail ↔ headerVersion <:+: body := by
  constructor
  · rintro ⟨s, t, he⟩
    have hdrop : (headerVersion ++ body).drop (s.length + 1) = headerVersion ++ t := by
      rw [← drop_tail, ← he, append_assoc, drop_left]
    by_cases hs : headerVersion.length ≤ s.length + 1
    · rw [drop_append, drop_of_length_le hs, nil_append] at hdrop
      have hhere : headerVersion <+: body.drop (s.length + 1 - headerVersion.length) := ⟨t, hdrop.symm⟩
      exact hhere.isInfix.trans (drop_suffix _ body).isInfix
    · have hget : (headerVersion ++ body)[s.length + 1]? = some 4 := by
        have hfirst := congrArg (·[0]?) hdrop
        simpa [headerVersion] using hfirst
      rw [getElem?_append_left (by omega)] at hget
      exact absurd hget (header_getElem (by omega))
  · intro h
    exact h.trans (suffix_append headerVersion.tail body).isInfix

theorem suffix_body_iff {u : Bytes} (hu : u.length ≤ body.length) : u <:+ headerVersion ++ body ↔ u <:+ body := by
  constructor
  · intro h
    exact suffix_of_suffix_length_le h (suffix_append _ _) hu
  · intro h
    exact h.trans (suffix_append _ _)

theorem header_in_body {q : ℕ} (hq : q < body.length) (h : headerVersion <+: (body ++ tail).drop q) :
    headerVersion <:+: body ∨
      ∃ v, v ≠ [] ∧ headerVersion = body.drop q ++ v ∧ v <+: tail := by
  rw [drop_append_of_le_length hq.le] at h
  by_cases hlen : headerVersion.length ≤ (body.drop q).length
  · have hhere := prefix_of_prefix_length_le h (prefix_append _ _) hlen
    exact Or.inl (hhere.isInfix.trans (drop_suffix q body).isInfix)
  · obtain ⟨v, hv⟩ := prefix_of_prefix_length_le (prefix_append (body.drop q) tail) h (by omega)
    rw [← hv, prefix_append_right_inj] at h
    refine Or.inr ⟨v, ?_, hv.symm, h⟩
    rintro rfl
    rw [append_nil] at hv
    rw [hv] at hlen
    exact hlen le_rfl

theorem header_at_end (h : [8] <:+ bs) {u v : Bytes} (hu : u ≠ []) (hv : v ≠ []) (he : headerVersion = u ++ v) (hsuffix : u <:+ bs) :
    u = [4, 8] := by
  have hlast : u.getLast? = some 8 := by
    obtain ⟨s, rfl⟩ := h
    obtain ⟨w, c, rfl⟩ := (eq_nil_or_concat' u).resolve_left hu
    obtain ⟨s', hs'⟩ := hsuffix
    rw [← append_assoc] at hs'
    rw [(append_inj' hs' rfl).2]
    simp
  have htake : u = headerVersion.take u.length := by rw [he, take_left]
  have hlt : u.length < headerVersion.length := by
    rw [he, length_append]
    have := length_pos_iff.mpr hv
    omega
  have hall : ∀ k < 11, (headerVersion.take k).getLast? = some 8 → headerVersion.take k = [4, 8] := by decide
  rw [htake] at hlast ⊢
  exact hall u.length hlt hlast

end Framed

section Loop

variable {accept : Bytes → Bool} {bs body rest after : Bytes}

theorem nextProfileBuffer_inner (hinside : ¬ headerVersion <:+: body) (hnext : headerVersion <+: rest) :
    nextProfileBuffer (body.length + rest.length) (body ++ (rest ++ after)) = (some body.length, false) := by
  have hpos : 0 < headerVersion.length := by decide
  have hlen : headerVersion.length ≤ rest.length := hnext.length_le
  have hfound : headerVersion <+: (body ++ (rest ++ after)).drop body.length := by
    rw [drop_left]
    exact hnext.trans (prefix_append _ _)
  have hbefore : ∀ q < body.length, ¬ headerVersion <+: (body ++ (rest ++ after)).drop q := by
    intro q hq h
    rcases header_in_body hq h with hin | ⟨v, hv, he, hvtail⟩
    · exact hinside hin
    · -- the header that reaches into the next profile has its first byte again
      have hk : headerVersion[(body.drop q).length]? = v[0]? := by
        nth_rewrite 1 [he]
        rw [getElem?_append_right le_rfl, Nat.sub_self]
      have hv0 : v[0]? = some 4 := by
        obtain ⟨c, v', rfl⟩ := exists_cons_of_ne_nil hv
        obtain ⟨rest', rfl⟩ := hnext
        have hhead := (cons_prefix_cons.mp (hvtail : c :: v' <+: 4 :: _)).1
        rw [hhead]
        rfl
      exact header_getElem (by rw [length_drop]; omega) (hk.trans hv0)
  apply Prod.ext
  · cases h : (nextProfileBuffer (body.length + rest.length) (body ++ (rest ++ after))).1 with
    | none => exact absurd hfound (nextProfileBuffer_none h _ (by omega))
    | some k =>
      obtain ⟨hk, hhere, hfirst⟩ := nextProfileBuffer_some h
      rcases lt_trichotomy k body.length with hlt | rfl | hgt
      · exact absurd hhere (hbefore k hlt)
      · rfl
      · exact absurd hfound (hfirst _ hgt)
  · rw [Bool.eq_false_iff]
    intro h
    obtain ⟨q, hq, hfirst, hlt, -⟩ := nextProfileBuffer_beyond.mp h
    have hle : q ≤ body.length := by
      by_contra hgt
      exact hfirst _ (not_le.mp hgt) hfound
    omega

theorem nextProfileBuffer_last (hends : [8] <:+ body) :
    nextProfileBuffer body.length (body ++ after) = (none, false) ↔ ¬ headerVersion <:+: body ∧ ¬ [4, 8] <:+ body := by
  constructor
  · intro h
    have hnone := nextProfileBuffer_none (congrArg Prod.fst h)
    have hbeyond : ¬ _ := Bool.eq_false_iff.mp (congrArg Prod.snd h)
    rw [nextProfileBuffer_beyond] at hbeyond
    refine ⟨?_, ?_⟩
    · rintro ⟨s, t, rfl⟩
      apply hnone s.length
      · simp [headerVersion]
      · simp [append_assoc]
    · rintro ⟨s, rfl⟩
      apply hbeyond
      refine ⟨s.length, by simp, fun q hq => hnone q (by simp; omega), ?_, ?_⟩
      · simp [headerVersion]
      · rw [append_assoc, drop_left]
        simp [headerVersion]
  · rintro ⟨hinside, hend⟩
    have hpos : 0 < headerVersion.length := by decide
    have hbefore : ∀ q < body.length, ¬ headerVersion <+: (body ++ after).drop q := by
      intro q hq h
      rcases header_in_body hq h with hin | ⟨v, hv, he, -⟩
      · exact hinside hin
      · have hne : body.drop q ≠ [] := by
          rw [Ne, drop_eq_nil_iff]
          omega
        apply hend
        rw [← header_at_end hends hne hv he (drop_suffix q body)]
        exact drop_suffix q body
    apply Prod.ext
    · cases h : (nextProfileBuffer body.length (body ++ after)).1 with
      | none => rfl
      | some k =>
        obtain ⟨hk, hhere, -⟩ := nextProfileBuffer_some h
        exact absurd hhere (hbefore k hk)
    · rw [Bool.eq_false_iff]
      intro h
      obtain ⟨q, hq, -, hlt, htake⟩ := nextProfileBuffer_beyond.mp h
      rw [drop_append_of_le_length hq.le] at htake
      have hlen : (headerVersion.take (body.length - q)).length = (body.drop q).length := by
        rw [length_take, length_drop]
        omega
      have hsame : headerVersion.take (body.length - q) = body.drop q :=
        (prefix_of_prefix_length_le htake (prefix_append _ _) hlen.le).eq_of_length hlen
      apply hend
      have hne : body.drop q ≠ [] := by
        rw [Ne, drop_eq_nil_iff]
        omega
      have hv : headerVersion.drop (body.length - q) ≠ [] := by
        rw [Ne, drop_eq_nil_iff]
        omega
      have he : headerVersion = body.drop q ++ headerVersion.drop (body.length - q) := by
        rw [← hsame, take_append_drop]
      rw [← header_at_end hends hne hv he (drop_suffix q body)]
      exact drop_suffix q body

variable {fuel : ℕ}

theorem writeLoop_profile {tail : Bytes} {n : ℕ} (hsize : headerVersion.length + n < 2 ^ 31) :
    writeLoop accept (fuel + 1) (headerVersion ++ tail) (headerVersion.length + n) =
      match nextProfileBuffer n tail with
      | (none, beyond) =>
        some ⟨[headerVersion ++ tail.take n], accept (headerVersion ++ tail.take n), beyond⟩
      | (some k, beyond) =>
        if accept (headerVersion ++ tail.take k) then
          (writeLoop accept fuel (tail.drop k) (n - k)).map fun t =>
            ⟨(headerVersion ++ tail.take k) :: t.writes, t.ok, beyond || t.beyond⟩
        else some ⟨[headerVersion ++ tail.take k], false, beyond⟩ := by
  have hguard : ¬ (headerVersion.length + n < headerVersion.length ∨ 2 ^ 31 ≤ headerVersion.length + n) := by omega
  rw [writeLoop, if_neg hguard, Nat.add_sub_cancel_left, drop_left]
  rcases nextProfileBuffer n tail with ⟨k | k, beyond⟩
  · simp only [take_length_add_append]
  · simp only [take_length_add_append, drop_length_add_append, Nat.add_sub_add_left]

theorem writes_ne_nil {size : ℕ} {b : Bytes} {t : Trace} (h : writeLoop accept fuel b size = some t) : t.writes ≠ [] := by
  cases fuel with
  | zero => exact nomatch h
  | succ fuel =>
    rw [writeLoop] at h
    split_ifs at h
    cases hfind : nextProfileBuffer (size - headerVersion.length) (b.drop headerVersion.length) with
    | mk found beyond =>
      rw [hfind] at h
      cases found with
      | none =>
        obtain rfl := some.inj h
        exact cons_ne_nil _ _
      | some k =>
        dsimp only at h
        split_ifs at h
        · obtain ⟨t', -, rfl⟩ := map_eq_some_iff.mp h
          exact cons_ne_nil _ _
        · obtain rfl := some.inj h
          exact cons_ne_nil _ _

theorem writeLoop_iff {profiles : List Bytes} (hne : profiles ≠ []) (hframed : ∀ bs ∈ profiles, Framed bs)
    (haccept : ∀ bs ∈ profiles, accept bs) (hsize : profiles.flatten.length < 2 ^ 31)
    (hfuel : profiles.flatten.length < fuel) :
    writeLoop accept fuel (profiles.flatten ++ after) profiles.flatten.length = some ⟨profiles, true, false⟩ ↔
      (∀ bs ∈ profiles, ¬ headerVersion <:+: bs.tail) ∧ ¬ [4, 8] <:+ profiles.getLast hne := by
  induction profiles generalizing fuel with
  | nil => exact absurd rfl hne
  | cons bs profiles ih =>
    obtain ⟨fuel, rfl⟩ : ∃ n, fuel = n + 1 := ⟨fuel - 1, by omega⟩
    have hbs := hframed bs mem_cons_self
    have hok := haccept bs mem_cons_self
    obtain ⟨body, rfl, hlong⟩ := hbs.exists_body
    have hlong' : 10 ≤ body.length := hlong
    have hends : [8] <:+ body := (suffix_body_iff (by simp; omega)).mp hbs.ends
    have hlen : ((headerVersion ++ body) :: profiles).flatten.length = headerVersion.length + (body.length + profiles.flatten.length) := by
      simp
    have hmem : ((headerVersion ++ body) :: profiles).flatten ++ after = headerVersion ++ (body ++ (profiles.flatten ++ after)) := by
      simp
    rw [hlen] at hsize hfuel ⊢
    rw [hmem, writeLoop_profile hsize]
    cases profiles with
    | nil =>
      have hlast := @nextProfileBuffer_last body after hends
      rw [forall_mem_singleton, getLast_singleton, header_in_tail_iff, suffix_body_iff (by simp; omega), ← hlast]
      rw [flatten_nil, nil_append, length_nil, Nat.add_zero, take_left' rfl, hok]
      rcases nextProfileBuffer body.length (body ++ after) with ⟨k | k, beyond⟩
      · simp
      · constructor
        · intro h
          dsimp only at h
          split_ifs at h
          · obtain ⟨t, ht, he⟩ := map_eq_some_iff.mp h
            have hwrites := (cons.inj (Trace.mk.inj he).1).2
            exact absurd hwrites (writes_ne_nil ht)
          · exact nomatch (Trace.mk.inj (some.inj h)).2.1
        · intro h
          exact nomatch (Prod.mk.inj h).1
    | cons bs' profiles =>
      have hrest := ih (cons_ne_nil _ _) (fun bs hbs => hframed bs (mem_cons_of_mem _ hbs))
        (fun bs hbs => haccept bs (mem_cons_of_mem _ hbs)) (by omega) (by omega : (bs' :: profiles).flatten.length < fuel)
      have hnext : headerVersion <+: (bs' :: profiles).flatten :=
        (hframed bs' (by simp)).starts.trans (prefix_append _ _)
      rw [forall_mem_cons, getLast_cons (cons_ne_nil _ _), header_in_tail_iff, and_assoc, ← hrest]
      constructor
      · intro h
        cases hfind : nextProfileBuffer (body.length + (bs' :: profiles).flatten.length)
            (body ++ ((bs' :: profiles).flatten ++ after)) with
        | mk found beyond =>
          rw [hfind] at h
          cases found with
          | none => exact nomatch (cons.inj (Trace.mk.inj (some.inj h)).1).2
          | some k =>
            dsimp only at h
            split_ifs at h
            · obtain ⟨t, ht, he⟩ := map_eq_some_iff.mp h
              obtain ⟨hwrites, htok, htbeyond⟩ := Trace.mk.inj he
              obtain ⟨hfirst, hlater⟩ := cons.inj hwrites
              obtain ⟨hk, -, hbefore⟩ := nextProfileBuffer_some (congrArg Prod.fst hfind)
              have hbody := append_cancel_left hfirst
              have hkl : k = body.length := by
                have := congrArg length hbody
                rw [length_take, length_append, length_append] at this
                omega
              subst hkl
              refine ⟨?_, ?_⟩
              · rintro ⟨u, v, rfl⟩
                apply hbefore u.length
                · simp [headerVersion]
                · simp [append_assoc]
              · rw [drop_left, Nat.add_sub_cancel_left] at ht
                rw [ht, ← hlater, ← htok, ← (Bool.or_eq_false_iff.mp htbeyond).2]
            · exact nomatch (Trace.mk.inj (some.inj h)).2.1
      · rintro ⟨hinside, hloop⟩
        rw [nextProfileBuffer_inner hinside hnext]
        dsimp only
        rw [take_left' rfl, if_pos hok, drop_left' rfl, Nat.add_sub_cancel_left, hloop]
        rfl

end Loop

theorem sdWriteName_version (pos : ℕ) : sdWriteName (some (ascii "version")) pos = headerVersion := by
  have hname : ascii "version" = [118, 101, 114, 115, 105, 111, 110] := by decide +kernel
  rw [hname]
  rfl

theorem suffix_struct (name : Option Bytes) (items : List Item) (pos : ℕ) : [8] <:+ (Item.struct name items).put pos := by
  rw [Item.put, Put.append_apply]
  exact suffix_append _ _

theorem suffix_put {u : Bytes} {a b : Put} (h : ∀ pos, u <:+ b pos) (pos : ℕ) : u <:+ (a ++ b) pos :=
  (h _).trans (suffix_append _ _)

theorem framed_top (cfg : Features) (version : UInt32) (p : Profile) (hasParent : Bool) (pos : ℕ) :
    Framed (sdSerializeTopProfile cfg version p hasParent pos) := by
  have hsplit : sdSerializeTopProfile cfg version p hasParent =
      sdWriteName (some (ascii "version")) ++ (sdWriteUint32 version ++ (sdWriteOptString p.ns "namespace" ++
        (profileItem cfg p hasParent).put)) := by
    rw [sdSerializeTopProfile, sdSerializeProfile_eq, puts_cons, puts_cons, puts_cons, puts_cons, puts_nil, Put.append_nothing]
  have hstruct : ∀ pos, [8] <:+ (profileItem cfg p hasParent).put pos := fun pos => suffix_struct _ _ pos
  have hlength : ∀ pos, 12 ≤ ((profileItem cfg p hasParent).put pos).length := by
    intro pos
    have hprofile : ascii "profile" = [112, 114, 111, 102, 105, 108, 101] := by decide +kernel
    have hname : (sdWriteStruct (some (ascii "profile")) pos).length = 12 := by
      rw [hprofile]
      rfl
    rw [profileItem, Item.put, Put.append_apply, Put.append_apply, length_append, length_append, hname]
    omega
  rw [hsplit]
  refine ⟨?_, ?_, ?_⟩
  · rw [Put.append_apply, sdWriteName_version]
    exact prefix_append _ _
  · exact suffix_put (suffix_put (suffix_put hstruct)) pos
  · simp only [Put.append_apply, sdWriteName_version, length_append]
    have hversion : ∀ pos, (sdWriteUint32 version pos).length = 5 := fun pos => rfl
    have := hlength (pos + headerVersion.length + (sdWriteUint32 version (pos + headerVersion.length)).length +
      (sdWriteOptString p.ns "namespace" (pos + headerVersion.length + (sdWriteUint32 version (pos + headerVersion.length)).length)).length)
    rw [hversion] at this ⊢
    have heleven : headerVersion.length = 11 := rfl
    omega

def IsTopProfile (bs : Bytes) : Prop :=
  ∃ cfg version p hasParent pos, bs = sdSerializeTopProfile cfg version p hasParent pos

/-- Serialised profiles are written one by one, without a look at what is after the buffer, exactly if the header occurs in none of
them after the first byte, and the last one does not have a byte 4 before its last. -/
theorem writePolicyBuffer_iff {accept : Bytes → Bool} {profiles : List Bytes} (hne : profiles ≠ [])
    (htop : ∀ bs ∈ profiles, IsTopProfile bs) (haccept : ∀ bs ∈ profiles, accept bs) (hsize : profiles.flatten.length < 2 ^ 31)
    (after : Bytes) :
    writePolicyBuffer accept profiles.flatten after = some ⟨profiles, true, false⟩ ↔
      (∀ bs ∈ profiles, ¬ headerVersion <:+: bs.tail) ∧ ¬ [4, 8] <:+ profiles.getLast hne := by
  apply writeLoop_iff hne _ haccept hsize (Nat.lt_succ_self _)
  intro bs hbs
  obtain ⟨cfg, version, p, hasParent, pos, rfl⟩ := htop bs hbs
  exact framed_top cfg version p hasParent pos

def sampleName : CString := ⟨[97], by decide⟩

def sampleProfile : Bytes := sdSerializeTopProfile noFeatures 5 (emptyProfile sampleName) false 0

theorem sampleProfile_written :
    writePolicyBuffer (fun _ => true) [sampleProfile, sampleProfile].flatten [] =
      some ⟨[sampleProfile, sampleProfile], true, false⟩ := by
  apply (writePolicyBuffer_iff (cons_ne_nil _ _) _ (fun _ _ => rfl) (by decide +kernel) []).mpr
  · exact ⟨by decide +kernel, by decide +kernel⟩
  · intro bs hbs
    have he : bs = sampleProfile := by simpa using hbs
    exact ⟨noFeatures, 5, emptyProfile sampleName, false, 0, he⟩

/-- A table of permissions has a version too, and its name is written as the header is: the profile is written in two pieces. If the
transition table ends with a byte 4, the search looks at the byte after the buffer. -/
theorem profile_split_and_overread :
    let table : DfaData := ⟨some ⟨[1], by decide⟩, [⟨0, 0, 0, 0, 0, 0, 0, 0, 0, 0, 0, 0, 0⟩]⟩
    let withTable := sdSerializeTopProfile { noFeatures with permstable32Version := 2 } 5
      { emptyProfile sampleName with policy := table } false 0
    let ending := sdSerializeTopProfile noFeatures 5 { emptyProfile sampleName with dfa := ⟨some ⟨[4], by decide⟩, []⟩ } false 0
    ((writePolicyBuffer (fun _ => true) withTable []).map fun t => t.writes.length) = some 2 ∧
      ((writePolicyBuffer (fun _ => true) ending []).map fun t => t.beyond) = some true := by
  decide +kernel

end AppArmor.Interface

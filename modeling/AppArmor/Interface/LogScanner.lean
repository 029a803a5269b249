import AppArmor.Lib.Codec
import Mathlib.Data.List.TakeWhile

namespace AppArmor.Interface

open Codec List

structure StringBuf where
  bytes : Bytes
  alloc : ℕ
  fits : alloc = 0 ∧ bytes = [] ∨ bytes.length < alloc

def grow (len : ℕ) : (n alloc : ℕ) → ℕ
  | 0, alloc => alloc
  | n + 1, alloc => if alloc ≤ len then grow len n (2 * alloc) else alloc

theorem lt_grow {len n alloc : ℕ} (h : len < 2 ^ n * alloc) : len < grow len n alloc := by
  induction n generalizing alloc with
  | zero => rwa [Nat.pow_zero, Nat.one_mul] at h
  | succ n ih =>
    unfold grow
    split_ifs with hfull
    · apply ih
      rwa [Nat.pow_succ, Nat.mul_assoc] at h
    · omega

namespace StringBuf

def allocated (buf : StringBuf) : ℕ := if buf.alloc = 0 then 128 else buf.alloc

theorem allocated_pos (buf : StringBuf) : 0 < buf.allocated := by
  unfold allocated
  split_ifs <;> omega

def reset (buf : StringBuf) : StringBuf := ⟨[], buf.allocated, Or.inr buf.allocated_pos⟩

def append (buf : StringBuf) (text : Bytes) : StringBuf where
  bytes := buf.bytes ++ text
  alloc := grow (buf.bytes ++ text).length (buf.bytes ++ text).length buf.allocated
  fits := by
    refine Or.inr (lt_grow ?_)
    have hpos := buf.allocated_pos
    have hpow := Nat.lt_two_pow_self (n := (buf.bytes ++ text).length)
    nlinarith

end StringBuf

def strdup (s : Bytes) : Bytes := s.takeWhile (· ≠ 0)

def quoteByte : UInt8 := 0x22
def backslashByte : UInt8 := 0x5c
def newlineByte : UInt8 := 0x0a
def equalsByte : UInt8 := 0x3d

def StringBuf.flush (buf : StringBuf) (run : Bytes) : StringBuf := if run = [] then buf else buf.append run

def scanQuoted : (buf : StringBuf) → (run : Bytes) → Bytes → Option (StringBuf × Bytes)
  | _, _, [] => none
  | buf, run, c :: text =>
    if c = quoteByte then some (buf.flush run, text)
    else if c = backslashByte then
      match text with
      | [] => none
      | d :: text => scanQuoted ((buf.flush run).append [d]) [] text
    -- no rule matches a newline
    else if c = newlineByte then scanQuoted (buf.flush run) [] text
    else scanQuoted buf (run ++ [c]) text

def isHex (c : UInt8) : Bool := 0x41 ≤ c ∧ c ≤ 0x46 ∨ 0x30 ≤ c ∧ c ≤ 0x39

def hexRun : Bytes → Bytes
  | a :: b :: text => if isHex a ∧ isHex b then a :: b :: hexRun text else []
  | _ => []

def hexValue (c : UInt8) : ℕ := if c ≤ 0x39 then c.toNat - 0x30 else c.toNat - 0x41 + 10

def hexToString : Bytes → Bytes
  | a :: b :: hexstring => UInt8.ofNat (16 * hexValue a + hexValue b) :: hexToString hexstring
  | _ => []

inductive ScanState
  | initial
  | safeString
  deriving DecidableEq

inductive ScanToken
  | equals
  | quotedString (s : Bytes)
  | hexString (s : Bytes)
  deriving DecidableEq

def ScanToken.string : ScanToken → Option Bytes
  | .equals => none
  | .quotedString s => some s
  | .hexString s => some s

structure Scanned where
  token : ScanToken
  state : ScanState
  buf : StringBuf
  rest : Bytes

/-- A call of the scanner; `none` if the input ends or the token is another one. All other rules of `INITIAL` are for
other tokens; `safe_string` leaves to `INITIAL` what it does not know. -/
def yylex (state : ScanState) (buf : StringBuf) : Bytes → Option Scanned
  | [] => none
  | c :: text =>
    if c = quoteByte then
      (scanQuoted buf.reset [] text).map fun r => ⟨.quotedString (strdup r.1.bytes), .initial, r.1, r.2⟩
    else if c = equalsByte then some ⟨.equals, state, buf, text⟩
    else if state = .safeString ∧ hexRun (c :: text) ≠ [] then
      let hexstring := hexRun (c :: text)
      some ⟨.hexString (strdup (hexToString hexstring)), .initial, buf, (c :: text).drop hexstring.length⟩
    else none

inductive StringKey
  | name
  | aaNamespace
  | name2
  | profile
  | peerProfile
  | label
  | peerLabel
  | addr
  | peerAddr
  | hostname
  | terminal
  | exe
  | comm
  | target
  deriving DecidableEq

def StringKey.state : StringKey → ScanState
  | .hostname => .initial
  | .terminal => .initial
  | .target => .initial
  | _ => .safeString

def scanField (key : StringKey) (buf : StringBuf) (text : Bytes) : Option Bytes :=
  (yylex key.state buf text).bind fun first =>
    if first.token = .equals then (yylex first.state first.buf first.rest).bind fun second => second.token.string
    else none

def isPlain (b : UInt8) : Bool := 0x21 ≤ b ∧ b ≤ 0x7e ∧ b ≠ quoteByte

def hexDigit (n : ℕ) : UInt8 := if n < 10 then UInt8.ofNat (0x30 + n) else UInt8.ofNat (0x41 + n - 10)

def hexPair (b : UInt8) : Bytes := [hexDigit (b.toNat / 16), hexDigit (b.toNat % 16)]

def auditEncode (w : Bytes) : Bytes :=
  if w.all isPlain then quoteByte :: (w ++ [quoteByte]) else w.flatMap hexPair

section Quoted

variable {buf b : StringBuf} {run w rest r : Bytes}

theorem flush_bytes (buf : StringBuf) (run : Bytes) : (buf.flush run).bytes = buf.bytes ++ run := by
  unfold StringBuf.flush
  split_ifs with hrun
  · rw [hrun, append_nil]
  · rfl

theorem isPlain_ne {c : UInt8} (h : isPlain c = true) : c ≠ quoteByte ∧ c ≠ newlineByte := by
  have hc := of_decide_eq_true h
  refine ⟨hc.2.2, ?_⟩
  rintro rfl
  exact absurd hc.1 (by decide)

variable {text : Bytes}

theorem scanQuoted_plain {c : UInt8} (hc : isPlain c = true) (hback : c ≠ backslashByte) :
    scanQuoted buf run (c :: text) = scanQuoted buf (run ++ [c]) text := by
  rw [scanQuoted.eq_def]
  simp only [if_neg (isPlain_ne hc).1, if_neg hback, if_neg (isPlain_ne hc).2]

theorem scanQuoted_exact (hw : ∀ c ∈ w, isPlain c = true) (hback : backslashByte ∉ w) :
    scanQuoted buf run (w ++ quoteByte :: rest) = some (buf.flush (run ++ w), rest) := by
  induction w generalizing run with
  | nil =>
    rw [append_nil, nil_append, scanQuoted.eq_def]
    rfl
  | cons c w ih =>
    rw [forall_mem_cons] at hw
    rw [mem_cons, not_or] at hback
    rw [cons_append, scanQuoted_plain hw.1 (fun h => hback.1 h.symm), ih hw.2 hback.2, append_assoc]
    rfl

theorem scanQuoted_backslash {d : UInt8} :
    scanQuoted buf run (backslashByte :: d :: text) = scanQuoted ((buf.flush run).append [d]) [] text := by
  rw [scanQuoted.eq_def]
  rfl

theorem append_flush_bytes (d : UInt8) : ((buf.flush run).append [d]).bytes ++ [] = buf.bytes ++ run ++ [d] := by
  rw [append_nil]
  change (buf.flush run).bytes ++ [d] = _
  rw [flush_bytes]

theorem scanQuoted_extends (h : scanQuoted buf run text = some (b, r)) :
    ∃ v, b.bytes = buf.bytes ++ run ++ v := by
  fun_induction scanQuoted buf run text with
  | case1 => cases h
  | case2 =>
    cases h
    exact ⟨[], by rw [flush_bytes, append_nil]⟩
  | case3 => cases h
  | case4 buf run d text _ ih =>
    obtain ⟨v, hv⟩ := ih h
    rw [append_flush_bytes, append_assoc] at hv
    exact ⟨[d] ++ v, hv⟩
  | case5 buf run text _ _ ih =>
    obtain ⟨v, hv⟩ := ih h
    rw [flush_bytes, append_nil] at hv
    exact ⟨v, hv⟩
  | case6 buf run c text _ _ _ ih =>
    obtain ⟨v, hv⟩ := ih h
    rw [← append_assoc, append_assoc _ [c]] at hv
    exact ⟨[c] ++ v, hv⟩

theorem scanQuoted_differs (hw : ∀ c ∈ w, isPlain c = true) (hback : backslashByte ∈ w)
    (h : scanQuoted buf run (w ++ quoteByte :: rest) = some (b, r)) :
    ∃ v, b.bytes = buf.bytes ++ run ++ v ∧ (v.length < w.length ∨ quoteByte ∈ v.take w.length) := by
  induction hn : w.length using Nat.strong_induction_on generalizing w buf run with
  | _ n ih =>
    cases w with
    | nil => exact absurd hback not_mem_nil
    | cons c w =>
      rw [forall_mem_cons] at hw
      rw [length_cons] at hn
      by_cases hc : c = backslashByte
      · subst hc
        cases w with
        | nil =>
          -- the closing quote is taken for an escaped one
          rw [cons_append, nil_append, scanQuoted_backslash] at h
          obtain ⟨v, hv⟩ := scanQuoted_extends h
          rw [append_flush_bytes, append_assoc] at hv
          refine ⟨[quoteByte] ++ v, hv, Or.inr ?_⟩
          rw [← hn]
          exact mem_cons_self
        | cons d w =>
          rw [cons_append, cons_append, scanQuoted_backslash] at h
          rw [forall_mem_cons] at hw
          rw [length_cons] at hn
          by_cases hmore : backslashByte ∈ w
          · obtain ⟨v, hv, hcase⟩ := ih w.length (by omega) hw.2.2 hmore h rfl
            rw [append_flush_bytes, append_assoc] at hv
            refine ⟨[d] ++ v, hv, ?_⟩
            rcases hcase with hshort | hquote
            · left
              simp only [singleton_append, length_cons]
              omega
            · right
              rw [← hn, singleton_append, take_succ_cons]
              exact mem_cons_of_mem _ (take_subset_take_left v (Nat.le_succ _) hquote)
          · rw [scanQuoted_exact hw.2.2 hmore] at h
            obtain ⟨rfl, rfl⟩ := Prod.mk.inj (Option.some.inj h)
            refine ⟨[d] ++ w, ?_, Or.inl ?_⟩
            · rw [flush_bytes, ← append_assoc, append_flush_bytes, append_assoc]
            · simp only [singleton_append, length_cons]
              omega
      · rw [cons_append, scanQuoted_plain hw.1 hc] at h
        have hmore : backslashByte ∈ w := (mem_cons.mp hback).resolve_left fun he => hc he.symm
        obtain ⟨v, hv, hcase⟩ := ih w.length (by omega) hw.2 hmore h rfl
        refine ⟨c :: v, ?_, ?_⟩
        · rw [hv]
          simp only [append_assoc, singleton_append]
        · rcases hcase with hshort | hquote
          · left
            rw [length_cons]
            omega
          · right
            rw [← hn, take_succ_cons]
            exact mem_cons_of_mem _ hquote

end Quoted

theorem hexDigit_spec : ∀ n < 16, isHex (hexDigit n) = true ∧ hexValue (hexDigit n) = n ∧ hexDigit n ≠ quoteByte ∧
    hexDigit n ≠ equalsByte := by
  decide

theorem halves_lt (b : UInt8) : b.toNat / 16 < 16 ∧ b.toNat % 16 < 16 := by
  have hb := b.toNat_lt
  omega

theorem hexRun_nil {rest : Bytes} (hrest : ∀ c ∈ rest.head?, isHex c = false) : hexRun rest = [] := by
  unfold hexRun
  split
  next a b text =>
    have ha := hrest a rfl
    rw [if_neg fun h => by rw [h.1] at ha; cases ha]
  next => rfl

theorem hexRun_encode {rest : Bytes} (hrest : ∀ c ∈ rest.head?, isHex c = false) (w : Bytes) :
    hexRun (w.flatMap hexPair ++ rest) = w.flatMap hexPair := by
  induction w with
  | nil => exact hexRun_nil hrest
  | cons b w ih =>
    obtain ⟨hhigh, hlow⟩ := halves_lt b
    have hpair : isHex (hexDigit (b.toNat / 16)) = true ∧ isHex (hexDigit (b.toNat % 16)) = true :=
      ⟨(hexDigit_spec _ hhigh).1, (hexDigit_spec _ hlow).1⟩
    rw [flatMap_cons, append_assoc]
    change hexRun (hexDigit (b.toNat / 16) :: hexDigit (b.toNat % 16) :: (w.flatMap hexPair ++ rest)) = _
    rw [hexRun, if_pos hpair, ih]
    rfl

theorem hexToString_encode (w : Bytes) : hexToString (w.flatMap hexPair) = w := by
  induction w with
  | nil => rfl
  | cons b w ih =>
    obtain ⟨hhigh, hlow⟩ := halves_lt b
    rw [flatMap_cons]
    change hexToString (hexDigit (b.toNat / 16) :: hexDigit (b.toNat % 16) :: w.flatMap hexPair) = _
    rw [hexToString, ih, (hexDigit_spec _ hhigh).2.1, (hexDigit_spec _ hlow).2.1, Nat.div_add_mod, UInt8.ofNat_toNat]

section Fields

variable {w rest : Bytes}

theorem strdup_self (hnul : 0 ∉ w) : strdup w = w := by
  refine takeWhile_eq_self_iff.mpr fun b hb => decide_eq_true ?_
  rintro rfl
  exact hnul hb

theorem yylex_quoted_iff (state : ScanState) (buf : StringBuf) (hnul : 0 ∉ w) (hw : ∀ c ∈ w, isPlain c = true) :
    ((yylex state buf (quoteByte :: (w ++ [quoteByte]) ++ rest)).bind fun r => r.token.string) = some w ↔
      backslashByte ∉ w := by
  have hlex : yylex state buf (quoteByte :: (w ++ [quoteByte]) ++ rest) =
      (scanQuoted buf.reset [] (w ++ quoteByte :: rest)).map fun r =>
        ⟨.quotedString (strdup r.1.bytes), .initial, r.1, r.2⟩ := by
    rw [cons_append, append_assoc, singleton_append, yylex, if_pos rfl]
  rw [hlex]
  constructor
  · intro hsome hback
    cases hscan : scanQuoted buf.reset [] (w ++ quoteByte :: rest) with
    | none =>
      rw [hscan] at hsome
      cases hsome
    | some r =>
      rw [hscan] at hsome
      obtain ⟨v, hv, hcase⟩ := scanQuoted_differs hw hback hscan
      have hdup : strdup v = w := by
        have hw' := Option.some.inj hsome
        rwa [hv] at hw'
      have hpre : w <+: v := by
        rw [← hdup]
        exact takeWhile_prefix _
      rcases hcase with hshort | hquote
      · exact absurd hpre.length_le (by omega)
      · rw [← prefix_iff_eq_take.mp hpre] at hquote
        exact (isPlain_ne (hw _ hquote)).1 rfl
  · intro hback
    rw [scanQuoted_exact hw hback, nil_append]
    change some (strdup (buf.reset.flush w).bytes) = some w
    rw [flush_bytes]
    exact congrArg some (strdup_self hnul)

theorem yylex_hex (state : ScanState) (buf : StringBuf) (hnul : 0 ∉ w) (hw : w ≠ [])
    (hrest : ∀ c ∈ rest.head?, isHex c = false) :
    ((yylex state buf (w.flatMap hexPair ++ rest)).bind fun r => r.token.string) =
      if state = .safeString then some w else none := by
  obtain ⟨b, w, rfl⟩ := exists_cons_of_ne_nil hw
  obtain ⟨-, -, hquote, hequals⟩ := hexDigit_spec _ (halves_lt b).1
  have hrun := hexRun_encode hrest (b :: w)
  rw [flatMap_cons, append_assoc] at hrun ⊢
  change hexRun (hexDigit (b.toNat / 16) :: _) = _ at hrun
  change ((yylex state buf (hexDigit (b.toNat / 16) :: _)).bind fun r => r.token.string) = _
  rw [yylex, if_neg hquote, if_neg hequals, hrun]
  by_cases hstate : state = .safeString
  · rw [if_pos ⟨hstate, cons_ne_nil _ _⟩, if_pos hstate]
    have hstring := hexToString_encode (b :: w)
    rw [flatMap_cons] at hstring
    change some (strdup (hexToString (hexPair b ++ w.flatMap hexPair))) = _
    rw [hstring, strdup_self hnul]
  · rw [if_neg fun h => hstate h.1, if_neg hstate]
    rfl

/-- The scanner takes a backslash in quotes for the start of an escape sequence, and knows hex strings only after some of
the keys. -/
theorem scanField_auditEncode_iff (key : StringKey) (buf : StringBuf) (hnul : 0 ∉ w)
    (hrest : ∀ c ∈ rest.head?, isHex c = false) :
    scanField key buf (equalsByte :: (auditEncode w ++ rest)) = some w ↔
      if w.all isPlain then backslashByte ∉ w else key.state = .safeString := by
  have hfield : scanField key buf (equalsByte :: (auditEncode w ++ rest)) =
      (yylex key.state buf (auditEncode w ++ rest)).bind fun r => r.token.string := rfl
  rw [hfield]
  unfold auditEncode
  split_ifs with hplain
  · exact yylex_quoted_iff key.state buf hnul (all_eq_true.mp hplain)
  · have hw : w ≠ [] := by
      rintro rfl
      exact hplain rfl
    rw [yylex_hex key.state buf hnul hw hrest]
    split_ifs with hstate
    · exact ⟨fun _ => hstate, fun _ => rfl⟩
    · exact ⟨fun h => (by cases h), fun h => absurd h hstate⟩

theorem name_comes_back : scanField .name ⟨[], 0, Or.inl ⟨rfl, rfl⟩⟩ (equalsByte :: (auditEncode [0x2f, 0x61] ++ [0x20])) =
      some [0x2f, 0x61] ↔
    if List.all [0x2f, 0x61] isPlain then backslashByte ∉ [0x2f, 0x61] else StringKey.name.state = .safeString :=
  scanField_auditEncode_iff .name _ (by decide) (by rintro _ ⟨⟩; rfl)

/-- The name `a\b` comes back as `ab`, and the target `a b`, in hex digits, not at all. -/
theorem backslash_dropped :
    scanField .name ⟨[], 0, Or.inl ⟨rfl, rfl⟩⟩ (equalsByte :: auditEncode [0x61, 0x5c, 0x62]) = some [0x61, 0x62] ∧
      scanField .target ⟨[], 0, Or.inl ⟨rfl, rfl⟩⟩ (equalsByte :: auditEncode [0x61, 0x20, 0x62]) = none := by
  decide

end Fields

end AppArmor.Interface

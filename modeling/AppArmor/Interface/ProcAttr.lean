import AppArmor.Glob.Escape
import AppArmor.Lib.Fuel
import Mathlib

namespace AppArmor.Interface

open Fuel List

inductive ProcError
  | einval
  | erange
  deriving DecidableEq

inductive ModePointer
  | unset
  | null
  | into (pos : ℕ)
  deriving DecidableEq

structure ProcAttr where
  buf : Text
  mode : ModePointer
  deriving DecidableEq

def cString (buf : Text) : Text := buf.takeWhile (· ≠ '\x00')

def ProcAttr.label (attr : ProcAttr) : Text := cString attr.buf

def ProcAttr.modeText (attr : ProcAttr) : Option Text :=
  match attr.mode with
  | .into pos => some (cString (attr.buf.drop pos))
  | _ => none

def unconfined : Text := "unconfined".toList

def parseUnconfined (con : Text) (size : ℕ) : Bool := size = unconfined.length && con.take size = unconfined

def findMode (con : Text) : ℕ → ℕ
  | 0 => 0
  | pos + 1 => if con[pos + 1]? = some ' ' ∧ con[pos + 2]? = some '(' then pos + 1 else findMode con pos

def splitStripped (con : Text) (size : ℕ) : Option ProcAttr :=
  if parseUnconfined con size then some ⟨con, .null⟩
  else if 3 < size ∧ con[size - 1]? = some ')' then
    let pos := findMode con (size - 2)
    if 0 < pos then some ⟨(con.set pos '\x00').set (size - 1) '\x00', .into (pos + 2)⟩ else none
  else none

def splitcon (con : Text) (size : ℕ) (stripNewline : Bool) : Option ProcAttr :=
  if size = 0 then none
  else if stripNewline ∧ con[size - 1]? = some '\n' then
    -- the newline is overwritten on success
    (splitStripped con (size - 1)).map fun attr => { attr with buf := attr.buf.set (size - 1) '\x00' }
  else splitStripped con size

/-- The read loop. The `turn`-th call of `read` would like to give `chunk turn` bytes, it gives at least one if there is
one and room for it. -/
def readLoop (chunk : ℕ → ℕ) : ℕ → ℕ → Text → Text → ℕ → Option (Text × ℕ)
  | 0, _, _, _, _ => none
  | fuel + 1, turn, buf, rest, len =>
    let ret := min (max 1 (chunk turn)) (min len rest.length)
    if ret = 0 then some (buf, len)
    else readLoop chunk fuel (turn + 1) (buf ++ rest.take ret) (rest.drop ret) (len - ret)

def finishRead (buf : Text) (len : ℕ) : Except ProcError ProcAttr :=
  match buf.getLast? with
  | none => .ok ⟨buf, .unset⟩
  | some last =>
    if last = '\x00' then .ok ⟨buf, .unset⟩
    else if last ≠ '\n' ∧ len = 0 then .error .erange
    else
      let buf := if last ≠ '\n' then buf ++ ['\x00'] else buf
      (splitcon buf buf.length true).elim (.error .einval) .ok

def getprocattrRaw (chunk : ℕ → ℕ) (reply : Text) (len : ℕ) (fuel : ℕ) : Option (Except ProcError ProcAttr) :=
  if len = 0 then some (.error .einval)
  else (readLoop chunk fuel 0 [] reply len).map fun r => finishRead r.1 r.2

/-! ### The replies of the kernel -/

inductive Context
  | unconfined
  | confined (label mode : Text)

inductive Terminator
  | nothing
  | newline
  | nul
  deriving DecidableEq

def Context.body : Context → Text
  | .unconfined => Interface.unconfined
  | .confined label mode => label ++ ' ' :: '(' :: mode ++ [')']

def Terminator.text : Terminator → Text
  | .nothing => []
  | .newline => ['\n']
  | .nul => ['\x00']

def Context.WellFormed : Context → Prop
  | .unconfined => True
  | .confined label mode => label ≠ [] ∧ '\x00' ∉ label ∧ '\x00' ∉ mode

def Context.Reported : Context → ProcAttr → Prop
  | .unconfined, attr => attr.label = Interface.unconfined ∧ attr.modeText = none
  | .confined label mode, attr => attr.label = label ∧ attr.modeText = some mode

def Fits (context : Context) (len : ℕ) : Prop := context.body.length < len

variable {chunk : ℕ → ℕ} {context : Context} {len : ℕ}

/-! ### Reading -/

theorem readLoop_returns (turn : ℕ) (buf rest : Text) (len : ℕ) :
    Returns (readLoop chunk · turn buf rest len) (buf ++ rest.take len, len - rest.length) := by
  induction hk : rest.length using Nat.strong_induction_on generalizing turn buf rest len with
  | _ k ih =>
    subst hk
    apply Returns.step
    by_cases hret : min (max 1 (chunk turn)) (min len rest.length) = 0
    · have hz : len = 0 ∨ rest = [] := by
        rw [← length_eq_zero_iff]
        omega
      apply (Returns.pure _).congr
      intro fuel
      simp only [readLoop, hret, if_true]
      rcases hz with rfl | rfl
      · simp
      · simp
    · obtain ⟨ret, hr⟩ : ∃ ret, ret = min (max 1 (chunk turn)) (min len rest.length) := ⟨_, rfl⟩
      rw [← hr] at hret
      have hlt : (rest.drop ret).length < rest.length := by
        rw [length_drop]
        omega
      have hrest := ih _ hlt (turn + 1) (buf ++ rest.take ret) _ (len - ret) rfl
      have htake : rest.take ret ++ (rest.drop ret).take (len - ret) = rest.take len := by
        rw [← take_add, show ret + (len - ret) = len by omega]
      rw [append_assoc, htake, length_drop, show len - ret - (rest.length - ret) = len - rest.length by omega]
        at hrest
      apply hrest.congr
      intro fuel
      simp only [readLoop, ← hr, if_neg hret]

theorem getprocattrRaw_returns (chunk : ℕ → ℕ) (hlen : len ≠ 0) (reply : Text) :
    Returns (getprocattrRaw chunk reply len) (finishRead (reply.take len) (len - reply.length)) := by
  apply ((readLoop_returns 0 [] reply len).map fun r => finishRead r.1 r.2).congr
  intro fuel
  rw [getprocattrRaw, if_neg hlen]

/-! ### Splitting -/

def ModeAt (con : Text) (pos : ℕ) : Prop := con[pos]? = some ' ' ∧ con[pos + 1]? = some '('

theorem findMode_le (con : Text) (n : ℕ) : findMode con n ≤ n := by
  induction n with
  | zero => exact le_rfl
  | succ n ih =>
    rw [findMode]
    split_ifs
    · exact le_rfl
    · omega

theorem findMode_last {con : Text} {n pos : ℕ} (hpos : 0 < pos) (hle : pos ≤ n) (h : ModeAt con pos) :
    pos ≤ findMode con n := by
  induction n with
  | zero => omega
  | succ n ih =>
    rw [findMode]
    split_ifs with hm
    · exact hle
    · rcases Nat.lt_or_ge n pos with hlt | hge
      · obtain rfl : pos = n + 1 := by omega
        exact absurd h hm
      · exact ih hge

theorem findMode_modeAt {con : Text} {n : ℕ} (h : 0 < findMode con n) : ModeAt con (findMode con n) := by
  induction n with
  | zero => exact absurd h (lt_irrefl 0)
  | succ n ih =>
    rw [findMode] at h ⊢
    split_ifs at h ⊢ with hm
    · exact hm
    · exact ih h

section Confined

variable {label mode tail : Text}

theorem modeAt_label (label mode tail : Text) : ModeAt (label ++ ' ' :: '(' :: mode ++ [')'] ++ tail) label.length := by
  constructor
  · simp
  · simp

theorem modeAt_append (con more : Text) : ModeAt (con ++ ' ' :: '(' :: more) con.length := by
  constructor <;> simp

theorem infix_of_modeAt {pos : ℕ} (hlt : label.length < pos) (hle : pos ≤ label.length + mode.length + 1)
    (h : ModeAt (label ++ ' ' :: '(' :: mode ++ [')'] ++ tail) pos) : [' ', '('] <:+: mode := by
  obtain ⟨k, rfl⟩ := Nat.exists_eq_add_of_lt hlt
  obtain ⟨hblank, hparen⟩ := h
  rw [List.append_assoc, List.append_assoc, List.getElem?_append_right (by omega)] at hblank hparen
  rw [show label.length + k + 1 - label.length = k + 1 by omega] at hblank
  rw [show label.length + k + 1 + 1 - label.length = k + 2 by omega] at hparen
  cases k with
  | zero => exact absurd hblank (by simp)
  | succ k =>
    simp only [List.cons_append, List.getElem?_cons_succ] at hblank hparen
    rw [List.getElem?_append_left (by omega)] at hblank
    obtain ⟨hk, hget⟩ := List.getElem?_eq_some_iff.mp hblank
    have hdrop := List.drop_eq_getElem_cons hk
    by_cases hlast : k + 1 < mode.length
    · rw [List.getElem?_append_left hlast] at hparen
      obtain ⟨_, hget'⟩ := List.getElem?_eq_some_iff.mp hparen
      rw [List.drop_eq_getElem_cons hlast, hget, hget'] at hdrop
      have hpre : [' ', '('] <+: mode.drop k := ⟨mode.drop (k + 1 + 1), hdrop.symm⟩
      exact hpre.isInfix.trans (List.drop_suffix k mode).isInfix
    · rw [List.getElem?_append_right (by omega), show k + 1 - mode.length = 0 by omega] at hparen
      exact absurd hparen (by simp)

theorem findMode_eq_iff (hlabel : label ≠ []) (tail : Text) :
    findMode (label ++ ' ' :: '(' :: mode ++ [')'] ++ tail) (label.length + mode.length + 1) = label.length ↔
      ¬ [' ', '('] <:+: mode := by
  have hpos : 0 < label.length := length_pos_iff.mpr hlabel
  have hge := findMode_last hpos (by omega : label.length ≤ label.length + mode.length + 1)
    (modeAt_label label mode tail)
  have hle := findMode_le (label ++ ' ' :: '(' :: mode ++ [')'] ++ tail) (label.length + mode.length + 1)
  constructor
  · rintro heq ⟨a, b, hab⟩
    have hat := modeAt_append (label ++ ' ' :: '(' :: a) (b ++ [')'] ++ tail)
    have hcon : label ++ ' ' :: '(' :: a ++ ' ' :: '(' :: (b ++ [')'] ++ tail) =
        label ++ ' ' :: '(' :: mode ++ [')'] ++ tail := by
      rw [← hab]
      simp
    rw [hcon] at hat
    have hlen : (label ++ ' ' :: '(' :: a).length = label.length + a.length + 2 := by simp [Nat.add_assoc]
    have hmode := congrArg length hab
    rw [length_append, length_append, length_cons, length_singleton] at hmode
    rw [hlen] at hat
    have hlater := findMode_last (by omega) (by omega : label.length + a.length + 2 ≤ label.length + mode.length + 1) hat
    omega
  · intro hno
    by_contra hne
    exact hno (infix_of_modeAt (by omega) hle (findMode_modeAt (by omega)))

theorem cString_append {t : Text} (ht : '\x00' ∉ t) (more : Text) : cString (t ++ '\x00' :: more) = t := by
  have hall : ∀ c ∈ t, decide (c ≠ '\x00') = true := fun c hc => decide_eq_true fun h => ht (h ▸ hc)
  rw [cString, takeWhile_append_of_pos hall, takeWhile_cons_of_neg (by simp), append_nil]

theorem body_not_unconfined (tail : Text) :
    parseUnconfined (label ++ ' ' :: '(' :: mode ++ [')'] ++ tail) (label.length + mode.length + 3) = false := by
  rw [parseUnconfined, Bool.and_eq_false_iff, or_iff_not_imp_left]
  intro _
  rw [decide_eq_false_iff_not]
  intro heq
  rw [take_append_of_le_length (by simp; omega), take_of_length_le (by simp; omega)] at heq
  have hlast := congrArg getLast? heq
  rw [getLast?_concat] at hlast
  exact absurd hlast (by decide)

theorem splitcon_concat_newline (con : Text) : splitcon (con ++ ['\n']) (con ++ ['\n']).length true =
    (splitStripped (con ++ ['\n']) con.length).map fun attr => { attr with buf := attr.buf.set con.length '\x00' } := by
  have hnl : (con ++ ['\n'])[(con ++ ['\n']).length - 1]? = some '\n' := by
    rw [← getLast?_eq_getElem?, getLast?_concat]
  rw [splitcon, if_neg (by simp), if_pos ⟨rfl, hnl⟩, length_append, length_singleton, Nat.add_sub_cancel]

theorem splitStripped_body (label mode : Text) (hlabel : label ≠ []) (tail : Text) :
    let con := label ++ ' ' :: '(' :: mode ++ [')'] ++ tail
    let pos := findMode con (label.length + mode.length + 1)
    splitStripped con (label.length + mode.length + 3) =
      some ⟨(con.set pos '\x00').set (label.length + mode.length + 2) '\x00', .into (pos + 2)⟩ := by
  intro con pos
  have hpos : 0 < label.length := length_pos_iff.mpr hlabel
  have hbody : (label ++ ' ' :: '(' :: mode ++ [')']).length = label.length + mode.length + 3 := by
    simp
    omega
  have hparen : con[label.length + mode.length + 3 - 1]? = some ')' := by
    rw [getElem?_append_left (by omega), ← hbody, ← getLast?_eq_getElem?, getLast?_concat]
  have hge : label.length ≤ pos := findMode_last hpos (by omega) (modeAt_label label mode tail)
  rw [splitStripped, body_not_unconfined, if_neg Bool.false_ne_true, if_pos ⟨by omega, hparen⟩,
    show label.length + mode.length + 3 - 2 = label.length + mode.length + 1 by omega]
  exact if_pos (hpos.trans_le hge)

theorem set_append_add {α : Type} (l r : List α) (k : ℕ) (a : α) : (l ++ r).set (l.length + k) a = l ++ r.set k a := by
  rw [set_append_right _ _ (Nat.le_add_right _ _), Nat.add_sub_cancel_left]

theorem split_reported_iff (hl : '\x00' ∉ label) (hm : '\x00' ∉ mode) {pos : ℕ} (hge : label.length ≤ pos) :
    (Context.confined label mode).Reported
      ⟨(((label ++ ' ' :: '(' :: mode ++ [')'] ++ ['\n']).set pos '\x00').set (label.length + mode.length + 2) '\x00').set
        (label.length + mode.length + 3) '\x00', .into (pos + 2)⟩ ↔ pos = label.length := by
  obtain ⟨k, rfl⟩ := Nat.exists_eq_add_of_le hge
  rw [append_assoc, append_assoc, set_append_add, Nat.add_assoc, set_append_add, Nat.add_assoc,
    set_append_add]
  constructor
  · rintro ⟨hlab, -⟩
    cases k with
    | zero => rfl
    | succ k =>
      -- the blank behind the label is still there
      have hall : ∀ c ∈ label, decide (c ≠ '\x00') = true := fun c hc => decide_eq_true fun h => hl (h ▸ hc)
      rw [ProcAttr.label, cString, takeWhile_append_of_pos hall] at hlab
      have hlen := congrArg length hlab
      simp at hlen
  · intro hk
    obtain rfl : k = 0 := by omega
    have hbuf : (((' ' :: '(' :: mode ++ ([')'] ++ ['\n'])).set 0 '\x00').set (mode.length + 2) '\x00').set
        (mode.length + 3) '\x00' = '\x00' :: '(' :: (mode ++ ['\x00', '\x00']) := by
      simp
    rw [hbuf]
    refine ⟨cString_append hl _, ?_⟩
    rw [ProcAttr.modeText]
    dsimp only
    rw [drop_append, drop_eq_nil_of_le (by omega)]
    rw [show label.length + 0 + 2 - label.length = 2 by omega, nil_append]
    exact congrArg some (cString_append hm _)

end Confined

/-! ### The whole call -/

def Context.PlainMode : Context → Prop
  | .unconfined => True
  | .confined _ mode => ¬ [' ', '('] <:+: mode

theorem Context.body_last (context : Context) :
    ∃ b c, context.body = b ++ [c] ∧ c ≠ '\x00' ∧ c ≠ '\n' := by
  cases context with
  | unconfined => exact ⟨"unconfine".toList, 'd', rfl, by decide, by decide⟩
  | confined label mode => exact ⟨_, ')', rfl, by decide, by decide⟩

theorem Context.nul_not_mem_body (h : context.WellFormed) : '\x00' ∉ context.body := by
  cases context with
  | unconfined => decide
  | confined label mode => simp [Context.body, h.2.1, h.2.2]

theorem finishRead_newline (buf : Text) (len : ℕ) : finishRead (buf ++ ['\n']) len =
    (splitcon (buf ++ ['\n']) (buf ++ ['\n']).length true).elim (.error .einval) .ok := by
  rw [finishRead, getLast?_concat]
  rfl

theorem finishRead_nul (buf : Text) (len : ℕ) : finishRead (buf ++ ['\x00']) len = .ok ⟨buf ++ ['\x00'], .unset⟩ := by
  rw [finishRead, getLast?_concat]
  rfl

theorem finishRead_full (buf : Text) {c : Char} (hnul : c ≠ '\x00') (hnl : c ≠ '\n') :
    finishRead (buf ++ [c]) 0 = .error .erange := by
  rw [finishRead, getLast?_concat]
  dsimp only
  rw [if_neg hnul, if_pos ⟨hnl, rfl⟩]

theorem splitcon_concat_nul (con : Text) : splitcon (con ++ ['\x00']) (con ++ ['\x00']).length true = none := by
  have hlast : (con ++ ['\x00'])[(con ++ ['\x00']).length - 1]? = some '\x00' := by
    rw [← getLast?_eq_getElem?, getLast?_concat]
  have hun : parseUnconfined (con ++ ['\x00']) (con ++ ['\x00']).length = false := by
    rw [parseUnconfined, Bool.and_eq_false_iff, take_length]
    right
    rw [decide_eq_false_iff_not]
    intro heq
    have hl := congrArg getLast? heq
    rw [getLast?_concat] at hl
    exact absurd hl (by decide)
  rw [splitcon, if_neg (by simp), hlast, if_neg (by decide), splitStripped, hun, if_neg Bool.false_ne_true, hlast,
    if_neg fun h => absurd h.2 (by decide)]

theorem finishRead_open (buf : Text) {c : Char} (hnul : c ≠ '\x00') (hnl : c ≠ '\n') (hlen : len ≠ 0) :
    finishRead (buf ++ [c]) len = .error .einval := by
  rw [finishRead, getLast?_concat]
  dsimp only
  rw [if_neg hnul, if_neg (fun h => hlen h.2), if_pos hnl, splitcon_concat_nul]
  rfl

theorem finishRead_ne_erange (buf : Text) (len : ℕ) : finishRead (buf ++ ['\n']) len ≠ .error .erange := by
  rw [finishRead_newline]
  cases splitcon (buf ++ ['\n']) (buf ++ ['\n']).length true with
  | none | some attr => exact fun h => by cases h

theorem returns_ok_iff {f : ℕ → Option (Except ProcError ProcAttr)} {r : Except ProcError ProcAttr} (h : Returns f r)
    {P : ProcAttr → Prop} : (∃ attr, Returns f (.ok attr) ∧ P attr) ↔ ∃ attr, r = .ok attr ∧ P attr := by
  constructor
  · rintro ⟨attr, hr, hp⟩
    exact ⟨attr, h.unique hr, hp⟩
  · rintro ⟨attr, rfl, hp⟩
    exact ⟨attr, h, hp⟩

def ReadsBack (chunk : ℕ → ℕ) (context : Context) (terminator : Terminator) (len : ℕ) : Prop :=
  (Fits context len → ∃ attr, Returns (getprocattrRaw chunk (context.body ++ terminator.text) len) (.ok attr) ∧
      context.Reported attr) ∧
    (¬ Fits context len → Returns (getprocattrRaw chunk (context.body ++ terminator.text) len) (.error .erange))

/-- When it is: a reply that fits ends with a newline, after a mode without a blank before a parenthesis, or is
`unconfined` with a NUL; where a reply that does not fit is cut, there is no newline. -/
def Readable (context : Context) (terminator : Terminator) (len : ℕ) : Prop :=
  (Fits context len → terminator = .newline ∧ context.PlainMode ∨ context = .unconfined ∧ terminator = .nul) ∧
    (¬ Fits context len → 0 < len ∧ context.body[len - 1]? ≠ some '\n')

theorem newline_reported_iff (h : context.WellFormed) (len : ℕ) :
    (∃ attr, finishRead (context.body ++ ['\n']) len = .ok attr ∧ context.Reported attr) ↔ context.PlainMode := by
  rw [finishRead_newline]
  cases context with
  | unconfined =>
    constructor
    · exact fun _ => trivial
    · exact fun _ => ⟨⟨"unconfined\x00".toList, .null⟩, by decide, by decide, by decide⟩
  | confined label mode =>
    obtain ⟨hlabel, hl, hm⟩ := h
    have hbody : (label ++ ' ' :: '(' :: mode ++ [')']).length = label.length + mode.length + 3 := by
      simp
      omega
    have hpos : 0 < label.length := length_pos_iff.mpr hlabel
    have hge := findMode_last hpos (by omega : label.length ≤ label.length + mode.length + 1)
      (modeAt_label label mode ['\n'])
    rw [Context.body, splitcon_concat_newline, hbody, splitStripped_body label mode hlabel ['\n'], Option.map_some,
      Option.elim_some, Context.PlainMode, ← findMode_eq_iff hlabel ['\n'], ← split_reported_iff hl hm hge]
    constructor
    · rintro ⟨attr, hattr, hrep⟩
      rw [Except.ok.injEq] at hattr
      exact hattr ▸ hrep
    · exact fun hrep => ⟨_, rfl, hrep⟩

theorem nul_reported_iff (h : context.WellFormed) (len : ℕ) :
    (∃ attr, finishRead (context.body ++ ['\x00']) len = .ok attr ∧ context.Reported attr) ↔ context = .unconfined := by
  rw [finishRead_nul]
  constructor
  · rintro ⟨attr, hattr, hrep⟩
    cases context with
    | unconfined => rfl
    | confined label mode =>
      rw [Except.ok.injEq] at hattr
      have hmode := hrep.2
      rw [← hattr] at hmode
      cases hmode
  · rintro rfl
    exact ⟨_, rfl, by decide, rfl⟩

/-- `aa_getprocattr_raw` reads a reply back, however it is cut into chunks, exactly in those cases. -/
theorem getprocattrRaw_readsBack_iff (h : context.WellFormed) (chunk : ℕ → ℕ) (terminator : Terminator) (len : ℕ) :
    ReadsBack chunk context terminator len ↔ Readable context terminator len := by
  obtain ⟨b, c, hbody, hnul, hnl⟩ := context.body_last
  apply and_congr
  · apply forall_congr'
    intro hfits
    have hlen : len ≠ 0 := by
      rw [Fits] at hfits
      omega
    have hall : (context.body ++ terminator.text).take len = context.body ++ terminator.text := by
      apply take_of_length_le
      rw [Fits] at hfits
      cases terminator <;> simp [Terminator.text] <;> omega
    have hret := getprocattrRaw_returns chunk hlen (context.body ++ terminator.text)
    rw [hall] at hret
    rw [returns_ok_iff hret]
    cases terminator with
    | newline => simpa [Terminator.text] using newline_reported_iff h _
    | nul => simpa [Terminator.text] using nul_reported_iff h _
    | nothing =>
      have hroom : len - context.body.length ≠ 0 := by
        rw [Fits] at hfits
        omega
      have herr : finishRead context.body (len - context.body.length) = .error .einval := by
        rw [hbody] at hroom ⊢
        exact finishRead_open b hnul hnl hroom
      simp [Terminator.text, herr]
  · apply forall_congr'
    intro hfits
    rw [Fits, Nat.not_lt] at hfits
    by_cases hlen : len = 0
    · have hret : Returns (getprocattrRaw chunk (context.body ++ terminator.text) len) (.error .einval) := by
        apply (Returns.pure _).congr
        intro fuel
        rw [getprocattrRaw, if_pos hlen]
      constructor
      · exact fun hr => absurd (hret.unique hr) (by decide)
      · exact fun hpos => absurd hlen hpos.1.ne'
    · have hret := getprocattrRaw_returns chunk hlen (context.body ++ terminator.text)
      obtain ⟨c, hc⟩ : ∃ c, context.body[len - 1]? = some c := ⟨_, getElem?_eq_getElem (by omega)⟩
      have htake : (context.body ++ terminator.text).take len = context.body.take (len - 1) ++ [c] := by
        rw [take_append_of_le_length hfits, show len = len - 1 + 1 by omega, take_add_one,
          Nat.add_sub_cancel, hc]
        rfl
      have hfull : len - (context.body ++ terminator.text).length = 0 := by
        rw [length_append]
        omega
      have hc0 : c ≠ '\x00' := fun h0 => Context.nul_not_mem_body h (h0 ▸ mem_of_getElem? hc)
      rw [htake, hfull] at hret
      rw [hc]
      constructor
      · refine fun hr => ⟨Nat.pos_of_ne_zero hlen, fun hcn => ?_⟩
        rw [Option.some.injEq] at hcn
        rw [hcn] at hret
        exact finishRead_ne_erange _ _ (hret.unique hr)
      · rintro ⟨-, hcn⟩
        rwa [finishRead_full _ hc0 fun h => hcn (congrArg some h)] at hret

theorem enforce_reply_read :
    ReadsBack (fun _ => 3) (.confined "/bin/a".toList "enforce".toList) .newline 20 := by
  have hwf : (Context.confined "/bin/a".toList "enforce".toList).WellFormed := ⟨by decide, by decide, by decide⟩
  have hfits : Fits (.confined "/bin/a".toList "enforce".toList) 20 := (by decide : 16 < 20)
  apply (getprocattrRaw_readsBack_iff hwf _ .newline 20).mpr
  refine ⟨fun _ => .inl ⟨rfl, fun h => ?_⟩, fun h => absurd hfits h⟩
  have hmem : ' ' ∈ "enforce".toList := h.subset mem_cons_self
  exact absurd hmem (by decide)

/-- Without a terminator the call fails, and with a NUL the mode stays in the label. -/
theorem unterminated_reply_fails :
    getprocattrRaw (fun _ => 1) "a (b)".toList 10 7 = some (.error .einval) ∧
      (getprocattrRaw (fun _ => 1) "a (b)\x00".toList 10 8).map (Except.map fun attr => (attr.label, attr.modeText)) =
        some (.ok ("a (b)".toList, none)) := by
  constructor <;> decide

end AppArmor.Interface

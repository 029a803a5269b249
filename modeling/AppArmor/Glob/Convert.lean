import AppArmor.Glob.Escape

namespace AppArmor

inductive GlobType
  | default
  | null
  deriving DecidableEq

inductive PatternT
  | basic
  | tailGlob
  | regex
  deriving DecidableEq

inductive GlobError
  | invalidCloseBracket
  | nesting
  | itemCount
  | invalidCloseBrace
  | unclosed
  | trailingEscape
  deriving DecidableEq

def maxAltDepth : ℕ := 50

/-- The state of the conversion. The counts of the open groupings are a stack, whose height is `ingrouping`. -/
structure Converter where
  pcre : Text
  escape : Bool
  groupingCount : List ℕ
  inCharClass : Bool
  ptype : PatternT
  firstRePos : ℕ
  deriving DecidableEq

namespace Converter

def append (st : Converter) (t : Text) : Converter := { st with pcre := st.pcre ++ t }

def updateRePos (st : Converter) (pos : ℕ) : Converter :=
  if st.firstRePos = 0 then { st with firstRePos := pos } else st

def regex (st : Converter) (pos : ℕ) : Converter := { st.updateRePos pos with ptype := .regex }

def appendGlob (st : Converter) (glob : GlobType) (defaultGlob nullGlob : Text) : Converter :=
  st.append (match glob with | .default => defaultGlob | .null => nullGlob)

end Converter

def endsComponent (s : Text) : Bool :=
  match s.dropWhile (· = '*') with
  | [] => true
  | c :: _ => c = '/'

def convertStar (glob : GlobType) (pos : ℕ) (rest : Text) (st : Converter) : Converter × ℕ :=
  let st :=
    if st.pcre.getLast? = some '/' ∧ endsComponent rest then
      st.appendGlob glob "[^/\\x00]".toList "[^/]".toList
    else st
  match rest with
  | '*' :: rest' =>
    let ptype := if rest' = [] ∧ st.ptype = .basic then .tailGlob else .regex
    (({ st.updateRePos pos with ptype := ptype }).appendGlob glob "[^\\x00]*".toList ".*".toList, 1)
  | _ => ((st.regex pos).appendGlob glob "[^/\\x00]*".toList "[^/]*".toList, 0)

def convertDefault (c : Char) (rest : Text) (st : Converter) : Converter × ℕ :=
  if st.escape then
    match strEscseq [] (c :: rest) with
    | .char _ len => (st.append ('\\' :: (c :: rest).take len), len - 1)
    -- a quote that is not needed is dropped
    | _ => (st.append [c], 0)
  else (st.append [c], 0)

@[grind =]
def convertChar (glob : GlobType) (pos : ℕ) (c : Char) (rest : Text) (st : Converter) :
    Except GlobError (Converter × ℕ) :=
  match c with
  | '\\' => .ok (st.append ['\\', '\\'], 0)
  | '*' => if st.escape then .ok (st.append ['\\', '*'], 0) else .ok (convertStar glob pos rest st)
  | '?' =>
    if st.escape then .ok (st.append ['?'], 0)
    else .ok ((st.regex pos).appendGlob glob "[^/\\x00]".toList "[^/]".toList, 0)
  | '[' =>
    if st.escape then .ok (st.append ['\\', '['], 0)
    else .ok (({ st.regex pos with inCharClass := true }).append ['['], 0)
  | ']' =>
    if st.escape then .ok (st.append ['\\', ']'], 0)
    else if st.inCharClass then .ok (({ st with inCharClass := false }).append [']'], 0)
    else .error .invalidCloseBracket
  | '{' =>
    if st.escape then .ok (st.append ['\\', '{'], 0)
    else if st.inCharClass then .ok (st.append ['{'], 0)
    else if st.groupingCount.length + 1 ≥ maxAltDepth then .error .nesting
    else .ok (({ st.regex pos with groupingCount := 0 :: st.groupingCount }).append ['('], 0)
  | '}' =>
    if st.escape then .ok (st.append ['\\', '}'], 0)
    else if st.inCharClass then .ok (st.append ['}'], 0)
    else
      match st.groupingCount with
      -- reported as a wrong number of items too
      | [] => .error .invalidCloseBrace
      | n :: groups =>
        if n = 0 then .error .itemCount
        else .ok (({ st with groupingCount := groups }).append [')'], 0)
  | ',' =>
    if st.escape then
      if st.inCharClass then .ok (st.append ['\\', ','], 0) else .ok (st.append [','], 0)
    else if st.inCharClass then .ok (st.append [','], 0)
    else
      match st.groupingCount with
      | [] => .ok (st.append [','], 0)
      | n :: groups => .ok (({ st with groupingCount := (n + 1) :: groups }).append ['|'], 0)
  | '^' => .ok (st.append (if st.inCharClass then ['^'] else ['\\', '^']), 0)
  | '$' => .ok (st.append (if st.inCharClass then ['$'] else ['\\', '$']), 0)
  -- characters that are special for the regex parser only
  | '.' => .ok (convertDefault '.' rest (st.append ['\\']))
  | '+' => .ok (convertDefault '+' rest (st.append ['\\']))
  | '|' => .ok (convertDefault '|' rest (st.append ['\\']))
  | '(' => .ok (convertDefault '(' rest (st.append ['\\']))
  | ')' => .ok (convertDefault ')' rest (st.append ['\\']))
  | c => .ok (convertDefault c rest st)

def convertRun (glob : GlobType) : Text → (skip pos : ℕ) → Converter → Except GlobError Converter
  | [], _, _, st => .ok st
  | _ :: s, k + 1, pos, st => convertRun glob s k (pos + 1) st
  | c :: s, 0, pos, st =>
    if c = '\\' ∧ st.escape = false then convertRun glob s 0 (pos + 1) { st with escape := true }
    else
      match convertChar glob pos c s st with
      | .ok (st', k) => convertRun glob s k (pos + 1) { st' with escape := false }
      | .error e => .error e

/-- Converts the glob `aare` and appends the result to `pcre`; also the kind of the pattern, and the position of its
first part that is no plain text. -/
def convertAaregexToPcre (aare : Text) (anchor : Bool) (glob : GlobType) (pcre : Text) :
    Except GlobError (PatternT × Text × ℕ) :=
  let pcre := if anchor then pcre ++ ['^'] else pcre
  match convertRun glob aare 0 0 ⟨pcre, false, [], false, .basic, 0⟩ with
  | .ok st =>
    if st.groupingCount ≠ [] ∨ st.inCharClass then .error .unclosed
    else if st.escape then .error .trailingEscape
    else .ok (st.ptype, if anchor then st.pcre ++ ['$'] else st.pcre, st.firstRePos)
  | .error e => .error e

end AppArmor

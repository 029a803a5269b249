import AppArmor.Expr.Tree
import AppArmor.Glob.Escape

namespace AppArmor

inductive RegexToken
  | char (c : ℕ)
  | star
  | plus
  | dot
  | bar
  | caret
  | dash
  | lbrack
  | rbrack
  | lparen
  | rparen
  deriving DecidableEq

/-- What `regex_lex` makes of the text: a token and the number of characters it takes after the first; on a bad escape
sequence the position goes back to the backslash, and the same token comes again and again. -/
inductive Lexed
  | token (t : RegexToken) (len : ℕ)
  | again
  | overrun
  deriving DecidableEq

def escapable : Text := "*+.|^$-[]()\x7b\x7d".toList

def regexLex (c : Char) (s : Text) : Lexed :=
  match c with
  | '*' => .token .star 0
  | '+' => .token .plus 0
  | '.' => .token .dot 0
  | '|' => .token .bar 0
  | '^' => .token .caret 0
  | '-' => .token .dash 0
  | '[' => .token .lbrack 0
  | ']' => .token .rbrack 0
  | '(' => .token .lparen 0
  | ')' => .token .rparen 0
  | '\\' =>
    match strEscseq escapable s with
    | .char v len => .token (.char v) len
    | .error 0 => .again
    | .error (k + 1) => .token (.char '\\'.toNat) k
    | .overrun => .overrun
  | c => .token (.char c.toNat) 0

namespace Chars

def insertRange (s : Chars) (a b : ℕ) : Chars :=
  (List.range' (min a b) (max a b - min a b + 1)).foldl (fun s (c : ℕ) => s.insert (c : ℤ)) s

end Chars

def csetChar : RegexToken → Option ℕ
  | .char c => some c
  | .lbrack => some '['.toNat
  | .star => some '*'.toNat
  | .plus => some '+'.toNat
  | .dot => some '.'.toNat
  | .bar => some '|'.toNat
  | .lparen => some '('.toNat
  | .rparen => some ')'.toNat
  | _ => none

def csetChar1 : RegexToken → Option ℕ
  | .rbrack => some ']'.toNat
  | .dash => some '-'.toNat
  | t => csetChar t

def csetCharN : RegexToken → Option ℕ
  | .caret => some '^'.toNat
  | t => csetChar t

/-- Where the parser stands in a character class: at its first character, behind `pending`, which a `-` can still turn
into a range, or at the end of a range from `first`. -/
inductive ClassState
  | start (neg : Bool)
  | items (neg : Bool) (chars : Chars) (pending : Option ℕ)
  | range (neg : Bool) (chars : Chars) (first : ℕ)
  deriving DecidableEq

/-- An expression under construction: the alternatives before the last `|`, the terms since then, and a last term that
can still be repeated. -/
structure ExprFrame where
  alts : Option Tree
  terms : Option Tree
  last : Option Tree
  deriving DecidableEq

namespace ExprFrame

def empty : ExprFrame := ⟨none, none, none⟩

def addQterm (f : ExprFrame) (t : Tree) : ExprFrame :=
  { f with terms := some (match f.terms with | none => t | some u => .cat u t), last := none }

def flush (f : ExprFrame) : ExprFrame :=
  match f.last with
  | none => f
  | some t => f.addQterm t

def addTerm (f : ExprFrame) (t : Tree) : ExprFrame := { f.flush with last := some t }

def expr (f : ExprFrame) : Tree :=
  let terms := f.flush.terms.getD .eps
  match f.alts with
  | none => terms
  | some a => .alt a terms

end ExprFrame

/-- The stack of the parser: the expressions before the open parentheses, the current one, and the character class, if the
parser is in one. -/
structure RegexState where
  outer : List ExprFrame
  frame : ExprFrame
  cls : Option ClassState
  deriving DecidableEq

def csetLeaf (neg : Bool) (s : Chars) : CNode :=
  if neg then .notCharSet s
  else
    match s.elems with
    | [c] => .char c
    | _ => .charSet s

namespace RegexState

def init : RegexState := ⟨[], .empty, none⟩

def stepClass (s : RegexState) (k : ClassState) (t : RegexToken) : Option RegexState :=
  match k with
  | .start neg =>
    match t, neg with
    | .caret, false => some { s with cls := some (.start true) }
    | .caret, true => some { s with cls := some (.items true (Chars.empty.insert '^'.toNat) none) }
    | t, neg => (csetChar1 t).map fun c => { s with cls := some (.items neg .empty (some c)) }
  | .items neg chars pending =>
    let flushed := match pending with | none => chars | some c => chars.insert (c : ℤ)
    match t, pending with
    | .rbrack, _ => some { s with frame := s.frame.addTerm (.cnode (csetLeaf neg flushed)), cls := none }
    | .dash, some c => some { s with cls := some (.range neg chars c) }
    | .dash, none => none
    | t, _ => (csetCharN t).map fun c => { s with cls := some (.items neg flushed (some c)) }
  | .range neg chars first =>
    (csetCharN t).map fun c => { s with cls := some (.items neg (chars.insertRange first c) none) }

def stepTerm (s : RegexState) (t : RegexToken) : Option RegexState :=
  let leaf (a : CNode) : Option RegexState := some { s with frame := s.frame.addTerm (.cnode a) }
  match t with
  | .dot => leaf .anyChar
  | .char c => leaf (.char c)
  | .caret => leaf (.char '^'.toNat)
  | .dash => leaf (.char '-'.toNat)
  | .rbrack => leaf (.char ']'.toNat)
  | .lbrack => some { s with frame := s.frame.flush, cls := some (.start false) }
  | .star => s.frame.last.map fun t => { s with frame := s.frame.addQterm (.star t) }
  | .plus => s.frame.last.map fun t => { s with frame := s.frame.addQterm (.plus t) }
  | .bar => some { s with frame := ⟨some s.frame.expr, none, none⟩ }
  | .lparen => some { s with outer := s.frame.flush :: s.outer, frame := .empty }
  | .rparen =>
    match s.outer with
    | [] => none
    | f :: fs => some { s with outer := fs, frame := f.addTerm s.frame.expr }

def step (s : RegexState) (t : RegexToken) : Option RegexState :=
  match s.cls with
  | none => s.stepTerm t
  | some k => s.stepClass k t

def finish (s : RegexState) : Option Tree :=
  if s.outer = [] ∧ s.cls = none then some s.frame.expr else none

end RegexState

inductive RegexResult
  | tree (t : Tree)
  | syntaxError
  | diverges
  | overrun
  deriving DecidableEq

def regexRun : Text → ℕ → RegexState → RegexResult
  | [], _, s =>
    match s.finish with
    | some t => .tree t
    | none => .syntaxError
  | _ :: text, k + 1, s => regexRun text k s
  | c :: text, 0, s =>
    match regexLex c text with
    | .token t len =>
      match s.step t with
      | some s => regexRun text len s
      | none => .syntaxError
    -- a character is never an error, so that the parser does not come to an end
    | .again => .diverges
    | .overrun => .overrun

def regexParse (text : Text) : RegexResult := regexRun text 0 .init

end AppArmor

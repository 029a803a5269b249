import AppArmor.Expr.Tree

namespace AppArmor

structure TreeFlags where
  normal : Bool
  simple : Bool
  left : Bool
  vector : Bool

namespace Tree

open Vec (NChild)

def simplifyEpsPair : Tree → Tree
  | .cat .eps .eps => .eps
  | .alt .eps .eps => .eps
  | t => t

def isChar : Tree → Bool
  | .cnode (.char _) => true
  | _ => false

def isCharset : Tree → Bool
  | .cnode (.charSet _) => true
  | _ => false

/-- One round of the loop of `CatNode::normalize` and `AltNode::normalize` on a node with `x` as its child `dir` and `y`
as the other one; `none` ends the loop. -/
def normalizeStep (k : NChild) (dir : Bool) (x y : Tree) : Option (Tree × Tree) :=
  if x = .eps ∧ y ≠ .eps then some (simplifyEpsPair y, .eps)
  else
    match split k dir x with
    -- `rotate_node`
    | some (a, b) => some (a, simplifyEpsPair (pair k dir b y))
    | none => if k = .alt ∧ x.isCharset ∧ y.isChar then some (y, x) else none

def normalizeLoop (k : NChild) (dir : Bool) : ℕ → Tree → Tree → Option (Tree × Tree)
  | 0, _, _ => none
  | fuel + 1, x, y =>
    match normalizeStep k dir x y with
    | some (x, y) => normalizeLoop k dir fuel x y
    | none => some (x, y)

def normalize (dir : Bool) : ℕ → Tree → Option Tree
  | 0, _ => none
  | fuel + 1, .star t => (normalize dir fuel t).map .star
  | fuel + 1, .optional t => (normalize dir fuel t).map .optional
  | fuel + 1, .plus t => (normalize dir fuel t).map .plus
  | fuel + 1, .cat l r => do
    let (x, y) ← normalizeLoop .cat dir fuel (if dir then r else l) (if dir then l else r)
    let x ← normalize dir fuel x
    let y ← normalize dir fuel y
    return pair .cat dir x y
  | fuel + 1, .alt l r => do
    let (x, y) ← normalizeLoop .alt dir fuel (if dir then r else l) (if dir then l else r)
    let x ← normalize dir fuel x
    let y ← normalize dir fuel y
    return pair .alt dir x y
  | _ + 1, t => some t

def mergeCharset : CNode → CNode → CNode
  | .charSet s, b => .charSet (insertChars s (.cnode b))
  | a, .charSet s => .charSet (insertChars s (.cnode a))
  | a, b => .charSet (insertChars (insertChars .empty (.cnode a)) (.cnode b))

variable (dir : Bool)

def altDup (x y : Tree) : Option Tree := if x.eq y then some x else none

def altChars (x y : Tree) : Option Tree :=
  match x, y with
  | .cnode a, .cnode b =>
    if isCharOrCharset (.cnode a) ∧ isCharOrCharset (.cnode b) then some (.cnode (mergeCharset a b)) else none
  | _, _ => none

def altCats (x y : Tree) : Option Tree := do
  let (a, b) ← split .cat dir x
  let (a', c) ← split .cat dir y
  if a.eq a' then some (pair .cat dir a (pair .alt dir b c)) else none

def altRight (x y : Tree) : Option Tree := do
  let (a, b) ← split .cat dir y
  if x.eq a then some (pair .cat dir a (pair .alt dir b .eps)) else none

def altLeft (x y : Tree) : Option Tree := do
  let (a, b) ← split .cat dir x
  if a.eq y then some (pair .cat dir a (pair .alt dir b .eps)) else none

def basicAltFactor (x y : Tree) : Option Tree :=
  altDup x y <|> altChars x y <|> altCats dir x y <|> altRight dir x y <|> altLeft dir x y

def catEps (t : Tree) : Option Tree := do
  let (x, y) ← split .cat dir t
  if y = .eps then some x else none

def basicSimplify (t : Tree) : Option Tree :=
  catEps dir t <|> (split .alt dir t).bind fun p => basicAltFactor dir p.1 p.2

def chain : Tree → List Tree × Tree
  | .alt l r => if dir then (r :: (chain l).1, (chain l).2) else (l :: (chain r).1, (chain r).2)
  | t => ([], t)

def ofChain (es : List Tree) (last : Tree) : Tree := es.foldr (pair .alt dir) last

def dropDups (front es : List Tree) : List Tree :=
  es.foldl (fun front e =>
    match front with
    | c :: rest => if c.eq e then rest else front
    | [] => front) front

def headOf (subject : Tree) : Tree := ((split .cat dir subject).map Prod.fst).getD subject

def sharesHead (a e : Tree) : Bool := ((split .cat dir e).any fun p => a.eq p.1) || a.eq e

/-- The search for alternatives to factor with: the subject, those that stay, and how many have been extracted. -/
structure Extract where
  subject : Tree
  kept : List Tree
  count : ℕ

def extractStep (s : Extract) (e : Tree) : Extract :=
  if sharesHead dir (headOf dir s.subject) e then
    { s with
      subject := (basicSimplify dir (pair .alt dir e s.subject)).getD (pair .alt dir e s.subject)
      count := s.count + 1 }
  else { s with kept := s.kept ++ [e] }

/-- The end of the chain, `last`, takes the place of the subject, unless it can be factored as well: then the last of
those that stay does. -/
def rejoin (s : Extract) (last : Tree) : Tree × ℕ :=
  if sharesHead dir (headOf dir s.subject) last then
    let t := pair .alt dir s.subject last
    let t := (basicSimplify dir t).getD t
    match s.kept.getLast? with
    | none => (t, s.count + 1)
    | some e => (pair .alt dir e (ofChain dir s.kept.dropLast t), s.count + 1)
  else (pair .alt dir last (ofChain dir s.kept s.subject), s.count)

/-- Where a pass over a tree stands: the tree, whether it has been modified, and whether its root has been replaced. -/
structure Pass where
  tree : Tree
  modified : Bool
  moved : Bool

def Pass.changed (p : Pass) : Bool := p.modified || p.moved

def baseLoop : ℕ → Pass → Option Pass
  | 0, _ => none
  | fuel + 1, p =>
    match basicSimplify dir p.tree with
    | some t => baseLoop fuel ⟨t, true, true⟩
    | none =>
      match chain dir p.tree with
      | (c :: e :: es, last) =>
        match dropDups (c :: e :: es) (e :: es) with
        | [] => none
        | c :: es' =>
          if c.eq last then baseLoop fuel ⟨ofChain dir es' last, true, true⟩
          else
            let moved := p.moved || es'.length < (e :: es).length
            let (t, count) := rejoin dir (es'.foldl (extractStep dir) ⟨c, [], 0⟩) last
            if count = 0 then some ⟨t, p.modified, moved⟩ else baseLoop fuel ⟨t, true, moved⟩
      | _ => some p

def simplifyTreeBase : ℕ → Tree → Option Pass
  | 0, _ => none
  | fuel + 1, .star t => (simplifyTreeBase fuel t).map fun p => ⟨.star p.tree, p.changed, false⟩
  | fuel + 1, .optional t => (simplifyTreeBase fuel t).map fun p => ⟨.optional p.tree, p.changed, false⟩
  | fuel + 1, .plus t => (simplifyTreeBase fuel t).map fun p => ⟨.plus p.tree, p.changed, false⟩
  | fuel + 1, .cat l r => do
    let p ← simplifyTreeBase fuel l
    let q ← simplifyTreeBase fuel r
    baseLoop dir fuel ⟨.cat p.tree q.tree, p.changed || q.changed, false⟩
  | fuel + 1, .alt l r => do
    let p ← simplifyTreeBase fuel l
    let q ← simplifyTreeBase fuel r
    baseLoop dir fuel ⟨.alt p.tree q.tree, p.changed || q.changed, false⟩
  | _ + 1, t => some ⟨t, false, false⟩

def simplifyPasses (normal : Bool) : ℕ → Tree → Option Tree
  | 0, _ => none
  | fuel + 1, t => do
    let t ← if normal then normalize dir fuel t else some t
    let p ← simplifyTreeBase dir fuel t
    if p.modified then simplifyPasses normal fuel p.tree else some p.tree

end Tree

def simplifyTreeOld (opts : TreeFlags) (fuel : ℕ) (t : Tree) : Option Tree := do
  let t ← Tree.simplifyPasses (!opts.left) opts.normal fuel t
  Tree.simplifyPasses opts.left opts.normal fuel t

end AppArmor

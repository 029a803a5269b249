import AppArmor.Glob.Escape
import AppArmor.Lib.Fuel

namespace AppArmor

@[grind =]
def extractLoop : (i : ℕ) → (bEscape : Bool) → (start : Option ℕ) → Text → Option (ℕ × ℕ)
  | _, _, _, [] => none
  | i, bEscape, start, c :: s =>
    if c = '\\' then extractLoop (i + 1) (!bEscape) start s
    else if c = '@' then
      if bEscape then extractLoop (i + 1) false start s
      else
        match s with
        -- the character after the brace is stepped over, whatever it is
        | '{' :: _ :: s' => extractLoop (i + 3) false (some i) s'
        | ['{'] => none
        | s => extractLoop (i + 1) false start s
    else if c = '}' then
      if bEscape then extractLoop (i + 1) false start s
      else
        match start with
        | some start => some (start, i)
        | none => extractLoop (i + 1) false none s
    else extractLoop (i + 1) false start s

def extractVariable (input : Text) : Option (Text × Text × Text) :=
  (extractLoop 0 false none input).map fun (start, stop) =>
    (input.take start, (input.drop start).take (stop - start + 1), input.drop (stop + 1))

inductive VarStatus
  | valid
  | noPrefix
  | noMatchingBrace
  | invalStart
  | invalChars
  | invalComma
  deriving DecidableEq

def checkName (first : Char) : Text → VarStatus
  | [] => .valid
  | c :: s =>
    if c = first then if c.isAlpha then checkName first s else .invalStart
    else if c = '_' ∨ c.isAlphanum then checkName first s
    else if c = ',' then .invalComma
    else .invalChars

def isVar : Text → VarStatus × Text
  | c :: var =>
    if c = '@' ∨ c = '$' then
      let name : Option Text :=
        match var with
        | '{' :: inner => if inner.getLast? = some '}' then some inner.dropLast else none
        | name => some name
      match name with
      | some name => (checkName (name.headD '\x00') name, name)
      | none => (.noMatchingBrace, [])
    else (.noPrefix, [])
  | [] => (.noPrefix, [])

def processVar (var : Text) : Option Text := if (isVar var).1 = .valid then some (isVar var).2 else none

def textLt : Text → Text → Bool
  | _, [] => false
  | [], _ :: _ => true
  | a :: s, b :: t => a.toNat < b.toNat || (a.toNat = b.toNat && textLt s t)

def insertText (x : Text) : List Text → List Text
  | [] => [x]
  | y :: l => if x = y then y :: l else if textLt x y then x :: y :: l else y :: insertText x l

theorem mem_insertText {x y : Text} {l : List Text} : y ∈ insertText x l ↔ y = x ∨ y ∈ l := by
  induction l with
  | nil => simp [insertText]
  | cons z l ih =>
    unfold insertText
    split_ifs with hxz hlt
    · simp [hxz]
    · simp
    · rw [List.mem_cons, ih, List.mem_cons]
      tauto

theorem mem_foldl_insertText {y : Text} {values l : List Text} :
    y ∈ values.foldl (fun s x => insertText x s) l ↔ y ∈ values ∨ y ∈ l := by
  induction values generalizing l with
  | nil => simp
  | cons x values ih =>
    rw [List.foldl_cons, ih, mem_insertText, List.mem_cons]
    tauto

inductive VarType
  | boolean
  | set
  deriving DecidableEq

structure Variable where
  type : VarType
  boolean : ℤ
  values : List Text
  expanded : List Text
  expanding : Bool
  deriving DecidableEq

def Variable.ofValues (values : List Text) : Variable := ⟨.set, 0, values.foldl (fun s x => insertText x s) [], [], false⟩

theorem mem_ofValues {y : Text} {values : List Text} : y ∈ (Variable.ofValues values).values ↔ y ∈ values := by
  rw [Variable.ofValues, mem_foldl_insertText]
  simp

def Variable.ofBoolean (b : ℤ) : Variable := ⟨.boolean, b, [], [], false⟩

abbrev Symtab := Text → Option Variable

namespace Symtab

def modify (t : Symtab) (x : Text) (f : Variable → Variable) : Symtab := Function.update t x ((t x).map f)

def setExpanding (t : Symtab) (x : Text) (b : Bool) : Symtab := t.modify x fun v => { v with expanding := b }

def insertExpanded (t : Symtab) (x value : Text) : Symtab :=
  t.modify x fun v => { v with expanded := insertText value v.expanded }

end Symtab

inductive ExpandRc
  | ok
  | failed
  | aborted
  deriving DecidableEq

mutual

def expandVariable : ℕ → Symtab → Text → Option (Symtab × ExpandRc)
  | 0, _, _ => none
  | fuel + 1, t, x =>
    match t x with
    | none => some (t, .failed)
    | some v =>
      if v.type = .boolean then some (t, .failed)
      else if v.expanded ≠ [] then some (t, .ok)
      else (expandWork fuel (t.setExpanding x true) x v.values).map fun (t, rc) => (t.setExpanding x false, rc)

def expandWork : ℕ → Symtab → Text → List Text → Option (Symtab × ExpandRc)
  | 0, _, _, _ => none
  | _ + 1, t, _, [] => some (t, .ok)
  | fuel + 1, t, x, value :: work =>
    match extractVariable value with
    | none => expandWork fuel (t.insertExpanded x value) x work
    | some (pre, var, suffix) =>
      match processVar var with
      | none => some (t, .failed)
      | some y =>
        match t y with
        | none => some (t, .failed)
        | some ref =>
          if ref.expanding then some (t, .failed)
          else
            match expandVariable fuel t y with
            | none => none
            | some (t, .failed) => some (t, .failed)
            | some (t, .aborted) => some (t, .aborted)
            | some (t, .ok) =>
              match t y with
              | none => some (t, .failed)
              | some ref =>
                if ref.expanded = [] then some (t, .aborted)
                else expandWork fuel t x (work ++ ref.expanded.map fun r => pre ++ r ++ suffix)

end

end AppArmor

import AppArmor.Hfa.DiffCorrect
import AppArmor.Hfa.Coarsest

namespace AppArmor

open Diff

theorem build_encodable {refcount : ℕ → ℕ} {root : Node Pos} {order : IterOrder root.positions} {filedfa : Bool}
    {d : DFA} (hd : DFA.build refcount root order filedfa = .ok d) (hne : d.start ≠ d.nonmatching) : d.Encodable := by
  rcases build_spec refcount root order filedfa with ⟨he, _⟩ | ⟨d', hok, h⟩
  · rw [he] at hd
    cases hd
  · rw [hok] at hd
    cases hd
    exact ⟨h.unencoded.toClosed, h.diff, h.upperBound, hne⟩

def wrapped : Node Pos :=
  let set : CNode := .charSet (((Chars.empty.insert 97).insert 98).insert 255)
  .cat [.alt [.cnode ⟨0, set⟩, .alt [.cat [.cnode ⟨1, .char 120⟩, .cnode ⟨2, set⟩], .cnode ⟨3, .char (-1)⟩]],
    .accept ⟨.allow, 0, Perm.mayRead, 0, 0⟩]

theorem wrapped_built : ∃ d, DFA.build (fun _ => 0) wrapped wrapped.leafOrder true = .ok d ∧ d.start ≠ d.nonmatching ∧
    d.relOf 3 = some d.start := by
  have h : (DFA.build (fun _ => 0) wrapped wrapped.leafOrder true).toOption.any (fun d =>
      d.start ≠ d.nonmatching ∧ d.relOf 3 = some d.start) = true := by
    decide +kernel
  obtain ⟨d, hd, h⟩ := ok_of_any h
  exact ⟨d, hd, of_decide_eq_true h⟩

def besideOob : Node Pos :=
  let set : CNode := .charSet (((Chars.empty.insert 97).insert 98).insert 99)
  .cat [.alt [.cnode ⟨0, set⟩, .alt [.cat [.cnode ⟨1, .char 120⟩, .cnode ⟨2, set⟩], .cnode ⟨3, .char (-1)⟩]],
    .accept ⟨.allow, 0, Perm.mayRead, 0, 0⟩]

theorem wrapSafe_of_intRange {d : DFA} {s r : ℕ} (h : ∀ i ∈ intRange (firstChar (d.state r).trans) 0,
    (d.state s).trans[toChar i]? = some (d.delta r (toChar i)) → d.delta r (toChar i) = (d.state s).otherwise) :
    d.WrapSafe s r := by
  rintro c ⟨i, hfirst, hneg, rfl⟩ t ht rfl
  exact h i (mem_intRange.mpr ⟨hfirst, hneg⟩) ht

end AppArmor

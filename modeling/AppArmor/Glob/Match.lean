import AppArmor.Glob.Tokens

open Computability

/-! Whether an expression matches a name, by what is left of the expression after each byte. -/

namespace AppArmor.Tree

open Glushkov.PosInfo List Language

def emptyWord : Tree → Bool
  | .eps => true
  | .cnode _ => false
  | .star _ => true
  | .optional _ => true
  | .plus t => t.emptyWord
  | .cat l r => l.emptyWord && r.emptyWord
  | .alt l r => l.emptyWord || r.emptyWord
  | .accept _ => false
  | .shared _ => true

def nothing : Tree := .cnode (.charSet Chars.empty)

def after (b : Byte) : Tree → Tree
  | .eps => nothing
  | .cnode a => if a.matches (b.val : ℤ) then .eps else nothing
  | .star t => .cat (t.after b) (.star t)
  | .optional t => t.after b
  | .plus t => .cat (t.after b) (.star t)
  | .cat l r => if l.emptyWord then .alt (.cat (l.after b) r) (r.after b) else .cat (l.after b) r
  | .alt l r => .alt (l.after b) (r.after b)
  | .accept _ => nothing
  | .shared _ => nothing

def matchBytes (t : Tree) (w : List Byte) : Bool := (w.foldl (fun t b => t.after b) t).emptyWord

section Languages

variable {α : Type} {L M : Language α} {a : α} {w : List α}

theorem nil_mem_mul : [] ∈ L * M ↔ [] ∈ L ∧ [] ∈ M := by
  rw [mem_mul]
  constructor
  · rintro ⟨u, hu, v, hv, he⟩
    obtain ⟨rfl, rfl⟩ := append_eq_nil_iff.mp he
    exact ⟨hu, hv⟩
  · rintro ⟨hl, hm⟩
    exact ⟨[], hl, [], hm, rfl⟩

theorem cons_mem_mul : a :: w ∈ L * M ↔
    (∃ u v, w = u ++ v ∧ a :: u ∈ L ∧ v ∈ M) ∨ [] ∈ L ∧ a :: w ∈ M := by
  rw [mem_mul]
  constructor
  · rintro ⟨u, hu, v, hv, he⟩
    cases u with
    | nil => exact Or.inr ⟨hu, he ▸ hv⟩
    | cons c u =>
      obtain ⟨rfl, rfl⟩ := cons.inj he
      exact Or.inl ⟨u, v, rfl, hu, hv⟩
  · rintro (⟨u, v, rfl, hu, hv⟩ | ⟨hl, hm⟩)
    · exact ⟨a :: u, hu, v, hv, rfl⟩
    · exact ⟨[], hl, a :: w, hm, rfl⟩

end Languages

variable {t u : Tree} {b : Byte} {w : List Byte}

theorem byteWords_optional : byteWords (.optional t) = 1 + byteWords t := by
  rw [byteWords, words, lang, toNode, Node.lang_optional, Letters.comap_add, Letters.comap_one]
  rfl

theorem byteWords_plus : byteWords (.plus t) = byteWords t * (byteWords t)∗ := by
  rw [byteWords, words, lang, toNode, Node.lang_plus, Letters.comap_mul, Letters.comap_kstar]
  rfl

theorem notMem_accept {m : MatchFlag} : w ∉ byteWords (.accept m) := by
  intro h
  have hmap : w.map (fun b : Byte => Sym.ch (b.val : ℤ)) = [.acc m] := h
  obtain ⟨b, -, -, hb, -⟩ := map_eq_cons_iff.mp hmap
  cases hb

theorem byteWords_shared {n : ℕ} : byteWords (.shared n) = 1 := Letters.comap_one

theorem emptyWord_iff : t.emptyWord = true ↔ [] ∈ t.byteWords := by
  induction t with
  | eps => exact iff_of_true rfl rfl
  | cnode a =>
    rw [byteWords_cnode]
    refine iff_of_false Bool.false_ne_true ?_
    rintro ⟨b, -, h⟩
    cases h
  | star t => exact iff_of_true rfl (byteWords_star t ▸ nil_mem_kstar _)
  | optional t => exact iff_of_true rfl (byteWords_optional ▸ Or.inl rfl)
  | plus t ih =>
    rw [byteWords_plus, nil_mem_mul, emptyWord, ih]
    exact (and_iff_left (nil_mem_kstar _)).symm
  | cat l r ihl ihr => rw [byteWords_cat, nil_mem_mul, emptyWord, Bool.and_eq_true, ihl, ihr]
  | alt l r ihl ihr => rw [byteWords_alt, mem_add, emptyWord, Bool.or_eq_true, ihl, ihr]
  | accept m => exact iff_of_false Bool.false_ne_true notMem_accept
  | shared n => exact iff_of_true rfl (byteWords_shared ▸ rfl)

theorem notMem_nothing : w ∉ nothing.byteWords := by
  rw [nothing, byteWords_cnode]
  rintro ⟨b, hb, -⟩
  have hmem : (b.val : ℤ) ∈ Chars.empty := of_decide_eq_true hb
  exact Chars.notMem_empty hmem

theorem mem_after_iff : w ∈ (t.after b).byteWords ↔ b :: w ∈ t.byteWords := by
  -- a repetition goes on with the rest of the word that began with `b`
  have hstar : ∀ t : Tree, (∀ w, w ∈ (t.after b).byteWords ↔ b :: w ∈ t.byteWords) → ∀ w,
      w ∈ byteWords (.cat (t.after b) (.star t)) ↔ b :: w ∈ (t.byteWords)∗ := by
    intro t ih w
    rw [byteWords_cat, byteWords_star, cons_mem_kstar, mem_mul]
    constructor
    · rintro ⟨u, hu, v, hv, rfl⟩
      exact ⟨u, v, rfl, (ih u).mp hu, hv⟩
    · rintro ⟨u, v, rfl, hu, hv⟩
      exact ⟨u, (ih u).mpr hu, v, hv, rfl⟩
  induction t generalizing w with
  | eps => exact iff_of_false notMem_nothing (cons_ne_nil _ _)
  | cnode a =>
    rw [byteWords_cnode, after]
    split_ifs with hb
    · rw [byteWords_eps]
      constructor
      · rintro rfl
        exact ⟨b, hb, rfl⟩
      · rintro ⟨c, -, h⟩
        exact (cons.inj h).2
    · refine iff_of_false notMem_nothing ?_
      rintro ⟨c, hc, h⟩
      obtain ⟨rfl, -⟩ := cons.inj h
      exact hb hc
  | star t ih => rw [byteWords_star, after, hstar t fun _ => ih]
  | optional t ih =>
    rw [byteWords_optional, after, mem_add]
    exact ih.trans (or_iff_right (cons_ne_nil _ _)).symm
  | plus t ih =>
    rw [byteWords_plus, after, hstar t fun _ => ih, cons_mem_kstar, cons_mem_mul]
    constructor
    · exact Or.inl
    · rintro (h | ⟨hnil, h⟩)
      · exact h
      · exact cons_mem_kstar.mp h
  | cat l r ihl ihr =>
    have hleft : w ∈ byteWords (.cat (l.after b) r) ↔ ∃ u v, w = u ++ v ∧ b :: u ∈ l.byteWords ∧ v ∈ r.byteWords := by
      rw [byteWords_cat, mem_mul]
      constructor
      · rintro ⟨u, hu, v, hv, rfl⟩
        exact ⟨u, v, rfl, ihl.mp hu, hv⟩
      · rintro ⟨u, v, rfl, hu, hv⟩
        exact ⟨u, ihl.mpr hu, v, hv, rfl⟩
    rw [byteWords_cat, cons_mem_mul, ← hleft, ← emptyWord_iff, after]
    cases l.emptyWord with
    | true =>
      rw [if_pos rfl, byteWords_alt, mem_add]
      exact or_congr Iff.rfl (ihr.trans (and_iff_right rfl).symm)
    | false =>
      rw [if_neg Bool.false_ne_true]
      simp
  | alt l r ihl ihr =>
    rw [after, byteWords_alt, byteWords_alt, mem_add, mem_add]
    exact or_congr ihl ihr
  | accept m => exact iff_of_false notMem_nothing notMem_accept
  | shared n =>
    rw [byteWords_shared]
    exact iff_of_false notMem_nothing (cons_ne_nil _ _)

theorem matchBytes_iff : t.matchBytes w = true ↔ w ∈ t.byteWords := by
  unfold matchBytes
  induction w generalizing t with
  | nil => exact emptyWord_iff
  | cons b w ih => rw [foldl_cons, ih, mem_after_iff]

instance : Decidable (w ∈ t.byteWords) := decidable_of_iff _ matchBytes_iff

end AppArmor.Tree

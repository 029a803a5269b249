import AppArmor.Hfa.TailRun

namespace AppArmor

open Build Fuel Glushkov List Language

namespace Node

variable {addr : ℕ} {sep : Pos} {t u : Node Pos} {w : List Sym}

theorem mem_lang_ruleTree (h : RuleTree u) :
    w ∈ u.contents.lang ↔ ∃ r ∈ u.rules, w ∈ r.1.contents.lang * acceptLang r.2 := by
  induction h with
  | @rule t m h =>
    have hlang : (cat [t, .accept m]).contents.lang = t.contents.lang * acceptLang m := by
      change t.contents.lang * (acceptLang m * 1) = _
      rw [mul_one]
    rw [hlang, rules]
    simp
  | @alt ts _ ih =>
    have hlang : (alt ts).contents = .alt (ts.map contents) := by
      rw [contents, map, mapList_eq]
      rfl
    rw [hlang, mem_lang_alt, rules_alt]
    simp only [mem_map, mem_flatMap]
    constructor
    · rintro ⟨_, ⟨t, ht, rfl⟩, hw⟩
      obtain ⟨r, hr, hw⟩ := (ih t ht).mp hw
      exact ⟨r, ⟨t, ht, hr⟩, hw⟩
    · rintro ⟨r, ⟨t, ht, hr⟩, hw⟩
      exact ⟨_, ⟨t, ht, rfl⟩, (ih t ht).mpr ⟨r, hr, hw⟩⟩

theorem mem_lang_tailTree (h : TailTree addr (.cat [.cnode sep, u]) t) :
    w ∈ t.contents.lang ↔ ∃ h ∈ t.heads, w ∈ h.1.contents.lang * (acceptLang h.2 + sep.node.lang * u.contents.lang) := by
  induction h with
  | @rule t m h =>
    have hlang : (cat [t, .alt [.accept m, .sharedTree addr (.cat [.cnode sep, u])]]).contents.lang =
        t.contents.lang * (acceptLang m + sep.node.lang * u.contents.lang) := by
      change t.contents.lang * ((acceptLang m + ((sep.node.lang * (u.contents.lang * 1)) + 0)) * 1) = _
      rw [mul_one, mul_one, add_zero]
    rw [hlang, heads]
    simp
  | @alt t v _ _ iht ihv =>
    have hlang : (alt [t, v]).contents.lang = t.contents.lang + v.contents.lang := by
      change t.contents.lang + (v.contents.lang + 0) = _
      rw [add_zero]
    rw [hlang, mem_add, iht, ihv, heads]
    simp only [mem_append, or_and_right, exists_or]

end Node

section Words

variable {A B : Language Sym} {w : List ℤ} {m m' : MatchFlag}

theorem mem_mul_acceptLang : w.map .ch ++ [.acc m] ∈ A * acceptLang m' ↔ w.map .ch ∈ A ∧ m' = m := by
  rw [mem_mul]
  constructor
  · rintro ⟨a, ha, b, hb, he⟩
    rw [Set.mem_singleton_iff.mp hb] at he
    obtain ⟨rfl, hm⟩ := append_inj' he rfl
    exact ⟨ha, by simpa using hm⟩
  · rintro ⟨hw, rfl⟩
    exact ⟨_, hw, _, rfl, rfl⟩

theorem mem_mul_sep {c : ℤ} :
    w.map .ch ∈ A * ((CNode.char c).lang * B) ↔ ∃ u v, w = u ++ c :: v ∧ u.map .ch ∈ A ∧ v.map .ch ∈ B := by
  constructor
  · intro hw
    obtain ⟨a, ha, b, hb, he⟩ := mem_mul.mp hw
    obtain ⟨x, ⟨d, hd, rfl⟩, y, hy, rfl⟩ := mem_mul.mp hb
    obtain rfl : d = c := by simpa [CNode.matches] using hd
    obtain ⟨u, w', rfl, rfl, hw'⟩ := map_eq_append_iff.mp he.symm
    obtain ⟨d', v, rfl, hd', rfl⟩ := map_eq_cons_iff.mp hw'
    cases hd'
    exact ⟨u, v, rfl, ha, hy⟩
  · rintro ⟨u, v, rfl, hu, hv⟩
    have hsep : [Sym.ch c] ∈ (CNode.char c).lang := ⟨c, by simp [CNode.matches], rfl⟩
    have hmem := append_mem_mul hu (append_mem_mul hsep hv)
    simpa using hmem

end Words

/-- The words that lead to the accept node `m`: those of its expressions, and those that go through an expression and
the separator to one of its expressions in the tail. -/
def TailMatches (oob : Bool) (head tail : List (Tree × MatchFlag)) (m : MatchFlag) (w : List ℤ) : Prop :=
  (∃ r ∈ head, r.2 = m ∧ w.map .ch ∈ r.1.words) ∨
    ∃ r ∈ head, ∃ t ∈ tail, t.2 = m ∧ ∃ u v, w = u ++ Tree.separator oob :: v ∧ u.map .ch ∈ r.1.words ∧ v.map .ch ∈ t.1.words

namespace AareRules

variable {cache : ℕ} {oob : Bool} {head tail : List (Tree × MatchFlag)} {root : Root} {sep : Pos} {u : Node Pos}
  {m : MatchFlag} {w : List ℤ}

theorem TailRoot.matches_iff (h : TailRoot (ofRules cache head) (ofRules cache tail) oob root sep u) :
    TailMatches oob head tail m w ↔ (∃ h ∈ root.tree.heads, h.2 = m ∧ w.map .ch ∈ h.1.contents.lang) ∨
      ∃ h ∈ root.tree.heads, ∃ r ∈ u.rules, r.2 = m ∧
        w.map .ch ∈ h.1.contents.lang * (sep.node.lang * r.1.contents.lang) := by
  have hhead : ∀ {w : List Sym} {m : MatchFlag}, (∃ r ∈ head, r.2 = m ∧ w ∈ r.1.words) ↔
      ∃ h ∈ root.tree.heads, h.2 = m ∧ w ∈ h.1.contents.lang := by
    intro w m
    have hmaps : Maps (ofRules cache head).exprMap m w ↔ ∃ r ∈ head, r.2 = m ∧ w ∈ r.1.words := maps_ofRules
    rw [← hmaps, maps_iff h.heads]
  have htail : ∀ {w : List Sym} {m : MatchFlag}, (∃ r ∈ tail, r.2 = m ∧ w ∈ r.1.words) ↔
      ∃ r ∈ u.rules, r.2 = m ∧ w ∈ r.1.contents.lang := by
    intro w m
    have hmaps : Maps (ofRules cache tail).exprMap m w ↔ ∃ r ∈ tail, r.2 = m ∧ w ∈ r.1.words := maps_ofRules
    rw [← hmaps, maps_iff h.tails]
  rw [TailMatches, hhead, h.sepNode]
  simp only [mem_mul_sep]
  refine or_congr_right ?_
  constructor
  · rintro ⟨r, hr, t, ht, rfl, x, y, rfl, hx, hy⟩
    obtain ⟨h', hh', -, hx'⟩ := hhead.mp ⟨r, hr, rfl, hx⟩
    obtain ⟨r', hr', hm, hy'⟩ := htail.mp ⟨t, ht, rfl, hy⟩
    exact ⟨h', hh', r', hr', hm, x, y, rfl, hx', hy'⟩
  · rintro ⟨h', hh', r', hr', rfl, x, y, rfl, hx, hy⟩
    obtain ⟨r, hr, -, hx'⟩ := hhead.mpr ⟨h', hh', rfl, hx⟩
    obtain ⟨t, ht, hm, hy'⟩ := htail.mpr ⟨r', hr', rfl, hy⟩
    exact ⟨r, hr, t, ht, hm, x, y, rfl, hx', hy'⟩

theorem TailRoot.mem_lang (h : TailRoot (ofRules cache head) (ofRules cache tail) oob root sep u) :
    w.map .ch ++ [.acc m] ∈ root.tree.contents.lang ↔ TailMatches oob head tail m w := by
  have hrule : ∀ {A : Language Sym} {x : List Sym}, x ∈ A * (sep.node.lang * u.contents.lang) ↔
      ∃ r ∈ u.rules, x ∈ A * (sep.node.lang * r.1.contents.lang) * acceptLang r.2 := by
    intro A x
    simp only [mem_mul, Node.mem_lang_ruleTree h.rules]
    constructor
    · rintro ⟨a, ha, _, ⟨b, hb, _, ⟨r, hr, c, hc, d, hd, rfl⟩, rfl⟩, rfl⟩
      exact ⟨r, hr, a ++ (b ++ c), ⟨a, ha, b ++ c, ⟨b, hb, c, hc, rfl⟩, rfl⟩, d, hd, by simp⟩
    · rintro ⟨r, hr, _, ⟨a, ha, _, ⟨b, hb, c, hc, rfl⟩, rfl⟩, d, hd, rfl⟩
      exact ⟨a, ha, b ++ (c ++ d), ⟨b, hb, c ++ d, ⟨r, hr, c, hc, d, hd, rfl⟩, rfl⟩, by simp⟩
  rw [h.matches_iff, Node.mem_lang_tailTree h.tree]
  simp only [mul_add, mem_add, hrule, mem_mul_acceptLang]
  constructor
  · rintro ⟨x, hx, ⟨hw, hm⟩ | ⟨r, hr, hw, hm⟩⟩
    · exact Or.inl ⟨x, hx, hm, hw⟩
    · exact Or.inr ⟨x, hx, r, hr, hm, hw⟩
  · rintro (⟨x, hx, hm, hw⟩ | ⟨x, hx, r, hr, hm, hw⟩)
    · exact ⟨x, hx, Or.inl ⟨hw, hm⟩⟩
    · exact ⟨x, hx, Or.inr ⟨r, hr, hw, hm⟩⟩

theorem TailRoot.build (h : TailRoot (ofRules cache head) (ofRules cache tail) oob root sep u)
    (order : IterOrder root.tree.positions) (filedfa : Bool) :
    (DFA.build (fun _ => root.refcount) root.tree order filedfa = .error .conflict ∧ Conflict order filedfa) ∨
      ∃ d, DFA.build (fun _ => root.refcount) root.tree order filedfa = .ok d ∧
        Built order filedfa root.tree.posInfo.first root.tree.posInfo.follow d := by
  have hfree : Node.SharedFree (.cat [.cnode sep, u]) :=
    .cat (forall_mem_cons.mpr ⟨.cnode sep, forall_mem_singleton.mpr h.rules.sharedFree⟩)
  have hrefs : ∀ a, root.tree.refs a ≤ root.refcount := by
    intro a
    rw [h.tree.refs_eq, h.refcount]
    split_ifs
    · exact le_rfl
    · exact Nat.zero_le _
  obtain ⟨hfirst, hfollow⟩ := Node.computePos_shared (fun _ => hfree) h.tree.coherent hrefs
  have hspec := build_spec (fun _ => root.refcount) root.tree order filedfa
  rwa [hfirst, hfollow] at hspec

theorem TailRoot.nodes_extRun (h : TailRoot (ofRules cache head) (ofRules cache tail) oob root sep u)
    {order : IterOrder root.tree.positions} {filedfa : Bool} {d : DFA}
    (hb : Built order filedfa root.tree.posInfo.first root.tree.posInfo.follow d)
    (hw : (∀ c ∈ w, 0 ≤ c) ∨ ∀ r ∈ head ++ tail, r.1.Over CNode.OobFree) :
    d.extRun w < d.states.length ∧ d.nodes (d.extRun w) = root.tree.reach w := by
  rcases hw with hw | hfree
  · exact hb.nodes_extRun_bytes hw
  · obtain ⟨hhead, htail⟩ := forall_mem_append.mp hfree
    have hleaves : ∀ a ∈ root.tree.cnodes, a = sep ∨ a.node.OobFree := fun a ha =>
      h.leaves leafClosed_oobFree (over_ofRules hhead) (over_ofRules htail) ha
    have hdef : sep.node.isDefault = false := by rw [h.sepNode]; rfl
    have hno : root.tree.NoNegatedOob := by
      intro p hp hd c hc
      rcases hleaves p hp with rfl | hfree
      · rw [hdef] at hd
        cases hd
      · exact hfree c hc
    refine hb.nodes_extRun hno (fun w c hc hsame => ?_) w
    cases oob with
    | true =>
      refine Node.advance_ne_defaults h.rules h.tree h.nodup (fun c hm => ?_) hleaves hdef hc hsame
      rw [h.sepNode] at hm
      have hm' : c = -1 := by simpa [CNode.matches, Tree.separator] using hm
      omega
    | false =>
      -- nothing reads an out of band character
      rw [advance, Finset.filter_eq_empty_iff.mpr, Finset.biUnion_empty]
      intro p hp hr
      cases p with
      | accept m => simp at hr
      | cnode a =>
        have hm : a.node.matches c = true := hr
        rcases hleaves a (Node.cnode_mem_positions.mp (Node.reach_subset _ w hp)) with rfl | hfree
        · rw [h.sepNode] at hm
          have hm' : c = 0 := by simpa [CNode.matches, Tree.separator] using hm
          omega
        · rw [hfree.not_matches hc] at hm
          cases hm

end AareRules

open AareRules in
/-- A rule set compiled with a tail: an accept node is that of the rules with its permissions, in the rule set and in the
tail, and a word reaches it through the rules of the set, or through one of these and the separator in the tail. -/
theorem createRoot_tail_recognizes (opts : TreeFlags) (oob : Bool) (cache : ℕ) {head tail : List (Tree × MatchFlag)}
    (hplain : ∀ r ∈ head ++ tail, r.1.Plain) (hhead : head ≠ []) (htail : tail ≠ []) :
    ∃ root, Returns (fun fuel => (ofRules cache head).createRoot opts fuel (some (ofRules cache tail)) oob) (some root) ∧
      (∀ (w : List ℤ) (m : MatchFlag),
        w.map .ch ++ [.acc m] ∈ root.tree.contents.lang ↔ TailMatches oob head tail m w) ∧
      ∀ (order : IterOrder root.tree.positions) (filedfa : Bool),
        (DFA.build (fun _ => root.refcount) root.tree order filedfa = .error .conflict ∧ Conflict order filedfa) ∨
          ∃ d, DFA.build (fun _ => root.refcount) root.tree order filedfa = .ok d ∧
            ∀ w : List ℤ, ((∀ c ∈ w, 0 ≤ c) ∨ ∀ r ∈ head ++ tail, r.1.Over CNode.OobFree) →
              ∀ p, p ∈ d.acceptNodes (d.extRun w) ↔ ∃ m, p = .accept m ∧ TailMatches oob head tail m w := by
  obtain ⟨hh, ht⟩ := forall_mem_append.mp hplain
  have hheads : ∀ e ∈ (ofRules cache head).exprMap, e.2.Plain := over_ofRules hh
  have htails : ∀ e ∈ (ofRules cache tail).exprMap, e.2.Plain := over_ofRules ht
  obtain ⟨root, sep, u, hret, hroot⟩ : ∃ root sep u,
      Returns (fun fuel => (ofRules cache head).createRoot opts fuel (some (ofRules cache tail)) oob) (some root) ∧
        TailRoot (ofRules cache head) (ofRules cache tail) oob root sep u :=
    createRoot_spec hheads htails (ofRules_ne_nil hhead) (ofRules_ne_nil htail)
    ((ofRules_fields cache tail).1.trans (ofRules_fields cache head).1.symm) (ofRules_fields cache head).2
    (ofRules_fields cache tail).2
  refine ⟨root, hret, fun w m => hroot.mem_lang, fun order filedfa => ?_⟩
  rcases hroot.build order filedfa with he | ⟨d, hok, hb⟩
  · exact Or.inl he
  · refine Or.inr ⟨d, hok, fun w hw p => ?_⟩
    obtain ⟨hlt, hnodes⟩ := hroot.nodes_extRun hb hw
    cases p with
    | cnode a =>
      refine iff_of_false (hb.cnode_notMem_acceptNodes hlt a) ?_
      rintro ⟨m, hm, -⟩
      cases hm
    | accept m =>
      rw [hb.mem_acceptNodes hlt, hnodes, Node.accept_mem_reach_tail hroot.tree hroot.rules hroot.nodup,
        ← hroot.matches_iff]
      simp

section Example

open AareRules

def headVec : RuleVec := ⟨0, .allow, Perm.mayRead, 0, .cnode (.char 97), [], false⟩
def tailVec : RuleVec := ⟨0, .allow, Perm.mayRead, 0, .cnode (.char 98), [], false⟩

def headRules : AareRules × UniquePermsCache := AareRules.addRuleVec ⟨0, false, []⟩ ⟨[]⟩ 0 headVec
def tailRules : AareRules × UniquePermsCache := AareRules.addRuleVec ⟨0, false, []⟩ headRules.2 1 tailVec

def vectorFlags : TreeFlags := ⟨true, true, false, true⟩

theorem headVec_recognized : ∃ root, Returns (fun fuel => (ofRules 0 [(headVec.tree, ⟨.exact, 0, 4, 0, 0⟩)]).createRoot
      vectorFlags fuel (some (ofRules 0 [(tailVec.tree, ⟨.exact, 0, 4, 0, 0⟩)])) true) (some root) ∧
      (∀ (w : List ℤ) (m : MatchFlag), w.map .ch ++ [.acc m] ∈ root.tree.contents.lang ↔
        TailMatches true [(headVec.tree, ⟨.exact, 0, 4, 0, 0⟩)] [(tailVec.tree, ⟨.exact, 0, 4, 0, 0⟩)] m w) ∧
      ∀ (order : IterOrder root.tree.positions) (filedfa : Bool),
        (DFA.build (fun _ => root.refcount) root.tree order filedfa = .error .conflict ∧ Conflict order filedfa) ∨
          ∃ d, DFA.build (fun _ => root.refcount) root.tree order filedfa = .ok d ∧
            ∀ w : List ℤ, ((∀ c ∈ w, 0 ≤ c) ∨ ∀ r ∈ [(headVec.tree, (⟨.exact, 0, 4, 0, 0⟩ : MatchFlag)),
                (tailVec.tree, ⟨.exact, 0, 4, 0, 0⟩)], r.1.Over CNode.OobFree) →
              ∀ p, p ∈ d.acceptNodes (d.extRun w) ↔ ∃ m, p = .accept m ∧
                TailMatches true [(headVec.tree, ⟨.exact, 0, 4, 0, 0⟩)] [(tailVec.tree, ⟨.exact, 0, 4, 0, 0⟩)] m w := by
  refine createRoot_tail_recognizes vectorFlags true 0 ?_ (cons_ne_nil _ _) (cons_ne_nil _ _)
  exact forall_mem_cons.mpr ⟨trivial, forall_mem_singleton.mpr trivial⟩

/-- The head rule `a` and the tail rule `b` get one accept node from the cache, and `a\0b` reaches it without being a
word of `a`. -/
theorem tailWord_reaches_head : ∃ root d m,
    headRules.1.createRoot vectorFlags 0 (some tailRules.1) false = some (some root) ∧
      DFA.build (fun _ => root.refcount) root.tree root.tree.leafOrder false = .ok d ∧
      headRules.1.exprMap = [(m, headVec.tree)] ∧ .accept m ∈ d.acceptNodes (d.extRun [97, 0, 98]) ∧
      [97, 0, 98].map .ch ∉ headVec.tree.words := by
  have hrun : (headRules.1.createRoot vectorFlags 0 (some tailRules.1) false).any (fun r => r.any fun root =>
      (DFA.build (fun _ => root.refcount) root.tree root.tree.leafOrder false).toOption.any fun d =>
        ImportantNode.accept ⟨.exact, 0, 4, 0, 0⟩ ∈ d.acceptNodes (d.extRun [97, 0, 98])) = true := by decide +kernel
  obtain ⟨r, hr, hrun⟩ := Option.any_eq_true _ _ |>.mp hrun
  obtain ⟨root, hroot, hrun⟩ := Option.any_eq_true _ _ |>.mp hrun
  obtain ⟨d, hd, hrun⟩ := ok_of_any hrun
  refine ⟨root, d, ⟨.exact, 0, 4, 0, 0⟩, by rw [hr, hroot], hd, by decide +kernel, of_decide_eq_true hrun, ?_⟩
  rintro ⟨c, -, hw⟩
  cases hw

end Example

end AppArmor

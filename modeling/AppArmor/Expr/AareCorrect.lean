import AppArmor.Expr.Aare

namespace AppArmor

open Fuel List

namespace Node

variable {α β : Type} {f : α → β}

theorem cnodes_map (f : α → β) (t : Node α) : (t.map f).cnodes = t.cnodes.map f := by
  induction t with
  | cat ts ih =>
    rw [map, mapList_eq, cnodes_cat, cnodes_cat, map_flatMap, flatMap_map]
    exact flatMap_congr ih
  | alt ts ih =>
    rw [map, mapList_eq, cnodes_alt, cnodes_alt, map_flatMap, flatMap_map]
    exact flatMap_congr ih
  | star t ih | optional t ih | plus t ih | sharedTree a t ih => exact ih
  | _ => rfl

theorem plain_of_map {t : Node α} (h : Plain (t.map f)) : Plain t := by
  induction t with
  | eps => exact .eps
  | cnode a => exact .cnode a
  | star t ih =>
    cases h with
    | star h => exact .star (ih h)
  | optional t ih =>
    cases h with
    | optional h => exact .optional (ih h)
  | plus t ih =>
    cases h with
    | plus h => exact .plus (ih h)
  | cat ts ih =>
    rw [map, mapList_eq] at h
    cases h with
    | cat h => exact .cat fun t ht => ih t ht (h _ (mem_map_of_mem ht))
  | alt ts ih =>
    rw [map, mapList_eq] at h
    cases h with
    | alt h => exact .alt fun t ht => ih t ht (h _ (mem_map_of_mem ht))
  | accept m | sharedTree a t _ => cases h

structure Placed (t : Node CNode) (n : ℕ) (r : Node Pos × ℕ) : Prop where
  contents : r.1.contents = t
  le : n ≤ r.2
  addrs : r.1.cnodes.map Pos.addr = List.range' n (r.2 - n)

theorem range'_split {n m k : ℕ} (h : n ≤ m) (h' : m ≤ k) :
    List.range' n (m - n) ++ List.range' m (k - m) = List.range' n (k - n) := by
  have happ := @List.range'_append_1 n (m - n) (k - m)
  rw [show n + (m - n) = m by omega, show m - n + (k - m) = k - n by omega] at happ
  exact happ

variable {ts : List (Node CNode)}

theorem placeList_spec (ih : ∀ t ∈ ts, ∀ n, Placed t n (t.place n)) (n : ℕ) :
    map.mapList Pos.node (place.placeList ts n).1 = ts ∧ n ≤ (place.placeList ts n).2 ∧
      (cnodes.cnodesList (place.placeList ts n).1).map Pos.addr = List.range' n ((place.placeList ts n).2 - n) := by
  induction ts generalizing n with
  | nil => simp [place.placeList, map.mapList, cnodes.cnodesList]
  | cons t ts iht =>
    have ht := ih t (by simp) n
    obtain ⟨hmap, hle, haddrs⟩ := iht (fun u hu => ih u (mem_cons_of_mem _ hu)) (t.place n).2
    rw [place.placeList]
    refine ⟨?_, ht.le.trans hle, ?_⟩
    · rw [map.mapList, hmap]
      exact congrArg (· :: ts) ht.contents
    · rw [cnodes.cnodesList, map_append, ht.addrs, haddrs, range'_split ht.le hle]

theorem place_spec (t : Node CNode) (n : ℕ) : Placed t n (t.place n) := by
  induction t generalizing n with
  | eps => exact ⟨rfl, le_rfl, by simp [place, cnodes]⟩
  | cnode a => exact ⟨rfl, Nat.le_succ n, by simp [place, cnodes]⟩
  | accept m => exact ⟨rfl, le_rfl, by simp [place, cnodes]⟩
  | star t ih => exact ⟨congrArg Node.star (ih n).contents, (ih n).le, (ih n).addrs⟩
  | optional t ih => exact ⟨congrArg Node.optional (ih n).contents, (ih n).le, (ih n).addrs⟩
  | plus t ih => exact ⟨congrArg Node.plus (ih n).contents, (ih n).le, (ih n).addrs⟩
  | sharedTree a t ih => exact ⟨congrArg (Node.sharedTree a) (ih n).contents, (ih n).le, (ih n).addrs⟩
  | cat ts ih =>
    obtain ⟨hmap, hle, haddrs⟩ := placeList_spec ih n
    exact ⟨congrArg Node.cat hmap, hle, haddrs⟩
  | alt ts ih =>
    obtain ⟨hmap, hle, haddrs⟩ := placeList_spec ih n
    exact ⟨congrArg Node.alt hmap, hle, haddrs⟩

def Over (Q : CNode → Prop) (t : Node CNode) : Prop := Plain t ∧ ∀ a ∈ t.cnodes, Q a

theorem coherent_of_plain {env : ℕ → Node α} {t : Node α} (h : Plain t) : Coherent env t := by
  induction h with
  | star _ ih | optional _ ih | plus _ ih => exact ih
  | cat _ ih => exact coherent_cat.mpr ih
  | alt _ ih => exact coherent_alt.mpr ih
  | _ => trivial

variable {Q : CNode → Prop}

theorem over_cat : Over Q (.cat ts) ↔ ∀ t ∈ ts, Over Q t := by
  constructor
  · rintro ⟨h, hq⟩ t ht
    cases h with
    | cat h => exact ⟨h t ht, fun a ha => hq a (by rw [cnodes_cat]; exact mem_flatMap.mpr ⟨t, ht, ha⟩)⟩
  · intro h
    refine ⟨.cat fun t ht => (h t ht).1, fun a ha => ?_⟩
    rw [cnodes_cat] at ha
    obtain ⟨t, ht, ha⟩ := mem_flatMap.mp ha
    exact (h t ht).2 a ha

theorem over_alt : Over Q (.alt ts) ↔ ∀ t ∈ ts, Over Q t := by
  constructor
  · rintro ⟨h, hq⟩ t ht
    cases h with
    | alt h => exact ⟨h t ht, fun a ha => hq a (by rw [cnodes_alt]; exact mem_flatMap.mpr ⟨t, ht, ha⟩)⟩
  · intro h
    refine ⟨.alt fun t ht => (h t ht).1, fun a ha => ?_⟩
    rw [cnodes_alt] at ha
    obtain ⟨t, ht, ha⟩ := mem_flatMap.mp ha
    exact (h t ht).2 a ha

theorem over_chars (hQ : LeafClosed Q) (hc : ∀ t ∈ ts, isCharOrCharset t)
    (h : ∀ t ∈ ts, Over Q t) : Over Q (Vec.charNode (ts.foldl insertChars .empty)) := by
  have hleaf : ∀ a : CNode, isCharOrCharset (.cnode a) →
      (∀ c, a.matches c → c ∈ ts.foldl insertChars .empty) → Q a := by
    intro a ha hm
    refine hQ a ha fun c hcm => ?_
    rcases (Vec.mem_foldl_insertChars hc).mp (hm c hcm) with hmem | ⟨t, ht, hw⟩
    · cases hmem
    · have hkind := hc t ht
      cases t with
      | cnode b =>
        obtain ⟨d, hd, he⟩ := hw
        cases he
        exact ⟨b, (h _ ht).2 b (by simp [cnodes]), hd⟩
      | _ => cases hkind
  unfold Vec.charNode
  split
  · rename_i c hs
    refine ⟨.cnode _, fun a ha => ?_⟩
    rw [cnodes, mem_singleton] at ha
    rw [ha]
    refine hleaf _ rfl fun d hd => ?_
    rw [Chars.mem_def, hs]
    simpa [CNode.matches] using hd
  · refine ⟨.cnode _, fun a ha => ?_⟩
    rw [cnodes, mem_singleton] at ha
    rw [ha]
    exact hleaf _ rfl fun d hd => of_decide_eq_true hd

theorem over_hereditary (hQ : LeafClosed Q) (env : ℕ → Node CNode) : Vec.Hereditary env (Over Q) where
  coherent h := coherent_of_plain h.1
  eps := ⟨.eps, fun a ha => absurd ha not_mem_nil⟩
  star := by
    refine ⟨fun ⟨h, hq⟩ => ⟨?_, hq⟩, fun ⟨h, hq⟩ => ⟨.star h, hq⟩⟩
    cases h with
    | star h => exact h
  optional := by
    refine ⟨fun ⟨h, hq⟩ => ⟨?_, hq⟩, fun ⟨h, hq⟩ => ⟨.optional h, hq⟩⟩
    cases h with
    | optional h => exact h
  plus := by
    refine ⟨fun ⟨h, hq⟩ => ⟨?_, hq⟩, fun ⟨h, hq⟩ => ⟨.plus h, hq⟩⟩
    cases h with
    | plus h => exact h
  cat := over_cat
  alt := over_alt
  chars hc h := over_chars hQ hc h

end Node

theorem Tree.Over.toNode {Q : CNode → Prop} {env : ℕ → Node CNode} {t : Tree} (h : t.Over Q) :
    (t.toNode env).Over Q := by
  induction t with
  | eps => exact ⟨.eps, fun a ha => absurd ha not_mem_nil⟩
  | cnode a => exact ⟨.cnode a, fun b hb => mem_singleton.mp hb ▸ h⟩
  | star t ih => exact ⟨.star (ih h).1, (ih h).2⟩
  | optional t ih => exact ⟨.optional (ih h).1, (ih h).2⟩
  | plus t ih => exact ⟨.plus (ih h).1, (ih h).2⟩
  | cat l r hl hr =>
    exact Node.over_cat.mpr (forall_mem_cons.mpr ⟨hl h.1, forall_mem_singleton.mpr (hr h.2)⟩)
  | alt l r hl hr =>
    exact Node.over_alt.mpr (forall_mem_cons.mpr ⟨hl h.1, forall_mem_singleton.mpr (hr h.2)⟩)
  | accept m | shared a => cases h

def Tree.Plain (t : Tree) : Prop := t.Over fun _ => True

def Tree.words (t : Tree) : Language Sym := t.lang fun _ => .eps

structure Simplified (t : Tree) (u : Node CNode) : Prop where
  lang : u.lang = t.words
  plain : u.Plain
  leaves : ∀ {Q}, LeafClosed Q → t.Over Q → ∀ a ∈ u.cnodes, Q a

theorem leafClosed_true : LeafClosed fun _ => True := fun _ _ _ => trivial

theorem simplifyTree_spec (opts : TreeFlags) {t : Tree} (h : t.Plain) :
    ∃ u, Returns (fun fuel => simplifyTree opts fuel t) u ∧ Simplified t u := by
  unfold simplifyTree
  cases opts.vector with
  | true =>
    obtain ⟨u, hu, hover, hlang⟩ := Vec.simplifyTreeVec_spec (Node.over_hereditary leafClosed_true fun _ => .eps)
      opts.left (@Tree.Over.toNode _ (fun _ => .eps) _ h)
    refine ⟨u, (Returns.pure u).congr fun fuel => by simp [hu], hlang, hover.1, fun hQ ht => ?_⟩
    obtain ⟨v, hv, hover', -⟩ := Vec.simplifyTreeVec_spec (Node.over_hereditary hQ fun _ => .eps) opts.left
      (@Tree.Over.toNode _ (fun _ => .eps) _ ht)
    obtain rfl : u = v := Option.some.inj (hu.symm.trans hv)
    exact hover'.2
  | false =>
    obtain ⟨u, hu, hk⟩ := simplifyTreeOld_spec (fun _ => .eps) opts t
    refine ⟨u.toNode fun _ => .eps, (hu.map _).congr fun fuel => by simp, hk.lang, ?_, fun hQ ht => ?_⟩
    · exact (Tree.Over.toNode (hk.plain leafClosed_true h)).1
    · exact (Tree.Over.toNode (hk.plain hQ ht)).2

theorem toNode_simplified {t : Tree} (h : t.Plain) : Simplified t (t.toNode fun _ => .eps) :=
  ⟨rfl, (Tree.Over.toNode h).1, fun _ ht => (Tree.Over.toNode ht).2⟩

namespace AareRules

structure EntryOf (e : MatchFlag × Tree) (e' : MatchFlag × Node Pos) : Prop where
  flag : e'.1 = e.1
  simplified : Simplified e.2 e'.2.contents

theorem EntryOf.plain {e : MatchFlag × Tree} {e' : MatchFlag × Node Pos} (h : EntryOf e e') : e'.2.Plain :=
  Node.plain_of_map h.simplified.plain

theorem entries_spec (opts : TreeFlags) {es : List (MatchFlag × Tree)} (hes : ∀ e ∈ es, e.2.Plain) (n : ℕ) :
    ∃ r, Returns (fun fuel => entries opts fuel es n) r ∧ List.Forall₂ EntryOf es r.1 ∧ n ≤ r.2 ∧
      (r.1.flatMap (·.2.cnodes)).map Pos.addr = List.range' n (r.2 - n) := by
  induction es generalizing n with
  | nil => exact ⟨([], n), Returns.pure _, .nil, le_rfl, by simp⟩
  | cons e es ih =>
    obtain ⟨he, hes⟩ := forall_mem_cons.mp hes
    have hsimple : ∃ u, Returns (fun fuel => if opts.simple then simplifyTree opts fuel e.2
        else some (e.2.toNode fun _ => .eps)) u ∧ Simplified e.2 u := by
      cases opts.simple with
      | true => exact simplifyTree_spec opts he
      | false => exact ⟨_, Returns.pure _, toNode_simplified he⟩
    obtain ⟨u, hu, hsimp⟩ := hsimple
    have hplaced := u.place_spec n
    obtain ⟨⟨rest, next⟩, hrest, hall, hle, haddrs⟩ := ih hes (u.place n).2
    refine ⟨((e.1, (u.place n).1) :: rest, next), ?_, .cons ⟨rfl, ?_⟩ hall, hplaced.le.trans hle, ?_⟩
    · have hbind := hu.bind (g := fun fuel t => (entries opts fuel es (t.place n).2).map fun r =>
        ((e.1, (t.place n).1) :: r.1, r.2)) (hrest.map fun r => ((e.1, (u.place n).1) :: r.1, r.2))
      refine hbind.congr fun fuel => ?_
      rw [entries]
      cases opts.simple <;> simp [Option.map_eq_bind]
    · rw [hplaced.contents]
      exact hsimp
    · rw [flatMap_cons, map_append, hplaced.addrs, haddrs, Node.range'_split hplaced.le hle]

section Map

variable {es : List (MatchFlag × Tree)} {m m' : MatchFlag} {t : Tree} {w : List Sym} {Q : CNode → Prop}

def Maps (es : List (MatchFlag × Tree)) (m : MatchFlag) (w : List Sym) : Prop := ∃ e ∈ es, e.1 = m ∧ w ∈ e.2.words

theorem maps_insertExpr : Maps (insertExpr m t es) m' w ↔ Maps es m' w ∨ m = m' ∧ w ∈ t.words := by
  induction es with
  | nil => simp [Maps, insertExpr]
  | cons e es ih =>
    have hcons : ∀ (e : MatchFlag × Tree) es, Maps (e :: es) m' w ↔ (e.1 = m' ∧ w ∈ e.2.words) ∨ Maps es m' w :=
      fun e es => exists_mem_cons_iff _ _ _
    rw [insertExpr]
    split_ifs with he hlt
    · have halt : w ∈ (Tree.alt e.2 t).words ↔ w ∈ e.2.words ∨ w ∈ t.words := by
        rw [Tree.words, Tree.lang_alt, Language.mem_add]
        rfl
      rw [hcons, hcons, halt, ← he]
      grind
    · rw [hcons, or_comm]
    · rw [hcons, hcons, ih, or_assoc]

theorem over_insertExpr (hes : ∀ e ∈ es, e.2.Over Q) (ht : t.Over Q) : ∀ e ∈ insertExpr m t es, e.2.Over Q := by
  induction es with
  | nil => exact forall_mem_singleton.mpr ht
  | cons e es ih =>
    obtain ⟨he, hes⟩ := forall_mem_cons.mp hes
    rw [insertExpr]
    split_ifs
    · exact forall_mem_cons.mpr ⟨⟨he, ht⟩, hes⟩
    · exact forall_mem_cons.mpr ⟨ht, forall_mem_cons.mpr ⟨he, hes⟩⟩
    · exact forall_mem_cons.mpr ⟨he, ih hes⟩

theorem insertExpr_ne_nil : insertExpr m t es ≠ [] := by
  cases es with
  | nil => exact cons_ne_nil _ _
  | cons e es =>
    rw [insertExpr]
    split_ifs <;> exact cons_ne_nil _ _

variable {cache : ℕ} {rs : List (Tree × MatchFlag)}

theorem ofRules_append (r : Tree × MatchFlag) : ofRules cache (rs ++ [r]) = (ofRules cache rs).addToRules r.1 r.2 := by
  rw [ofRules, foldl_append, foldl_cons, foldl_nil, ← ofRules]

theorem ofRules_fields (cache : ℕ) (rs : List (Tree × MatchFlag)) :
    (ofRules cache rs).cache = cache ∧ (ofRules cache rs).reverse = false := by
  induction rs using reverseRecOn with
  | nil => exact ⟨rfl, rfl⟩
  | append_singleton rs r ih =>
    rw [ofRules_append]
    exact ih

theorem ofRules_exprMap_append (r : Tree × MatchFlag) :
    (ofRules cache (rs ++ [r])).exprMap = insertExpr r.2 r.1 (ofRules cache rs).exprMap := by
  rw [ofRules_append, addToRules, (ofRules_fields cache rs).2]
  rfl

theorem maps_ofRules : Maps (ofRules cache rs).exprMap m w ↔ ∃ r ∈ rs, r.2 = m ∧ w ∈ r.1.words := by
  induction rs using reverseRecOn with
  | nil => simp [ofRules, Maps]
  | append_singleton rs r ih =>
    rw [ofRules_exprMap_append, maps_insertExpr, ih]
    simp only [mem_append, mem_singleton, or_and_right, exists_or, exists_eq_left]

theorem over_ofRules (h : ∀ r ∈ rs, r.1.Over Q) : ∀ e ∈ (ofRules cache rs).exprMap, e.2.Over Q := by
  induction rs using reverseRecOn with
  | nil => exact fun e he => absurd he not_mem_nil
  | append_singleton rs r ih =>
    rw [ofRules_exprMap_append]
    exact over_insertExpr (ih fun r hr => h r (mem_append_left _ hr)) (h r (by simp))

theorem ofRules_ne_nil (h : rs ≠ []) : (ofRules cache rs).exprMap ≠ [] := by
  induction rs using reverseRecOn with
  | nil => exact absurd rfl h
  | append_singleton rs r _ =>
    rw [ofRules_exprMap_append]
    exact insertExpr_ne_nil

end Map

section Join

variable {es : List (MatchFlag × Node Pos)}

theorem buildTree_append (tail : Option (Node Pos)) (e : MatchFlag × Node Pos) :
    buildTree tail (es ++ [e]) = joinEntry tail (buildTree tail es) e := by
  rw [buildTree, foldl_append, foldl_cons, foldl_nil, ← buildTree]

theorem buildTree_none (hes : ∀ e ∈ es, e.2.Plain) (hne : es ≠ []) :
    ∃ t, buildTree none es = some t ∧ t.RuleTree ∧ t.rules = es.map Prod.swap ∧ t.cnodes = es.flatMap (·.2.cnodes) := by
  induction es using reverseRecOn with
  | nil => exact absurd rfl hne
  | append_singleton es e ih =>
    have he : e.2.Plain := hes e (by simp)
    rw [buildTree_append]
    rcases eq_or_ne es [] with rfl | hes'
    · exact ⟨_, rfl, .rule _ he, rfl, by simp [endOf, Node.cnodes, Node.cnodes.cnodesList]⟩
    · obtain ⟨t, ht, hrule, hrules, hcnodes⟩ := ih (fun e he => hes e (mem_append_left _ he)) hes'
      rw [ht]
      refine ⟨_, rfl, .alt (forall_mem_cons.mpr ⟨hrule, forall_mem_singleton.mpr (.rule _ he)⟩), ?_, ?_⟩
      · rw [Node.rules_alt, map_append, ← hrules]
        simp [Node.rules, endOf, Prod.swap]
      · rw [Node.cnodes_alt, flatMap_append, ← hcnodes]
        simp [Node.cnodes, Node.cnodes.cnodesList, endOf]

theorem buildTree_tail (hes : ∀ e ∈ es, e.2.Plain) (hne : es ≠ []) (addr : ℕ) (tail : Node Pos) :
    ∃ t, buildTree (some (.sharedTree addr tail)) es = some t ∧
      Node.TailTree addr tail t ∧ t.heads = es.map Prod.swap := by
  induction es using reverseRecOn with
  | nil => exact absurd rfl hne
  | append_singleton es e ih =>
    have he : e.2.Plain := hes e (by simp)
    rw [buildTree_append]
    rcases eq_or_ne es [] with rfl | hes'
    · exact ⟨_, rfl, .rule _ he, rfl⟩
    · obtain ⟨t, ht, htree, hheads⟩ := ih (fun e he => hes e (mem_append_left _ he)) hes'
      rw [ht]
      refine ⟨_, rfl, .alt htree (.rule _ he), ?_⟩
      rw [Node.heads, hheads, map_append]
      rfl

end Join

section Root

variable {rs tail : AareRules} {opts : TreeFlags} {oob : Bool}

variable {es : List (MatchFlag × Tree)}

theorem forall₂_plain {es' : List (MatchFlag × Node Pos)}
    (h : List.Forall₂ EntryOf es es') : ∀ e ∈ es', e.2.Plain := by
  induction h with
  | nil => exact fun e he => absurd he not_mem_nil
  | cons he _ ih => exact forall_mem_cons.mpr ⟨he.plain, ih⟩

structure TailRoot (rs tail : AareRules) (oob : Bool) (root : Root) (sep : Pos) (u : Node Pos) : Prop where
  sepNode : sep.node = .char (Tree.separator oob)
  tree : Node.TailTree 0 (.cat [.cnode sep, u]) root.tree
  rules : u.RuleTree
  nodup : (root.tree.headLeaves ++ sep :: u.cnodes).Nodup
  refcount : root.refcount = root.tree.heads.length
  heads : List.Forall₂ EntryOf rs.exprMap (root.tree.heads.map Prod.swap)
  tails : List.Forall₂ EntryOf tail.exprMap (u.rules.map Prod.swap)

theorem createRoot_spec (hrs : ∀ e ∈ rs.exprMap, e.2.Plain) (htail : ∀ e ∈ tail.exprMap, e.2.Plain)
    (hrne : rs.exprMap ≠ []) (htne : tail.exprMap ≠ []) (hcache : tail.cache = rs.cache) (hr : rs.reverse = false)
    (ht : tail.reverse = false) :
    ∃ root sep u, Returns (fun fuel => createRoot opts fuel rs (some tail) oob) (some root) ∧
      TailRoot rs tail oob root sep u := by
  have hne : ∀ {es : List (MatchFlag × Tree)} {es' : List (MatchFlag × Node Pos)}, List.Forall₂ EntryOf es es' →
      es ≠ [] → es' ≠ [] := by
    rintro es es' h hes rfl
    exact hes (forall₂_nil_right_iff.mp h)
  have hswap : ∀ es : List (MatchFlag × Node Pos), (es.map Prod.swap).map Prod.swap = es := by
    intro es
    rw [map_map, Prod.swap_swap_eq, map_id]
  obtain ⟨⟨ts, next⟩, hts, htall, htle, htaddrs⟩ := entries_spec opts htail 1
  obtain ⟨u, hu, hrule, hrules, hcnodes⟩ := buildTree_none (forall₂_plain htall) (hne htall htne)
  obtain ⟨⟨es, last⟩, hes, hall, hle, haddrs⟩ := entries_spec opts hrs next
  obtain ⟨t, hbuild, htree, hheads⟩ := buildTree_tail (forall₂_plain hall) (hne hall hrne) 0
    (.cat [.cnode ⟨0, .char (Tree.separator oob)⟩, u])
  refine ⟨⟨t, es.length⟩, ⟨0, .char (Tree.separator oob)⟩, u, ?_, rfl, htree, hrule, ?_, ?_, ?_, ?_⟩
  · have hlast := hes.map fun r => (buildTree (some (.sharedTree 0 (.cat [.cnode ⟨0, .char (Tree.separator oob)⟩, u]))) r.1).map
      (Root.mk · r.1.length)
    rw [hbuild] at hlast
    have hbind := hts.bind (g := fun fuel r => (entries opts fuel rs.exprMap r.2).map fun q =>
      (buildTree ((buildTree none r.1).map fun t =>
        Node.sharedTree 0 (.cat [.cnode ⟨0, .char (Tree.separator oob)⟩, t])) q.1).map (Root.mk · q.1.length))
      (by simpa only [hu, Option.map_some] using hlast)
    refine hbind.congr fun fuel => ?_
    rw [createRoot, if_neg (by simp [hcache, hr, ht])]
    simp [Option.map_eq_bind]
  · -- the tail lies below `next`, the expressions from there on
    have hleaves : t.headLeaves = es.flatMap (·.2.cnodes) := by
      rw [Node.headLeaves, hheads, flatMap_map]
      rfl
    have haddr : ((t.headLeaves ++ ⟨0, .char (Tree.separator oob)⟩ :: u.cnodes).map Pos.addr) =
        range' next (last - next) ++ 0 :: range' 1 (next - 1) := by
      rw [map_append, map_cons, hleaves, hcnodes, haddrs, htaddrs]
    refine List.Nodup.of_map Pos.addr ?_
    rw [haddr, nodup_append, nodup_cons]
    refine ⟨nodup_range', ⟨by simp, nodup_range'⟩, fun a ha b hb => ?_⟩
    rw [mem_range'_1] at ha
    rw [mem_cons, mem_range'_1] at hb
    simp only at htle
    omega
  · rw [hheads, length_map]
  · rwa [hheads, hswap]
  · rwa [hrules, hswap]

theorem maps_iff {es' : List (Node Pos × MatchFlag)}
    (h : List.Forall₂ EntryOf es (es'.map Prod.swap)) {m : MatchFlag} {w : List Sym} :
    Maps es m w ↔ ∃ r ∈ es', r.2 = m ∧ w ∈ r.1.contents.lang := by
  induction es' generalizing es with
  | nil =>
    rw [map_nil, forall₂_nil_right_iff] at h
    simp [h, Maps]
  | cons r es' ih =>
    rw [map_cons] at h
    cases h with
    | cons he hes =>
      have hw := he.simplified.lang
      have hm := he.flag
      simp only [Prod.fst_swap, Prod.snd_swap] at hw hm
      rw [Maps, exists_mem_cons_iff, exists_mem_cons_iff, ← Maps, ih hes, hw, hm]

theorem TailRoot.leaves {root : Root} {sep : Pos} {u : Node Pos} (h : TailRoot rs tail oob root sep u) {Q : CNode → Prop}
    (hQ : LeafClosed Q) (hrs : ∀ e ∈ rs.exprMap, e.2.Over Q) (htail : ∀ e ∈ tail.exprMap, e.2.Over Q) {a : Pos}
    (ha : a ∈ root.tree.cnodes) : a = sep ∨ Q a.node := by
  have hentries : ∀ {es : List (MatchFlag × Tree)} {es' : List (Node Pos × MatchFlag)},
      List.Forall₂ EntryOf es (es'.map Prod.swap) → (∀ e ∈ es, e.2.Over Q) → a ∈ es'.flatMap (·.1.cnodes) → Q a.node := by
    intro es es' hall hover hmem
    obtain ⟨r, hr, har⟩ := mem_flatMap.mp hmem
    obtain ⟨e, he, hentry⟩ := Vec.exists_mem_right hall (mem_map_of_mem hr)
    apply hentry.simplified.leaves hQ (hover e he)
    rw [Node.contents, Node.cnodes_map]
    exact mem_map_of_mem har
  rcases h.tree.cnodes_cases ha with hhead | htl
  · exact Or.inr (hentries h.heads hrs hhead)
  · have hmem : a = sep ∨ a ∈ u.cnodes := by simpa [Node.cnodes, Node.cnodes.cnodesList] using htl
    rw [h.rules.cnodes_eq] at hmem
    exact hmem.imp_right (hentries h.tails htail)

end Root

end AareRules

end AppArmor

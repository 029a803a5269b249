import AppArmor.Interface.Features

namespace AppArmor

open List Prod

inductive FeatureNode
  | file (content : Text)
  | dir (entries : Entries)
  | other

def Entries.nodes : Entries → List (Text × FeatureNode)
  | nil => []
  | file name content rest => (name, .file content) :: rest.nodes
  | dir name sub rest => (name, .dir sub) :: rest.nodes
  | other name rest => (name, .other) :: rest.nodes

def tokens (content : Text) : List Text := (content.splitOnP isSpace).filter (· ≠ [])

def FeatureNode.Names : List Text → FeatureNode → Prop
  | [], _ => True
  | c :: cs, .dir entries => ∃ n, (c, n) ∈ entries.nodes ∧ n.Names cs
  | c :: cs, .file content => cs = [] ∧ c ∈ tokens content
  | _ :: _, .other => False

/-- How much of the component the scan of a name has matched: after a mismatch it goes on with the next character, wherever in
the name that is. -/
def scanName (comp : Text) : Text → ℕ → ℕ
  | [], i => i
  | c :: name, i =>
    let i := if comp[i]? = some c then i + 1 else 0
    scanName comp name (if i = comp.length ∧ name ≠ [] then 0 else i)

/-- The scan takes the name for the component. -/
def Caught (comp name : Text) : Prop := scanName comp name 0 = comp.length

instance (comp name : Text) : Decidable (Caught comp name) := inferInstanceAs (Decidable (_ = _))

/-- Nothing before the entry of a component is taken for it, at every component but the last. -/
def FeatureNode.Descends : List Text → FeatureNode → Prop
  | c :: c' :: cs, .dir entries =>
    (∀ e ∈ entries.nodes.takeWhile (fun e => e.1 ≠ c), ¬ Caught c e.1) ∧ ∀ n, (c, n) ∈ entries.nodes → n.Descends (c' :: cs)
  | _, _ => True

/-- Where the last component is looked up it is present, or nothing is taken for it. -/
def FeatureNode.LastClear : List Text → FeatureNode → Prop
  | [c], .dir entries => (∃ n, (c, n) ∈ entries.nodes) ∨ ∀ e ∈ entries.nodes, ¬ Caught c e.1
  | [c], .file content => c ∈ tokens content ∨ ∀ t ∈ tokens content, ¬ Caught c t
  | c :: c' :: cs, .dir entries => ∀ n, (c, n) ∈ entries.nodes → n.LastClear (c' :: cs)
  | _, _ => True

structure CleanName (name : Text) : Prop where
  shown : name.head? ≠ some '.' ∧ name ≠ []
  chars : ∀ c ∈ name, isAscii c ∧ ¬ isBrace c ∧ ¬ isSpace c ∧ c ≠ '\x00'

def CleanContent (content : Text) : Prop := ∀ c ∈ content, isAscii c ∧ ¬ isBrace c ∧ c ≠ '\x00'

def Entries.Clean : Entries → Prop
  | nil => True
  | file name content rest => CleanName name ∧ name ∉ rest.nodes.map Prod.fst ∧ CleanContent content ∧ rest.Clean
  | dir name sub rest => CleanName name ∧ name ∉ rest.nodes.map Prod.fst ∧ sub.Clean ∧ rest.Clean
  | other name rest => CleanName name ∧ name ∉ rest.nodes.map Prod.fst ∧ rest.Clean

structure CleanPath (path : Text) : Prop where
  relative : path.head? ≠ some '/'
  count : 0 < (pathComponents path).length ∧ (pathComponents path).length ≤ 32
  chars : ∀ c ∈ path, ¬ isBrace c ∧ ¬ isSpace c

def FeatureNode.Clean : FeatureNode → Prop
  | .file content => CleanContent content
  | .dir entries => entries.Clean
  | .other => True

def FeatureNode.body : FeatureNode → Text
  | .file content => content
  | .dir entries => entries.render
  | .other => []

section Scan

variable {comp : Text}

structure CleanComponent (comp : Text) : Prop where
  nonempty : comp ≠ []
  chars : ∀ c ∈ comp, ¬ isBrace c ∧ ¬ isSpace c

theorem CleanComponent.length_pos (h : CleanComponent comp) : 0 < comp.length := length_pos_iff.mpr h.nonempty

theorem CleanComponent.getElem_ne (h : CleanComponent comp) {c : Char} (hc : isBrace c ∨ isSpace c) (i : ℕ) : comp[i]? ≠ some c := by
  intro he
  have hmem := h.chars c (mem_of_getElem? he)
  rcases hc with hc | hc
  · exact hmem.1 hc
  · exact hmem.2 hc

theorem nextIndex_miss (hcomp : CleanComponent comp) {c : Char} {cur : Text} {b i : ℕ}
    (hmiss : ¬ (b = 0 ∧ comp[i]? = some c)) : nextIndex comp cur b i c = 0 := by
  have hlen : ¬ (0 = comp.length ∧ ¬ atBoundary cur) := fun h => hcomp.length_pos.ne h.1
  rw [nextIndex, if_neg hmiss]
  exact if_neg hlen

theorem findComponent_char {c : Char} {cur : Text} {b i : ℕ} (hi : i < comp.length) (hascii : isAscii c) (hbrace : ¬ isBrace c) :
    findComponent comp (c :: cur) b i = findComponent comp cur b (nextIndex comp cur b i c) := by
  have hopen : c ≠ '{' := by
    rintro rfl
    exact hbrace rfl
  have hclose : c ≠ '}' := by
    rintro rfl
    exact hbrace rfl
  rw [findComponent]
  simp only [hi, hascii, hopen, hclose, not_true_eq_false, false_and, if_false]

theorem findComponent_miss (hcomp : CleanComponent comp) {c : Char} {cur : Text} {b i : ℕ} (hi : i < comp.length)
    (hascii : isAscii c) (hbrace : ¬ isBrace c) (hmiss : b ≠ 0 ∨ isSpace c) :
    findComponent comp (c :: cur) b i = findComponent comp cur b 0 := by
  rw [findComponent_char hi hascii hbrace, nextIndex_miss hcomp]
  rintro ⟨hb, he⟩
  rcases hmiss with hmiss | hmiss
  · exact hmiss hb
  · exact hcomp.getElem_ne (Or.inr hmiss) i he

theorem findComponent_open (hcomp : CleanComponent comp) {cur : Text} {b i : ℕ} (hi : i < comp.length) (hb : b < 2 ^ 32 - 1) :
    findComponent comp ('{' :: cur) b i = findComponent comp cur (b + 1) 0 := by
  have hascii : isAscii '{' = true := rfl
  have hne : ('{' : Char) ≠ '}' := by decide
  have hmax : b ≠ 2 ^ 32 - 1 := hb.ne
  rw [findComponent]
  simp only [hi, hascii, hne, hmax, not_true_eq_false, and_false, false_and, if_false, if_true]
  rw [nextIndex_miss hcomp fun h => Nat.succ_ne_zero b h.1]

theorem findComponent_close (hcomp : CleanComponent comp) {cur : Text} {b : ℕ} :
    findComponent comp ('}' :: cur) (b + 1) 0 = findComponent comp cur b 0 := by
  have hascii : isAscii '}' = true := rfl
  have hne : ('}' : Char) ≠ '{' := by decide
  have hno := hcomp.getElem_ne (Or.inl (rfl : isBrace '}' = true)) 0
  rw [findComponent]
  simp only [hcomp.length_pos, hascii, hne, Nat.succ_ne_zero, not_true_eq_false, and_false, false_and, if_false, if_true,
    Nat.add_sub_cancel]
  rw [nextIndex_miss hcomp fun h => hno h.2]

theorem findComponent_end {cur : Text} {i : ℕ} (hi : i < comp.length) : findComponent comp ('}' :: cur) 0 i = none := by
  have hascii : isAscii '}' = true := rfl
  have hne : ('}' : Char) ≠ '{' := by decide
  rw [findComponent]
  simp only [hi, hascii, hne, not_true_eq_false, false_and, if_false, and_self, if_true]

def Skipped (body : Text) : Prop := ∀ comp rest b, CleanComponent comp → 1 ≤ b → b + body.length < 2 ^ 32 →
  findComponent comp (body ++ rest) b 0 = findComponent comp rest b 0

theorem skipped_of_chars {body : Text} (h : ∀ c ∈ body, isAscii c ∧ ¬ isBrace c) : Skipped body := by
  intro comp rest b hcomp hb hlen
  induction body with
  | nil => rfl
  | cons c body ih =>
    obtain ⟨hascii, hbrace⟩ := h c mem_cons_self
    rw [cons_append, findComponent_miss hcomp hcomp.length_pos hascii hbrace (Or.inl (by omega))]
    apply ih fun c' hc' => h c' (mem_cons_of_mem _ hc')
    rw [length_cons] at hlen
    omega

theorem skipped_nil : Skipped [] := fun _ _ _ _ _ _ => rfl

theorem Skipped.append {s t : Text} (hs : Skipped s) (ht : Skipped t) : Skipped (s ++ t) := by
  intro comp rest b hcomp hb hlen
  rw [length_append] at hlen
  rw [append_assoc, hs comp _ b hcomp hb (by omega), ht comp _ b hcomp hb (by omega)]

theorem Skipped.braces {s : Text} (hs : Skipped s) : Skipped ('{' :: s ++ ['}']) := by
  intro comp rest b hcomp hb hlen
  simp only [length_append, length_cons, length_nil] at hlen
  rw [append_assoc, cons_append, findComponent_open hcomp hcomp.length_pos (by omega),
    hs comp _ (b + 1) hcomp (by omega) (by omega), cons_append, nil_append, findComponent_close hcomp]

def entryText (name body : Text) : Text := name ++ [' ', '{'] ++ body ++ ['}', '\n']

theorem CleanName.renderEntry_eq {name : Text} (h : CleanName name) (body : Text) : renderEntry name body = entryText name body :=
  if_neg (not_or.mpr h.shown)

theorem skipped_entry {name body : Text} (hname : CleanName name) (hbody : Skipped body) : Skipped (entryText name body) := by
  have hsplit : entryText name body = (name ++ [' ']) ++ (('{' :: body ++ ['}']) ++ ['\n']) := by simp [entryText]
  rw [hsplit]
  refine .append (.append ?_ ?_) (.append hbody.braces ?_)
  · exact skipped_of_chars fun c hc => ⟨(hname.chars c hc).1, (hname.chars c hc).2.1⟩
  · apply skipped_of_chars
    exact forall_mem_of_all (by decide)
  · apply skipped_of_chars
    exact forall_mem_of_all (by decide)

theorem skipped_render {entries : Entries} (h : entries.Clean) : Skipped entries.render := by
  induction entries with
  | nil => exact skipped_nil
  | file name content rest ih =>
    obtain ⟨hname, -, hcontent, hrest⟩ := h
    rw [Entries.render, hname.renderEntry_eq]
    exact (skipped_entry hname (skipped_of_chars fun c hc => ⟨(hcontent c hc).1, (hcontent c hc).2.1⟩)).append (ih hrest)
  | dir name sub rest ihsub ih =>
    obtain ⟨hname, -, hsub, hrest⟩ := h
    rw [Entries.render, hname.renderEntry_eq]
    exact (skipped_entry hname (ihsub hsub)).append (ih hrest)
  | other name rest ih =>
    obtain ⟨hname, -, hrest⟩ := h
    rw [Entries.render, hname.renderEntry_eq]
    exact (skipped_entry hname skipped_nil).append (ih hrest)

theorem FeatureNode.Clean.skipped {n : FeatureNode} (h : n.Clean) : Skipped n.body := by
  cases n with
  | file content => exact skipped_of_chars fun c hc => ⟨(h c hc).1, (h c hc).2.1⟩
  | dir entries => exact skipped_render h
  | other => exact skipped_nil

theorem scanName_le {name : Text} {i : ℕ} (hi : i ≤ comp.length) : scanName comp name i ≤ comp.length := by
  induction name generalizing i with
  | nil => exact hi
  | cons c name ih =>
    rw [scanName]
    apply ih
    by_cases hc : comp[i]? = some c
    · have hlt := (List.getElem?_eq_some_iff.mp hc).1
      grind
    · grind

theorem scanName_self {read token : Text} (hcomp : comp = read ++ token) : scanName comp token read.length = comp.length := by
  induction token generalizing read with
  | nil => simp [scanName, hcomp]
  | cons c token ih =>
    have hc : comp[read.length]? = some c := by simp [hcomp]
    have hnot : ¬ (read.length + 1 = comp.length ∧ token ≠ []) := by
      rintro ⟨hlen, hne⟩
      have hpos := length_pos_iff.mpr hne
      rw [hcomp, length_append, length_cons] at hlen
      omega
    have h := @ih (read ++ [c]) (by simp [hcomp])
    rw [length_append] at h
    simp only [scanName, hc, if_true]
    rw [if_neg hnot]
    exact h

theorem caught_self (comp : Text) : Caught comp comp := @scanName_self comp [] comp rfl

theorem findComponent_token {token rest : Text} {i : ℕ} (hcomp : CleanComponent comp)
    (htoken : ∀ c ∈ token, isAscii c ∧ ¬ isBrace c ∧ ¬ isSpace c) (hrest : atBoundary rest) (hi : i < comp.length) :
    findComponent comp (token ++ rest) 0 i =
      if scanName comp token i = comp.length then some (rest, comp.length) else findComponent comp rest 0 (scanName comp token i) := by
  induction token generalizing i with
  | nil => rw [scanName, if_neg hi.ne, nil_append]
  | cons c token ih =>
    obtain ⟨hascii, hbrace, -⟩ := htoken c mem_cons_self
    have htail : ∀ c ∈ token, isAscii c ∧ ¬ isBrace c ∧ ¬ isSpace c := fun c' hc' => htoken c' (mem_cons_of_mem _ hc')
    have hboundary : ¬ atBoundary (token ++ rest) ↔ token ≠ [] := by
      cases token with
      | nil => simp [hrest]
      | cons c' token =>
        obtain ⟨-, hbrace', hspace'⟩ := htail c' mem_cons_self
        simp [atBoundary, hbrace', hspace']
    have hnext : nextIndex comp (token ++ rest) 0 i c = if (if comp[i]? = some c then i + 1 else 0) = comp.length ∧ token ≠ [] then 0
        else if comp[i]? = some c then i + 1 else 0 := by
      simp only [nextIndex, true_and, hboundary]
    rw [cons_append, findComponent_char hi hascii hbrace, hnext, scanName]
    by_cases hlt : (if (if comp[i]? = some c then i + 1 else 0) = comp.length ∧ token ≠ [] then 0
        else if comp[i]? = some c then i + 1 else 0) < comp.length
    · exact ih htail hlt
    · -- the whole component, at the end of the token
      have hpos := hcomp.length_pos
      have hend : (if comp[i]? = some c then i + 1 else 0) = comp.length ∧ token = [] := by grind
      obtain ⟨hfull, rfl⟩ := hend
      simp only [hfull, ne_eq, not_true_eq_false, and_false, if_false, nil_append, scanName, if_true]
      cases rest with
      | nil => rfl
      | cons c rest => rw [findComponent, if_pos (lt_irrefl _)]

def Closing (rest : Text) : Prop := rest = [] ∨ ∃ rest', rest = '}' :: rest'

theorem walkFrom_closing (hcomp : CleanComponent comp) {rest : Text} (hrest : Closing rest) : walkFrom comp rest = none := by
  rcases hrest with rfl | ⟨rest', rfl⟩
  · have hlen : (0 : ℕ) ≠ comp.length ∨ ¬ atBoundary [] := Or.inl hcomp.length_pos.ne
    rw [walkFrom, findComponent]
    exact if_pos hlen
  · rw [walkFrom, findComponent_end hcomp.length_pos]

theorem walkFrom_self {cur rest : Text} (hfind : findComponent comp cur 0 0 = some (rest, comp.length))
    (hrest : atBoundary rest) : walkFrom comp cur = skipToBrace rest := by
  rw [walkFrom, hfind]
  simp [hrest]

theorem findComponent_entry (hcomp : CleanComponent comp) {name body rest : Text} (hname : CleanName name) (hbody : Skipped body)
    (hlen : body.length + 1 < 2 ^ 32) :
    findComponent comp (entryText name body ++ rest) 0 0 =
      if Caught comp name then some (' ' :: '{' :: (body ++ '}' :: '\n' :: rest), comp.length) else findComponent comp rest 0 0 := by
  have hsplit : entryText name body ++ rest = name ++ (' ' :: '{' :: (body ++ ('}' :: '\n' :: rest))) := by simp [entryText]
  have hchars : ∀ c ∈ name, isAscii c ∧ ¬ isBrace c ∧ ¬ isSpace c :=
    fun c hc => ⟨(hname.chars c hc).1, (hname.chars c hc).2.1, (hname.chars c hc).2.2.1⟩
  rw [hsplit, findComponent_token hcomp hchars rfl hcomp.length_pos]
  by_cases hcaught : scanName comp name 0 = comp.length
  · have hcaught' : Caught comp name := hcaught
    rw [if_pos hcaught, if_pos hcaught']
  · have hcaught' : ¬ Caught comp name := hcaught
    have hj : scanName comp name 0 < comp.length := (scanName_le hcomp.length_pos.le).lt_of_ne hcaught
    rw [if_neg hcaught, if_neg hcaught', findComponent_miss hcomp hj rfl (by decide) (Or.inr rfl),
      findComponent_open hcomp hcomp.length_pos (by decide), hbody comp _ (0 + 1) hcomp (by omega) (by omega),
      findComponent_close hcomp, findComponent_miss hcomp hcomp.length_pos rfl (by decide) (Or.inr rfl)]

end Scan

theorem Entries.render_eq {entries : Entries} (h : entries.Clean) :
    entries.render = entries.nodes.flatMap fun e => entryText e.1 e.2.body := by
  induction entries with
  | nil => rfl
  | file name content rest ih | dir name sub rest _ ih =>
    rw [render, h.1.renderEntry_eq, ih h.2.2.2]
    rfl
  | other name rest ih =>
    rw [render, h.1.renderEntry_eq, ih h.2.2]
    rfl

theorem Entries.Clean.node {entries : Entries} (h : entries.Clean) {name : Text} {n : FeatureNode} (hn : (name, n) ∈ entries.nodes) :
    CleanName name ∧ n.Clean := by
  induction entries with
  | nil => exact nomatch hn
  | file name' content rest ih | dir name' sub rest _ ih =>
    rcases mem_cons.mp hn with he | hn
    · obtain ⟨rfl, rfl⟩ := mk.inj he
      exact ⟨h.1, h.2.2.1⟩
    · exact ih h.2.2.2 hn
  | other name' rest ih =>
    rcases mem_cons.mp hn with he | hn
    · obtain ⟨rfl, rfl⟩ := mk.inj he
      exact ⟨h.1, trivial⟩
    · exact ih h.2.2 hn

theorem Entries.Clean.nodup {entries : Entries} (h : entries.Clean) : (entries.nodes.map Prod.fst).Nodup := by
  induction entries with
  | nil => exact nodup_nil
  | file name content rest ih | dir name sub rest _ ih => exact nodup_cons.mpr ⟨h.2.1, ih h.2.2.2⟩
  | other name rest ih => exact nodup_cons.mpr ⟨h.2.1, ih h.2.2⟩

theorem Entries.Clean.node_unique {entries : Entries} (h : entries.Clean) {name : Text} {n n' : FeatureNode}
    (hn : (name, n) ∈ entries.nodes) (hn' : (name, n') ∈ entries.nodes) : n = n' :=
  congrArg snd (inj_on_of_nodup_map h.nodup hn hn' rfl)

theorem Entries.body_length_le {entries : Entries} (h : entries.Clean) {name : Text} {n : FeatureNode}
    (hn : (name, n) ∈ entries.nodes) : n.body.length ≤ entries.render.length := by
  obtain ⟨before, after, hsplit⟩ := append_of_mem hn
  rw [render_eq h, hsplit]
  simp only [flatMap_append, flatMap_cons, entryText, length_append]
  omega

def entriesText (nodes : List (Text × FeatureNode)) : Text := nodes.flatMap fun e => entryText e.1 e.2.body

theorem entriesText_append (before after : List (Text × FeatureNode)) :
    entriesText (before ++ after) = entriesText before ++ entriesText after := flatMap_append

theorem walkFrom_entries {comp : Text} (hcomp : CleanComponent comp) {nodes : List (Text × FeatureNode)} {rest : Text}
    (hnodes : ∀ e ∈ nodes, (CleanName e.1 ∧ e.2.Clean) ∧ ¬ Caught comp e.1) (hlen : (entriesText nodes).length < 2 ^ 32) :
    walkFrom comp (entriesText nodes ++ rest) = walkFrom comp rest := by
  induction nodes with
  | nil => rfl
  | cons e nodes ih =>
    obtain ⟨⟨hname, hclean⟩, hno⟩ := hnodes e mem_cons_self
    have hsplit : entriesText (e :: nodes) = entryText e.1 e.2.body ++ entriesText nodes := flatMap_cons
    rw [hsplit, length_append] at hlen
    have hbody : e.2.body.length + 1 < 2 ^ 32 := by
      simp only [entryText, length_append, length_cons, length_nil] at hlen
      omega
    have hskip := @findComponent_entry comp hcomp e.1 e.2.body (entriesText nodes ++ rest) hname hclean.skipped hbody
    rw [if_neg hno] at hskip
    rw [hsplit, append_assoc, ← ih (fun e' he' => hnodes e' (mem_cons_of_mem _ he')) (by omega), walkFrom, hskip]
    rfl

/-- The walk stops at the first entry that is taken for the component. -/
theorem walkFrom_caught {comp : Text} (hcomp : CleanComponent comp) {entries : Entries} (hclean : entries.Clean) {rest : Text}
    (hlen : entries.render.length < 2 ^ 32) {before after : List (Text × FeatureNode)} {name : Text} {n : FeatureNode}
    (hsplit : entries.nodes = before ++ (name, n) :: after) (hbefore : ∀ e ∈ before, ¬ Caught comp e.1)
    (hname : Caught comp name) :
    ∃ rest', walkFrom comp (entries.render ++ rest) = some ('{' :: (n.body ++ '}' :: rest')) := by
  have hmem : ∀ e ∈ before ++ (name, n) :: after, CleanName e.1 ∧ e.2.Clean := fun e he => hclean.node (hsplit ▸ he)
  have hself := hmem (name, n) (by simp)
  have htext : entries.render = entriesText before ++ (entryText name n.body ++ entriesText after) := by
    rw [Entries.render_eq hclean, hsplit, ← entriesText, entriesText_append]
    rfl
  rw [htext, length_append, length_append] at hlen
  have hbody : n.body.length + 1 < 2 ^ 32 := by
    simp only [entryText, length_append, length_cons, length_nil] at hlen
    omega
  have hfind := @findComponent_entry comp hcomp name n.body (entriesText after ++ rest) hself.1 hself.2.skipped hbody
  rw [if_pos hname] at hfind
  refine ⟨'\n' :: (entriesText after ++ rest), ?_⟩
  rw [htext, append_assoc, append_assoc,
    walkFrom_entries hcomp (fun e he => ⟨hmem e (mem_append_left _ he), hbefore e he⟩) (by omega), walkFrom_self hfind rfl]
  rfl

theorem walkFrom_absent {comp : Text} (hcomp : CleanComponent comp) {entries : Entries} (hclean : entries.Clean) {rest : Text}
    (hrest : Closing rest) (hlen : entries.render.length < 2 ^ 32) (hno : ∀ e ∈ entries.nodes, ¬ Caught comp e.1) :
    walkFrom comp (entries.render ++ rest) = none := by
  rw [Entries.render_eq hclean, ← entriesText] at hlen ⊢
  rw [walkFrom_entries hcomp (fun e he => ⟨hclean.node he, hno e he⟩) hlen]
  exact walkFrom_closing hcomp hrest

theorem walkFrom_entries_isSome {comp : Text} (hcomp : CleanComponent comp) {entries : Entries} (hclean : entries.Clean)
    {rest : Text} (hrest : Closing rest) (hlen : entries.render.length < 2 ^ 32) :
    (walkFrom comp (entries.render ++ rest)).isSome ↔ ∃ e ∈ entries.nodes, Caught comp e.1 := by
  by_cases hany : ∃ e ∈ entries.nodes, Caught comp e.1
  · have hfind : (entries.nodes.find? fun e => Caught comp e.1).isSome := by
      rw [find?_isSome]
      simpa using hany
    obtain ⟨⟨name, n⟩, he⟩ := Option.isSome_iff_exists.mp hfind
    obtain ⟨hname, before, after, hsplit, hbefore⟩ := find?_eq_some_iff_append.mp he
    obtain ⟨rest', hwalk⟩ := @walkFrom_caught comp hcomp entries hclean rest hlen before after name n hsplit
      (fun e he => by simpa using hbefore e he) (of_decide_eq_true hname)
    simp [hwalk, hany]
  · have hno : ∀ e ∈ entries.nodes, ¬ Caught comp e.1 := fun e he hc => hany ⟨e, he, hc⟩
    simp [walkFrom_absent hcomp hclean hrest hlen hno, hany]

/-- An entry of the name and those before it. -/
theorem Entries.split_own {entries : Entries} {comp : Text} {n : FeatureNode} (hclean : entries.Clean) (hn : (comp, n) ∈ entries.nodes) :
    ∃ after, entries.nodes = entries.nodes.takeWhile (fun e => e.1 ≠ comp) ++ (comp, n) :: after := by
  obtain ⟨before, after, hsplit⟩ := append_of_mem hn
  have hnodup := hclean.nodup
  rw [hsplit, map_append, nodup_append] at hnodup
  have hbefore : ∀ e ∈ before, decide (e.1 ≠ comp) = true := by
    intro e he
    rw [decide_eq_true_eq]
    exact hnodup.2.2 e.1 (mem_map.mpr ⟨e, he, rfl⟩) comp (by simp)
  refine ⟨after, ?_⟩
  rw [hsplit, takeWhile_append_of_pos hbefore, takeWhile_cons_of_neg (by simp), append_nil]

theorem skipToBrace_content {content rest : Text} (h : CleanContent content) :
    skipToBrace (content ++ '}' :: rest) = some ('}' :: rest) := by
  induction content with
  | nil => rfl
  | cons c content ih =>
    obtain ⟨hascii, hb, -⟩ := h c mem_cons_self
    rw [cons_append, skipToBrace, if_neg hb, if_neg (not_not.mpr hascii)]
    exact ih fun c' hc' => h c' (mem_cons_of_mem _ hc')

theorem tokens_append {word content : Text} {c : Char} (hc : isSpace c) :
    tokens (word ++ c :: content) = tokens word ++ tokens content := by
  rw [tokens, splitOnP_append_cons word content hc, filter_append]
  rfl

theorem mem_tokens_word {word t : Text} (hword : ∀ c ∈ word, ¬ isSpace c) : t ∈ tokens word ↔ t = word ∧ t ≠ [] := by
  rw [tokens, splitOnP_eq_singleton fun c hc => by simpa using hword c hc, mem_filter, mem_singleton]
  simp

theorem exists_word (content : Text) : ∃ word, (∀ c ∈ word, ¬ isSpace c) ∧
    (content = word ∨ ∃ c after, isSpace c ∧ content = word ++ c :: after) := by
  induction content with
  | nil => exact ⟨[], fun c hc => (nomatch hc), Or.inl rfl⟩
  | cons c content ih =>
    by_cases hc : isSpace c
    · exact ⟨[], fun c hc => (nomatch hc), Or.inr ⟨c, content, hc, rfl⟩⟩
    · obtain ⟨word, hword, hcases⟩ := ih
      refine ⟨c :: word, ?_, ?_⟩
      · intro c' hc'
        rcases mem_cons.mp hc' with rfl | hc'
        · exact hc
        · exact hword c' hc'
      · rcases hcases with rfl | ⟨c', after, hc', rfl⟩
        · exact Or.inl rfl
        · exact Or.inr ⟨c', after, hc', rfl⟩

theorem walkFrom_content {comp : Text} (hcomp : CleanComponent comp) {content rest : Text} (hcontent : CleanContent content) :
    walkFrom comp (content ++ '}' :: rest) = if ∃ t ∈ tokens content, Caught comp t then some ('}' :: rest) else none := by
  induction hn : content.length using Nat.strong_induction_on generalizing content with
  | _ n ih =>
    obtain ⟨word, hword, hcases⟩ := exists_word content
    have hstart : ∃ after, content = word ++ after := by
      rcases hcases with rfl | ⟨c, after, -, rfl⟩
      · exact ⟨[], (append_nil _).symm⟩
      · exact ⟨c :: after, rfl⟩
    obtain ⟨tail, rfl⟩ := hstart
    have hchars : ∀ c ∈ word, isAscii c ∧ ¬ isBrace c ∧ ¬ isSpace c := fun c hc =>
      ⟨(hcontent c (mem_append_left _ hc)).1, (hcontent c (mem_append_left _ hc)).2.1, hword c hc⟩
    have htail : CleanContent tail := fun c hc => hcontent c (mem_append_right _ hc)
    have htokens : tokens (word ++ tail) = tokens word ++ tokens tail.tail ∧ atBoundary (tail ++ '}' :: rest) := by
      rcases hcases with he | ⟨c, after, hc, he⟩
      · obtain rfl := append_cancel_left (he.trans (append_nil word).symm)
        exact ⟨by simp [tokens], rfl⟩
      · obtain rfl := append_cancel_left he
        exact ⟨tokens_append hc, by simp [atBoundary, hc]⟩
    obtain ⟨htokens, hboundary⟩ := htokens
    have hnil : ¬ Caught comp [] := hcomp.length_pos.ne
    have hfind := @findComponent_token comp word (tail ++ '}' :: rest) 0 hcomp hchars hboundary hcomp.length_pos
    rw [← append_assoc] at hfind
    by_cases hself : Caught comp word
    · have hmem : ∃ t ∈ tokens (word ++ tail), Caught comp t := by
        have hne : word ≠ [] := by
          rintro rfl
          exact hnil hself
        rw [htokens]
        exact ⟨word, mem_append_left _ ((mem_tokens_word hword).mpr ⟨rfl, hne⟩), hself⟩
      rw [if_pos (show scanName comp word 0 = comp.length from hself)] at hfind
      rw [if_pos hmem, walkFrom_self hfind hboundary]
      exact skipToBrace_content htail
    · have hj : scanName comp word 0 < comp.length := (scanName_le hcomp.length_pos.le).lt_of_ne hself
      have hnot : ¬ ∃ t ∈ tokens word, Caught comp t := by
        rintro ⟨t, ht, hcaught⟩
        rw [((mem_tokens_word hword).mp ht).1] at hcaught
        exact hself hcaught
      rw [if_neg (show ¬ scanName comp word 0 = comp.length from hself)] at hfind
      rcases hcases with hc | ⟨c, after, hc, hafter⟩
      · obtain rfl := append_cancel_left (hc.trans (append_nil word).symm)
        have hmem : ¬ ∃ t ∈ tokens (word ++ []), Caught comp t := by rwa [append_nil]
        rw [if_neg hmem, walkFrom, hfind, nil_append, findComponent_end hj]
      · obtain rfl := append_cancel_left hafter
        have hrest : walkFrom comp (word ++ c :: after ++ '}' :: rest) = walkFrom comp (after ++ '}' :: rest) := by
          rw [walkFrom, hfind, cons_append,
            findComponent_miss hcomp hj (htail c mem_cons_self).1 (htail c mem_cons_self).2.1 (Or.inr hc)]
          rfl
        have hlt : after.length < n := by
          rw [← hn]
          simp
          omega
        have hiff : (∃ t ∈ tokens (word ++ c :: after), Caught comp t) ↔ ∃ t ∈ tokens after, Caught comp t := by
          rw [htokens, tail_cons]
          simp only [mem_append, or_and_right, exists_or]
          exact or_iff_right hnot
        rw [hrest, ih after.length hlt (fun c' hc' => htail c' (mem_cons_of_mem _ hc')) rfl, if_congr hiff rfl rfl]

theorem walkFrom_file {comp : Text} {content rest : Text} (hcontent : CleanContent content) :
    walkFrom comp (content ++ '}' :: rest) = none ∨ walkFrom comp (content ++ '}' :: rest) = some ('}' :: rest) := by
  have hfind : ∀ i, findComponent comp (content ++ '}' :: rest) 0 i = none ∨
      ∃ after i', CleanContent after ∧ findComponent comp (content ++ '}' :: rest) 0 i = some (after ++ '}' :: rest, i') := by
    intro i
    induction content generalizing i with
    | nil =>
      by_cases hi : i < comp.length
      · exact Or.inl (findComponent_end hi)
      · refine Or.inr ⟨[], i, fun c hc => (nomatch hc), ?_⟩
        rw [nil_append, findComponent, if_pos hi]
    | cons c content ih =>
      obtain ⟨hascii, hbrace, -⟩ := hcontent c mem_cons_self
      by_cases hi : i < comp.length
      · rw [cons_append, findComponent_char hi hascii hbrace]
        exact ih (fun c' hc' => hcontent c' (mem_cons_of_mem _ hc')) _
      · refine Or.inr ⟨c :: content, i, hcontent, ?_⟩
        rw [cons_append, findComponent, if_pos hi]
  rw [walkFrom]
  rcases hfind 0 with he | ⟨after, i, hafter, he⟩
  · rw [he]
    exact Or.inl rfl
  · rw [he]
    dsimp only
    split_ifs
    · exact Or.inl rfl
    · exact Or.inr (skipToBrace_content hafter)

theorem agrees_iff_clear {p q : Prop} (h : q → p) : (p ↔ q) ↔ q ∨ ¬ p := by
  tauto

theorem walkEntries_agrees {c : Text} (hc : CleanComponent c) {cs : List Text} {entries : Entries} (hclean : entries.Clean)
    {rest : Text} (hrest : Closing rest) (hlen : entries.render.length < 2 ^ 32)
    (hdown : (FeatureNode.dir entries).Descends (c :: cs))
    (hbelow : ∀ n, (c, n) ∈ entries.nodes → n.Descends cs → ∀ rest,
      ((walkRest ('{' :: (n.body ++ '}' :: rest)) cs).isSome ↔ n.Names cs) ↔ n.LastClear cs) :
    (((walkFrom c (entries.render ++ rest)).bind fun str => walkRest str cs).isSome ↔
      (FeatureNode.dir entries).Names (c :: cs)) ↔ (FeatureNode.dir entries).LastClear (c :: cs) := by
  cases cs with
  | nil =>
    have hbind : ((walkFrom c (entries.render ++ rest)).bind fun str => walkRest str []).isSome ↔
        ∃ e ∈ entries.nodes, Caught c e.1 := by
      rw [← walkFrom_entries_isSome hc hclean hrest hlen]
      cases walkFrom c (entries.render ++ rest) <;> simp [walkRest]
    have hnames : (FeatureNode.dir entries).Names [c] ↔ ∃ n, (c, n) ∈ entries.nodes := by simp [FeatureNode.Names]
    have hcaught : (∃ n, (c, n) ∈ entries.nodes) → ∃ e ∈ entries.nodes, Caught c e.1 := by
      rintro ⟨n, hn⟩
      exact ⟨(c, n), hn, caught_self c⟩
    rw [hbind, hnames, agrees_iff_clear hcaught, FeatureNode.LastClear]
    simp
  | cons c' cs =>
    obtain ⟨hbefore, hdown⟩ := hdown
    rw [FeatureNode.Names, FeatureNode.LastClear]
    by_cases hmem : ∃ n, (c, n) ∈ entries.nodes
    · obtain ⟨n, hn⟩ := hmem
      obtain ⟨after, hsplit⟩ := entries.split_own hclean hn
      obtain ⟨rest', he⟩ := @walkFrom_caught c hc entries hclean rest hlen _ after c n hsplit hbefore (caught_self c)
      have hone : ∀ p : FeatureNode → Prop, (∃ n', (c, n') ∈ entries.nodes ∧ p n') ↔ p n := by
        refine fun p => ⟨?_, fun h => ⟨n, hn, h⟩⟩
        rintro ⟨n', hn', h⟩
        rwa [hclean.node_unique hn hn']
      have hall : (∀ n', (c, n') ∈ entries.nodes → n'.LastClear (c' :: cs)) ↔ n.LastClear (c' :: cs) := by
        refine ⟨fun h => h n hn, fun h n' hn' => ?_⟩
        rwa [← hclean.node_unique hn hn']
      rw [he, Option.bind_some, hone, hall]
      exact hbelow n hn (hdown n hn) rest'
    · have hnames : ∀ e ∈ entries.nodes, decide (e.1 ≠ c) = true := by
        rintro ⟨name, n⟩ hn
        rw [decide_eq_true_eq]
        rintro rfl
        exact hmem ⟨n, hn⟩
      rw [takeWhile_eq_self_iff.mpr hnames] at hbefore
      rw [walkFrom_absent hc hclean hrest hlen hbefore]
      simp [not_exists.mp hmem]

theorem walkRest_agrees {cs : List Text} (hcs : ∀ c ∈ cs, CleanComponent c) {n : FeatureNode} (hclean : n.Clean)
    (hlen : n.body.length < 2 ^ 32) (hdown : n.Descends cs) (rest : Text) :
    ((walkRest ('{' :: (n.body ++ '}' :: rest)) cs).isSome ↔ n.Names cs) ↔ n.LastClear cs := by
  induction cs generalizing n rest with
  | nil => simp [walkRest, FeatureNode.Names, FeatureNode.LastClear]
  | cons c cs ih =>
    have hc := hcs c mem_cons_self
    have hrest : ∀ c ∈ cs, CleanComponent c := fun c' hc' => hcs c' (mem_cons_of_mem _ hc')
    have hwalk : walkOne ('{' :: (n.body ++ '}' :: rest)) c false = walkFrom c (n.body ++ '}' :: rest) := by
      rw [walkOne, if_neg hc.nonempty]
      rfl
    rw [walkRest, hwalk]
    cases n with
    | other =>
      rw [FeatureNode.body, nil_append, walkFrom_closing hc (Or.inr ⟨rest, rfl⟩)]
      simp [FeatureNode.Names, FeatureNode.LastClear]
    | file content =>
      rw [FeatureNode.body, FeatureNode.Names]
      cases cs with
      | nil =>
        have hbind : ((walkFrom c (content ++ '}' :: rest)).bind fun str => walkRest str []).isSome ↔
            ∃ t ∈ tokens content, Caught c t := by
          rw [walkFrom_content hc hclean]
          split_ifs with h <;> simp [walkRest, h]
        have hcaught : c ∈ tokens content → ∃ t ∈ tokens content, Caught c t := fun h => ⟨c, h, caught_self c⟩
        rw [hbind, eq_self_iff_true, true_and, agrees_iff_clear hcaught, FeatureNode.LastClear]
        simp
      | cons c' cs =>
        -- the closing brace is no opening one
        have hstop : walkRest ('}' :: rest) (c' :: cs) = none := by
          have hc' := hrest c' mem_cons_self
          rw [walkRest, walkOne, if_neg hc'.nonempty]
          rfl
        rcases @walkFrom_file c content rest hclean with he | he
        · simp [he, FeatureNode.LastClear]
        · simp [he, hstop, FeatureNode.LastClear]
    | dir entries =>
      exact walkEntries_agrees hc hclean (Or.inr ⟨rest, rfl⟩) hlen hdown fun n hn hn' =>
        ih hrest (hclean.node hn).2 ((Entries.body_length_le hclean hn).trans_lt hlen) hn'

theorem mem_of_mem_splitOnP {p : Char → Bool} {s t : Text} {c : Char} (ht : t ∈ s.splitOnP p) (hc : c ∈ t) : c ∈ s := by
  induction s generalizing t with
  | nil =>
    rw [splitOnP_nil, mem_singleton] at ht
    rwa [ht] at hc
  | cons a s ih =>
    rw [splitOnP_cons_eq_if_modifyHead] at ht
    split_ifs at ht
    · rcases mem_cons.mp ht with rfl | ht
      · exact nomatch hc
      · exact mem_cons_of_mem _ (ih ht hc)
    · cases hs : s.splitOnP p with
      | nil =>
        rw [hs] at ht
        exact nomatch ht
      | cons u l =>
        rw [hs, modifyHead_cons] at ht
        rcases mem_cons.mp ht with rfl | ht
        · rcases mem_cons.mp hc with rfl | hc
          · exact mem_cons_self
          · exact mem_cons_of_mem _ (ih (hs ▸ mem_cons_self) hc)
        · exact mem_cons_of_mem _ (ih (hs ▸ mem_cons_of_mem _ ht) hc)

theorem CleanPath.component {path : Text} (h : CleanPath path) {c : Text} (hc : c ∈ pathComponents path) : CleanComponent c := by
  obtain ⟨hc, hne⟩ := mem_filter.mp hc
  exact ⟨by simpa using hne, fun a ha => h.chars a (mem_of_mem_splitOnP hc ha)⟩

theorem Entries.render_nul {entries : Entries} (h : entries.Clean) : ∀ c ∈ entries.render, c ≠ '\x00' := by
  have hentry : ∀ {name body : Text}, CleanName name → (∀ c ∈ body, c ≠ '\x00') → ∀ c ∈ renderEntry name body, c ≠ '\x00' := by
    intro name body hname hbody c hc
    rw [hname.renderEntry_eq, entryText] at hc
    simp only [mem_append, mem_cons, not_mem_nil, or_false] at hc
    rcases hc with ((hc | rfl | rfl) | hc) | rfl | rfl
    · exact (hname.chars c hc).2.2.2
    · decide
    · decide
    · exact hbody c hc
    · decide
    · decide
  induction entries with
  | nil => exact fun c hc => nomatch hc
  | file name content rest ih =>
    intro c hc
    rcases mem_append.mp hc with hc | hc
    · exact hentry h.1 (fun c hc => (h.2.2.1 c hc).2.2) c hc
    · exact ih h.2.2.2 c hc
  | dir name sub rest ihsub ih =>
    intro c hc
    rcases mem_append.mp hc with hc | hc
    · exact hentry h.1 (ihsub h.2.2.1) c hc
    · exact ih h.2.2.2 c hc
  | other name rest ih =>
    intro c hc
    rcases mem_append.mp hc with hc | hc
    · exact hentry h.1 (fun c hc => absurd hc not_mem_nil) c hc
    · exact ih h.2.2 c hc

/-- For the features in a directory and a path at whose components but the last nothing else is taken for them,
`aa_features_supports` says whether the path is there exactly if this is so at the last one too. -/
theorem featuresSupports_iff {entries : Entries} {features path : Text} (hload : loadFeaturesDir entries = some features)
    (hclean : entries.Clean) (hpath : CleanPath path) (hdown : (FeatureNode.dir entries).Descends (pathComponents path)) :
    (featuresSupports features path ↔ (FeatureNode.dir entries).Names (pathComponents path)) ↔
      (FeatureNode.dir entries).LastClear (pathComponents path) := by
  have hsize : entries.render.length < stringSize ∧ features = entries.render := by
    rw [loadFeaturesDir] at hload
    split_ifs at hload with h
    exact ⟨h, (Option.some.inj hload).symm⟩
  obtain ⟨hsize, rfl⟩ := hsize
  have hlen : entries.render.length < 2 ^ 32 := hsize.trans (by decide)
  have hstring : entries.render.takeWhile (· ≠ '\x00') = entries.render := by
    apply takeWhile_eq_self_iff.mpr
    intro c hc
    simpa using Entries.render_nul hclean c hc
  have htake : tokenizePathComponents path 32 = pathComponents path := take_of_length_le hpath.count.2
  have hcs : ∀ c ∈ pathComponents path, CleanComponent c := fun c hc => hpath.component hc
  rw [featuresSupports, featuresLookup, hstring, if_neg hpath.relative, htake]
  have hcount := hpath.count.1
  cases hcomps : pathComponents path with
  | nil => simp [hcomps] at hcount
  | cons c cs =>
    rw [hcomps] at hcs hdown
    have hc := hcs c mem_cons_self
    have hwalk : walkOne entries.render c true = walkFrom c (entries.render ++ []) := by
      rw [append_nil]
      simp [walkOne, hc.nonempty]
    dsimp only
    rw [hwalk]
    exact walkEntries_agrees hc hclean (Or.inl rfl) hlen hdown fun n hn hn' =>
      walkRest_agrees (fun c' hc' => hcs c' (mem_cons_of_mem _ hc')) (hclean.node hn).2
        ((Entries.body_length_le hclean hn).trans_lt hlen) hn'

/-- The entry `kcaps` ends with the component `caps` and the token `resend` with `send`. -/
def sampleEntries : Entries := .dir "caps".toList (.file "mask".toList "resend send\n".toList .nil) (.other "kcaps".toList .nil)

theorem sampleEntries_supported :
    featuresSupports sampleEntries.render "caps/mask/send".toList ↔
      (FeatureNode.dir sampleEntries).Names (pathComponents "caps/mask/send".toList) := by
  have hcomps : pathComponents "caps/mask/send".toList = ["caps".toList, "mask".toList, "send".toList] := by decide +kernel
  have hcaps : ∀ n, ("caps".toList, n) ∈ sampleEntries.nodes → n = .dir (.file "mask".toList "resend send\n".toList .nil) := by
    intro n hn
    rcases mem_cons.mp hn with he | hn
    · exact (mk.inj he).2
    · have hne : "caps".toList ≠ "kcaps".toList := by decide +kernel
      exact absurd (congrArg fst (mem_singleton.mp hn)) hne
  refine (featuresSupports_iff (by decide +kernel) ?_ ?_ ?_).mpr ?_
  · refine ⟨⟨by decide +kernel, forall_mem_of_all (by decide +kernel)⟩, by decide +kernel, ?_,
      ⟨by decide +kernel, forall_mem_of_all (by decide +kernel)⟩, by decide +kernel, trivial⟩
    exact ⟨⟨by decide +kernel, forall_mem_of_all (by decide +kernel)⟩, by decide +kernel,
      forall_mem_of_all (by decide +kernel), trivial⟩
  · exact ⟨by decide +kernel, by decide +kernel, forall_mem_of_all (by decide +kernel)⟩
  · rw [hcomps]
    refine ⟨?_, fun n hn => ?_⟩
    · have hbefore : (sampleEntries.nodes.takeWhile fun e => e.1 ≠ "caps".toList) = [] := rfl
      rw [hbefore]
      exact fun e he => absurd he not_mem_nil
    · rw [hcaps n hn]
      have hbefore : ((Entries.file "mask".toList "resend send\n".toList .nil).nodes.takeWhile fun e => e.1 ≠ "mask".toList) = [] := rfl
      refine ⟨?_, fun n hn => trivial⟩
      rw [hbefore]
      exact fun e he => absurd he not_mem_nil
  · rw [hcomps]
    intro n hn
    rw [hcaps n hn]
    intro n hn
    rw [(mk.inj (mem_singleton.mp hn)).2]
    exact Or.inl (by decide +kernel)

theorem features_suffix_supported :
    let entries : Entries := .dir "foobar".toList .nil .nil
    loadFeaturesDir entries = some "foobar \x7b\x7d\n".toList ∧ featuresSupports "foobar \x7b\x7d\n".toList "bar".toList ∧
      ¬ (FeatureNode.dir entries).Names (pathComponents "bar".toList) := by
  have hcomps : pathComponents "bar".toList = ["bar".toList] := by decide +kernel
  refine ⟨by decide +kernel, by decide +kernel, ?_⟩
  rw [hcomps]
  rintro ⟨n, hn, -⟩
  have hnames : "bar".toList ∉ ["foobar".toList] := by decide +kernel
  have hmem : "bar".toList ∈ (Entries.dir "foobar".toList .nil .nil).nodes.map fst := mem_map.mpr ⟨_, hn, rfl⟩
  exact hnames hmem

end AppArmor

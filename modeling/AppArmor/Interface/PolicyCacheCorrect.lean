import AppArmor.Interface.PolicyCache

namespace AppArmor

open List

def InOrder (entries : List (ℕ × Text)) : Prop := entries.Pairwise fun e e' => e.2 < e'.2

/-- By how much `max_size` grows when the names of a directory that are not yet there are put in. -/
def growth (seen : List Text) : List Text → ℕ
  | [] => 0
  | name :: rest => (if name ∈ seen then 0 else max (rest.length + 1) 32) + growth seen rest

theorem growth_congr {seen seen' list : List Text} (h : ∀ name ∈ list, name ∈ seen ↔ name ∈ seen') :
    growth seen list = growth seen' list := by
  induction list with
  | nil => rfl
  | cons name rest ih =>
    rw [growth, growth, ih fun x hx => h x (mem_cons_of_mem _ hx), if_congr (h name mem_cons_self) rfl rfl]

section Merge

variable {sizeAt maxSizeAt : ℕ} {alloc : ℕ → Bool} {o : Overlay}

theorem insertEntry_grow (hgrow : maxSizeAt ≤ sizeAt + sizeofInt) (halloc : ∀ n, alloc n) (hsize : o.entries.length ≤ o.maxSize)
    (pos : ℕ) {remaining : ℕ} (hmax : o.maxSize + max remaining 32 ≤ intMax) (dirfd : ℕ) (name : Text) :
    ∃ o', insertEntry sizeAt maxSizeAt alloc o pos remaining dirfd name = .ok o' ∧
      o'.entries = o.entries.take pos ++ (dirfd, name) :: o.entries.drop pos ∧ o'.entries.length ≤ o'.maxSize ∧
      o'.maxSize = o.maxSize + max remaining 32 := by
  have hroom : ¬ o.maxSize + max remaining 32 ≤ o.entries.length + 1 := by omega
  refine ⟨⟨o.entries.take pos ++ (dirfd, name) :: o.entries.drop pos, o.maxSize + max remaining 32, o.maxSize + max remaining 32⟩,
    ?_, rfl, ?_, rfl⟩
  · simp [insertEntry, hgrow, halloc, hroom, not_lt.mpr hmax]
  · simp only [length_append, length_cons, length_take, length_drop]
    omega

theorem insertEntry_overflow {remaining : ℕ} (hmax : intMax < o.maxSize + max remaining 32) (pos dirfd : ℕ) (name : Text) :
    insertEntry sizeAt maxSizeAt alloc o pos remaining dirfd name = .fault := if_pos hmax

theorem insertEntry_fault (hgrow : ¬ maxSizeAt ≤ sizeAt + sizeofInt) (h : o.allocated = 0) (pos remaining dirfd : ℕ) (name : Text) :
    insertEntry sizeAt maxSizeAt alloc o pos remaining dirfd name = .fault := by
  simp [insertEntry, hgrow, h]

theorem mergeDir_insert {dirfd y : ℕ} {name : Text} {rest : List Text} (hlt : ¬ ∃ e ∈ o.entries[y]?, e.2 < name)
    (heq : ¬ ∃ e ∈ o.entries[y]?, e.2 = name) :
    mergeDir sizeAt maxSizeAt alloc dirfd o y (name :: rest) =
      (insertEntry sizeAt maxSizeAt alloc o y (rest.length + 1) dirfd name).bind fun o' =>
        mergeDir sizeAt maxSizeAt alloc dirfd o' (y + 1) rest := by
  rw [mergeDir, dif_neg hlt, if_neg heq]
  split
  · next o' hins => rw [hins, Outcome.bind]
  · next hins => rw [hins, Outcome.bind]
  · next hins => rw [hins, Outcome.bind]

theorem InOrder.insert {entries : List (ℕ × Text)} (h : InOrder entries) {y : ℕ} {x : ℕ × Text} (hbefore : ∀ e ∈ entries.take y, e.2 < x.2)
    (hafter : ∀ e ∈ entries.drop y, x.2 < e.2) : InOrder (entries.take y ++ x :: entries.drop y) := by
  unfold InOrder at h ⊢
  rw [← take_append_drop y entries, pairwise_append] at h
  obtain ⟨htake, hdrop, hboth⟩ := h
  rw [pairwise_append, pairwise_cons]
  refine ⟨htake, ⟨hafter, hdrop⟩, fun e he e' he' => ?_⟩
  rcases mem_cons.mp he' with rfl | he'
  · exact hbefore e he
  · exact hboth e he e' he'

theorem mem_insert {entries : List (ℕ × Text)} {y : ℕ} {x e : ℕ × Text} :
    e ∈ entries.take y ++ x :: entries.drop y ↔ e = x ∨ e ∈ entries := by
  conv_rhs => rw [← take_append_drop y entries]
  simp only [mem_append, mem_cons]
  tauto

/-- A directory is merged in, if `max_size` can grow by what this takes. -/
theorem mergeDir_spec (hgrow : maxSizeAt ≤ sizeAt + sizeofInt) (halloc : ∀ n, alloc n) (dirfd : ℕ) {y : ℕ} {list : List Text} (hy : y ≤ o.entries.length)
    (horder : InOrder o.entries) (hlist : list.Pairwise (· < ·)) (hbefore : ∀ e ∈ o.entries.take y, ∀ name ∈ list, e.2 < name)
    (hsize : o.entries.length ≤ o.maxSize) (hmax : o.maxSize ≤ intMax) :
    if o.maxSize + growth (o.entries.map Prod.snd) list ≤ intMax then
      ∃ o', mergeDir sizeAt maxSizeAt alloc dirfd o y list = .ok o' ∧ InOrder o'.entries ∧ o'.entries.length ≤ o'.maxSize ∧
        o'.maxSize = o.maxSize + growth (o.entries.map Prod.snd) list ∧
        ∀ e, e ∈ o'.entries ↔ e ∈ o.entries ∨ e.1 = dirfd ∧ e.2 ∈ list ∧ ∀ e' ∈ o.entries, e'.2 ≠ e.2
    else mergeDir sizeAt maxSizeAt alloc dirfd o y list = .fault := by
  induction hn : o.entries.length - y + list.length using Nat.strong_induction_on generalizing o y list with
  | _ n ih =>
    cases list with
    | nil =>
      rw [growth, Nat.add_zero, if_pos hmax, mergeDir]
      exact ⟨o, rfl, horder, hsize, rfl, fun e => by simp⟩
    | cons name rest =>
      obtain ⟨hname, hrest⟩ := List.pairwise_cons.mp hlist
      have hstep : ∀ e ∈ o.entries[y]?, ∀ e' ∈ o.entries.take (y + 1), e' ∈ o.entries.take y ∨ e' = e := by
        intro e he e' he'
        rw [List.take_add_one, Option.mem_def.mp he] at he'
        simpa using he'
      by_cases hlt : ∃ e ∈ o.entries[y]?, e.2 < name
      · rw [mergeDir, dif_pos hlt]
        obtain ⟨e, he, hename⟩ := hlt
        have hy' : y < o.entries.length := (List.getElem?_eq_some_iff.mp he).1
        rw [List.length_cons] at hn
        apply ih (o.entries.length - (y + 1) + (name :: rest).length) (by rw [List.length_cons]; omega) hy' horder hlist _ hsize hmax rfl
        intro e' he' name' hname'
        rcases hstep e he e' he' with he' | rfl
        · exact hbefore e' he' name' hname'
        · rcases List.mem_cons.mp hname' with rfl | hname'
          · exact hename
          · exact hename.trans (hname name' hname')
      · by_cases heq : ∃ e ∈ o.entries[y]?, e.2 = name
        · rw [mergeDir, dif_neg hlt, if_pos heq]
          obtain ⟨e, he, rfl⟩ := heq
          have hy' : y < o.entries.length := (List.getElem?_eq_some_iff.mp he).1
          have hmem : e ∈ o.entries := List.mem_of_getElem? he
          have hseen : e.2 ∈ o.entries.map Prod.snd := mem_map_of_mem hmem
          rw [List.length_cons] at hn
          have hrun := ih (o.entries.length - (y + 1) + rest.length) (by omega) hy' horder hrest
            (by
              intro e' he' name' hname'
              rcases hstep e he e' he' with he' | rfl
              · exact hbefore e' he' name' (List.mem_cons_of_mem _ hname')
              · exact hname name' hname') hsize hmax rfl
          rw [growth, if_pos hseen, Nat.zero_add]
          split_ifs at hrun ⊢
          · obtain ⟨o', hrun, horder', hsize', hmax', hentries⟩ := hrun
            refine ⟨o', hrun, horder', hsize', hmax', fun x => ?_⟩
            rw [hentries]
            constructor
            · rintro (hx | ⟨hd, hx, hnew⟩)
              · exact Or.inl hx
              · exact Or.inr ⟨hd, List.mem_cons_of_mem _ hx, hnew⟩
            · rintro (hx | ⟨hd, hx, hnew⟩)
              · exact Or.inl hx
              · rcases List.mem_cons.mp hx with hx | hx
                · exact absurd hx.symm (hnew e hmem)
                · exact Or.inr ⟨hd, hx, hnew⟩
          · exact hrun
        · have hafter : ∀ e ∈ o.entries.drop y, name < e.2 := by
            intro e he
            cases hd : o.entries.drop y with
            | nil =>
              rw [hd] at he
              cases he
            | cons e₀ after =>
              have hget : e₀ ∈ o.entries[y]? := by
                rw [Option.mem_def, ← List.head?_drop, hd]
                rfl
              have hname₀ : name < e₀.2 :=
                lt_of_le_of_ne (not_lt.mp fun h => hlt ⟨e₀, hget, h⟩) fun h => heq ⟨e₀, hget, h.symm⟩
              have hdrop := List.Pairwise.sublist (List.drop_sublist y o.entries) horder
              rw [hd] at he hdrop
              rcases List.mem_cons.mp he with rfl | he
              · exact hname₀
              · exact hname₀.trans ((List.pairwise_cons.mp hdrop).1 e he)
          have hname' : ∀ e ∈ o.entries.take y, e.2 < name := fun e he => hbefore e he name List.mem_cons_self
          have hnew : ∀ e ∈ o.entries, e.2 ≠ name := by
            intro e he
            rw [← List.take_append_drop y o.entries, List.mem_append] at he
            rcases he with he | he
            · exact (hname' e he).ne
            · exact (hafter e he).ne'
          have hfree : name ∉ o.entries.map Prod.snd := by
            intro hmem
            obtain ⟨e, he, rfl⟩ := mem_map.mp hmem
            exact hnew e he rfl
          rw [growth, if_neg hfree]
          by_cases hroom : o.maxSize + max (rest.length + 1) 32 ≤ intMax
          swap
          · rw [if_neg (by omega), mergeDir_insert hlt heq, insertEntry_overflow (not_le.mp hroom)]
            rfl
          obtain ⟨o₁, hins, hentries₁, hsize₁, hmax₁⟩ :=
            @insertEntry_grow sizeAt maxSizeAt alloc o hgrow halloc hsize y (rest.length + 1) hroom dirfd name
          have hlen₁ := insertEntry_length hins
          have hgrowth : growth (o₁.entries.map Prod.snd) rest = growth (o.entries.map Prod.snd) rest := by
            refine growth_congr fun x hx => ?_
            simp only [mem_map, hentries₁, mem_insert]
            constructor
            · rintro ⟨e, rfl | he, rfl⟩
              · exact absurd rfl (hname _ hx).ne
              · exact ⟨e, he, rfl⟩
            · rintro ⟨e, he, rfl⟩
              exact ⟨e, Or.inr he, rfl⟩
          rw [List.length_cons] at hn
          have hrun := @ih (o₁.entries.length - (y + 1) + rest.length) (by omega) o₁ (y + 1) rest
            (by omega) (hentries₁ ▸ horder.insert hname' hafter) hrest
            (by
              intro e he x hx
              rw [hentries₁, List.take_append, List.take_of_length_le (by simp), List.length_take, min_eq_left hy] at he
              simp only [Nat.add_sub_cancel_left, List.take_succ_cons, List.take_zero, List.mem_append, List.mem_singleton] at he
              rcases he with he | rfl
              · exact hbefore e he x (List.mem_cons_of_mem _ hx)
              · exact hname x hx) hsize₁ (hmax₁ ▸ hroom) rfl
          rw [hgrowth, hmax₁, Nat.add_assoc] at hrun
          rw [mergeDir_insert hlt heq, hins, Outcome.bind]
          split_ifs at hrun ⊢
          · obtain ⟨o', hrun, horder', hsize', hmax', hentries⟩ := hrun
            refine ⟨o', hrun, horder', hsize', hmax', fun x => ?_⟩
            rw [hentries, hentries₁, mem_insert]
            constructor
            · rintro ((rfl | hx) | ⟨hd, hx, hfree⟩)
              · exact Or.inr ⟨rfl, List.mem_cons_self, hnew⟩
              · exact Or.inl hx
              · exact Or.inr ⟨hd, List.mem_cons_of_mem _ hx, fun e he => hfree e (mem_insert.mpr (Or.inr he))⟩
            · rintro (hx | ⟨hd, hx, hfree⟩)
              · exact Or.inl (Or.inr hx)
              · rcases List.mem_cons.mp hx with hx | hx
                · exact Or.inl (Or.inl (Prod.ext hd hx))
                · refine Or.inr ⟨hd, hx, fun e he => ?_⟩
                  rcases mem_insert.mp he with rfl | he
                  · exact (hname x.2 hx).ne
                  · exact hfree e he
          · exact hrun

end Merge

def layerNames (names : List Text) : List Text := names.filter fun name => name ≠ ['.'] ∧ name ≠ ['.', '.']

theorem readdirfd_pairwise {names : List Text} (h : names.Nodup) : (readdirfd names).Pairwise (· < ·) := by
  have hnodup : (readdirfd names).Nodup := (perm_insertionSort _ _).nodup_iff.mpr (h.filter _)
  have hle : (readdirfd names).Pairwise (· ≤ ·) := pairwise_insertionSort _ _
  exact (hle.and hnodup).imp fun hab => lt_of_le_of_ne hab.1 hab.2

theorem mem_readdirfd {names : List Text} {name : Text} : name ∈ readdirfd names ↔ name ∈ layerNames names :=
  (perm_insertionSort _ _).mem_iff

def Topmost (layers : List (List Text)) (e : ℕ × Text) : Prop :=
  (∃ names, layers[e.1]? = some names ∧ e.2 ∈ layerNames names) ∧
    ∀ j < e.1, ∀ names, layers[j]? = some names → e.2 ∉ layerNames names

theorem exists_topmost {layers : List (List Text)} {name : Text}
    (h : ∃ i : ℕ, ∃ names, layers[i]? = some names ∧ name ∈ layerNames names) : ∃ i, Topmost layers (i, name) := by
  classical
  refine ⟨Nat.find h, Nat.find_spec h, fun j hj names hnames hmem => ?_⟩
  exact Nat.find_min h hj ⟨names, hnames, hmem⟩

theorem topmost_concat {layers : List (List Text)} {names : List Text} {e : ℕ × Text} :
    Topmost (layers ++ [names]) e ↔
      Topmost layers e ∨ e.1 = layers.length ∧ e.2 ∈ layerNames names ∧ ∀ e', Topmost layers e' → e'.2 ≠ e.2 := by
  have hold : ∀ j, j < layers.length → (layers ++ [names])[j]? = layers[j]? := fun j hj => List.getElem?_append_left hj
  constructor
  · rintro ⟨⟨names', hnames', hmem⟩, hfirst⟩
    by_cases hlt : e.1 < layers.length
    · refine Or.inl ⟨⟨names', by rwa [← hold _ hlt], hmem⟩, fun j hj names'' hnames'' => ?_⟩
      exact hfirst j hj names'' (by rwa [hold j (by omega)])
    · have hlen := (List.getElem?_eq_some_iff.mp hnames').1
      have he : e.1 = layers.length := by
        rw [List.length_append, List.length_singleton] at hlen
        omega
      rw [he, List.getElem?_concat_length] at hnames'
      obtain rfl := Option.some.inj hnames'
      refine Or.inr ⟨he, hmem, ?_⟩
      rintro e' ⟨⟨names'', hnames'', hmem'⟩, -⟩ heq
      have hlt' := (List.getElem?_eq_some_iff.mp hnames'').1
      exact hfirst e'.1 (by omega) names'' (by rwa [hold _ hlt']) (heq ▸ hmem')
  · rintro (⟨⟨names', hnames', hmem⟩, hfirst⟩ | ⟨he, hmem, hfree⟩)
    · have hlt := (List.getElem?_eq_some_iff.mp hnames').1
      refine ⟨⟨names', by rwa [hold _ hlt], hmem⟩, fun j hj names'' hnames'' => ?_⟩
      exact hfirst j hj names'' (by rwa [← hold j (by omega)])
    · refine ⟨⟨names, by rw [he, List.getElem?_concat_length], hmem⟩, fun j hj names'' hnames'' hmem'' => ?_⟩
      rw [hold j (by omega)] at hnames''
      obtain ⟨i, hi⟩ := exists_topmost ⟨j, names'', hnames'', hmem''⟩
      exact hfree _ hi rfl

/-- By how much it grows for all the directories. -/
def totalGrowth (seen : List Text) : List (List Text) → ℕ
  | [] => 0
  | names :: layers => growth seen (readdirfd names) + totalGrowth (seen ++ layerNames names) layers

theorem totalGrowth_congr {seen seen' : List Text} {layers : List (List Text)} (h : ∀ name, name ∈ seen ↔ name ∈ seen') :
    totalGrowth seen layers = totalGrowth seen' layers := by
  induction layers generalizing seen seen' with
  | nil => rfl
  | cons names layers ih =>
    rw [totalGrowth, totalGrowth, growth_congr fun name _ => h name, ih fun name => ?_]
    rw [mem_append, mem_append, h]

theorem mergeLayers_spec {sizeAt maxSizeAt : ℕ} {alloc : ℕ → Bool} (hgrow : maxSizeAt ≤ sizeAt + sizeofInt) (halloc : ∀ n, alloc n)
    {layers before : List (List Text)} (hnodup : ∀ l ∈ layers, l.Nodup) {o : Overlay} (horder : InOrder o.entries)
    (hsize : o.entries.length ≤ o.maxSize) (hmax : o.maxSize ≤ intMax) (hentries : ∀ e, e ∈ o.entries ↔ Topmost before e) :
    if o.maxSize + totalGrowth (o.entries.map Prod.snd) layers ≤ intMax then
      ∃ o', mergeLayers sizeAt maxSizeAt alloc o before.length (layers.map some) = .ok o' ∧ InOrder o'.entries ∧
        ∀ e, e ∈ o'.entries ↔ Topmost (before ++ layers) e
    else mergeLayers sizeAt maxSizeAt alloc o before.length (layers.map some) = .fault := by
  induction layers generalizing o before with
  | nil =>
    rw [totalGrowth, Nat.add_zero, if_pos hmax]
    exact ⟨o, rfl, horder, by rwa [append_nil]⟩
  | cons names layers ih =>
    have hdir := @mergeDir_spec sizeAt maxSizeAt alloc o hgrow halloc before.length 0 (readdirfd names) (Nat.zero_le _) horder
      (readdirfd_pairwise (hnodup names mem_cons_self)) (fun e he => by simp at he) hsize hmax
    rw [totalGrowth, map_cons, mergeLayers]
    by_cases hroom : o.maxSize + growth (o.entries.map Prod.snd) (readdirfd names) ≤ intMax
    swap
    · rw [if_neg hroom] at hdir
      rw [if_neg (by omega), hdir]
      rfl
    rw [if_pos hroom] at hdir
    obtain ⟨o₁, hrun, horder₁, hsize₁, hmax₁, hentries₁⟩ := hdir
    have hentries' : ∀ e, e ∈ o₁.entries ↔ Topmost (before ++ [names]) e := by
      intro e
      rw [hentries₁, topmost_concat, hentries, mem_readdirfd]
      simp only [hentries]
    have hseen : ∀ name, name ∈ o₁.entries.map Prod.snd ↔ name ∈ o.entries.map Prod.snd ++ layerNames names := by
      intro name
      simp only [mem_append, mem_map, hentries₁, mem_readdirfd]
      constructor
      · rintro ⟨e, he | ⟨-, he, -⟩, rfl⟩
        · exact Or.inl ⟨e, he, rfl⟩
        · exact Or.inr he
      · rintro (⟨e, he, rfl⟩ | hname)
        · exact ⟨e, Or.inl he, rfl⟩
        · by_cases hold : ∃ e ∈ o.entries, e.2 = name
          · obtain ⟨e, he, hname⟩ := hold
            exact ⟨e, Or.inl he, hname⟩
          · exact ⟨(before.length, name), Or.inr ⟨rfl, hname, fun e he hne => hold ⟨e, he, hne⟩⟩, rfl⟩
    have hrest := @ih (before ++ [names]) (fun l hl => hnodup l (mem_cons_of_mem _ hl)) o₁ horder₁ hsize₁ (hmax₁ ▸ hroom) hentries'
    rw [totalGrowth_congr hseen, hmax₁, Nat.add_assoc, length_append, length_singleton, append_assoc, singleton_append] at hrest
    rw [hrun, Outcome.bind]
    exact hrest

section HandOver

variable (stat : ℕ × Text → Option FileStat) (load : ℕ × Text → Bool)

def Wanted (e : ℕ × Text) : Bool :=
  (stat e).any fun st => st ≠ .symlink ∧ st ≠ .directory ∧ st ≠ .regular 0 ∧ isBlacklisted e.2 = 0

def HandedOver (entries handed : List (ℕ × Text)) (ok : Bool) : Prop :=
  ∃ seen rest, entries = seen ++ rest ∧ (∀ e ∈ seen, stat e ≠ none ∧ (Wanted stat e → load e)) ∧
    (ok = true ∧ rest = [] ∧ handed = seen.filter (Wanted stat) ∨
      ok = false ∧ ∃ e rest', rest = e :: rest' ∧
        (stat e = none ∧ handed = seen.filter (Wanted stat) ∨
          Wanted stat e ∧ load e = false ∧ handed = seen.filter (Wanted stat) ++ [e]))

variable {stat load}

theorem HandedOver.cons {e : ℕ × Text} {entries handed : List (ℕ × Text)} {ok : Bool} (h : HandedOver stat load entries handed ok)
    (hstat : stat e ≠ none) (hload : Wanted stat e → load e) :
    HandedOver stat load (e :: entries) (if Wanted stat e then e :: handed else handed) ok := by
  obtain ⟨seen, rest, rfl, hseen, hcases⟩ := h
  refine ⟨e :: seen, rest, rfl, ?_, ?_⟩
  · intro e' he'
    rcases mem_cons.mp he' with rfl | he'
    · exact ⟨hstat, hload⟩
    · exact hseen e' he'
  · rw [filter_cons]
    rcases hcases with ⟨hok, hrest, rfl⟩ | ⟨hok, e', rest', hrest, ⟨hnone, rfl⟩ | ⟨hwant, hfail, rfl⟩⟩
    · exact Or.inl ⟨hok, hrest, rfl⟩
    · exact Or.inr ⟨hok, e', rest', hrest, Or.inl ⟨hnone, rfl⟩⟩
    · refine Or.inr ⟨hok, e', rest', hrest, Or.inr ⟨hwant, hfail, ?_⟩⟩
      split_ifs <;> rfl

theorem forEach_handedOver (entries : List (ℕ × Text)) :
    HandedOver stat load entries (forEach stat load entries).1 (forEach stat load entries).2 := by
  induction entries with
  | nil => exact ⟨[], [], rfl, fun e he => (nomatch he), Or.inl ⟨rfl, rfl, rfl⟩⟩
  | cons e entries ih =>
    rw [forEach]
    cases hstat : stat e with
    | none => exact ⟨[], e :: entries, rfl, fun e he => (nomatch he), Or.inr ⟨rfl, e, entries, rfl, Or.inl ⟨hstat, rfl⟩⟩⟩
    | some st =>
      have hwant : Wanted stat e = replaceAllLoads e.2 st := by
        rw [Wanted, hstat, replaceAllLoads]
        cases st with
        | symlink => simp
        | regular size => cases size <;> simp
        | directory | other => simp
      dsimp only
      rw [← hwant]
      have hne : stat e ≠ none := by simp [hstat]
      by_cases hw : Wanted stat e
      · rw [if_pos hw]
        by_cases hload : load e
        · rw [if_pos hload]
          have hcons := ih.cons hne fun _ => hload
          rwa [if_pos hw] at hcons
        · rw [if_neg hload]
          refine ⟨[], e :: entries, rfl, fun e he => (nomatch he), Or.inr ⟨rfl, e, entries, rfl, Or.inr ⟨hw, ?_, rfl⟩⟩⟩
          simpa using hload
      · rw [if_neg hw]
        have hcons := ih.cons hne fun h => absurd h hw
        rwa [if_neg hw] at hcons

end HandOver

def ReplacesAll (stat : ℕ × Text → Option FileStat) (load : ℕ × Text → Bool) (layers : List (List Text)) (handed : List (ℕ × Text))
    (ok : Bool) : Prop :=
  ∃ entries, InOrder entries ∧ (∀ e, e ∈ entries ↔ Topmost layers e) ∧ HandedOver stat load entries handed ok

section NoGrowth

variable {sizeAt maxSizeAt : ℕ} {alloc : ℕ → Bool}

theorem mergeLayers_noGrowth (hgrow : ¬ maxSizeAt ≤ sizeAt + sizeofInt) (i : ℕ) (layers : List (List Text)) :
    mergeLayers sizeAt maxSizeAt alloc ⟨[], 0, 0⟩ i (layers.map some) =
      if ∀ l ∈ layers, layerNames l = [] then .ok ⟨[], 0, 0⟩ else .fault := by
  induction layers generalizing i with
  | nil => rfl
  | cons names layers ih =>
    rw [map_cons, mergeLayers]
    cases hnames : readdirfd names with
    | nil =>
      have hempty : layerNames names = [] := by
        apply eq_nil_iff_forall_not_mem.mpr
        intro name hname
        rw [← mem_readdirfd, hnames] at hname
        exact nomatch hname
      rw [mergeDir, Outcome.bind, ih]
      simp [hempty]
    | cons name rest =>
      have hne : layerNames names ≠ [] := by
        have hmem : name ∈ layerNames names := by rw [← mem_readdirfd, hnames]; exact mem_cons_self
        exact ne_nil_of_mem hmem
      have hfault := @insertEntry_fault sizeAt maxSizeAt alloc ⟨[], 0, 0⟩ hgrow rfl 0 (rest.length + 1) i name
      rw [mergeDir_insert (by simp) (by simp), hfault, Outcome.bind, Outcome.bind, if_neg]
      exact fun h => hne (h names mem_cons_self)

end NoGrowth

theorem totalGrowth_empty {layers : List (List Text)} (h : ∀ l ∈ layers, layerNames l = []) (seen : List Text) :
    totalGrowth seen layers = 0 := by
  induction layers generalizing seen with
  | nil => rfl
  | cons names layers ih =>
    have hnames : readdirfd names = [] := by
      apply eq_nil_iff_forall_not_mem.mpr
      intro name hname
      rw [mem_readdirfd, h names mem_cons_self] at hname
      exact not_mem_nil hname
    rw [totalGrowth, hnames, growth, ih fun l hl => h l (mem_cons_of_mem _ hl)]

theorem topmost_nil (e : ℕ × Text) : e ∈ ([] : List (ℕ × Text)) ↔ Topmost [] e := by
  refine ⟨fun h => (nomatch h), ?_⟩
  rintro ⟨⟨names, hnames, -⟩, -⟩
  exact nomatch hnames

theorem le_growth {list : List Text} : list.length * (list.length + 1) ≤ 2 * growth [] list := by
  induction list with
  | nil => exact Nat.zero_le _
  | cons name rest ih =>
    have hchunk : rest.length + 1 ≤ max (rest.length + 1) 32 := le_max_left _ _
    rw [growth, if_neg not_mem_nil, length_cons]
    nlinarith

/-- The files `a`, `aa`, `aaa` and so on. -/
def manyFiles (n : ℕ) : List Text := (List.range n).map fun i => replicate (i + 1) 'a'

theorem manyFiles_nodup (n : ℕ) : (manyFiles n).Nodup :=
  nodup_range.map fun i j h => by simpa using congrArg length h

theorem length_readdirfd_manyFiles (n : ℕ) : (readdirfd (manyFiles n)).length = n := by
  have hall : (manyFiles n).filter (fun name => name ≠ ['.'] ∧ name ≠ ['.', '.']) = manyFiles n := by
    refine filter_eq_self.mpr fun name hname => ?_
    obtain ⟨i, -, rfl⟩ := mem_map.mp hname
    simp [replicate_succ]
  rw [readdirfd, length_insertionSort, hall, manyFiles, length_map, length_range]

theorem replaceAll_overflow {n : ℕ} (hn : 2 * intMax < n * (n + 1)) (stat : ℕ × Text → Option FileStat) (load : ℕ × Text → Bool) :
    replaceAll stat load 1004 1000 (fun _ => true) [some (manyFiles n)] = .fault := by
  have hrun := @mergeLayers_spec 1004 1000 (fun _ => true) (by decide) (fun _ => rfl) [manyFiles n] []
    (by simpa using manyFiles_nodup n) ⟨[], 0, 0⟩ List.Pairwise.nil (Nat.zero_le _) (Nat.zero_le _) topmost_nil
  have hgrowth : ¬ 0 + totalGrowth [] [manyFiles n] ≤ intMax := by
    have hle := @le_growth (readdirfd (manyFiles n))
    rw [length_readdirfd_manyFiles] at hle
    rw [totalGrowth, totalGrowth]
    omega
  rw [map_nil, if_neg hgrowth] at hrun
  rw [replaceAll]
  exact congrArg (Outcome.bind · _) hrun

end AppArmor

import AppArmor.Utils.SeverityAcyclic

namespace AppArmor.Utils

open Fuel List Option

inductive ReadsAs : (found right : Option Text) → Prop
  | none : ReadsAs none none
  | some {m name} : ('}' ∉ m → m = name) → ReadsAs (some m) (some name)

theorem matchName_reads (s : Text) : ReadsAs (matchName s) (readName s) := by
  induction s with
  | nil => exact .none
  | cons c s ih =>
    unfold matchName readName
    by_cases hclose : c = '}'
    · subst hclose
      rw [if_neg (by decide), if_pos rfl]
      cases matchName s with
      | none => exact .some fun _ => rfl
      | some m => exact .some fun hm => absurd mem_cons_self hm
    · rw [if_neg hclose]
      split_ifs with hstop
      · exact .none
      · generalize matchName s = found at ih
        generalize readName s = right at ih
        cases ih with
        | none => exact .none
        | some hm =>
          refine .some fun hmem => ?_
          rw [hm fun h => hmem (mem_cons_of_mem _ h)]

theorem searchVariable_reads (p : Text) : ReadsAs (searchVariable p) (firstVariable p) := by
  induction p with
  | nil => exact .none
  | cons c s ih =>
    unfold searchVariable firstVariable
    split_ifs
    · have htail := matchName_reads s.tail
      generalize matchName s.tail = found at htail
      generalize readName s.tail = right at htail
      cases htail with
      | none => exact ih
      | some hm => exact .some hm
    · exact ih

structure Highest (defaultRank : Rank) (R : Set ℤ) (rank : Rank) : Prop where
  bound : ∀ n ∈ R, Rank.num n ≠ defaultRank → ∃ m, rank = .num m ∧ rank ≠ defaultRank ∧ n ≤ m
  attained : rank = defaultRank ∨ ∃ n ∈ R, rank = .num n

namespace Highest

variable {defaultRank rank rank' : Rank} {R R' : Set ℤ}

theorem empty (defaultRank : Rank) : Highest defaultRank ∅ defaultRank := ⟨fun n hn => absurd hn (Set.notMem_empty n), Or.inl rfl⟩

theorem take (h : Highest defaultRank R rank) (h' : Highest defaultRank R' rank') :
    Highest defaultRank (R ∪ R') (takeRank defaultRank rank rank') := by
  unfold takeRank
  by_cases hfirst : rank = defaultRank
  · rw [if_pos hfirst]
    refine ⟨fun n hn hdef => ?_, h'.attained.imp_right fun ⟨n, hn, he⟩ => ⟨n, Or.inr hn, he⟩⟩
    rcases hn with hn | hn
    · obtain ⟨m, -, hne, -⟩ := h.bound n hn hdef
      exact absurd hfirst hne
    · exact h'.bound n hn hdef
  rw [if_neg hfirst]
  obtain ⟨k, hk, rfl⟩ := h.attained.resolve_left hfirst
  by_cases hsecond : rank' = defaultRank
  · rw [if_neg fun hcon => hcon.1 hsecond]
    refine ⟨fun n hn hdef => ?_, Or.inr ⟨k, Or.inl hk, rfl⟩⟩
    rcases hn with hn | hn
    · exact h.bound n hn hdef
    · obtain ⟨m, -, hne, -⟩ := h'.bound n hn hdef
      exact absurd hsecond hne
  obtain ⟨k', hk', rfl⟩ := h'.attained.resolve_left hsecond
  have hleft : ∀ n ∈ R, Rank.num n ≠ defaultRank → n ≤ k := by
    intro n hn hdef
    obtain ⟨m, he, -, hle⟩ := h.bound n hn hdef
    cases he
    exact hle
  have hright : ∀ n ∈ R', Rank.num n ≠ defaultRank → n ≤ k' := by
    intro n hn hdef
    obtain ⟨m, he, -, hle⟩ := h'.bound n hn hdef
    cases he
    exact hle
  by_cases hgt : k < k'
  · rw [if_pos ⟨hsecond, decide_eq_true hgt⟩]
    refine ⟨fun n hn hdef => ⟨k', rfl, hsecond, ?_⟩, Or.inr ⟨k', Or.inr hk', rfl⟩⟩
    rcases hn with hn | hn
    · exact (hleft n hn hdef).trans hgt.le
    · exact hright n hn hdef
  · rw [if_neg fun hcon => hgt (of_decide_eq_true hcon.2)]
    refine ⟨fun n hn hdef => ⟨k, rfl, hfirst, ?_⟩, Or.inr ⟨k, Or.inl hk, rfl⟩⟩
    rcases hn with hn | hn
    · exact hleft n hn hdef
    · exact (hright n hn hdef).trans (not_lt.mp hgt)

theorem le_of_attained (h : Highest defaultRank R rank) (h' : Highest defaultRank R rank') (hne : rank ≠ defaultRank) :
    ∃ n m, rank = .num n ∧ rank' = .num m ∧ rank' ≠ defaultRank ∧ n ≤ m := by
  obtain ⟨n, hn, rfl⟩ := h.attained.resolve_left hne
  obtain ⟨m, he, hne', hle⟩ := h'.bound n hn hne
  exact ⟨n, m, rfl, he, hne', hle⟩

theorem unique (h : Highest defaultRank R rank) (h' : Highest defaultRank R rank') : rank = rank' := by
  by_cases hne : rank = defaultRank
  · by_contra hcon
    obtain ⟨n, m, -, -, hne', -⟩ := h'.le_of_attained h fun he => hcon (hne.trans he.symm)
    exact hne' hne
  · obtain ⟨n, m, rfl, rfl, hne', hle⟩ := h.le_of_attained h' hne
    obtain ⟨n', m', he, he', -, hle'⟩ := h'.le_of_attained h hne'
    cases he
    cases he'
    rw [le_antisymm hle hle']

theorem greatest_iff (h : Highest defaultRank R rank) :
    ((∃ n, IsGreatest R n ∧ rank = .num n) ∨ R = ∅ ∧ rank = defaultRank) ↔
      ¬∃ d, defaultRank = .num d ∧ IsGreatest R d ∧ ∃ n ∈ R, n < d := by
  constructor
  · rintro (⟨n, hn, rfl⟩ | ⟨hempty, -⟩) ⟨d, hd, hgreatest, k, hk, hlt⟩
    · obtain rfl := hn.unique hgreatest
      obtain ⟨m, -, hne, -⟩ := h.bound k hk fun he => by
        rw [hd] at he
        cases he
        exact lt_irrefl _ hlt
      exact hne hd.symm
    · rw [hempty] at hk
      exact hk
  · intro hno
    by_cases hdef : rank = defaultRank
    · have hall : ∀ n ∈ R, Rank.num n = defaultRank := by
        intro n hn
        by_contra hcon
        obtain ⟨m, -, hne, -⟩ := h.bound n hn hcon
        exact hne hdef
      rcases R.eq_empty_or_nonempty with hempty | ⟨n, hn⟩
      · exact Or.inr ⟨hempty, hdef⟩
      · refine Or.inl ⟨n, ⟨hn, fun k hk => ?_⟩, hdef.trans (hall n hn).symm⟩
        have he := (hall k hk).trans (hall n hn).symm
        cases he
        exact le_rfl
    · obtain ⟨n, hn, rfl⟩ := h.attained.resolve_left hdef
      have hbound : ∀ k ∈ R, Rank.num k ≠ defaultRank → k ≤ n := by
        intro k hk hne
        obtain ⟨m, he, -, hle⟩ := h.bound k hk hne
        cases he
        exact hle
      refine Or.inl ⟨n, ⟨hn, fun k hk => ?_⟩, rfl⟩
      by_cases hk' : Rank.num k = defaultRank
      · by_contra hlt
        refine hno ⟨k, hk'.symm, ⟨hk, fun j hj => ?_⟩, n, hn, not_le.mp hlt⟩
        by_cases hj' : Rank.num j = defaultRank
        · have he := hj'.trans hk'.symm
          cases he
          exact le_rfl
        · exact (hbound j hj hj').trans (not_le.mp hlt).le
      · exact hbound k hk hk'

end Highest

section Runs

variable {db : SeverityDb} {vars vars' : VariableMap} {mode p q name : Text} {values : List Text}

def ReadsRight (vars : VariableMap) (p : Text) : Prop := ∀ q, Reached vars p q → searchVariable q = firstVariable q

theorem reached_cases (h : Reached vars p q) : q = p ∨ ∃ p', Replaces vars p p' ∧ Reached vars p' q :=
  (Relation.ReflTransGen.cases_head h).imp_left Eq.symm

theorem readsRight_iff : ReadsRight vars p ↔ searchVariable p = firstVariable p ∧ ∀ q, Replaces vars p q → ReadsRight vars q := by
  constructor
  · intro h
    exact ⟨h p .refl, fun q hq r hr => h r (.head hq hr)⟩
  · rintro ⟨hp, hnext⟩ q hq
    rcases reached_cases hq with rfl | ⟨p', hp', hq⟩
    · exact hp
    · exact hnext p' hp' q hq

theorem databaseRanks_plain (hp : firstVariable p = none) :
    databaseRanks vars db mode p = {n | dbRank db mode p = some n} := by
  ext n
  constructor
  · rintro ⟨e, ⟨he, -⟩, hn⟩
    rcases reached_cases he with rfl | ⟨p', hp', -⟩
    · exact hn
    · obtain ⟨name, -, hname, -⟩ := replaces_iff.mp hp'
      rw [hp] at hname
      cases hname
  · exact fun hn => ⟨p, ⟨.refl, hp⟩, hn⟩

theorem databaseRanks_variable (hp : firstVariable p = some name) (hvalues : vars name = some values) :
    databaseRanks vars db mode p = ⋃ r ∈ values, databaseRanks vars db mode (variableReplace name r p) := by
  ext n
  simp only [Set.mem_iUnion, exists_prop]
  constructor
  · rintro ⟨e, ⟨he, hnone⟩, hn⟩
    rcases reached_cases he with rfl | ⟨p', hp', he⟩
    · rw [hp] at hnone
      cases hnone
    · obtain ⟨name', values', hname', hvalues', r, hr, rfl⟩ := replaces_iff.mp hp'
      rw [hp] at hname'
      cases hname'
      rw [hvalues] at hvalues'
      cases hvalues'
      exact ⟨r, hr, e, ⟨he, hnone⟩, hn⟩
  · rintro ⟨r, hr, e, ⟨he, hnone⟩, hn⟩
    exact ⟨e, ⟨.head (.mk hp hvalues hr) he, hnone⟩, hn⟩

def Ends (vars : VariableMap) (db : SeverityDb) (mode p : Text) (result : Except SeverityError Rank) : Prop :=
  (∃ rank, result = .ok rank ∧ ReadsRight vars p ∧ Highest db.defaultRank (databaseRanks vars db mode p) rank) ∨
    result = .error .keyError ∧ ¬ReadsRight vars p

variable {rankOf : ℕ → Text → Option (Except SeverityError Rank)} {rank : Rank} {result : Except SeverityError Rank}

theorem rankLoop_ok {r : Text} {rankNew : Rank}
    (h : Returns (fun fuel => rankOf fuel (variableReplace name r p)) (.ok rankNew))
    (hrest : Returns (fun fuel => rankLoop db (rankOf fuel) name p values (takeRank db.defaultRank rank rankNew)) result) :
    Returns (fun fuel => rankLoop db (rankOf fuel) name p (r :: values) rank) result := by
  obtain ⟨n, hn⟩ := h
  obtain ⟨m, hm⟩ := hrest
  refine ⟨max n m, fun fuel hle => ?_⟩
  dsimp only at hn ⊢
  rw [rankLoop, hn fuel ((le_max_left n m).trans hle)]
  exact hm fuel ((le_max_right n m).trans hle)

theorem rankLoop_error {r : Text} {e : SeverityError}
    (h : Returns (fun fuel => rankOf fuel (variableReplace name r p)) (.error e)) :
    Returns (fun fuel => rankLoop db (rankOf fuel) name p (r :: values) rank) (.error e) := by
  obtain ⟨n, hn⟩ := h
  refine ⟨n, fun fuel hle => ?_⟩
  dsimp only at hn ⊢
  rw [rankLoop, hn fuel hle]

theorem rankLoop_ends (hvalues : ∀ r ∈ values, ∃ result,
      Returns (fun fuel => handleVariableRank db vars mode fuel (variableReplace name r p)) result ∧
        Ends vars db mode (variableReplace name r p) result)
    {R : Set ℤ} (hrank : Highest db.defaultRank R rank) :
    (∃ rank', Returns (fun fuel => rankLoop db (handleVariableRank db vars mode fuel) name p values rank) (.ok rank') ∧
      (∀ r ∈ values, ReadsRight vars (variableReplace name r p)) ∧
      Highest db.defaultRank (R ∪ ⋃ r ∈ values, databaseRanks vars db mode (variableReplace name r p)) rank') ∨
    Returns (fun fuel => rankLoop db (handleVariableRank db vars mode fuel) name p values rank) (.error .keyError) ∧
      ∃ r ∈ values, ¬ReadsRight vars (variableReplace name r p) := by
  induction values generalizing R rank with
  | nil =>
    refine Or.inl ⟨rank, .pure _, fun r hr => absurd hr not_mem_nil, ?_⟩
    simpa using hrank
  | cons r values ih =>
    rw [forall_mem_cons] at hvalues
    obtain ⟨⟨result, hreturns, hends⟩, hvalues⟩ := hvalues
    rcases hends with ⟨rankNew, rfl, hreads, hnew⟩ | ⟨rfl, hwrong⟩
    · rcases ih hvalues (hrank.take hnew) with ⟨rank', hrest, hall, hhigh⟩ | ⟨hrest, r', hr', hwrong⟩
      · refine Or.inl ⟨rank', rankLoop_ok hreturns hrest, forall_mem_cons.mpr ⟨hreads, hall⟩, ?_⟩
        rw [Set.union_assoc] at hhigh
        simpa only [mem_cons, Set.iUnion_iUnion_eq_or_left] using hhigh
      · exact Or.inr ⟨rankLoop_ok hreturns hrest, r', mem_cons_of_mem _ hr', hwrong⟩
    · exact Or.inr ⟨rankLoop_error hreturns, r, mem_cons_self, hwrong⟩

theorem handleFile_highest (db : SeverityDb) (mode e : Text) :
    Highest db.defaultRank {n | dbRank db mode e = some n} (handleFile db mode e) := by
  unfold handleFile
  cases dbRank db mode e with
  | none => exact ⟨fun n hn => (by cases hn), Or.inl rfl⟩
  | some m =>
    refine ⟨fun n hn hdef => ?_, Or.inr ⟨m, rfl, rfl⟩⟩
    cases hn
    exact ⟨m, rfl, hdef, le_rfl⟩

theorem handleVariableRank_ends (hkeys : ∀ name values, vars name = some values → '}' ∉ name) (hp : Acyclic vars p) :
    ∃ result, Returns (fun fuel => handleVariableRank db vars mode fuel p) result ∧ Ends vars db mode p result := by
  induction hp with
  | @mk p hdefined hnext ih =>
    have hreads := searchVariable_reads p
    cases hfirst : firstVariable p with
    | none =>
      rw [hfirst] at hreads
      have hsearch : searchVariable p = none := by
        generalize searchVariable p = found at hreads
        cases hreads
        rfl
      have hnone : ∀ q, ¬Replaces vars p q := by
        intro q hq
        obtain ⟨name, -, hname, -⟩ := replaces_iff.mp hq
        rw [hfirst] at hname
        cases hname
      refine ⟨.ok (handleFile db mode p), .step ⟨0, fun fuel _ => ?_⟩, Or.inl ⟨_, rfl, ?_, ?_⟩⟩
      · dsimp only
        rw [handleVariableRank, hsearch]
      · exact readsRight_iff.mpr ⟨hsearch.trans hfirst.symm, fun q hq => absurd hq (hnone q)⟩
      · rw [databaseRanks_plain hfirst]
        exact handleFile_highest db mode p
    | some name =>
      obtain ⟨values, hvalues⟩ := ne_none_iff_exists'.mp (hdefined name hfirst)
      rw [hfirst] at hreads
      obtain ⟨m, hsearch, hm⟩ : ∃ m, searchVariable p = some m ∧ ('}' ∉ m → m = name) := by
        generalize searchVariable p = found at hreads
        cases hreads with
        | some hm => exact ⟨_, rfl, hm⟩
      have hreadsIff : ReadsRight vars p ↔
          m = name ∧ ∀ r ∈ values, ReadsRight vars (variableReplace name r p) := by
        rw [readsRight_iff, hsearch, hfirst, some.injEq]
        refine and_congr_right fun _ => ⟨fun h r hr => h _ (.mk hfirst hvalues hr), fun h q hq => ?_⟩
        obtain ⟨name', values', hname', hvalues', r, hr, rfl⟩ := replaces_iff.mp hq
        rw [hfirst] at hname'
        cases hname'
        rw [hvalues] at hvalues'
        cases hvalues'
        exact h r hr
      by_cases hname : m = name
      · subst hname
        have hstep := rankLoop_ends (fun r hr => ih _ (.mk hfirst hvalues hr)) (Highest.empty db.defaultRank)
        rw [Set.empty_union, ← databaseRanks_variable hfirst hvalues] at hstep
        have hloop {result : Except SeverityError Rank}
            (h : Returns (fun fuel => rankLoop db (handleVariableRank db vars mode fuel) m p values db.defaultRank) result) :
            Returns (fun fuel => handleVariableRank db vars mode fuel p) result := by
          refine .step (h.congr fun fuel => ?_)
          rw [handleVariableRank, hsearch]
          dsimp only
          rw [hvalues]
        rcases hstep with ⟨rank, hreturns, hall, hhigh⟩ | ⟨hreturns, r, hr, hwrong⟩
        · exact ⟨_, hloop hreturns, Or.inl ⟨rank, rfl, hreadsIff.mpr ⟨rfl, hall⟩, hhigh⟩⟩
        · exact ⟨_, hloop hreturns, Or.inr ⟨rfl, fun h => hwrong ((hreadsIff.mp h).2 r hr)⟩⟩
      · have hundefined : vars m = none := by
          by_contra hcon
          obtain ⟨values', hvalues'⟩ := ne_none_iff_exists'.mp hcon
          exact hname (hm (hkeys m values' hvalues'))
        refine ⟨.error .keyError, .step ⟨0, fun fuel _ => ?_⟩, Or.inr ⟨rfl, fun h => hname (hreadsIff.mp h).1⟩⟩
        dsimp only
        rw [handleVariableRank, hsearch]
        dsimp only
        rw [hundefined]

def SameValues (vars vars' : VariableMap) : Prop := ∀ name, (vars name).map List.toFinset = (vars' name).map List.toFinset

theorem SameValues.replaces (h : SameValues vars vars') (hpq : Replaces vars p q) : Replaces vars' p q := by
  obtain ⟨name, values, hname, hvalues, r, hr, rfl⟩ := replaces_iff.mp hpq
  have hsame := h name
  rw [hvalues, map_some] at hsame
  obtain ⟨values', hvalues', hset⟩ := map_eq_some_iff.mp hsame.symm
  refine .mk hname hvalues' (mem_toFinset.mp ?_)
  rw [hset]
  exact mem_toFinset.mpr hr

theorem SameValues.symm (h : SameValues vars vars') : SameValues vars' vars := fun name => (h name).symm

theorem SameValues.replaces_eq (h : SameValues vars vars') : Replaces vars = Replaces vars' := by
  funext p q
  exact propext ⟨h.replaces, h.symm.replaces⟩

theorem SameValues.acyclic (h : SameValues vars vars') (hp : Acyclic vars p) : Acyclic vars' p := by
  induction hp with
  | @mk p hdefined _ ih =>
    refine .mk (fun name hname hnone => hdefined name hname ?_) fun q hq => ih q (h.symm.replaces hq)
    have hsame := h name
    rw [hnone] at hsame
    exact map_eq_none_iff.mp hsame

theorem SameValues.ends (h : SameValues vars vars') : Ends vars db mode p = Ends vars' db mode p := by
  have hreached : Reached vars = Reached vars' := by
    unfold Reached
    rw [h.replaces_eq]
  unfold Ends ReadsRight databaseRanks FullExpansion
  rw [hreached]

theorem Ends.unique {result' : Except SeverityError Rank} (h : Ends vars db mode p result) (h' : Ends vars db mode p result') :
    result = result' := by
  rcases h with ⟨rank, rfl, hreads, hhigh⟩ | ⟨rfl, hwrong⟩
  · rcases h' with ⟨rank', rfl, -, hhigh'⟩ | ⟨-, hwrong⟩
    · rw [hhigh.unique hhigh']
    · exact absurd hreads hwrong
  · rcases h' with ⟨-, -, hreads, -⟩ | ⟨rfl, -⟩
    · exact absurd hreads hwrong
    · rfl

theorem Ends.highest_iff (h : Ends vars db mode p result) :
    (∃ rank, result = .ok rank ∧ HighestRank vars db mode p rank) ↔ ReadsRight vars p ∧
      ¬∃ d, db.defaultRank = .num d ∧ IsGreatest (databaseRanks vars db mode p) d ∧
        ∃ n ∈ databaseRanks vars db mode p, n < d := by
  rcases h with ⟨rank, rfl, hreads, hhigh⟩ | ⟨rfl, hwrong⟩
  · rw [← hhigh.greatest_iff]
    constructor
    · rintro ⟨rank', he, hrank⟩
      cases he
      exact ⟨hreads, hrank⟩
    · rintro ⟨-, hrank⟩
      exact ⟨rank, rfl, hrank⟩
  · constructor
    · rintro ⟨rank, he, -⟩
      cases he
    · exact fun h => absurd h.1 hwrong

theorem no_variable_of_no_at (hp : '@' ∉ p) : searchVariable p = none ∧ firstVariable p = none := by
  induction p with
  | nil => exact ⟨rfl, rfl⟩
  | cons c s ih =>
    rw [mem_cons, not_or] at hp
    unfold searchVariable firstVariable
    rw [if_neg fun h => hp.1 h.1.symm, if_neg fun h => hp.1 h.1.symm]
    exact ih hp.2

theorem rankPath_ends (hkeys : ∀ name values, vars name = some values → '}' ∉ name) (hp : Acyclic vars p)
    (hpath : '@' ∈ p ∨ p.head? = some '/') :
    ∃ result, Returns (fun fuel => rankPath db vars mode fuel p) result ∧ Ends vars db mode p result := by
  obtain ⟨result, hreturns, hends⟩ :
      ∃ result, Returns (fun fuel => handleVariableRank db vars mode fuel p) result ∧ Ends vars db mode p result :=
    handleVariableRank_ends hkeys hp
  by_cases hat : '@' ∈ p
  · refine ⟨result, hreturns.congr fun fuel => ?_, hends⟩
    rw [rankPath, if_pos hat]
  · have hfile : Returns (fun fuel => handleVariableRank db vars mode fuel p) (.ok (handleFile db mode p)) := by
      refine .step ⟨0, fun fuel _ => ?_⟩
      dsimp only
      rw [handleVariableRank, (no_variable_of_no_at hat).1]
    obtain rfl := hreturns.unique hfile
    refine ⟨_, ⟨0, fun fuel _ => ?_⟩, hends⟩
    dsimp only
    rw [rankPath, if_neg hat, if_pos (hpath.resolve_left hat)]

/-- The loop takes a rank that equals the default rank for none, and the regular expression may take more than a name. -/
theorem rankPath_highest_iff (hkeys : ∀ name values, vars name = some values → '}' ∉ name) (hp : Acyclic vars p)
    (hpath : '@' ∈ p ∨ p.head? = some '/') :
    (∀ vars', SameValues vars vars' → ∃ result, Returns (fun fuel => rankPath db vars mode fuel p) result ∧
      Returns (fun fuel => rankPath db vars' mode fuel p) result) ∧
    ((∃ rank, Returns (fun fuel => rankPath db vars mode fuel p) (.ok rank) ∧ HighestRank vars db mode p rank) ↔
      ReadsRight vars p ∧ ¬∃ d, db.defaultRank = .num d ∧ IsGreatest (databaseRanks vars db mode p) d ∧
        ∃ n ∈ databaseRanks vars db mode p, n < d) := by
  obtain ⟨result, hreturns, hends⟩ :
      ∃ result, Returns (fun fuel => rankPath db vars mode fuel p) result ∧ Ends vars db mode p result :=
    rankPath_ends hkeys hp hpath
  refine ⟨fun vars' hsame => ?_, ?_⟩
  · have hkeys' : ∀ name values, vars' name = some values → '}' ∉ name := by
      intro name values hvalues
      have hboth := hsame name
      rw [hvalues, map_some] at hboth
      obtain ⟨values', hvalues', -⟩ := map_eq_some_iff.mp hboth
      exact hkeys name values' hvalues'
    obtain ⟨result', hreturns', hends'⟩ :
        ∃ result, Returns (fun fuel => rankPath db vars' mode fuel p) result ∧ Ends vars' db mode p result :=
      rankPath_ends hkeys' (hsame.acyclic hp) hpath
    rw [← hsame.ends] at hends'
    obtain rfl := hends.unique hends'
    exact ⟨result, hreturns, hreturns'⟩
  · rw [← hends.highest_iff]
    refine exists_congr fun rank => and_congr_left fun _ => ⟨fun h => hreturns.unique h, ?_⟩
    rintro rfl
    exact hreturns

end Runs

def twoFiles (defaultRank : Rank) : SeverityDb where
  files := fun path => if path = ['a'] then some ⟨10, 0, 0⟩ else if path = ['b'] then some ⟨5, 0, 0⟩ else none
  regexps := .nil
  defaultRank := defaultRank
  search := fun _ _ => false

def oneVariable : VariableMap := fun name => if name = ['x'] then some [['/', 'a'], ['/', 'b']] else none

theorem oneVariable_keys : ∀ name values, oneVariable name = some values → '}' ∉ name := by
  intro name values h
  unfold oneVariable at h
  split_ifs at h with hname
  rw [hname]
  decide

theorem oneVariable_acyclic : Acyclic oneVariable (variableText ['x']) := by
  have hplain : ∀ q ∈ [PathPart.var ['x']], q.Plain := by
    intro q hq
    obtain rfl := mem_singleton.mp hq
    exact forall_mem_of_all (by decide)
  refine acyclic_of_ranked (fun _ => 0) (fun name texts htexts r hr => ?_) hplain fun m hm => ?_
  · unfold oneVariable at htexts
    split_ifs at htexts
    cases htexts
    have hat : ∀ r ∈ [['/', 'a'], ['/', 'b']], '@' ∉ r := forall_mem_of_all (by decide)
    obtain ⟨values, hr, hplain, hnames⟩ := parts_of_plain (hat r hr)
    refine ⟨values, hr, hplain, fun m hm => ?_⟩
    rw [hnames] at hm
    exact absurd hm not_mem_nil
  · obtain rfl := mem_singleton.mp hm
    exact some_ne_none _

theorem unknown_ranked : (∀ vars', SameValues oneVariable vars' → ∃ result,
      Returns (fun fuel => rankPath (twoFiles (.text "unknown".toList)) oneVariable ['r'] fuel (variableText ['x'])) result ∧
      Returns (fun fuel => rankPath (twoFiles (.text "unknown".toList)) vars' ['r'] fuel (variableText ['x'])) result) ∧
    ((∃ rank, Returns (fun fuel => rankPath (twoFiles (.text "unknown".toList)) oneVariable ['r'] fuel (variableText ['x']))
        (.ok rank) ∧ HighestRank oneVariable (twoFiles (.text "unknown".toList)) ['r'] (variableText ['x']) rank) ↔
      ReadsRight oneVariable (variableText ['x']) ∧ ¬∃ d, (twoFiles (.text "unknown".toList)).defaultRank = .num d ∧
        IsGreatest (databaseRanks oneVariable (twoFiles (.text "unknown".toList)) ['r'] (variableText ['x'])) d ∧
        ∃ n ∈ databaseRanks oneVariable (twoFiles (.text "unknown".toList)) ['r'] (variableText ['x']), n < d) :=
  rankPath_highest_iff oneVariable_keys oneVariable_acyclic (Or.inl (by decide))

/-- With the default rank 10, a path that can be the file of rank 10 gets the rank of the other one; and a variable before
the brace of an alternation is not found. -/
theorem default_rank_collides :
    rankPath (twoFiles (.num 10)) oneVariable ['r'] 2 (variableText ['x']) = some (.ok (.num 5)) ∧
      FullExpansion oneVariable (variableText ['x']) ['/', 'a'] ∧ dbRank (twoFiles (.num 10)) ['r'] ['/', 'a'] = some 10 ∧
      rankPath (twoFiles (.num 10)) oneVariable ['r'] 2 ('{' :: 'c' :: ',' :: (variableText ['x'] ++ ['}'])) =
        some (.error .keyError) := by
  have hreplaces : Replaces oneVariable (variableText ['x']) (variableReplace ['x'] ['/', 'a'] (variableText ['x'])) :=
    .mk (by decide) rfl mem_cons_self
  have ha : variableReplace ['x'] ['/', 'a'] (variableText ['x']) = ['/', 'a'] := by decide
  rw [ha] at hreplaces
  exact ⟨by decide, ⟨.single hreplaces, by decide⟩, by decide, by decide⟩

end AppArmor.Utils

import AppArmor.Lib.Dict
import AppArmor.Utils.Condition
import Mathlib

namespace AppArmor

open Fuel List

/-- The lines that `parse_block` tells apart inside a profile. A line that starts a child profile or a hat comes with the
name that `combine_profname` gives it, and an `else` says whether `}` stands before it and what its `if` asks. -/
inductive Line (ρ : Type)
  | rule (r : ρ)
  | profileStart (profname : Text)
  | profileEnd
  | conditionalStart (cond : Cond)
  | conditionalElse (close : Bool) (cond : Option Cond)

structure ProfileStorage (ρ : Type) where
  rules : List ρ
  inCond : Bool
  deriving DecidableEq

abbrev ProfileData (ρ : Type) := List (Text × ProfileStorage ρ)

inductive BlockError
  | definedTwice (profname : Text)
  | unexpectedElse
  | missingEnd (profile : Text)
  | badCondition
  | noStorage (profname : Text)
  deriving DecidableEq

structure ConditionalBlock (ρ : Type) where
  condList : List (Option Cond × ProfileData ρ)
  result : Bool

section Parser

variable {ρ : Type}

def ProfileStorage.fresh : ProfileStorage ρ := ⟨[], false⟩

def evaluateBranch (T : CondTable) : Option Cond → Option Bool
  | none => some true
  | some c => evaluateTree T c

namespace ConditionalBlock

def create (T : CondTable) (cond : Cond) : Option (ConditionalBlock ρ) :=
  (evaluateBranch T (some cond)).map fun result => ⟨[(some cond, [])], result⟩

def storeProfileData (block : ConditionalBlock ρ) (data : ProfileData ρ) : ConditionalBlock ρ :=
  { block with condList := block.condList.modify (block.condList.length - 1) fun e => (e.1, data) }

def addConditional (T : CondTable) (block : ConditionalBlock ρ) (cond : Option Cond) : Option (ConditionalBlock ρ) :=
  (evaluateBranch T cond).map fun result =>
    ⟨block.condList ++ [(cond, [])], if block.result then false else result⟩

end ConditionalBlock

structure BlockEnv where
  table : CondTable
  profile : Text
  doInclude : Bool

structure BlockState (ρ : Type) where
  profname : Text
  storage : ProfileStorage ρ
  profileData : ProfileData ρ
  conditionalBlock : Option (ConditionalBlock ρ)

def BlockState.start (profname : Text) (storage : ProfileStorage ρ) : BlockState ρ :=
  ⟨profname, storage, [(profname, storage)], none⟩

def BlockState.addRule (s : BlockState ρ) (r : ρ) : BlockState ρ :=
  let storage := (s.profileData.lookup s.profname).getD s.storage
  { s with profileData := setItem s.profileData s.profname { storage with rules := storage.rules ++ [r] } }

def BlockState.addProfile (s : BlockState ρ) (profile name : Text) (ret : ProfileData ρ) (inIf : Bool) : BlockState ρ :=
  let child := (ret.lookup name).getD .fresh
  let merged := ret.foldl (fun d e => setItem d e.1 e.2) (setItem s.profileData name .fresh)
  { s with profname := profile, storage := child,
           profileData := setItem merged name { child with inCond := inIf } }

def register (profileData : ProfileData ρ) : ProfileData ρ → Except BlockError (ProfileData ρ)
  | [] => .ok profileData
  | (name, storage) :: ret =>
    if storage.inCond then
      if (profileData.lookup name).isSome then .error (.definedTwice name)
      else register (setItem profileData name storage) ret
    else register profileData ret

def openElse : List (Line ρ) → List (Line ρ)
  | .conditionalElse true cond :: rest => .conditionalElse false cond :: rest
  | data => data

def thenOk {ε α β : Type} (r : Option (Except ε α)) (f : α → Option (Except ε β)) : Option (Except ε β) :=
  r.bind fun
    | .error e => some (.error e)
    | .ok a => f a

/-- `parse_conditional`, where `parse` is the call of `parse_block`. A place in the file is the list of its lines from
there on. -/
def parseConditional (parse : BlockState ρ → List (Line ρ) → Option (Except BlockError (List (Line ρ) × ProfileData ρ × Bool)))
    (s : BlockState ρ) (block : ConditionalBlock ρ) (data : List (Line ρ)) :
    Option (Except BlockError (BlockState ρ × List (Line ρ))) :=
  if (s.profileData.lookup s.profname).isNone then some (.error (.noStorage s.profname))
  else
    thenOk (parse (.start s.profname .fresh) data) fun parsed =>
      let rest := parsed.1
      let ret := parsed.2.1
      let endOfBlock := parsed.2.2
      thenOk (some (if block.result then register s.profileData ret else .ok s.profileData)) fun profileData =>
        if endOfBlock then some (.ok ({ s with profileData := profileData, conditionalBlock := none }, rest))
        else
          some (.ok ({ s with profileData := profileData, conditionalBlock := some (block.storeProfileData ret) },
            openElse rest))

def parseBlock (env : BlockEnv) :
    ℕ → (inIf : Bool) → BlockState ρ → List (Line ρ) → Option (Except BlockError (List (Line ρ) × ProfileData ρ × Bool))
  | 0, _, _, _ => none
  | _ + 1, _, s, [] => some (if env.doInclude then .ok ([], s.profileData, false) else .error (.missingEnd env.profile))
  | fuel + 1, inIf, s, .rule r :: data => parseBlock env fuel inIf (s.addRule r) data
  | fuel + 1, inIf, s, .profileStart name :: data =>
    if (s.profileData.lookup name).isSome then some (.error (.definedTwice name))
    else
      thenOk (parseBlock env fuel inIf (.start name .fresh) data) fun parsed =>
        parseBlock env fuel inIf (s.addProfile env.profile name parsed.2.1 inIf) parsed.1
  | _ + 1, _, s, .profileEnd :: data => some (.ok (data, s.profileData, true))
  | fuel + 1, inIf, s, .conditionalStart cond :: data =>
    match ConditionalBlock.create env.table cond with
    | none => some (.error .badCondition)
    | some block =>
      thenOk (parseConditional (parseBlock env fuel true) s block data) fun p => parseBlock env fuel inIf p.1 p.2
  | fuel + 1, inIf, s, .conditionalElse close cond :: data =>
    if !inIf && s.conditionalBlock.isNone then some (.error .unexpectedElse)
    else if close then some (.ok (.conditionalElse close cond :: data, s.profileData, false))
    else
      match s.conditionalBlock with
      | none => some (.error .unexpectedElse)
      | some block =>
        match block.addConditional env.table cond with
        | none => some (.error .badCondition)
        | some block =>
          thenOk (parseConditional (parseBlock env fuel true) s block data) fun p => parseBlock env fuel inIf p.1 p.2

/-! ### Lines that a block passes over -/

theorem returns_thenOk {ε α β : Type} {f : ℕ → Option (Except ε α)} {g : ℕ → α → Option (Except ε β)} {a : α}
    {r : Except ε β} (hf : Returns f (.ok a)) (hg : Returns (g · a) r) :
    Returns (fun fuel => thenOk (f fuel) (g fuel)) r := by
  obtain ⟨n, hn⟩ := hf
  obtain ⟨m, hm⟩ := hg
  refine ⟨max n m, fun fuel hle => ?_⟩
  dsimp only
  rw [hn fuel ((le_max_left n m).trans hle)]
  exact hm fuel ((le_max_right n m).trans hle)

theorem returns_thenOk_error {ε α β : Type} {f : ℕ → Option (Except ε α)} {g : ℕ → α → Option (Except ε β)} {e : ε}
    (hf : Returns f (.error e)) : Returns (fun fuel => thenOk (f fuel) (g fuel)) (.error e) := by
  obtain ⟨n, hn⟩ := hf
  refine ⟨n, fun fuel hle => ?_⟩
  dsimp only
  rw [hn fuel hle]
  rfl

variable {env : BlockEnv} {inIf : Bool}

def Runs (env : BlockEnv) (inIf : Bool) (body : List (Line ρ)) (s s' : BlockState ρ) : Prop :=
  ∀ rest r, Returns (fun fuel => parseBlock env fuel inIf s' rest) r →
    Returns (fun fuel => parseBlock env fuel inIf s (body ++ rest)) r

theorem Runs.nil (s : BlockState ρ) : Runs env inIf [] s s := fun _ _ h => h

theorem returns_profileEnd (s : BlockState ρ) (rest : List (Line ρ)) :
    Returns (fun fuel => parseBlock env fuel inIf s (.profileEnd :: rest)) (.ok (rest, s.profileData, true)) :=
  Returns.step (.pure _)

theorem runs_profile {name : Text} {body : List (Line ρ)} {s s' : BlockState ρ} (hnew : s.profileData.lookup name = none)
    (h : Runs env inIf body (.start name .fresh) s') :
    Runs env inIf (.profileStart name :: (body ++ [.profileEnd])) s
      (s.addProfile env.profile name s'.profileData inIf) := by
  intro rest r hr
  apply Returns.step
  simp only [cons_append, append_assoc, parseBlock, hnew, Option.isSome_none, Bool.false_eq_true, if_false]
  exact returns_thenOk (h _ _ (returns_profileEnd s' rest)) hr

/-! ### Chains -/

structure Branch (ρ : Type) where
  cond : Option Cond
  value : Bool
  body : List (Line ρ)
  data : ProfileData ρ

def Branch.profiles (b : Branch ρ) : ProfileData ρ := b.data.filter (·.2.inCond)

structure Branch.Parses (env : BlockEnv) (profname : Text) (b : Branch ρ) : Prop where
  evaluates : evaluateBranch env.table b.cond = some b.value
  runs : ∃ s, Runs env true b.body (.start profname .fresh) s ∧ s.profileData = b.data

def branchLines : List (Branch ρ) → List (Line ρ)
  | [] => [.profileEnd]
  | b :: bs => .conditionalElse true b.cond :: (b.body ++ branchLines bs)

def chainLines (cond : Cond) (b : Branch ρ) (bs : List (Branch ρ)) : List (Line ρ) :=
  .conditionalStart cond :: (b.body ++ branchLines bs)

def registerIf (active : Bool) (profileData ret : ProfileData ρ) : Except BlockError (ProfileData ρ) :=
  if active then register profileData ret else .ok profileData

/-- What the branches register one after the other, the first of them being active or not. -/
def registerChain (profileData : ProfileData ρ) (active : Bool) (b : Branch ρ) :
    List (Branch ρ) → Except BlockError (ProfileData ρ)
  | [] => registerIf active profileData b.data
  | b' :: bs => (registerIf active profileData b.data).bind fun profileData =>
      registerChain profileData (if active then false else b'.value) b' bs

def registered : (prev : Bool) → List (Branch ρ) → ProfileData ρ
  | _, [] => []
  | prev, b :: bs => if !prev && b.value then b.profiles ++ registered true bs else registered false bs

def chosen : List (Branch ρ) → ProfileData ρ
  | [] => []
  | b :: bs => if b.value then b.profiles else chosen bs

theorem setItem_new {d : ProfileData ρ} {name : Text} (h : name ∉ d.map Prod.fst) (storage : ProfileStorage ρ) :
    setItem d name storage = d ++ [(name, storage)] := by
  have hany : ¬d.any (·.1 = name) = true := by
    intro hany
    obtain ⟨e, he, hname⟩ := any_eq_true.mp hany
    exact h (mem_map.mpr ⟨e, he, by simpa using hname⟩)
  rw [setItem, if_neg hany]

theorem lookup_eq_none_of_notMem {d : ProfileData ρ} {name : Text} (h : name ∉ d.map Prod.fst) : d.lookup name = none := by
  rw [lookup_eq_none_iff]
  intro e he
  have hne : name ≠ e.1 := fun heq => h (mem_map.mpr ⟨e, he, heq.symm⟩)
  simp [hne]

theorem register_fresh (profileData ret : ProfileData ρ)
    (hfresh : ((profileData ++ ret.filter (·.2.inCond)).map Prod.fst).Nodup) :
    register profileData ret = .ok (profileData ++ ret.filter (·.2.inCond)) := by
  induction ret generalizing profileData with
  | nil => simp [register]
  | cons e ret ih =>
    obtain ⟨name, storage⟩ := e
    rw [register]
    by_cases hcond : storage.inCond = true
    · rw [filter_cons_of_pos (by simpa using hcond)] at hfresh ⊢
      have hnew : name ∉ profileData.map Prod.fst := by
        rw [map_append, nodup_append] at hfresh
        intro hmem
        exact hfresh.2.2 name hmem name (by simp) rfl
      rw [if_pos hcond, lookup_eq_none_of_notMem hnew, setItem_new hnew, ih]
      · simp
      · simpa using hfresh
    · rw [filter_cons_of_neg (by simpa using hcond)] at hfresh ⊢
      rw [if_neg hcond]
      exact ih profileData hfresh

theorem returns_branch {profname : Text} {b : Branch ρ} (hb : b.Parses env profname) (bs : List (Branch ρ))
    (rest : List (Line ρ)) :
    ∃ rest' endOfBlock,
      Returns (fun fuel => parseBlock env fuel true (.start profname .fresh) (b.body ++ (branchLines bs ++ rest)))
        (.ok (rest', b.data, endOfBlock)) ∧
      (bs = [] ∧ endOfBlock = true ∧ rest' = rest ∨
        ∃ b' bs', bs = b' :: bs' ∧ endOfBlock = false ∧
          openElse rest' = .conditionalElse false b'.cond :: (b'.body ++ (branchLines bs' ++ rest))) := by
  obtain ⟨s, hrun, hdata⟩ := hb.runs
  cases bs with
  | nil =>
    refine ⟨rest, true, hrun _ _ ?_, Or.inl ⟨rfl, rfl, rfl⟩⟩
    rw [← hdata]
    exact returns_profileEnd s rest
  | cons b' bs' =>
    refine ⟨branchLines (b' :: bs') ++ rest, false, hrun _ _ ?_, Or.inr ⟨b', bs', rfl, rfl, ?_⟩⟩
    · rw [← hdata]
      exact Returns.step (.pure _)
    · simp [branchLines, openElse]

theorem notMem_of_lookup_eq_none {d : ProfileData ρ} {name : Text} (h : ¬ (d.lookup name).isSome = true) :
    name ∉ d.map Prod.fst := by
  rw [Bool.not_eq_true, Option.isSome_eq_false_iff, Option.isNone_iff_eq_none, lookup_eq_none_iff] at h
  intro hmem
  obtain ⟨e, he, rfl⟩ := mem_map.mp hmem
  have := h e he
  simp at this

theorem register_ok {profileData ret d : ProfileData ρ} (h : register profileData ret = .ok d) :
    d = profileData ++ ret.filter (·.2.inCond) := by
  induction ret generalizing profileData with
  | nil =>
    cases h
    simp
  | cons e ret ih =>
    obtain ⟨name, storage⟩ := e
    rw [register] at h
    split_ifs at h with hcond htaken
    · rw [ih h, setItem_new (notMem_of_lookup_eq_none htaken), filter_cons_of_pos (by simpa using hcond)]
      simp
    · rw [ih h, filter_cons_of_neg (by simpa using hcond)]

theorem registerIf_ok {active : Bool} {profileData d : ProfileData ρ} {b : Branch ρ}
    (h : registerIf active profileData b.data = .ok d) : d = profileData ++ if active then b.profiles else [] := by
  cases active with
  | false =>
    cases h
    simp
  | true => exact register_ok h

theorem lookup_append_isSome {d d' : ProfileData ρ} {name : Text} (h : (d.lookup name).isSome) :
    ((d ++ d').lookup name).isSome := by
  rw [lookup_append]
  cases hl : d.lookup name with
  | none => rw [hl] at h; cases h
  | some e => rfl

def afterBranch (s : BlockState ρ) (block : ConditionalBlock ρ) (b : Branch ρ) (endOfBlock : Bool)
    (profileData : ProfileData ρ) : BlockState ρ :=
  { s with profileData := profileData, conditionalBlock := if endOfBlock then none else some (block.storeProfileData b.data) }

theorem returns_parseConditional {s : BlockState ρ} {b : Branch ρ} {data rest : List (Line ρ)} {endOfBlock : Bool}
    (block : ConditionalBlock ρ) (hstorage : (s.profileData.lookup s.profname).isSome)
    (hparse : Returns (fun fuel => parseBlock env fuel true (.start s.profname .fresh) data)
      (.ok (rest, b.data, endOfBlock))) :
    Returns (fun fuel => parseConditional (parseBlock env fuel true) s block data)
      ((registerIf block.result s.profileData b.data).map fun profileData =>
        (afterBranch s block b endOfBlock profileData, if endOfBlock then rest else openElse rest)) := by
  have hsome : ¬(s.profileData.lookup s.profname).isNone = true := by simpa using hstorage
  simp only [parseConditional, if_neg hsome]
  refine returns_thenOk hparse ?_
  change Returns (fun _ => thenOk (some (registerIf block.result s.profileData b.data)) _) _
  cases registerIf block.result s.profileData b.data with
  | error e => exact .pure _
  | ok profileData =>
    cases endOfBlock with
    | true | false => exact .pure _

/-- The whole chain is parsed, and what follows it sees what its active branches have registered. -/
theorem returns_chain (b : Branch ρ) (bs : List (Branch ρ)) (s : BlockState ρ) (block : ConditionalBlock ρ)
    (hparses : ∀ b' ∈ b :: bs, b'.Parses env s.profname) (hstorage : (s.profileData.lookup s.profname).isSome)
    (rest : List (Line ρ)) {r : Except BlockError (List (Line ρ) × ProfileData ρ × Bool)}
    (hrest : Returns (fun fuel => thenOk (some (registerChain s.profileData block.result b bs)) fun profileData =>
      parseBlock env fuel inIf { s with profileData := profileData, conditionalBlock := none } rest) r) :
    Returns (fun fuel => thenOk (parseConditional (parseBlock env fuel true) s block (b.body ++ (branchLines bs ++ rest)))
      fun p => parseBlock env fuel inIf p.1 p.2) r := by
  induction bs generalizing b s block with
  | nil =>
    obtain ⟨rest', endOfBlock, hbranch, ⟨-, rfl, rfl⟩ | ⟨b', bs', hbs, -⟩⟩ :=
      returns_branch (hparses b mem_cons_self) [] rest
    · have hcond := returns_parseConditional block hstorage hbranch
      rw [registerChain] at hrest
      cases hreg : registerIf block.result s.profileData b.data with
      | error e =>
        rw [hreg] at hcond hrest
        rw [hrest.unique (.pure _)]
        exact returns_thenOk_error hcond
      | ok profileData =>
        rw [hreg] at hcond hrest
        exact returns_thenOk hcond hrest
    · cases hbs
  | cons b' bs ih =>
    obtain ⟨rest', endOfBlock, hbranch, ⟨hbs, -⟩ | ⟨b'', bs'', hbs, rfl, hopen⟩⟩ :=
      returns_branch (hparses b mem_cons_self) (b' :: bs) rest
    · cases hbs
    cases hbs
    have hcond := returns_parseConditional block hstorage hbranch
    rw [registerChain] at hrest
    cases hreg : registerIf block.result s.profileData b.data with
    | error e =>
      rw [hreg] at hcond hrest
      rw [hrest.unique (.pure _)]
      exact returns_thenOk_error hcond
    | ok profileData =>
      rw [hreg] at hcond hrest
      refine returns_thenOk hcond ?_
      -- the loop goes on at the `else`, which has lost its brace
      have heval := (hparses b' (by simp)).evaluates
      rw [if_neg (by simp), hopen]
      apply Returns.step
      simp only [parseBlock, afterBranch, Bool.false_eq_true, if_false, Option.isNone_some, Bool.and_false,
        ConditionalBlock.addConditional, heval, Option.map_some]
      apply ih b'
      · exact fun c hc => hparses c (mem_cons_of_mem b hc)
      · dsimp only
        rw [registerIf_ok hreg]
        exact lookup_append_isSome hstorage
      · exact hrest

theorem returns_chainLines {cond : Cond} {b : Branch ρ} {bs : List (Branch ρ)} {s : BlockState ρ} (hcond : b.cond = some cond)
    (hparses : ∀ b' ∈ b :: bs, b'.Parses env s.profname) (hstorage : (s.profileData.lookup s.profname).isSome)
    (rest : List (Line ρ)) {r : Except BlockError (List (Line ρ) × ProfileData ρ × Bool)}
    (hrest : Returns (fun fuel => thenOk (some (registerChain s.profileData b.value b bs)) fun profileData =>
      parseBlock env fuel inIf { s with profileData := profileData, conditionalBlock := none } rest) r) :
    Returns (fun fuel => parseBlock env fuel inIf s (chainLines cond b bs ++ rest)) r := by
  have heval := (hparses b mem_cons_self).evaluates
  rw [hcond] at heval
  apply Returns.step
  simp only [chainLines, cons_append, append_assoc, parseBlock, ConditionalBlock.create, heval, Option.map_some]
  exact returns_chain b bs s ⟨_, b.value⟩ hparses hstorage rest hrest

theorem registered_cons (prev : Bool) (b : Branch ρ) (bs : List (Branch ρ)) :
    registered prev (b :: bs) =
      (if (if prev then false else b.value) then b.profiles else []) ++
        registered (if prev then false else b.value) bs := by
  rw [registered]
  cases prev <;> cases b.value <;> simp

theorem registerChain_ok {profileData d : ProfileData ρ} {active : Bool} {b : Branch ρ} {bs : List (Branch ρ)}
    (h : registerChain profileData active b bs = .ok d) :
    d = profileData ++ ((if active then b.profiles else []) ++ registered active bs) := by
  induction bs generalizing profileData active b with
  | nil => rw [registerIf_ok h, registered, append_nil]
  | cons b' bs ih =>
    rw [registerChain] at h
    cases hreg : registerIf active profileData b.data with
    | error e =>
      rw [hreg] at h
      cases h
    | ok profileData' =>
      rw [hreg] at h
      rw [ih h, registerIf_ok hreg, registered_cons, append_assoc]

/-! ### Which branches these are -/

def Settled (vs : List Bool) : Prop := ∀ i j, i + 2 ≤ j → vs[i]? = some true → vs[j]? ≠ some true

theorem settled_false {vs : List Bool} : Settled (false :: vs) ↔ Settled vs := by
  constructor
  · intro h i j hij hi
    exact h (i + 1) (j + 1) (by omega) hi
  · intro h i j hij hi
    cases i with
    | zero => simp at hi
    | succ i =>
      obtain ⟨j, rfl⟩ : ∃ k, j = k + 1 := ⟨j - 1, by omega⟩
      exact h i j (by omega) hi

theorem settled_true {vs : List Bool} : Settled (true :: vs) ↔ ∀ v ∈ vs.tail, v = false := by
  constructor
  · intro h v hv
    obtain ⟨k, hk⟩ := mem_iff_getElem?.mp hv
    rw [getElem?_tail] at hk
    have hne := h 0 (k + 2) (by omega) rfl
    rw [getElem?_cons_succ, hk] at hne
    simpa using hne
  · intro h i j hij hi hj
    obtain ⟨k, rfl⟩ : ∃ k, j = k + 2 := ⟨j - 2, by omega⟩
    rw [getElem?_cons_succ, ← getElem?_tail] at hj
    cases h true (mem_iff_getElem?.mpr ⟨k, hj⟩)

theorem registered_eq_nil {bs : List (Branch ρ)} (hprofiles : ∀ b ∈ bs, b.value = true → b.profiles ≠ []) :
    registered false bs = [] ↔ ∀ v ∈ bs.map Branch.value, v = false := by
  induction bs with
  | nil => simp [registered]
  | cons b bs ih =>
    have hb := hprofiles b mem_cons_self
    have hrest := ih fun b' h => hprofiles b' (mem_cons_of_mem b h)
    rw [registered]
    cases hv : b.value with
    | false => simpa [hv] using hrest
    | true => simp [hv, hb hv]

theorem registered_true {bs : List (Branch ρ)} : registered true bs = registered false bs.tail := by
  cases bs <;> simp [registered]

theorem registered_eq_chosen_iff {bs : List (Branch ρ)} (hprofiles : ∀ b ∈ bs, b.value = true → b.profiles ≠ []) :
    registered false bs = chosen bs ↔ Settled (bs.map Branch.value) := by
  induction bs with
  | nil => simp [registered, chosen, Settled]
  | cons b bs ih =>
    have hbs : ∀ b' ∈ bs, b'.value = true → b'.profiles ≠ [] := fun b' h => hprofiles b' (mem_cons_of_mem b h)
    rw [registered, chosen, map_cons]
    cases hv : b.value with
    | false =>
      rw [settled_false, ← ih hbs]
      simp
    | true =>
      rw [settled_true, ← map_tail, ← registered_eq_nil fun b' h => hbs b' (mem_of_mem_tail h), registered_true]
      simp

theorem registerChain_idle {bs : List (Branch ρ)} (h : ∀ b ∈ bs, b.value = false) (profileData : ProfileData ρ) (b : Branch ρ) :
    registerChain profileData false b bs = .ok profileData := by
  induction bs generalizing b with
  | nil => rfl
  | cons b' bs ih =>
    have hstep : registerChain profileData false b (b' :: bs) = registerChain profileData b'.value b' bs := rfl
    rw [hstep, h b' mem_cons_self]
    exact ih (fun c hc => h c (mem_cons_of_mem b' hc)) b'

theorem registerChain_settled {profileData : ProfileData ρ} {b : Branch ρ} {bs : List (Branch ρ)}
    (hfresh : ∀ b' ∈ b :: bs, ((profileData ++ b'.profiles).map Prod.fst).Nodup) (h : Settled ((b :: bs).map Branch.value)) :
    registerChain profileData b.value b bs = .ok (profileData ++ chosen (b :: bs)) := by
  induction bs generalizing b with
  | nil =>
    have hone := register_fresh profileData b.data (hfresh b mem_cons_self)
    rw [registerChain, registerIf, chosen, chosen]
    cases b.value with
    | false => simp
    | true => simpa [Branch.profiles] using hone
  | cons b' bs ih =>
    rw [map_cons] at h
    rw [registerChain, chosen]
    cases hv : b.value with
    | false =>
      rw [hv, settled_false] at h
      simpa [registerIf, Except.bind] using ih (fun c hc => hfresh c (mem_cons_of_mem b hc)) h
    | true =>
      have hone : registerIf true profileData b.data = .ok (profileData ++ b.profiles) :=
        register_fresh profileData b.data (hfresh b mem_cons_self)
      rw [hv, settled_true] at h
      simp only [map_cons, tail_cons, mem_map, forall_exists_index, and_imp, forall_apply_eq_imp_iff₂] at h
      rw [hone, if_pos rfl]
      exact registerChain_idle h _ b'

/-- If no two conditions that hold are two or more places apart, and each branch has profiles of names that are not taken, the
block gets the profiles of the first branch whose condition holds and no others. Where the branches that hold have profiles,
this is so only then. -/
theorem parseBlock_registers_chosen_iff {cond : Cond} {b : Branch ρ} {bs : List (Branch ρ)} {s : BlockState ρ}
    (hcond : b.cond = some cond) (hparses : ∀ b' ∈ b :: bs, b'.Parses env s.profname)
    (hstorage : (s.profileData.lookup s.profname).isSome)
    (hfresh : ∀ b' ∈ b :: bs, ((s.profileData ++ b'.profiles).map Prod.fst).Nodup) (rest : List (Line ρ)) :
    (Settled ((b :: bs).map Branch.value) →
        Returns (fun fuel => parseBlock env fuel inIf s (chainLines cond b bs ++ .profileEnd :: rest))
          (.ok (rest, s.profileData ++ chosen (b :: bs), true))) ∧
      ((∀ b' ∈ b :: bs, b'.value = true → b'.profiles ≠ []) →
        Returns (fun fuel => parseBlock env fuel inIf s (chainLines cond b bs ++ .profileEnd :: rest))
          (.ok (rest, s.profileData ++ chosen (b :: bs), true)) →
        Settled ((b :: bs).map Branch.value)) := by
  constructor
  · intro h
    refine returns_chainLines hcond hparses hstorage _ ?_
    rw [registerChain_settled hfresh h]
    exact returns_profileEnd { s with profileData := s.profileData ++ chosen (b :: bs), conditionalBlock := none } rest
  · intro hprofiles h
    rw [← registered_eq_chosen_iff hprofiles]
    cases hreg : registerChain s.profileData b.value b bs with
    | error e =>
      have hrun : Returns (fun fuel => parseBlock env fuel inIf s (chainLines cond b bs ++ .profileEnd :: rest)) (.error e) := by
        refine returns_chainLines hcond hparses hstorage _ ?_
        rw [hreg]
        exact .pure _
      cases hrun.unique h
    | ok d =>
      have hrun : Returns (fun fuel => parseBlock env fuel inIf s (chainLines cond b bs ++ .profileEnd :: rest))
          (.ok (rest, d, true)) := by
        refine returns_chainLines hcond hparses hstorage _ ?_
        rw [hreg]
        exact returns_profileEnd { s with profileData := d, conditionalBlock := none } rest
      have hd : d = s.profileData ++ registered false (b :: bs) := by
        rw [registerChain_ok hreg, registered_cons]
        simp
      have heq := hrun.unique h
      rw [hd] at heq
      simpa using heq

end Parser

/-! ### A chain of three branches -/

def chainEnv : BlockEnv where
  table :=
    { bools := [(['a'], true), (['b'], false)]
      sets := []
      apart := by simp
      nonempty := by simp }
  profile := ['p']
  doInclude := false

def childBranch (cond : Option Cond) (value : Bool) (name : Char) : Branch Unit where
  cond := cond
  value := value
  body := [.profileStart [name], .profileEnd]
  data := [(['p'], .fresh), ([name], ⟨[], true⟩)]

def chainStart : BlockState Unit := .start ['p'] .fresh

theorem childBranch_parses {cond : Option Cond} {value : Bool} {name : Char} (hname : name ≠ 'p')
    (h : evaluateBranch chainEnv.table cond = some value) :
    (childBranch cond value name).Parses chainEnv ['p'] := by
  refine ⟨h, _, runs_profile ?_ (Runs.nil _), ?_⟩
  · exact lookup_eq_none_of_notMem (by simpa [BlockState.start] using hname)
  · simp [BlockState.addProfile, BlockState.start, setItem, childBranch, ProfileStorage.fresh, Ne.symm hname]

theorem else_registered_too :
    Returns (fun fuel => parseBlock chainEnv fuel false chainStart
        (chainLines (.boolVar ['a']) (childBranch (some (.boolVar ['a'])) true 'x')
          [childBranch (some (.boolVar ['b'])) false 'y', childBranch none true 'z'] ++ [.profileEnd]))
      (.ok ([], [(['p'], .fresh), (['x'], ⟨[], true⟩), (['z'], ⟨[], true⟩)], true)) := by
  refine returns_chainLines rfl ?_ rfl _ (Returns.step (.pure _))
  intro b' hb'
  simp only [mem_cons, not_mem_nil, or_false] at hb'
  rcases hb' with rfl | rfl | rfl <;> exact childBranch_parses (by decide) rfl

/-- A branch with rules only. -/
def ruleBranch (cond : Option Cond) (value : Bool) : Branch Unit where
  cond := cond
  value := value
  body := [.rule ()]
  data := [(['p'], ⟨[()], false⟩)]

theorem ruleBranch_parses {cond : Option Cond} {value : Bool} (h : evaluateBranch chainEnv.table cond = some value) :
    (ruleBranch cond value).Parses chainEnv ['p'] := by
  exact ⟨h, BlockState.addRule (.start ['p'] .fresh) (), fun rest r hr => Returns.step hr, rfl⟩

theorem second_registered :
    Returns (fun fuel => parseBlock chainEnv fuel false chainStart
        (chainLines (.boolVar ['b']) (childBranch (some (.boolVar ['b'])) false 'x')
          [childBranch (some (.boolVar ['a'])) true 'x', ruleBranch none true] ++ .profileEnd :: []))
      (.ok ([], [(['p'], .fresh), (['x'], ⟨[], true⟩)], true)) := by
  refine (parseBlock_registers_chosen_iff rfl ?_ rfl ?_ []).1 ?_
  · intro b' hb'
    simp only [mem_cons, not_mem_nil, or_false] at hb'
    rcases hb' with rfl | rfl | rfl
    · exact childBranch_parses (by decide) rfl
    · exact childBranch_parses (by decide) rfl
    · exact ruleBranch_parses rfl
  · intro b' hb'
    simp only [mem_cons, not_mem_nil, or_false] at hb'
    rcases hb' with rfl | rfl | rfl <;> decide
  · rw [map_cons]
    exact settled_false.mpr (settled_true.mpr (by simp))

end AppArmor

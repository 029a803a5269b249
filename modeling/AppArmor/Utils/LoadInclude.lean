import AppArmor.Glob.Escape
import AppArmor.Lib.Dict
import AppArmor.Lib.Worklist
import Mathlib

namespace AppArmor.Utils

open Fuel Worklist Relation List Option

inductive IncNode
  | file (includes : List Text)
  | dir (files : List Text)
  deriving DecidableEq

def IncNode.next : IncNode → List Text
  | .file includes => includes
  | .dir files => files

/-- The files on disk. A directory is listed by its files, and an include rule names these and not the directory. -/
structure IncTree where
  nodes : List (Text × IncNode)
  listed : ∀ {d files f}, nodes.lookup d = some (.dir files) → f ∈ files → ∃ includes, nodes.lookup f = some (.file includes)
  rules : ∀ {f includes g files}, nodes.lookup f = some (.file includes) → g ∈ includes → nodes.lookup g ≠ some (.dir files)

def parseIncludes (load : Text → List Text → Option (Option (List Text))) (file : Text) :
    List Text → List Text → Option (Option (List Text))
  | [], seen => some (some seen)
  | inc :: incs, seen =>
    if inc = file then parseIncludes load file incs seen
    else (load inc seen).bind fun r => r.elim (some none) (parseIncludes load file incs)

def loadInclude (tree : IncTree) : ℕ → List Text → List Text → Option (Option (List Text))
  | 0, _, _ => none
  | _ + 1, [], seen => some (some seen)
  | fuel + 1, incfile :: rest, seen =>
    if incfile.head? ≠ some '/' then some none
    else if incfile ∈ seen then loadInclude tree fuel rest seen
    else
      match tree.nodes.lookup incfile with
      | none => some none
      | some (.file includes) =>
        -- the file is attached when all of it has been parsed
        (parseIncludes (fun inc => loadInclude tree fuel [inc]) incfile includes seen).bind fun r =>
          r.elim (some none) fun seen => loadInclude tree fuel rest (seen ++ [incfile])
      | some (.dir files) => loadInclude tree fuel (rest ++ files) seen

section Load

variable {tree : IncTree} {seen seen' : List Text} {f g : Text}

def Edge (tree : IncTree) (f g : Text) : Prop := ∃ includes, tree.nodes.lookup f = some (.file includes) ∧ g ∈ includes ∧ g ≠ f

def Named (tree : IncTree) (incname : Text) : Text → Prop :=
  Reach (fun name => (tree.nodes.lookup name).map IncNode.next) [incname]

def LoadsAll (tree : IncTree) (incname : Text) : Prop :=
  ∃ seen, Returns (loadInclude tree · [incname] []) (some seen) ∧
    ∀ f includes, Named tree incname f → tree.nodes.lookup f = some (.file includes) → f ∈ seen

structure Loadable (tree : IncTree) (incname : Text) : Prop where
  found : ∀ f, Named tree incname f → f.head? = some '/' ∧ tree.nodes.lookup f ≠ none
  acyclic : ∀ f, Named tree incname f → ¬ TransGen (Edge tree) f f

/-! ### What is attached -/

structure Attached (tree : IncTree) (seen : List Text) : Prop where
  file : ∀ f ∈ seen, f.head? = some '/' ∧ ∃ includes, tree.nodes.lookup f = some (.file includes)
  order : ∀ a f b, seen = a ++ f :: b → ∀ g, Edge tree f g → g ∈ a

theorem Attached.nil (tree : IncTree) : Attached tree [] :=
  ⟨fun f hf => absurd hf not_mem_nil, fun a f b h => absurd h (by simp)⟩

theorem Attached.concat (h : Attached tree seen) (hf : f.head? = some '/') {includes : List Text}
    (hlook : tree.nodes.lookup f = some (.file includes)) (hinc : ∀ g ∈ includes, g ≠ f → g ∈ seen) :
    Attached tree (seen ++ [f]) := by
  refine ⟨fun x hx => ?_, fun a x b heq y hy => ?_⟩
  · rcases mem_append.mp hx with hx | hx
    · exact h.file x hx
    · rw [mem_singleton.mp hx]
      exact ⟨hf, includes, hlook⟩
  · rcases eq_nil_or_concat' b with rfl | ⟨b, z, rfl⟩
    · obtain ⟨rfl, hx⟩ := append_inj' heq rfl
      obtain rfl : f = x := (cons.inj hx).1
      obtain ⟨incs, hlook', hmem, hne⟩ := hy
      rw [hlook, some.injEq, IncNode.file.injEq] at hlook'
      exact hinc y (hlook' ▸ hmem) hne
    · have heq' : seen ++ [f] = (a ++ x :: b) ++ [z] := by
        rw [heq]
        simp
      exact h.order a x b (append_inj' heq' rfl).1 y hy

theorem Attached.acc (h : Attached tree seen) (hf : f ∈ seen) : Acc (Function.swap (Edge tree)) f := by
  -- the files are attached in an order in which the includes come first
  have hprefix : ∀ a b, seen = a ++ b → ∀ f ∈ a, Acc (Function.swap (Edge tree)) f := by
    intro a
    induction a using reverseRecOn with
    | nil => exact fun b _ f hf => absurd hf not_mem_nil
    | append_singleton a x ih =>
      intro b hsplit f hf
      rw [append_assoc] at hsplit
      rcases mem_append.mp hf with hf | hf
      · exact ih _ hsplit f hf
      · rw [mem_singleton.mp hf]
        exact Acc.intro x fun g hg => ih _ hsplit g (h.order a x b hsplit g hg)
  exact hprefix seen [] (append_nil seen).symm f hf

theorem not_rel_of_acc {α : Type} {r : α → α → Prop} {a : α} (h : Acc r a) : ¬ r a a := by
  induction h with
  | intro a _ ih => exact fun haa => ih a haa haa

theorem Attached.acyclic (h : Attached tree seen) (hf : f ∈ seen) : ¬ TransGen (Edge tree) f f := by
  intro hcycle
  have hacc := (h.acc hf).transGen
  exact not_rel_of_acc hacc (transGen_swap.mpr hcycle)

def Loaded (tree : IncTree) (seen : List Text) (name : Text) : Prop :=
  name.head? = some '/' ∧ (name ∈ seen ∨ ∃ files, tree.nodes.lookup name = some (.dir files) ∧ ∀ f ∈ files, f ∈ seen)

theorem parseIncludes_attached {load : Text → List Text → Option (Option (List Text))} {file : Text} {incs : List Text}
    (hload : ∀ inc ∈ incs, ∀ seen seen', Attached tree seen → load inc seen = some (some seen') →
      Attached tree seen' ∧ seen <+: seen' ∧ inc ∈ seen')
    (h : Attached tree seen) (hrun : parseIncludes load file incs seen = some (some seen')) :
    Attached tree seen' ∧ seen <+: seen' ∧ ∀ inc ∈ incs, inc ≠ file → inc ∈ seen' := by
  induction incs generalizing seen with
  | nil =>
    rw [parseIncludes, some.injEq, some.injEq] at hrun
    subst hrun
    exact ⟨h, prefix_rfl, fun inc hinc => absurd hinc not_mem_nil⟩
  | cons inc incs ih =>
    have hrest : ∀ inc' ∈ incs, ∀ seen seen', Attached tree seen → load inc' seen = some (some seen') →
        Attached tree seen' ∧ seen <+: seen' ∧ inc' ∈ seen' := fun inc' hmem => hload inc' (mem_cons_of_mem _ hmem)
    rw [parseIncludes] at hrun
    by_cases hself : inc = file
    · rw [if_pos hself] at hrun
      obtain ⟨ha, hsub, hall⟩ := ih hrest h hrun
      refine ⟨ha, hsub, fun inc' hmem hne => ?_⟩
      rcases mem_cons.mp hmem with rfl | hmem
      · exact absurd hself hne
      · exact hall inc' hmem hne
    · rw [if_neg hself, bind_eq_some_iff] at hrun
      obtain ⟨r, hr, hrun⟩ := hrun
      cases r with
      | none => cases hrun
      | some mid =>
        obtain ⟨hmid, hsub, hinc⟩ := hload inc mem_cons_self seen mid h hr
        obtain ⟨ha, hsub', hall⟩ := ih hrest hmid hrun
        refine ⟨ha, hsub.trans hsub', fun inc' hmem hne => ?_⟩
        rcases mem_cons.mp hmem with rfl | hmem
        · exact hsub'.subset hinc
        · exact hall inc' hmem hne

theorem attached_one {includes : List Text} (hlook : tree.nodes.lookup f = some (.file includes)) (hg : g ∈ includes)
    (h : Attached tree seen' ∧ seen <+: seen' ∧ ∀ name ∈ [g], Loaded tree seen' name) :
    Attached tree seen' ∧ seen <+: seen' ∧ g ∈ seen' := by
  obtain ⟨ha, hsub, hall⟩ := h
  refine ⟨ha, hsub, ?_⟩
  rcases (hall g mem_cons_self).2 with hin | ⟨files, hdir, -⟩
  · exact hin
  · exact absurd hdir (tree.rules hlook hg)

theorem loadInclude_attached {fuel : ℕ} {todo : List Text} (h : Attached tree seen)
    (hrun : loadInclude tree fuel todo seen = some (some seen')) :
    Attached tree seen' ∧ seen <+: seen' ∧ ∀ name ∈ todo, Loaded tree seen' name := by
  induction fuel generalizing todo seen seen' with
  | zero => cases hrun
  | succ fuel ih =>
    cases todo with
    | nil =>
      rw [loadInclude, some.injEq, some.injEq] at hrun
      subst hrun
      exact ⟨h, prefix_rfl, fun name hname => absurd hname not_mem_nil⟩
    | cons incfile rest =>
      rw [loadInclude] at hrun
      by_cases hroot : incfile.head? = some '/'
      · rw [if_neg (not_not.mpr hroot)] at hrun
        by_cases hmem : incfile ∈ seen
        · rw [if_pos hmem] at hrun
          obtain ⟨ha, hsub, hall⟩ := ih h hrun
          refine ⟨ha, hsub, forall_mem_cons.mpr ⟨⟨hroot, .inl (hsub.subset hmem)⟩, hall⟩⟩
        · rw [if_neg hmem] at hrun
          cases hlook : tree.nodes.lookup incfile with
          | none =>
            rw [hlook] at hrun
            cases hrun
          | some node =>
            rw [hlook] at hrun
            cases node with
            | file includes =>
              obtain ⟨r, hr, hrun⟩ := bind_eq_some_iff.mp hrun
              cases r with
              | none => cases hrun
              | some mid =>
                obtain ⟨hmid, hsub, hincs⟩ := parseIncludes_attached
                  (fun inc hinc s s' hs hload => attached_one hlook hinc (ih hs hload)) h hr
                obtain ⟨ha, hsub', hall⟩ := ih (hmid.concat hroot hlook hincs) hrun
                have hin : incfile ∈ seen' := hsub'.subset (mem_append_right _ mem_cons_self)
                exact ⟨ha, hsub.trans ((prefix_append _ _).trans hsub'), forall_mem_cons.mpr ⟨⟨hroot, .inl hin⟩, hall⟩⟩
            | dir files =>
              obtain ⟨ha, hsub, hall⟩ := ih h hrun
              refine ⟨ha, hsub, forall_mem_cons.mpr ⟨⟨hroot, .inr ⟨files, hlook, fun f hf => ?_⟩⟩, fun name hname =>
                hall name (mem_append_left _ hname)⟩⟩
              rcases (hall f (mem_append_right _ hf)).2 with hin | ⟨files', hdir, -⟩
              · exact hin
              · obtain ⟨includes, hfile⟩ := tree.listed hlook hf
                rw [hfile] at hdir
                cases hdir
      · rw [if_pos hroot] at hrun
        cases hrun

variable {incname : Text}

theorem Attached.named (h : Attached tree seen) (hstart : Loaded tree seen incname)
    (hf : Named tree incname f) : Loaded tree seen f := by
  induction hf with
  | start hk => exact mem_singleton.mp hk ▸ hstart
  | @step k c cs _ hsucc hc ih =>
    obtain ⟨node, hnode, rfl⟩ := map_eq_some_iff.mp hsucc
    cases node with
    | file includes =>
      have hk : k ∈ seen := by
        rcases ih.2 with hk | ⟨files, hdir, -⟩
        · exact hk
        · rw [hnode] at hdir
          cases hdir
      by_cases hself : c = k
      · exact hself ▸ ih
      · obtain ⟨a, b, hsplit⟩ := append_of_mem hk
        have hc' : c ∈ seen := by
          rw [hsplit]
          exact mem_append_left _ (h.order a k b hsplit c ⟨includes, hnode, hc, hself⟩)
        exact ⟨(h.file c hc').1, .inl hc'⟩
    | dir files =>
      have hc' : c ∈ seen := by
        rcases ih.2 with hk | ⟨files', hdir, hall⟩
        · obtain ⟨-, includes, hfile⟩ := h.file k hk
          rw [hnode] at hfile
          cases hfile
        · rw [hnode, some.injEq, IncNode.dir.injEq] at hdir
          exact hall c (hdir ▸ hc)
      exact ⟨(h.file c hc').1, .inl hc'⟩

theorem loadable_of_returns (hret : Returns (loadInclude tree · [incname] []) (some seen)) :
    Loadable tree incname := by
  obtain ⟨n, hn⟩ := hret
  obtain ⟨ha, -, hall⟩ := loadInclude_attached (Attached.nil tree) (hn n le_rfl)
  have hstart := hall incname mem_cons_self
  refine ⟨fun f hf => ?_, fun f hf hcycle => ?_⟩
  · have hl := ha.named hstart hf
    refine ⟨hl.1, ?_⟩
    rcases hl.2 with hin | ⟨files, hdir, -⟩
    · obtain ⟨-, includes, hfile⟩ := ha.file f hin
      rw [hfile]
      exact some_ne_none _
    · rw [hdir]
      exact some_ne_none _
  · rcases (ha.named hstart hf).2 with hin | ⟨files, hdir, -⟩
    · exact ha.acyclic hin hcycle
    · obtain ⟨g, ⟨includes, hfile, -⟩, -⟩ := TransGen.head'_iff.mp hcycle
      rw [hfile] at hdir
      cases hdir

/-! ### Termination -/

theorem Named.edge (hf : Named tree incname f) (h : Edge tree f g) : Named tree incname g := by
  obtain ⟨includes, hlook, hg, -⟩ := h
  exact hf.step (by rw [hlook]; rfl) hg

theorem Loadable.acc (h : Loadable tree incname) (hf : Named tree incname f) :
    Acc (Function.swap (Edge tree)) f := by
  let S := {f : Text // f ∈ tree.nodes.map Prod.fst ∧ Named tree incname f}
  have hfin : Finite S := by
    apply Set.Finite.to_subtype
    apply ((tree.nodes.map Prod.fst).finite_toSet).subset
    exact fun f hf => hf.1
  have hkey : ∀ {f : Text}, Named tree incname f → f ∈ tree.nodes.map Prod.fst := by
    intro f hf
    obtain ⟨node, hnode⟩ := ne_none_iff_exists'.mp (h.found f hf).2
    exact mem_map.mpr ⟨_, mem_of_lookup hnode, rfl⟩
  let R : S → S → Prop := fun x y => TransGen (Edge tree) y.1 x.1
  have htrans : IsTrans S R := ⟨fun x y z hxy hyz => TransGen.trans hyz hxy⟩
  have hirrefl : Std.Irrefl R := ⟨fun x => h.acyclic x.1 x.2.2⟩
  have hwf : WellFounded R := Finite.wellFounded_of_trans_of_irrefl R
  have hall : ∀ x : S, Acc (Function.swap (Edge tree)) x.1 := by
    intro x
    induction x using hwf.induction with
    | _ x ih =>
      refine Acc.intro x.1 fun g hg => ?_
      have hnamed := x.2.2.edge hg
      exact ih ⟨g, hkey hnamed, hnamed⟩ (TransGen.single hg)
  exact hall ⟨f, hkey hf, hf⟩

theorem attached_of_returns {todo : List Text} (h : Attached tree seen)
    (hret : Returns (loadInclude tree · todo seen) (some seen')) : Attached tree seen' := by
  obtain ⟨n, hn⟩ := hret
  exact (loadInclude_attached h (hn n le_rfl)).1

theorem parseIncludes_returns {file : Text} {incs : List Text}
    (hload : ∀ inc ∈ incs, inc ≠ file → ∀ seen, Attached tree seen →
      ∃ seen', Returns (loadInclude tree · [inc] seen) (some seen')) (h : Attached tree seen) :
    ∃ seen', Returns (fun fuel => parseIncludes (fun inc => loadInclude tree fuel [inc]) file incs seen) (some seen') := by
  induction incs generalizing seen with
  | nil => exact ⟨seen, Returns.pure _⟩
  | cons inc incs ih =>
    have hrest : ∀ inc' ∈ incs, inc' ≠ file → ∀ seen, Attached tree seen →
        ∃ seen', Returns (loadInclude tree · [inc'] seen) (some seen') := fun inc' hmem =>
      hload inc' (mem_cons_of_mem _ hmem)
    by_cases hself : inc = file
    · obtain ⟨seen', hret⟩ := ih hrest h
      refine ⟨seen', hret.congr fun fuel => ?_⟩
      rw [parseIncludes, if_pos hself]
    · obtain ⟨mid, hmid⟩ := hload inc mem_cons_self hself seen h
      obtain ⟨seen', hret⟩ := ih hrest (attached_of_returns h hmid)
      have hbind := hmid.bind (g := fun fuel r =>
        r.elim (some none) (parseIncludes (fun inc => loadInclude tree fuel [inc]) file incs)) hret
      refine ⟨seen', hbind.congr fun fuel => ?_⟩
      rw [parseIncludes, if_neg hself]

theorem loadInclude_file (h : Loadable tree incname) (hf : Named tree incname f)
    (hfile : ∃ includes, tree.nodes.lookup f = some (.file includes)) (rest : List Text) (hseen : Attached tree seen)
    (hrest : ∀ seen, Attached tree seen → ∃ seen', Returns (loadInclude tree · rest seen) (some seen')) :
    ∃ seen', Returns (loadInclude tree · (f :: rest) seen) (some seen') := by
  induction h.acc hf generalizing seen rest with
  | intro f _ ih =>
    have hroot := (h.found f hf).1
    by_cases hmem : f ∈ seen
    · obtain ⟨seen', hret⟩ := hrest seen hseen
      refine ⟨seen', Returns.step (hret.congr fun fuel => ?_)⟩
      rw [loadInclude, if_neg (not_not.mpr hroot), if_pos hmem]
    · obtain ⟨includes, hlook⟩ := hfile
      have hload : ∀ inc ∈ includes, inc ≠ f → ∀ seen, Attached tree seen →
          ∃ seen', Returns (loadInclude tree · [inc] seen) (some seen') := by
        intro inc hinc hne seen hseen
        have hedge : Edge tree f inc := ⟨includes, hlook, hinc, hne⟩
        have hnamed := Named.edge hf hedge
        obtain ⟨node, hnode⟩ := ne_none_iff_exists'.mp (h.found inc hnamed).2
        have hincfile : ∃ incs, tree.nodes.lookup inc = some (.file incs) := by
          cases node with
          | file incs => exact ⟨incs, hnode⟩
          | dir files => exact absurd hnode (tree.rules hlook hinc)
        exact ih inc hedge hnamed hincfile [] hseen fun seen _ => ⟨seen, Returns.step (Returns.pure _)⟩
      obtain ⟨mid, hparse⟩ := parseIncludes_returns hload hseen
      have hmid : Attached tree (mid ++ [f]) := by
        obtain ⟨n, hn⟩ := hparse
        obtain ⟨ha, -, hall⟩ := parseIncludes_attached
          (fun inc hinc s s' hs hl => attached_one hlook hinc (loadInclude_attached hs hl)) hseen (hn n le_rfl)
        exact ha.concat hroot hlook hall
      obtain ⟨seen', hret⟩ := hrest _ hmid
      have hbind := hparse.bind (g := fun fuel r =>
        r.elim (some none) fun seen => loadInclude tree fuel rest (seen ++ [f])) hret
      refine ⟨seen', Returns.step (hbind.congr fun fuel => ?_)⟩
      rw [loadInclude, if_neg (not_not.mpr hroot), if_neg hmem, hlook]

theorem returns_of_loadable (h : Loadable tree incname) :
    ∃ seen, Returns (loadInclude tree · [incname] []) (some seen) := by
  have hstart : Named tree incname incname := .start mem_cons_self
  have hnil : ∀ seen, Attached tree seen → ∃ seen', Returns (loadInclude tree · [] seen) (some seen') := fun seen _ =>
    ⟨seen, Returns.step (Returns.pure _)⟩
  obtain ⟨hroot, hfound⟩ := h.found incname hstart
  obtain ⟨node, hnode⟩ := ne_none_iff_exists'.mp hfound
  cases node with
  | file includes => exact loadInclude_file h hstart ⟨includes, hnode⟩ [] (Attached.nil tree) hnil
  | dir files =>
    -- the files of the directory are loaded one after the other
    have hfiles : ∀ todo, (∀ f ∈ todo, f ∈ files) → ∀ seen, Attached tree seen →
        ∃ seen', Returns (loadInclude tree · todo seen) (some seen') := by
      intro todo
      induction todo with
      | nil => exact fun _ => hnil
      | cons f todo ih =>
        intro hsub seen hseen
        have hmem := hsub f mem_cons_self
        have hnamed : Named tree incname f := hstart.step (by rw [hnode]; rfl) hmem
        exact loadInclude_file h hnamed (tree.listed hnode hmem) todo hseen (ih fun g hg => hsub g (mem_cons_of_mem _ hg))
    obtain ⟨seen', hret⟩ := hfiles files (fun f hf => hf) [] (Attached.nil tree)
    refine ⟨seen', Returns.step (hret.congr fun fuel => ?_)⟩
    rw [loadInclude, if_neg (not_not.mpr hroot), if_neg not_mem_nil, hnode]
    rfl

/-- `load_include` loads all that is reached exactly if everything exists and only files that include themselves directly
form a cycle. -/
theorem loadInclude_loadsAll_iff (tree : IncTree) (incname : Text) : LoadsAll tree incname ↔ Loadable tree incname := by
  constructor
  · rintro ⟨seen, hret, -⟩
    exact loadable_of_returns hret
  · intro h
    obtain ⟨seen, hret⟩ := returns_of_loadable h
    refine ⟨seen, hret, fun f includes hf hfile => ?_⟩
    obtain ⟨n, hn⟩ := hret
    obtain ⟨ha, -, hall⟩ := loadInclude_attached (Attached.nil tree) (hn n le_rfl)
    rcases (ha.named (hall incname mem_cons_self) hf).2 with hin | ⟨files, hdir, -⟩
    · exact hin
    · rw [hfile] at hdir
      cases hdir

end Load

def mutualTree : IncTree where
  nodes := [("/a".toList, .file ["/b".toList]), ("/b".toList, .file ["/a".toList])]
  listed := by
    intro d files f h
    have hmem := mem_of_lookup h
    simp at hmem
  rules := by
    intro f includes g files _ _ h
    have hmem := mem_of_lookup h
    simp at hmem

theorem mutual_includes_loop : ¬ ∃ fuel loaded, loadInclude mutualTree fuel ["/a".toList] [] = some loaded := by
  have hboth : ∀ fuel, loadInclude mutualTree fuel ["/a".toList] [] = none ∧
      loadInclude mutualTree fuel ["/b".toList] [] = none := by
    intro fuel
    induction fuel with
    | zero => exact ⟨rfl, rfl⟩
    | succ fuel ih =>
      obtain ⟨ha, hb⟩ := ih
      constructor
      · change ((loadInclude mutualTree fuel ["/b".toList] []).bind _).bind _ = none
        rw [hb]
        rfl
      · change ((loadInclude mutualTree fuel ["/a".toList] []).bind _).bind _ = none
        rw [ha]
        rfl
  rintro ⟨fuel, loaded, hloaded⟩
  rw [(hboth fuel).1] at hloaded
  cases hloaded

end AppArmor.Utils

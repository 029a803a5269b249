import AppArmor.Interface.PolicyCache
import Mathlib

namespace AppArmor

open List

def basename (path : Text) : Text := (path.reverse.takeWhile (· ≠ '/')).reverse

def skippableSuffix : List Text :=
  [".dpkg-new".toList, ".dpkg-old".toList, ".dpkg-dist".toList, ".dpkg-bak".toList, ".dpkg-remove".toList,
    ".pacsave".toList, ".pacnew".toList, ".rpmnew".toList, ".rpmsave".toList, ".orig".toList, ".rej".toList, "~".toList]

def isSkippableFile (path : Text) : Bool :=
  let name := basename path
  if name = [] ∨ name.head? = some '.' ∨ name = "README".toList then true
  else skippableSuffix.any (·.isSuffixOf name)

abbrev SkippedName (name : Text) : Prop := name = [] ∨ name.head? = some '.' ∨ name = "README".toList

def OnlyAtEnd (suffix name : Text) : Prop :=
  suffix <:+ name ∧ ∀ i ≤ name.length, suffix <+: name.drop i → i + suffix.length = name.length

variable {name suffix : Text}

theorem basename_of_notMem (h : '/' ∉ name) : basename name = name := by
  have hall : ∀ c ∈ name.reverse, decide (c ≠ '/') = true := by
    intro c hc
    refine decide_eq_true fun hslash => h ?_
    rw [← hslash]
    exact mem_reverse.mp hc
  rw [basename, takeWhile_eq_self_iff.mpr hall, reverse_reverse]

theorem strstr_eq_some {i : ℕ} (h : strstr name suffix = some i) :
    i ≤ name.length ∧ suffix <+: name.drop i ∧ ∀ j < i, ¬suffix <+: name.drop j := by
  rw [strstr, find?_range_eq_some] at h
  obtain ⟨hfound, hlt, hbefore⟩ := h
  refine ⟨Nat.lt_succ_iff.mp (mem_range.mp hlt), isPrefixOf_iff_prefix.mp hfound, fun j hj hpre => ?_⟩
  simpa [ isPrefixOf_iff_prefix.mpr hpre] using hbefore j hj

theorem strstr_isSome {i : ℕ} (hi : i ≤ name.length) (h : suffix <+: name.drop i) : ∃ j, strstr name suffix = some j := by
  rw [← Option.isSome_iff_exists, strstr, find?_isSome]
  exact ⟨i, mem_range.mpr (Nat.lt_succ_iff.mpr hi), isPrefixOf_iff_prefix.mpr h⟩

theorem strstr_atEnd_iff :
    (strstr name suffix).any (fun i => i + suffix.length = name.length) = true ↔ OnlyAtEnd suffix name := by
  rw [Option.any_eq_true]
  constructor
  · rintro ⟨i, hi, hend⟩
    obtain ⟨hle, hpre, hbefore⟩ := strstr_eq_some hi
    have hlen : i + suffix.length = name.length := by simpa using hend
    have heq : suffix = name.drop i := hpre.eq_of_length (by rw [length_drop]; omega)
    refine ⟨heq ▸ drop_suffix i name, fun j hj hprej => ?_⟩
    have hij : i ≤ j := Nat.not_lt.mp fun hlt => hbefore j hlt hprej
    have hroom := hprej.length_le
    rw [length_drop] at hroom
    omega
  · rintro ⟨⟨front, rfl⟩, honly⟩
    have hfound : ∃ j, strstr (front ++ suffix) suffix = some j := strstr_isSome (i := front.length) (by simp) (by simp)
    obtain ⟨i, hi⟩ := hfound
    obtain ⟨hle, hpre, -⟩ := strstr_eq_some hi
    exact ⟨i, hi, decide_eq_true (honly i hle hpre)⟩

theorem skippableSuffix_eq : skippableSuffix = ignoredSuffixes.map Prod.fst := by
  decide

theorem isBlacklisted_iff :
    isBlacklisted name ≠ 0 ↔ SkippedName name ∨ ∃ suffix ∈ skippableSuffix, OnlyAtEnd suffix name := by
  unfold isBlacklisted
  by_cases hname : SkippedName name
  · rw [if_pos hname]
    simp [hname]
  · rw [if_neg hname]
    have hfind : (∃ suffix ∈ skippableSuffix, OnlyAtEnd suffix name) ↔
        (ignoredSuffixes.find? fun suffix =>
          (strstr name suffix.1).any fun i => i + suffix.1.length = name.length).isSome = true := by
      rw [find?_isSome, skippableSuffix_eq]
      simp only [strstr_atEnd_iff, mem_map, exists_exists_and_eq_and]
    rw [hfind]
    split
    · next hnone => simp [hnone, hname]
    · next hsome =>
      simp only [hsome, Option.isSome_some, or_true, iff_true]
      split <;> decide

theorem isSkippableFile_iff (hslash : '/' ∉ name) :
    isSkippableFile name = true ↔ SkippedName name ∨ ∃ suffix ∈ skippableSuffix, suffix <:+ name := by
  rw [isSkippableFile, basename_of_notMem hslash]
  by_cases hname : SkippedName name
  · simp only [if_pos hname]
    simp [hname]
  · simp only [if_neg hname]
    simp [hname, isSuffixOf_iff_suffix]

/-- Both agree on a name exactly if it does not end with ignored suffixes all of which also occur before its end. -/
theorem isBlacklisted_agrees_iff (hslash : '/' ∉ name) :
    (isBlacklisted name ≠ 0 ↔ isSkippableFile name = true) ↔
      (SkippedName name ∨ (∀ suffix ∈ skippableSuffix, ¬suffix <:+ name) ∨
        ∃ suffix ∈ skippableSuffix, OnlyAtEnd suffix name) := by
  rw [isBlacklisted_iff, isSkippableFile_iff hslash]
  constructor
  · intro h
    by_cases hname : SkippedName name
    · exact Or.inl hname
    · right
      by_cases hany : ∃ suffix ∈ skippableSuffix, suffix <:+ name
      · exact Or.inr ((h.mpr (Or.inr hany)).resolve_left hname)
      · push Not at hany
        exact Or.inl hany
  · rintro (hname | hnone | ⟨suffix, hmem, honly⟩)
    · simp [hname]
    · refine or_congr_right ⟨?_, ?_⟩
      · rintro ⟨suffix, hmem, honly⟩
        exact absurd honly.1 (hnone suffix hmem)
      · rintro ⟨suffix, hmem, hsuffix⟩
        exact absurd hsuffix (hnone suffix hmem)
    · exact iff_of_true (Or.inr ⟨suffix, hmem, honly⟩) (Or.inr ⟨suffix, hmem, honly.1⟩)

theorem backup_name_agrees :
    isBlacklisted "profile~".toList ≠ 0 ↔ isSkippableFile "profile~".toList = true := by
  refine (isBlacklisted_agrees_iff (by decide)).mpr (Or.inr (Or.inr ⟨"~".toList, by decide, strstr_atEnd_iff.mp ?_⟩))
  decide

theorem repeated_suffix_differs : isBlacklisted "a~b~".toList = 0 ∧ isSkippableFile "a~b~".toList = true := by
  decide

end AppArmor

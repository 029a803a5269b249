import AppArmor.Lib.Codec
import AppArmor.Lib.Memory

namespace AppArmor.Interface

open Codec Memory List

def queryCmdLabel : Bytes := [0x6c, 0x61, 0x62, 0x65, 0x6c, 0]

def queryCmdLabelSize : ℕ := 6

def classFile : UInt8 := 2

/-- What `aa_query_label` is called with: the buffer, of which `allocated` bytes belong to the query, and its size. -/
structure Query where
  bytes : ℕ → UInt8
  allocated : ℕ
  size : ℕ

section Queries

-- the fresh memory holds anything
variable (fresh : ℕ → UInt8)

def queryFilePathLen (label path : Bytes) : Query :=
  let size := queryCmdLabelSize + label.length + 1 + path.length
  let query := copy fresh queryCmdLabelSize label
  let query := copy query (queryCmdLabelSize + label.length) [0]
  let query := copy query (queryCmdLabelSize + label.length + 1) [classFile]
  let query := copy query (queryCmdLabelSize + label.length + 2) path
  ⟨query, size + 1, size⟩

def queryLinkPathLen (label target link : Bytes) : Query :=
  let size := queryCmdLabelSize + label.length + 1 + target.length + 1 + link.length
  let pos := queryCmdLabelSize
  let query := copy fresh pos label
  let pos := pos + label.length
  let query := copy query pos [0]
  let pos := pos + 1
  let query := copy query pos [classFile]
  let query := copy query (pos + 1) link
  let pos := pos + (1 + link.length)
  let query := copy query pos [0]
  let query := copy query (pos + 1) target
  ⟨query, size, size⟩

end Queries

def queryLabel (mask : ℕ) (query : Query) : Option Bytes :=
  if mask = 0 ∨ query.size ≤ queryCmdLabelSize then none
  else some ((List.range query.size).map (copy query.bytes 0 queryCmdLabel))

def fileLayout (label path : Bytes) : Bytes := label ++ [0] ++ [classFile] ++ path

def linkLayout (label target link : Bytes) : Bytes := label ++ [0] ++ [classFile] ++ link ++ [0] ++ target

def Query.Whole (query : Query) (layout : Bytes) : Prop :=
  query.size = (queryCmdLabel ++ layout).length ∧
    ∀ mask, mask ≠ 0 → queryLabel mask query = some (queryCmdLabel ++ layout)

variable {fresh : ℕ → UInt8} {label path target link layout : Bytes} {query : Query}

theorem queryFilePathLen_holds : Holds (queryFilePathLen fresh label path).bytes queryCmdLabelSize
    (fileLayout label path) := by
  have hlabel := holds_copy fresh queryCmdLabelSize label
  have hnul := hlabel.snoc rfl [0]
  apply (hnul.snoc ?_ [classFile]).snoc ?_ path
  · simp only [length_append, length_singleton, Nat.add_assoc]
  · simp only [length_append, length_singleton, Nat.add_assoc]

theorem queryLinkPathLen_holds : Holds (queryLinkPathLen fresh label target link).bytes queryCmdLabelSize
    (linkLayout label target link) := by
  have hlabel := holds_copy fresh queryCmdLabelSize label
  have hnul := hlabel.snoc rfl [0]
  apply (((hnul.snoc ?_ [classFile]).snoc ?_ link).snoc ?_ [0]).snoc ?_ target
  all_goals
    simp only [length_append, length_singleton]
    omega

theorem queryLabel_sends (h : Holds query.bytes queryCmdLabelSize layout) (hsize : queryCmdLabelSize < query.size)
    (hle : query.size ≤ (queryCmdLabel ++ layout).length) {mask : ℕ} (hmask : mask ≠ 0) :
    queryLabel mask query = some ((queryCmdLabel ++ layout).take query.size) := by
  have hcmd := holds_copy query.bytes 0 queryCmdLabel
  have hlay : Holds (copy query.bytes 0 queryCmdLabel) (0 + queryCmdLabel.length) layout :=
    h.frame (.inr (by decide))
  rw [queryLabel, if_neg (by omega), (hcmd.append hlay).read hle]

theorem queryLabel_short (h : Holds query.bytes queryCmdLabelSize layout) (hlay : layout ≠ [])
    (hsize : query.size + 1 = (queryCmdLabel ++ layout).length) (hpos : queryCmdLabelSize < query.size) {mask : ℕ}
    (hmask : mask ≠ 0) : queryLabel mask query = some (queryCmdLabel ++ layout.dropLast) := by
  rw [queryLabel_sends h hpos (by omega) hmask, ← dropLast_append_of_ne_nil hlay, dropLast_eq_take]
  congr 2
  omega

/-- The class byte is not counted in the size, so every query lacks its last byte; the link query also writes one byte
more than it has allocated. -/
theorem queries_lack_last_byte (fresh : ℕ → UInt8) (label path target link : Bytes) :
    let file := queryFilePathLen fresh label path
    let linked := queryLinkPathLen fresh label target link
    (file.Whole (fileLayout label path) ↔ False) ∧ (linked.Whole (linkLayout label target link) ↔ False) ∧
      file.size + 1 = (queryCmdLabel ++ fileLayout label path).length ∧
      linked.size + 1 = (queryCmdLabel ++ linkLayout label target link).length ∧
      linked.allocated < (queryCmdLabel ++ linkLayout label target link).length ∧
      ∀ mask, mask ≠ 0 →
        queryLabel mask file = some (queryCmdLabel ++ (fileLayout label path).dropLast) ∧
        queryLabel mask linked = some (queryCmdLabel ++ (linkLayout label target link).dropLast) := by
  intro file linked
  have hfile : file.size + 1 = (queryCmdLabel ++ fileLayout label path).length := by
    simp only [file, queryFilePathLen, fileLayout, queryCmdLabel, length_append, length_cons,
      length_nil, queryCmdLabelSize]
    omega
  have hlinked : linked.size + 1 = (queryCmdLabel ++ linkLayout label target link).length := by
    simp only [linked, queryLinkPathLen, linkLayout, queryCmdLabel, length_append, length_cons,
      length_nil, queryCmdLabelSize]
    omega
  have hpos : queryCmdLabelSize < file.size := by
    dsimp only [file, queryFilePathLen]
    omega
  have hpos' : queryCmdLabelSize < linked.size := by
    dsimp only [linked, queryLinkPathLen]
    omega
  refine ⟨⟨fun h => ?_, False.elim⟩, ⟨fun h => ?_, False.elim⟩, hfile, hlinked, ?_, fun mask hmask => ⟨?_, ?_⟩⟩
  · have hsize := h.1
    omega
  · have hsize := h.1
    omega
  · rw [← hlinked]
    exact Nat.lt_succ_self linked.size
  · exact queryLabel_short queryFilePathLen_holds (by simp [fileLayout]) hfile hpos hmask
  · exact queryLabel_short queryLinkPathLen_holds (by simp [linkLayout]) hlinked hpos' hmask

theorem file_query_loses_byte :
    ¬ (queryFilePathLen (fun _ => 0) [0x78] [0x2f, 0x61]).Whole (fileLayout [0x78] [0x2f, 0x61]) ∧
      queryLabel 4 (queryFilePathLen (fun _ => 0) [0x78] [0x2f, 0x61]) =
        queryLabel 4 (queryFilePathLen (fun _ => 0) [0x78] [0x2f, 0x62]) := by
  refine ⟨fun h => absurd h.1 (by decide), by decide⟩

end AppArmor.Interface

import GoTags.Proofs.Building
import GoTags.Tag.Section

/-!
# Record lines read back

**Input.** The bytes of a chunk: its records one after the other, each with a newline at
its end.

**Algorithm.** Records are written one by one. They are read all at once: the last newline
is taken off, and what is left is cut at every newline.

**Results.**
* `splitOn_joinWith_iff`: parts are read back exactly if no separator stands in them.
* `records_terminated_iff`: so are lines that end with newlines.
* `newline_mem_body_iff`: a newline in a record is in the source line or in the name.
* `records_flatMap_bytes`: records without newlines in their texts are read back.
* `records_read_back_iff`: when the records of a chunk are read back.
-/

namespace GoTags

namespace Bytes

section Parts

variable {sep : UInt8}

theorem joinWith_cons_cons (part next : Bytes) (parts : List Bytes) :
    joinWith sep (part :: next :: parts) = part ++ sep :: joinWith sep (next :: parts) := rfl

/-- Parts are read back exactly if no separator stands in them. -/
theorem splitOn_joinWith_iff {parts : List Bytes} (hne : parts ≠ []) :
    splitOn sep (joinWith sep parts) = parts ↔ ∀ part ∈ parts, sep ∉ part := by
  constructor
  · -- parts that are read back come out of a split
    intro h part hpart
    rw [← h] at hpart
    exact not_mem_of_mem_splitOn hpart
  · intro h
    induction parts with
    | nil => exact absurd rfl hne
    | cons part parts ih =>
        rw [List.forall_mem_cons] at h
        cases parts with
        | nil => exact splitOn_of_not_mem h.1
        | cons next parts =>
            rw [joinWith_cons_cons, splitOn_append h.1, ih (List.cons_ne_nil next parts) h.2]

/-- Parts with a separator after each are the parts put together, and one more separator. -/
theorem flatMap_terminated {parts : List Bytes} (hne : parts ≠ []) :
    (parts.flatMap fun part => part ++ [sep]) = joinWith sep parts ++ [sep] := by
  induction parts with
  | nil => exact absurd rfl hne
  | cons part parts ih =>
      cases parts with
      | nil => exact List.flatMap_singleton ..
      | cons next parts =>
          rw [List.flatMap_cons, ih (List.cons_ne_nil next parts), joinWith_cons_cons]
          simp

end Parts

end Bytes

namespace Section

section Lines

/-- The record lines of a body that ends with a newline. -/
theorem records_append_newline (name : String) (bytes : Bytes) :
    (Section.mk name (bytes ++ [Bytes.newline])).records =
      Bytes.splitOn Bytes.newline bytes := by
  unfold records
  split
  · rename_i hnil
    simp at hnil
  · simp

/-- Lines that end with newlines are read back exactly if there is no newline in them. -/
theorem records_terminated_iff (name : String) (lines : List Bytes) :
    (Section.mk name (lines.flatMap fun line => line ++ [Bytes.newline])).records = lines ↔
      ∀ line ∈ lines, Bytes.newline ∉ line := by
  by_cases hne : lines = []
  · subst hne
    simp [records]
  · rw [Bytes.flatMap_terminated hne, records_append_newline, Bytes.splitOn_joinWith_iff hne]

end Lines

end Section

section Written

/-- A newline in a record is in the source line or in the name. -/
theorem Record.newline_mem_body_iff (layout : Layout) (r : Record) :
    Bytes.newline ∈ r.body layout ↔
      Bytes.newline ∈ Utf8.encode r.lineText ∨ Bytes.newline ∈ Utf8.encode r.name := by
  have hcomma : Bytes.newline ≠ Bytes.comma := by decide
  have hwrite : ∀ n, Bytes.newline ∉ Decimal.write n :=
    fun n => Decimal.not_mem_write n (by decide)
  have hline : Bytes.newline ∉ afterLine layout := by
    cases layout <;> decide
  have hname : Bytes.newline ∉ afterName layout := by
    cases layout <;> decide
  simp [body, hcomma, hwrite, hline, hname]

/-- Records without newlines in their texts are read back line by line. -/
theorem Section.records_flatMap_bytes (name : String) (layout : Layout) {records : List Record}
    (h : ∀ r ∈ records, Bytes.newline ∉ Utf8.encode r.lineText ∧
      Bytes.newline ∉ Utf8.encode r.name) :
    (Section.mk name (records.flatMap (Record.bytes layout))).records =
      records.map (Record.body layout) := by
  have hlines : records.flatMap (Record.bytes layout) =
      (records.map (Record.body layout)).flatMap fun line => line ++ [Bytes.newline] := by
    rw [List.flatMap_map]
    rfl
  rw [hlines, Section.records_terminated_iff, List.forall_mem_map]
  intro r hr
  rw [Record.newline_mem_body_iff, not_or]
  exact h r hr

theorem Record.dropLast_bytes (layout : Layout) (r : Record) :
    (r.bytes layout).dropLast = r.body layout :=
  List.dropLast_concat

/-- **Record lines read back.** The lines that are read in the bytes of a chunk are its
records without their final newlines, exactly if no source line and no name in the
records holds a newline. -/
theorem Chunk.records_read_back_iff {σ : Type} (source : LineSource σ) (config : IndexConfig)
    (fileName : String) (decls : List Declaration) (s : σ) :
    match (build source config fileName decls s).1 with
    | .error _ => True
    | .ok chunk =>
        ∀ name : String,
          (Section.mk name chunk.bytes).records =
              chunk.records.map (fun r => (r.bytes config.layout).dropLast) ↔
            ∀ r ∈ chunk.records, Bytes.newline ∉ Utf8.encode r.lineText ∧
              Bytes.newline ∉ Utf8.encode r.name := by
  cases hbuild : (build source config fileName decls s).1 with
  | error f => trivial
  | ok chunk =>
      intro name
      have hlines : chunk.bytes = (chunk.records.map (Record.body config.layout)).flatMap
          fun line => line ++ [Bytes.newline] := by
        rw [bytes_of_build source fileName hbuild, List.flatMap_map]
        rfl
      have hrecords : (chunk.records.map fun r => (r.bytes config.layout).dropLast) =
          chunk.records.map (Record.body config.layout) :=
        List.map_congr_left fun r _ => r.dropLast_bytes config.layout
      rw [hlines, hrecords, Section.records_terminated_iff, List.forall_mem_map]
      refine forall₂_congr ?_
      intro r hr
      rw [Record.newline_mem_body_iff, not_or]

end Written

end GoTags

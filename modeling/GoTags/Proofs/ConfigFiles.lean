import GoTags.Proofs.TomlTables
import GoTags.Proofs.Utf8
import GoTags.Proofs.Writing

/-!
# Configurations in files

A configuration is written as a document of two tables. Everything in it is written out
but a directory that is not given, so that nothing is left to the defaults when the
document is read; a key that the reader did not know would be passed over in silence.

**Input.** A configuration whose directory, if there is one, and file name are texts that
need no escaping.

**Results.**
* `toList_render`, `read_document`: the document consists of the two tables.
* `readOutput_fields`, `readIndex_fields`: their fields give the parts of the configuration.
* `read_render`: reading the document gives the configuration back.
* `load_after_write`: so does loading the file that the document was written to.
-/

namespace GoTags
namespace Config

section Words

theorem word_policy (policy : WritePolicy) : Toml.Unescaped policy.word ∧
    choice? WritePolicy.words (.string policy.word) = some policy := by
  cases policy <;> decide

theorem word_lineErrors (lineErrors : LineErrors) : Toml.Unescaped lineErrors.word ∧
    choice? LineErrors.words (.string lineErrors.word) = some lineErrors := by
  cases lineErrors <;> decide

theorem word_layout (layout : Layout) : Toml.Unescaped layout.word ∧
    choice? Layout.words (.string layout.word) = some layout := by
  cases layout <;> decide

end Words

section Documents

/-- The directory, if there is one, and the file name of a configuration are texts that
need no escaping. -/
structure Unescaped (c : Config) : Prop where
  dir : ∀ dir ∈ c.output.dir, ∃ text, dir = Utf8.encode text ∧ Toml.Unescaped text
  fileName : Toml.Unescaped c.output.fileName

/-- The field for a directory, if there is one. -/
def dirFields : (dir : Option Path) → (∀ d ∈ dir, Toml.Unescaped (Path.display d)) →
    List Toml.TextField
  | none, _ => []
  | some d, h => [⟨"dir", Path.display d, by decide, h d rfl⟩]

variable {c : Config}

theorem Unescaped.display (h : c.Unescaped) {dir : Path} (hdir : dir ∈ c.output.dir) :
    Toml.Unescaped (Path.display dir) ∧ Utf8.encode (Path.display dir) = dir := by
  obtain ⟨text, rfl, htext⟩ := h.dir dir hdir
  rw [Path.display, Utf8.lossy_encode]
  exact ⟨htext, rfl⟩

/-- The fields of how the tags file is written. -/
def outputFields (h : c.Unescaped) : List Toml.TextField :=
  dirFields c.output.dir (fun _ hdir => (h.display hdir).1) ++
    [⟨"file_name", c.output.fileName, by decide, h.fileName⟩,
      ⟨"policy", c.output.policy.word, by decide, (word_policy _).1⟩]

theorem nodup_outputFields (h : c.Unescaped) :
    ((outputFields h).map Toml.TextField.key).Nodup := by
  obtain ⟨⟨dir, fileName, policy⟩, index⟩ := c
  cases dir <;> simp [outputFields, dirFields]

/-- How the tags file is written, as a table. -/
def outputTable (h : c.Unescaped) : Toml.TextTable where
  name := "output"
  fields := outputFields h
  bare := by decide
  distinct := nodup_outputFields h

/-- The fields of how records are produced. -/
def indexFields (c : Config) : List Toml.TextField :=
  [⟨"line_errors", c.index.lineErrors.word, by decide, (word_lineErrors _).1⟩,
    ⟨"layout", c.index.layout.word, by decide, (word_layout _).1⟩]

/-- How records are produced, as a table. -/
def indexTable (c : Config) : Toml.TextTable where
  name := "index"
  fields := c.indexFields
  bare := by decide
  distinct := by simp [indexFields]

theorem toList_render (h : c.Unescaped) :
    c.render.toList = (outputTable h).chars ++ '\n' :: (c.indexTable.chars ++ []) := by
  obtain ⟨⟨dir, fileName, policy⟩, index⟩ := c
  cases dir <;>
    simp [render, outputTable, outputFields, dirFields, indexTable, indexFields,
      Toml.TextTable.chars, Toml.TextField.chars]

/-- The document of a configuration consists of two tables. -/
theorem read_document (h : c.Unescaped) :
    Toml.read c.render = .ok [(outputTable h).entry, c.indexTable.entry] := by
  have hreads : Toml.ReadsAs c.render.toList
      ([outputTable h, c.indexTable].flatMap Toml.TextTable.lines) := by
    rw [toList_render h]
    exact ((Toml.readsAs_nil.table c.indexTable).blank).table (outputTable h)
  refine Toml.read_of_readsAs ?_ hreads (by simp [outputTable, indexTable])
  rw [toList_render h]
  simp [Toml.TextTable.chars]

end Documents

section Reading

variable {c : Config}

/-- A field that is given has the value that is read from it. -/
theorem field_of_some {α : Type} {table name : String} {read? : Toml.Value → Option α}
    {default a : α} {fields : String → Option Toml.Value} {v : Toml.Value}
    (hv : fields name = some v) (ha : read? v = some a) :
    field table name read? default fields = .ok a := by
  rw [field, hv]
  dsimp only
  rw [ha]

theorem readOutput_fields (h : c.Unescaped) :
    readOutput (Toml.Entries.get? ((outputFields h).map Toml.TextField.entry)) =
      .ok c.output := by
  obtain ⟨⟨dir, fileName, policy⟩, index⟩ := c
  have hdir : field "output" "dir" (fun v => (text? v).map fun t => some (Utf8.encode t)) none
      (Toml.Entries.get? ((outputFields h).map Toml.TextField.entry)) = .ok dir := by
    cases dir with
    | none => rfl
    | some dir =>
        have hread : ((text? (.string (Path.display dir))).map fun t => some (Utf8.encode t)) =
            some (some dir) := by
          rw [text?, Option.map_some, (h.display rfl).2]
        exact field_of_some rfl hread
  have hfileName : field "output" "file_name" text? "TAGS"
      (Toml.Entries.get? ((outputFields h).map Toml.TextField.entry)) = .ok fileName := by
    cases dir <;> exact field_of_some rfl rfl
  have hpolicy : field "output" "policy" (choice? WritePolicy.words) .createOnly
      (Toml.Entries.get? ((outputFields h).map Toml.TextField.entry)) = .ok policy := by
    cases dir <;> exact field_of_some rfl (word_policy policy).2
  rw [readOutput, hdir, hfileName, hpolicy]
  rfl

theorem readIndex_fields (c : Config) :
    readIndex (Toml.Entries.get? (c.indexFields.map Toml.TextField.entry)) = .ok c.index := by
  have hlineErrors : field "index" "line_errors" (choice? LineErrors.words) .skip
      (Toml.Entries.get? (c.indexFields.map Toml.TextField.entry)) = .ok c.index.lineErrors :=
    field_of_some rfl (word_lineErrors _).2
  have hlayout : field "index" "layout" (choice? Layout.words) .legacy
      (Toml.Entries.get? (c.indexFields.map Toml.TextField.entry)) = .ok c.index.layout :=
    field_of_some rfl (word_layout _).2
  rw [readIndex, hlineErrors, hlayout]
  rfl

theorem ofEntries_tables (h : c.Unescaped) :
    ofEntries [(outputTable h).entry, c.indexTable.entry] = .ok c := by
  have houtput : part "output" ["dir", "file_name", "policy"] readOutput {}
      [(outputTable h).entry, c.indexTable.entry] = .ok c.output :=
    readOutput_fields h
  have hindex : part "index" ["line_errors", "layout"] readIndex {}
      [(outputTable h).entry, c.indexTable.entry] = .ok c.index :=
    readIndex_fields c
  rw [ofEntries, houtput, hindex]
  rfl

/-- Reading a document that was made of a configuration gives the configuration back. -/
theorem read_render (h : c.Unescaped) : read c.render = .ok c := by
  rw [read, read_document h]
  exact ofEntries_tables h

end Reading

section Files

variable {c : Config} {fs after : FileSystem} {p : Path}

/-- **A configuration survives being written to a file and loaded from it.** Whatever the
file system, a write that replaces a file by the document of a configuration leaves one
from which the same configuration is loaded, if its directory and its file name are texts
that need no escaping. -/
theorem load_after_write (h : c.Unescaped)
    (hwrite : fs.write .overwrite p (Utf8.encode c.render) = .ok after) :
    load after p = .ok c := by
  have hread : after.read p = .ok (Utf8.encode c.render) := FileSystem.read_of_overwrite hwrite
  have hdecode : Utf8.decode? (Utf8.encode c.render) = some c.render :=
    Utf8.decode?_eq_some_iff.mpr rfl
  have htext : after.readText p = .ok c.render := by
    simp only [FileSystem.readText, hread, hdecode]
  rw [load, htext]
  dsimp only
  rw [read_render h]
  rfl

/-- A directory with a quote and a tab in its name, an empty file name, and no default
anywhere. -/
theorem load_after_write_odd_names :
    let c : Config :=
      ⟨⟨some (Utf8.encode "it's\ta#dir"), "", .append⟩, ⟨.abort, .etags⟩⟩
    let fs : FileSystem := ⟨Store.empty.put [[0x63]] (.file [0x78]), some []⟩
    let after := fs.put [[0x63]] (.file (Utf8.encode c.render))
    fs.write .overwrite [0x63] (Utf8.encode c.render) = .ok after ∧
      load after [0x63] = .ok c := by
  have hwrite : ∀ data : Bytes,
      FileSystem.write ⟨Store.empty.put [[0x63]] (.file [0x78]), some []⟩ .overwrite [0x63] data =
        .ok (FileSystem.put ⟨Store.empty.put [[0x63]] (.file [0x78]), some []⟩ [[0x63]]
          (.file data)) :=
    fun _ => rfl
  intro c fs after
  refine ⟨hwrite _, load_after_write ⟨?_, by decide⟩ (hwrite _)⟩
  rintro dir ⟨rfl⟩
  exact ⟨"it's\ta#dir", rfl, by decide⟩

end Files

end Config
end GoTags

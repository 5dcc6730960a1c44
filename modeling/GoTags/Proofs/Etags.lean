import GoTags.Proofs.RecordLines

/-!
# The etags layout taken apart

In the etags layout a DEL byte ends the source line of a record and an SOH byte its name.
Nothing is escaped, so a source line may hold both of them, and digits and commas as well.
A record can be taken apart all the same, from behind: what follows its last SOH is its
position, and the last DEL before that ends the source line.

**Input.** Records without newlines in their texts and without a DEL in their names.

**Results.**
* `ofEtags?_body`: a record is read back from its line.
* `etagsRecords?_flatMap_bytes`: records are read back from their bytes.
* `etags_decodable`: different records have different bytes.
-/

namespace GoTags

namespace Record

section Lines

/-- The byte that ends a source line in the etags layout. -/
def lineMark : UInt8 := 0x7f

/-- The byte that ends a name in the etags layout. -/
def nameMark : UInt8 := 0x01

/-- The record that a line in the etags layout stands for. -/
def ofEtags? (line : Bytes) : Option Record := do
  let (front, position) ← Bytes.cutLast nameMark line
  let (text, name) ← Bytes.cutLast lineMark front
  let (number, offset) ← Bytes.cut Bytes.comma position
  return ⟨← Utf8.decode? text, ← Utf8.decode? name, ← Decimal.digits? number,
    ← Decimal.digits? offset⟩

/-- Nothing in the texts of a record is taken for the end of one: neither holds a newline,
and the name no DEL. -/
def Legible (r : Record) : Prop :=
  Bytes.newline ∉ Utf8.encode r.lineText ∧ Bytes.newline ∉ Utf8.encode r.name ∧
    lineMark ∉ Utf8.encode r.name

instance (r : Record) : Decidable r.Legible :=
  inferInstanceAs (Decidable (_ ∧ _))

theorem nameMark_not_mem_position (line byteOffset : Nat) :
    nameMark ∉ Decimal.write line ++ Bytes.comma :: Decimal.write byteOffset := by
  have hdigits : ∀ n, nameMark ∉ Decimal.write n := fun n => Decimal.not_mem_write n (by decide)
  have hcomma : nameMark ≠ Bytes.comma := by decide
  simp [hdigits, hcomma]

/-- A record is read back from its line. -/
theorem ofEtags?_body {r : Record} (h : lineMark ∉ Utf8.encode r.name) :
    ofEtags? (r.body .etags) = some r := by
  have hbody : r.body .etags =
      (Utf8.encode r.lineText ++ lineMark :: Utf8.encode r.name) ++
        nameMark :: (Decimal.write r.line ++ Bytes.comma :: Decimal.write r.byteOffset) := by
    simp [body, afterLine, afterName, lineMark, nameMark]
  have hname := Bytes.cutLast_eq_some_iff.mpr
    ⟨hbody, nameMark_not_mem_position r.line r.byteOffset⟩
  have hline : Bytes.cutLast lineMark (Utf8.encode r.lineText ++ lineMark :: Utf8.encode r.name) =
      some (Utf8.encode r.lineText, Utf8.encode r.name) :=
    Bytes.cutLast_eq_some_iff.mpr ⟨rfl, h⟩
  have hposition : Bytes.cut Bytes.comma
      (Decimal.write r.line ++ Bytes.comma :: Decimal.write r.byteOffset) =
        some (Decimal.write r.line, Decimal.write r.byteOffset) :=
    Bytes.cut_eq_some_iff.mpr ⟨rfl, Decimal.not_mem_write r.line (by decide)⟩
  have htext : ∀ s, Utf8.decode? (Utf8.encode s) = some s :=
    fun s => Utf8.decode?_eq_some_iff.mpr rfl
  simp only [ofEtags?, hname, hline, hposition, htext, Decimal.digits?_write,
    Option.bind_eq_bind, Option.bind_some]
  rfl

end Lines

end Record

section Bodies

/-- The records of a section in the etags layout. -/
def Section.etagsRecords? (s : Section) : Option (List Record) :=
  s.records.mapM Record.ofEtags?

theorem Record.mapM_ofEtags?_body {records : List Record} (h : ∀ r ∈ records, r.Legible) :
    (records.map (Record.body .etags)).mapM Record.ofEtags? = some records := by
  induction records with
  | nil => rfl
  | cons r records ih =>
      rw [List.forall_mem_cons] at h
      rw [List.map_cons, List.mapM_cons, Record.ofEtags?_body h.1.2.2, ih h.2]
      rfl

/-- Records are read back from their bytes. -/
theorem Section.etagsRecords?_flatMap_bytes (name : String) {records : List Record}
    (h : ∀ r ∈ records, r.Legible) :
    (Section.mk name (records.flatMap (Record.bytes .etags))).etagsRecords? = some records := by
  rw [etagsRecords?, records_flatMap_bytes name .etags fun r hr => ⟨(h r hr).1, (h r hr).2.1⟩,
    Record.mapM_ofEtags?_body h]

/-- **The etags layout is decodable.** Two lists of records whose texts hold no newline and
whose names hold no DEL are written alike exactly if they are the same. Source lines may
hold both marks, and an SOH in a name does no harm, since the last one in a line is always
the one after the name. -/
theorem Record.etags_decodable {rs qs : List Record} (hrs : ∀ r ∈ rs, r.Legible)
    (hqs : ∀ q ∈ qs, q.Legible) :
    rs.flatMap (Record.bytes .etags) = qs.flatMap (Record.bytes .etags) ↔ rs = qs := by
  constructor
  · intro h
    have hread := Section.etagsRecords?_flatMap_bytes "" hrs
    rw [h, Section.etagsRecords?_flatMap_bytes "" hqs, Option.some.injEq] at hread
    exact hread.symm
  · rintro rfl
    rfl

/-- A source line that reads like the front of a record, with its marks and its position. -/
theorem Record.etags_decodable_marked_line :
    let r : Record := ⟨"a\x7fb\x011,2", "c", 1, 23⟩
    let q : Record := ⟨"a", "b\x011,2", 1, 23⟩
    ((∀ x ∈ [r, q], x.Legible) ∧ ∀ x ∈ [q, r], x.Legible) ∧
      [r, q].flatMap (Record.bytes .etags) ≠ [q, r].flatMap (Record.bytes .etags) := by
  intro r q
  have hrs : ∀ x ∈ [r, q], x.Legible := by decide
  have hqs : ∀ x ∈ [q, r], x.Legible := by decide
  exact ⟨⟨hrs, hqs⟩, fun h => absurd ((Record.etags_decodable hrs hqs).mp h) (by decide)⟩

-- a DEL in a name can be taken for the end of the source line
example : Record.bytes .etags ⟨"a", "b\x7fc", 1, 2⟩ = Record.bytes .etags ⟨"a\x7fb", "c", 1, 2⟩ := by
  decide

end Bodies

end GoTags

import Hiaux.Lib.Delimited

/-!
# `HttpApi.PostData` — the body of a POST request

`HttpApiPostData.proto` is compiled by the build; the generated class is represented by the two operations
the program uses on it, as a parameter (`PostProtobuf`). What is known of them is the wire format of the
message and that parsing undoes serialising (`PostProtobuf.Lawful`); `PostProtobuf.reference` is an
implementation.
-/

namespace Hiaux
namespace HttpApi

open Lib

/-- `HttpApiPostDataField`. -/
structure PostDataField where
  field : Bytes
  value : Bytes
deriving DecidableEq, Repr

/-- The tag byte of a delimited field with number 1: the names, and the entries themselves. -/
def tagFirst : UInt8 := 10

/-- The tag byte of a delimited field with number 2: the values. -/
def tagSecond : UInt8 := 18

/-- An entry on the wire. -/
def PostDataField.wire (f : PostDataField) : Bytes := delimited tagFirst f.field ++ delimited tagSecond f.value

/-- `HttpApiPostData` on the wire. -/
def wireFormat (fields : List PostDataField) : Bytes :=
  (fields.map PostDataField.wire).flatMap (delimited tagFirst)

/-- The generated class: `SerializeAsString`, and the entries `ParseFromString` leaves behind (its result is
    never checked by the program). -/
structure PostProtobuf where
  serializeAsString : List PostDataField → Bytes
  parseFromString : Bytes → List PostDataField

/-- What the generated class promises. -/
structure PostProtobuf.Lawful (pb : PostProtobuf) : Prop where
  wire : ∀ fields, pb.serializeAsString fields = wireFormat fields
  undo : ∀ fields, pb.parseFromString (pb.serializeAsString fields) = fields

/-- An empty text holds no entries. -/
theorem PostProtobuf.Lawful.parse_nil {pb : PostProtobuf} (h : pb.Lawful) : pb.parseFromString [] = [] := by
  have hundo := h.undo []
  rw [h.wire] at hundo
  exact hundo

/-! ## An implementation -/

/-- Reading an entry: its name and its value. -/
def readField (s : Bytes) : Option PostDataField :=
  match readDelimited tagFirst s with
  | none => none
  | some (field, r) => (readDelimited tagSecond r).map (fun v => ⟨field, v.1⟩)

theorem readField_wire (f : PostDataField) : readField f.wire = some f := by
  have hname : readDelimited tagFirst f.wire = some (f.field, delimited tagSecond f.value) :=
    readDelimited_append _ _ _
  have hvalue : readDelimited tagSecond (delimited tagSecond f.value) = some (f.value, []) := by
    simpa using readDelimited_append tagSecond f.value []
  simp [readField, hname, hvalue]

/-- The entries of a text in wire format; none if it is not in that format. -/
def readFields (s : Bytes) : List PostDataField :=
  match readAll tagFirst s.length s with
  | none => []
  | some entries => (entries.mapM readField).getD []

theorem mapM_readField_wire (fields : List PostDataField) :
    (fields.map PostDataField.wire).mapM readField = some fields := by
  induction fields with
  | nil => rfl
  | cons f fields ih => simp [List.mapM_cons, readField_wire, ih]

/-- A reader and a writer of the wire format. -/
def PostProtobuf.reference : PostProtobuf := ⟨wireFormat, readFields⟩

/-- **The wire format can be read back.** -/
theorem PostProtobuf.reference_lawful : PostProtobuf.reference.Lawful := by
  refine ⟨fun _ => rfl, ?_⟩
  intro fields
  have hread : readAll tagFirst (wireFormat fields).length (wireFormat fields) =
      some (fields.map PostDataField.wire) :=
    readAll_flatMap _ _ (length_le_flatMap_delimited _ _)
  show readFields (wireFormat fields) = fields
  rw [readFields, hread]
  show ((fields.map PostDataField.wire).mapM readField).getD [] = fields
  rw [mapM_readField_wire]
  rfl

end HttpApi
end Hiaux

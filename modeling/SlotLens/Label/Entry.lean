import SlotLens.Account
import SlotLens.Field
import SlotLens.Match.Basic

namespace SlotLens

structure FieldValue where
  hex : String
  decoded : Value
  isLength : Bool

namespace FieldValue

def raw (word : Word) : FieldValue := ⟨word.hex, .null, false⟩

def ofBytesSlot (label : Value) (word : Word) : FieldValue :=
  let b := BytesSlot.ofBytes label word.bytes
  ⟨word.hex, if b.isLong then .int b.length else b.decoded, b.isLong⟩

def ofMatch (m : Match) (word : Word) : Except Fault FieldValue :=
  match m.leaf with
  | none => .ok (raw word)
  | some (.bytes entry) =>
    .ok (if m.path.getLast?.any Segment.isChunk then raw word
      else ofBytesSlot entry.typeLabel word)
  | some (.value entry) => do
    let field ← Field.extract word.bytes m.offset m.size
    return ⟨Hex.text field, ← Field.decode entry.typeLabel field, false⟩

def toValue (v : FieldValue) : Value := .object [("hex", .text v.hex), ("decoded", v.decoded)]

end FieldValue

structure TraceEntry where
  current : FieldValue
  next : Option FieldValue
  slot : Int
  path : Path
  expression : String
  note : Option String

namespace TraceEntry

def lengthNote : String := "long bytes/string; content stored at keccak256(slot) and not decoded"

def joinNotes (note : Option String) (more : String) : String :=
  match note with
  | some text => if text.isEmpty then more else text ++ " " ++ more
  | none => more

def ofMatch (access : Access) (m : Match) : Except Fault TraceEntry := do
  let current ← FieldValue.ofMatch m access.current
  let next ← access.next.mapM (FieldValue.ofMatch m)
  if current.isLength || next.any (·.isLength) then
    let path := m.path ++ [.bytesLength]
    return ⟨current, next, m.slot, path, ← path.render m.name,
      some (joinNotes m.note lengthNote)⟩
  else return ⟨current, next, m.slot, m.path, ← m.expression, m.note⟩

/-- A write that keeps the bytes of the field does not modify it. -/
def isModified (e : TraceEntry) : Bool := e.next.any (·.hex != e.current.hex)

def toValue (e : TraceEntry) : Value :=
  .object ([("current", e.current.toValue)] ++
    (match e.next with
      | some next => [("next", next.toValue)]
      | none => []) ++
    [("modified", .bool e.isModified), ("slots", .list [.text (Slot.hex e.slot)]),
      ("path", e.path.toValue), ("fullExpression", .text e.expression)] ++
    match e.note with
    | some note => [("note", .text note)]
    | none => [])

end TraceEntry

end SlotLens

import SlotLens.Fault

namespace SlotLens

inductive Segment where
  | field (name : Value)
  | index (i : Nat)
  /-- The value of a mapping under a key, with the hashed bytes and the type of the keys. -/
  | key (value : Value) (hex : String) (type : Value)
  | arrayLength
  | bytesLength
  | chunk (i : Nat)

abbrev Path := List Segment

inductive SegmentKind where
  | structField
  | arrayIndex
  | mappingKey
  | arrayLength
  | bytesLength
  | bytesChunk
  deriving DecidableEq, Repr

namespace SegmentKind

def all : List SegmentKind :=
  [.structField, .arrayIndex, .mappingKey, .arrayLength, .bytesLength, .bytesChunk]

def name : SegmentKind → String
  | .structField => "struct_field"
  | .arrayIndex => "array_index"
  | .mappingKey => "mapping_key"
  | .arrayLength => "array_length"
  | .bytesLength => "bytes_length"
  | .bytesChunk => "bytes_chunk"

def ofName? (s : String) : Option SegmentKind := all.find? (·.name = s)

end SegmentKind

structure SegmentRecord where
  kind : SegmentKind
  name : Value
  index : Value
  /-- The decoded key. -/
  key : Value
  keyHex : Value
  keyType : Value

namespace SegmentRecord

def ofKind (kind : SegmentKind) : SegmentRecord := ⟨kind, .null, .null, .null, .null, .null⟩

def text (r : SegmentRecord) : String :=
  match r.kind with
  | .structField => "." ++ r.name.plain
  | .arrayIndex => "[" ++ r.index.plain ++ "]"
  | .mappingKey => "[" ++ (if r.key.isNull then r.keyHex else r.key).plain ++ "]"
  | .bytesChunk => "._chunk[" ++ r.index.plain ++ "]"
  | .arrayLength => "._length"
  | .bytesLength => "._length"

def optional (name : String) (v : Value) : List (String × Value) :=
  if v.isNull then [] else [(name, v)]

def toValue (r : SegmentRecord) : Value :=
  .object ([("kind", .text r.kind.name)] ++ optional "name" r.name ++ optional "index" r.index ++
    if r.kind = .mappingKey then
      [("key", r.key), ("keyHex", r.keyHex), ("keyType", r.keyType)]
    else [])

def ofValue (v : Value) : Except Fault SegmentRecord := do
  let kind ← v.member "kind"
  match kind with
  | .text s => match SegmentKind.ofName? s with
    | some kind =>
      return ⟨kind, ← v.memberOrNull "name", ← v.memberOrNull "index", ← v.memberOrNull "key",
        ← v.memberOrNull "keyHex", ← v.memberOrNull "keyType"⟩
    | none => throw .unknownName
  | _ => throw .unknownName

end SegmentRecord

namespace Segment

def record : Segment → SegmentRecord
  | .field name => { SegmentRecord.ofKind .structField with name }
  | .index i => { SegmentRecord.ofKind .arrayIndex with index := .int i }
  | .key value hex type =>
    ⟨.mappingKey, .null, .null, value, .text hex, type⟩
  | .arrayLength => .ofKind .arrayLength
  | .bytesLength => .ofKind .bytesLength
  | .chunk i => { SegmentRecord.ofKind .bytesChunk with index := .int i }

def isKey : Segment → Bool
  | .key .. => true
  | _ => false

def isChunk : Segment → Bool
  | .chunk _ => true
  | _ => false

def position? : Segment → Option Nat
  | .index i => some i
  | .chunk i => some i
  | _ => none

def key? : Segment → Option Value
  | .key value _ _ => some value
  | _ => none

end Segment

def renderRecords (name : Value) (records : List SegmentRecord) : Except ShapeFault String :=
  match name with
  | .text s => .ok (s ++ String.join (records.map (·.text)))
  | _ => .error .wrongKind

def Path.text (path : Path) : String := String.join (path.map (·.record.text))

def Path.render (name : Value) (path : Path) : Except ShapeFault String :=
  renderRecords name (path.map (·.record))

def Path.toValue (path : Path) : Value := .list (path.map (·.record.toValue))

end SlotLens

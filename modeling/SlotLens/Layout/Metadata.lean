import SlotLens.Layout.Basic

namespace SlotLens.Metadata

abbrev Types := List (String × Value)

structure Place where
  label : Value
  slot : Int
  offset : Int

def Place.inner : Place := ⟨.text "", 0, 0⟩

structure TypeInfo where
  id : String
  fields : List (String × Value)

namespace TypeInfo

def get? (info : TypeInfo) (key : String) : Option Value := Entries.find? key info.fields

def has (info : TypeInfo) (key : String) : Bool := (info.get? key).isSome

end TypeInfo

def typeInfo (types : Types) : Value → Except Fault TypeInfo
  | .text id => match (Entries.find? id types).bind Value.fields? with
    | some fields => .ok ⟨id, fields⟩
    | none => .error (.layout (.unknownType id))
  | v => do
    let key ← v.asKey
    throw (.layout (.unknownType key.plain))

def wrap {β : Type} (report : ShapeFault → LayoutFault) : Except ShapeFault β → Except Fault β
  | .ok b => .ok b
  | .error .unbounded => .error (.shape .unbounded)
  | .error fault => .error (.layout (report fault))

def labelAndSize (info : TypeInfo) : Except ShapeFault (Value × Int) := do
  let label ← Value.member "label" (.object info.fields)
  let size ← Value.member "numberOfBytes" (.object info.fields)
  return (label, ← size.integer)

def entryOf (info : TypeInfo) (place : Place) : Except Fault Entry := do
  if !info.has "encoding" then throw (.layout (.noEncoding info.id))
  let (typeLabel, size) ← wrap (.malformedType info.id) (labelAndSize info)
  return ⟨place.label, info.id, typeLabel, place.slot, place.offset, size⟩

def kindOf (info : TypeInfo) : Except LayoutFault Kind :=
  match (info.get? "encoding").getD .null with
  | .text "mapping" => .ok .mapping
  | .text "dynamic_array" => .ok .dynamicArray
  | .text "bytes" => .ok .bytes
  | .text "inplace" => .ok
    (if info.has "members" then .struct
    else if info.has "base" then .staticArray
    else .primitive)
  | encoding => .error (.unsupportedEncoding encoding.plain)

def lengthDigits? (label : String) : Option (List Char) :=
  let reversed := match label.toList.reverse with
    | '\n' :: rest => rest
    | s => s
  match reversed with
  | ']' :: rest =>
    let digits := rest.takeWhile Text.isDigit
    match rest.drop digits.length with
    | '[' :: _ => if digits.isEmpty then none else some digits.reverse
    | _ => none
  | _ => none

def lengthText (label : Value) : Except Fault (List Char) :=
  match label with
  | .text s => match lengthDigits? s with
    | some digits => .ok digits
    | none => .error (.layout (.noLength s))
  | _ => .error (.shape .wrongKind)

def lengthOf (digits : List Char) : Except Fault Nat :=
  match Numeral.ofDecimal? (String.ofList digits) with
  | some n => .ok n.toNat
  | none => .error (.shape .badNumeral)

def keyAndValue (info : TypeInfo) : Except LayoutFault (Value × Value) :=
  match info.get? "key", info.get? "value" with
  | some key, some value => .ok (key, value)
  | none, _ => .error (.missingPart info.id "key")
  | some _, none => .error (.missingPart info.id "value")

def keyLabel (types : Types) (key : Value) : Except Fault Value := do
  let info ← typeInfo types key
  return (info.get? "label").getD .null

def readItem (item : Value) : Except ShapeFault (Value × Place) := do
  let type ← item.member "type"
  let label ← item.member "label"
  let slot ← item.member "slot"
  let slot ← slot.integer
  let offset ← item.member? "offset"
  let offset ← (offset.getD (.int 0)).integer
  return (type, ⟨label, slot, offset⟩)

def memberItems (info : TypeInfo) : Except ShapeFault (List Value) :=
  match info.get? "members" with
  | none => .ok []
  | some v => if v.isVacant then .ok [] else v.iterate

/-- Unfold a type at a place, where the types `opened` are being unfolded already and `depth` more
may be opened. -/
def build (types : Types) : (depth : Nat) → (opened : List String) → Value → Place →
    Except Fault Descriptor
  | 0, _, id, place => do
    let info ← typeInfo types id
    let entry ← entryOf info place
    return .cut entry (← kindOf info)
  | depth + 1, opened, id, place => do
    let info ← typeInfo types id
    let entry ← entryOf info place
    let kind ← kindOf info
    if opened.contains info.id then return .cut entry kind
    let inner (id : Value) (place : Place) := build types depth (info.id :: opened) id place
    match kind with
    | .primitive => return .primitive entry
    | .bytes => return .bytes entry
    | .mapping =>
      let (key, value) ← keyAndValue info
      let keyType ← keyLabel types key
      return .mapping entry keyType (← inner value .inner)
    | .dynamicArray =>
      match info.get? "base" with
      | none => throw (.layout (.noBase info.id))
      | some base => return .dynamicArray entry (← inner base .inner)
    | .staticArray =>
      let digits ← lengthText entry.typeLabel
      let element ← inner ((info.get? "base").getD .null) .inner
      return .staticArray entry (← lengthOf digits) element
    | .struct =>
      let items ← memberItems info
      let members ← items.mapM fun item => do
        let (type, place) ← wrap .malformedEntry (readItem item)
        inner type place
      return .struct entry members

def buildVariable (types : Types) (item : Value) : Except Fault Descriptor := do
  let (type, place) ← wrap .malformedEntry (readItem item)
  build types types.length [] type place

def typesOf (metadata : Value) : Except LayoutFault Types :=
  let v := (metadata.lookup "types").getD .null
  if v.isVacant then .ok []
  else match v.fields? with
    | some types => .ok types
    | none => .error .typesNotObject

def layout (metadata : Value) : Except Fault Layout := do
  if !metadata.isRecord then throw (.layout .notObject)
  match metadata.lookup "storage" with
  | some (.list items) =>
    let types ← typesOf metadata
    return ⟨← items.mapM (buildVariable types)⟩
  | _ => throw (.layout .noStorage)

end SlotLens.Metadata

import SlotLens.Abi.Decode
import SlotLens.Address

namespace SlotLens

namespace Field

def extract (word : List UInt8) (offset size : Int) : Except Fault (List UInt8) :=
  if 0 ≤ offset ∧ 0 < size ∧ offset + size ≤ 32 then
    let stop := 32 - offset.toNat
    .ok ((word.take stop).drop (stop - size.toNat))
  else .error (.fieldRange offset size)

def sizeBehind (name label : List Char) : Option (List Char) :=
  if name.isPrefixOf label ∧ (label.drop name.length).all Text.isDigit then
    some (label.drop name.length)
  else none

def enumBits (size : Option Int) : Int :=
  match size with
  | none => 8
  | some n => if n = 0 then 8 else 8 * n

/-- The type that a field with a type label is decoded as. Labels of types that are no single word
have none. -/
def abiType? (label : String) (size : Option Int) : Option String :=
  let l := Text.trim label.toList
  let text := String.ofList l
  let sized (digits : List Char) := if digits.isEmpty then "256" else String.ofList digits
  if text = "address" ∨ text = "address payable" ∨ "contract ".toList.isPrefixOf l then
    some "address"
  else if text = "bool" then some "bool"
  else if "enum ".toList.isPrefixOf l then some ("uint" ++ toString (enumBits size))
  else match sizeBehind "uint".toList l, sizeBehind "int".toList l, sizeBehind "bytes".toList l with
    | some digits, _, _ => some ("uint" ++ sized digits)
    | none, some digits, _ => some ("int" ++ sized digits)
    | none, none, some (_ :: _) => some text
    | _, _, _ => none

def enumBitsText (size : Value) : Except ShapeFault String :=
  if size.isVacant then .ok "8"
  else match size with
    | .int n => .ok (toString (enumBits (some n)))
    | .bool _ => .ok "8"
    | .real x => .ok x.eightfold.text
    | .text s => .ok (String.join (List.replicate 8 s))
    | .bytes b => .ok (Value.bytes (List.replicate 8 b).flatten).plain
    | .list items => .ok (Value.list (List.replicate 8 items).flatten).plain
    | _ => .error .wrongKind

def abiTypeOf (label : String) (size : Value) : Except ShapeFault (Option String) :=
  if "enum ".toList.isPrefixOf (Text.trim label.toList) then
    (enumBitsText size).map fun bits => some ("uint" ++ bits)
  else .ok (abiType? label none)

def present (abiType : String) (v : Value) : Except Fault Value :=
  if abiType = "address" then (Address.checksum v).map .text
  else match v with
    | .bytes b => .ok (.text (Hex.text b))
    | _ => .ok v

/-- The bytes of a field as a word of a type: fixed byte strings stand on the left, and negative
numbers keep their sign. -/
def toWord (abiType : String) (field : List UInt8) : List UInt8 :=
  if abiType.startsWith "bytes" then BigEndian.padRight 32 0 field
  else if abiType.startsWith "int" ∧ (field.headD 0).toNat ≥ 0x80 then
    BigEndian.padLeft 32 0xff field
  else BigEndian.padLeft 32 0 field

def decodeWord (abiType : String) (word : List UInt8) : Except Fault (Option Value) := do
  let codec ← Abi.Codec.ofText abiType
  match codec.decodeArgument word with
  | .ok v => return some (← present abiType v)
  | .error .malformed => return none
  | .error fault => throw (.abi fault)

def decode (label : Value) (field : List UInt8) : Except Fault Value := do
  match abiType? (← label.asText) (some field.length) with
  | none => return .null
  | some abiType => (decodeWord abiType (toWord abiType field)).map (·.getD .null)

/-- The value of a mapping key of a type; null is no type. Keys that have no value under their type
are shown as the bytes that were hashed. -/
def decodeKey (keyType : Value) (raw : List UInt8) : Except Fault Value := do
  let shown : Value := .text (Hex.text raw)
  match keyType with
  | .null => return shown
  | .text "bytes" => return shown
  | .text "string" => return (Text.ofUtf8? raw).elim shown .text
  | label =>
    if raw.length ≠ 32 then return shown
    match abiType? (← label.asText) none with
    | none => return shown
    | some abiType => (decodeWord abiType raw).map (·.getD shown)

end Field

structure BytesSlot where
  length : Nat
  isLong : Bool
  decoded : Value

namespace BytesSlot

def present (label : Value) (content : List UInt8) : Value :=
  let shown : Value := .text (Hex.text content)
  match label with
  | .text "string" => (Text.ofUtf8? content).elim shown .text
  | _ => shown

def ofBytes (label : Value) (word : List UInt8) : BytesSlot :=
  let n := BigEndian.toNat word
  if n % 2 = 1 then ⟨(n - 1) / 2, true, .null⟩
  else
    let length := n % 256 / 2
    if length < 32 then ⟨length, false, present label (word.take length)⟩
    else ⟨length, false, .null⟩

def read (label : Value) (word : List UInt8) : Except Fault BytesSlot :=
  if word.isEmpty then .error .outside else .ok (ofBytes label word)

end BytesSlot

end SlotLens

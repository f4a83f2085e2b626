import SlotLens.Abi.Codec
import SlotLens.Address
import SlotLens.Bytes.BigEndian

namespace SlotLens.Abi

structure Part where
  isDynamic : Bool
  bytes : List UInt8

def wordOf (n : Nat) : List UInt8 := BigEndian.ofNat 32 n

namespace Part

def headSize (p : Part) : Nat := if p.isDynamic then 32 else p.bytes.length

def heads (offset : Nat) : List Part → List UInt8
  | [] => []
  | p :: rest =>
    if p.isDynamic then wordOf offset ++ heads (offset + p.bytes.length) rest
    else p.bytes ++ heads offset rest

def tails (parts : List Part) : List UInt8 :=
  parts.flatMap fun p => if p.isDynamic then p.bytes else []

def join (parts : List Part) : List UInt8 :=
  heads ((parts.map headSize).foldr (· + ·) 0) parts ++ tails parts

end Part

def fillWords (bytes : List UInt8) : List UInt8 :=
  BigEndian.padRight ((bytes.length + 31) / 32 * 32) 0 bytes

def encodeBytes (bytes : List UInt8) : List UInt8 := wordOf bytes.length ++ fillWords bytes

def encodeInt (n : Int) : List UInt8 := wordOf (n % Int.pow 2 256).toNat

namespace Codec

def decimalOf? : Value → Option Decimal
  | .int n => some (.ofInt n)
  | .bool b => some (.ofInt (if b then 1 else 0))
  | .decimal d => some d
  | _ => none

def encodeUnits (low high : Int) (places : Nat) (v : Value) : Except AbiFault (List UInt8) :=
  match decimalOf? v with
  | none => .error .wrongKind
  | some d => match d.units? places with
    | none => .error .tooFine
    | some n => if low ≤ n ∧ n < high then .ok (encodeInt n) else .error .outOfBounds

/-- A value of a codec that has no parts. A text that has no bytes is taken for an empty one. -/
def encodeScalar [Address.Rule] (c : Codec) (v : Value) : Except AbiFault (List UInt8) :=
  match c, v with
  | .uint size, .int n =>
    if 0 ≤ n ∧ n < Int.pow 256 size then .ok (encodeInt n) else .error .outOfBounds
  | .int size, .int n =>
    if -Int.pow 2 (8 * size - 1) ≤ n ∧ n < Int.pow 2 (8 * size - 1) then .ok (encodeInt n)
    else .error .outOfBounds
  | .ufixed size places, v => encodeUnits 0 (Int.pow 256 size) places v
  | .fixed size places, v =>
    encodeUnits (-Int.pow 2 (8 * size - 1)) (Int.pow 2 (8 * size - 1)) places v
  | .bool, .bool b => .ok (wordOf (if b then 1 else 0))
  | .address, .text s => match Address.given? s with
    | some b => .ok (BigEndian.padLeft 32 0 b)
    | none => .error .wrongKind
  | .address, .bytes b =>
    if b.length = 20 then .ok (BigEndian.padLeft 32 0 b) else .error .wrongKind
  | .fixedBytes size, .bytes b =>
    if b.length ≤ size then .ok (BigEndian.padRight 32 0 b) else .error .outOfBounds
  | .bytes, .bytes b => .ok (encodeBytes b)
  | .string, .text s => .ok (encodeBytes ((Text.utf8? s).getD []))
  | _, _ => .error .wrongKind

mutual
def encode [Address.Rule] : Codec → Value → Except AbiFault (List UInt8)
  | .tuple components, .list values =>
    if components.length = values.length then
      (encodeParts components values).map Part.join
    else .error .outOfBounds
  | .array item length, .list values => do
    let parts ← values.mapM fun v => (item.encode v).map (Part.mk item.isDynamic)
    match length with
    | none => return wordOf values.length ++ Part.join parts
    | some n => if values.length = n then return Part.join parts else throw .outOfBounds
  | c, v => encodeScalar c v

def encodeParts [Address.Rule] : List Codec → List Value → Except AbiFault (List Part)
  | c :: components, v :: values => do
    let bytes ← c.encode v
    let parts ← encodeParts components values
    return ⟨c.isDynamic, bytes⟩ :: parts
  | _, _ => .ok []
end

mutual
def isEncodable : Value → Bool
  | .text s => (Text.utf8? s).isSome
  | .list items => areEncodable items
  | _ => true

def areEncodable : List Value → Bool
  | [] => true
  | v :: rest => isEncodable v && areEncodable rest
end

/-- The encoding of a single argument. Its texts are encoded after all of it has been found to fit
the codec. -/
def encodeArgument [Address.Rule] (c : Codec) (v : Value) : Except AbiFault (List UInt8) := do
  let bytes ← encode (.tuple [c]) (.list [v])
  if isEncodable v then return bytes else throw .notEncodable

end Codec

end SlotLens.Abi

import SlotLens.Abi.Codec
import SlotLens.Bytes.BigEndian
import SlotLens.Bytes.Hex

namespace SlotLens.Abi

def readWord (data : List UInt8) (pos : Nat) : Except AbiFault (List UInt8) :=
  let word := (data.drop pos).take 32
  if word.length = 32 then .ok word else .error .malformed

def readNat (data : List UInt8) (pos : Nat) : Except AbiFault Nat :=
  (readWord data pos).map BigEndian.toNat

def readPointer (data : List UInt8) (start stop pos : Nat) : Except AbiFault Nat := do
  let target := start + (← readNat data pos)
  if stop ≤ target ∧ target < data.length then return target else throw .malformed

def readMany {β : Type} (read : Nat → Except AbiFault β) (step : Nat) :
    (count : Nat) → (pos : Nat) → Except AbiFault (List β)
  | 0, _ => .ok []
  | count + 1, pos => do
    let v ← read pos
    let rest ← readMany read step count (pos + step)
    return v :: rest

def behind (fill : UInt8) (size : Nat) (word : List UInt8) : Except AbiFault (List UInt8) :=
  if (word.take (32 - size)).all (· == fill) then .ok (word.drop (32 - size))
  else .error .malformed

def decodeUint (size : Nat) (word : List UInt8) : Except AbiFault Value :=
  (behind 0 size word).map fun bytes => .int (BigEndian.toNat bytes)

def decodeSigned (size : Nat) (word : List UInt8) : Except AbiFault Int :=
  let n := BigEndian.toNat (word.drop (32 - size))
  if n < Nat.pow 2 (8 * size - 1) then (behind 0 size word).map fun _ => n
  else (behind 0xff size word).map fun _ => n - Int.pow 2 (8 * size)

def decodeInt (size : Nat) (word : List UInt8) : Except AbiFault Value :=
  (decodeSigned size word).map .int

def decodeUfixed (size places : Nat) (word : List UInt8) : Except AbiFault Value :=
  (behind 0 size word).map fun bytes => .decimal (.ofUnits (BigEndian.toNat bytes) places)

def decodeFixed (size places : Nat) (word : List UInt8) : Except AbiFault Value :=
  (decodeSigned size word).map fun n => .decimal (.ofUnits n places)

def decodeBool (word : List UInt8) : Except AbiFault Value :=
  match BigEndian.toNat word with
  | 0 => .ok (.bool false)
  | 1 => .ok (.bool true)
  | _ => .error .malformed

def decodeAddress (word : List UInt8) : Except AbiFault Value :=
  (behind 0 20 word).map fun bytes => .text (Hex.text bytes)

def decodeFixedBytes (size : Nat) (word : List UInt8) : Except AbiFault Value :=
  if (word.drop size).all (· == 0) then .ok (.bytes (word.take size)) else .error .malformed

def decodeBytes (data : List UInt8) (pos : Nat) : Except AbiFault (List UInt8) := do
  let length ← readNat data pos
  let filled := (length + 31) / 32 * 32
  if Nat.pow 2 63 ≤ filled then throw .tooLong
  let content := (data.drop (pos + 32)).take filled
  if content.length = filled ∧ (content.drop length).all (· == 0) then return content.take length
  else throw .malformed

def decodeString (data : List UInt8) (pos : Nat) : Except AbiFault Value := do
  match Text.ofUtf8? (← decodeBytes data pos) with
  | some s => return .text s
  | none => throw .notUtf8

inductive Head where
  | value (v : Value)
  | pointer (target : Nat)

namespace Codec

/-- The words that a part is counted for when a pointer is checked against the end of the heads. -/
def headCount (c : Codec) : Nat :=
  match c with
  | .array item (some n) => if item.isDynamic then 1 else n
  | _ => 1

mutual
def decode (data : List UInt8) : Codec → Nat → Except AbiFault Value
  | .uint size, pos => readWord data pos >>= decodeUint size
  | .int size, pos => readWord data pos >>= decodeInt size
  | .ufixed size places, pos => readWord data pos >>= decodeUfixed size places
  | .fixed size places, pos => readWord data pos >>= decodeFixed size places
  | .bool, pos => readWord data pos >>= decodeBool
  | .address, pos => readWord data pos >>= decodeAddress
  | .fixedBytes size, pos => readWord data pos >>= decodeFixedBytes size
  | .bytes, pos => (decodeBytes data pos).map .bytes
  | .string, pos => decodeString data pos
  | .tuple components, pos => do
    let stop := pos + 32 * (components.map headCount).foldr (· + ·) 0
    let heads ← decodeHeads data pos stop components pos
    let values ← decodeTails data components heads
    return .list values
  | .array item length, pos => do
    let count ← match length with
      | some n => pure n
      | none => readNat data pos
    let start := if length.isNone then pos + 32 else pos
    if item.isDynamic then
      let targets ← readMany (readPointer data start (start + 32 * count)) 32 count start
      let values ← targets.mapM (item.decode data)
      return .list values
    else
      let values ← readMany (item.decode data) item.headSize count start
      return .list values

def decodeHeads (data : List UInt8) (start stop : Nat) :
    List Codec → Nat → Except AbiFault (List Head)
  | [], _ => .ok []
  | c :: rest, pos => do
    let head ← if c.isDynamic then (readPointer data start stop pos).map .pointer
      else (c.decode data pos).map .value
    let heads ← decodeHeads data start stop rest (pos + c.headSize)
    return head :: heads

def decodeTails (data : List UInt8) : List Codec → List Head → Except AbiFault (List Value)
  | c :: rest, head :: heads => do
    let v ← match head with
      | .value v => .ok v
      | .pointer target => c.decode data target
    let values ← decodeTails data rest heads
    return v :: values
  | _, _ => .ok []
end

def decodeArguments (data : List UInt8) (components : List Codec) :
    Except AbiFault (List Value) := do
  let stop := 32 * (components.map headCount).foldr (· + ·) 0
  let heads ← decodeHeads data 0 stop components 0
  decodeTails data components heads

def decodeArgument (data : List UInt8) (c : Codec) : Except AbiFault Value := do
  match ← decodeArguments data [c] with
  | [v] => return v
  | _ => throw .malformed

end Codec

end SlotLens.Abi

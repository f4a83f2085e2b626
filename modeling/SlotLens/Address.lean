import SlotLens.Fault
import SlotLens.Keccak
import SlotLens.Text.Case

namespace SlotLens.Address

/-- The key form of an address: trimmed, marked, in lower case, with zeros set before it. -/
def normalize (s : String) : String :=
  let digits := Text.lower (Hex.dropMark (Text.trim s.toList))
  String.ofList ('0' :: 'x' :: List.replicate (40 - (Text.points digits).length) '0' ++ digits)

def ofValue (v : Value) : Except ShapeFault String := v.asText.map normalize

def digits? (s : List Char) : Option (List Char) :=
  let digits := Hex.dropMark s
  if digits.length = 40 ∧ digits.all Hex.isDigit then some (Text.lower digits) else none

def bytes? (s : String) : Option (List UInt8) := digits? s.toList >>= Hex.decode?

/-- Whether an address whose letters are of both cases has to be written with its checksum. Releases
of the codec differ in that. -/
class Rule where
  needsChecksum : Bool

def isMixed (digits : List Char) : Bool := digits.any Char.isUpper && digits.any Char.isLower

def capitalize : (digits hash : List Char) → List Char
  | d :: digits, h :: hash =>
    (if (Hex.value? h).getD 0 ≥ 8 then d.toUpper else d) :: capitalize digits hash
  | _, _ => []

def checksumOfDigits (digits : List Char) : String :=
  let ascii := digits.map fun c => UInt8.ofNat c.toNat
  String.ofList ('0' :: 'x' :: capitalize digits (Hex.encode (Keccak.hash ascii)))

def given? [Rule] (s : String) : Option (List UInt8) := do
  let digits ← digits? s.toList
  if Rule.needsChecksum && isMixed (Hex.dropMark s.toList) && s != checksumOfDigits digits then none
  else Hex.decode? digits

def checksum : Value → Except Fault String
  | .text s => ofDigits (digits? s.toList)
  | .bytes b => ofDigits (digits? (Hex.encode b))
  | .int n => ofDigits (if n < 0 then none else digits? (Hex.ofNat n.toNat))
  | .bool _ => .error .notAddress
  | _ => .error (.shape .wrongKind)
where
  ofDigits : Option (List Char) → Except Fault String
    | some digits => .ok (checksumOfDigits digits)
    | none => .error .notAddress

end SlotLens.Address

import SlotLens.Value
import SlotLens.Bytes.BigEndian
import SlotLens.Bytes.Hex

namespace SlotLens

structure Word where
  bytes : List UInt8
  length_bytes : bytes.length = 32
  deriving DecidableEq

inductive WordFault where
  | truthValue
  | unsupported (kind : String)
  | notHex (text : String)
  | noDigits
  | hex (fault : HexFault)
  | outOfRange (n : Int)
  | tooLong (bytes : List UInt8)
  deriving DecidableEq, Repr

def WordFault.message? : WordFault → Option String
  | .truthValue => some "bool is not a valid word value"
  | .unsupported kind => some ("Unsupported word value type: " ++ kind)
  | .notHex text => some ("Not a hex value: " ++ Text.quoted text)
  | .noDigits => none
  | .hex _ => none
  | .outOfRange n => some ("Value out of word range: " ++ toString n)
  | .tooLong bytes => some ("Value longer than 32 bytes: " ++ Hex.text bytes)

namespace Word

def size : Nat := 32

def toNat (w : Word) : Nat := BigEndian.toNat w.bytes

def ofNat (n : Nat) : Word := ⟨BigEndian.ofNat size n, BigEndian.length_ofNat size n⟩

def hex (w : Word) : String := Hex.text w.bytes

def ofBytes (bytes : List UInt8) : Except WordFault Word :=
  if h : bytes.length ≤ size then
    .ok ⟨BigEndian.padLeft size 0 bytes, BigEndian.length_padLeft h 0⟩
  else .error (.tooLong bytes)

def digitsOf (s : String) : List Char := Hex.dropMark (Text.trim s.toList)

/-- The number of a text; the empty text is zero, and a second mark is allowed before digits. -/
def numberOfText (s : String) : Except WordFault Int :=
  let digits := digitsOf s
  let rest := Hex.dropMark digits
  if digits.isEmpty then .ok 0
  else if !rest.all Hex.isDigit then .error (.notHex s)
  else if rest.isEmpty then .error .noDigits
  else .ok (Hex.toNat rest)

def number : Value → Except WordFault Int
  | .bool _ => .error .truthValue
  | .int n => .ok n
  | .bytes b => .ok (BigEndian.toNat b)
  | .text s => numberOfText s
  | v => .error (.unsupported v.kindName)

def bytesOfText (s : String) : Except WordFault (List UInt8) :=
  let digits := digitsOf s
  (Hex.read (if digits.length % 2 = 1 then '0' :: digits else digits)).mapError .hex

def ofInt (n : Int) : Except WordFault Word :=
  if 0 ≤ n ∧ n < Int.pow 2 256 then .ok (ofNat n.toNat) else .error (.outOfRange n)

def ofValue : Value → Except WordFault Word
  | .bytes b => ofBytes b
  | .text s => bytesOfText s >>= ofBytes
  | v => number v >>= ofInt

theorem toNat_lt (w : Word) : w.toNat < Nat.pow 2 256 := by
  have h := BigEndian.toNat_lt w.bytes
  rw [w.length_bytes] at h
  exact Nat.lt_of_lt_of_le h (by decide)

theorem toNat_ofNat (n : Nat) : (ofNat n).toNat = n % Nat.pow 2 256 :=
  BigEndian.toNat_ofNat size n

theorem ofNat_toNat (w : Word) : ofNat w.toNat = w := by
  obtain ⟨bytes, h⟩ := w
  simp only [ofNat, toNat, size]
  have := BigEndian.ofNat_toNat bytes
  rw [h] at this
  simp [this]

end Word

end SlotLens

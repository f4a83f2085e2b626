namespace SlotLens.Hex

def digit (n : Nat) : Char :=
  if n < 10 then Char.ofNat (48 + n) else Char.ofNat (87 + n)

def value? (c : Char) : Option Nat :=
  let n := c.toNat
  if 48 ≤ n ∧ n ≤ 57 then some (n - 48)
  else if 97 ≤ n ∧ n ≤ 102 then some (n - 87)
  else if 65 ≤ n ∧ n ≤ 70 then some (n - 55)
  else none

def isDigit (c : Char) : Bool := (value? c).isSome

def encode : List UInt8 → List Char
  | [] => []
  | b :: bytes => digit (b.toNat / 16) :: digit (b.toNat % 16) :: encode bytes

def decode? : List Char → Option (List UInt8)
  | [] => some []
  | [_] => none
  | h :: l :: rest => do
    let high ← value? h
    let low ← value? l
    let bytes ← decode? rest
    return UInt8.ofNat (high * 16 + low) :: bytes

theorem value?_digit {n : Nat} (h : n < 16) : value? (digit n) = some n := by
  have : ∀ m : Fin 16, value? (digit m) = some m.val := by decide
  exact this ⟨n, h⟩

theorem decode?_encode (bytes : List UInt8) : decode? (encode bytes) = some bytes := by
  induction bytes with
  | nil => rfl
  | cons b bytes ih =>
    have hb := b.toNat_lt
    have hi : b.toNat / 16 < 16 := by omega
    have lo : b.toNat % 16 < 16 := by omega
    simp only [encode, decode?, value?_digit hi, value?_digit lo, ih, Option.bind_eq_bind,
      Option.bind_some, Option.pure_def]
    rw [show b.toNat / 16 * 16 + b.toNat % 16 = b.toNat by omega, UInt8.ofNat_toNat]

@[simp] theorem length_encode (bytes : List UInt8) : (encode bytes).length = 2 * bytes.length := by
  induction bytes with
  | nil => rfl
  | cons b bytes ih => simp [encode, ih]; omega

def ofNat (n : Nat) : List Char := Nat.toDigits 16 n

def dropMark : List Char → List Char
  | '0' :: 'x' :: rest => rest
  | '0' :: 'X' :: rest => rest
  | s => s

def toNat (s : List Char) : Nat :=
  s.foldl (fun n c => match value? c with
    | some d => n * 16 + d
    | none => n) 0

def text (bytes : List UInt8) : String := String.ofList ('0' :: 'x' :: encode bytes)

end SlotLens.Hex

namespace SlotLens

inductive HexFault where
  | notAscii
  | badDigits
  deriving DecidableEq, Repr

def Hex.read (s : List Char) : Except HexFault (List UInt8) :=
  let rest := dropMark s
  let digits := if s.length % 2 = 1 then '0' :: rest else rest
  if digits.any fun c => 0x80 ≤ c.toNat then .error .notAscii
  else match decode? digits with
    | some bytes => .ok bytes
    | none => .error .badDigits

end SlotLens

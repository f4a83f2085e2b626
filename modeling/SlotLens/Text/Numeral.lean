namespace SlotLens

namespace Text

def blankRanges : List (Nat × Nat) :=
  [(0x9, 0xD), (0x1C, 0x20), (0x85, 0x85), (0xA0, 0xA0), (0x1680, 0x1680), (0x2000, 0x200A),
   (0x2028, 0x2029), (0x202F, 0x202F), (0x205F, 0x205F), (0x3000, 0x3000)]

def isBlank (c : Char) : Bool :=
  blankRanges.any fun (lo, hi) => lo ≤ c.toNat && c.toNat ≤ hi

def trimStart (s : List Char) : List Char := s.dropWhile isBlank

def trim (s : List Char) : List Char :=
  (trimStart (trimStart s).reverse).reverse

def digitZeros : List Nat :=
  [0x30, 0x660, 0x6F0, 0x7C0, 0x966, 0x9E6, 0xA66, 0xAE6, 0xB66, 0xBE6, 0xC66, 0xCE6, 0xD66, 0xDE6,
   0xE50, 0xED0, 0xF20, 0x1040, 0x1090, 0x17E0, 0x1810, 0x1946, 0x19D0, 0x1A80, 0x1A90, 0x1B50,
   0x1BB0, 0x1C40, 0x1C50, 0xA620, 0xA8D0, 0xA900, 0xA9D0, 0xA9F0, 0xAA50, 0xABF0, 0xFF10, 0x104A0,
   0x10D30, 0x11066, 0x110F0, 0x11136, 0x111D0, 0x112F0, 0x11450, 0x114D0, 0x11650, 0x116C0,
   0x11730, 0x118E0, 0x11950, 0x11C50, 0x11D50, 0x11DA0, 0x16A60, 0x16AC0, 0x16B50, 0x1D7CE,
   0x1D7D8, 0x1D7E2, 0x1D7EC, 0x1D7F6, 0x1E140, 0x1E2F0, 0x1E950, 0x1FBF0]

def digitValue? (c : Char) : Option Nat :=
  (digitZeros.find? fun z => z ≤ c.toNat && c.toNat < z + 10).map (c.toNat - ·)

def isDigit (c : Char) : Bool := (digitValue? c).isSome

end Text

namespace Numeral

open Text

def maxDigits : Nat := 4300

def isOuterBlank (c : Char) : Bool :=
  c == ' ' || (9 ≤ c.toNat && c.toNat ≤ 13)

/-- A text with the blanks and the decimal digits of other scripts brought to ASCII, and every
other foreign character to a character that no numeral holds. A text that is ASCII is kept. -/
def fold (s : List Char) : List Char :=
  if s.all (·.toNat < 128) then s else s.map fun c =>
    if c.toNat < 127 then c
    else if isBlank c then ' '
    else match digitValue? c with
      | some d => Char.ofNat (48 + d)
      | none => '?'

def trimOuter (s : List Char) : List Char :=
  ((s.dropWhile isOuterBlank).reverse.dropWhile isOuterBlank).reverse

def digit? (radix : Nat) (c : Char) : Option Nat :=
  let n := c.toNat
  let value :=
    if 48 ≤ n ∧ n ≤ 57 then n - 48
    else if 97 ≤ n ∧ n ≤ 122 then n - 87
    else if 65 ≤ n ∧ n ≤ 90 then n - 55
    else radix
  if value < radix then some value else none

def digits? (radix : Nat) : List Char → Option (List Nat)
  | [] => none
  | [c] => (digit? radix c).map ([·])
  | c :: '_' :: rest => do
    let d ← digit? radix c
    let ds ← digits? radix rest
    return d :: ds
  | c :: rest => do
    let d ← digit? radix c
    let ds ← digits? radix rest
    return d :: ds

def ofDigits (radix : Nat) (ds : List Nat) : Nat := ds.foldl (fun n d => n * radix + d) 0

def decimal? (s : List Char) : Option Nat := do
  let ds ← digits? 10 s
  if ds.length ≤ maxDigits then return ofDigits 10 ds else none

def behindMark (radix : Nat) (s : List Char) : Option Nat :=
  (digits? radix (match s with | '_' :: rest => rest | _ => s)).map (ofDigits radix)

def marked? : List Char → Option Nat
  | '0' :: m :: rest =>
    if m = 'x' ∨ m = 'X' then behindMark 16 rest
    else if m = 'o' ∨ m = 'O' then behindMark 8 rest
    else if m = 'b' ∨ m = 'B' then behindMark 2 rest
    else match decimal? ('0' :: m :: rest) with
      | some 0 => some 0
      | _ => none
  | s => decimal? s

def signed? (unsigned? : List Char → Option Nat) : List Char → Option Int
  | '+' :: rest => (unsigned? rest).map Int.ofNat
  | '-' :: rest => (unsigned? rest).map fun n => -(n : Int)
  | s => (unsigned? s).map Int.ofNat

def ofDecimal? (s : String) : Option Int := signed? decimal? (trimOuter (fold s.toList))

def ofMarked? (s : String) : Option Int := signed? marked? (trimOuter (fold s.toList))

end Numeral

end SlotLens

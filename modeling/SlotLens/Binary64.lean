namespace SlotLens

inductive Binary64 where
  | finite (isNegative : Bool) (digits : Nat) (exponent : Int)
  | infinite (isNegative : Bool)
  | nan
  deriving DecidableEq, Inhabited, Repr

namespace Binary64

def power (base : Nat) (exponent : Int) : Nat × Nat :=
  if 0 ≤ exponent then (base.pow exponent.toNat, 1) else (1, base.pow (-exponent).toNat)

def decimalSize (n : Nat) : Nat := (Nat.toDigits 10 n).length

/-! ## Reading -/

def roundDiv (n d : Nat) : Nat :=
  let q := n / d
  let r := n % d
  if 2 * r < d ∨ 2 * r = d ∧ q % 2 = 0 then q else q + 1

def lastExponent (n d : Nat) : Int :=
  let top : Int := (n.log2 : Int) - d.log2
  let (p, r) := power 2 top
  max ((if n * r < d * p then top - 1 else top) - 52) (-1074)

def ofFraction (isNegative : Bool) (n d : Nat) : Binary64 :=
  let e := lastExponent n d
  let (p, r) := power 2 e
  let digits := roundDiv (n * r) (d * p)
  let (digits, e) := if digits = Nat.pow 2 53 then (Nat.pow 2 52, e + 1) else (digits, e)
  if digits = 0 then .finite isNegative 0 0
  else if 971 < e then .infinite isNegative
  else .finite isNegative digits e

def ofDecimal (isNegative : Bool) (n : Nat) (exponent : Int) : Binary64 :=
  let size := decimalSize n + exponent
  if n = 0 ∨ size < -400 then .finite isNegative 0 0
  else if 400 < size then .infinite isNegative
  else
    let (p, r) := power 10 exponent
    ofFraction isNegative (n * p) r

/-! ## Writing -/

def pointPlace (n d : Nat) : Int :=
  if d ≤ n then decimalSize (n / d) else 1 - (decimalSize ((d - 1) / n) : Int)

/-- The numbers from `low` to `high`, and the one among them that is written. -/
structure Window where
  low : Nat
  center : Nat
  high : Nat
  isClosed : Bool

namespace Window

/-- The numbers that read back as binary digits, in quarters of the last digit. Those at the ends
are nearest to even digits, and the neighbour below a power of two is half as far. -/
def ofDigits (digits : Nat) (exponent : Int) : Window :=
  let isPower := digits = Nat.pow 2 52 ∧ -1074 < exponent
  ⟨4 * digits - (if isPower then 1 else 2), 4 * digits, 4 * digits + 2, digits % 2 = 0⟩

def scale (w : Window) (n : Nat) : Window :=
  { w with low := w.low * n, center := w.center * n, high := w.high * n }

def holds (w : Window) (n : Nat) : Bool :=
  if w.isClosed then w.low ≤ n && n ≤ w.high else w.low < n && n < w.high

def nearest? (w : Window) (size : Nat) : Option Nat :=
  let below := w.center / size
  match w.holds (below * size), w.holds ((below + 1) * size) with
  | true, true => some (roundDiv w.center size)
  | true, false => some below
  | false, true => some (below + 1)
  | false, false => none

end Window

def decimal? (digits : Nat) (exponent unit : Int) : Option Nat :=
  let (p, r) := power 2 (exponent - 2)
  let (s, t) := power 10 unit
  ((Window.ofDigits digits exponent).scale (p * t)).nearest? (s * r)

/-- The fewest decimal digits that read back, and the exponent of the last one; seventeen always
suffice. -/
def shortest (digits : Nat) (exponent : Int) : Nat × Int :=
  let (p, r) := power 2 exponent
  let place := pointPlace (digits * p) r
  let found := (List.range 17).findSome? fun (i : Nat) =>
    (decimal? digits exponent (place - (i + 1))).map (·, place - (i + 1))
  found.getD (0, 0)

def exponentText (e : Int) : List Char :=
  let digits := Nat.toDigits 10 e.natAbs
  (if e < 0 then '-' else '+') :: (if digits.length < 2 then '0' :: digits else digits)

def layOut (digits : List Char) (place : Int) : List Char :=
  if place ≤ -4 ∨ 16 < place then
    digits.take 1 ++ (if digits.length = 1 then [] else '.' :: digits.drop 1) ++
      'e' :: exponentText (place - 1)
  else if place ≤ 0 then '0' :: '.' :: List.replicate (-place).toNat '0' ++ digits
  else
    let whole := digits.take place.toNat
    let zeros := List.replicate (place.toNat - whole.length) '0'
    let rest := digits.drop place.toNat
    whole ++ zeros ++ '.' :: (if rest.isEmpty then ['0'] else rest)

def unsignedText (digits : Nat) (exponent : Int) : List Char :=
  if digits = 0 then ['0', '.', '0']
  else
    let (n, last) := shortest digits exponent
    let written := Nat.toDigits 10 n
    layOut (written.reverse.dropWhile (· == '0')).reverse (last + written.length)

def text : Binary64 → String
  | .finite isNegative digits exponent =>
    String.ofList ((if isNegative then ['-'] else []) ++ unsignedText digits exponent)
  | .infinite isNegative => if isNegative then "-inf" else "inf"
  | .nan => "nan"

def eightfold : Binary64 → Binary64
  | .finite isNegative digits exponent =>
    let (p, r) := power 2 (exponent + 3)
    ofFraction isNegative (digits * p) r
  | x => x

/-! ## Comparing -/

def isZero : Binary64 → Bool
  | .finite _ digits _ => digits == 0
  | _ => false

def same (x y : Binary64) : Bool := x.isZero && y.isZero || x != .nan && x == y

def whole? : Binary64 → Option Int
  | .finite isNegative digits exponent =>
    let (p, r) := power 2 exponent
    let n : Int := (digits * p / r : Nat)
    some (if isNegative then -n else n)
  | _ => none

def integer? (x : Binary64) : Option Int :=
  match x with
  | .finite _ digits exponent =>
    let (p, r) := power 2 exponent
    if digits * p % r = 0 then x.whole? else none
  | _ => none

end Binary64

end SlotLens

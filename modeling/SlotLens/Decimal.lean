import SlotLens.Binary64

namespace SlotLens

/-- A number with no more places behind the point than it needs. -/
structure Decimal where
  digits : Int
  places : Nat
  isShort : places = 0 ∨ digits % 10 ≠ 0
  deriving DecidableEq, Repr

namespace Decimal

def ofInt (n : Int) : Decimal := ⟨n, 0, .inl rfl⟩

def ofUnits (n : Int) : (places : Nat) → Decimal
  | 0 => ofInt n
  | places + 1 => if h : n % 10 = 0 then ofUnits (n / 10) places else ⟨n, places + 1, .inr h⟩

def units? (d : Decimal) (places : Nat) : Option Int :=
  if d.places ≤ places then some (d.digits * Int.pow 10 (places - d.places)) else none

def whole (d : Decimal) : Int := d.digits.tdiv (Int.pow 10 d.places)

def text (d : Decimal) : String :=
  let digits := Nat.toDigits 10 d.digits.natAbs
  let ahead : Int := digits.length - d.places
  let written :=
    if d.places = 0 then digits
    else if 0 < ahead then digits.take ahead.toNat ++ '.' :: digits.drop ahead.toNat
    else if -6 < ahead then '0' :: '.' :: List.replicate (-ahead).toNat '0' ++ digits
    else digits.take 1 ++ (if digits.length = 1 then [] else '.' :: digits.drop 1) ++
      'E' :: '-' :: Nat.toDigits 10 (ahead - 1).natAbs
  String.ofList (if d.digits < 0 then '-' :: written else written)

theorem units?_ofUnits (n : Int) (places : Nat) : (ofUnits n places).units? places = some n := by
  suffices h : ∀ more, (ofUnits n places).units? (places + more) = some (n * Int.pow 10 more) from
    (h 0).trans (congrArg some (Int.mul_one n))
  intro more
  induction places generalizing n more with
  | zero => simp [ofUnits, ofInt, units?]
  | succ places ih =>
    rw [ofUnits]
    split
    · next h =>
      rw [show places + 1 + more = places + (more + 1) by omega, ih, Option.some.injEq]
      change n / 10 * (Int.pow 10 more * 10) = n * Int.pow 10 more
      rw [Int.mul_comm (Int.pow 10 more), ← Int.mul_assoc,
        Int.ediv_mul_cancel (Int.dvd_of_emod_eq_zero h)]
    · simp [units?]

def ofBinary? : Binary64 → Option Decimal
  | .finite isNegative digits exponent =>
    let n : Int := if isNegative then -(digits : Int) else digits
    some (if 0 ≤ exponent then ofInt (n * Int.pow 2 exponent.toNat)
      else ofUnits (n * Int.pow 5 (-exponent).toNat) (-exponent).toNat)
  | _ => none

end Decimal

end SlotLens

import SlotLens.AddressMap
import SlotLens.Slot

namespace SlotLens

structure KnownLength where
  address : String
  slot : Int
  length : Int
  deriving DecidableEq, Repr

def splitAssignment (given : Value) : Except ArgumentFault (String × String) :=
  let cs := match given with
    | .text s => s.toList
    | _ => []
  match cs.dropWhile (· ≠ '=') with
  | [] => .error (.notAssignment given)
  | _ :: value =>
    let trimmed (cs : List Char) := String.ofList (Text.trim cs)
    .ok (trimmed (cs.takeWhile (· ≠ '=')), trimmed value)

namespace KnownLength

def slotOf (whole slot : String) : Except ArgumentFault Int :=
  if slot.startsWith "0x" then
    (Slot.ofValue (.text slot)).mapError fun cause => .badSlot whole cause
  else match Numeral.ofDecimal? slot with
    | some n => .ok (Slot.wrap n)
    | none => .error (.badNumber whole)

def ofText (s : String) : Except ArgumentFault KnownLength := do
  let (target, length) ← splitAssignment (.text s)
  let cs := target.toList
  let address := String.ofList (cs.takeWhile (· ≠ ':'))
  match cs.dropWhile (· ≠ ':') with
  | _ :: c :: slot =>
    let slot ← slotOf s (String.ofList (c :: slot))
    match Numeral.ofMarked? length with
    | some length => return ⟨Address.normalize address, slot, length⟩
    | none => throw (.badNumber s)
  | _ => throw (.notKnownLength s)

def table (lengths : List KnownLength) : AddressMap (Table Int Int) :=
  lengths.foldl (fun m k => m.insert k.address ((m.getD k.address .empty).insert k.slot k.length))
    .empty

end KnownLength

end SlotLens

import SlotLens.Address
import SlotLens.Slot
import SlotLens.Table

namespace SlotLens

structure Access where
  current : Word
  next : Option Word
  deriving DecidableEq

namespace Access

def isWritten (a : Access) : Bool := a.next.isSome

def words (a : Access) : List Word := a.current :: a.next.toList

def maxNat (a : Access) : Nat :=
  match a.next with
  | none => a.current.toNat
  | some next => max a.current.toNat next.toNat

end Access

/-- The values of an account field. A field without a next value, or with null for it, was only
read. -/
structure FieldDiff where
  current : Value
  next : Value

namespace FieldDiff

def isModified (d : FieldDiff) : Bool := !d.next.isNull && !d.next.same d.current

def toValue (d : FieldDiff) : Value :=
  .object ([("current", d.current), ("modified", .bool d.isModified)] ++
    if d.next.isNull then [] else [("next", d.next)])

end FieldDiff

structure Account where
  address : String
  storage : Table Int Access
  fields : List (String × FieldDiff)

namespace Account

def fieldNames : List String := ["balance", "nonce", "code", "codeHash", "storageRoot"]

def split (v : Value) : FieldDiff :=
  if v.isRecord then ⟨(v.lookup "current").getD .null, (v.lookup "next").getD .null⟩
  else ⟨v, .null⟩

def parseField (address : String) (raw : List (String × Value)) (name : String) :
    Except Fault (Option (String × FieldDiff)) :=
  match Entries.find? name raw with
  | none => .ok none
  | some v =>
    let d := split v
    if d.current.isNull && !d.next.isNull then
      .error (.diff address name .nextWithoutCurrent)
    else .ok (some (name, d))

def readAccess (place : Value) (d : FieldDiff) : Except WordFault (Int × Access) := do
  let slot ← Slot.ofValue place
  let current ← Word.ofValue d.current
  let next ← if d.next.isNull then pure none else (Word.ofValue d.next).map some
  return (slot, ⟨current, next⟩)

def parseAccess (address : String) (place v : Value) : Except Fault (Int × Access) :=
  let d := split v
  let report (fault : DiffFault) : Fault := .diff address place.plain fault
  if d.current.isNull then
    .error (report (if d.next.isNull then .missingCurrent else .nextWithoutCurrent))
  else (readAccess place d).mapError fun cause => report (.badWord cause)

def parseStorage (address : String) (raw : List (Value × Value)) :
    Except Fault (Table Int Access) := do
  let accesses ← raw.mapM fun (place, v) => parseAccess address place v
  return Table.ofList accesses

def entriesOf (v : Value) : Except ShapeFault (List (Value × Value)) :=
  if v.isVacant then .ok [] else v.entries

def occursIn (part : List Char) : List Char → Bool
  | [] => part.isEmpty
  | c :: rest => part.isPrefixOf (c :: rest) || occursIn part rest

/-- Whether a value that is no record seems to have an account field: it is a list that holds the
name of one, or a text in which such a name stands. -/
def seemsFilled : Value → Bool
  | .list items => fieldNames.any fun name => items.any (·.same (.text name))
  | .text s => fieldNames.any fun name => occursIn name.toList s.toList
  | _ => false

def accountMembers (v : Value) : Except ShapeFault (List (String × Value)) :=
  if v.isVacant then .ok []
  else match v with
    | .text _ | .list _ => .error (if seemsFilled v then .wrongKind else .notRecord)
    | _ => match v.fields? with
      | some fields => .ok fields
      | none => .error .wrongKind

def parse (address raw : Value) : Except Fault Account := do
  let address ← Address.ofValue address
  let members ← accountMembers raw
  let fields ← fieldNames.mapM (parseField address members)
  let storage ← entriesOf ((Entries.find? "storage" members).getD .null)
  return ⟨address, ← parseStorage address storage, fields.filterMap id⟩

end Account

def parseStateDiff (raw : List (Value × Value)) : Except Fault (Table String Account) := do
  let accounts ← raw.mapM fun (address, v) => Account.parse address v
  return Table.ofList (accounts.map fun account => (account.address, account))

end SlotLens

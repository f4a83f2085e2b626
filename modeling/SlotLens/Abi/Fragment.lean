import SlotLens.Abi.Decode
import SlotLens.Fault
import SlotLens.Keccak

namespace SlotLens.Abi

namespace Fragment

def isFunction (fragment : Value) : Except ShapeFault Bool := do
  match ← fragment.member? "type" with
  | none => return true
  | some (.text kind) => return kind = "function"
  | some _ => return false

mutual
/-- The type of an input as signatures write it. A text is a type already; a record says its type,
and where that is a tuple, the types of its components. -/
def typeText : Value → Except ShapeFault String
  | .text s => .ok s
  | .object fields => do
    match Entries.find? "type" fields with
    | some (.text name) =>
      if name.startsWith "tuple" then
        let components ← componentTexts fields
        return "(" ++ ",".intercalate components ++ ")" ++ (name.drop 5).toString
      else return name
    | _ => throw .wrongKind
  | _ => .error .notRecord

def componentTexts : List (String × Value) → Except ShapeFault (List String)
  | [] => .error (.missing "components")
  | (key, v) :: rest => if key = "components" then listTexts v else componentTexts rest

/-- The types of several inputs. A text gives each of its characters and a record each of its names
as a type. -/
def listTexts : Value → Except ShapeFault (List String)
  | .list items => itemTexts items
  | .text s => .ok ((Text.letters s.toList).map String.ofList)
  | .object fields => .ok (fields.map Prod.fst)
  | _ => .error .wrongKind

def itemTexts : List Value → Except ShapeFault (List String)
  | [] => .ok []
  | v :: rest => do
    let text ← typeText v
    let texts ← itemTexts rest
    return text :: texts
end

def inputs (fragment : Value) : Except ShapeFault Value := do
  return (← fragment.member? "inputs").getD (.list [])

def inputTypes (fragment : Value) : Except ShapeFault (List String) := do
  listTexts (← inputs fragment)

def decodedTypes (fragment : Value) : Except ShapeFault (List String) := do
  let items ← (← inputs fragment).iterate
  items.mapM fun item => item.asRecord >>= typeText

def signature (fragment : Value) : Except ShapeFault String := do
  let kind ← fragment.member "type"
  let name := (← fragment.member? "name").getD kind
  let types ← inputTypes fragment
  let text := name.plain ++ "(" ++ ",".intercalate types ++ ")"
  return String.ofList (text.toList.filter (· ≠ ' '))

def selector (fragment : Value) : Except Fault (List UInt8) := do
  let text ← signature fragment
  match Text.utf8? text with
  | some bytes => return (Keccak.hash bytes).take 4
  | none => throw (.abi .notEncodable)

end Fragment

def decodeTyped (types : List String) (data : List UInt8) :
    Except AbiFault (List (String × Value)) :=
  match (do Codec.decodeArguments data (← types.mapM Codec.ofText)) with
  | .ok values => .ok (types.zip values)
  | .error .malformed => .ok []
  | .error .unparsable => .ok []
  | .error fault => .error fault

def decodeSelected (data : List UInt8) : List Value → Except Fault (List (String × Value))
  | [] => .ok []
  | fragment :: rest => do
    if ← Fragment.isFunction fragment then
      if (← Fragment.selector fragment) = data.take 4 then
        let types ← Fragment.decodedTypes fragment
        decodeTyped types (data.drop 4)
      else decodeSelected data rest
    else decodeSelected data rest

def callBytes (calldata : Value) : Except Fault (List UInt8) :=
  if calldata.isVacant then .ok []
  else match calldata with
    | .text s => (Hex.read s.toList).mapError .hex
    | _ => .error (.shape .wrongKind)

/-- The arguments of a call under an interface: their types and values, and none where no function
is selected. Data that cannot select a function is not looked up. -/
def decodeCall (calldata abi : Value) : Except Fault (List (String × Value)) := do
  let data ← callBytes calldata
  if data.length < 4 then return [] else decodeSelected data (← abi.iterate)

end SlotLens.Abi

import SlotLens.Abi.Encode
import SlotLens.Candidate.Basic

namespace SlotLens.Candidate

open Abi

mutual
/-- The leaves of a value of a type. A tuple is cut to the shorter of its components and its
values. -/
def leaves : Ty → Value → Except ShapeFault (List (String × Value))
  | .basic name size, v => .ok [(name ++ size.print, v)]
  | .tuple components, v => do
    let values ← v.iterate
    leavesOfAll components values
  | .array item _, v => do
    let values ← v.iterate
    let found ← values.mapM fun value => leaves item value
    return found.flatten

def leavesOfAll : List Ty → List Value → Except ShapeFault (List (String × Value))
  | t :: components, v :: values => do
    let first ← leaves t v
    let rest ← leavesOfAll components values
    return first ++ rest
  | _, _ => .ok []
end

def flatten (type value : Value) : Except Fault (List (String × Value)) := do
  let t ← Ty.ofValue type
  leaves t value

def bytesOf : Value → Except Fault (List UInt8)
  | .text s => (Hex.read s.toList).mapError .hex
  | v => v.toBytes.mapError .shape

def fixedBytesOf (type : String) : Value → Except Fault Value
  | .text s =>
    if type.startsWith "bytes" then
      match Hex.read s.toList with
      | .ok b => .ok (.bytes b)
      | .error fault => .error (.hex fault)
    else .ok (.text s)
  | v => .ok v

def encodeLeaf [Address.Rule] (type : String) (value : Value) :
    Except Fault (List UInt8 × Value) := do
  if type = "string" then
    match value with
    | .text s => match Text.utf8? s with
      | some raw => return (raw, value)
      | none => throw (.abi .notEncodable)
    | _ => return (← value.toBytes, value)
  else if type = "bytes" then
    let raw ← bytesOf value
    return (raw, .text (Hex.text raw))
  else
    let value ← fixedBytesOf type value
    let codec ← Codec.ofText type
    let raw ← codec.encodeArgument value
    if type = "address" then return (raw, .text (← Address.checksum value))
    else match value with
      | .bytes b => return (raw, .text (Hex.text b))
      | _ => return (raw, value)

def ofLeaf [Address.Rule] (type : String) (value : Value) : Except Fault Candidate :=
  (encodeLeaf type value).map fun (raw, decoded) => ⟨raw, decoded, .text type, .argument⟩

def ofArgument [Address.Rule] (type value : Value) : Except Fault Candidate :=
  match type, value with
  | .text name, v => ofLeaf name v
  | v, .text _ => do ofLeaf (← v.asText) value
  | _, _ => .error (.abi .notText)

def skipsArgument : Fault → Bool
  | .abi .unparsable => true
  | .abi .notText => true
  | .shape .wrongKind => true
  | _ => false

def skipsLeaf : Fault → Bool
  | .shape .unbounded => false
  | .shape .tooMany => false
  | _ => true

def ofLeaves [Address.Rule] : List (String × Value) → Except Fault (List Candidate)
  | [] => .ok []
  | (type, value) :: rest =>
    match ofLeaf type value with
    | .ok c => (ofLeaves rest).map (c :: ·)
    | .error fault => if skipsLeaf fault then ofLeaves rest else .error fault

def ofArguments [Address.Rule] : List (Value × Value) → Except Fault (List Candidate)
  | [] => .ok []
  | (type, value) :: rest =>
    match flatten type value with
    | .ok found => do
      let first ← ofLeaves found
      let others ← ofArguments rest
      return first ++ others
    | .error fault => if skipsArgument fault then ofArguments rest else .error fault

end SlotLens.Candidate

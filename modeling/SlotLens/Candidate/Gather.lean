import SlotLens.Abi.Fragment
import SlotLens.Candidate.Argument

namespace SlotLens.Candidate

def ofAddress (address : Value) : Except Fault Candidate := do
  let word ← Word.ofValue address
  let shown ← Address.checksum address
  return ⟨word.bytes, .text shown, .text "address", .address⟩

def ofAddresses (addresses : List Value) : Except Fault (List Candidate) := addresses.mapM ofAddress

def keyBearing : List String := ["SHA3", "KECCAK256", "SLOAD", "SSTORE"]

def bearsKeys (operation : Option Value) : Except ShapeFault Bool := do
  match ← (operation.getD .null).asKey with
  | .text name => return keyBearing.contains name
  | _ => return false

def itemsOf (v : Value) : Except ShapeFault (List Value) := if v.isVacant then .ok [] else v.iterate

def ofStep (step : Value) : Except ShapeFault (List Candidate) := do
  if ← bearsKeys (← step.member? "op") then
    let items ← itemsOf (← step.memberOrNull "stack")
    return items.filterMap fun item => match Word.ofValue item with
      | .ok word => some ⟨word.bytes, .null, .null, .stack⟩
      | .error _ => none
  else return []

def ofSteps (steps : List Value) : Except ShapeFault (List Candidate) := do
  let found ← steps.mapM ofStep
  return found.flatten

def givenArgument (argument : Value) : Except ShapeFault (Value × Value) := do
  let type ← argument.member "type"
  let value ← argument.member "value"
  return (type, value)

/-- The arguments of a call: those that are given decoded, or else those that the call data holds
for a function of the called contract. -/
def argumentsOf (calldata abi args : Value) : Except Fault (List (Value × Value)) := do
  if args.isNull then
    if calldata.isVacant || abi.isVacant then return []
    else
      let found ← Abi.decodeCall calldata abi
      return found.map fun (type, value) => (.text type, value)
  else
    let given ← args.iterate
    given.mapM fun argument => givenArgument argument

def gather [Address.Rule] (addresses : List Value) (structLogs calldata abi args : Value) :
    Except Fault (List Candidate) := do
  let touched ← ofAddresses addresses
  let passed ← ofArguments (← argumentsOf calldata abi args)
  let steps ← itemsOf structLogs
  let found ← ofSteps steps
  return ranked (touched ++ passed ++ found)

end SlotLens.Candidate

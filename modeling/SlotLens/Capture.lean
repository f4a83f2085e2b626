import SlotLens.Account

namespace SlotLens

structure Capture where
  accounts : Table String Account
  addresses : List Value
  steps : List Value
  calldata : Value
  args : Value
  txHash : Value
  sender : Value
  recipient : Value

namespace Capture

def listOf (v : Value) : Except ShapeFault (List Value) := if v.isVacant then .ok [] else v.iterate

def stepsMember (v : Value) : Except ShapeFault Value := do
  let steps ← v.memberOrNull "structLogs"
  if steps.isNull then
    return ((← v.memberOrNull "trace").lookup "structLogs").getD .null
  else return steps

def ofValue (v : Value) : Except Fault Capture := do
  let steps ← stepsMember v
  let diff ← v.memberOrNull "stateDiff"
  let accounts ← parseStateDiff (← Account.entriesOf diff)
  let addresses ← listOf (← v.memberOrNull "addresses")
  let steps ← listOf steps
  let input ← v.memberOrNull "input"
  let calldata := (← v.member? "calldata").getD input
  return ⟨accounts, addresses, steps, calldata, ← v.memberOrNull "args",
    ← v.memberOrNull "txHash", ← v.memberOrNull "from", ← v.memberOrNull "to"⟩

def touchedKey (v : Value) : Except ShapeFault (Option String) :=
  if v.isVacant then .ok none else (Address.ofValue v).map some

def touched (c : Capture) : Except ShapeFault (List String) := do
  let given := c.sender :: c.recipient :: c.addresses ++ c.accounts.keys.map .text
  let found ← given.mapM touchedKey
  return (found.filterMap id).eraseDups

end Capture

end SlotLens

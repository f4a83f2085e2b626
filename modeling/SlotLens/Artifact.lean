import SlotLens.Fault

namespace SlotLens.Artifact

/-- The document that a file holds; `none` stands for a file that does not exist. -/
def document : Option String → Except Fault Value
  | none => .error .fileNotFound
  | some text => (Json.parse text).mapError .json

def unfold : Value → Except Fault Value
  | .text s => document (some s)
  | v => .ok v

def layoutNames : List String := ["storageLayout", "storage-layout"]

def isSourceUnit : Value → Bool
  | .object [] => false
  | .object members =>
    !members.any (fun m => layoutNames.contains m.1) && members.all fun m => m.2.isRecord
  | _ => false

def contractsOf (name : String) (entry : Value) : List (String × Value) :=
  match entry with
  | .object members =>
    if isSourceUnit entry then members.map fun m => (name ++ ":" ++ m.1, m.2)
    else [(name, entry)]
  | _ => [(name, entry)]

def contracts (v : Value) : Except ShapeFault (List (String × Value)) := do
  let entries ← v.members
  return Entries.ofList (entries.flatMap fun e => contractsOf e.1 e.2)

/-- Whether a full name is that of a contract: the name itself, or the name behind its file. -/
def isNamed (contract : Value) (fullName : String) : Bool :=
  contract.same (.text fullName) || [":" ++ contract.plain, "/" ++ contract.plain].any fun ending =>
    ending.toList.isSuffixOf fullName.toList

def contract (v name : Value) : Except Fault Value := do
  let found ← contracts v
  match found.head?, found.find? fun e => name.isNull || isNamed name e.1 with
  | none, _ => throw (.artifact .noContracts)
  | _, some e => return e.2
  | _, none => throw (.artifact (.contractNotFound name))

def contractLayout (v name : Value) : Except Fault (Option Value) := do
  let found ← contract v name
  let other ← found.memberOrNull "storage-layout"
  let given ← found.member? "storageLayout"
  let layout ← unfold (given.getD other)
  return if layout.isRecord then some layout else none

def layout (path : String) (name : Value) (file : Option String) : Except Fault Value := do
  let artifact ← document file
  if !artifact.isRecord then throw (.artifact (.unrecognized path))
  if (artifact.lookup "storage").isSome && (artifact.lookup "types").isSome then return artifact
  match artifact.lookup "storageLayout", artifact.lookup "contracts" with
  | some layout, _ => layout.asRecord
  | none, some v => match ← contractLayout v name with
    | some layout => return layout
    | none => throw (.artifact (.noLayout path))
  | none, none => throw (.artifact (.noLayout path))

def abiMember (v : Value) : Except Fault Value :=
  if v.isRecord then unfold ((v.lookup "abi").getD .null) else .ok v

def abi (path : String) (file : Option String) : Except Fault Value := do
  match ← abiMember (← document file) with
  | .list fragments => return .list fragments
  | _ => throw (.artifact (.noAbi path))

end SlotLens.Artifact

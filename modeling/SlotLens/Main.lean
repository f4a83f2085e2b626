import SlotLens.Command.Run

namespace SlotLens.Program

def environmentNames : List String :=
  "EVMSTATE_LOG_LEVEL" :: Setting.all.map Setting.variableName

def readEnvironment : IO (List (String × String)) :=
  environmentNames.filterMapM fun name => do
    let value ← IO.getEnv name
    return value.map fun value => (name, Text.keep value)

def readFile? (path : String) : IO (Option (List UInt8)) := do
  try return some (← IO.FS.readBinFile (Text.shown path)).data.toList
  catch _ => return none

def readFiles (paths : List String) : IO (List (String × List UInt8)) :=
  paths.filterMapM fun path => do
    let content ← readFile? path
    return content.map (path, ·)

def finish : Ending → IO UInt32
  | .code n => return n.toUInt32
  | .refused refusal => do
    IO.eprintln "usage: label CAPTURE [--layout ADDRESS=FILE] [--abi ADDRESS=FILE] | layout FILE"
    return refusal.code.toUInt32
  | .escaped fault => do
    IO.eprintln ((fault.message? fun _ => "malformed value").getD "malformed input")
    return 1

def writeFile (path content : String) : IO Bool := do
  try
    IO.FS.writeFile (Text.shown path) (Text.shown content)
    return true
  catch _ => return false

local instance : Address.Rule := ⟨false⟩

def run (arguments : List String) : IO UInt32 := do
  let settings ← readEnvironment
  let environment (name : String) := Entries.find? name settings
  match Command.requestOf environment arguments with
  | .error ending => finish ending
  | .ok request => do
    let contents ← readFiles request.files
    let file (path : String) := Entries.find? path contents
    let surroundings := ⟨environment, file, fun _ => true, fun n => !Text.isHalf n⟩
    let outcome := Command.perform surroundings request
    IO.print (Text.shown outcome.printed)
    match outcome.written with
    | none => finish outcome.ending
    | some (path, content) =>
      if ← writeFile path content then finish outcome.ending else finish (.code 1)

end SlotLens.Program

def main (arguments : List String) : IO UInt32 :=
  SlotLens.Program.run (arguments.map SlotLens.Text.keep)

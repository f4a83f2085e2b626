import SlotLens.Artifact
import SlotLens.Command.Request
import SlotLens.Json.Printer
import SlotLens.Watcher

/-!
# Running a command line

What the program does with a command line in its surroundings: the text it prints, the file it
writes, and how it ends.
-/

namespace SlotLens

structure Surroundings where
  environment : String → Option String
  file : String → Option (List UInt8)
  canWrite : String → Bool
  /-- Whether what is printed may hold a code point beyond ASCII. -/
  hasCode : Nat → Bool

inductive Ending where
  | code (n : Nat)
  | refused (refusal : Refusal)
  /-- A fault that is not turned into a code. -/
  | escaped (fault : Fault)

structure Outcome where
  ending : Ending
  printed : String
  written : Option (String × String)

def Surroundings.text (s : Surroundings) (path : String) : Except Fault (Option String) :=
  match s.file path with
  | none => .ok none
  | some bytes => match Text.ofUtf8? bytes with
    | some text => .ok (some text)
    | none => .error .notDecodable

namespace Command

def environmentLogLevel (lookup : String → Option String) : Except ConfigFault String :=
  let text := LogLevel.upper (String.ofList
    (Text.trim ((lookup "EVMSTATE_LOG_LEVEL").getD "INFO").toList))
  if logLevelNames.contains text then .ok text else .error (.environmentLogLevel text)

def environmentBounds (lookup : String → Option String) : Except ConfigFault Bounds := do
  let bounds ← Bounds.ofEnvironment lookup
  let _ ← environmentLogLevel lookup
  return bounds

def boundsOf (r : LabelRequest) : Except ConfigFault Bounds :=
  Bounds.ofSettings [(.limit, r.limit), (.depth, r.depth), (.threshold, r.threshold)]

def registerFile (register : Tracer → Value → Value → Except Fault Tracer)
    (read : String → Except Fault Value) (t : Tracer) (assignment : Value) :
    Except Fault Tracer := do
  let (address, path) ← splitAssignment assignment
  register t (.text address) (← read path)

def layoutOf (s : Surroundings) (path : String) (contract : Value) : Except Fault Value := do
  Artifact.layout path contract (← s.text path)

def abiOf (s : Surroundings) (path : String) : Except Fault Value := do
  Artifact.abi path (← s.text path)

def tracerOf (s : Surroundings) (r : LabelRequest) : Except Fault Tracer := do
  let t := Tracer.new (← boundsOf r)
  let t ← r.layouts.foldlM
    (registerFile Tracer.registerLayout fun path => layoutOf s path r.contract) t
  r.abis.foldlM (registerFile Tracer.registerAbi fun path => abiOf s path) t

def lengthsOf (r : LabelRequest) : Except Fault (List (Value × Lengths)) := do
  if r.lengths.any (·.isNone) then throw .lengthWithoutValue
  return (KnownLength.table (r.lengths.filterMap id)).entries.map fun e =>
    (.text e.1, e.2.map some)

def label [Address.Rule] (s : Surroundings) (r : LabelRequest) : Except Fault Value := do
  let t ← tracerOf s r
  let lengths ← lengthsOf r
  let capture ← Capture.ofValue (← Artifact.document (← s.text r.capture))
  let states ← t.trace capture lengths
  return .object (states.entries.map fun e => (e.1, e.2.toValue))

def line (s : String) : String := s ++ "\n"

/-- Whether a half of a surrogate pair stands for a byte of a path. -/
def standsForByte (n : Nat) : Bool := 0xDC80 ≤ n && n < 0xDD00

def checkPath (s : Surroundings) (path : String) : Except Fault Unit := do
  let points := Text.points path.toList
  if points.any fun n => Text.isHalf n && !standsForByte n then throw .notEncodable
  if points.contains 0 then throw .notPath
  if !s.canWrite path then throw .notWritable

def canPrint (s : Surroundings) (text : String) : Bool :=
  (Text.points text.toList).all fun n => n < 0x80 || s.hasCode n

abbrev Answer := String × Option (String × String)

def printed (s : Surroundings) (text : String) : Except Fault Answer :=
  if canPrint s text then .ok (text, none) else .error .notEncodable

def answer [Address.Rule] (s : Surroundings) : Request → Except Fault Answer
  | .layout file contract => do
    let layout ← Metadata.layout (← layoutOf s file contract)
    printed s (line layout.text)
  | .label r => do
    let text := line (Json.print (← label s r))
    let path := r.output.getD ""
    if path.isEmpty then printed s text
    else
      checkPath s path
      return ("", some (path, text))

/-- How the program ends with a fault: input that is wrong has the code 2, and files that cannot be
read or written have the code 1. -/
def endingOf : Fault → Ending
  | .config (.unwritable setting) => .escaped (.config (.unwritable setting))
  | .config _ | .layout _ | .diff .. | .artifact _ => .code 2
  | .fileNotFound | .notWritable | .json .malformed => .code 1
  | fault => .escaped fault

def perform [Address.Rule] (s : Surroundings) (request : Request) : Outcome :=
  match answer s request with
  | .ok (printed, written) => ⟨.code 0, printed, written⟩
  | .error fault => ⟨endingOf fault, "", none⟩

def requestOf (lookup : String → Option String) (arguments : List String) :
    Except Ending Request :=
  match environmentBounds lookup with
  | .error fault => .error (endingOf (.config fault))
  | .ok bounds => match Request.ofArguments bounds arguments with
    | .error refusal => .error (.refused refusal)
    | .ok line =>
      if line.hasLevel then .ok line.request else .error (.escaped (.shape .notText))

def run [Address.Rule] (s : Surroundings) (arguments : List String) : Outcome :=
  match requestOf s.environment arguments with
  | .error ending => ⟨ending, "", none⟩
  | .ok request => perform s request

end Command

end SlotLens

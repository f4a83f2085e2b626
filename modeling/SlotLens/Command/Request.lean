import SlotLens.Bounds
import SlotLens.Command.Arguments
import SlotLens.Command.KnownLength
import SlotLens.Fault

namespace SlotLens

namespace LogLevel

def upper (s : String) : String :=
  s.map fun c => if c = 'ı' then 'I' else c.toUpper

def ofText (s : String) : Except ConfigFault String :=
  let name := upper s
  if logLevelNames.contains name then .ok name else .error (.logLevel s)

end LogLevel

structure LabelRequest where
  capture : String
  layouts : List Value
  abis : List Value
  contract : Value
  lengths : List (Option KnownLength)
  output : Option String
  limit : Value
  depth : Value
  threshold : Value

inductive Request where
  | label (request : LabelRequest)
  | layout (file : String) (contract : Value)

structure CommandLine where
  /-- A log level is given, or none is asked for. -/
  hasLevel : Bool
  request : Request

inductive Refusal where
  | help
  | usage
  deriving DecidableEq, Repr

def Refusal.code : Refusal → Nat
  | .help => 0
  | .usage => 2

def optionValue (v : Option String) : Value := v.elim (.list []) .text

structure Reading (α : Type) where
  value : α
  hasSurplus : Bool

namespace LabelRequest

inductive Key where
  | help
  | layout
  | abi
  | contract
  | length
  | output
  | limit
  | depth
  | threshold
  deriving DecidableEq, Repr

def options : Options Key where
  texts := [("-h", .help), ("--help", .help), ("--layout", .layout), ("--abi", .abi),
    ("--contract-name", .contract), ("--known-length", .length), ("--output", .output),
    ("-o", .output), ("--mapping-exploration-limit", .limit), ("--max-mapping-depth", .depth),
    ("--early-termination-threshold", .threshold)]
  takesValue := (· ≠ .help)
  operandTakesRest := false

def number : Option String → Except Refusal Value
  | none => .ok (optionValue none)
  | some s => match Numeral.ofDecimal? s with
    | some n => .ok (.int n)
    | none => .error .usage

def length : Option String → Except Refusal (Option KnownLength)
  | none => .ok none
  | some s => match KnownLength.ofText s with
    | .ok k => .ok (some k)
    | .error _ => .error .usage

def set (r : LabelRequest) : Key → Option String → Except Refusal LabelRequest
  | .help, _ => .error .help
  | .layout, v => .ok { r with layouts := r.layouts ++ [optionValue v] }
  | .abi, v => .ok { r with abis := r.abis ++ [optionValue v] }
  | .contract, v => .ok { r with contract := optionValue v }
  | .length, v => (length v).map fun k => { r with lengths := r.lengths ++ [k] }
  | .output, v => .ok { r with output := v }
  | .limit, v => (number v).map fun limit => { r with limit }
  | .depth, v => (number v).map fun depth => { r with depth }
  | .threshold, v => (number v).map fun threshold => { r with threshold }

def read (r : LabelRequest) (hasCapture hasSurplus : Bool) :
    List (Item Key) → Except Refusal (Reading LabelRequest)
  | [] => if hasCapture then .ok ⟨r, hasSurplus⟩ else .error .usage
  | .option key v :: items => do
    let r ← r.set key v
    r.read hasCapture hasSurplus items
  | .operand capture _ :: items => { r with capture }.read true hasSurplus items
  | .surplus :: items => r.read hasCapture true items
  | .malformed :: _ => .error .usage

def initial (b : Bounds) : LabelRequest :=
  ⟨"", [], [], .null, [], none, .int (Bounds.toInt b.limit), .int (Bounds.toInt b.depth),
    .int (Bounds.toInt b.threshold)⟩

def ofArguments (b : Bounds) (arguments : List String) : Except Refusal (Reading LabelRequest) :=
  (initial b).read false false (Item.ofArguments options arguments)

end LabelRequest

namespace Request

inductive LayoutKey where
  | help
  | contract
  deriving DecidableEq, Repr

def layoutOptions : Options LayoutKey where
  texts := [("-h", .help), ("--help", .help), ("--contract-name", .contract)]
  takesValue := (· = .contract)
  operandTakesRest := false

def readLayout (file : Option String) (contract : Value) (hasSurplus : Bool) :
    List (Item LayoutKey) → Except Refusal (Reading Request)
  | [] => match file with
    | some file => .ok ⟨.layout file contract, hasSurplus⟩
    | none => .error .usage
  | .option .help _ :: _ => .error .help
  | .option .contract v :: items => readLayout file (optionValue v) hasSurplus items
  | .operand file _ :: items => readLayout (some file) contract hasSurplus items
  | .surplus :: items => readLayout file contract true items
  | .malformed :: _ => .error .usage

inductive Key where
  | help
  | logLevel
  | jsonLogs
  deriving DecidableEq, Repr

def options : Options Key where
  texts := [("-h", .help), ("--help", .help), ("--log-level", .logLevel),
    ("--json-logs", .jsonLogs)]
  takesValue := (· = .logLevel)
  operandTakesRest := true

def ofCommand (b : Bounds) (command : String) (arguments : List String) :
    Except Refusal (Reading Request) :=
  if command = "label" then
    (LabelRequest.ofArguments b arguments).map fun r => ⟨.label r.value, r.hasSurplus⟩
  else if command = "layout" then
    readLayout none .null false (Item.ofArguments layoutOptions arguments)
  else .error .usage

def read (b : Bounds) (hasLevel hasSurplus : Bool) : List (Item Key) → Except Refusal CommandLine
  | [] => .error .usage
  | .option .help _ :: _ => .error .help
  | .option .logLevel none :: items => read b false hasSurplus items
  | .option .logLevel (some v) :: items =>
    match LogLevel.ofText v with
    | .ok _ => read b true hasSurplus items
    | .error _ => .error .usage
  | .option .jsonLogs _ :: items => read b hasLevel hasSurplus items
  | .operand command arguments :: _ => do
    let r ← ofCommand b command arguments
    if hasSurplus || r.hasSurplus then throw .usage
    return ⟨hasLevel, r.value⟩
  | .surplus :: items => read b hasLevel true items
  | .malformed :: _ => .error .usage

def ofArguments (b : Bounds) (arguments : List String) : Except Refusal CommandLine :=
  read b true false (Item.ofArguments options arguments)

def files : Request → List String
  | .layout file _ => [file]
  | .label r =>
    let named := (r.layouts ++ r.abis).filterMap fun s => match splitAssignment s with
      | .ok (_, file) => some file
      | .error _ => none
    r.capture :: named

end Request

end SlotLens

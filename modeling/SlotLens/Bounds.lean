import SlotLens.Fault

namespace SlotLens

inductive Setting where
  | limit
  | depth
  | threshold
  deriving DecidableEq, Repr

namespace Setting

def all : List Setting := [.limit, .depth, .threshold]

def name : Setting → String
  | .limit => "mapping_exploration_limit"
  | .depth => "max_mapping_depth"
  | .threshold => "early_termination_threshold"

def otherName : Setting → String
  | .limit => "mappingExplorationLimit"
  | .depth => "maxMappingDepth"
  | .threshold => "earlyTerminationThreshold"

def variableName : Setting → String
  | .limit => "EVMSTATE_MAPPING_EXPLORATION_LIMIT"
  | .depth => "EVMSTATE_MAX_MAPPING_DEPTH"
  | .threshold => "EVMSTATE_EARLY_TERMINATION_THRESHOLD"

def minimum : Setting → Nat
  | .limit => 0
  | .depth => 1
  | .threshold => 1

def standard : Setting → Nat
  | .limit => 1000000
  | .depth => 5
  | .threshold => 500

def ofName? (s : String) : Option Setting := all.find? (·.name = s)

def ofEitherName? (s : String) : Option Setting :=
  all.find? fun setting => setting.name = s ∨ setting.otherName = s

end Setting

structure Bounds where
  limit : Option Nat
  depth : Option Nat
  threshold : Option Nat
  depth_pos : ∀ n ∈ depth, 1 ≤ n
  threshold_pos : ∀ n ∈ threshold, 1 ≤ n

namespace Bounds

theorem none_pos : ∀ n ∈ (none : Option Nat), 1 ≤ n := by
  intro n h
  cases h

def standard : Bounds :=
  ⟨some Setting.limit.standard, some Setting.depth.standard, some Setting.threshold.standard,
    by decide, by decide⟩

instance : Inhabited Bounds := ⟨standard⟩

def toInt : Option Nat → Int
  | none => -1
  | some n => n

def exhausted (b : Bounds) (explored : Int) : Bool :=
  match b.limit with
  | none => false
  | some n => n ≤ explored

/-- Whether a container at a level may be followed; the container of a variable is at level 1. -/
def depthAllows (b : Bounds) (level : Int) : Bool :=
  match b.depth with
  | none => true
  | some n => level ≤ n

def thresholdReached (b : Bounds) (found : Int) : Bool :=
  match b.threshold with
  | none => false
  | some n => n ≤ found

def tooSmall (setting : Setting) (n : Int) : ConfigFault :=
  if Numeral.maxDigits < (Nat.toDigits 10 n.natAbs).length then .unwritable setting.name
  else .tooSmall setting.name setting.minimum n

def check (setting : Setting) (v : Value) :
    Except ConfigFault { bound : Option Nat // ∀ n ∈ bound, setting.minimum ≤ n } :=
  match v with
  | .int n =>
    if n = -1 then .ok ⟨none, by simp⟩
    else if h : n < setting.minimum then .error (tooSmall setting n)
    else .ok ⟨some n.toNat, by simp; omega⟩
  | v => .error (.notInteger setting.name v)

def given (values : List (Setting × Value)) (setting : Setting) : Value :=
  match values.reverse.find? (·.1 = setting) with
  | some (_, v) => v
  | none => .int setting.standard

def ofSettings (values : List (Setting × Value)) : Except ConfigFault Bounds := do
  let limit ← check .limit (given values .limit)
  let depth ← check .depth (given values .depth)
  let threshold ← check .threshold (given values .threshold)
  return ⟨limit.val, depth.val, threshold.val, depth.property, threshold.property⟩

def ofArguments (members : List (String × Value)) : Except Fault Bounds := do
  let values ← members.mapM fun (name, v) => match Setting.ofName? name with
    | some setting => .ok (setting, v)
    | none => .error (Fault.shape .wrongKind)
  (ofSettings values).mapError .config

def settingOf (key : Value) : Except ConfigFault Setting :=
  match key with
  | .text name => match Setting.ofEitherName? name with
    | some setting => .ok setting
    | none => .error (.unknownSetting key)
  | _ => .error (.unknownSetting key)

def ofDocument (entries : List (Value × Value)) : Except ConfigFault Bounds := do
  let values ← entries.mapM fun (key, v) => (settingOf key).map ((·, v))
  ofSettings (values.filter (!·.2.isNull))

def ofVariable (lookup : String → Option String) (setting : Setting) :
    Except ConfigFault (Option (Setting × Value)) :=
  match lookup setting.variableName with
  | none => .ok none
  | some text =>
    if (Text.trim text.toList).isEmpty then .ok none
    else match Numeral.ofMarked? text with
      | some n => .ok (some (setting, .int n))
      | none => .error (.notNumeral setting.variableName text)

def ofEnvironment (lookup : String → Option String) : Except ConfigFault Bounds := do
  let values ← Setting.all.mapM (ofVariable lookup)
  ofSettings (values.filterMap id)

end Bounds

end SlotLens

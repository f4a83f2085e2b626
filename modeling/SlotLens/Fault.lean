import SlotLens.Json.Document
import SlotLens.Word

namespace SlotLens

inductive AbiFault where
  | unparsable
  | emptyTuple
  | longNumber
  | tooDeep
  | notText
  | badSize
  | unknown
  /-- A name that stands for a type with a size is given a size of its own. -/
  | sizedAlias
  | wrongKind
  | outOfBounds
  | tooFine
  /-- Data ends too soon, points astray, or has other padding than it must. -/
  | malformed
  | tooLong
  | notUtf8
  /-- A text to be encoded has no bytes in UTF-8. -/
  | notEncodable
  deriving DecidableEq, Repr

inductive ConfigFault where
  | notInteger (setting : String) (value : Value)
  | tooSmall (setting : String) (minimum value : Int)
  /-- A value that is too small has too many digits to be reported. -/
  | unwritable (setting : String)
  | unknownSetting (name : Value)
  | notNumeral (name text : String)
  | logLevel (text : String)
  | environmentLogLevel (text : String)
  | history (n : Int)
  deriving Repr

inductive LayoutFault where
  | notObject
  | noStorage
  | typesNotObject
  | unknownType (id : String)
  | noEncoding (id : String)
  | malformedType (id : String) (cause : ShapeFault)
  | unsupportedEncoding (name : String)
  | missingPart (id key : String)
  | noBase (id : String)
  | noLength (label : String)
  | malformedEntry (cause : ShapeFault)
  | noElement (label : Value)
  deriving Repr

inductive DiffFault where
  | nextWithoutCurrent
  | missingCurrent
  | badWord (cause : WordFault)
  deriving Repr

inductive ArtifactFault where
  | unrecognized (path : String)
  | noContracts
  | contractNotFound (name : Value)
  | noLayout (path : String)
  | noAbi (path : String)
  deriving Repr

inductive ArgumentFault where
  | notAssignment (given : Value)
  | notKnownLength (text : String)
  | badSlot (text : String) (cause : WordFault)
  | badNumber (text : String)
  deriving Repr

inductive Fault where
  | shape (fault : ShapeFault)
  | word (fault : WordFault)
  | hex (fault : HexFault)
  | abi (fault : AbiFault)
  | config (fault : ConfigFault)
  | layout (fault : LayoutFault)
  | diff (address place : String) (fault : DiffFault)
  | artifact (fault : ArtifactFault)
  | argument (fault : ArgumentFault)
  | fieldRange (offset size : Int)
  | slotOverflow
  /-- Elements of size zero are to be packed. -/
  | zeroSize
  | notAddress
  | unknownName
  | outside
  | noPart
  | fileNotFound
  | notWritable
  | json (fault : JsonFault)
  /-- A path holds a code point that stands for no byte, or an output has no code for one. -/
  | notEncodable
  | notDecodable
  | notPath
  | lengthWithoutValue
  | fetch
  | listener
  deriving Repr

instance : MonadLift (Except ShapeFault) (Except Fault) := ⟨Except.mapError .shape⟩
instance : MonadLift (Except WordFault) (Except Fault) := ⟨Except.mapError .word⟩
instance : MonadLift (Except HexFault) (Except Fault) := ⟨Except.mapError .hex⟩
instance : MonadLift (Except AbiFault) (Except Fault) := ⟨Except.mapError .abi⟩
instance : MonadLift (Except JsonFault) (Except Fault) := ⟨Except.mapError .json⟩
instance : MonadLift (Except ConfigFault) (Except Fault) := ⟨Except.mapError .config⟩
instance : MonadLift (Except LayoutFault) (Except Fault) := ⟨Except.mapError .layout⟩
instance : MonadLift (Except ArtifactFault) (Except Fault) := ⟨Except.mapError .artifact⟩
instance : MonadLift (Except ArgumentFault) (Except Fault) := ⟨Except.mapError .argument⟩

def logLevelNames : List String := ["DEBUG", "INFO", "WARNING", "ERROR", "CRITICAL"]

def ConfigFault.message : ConfigFault → String
  | .notInteger setting value => setting ++ " must be an integer, got " ++ value.quoted
  | .tooSmall setting minimum value =>
    setting ++ " must be >= " ++ toString minimum ++ " or -1 (unbounded), got " ++ toString value
  | .unwritable setting => setting ++ " is too small"
  | .unknownSetting name => "Unknown exploration setting: " ++ name.plain
  | .notNumeral name text => name ++ " is not an integer: " ++ Text.quoted text
  | .logLevel text =>
    "Unknown log level " ++ Text.quoted text ++ ", expected one of " ++
      ", ".intercalate logLevelNames
  | .environmentLogLevel text =>
    "EVMSTATE_LOG_LEVEL must be one of " ++ ", ".intercalate logLevelNames ++ ", got " ++
      Text.quoted text
  | .history n => "max_history must be >= 0, got " ++ toString n

def ShapeFault.tail (name : Fault → String) : ShapeFault → String
  | .missing key => Text.quoted key
  | fault => name (.shape fault)

def WordFault.tail (name : Fault → String) (fault : WordFault) : String :=
  fault.message?.getD (name (.word fault))

def LayoutFault.message (name : Fault → String) : LayoutFault → String
  | .notObject => "Storage layout must be a JSON object"
  | .noStorage => "Storage layout is missing the `storage` list"
  | .typesNotObject => "Storage layout `types` must be an object"
  | .unknownType id => "Unknown storage type: " ++ id
  | .noEncoding id => "Storage type " ++ id ++ " has no encoding"
  | .malformedType id cause => "Malformed storage type " ++ id ++ ": " ++ cause.tail name
  | .unsupportedEncoding encoding => "Unsupported storage encoding: " ++ encoding
  | .missingPart id key => "Mapping type " ++ id ++ " is missing " ++ Text.quoted key
  | .noBase id => "Array type " ++ id ++ " is missing its base type"
  | .noLength label => "Cannot read static array length from " ++ Text.quoted label
  | .malformedEntry cause => "Malformed storage entry: " ++ cause.tail name
  | .noElement label => label.plain ++ " has no element type"

def DiffFault.message (name : Fault → String) : DiffFault → String
  | .nextWithoutCurrent => "next value without a current value"
  | .missingCurrent => "missing current value"
  | .badWord cause => cause.tail name

def ArtifactFault.message : ArtifactFault → String
  | .unrecognized path => "Unrecognized storage layout file: " ++ path
  | .noContracts => "Compilation output contains no contracts"
  | .contractNotFound contract =>
    "Contract " ++ contract.plain ++ " not found in compilation output"
  | .noLayout path => "No storage layout found in " ++ path
  | .noAbi path => "No ABI found in " ++ path

def ArgumentFault.message (name : Fault → String) : ArgumentFault → String
  | .notAssignment given => "Expected KEY=VALUE, got " ++ given.quoted
  | .notKnownLength text => "Expected ADDRESS:SLOT=LENGTH, got " ++ Text.quoted text
  | .badSlot text cause => "Invalid known length " ++ Text.quoted text ++ ": " ++ cause.tail name
  | .badNumber text =>
    "Invalid known length " ++ Text.quoted text ++ ": " ++ name (.shape .badNumeral)

def Fault.message? (name : Fault → String) : Fault → Option String
  | .word fault => fault.message?
  | .config (.unwritable _) => none
  | .config fault => some fault.message
  | .layout fault => some (fault.message name)
  | .diff address place fault =>
    some ("Inconsistent state diff for " ++ address ++ " at slot " ++ place ++ ": " ++
      fault.message name)
  | .artifact fault => some fault.message
  | .argument fault => some (fault.message name)
  | .fieldRange offset size =>
    some ("Invalid field range offset=" ++ toString offset ++ " size=" ++ toString size)
  | _ => none

end SlotLens

import SlotLens.Text.Numeral

namespace SlotLens

structure Options (κ : Type) where
  texts : List (String × κ)
  takesValue : κ → Bool
  operandTakesRest : Bool

inductive Item (κ : Type) where
  | option (key : κ) (value : Option String)
  | operand (text : String) (rest : List String)
  | surplus
  /-- An option that is ambiguous or whose value is missing or not wanted. What follows is not
  read. -/
  | malformed
  deriving Repr

inductive Appearance (κ : Type) where
  | operand
  | option (key : κ) (attached : Option String)
  /-- A short option and what is attached to it: its value, or further short options. -/
  | cluster (key : κ) (rest : List Char)
  | unknown
  | ambiguous
  deriving Repr

namespace Appearance

def isNegativeNumber (s : List Char) : Bool :=
  match s with
  | '-' :: rest =>
    let rest := if rest.getLast? = some '\n' then rest.dropLast else rest
    let whole := rest.takeWhile Text.isDigit
    match rest.dropWhile Text.isDigit with
    | [] => !whole.isEmpty
    | '.' :: fraction => !fraction.isEmpty && fraction.all Text.isDigit
    | _ => false
  | _ => false

def splitAttached (s : List Char) : List Char × Option (List Char) :=
  match s.dropWhile (· ≠ '=') with
  | [] => (s, none)
  | _ :: value => (s.takeWhile (· ≠ '='), some value)

def isLong : List Char → Bool
  | '-' :: '-' :: _ => true
  | _ => false

variable {κ : Type}

def shortForms (o : Options κ) (s : List Char) : List (Appearance κ) :=
  match s with
  | '-' :: '-' :: _ =>
    let (start, attached) := splitAttached s
    (o.texts.filter fun t => start.isPrefixOf t.1.toList).map fun t =>
      .option t.2 (attached.map String.ofList)
  | '-' :: c :: rest =>
    (o.texts.filter fun t => t.1.toList = ['-', c]).map fun t => .cluster t.2 rest
  | _ => []

def of (o : Options κ) (s : String) : Appearance κ :=
  let cs := s.toList
  match cs with
  | '-' :: _ :: _ =>
    match o.texts.lookup s with
    | some key => .option key none
    | none =>
      let (name, attached) := splitAttached cs
      match attached, o.texts.lookup (String.ofList name) with
      | some value, some key =>
        if isLong name then .option key (some (String.ofList value)) else .cluster key value
      | _, _ => match shortForms o cs with
        | [form] => form
        | _ :: _ :: _ => .ambiguous
        | [] => if isNegativeNumber cs || cs.contains ' ' then .operand else .unknown
  | _ => .operand

def isOperand : Appearance κ → Bool
  | .operand => true
  | _ => false

def isAmbiguous : Appearance κ → Bool
  | .ambiguous => true
  | _ => false

end Appearance

namespace Item

variable {κ : Type}

def attachedValue (text : String) : Option String := if text = "--" then none else some text

def ofCluster (o : Options κ) (key : κ) (rest : List Char) : Option (List κ × κ × Option String) :=
  if o.takesValue key then some ([], key, some (String.ofList rest))
  else match rest with
    | [] => none
    | c :: rest => match o.texts.lookup (String.ofList ['-', c]) with
      | none => none
      | some other =>
        if rest.isEmpty then some ([key], other, none)
        else (ofCluster o other rest).map fun found => (key :: found.1, found.2)

def ofKeys (before : List κ) (key : κ) (value : Option String) : List (Item κ) :=
  before.map (.option · none) ++ [.option key value]

def ofOperands (o : Options κ) (wanted : Bool) : List String → List (Item κ)
  | [] => []
  | a :: rest =>
    if wanted then .operand a rest :: (if o.operandTakesRest then [] else ofOperands o false rest)
    else .surplus :: ofOperands o false rest

/-- The items of arguments none of which is ambiguous; an operand is wanted until there was one, and
the last of the options `pending` waits for its value. Two minus signs next to the operand belong to
it, but none may stand before one that takes the rest. -/
def ofClear (o : Options κ) (wanted : Bool) (pending : Option (List κ × κ)) :
    List String → List (Item κ)
  | [] => if pending.isSome then [.malformed] else []
  | a :: rest =>
    match pending with
    | some (before, key) =>
      if a ≠ "--" && (Appearance.of o a).isOperand then
        ofKeys before key (some a) ++ ofClear o wanted none rest
      else [.malformed]
    | none =>
      if a = "--" then
        if wanted && o.operandTakesRest then [.malformed]
        else if wanted && !rest.isEmpty then ofOperands o true rest
        else .surplus :: ofOperands o false rest
      else match Appearance.of o a with
        | .operand =>
          if wanted then
            .operand a rest :: (if o.operandTakesRest then [] else
              match rest with
              | "--" :: rest => ofOperands o false rest
              | rest => ofClear o false none rest)
          else .surplus :: ofClear o false none rest
        | .option key (some value) =>
          if o.takesValue key then
            .option key (attachedValue value) :: ofClear o wanted none rest
          else [.malformed]
        | .option key none =>
          if o.takesValue key then ofClear o wanted (some ([], key)) rest
          else .option key none :: ofClear o wanted none rest
        | .cluster key cs =>
          match ofCluster o key cs with
          | none => [.malformed]
          | some (before, key, some value) =>
            ofKeys before key (attachedValue value) ++ ofClear o wanted none rest
          | some (before, key, none) =>
            if o.takesValue key then ofClear o wanted (some (before, key)) rest
            else ofKeys before key none ++ ofClear o wanted none rest
        | .unknown => .surplus :: ofClear o wanted none rest
        | .ambiguous => [.malformed]

def ofArguments (o : Options κ) (arguments : List String) : List (Item κ) :=
  if (arguments.takeWhile (· ≠ "--")).any fun a => (Appearance.of o a).isAmbiguous then
    [.malformed]
  else ofClear o true none arguments

end Item

end SlotLens

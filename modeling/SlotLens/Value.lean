import SlotLens.Decimal
import SlotLens.Table
import SlotLens.Text.Quoted
import SlotLens.Text.Numeral

/-!
# Values

The values that documents hold and that fields decode to: JSON values, whose objects keep the order
of their members, and beside them decimal numbers, byte strings and records whose keys are any
values.

Values come from outside, so each way of looking into one says what is wrong where the value has
another shape (`ShapeFault`).
-/

namespace SlotLens

inductive Value where
  | null
  | bool (b : Bool)
  | int (n : Int)
  | real (x : Binary64)
  | decimal (d : Decimal)
  | text (s : String)
  | bytes (b : List UInt8)
  | list (items : List Value)
  | object (fields : List (String × Value))
  /-- A record with a key that is no text. -/
  | keyed (entries : List (Value × Value))
  deriving Inhabited, Repr

inductive ShapeFault where
  | missing (key : String)
  | wrongKind
  | notRecord
  | notText
  | badNumeral
  | unbounded
  | tooMany
  | notByte
  | notPair
  deriving DecidableEq, Repr

namespace Value

def kindName : Value → String
  | .null => "NoneType"
  | .bool _ => "bool"
  | .int _ => "int"
  | .real _ => "float"
  | .decimal _ => "Decimal"
  | .text _ => "str"
  | .bytes _ => "bytes"
  | .list _ => "list"
  | .object _ => "dict"
  | .keyed _ => "dict"

/-- Null, false, zero and whatever is empty stand for nothing given. -/
def isVacant : Value → Bool
  | .null => true
  | .bool b => !b
  | .int n => n == 0
  | .real x => x.isZero
  | .decimal d => d.digits == 0
  | .text s => s.isEmpty
  | .bytes b => b.isEmpty
  | .list items => items.isEmpty
  | .object fields => fields.isEmpty
  | .keyed entries => entries.isEmpty

def isNull : Value → Bool
  | .null => true
  | _ => false

def isRecord : Value → Bool
  | .object _ => true
  | .keyed _ => true
  | _ => false

/-! ## Comparing -/

def asNumber : Value → Value
  | .bool b => .int (if b then 1 else 0)
  | .real x => match x.integer? with
    | some n => .int n
    | none => .real x
  | .decimal d => if d.places = 0 then .int d.digits else .decimal d
  | v => v

def sameNumber (x y : Value) : Bool :=
  match x.asNumber, y.asNumber with
  | .int a, .int b => a == b
  | .real a, .real b => a.same b
  | .decimal a, .decimal b => a == b
  | .real a, .decimal b | .decimal b, .real a => Decimal.ofBinary? a == some b
  | _, _ => false

mutual
/-- Whether two values are equal. Numbers of all kinds are equal by what they count as, and records
that hold equal values under equal keys, in any order. -/
def same : Value → Value → Bool
  | .null, .null => true
  | .text a, .text b => a == b
  | .bytes a, .bytes b => a == b
  | .list xs, .list ys => sameItems xs ys
  | .object xs, .object ys => xs.length == ys.length && sameMembers xs ys
  | .keyed xs, .keyed ys => xs.length == ys.length && sameEntries xs ys
  | x, y => sameNumber x y

def sameItems : List Value → List Value → Bool
  | [], [] => true
  | x :: xs, y :: ys => same x y && sameItems xs ys
  | _, _ => false

def sameMembers : List (String × Value) → List (String × Value) → Bool
  | [], _ => true
  | (k, x) :: xs, ys => (match Entries.find? k ys with
      | some y => same x y
      | none => false) && sameMembers xs ys

def sameEntries : List (Value × Value) → List (Value × Value) → Bool
  | [], _ => true
  | (k, x) :: xs, ys => (ys.any fun e => same k e.1 && same x e.2) && sameEntries xs ys
end

/-! ## Texts of values -/

def quotedBytes (b : List UInt8) : String :=
  let cs := b.map fun x => Char.ofNat x.toNat
  let q := Text.quoteFor cs
  String.ofList ('b' :: q :: cs.flatMap (fun c =>
    if c.toNat < 0x80 then Text.quoteChar q c else Text.escapeCode c.toNat) ++ [q])

mutual
def quoted : Value → String
  | .null => "None"
  | .bool true => "True"
  | .bool false => "False"
  | .int n => toString n
  | .real x => x.text
  | .decimal d => "Decimal('" ++ d.text ++ "')"
  | .text s => Text.quoted s
  | .bytes b => quotedBytes b
  | .list items => "[" ++ ", ".intercalate (quotedItems items) ++ "]"
  | .object fields => "\x7b" ++ ", ".intercalate (quotedMembers fields) ++ "\x7d"
  | .keyed entries => "\x7b" ++ ", ".intercalate (quotedEntries entries) ++ "\x7d"

def quotedItems : List Value → List String
  | [] => []
  | v :: rest => quoted v :: quotedItems rest

def quotedMembers : List (String × Value) → List String
  | [] => []
  | (k, v) :: rest => (Text.quoted k ++ ": " ++ quoted v) :: quotedMembers rest

def quotedEntries : List (Value × Value) → List String
  | [] => []
  | (k, v) :: rest => (quoted k ++ ": " ++ quoted v) :: quotedEntries rest
end

def plain : Value → String
  | .text s => s
  | .decimal d => d.text
  | v => v.quoted

/-! ## Records -/

def fields? : Value → Option (List (String × Value))
  | .object fields => some fields
  | .keyed entries => some (entries.filterMap fun e => match e.1 with
    | .text k => some (k, e.2)
    | _ => none)
  | _ => none

def member (key : String) (v : Value) : Except ShapeFault Value :=
  match v.fields? with
  | none => .error .wrongKind
  | some fields => match Entries.find? key fields with
    | some v => .ok v
    | none => .error (.missing key)

def member? (key : String) (v : Value) : Except ShapeFault (Option Value) :=
  match v.fields? with
  | none => .error .notRecord
  | some fields => .ok (Entries.find? key fields)

def memberOrNull (key : String) (v : Value) : Except ShapeFault Value :=
  (v.member? key).map (·.getD .null)

def lookup (key : String) (v : Value) : Option Value := v.fields?.bind (Entries.find? key)

def members (v : Value) : Except ShapeFault (List (String × Value)) :=
  match v.fields? with
  | some fields => .ok fields
  | none => .error .notRecord

def entries : Value → Except ShapeFault (List (Value × Value))
  | .object fields => .ok (fields.map fun e => (.text e.1, e.2))
  | .keyed entries => .ok entries
  | _ => .error .notRecord

def ofMembers (members : List (String × Value)) : Value := .object (Entries.ofList members)

def putEntry (k v : Value) : List (Value × Value) → List (Value × Value)
  | [] => [(k, v)]
  | (k', v') :: rest => if k'.same k then (k', v) :: rest else (k', v') :: putEntry k v rest

def membersOf? : List (Value × Value) → Option (List (String × Value))
  | [] => some []
  | (.text k, v) :: rest => (membersOf? rest).map ((k, v) :: ·)
  | _ => none

def ofEntries (entries : List (Value × Value)) : Value :=
  match membersOf? entries with
  | some members => ofMembers members
  | none => .keyed (entries.foldl (fun found e => putEntry e.1 e.2 found) [])

/-! ## Parts and conversions -/

def iterate : Value → Except ShapeFault (List Value)
  | .list items => .ok items
  | .text s => .ok ((Text.letters s.toList).map fun cs => .text (String.ofList cs))
  | .object fields => .ok (fields.map fun e => .text e.1)
  | .keyed entries => .ok (entries.map Prod.fst)
  | .bytes b => .ok (b.map fun x => .int x.toNat)
  | _ => .error .wrongKind

def asKey : Value → Except ShapeFault Value
  | .list _ => .error .wrongKind
  | .object _ => .error .wrongKind
  | .keyed _ => .error .wrongKind
  | v => .ok v

def pairOf (item : Value) : Except ShapeFault (Value × Value) := do
  match ← item.iterate with
  | [key, v] => return (← key.asKey, v)
  | _ => throw .notPair

def asRecord (v : Value) : Except ShapeFault Value :=
  if v.isRecord then .ok v
  else do
    let items ← v.iterate
    return ofEntries (← items.mapM pairOf)

def asText : Value → Except ShapeFault String
  | .text s => .ok s
  | .bytes _ => .error .wrongKind
  | _ => .error .notText

def toByte : Value → Except ShapeFault UInt8
  | .int n => if 0 ≤ n ∧ n < 256 then .ok (UInt8.ofNat n.toNat) else .error .notByte
  | .bool b => .ok (if b then 1 else 0)
  | _ => .error .wrongKind

def bytesOverhead : Int := 33

def maxBytes : Int := Int.pow 2 32

def zeroBytes (n : Int) : Except ShapeFault (List UInt8) :=
  if n < -Int.pow 2 63 ∨ Int.pow 2 63 ≤ n + bytesOverhead then .error .unbounded
  else if n < 0 then .error .notByte
  else if maxBytes ≤ n then .error .tooMany
  else .ok (List.replicate n.toNat 0)

def toBytes : Value → Except ShapeFault (List UInt8)
  | .bytes b => .ok b
  | .bool b => .ok (if b then [0] else [])
  | .int n => zeroBytes n
  | .text _ => .error .wrongKind
  | v => v.iterate >>= List.mapM toByte

def integer : Value → Except ShapeFault Int
  | .int n => .ok n
  | .bool b => .ok (if b then 1 else 0)
  | .real x => match x.whole? with
    | some n => .ok n
    | none => .error (if x = .nan then .badNumeral else .unbounded)
  | .decimal d => .ok d.whole
  | .text s => match Numeral.ofDecimal? s with
    | some n => .ok n
    | none => .error .badNumeral
  | _ => .error .wrongKind

end Value

end SlotLens

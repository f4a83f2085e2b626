import SlotLens.Layout.Path
import SlotLens.Order

/-!
# Descriptors

A descriptor says how a variable, a struct member, the value of a mapping or the element of an array
is laid out in storage. The slots of variables are absolute, those of members are relative to their
struct; values and elements start at slot 0 of the place that their container gives them.

A type that contains itself is unfolded once: where it comes again it is cut, and its descriptor has
no parts.
-/

namespace SlotLens

/-- What every descriptor has. Labels are kept as they are given, most are texts. Sizes and offsets
are counted in bytes. -/
structure Entry where
  label : Value
  typeId : String
  typeLabel : Value
  slot : Int
  offset : Int
  size : Int
  deriving Repr

inductive LabelKey where
  | text (s : String)
  /-- A label that is no text, by the text of what it counts as. -/
  | other (shown : String)
  deriving DecidableEq, Repr

def LabelKey.ofValue : Value → Except ShapeFault LabelKey
  | .text s => .ok (.text s)
  | v => v.asKey.map fun v => .other v.asNumber.quoted

inductive Kind where
  | primitive
  | mapping
  | staticArray
  | dynamicArray
  | struct
  | bytes
  deriving DecidableEq, Repr

def Kind.name : Kind → String
  | .primitive => "primitive"
  | .mapping => "mapping"
  | .staticArray => "static_array"
  | .dynamicArray => "dynamic_array"
  | .struct => "struct"
  | .bytes => "bytes"

inductive Descriptor where
  | primitive (entry : Entry)
  | bytes (entry : Entry)
  | mapping (entry : Entry) (keyType : Value) (value : Descriptor)
  | dynamicArray (entry : Entry) (element : Descriptor)
  | staticArray (entry : Entry) (length : Nat) (element : Descriptor)
  | struct (entry : Entry) (members : List Descriptor)
  /-- A type that is being unfolded already. -/
  | cut (entry : Entry) (kind : Kind)
  deriving Repr

namespace Descriptor

def entry : Descriptor → Entry
  | .primitive e | .bytes e | .mapping e _ _ | .dynamicArray e _ | .staticArray e _ _
  | .struct e _ | .cut e _ => e

def kind : Descriptor → Kind
  | .primitive _ => .primitive
  | .bytes _ => .bytes
  | .mapping .. => .mapping
  | .dynamicArray .. => .dynamicArray
  | .staticArray .. => .staticArray
  | .struct .. => .struct
  | .cut _ kind => kind

def label (d : Descriptor) : Value := d.entry.label

def typeLabel (d : Descriptor) : Value := d.entry.typeLabel

def slot (d : Descriptor) : Int := d.entry.slot

def slotCount (d : Descriptor) : Int :=
  match d.kind with
  | .struct | .staticArray => max 1 ((d.entry.size + 31) / 32)
  | _ => 1

def isPacked : Descriptor → Bool
  | .primitive e => e.size < 32
  | .cut e .primitive => e.size < 32
  | _ => false

def element? : Descriptor → Option Descriptor
  | .mapping _ _ value => some value
  | .dynamicArray _ element => some element
  | .staticArray _ _ element => some element
  | _ => none

def members : Descriptor → List Descriptor
  | .struct _ members => members
  | _ => []

/-- The slots that a descriptor takes when it is placed at a slot: the first one and the one behind
the last. Mappings and dynamic arrays have none, since theirs can only be derived. -/
def concreteSlots? (d : Descriptor) (base : Int) : Option (Int × Int) :=
  match d.kind with
  | .mapping | .dynamicArray => none
  | _ => some (base, base + d.slotCount)

theorem slotCount_pos (d : Descriptor) : 1 ≤ d.slotCount := by
  unfold slotCount
  split <;> omega

mutual
def hasContainers : Descriptor → Bool
  | .primitive _ => false
  | .bytes _ => true
  | .mapping .. => true
  | .dynamicArray .. => true
  | .staticArray _ _ element => element.hasContainers
  | .struct _ members => anyHasContainers members
  | .cut _ kind => kind == .mapping || kind == .dynamicArray || kind == .bytes

def anyHasContainers : List Descriptor → Bool
  | [] => false
  | d :: rest => d.hasContainers || anyHasContainers rest
end

mutual
def height : Descriptor → Nat
  | .primitive _ => 1
  | .bytes _ => 1
  | .mapping _ _ value => value.height + 1
  | .dynamicArray _ element => element.height + 1
  | .staticArray _ _ element => element.height + 1
  | .struct _ members => heights members + 1
  | .cut _ _ => 1

def heights : List Descriptor → Nat
  | [] => 0
  | d :: rest => max d.height (heights rest)
end

def describe (e : Entry) (kind : Kind) : List (String × Value) :=
  [("label", e.label), ("type", e.typeLabel), ("kind", .text kind.name),
   ("slot", .int e.slot), ("offset", .int e.offset), ("size", .int e.size)]

mutual
def toValue : Descriptor → Value
  | .primitive e => .object (describe e .primitive)
  | .bytes e => .object (describe e .bytes)
  | .mapping e keyType value =>
    .object (describe e .mapping ++ (if keyType.isNull then [] else [("keyType", keyType)]) ++
      [("value", value.toValue)])
  | .dynamicArray e element => .object (describe e .dynamicArray ++ [("value", element.toValue)])
  | .staticArray e length element =>
    .object (describe e .staticArray ++ [("value", element.toValue), ("length", .int length)])
  | .struct e members =>
    .object (describe e .struct ++
      if members.isEmpty then [] else [("members", .list (toValues members))])
  | .cut e kind => .object (describe e kind)

def toValues : List Descriptor → List Value
  | [] => []
  | d :: rest => d.toValue :: toValues rest
end

end Descriptor

end SlotLens

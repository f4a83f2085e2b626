import SlotLens.Layout.Container
import SlotLens.Layout.Locate

namespace SlotLens

structure Layout where
  descriptors : List Descriptor

structure Root where
  variableDescriptor : Descriptor
  container : Descriptor
  slot : Int
  path : Path

namespace Descriptor

def isFixed (d : Descriptor) : Bool := d.kind != .staticArray && d.kind != .mapping

def covers (d : Descriptor) (slot : Int) : Bool :=
  d.slot ≤ slot && slot < d.slot + d.slotCount

def slots (d : Descriptor) : List Int :=
  (List.range d.slotCount.toNat).map fun (i : Nat) => d.slot + i

def roots (d : Descriptor) : List Root :=
  d.containers.map fun c => ⟨d, c.descriptor, d.slot + c.slot, c.path⟩

end Descriptor

namespace Layout

def variablesAt (l : Layout) (slot : Int) : List Descriptor :=
  l.descriptors.filter fun d => d.isFixed && d.covers slot

def dropRepeats : List Int → List Int
  | [] => []
  | [n] => [n]
  | n :: m :: rest => if n = m then dropRepeats (m :: rest) else n :: dropRepeats (m :: rest)

def fixedSlots (l : Layout) : List Int :=
  dropRepeats (sortBy id ((l.descriptors.filter Descriptor.isFixed).flatMap Descriptor.slots))

def staticArrays (l : Layout) : List Descriptor :=
  l.descriptors.filter (·.kind == .staticArray)

def roots (l : Layout) : List Root := l.descriptors.flatMap Descriptor.roots

def mappingRoots (l : Layout) : List Root := l.roots.filter (·.container.kind == .mapping)

def arrayRoots (l : Layout) : List Root := l.roots.filter (·.container.kind == .dynamicArray)

def bytesRoots (l : Layout) : List Root := l.roots.filter (·.container.kind == .bytes)

def named? (l : Layout) (label : Value) : Option Descriptor :=
  l.descriptors.find? (·.label.same label)

def text (l : Layout) : String :=
  "\n".intercalate (["Storage Layout:", "----------------"] ++ l.descriptors.map fun d =>
    let e := d.entry
    "Slot " ++ toString e.slot ++ ": " ++ e.label.plain ++ " (" ++ e.typeLabel.plain ++
      ", offset=" ++ toString e.offset ++ ", size=" ++ toString e.size ++ ")")

end Layout

end SlotLens

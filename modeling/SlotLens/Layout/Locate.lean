import SlotLens.Layout.Descriptor

/-!
# Locating fields

Which fields are stored at a slot of a descriptor, and where the elements of an array are. Elements
that are smaller than a slot are packed, as many as fit, from the right end of each slot; all other
elements start at a slot of their own.
-/

namespace SlotLens

inductive Leaf where
  | value (entry : Entry)
  | bytes (entry : Entry)
  deriving Repr

namespace Leaf

def entry : Leaf → Entry
  | .value e => e
  | .bytes e => e

def label (l : Leaf) : Value := l.entry.label

def typeLabel (l : Leaf) : Value := l.entry.typeLabel

def size : Leaf → Int
  | .value e => min e.size 32
  | .bytes _ => 32

def arrayLength : Leaf := .value ⟨.text "_length", "t_uint256", .text "uint256", 0, 0, 32⟩

end Leaf

structure Located where
  leaf : Leaf
  offset : Int
  path : Path

namespace Located

def size (l : Located) : Int := l.leaf.size

def under (segment : Segment) (l : Located) : Located := { l with path := segment :: l.path }

end Located

namespace Descriptor

def perSlot (size : Int) : Except Fault Int :=
  if size = 0 then .error .zeroSize else .ok (Int.fdiv 32 size)

def position (element : Descriptor) (index : Int) : Except Fault (Int × Int) :=
  if element.isPacked then do
    let size := element.entry.size
    let per ← perSlot size
    return (Int.fdiv index per, Int.fmod index per * size)
  else .ok (index * element.slotCount, 0)

def elementPosition (array : Descriptor) (index : Int) : Except Fault (Int × Int) :=
  match array.element? with
  | none => .error (.layout (.noElement array.typeLabel))
  | some element => element.position index

def spanOf (element : Descriptor) (length : Int) : Except Fault Int :=
  if length ≤ 0 then .ok 0
  else if element.isPacked then do
    let per ← perSlot element.entry.size
    return -(Int.fdiv (-length) per)
  else .ok (length * element.slotCount)

def dataSlotCount (array : Descriptor) (length : Int) : Except Fault Int :=
  match array.element? with
  | none => .ok (if length ≤ 0 then 0 else length)
  | some element => element.spanOf length

def reaches (element : Descriptor) (rel : Int) (length : Option Int) : Except Fault Bool :=
  match length with
  | none => .ok true
  | some n => (element.spanOf n).map fun span => rel < span

def packedAt (e : Entry) (first : Int) (length : Option Int) (per : Int) : List Located :=
  ((List.range per.toNat).takeWhile fun (i : Nat) =>
      length.all fun (n : Int) => decide (first + i < n)).map fun (i : Nat) =>
    ⟨.value e, i * e.size, [.index (first + i).toNat]⟩

def locateAmong (element : Descriptor) (locate : Int → Except Fault (List Located)) (rel : Int)
    (length : Option Int) : Except Fault (List Located) := do
  if rel < 0 then return []
  if !(← element.reaches rel length) then return []
  if element.isPacked then
    let per ← perSlot element.entry.size
    return packedAt element.entry (rel * per) length per
  else
    let count := element.slotCount
    let found ← locate (rel % count)
    return found.map (·.under (.index (rel / count).toNat))

mutual
/-- The fields at a slot, counted from the slot where a descriptor is placed. Mappings take their
slot without using it. -/
def locate : Descriptor → Int → Except Fault (List Located)
  | .primitive e, rel => .ok (if rel = 0 then [⟨.value e, e.offset, []⟩] else [])
  | .bytes e, rel => .ok (if rel = 0 then [⟨.bytes e, e.offset, []⟩] else [])
  | .mapping .., _ => .ok []
  | .dynamicArray .., rel => .ok (if rel = 0 then [⟨.arrayLength, 0, [.arrayLength]⟩] else [])
  | .staticArray e length element, rel =>
    if rel < (staticArray e length element).slotCount then
      locateAmong element element.locate rel (some length)
    else .ok []
  | .struct _ members, rel =>
    if rel < 0 then .ok []
    else (locateMembers members rel).map (sortBy Located.offset)
  | .cut e kind, rel => .ok <|
    match kind with
    | .primitive => if rel = 0 then [⟨.value e, e.offset, []⟩] else []
    | .bytes => if rel = 0 then [⟨.bytes e, e.offset, []⟩] else []
    | .dynamicArray => if rel = 0 then [⟨.arrayLength, 0, [.arrayLength]⟩] else []
    | _ => []

def locateMembers : List Descriptor → Int → Except Fault (List Located)
  | [], _ => .ok []
  | m :: rest, rel => do
    let inner := rel - m.slot
    let here ← if 0 ≤ inner ∧ inner < m.slotCount then m.locate inner else .ok []
    let others ← locateMembers rest rel
    return here.map (·.under (.field m.label)) ++ others
end

def locateElement (array : Descriptor) (rel : Int) (length : Option Int) :
    Except Fault (List Located) :=
  match array.element? with
  | none => .ok []
  | some element => locateAmong element element.locate rel length

end Descriptor

end SlotLens

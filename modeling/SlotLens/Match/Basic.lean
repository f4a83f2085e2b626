import SlotLens.Layout.Basic
import SlotLens.Slot

namespace SlotLens

inductive MatchKind where
  | exact
  | mapping
  | array
  | unresolved
  deriving DecidableEq, Repr

def MatchKind.name : MatchKind → String
  | .exact => "exact"
  | .mapping => "mapping"
  | .array => "array"
  | .unresolved => "unresolved"

structure Match where
  kind : MatchKind
  slot : Int
  /-- The label of the variable; a slot that is not resolved has a name of its own. -/
  name : Value
  typeLabel : Value
  leaf : Option Leaf
  offset : Int
  size : Int
  path : Path
  note : Option String

namespace Match

def expression (m : Match) : Except ShapeFault String := m.path.render m.name

def leafType (m : Match) : Value := (m.leaf.map Leaf.typeLabel).getD (.text "bytes32")

def keys (m : Match) : List Value := m.path.filterMap Segment.key?

def index? (m : Match) : Option Nat := (m.path.filterMap Segment.position?).getLast?

def ofLocated (slot : Int) (owner : Descriptor) (before : Path) (kind : MatchKind)
    (note : Option String) (l : Located) : Match :=
  ⟨kind, slot, owner.label, owner.typeLabel, some l.leaf, l.offset, l.size, before ++ l.path, note⟩

def slotName (slot : Int) : String := "slot_" ++ Slot.hex slot

def unresolved (slot : Int) (note : String) : Match :=
  ⟨.unresolved, slot, .text (slotName slot), .text "bytes32", none, 0, 32, [], some note⟩

end Match

end SlotLens

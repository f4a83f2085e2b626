import SlotLens.Layout.Descriptor

namespace SlotLens

/-- A container inside a descriptor: its slot, counted from that of the descriptor, and the path to
it. -/
structure Container where
  descriptor : Descriptor
  slot : Int
  path : Path

namespace Container

def under (slot : Int) (segment : Segment) (c : Container) : Container :=
  ⟨c.descriptor, slot + c.slot, segment :: c.path⟩

end Container

namespace Descriptor

mutual
def containers : Descriptor → List Container
  | .primitive _ => []
  | .bytes e => [⟨.bytes e, 0, []⟩]
  | .mapping e keyType value => [⟨.mapping e keyType value, 0, []⟩]
  | .dynamicArray e element => [⟨.dynamicArray e element, 0, []⟩]
  | .staticArray _ length element =>
    if element.hasContainers then
      (List.range length).flatMap fun (i : Nat) =>
        element.containers.map (·.under (i * element.slotCount) (.index i))
    else []
  | .struct _ members => memberContainers members
  | .cut e kind =>
    match kind with
    | .mapping | .dynamicArray | .bytes => [⟨.cut e kind, 0, []⟩]
    | _ => []

def memberContainers : List Descriptor → List Container
  | [] => []
  | m :: rest =>
    (if m.hasContainers then m.containers.map (·.under m.slot (.field m.label)) else []) ++
      memberContainers rest
end

end Descriptor

end SlotLens

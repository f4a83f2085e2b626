import SlotLens.Field
import SlotLens.Match.Hunt

/-!
# Exploring a container

The search for slots that are derived from a container: the values of a mapping under the candidate
keys, the elements of a dynamic array, and the content of a long byte string. Containers inside what
was derived are searched level by level. Each level is strictly inside the one before, so a search
has no more levels than the container is high.
-/

namespace SlotLens

namespace Scene

def innerBase (base : Int) (c : Container) : Int := Slot.wrap (base + c.slot)

/-- Whether a container inside a value that lies at `base` can be searched: the length of an array
or byte string has to be known. -/
def isSearchable (s : Scene) (base : Int) (c : Container) : Bool :=
  c.descriptor.kind == .mapping || (s.lengthAt (innerBase base c)).isSome

def pushNested (s : Scene) (value : Descriptor) (base : Int) (level : Nat) (path : Path)
    (h : Hunt) : Hunt :=
  let found := value.containers.filter (s.isSearchable base)
  if s.bounds.depthAllows (level + 1) then
    let items : List WorkItem := found.map fun c =>
      ⟨c.descriptor, innerBase base c, level + 1, path ++ c.path⟩
    { h with next := h.next ++ items }
  else if found.isEmpty then h
  else { h with tally := { h.tally with depthHit := true } }

def claimValue (owner value : Descriptor) (derived : Int) (path : Path) :
    List Int → Hunt → Except Fault Hunt
  | [], h => .ok h
  | slot :: slots, h => do
    let located ← value.locate (slot - derived)
    claimValue owner value derived path slots (h.claim slot owner path .mapping none located)

def tryKey (s : Scene) (owner : Descriptor) (item : WorkItem) (keyType : Value)
    (value : Descriptor) (c : Candidate) (h : Hunt) : Except Fault Hunt := do
  let derived ← Slot.ofKey c.raw item.base
  let hits := h.hits derived value.slotCount
  if hits.isEmpty && !value.hasContainers then return h
  let key ← Field.decodeKey keyType c.raw
  let path := item.path ++ [.key key c.hex keyType]
  let h ← claimValue owner value derived path hits h
  return s.pushNested value derived item.level path h

def expandMapping (s : Scene) (owner : Descriptor) (item : WorkItem) (keyType : Value)
    (value : Descriptor) : List Candidate → Hunt → Except Fault Hunt
  | [], h => .ok h
  | c :: rest, h =>
    if h.remaining.isEmpty || s.bounds.thresholdReached h.tally.found then .ok h
    else
      let (h, ok) := h.spend s.bounds
      if ok then do
        let h ← s.tryKey owner item keyType value c h
        s.expandMapping owner item keyType value rest h
      else .ok h

def kindBehind (path : Path) : MatchKind := if path.any Segment.isKey then .mapping else .array

def claimElements (owner array : Descriptor) (data length : Int) (path : Path) :
    List Int → Hunt → Except Fault Hunt
  | [], h => .ok h
  | slot :: slots, h => do
    let located ← array.locateElement (slot - data) (some length)
    claimElements owner array data length path slots
      (h.claim slot owner path (kindBehind path) none located)

/-- Set the containers inside the elements from the one at `index` on aside for the next level, as
long as the tries that are left suffice for the containers that wait. -/
def pushElements (s : Scene) (element : Descriptor) (data : Int) (item : WorkItem) (ahead : Nat) :
    (count : Nat) → (index : Nat) → Hunt → Hunt
  | 0, _, h => h
  | count + 1, index, h =>
    if h.tally.isStopped s.bounds then h
    else if (h.tally.budgetLeft s.bounds).any (· ≤ ahead + h.next.size) then
      { h with tally := { h.tally with limitHit := true } }
    else
      s.pushElements element data item ahead count (index + 1)
        (s.pushNested element (data + index * element.slotCount) item.level
          (item.path ++ [.index index]) h)

def expandArray (s : Scene) (owner : Descriptor) (item : WorkItem) (element : Descriptor)
    (ahead : Nat) (h : Hunt) : Except Fault Hunt :=
  match s.lengthAt item.base with
  | none => .ok h
  | some length => do
    let data ← Slot.ofData item.base
    let span ← element.spanOf length
    let h ← claimElements owner item.container data length item.path (h.hits data span) h
    return if element.hasContainers then
      s.pushElements element data item ahead length.toNat 0 h
    else h

def longLength? (label : Value) (access : Access) : Option Nat :=
  let lengths := (access.words.map fun w => BytesSlot.ofBytes label w.bytes).filterMap fun b =>
    if b.isLong then some b.length else none
  lengths.max?

def chunkNote (i : Nat) : String :=
  "raw chunk " ++ toString i ++ " of long bytes/string content; not decoded"

def claimChunks (owner : Descriptor) (entry : Entry) (data : Int) (path : Path) :
    List Int → Hunt → Hunt
  | [], h => h
  | slot :: slots, h =>
    let i := (slot - data).toNat
    claimChunks owner entry data path slots
      (h.claim slot owner path (kindBehind path) (some (chunkNote i))
        [⟨.bytes entry, 0, [.chunk i]⟩])

def expandBytes (s : Scene) (owner : Descriptor) (item : WorkItem) (entry : Entry) (h : Hunt) :
    Except Fault Hunt :=
  match (s.observed.get? item.base).bind (longLength? entry.typeLabel) with
  | none => .ok h
  | some length => do
    let data ← Slot.ofData item.base
    let chunks := (length + 31) / 32
    return claimChunks owner entry data item.path (h.hits data chunks) h

def expand (s : Scene) (owner : Descriptor) (item : WorkItem) (ahead : Nat) (h : Hunt) :
    Except Fault Hunt :=
  match item.container with
  | .mapping _ keyType value => s.expandMapping owner item keyType value s.candidates h
  | .dynamicArray _ element => s.expandArray owner item element ahead h
  | .bytes entry => s.expandBytes owner item entry h
  | _ => .ok h

def enter (s : Scene) (item : WorkItem) (h : Hunt) : Hunt × Bool :=
  if item.level ≤ 1 then (h, true)
  else if h.tally.isStopped s.bounds then (h, false)
  else h.spend s.bounds

def exploreLevel (s : Scene) (owner : Descriptor) :
    List WorkItem → Hunt → Except Fault (Hunt × Bool)
  | [], h => .ok (h, true)
  | item :: rest, h =>
    if h.remaining.isEmpty then .ok (h, false)
    else
      let (h, ok) := s.enter item h
      if ok then do
        let h ← s.expand owner item rest.length h
        s.exploreLevel owner rest h
      else .ok (h, false)

def exploreLevels (s : Scene) (owner : Descriptor) :
    (levels : Nat) → List WorkItem → Hunt → Except Fault Hunt
  | 0, _, h => .ok h
  | levels + 1, items, h =>
    if items.isEmpty then .ok h
    else do
      let (h, goesOn) ← s.exploreLevel owner items { h with next := #[] }
      if goesOn then s.exploreLevels owner levels h.next.toList h else return h

def rootItem (r : Root) : WorkItem := ⟨r.container, r.slot, 1, r.path⟩

def exploreRoot (s : Scene) (r : Root) (h : Hunt) : Except Fault Hunt :=
  s.exploreLevels r.variableDescriptor r.container.height [rootItem r] h

end Scene

end SlotLens

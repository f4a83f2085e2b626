import SlotLens.Match.Run
import Mathlib.Logic.Relation

/-!
# The search in single steps

A machine that works off a list of tasks, one step at a time. To search a root it keeps a queue of
containers in two parts, `front` before `hunt.next`, and says what it is doing with the container at
hand. Every state that the passes go through is a state of the machine.
-/

namespace SlotLens

/-- What the search of a root does next. -/
inductive Activity
  | waiting : Activity
  | opened (item : WorkItem) : Activity
  | keys (item : WorkItem) (keyType : Value) (value : Descriptor) (rest : List Candidate) : Activity
  | fields (item : WorkItem) (keyType : Value) (value : Descriptor) (rest : List Candidate)
      (derived : Int) (path : Path) (slots : List Int) : Activity
  | elements (item : WorkItem) (element : Descriptor) (data length : Int) (slots : List Int) :
      Activity
  | nested (item : WorkItem) (element : Descriptor) (data : Int) (left index : Nat) : Activity
  | chunks (item : WorkItem) (entry : Entry) (data : Int) (slots : List Int) : Activity
  | ended : Activity

structure Search where
  hunt : Hunt
  front : List WorkItem
  activity : Activity

namespace Search

/-- One step of the search of a root, which belongs to the variable `owner`. -/
inductive Step (s : Scene) (owner : Descriptor) : Search → Search → Prop
  | finish {h : Hunt} : h.next = #[] → Step s owner ⟨h, [], .waiting⟩ ⟨h, [], .ended⟩
  | descend {h : Hunt} : h.next ≠ #[] →
      Step s owner ⟨h, [], .waiting⟩ ⟨{ h with next := #[] }, h.next.toList, .waiting⟩
  | solved {h : Hunt} {item front} : h.remaining = [] →
      Step s owner ⟨h, item :: front, .waiting⟩ ⟨h, item :: front, .ended⟩
  | refuse {h h' : Hunt} {item front} : h.remaining ≠ [] → s.enter item h = (h', false) →
      Step s owner ⟨h, item :: front, .waiting⟩ ⟨h', front, .ended⟩
  | enter {h h' : Hunt} {item front} : h.remaining ≠ [] → s.enter item h = (h', true) →
      Step s owner ⟨h, item :: front, .waiting⟩ ⟨h', front, .opened item⟩
  | openMapping {h : Hunt} {front} {item : WorkItem} {e keyType value} :
      item.container = .mapping e keyType value →
      Step s owner ⟨h, front, .opened item⟩ ⟨h, front, .keys item keyType value s.candidates⟩
  | openArray {h : Hunt} {front} {item : WorkItem} {e element length data span} :
      item.container = .dynamicArray e element → s.lengthAt item.base = some length →
      Slot.ofData item.base = .ok data → element.spanOf length = .ok span →
      Step s owner ⟨h, front, .opened item⟩
        ⟨h, front, .elements item element data length (h.hits data span)⟩
  | openUnknown {h : Hunt} {front} {item : WorkItem} {e element} :
      item.container = .dynamicArray e element → s.lengthAt item.base = none →
      Step s owner ⟨h, front, .opened item⟩ ⟨h, front, .waiting⟩
  | openLong {h : Hunt} {front} {item : WorkItem} {e length data} : item.container = .bytes e →
      (s.observed.get? item.base).bind (Scene.longLength? e.typeLabel) = some length →
      Slot.ofData item.base = .ok data →
      Step s owner ⟨h, front, .opened item⟩
        ⟨h, front, .chunks item e data (h.hits data ((length + 31) / 32 : Nat))⟩
  | openShort {h : Hunt} {front} {item : WorkItem} {e} : item.container = .bytes e →
      (s.observed.get? item.base).bind (Scene.longLength? e.typeLabel) = none →
      Step s owner ⟨h, front, .opened item⟩ ⟨h, front, .waiting⟩
  | openOther {h : Hunt} {front} {item : WorkItem} :
      (∀ e keyType value, item.container ≠ .mapping e keyType value) →
      (∀ e element, item.container ≠ .dynamicArray e element) →
      (∀ e, item.container ≠ .bytes e) →
      Step s owner ⟨h, front, .opened item⟩ ⟨h, front, .waiting⟩
  | keysTried {h : Hunt} {front item keyType value} :
      Step s owner ⟨h, front, .keys item keyType value []⟩ ⟨h, front, .waiting⟩
  | keysStop {h : Hunt} {front item keyType value c rest} :
      h.remaining = [] ∨ s.bounds.thresholdReached h.tally.found →
      Step s owner ⟨h, front, .keys item keyType value (c :: rest)⟩ ⟨h, front, .waiting⟩
  | keysLimit {h h' : Hunt} {front item keyType value c rest} : h.remaining ≠ [] →
      s.bounds.thresholdReached h.tally.found = false → h.spend s.bounds = (h', false) →
      Step s owner ⟨h, front, .keys item keyType value (c :: rest)⟩ ⟨h', front, .waiting⟩
  | keyMiss {h h' : Hunt} {front} {item : WorkItem} {keyType value rest derived} {c : Candidate} :
      h.remaining ≠ [] → s.bounds.thresholdReached h.tally.found = false →
      h.spend s.bounds = (h', true) → Slot.ofKey c.raw item.base = .ok derived →
      h'.hits derived value.slotCount = [] → value.hasContainers = false →
      Step s owner ⟨h, front, .keys item keyType value (c :: rest)⟩
        ⟨h', front, .keys item keyType value rest⟩
  | keyHit {h h' : Hunt} {front} {item : WorkItem} {keyType value rest derived key}
      {c : Candidate} :
      h.remaining ≠ [] → s.bounds.thresholdReached h.tally.found = false →
      h.spend s.bounds = (h', true) → Slot.ofKey c.raw item.base = .ok derived →
      h'.hits derived value.slotCount ≠ [] ∨ value.hasContainers →
      Field.decodeKey keyType c.raw = .ok key →
      Step s owner ⟨h, front, .keys item keyType value (c :: rest)⟩
        ⟨h', front, .fields item keyType value rest derived
          (item.path ++ [.key key c.hex keyType]) (h'.hits derived value.slotCount)⟩
  | field {h : Hunt} {front item keyType value rest derived path slot slots located} :
      value.locate (slot - derived) = .ok located →
      Step s owner ⟨h, front, .fields item keyType value rest derived path (slot :: slots)⟩
        ⟨h.claim slot owner path .mapping none located, front,
          .fields item keyType value rest derived path slots⟩
  | fieldsDone {h : Hunt} {front} {item : WorkItem} {keyType value rest derived path} :
      Step s owner ⟨h, front, .fields item keyType value rest derived path []⟩
        ⟨s.pushNested value derived item.level path h, front, .keys item keyType value rest⟩
  | element {h : Hunt} {front} {item : WorkItem} {element data length slot slots located} :
      item.container.locateElement (slot - data) (some length) = .ok located →
      Step s owner ⟨h, front, .elements item element data length (slot :: slots)⟩
        ⟨h.claim slot owner item.path (Scene.kindBehind item.path) none located, front,
          .elements item element data length slots⟩
  | elementsDone {h : Hunt} {front item element data length} : element.hasContainers = false →
      Step s owner ⟨h, front, .elements item element data length []⟩ ⟨h, front, .waiting⟩
  | elementsNested {h : Hunt} {front item element data} {length : Int} : element.hasContainers →
      Step s owner ⟨h, front, .elements item element data length []⟩
        ⟨h, front, .nested item element data length.toNat 0⟩
  | nestedDone {h : Hunt} {front item element data index} :
      Step s owner ⟨h, front, .nested item element data 0 index⟩ ⟨h, front, .waiting⟩
  | nestedStop {h : Hunt} {front item element data left index} : h.tally.isStopped s.bounds →
      Step s owner ⟨h, front, .nested item element data (left + 1) index⟩ ⟨h, front, .waiting⟩
  | nestedFull {h : Hunt} {front item element data left index} :
      h.tally.isStopped s.bounds = false →
      (h.tally.budgetLeft s.bounds).any (· ≤ front.length + h.next.size) →
      Step s owner ⟨h, front, .nested item element data (left + 1) index⟩
        ⟨{ h with tally := { h.tally with limitHit := true } }, front, .waiting⟩
  | nest {h : Hunt} {front} {item : WorkItem} {element : Descriptor} {data left index} :
      h.tally.isStopped s.bounds = false →
      (h.tally.budgetLeft s.bounds).any (· ≤ front.length + h.next.size) = false →
      Step s owner ⟨h, front, .nested item element data (left + 1) index⟩
        ⟨s.pushNested element (data + index * element.slotCount) item.level
          (item.path ++ [.index index]) h, front, .nested item element data left (index + 1)⟩
  | chunk {h : Hunt} {front} {item : WorkItem} {e data slot slots} :
      Step s owner ⟨h, front, .chunks item e data (slot :: slots)⟩
        ⟨h.claim slot owner item.path (Scene.kindBehind item.path)
          (some (Scene.chunkNote (slot - data).toNat))
          [⟨.bytes e, 0, [.chunk (slot - data).toNat]⟩], front, .chunks item e data slots⟩
  | chunksDone {h : Hunt} {front item e data} :
      Step s owner ⟨h, front, .chunks item e data []⟩ ⟨h, front, .waiting⟩

abbrev Steps (s : Scene) (owner : Descriptor) : Search → Search → Prop :=
  Relation.ReflTransGen (Step s owner)

def ofRoot (r : Run) (tally : Tally) (root : Root) : Search :=
  ⟨Scene.beginHunt r tally, [Scene.rootItem root], .waiting⟩

end Search

inductive Task
  | fixed : MatchKind → Descriptor → Int → Task
  | staticArray : Descriptor → Task
  | root : Root → Task

/-- The state of the passes: between two tasks, or within the search of a root, whose tally has a
key. -/
inductive Engine
  | between : Run → List Task → Engine
  | within : Run → Root → LabelKey → Search → List Task → Engine

namespace Engine

def run : Engine → Run
  | .between r _ => r
  | .within r _ key x _ => ⟨x.hunt.remaining, x.hunt.results, r.tallies.insert key x.hunt.tally⟩

def agenda : Engine → List Task
  | .between _ agenda => agenda
  | .within _ _ _ _ agenda => agenda

inductive Step (s : Scene) : Engine → Engine → Prop
  | fixed {r r' kind owner slot agenda} : Scene.claimFixed owner kind slot r = .ok r' →
      Step s (.between r (.fixed kind owner slot :: agenda)) (.between r' agenda)
  | staticArray {r : Run} {owner : Descriptor} {agenda} :
      Step s (.between r (.staticArray owner :: agenda))
        (.between r (((Scene.beginHunt r .zero).hits owner.slot owner.slotCount).map
          (.fixed .array owner) ++ agenda))
  | skip {r : Run} {root agenda} : r.remaining = [] →
      Step s (.between r (.root root :: agenda)) (.between r agenda)
  | search {r : Run} {root : Root} {agenda key} : r.remaining ≠ [] →
      LabelKey.ofValue root.variableDescriptor.label = .ok key →
      Step s (.between r (.root root :: agenda))
        (.within r root key (.ofRoot r ((r.tallies.get? key).getD .zero) root) agenda)
  | inside {r root key x x' agenda} : Search.Step s root.variableDescriptor x x' →
      Step s (.within r root key x agenda) (.within r root key x' agenda)
  | leave {r root key h front agenda} :
      Step s (.within r root key ⟨h, front, .ended⟩ agenda)
        (.between ⟨h.remaining, h.results, r.tallies.insert key h.tally⟩ agenda)

abbrev Steps (s : Scene) : Engine → Engine → Prop := Relation.ReflTransGen (Step s)

end Engine

namespace Scene

def exactTasks (s : Scene) : List Task :=
  s.start.remaining.flatMap fun slot => (s.layout.variablesAt slot).map (.fixed .exact · slot)

def laterTasks (s : Scene) : List Task :=
  s.layout.mappingRoots.map .root ++ s.layout.staticArrays.map .staticArray ++
    (s.layout.arrayRoots ++ s.layout.bytesRoots).map .root

def engineStart (s : Scene) : Engine := .between s.start (s.exactTasks ++ s.laterTasks)

def Reaches (s : Scene) (e : Engine) : Prop := Engine.Steps s s.engineStart e

end Scene

end SlotLens

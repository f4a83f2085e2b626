import SlotLens.AddressMap
import SlotLens.Label.Entry
import SlotLens.Match.Run

namespace SlotLens

structure LabeledVariable where
  name : String
  type : Value
  kind : String
  trace : List TraceEntry

namespace LabeledVariable

def isModified (v : LabeledVariable) : Bool := v.trace.any (·.isModified)

def toValue (v : LabeledVariable) : Value :=
  .object [("name", .text v.name), ("type", v.type), ("kind", .text v.kind),
    ("trace", .list (v.trace.map (·.toValue)))]

end LabeledVariable

structure LabeledState where
  fields : List (String × FieldDiff)
  storage : Table String LabeledVariable

namespace LabeledState

def toValue (s : LabeledState) : Value :=
  .object ((s.fields.map fun f => (f.1, f.2.toValue)) ++
    [("storage", .object (s.storage.map (·.toValue)).entries)])

end LabeledState

namespace Label

def noLayoutNote : String := "Could not label this slot access because no layout was found."

def matchAccount (account : Account) (layout : Option Layout) (candidates : List Candidate)
    (bounds : Bounds) (lengths : Lengths) : Except Fault (List Match) :=
  match layout with
  | none => .ok ((sortBy id account.storage.keys).map (Match.unresolved · noLayoutNote))
  | some layout =>
    (Scene.run ⟨layout, account.storage, candidates, bounds, lengths⟩).map
      (·.flatMap Prod.snd)

/-- The kind of what stands under a name: that of the last variable with this label. -/
def kindOf (layout : Option Layout) (name : String) : String :=
  match (layout.map Layout.descriptors).getD [] |>.reverse.find? (·.label.same (.text name)) with
  | some d => d.kind.name
  | none => "unknown"

def addEntry (layout : Option Layout) (name : String) (type : Value) (entry : TraceEntry)
    (storage : Table String LabeledVariable) : Table String LabeledVariable :=
  let known := (storage.get? name).getD ⟨name, type, kindOf layout name, []⟩
  storage.insert name { known with trace := known.trace ++ [entry] }

/-- Set the entry for a match behind those under its name. The name is first looked up, which a list
or a record cannot be; no name but a text is left when the entry has its expression. -/
def addMatch (account : Account) (layout : Option Layout)
    (storage : Table String LabeledVariable) (m : Match) :
    Except Fault (Table String LabeledVariable) :=
  match account.storage.get? m.slot with
  | none => .ok storage
  | some access => do
    let name ← m.name.asKey
    let entry ← TraceEntry.ofMatch access m
    return addEntry layout name.plain m.typeLabel entry storage

def assemble (account : Account) (layout : Option Layout) (matched : List Match) :
    Except Fault (Table String LabeledVariable) := do
  let _ ← ((layout.map Layout.descriptors).getD []).mapM fun d => d.label.asKey
  matched.foldlM (addMatch account layout) .empty

def account (a : Account) (layout : Option Layout) (candidates : List Candidate) (bounds : Bounds)
    (lengths : Lengths) : Except Fault LabeledState := do
  let matched ← matchAccount a layout candidates bounds lengths
  return ⟨a.fields, ← assemble a layout matched⟩

def accounts (diff : Table String Account) (layouts : AddressMap Layout)
    (candidates : List Candidate) (bounds : Bounds) (lengths : List (Value × Lengths)) :
    Except Fault (AddressMap LabeledState) := do
  let lengths ← AddressMap.ofEntries lengths
  let states ← diff.entries.mapM fun (address, a) =>
    (account a (layouts.get? address) candidates bounds (lengths.getD address .empty)).map
      ((address, ·))
  return .ofList states

end Label

end SlotLens

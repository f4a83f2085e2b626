import SlotLens.Address
import SlotLens.Table

namespace SlotLens

structure AddressMap (β : Type) where
  table : Table String β

namespace AddressMap

variable {β : Type}

def empty : AddressMap β := ⟨.empty⟩

instance : Inhabited (AddressMap β) := ⟨empty⟩

def entries (m : AddressMap β) : List (String × β) := m.table.entries

def get? (m : AddressMap β) (address : String) : Option β :=
  m.table.get? (Address.normalize address)

def getD (m : AddressMap β) (address : String) (other : β) : β := (m.get? address).getD other

def find (m : AddressMap β) (address : String) : Except ShapeFault β :=
  match m.get? address with
  | some v => .ok v
  | none => .error (.missing (Address.normalize address))

def holds (m : AddressMap β) : Value → Bool
  | .text s => (m.get? s).isSome
  | _ => false

def insert (m : AddressMap β) (address : String) (v : β) : AddressMap β :=
  ⟨m.table.insert (Address.normalize address) v⟩

def insertNew (m : AddressMap β) (address : String) (v : β) : AddressMap β :=
  if (m.get? address).isSome then m else m.insert address v

def erase (m : AddressMap β) (address : String) : AddressMap β :=
  ⟨m.table.erase (Address.normalize address)⟩

/-- Set entries one after the other. Of entries under one spelling the last one counts, at the place
of the first. -/
def insertAll (m : AddressMap β) (entries : List (String × β)) : AddressMap β :=
  (Entries.ofList entries).foldl (fun m e => m.insert e.1 e.2) m

def ofList (entries : List (String × β)) : AddressMap β := empty.insertAll entries

def insertEach (m : AddressMap β) : List (Value × β) → AddressMap β × Option ShapeFault
  | [] => (m, none)
  | (address, v) :: rest => match Address.ofValue address with
    | .ok address => (m.insert address v).insertEach rest
    | .error fault => (m, some fault)

def ofEntries (entries : List (Value × β)) : Except ShapeFault (AddressMap β) :=
  match empty.insertEach entries with
  | (m, none) => .ok m
  | (_, some fault) => .error fault

theorem get?_insert (m : AddressMap β) (a b : String) (v : β) :
    (m.insert a v).get? b =
      if Address.normalize a = Address.normalize b then some v else m.get? b :=
  Table.get?_insert m.table _ _ v

theorem get?_erase (m : AddressMap β) (a b : String) :
    (m.erase a).get? b =
      if Address.normalize a = Address.normalize b then none else m.get? b :=
  Table.get?_erase m.table _ _

end AddressMap

end SlotLens

namespace SlotLens

namespace Entries

variable {κ β : Type} [DecidableEq κ]

def put (k : κ) (v : β) : List (κ × β) → List (κ × β)
  | [] => [(k, v)]
  | (k', v') :: rest => if k' = k then (k, v) :: rest else (k', v') :: put k v rest

def find? (k : κ) : List (κ × β) → Option β
  | [] => none
  | (k', v) :: rest => if k' = k then some v else find? k rest

def ofList (entries : List (κ × β)) : List (κ × β) :=
  entries.foldl (fun t e => put e.1 e.2 t) []

theorem keys_put (k : κ) (v : β) (t : List (κ × β)) :
    (put k v t).map Prod.fst =
      if k ∈ t.map Prod.fst then t.map Prod.fst else t.map Prod.fst ++ [k] := by
  induction t with
  | nil => rfl
  | cons e t ih =>
    obtain ⟨k', v'⟩ := e
    by_cases h : k' = k
    · simp [put, h]
    · have h' : k ≠ k' := fun e => h e.symm
      simp only [put, h, if_false, List.map_cons, ih, List.mem_cons, h', false_or]
      split <;> rfl

theorem find?_put (k j : κ) (v : β) (t : List (κ × β)) :
    find? j (put k v t) = if k = j then some v else find? j t := by
  induction t with
  | nil => simp [put, find?]
  | cons e t ih =>
    obtain ⟨k', v'⟩ := e
    by_cases h : k' = k
    · subst h; by_cases h' : k' = j <;> simp [put, find?, h']
    · by_cases h' : k' = j
      · subst h'; simp [put, find?, h, Ne.symm h]
      · simp [put, find?, h, h', ih]

theorem nodup_put (k : κ) (v : β) {t : List (κ × β)} (h : (t.map Prod.fst).Nodup) :
    ((put k v t).map Prod.fst).Nodup := by
  rw [keys_put]
  split
  · exact h
  · rename_i hk
    exact List.nodup_append.2 ⟨h, by simp, by simpa using fun a b ha e => hk (by
      subst e; exact List.mem_map.2 ⟨_, ha, rfl⟩)⟩

end Entries

structure Table (κ β : Type) where
  entries : List (κ × β)
  nodup : (entries.map Prod.fst).Nodup

namespace Table

variable {κ β γ : Type}

def empty : Table κ β := ⟨[], by simp⟩

instance : Inhabited (Table κ β) := ⟨empty⟩

def keys (t : Table κ β) : List κ := t.entries.map Prod.fst

def values (t : Table κ β) : List β := t.entries.map Prod.snd

def isEmpty (t : Table κ β) : Bool := t.entries.isEmpty

def map (f : β → γ) (t : Table κ β) : Table κ γ :=
  ⟨t.entries.map fun e => (e.1, f e.2), by
    have h := t.nodup
    simpa [Function.comp_def] using h⟩

variable [DecidableEq κ]

def get? (t : Table κ β) (k : κ) : Option β := Entries.find? k t.entries

def contains (t : Table κ β) (k : κ) : Bool := (t.get? k).isSome

def insert (t : Table κ β) (k : κ) (v : β) : Table κ β :=
  ⟨Entries.put k v t.entries, Entries.nodup_put k v t.nodup⟩

def erase (t : Table κ β) (k : κ) : Table κ β :=
  ⟨t.entries.filter fun e => e.1 ≠ k, by
    have h := t.nodup
    exact h.sublist (List.Sublist.map _ List.filter_sublist)⟩

def insertAll (t : Table κ β) (entries : List (κ × β)) : Table κ β :=
  entries.foldl (fun t e => t.insert e.1 e.2) t

def ofList (entries : List (κ × β)) : Table κ β := insertAll empty entries

@[simp] theorem get?_empty (k : κ) : (empty : Table κ β).get? k = none := rfl

theorem get?_insert (t : Table κ β) (k j : κ) (v : β) :
    (t.insert k v).get? j = if k = j then some v else t.get? j :=
  Entries.find?_put k j v t.entries

theorem keys_insert (t : Table κ β) (k : κ) (v : β) :
    (t.insert k v).keys = if k ∈ t.keys then t.keys else t.keys ++ [k] :=
  Entries.keys_put k v t.entries

theorem get?_erase (t : Table κ β) (k j : κ) :
    (t.erase k).get? j = if k = j then none else t.get? j := by
  unfold get? erase
  simp only
  induction t.entries with
  | nil => simp [Entries.find?]
  | cons e r ih =>
    obtain ⟨k', v⟩ := e
    by_cases h : k' = k
    · subst h; by_cases h' : k' = j
      · simpa [h', Entries.find?] using ih
      · simpa [h', Entries.find?] using ih
    · by_cases h' : k' = j
      · subst h'; simp [h, Ne.symm h, Entries.find?]
      · by_cases h'' : k = j <;> simp_all [Entries.find?]

end Table

end SlotLens

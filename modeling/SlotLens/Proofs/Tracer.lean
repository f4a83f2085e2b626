import SlotLens.Tracer
import SlotLens.Proofs.Capture
import SlotLens.Proofs.Label.Total
import SlotLens.Proofs.Layout.Metadata

namespace SlotLens

theorem filterM_eq_ok {ε α : Type} {p : α → Except ε Bool} {q : α → Bool} {items : List α}
    (h : ∀ a ∈ items, p a = .ok (q a)) : items.filterM p = .ok (items.filter q) := by
  have haux (found : List α) :
      items.filterAuxM p found = .ok ((items.filter q).reverse ++ found) := by
    induction items generalizing found with
    | nil => rfl
    | cons a items ih =>
      obtain ⟨ha, hrest⟩ := List.forall_mem_cons.1 h
      rw [List.filterAuxM, ha]
      refine bind_eq_ok.2 ⟨_, rfl, ?_⟩
      rw [ih hrest]
      cases hq : q a <;> simp [hq]
  rw [List.filterM, haux]
  simp [bind, Except.bind, pure, Except.pure]

theorem AddressMap.mem_entries_insert {β : Type} {m : AddressMap β} {address : String} {v : β}
    {e : String × β} (h : e ∈ (m.insert address v).entries) :
    e = (Address.normalize address, v) ∨ e ∈ m.entries :=
  Entries.mem_put h

theorem exists_of_filterM {ε α : Type} {p : α → Except ε Bool} {items kept : List α}
    (h : items.filterM p = .ok kept) : ∀ a ∈ items, ∃ b, p a = .ok b := by
  obtain ⟨found, hfound, -⟩ := bind_eq_ok.1 h
  suffices haux : ∀ front found, items.filterAuxM p front = .ok found →
      ∀ a ∈ items, ∃ b, p a = .ok b from haux [] found hfound
  clear h hfound
  induction items with
  | nil => exact fun _ _ _ a ha => absurd ha List.not_mem_nil
  | cons first items ih =>
    intro front found h
    rw [List.filterAuxM] at h
    obtain ⟨b, hb, h⟩ := bind_eq_ok.1 h
    exact List.forall_mem_cons.2 ⟨⟨b, hb⟩, ih _ found h⟩

theorem filterM_filterM {ε α : Type} {p : α → Except ε Bool} {items kept : List α}
    (h : items.filterM p = .ok kept) : kept.filterM p = .ok kept := by
  have hp : ∀ a ∈ items, p a = .ok ((p a).toOption.getD false) := by
    intro a ha
    obtain ⟨b, hb⟩ := exists_of_filterM h a ha
    rw [hb]
    rfl
  have hkept : kept = items.filter fun a => (p a).toOption.getD false :=
    Except.ok.inj (h.symm.trans (filterM_eq_ok hp))
  have htrue : ∀ a ∈ kept, p a = .ok true := by
    intro a ha
    rw [hkept, List.mem_filter] at ha
    rw [hp a ha.1, ha.2]
  rw [filterM_eq_ok htrue, List.filter_true]

namespace Capture

def data (c : Capture) : String :=
  match c.calldata with
  | .text s => s
  | _ => ""

end Capture

namespace Tracer

variable {t t' : Tracer} {c : Capture} {address metadata : Value} {fragments : List Value}
  {lengths : List (Value × Lengths)}

def describesFunction (fragment : Value) : Bool :=
  match fragment.lookup "type" with
  | none => true
  | some (.text kind) => kind = "function"
  | some _ => false

structure IsFragment (fragment : Value) : Prop where
  isRecord : fragment.isRecord
  wellFormed : describesFunction fragment → Abi.Fragment.WellFormed fragment

/-- A tracer that knows layouts as they are emitted and well-formed functions. -/
structure IsReady (t : Tracer) : Prop where
  layouts : ∀ e ∈ t.layouts.entries, e.2.Emitted
  abis : ∀ e ∈ t.abis.entries, ∀ fragment ∈ e.2, Abi.Fragment.WellFormed fragment

theorem IsReady.registerLayout (ht : t.IsReady)
    (hl : ∀ l, Metadata.layout metadata = .ok l → l.Emitted)
    (h : t.registerLayout address metadata = .ok t') : t'.IsReady := by
  obtain ⟨key, -, h⟩ := bind_eq_ok.1 h
  obtain ⟨l, hlayout, h⟩ := bind_eq_ok.1 h
  cases h
  refine ⟨fun e he => ?_, ht.abis⟩
  rcases AddressMap.mem_entries_insert he with he | he
  · rw [he]
    exact hl l hlayout
  · exact ht.layouts e he

/-- The arguments of a call can be read under the functions known of the called contract. -/
def Reads (t : Tracer) (c : Capture) : Prop :=
  ∀ abi, t.abiFor c.recipient = .ok abi → Candidate.IsReadableUnder c.data abi c.args

end Tracer

end SlotLens

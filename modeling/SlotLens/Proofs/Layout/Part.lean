import SlotLens.Proofs.Layout.Boundary
import Mathlib.Logic.Relation

namespace SlotLens.Descriptor

inductive HasPart : Descriptor → Descriptor → Prop
  | value {e keyType value} : HasPart (.mapping e keyType value) value
  | element {e element} : HasPart (.dynamicArray e element) element
  | item {e length element} : HasPart (.staticArray e length element) element
  | member {e} {members : List Descriptor} {m : Descriptor} : m ∈ members →
      HasPart (.struct e members) m

def Contains (d c : Descriptor) : Prop := Relation.TransGen HasPart d c

variable {a b c d : Descriptor} {segment : Segment} {path : Path} {k n : Nat}

theorem height_le_heights {members : List Descriptor} {m : Descriptor} (h : m ∈ members) :
    m.height ≤ heights members := by
  induction members with
  | nil => exact absurd h List.not_mem_nil
  | cons d rest ih =>
    rw [heights]
    rcases List.mem_cons.1 h with rfl | h
    · exact Nat.le_max_left _ _
    · exact Nat.le_trans (ih h) (Nat.le_max_right _ _)

theorem HasPart.height_lt (h : HasPart d c) : c.height < d.height := by
  cases h with
  | value | element | item => exact Nat.lt_succ_self _
  | member hm => exact Nat.lt_succ_of_le (height_le_heights hm)

theorem Contains.height_lt (h : d.Contains c) : c.height < d.height := by
  induction h with
  | single h => exact h.height_lt
  | tail _ h ih => exact Nat.lt_trans h.height_lt ih

theorem Enters.eq_or_hasPart (h : Enters a segment k b) : a = b ∨ HasPart a b := by
  cases h with
  | field hm => exact .inr (.member hm)
  | item => exact .inr .item
  | element => exact .inr .element
  | key => exact .inr .value
  | length | chunk => exact .inl rfl

theorem Crosses.inside (h : Crosses a path n b) : Relation.ReflTransGen HasPart a b := by
  induction h with
  | nil => exact .refl
  | cons hstep _ ih =>
    rcases hstep.eq_or_hasPart with rfl | hpart
    · exact ih
    · exact .head hpart ih

theorem HasPart.contains (h : HasPart d b) {inner : Container} (hc : inner ∈ b.containers) :
    d.Contains inner.descriptor :=
  .head' h (containers_crosses b hc).inside

def IsWhole (d : Descriptor) : Prop :=
  ∀ c, Relation.ReflTransGen HasPart d c → ∀ e kind, c ≠ .cut e kind

theorem IsWhole.of_parts (hd : ∀ e kind, d ≠ .cut e kind) (h : ∀ c, HasPart d c → c.IsWhole) :
    d.IsWhole := by
  intro c hc
  rcases hc.cases_head with rfl | ⟨b, hb, hc⟩
  · exact hd
  · exact h b hb c hc

end SlotLens.Descriptor

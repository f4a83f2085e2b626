import SlotLens.Fault
import SlotLens.Keccak

namespace SlotLens.Slot

def space : Int := Int.pow 2 256

def wrap (n : Int) : Int := n % space

def hex (slot : Int) : String := (Word.ofNat (wrap slot).toNat).hex

def ofValue (v : Value) : Except WordFault Int := (Word.number v).map wrap

def encode (slot : Int) : Except Fault (List UInt8) :=
  if 0 ≤ slot ∧ slot < space then .ok (Word.ofNat slot.toNat).bytes else .error .slotOverflow

def ofHash (bytes : List UInt8) : Int := BigEndian.toNat (Keccak.hash bytes)

/-- Where a mapping places the value of a key. Keys of value types are words; texts and byte strings
are hashed as they are. -/
def ofKey (key : List UInt8) (base : Int) : Except Fault Int :=
  (encode base).map fun bytes => ofHash (key ++ bytes)

def ofData (base : Int) : Except Fault Int := (encode base).map ofHash

theorem wrap_nonneg (n : Int) : 0 ≤ wrap n := Int.emod_nonneg n (by decide)

theorem wrap_lt (n : Int) : wrap n < space := Int.emod_lt_of_pos n (by decide)

theorem wrap_of_mem {n : Int} (h : 0 ≤ n) (h' : n < space) : wrap n = n := Int.emod_eq_of_lt h h'

theorem ofHash_nonneg (bytes : List UInt8) : 0 ≤ ofHash bytes := Int.natCast_nonneg _

theorem ofHash_lt (bytes : List UInt8) : ofHash bytes < space := by
  have h := BigEndian.toNat_lt (Keccak.hash bytes)
  rw [Keccak.length_hash] at h
  have h' : ((Nat.pow 256 32 : Nat) : Int) = space := by decide
  rw [← h', ofHash]
  exact Int.ofNat_lt.2 h

end SlotLens.Slot

import SlotLens.Value
import SlotLens.Bytes.BigEndian
import SlotLens.Bytes.Hex

/-!
# Candidates

A candidate is a byte string that may have been hashed as the key of a mapping. Addresses are the
most likely keys, then values whose type is known, then all others. Ranking keeps one candidate for
each byte string, the most likely one and among equals the first, and sets the likely ones in front.
-/

namespace SlotLens

inductive Source where
  | address
  | argument
  | stack
  deriving DecidableEq, Repr

namespace Source

def name : Source → String
  | .address => "address"
  | .argument => "argument"
  | .stack => "stack"

def ofName? : String → Option Source
  | "address" => some .address
  | "argument" => some .argument
  | "stack" => some .stack
  | _ => none

end Source

structure Candidate where
  /-- The bytes that are hashed: a word, or a text or byte string as it is. -/
  raw : List UInt8
  decoded : Value
  abiType : Value
  source : Source

namespace Candidate

def hex (c : Candidate) : String := Hex.text c.raw

/-- 0 for addresses, 1 for other values of a known type, 2 for the rest. -/
def rank (c : Candidate) : Nat :=
  match c.abiType with
  | .text "address" => 0
  | .null => 2
  | _ => 1

def isWord (c : Candidate) : Bool := c.raw.length == 32

def asIndex? (c : Candidate) : Option Nat :=
  if c.isWord then some (BigEndian.toNat c.raw) else none

/-- Offer a candidate to the ones kept so far, which have different bytes: it takes the place of the
one with its bytes if it has a lower rank, and goes to the end if there is none. -/
def offer (c : Candidate) : List Candidate → List Candidate
  | [] => [c]
  | kept :: rest =>
    if kept.raw = c.raw then (if c.rank < kept.rank then c else kept) :: rest
    else kept :: offer c rest

def unique (candidates : List Candidate) : List Candidate :=
  candidates.foldl (fun kept c => offer c kept) []

def ranked (candidates : List Candidate) : List Candidate :=
  let kept := unique candidates
  kept.filter (·.rank = 0) ++ kept.filter (·.rank = 1) ++ kept.filter (·.rank = 2)

end Candidate

end SlotLens

import SlotLens.Account
import SlotLens.Bounds
import SlotLens.Candidate.Basic
import SlotLens.Match.Basic

namespace SlotLens

/-- Lengths of dynamic arrays by their slots. One that is absent is not to be known, whatever was
observed. -/
abbrev Lengths := Table Int (Option Int)

structure Scene where
  layout : Layout
  observed : Table Int Access
  candidates : List Candidate
  bounds : Bounds
  lengths : Lengths

namespace Scene

def lengthAt (s : Scene) (base : Int) : Option Int :=
  match s.lengths.get? base with
  | some length => length
  | none => (s.observed.get? base).map fun access => (access.maxNat : Int)

end Scene

structure Tally where
  /-- Keys tried and nested containers entered. -/
  explored : Nat
  found : Nat
  /-- A try was needed when the budget was used up. -/
  limitHit : Bool
  depthHit : Bool
  deriving DecidableEq, Repr

namespace Tally

def zero : Tally := ⟨0, 0, false, false⟩

def isStopped (t : Tally) (b : Bounds) : Bool := t.limitHit || b.thresholdReached t.found

def budgetLeft (t : Tally) (b : Bounds) : Option Nat := b.limit.map (· - t.explored)

/-- Use one try. Without one left, the search has hit its limit. -/
def spend (t : Tally) (b : Bounds) : Tally × Bool :=
  if b.exhausted t.explored then ({ t with limitHit := true }, false)
  else ({ t with explored := t.explored + 1 }, true)

end Tally

/-- A container that is to be searched. The containers of variables are at level 1. -/
structure WorkItem where
  container : Descriptor
  base : Int
  level : Nat
  path : Path

structure Hunt where
  remaining : List Int
  results : Table Int (List Match)
  tally : Tally
  next : Array WorkItem

namespace Hunt

def hits (h : Hunt) (base span : Int) : List Int :=
  h.remaining.filter fun slot => base ≤ slot && slot < base + span

def resolve (h : Hunt) (slot : Int) (found : List Match) : Hunt :=
  if found.isEmpty then h
  else
    let known := (h.results.get? slot).getD []
    { h with
      remaining := h.remaining.filter (· ≠ slot)
      results := h.results.insert slot (sortBy Match.offset (known ++ found)) }

def claim (h : Hunt) (slot : Int) (owner : Descriptor) (before : Path) (kind : MatchKind)
    (note : Option String) (located : List Located) : Hunt :=
  if located.isEmpty then h
  else
    let h := h.resolve slot (located.map (Match.ofLocated slot owner before kind note))
    { h with tally := { h.tally with found := h.tally.found + 1 } }

def spend (h : Hunt) (b : Bounds) : Hunt × Bool :=
  let (tally, ok) := h.tally.spend b
  ({ h with tally }, ok)

end Hunt

end SlotLens

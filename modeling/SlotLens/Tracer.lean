import SlotLens.Candidate.Gather
import SlotLens.Capture
import SlotLens.Label.State
import SlotLens.Layout.Metadata

namespace SlotLens

structure Tracer where
  bounds : Bounds
  layouts : AddressMap Layout
  abis : AddressMap (List Value)

namespace Tracer

def new (bounds : Bounds) : Tracer := ⟨bounds, .empty, .empty⟩

def registerLayout (t : Tracer) (address metadata : Value) : Except Fault Tracer := do
  let address ← Address.ofValue address
  let layout ← Metadata.layout metadata
  return { t with layouts := t.layouts.insert address layout }

def functionsOf (abi : Value) : Except ShapeFault (List Value) := do
  let fragments ← abi.iterate
  fragments.filterM Abi.Fragment.isFunction

def registerAbi (t : Tracer) (address abi : Value) : Except Fault Tracer := do
  let functions ← functionsOf abi
  let address ← Address.ofValue address
  return { t with abis := t.abis.insert address functions }

def ofContracts (bounds : Bounds) (layouts abis : List (Value × Value)) : Except Fault Tracer := do
  let t ← layouts.foldlM (fun t e => t.registerLayout e.1 e.2) (new bounds)
  abis.foldlM (fun t e => t.registerAbi e.1 e.2) t

def layoutFor (t : Tracer) (address : String) : Option Layout := t.layouts.get? address

def abiFor (t : Tracer) (address : Value) : Except ShapeFault (List Value) :=
  if address.isVacant then .ok [] else (Address.ofValue address).map (t.abis.getD · [])

def candidates [Address.Rule] (t : Tracer) (c : Capture) : Except Fault (List Candidate) := do
  let touched ← c.touched
  let abi ← t.abiFor c.recipient
  Candidate.gather (touched.map .text) (.list c.steps) c.calldata (.list abi) c.args

def trace [Address.Rule] (t : Tracer) (c : Capture) (lengths : List (Value × Lengths)) :
    Except Fault (AddressMap LabeledState) := do
  let candidates ← t.candidates c
  Label.accounts c.accounts t.layouts candidates t.bounds lengths

end Tracer

end SlotLens

import SlotLens.Tracer

/-!
# Calls on a tracer

A tracer is kept while contracts are registered and captures are traced. A call that fails leaves
what it has changed before it failed. Without keeping a tracer, a capture is labeled at once.
-/

namespace SlotLens

inductive LayoutSource where
  | parsed (layout : Layout)
  | metadata (v : Value)

def LayoutSource.read : LayoutSource → Except Fault Layout
  | .parsed layout => .ok layout
  | .metadata v => Metadata.layout v

namespace Tracer

inductive Call where
  | registerLayout (address : Value) (source : LayoutSource)
  | registerAbi (address abi : Value)
  | trace (capture : Capture) (lengths : List (Value × Lengths))

inductive Answer where
  | layout (layout : Layout)
  | nothing
  | states (states : AddressMap LabeledState)

/-- What is done with a tracer. Changes before a failure stay. -/
abbrev Action := ExceptT Fault (StateM Tracer)

namespace Call

def perform [Address.Rule] : Call → Action Answer
  | .registerLayout address source => do
    let address ← ofExcept (liftM (Address.ofValue address))
    let layout ← ofExcept source.read
    modify fun t => { t with layouts := t.layouts.insert address layout }
    return .layout layout
  | .registerAbi address abi => do
    let functions ← ofExcept (liftM (functionsOf abi))
    let address ← ofExcept (liftM (Address.ofValue address))
    modify fun t => { t with abis := t.abis.insert address functions }
    return .nothing
  | .trace c lengths => do
    let t ← get
    let states ← ofExcept (t.trace c lengths)
    return .states states

def run [Address.Rule] (call : Call) (t : Tracer) : Except Fault Answer × Tracer :=
  call.perform.run t

end Call

def performAll [Address.Rule] : List Call → Tracer → List (Call × Except Fault Answer) × Tracer
  | [], t => ([], t)
  | call :: rest, t =>
    let (answer, t) := call.run t
    let (log, t) := performAll rest t
    ((call, answer) :: log, t)

def openWith [Address.Rule] : List Call → Tracer → Except Fault Tracer
  | [], t => .ok t
  | call :: rest, t => match call.run t with
    | (.ok _, t) => openWith rest t
    | (.error fault, _) => .error fault

def contracts (layouts : List (Value × LayoutSource)) (abis : List (Value × Value)) : List Call :=
  layouts.map (fun e => .registerLayout e.1 e.2) ++ abis.map fun e => .registerAbi e.1 e.2

def traceOnce [Address.Rule] (bounds : Bounds) (layouts : List (Value × LayoutSource))
    (abis : List (Value × Value)) (c : Capture) (lengths : List (Value × Lengths)) :
    Except Fault (AddressMap LabeledState) := do
  let t ← openWith (contracts layouts abis) (new bounds)
  t.trace c lengths

end Tracer

end SlotLens

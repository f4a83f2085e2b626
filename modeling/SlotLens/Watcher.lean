import SlotLens.Tracer

namespace SlotLens

structure StateChange where
  txHash : Value
  block : Value
  state : LabeledState

structure Reply (σ α : Type) where
  state : σ
  cancels : Bool
  outcome : Except Fault α

/-- Who supplies the captures of blocks and is told what becomes of them. -/
structure Listener (σ : Type) where
  captures : (block : Value) → σ → Reply σ (List Capture)
  onChange : StateChange → σ → Reply σ Unit
  /-- Told of a block whose captures cannot be had. -/
  onFailure : Option (Fault → σ → Reply σ Unit)

structure Watcher where
  address : String
  tracer : Tracer
  capacity : Nat
  history : List StateChange
  isCancelled : Bool
  length_history : history.length ≤ capacity

structure Watched (σ α : Type) where
  watcher : Watcher
  state : σ
  outcome : Except Fault α

namespace Watcher

def standardCapacity : Int := 100

def new (address : Value) (layout abi : Option Value) (bounds : Bounds) (capacity : Int) :
    Except Fault Watcher := do
  if capacity < 0 then throw (.config (.history capacity))
  let address ← Address.ofValue address
  let named (v : Option Value) := v.toList.map fun v => (.text address, v)
  let tracer ← Tracer.ofContracts bounds (named layout) (named abi)
  if Int.pow 2 63 ≤ capacity then throw (.shape .unbounded)
  return ⟨address, tracer, capacity.toNat, [], false, Nat.zero_le _⟩

def cancel (w : Watcher) : Watcher := { w with isCancelled := true }

def lastItems {α : Type} (n : Nat) (items : List α) : List α := items.drop (items.length - n)

theorem length_lastItems {α : Type} (n : Nat) (items : List α) :
    (lastItems n items).length ≤ n := by
  simp only [lastItems, List.length_drop]
  omega

def record (w : Watcher) (change : StateChange) : Watcher :=
  { w with
    history := lastItems w.capacity (w.history ++ [change])
    length_history := length_lastItems _ _ }

def heed {σ α : Type} (w : Watcher) (reply : Reply σ α) : Watcher :=
  if reply.cancels then w.cancel else w

def change? [Address.Rule] (w : Watcher) (block : Value) (c : Capture) :
    Except Fault (Option StateChange) := do
  let touched ← c.touched
  if touched.contains w.address then
    let states ← w.tracer.trace c []
    return (states.get? w.address).map fun state => ⟨c.txHash, block, state⟩
  else return none

variable {σ : Type}

/-- Label the captures of a block until the watcher is cancelled, and say which changes they
bring. -/
def observe [Address.Rule] (l : Listener σ) (block : Value) :
    List Capture → Watcher → σ → Watched σ (List StateChange)
  | [], w, s => ⟨w, s, .ok []⟩
  | c :: rest, w, s =>
    if w.isCancelled then ⟨w, s, .ok []⟩
    else match w.change? block c with
      | .error fault => ⟨w, s, .error fault⟩
      | .ok none => observe l block rest w s
      | .ok (some change) =>
        let reply := l.onChange change s
        let w := (w.record change).heed reply
        match reply.outcome with
        | .error fault => ⟨w, reply.state, .error fault⟩
        | .ok () =>
          let others := observe l block rest w reply.state
          { others with outcome := others.outcome.map (change :: ·) }

def onBlock [Address.Rule] (l : Listener σ) (block : Value) (w : Watcher) (s : σ) :
    Watched σ (List StateChange) :=
  if w.isCancelled then ⟨w, s, .ok []⟩
  else
    let reply := l.captures block s
    let w := w.heed reply
    match reply.outcome with
    | .ok captures => observe l block captures w reply.state
    | .error fault =>
      match l.onFailure with
      | none => ⟨w, reply.state, .ok []⟩
      | some onFailure =>
        let told := onFailure fault reply.state
        ⟨w.heed told, told.state, told.outcome.map fun () => []⟩

end Watcher

end SlotLens

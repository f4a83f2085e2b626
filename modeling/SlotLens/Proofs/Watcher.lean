import SlotLens.Watcher
import SlotLens.Proofs.Capture
import SlotLens.Proofs.Label.Lossless

/-!
# What a watcher delivers

Through any calls, a watcher keeps the last changes that it delivered to its listener, and once it
is cancelled it delivers none. A block whose captures cannot be had is reported and changes nothing.
Of any other block it delivers, up to a cancellation, one change for each capture whose state diff
holds the watched address.
-/

namespace SlotLens

inductive Notice where
  | asked (block : Value)
  | changed (change : StateChange)
  | failed (fault : Fault)
  | cancelled

namespace Notice

def change? : Notice → Option StateChange
  | .changed change => some change
  | _ => none

def fault? : Notice → Option Fault
  | .failed fault => some fault
  | _ => none

def changes (log : List Notice) : List StateChange := log.filterMap change?

def faults (log : List Notice) : List Fault := log.filterMap fault?

@[simp] theorem changes_append (log more : List Notice) :
    changes (log ++ more) = changes log ++ changes more := List.filterMap_append

@[simp] theorem faults_append (log more : List Notice) :
    faults (log ++ more) = faults log ++ faults more := List.filterMap_append

def followed (n : Notice) (cancels : Bool) : List Notice :=
  n :: if cancels then [.cancelled] else []

@[simp] theorem changes_followed (n : Notice) (cancels : Bool) :
    changes (n.followed cancels) = n.change?.toList := by
  cases n <;> cases cancels <;> rfl

@[simp] theorem faults_followed (n : Notice) (cancels : Bool) :
    faults (n.followed cancels) = n.fault?.toList := by
  cases n <;> cases cancels <;> rfl

end Notice

section Session

variable {σ α : Type}

def Reply.noting (reply : Reply σ α) (log : List Notice) (n : Notice) :
    Reply (σ × List Notice) α :=
  ⟨(reply.state, log ++ n.followed reply.cancels), reply.cancels, reply.outcome⟩

def Listener.noting (l : Listener σ) : Listener (σ × List Notice) where
  captures block s := (l.captures block s.1).noting s.2 (.asked block)
  onChange change s := (l.onChange change s.1).noting s.2 (.changed change)
  onFailure := l.onFailure.map fun tell fault s => (tell fault s.1).noting s.2 (.failed fault)

inductive Watcher.Call where
  | onBlock (block : Value)
  | cancel

structure Session (σ : Type) where
  watcher : Watcher
  state : σ
  log : List Notice

namespace Session

/-- The watcher alone knows no log: `onBlock_noting` says that it does the same without one. -/
def call [Address.Rule] (l : Listener σ) (x : Session σ) : Watcher.Call → Session σ
  | .onBlock block =>
    let seen := x.watcher.onBlock l.noting block (x.state, x.log)
    ⟨seen.watcher, seen.state.1, seen.state.2⟩
  | .cancel => ⟨x.watcher.cancel, x.state, x.log ++ [.cancelled]⟩

def run [Address.Rule] (l : Listener σ) (x : Session σ) (calls : List Watcher.Call) : Session σ :=
  calls.foldl (call l) x

end Session

end Session

namespace Watcher

variable {σ α : Type} {l : Listener σ} {w w' : Watcher} {s : σ} {log : List Notice} {n : Notice}
  {reply : Reply σ α} {block : Value} {change : StateChange} {c : Capture}

theorem observe_noting [Address.Rule] (captures : List Capture) (w : Watcher) (s : σ)
    (log : List Notice) :
    let seen := observe l.noting block captures w (s, log)
    observe l block captures w s = ⟨seen.watcher, seen.state.1, seen.outcome⟩ := by
  induction captures generalizing w s log with
  | nil => rfl
  | cons c captures ih =>
    simp only [observe]
    split
    · rfl
    · cases hc : w.change? block c with
      | error fault => rfl
      | ok found =>
        cases found with
        | none => exact ih w s log
        | some change =>
          simp only [Listener.noting, Reply.noting, heed]
          cases (l.onChange change s).outcome with
          | error fault => rfl
          | ok _ =>
            simp only
            rw [ih]
            rfl

theorem onBlock_noting [Address.Rule] (w : Watcher) (block : Value) (s : σ) (log : List Notice) :
    let seen := w.onBlock l.noting block (s, log)
    w.onBlock l block s = ⟨seen.watcher, seen.state.1, seen.outcome⟩ := by
  simp only [onBlock]
  split
  · rfl
  · simp only [Listener.noting, Reply.noting, heed]
    cases (l.captures block s).outcome with
    | ok captures => exact observe_noting _ _ _ _
    | error fault => cases l.onFailure <;> rfl

theorem length_lastItems_eq {α : Type} (n : Nat) (items : List α) :
    (lastItems n items).length = min n items.length := by
  rw [lastItems, List.length_drop]
  omega

structure Follows (w w' : Watcher) : Prop where
  address : w'.address = w.address
  tracer : w'.tracer = w.tracer
  capacity : w'.capacity = w.capacity

namespace Follows

theorem refl (w : Watcher) : Follows w w := ⟨rfl, rfl, rfl⟩

theorem record (h : Follows w w') : Follows w (w'.record change) :=
  ⟨h.address, h.tracer, h.capacity⟩

theorem cancel (h : Follows w w') : Follows w w'.cancel := ⟨h.address, h.tracer, h.capacity⟩

theorem heed (h : Follows w w') : Follows w (w'.heed reply) := by
  rw [Watcher.heed]
  split
  · exact h.cancel
  · exact h

end Follows

/-- What a watcher, its state `w` at the start and the log of its listener have in common at all
times. -/
structure Matches (w w' : Watcher) (log : List Notice) : Prop where
  follows : Follows w w'
  history : ∃ earlier, Notice.changes log = earlier ++ w'.history
  length : w'.history.length = min w'.capacity (Notice.changes log).length
  cancelled : w'.isCancelled ↔ .cancelled ∈ log
  silent : log.Pairwise fun a b => a = .cancelled → b.change? = none

namespace Matches

theorem not_mem (h : Matches w w' log) (hw : ¬ w'.isCancelled) : .cancelled ∉ log :=
  fun hm => hw (h.cancelled.2 hm)

theorem note (h : Matches w w' log) (hn : n.change? = none) (hc : n ≠ .cancelled) :
    Matches w w' (log ++ [n]) := by
  have hsame : Notice.changes (log ++ [n]) = Notice.changes log := by
    simp [Notice.changes, hn]
  refine ⟨h.follows, hsame ▸ h.history, hsame ▸ h.length, ?_, ?_⟩
  · rw [h.cancelled]
    simp [hc.symm]
  · refine List.pairwise_append.2 ⟨h.silent, List.pairwise_singleton _ _, fun a _ b hb _ => ?_⟩
    rw [List.mem_singleton.1 hb]
    exact hn

theorem cancel (h : Matches w w' log) : Matches w w'.cancel (log ++ [.cancelled]) := by
  have hsame : Notice.changes (log ++ [.cancelled]) = Notice.changes log :=
    (Notice.changes_append _ _).trans (List.append_nil _)
  refine ⟨h.follows.cancel, hsame ▸ h.history, hsame ▸ h.length, by simp [Watcher.cancel], ?_⟩
  refine List.pairwise_append.2 ⟨h.silent, List.pairwise_singleton _ _, fun a _ b hb _ => ?_⟩
  rw [List.mem_singleton.1 hb]
  rfl

theorem record (h : Matches w w' log) (hw : ¬ w'.isCancelled) :
    Matches w (w'.record change) (log ++ [.changed change]) := by
  obtain ⟨earlier, hearlier⟩ := h.history
  have hone : Notice.changes [.changed change] = [change] := rfl
  have hlength := h.length
  refine ⟨h.follows.record, ⟨earlier ++ (w'.history ++ [change]).take
    ((w'.history ++ [change]).length - w'.capacity), ?_⟩, ?_, ?_, ?_⟩
  · rw [Notice.changes_append, hone, hearlier, List.append_assoc, List.append_assoc]
    exact congrArg (earlier ++ ·) (List.take_append_drop _ _).symm
  · rw [Notice.changes_append, hone, Watcher.record, length_lastItems_eq]
    simp only [List.length_append, List.length_singleton, hlength]
    omega
  · exact iff_of_false (by simpa [Watcher.record] using hw) (by simpa using h.not_mem hw)
  · refine List.pairwise_append.2 ⟨h.silent, List.pairwise_singleton _ _, fun a ha b _ hc => ?_⟩
    exact absurd (hc ▸ ha) (h.not_mem hw)

theorem heed (h : Matches w w' (log ++ [n])) :
    Matches w (w'.heed reply) (log ++ n.followed reply.cancels) := by
  rw [Watcher.heed, Notice.followed]
  split
  · rw [List.append_cons]
    exact h.cancel
  · exact h

theorem observe [Address.Rule] (captures : List Capture) (h : Matches w w' log) :
    let seen := Watcher.observe l.noting block captures w' (s, log)
    Matches w seen.watcher seen.state.2 := by
  induction captures generalizing w' s log with
  | nil => exact h
  | cons c captures ih =>
    simp only [Watcher.observe]
    split
    · exact h
    · next hw =>
      cases w'.change? block c with
      | error fault => exact h
      | ok found =>
        cases found with
        | none => exact ih h
        | some change =>
          have hnext : Matches w ((w'.record change).heed (l.onChange change s))
            (log ++ (Notice.changed change).followed (l.onChange change s).cancels) :=
            (h.record hw).heed
          simp only [Listener.noting, Reply.noting]
          cases (l.onChange change s).outcome with
          | error fault => exact hnext
          | ok _ => exact ih hnext

theorem onBlock [Address.Rule] (h : Matches w w' log) (block : Value) (s : σ) :
    let seen := w'.onBlock l.noting block (s, log)
    Matches w seen.watcher seen.state.2 := by
  simp only [Watcher.onBlock]
  split
  · exact h
  · have hasked : Matches w (w'.heed (l.captures block s))
      (log ++ (Notice.asked block).followed (l.captures block s).cancels) :=
      (h.note rfl (by simp)).heed
    simp only [Listener.noting, Reply.noting]
    cases (l.captures block s).outcome with
    | ok captures => exact hasked.observe captures
    | error fault =>
      cases l.onFailure with
      | none => exact hasked
      | some tell => exact (hasked.note rfl (by simp)).heed

theorem run [Address.Rule] (calls : List Call) {x : Session σ} (h : Matches w x.watcher x.log) :
    Matches w (x.run l calls).watcher (x.run l calls).log := by
  induction calls generalizing x with
  | nil => exact h
  | cons call calls ih =>
    refine ih (x := x.call l call) ?_
    cases call with
    | onBlock block => exact h.onBlock block x.state
    | cancel => exact h.cancel

end Matches

/-- The changes that captures bring: one for each capture whose state diff holds the address, with
the state under the address that the capture alone is labeled with. -/
inductive Brings [Address.Rule] (t : Tracer) (address : String) (block : Value) :
    List Capture → List StateChange → Prop
  | nil : Brings t address block [] []
  | skip {v c captures changes} : Capture.ofValue v = .ok c → ¬ Capture.HoldsDiff v address →
      Brings t address block captures changes → Brings t address block (c :: captures) changes
  | take {v c captures changes states state} : Capture.ofValue v = .ok c →
      Capture.HoldsDiff v address → t.trace c [] = .ok states →
      states.get? address = some state → Brings t address block captures changes →
      Brings t address block (c :: captures) (⟨c.txHash, block, state⟩ :: changes)

structure IsTraced [Address.Rule] (t : Tracer) (address : String) (c : Capture) : Prop where
  read : ∃ v, Capture.ofValue v = .ok c
  touched : ∃ keys, c.touched = .ok keys ∧ (address ∈ keys → ∃ states, t.trace c [] = .ok states)

/-- A watched address comes up among the touched ones and among the labeled ones where the state
diff holds it, so it does not matter that both are asked. -/
theorem change?_cases [Address.Rule] (block : Value) (hw : Address.normalize w.address = w.address)
    (hc : IsTraced w.tracer w.address c) : ∃ v, Capture.ofValue v = .ok c ∧
      ((¬ Capture.HoldsDiff v w.address ∧ w.change? block c = .ok none) ∨
        (Capture.HoldsDiff v w.address ∧ ∃ states state, w.tracer.trace c [] = .ok states ∧
          states.get? w.address = some state ∧
          w.change? block c = .ok (some ⟨c.txHash, block, state⟩))) := by
  obtain ⟨⟨v, hv⟩, keys, hkeys, htrace⟩ := hc
  obtain ⟨diff, raw, -, -, hdiff⟩ := Capture.accounts_of_ofValue hv
  have hk : ∀ e ∈ c.accounts.entries, Address.normalize e.1 = e.1 :=
    fun e he => normalize_of_mem_parseStateDiff hdiff he
  refine ⟨v, hv, ?_⟩
  rw [Capture.holdsDiff_iff hv]
  by_cases hm : w.address ∈ keys
  · obtain ⟨states, hstates⟩ := htrace hm
    have hchange : w.change? block c =
        .ok ((states.get? w.address).map fun state => ⟨c.txHash, block, state⟩) := by
      simp [change?, bind_eq_ok, liftM_eq_ok, hkeys, hm, hstates]
    obtain ⟨candidates, -, hlabels⟩ := bind_eq_ok.1 hstates
    by_cases ha : w.address ∈ c.accounts.keys
    · obtain ⟨a, ha'⟩ := Table.mem_keys.1 ha
      obtain ⟨state, -, -, -, hget⟩ := Label.get?_accounts hk hlabels ha'
      rw [hget] at hchange
      exact .inr ⟨ha, states, state, hstates, hget, hchange⟩
    · cases hget : states.get? w.address with
      | none =>
        rw [hget] at hchange
        exact .inl ⟨ha, hchange⟩
      | some state => exact absurd (hw ▸ Label.mem_keys_of_accounts hk hlabels hget) ha
  · refine .inl ⟨fun ha => hm (Capture.mem_touched hkeys ha hw), ?_⟩
    simp [change?, bind_eq_ok, liftM_eq_ok, pure_eq_ok, hkeys, hm]

theorem observe_change [Address.Rule] (captures : List Capture) (hw : ¬ w.isCancelled)
    (hc : w.change? block c = .ok (some change)) (ho : (l.onChange change s).outcome = .ok ()) :
    observe l block (c :: captures) w s =
      let seen := observe l block captures ((w.record change).heed (l.onChange change s))
        (l.onChange change s).state
      { seen with outcome := seen.outcome.map (change :: ·) } := by
  simp only [observe, hw, hc, ho]
  rfl

theorem observe_brings [Address.Rule] (hl : ∀ change s, (l.onChange change s).outcome = .ok ())
    (hw : Address.normalize w.address = w.address) {captures : List Capture}
    (hc : ∀ c ∈ captures, IsTraced w.tracer w.address c) (block : Value) (s : σ)
    (log : List Notice) :
    let seen := observe l.noting block captures w (s, log)
    ∃ new front back, seen.state.2 = log ++ new ∧ captures = front ++ back ∧
      Brings w.tracer w.address block front (Notice.changes new) ∧ Notice.faults new = [] ∧
      (back ≠ [] → seen.watcher.isCancelled) ∧ seen.outcome = .ok (Notice.changes new) := by
  induction captures generalizing w s log with
  | nil => exact ⟨[], [], [], (List.append_nil _).symm, rfl, .nil, rfl, by simp, rfl⟩
  | cons c captures ih =>
    obtain ⟨hfirst, hrest⟩ := List.forall_mem_cons.1 hc
    by_cases hcancelled : w.isCancelled
    · have hstop : observe l.noting block (c :: captures) w (s, log) = ⟨w, (s, log), .ok []⟩ := by
        simp [observe, hcancelled]
      rw [hstop]
      exact ⟨[], [], c :: captures, (List.append_nil _).symm, rfl, .nil, rfl,
        fun _ => hcancelled, rfl⟩
    · obtain ⟨v, hv, ⟨hno, hchange⟩ | ⟨hyes, states, state, hstates, hget, hchange⟩⟩ :=
        change?_cases block hw hfirst
      · obtain ⟨new, front, back, hlog, rfl, hbrings, hfaults, hback, ho⟩ :=
          ih hw hrest s log
        refine ⟨new, c :: front, back, ?_, rfl, .skip hv hno hbrings, hfaults, ?_, ?_⟩ <;>
          simpa [observe, hcancelled, hchange]
      · let change : StateChange := ⟨c.txHash, block, state⟩
        let reply := l.onChange change s
        -- The watcher behind the delivery is another one, but it follows the same address.
        have hf : Follows w ((w.record change).heed reply) := (Follows.refl w).record.heed
        obtain ⟨new, front, back, hlog, rfl, hbrings, hfaults, hback, ho⟩ :=
          ih (w := (w.record change).heed reply) (hf.address ▸ hw)
            (hf.address ▸ hf.tracer ▸ hrest) reply.state
            (log ++ (Notice.changed change).followed reply.cancels)
        rw [hf.address, hf.tracer] at hbrings
        have hstep := observe_change (l := l.noting) (s := (s, log)) (front ++ back) hcancelled
          hchange (hl change s)
        refine ⟨(Notice.changed change).followed reply.cancels ++ new, c :: front, back, ?_, rfl,
          ?_, ?_, ?_, ?_⟩
        · rw [hstep, ← List.append_assoc]
          exact hlog
        · rw [Notice.changes_append, Notice.changes_followed]
          exact .take hv hyes hstates hget hbrings
        · rw [Notice.faults_append, Notice.faults_followed, hfaults]
          rfl
        · rw [hstep]
          exact hback
        · rw [hstep, Notice.changes_append, Notice.changes_followed]
          exact congrArg (Except.map (change :: ·)) ho

/-- A listener that does not fail, and whose captures can be labeled. -/
structure IsSteady [Address.Rule] (l : Listener σ) (w : Watcher) : Prop where
  captures : ∀ block s captures, (l.captures block s).outcome = .ok captures →
    ∀ c ∈ captures, IsTraced w.tracer w.address c
  onChange : ∀ change s, (l.onChange change s).outcome = .ok ()
  onFailure : ∀ tell ∈ l.onFailure, ∀ fault s, (tell fault s).outcome = .ok ()

/-- What passes while a block is taken. Its captures are had, and those up to a cancellation bring
their changes; or they cannot be had, be it that none came or not all, and this is reported. -/
inductive Takes [Address.Rule] (l : Listener σ) (w : Watcher) (block : Value) (x x' : Session σ)
    (new : List Notice) : Prop
  | had {front back} : (l.captures block x.state).outcome = .ok (front ++ back) →
      Brings w.tracer w.address block front (Notice.changes new) → Notice.faults new = [] →
      (back ≠ [] → .cancelled ∈ new) → Takes l w block x x' new
  | missed {fault} : (l.captures block x.state).outcome = .error fault →
      Notice.changes new = [] →
      Notice.faults new = (if l.onFailure.isSome then [fault] else []) →
      x'.watcher.history = x.watcher.history → Takes l w block x x' new

theorem history_heed : (w.heed reply).history = w.history := by
  rw [heed]
  split <;> rfl

section OnBlock

theorem onBlock_of_isCancelled [Address.Rule] (h : w.isCancelled) :
    w.onBlock l block s = ⟨w, s, .ok []⟩ :=
  if_pos h

theorem onBlock_had [Address.Rule] (hw : ¬ w.isCancelled) {captures : List Capture}
    (h : (l.captures block s).outcome = .ok captures) : w.onBlock l block s =
      observe l block captures (w.heed (l.captures block s)) (l.captures block s).state := by
  simp [onBlock, hw, h]

theorem onBlock_unreported [Address.Rule] (hw : ¬ w.isCancelled) {fault : Fault}
    (h : (l.captures block s).outcome = .error fault) (hl : l.onFailure = none) :
    w.onBlock l block s =
      ⟨w.heed (l.captures block s), (l.captures block s).state, .ok []⟩ := by
  simp [onBlock, hw, h, hl]

theorem onBlock_reported [Address.Rule] (hw : ¬ w.isCancelled) {fault : Fault}
    (h : (l.captures block s).outcome = .error fault) {tell : Fault → σ → Reply σ Unit}
    (hl : l.onFailure = some tell) (ho : (tell fault (l.captures block s).state).outcome = .ok ()) :
    w.onBlock l block s =
      let told := tell fault (l.captures block s).state
      ⟨(w.heed (l.captures block s)).heed told, told.state, .ok []⟩ := by
  simp [onBlock, hw, h, hl, ho, Except.map]

end OnBlock

section Takes

variable {x : Session σ} {new : List Notice}

def TakesNext [Address.Rule] (l : Listener σ) (w : Watcher) (block : Value) (x : Session σ) :
    Prop :=
  let x' := x.call l (.onBlock block)
  ∃ new, x'.log = x.log ++ new ∧ Takes l w block x x' new ∧
    x.watcher.onBlock l block x.state = ⟨x'.watcher, x'.state, .ok (Notice.changes new)⟩

theorem takesNext_of_seen [Address.Rule] {seen : Watched (σ × List Notice) (List StateChange)}
    (h : x.watcher.onBlock l.noting block (x.state, x.log) = seen)
    (hlog : seen.state.2 = x.log ++ new) (hout : seen.outcome = .ok (Notice.changes new))
    (ht : Takes l w block x ⟨seen.watcher, seen.state.1, seen.state.2⟩ new) :
    TakesNext l w block x := by
  subst h
  refine ⟨new, hlog, ht, ?_⟩
  rw [onBlock_noting x.watcher block x.state x.log, hout]
  rfl

variable [Address.Rule] (hm : Matches w x.watcher x.log) (hl : IsSteady l w)
  (hc : ¬ x.watcher.isCancelled)

include hm hl hc

theorem takesNext_of_had (hw : Address.normalize w.address = w.address) {captures : List Capture}
    (ho : (l.captures block x.state).outcome = .ok captures) : TakesNext l w block x := by
  have hf : Follows w (x.watcher.heed (l.captures block x.state)) := hm.follows.heed
  have hseen := onBlock_had (l := l.noting) (s := (x.state, x.log)) hc ho
  obtain ⟨new, front, back, hlog, rfl, hbrings, hfaults, hback, hout⟩ :=
    observe_brings hl.onChange (hf.address ▸ hw)
      (hf.address ▸ hf.tracer ▸ hl.captures block x.state captures ho) block
      (l.captures block x.state).state
      (x.log ++ (Notice.asked block).followed (l.captures block x.state).cancels)
  rw [hf.address, hf.tracer] at hbrings
  rw [List.append_assoc] at hlog
  refine takesNext_of_seen hseen hlog ?_ (.had ho ?_ ?_ fun hne => ?_)
  · rw [Notice.changes_append, Notice.changes_followed]
    exact hout
  · rw [Notice.changes_append, Notice.changes_followed]
    exact hbrings
  · rw [Notice.faults_append, Notice.faults_followed, hfaults]
    rfl
  · have hend := hm.onBlock (l := l) block x.state
    rw [hseen] at hend
    have hmem := hend.cancelled.1 (hback hne)
    exact (List.mem_append.1 (hlog ▸ hmem)).resolve_left (hm.not_mem hc)

omit hm in
theorem takesNext_of_missed {fault : Fault}
    (ho : (l.captures block x.state).outcome = .error fault) : TakesNext l w block x := by
  cases ht : l.onFailure with
  | none =>
    have hnone : l.noting.onFailure = none := congrArg (Option.map _) ht
    refine takesNext_of_seen (onBlock_unreported (s := (x.state, x.log)) hc ho hnone) rfl ?_
      (.missed ho ?_ ?_ history_heed)
    · rw [Notice.changes_followed]
      rfl
    · exact Notice.changes_followed _ _
    · rw [ht]
      exact Notice.faults_followed _ _
  | some tell =>
    have hsome : l.noting.onFailure = some fun fault s =>
        (tell fault s.1).noting s.2 (.failed fault) := congrArg (Option.map _) ht
    have hquiet := hl.onFailure tell ht
    refine takesNext_of_seen (onBlock_reported (s := (x.state, x.log)) hc ho hsome (hquiet _ _))
      (List.append_assoc _ _ _) ?_ (.missed ho ?_ ?_ (history_heed.trans history_heed))
    · rw [Notice.changes_append, Notice.changes_followed, Notice.changes_followed]
      rfl
    · rw [Notice.changes_append, Notice.changes_followed, Notice.changes_followed]
      rfl
    · rw [Notice.faults_append, Notice.faults_followed, Notice.faults_followed, ht]
      rfl

end Takes

theorem new_cases {address : Value} {layout abi : Option Value} {bounds : Bounds} {capacity : Int}
    (h : new address layout abi bounds capacity = .ok w) :
    0 ≤ capacity ∧ Address.ofValue address = .ok w.address ∧ w.capacity = capacity.toNat ∧
      w.history = [] ∧ w.isCancelled = false := by
  rw [new] at h
  split at h
  · cases h
  · next hsign =>
    obtain ⟨key, hkey, h⟩ := bind_eq_ok.1 h
    obtain ⟨t, -, h⟩ := bind_eq_ok.1 h
    dsimp only at h
    split at h
    · cases h
    · cases pure_eq_ok.1 h
      exact ⟨Int.not_lt.1 hsign, liftM_eq_ok.1 hkey, rfl, rfl, rfl⟩

theorem matches_new {address : Value} {layout abi : Option Value} {bounds : Bounds}
    {capacity : Int} (h : new address layout abi bounds capacity = .ok w) : Matches w w [] := by
  obtain ⟨-, -, -, hhistory, hcancelled⟩ := new_cases h
  exact ⟨.refl w, ⟨[], hhistory.symm⟩, by simp [hhistory, Notice.changes], by simp [hcancelled],
    .nil⟩

/-- After any calls the history is the last changes that were delivered, and none was delivered
behind a cancellation. A cancelled watcher is left as it is by a block; any other takes it. -/
theorem run_delivers [Address.Rule] {address : Value} {layout abi : Option Value} {bounds : Bounds}
    {capacity : Int} (hw : new address layout abi bounds capacity = .ok w) (l : Listener σ) (s : σ)
    (calls : List Call) :
    let x := Session.run l ⟨w, s, []⟩ calls
    (∃ earlier, Notice.changes x.log = earlier ++ x.watcher.history) ∧
      (x.watcher.history.length : Int) = min capacity (Notice.changes x.log).length ∧
      (x.log.Pairwise fun a b => a = .cancelled → b.change? = none) ∧
      (.cancelled ∈ x.log → ∀ block, x.call l (.onBlock block) = x ∧
        x.watcher.onBlock l block x.state = ⟨x.watcher, x.state, .ok []⟩) ∧
      (.cancelled ∉ x.log → IsSteady l w → ∀ block, TakesNext l w block x) := by
  intro x
  have hm : Matches w x.watcher x.log := (matches_new hw).run calls
  obtain ⟨hsign, hkey, hcapacity, -, -⟩ := new_cases hw
  refine ⟨hm.history, ?_, hm.silent, fun hmem block => ?_, fun hmem hl block => ?_⟩
  · have hlength := hm.length
    rw [hm.follows.capacity, hcapacity] at hlength
    omega
  · have hc := hm.cancelled.2 hmem
    exact ⟨by simp [Session.call, onBlock_of_isCancelled hc], onBlock_of_isCancelled hc⟩
  · have hc : ¬ x.watcher.isCancelled := fun hc => hmem (hm.cancelled.1 hc)
    cases ho : (l.captures block x.state).outcome with
    | ok captures =>
      exact takesNext_of_had hm hl hc (Address.normalize_of_ofValue hkey) ho
    | error fault => exact takesNext_of_missed hl hc ho

section Beacon

local instance : Address.Rule := ⟨true⟩

def beaconCalls : List Value :=
  [("0x01", "0xC0"), ("0x02", "0xD0"), ("0x03", "c0")].map fun (hash, address) =>
    .object [("txHash", .text hash), ("stateDiff", .object [(address, Label.oneSlot "0x5")])]

def beacon : Listener Unit where
  captures block s :=
    ⟨s, false, match block with
      | .int 2 => .error .fetch
      | _ => beaconCalls.mapM Capture.ofValue⟩
  onChange change s :=
    ⟨s, match change.block with
      | .int 3 => true
      | _ => false, .ok ()⟩
  onFailure := some fun _ s => ⟨s, false, .ok ()⟩

def beaconWatcher : Watcher :=
  ⟨Address.normalize "0xC0", .new .standard, 2, [], false, by decide⟩

theorem new_beacon : new (.text "0xC0") none none .standard 2 = .ok beaconWatcher := rfl

theorem isSteady_beacon : IsSteady beacon beaconWatcher := by
  refine ⟨fun block s captures h c hc => ?_, fun _ _ => rfl, ?_⟩
  · have hread : beaconCalls.mapM Capture.ofValue = .ok captures := by
      unfold beacon at h
      dsimp only at h
      split at h
      · cases h
      · exact h
    obtain ⟨v, hv, hcapture⟩ := (mem_of_mapM hread).1 hc
    have htraced : ∀ v ∈ beaconCalls, (do
        let c ← Capture.ofValue v
        beaconWatcher.tracer.trace c []).toOption.map (fun _ => ()) = some () := by
      decide +kernel
    obtain ⟨states, hstates, -⟩ := exists_ok_of_toOption (htraced v hv)
    obtain ⟨c', hc', hstates⟩ := bind_eq_ok.1 hstates
    cases hcapture.symm.trans hc'
    obtain ⟨candidates, hcandidates, -⟩ := bind_eq_ok.1 hstates
    obtain ⟨keys, hkeys, -⟩ := bind_eq_ok.1 hcandidates
    exact ⟨⟨v, hcapture⟩, keys, liftM_eq_ok.1 hkeys, fun _ => ⟨states, hstates⟩⟩
  · rintro tell htell fault s
    cases htell
    rfl

def beaconSession (calls : List Call) : Session Unit :=
  Session.run beacon ⟨beaconWatcher, (), []⟩ calls

theorem beaconSession_snoc (calls : List Call) (call : Call) :
    beaconSession (calls ++ [call]) = (beaconSession calls).call beacon call :=
  List.foldl_append

theorem cancelled_beaconSession (calls : List Call) :
    (beaconSession calls).watcher.isCancelled ↔ .cancelled ∈ (beaconSession calls).log :=
  ((matches_new new_beacon).run calls).cancelled

def twoBlocks : List Call := [.onBlock (.int 1), .onBlock (.int 2)]

def threeBlocks : List Call := twoBlocks ++ [.onBlock (.int 3)]

theorem beaconSession_runs :
    (let x := beaconSession twoBlocks
      let y := x.call beacon (.onBlock (.int 3))
      (x.watcher.isCancelled, y.watcher.isCancelled, (Notice.changes y.log).length)) =
        (false, true, 3) := by
  decide +kernel

theorem run_delivers_beacon : new (.text "0xC0") none none .standard 2 = .ok beaconWatcher ∧
    (.cancelled ∉ (beaconSession twoBlocks).log ∧ IsSteady beacon beaconWatcher ∧
      TakesNext beacon beaconWatcher (.int 3) (beaconSession twoBlocks)) ∧
    let x := beaconSession threeBlocks
    (Notice.changes x.log).length = 3 ∧ (x.watcher.history.length : Int) = min 2 3 ∧
      Notice.cancelled ∈ x.log ∧ x.call beacon (.onBlock (.int 4)) = x := by
  obtain ⟨hopen, hcancelled, hcount⟩ :
      (beaconSession twoBlocks).watcher.isCancelled = false ∧
      (beaconSession threeBlocks).watcher.isCancelled = true ∧
      (Notice.changes (beaconSession threeBlocks).log).length = 3 := by
    have hruns := beaconSession_runs
    rw [threeBlocks, beaconSession_snoc]
    simpa using hruns
  have hopen : .cancelled ∉ (beaconSession twoBlocks).log := by
    rw [← cancelled_beaconSession, hopen]
    decide
  have hclosed := (cancelled_beaconSession threeBlocks).1 hcancelled
  obtain ⟨-, hlength, -, hleft, -⟩ := run_delivers new_beacon beacon () threeBlocks
  obtain ⟨-, -, -, -, htakes⟩ := run_delivers new_beacon beacon () twoBlocks
  refine ⟨new_beacon, ⟨hopen, isSteady_beacon, htakes hopen isSteady_beacon (.int 3)⟩, hcount, ?_,
    hclosed, (hleft hclosed (.int 4)).1⟩
  exact hlength.trans (congrArg (fun n : Nat => min (2 : Int) n) hcount)

end Beacon

end Watcher

end SlotLens

import SlotLens.Tracer.Call
import SlotLens.Proofs.Tracer

/-!
# What a tracer remembers

After any calls a tracer knows of each contract what was registered last, under whatever spelling of
its address. What it traces is what a capture is labeled with at once, given what is registered.
-/

namespace SlotLens

namespace Address

def spells (v : Value) (address : String) : Bool :=
  match ofValue v with
  | .ok key => key = normalize address
  | .error _ => false

end Address

theorem AddressMap.get?_insert_of_ofValue {β : Type} {m : AddressMap β} {given : Value}
    {key : String} (h : Address.ofValue given = .ok key) (v : β) (address : String) :
    (m.insert key v).get? address =
      (if Address.spells given address then some v else none).or (m.get? address) := by
  rw [get?_insert, Address.normalize_of_ofValue h, Address.spells, h]
  by_cases hk : key = Address.normalize address <;> simp [hk]

theorem getLast?_filterMap_cons {α β : Type} {f : α → Option β} {a : α} {items : List α}
    {other : Option β} : ((a :: items).filterMap f).getLast?.or other =
      (items.filterMap f).getLast?.or ((f a).or other) := by
  rw [List.filterMap_cons]
  cases f a with
  | none => rfl
  | some b =>
    rw [List.getLast?_cons]
    cases (items.filterMap f).getLast? <;> rfl

theorem Entries.getLast?_eq_find? {κ β : Type} [DecidableEq κ] {k : κ} {t : List (κ × β)}
    (h : (t.map Prod.fst).Nodup) :
    (t.filterMap fun e => if e.1 = k then some e.2 else none).getLast? = find? k t := by
  induction t with
  | nil => rfl
  | cons e t ih =>
    rw [List.map_cons, List.nodup_cons] at h
    rw [List.filterMap_cons, find?]
    by_cases he : e.1 = k
    · have hrest : t.filterMap (fun e => if e.1 = k then some e.2 else none) = [] := by
        refine List.filterMap_eq_nil_iff.2 fun e' he' => if_neg fun hk => ?_
        exact h.1 (List.mem_map.2 ⟨e', he', hk.trans he.symm⟩)
      simp [he, hrest]
    · simp only [if_neg he]
      exact ih h.2

namespace Tracer

variable {t t' : Tracer} {bounds : Bounds} {address : String} {call : Call} {calls : List Call}
  {layouts : List (Value × LayoutSource)} {abis : List (Value × Value)} {c : Capture}
  {lengths : List (Value × Lengths)}

section Spec

def Call.layout? (address : String) : Call → Option Layout
  | .registerLayout given source =>
    if Address.spells given address then source.read.toOption else none
  | _ => none

def Call.functions? (address : String) : Call → Option (List Value)
  | .registerAbi given abi =>
    if Address.spells given address then (functionsOf abi).toOption else none
  | _ => none

def lastLayout (address : String) (calls : List Call) : Option Layout :=
  (calls.filterMap (Call.layout? address)).getLast?

def lastFunctions (address : String) (calls : List Call) : Option (List Value) :=
  (calls.filterMap (Call.functions? address)).getLast?

def succeeded (log : List (Call × Except Fault Answer)) : List Call :=
  (log.filter (·.2.isOk)).map Prod.fst

end Spec

section Step

theorem run_registerLayout [Address.Rule] (given : Value) (source : LayoutSource) (t : Tracer) :
    (Call.registerLayout given source).run t =
      match Address.ofValue given, source.read with
      | .ok key, .ok layout =>
        (.ok (.layout layout), { t with layouts := t.layouts.insert key layout })
      | .error fault, _ => (.error (.shape fault), t)
      | .ok _, .error fault => (.error fault, t) := by
  simp only [Call.run, Call.perform]
  cases Address.ofValue given with
  | error fault => rfl
  | ok key => cases source.read <;> rfl

theorem run_registerAbi [Address.Rule] (given abi : Value) (t : Tracer) :
    (Call.registerAbi given abi).run t =
      match functionsOf abi, Address.ofValue given with
      | .ok functions, .ok key => (.ok .nothing, { t with abis := t.abis.insert key functions })
      | .error fault, _ => (.error (.shape fault), t)
      | .ok _, .error fault => (.error (.shape fault), t) := by
  simp only [Call.run, Call.perform]
  cases functionsOf abi with
  | error fault => rfl
  | ok functions => cases Address.ofValue given <;> rfl

theorem run_ask {α : Type} (ask : Tracer → Except Fault α) (answer : α → Answer) (t : Tracer) :
    (do
      let t ← get
      let a ← ofExcept (ask t)
      return answer a : Action Answer).run t = ((ask t).map answer, t) := by
  have hget : (do
      let t ← get
      let a ← ofExcept (ask t)
      return answer a : Action Answer).run t =
      (do
        let a ← ofExcept (ask t)
        return answer a : Action Answer).run t := rfl
  rw [hget]
  cases ask t <;> rfl

theorem run_trace [Address.Rule] (c : Capture) (lengths : List (Value × Lengths)) (t : Tracer) :
    (Call.trace c lengths).run t = ((t.trace c lengths).map .states, t) :=
  run_ask (fun t => t.trace c lengths) .states t

inductive Turns (t : Tracer) : Call → Tracer → Prop
  | layout {given source key layout} : Address.ofValue given = .ok key →
      source.read = .ok layout →
      Turns t (.registerLayout given source) { t with layouts := t.layouts.insert key layout }
  | abi {given abi key functions} : Address.ofValue given = .ok key →
      functionsOf abi = .ok functions →
      Turns t (.registerAbi given abi) { t with abis := t.abis.insert key functions }
  | trace {capture known} : Turns t (.trace capture known) t

/-- A call fails and leaves the tracer as it is, or it succeeds. -/
theorem run_cases [Address.Rule] (call : Call) (t : Tracer) :
    (∃ fault, call.run t = (.error fault, t)) ∨
    ∃ answer t', call.run t = (.ok answer, t') ∧ Turns t call t' := by
  cases call with
  | registerLayout given source =>
    rw [run_registerLayout]
    cases hkey : Address.ofValue given with
    | error fault => exact .inl ⟨_, rfl⟩
    | ok key =>
      cases hread : source.read with
      | error fault => exact .inl ⟨_, rfl⟩
      | ok layout => exact .inr ⟨_, _, rfl, .layout hkey hread⟩
  | registerAbi given abi =>
    rw [run_registerAbi]
    cases hfunctions : functionsOf abi with
    | error fault => exact .inl ⟨_, rfl⟩
    | ok functions =>
      cases hkey : Address.ofValue given with
      | error fault => exact .inl ⟨_, rfl⟩
      | ok key => exact .inr ⟨_, _, rfl, .abi hkey hfunctions⟩
  | trace c lengths =>
    rw [run_trace]
    cases t.trace c lengths with
    | error fault => exact .inl ⟨fault, rfl⟩
    | ok states => exact .inr ⟨_, t, rfl, .trace⟩

namespace Turns

theorem bounds_eq (h : Turns t call t') : t'.bounds = t.bounds := by cases h <;> rfl

theorem get?_layouts (h : Turns t call t') (address : String) :
    t'.layouts.get? address = (call.layout? address).or (t.layouts.get? address) := by
  cases h with
  | layout hkey hread =>
    rw [AddressMap.get?_insert_of_ofValue hkey, Call.layout?, hread]
    rfl
  | abi | trace => rfl

theorem get?_abis (h : Turns t call t') (address : String) :
    t'.abis.get? address = (call.functions? address).or (t.abis.get? address) := by
  cases h with
  | abi hkey hfunctions =>
    rw [AddressMap.get?_insert_of_ofValue hkey, Call.functions?, hfunctions]
    rfl
  | layout | trace => rfl

end Turns

def Call.isTrace : Call → Bool
  | .trace _ _ => true
  | _ => false

theorem isOk_run_eq [Address.Rule] (h : call.isTrace = false) (t t' : Tracer) :
    (call.run t).1.isOk = (call.run t').1.isOk := by
  cases call with
  | registerLayout given source =>
    rw [run_registerLayout, run_registerLayout]
    cases Address.ofValue given with
    | error fault => rfl
    | ok key => cases source.read <;> rfl
  | registerAbi given abi =>
    rw [run_registerAbi, run_registerAbi]
    cases functionsOf abi with
    | error fault => rfl
    | ok functions => cases Address.ofValue given <;> rfl
  | trace c lengths => cases h

theorem run_unchanged [Address.Rule] (h : call.isTrace ∨ ¬ (call.run t).1.isOk) :
    (call.run t).2 = t := by
  rcases h with h | h
  · cases call with
    | trace c lengths => rw [run_trace]
    | _ => cases h
  · rcases run_cases call t with ⟨fault, hrun⟩ | ⟨answer, t', hrun, -⟩
    · rw [hrun]
    · rw [hrun] at h
      exact absurd rfl h

end Step

section Run

theorem performAll_cons [Address.Rule] (call : Call) (calls : List Call) (t : Tracer) :
    performAll (call :: calls) t =
      ((call, (call.run t).1) :: (performAll calls (call.run t).2).1,
        (performAll calls (call.run t).2).2) := rfl

theorem succeeded_cons (call : Call) (answer : Except Fault Answer)
    (log : List (Call × Except Fault Answer)) :
    succeeded ((call, answer) :: log) =
      if answer.isOk then call :: succeeded log else succeeded log := by
  rw [succeeded, List.filter_cons]
  split <;> rfl

theorem performAll_registers [Address.Rule] (calls : List Call) (t : Tracer) :
    let done := performAll calls t
    done.2.bounds = t.bounds ∧
      (∀ address, done.2.layouts.get? address =
        (lastLayout address (succeeded done.1)).or (t.layouts.get? address)) ∧
      ∀ address, done.2.abis.get? address =
        (lastFunctions address (succeeded done.1)).or (t.abis.get? address) := by
  intro done
  induction calls generalizing t with
  | nil => exact ⟨rfl, fun _ => rfl, fun _ => rfl⟩
  | cons call calls ih =>
    have hdone : done = _ := performAll_cons call calls t
    rw [hdone, succeeded_cons]
    rcases run_cases call t with ⟨fault, hrun⟩ | ⟨answer, t', hrun, hturns⟩
    · rw [hrun]
      exact ih t
    · obtain ⟨hb, hl, ha⟩ := ih t'
      rw [hrun]
      refine ⟨hb.trans hturns.bounds_eq, fun address => ?_, fun address => ?_⟩
      · rw [hl, hturns.get?_layouts]
        exact getLast?_filterMap_cons.symm
      · rw [ha, hturns.get?_abis]
        exact getLast?_filterMap_cons.symm

theorem isOk_of_mem_succeeded [Address.Rule] (h : call ∈ succeeded (performAll calls t).1) :
    ∃ before, (call.run before).1.isOk := by
  induction calls generalizing t with
  | nil => cases h
  | cons first calls ih =>
    rw [performAll_cons, succeeded_cons] at h
    split at h
    · next hok =>
      rcases List.mem_cons.1 h with rfl | h
      · exact ⟨t, hok⟩
      · exact ih h
    · exact ih h

theorem exists_openWith [Address.Rule] (h : ∀ call ∈ calls, ∀ t, (call.run t).1.isOk) (t : Tracer) :
    ∃ t', openWith calls t = .ok t' := by
  induction calls generalizing t with
  | nil => exact ⟨t, rfl⟩
  | cons call calls ih =>
    obtain ⟨hcall, hrest⟩ := List.forall_mem_cons.1 h
    rw [openWith]
    rcases run_cases call t with ⟨fault, hrun⟩ | ⟨answer, t', hrun, -⟩
    · have hok := hcall t
      rw [hrun] at hok
      cases hok
    · rw [hrun]
      exact ih hrest t'

theorem performAll_of_openWith [Address.Rule] (h : openWith calls t = .ok t') :
    succeeded (performAll calls t).1 = calls ∧ (performAll calls t).2 = t' := by
  induction calls generalizing t with
  | nil =>
    cases h
    exact ⟨rfl, rfl⟩
  | cons call calls ih =>
    rw [openWith] at h
    rw [performAll_cons, succeeded_cons]
    rcases run_cases call t with ⟨fault, hrun⟩ | ⟨answer, t₁, hrun, -⟩
    · rw [hrun] at h
      cases h
    · rw [hrun] at h ⊢
      obtain ⟨hs, ht⟩ := ih h
      exact ⟨congrArg (call :: ·) hs, ht⟩

theorem performAll_append [Address.Rule] (calls others : List Call) (t : Tracer) :
    performAll (calls ++ others) t =
      ((performAll calls t).1 ++ (performAll others (performAll calls t).2).1,
        (performAll others (performAll calls t).2).2) := by
  induction calls generalizing t with
  | nil => rfl
  | cons call calls ih =>
    rw [List.cons_append, performAll_cons, performAll_cons, ih]
    rfl

theorem performAll_opened [Address.Rule] {opening : List Call} (h : openWith opening t = .ok t')
    (calls : List Call) :
    (performAll (opening ++ calls) t).2 = (performAll calls t').2 ∧
      succeeded (performAll (opening ++ calls) t).1 =
        opening ++ succeeded (performAll calls t').1 := by
  obtain ⟨hs, ht⟩ := performAll_of_openWith h
  rw [performAll_append, ht]
  refine ⟨rfl, ?_⟩
  rw [succeeded, List.filter_append, List.map_append, ← succeeded, hs]
  rfl

end Run

section Trace

theorem AddressMap.get?_normalize {β : Type} (m : AddressMap β) (address : String) :
    m.get? (Address.normalize address) = m.get? address := by
  rw [AddressMap.get?, Address.normalize_normalize, AddressMap.get?]

theorem abiFor_text (h : address ≠ "") :
    t.abiFor (.text address) = .ok ((t.abis.get? address).getD []) := by
  have hgiven : ¬ (Value.text address).isVacant := by simpa [Value.isVacant] using h
  rw [abiFor, if_neg hgiven]
  change Except.ok (t.abis.getD (Address.normalize address) []) = _
  rw [AddressMap.getD, AddressMap.get?_normalize]

theorem trace_congr [Address.Rule] (hb : t.bounds = t'.bounds)
    (hl : ∀ address, t.layoutFor address = t'.layoutFor address)
    (ha : ∀ address, address ≠ "" → t.abiFor (.text address) = t'.abiFor (.text address)) :
    t.trace c lengths = t'.trace c lengths := by
  have hlayouts : t.layouts.get? = t'.layouts.get? := funext hl
  have habi : t.abiFor c.recipient = t'.abiFor c.recipient := by
    by_cases hgiven : c.recipient.isVacant
    · rw [abiFor, abiFor, if_pos hgiven, if_pos hgiven]
    · by_cases htext : ∃ s, c.recipient = .text s
      · obtain ⟨s, hs⟩ := htext
        rw [hs] at hgiven ⊢
        refine ha s fun he => hgiven ?_
        rw [he]
        rfl
      · rw [abiFor, abiFor, if_neg hgiven, if_neg hgiven]
        cases hc : c.recipient <;> simp_all [Address.ofValue, Value.asText, Except.map]
  simp only [trace, candidates, habi, hb, Label.accounts, hlayouts]

end Trace

/-- Mappings give what is registered: under each address the last layout is the one that is known of
it, and so are the last functions. -/
structure Gives [Address.Rule] (layouts : List (Value × LayoutSource)) (abis : List (Value × Value))
    (t : Tracer) : Prop where
  opens : ∃ opened, openWith (contracts layouts abis) (new t.bounds) = .ok opened
  layout_eq : ∀ address, lastLayout address (contracts layouts abis) = t.layoutFor address
  functions_eq : ∀ address, address ≠ "" →
    .ok ((lastFunctions address (contracts layouts abis)).getD []) = t.abiFor (.text address)

theorem Gives.traceOnce_eq [Address.Rule] (h : Gives layouts abis t) :
    t.trace c lengths = traceOnce t.bounds layouts abis c lengths := by
  obtain ⟨opened, hopened⟩ := h.opens
  obtain ⟨hs, ht⟩ := performAll_of_openWith hopened
  obtain ⟨hb, hl, ha⟩ := performAll_registers (contracts layouts abis) (new t.bounds)
  rw [ht] at hb hl ha
  rw [hs] at hl ha
  rw [traceOnce, hopened]
  refine trace_congr hb.symm (fun address => ?_) fun address hgiven => ?_
  · have hnone : (new t.bounds).layouts.get? address = none := rfl
    rw [← h.layout_eq, layoutFor, hl, hnone, Option.or_none]
  · have hnone : (new t.bounds).abis.get? address = none := rfl
    rw [← h.functions_eq address hgiven, abiFor_text hgiven, ha, hnone, Option.or_none]

section Given

theorem lastLayout_contracts : lastLayout address (contracts layouts abis) =
    (layouts.filterMap fun e => (Call.registerLayout e.1 e.2).layout? address).getLast? := by
  have habis : (abis.map fun e => Call.registerAbi e.1 e.2).filterMap (Call.layout? address) = [] :=
    List.filterMap_eq_nil_iff.2 (List.forall_mem_map.2 fun _ _ => rfl)
  rw [lastLayout, contracts, List.filterMap_append, habis, List.append_nil, List.filterMap_map]
  rfl

theorem lastFunctions_contracts : lastFunctions address (contracts layouts abis) =
    (abis.filterMap fun e => (Call.registerAbi e.1 e.2).functions? address).getLast? := by
  have hlayouts : (layouts.map fun e => Call.registerLayout e.1 e.2).filterMap
      (Call.functions? address) = [] :=
    List.filterMap_eq_nil_iff.2 (List.forall_mem_map.2 fun _ _ => rfl)
  rw [lastFunctions, contracts, List.filterMap_append, hlayouts, List.nil_append,
    List.filterMap_map]
  rfl

def layoutsOf (calls : List Call) : List (Value × LayoutSource) :=
  calls.filterMap fun
    | .registerLayout given source => some (given, source)
    | _ => none

def abisOf (calls : List Call) : List (Value × Value) :=
  calls.filterMap fun
    | .registerAbi given abi => some (given, abi)
    | _ => none

theorem lastLayout_layoutsOf :
    lastLayout address (contracts (layoutsOf calls) (abisOf calls)) = lastLayout address calls := by
  rw [lastLayout_contracts, layoutsOf, List.filterMap_filterMap, lastLayout]
  refine congrArg List.getLast? (List.filterMap_congr fun call _ => ?_)
  cases call <;> rfl

theorem lastFunctions_abisOf : lastFunctions address (contracts (layoutsOf calls) (abisOf calls)) =
    lastFunctions address calls := by
  rw [lastFunctions_contracts, abisOf, List.filterMap_filterMap, lastFunctions]
  refine congrArg List.getLast? (List.filterMap_congr fun call _ => ?_)
  cases call <;> rfl

theorem mem_of_mem_contracts (h : call ∈ contracts (layoutsOf calls) (abisOf calls)) :
    call ∈ calls ∧ call.isTrace = false := by
  rcases List.mem_append.1 h with h | h
  · obtain ⟨e, he, rfl⟩ := List.mem_map.1 h
    obtain ⟨call, hcall, he⟩ := List.mem_filterMap.1 he
    cases call <;> cases he
    exact ⟨hcall, rfl⟩
  · obtain ⟨e, he, rfl⟩ := List.mem_map.1 h
    obtain ⟨call, hcall, he⟩ := List.mem_filterMap.1 he
    cases call <;> cases he
    exact ⟨hcall, rfl⟩

theorem gives_of_registered [Address.Rule]
    (hok : ∀ call ∈ calls, ∃ before, (call.run before).1.isOk)
    (hl : ∀ address, t.layoutFor address = lastLayout address calls)
    (hf : ∀ address, address ≠ "" →
      t.abiFor (.text address) = .ok ((lastFunctions address calls).getD [])) :
    Gives (layoutsOf calls) (abisOf calls) t := by
  refine ⟨exists_openWith (fun call hcall after => ?_) _, fun address => ?_,
    fun address hgiven => ?_⟩
  · obtain ⟨hcall, htrace⟩ := mem_of_mem_contracts hcall
    obtain ⟨before, hbefore⟩ := hok call hcall
    rwa [isOk_run_eq htrace after before]
  · rw [lastLayout_layoutsOf, hl]
  · rw [lastFunctions_abisOf, hf address hgiven]

def knownLayouts (t : Tracer) : List (Value × LayoutSource) :=
  t.layouts.entries.map fun e => (.text e.1, .parsed e.2)

def knownAbis (t : Tracer) : List (Value × Value) :=
  t.abis.entries.map fun e => (.text e.1, .list e.2)

/-- A tracer knows contracts by the key forms of their addresses, and of interfaces the functions
only. -/
structure IsTidy (t : Tracer) : Prop where
  layouts : ∀ e ∈ t.layouts.entries, Address.normalize e.1 = e.1
  abis : ∀ e ∈ t.abis.entries, Address.normalize e.1 = e.1 ∧ functionsOf (.list e.2) = .ok e.2

theorem functionsOf_functionsOf {abi : Value} {functions : List Value}
    (h : functionsOf abi = .ok functions) : functionsOf (.list functions) = .ok functions := by
  obtain ⟨fragments, -, h⟩ := bind_eq_ok.1 h
  exact filterM_filterM h

theorem IsTidy.turn (h : t.IsTidy) (hturns : Turns t call t') : t'.IsTidy := by
  cases hturns with
  | layout hkey hread =>
    refine ⟨fun e he => ?_, h.abis⟩
    rcases AddressMap.mem_entries_insert he with rfl | he
    · exact Address.normalize_normalize _
    · exact h.layouts e he
  | abi hkey hfunctions =>
    refine ⟨h.layouts, fun e he => ?_⟩
    rcases AddressMap.mem_entries_insert he with rfl | he
    · exact ⟨Address.normalize_normalize _, functionsOf_functionsOf hfunctions⟩
    · exact h.abis e he
  | trace => exact h

theorem IsTidy.run [Address.Rule] (h : t.IsTidy) (call : Call) : (call.run t).2.IsTidy := by
  rcases run_cases call t with ⟨fault, hrun⟩ | ⟨answer, t', hrun, hturns⟩
  · rw [hrun]
    exact h
  · rw [hrun]
    exact h.turn hturns

theorem IsTidy.performAll [Address.Rule] (h : t.IsTidy) (calls : List Call) :
    (performAll calls t).2.IsTidy := by
  induction calls generalizing t with
  | nil => exact h
  | cons call calls ih =>
    rw [performAll_cons]
    exact ih (h.run call)

theorem isTidy_new (bounds : Bounds) : (new bounds).IsTidy := ⟨nofun, nofun⟩

theorem spells_text {key : String} (h : Address.normalize key = key) :
    Address.spells (.text key) address = decide (key = Address.normalize address) := by
  have hkey : Address.ofValue (.text key) = .ok (Address.normalize key) := rfl
  rw [Address.spells, hkey, h]

theorem IsTidy.gives [Address.Rule] (h : t.IsTidy) : Gives t.knownLayouts t.knownAbis t := by
  refine ⟨exists_openWith (fun call hcall t' => ?_) _, fun address => ?_, fun address hgiven => ?_⟩
  · rcases List.mem_append.1 hcall with hcall | hcall
    · obtain ⟨given, hgiven, rfl⟩ := List.mem_map.1 hcall
      obtain ⟨e, -, rfl⟩ := List.mem_map.1 hgiven
      rw [run_registerLayout]
      rfl
    · obtain ⟨given, hgiven, rfl⟩ := List.mem_map.1 hcall
      obtain ⟨e, he, rfl⟩ := List.mem_map.1 hgiven
      rw [run_registerAbi, (h.abis e he).2]
      rfl
  · rw [lastLayout_contracts, knownLayouts, List.filterMap_map, layoutFor, AddressMap.get?,
      Table.get?, ← Entries.getLast?_eq_find? t.layouts.table.nodup]
    refine congrArg List.getLast? (List.filterMap_congr fun e he => ?_)
    simp [Call.layout?, spells_text (h.layouts e he), LayoutSource.read, Except.toOption]
  · rw [abiFor_text hgiven, lastFunctions_contracts, knownAbis, List.filterMap_map,
      AddressMap.get?, Table.get?, ← Entries.getLast?_eq_find? t.abis.table.nodup]
    refine congrArg (fun found : List (List Value) => Except.ok (found.getLast?.getD [])) ?_
    refine List.filterMap_congr fun e he => ?_
    simp [Call.functions?, spells_text (h.abis e he).1, (h.abis e he).2, Except.toOption]

end Given

section Open

theorem openWith_append [Address.Rule] (calls others : List Call) (t : Tracer) :
    openWith (calls ++ others) t = openWith calls t >>= openWith others := by
  induction calls generalizing t with
  | nil => rfl
  | cons call calls ih =>
    rw [List.cons_append, openWith, openWith]
    rcases run_cases call t with ⟨fault, hrun⟩ | ⟨answer, t', hrun, -⟩
    · rw [hrun]
      rfl
    · rw [hrun]
      exact ih t'

theorem openWith_registerLayout [Address.Rule] (given metadata : Value) (rest : List Call)
    (t : Tracer) :
    openWith (.registerLayout given (.metadata metadata) :: rest) t =
      t.registerLayout given metadata >>= openWith rest := by
  rw [openWith, run_registerLayout, registerLayout, LayoutSource.read]
  cases Address.ofValue given with
  | error fault => rfl
  | ok key => cases Metadata.layout metadata <;> rfl

theorem openWith_registerAbi [Address.Rule] (given abi : Value) (rest : List Call) (t : Tracer) :
    openWith (.registerAbi given abi :: rest) t = t.registerAbi given abi >>= openWith rest := by
  rw [openWith, run_registerAbi, registerAbi]
  cases functionsOf abi with
  | error fault => rfl
  | ok functions => cases Address.ofValue given <;> rfl

theorem ofContracts_eq [Address.Rule] (bounds : Bounds) (layouts abis : List (Value × Value)) :
    ofContracts bounds layouts abis =
      openWith (contracts (layouts.map fun e => (e.1, .metadata e.2)) abis) (new bounds) := by
  have hlayouts (t : Tracer) : openWith ((layouts.map fun e => (e.1, LayoutSource.metadata e.2)).map
      fun e => .registerLayout e.1 e.2) t =
      layouts.foldlM (fun t e => t.registerLayout e.1 e.2) t := by
    induction layouts generalizing t with
    | nil => rfl
    | cons e layouts ih =>
      rw [List.foldlM_cons, List.map_cons, List.map_cons, openWith_registerLayout]
      exact congrArg _ (funext ih)
  have habis (t : Tracer) : openWith (abis.map fun e => .registerAbi e.1 e.2) t =
      abis.foldlM (fun t e => t.registerAbi e.1 e.2) t := by
    induction abis generalizing t with
    | nil => rfl
    | cons e abis ih =>
      rw [List.foldlM_cons, List.map_cons, openWith_registerAbi]
      exact congrArg _ (funext ih)
  rw [contracts, openWith_append, hlayouts]
  exact congrArg _ (funext fun t => (habis t).symm)

end Open

/-- Behind any calls the last layout and the last interface that were registered for an address are
known, and no other. A capture is labeled as it is at once, given what is known. Nothing given has
no interface, and neither has the empty text, though it is registered as any other. -/
theorem performAll_remembers [Address.Rule] {opening : List (Value × LayoutSource)}
    {interfaces : List (Value × Value)} {start : Tracer}
    (h : openWith (contracts opening interfaces) (new bounds) = .ok start) (calls : List Call) :
    let done := performAll calls start
    let registered := contracts opening interfaces ++ succeeded done.1
    (∀ address, done.2.layoutFor address = lastLayout address registered) ∧
    (∀ address, address ≠ "" → done.2.abiFor (.text address) =
      .ok ((lastFunctions address registered).getD [])) ∧
    done.2.abiFor (.text "") = .ok [] ∧ done.2.abiFor .null = .ok [] ∧
    (∀ call : Call, call.isTrace ∨ ¬ (call.run done.2).1.isOk → (call.run done.2).2 = done.2) ∧
    Gives (layoutsOf registered) (abisOf registered) done.2 ∧
    Gives done.2.knownLayouts done.2.knownAbis done.2 ∧
    ∀ layouts abis, Gives layouts abis done.2 → ∀ c lengths,
      done.2.trace c lengths = traceOnce bounds layouts abis c lengths := by
  intro done registered
  obtain ⟨htracer, hregistered⟩ := performAll_opened h calls
  obtain ⟨hb, hl, ha⟩ := performAll_registers (contracts opening interfaces ++ calls) (new bounds)
  rw [htracer] at hb hl ha
  rw [hregistered] at hl ha
  have hlayout (address : String) : done.2.layoutFor address = lastLayout address registered :=
    (hl address).trans Option.or_none
  have hfunctions (address : String) (hgiven : address ≠ "") :
      done.2.abiFor (.text address) = .ok ((lastFunctions address registered).getD []) := by
    rw [abiFor_text hgiven, ha]
    exact congrArg (fun found : Option _ => Except.ok (found.getD [])) Option.or_none
  have htidy : done.2.IsTidy :=
    htracer ▸ (isTidy_new bounds).performAll (contracts opening interfaces ++ calls)
  have hok : ∀ call ∈ registered, ∃ before, (call.run before).1.isOk := by
    intro call hcall
    have hlog : call ∈ succeeded
        (performAll (contracts opening interfaces ++ calls) (new bounds)).1 := by
      rw [hregistered]
      exact hcall
    exact isOk_of_mem_succeeded hlog
  refine ⟨hlayout, hfunctions, rfl, rfl, fun call => run_unchanged,
    gives_of_registered hok hlayout hfunctions, htidy.gives,
    fun layouts abis hgives c lengths => ?_⟩
  rw [← (show done.2.bounds = bounds from hb)]
  exact hgives.traceOnce_eq

section Sample

local instance : Address.Rule := ⟨true⟩

def sampleFunction : Value := .object [("type", .text "function"), ("name", .text "f")]

def sampleEvent : Value := .object [("type", .text "event"), ("name", .text "e")]

def sampleLayout (label : String) : Layout :=
  ⟨[.primitive ⟨.text label, "t_uint256", .text "uint256", 0, 0, 32⟩]⟩

def sampleCalls : List Call := [
  .registerLayout (.text "0x00AB") (.parsed (sampleLayout "y")),
  .registerLayout (.text "ab") (.metadata .null),
  .registerAbi (.text " 0XaB") (.list [sampleFunction, sampleEvent]),
  .registerAbi (.int 171) (.list [])]

theorem performAll_remembers_sample : ∃ start,
    openWith (contracts [(.text "0xab", .parsed (sampleLayout "x"))] []) (new .standard) =
      .ok start ∧
    let done := performAll sampleCalls start
    done.1.map (·.2.isOk) = [true, false, true, false] ∧
    done.2.layoutFor "AB" = some (sampleLayout "y") ∧
    done.2.abiFor (.text "0xAb") = .ok [sampleFunction] ∧
    done.2.abiFor (.text "0xcd") = .ok [] ∧
    ∀ c lengths, done.2.trace c lengths =
      traceOnce .standard done.2.knownLayouts done.2.knownAbis c lengths := by
  obtain ⟨start, h⟩ : ∃ start, openWith (contracts [(.text "0xab", .parsed (sampleLayout "x"))] [])
      (new .standard) = .ok start := ⟨_, rfl⟩
  obtain ⟨hlayout, hfunctions, -, -, -, -, hknown, htrace⟩ := performAll_remembers h sampleCalls
  have hanswers : (performAll sampleCalls start).1.map (·.2.isOk) = [true, false, true, false] := by
    cases h
    rfl
  have hregistered : contracts [(.text "0xab", .parsed (sampleLayout "x"))] [] ++
      succeeded (performAll sampleCalls start).1 =
      [.registerLayout (.text "0xab") (.parsed (sampleLayout "x")),
        .registerLayout (.text "0x00AB") (.parsed (sampleLayout "y")),
        .registerAbi (.text " 0XaB") (.list [sampleFunction, sampleEvent])] := by
    cases h
    rfl
  rw [hregistered] at hlayout hfunctions
  exact ⟨start, h, hanswers, (hlayout _).trans rfl, (hfunctions _ (by decide)).trans rfl,
    (hfunctions _ (by decide)).trans rfl, htrace _ _ hknown⟩

/-- The empty text stands for the address zero when an interface is registered, and for nothing when
it is looked up. -/
theorem abiFor_empty_text :
    let done := performAll [.registerAbi (.text "") (.list [sampleFunction])] (new .standard)
    lastFunctions "" (succeeded done.1) = some [sampleFunction] ∧
      done.2.abiFor (.text "") = .ok [] ∧ done.2.abiFor (.text "0x") = .ok [sampleFunction] ∧
      done.2.abiFor (.text "") ≠ .ok ((lastFunctions "" (succeeded done.1)).getD []) :=
  ⟨rfl, rfl, rfl, nofun⟩

end Sample

end Tracer

end SlotLens

import SlotLens.Candidate.Gather
import SlotLens.Proofs.Abi.Fragment
import SlotLens.Proofs.Candidate.Argument
import SlotLens.Proofs.Field
import SlotLens.Proofs.Word

/-!
# Which candidates a call gives

The candidates of a call are those of its addresses, of its arguments and of its steps, ranked.
Nothing that is wrong with an argument, an item of a stack or malformed call data prevents that; but
call data that cannot be read does, and so does an argument that cannot be read.
-/

namespace SlotLens

namespace Word

theorem exists_ofBytes {bytes : List UInt8} (h : bytes.length ≤ size) :
    ∃ word, ofBytes bytes = .ok word := by
  rw [ofBytes, dif_pos h]
  exact ⟨_, rfl⟩

end Word

namespace Candidate

open Abi

def IsAddress : Value → Prop
  | .text s => (Hex.dropMark s.toList).length = 40 ∧ ∀ c ∈ Hex.dropMark s.toList, Hex.isDigit c
  | .bytes b => b.length = 20
  | _ => False

theorem exists_ofText {s : String} (h : IsAddress (.text s)) :
    ∃ word, Word.ofValue (.text s) = .ok word := by
  obtain ⟨hlength, hdigits⟩ := h
  have hne : Hex.dropMark s.toList ≠ [] := by
    intro hn
    rw [hn] at hlength
    cases hlength
  have htrim : Text.trim s.toList = s.toList := Hex.trim_of_digits hdigits hne
  obtain ⟨bytes, hread, hbytes⟩ := Hex.exists_read hdigits (by omega)
  have hsize : bytes.length ≤ Word.size := by
    rw [Word.size]
    omega
  obtain ⟨word, hword⟩ := Word.exists_ofBytes hsize
  refine ⟨word, bind_eq_ok.2 ⟨bytes, ?_, hword⟩⟩
  simp [Word.bytesOfText, Word.digitsOf, htrim, hlength, hread, Except.mapError]

theorem exists_checksum {address : Value} (h : IsAddress address) :
    ∃ text, Address.checksum address = .ok text := by
  match address, h with
  | .text s, h => exact Address.exists_ofDigits h.1 h.2
  | .bytes b, h =>
    have hb : ∀ c ∈ Hex.encode b, Hex.isDigit c := fun c hc => Hex.isDigit_of_mem_encode hc
    apply Address.exists_ofDigits
    · rw [Hex.dropMark_of_digits hb, Hex.length_encode, show b.length = 20 from h]
    · rwa [Hex.dropMark_of_digits hb]

theorem exists_ofAddress {address : Value} (h : IsAddress address) :
    ∃ c, ofAddress address = .ok c := by
  have hword : ∃ word, Word.ofValue address = .ok word := by
    match address, h with
    | .text s, h => exact exists_ofText h
    | .bytes b, h => exact Word.exists_ofBytes (by rw [show b.length = 20 from h]; decide)
  obtain ⟨word, hword⟩ := hword
  obtain ⟨text, htext⟩ := exists_checksum h
  refine ⟨⟨word.bytes, .text text, .text "address", .address⟩, ?_⟩
  rw [ofAddress, hword, htext]
  rfl

structure IsStep (step : Value) : Prop where
  op : ∃ name, step.lookup "op" = some (.text name)
  stack : ∃ items, step.lookup "stack" = some (.list items)

def ofItem? (item : Value) : Option Candidate :=
  (Word.ofValue item).toOption.map fun word => ⟨word.bytes, .null, .null, .stack⟩

def offeredStep (step : Value) : List Candidate :=
  match step.lookup "op", step.lookup "stack" with
  | some (.text name), some (.list items) =>
    if keyBearing.contains name then items.filterMap ofItem? else []
  | _, _ => []

theorem itemsOf_list {items : List Value} : itemsOf (.list items) = .ok items := by
  rw [itemsOf]
  split
  · next hv => rw [List.isEmpty_iff.1 (show items.isEmpty from hv)]
  · rfl

theorem ofStep_eq {step : Value} (h : IsStep step) : ofStep step = .ok (offeredStep step) := by
  obtain ⟨⟨name, hop⟩, items, hstack⟩ := h
  have hnull : step.memberOrNull "stack" = .ok (.list items) :=
    map_eq_ok.2 ⟨_, Value.member?_of_lookup hstack, rfl⟩
  rw [offeredStep, hop, hstack, ofStep, Value.member?_of_lookup hop, hnull]
  change (if keyBearing.contains name then itemsOf (.list items) >>= _ else _) = _
  rw [itemsOf_list]
  dsimp only
  split
  · refine congrArg Except.ok (List.filterMap_congr fun item _ => ?_)
    rw [ofItem?]
    cases Word.ofValue item <;> rfl
  · rfl

theorem ofSteps_eq {steps : List Value} (h : ∀ step ∈ steps, IsStep step) :
    ofSteps steps = .ok (steps.flatMap offeredStep) := by
  have hmap : steps.mapM ofStep = .ok (steps.map offeredStep) := by
    rw [mapM_eq_ok, List.forall₂_map_right_iff, List.forall₂_same]
    exact fun step hs => ofStep_eq (h step hs)
  rw [ofSteps, hmap]
  rfl

def saidArgument (argument : Value) : Option (String × Value) :=
  match argument.lookup "type", argument.lookup "value" with
  | some (.text type), some value => some (type, value)
  | _, _ => none

def AreArguments : Value → Prop
  | .null => True
  | .list items => ∀ item ∈ items, (saidArgument item).isSome
  | _ => False

/-- The arguments of a call: those that are given decoded, or else those of its data. -/
def argumentsFor (calldata : String) (abi : List Value) : Value → List (String × Value)
  | .list items => items.filterMap saidArgument
  | _ => callArguments calldata abi

/-- The arguments of a call can be found: those that are given can be read, or else the call data
can, which counts only if there is an interface. -/
def IsReadableUnder (calldata : String) (abi : List Value) : Value → Prop
  | .list items => ∀ a ∈ items.filterMap saidArgument, IsReadable a
  | _ => abi ≠ [] → IsReadableCall calldata abi

theorem givenArgument_eq {argument : Value} {a : String × Value}
    (h : saidArgument argument = some a) : givenArgument argument = .ok (.text a.1, a.2) := by
  rw [saidArgument] at h
  split at h
  · next type value ht hv =>
    cases h
    rw [givenArgument, Value.member_eq_ok.2 ht, Value.member_eq_ok.2 hv]
    rfl
  · cases h

theorem argumentsOf_list {calldata abi : Value} {items : List Value}
    (h : ∀ item ∈ items, (saidArgument item).isSome) : argumentsOf calldata abi (.list items) =
      .ok ((items.filterMap saidArgument).map fun a => (.text a.1, a.2)) := by
  change items.mapM (fun item => (liftM (givenArgument item) : Except Fault (Value × Value))) = _
  induction items with
  | nil => rfl
  | cons item rest ih =>
    obtain ⟨hitem, hrest⟩ := List.forall_mem_cons.1 h
    obtain ⟨a, ha⟩ := Option.isSome_iff_exists.1 hitem
    rw [List.mapM_cons, givenArgument_eq ha, ih hrest, List.filterMap_cons_some ha, List.map_cons]
    rfl

variable {addresses steps abi : List Value} {calldata : String} {args : Value}

theorem isReadable_of_callArguments (h : ∀ fragment ∈ abi, Fragment.WellFormed fragment) :
    ∀ a ∈ callArguments calldata abi, IsReadable a := by
  intro a ha
  rw [callArguments] at ha
  split at ha
  · split at ha
    · cases ha
    · obtain ⟨c, hc, hfits⟩ := exists_codec_of_selected h a ha
      exact isReadable_of_fits hc hfits
  · cases ha

theorem argumentsOf_call (h : ∀ fragment ∈ abi, Fragment.WellFormed fragment)
    {found : List (Value × Value)} : argumentsOf (.text calldata) (.list abi) .null = .ok found ↔
      (abi ≠ [] → IsReadableCall calldata abi) ∧
        found = (callArguments calldata abi).map fun a => (.text a.1, a.2) := by
  have hsteps : argumentsOf (.text calldata) (.list abi) .null =
      if calldata.isEmpty || abi.isEmpty then .ok []
      else (decodeCall (.text calldata) (.list abi)).map
        (List.map fun a => (Value.text a.1, a.2)) := by
    rw [argumentsOf]
    change (if calldata.isEmpty || abi.isEmpty then _ else _) = _
    split
    · rfl
    · cases decodeCall (.text calldata) (.list abi) <;> rfl
  rw [hsteps]
  split
  · next he =>
    rw [Bool.or_eq_true, String.isEmpty_iff, List.isEmpty_iff] at he
    rcases he with rfl | rfl
    · simp [callArguments_empty, isReadableCall_empty, eq_comm]
    · simp [callArguments_nil, eq_comm]
  · next he =>
    have hne : abi ≠ [] := by
      rintro rfl
      exact he (Bool.or_true _)
    simp only [map_eq_ok, decodeCall_eq_ok h]
    constructor
    · rintro ⟨_, ⟨hread, rfl⟩, rfl⟩
      exact ⟨fun _ => hread, rfl⟩
    · rintro ⟨hread, rfl⟩
      exact ⟨_, ⟨hread hne, rfl⟩, rfl⟩

theorem ofArguments_argumentsOf [Address.Rule] (h : ∀ fragment ∈ abi, Fragment.WellFormed fragment)
    (hargs : AreArguments args) {candidates : List Candidate} :
    (argumentsOf (.text calldata) (.list abi) args >>= ofArguments) = .ok candidates ↔
      IsReadableUnder calldata abi args ∧
        candidates = (argumentsFor calldata abi args).flatMap offered := by
  match args, hargs with
  | .null, _ =>
    simp only [bind_eq_ok, argumentsOf_call h]
    constructor
    · rintro ⟨_, ⟨hread, rfl⟩, hfound⟩
      exact ⟨hread, (ofArguments_eq_ok.1 hfound).2⟩
    · rintro ⟨hread, rfl⟩
      exact ⟨_, ⟨hread, rfl⟩, ofArguments_eq_ok.2 ⟨isReadable_of_callArguments h, rfl⟩⟩
  | .list items, hitems =>
    rw [argumentsOf_list hitems]
    exact ofArguments_eq_ok

variable (ha : ∀ address ∈ addresses, IsAddress address) (hs : ∀ step ∈ steps, IsStep step)

include ha hs

theorem exists_touched [Address.Rule] : ∃ touched,
    List.Forall₂ (fun address c => ofAddress address = .ok c) addresses touched ∧
      ∀ calldata abi args, gather addresses (.list steps) calldata abi args =
        (argumentsOf calldata abi args >>= ofArguments).map fun passed =>
          ranked (touched ++ passed ++ steps.flatMap offeredStep) := by
  obtain ⟨touched, htouched⟩ := exists_mapM.2 fun address hm => exists_ofAddress (ha address hm)
  refine ⟨touched, mapM_eq_ok.1 htouched, fun calldata abi args => ?_⟩
  rw [gather, ofAddresses, htouched, itemsOf_list]
  cases argumentsOf calldata abi args with
  | error fault => rfl
  | ok found =>
    change (ofArguments found >>= fun passed =>
      (ofSteps steps).mapError Fault.shape >>= fun found =>
        .ok (ranked (touched ++ passed ++ found))) = (ofArguments found).map _
    rw [ofSteps_eq hs]
    cases ofArguments found <;> rfl

variable (hf : ∀ fragment ∈ abi, Fragment.WellFormed fragment) (hargs : AreArguments args)

include hf hargs

/-- The candidates of a call are those of its addresses, of each argument and of each step, ranked;
they are found exactly where the arguments can be. -/
theorem gather_eq_ok [Address.Rule] : ∃ touched,
    List.Forall₂ (fun address c => ofAddress address = .ok c) addresses touched ∧
      ∀ candidates, gather addresses (.list steps) (.text calldata) (.list abi) args =
        .ok candidates ↔ IsReadableUnder calldata abi args ∧
          candidates = ranked (touched ++ (argumentsFor calldata abi args).flatMap offered ++
            steps.flatMap offeredStep) := by
  obtain ⟨touched, htouched, hgather⟩ := exists_touched ha hs
  refine ⟨touched, htouched, fun candidates => ?_⟩
  rw [hgather]
  simp only [map_eq_ok, ofArguments_argumentsOf hf hargs]
  constructor
  · rintro ⟨_, ⟨hread, rfl⟩, rfl⟩
    exact ⟨hread, rfl⟩
  · rintro ⟨hread, rfl⟩
    exact ⟨_, ⟨hread, rfl⟩, rfl⟩

omit ha hs hf hargs

section Transfer

local instance : Address.Rule := ⟨true⟩

def transfer : Value :=
  .object [("type", .text "function"), ("name", .text "transfer"), ("inputs", .list
    [.object [("type", .text "address")], .object [("type", .text "uint256")]])]

def holder : Value := .text "0x1111111111111111111111111111111111111111"

def load : Value := .object [("op", .text "SLOAD"), ("stack", .list [.text "0x2a", .null])]

theorem isAddress_holder : IsAddress holder := ⟨rfl, List.all_eq_true.1 rfl⟩

theorem isStep_load : IsStep load := ⟨⟨_, rfl⟩, _, rfl⟩

theorem wellFormed_transfer : Fragment.WellFormed transfer where
  kind := rfl
  name := ⟨"transfer", rfl, by simp⟩
  inputs := by
    have input {type : String} {c : Codec} (h : type.startsWith "tuple" = false)
        (hc : Codec.ofText type = .ok c) :
        Fragment.IsInput (.object [("type", .text type)]) := by
      refine ⟨⟨_, rfl⟩, type, c, ?_, hc⟩
      simp [Fragment.typeText, Entries.find?, h, pure, Except.pure]
    refine ⟨_, rfl, ?_⟩
    rw [List.forall_mem_cons, List.forall_mem_singleton]
    exact ⟨input (by simp) (c := .address) rfl, input (by simp) (c := .uint 32) rfl⟩

theorem gather_transfer : (∀ address ∈ [holder], IsAddress address) ∧ (∀ step ∈ [load], IsStep step) ∧
    (∀ fragment ∈ [transfer], Fragment.WellFormed fragment) ∧ AreArguments .null ∧ ∃ touched,
      List.Forall₂ (fun address c => ofAddress address = .ok c) [holder] touched ∧
        ∀ candidates,
          gather [holder] (.list [load]) (.text "0x1234") (.list [transfer]) .null =
            .ok candidates ↔ IsReadableUnder "0x1234" [transfer] .null ∧
              candidates = ranked (touched ++
                (argumentsFor "0x1234" [transfer] .null).flatMap offered ++
                  [load].flatMap offeredStep) := by
  have ha : ∀ address ∈ [holder], IsAddress address := by simpa using isAddress_holder
  have hs : ∀ step ∈ [load], IsStep step := by simpa using isStep_load
  have hf : ∀ fragment ∈ [transfer], Fragment.WellFormed fragment := by
    simpa using wellFormed_transfer
  have hargs : AreArguments .null := trivial
  exact ⟨ha, hs, hf, hargs, gather_eq_ok ha hs hf hargs⟩

/-- Call data that is not hexadecimal is not passed over. -/
theorem transfer_escapes :
    gather [holder] (.list []) (.text "0xzz112233") (.list [transfer]) .null =
      .error (.hex .badDigits) := by
  obtain ⟨c, hc⟩ := exists_ofAddress isAddress_holder
  rw [gather, ofAddresses, List.mapM_cons, hc]
  rfl

end Transfer

end Candidate

end SlotLens

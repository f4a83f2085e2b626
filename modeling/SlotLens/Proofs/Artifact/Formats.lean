import Mathlib
import SlotLens.Proofs.Artifact

/-!
# Layouts in all formats

Compilers and build tools write one layout in several ways: on its own, inside the artifact of a
contract, and among the contracts of a compilation, by files or all together, as a record or as a
text. It is read as the same layout from all of them, whatever else a compilation holds.
-/

namespace SlotLens

namespace Artifact

variable {name key : String}

theorem isSuffixOf_iff {ending : String} :
    ending.toList.isSuffixOf key.toList = true ↔ ∃ file, key = file ++ ending := by
  rw [List.isSuffixOf_iff_suffix]
  constructor
  · rintro ⟨file, h⟩
    exact ⟨String.ofList file, String.toList_inj.1 (by simp [h])⟩
  · rintro ⟨file, rfl⟩
    exact ⟨file.toList, by simp⟩

theorem isNamed_iff : isNamed (.text name) key = true ↔
    key = name ∨ ∃ file, key = file ++ ":" ++ name ∨ key = file ++ "/" ++ name := by
  simp only [isNamed, Value.same, Value.plain, List.any_cons, List.any_nil, Bool.or_eq_true,
    isSuffixOf_iff, beq_iff_eq, String.append_assoc, exists_or]
  simp [eq_comm]

def IsOther (name key : String) : Prop :=
  key ≠ name ∧ ∀ file, key ≠ file ++ ":" ++ name ∧ key ≠ file ++ "/" ++ name

theorem isNamed_eq_false_iff : isNamed (.text name) key = false ↔ IsOther name key := by
  rw [← Bool.not_eq_true, isNamed_iff, not_or, not_exists, IsOther]
  simp only [not_or, ne_eq]

structure IsOutput (v : Value) (entries : List (String × Value)) : Prop where
  storage : v.lookup "storage" = none
  types : v.lookup "types" = none
  layout : v.lookup "storageLayout" = none
  contracts : v.lookup "contracts" = some (.object entries)

/-- The documents in which a layout stands, by what is asked for: on its own and in the artifact of
one contract it stands for whatever is asked, in the output of a compiler for one with a name. -/
inductive Holds (layout : Value) : Value → Value → Prop
  | plain {chosen : Value} : Holds layout chosen layout
  | artifact {chosen v : Value} : ¬ ((v.lookup "storage").isSome ∧ (v.lookup "types").isSome) →
      v.lookup "storageLayout" = some layout → Holds layout chosen v
  /-- Among the contracts of its source file. -/
  | standard {v contract : Value} {file name : String}
      {before after front back : List (String × Value)} :
      IsOutput v (before ++ (file, .object (front ++ (name, contract) :: back)) :: after) →
      contract.lookup "storageLayout" = some layout → name ∉ layoutNames →
      (∀ c ∈ front ++ back, c.1 ∉ layoutNames ∧ c.2.isRecord ∧ IsOther name (file ++ ":" ++ c.1)) →
      (∀ e ∈ before ++ after, ∀ c ∈ contractsOf e.1 e.2, IsOther name c.1) →
      Holds layout (.text name) v
  /-- Among all contracts, as it is or as a text. -/
  | combined {v contract held : Value} {file name : String}
      {before after : List (String × Value)} :
      IsOutput v (before ++ (file ++ ":" ++ name, contract) :: after) →
      contract.lookup "storage-layout" = some held → contract.lookup "storageLayout" = none →
      (held = layout ∨ ∃ text, held = .text text ∧ Json.parse text = .ok layout) →
      (∀ e ∈ before ++ after, ∀ c ∈ contractsOf e.1 e.2, IsOther name c.1) →
      Holds layout (.text name) v

variable {v contract layout chosen : Value} {path file text : String}
  {entries front back : List (String × Value)}

theorem isRecord_of_lookup {found : Value} (h : v.lookup key = some found) : v.isRecord := by
  cases v with
  | object _ | keyed _ => rfl
  | _ => cases h

theorem contractsOf_sourceUnit (hname : name ∉ layoutNames) (hcontract : contract.isRecord)
    (hothers : ∀ c ∈ front ++ back, c.1 ∉ layoutNames ∧ c.2.isRecord) :
    contractsOf file (.object (front ++ (name, contract) :: back)) =
      front.map (fun c => (file ++ ":" ++ c.1, c.2)) ++ (file ++ ":" ++ name, contract) ::
        back.map (fun c => (file ++ ":" ++ c.1, c.2)) := by
  have hall : ∀ c ∈ front ++ (name, contract) :: back, c.1 ∉ layoutNames ∧ c.2.isRecord := by
    intro c hc
    rcases List.mem_append.1 hc with hc | hc
    · exact hothers c (List.mem_append_left _ hc)
    · rcases List.mem_cons.1 hc with rfl | hc
      · exact ⟨hname, hcontract⟩
      · exact hothers c (List.mem_append_right _ hc)
  have hunit : isSourceUnit (.object (front ++ (name, contract) :: back)) = true := by
    rw [isSourceUnit, Bool.and_eq_true, Bool.not_eq_true', List.any_eq_false, List.all_eq_true]
    · exact ⟨fun c hc => by simpa using (hall c hc).1, fun c hc => (hall c hc).2⟩
    · simp
  rw [contractsOf, if_pos hunit, List.map_append, List.map_cons]

theorem contractsOf_contract {held : Value} (h : contract.lookup "storage-layout" = some held) :
    contractsOf key contract = [(key, contract)] := by
  cases contract with
  | object members =>
    have hmem : ("storage-layout", held) ∈ members := Entries.mem_of_find? h
    have hunit : isSourceUnit (.object members) = false := by
      cases members with
      | nil => rfl
      | cons first rest =>
        have hany : (first :: rest).any (fun m => layoutNames.contains m.1) = true :=
          List.any_eq_true.2 ⟨_, hmem, List.contains_iff_mem.2 (.tail _ (.head _))⟩
        rw [isSourceUnit, hany]
        · rfl
        · simp
    rw [contractsOf, hunit]
    rfl
  | _ => rfl

theorem contract_of_flatMap
    (hflat : entries.flatMap (fun e => contractsOf e.1 e.2) = front ++ (key, contract) :: back)
    (hnamed : isNamed (.text name) key = true) (hothers : ∀ c ∈ front ++ back, IsOther name c.1) :
    Artifact.contract (.object entries) (.text name) = .ok contract := by
  have hfound := Entries.find?_ofList (v := contract) hnamed
    fun c hc => isNamed_eq_false_iff.2 (hothers c hc)
  have hcontracts : contracts (.object entries) =
      .ok (Entries.ofList (front ++ (key, contract) :: back)) := by
    rw [contracts, Value.members, ← hflat]
    rfl
  rw [Artifact.contract, hcontracts]
  dsimp only [liftM, monadLift, MonadLift.monadLift, Except.mapError, bind, Except.bind]
  simp only [Value.isNull, Bool.false_or, hfound]
  cases hhead : (Entries.ofList (front ++ (key, contract) :: back)).head? with
  | some first => rfl
  | none =>
    rw [List.head?_eq_none_iff] at hhead
    rw [hhead] at hfound
    cases hfound

theorem contract_of_entry {entry : Value} {before after : List (String × Value)}
    (hentry : contractsOf key entry = front ++ (file ++ ":" ++ name, contract) :: back)
    (hbeside : ∀ c ∈ front ++ back, IsOther name c.1)
    (hothers : ∀ e ∈ before ++ after, ∀ c ∈ contractsOf e.1 e.2, IsOther name c.1) :
    Artifact.contract (.object (before ++ (key, entry) :: after)) (.text name) = .ok contract := by
  have hflat : (before ++ (key, entry) :: after).flatMap (fun e => contractsOf e.1 e.2) =
      (before.flatMap (fun e => contractsOf e.1 e.2) ++ front) ++
        (file ++ ":" ++ name, contract) ::
          (back ++ after.flatMap fun e => contractsOf e.1 e.2) := by
    rw [List.flatMap_append, List.flatMap_cons, hentry]
    simp only [List.append_assoc, List.cons_append]
  refine contract_of_flatMap hflat (isNamed_iff.2 (.inr ⟨file, .inl rfl⟩)) fun c hc => ?_
  simp only [List.mem_append, List.mem_flatMap] at hc hbeside hothers
  rcases hc with (⟨e, he, hc⟩ | hc) | hc | ⟨e, he, hc⟩
  · exact hothers e (.inl he) c hc
  · exact hbeside c (.inl hc)
  · exact hbeside c (.inr hc)
  · exact hothers e (.inr he) c hc

theorem contractLayout_eq_ok (hc : Artifact.contract v chosen = .ok contract)
    (hcontract : contract.isRecord) (hunfold : unfold (layoutOf contract) = .ok layout)
    (hlayout : layout.isRecord) : contractLayout v chosen = .ok (some layout) := by
  rw [contractLayout, hc]
  refine bind_eq_ok.2 ⟨contract, rfl, ?_⟩
  rw [Value.memberOrNull_of_isRecord hcontract, Value.member?_of_isRecord hcontract]
  refine bind_eq_ok.2 ⟨_, rfl, bind_eq_ok.2 ⟨_, rfl, bind_eq_ok.2 ⟨layout, hunfold, ?_⟩⟩⟩
  rw [if_pos hlayout]
  rfl

theorem IsOutput.layout_eq_ok (h : IsOutput v entries) (hdoc : Json.parse text = .ok v)
    (hc : Artifact.contract (.object entries) chosen = .ok contract) (hcontract : contract.isRecord)
    (hunfold : unfold (layoutOf contract) = .ok layout) (hlayout : layout.isRecord) :
    Artifact.layout path chosen (some text) = .ok layout := by
  have hchosen := contractLayout_eq_ok hc hcontract hunfold hlayout
  refine bind_eq_ok.2 ⟨v, document_eq_ok.2 ⟨text, rfl, hdoc⟩, ?_⟩
  simp [isRecord_of_lookup h.contracts, h.storage, h.layout, h.contracts, hchosen, bind,
    Except.bind, pure, Except.pure]

theorem unfold_of_isRecord (h : v.isRecord) : unfold v = .ok v := by
  cases v with
  | text _ => cases h
  | _ => rfl

/-- A layout is read from every document that holds it. -/
theorem layout_of_holds (hstorage : (layout.lookup "storage").isSome)
    (htypes : (layout.lookup "types").isSome) (hdoc : Json.parse text = .ok v)
    (h : Holds layout chosen v) : Artifact.layout path chosen (some text) = .ok layout := by
  have hfile : document (some text) = .ok v := document_eq_ok.2 ⟨text, rfl, hdoc⟩
  have hlayout : layout.isRecord := by
    obtain ⟨found, hfound⟩ := Option.isSome_iff_exists.1 hstorage
    exact isRecord_of_lookup hfound
  cases h with
  | plain => exact layout_of_storage hfile hstorage htypes
  | artifact hnot hheld =>
    have hrecord : layout.asRecord = .ok layout := if_pos hlayout
    rw [← Bool.and_eq_true, Bool.not_eq_true] at hnot
    refine bind_eq_ok.2 ⟨v, hfile, ?_⟩
    simp only [isRecord_of_lookup hheld, hnot, hheld, hrecord]
    rfl
  | standard hout hheld hname hunit hothers =>
    have hcontract := isRecord_of_lookup hheld
    refine hout.layout_eq_ok hdoc (contract_of_entry (contractsOf_sourceUnit hname hcontract
      fun c hc => ⟨(hunit c hc).1, (hunit c hc).2.1⟩) ?_ hothers) hcontract ?_ hlayout
    · rw [← List.map_append]
      rintro _ hm
      obtain ⟨c, hc, rfl⟩ := List.mem_map.1 hm
      exact (hunit c hc).2.2
    · rw [layoutOf, hheld]
      exact unfold_of_isRecord hlayout
  | @combined _ contract _ file name _ _ hout hheld hnone hholds hothers =>
    have hentry : contractsOf (file ++ ":" ++ name) contract =
        [] ++ (file ++ ":" ++ name, contract) :: [] := contractsOf_contract hheld
    have hc := contract_of_entry hentry (fun c hc => absurd hc List.not_mem_nil) hothers
    refine hout.layout_eq_ok hdoc hc (isRecord_of_lookup hheld) ?_ hlayout
    rw [layoutOf, hnone, hheld]
    rcases hholds with rfl | ⟨text, rfl, htext⟩
    · exact unfold_of_isRecord hlayout
    · exact document_eq_ok.2 ⟨text, rfl, htext⟩

def tokenLayout : Value := .object [("storage", .list []), ("types", .object [])]

def tokenText : String :=
  "\x7b\"contracts\":\x7b\"Empty.sol\":\x7b\x7d,\"Token.sol\":\x7b\"Base\":\x7b\x7d,\"Token\":" ++
    "\x7b\"storageLayout\":\x7b\"storage\":[],\"types\":\x7b\x7d\x7d\x7d\x7d,\"Safe.sol:Safe\":" ++
    "\x7b\"storage-layout\":\"\"\x7d\x7d\x7d"

def tokenContract : Value := .object [("storageLayout", tokenLayout)]

def tokenOutput : Value :=
  .object [("contracts", .object [("Empty.sol", .object []),
    ("Token.sol", .object [("Base", .object []), ("Token", tokenContract)]),
    ("Safe.sol:Safe", .object [("storage-layout", .text "")])])]

theorem parse_tokenText : Json.parse tokenText = .ok tokenOutput := by cbv

theorem layout_of_holds_token :
    Artifact.layout "in.json" (.text "Token") (some tokenText) = .ok tokenLayout := by
  have hout : IsOutput tokenOutput ([("Empty.sol", .object [])] ++ ("Token.sol",
      .object ([("Base", .object [])] ++ ("Token", tokenContract) :: [])) ::
      [("Safe.sol:Safe", .object [("storage-layout", .text "")])]) := ⟨rfl, rfl, rfl, rfl⟩
  refine layout_of_holds (by decide) (by decide) parse_tokenText
    (.standard hout rfl (by decide) ?_ ?_)
  · intro c hc
    cases List.mem_singleton.1 hc
    exact ⟨by decide, rfl, isNamed_eq_false_iff.1 (by decide +kernel)⟩
  · intro e he c hc
    rcases List.mem_cons.1 he with rfl | he
    · cases List.mem_singleton.1 hc
      exact isNamed_eq_false_iff.1 (by decide +kernel)
    · cases List.mem_singleton.1 he
      cases List.mem_singleton.1 hc
      exact isNamed_eq_false_iff.1 (by decide +kernel)

def rivalText : String :=
  "\x7b\"contracts\":\x7b\"Token.sol:Token\":\x7b\"storage-layout\":\x7b\"storage\":[]," ++
    "\"types\":\x7b\x7d\x7d,\"storageLayout\":\x7b\"storage\":[],\"types\":null\x7d\x7d\x7d\x7d"

def rivalLayout : Value := .object [("storage", .list []), ("types", .null)]

def rivalContract : Value :=
  .object [("storage-layout", tokenLayout), ("storageLayout", rivalLayout)]

def rivalOutput : Value := .object [("contracts", .object [("Token.sol:Token", rivalContract)])]

theorem parse_rivalText : Json.parse rivalText = .ok rivalOutput := by cbv

/-- The layout of a contract among all others gives way to one under the other name. -/
theorem rival_gives_way : Json.parse rivalText = .ok rivalOutput ∧
    IsOutput rivalOutput [("Token.sol" ++ ":" ++ "Token", rivalContract)] ∧
    rivalContract.lookup "storage-layout" = some tokenLayout ∧
    (tokenLayout.lookup "storage").isSome ∧ (tokenLayout.lookup "types").isSome ∧
    Artifact.layout "in.json" (.text "Token") (some rivalText) = .ok rivalLayout ∧
    rivalLayout ≠ tokenLayout := by
  have hout : IsOutput rivalOutput ([] ++ ("Token.sol" ++ ":" ++ "Token", rivalContract) :: []) :=
    ⟨rfl, rfl, rfl, rfl⟩
  have hentry : contractsOf ("Token.sol" ++ ":" ++ "Token") rivalContract =
      [] ++ ("Token.sol" ++ ":" ++ "Token", rivalContract) :: [] := contractsOf_contract rfl
  have hc : Artifact.contract (.object ([] ++ ("Token.sol" ++ ":" ++ "Token", rivalContract) :: []))
      (.text "Token") = .ok rivalContract := contract_of_entry hentry (by simp) (by simp)
  exact ⟨parse_rivalText, hout, rfl, by decide, by decide,
    hout.layout_eq_ok parse_rivalText hc rfl rfl rfl, by simp [rivalLayout, tokenLayout]⟩

end Artifact

end SlotLens

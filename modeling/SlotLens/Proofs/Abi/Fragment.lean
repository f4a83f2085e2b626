import SlotLens.Abi.Fragment
import SlotLens.Proofs.Abi.Decode
import SlotLens.Proofs.Address
import SlotLens.Proofs.Value

namespace SlotLens

namespace Abi

namespace Ty

variable {c : Char} {r r' : Reading} {s : List Char}

theorem toNat_lt_of_isAlpha (h : c.isAlpha) : c.toNat < 128 :=
  Text.toNat_lt_of_isAlphanum (by simp [Char.isAlphanum, h])

theorem toNat_lt_of_digit {d : Nat} (h : digit? c = some d) : c.toNat < 128 := by
  rw [digit?] at h
  split at h
  · next hd => exact Text.toNat_lt_of_isAlphanum (by simp [Char.isAlphanum, hd])
  · cases h

theorem toNat_lt_of_leading {d : Nat} (h : leading? c = some d) : c.toNat < 128 :=
  toNat_lt_of_digit (Option.filter_eq_some_iff.1 h).1

theorem toNat_lt_of_close {stack : List (List Ty)} {t : Ty} (h : close stack t c = some r) :
    c.toNat < 128 := by
  unfold close at h
  split at h
  · next hc =>
    subst hc
    decide
  split at h
  · cases h
  split at h
  · next hc =>
    subst hc
    decide
  split at h
  · next hc =>
    subst hc
    decide
  · cases h

theorem toNat_lt_of_step (h : r.step c = some r') : c.toNat < 128 := by
  unfold Reading.step at h
  split at h
  case h_1 =>
    split at h
    · next hc =>
      subst hc
      decide
    split at h
    · next hc => exact toNat_lt_of_isAlpha hc
    · cases h
  case h_2 =>
    split at h
    · next hc => exact toNat_lt_of_isAlpha hc
    split at h
    · next hc => exact toNat_lt_of_leading hc
    · exact toNat_lt_of_close h
  case h_3 =>
    split at h
    · next hc =>
      subst hc
      decide
    split at h
    · next hc => exact toNat_lt_of_digit hc
    · exact toNat_lt_of_close h
  case h_4 =>
    obtain ⟨d, hd, -⟩ := Option.map_eq_some_iff.1 h
    exact toNat_lt_of_leading hd
  case h_5 =>
    split at h
    · next hc => exact toNat_lt_of_digit hc
    · exact toNat_lt_of_close h
  case h_6 => exact toNat_lt_of_close h
  case h_7 =>
    split at h
    · next hc =>
      subst hc
      decide
    split at h
    · obtain ⟨d, hd, -⟩ := Option.map_eq_some_iff.1 h
      exact toNat_lt_of_leading hd
    · obtain ⟨d, hd, -⟩ := Option.map_eq_some_iff.1 h
      exact toNat_lt_of_digit hd

theorem isAscii_of_steps (h : s.foldlM Reading.step r = some r') : Text.IsAscii s := by
  induction s generalizing r with
  | nil => simp
  | cons c rest ih =>
    rw [List.foldlM_cons] at h
    obtain ⟨next, hstep, h⟩ := Option.bind_eq_some_iff.1 h
    exact List.forall_mem_cons.2 ⟨toNat_lt_of_step hstep, ih h⟩

end Ty

theorem Codec.isAscii_of_ofText {text : String} {codec : Codec} (h : ofText text = .ok codec) :
    Text.IsAscii text.toList := by
  obtain ⟨t, ht, -⟩ := bind_eq_ok.1 h
  rw [Ty.ofText] at ht
  split at ht
  · cases ht
  split at ht
  · next hparse =>
    obtain ⟨r, hr, -⟩ := Option.bind_eq_some_iff.1 hparse
    exact Ty.isAscii_of_steps hr
  · cases ht

namespace Fragment

structure IsInput (item : Value) : Prop where
  isObject : ∃ fields, item = .object fields
  hasType : ∃ type c, typeText item = .ok type ∧ Codec.ofText type = .ok c

/-- A fragment that describes a function with a name and with inputs. -/
structure WellFormed (fragment : Value) : Prop where
  kind : fragment.lookup "type" = some (.text "function")
  name : ∃ name, fragment.lookup "name" = some (.text name) ∧ ∀ c ∈ name.toList, c.toNat < 128
  inputs : ∃ items, fragment.lookup "inputs" = some (.list items) ∧ ∀ item ∈ items, IsInput item

variable {fragment : Value} {items : List Value} {types : List String}

theorem exists_itemTexts (h : ∀ item ∈ items, IsInput item) :
    ∃ types codecs, itemTexts items = .ok types ∧
      items.mapM (fun item => item.asRecord >>= typeText) = .ok types ∧
      types.mapM Codec.ofText = .ok codecs := by
  induction items with
  | nil => exact ⟨[], [], by rw [itemTexts], rfl, rfl⟩
  | cons item rest ih =>
    obtain ⟨⟨⟨fields, rfl⟩, type, c, ht, hc⟩, hrest⟩ := List.forall_mem_cons.1 h
    obtain ⟨types, codecs, hitems, hrecords, hcodecs⟩ := ih hrest
    refine ⟨type :: types, c :: codecs, ?_, ?_, ?_⟩
    · rw [itemTexts]
      exact bind_eq_ok.2 ⟨type, ht, bind_eq_ok.2 ⟨types, hitems, rfl⟩⟩
    · rw [List.mapM_cons]
      exact bind_eq_ok.2 ⟨type, ht, bind_eq_ok.2 ⟨types, hrecords, rfl⟩⟩
    · rw [List.mapM_cons]
      exact bind_eq_ok.2 ⟨c, hc, bind_eq_ok.2 ⟨codecs, hcodecs, rfl⟩⟩

theorem exists_codec_of_zip {codecs : List Codec} {values : List Value}
    (h : types.mapM Codec.ofText = .ok codecs) (hv : Codec.AllFit codecs values) :
    ∀ a ∈ types.zip values, ∃ c, Codec.ofText a.1 = .ok c ∧ c.Fits a.2 := by
  replace h := mapM_eq_ok.1 h
  induction h generalizing values with
  | nil => simp
  | cons hc _ ih =>
    cases values with
    | nil => simp
    | cons value values =>
      rw [List.zip_cons_cons, List.forall_mem_cons]
      exact ⟨⟨_, hc, hv.1⟩, ih hv.2⟩

theorem isAscii_of_types {codecs : List Codec} (h : types.mapM Codec.ofText = .ok codecs) :
    Text.IsAscii (",".intercalate types).toList := by
  refine Text.isAscii_intercalate (by decide) fun type hm => ?_
  obtain ⟨codec, hcodec⟩ := exists_mapM.1 ⟨codecs, h⟩ type hm
  exact Codec.isAscii_of_ofText hcodec

namespace WellFormed

variable (h : WellFormed fragment)

include h

theorem exists_types : ∃ types codecs, inputTypes fragment = .ok types ∧
    decodedTypes fragment = .ok types ∧ types.mapM Codec.ofText = .ok codecs := by
  obtain ⟨items, hitems, hinput⟩ := h.inputs
  obtain ⟨types, codecs, htexts, hrecords, hcodecs⟩ := exists_itemTexts hinput
  have hinputs : Fragment.inputs fragment = .ok (.list items) :=
    bind_eq_ok.2 ⟨_, Value.member?_of_lookup hitems, rfl⟩
  refine ⟨types, codecs, bind_eq_ok.2 ⟨_, hinputs, ?_⟩, bind_eq_ok.2 ⟨_, hinputs, ?_⟩, hcodecs⟩
  · rwa [listTexts]
  · exact bind_eq_ok.2 ⟨items, rfl, hrecords⟩

theorem isFunction_eq : isFunction fragment = .ok true :=
  bind_eq_ok.2 ⟨_, Value.member?_of_lookup h.kind, rfl⟩

theorem exists_selector : ∃ bytes, selector fragment = .ok bytes := by
  obtain ⟨name, hname, hascii⟩ := h.name
  obtain ⟨types, codecs, htypes, -, hcodecs⟩ := h.exists_types
  obtain ⟨text, htext⟩ : ∃ text, text = name ++ "(" ++ ",".intercalate types ++ ")" := ⟨_, rfl⟩
  have hsignature : signature fragment =
      .ok (String.ofList (text.toList.filter (· ≠ ' '))) := by
    rw [htext]
    exact bind_eq_ok.2 ⟨_, Value.member_eq_ok.2 h.kind, bind_eq_ok.2
      ⟨_, Value.member?_of_lookup hname, bind_eq_ok.2 ⟨types, htypes, rfl⟩⟩⟩
  have hplain : Text.IsAscii text.toList := by
    rw [htext]
    simp only [String.toList_append, Text.isAscii_append]
    exact ⟨⟨⟨hascii, by decide⟩, isAscii_of_types hcodecs⟩, by decide⟩
  obtain ⟨bytes, hbytes⟩ :=
    Text.IsAscii.exists_utf8 (s := String.ofList (text.toList.filter (· ≠ ' '))) (by
      rw [String.toList_ofList]
      exact hplain.mono (List.filter_subset_self _))
  refine ⟨(Keccak.hash bytes).take 4, ?_⟩
  rw [selector, hsignature]
  refine bind_eq_ok.2 ⟨_, rfl, ?_⟩
  rw [hbytes]
  rfl

end WellFormed

def arguments (fragment : Value) (data : List UInt8) : Except AbiFault (List (String × Value)) :=
  match decodedTypes fragment with
  | .error _ => .ok []
  | .ok types => do
    let codecs ← types.mapM Codec.ofText
    let values ← Codec.decodeArguments data codecs
    return types.zip values

def selects (data : List UInt8) (fragment : Value) : Bool :=
  (selector fragment).toOption == some (data.take 4)

end Fragment

open Fragment

variable {data : List UInt8} {abi : List Value} {args : List (String × Value)}

def selectedArguments (data : List UInt8) (abi : List Value) : List (String × Value) :=
  ((abi.find? (selects data)).bind fun fragment =>
    (arguments fragment (data.drop 4)).toOption).getD []

theorem decodeTyped_eq_ok {fragment : Value} (h : WellFormed fragment) {types : List String}
    (ht : decodedTypes fragment = .ok types) : decodeTyped types data = .ok args ↔
      FailsOnly (· = .malformed) (arguments fragment data) ∧
        args = (arguments fragment data).toOption.getD [] := by
  obtain ⟨types', codecs, -, ht', hcodecs⟩ := h.exists_types
  cases ht.symm.trans ht'
  have hdata := @Codec.decodeArguments_failsOnly data codecs
  have hargs : arguments fragment data =
      (Codec.decodeArguments data codecs).map (types.zip ·) := by
    simp only [arguments, ht, hcodecs, bind, Except.bind]
    cases Codec.decodeArguments data codecs <;> rfl
  have htyped : (types.mapM Codec.ofText >>= Codec.decodeArguments data) =
      Codec.decodeArguments data codecs := by
    rw [hcodecs]
    rfl
  rw [hargs, decodeTyped, htyped, FailsOnly.map_iff]
  cases hv : Codec.decodeArguments data codecs with
  | ok values =>
    exact ⟨fun he => ⟨.ok values, (Except.ok.inj he).symm⟩, fun he => congrArg Except.ok he.2.symm⟩
  | error fault =>
    rw [FailsOnly.error_iff]
    rcases hdata.of_error fault hv with rfl | rfl | rfl
    · exact ⟨fun he => ⟨rfl, (Except.ok.inj he).symm⟩, fun he => congrArg Except.ok he.2.symm⟩
    · exact ⟨fun he => (nomatch he), fun he => (nomatch he.1)⟩
    · exact ⟨fun he => (nomatch he), fun he => (nomatch he.1)⟩

theorem selects_iff {fragment : Value} {bytes : List UInt8}
    (h : selector fragment = .ok bytes) : selects data fragment ↔ bytes = data.take 4 := by
  simp [selects, h, Except.toOption]

theorem decodeSelected_eq_ok (h : ∀ fragment ∈ abi, WellFormed fragment) :
    decodeSelected data abi = .ok args ↔
      (∀ fragment, abi.find? (selects data) = some fragment →
        FailsOnly (· = .malformed) (arguments fragment (data.drop 4))) ∧
      args = selectedArguments data abi := by
  induction abi with
  | nil => simp [decodeSelected, selectedArguments, eq_comm]
  | cons fragment rest ih =>
    obtain ⟨hf, hrest⟩ := List.forall_mem_cons.1 h
    obtain ⟨bytes, hbytes⟩ := hf.exists_selector
    obtain ⟨types, -, -, htypes, -⟩ := hf.exists_types
    have hstep : decodeSelected data (fragment :: rest) =
        if bytes = data.take 4 then (decodeTyped types (data.drop 4)).mapError .abi
        else decodeSelected data rest := by
      rw [decodeSelected, hf.isFunction_eq, hbytes, htypes]
      rfl
    rw [hstep, selectedArguments, List.find?_cons]
    split
    · next hs =>
      rw [(selects_iff hbytes).2 hs, mapError_eq_ok, decodeTyped_eq_ok hf htypes]
      simp
    · next hs =>
      rw [Bool.eq_false_iff.2 (mt (selects_iff hbytes).1 hs)]
      exact ih hrest

theorem exists_codec_of_selected (h : ∀ fragment ∈ abi, WellFormed fragment) :
    ∀ a ∈ selectedArguments data abi, ∃ c, Codec.ofText a.1 = .ok c ∧ c.Fits a.2 := by
  cases hfind : abi.find? (selects data) with
  | none => simp [selectedArguments, hfind]
  | some fragment =>
    obtain ⟨types, codecs, -, htypes, hcodecs⟩ :=
      (h fragment (List.mem_of_find?_eq_some hfind)).exists_types
    cases hv : Codec.decodeArguments (data.drop 4) codecs with
    | error fault =>
      simp [selectedArguments, hfind, arguments, htypes, hcodecs, hv, bind, Except.bind,
        Except.toOption]
    | ok values =>
      have hargs : selectedArguments data abi = types.zip values := by
        simp [selectedArguments, hfind, arguments, htypes, hcodecs, hv, bind, Except.bind, pure,
          Except.pure, Except.toOption]
      rw [hargs]
      exact exists_codec_of_zip hcodecs (Codec.decodeArguments_fit hv)

def callArguments (calldata : String) (abi : List Value) : List (String × Value) :=
  match Hex.read calldata.toList with
  | .ok data => if data.length < 4 then [] else selectedArguments data abi
  | .error _ => []

/-- Call data that can be read: it is hexadecimal, and the function that it selects can only find
it malformed. -/
structure IsReadableCall (calldata : String) (abi : List Value) : Prop where
  isHex : (Hex.read calldata.toList).isOk
  decodes : ∀ data fragment, Hex.read calldata.toList = .ok data → 4 ≤ data.length →
    abi.find? (selects data) = some fragment →
      FailsOnly (· = .malformed) (arguments fragment (data.drop 4))

theorem callArguments_nil {calldata : String} : callArguments calldata [] = [] := by
  rw [callArguments]
  split
  · split <;> rfl
  · rfl

theorem callArguments_empty : callArguments "" abi = [] := rfl

theorem isReadableCall_empty : IsReadableCall "" abi := by
  refine ⟨rfl, fun data fragment hd hl => ?_⟩
  cases hd
  cases hl

theorem callBytes_text {s : String} : callBytes (.text s) = (Hex.read s.toList).mapError .hex := by
  rw [callBytes]
  split
  · next hv =>
    rw [String.isEmpty_iff.1 (show s.isEmpty from hv)]
    rfl
  · rfl

theorem decodeCall_eq_ok {calldata : String} (h : ∀ fragment ∈ abi, WellFormed fragment) :
    decodeCall (.text calldata) (.list abi) = .ok args ↔
      IsReadableCall calldata abi ∧ args = callArguments calldata abi := by
  rw [decodeCall, callBytes_text, callArguments]
  cases hread : Hex.read calldata.toList with
  | error fault =>
    refine ⟨fun he => (nomatch he), fun he => ?_⟩
    have hok := he.1.isHex
    rw [hread] at hok
    cases hok
  | ok data =>
    have hiff : IsReadableCall calldata abi ↔ (4 ≤ data.length → ∀ fragment,
        abi.find? (selects data) = some fragment →
          FailsOnly (· = .malformed) (arguments fragment (data.drop 4))) := by
      constructor
      · exact fun hc hl fragment => hc.decodes data fragment hread hl
      · refine fun hc => ⟨by rw [hread]; rfl, fun data' fragment hd hl => ?_⟩
        cases hread.symm.trans hd
        exact hc hl fragment
    change (if data.length < 4 then Except.ok [] else decodeSelected data abi) = _ ↔ _
    rw [hiff]
    dsimp only
    split
    · next hl => simp [Nat.not_le.2 hl, eq_comm]
    · next hl =>
      rw [decodeSelected_eq_ok h]
      simp [Nat.not_lt.1 hl]

end Abi

end SlotLens

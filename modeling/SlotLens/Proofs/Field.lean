import SlotLens.Field
import SlotLens.Proofs.Hex
import SlotLens.Proofs.Outcome

namespace SlotLens

theorem drop_take_eq_iff {α : Type} {xs ys : List α} {start stop : Nat} :
    (xs.take stop).drop start = (ys.take stop).drop start ↔
      ∀ i, start ≤ i → i < stop → xs[i]? = ys[i]? := by
  constructor
  · intro h i hstart hstop
    have hi := congrArg (·[i - start]?) h
    simp only [List.getElem?_drop, List.getElem?_take] at hi
    rwa [Nat.add_sub_cancel' hstart, if_pos hstop, if_pos hstop] at hi
  · intro h
    refine List.ext_getElem? fun i => ?_
    simp only [List.getElem?_drop, List.getElem?_take]
    split
    · next hstop => exact h _ (Nat.le_add_right start i) hstop
    · rfl

namespace Address

theorem exists_ofDigits {s : List Char} (hlength : (Hex.dropMark s).length = 40)
    (hdigits : ∀ c ∈ Hex.dropMark s, Hex.isDigit c) :
    ∃ text, checksum.ofDigits (digits? s) = .ok text := by
  rw [digits?, if_pos ⟨hlength, List.all_eq_true.2 hdigits⟩]
  exact ⟨_, rfl⟩

theorem exists_checksum {bytes : List UInt8} (h : bytes.length = 20) :
    ∃ text, checksum (.text (Hex.text bytes)) = .ok text := by
  apply exists_ofDigits
  · rw [Hex.dropMark_text, Hex.length_encode, h]
  · rw [Hex.dropMark_text]
    exact fun c hc => Hex.isDigit_of_mem_encode hc

end Address

namespace Abi

def wordTypes : List String :=
  ["address", "bool"] ++ (List.range 32).flatMap fun i =>
    ["uint" ++ toString (8 * (i + 1)), "int" ++ toString (8 * (i + 1)), "bytes" ++ toString (i + 1)]

namespace Codec

def isWord : Codec → Bool
  | .uint _ | .int _ | .bool | .address | .fixedBytes _ => true
  | _ => false

def isAddress : Codec → Bool
  | .address => true
  | _ => false

variable {c : Codec} {word : List UInt8}

theorem ofText_wordType {t : String} (ht : t ∈ wordTypes) :
    ∃ c, ofText t = .ok c ∧ c.isWord ∧ (t = "address" → c.isAddress) := by
  have hall : wordTypes.all (fun t => (ofText t).toOption.any fun c =>
      c.isWord && (t != "address" || c.isAddress)) = true := by
    decide +kernel
  have h := List.all_eq_true.1 hall t ht
  cases hc : ofText t with
  | error fault =>
    rw [hc] at h
    cases h
  | ok c =>
    rw [hc] at h
    simp only [Except.toOption, Option.any_some, Bool.and_eq_true, Bool.or_eq_true, bne_iff_ne] at h
    exact ⟨c, rfl, h.1, fun he => h.2.resolve_left (not_not.2 he)⟩

/-- A value was decoded, or the data is no encoding of one. -/
def Settles {α : Type} (x : Except AbiFault α) : Prop := (∃ v, x = .ok v) ∨ x = .error .malformed

theorem Settles.map {α β : Type} {x : Except AbiFault α} {f : α → β} (h : Settles x) :
    Settles (x.map f) := by
  rcases h with ⟨v, rfl⟩ | rfl
  · exact .inl ⟨_, rfl⟩
  · exact .inr rfl

theorem settles_behind {fill : UInt8} {size : Nat} : Settles (behind fill size word) := by
  rw [behind]
  split
  · exact .inl ⟨_, rfl⟩
  · exact .inr rfl

theorem settles_decodeSigned {size : Nat} : Settles (decodeSigned size word) := by
  unfold decodeSigned
  dsimp only
  split <;> exact settles_behind.map

theorem readWord_of_length (hl : word.length = 32) : readWord word 0 = .ok word := by
  have htake : (word.drop 0).take 32 = word := List.take_of_length_le (Nat.le_of_eq hl)
  simp only [readWord, htake, hl, if_true]

theorem settles_decode (hc : c.isWord) (hl : word.length = 32) : Settles (c.decode word 0) := by
  cases c with
  | uint size =>
    rw [decode, readWord_of_length hl]
    exact settles_behind.map
  | int size =>
    rw [decode, readWord_of_length hl]
    exact settles_decodeSigned.map
  | bool =>
    rw [decode, readWord_of_length hl]
    change Settles (decodeBool word)
    rw [decodeBool]
    split
    · exact .inl ⟨_, rfl⟩
    · exact .inl ⟨_, rfl⟩
    · exact .inr rfl
  | address =>
    rw [decode, readWord_of_length hl]
    exact settles_behind.map
  | fixedBytes size =>
    rw [decode, readWord_of_length hl]
    change Settles (decodeFixedBytes size word)
    rw [decodeFixedBytes]
    split
    · exact .inl ⟨_, rfl⟩
    · exact .inr rfl
  | ufixed | fixed | bytes | string | tuple | array => cases hc

theorem isDynamic_of_isWord (hc : c.isWord) : c.isDynamic = false := by
  cases c <;> first | rfl | cases hc

theorem decodeArgument_eq (hd : c.isDynamic = false) :
    c.decodeArgument word = c.decode word 0 := by
  simp only [decodeArgument, decodeArguments, decodeHeads, hd]
  cases c.decode word 0 with
  | error fault => rfl
  | ok v => rfl

theorem bytes_of_decode_address {v : Value} (hl : word.length = 32)
    (h : Codec.address.decode word 0 = .ok v) :
    ∃ bytes : List UInt8, bytes.length = 20 ∧ v = .text (Hex.text bytes) := by
  rw [decode, readWord_of_length hl] at h
  obtain ⟨bytes, hb, rfl⟩ := map_eq_ok.1 h
  refine ⟨bytes, ?_, rfl⟩
  rw [behind] at hb
  split at hb
  · cases hb
    rw [List.length_drop, hl]
  · cases hb

end Codec

end Abi

namespace Field

variable {abiType : String} {label keyType : Value} {word field : List UInt8} {offset size : Int}

theorem exists_present {v : Value} (h : abiType ≠ "address") :
    ∃ shown, present abiType v = .ok shown := by
  cases v <;> exact ⟨_, if_neg h⟩

theorem exists_decodeWord (ht : abiType ∈ Abi.wordTypes) (hl : word.length = 32) :
    ∃ v, decodeWord abiType word = .ok v := by
  obtain ⟨c, hc, hword, haddress⟩ := Abi.Codec.ofText_wordType ht
  have hdecode := @Abi.Codec.decodeArgument_eq c word (Abi.Codec.isDynamic_of_isWord hword)
  rw [decodeWord, hc]
  rcases Abi.Codec.settles_decode hword hl with ⟨v, hv⟩ | hv
  · obtain ⟨shown, hshown⟩ : ∃ shown, present abiType v = .ok shown := by
      by_cases ha : abiType = "address"
      · cases c with
        | address =>
          obtain ⟨bytes, hb, rfl⟩ := Abi.Codec.bytes_of_decode_address hl hv
          obtain ⟨text, htext⟩ := Address.exists_checksum hb
          exact ⟨.text text, (if_pos ha).trans (map_eq_ok.2 ⟨text, htext, rfl⟩)⟩
        | _ => cases haddress ha
      · exact exists_present ha
    refine ⟨some shown, bind_eq_ok.2 ⟨c, rfl, ?_⟩⟩
    rw [hdecode, hv]
    exact bind_eq_ok.2 ⟨shown, hshown, rfl⟩
  · refine ⟨none, bind_eq_ok.2 ⟨c, rfl, ?_⟩⟩
    rw [hdecode, hv]
    rfl

/-- A type label that a field or a key can be decoded by: it names no type of one word, or one that
there is. -/
def IsDecodable (label : Value) (size : Option Int) : Prop :=
  ∃ text, label = .text text ∧ ∀ t ∈ abiType? text size, t ∈ Abi.wordTypes

theorem length_toWord (hl : field.length ≤ 32) : (toWord abiType field).length = 32 := by
  rw [toWord]
  split
  · exact BigEndian.length_padRight hl _
  · split <;> exact BigEndian.length_padLeft hl _

theorem exists_decode (hd : IsDecodable label (some field.length)) (hl : field.length ≤ 32) :
    ∃ v, decode label field = .ok v := by
  obtain ⟨text, rfl, ht⟩ := hd
  rw [decode]
  cases ha : abiType? text (some field.length) with
  | none => exact ⟨.null, bind_eq_ok.2 ⟨text, rfl, by rw [ha]; rfl⟩⟩
  | some t =>
    obtain ⟨v, hv⟩ := exists_decodeWord (ht t ha) (length_toWord hl)
    refine ⟨v.getD .null, bind_eq_ok.2 ⟨text, rfl, ?_⟩⟩
    rw [ha]
    exact map_eq_ok.2 ⟨v, hv, rfl⟩

theorem exists_decodeKey (hd : keyType = .null ∨ IsDecodable keyType none) (raw : List UInt8) :
    ∃ v, decodeKey keyType raw = .ok v := by
  unfold decodeKey
  split
  · exact ⟨_, rfl⟩
  · exact ⟨_, rfl⟩
  · exact ⟨_, rfl⟩
  · next hnull _ _ =>
    obtain ⟨text, rfl, ht⟩ := hd.resolve_left hnull
    split
    · exact ⟨_, rfl⟩
    · next hl =>
      cases ha : abiType? text none with
      | none => exact ⟨_, bind_eq_ok.2 ⟨text, rfl, by rw [ha]; rfl⟩⟩
      | some t =>
        obtain ⟨v, hv⟩ := exists_decodeWord (ht t ha) (not_not.1 hl)
        refine ⟨v.getD (.text (Hex.text raw)), bind_eq_ok.2 ⟨text, rfl, ?_⟩⟩
        rw [ha]
        exact map_eq_ok.2 ⟨v, hv, rfl⟩

theorem extract_cases
    (h : extract word offset size = .ok field) :
    0 ≤ offset ∧ 0 < size ∧ offset + size ≤ 32 ∧
      field = (word.take (32 - offset.toNat)).drop (32 - offset.toNat - size.toNat) := by
  rw [extract] at h
  split at h
  · next hr =>
    cases h
    exact ⟨hr.1, hr.2.1, hr.2.2, rfl⟩
  · cases h

theorem exists_extract (hw : word.length = 32) (ho : 0 ≤ offset) (hs : 0 < size)
    (hstop : offset + size ≤ 32) :
    ∃ field, extract word offset size = .ok field ∧ (field.length : Int) = size := by
  rw [extract, if_pos ⟨ho, hs, hstop⟩]
  refine ⟨_, rfl, ?_⟩
  rw [List.length_drop, List.length_take, hw]
  omega

end Field

end SlotLens

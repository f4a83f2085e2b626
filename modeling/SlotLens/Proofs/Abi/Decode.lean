import SlotLens.Abi.Decode
import SlotLens.Proofs.Outcome

namespace SlotLens

def AbiFault.OfData (fault : AbiFault) : Prop :=
  fault = .malformed ∨ fault = .tooLong ∨ fault = .notUtf8

theorem AbiFault.OfData.malformed : AbiFault.malformed.OfData := .inl rfl

namespace Abi

variable {data word : List UInt8} {start stop pos size : Nat}

theorem readWord_failsOnly : FailsOnly AbiFault.OfData (readWord data pos) := by
  unfold readWord
  dsimp only
  split
  · exact .ok _
  · exact .error .malformed

theorem readNat_failsOnly : FailsOnly AbiFault.OfData (readNat data pos) := readWord_failsOnly.map

theorem readPointer_failsOnly : FailsOnly AbiFault.OfData (readPointer data start stop pos) := by
  unfold readPointer
  apply readNat_failsOnly.bind
  intro target _
  dsimp only
  split
  · exact .ok _
  · exact .error .malformed

theorem readMany_failsOnly {β : Type} {read : Nat → Except AbiFault β} {step count : Nat}
    (h : ∀ pos, FailsOnly AbiFault.OfData (read pos)) :
    FailsOnly AbiFault.OfData (readMany read step count pos) := by
  induction count generalizing pos with
  | zero => exact .ok []
  | succ count ih => exact (h pos).bind fun _ _ => ih.bind fun _ _ => .ok _

theorem behind_failsOnly {fill : UInt8} : FailsOnly AbiFault.OfData (behind fill size word) := by
  unfold behind
  split
  · exact .ok _
  · exact .error .malformed

theorem decodeSigned_failsOnly : FailsOnly AbiFault.OfData (decodeSigned size word) := by
  unfold decodeSigned
  dsimp only
  split <;> exact behind_failsOnly.map

theorem decodeBool_failsOnly : FailsOnly AbiFault.OfData (decodeBool word) := by
  unfold decodeBool
  split
  · exact .ok _
  · exact .ok _
  · exact .error .malformed

theorem decodeFixedBytes_failsOnly : FailsOnly AbiFault.OfData (decodeFixedBytes size word) := by
  unfold decodeFixedBytes
  split
  · exact .ok _
  · exact .error .malformed

theorem decodeBytes_failsOnly : FailsOnly AbiFault.OfData (decodeBytes data pos) := by
  unfold decodeBytes
  apply readNat_failsOnly.bind
  intro length _
  dsimp only
  split
  · exact .error (.inr (.inl rfl))
  · split
    · exact .ok _
    · exact .error .malformed

theorem decodeString_failsOnly : FailsOnly AbiFault.OfData (decodeString data pos) := by
  unfold decodeString
  apply decodeBytes_failsOnly.bind
  intro bytes _
  split
  · exact .ok _
  · exact .error (.inr (.inr rfl))

theorem readMany_keeps {β : Type} {read : Nat → Except AbiFault β} {step count : Nat}
    {good : β → Prop} {values : List β} (hr : ∀ pos v, read pos = .ok v → good v)
    (h : readMany read step count pos = .ok values) : ∀ v ∈ values, good v := by
  induction count generalizing pos values with
  | zero =>
    cases h
    simp
  | succ count ih =>
    obtain ⟨v, hv, h⟩ := bind_eq_ok.1 h
    obtain ⟨rest, hrest, h⟩ := bind_eq_ok.1 h
    cases h
    simpa using ⟨hr pos v hv, ih hrest⟩

namespace Codec

def decodeItems (data : List UInt8) (item : Codec) (start count : Nat) : Except AbiFault Value :=
  if item.isDynamic then do
    let targets ← readMany (readPointer data start (start + 32 * count)) 32 count start
    let values ← targets.mapM (item.decode data)
    return .list values
  else do
    let values ← readMany (item.decode data) item.headSize count start
    return .list values

theorem decode_array_some {item : Codec} {count : Nat} :
    (array item (some count)).decode data pos = decodeItems data item pos count := by
  rw [decode.eq_def]
  rfl

theorem decode_array_none {item : Codec} : (array item none).decode data pos =
    readNat data pos >>= decodeItems data item (pos + 32) := by
  rw [decode.eq_def]
  rfl

theorem decodeItems_failsOnly {item : Codec} {count : Nat}
    (h : ∀ target, FailsOnly AbiFault.OfData (item.decode data target)) :
    FailsOnly AbiFault.OfData (decodeItems data item start count) := by
  rw [decodeItems]
  split
  · apply (readMany_failsOnly fun _ => readPointer_failsOnly).bind
    intro targets _
    exact FailsOnly.bind (.mapM fun target _ => h target) fun _ _ => .ok _
  · exact (readMany_failsOnly h).bind fun _ _ => .ok _

mutual
theorem decode_failsOnly (data : List UInt8) :
    (c : Codec) → (pos : Nat) → FailsOnly AbiFault.OfData (c.decode data pos)
  | .uint size, pos => by
    rw [decode]
    exact readWord_failsOnly.bind fun _ _ => behind_failsOnly.map
  | .int size, pos => by
    rw [decode]
    exact readWord_failsOnly.bind fun _ _ => decodeSigned_failsOnly.map
  | .ufixed size places, pos => by
    rw [decode]
    exact readWord_failsOnly.bind fun _ _ => behind_failsOnly.map
  | .fixed size places, pos => by
    rw [decode]
    exact readWord_failsOnly.bind fun _ _ => decodeSigned_failsOnly.map
  | .bool, pos => by
    rw [decode]
    exact readWord_failsOnly.bind fun _ _ => decodeBool_failsOnly
  | .address, pos => by
    rw [decode]
    exact readWord_failsOnly.bind fun _ _ => behind_failsOnly.map
  | .fixedBytes size, pos => by
    rw [decode]
    exact readWord_failsOnly.bind fun _ _ => decodeFixedBytes_failsOnly
  | .bytes, pos => by
    rw [decode]
    exact decodeBytes_failsOnly.map
  | .string, pos => by
    rw [decode]
    exact decodeString_failsOnly
  | .tuple components, pos => by
    rw [decode]
    apply (decodeHeads_failsOnly data _ _ components pos).bind
    intro heads _
    exact (decodeTails_failsOnly data components heads).bind fun _ _ => .ok _
  | .array item (some count), pos => by
    rw [decode_array_some]
    exact decodeItems_failsOnly (decode_failsOnly data item)
  | .array item none, pos => by
    rw [decode_array_none]
    exact readNat_failsOnly.bind fun _ _ => decodeItems_failsOnly (decode_failsOnly data item)

theorem decodeHeads_failsOnly (data : List UInt8) (start stop : Nat) :
    (components : List Codec) → (pos : Nat) →
      FailsOnly AbiFault.OfData (decodeHeads data start stop components pos)
  | [], pos => by
    rw [decodeHeads]
    exact .ok []
  | c :: rest, pos => by
    have others (head : Head) : FailsOnly AbiFault.OfData (do
        let heads ← decodeHeads data start stop rest (pos + c.headSize)
        return head :: heads) :=
      (decodeHeads_failsOnly data start stop rest _).bind fun _ _ => .ok _
    rw [decodeHeads]
    split
    · exact readPointer_failsOnly.map.bind fun head _ => others head
    · exact (decode_failsOnly data c pos).map.bind fun head _ => others head

theorem decodeTails_failsOnly (data : List UInt8) :
    (components : List Codec) → (heads : List Head) →
      FailsOnly AbiFault.OfData (decodeTails data components heads)
  | c :: rest, head :: heads => by
    have others (v : Value) : FailsOnly AbiFault.OfData (do
        let values ← decodeTails data rest heads
        return v :: values) :=
      (decodeTails_failsOnly data rest heads).bind fun _ _ => .ok _
    simp only [decodeTails]
    cases head with
    | value v => exact others v
    | pointer target => exact (decode_failsOnly data c target).bind fun v _ => others v
  | [], _ => by
    rw [decodeTails]
    · exact .ok []
    · simp
  | c :: rest, [] => by
    rw [decodeTails]
    · exact .ok []
    · simp
end

theorem decodeArguments_failsOnly {components : List Codec} :
    FailsOnly AbiFault.OfData (decodeArguments data components) :=
  (decodeHeads_failsOnly data _ _ components 0).bind fun heads _ =>
    decodeTails_failsOnly data components heads

mutual
/-- A value has the kind that a codec gives: texts, byte strings and lists of values that fit. -/
def Fits : Codec → Value → Prop
  | .bytes, v => ∃ b, v = .bytes b
  | .string, v => ∃ s, v = .text s
  | .tuple components, v => ∃ values, v = .list values ∧ AllFit components values
  | .array item _, v => ∃ values, v = .list values ∧ ∀ value ∈ values, item.Fits value
  | _, _ => True

def AllFit : List Codec → List Value → Prop
  | c :: components, v :: values => c.Fits v ∧ AllFit components values
  | _, _ => True
end

def HeadFits (c : Codec) : Head → Prop
  | .value v => c.Fits v
  | .pointer _ => True

theorem decodeItems_fits {item : Codec} {length : Option Nat} {count : Nat} {v : Value}
    (h : ∀ target v, item.decode data target = .ok v → item.Fits v)
    (hv : decodeItems data item start count = .ok v) : (array item length).Fits v := by
  rw [Fits]
  rw [decodeItems] at hv
  split at hv
  · obtain ⟨targets, -, hv⟩ := bind_eq_ok.1 hv
    obtain ⟨values, hvalues, hv⟩ := bind_eq_ok.1 hv
    cases hv
    refine ⟨values, rfl, fun v hv => ?_⟩
    obtain ⟨target, -, ht⟩ := (mem_of_mapM hvalues).1 hv
    exact h target v ht
  · obtain ⟨values, hvalues, hv⟩ := bind_eq_ok.1 hv
    cases hv
    exact ⟨values, rfl, readMany_keeps h hvalues⟩

mutual
theorem decode_fits (data : List UInt8) :
    (c : Codec) → (pos : Nat) → (v : Value) → c.decode data pos = .ok v → c.Fits v
  | .bytes, pos, v, h => by
    rw [decode] at h
    obtain ⟨b, -, rfl⟩ := map_eq_ok.1 h
    exact ⟨b, rfl⟩
  | .string, pos, v, h => by
    rw [decode, decodeString] at h
    obtain ⟨b, -, h⟩ := bind_eq_ok.1 h
    split at h
    · cases h
      exact ⟨_, rfl⟩
    · cases h
  | .tuple components, pos, v, h => by
    rw [decode] at h
    obtain ⟨heads, hheads, h⟩ := bind_eq_ok.1 h
    obtain ⟨values, hvalues, h⟩ := bind_eq_ok.1 h
    cases h
    refine ⟨values, rfl, ?_⟩
    exact decodeTails_fits data components heads values
      (decodeHeads_fits data _ _ components pos heads hheads) hvalues
  | .array item (some count), pos, v, h => by
    rw [decode_array_some] at h
    exact decodeItems_fits (decode_fits data item) h
  | .array item none, pos, v, h => by
    rw [decode_array_none] at h
    obtain ⟨count, -, h⟩ := bind_eq_ok.1 h
    exact decodeItems_fits (decode_fits data item) h
  | .uint _, _, _, _ | .int _, _, _, _ | .ufixed _ _, _, _, _ | .fixed _ _, _, _, _
  | .bool, _, _, _ | .address, _, _, _ | .fixedBytes _, _, _, _ => trivial

theorem decodeHeads_fits (data : List UInt8) (start stop : Nat) :
    (components : List Codec) → (pos : Nat) → (heads : List Head) →
      decodeHeads data start stop components pos = .ok heads →
        List.Forall₂ HeadFits components heads
  | [], pos, heads, h => by
    rw [decodeHeads] at h
    cases h
    exact .nil
  | c :: rest, pos, heads, h => by
    rw [decodeHeads] at h
    split at h
    · obtain ⟨head, hhead, h⟩ := bind_eq_ok.1 h
      obtain ⟨others, hothers, h⟩ := bind_eq_ok.1 h
      obtain ⟨target, -, rfl⟩ := map_eq_ok.1 hhead
      cases h
      exact .cons trivial (decodeHeads_fits data start stop rest _ others hothers)
    · obtain ⟨head, hhead, h⟩ := bind_eq_ok.1 h
      obtain ⟨others, hothers, h⟩ := bind_eq_ok.1 h
      obtain ⟨v, hv, rfl⟩ := map_eq_ok.1 hhead
      cases h
      exact .cons (decode_fits data c pos v hv)
        (decodeHeads_fits data start stop rest _ others hothers)

theorem decodeTails_fits (data : List UInt8) :
    (components : List Codec) → (heads : List Head) → (values : List Value) →
      List.Forall₂ HeadFits components heads → decodeTails data components heads = .ok values →
        AllFit components values
  | [], _, _, _, _ => trivial
  | c :: rest, head :: heads, values, .cons hf hrest, h => by
    simp only [decodeTails] at h
    obtain ⟨v, hv, h⟩ : ∃ v, c.Fits v ∧ (do
        let values ← decodeTails data rest heads
        return v :: values) = .ok values := by
      cases head with
      | value v => exact ⟨v, hf, h⟩
      | pointer target =>
        obtain ⟨v, hv, h⟩ := bind_eq_ok.1 h
        exact ⟨v, decode_fits data c target v hv, h⟩
    obtain ⟨others, hothers, h⟩ := bind_eq_ok.1 h
    cases h
    exact ⟨hv, decodeTails_fits data rest heads others hrest hothers⟩
end

theorem decodeArguments_fit {components : List Codec} {values : List Value}
    (h : decodeArguments data components = .ok values) : AllFit components values := by
  obtain ⟨heads, hheads, h⟩ := bind_eq_ok.1 h
  exact decodeTails_fits data components heads values
    (decodeHeads_fits data _ _ components 0 heads hheads) h

end Codec

end Abi

end SlotLens

import SlotLens.Proofs.Hex
import SlotLens.Proofs.Outcome
import SlotLens.Proofs.Text.Lowercase
import SlotLens.Address

namespace SlotLens

namespace Hex

variable {c : Char} {s : List Char} {bytes : List UInt8} {n : Nat}

theorem value?_toUpper_digit (h : n < 16) : value? (digit n).toUpper = some n := by
  have hall : ∀ m : Fin 16, value? (digit m).toUpper = some m.val := by decide
  exact hall ⟨n, h⟩

theorem lowerChar_of_value? (h : value? c = some n) : Text.lowerChar c = [digit n] := by
  have hall : ∀ k : Fin 128, ∀ m : Fin 16, value? (Char.ofNat k) = some m.val →
      Text.lowerChar (Char.ofNat k) = [digit m] := by
    decide +kernel
  have hrange := toNat_of_isDigit (Option.isSome_iff_exists.2 ⟨n, h⟩)
  have hc := hall ⟨c.toNat, by omega⟩ ⟨n, value?_lt h⟩
  rw [Char.ofNat_toNat] at hc
  exact hc h

theorem lower_of_decode? (h : decode? s = some bytes) : Text.lower s = encode bytes := by
  suffices hs : ∀ before, Text.lowerAfter before s = encode bytes from hs []
  induction s using decode?.induct generalizing bytes with
  | case1 =>
    cases h
    exact fun _ => rfl
  | case2 => cases h
  | case3 high low rest ih =>
    intro before
    obtain ⟨m, n, tail, hm, hn, htail, rfl⟩ := decode?_eq_some.1 h
    have hsigma : ∀ {c k}, value? c = some k → c ≠ '\u03a3' := by
      rintro c k hc rfl
      cases hc
    have hmlt := value?_lt hm
    have hnlt := value?_lt hn
    have hbyte : (UInt8.ofNat (m * 16 + n)).toNat = m * 16 + n :=
      UInt8.toNat_ofNat_of_lt' (by simp only [UInt8.size]; omega)
    rw [Text.lowerAfter, if_neg (hsigma hm), Text.lowerAfter, if_neg (hsigma hn), ih htail,
      lowerChar_of_value? hm, lowerChar_of_value? hn, encode, hbyte,
      show (m * 16 + n) / 16 = m by omega, show (m * 16 + n) % 16 = n by omega]
    rfl

end Hex

namespace Address

variable {s : List Char} {bytes : List UInt8} {text : String}

theorem decode?_capitalize {hash : List Char} (h : 2 * bytes.length ≤ hash.length) :
    Hex.decode? (capitalize (Hex.encode bytes) hash) = some bytes := by
  induction bytes generalizing hash with
  | nil => rfl
  | cons b bytes ih =>
    obtain _ | ⟨first, _ | ⟨second, hash⟩⟩ := hash
    · cases h
    · simp only [List.length_cons, List.length_nil] at h
      omega
    · have hb := b.toNat_lt
      have hvalue : ∀ {n : Nat} (c : Char), n < 16 → Hex.value?
          (if (Hex.value? c).getD 0 ≥ 8 then (Hex.digit n).toUpper else Hex.digit n) = some n := by
        intro n c hn
        split
        · exact Hex.value?_toUpper_digit hn
        · exact Hex.value?_digit hn
      refine Hex.decode?_eq_some.2 ⟨b.toNat / 16, b.toNat % 16, bytes, hvalue _ (by omega),
        hvalue _ (by omega), ih ?_, ?_⟩
      · simp only [List.length_cons] at h
        omega
      · rw [show b.toNat / 16 * 16 + b.toNat % 16 = b.toNat by omega, UInt8.ofNat_toNat]

theorem digits?_of_decode? (h : Hex.decode? (Hex.dropMark s) = some bytes)
    (hl : bytes.length = 20) : digits? s = some (Hex.encode bytes) := by
  have hlength := Hex.length_of_decode? h
  rw [digits?, if_pos ⟨by omega, List.all_eq_true.2 (Hex.isDigit_of_decode? h)⟩,
    Hex.lower_of_decode? h]

theorem digits?_text (h : bytes.length = 20) :
    digits? (Hex.text bytes).toList = some (Hex.encode bytes) := by
  refine digits?_of_decode? ?_ h
  rw [Hex.dropMark_text, Hex.decode?_encode]

theorem digits?_encode (h : bytes.length = 20) :
    digits? (Hex.encode bytes) = some (Hex.encode bytes) := by
  refine digits?_of_decode? ?_ h
  rw [Hex.dropMark_of_digits fun c => Hex.isDigit_of_mem_encode, Hex.decode?_encode]

theorem decode?_of_bytes? (h : bytes? text = some bytes) :
    Hex.decode? (Hex.dropMark text.toList) = some bytes ∧ bytes.length = 20 := by
  obtain ⟨digits, hdigits, hbytes⟩ := Option.bind_eq_some_iff.1 h
  obtain ⟨hlength, hall⟩ : (Hex.dropMark text.toList).length = 40 ∧
      (Hex.dropMark text.toList).all Hex.isDigit := by
    rw [digits?] at hdigits
    exact (Option.ite_none_right_eq_some.1 hdigits).1
  obtain ⟨written, hwritten, hcount⟩ := Hex.exists_decode? (List.all_eq_true.1 hall) (by omega)
  have hl : written.length = 20 := by omega
  -- Lower case does not change what the digits write.
  rw [digits?_of_decode? hwritten hl] at hdigits
  cases hdigits
  obtain rfl : written = bytes := Option.some.inj ((Hex.decode?_encode written).symm.trans hbytes)
  exact ⟨hwritten, hl⟩

theorem bytes?_checksum (h : bytes.length = 20) :
    bytes? (checksumOfDigits (Hex.encode bytes)) = some bytes := by
  have hhash : 2 * bytes.length ≤ (Hex.encode (Keccak.hash
      ((Hex.encode bytes).map fun c => UInt8.ofNat c.toNat))).length := by
    rw [Hex.length_encode, Keccak.length_hash]
    omega
  have hdecode : Hex.decode? (Hex.dropMark (checksumOfDigits (Hex.encode bytes)).toList) =
      some bytes := by
    rw [checksumOfDigits, String.toList_ofList, Hex.dropMark]
    exact decode?_capitalize hhash
  rw [bytes?, digits?_of_decode? hdecode h]
  exact Hex.decode?_encode bytes

/-- A text may be encoded as the address that it names, unless its letters are of both cases, they
have to be those of the checksum form, and they are not. -/
theorem given?_eq_some [Rule] : given? text = some bytes ↔ bytes? text = some bytes ∧
    (Rule.needsChecksum → isMixed (Hex.dropMark text.toList) →
      text = checksumOfDigits (Hex.encode bytes)) := by
  have hform (h : bytes? text = some bytes) : digits? text.toList = some (Hex.encode bytes) := by
    obtain ⟨hdecode, hl⟩ := decode?_of_bytes? h
    exact digits?_of_decode? hdecode hl
  constructor
  · intro h
    obtain ⟨digits, hdigits, h⟩ := Option.bind_eq_some_iff.1 h
    split at h
    · cases h
    · next hc =>
      have hbytes : bytes? text = some bytes := Option.bind_eq_some_iff.2 ⟨digits, hdigits, h⟩
      obtain rfl := Option.some.inj (hdigits.symm.trans (hform hbytes))
      exact ⟨hbytes, fun hr hm => by simpa [hr, hm] using hc⟩
  · rintro ⟨h, hc⟩
    refine Option.bind_eq_some_iff.2 ⟨_, hform h, ?_⟩
    rw [if_neg, Hex.decode?_encode]
    simp only [Bool.and_eq_true, bne_iff_ne, not_and, not_not, and_imp]
    exact hc

theorem ascii_of_bytes? (h : bytes? text = some bytes) : ∀ c ∈ text.toList, c.toNat < 0x80 := by
  have hdigits := Hex.isDigit_of_decode? (decode?_of_bytes? h).1
  have hlt : ∀ c ∈ Hex.dropMark text.toList, c.toNat < 0x80 := by
    intro c hc
    have := Hex.toNat_of_isDigit (hdigits c hc)
    omega
  unfold Hex.dropMark at hlt
  split at hlt
  · next heq => simpa [heq] using hlt
  · next heq => simpa [heq] using hlt
  · exact hlt

section Checksum

theorem checksum_text_of_bytes? (h : bytes? text = some bytes) :
    checksum (.text text) = .ok (checksumOfDigits (Hex.encode bytes)) := by
  obtain ⟨hdecode, hl⟩ := decode?_of_bytes? h
  rw [checksum, digits?_of_decode? hdecode hl, checksum.ofDigits]

theorem checksum_bytes (h : bytes.length = 20) :
    checksum (.bytes bytes) = .ok (checksumOfDigits (Hex.encode bytes)) := by
  rw [checksum, digits?_encode h, checksum.ofDigits]

theorem checksum_text (h : bytes.length = 20) :
    checksum (.text (Hex.text bytes)) = .ok (checksumOfDigits (Hex.encode bytes)) := by
  rw [checksum, digits?_text h, checksum.ofDigits]

end Checksum

end Address

end SlotLens

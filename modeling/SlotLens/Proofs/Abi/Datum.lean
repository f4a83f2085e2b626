import SlotLens.Proofs.BigEndian
import SlotLens.Proofs.Checksum
import SlotLens.Proofs.Field
import Mathlib.Data.List.FinRange

namespace SlotLens.Abi

abbrev Width := Fin 32

def Width.bytes (w : Width) : Nat := w.val + 1

theorem Width.pos (w : Width) : 0 < w.bytes := Nat.succ_pos _

theorem Width.le (w : Width) : w.bytes ≤ 32 := w.isLt

/-- A type whose values are one word. -/
inductive WordType where
  | uint (w : Width)
  | int (w : Width)
  | bool
  | address
  | fixedBytes (w : Width)
  deriving DecidableEq

namespace WordType

def text : WordType → String
  | .uint w => "uint" ++ toString (8 * w.bytes)
  | .int w => "int" ++ toString (8 * w.bytes)
  | .bool => "bool"
  | .address => "address"
  | .fixedBytes w => "bytes" ++ toString w.bytes

def codec : WordType → Codec
  | .uint w => .uint w.bytes
  | .int w => .int w.bytes
  | .bool => .bool
  | .address => .address
  | .fixedBytes w => .fixedBytes w.bytes

def size : WordType → Nat
  | .uint w | .int w | .fixedBytes w => w.bytes
  | .bool => 1
  | .address => 20

variable {t : WordType}

theorem size_pos : 0 < t.size := by
  cases t <;> first | exact Width.pos _ | decide

theorem size_le : t.size ≤ 32 := by
  cases t <;> first | exact Width.le _ | decide

theorem isWord_codec : t.codec.isWord := by
  cases t <;> rfl

def read : WordType → List UInt8 → Except AbiFault Value
  | .uint w => decodeUint w.bytes
  | .int w => decodeInt w.bytes
  | .bool => decodeBool
  | .address => decodeAddress
  | .fixedBytes w => decodeFixedBytes w.bytes

theorem decodeArgument_codec {word : List UInt8} (hl : word.length = 32) :
    t.codec.decodeArgument word = t.read word := by
  rw [Codec.decodeArgument_eq (Codec.isDynamic_of_isWord isWord_codec)]
  cases t <;> rw [codec, Codec.decode, Codec.readWord_of_length hl] <;> rfl

theorem settles_read {word : List UInt8} (hl : word.length = 32) : Codec.Settles (t.read word) := by
  rw [← decodeArgument_codec hl, Codec.decodeArgument_eq (Codec.isDynamic_of_isWord isWord_codec)]
  exact Codec.settles_decode isWord_codec hl

def all : List WordType :=
  [.bool, .address] ++ (List.finRange 32).flatMap fun w => [.uint w, .int w, .fixedBytes w]

theorem mem_all (t : WordType) : t ∈ all := by
  cases t <;> simp [all]

def isCodec : WordType → Codec → Bool
  | .uint w, .uint size | .int w, .int size | .fixedBytes w, .fixedBytes size => w.bytes == size
  | .bool, .bool | .address, .address => true
  | _, _ => false

theorem eq_codec {c : Codec} (h : t.isCodec c) : c = t.codec := by
  cases t <;> cases c <;> simp_all [isCodec, codec]

theorem ofText_text (t : WordType) : Codec.ofText t.text = .ok t.codec := by
  have hall : all.all (fun t => (Codec.ofText t.text).toOption.any t.isCodec) = true := by
    decide +kernel
  have h := List.all_eq_true.1 hall t (mem_all t)
  cases hc : Codec.ofText t.text with
  | error fault =>
    rw [hc] at h
    cases h
  | ok c =>
    rw [hc] at h
    rw [eq_codec h]

theorem abiType?_text (t : WordType) (size : Option Int) :
    Field.abiType? t.text size = some t.text := by
  have hall : all.all (fun t => Field.abiType? t.text none == some t.text &&
      !"enum ".toList.isPrefixOf (Text.trim t.text.toList)) = true := by
    decide +kernel
  have h := List.all_eq_true.1 hall t (mem_all t)
  rw [Bool.and_eq_true, beq_iff_eq, Bool.not_eq_true'] at h
  rw [← h.1]
  simp only [Field.abiType?, h.2]
  rfl

theorem text_ne (t : WordType) : t.text ≠ "string" ∧ t.text ≠ "bytes" := by
  have hall : all.all (fun t => t.text != "string" && t.text != "bytes") = true := by
    decide +kernel
  simpa using List.all_eq_true.1 hall t (mem_all t)

theorem codec_injective : Function.Injective codec := by
  intro t t' h
  cases t <;> cases t' <;> simp_all [codec, Width.bytes, Fin.ext_iff]

theorem text_injective : Function.Injective text := by
  intro t t' h
  have hcodec := ofText_text t
  rw [h, ofText_text t'] at hcodec
  exact codec_injective (Except.ok.inj hcodec).symm

def isFixedBytes : WordType → Bool
  | .fixedBytes _ => true
  | _ => false

def isInt : WordType → Bool
  | .int _ => true
  | _ => false

theorem startsWith_bytes : t.text.startsWith "bytes" = t.isFixedBytes := by
  refine Bool.eq_iff_iff.2 (String.startsWith_string_iff.trans ?_)
  cases t <;> simp [text, isFixedBytes]

theorem startsWith_int : t.text.startsWith "int" = t.isInt := by
  refine Bool.eq_iff_iff.2 (String.startsWith_string_iff.trans ?_)
  cases t <;> simp [text, isInt]

end WordType

inductive Datum where
  | uint (w : Width) (n : Nat) (h : n < 256 ^ w.bytes)
  | int (w : Width) (n : Int) (h : BigEndian.FitsTwos w.bytes n)
  | bool (b : Bool)
  | address (bytes : List UInt8) (h : bytes.length = 20)
  | fixedBytes (w : Width) (bytes : List UInt8) (h : bytes.length = w.bytes)

namespace Datum

def type : Datum → WordType
  | .uint w _ _ => .uint w
  | .int w _ _ => .int w
  | .bool _ => .bool
  | .address _ _ => .address
  | .fixedBytes w _ _ => .fixedBytes w

def stored : Datum → List UInt8
  | .uint w n _ => BigEndian.ofNat w.bytes n
  | .int w n _ => BigEndian.twos w.bytes n
  | .bool b => [if b then 1 else 0]
  | .address bytes _ => bytes
  | .fixedBytes _ bytes _ => bytes

/-- The word of a value: byte strings stand on the left, and negative numbers keep their sign. -/
def word : Datum → List UInt8
  | .uint w n _ => BigEndian.padLeft 32 0 (BigEndian.ofNat w.bytes n)
  | .int w n _ => BigEndian.padLeft 32 (BigEndian.signFill n) (BigEndian.twos w.bytes n)
  | .bool b => BigEndian.padLeft 32 0 [if b then 1 else 0]
  | .address bytes _ => BigEndian.padLeft 32 0 bytes
  | .fixedBytes _ bytes _ => BigEndian.padRight 32 0 bytes

def plain : Datum → Value
  | .uint _ n _ => .int n
  | .int _ n _ => .int n
  | .bool b => .bool b
  | .address bytes _ => .text (Hex.text bytes)
  | .fixedBytes _ bytes _ => .bytes bytes

def shown : Datum → Value
  | .uint _ n _ => .int n
  | .int _ n _ => .int n
  | .bool b => .bool b
  | .address bytes _ => .text (Address.checksumOfDigits (Hex.encode bytes))
  | .fixedBytes _ bytes _ => .text (Hex.text bytes)

variable {d : Datum} {t : WordType} {word : List UInt8}

theorem length_stored : d.stored.length = d.type.size := by
  cases d with
  | uint w n h => exact BigEndian.length_ofNat _ _
  | int w n h => exact BigEndian.length_twos
  | bool b => rfl
  | address bytes h => exact h
  | fixedBytes w bytes h => exact h

theorem length_word : d.word.length = 32 := by
  have hl : d.stored.length ≤ 32 := length_stored.trans_le WordType.size_le
  cases d with
  | fixedBytes w bytes h => exact BigEndian.length_padRight hl _
  | uint | int | bool | address => exact BigEndian.length_padLeft hl _

end Datum

section Decoding

variable {bytes word : List UInt8} {fill : UInt8} {size : Nat}

theorem behind_eq_ok (hl : word.length = 32) (hs : size ≤ 32) : behind fill size word = .ok bytes ↔
    bytes.length = size ∧ word = BigEndian.padLeft 32 fill bytes := by
  rw [behind]
  constructor
  · intro h
    split at h
    · next hfill =>
      cases h
      have hlength : (word.drop (32 - size)).length = size := by
        rw [List.length_drop, hl]
        omega
      refine ⟨hlength, ?_⟩
      have htake : word.take (32 - size) = List.replicate (32 - size) fill := by
        refine List.eq_replicate_iff.2 ⟨by rw [List.length_take, hl]; omega, fun b hb => ?_⟩
        exact eq_of_beq (List.all_eq_true.1 hfill b hb)
      rw [BigEndian.padLeft, hlength, ← htake, List.take_append_drop]
    · cases h
  · rintro ⟨rfl, rfl⟩
    have hfront : (List.replicate (32 - bytes.length) fill).length = 32 - bytes.length :=
      List.length_replicate
    rw [BigEndian.padLeft, List.take_left' hfront, List.drop_left' hfront, if_pos]
    exact List.all_eq_true.2 fun b hb => beq_iff_eq.2 (List.eq_of_mem_replicate hb)

theorem drop_padLeft : (BigEndian.padLeft 32 fill bytes).drop (32 - bytes.length) = bytes :=
  List.drop_left' List.length_replicate

theorem decodeSigned_eq_ok {n : Int} (hl : word.length = 32) (hs : size ≤ 32) :
    decodeSigned size word = .ok n ↔ ∃ bytes : List UInt8, bytes.length = size ∧
      word = BigEndian.padLeft 32 (BigEndian.signFill (BigEndian.signed bytes)) bytes ∧
        n = BigEndian.signed bytes := by
  have hlength : (word.drop (32 - size)).length = size := by
    rw [List.length_drop, hl]
    omega
  have hdecode : decodeSigned size word =
      (behind (BigEndian.signFill (BigEndian.signed (word.drop (32 - size)))) size word).map
        fun _ => BigEndian.signed (word.drop (32 - size)) := by
    have hcases := BigEndian.signed_cases (word.drop (32 - size))
    rw [hlength] at hcases
    rw [decodeSigned]
    rcases hcases with ⟨hsign, hsmall, heq⟩ | ⟨hsign, hlarge, heq⟩
    · rw [Nat.pow_eq, if_pos hsmall, BigEndian.signFill, if_neg (Int.not_lt.2 hsign), heq]
    · rw [Nat.pow_eq, if_neg (Nat.not_lt.2 hlarge), BigEndian.signFill, if_pos hsign, heq]
      rfl
  rw [hdecode]
  constructor
  · intro h
    obtain ⟨bytes, hb, rfl⟩ := map_eq_ok.1 h
    obtain ⟨rfl, hword⟩ := (behind_eq_ok hl hs).1 hb
    have hdrop : word.drop (32 - bytes.length) = bytes := by
      rw [hword]
      exact drop_padLeft
    rw [hdrop] at hword ⊢
    exact ⟨bytes, rfl, hword, rfl⟩
  · rintro ⟨bytes, rfl, rfl, rfl⟩
    rw [drop_padLeft]
    exact map_eq_ok.2 ⟨bytes, (behind_eq_ok hl hs).2 ⟨rfl, rfl⟩, rfl⟩

theorem decodeBool_eq_ok {v : Value} (hl : word.length = 32) : decodeBool word = .ok v ↔
    ∃ b : Bool, word = BigEndian.padLeft 32 0 [if b then 1 else 0] ∧ v = .bool b := by
  have hword {b : Bool} : word = BigEndian.padLeft 32 0 [if b then 1 else 0] ↔
      BigEndian.toNat word = if b then 1 else 0 := by
    have hbit : BigEndian.toNat (BigEndian.padLeft 32 0 [if b then 1 else 0]) =
        if b then 1 else 0 := by
      rw [BigEndian.toNat_padLeft_zero]
      cases b <;> rfl
    refine ⟨fun h => h ▸ hbit, fun h => BigEndian.eq_of_toNat (hl.trans ?_) (h.trans hbit.symm)⟩
    exact (BigEndian.length_padLeft (show 1 ≤ 32 by decide) _).symm
  simp only [hword, Bool.exists_bool]
  rw [decodeBool]
  split
  · next h => simp [h, eq_comm]
  · next h => simp [h, eq_comm]
  · next h0 h1 =>
    refine iff_of_false (fun h => by cases h) ?_
    rintro (⟨h, -⟩ | ⟨h, -⟩)
    · exact h0 h
    · exact h1 h

theorem decodeFixedBytes_eq_ok {v : Value} (hl : word.length = 32) (hs : size ≤ 32) :
    decodeFixedBytes size word = .ok v ↔ ∃ bytes : List UInt8, bytes.length = size ∧
      word = BigEndian.padRight 32 0 bytes ∧ v = .bytes bytes := by
  rw [decodeFixedBytes]
  constructor
  · intro h
    split at h
    · next hzero =>
      have hlength : (word.take size).length = size := by
        rw [List.length_take, hl]
        omega
      have hdrop : word.drop size = List.replicate (32 - size) 0 := by
        refine List.eq_replicate_iff.2 ⟨by rw [List.length_drop, hl], fun b hb => ?_⟩
        exact eq_of_beq (List.all_eq_true.1 hzero b hb)
      cases h
      refine ⟨word.take size, hlength, ?_, rfl⟩
      rw [BigEndian.padRight, hlength, ← hdrop, List.take_append_drop]
    · cases h
  · rintro ⟨bytes, rfl, rfl, rfl⟩
    rw [BigEndian.padRight, List.drop_left, List.take_left, if_pos]
    exact List.all_eq_true.2 fun b hb => beq_iff_eq.2 (List.eq_of_mem_replicate hb)

end Decoding

namespace Datum

variable {raw : List UInt8} {v : Value} {t : WordType}

theorem read_word (d : Datum) : d.type.read d.word = .ok d.plain := by
  have hl := d.length_word
  cases d with
  | uint w n h =>
    refine map_eq_ok.2 ⟨_, (behind_eq_ok hl w.le).2 ⟨BigEndian.length_ofNat _ _, rfl⟩, ?_⟩
    rw [BigEndian.toNat_ofNat_of_lt h]
    rfl
  | int w n h =>
    refine map_eq_ok.2 ⟨n, (decodeSigned_eq_ok hl w.le).2 ?_, rfl⟩
    refine ⟨BigEndian.twos w.bytes n, BigEndian.length_twos, ?_⟩
    rw [BigEndian.signed_twos h w.pos]
    exact ⟨rfl, rfl⟩
  | bool b => exact (decodeBool_eq_ok hl).2 ⟨b, rfl, rfl⟩
  | address bytes h =>
    exact map_eq_ok.2 ⟨bytes, (behind_eq_ok hl (by decide)).2 ⟨h, rfl⟩, rfl⟩
  | fixedBytes w bytes h => exact (decodeFixedBytes_eq_ok hl w.le).2 ⟨bytes, h, rfl, rfl⟩

theorem exists_of_read (hl : raw.length = 32) (h : t.read raw = .ok v) :
    ∃ d : Datum, d.type = t ∧ d.word = raw ∧ d.plain = v := by
  cases t with
  | uint w =>
    obtain ⟨bytes, hb, rfl⟩ := map_eq_ok.1 h
    obtain ⟨hlength, rfl⟩ := (behind_eq_ok hl w.le).1 hb
    refine ⟨.uint w (BigEndian.toNat bytes) (hlength ▸ BigEndian.lt_pow bytes), rfl, ?_, rfl⟩
    rw [word, ← hlength, BigEndian.ofNat_toNat]
  | int w =>
    obtain ⟨n, hn, rfl⟩ := map_eq_ok.1 h
    obtain ⟨bytes, hlength, rfl, rfl⟩ := (decodeSigned_eq_ok hl w.le).1 hn
    have hne : bytes ≠ [] := List.ne_nil_of_length_pos (hlength ▸ w.pos)
    refine ⟨.int w (BigEndian.signed bytes) (hlength ▸ BigEndian.fits_signed hne), rfl, ?_, rfl⟩
    rw [word, ← hlength, BigEndian.twos_signed]
  | bool =>
    obtain ⟨b, rfl, rfl⟩ := (decodeBool_eq_ok hl).1 h
    exact ⟨.bool b, rfl, rfl, rfl⟩
  | address =>
    obtain ⟨bytes, hb, rfl⟩ := map_eq_ok.1 h
    obtain ⟨hlength, rfl⟩ := (behind_eq_ok hl (by decide)).1 hb
    exact ⟨.address bytes hlength, rfl, rfl, rfl⟩
  | fixedBytes w =>
    obtain ⟨bytes, hlength, rfl, rfl⟩ := (decodeFixedBytes_eq_ok hl w.le).1 h
    exact ⟨.fixedBytes w bytes hlength, rfl, rfl, rfl⟩

theorem present_plain (d : Datum) : Field.present d.type.text d.plain = .ok d.shown := by
  have hother : d.type ≠ .address → d.type.text ≠ "address" := fun hne he =>
    hne (WordType.text_injective he)
  cases d with
  | address bytes h =>
    refine (if_pos rfl).trans (map_eq_ok.2 ⟨_, Address.checksum_text h, rfl⟩)
  | uint | int | bool | fixedBytes => exact if_neg (hother (by simp [type]))

/-- A field that is filled up in the way of its type is the word of its value. -/
theorem toWord_stored (d : Datum) : Field.toWord d.type.text d.stored = d.word := by
  rw [Field.toWord, WordType.startsWith_bytes, WordType.startsWith_int]
  cases d with
  | int w n h =>
    have hne : BigEndian.twos w.bytes n ≠ [] :=
      List.ne_nil_of_length_pos (BigEndian.length_twos.symm ▸ w.pos)
    have hsign := BigEndian.signed_neg_iff hne
    rw [BigEndian.signed_twos h w.pos] at hsign
    change (if true ∧ _ then _ else _) = BigEndian.padLeft 32 (BigEndian.signFill n) _
    rw [BigEndian.signFill]
    simp only [true_and, ge_iff_le, stored, hsign]
    split <;> rfl
  | uint | bool | address | fixedBytes => rfl

theorem decodeWord_text (hl : raw.length = 32) : Field.decodeWord t.text raw =
    match t.read raw with
    | .ok v => (Field.present t.text v).map some
    | .error .malformed => .ok none
    | .error fault => .error (.abi fault) := by
  rw [Field.decodeWord, WordType.ofText_text, ← WordType.decodeArgument_codec hl]
  rfl

theorem decodeWord_word (d : Datum) :
    Field.decodeWord d.type.text d.word = .ok (some d.shown) := by
  rw [decodeWord_text d.length_word, read_word]
  exact map_eq_ok.2 ⟨d.shown, present_plain d, rfl⟩

theorem decodeWord_cases (t : WordType) (hl : raw.length = 32) :
    Field.decodeWord t.text raw = .ok none ∨ ∃ d : Datum, d.type = t ∧ d.word = raw := by
  rcases WordType.settles_read hl with ⟨v, hv⟩ | hv
  · obtain ⟨d, ht, hword, -⟩ := exists_of_read hl hv
    exact .inr ⟨d, ht, hword⟩
  · left
    rw [decodeWord_text hl, hv]

theorem exists_stored (hl : raw.length = t.size) :
    (∃ d : Datum, d.type = t ∧ d.stored = raw) ∨ t = .bool ∧ raw ≠ [0] ∧ raw ≠ [1] := by
  cases t with
  | uint w =>
    change raw.length = w.bytes at hl
    refine .inl ⟨.uint w (BigEndian.toNat raw) (hl ▸ BigEndian.lt_pow raw), rfl, ?_⟩
    rw [stored, ← hl, BigEndian.ofNat_toNat]
  | int w =>
    change raw.length = w.bytes at hl
    have hne : raw ≠ [] := List.ne_nil_of_length_pos (hl ▸ w.pos)
    refine .inl ⟨.int w (BigEndian.signed raw) (hl ▸ BigEndian.fits_signed hne), rfl, ?_⟩
    rw [stored, ← hl, BigEndian.twos_signed]
  | bool =>
    by_cases h0 : raw = [0]
    · exact .inl ⟨.bool false, rfl, h0.symm⟩
    · by_cases h1 : raw = [1]
      · exact .inl ⟨.bool true, rfl, h1.symm⟩
      · exact .inr ⟨rfl, h0, h1⟩
  | address => exact .inl ⟨.address raw hl, rfl, rfl⟩
  | fixedBytes w => exact .inl ⟨.fixedBytes w raw hl, rfl, rfl⟩

theorem decodeWord_toWord_bool (hl : raw.length = 1) (h0 : raw ≠ [0]) (h1 : raw ≠ [1]) :
    Field.decodeWord WordType.bool.text (Field.toWord WordType.bool.text raw) = .ok none := by
  have hpad : Field.toWord WordType.bool.text raw = BigEndian.padLeft 32 0 raw := by
    rw [Field.toWord, WordType.startsWith_bytes, WordType.startsWith_int]
    rfl
  rw [hpad]
  rcases decodeWord_cases .bool (BigEndian.length_padLeft (hl.trans_le (by decide)) 0) with
    hnone | ⟨d, ht, hword⟩
  · exact hnone
  · obtain ⟨b, rfl⟩ : ∃ b, d = .bool b := by
      cases d with
      | bool b => exact ⟨b, rfl⟩
      | _ => cases ht
    have hlast : [if b then 1 else 0] = raw := (List.append_inj' hword hl.symm).2
    cases b with
    | false => exact absurd hlast.symm h0
    | true => exact absurd hlast.symm h1

theorem shown_ne_null (d : Datum) : d.shown ≠ .null := by
  cases d <;> exact Value.noConfusion

end Datum

end SlotLens.Abi

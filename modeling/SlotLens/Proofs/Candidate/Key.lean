import SlotLens.Candidate.Argument
import SlotLens.Proofs.Abi.Datum
import SlotLens.Proofs.Text.Utf8

namespace SlotLens

namespace Abi

inductive GivesBytes (bytes : List UInt8) : Value → Prop where
  | bytes : GivesBytes bytes (.bytes bytes)
  | text {s : String} (h : Hex.read s.toList = .ok bytes) : GivesBytes bytes (.text s)

namespace Datum

/-- The ways in which an argument gives a value of its type. An address whose letters are of both
cases may have to be written with its checksum. -/
inductive GivenAs [Address.Rule] : Datum → Value → Prop where
  | uint {w n h} : GivenAs (.uint w n h) (.int n)
  | int {w n h} : GivenAs (.int w n h) (.int n)
  | bool {b} : GivenAs (.bool b) (.bool b)
  | address {bytes h} : GivenAs (.address bytes h) (.bytes bytes)
  | addressText {bytes h} {s : String} (hs : Address.bytes? s = some bytes)
    (hc : Address.Rule.needsChecksum → Address.isMixed (Hex.dropMark s.toList) →
      s = Address.checksumOfDigits (Hex.encode bytes)) : GivenAs (.address bytes h) (.text s)
  | fixedBytes {w bytes h v} (hv : GivesBytes bytes v) : GivenAs (.fixedBytes w bytes h) v

variable [Address.Rule] {d : Datum} {v : Value}

theorem givenAs_shown (d : Datum) : d.GivenAs d.shown := by
  cases d with
  | uint w n h => exact .uint
  | int w n h => exact .int
  | bool b => exact .bool
  | address bytes h => exact .addressText (Address.bytes?_checksum h) fun _ _ => rfl
  | fixedBytes w bytes h => exact .fixedBytes (.text (Hex.read_text bytes))

theorem word_of_givenAs_text {raw : List UInt8} (hl : raw.length = 32)
    (h : d.GivenAs (.text (Hex.text raw))) : d.word = raw := by
  cases h with
  | @addressText bytes h _ hs _ =>
    have hread := (Address.decode?_of_bytes? hs).1
    rw [Hex.dropMark_text, Hex.decode?_encode] at hread
    cases hread
    omega
  | @fixedBytes w bytes h _ hv =>
    cases hv with
    | text hread =>
      rw [Hex.read_text] at hread
      cases hread
      rw [word, BigEndian.padRight, hl]
      exact List.append_nil raw

end Datum

section Encoding

variable {c : Codec} {v : Value} {raw : List UInt8} {n : Int} {w : Nat}

theorem Codec.encodeArgument_of_isWord [Address.Rule] (hc : c.isWord)
    (h : c.encodeScalar v = .ok raw) (hv : isEncodable v) : c.encodeArgument v = .ok raw := by
  have hencode : c.encode v = .ok raw := by
    cases c <;> first | exact h | cases hc
  have hparts : encodeParts [c] [v] = .ok [⟨false, raw⟩] := by
    simp only [encodeParts, hencode, isDynamic_of_isWord hc]
    rfl
  have hjoin : Part.join [⟨false, raw⟩] = raw := by
    simp [Part.join, Part.heads, Part.tails]
  have htuple : encode (.tuple [c]) (.list [v]) = .ok raw := by
    rw [encode, if_pos (show [c].length = [v].length from rfl), hparts, Except.map, hjoin]
  rw [encodeArgument, htuple]
  exact if_pos hv

theorem encodeInt_eq_twos : encodeInt n = BigEndian.twos 32 n := rfl

theorem padLeft_ofNat {m : Nat} (hw : w ≤ 32) (h : m < 256 ^ w) :
    BigEndian.padLeft 32 0 (BigEndian.ofNat w m) = BigEndian.twos 32 m := by
  have hbound : (m : Int) < 256 ^ w := by exact_mod_cast h
  have htwos : BigEndian.twos w m = BigEndian.ofNat w m := by
    rw [BigEndian.twos, Int.emod_eq_of_lt (Int.natCast_nonneg m) hbound, Int.toNat_natCast]
  have hpad := BigEndian.padLeft_twos hw (by omega) hbound
  rwa [htwos, BigEndian.signFill, if_neg (by omega)] at hpad

theorem encodeUnits_ofUnits {low high : Int} {places : Nat} (hlo : low ≤ n) (hhi : n < high) :
    Codec.encodeUnits low high places (.decimal (.ofUnits n places)) =
      .ok (BigEndian.twos 32 n) := by
  simp only [Codec.encodeUnits, Codec.decimalOf?, Decimal.units?_ofUnits]
  exact if_pos ⟨hlo, hhi⟩

section FixedPoint

variable [Address.Rule] {places : Nat} (hl : raw.length = 32) (hw : w ≤ 32)
include hl hw

theorem encodeScalar_of_decodeUfixed (h : decodeUfixed w places raw = .ok v) :
    (Codec.ufixed w places).encodeScalar v = .ok raw := by
  obtain ⟨bytes, hb, rfl⟩ := map_eq_ok.1 h
  obtain ⟨rfl, rfl⟩ := (behind_eq_ok hl hw).1 hb
  have hlt : BigEndian.toNat bytes < 256 ^ bytes.length := BigEndian.lt_pow bytes
  have hbound : (BigEndian.toNat bytes : Int) < Int.pow 256 bytes.length := by
    change (BigEndian.toNat bytes : Int) < 256 ^ bytes.length
    exact_mod_cast hlt
  have hword := padLeft_ofNat hw hlt
  rw [BigEndian.ofNat_toNat] at hword
  rw [hword]
  exact encodeUnits_ofUnits (Int.natCast_nonneg _) hbound

/-- A fixed-point number that was read from a word is encoded as this word. -/
theorem encodeScalar_of_decodeFixed (hpos : 0 < w) (h : decodeFixed w places raw = .ok v) :
    (Codec.fixed w places).encodeScalar v = .ok raw := by
  obtain ⟨n, hn, rfl⟩ := map_eq_ok.1 h
  obtain ⟨bytes, rfl, rfl, rfl⟩ := (decodeSigned_eq_ok hl hw).1 hn
  have hfits := BigEndian.fits_signed (List.length_pos_iff.1 hpos)
  obtain ⟨hlo, hhi⟩ := hfits.bounds hpos
  have hword := BigEndian.padLeft_twos hw hlo hhi
  rw [BigEndian.twos_signed] at hword
  rw [hword]
  exact encodeUnits_ofUnits hfits.1 hfits.2

end FixedPoint

end Encoding

end Abi

namespace Candidate

variable [Address.Rule] {t : Abi.WordType} {d : Abi.Datum} {v given shown : Value}
  {raw : List UInt8}

theorem encodeLeaf_text (hg : fixedBytesOf t.text given = .ok v)
    (h : t.codec.encodeScalar v = .ok raw) (hv : Abi.Codec.isEncodable v)
    (hp : Field.present t.text v = .ok shown) : encodeLeaf t.text given = .ok (raw, shown) := by
  have hcodec : (liftM (Abi.Codec.ofText t.text) : Except Fault Abi.Codec) = .ok t.codec := by
    rw [Abi.WordType.ofText_text]
    rfl
  have hraw : (liftM (t.codec.encodeArgument v) : Except Fault (List UInt8)) = .ok raw := by
    rw [Abi.Codec.encodeArgument_of_isWord Abi.WordType.isWord_codec h hv]
    rfl
  unfold encodeLeaf
  rw [if_neg t.text_ne.1, if_neg t.text_ne.2]
  refine bind_eq_ok.2 ⟨v, hg, bind_eq_ok.2 ⟨t.codec, hcodec, bind_eq_ok.2 ⟨raw, hraw, ?_⟩⟩⟩
  unfold Field.present at hp
  split at hp
  · next ha =>
    obtain ⟨text, htext, rfl⟩ := map_eq_ok.1 hp
    rw [if_pos ha]
    exact bind_eq_ok.2 ⟨text, htext, rfl⟩
  · next ha =>
    rw [if_neg ha]
    cases v <;> cases hp <;> rfl

theorem encodeLeaf_given (h : d.GivenAs v) : encodeLeaf d.type.text v = .ok (d.word, d.shown) := by
  have hother : d.type.isFixedBytes = false → fixedBytesOf d.type.text v = .ok v := by
    intro hf
    cases v with
    | text s => exact if_neg (by rw [Abi.WordType.startsWith_bytes, hf]; exact Bool.false_ne_true)
    | _ => rfl
  cases h with
  | @uint w n h =>
    refine encodeLeaf_text (hother rfl) ?_ rfl (Abi.Datum.present_plain (.uint w n h))
    have hbound : (n : Int) < Int.pow 256 w.bytes := by
      change (n : Int) < 256 ^ w.bytes
      exact_mod_cast h
    refine (if_pos ⟨Int.natCast_nonneg n, hbound⟩).trans ?_
    rw [Abi.encodeInt_eq_twos, Abi.Datum.word, Abi.padLeft_ofNat w.le h]
  | @int w n h =>
    refine encodeLeaf_text (hother rfl) ?_ rfl (Abi.Datum.present_plain (.int w n h))
    obtain ⟨hlo, hhi⟩ := h.bounds w.pos
    refine (if_pos h).trans ?_
    rw [Abi.encodeInt_eq_twos, Abi.Datum.word, BigEndian.padLeft_twos w.le hlo hhi]
  | @bool b =>
    refine encodeLeaf_text (hother rfl) ?_ rfl (Abi.Datum.present_plain (.bool b))
    cases b <;> rfl
  | @address bytes h =>
    refine encodeLeaf_text (hother rfl) (if_pos h) rfl ?_
    exact (if_pos rfl).trans (map_eq_ok.2 ⟨_, Address.checksum_bytes h, rfl⟩)
  | @addressText bytes h s hs hc =>
    have hutf8 := Text.utf8?_keep s
    rw [Text.keep_of_ascii (Address.ascii_of_bytes? hs)] at hutf8
    have hscalar : Abi.Codec.address.encodeScalar (.text s) =
        .ok (Abi.Datum.address bytes h).word := by
      simp only [Abi.Codec.encodeScalar, Address.given?_eq_some.2 ⟨hs, hc⟩, Abi.Datum.word]
    refine encodeLeaf_text (hother rfl) hscalar (Option.isSome_iff_exists.2 ⟨_, hutf8⟩) ?_
    exact (if_pos rfl).trans (map_eq_ok.2 ⟨_, Address.checksum_text_of_bytes? hs, rfl⟩)
  | @fixedBytes w bytes h _ hv =>
    have hbytes : fixedBytesOf (Abi.WordType.fixedBytes w).text v = .ok (.bytes bytes) := by
      cases hv with
      | bytes => rfl
      | text hread =>
        refine (if_pos Abi.WordType.startsWith_bytes).trans ?_
        rw [hread]
    exact encodeLeaf_text hbytes (if_pos (h.trans_le le_rfl)) rfl
      (Abi.Datum.present_plain (.fixedBytes w bytes h))

theorem ofArgument_given (h : d.GivenAs v) : ofArgument (.text d.type.text) v =
    .ok ⟨d.word, d.shown, .text d.type.text, .argument⟩ :=
  map_eq_ok.2 ⟨_, encodeLeaf_given h, rfl⟩

theorem ofArgument_string (u : String) : ofArgument (.text "string") (.text (Text.keep u)) =
    .ok ⟨Text.utf8Bytes u, .text (Text.keep u), .text "string", .argument⟩ := by
  refine map_eq_ok.2 ⟨(Text.utf8Bytes u, .text (Text.keep u)), ?_, rfl⟩
  unfold encodeLeaf
  rw [if_pos rfl]
  simp only [Text.utf8?_keep]
  rfl

theorem ofArgument_bytes {bytes : List UInt8} (h : Abi.GivesBytes bytes v) :
    ofArgument (.text "bytes") v =
      .ok ⟨bytes, .text (Hex.text bytes), .text "bytes", .argument⟩ := by
  have hbytes : bytesOf v = .ok bytes := by
    cases h with
    | bytes => rfl
    | text hread =>
      rw [bytesOf, hread]
      rfl
  refine map_eq_ok.2 ⟨(bytes, .text (Hex.text bytes)), ?_, rfl⟩
  unfold encodeLeaf
  rw [if_neg (by decide), if_pos rfl]
  exact bind_eq_ok.2 ⟨bytes, hbytes, rfl⟩

end Candidate

namespace Field

variable {t : Abi.WordType} {raw raw' : List UInt8}

theorem decodeKey_text (hl : raw.length = 32) : decodeKey (.text t.text) raw =
    (decodeWord t.text raw).map (·.getD (.text (Hex.text raw))) := by
  unfold decodeKey
  split
  · next h => cases h
  · next h => exact absurd (Value.text.inj h) t.text_ne.2
  · next h => exact absurd (Value.text.inj h) t.text_ne.1
  · rw [if_neg (not_not.2 hl)]
    have hlabel : (liftM (Value.text t.text).asText : Except Fault String) = .ok t.text := rfl
    simp only [hlabel, bind, Except.bind, t.abiType?_text]

theorem decodeKey_word (d : Abi.Datum) : decodeKey (.text d.type.text) d.word = .ok d.shown := by
  rw [decodeKey_text d.length_word, d.decodeWord_word]
  rfl

theorem decodeKey_string (u : String) :
    decodeKey (.text "string") (Text.utf8Bytes u) = .ok (.text (Text.keep u)) := by
  change Except.ok ((Text.ofUtf8? (Text.utf8Bytes u)).elim _ Value.text) = _
  rw [Text.ofUtf8?_utf8Bytes, Option.elim_some]

theorem decodeKey_bytes : decodeKey (.text "bytes") raw = .ok (.text (Hex.text raw)) := rfl

theorem decodeKey_cases (hl : raw.length = 32) :
    (∃ d : Abi.Datum, d.type = t ∧ d.word = raw ∧ decodeKey (.text t.text) raw = .ok d.shown) ∨
      decodeKey (.text t.text) raw = .ok (.text (Hex.text raw)) := by
  rcases Abi.Datum.decodeWord_cases t hl with hnone | ⟨d, rfl, rfl⟩
  · right
    rw [decodeKey_text hl, hnone]
    rfl
  · exact .inl ⟨d, rfl, rfl, decodeKey_word d⟩

section Given

variable [Address.Rule]

theorem decodeKey_injective (hl : raw.length = 32) (hl' : raw'.length = 32)
    (h : decodeKey (.text t.text) raw = decodeKey (.text t.text) raw') : raw = raw' := by
  rcases decodeKey_cases (t := t) hl with ⟨d, hd, rfl, hshown⟩ | hshown <;>
    rcases decodeKey_cases (t := t) hl' with ⟨d', hd', rfl, hshown'⟩ | hshown' <;>
    rw [hshown, hshown'] at h <;> have h := Except.ok.inj h
  · have hleaf := Candidate.encodeLeaf_given d.givenAs_shown
    have hleaf' := Candidate.encodeLeaf_given d'.givenAs_shown
    rw [hd, h, ← hd', hleaf'] at hleaf
    exact (congrArg Prod.fst (Except.ok.inj hleaf)).symm
  · exact Abi.Datum.word_of_givenAs_text hl' (h ▸ d.givenAs_shown)
  · exact (Abi.Datum.word_of_givenAs_text hl (h ▸ d'.givenAs_shown)).symm
  · exact Hex.text_inj.1 (Value.text.inj h)

/-- The key that is hashed for an argument is shown as the argument is. A word is shown under a type
of one word as a value that an argument can have and whose word it is, or as it is, and so that no
other word is shown in the same way. -/
theorem decodeKey_ofArgument :
    (∀ (d : Abi.Datum) (v : Value), d.GivenAs v →
      ∃ c, Candidate.ofArgument (.text d.type.text) v = .ok c ∧
        decodeKey (.text d.type.text) c.raw = .ok c.decoded) ∧
    (∀ u : String, ∃ c, Candidate.ofArgument (.text "string") (.text (Text.keep u)) = .ok c ∧
      c.raw = Text.utf8Bytes u ∧
        decodeKey (.text "string") c.raw = .ok (.text (Text.keep u))) ∧
    (∀ (bytes : List UInt8) (v : Value), Abi.GivesBytes bytes v →
      ∃ c, Candidate.ofArgument (.text "bytes") v = .ok c ∧ c.raw = bytes ∧
        decodeKey (.text "bytes") c.raw = .ok (.text (Hex.text bytes))) ∧
    ∀ t : Abi.WordType,
      (∀ raw : List UInt8, raw.length = 32 → ∃ v, decodeKey (.text t.text) raw = .ok v ∧
        ((∃ c, Candidate.ofArgument (.text t.text) v = .ok c ∧ c.raw = raw) ∨
          v = .text (Hex.text raw))) ∧
      ∀ raw raw' : List UInt8, raw.length = 32 → raw'.length = 32 →
        decodeKey (.text t.text) raw = decodeKey (.text t.text) raw' → raw = raw' := by
  refine ⟨fun d v h => ?_, fun u => ?_, fun bytes v h => ?_, fun t => ⟨fun raw hl => ?_, ?_⟩⟩
  · exact ⟨_, Candidate.ofArgument_given h, decodeKey_word d⟩
  · exact ⟨_, Candidate.ofArgument_string u, rfl, decodeKey_string u⟩
  · exact ⟨_, Candidate.ofArgument_bytes h, rfl, decodeKey_bytes⟩
  · rcases decodeKey_cases (t := t) hl with ⟨d, rfl, rfl, hshown⟩ | hshown
    · exact ⟨_, hshown, .inl ⟨_, Candidate.ofArgument_given d.givenAs_shown, rfl⟩⟩
    · exact ⟨_, hshown, .inr rfl⟩
  · exact fun raw raw' hl hl' h => decodeKey_injective hl hl' h

end Given

local instance : Address.Rule := ⟨true⟩

theorem decodeKey_ofArgument_negative :
    let loss : Abi.Datum := .int 0 (-1) ⟨by decide, by decide⟩
    let full : List UInt8 := List.replicate 32 0xff
    let odd : List UInt8 := List.replicate 32 0xfe
    (∃ c, Candidate.ofArgument (.text "int8") (.int (-1)) = .ok c ∧
      decodeKey (.text "int8") c.raw = .ok c.decoded) ∧ loss.word = full ∧
      (∃ c, Candidate.ofArgument (.text "bytes") (.text "0x0102") = .ok c ∧ c.raw = [1, 2] ∧
        decodeKey (.text "bytes") c.raw = .ok (.text (Hex.text [1, 2]))) ∧
      (∃ v, decodeKey (.text "address") full = .ok v ∧
        ((∃ c, Candidate.ofArgument (.text "address") v = .ok c ∧ c.raw = full) ∨
          v = .text (Hex.text full))) ∧
      decodeKey (.text "address") full ≠ decodeKey (.text "address") odd := by
  intro loss full odd
  obtain ⟨hgiven, -, hbytes, hword⟩ := decodeKey_ofArgument
  obtain ⟨hshown, hinj⟩ := hword .address
  refine ⟨hgiven loss (.int (-1)) .int, by decide, hbytes [1, 2] _ (.text (by decide +kernel)),
    hshown full rfl, fun h => ?_⟩
  exact absurd (hinj full odd rfl rfl h) (by decide)

end Field

end SlotLens

import SlotLens.Proofs.Abi.Datum
import Mathlib.Data.List.TakeWhile

/-!
# Values that share a word

A word of storage holds values side by side, each at its offset from the right end. However they are
arranged, each of them is read back from its own bytes, whatever stands beside it. A field that is
as large as its type has a value, unless it is meant as a truth value and is neither 0 nor 1.
-/

namespace SlotLens

namespace Text

theorem prefix_trim {c : Char} {first s : List Char} (hc : isBlank c = false)
    (hs : ∃ d ∈ s, isBlank d = false) : c :: first <+: trim (c :: first ++ s) := by
  have hstart : trimStart (c :: first ++ s) = c :: first ++ s :=
    dropWhile_of_head? fun d hd => by
      cases hd
      exact hc
  obtain ⟨d, hd, hink⟩ := hs
  have hend : s.reverse.dropWhile isBlank ≠ [] := by
    intro h
    have := List.dropWhile_eq_nil_iff.1 h d (List.mem_reverse.2 hd)
    rw [hink] at this
    cases this
  rw [trim, hstart, List.reverse_append, trimStart, List.dropWhile_append,
    if_neg (by simpa using hend), List.reverse_append, List.reverse_reverse]
  exact List.prefix_append _ _

end Text

structure TypeName where
  text : String
  hasInk : ∃ c ∈ text.toList, Text.isBlank c = false

inductive ValueType where
  | elementary (t : Abi.WordType)
  | payable
  | contract (name : TypeName)
  | enum (name : TypeName) (w : Abi.Width)

namespace ValueType

def label : ValueType → String
  | .elementary t => t.text
  | .payable => "address payable"
  | .contract name => "contract " ++ name.text
  | .enum name _ => "enum " ++ name.text

def abi : ValueType → Abi.WordType
  | .elementary t => t
  | .payable => .address
  | .contract _ => .address
  | .enum _ w => .uint w

theorem abiType?_contract (name : TypeName) (size : Option Int) :
    Field.abiType? ("contract " ++ name.text) size = some "address" := by
  have hprefix : "contract ".toList <+: Text.trim ("contract " ++ name.text).toList := by
    rw [String.toList_append]
    exact Text.prefix_trim (by decide) name.hasInk
  have hcontract := List.isPrefixOf_iff_prefix.2 hprefix
  simp only [Field.abiType?, hcontract, or_true, if_true]

theorem abiType?_enum (name : TypeName) (size : Option Int) :
    Field.abiType? ("enum " ++ name.text) size =
      some ("uint" ++ toString (Field.enumBits size)) := by
  have hprefix : "enum ".toList <+: Text.trim ("enum " ++ name.text).toList := by
    rw [String.toList_append]
    exact Text.prefix_trim (by decide) name.hasInk
  have henum := List.isPrefixOf_iff_prefix.2 hprefix
  have hne : ∀ s : String, ¬ "enum ".toList <+: s.toList →
      String.ofList (Text.trim ("enum " ++ name.text).toList) ≠ s := by
    intro s hs h
    have htext : s.toList = Text.trim ("enum " ++ name.text).toList := by
      rw [← h]
      exact String.toList_ofList
    exact hs (htext ▸ hprefix)
  have hcontract : ¬ "contract ".toList.isPrefixOf (Text.trim ("enum " ++ name.text).toList) := by
    intro h
    have hshort := List.prefix_of_prefix_length_le hprefix (List.isPrefixOf_iff_prefix.1 h)
      (by decide)
    exact absurd hshort (by decide)
  simp only [Field.abiType?, henum, hne "address" (by decide), hne "address payable" (by decide),
    hne "bool" (by decide), hcontract, if_false, if_true]
  rfl

theorem abiType?_label (t : ValueType) :
    Field.abiType? t.label (some (t.abi.size : Int)) = some t.abi.text := by
  cases t with
  | elementary t => exact t.abiType?_text _
  | payable => decide +kernel
  | contract name => exact abiType?_contract name _
  | enum name w =>
    have hbits : Field.enumBits (some (w.bytes : Int)) = ((8 * w.bytes : Nat) : Int) := by
      have := w.pos
      rw [Field.enumBits, if_neg (by omega), Int.natCast_mul]
      rfl
    rw [label, abiType?_enum]
    change some ("uint" ++ toString (Field.enumBits (some (w.bytes : Int)))) = _
    rw [hbits]
    rfl

theorem decode_stored {t : ValueType} {d : Abi.Datum} (h : d.type = t.abi) :
    Field.decode (.text t.label) d.stored = .ok d.shown := by
  refine bind_eq_ok.2 ⟨t.label, rfl, ?_⟩
  rw [Abi.Datum.length_stored, h, abiType?_label]
  refine map_eq_ok.2 ⟨some d.shown, ?_, rfl⟩
  rw [← h, Abi.Datum.toWord_stored, Abi.Datum.decodeWord_word]

theorem exists_decode {t : ValueType} {field : List UInt8} (hl : field.length = t.abi.size) :
    ∃ v, Field.decode (.text t.label) field = .ok v ∧
      (v = .null ↔ t.abi = .bool ∧ field ≠ [0] ∧ field ≠ [1]) := by
  rcases Abi.Datum.exists_stored hl with ⟨d, ht, rfl⟩ | ⟨ht, h0, h1⟩
  · refine ⟨d.shown, decode_stored ht, iff_of_false d.shown_ne_null ?_⟩
    rintro ⟨hbool, h0, h1⟩
    rw [hbool] at ht
    cases d with
    | bool b =>
      cases b with
      | false => exact h0 rfl
      | true => exact h1 rfl
    | _ => cases ht
  · refine ⟨.null, bind_eq_ok.2 ⟨t.label, rfl, ?_⟩, iff_of_true rfl ⟨ht, h0, h1⟩⟩
    rw [hl, abiType?_label, ht]
    rw [ht] at hl
    exact map_eq_ok.2 ⟨none, Abi.Datum.decodeWord_toWord_bool hl h0 h1, rfl⟩

end ValueType

structure StoredField where
  type : ValueType
  datum : Abi.Datum
  typed : datum.type = type.abi
  offset : Nat
  fits : offset + type.abi.size ≤ 32

namespace StoredField

def size (f : StoredField) : Nat := f.type.abi.size

/-- A word that holds the bytes of a value at its place, and any bytes beside them. -/
def IsIn (f : StoredField) (word : Word) : Prop :=
  ∃ front back, word.bytes = front ++ f.datum.stored ++ back ∧ back.length = f.offset

def Apart (f g : StoredField) : Prop :=
  f.offset + f.size ≤ g.offset ∨ g.offset + g.size ≤ f.offset

variable {f g : StoredField} {word : Word} {fields : List StoredField}

theorem length_stored (f : StoredField) : f.datum.stored.length = f.size := by
  rw [Abi.Datum.length_stored, f.typed, size]

theorem isIn_iff : f.IsIn word ↔
    (word.bytes.take (32 - f.offset)).drop (32 - f.offset - f.size) = f.datum.stored := by
  have hstored := f.length_stored
  have hfits : f.offset + f.size ≤ 32 := f.fits
  have hword := word.length_bytes
  constructor
  · rintro ⟨front, back, hbytes, hback⟩
    rw [hbytes, List.length_append, List.length_append] at hword
    rw [hbytes, List.take_left' (by rw [List.length_append]; omega), List.drop_left' (by omega)]
  · intro h
    refine ⟨(word.bytes.take (32 - f.offset)).take (32 - f.offset - f.size),
      word.bytes.drop (32 - f.offset), ?_, ?_⟩
    · rw [← h, List.take_append_drop, List.take_append_drop]
    · rw [List.length_drop]
      omega

theorem extract_of_isIn (h : f.IsIn word) :
    Field.extract word.bytes f.offset f.size = .ok f.datum.stored := by
  have hfits : f.offset + f.size ≤ 32 := f.fits
  have hpos : 0 < f.size := Abi.WordType.size_pos
  rw [Field.extract, if_pos (by omega), Int.toNat_natCast, Int.toNat_natCast]
  exact congrArg Except.ok (isIn_iff.1 h)

def write (f : StoredField) (word : Word) : Word where
  bytes := word.bytes.take (32 - f.offset - f.size) ++ f.datum.stored ++
    word.bytes.drop (32 - f.offset)
  length_bytes := by
    have hfits : f.offset + f.size ≤ 32 := f.fits
    rw [List.length_append, List.length_append, List.length_take, List.length_drop,
      f.length_stored, word.length_bytes]
    omega

theorem isIn_write : f.IsIn (f.write word) := by
  refine ⟨_, _, rfl, ?_⟩
  have hfits : f.offset + f.size ≤ 32 := f.fits
  rw [List.length_drop, word.length_bytes]
  omega

theorem getElem?_write {i : Nat} (hi : i < 32 - g.offset - g.size ∨ 32 - g.offset ≤ i) :
    (g.write word).bytes[i]? = word.bytes[i]? := by
  have hfits : g.offset + g.size ≤ 32 := g.fits
  have hfront : (word.bytes.take (32 - g.offset - g.size)).length = 32 - g.offset - g.size := by
    rw [List.length_take, word.length_bytes]
    omega
  have hstop : (word.bytes.take (32 - g.offset - g.size) ++ g.datum.stored).length =
      32 - g.offset := by
    rw [List.length_append, hfront, g.length_stored]
    omega
  rw [write]
  rcases hi with hi | hi
  · rw [List.getElem?_append_left (by omega), List.getElem?_append_left (by omega),
      List.getElem?_take_of_lt hi]
  · rw [List.getElem?_append_right (by omega), hstop, List.getElem?_drop,
      Nat.add_sub_cancel' hi]

/-- Setting a value leaves the values beside it. -/
theorem isIn_write_of_apart (ha : f.Apart g) (h : f.IsIn word) : f.IsIn (g.write word) := by
  rw [isIn_iff] at h ⊢
  have hfits : f.offset + f.size ≤ 32 := f.fits
  rw [← h, drop_take_eq_iff]
  intro i hstart hstop
  refine getElem?_write ?_
  rcases ha with ha | ha
  · right
    omega
  · left
    omega

def pack (fields : List StoredField) (word : Word) : Word :=
  fields.foldl (fun word f => f.write word) word

theorem isIn_pack_of_apart (ha : ∀ g ∈ fields, f.Apart g) (h : f.IsIn word) :
    f.IsIn (pack fields word) := by
  induction fields generalizing word with
  | nil => exact h
  | cons g fields ih =>
    obtain ⟨hg, ha⟩ := List.forall_mem_cons.1 ha
    exact ih ha (isIn_write_of_apart hg h)

theorem isIn_pack (ha : fields.Pairwise Apart) (hf : f ∈ fields) : f.IsIn (pack fields word) := by
  induction fields generalizing word with
  | nil => cases hf
  | cons g fields ih =>
    obtain ⟨hg, ha⟩ := List.pairwise_cons.1 ha
    rw [pack, List.foldl_cons, ← pack]
    rcases List.mem_cons.1 hf with rfl | hf
    · exact isIn_pack_of_apart hg isIn_write
    · exact ih ha hf

/-- Each value that a word holds is read back from its bytes, and values whose places lie apart are
all held by one word, whatever it holds beside them. Bytes of the size of a type have a value,
unless they are no truth value and have to be one. -/
theorem decode_packed :
    (∀ (fields : List StoredField) (word : Word), (∀ f ∈ fields, f.IsIn word) → ∀ f ∈ fields,
      (Field.extract word.bytes f.offset f.size >>= Field.decode (.text f.type.label)) =
        .ok f.datum.shown) ∧
    (∀ (fields : List StoredField) (word : Word), fields.Pairwise Apart →
      ∀ f ∈ fields, f.IsIn (pack fields word)) ∧
    ∀ (t : ValueType) (field : List UInt8), field.length = t.abi.size →
      ∃ v, Field.decode (.text t.label) field = .ok v ∧
        (v = .null ↔ t.abi = .bool ∧ field ≠ [0] ∧ field ≠ [1]) := by
  refine ⟨fun fields word h f hf => ?_, fun fields word ha f hf => isIn_pack ha hf,
    fun t field hl => ValueType.exists_decode hl⟩
  exact bind_eq_ok.2 ⟨_, extract_of_isIn (h f hf), ValueType.decode_stored f.typed⟩

theorem decode_packed_three :
    let balance : StoredField :=
      ⟨.elementary (.int 1), .int 1 (-2) ⟨by decide, by decide⟩, rfl, 0, by decide⟩
    let active : StoredField := ⟨.elementary .bool, .bool true, rfl, 2, by decide⟩
    let owner : StoredField := ⟨.payable, .address (List.replicate 20 0) rfl, rfl, 3, by decide⟩
    let word := pack [balance, active, owner] (Word.ofNat 7)
    [balance, active, owner].Pairwise Apart ∧
      (Field.extract word.bytes 0 2 >>= Field.decode (.text "int16")) = .ok (.int (-2)) ∧
      (Field.extract word.bytes 2 1 >>= Field.decode (.text "bool")) = .ok (.bool true) ∧
      (Field.extract word.bytes 3 20 >>= Field.decode (.text "address payable")) =
        .ok owner.datum.shown ∧
      Field.decode (.text "bool") [2] = .ok .null := by
  intro balance active owner word
  obtain ⟨hread, hpack, hfield⟩ := decode_packed
  have hapart : [balance, active, owner].Pairwise Apart := by
    simp only [List.pairwise_cons, List.mem_cons, List.not_mem_nil, or_false, forall_eq_or_imp,
      forall_eq, false_imp_iff, implies_true, List.Pairwise.nil, and_true]
    exact ⟨⟨.inl (by decide), .inl (by decide)⟩, .inl (by decide)⟩
  have hread := hread _ word (hpack _ (Word.ofNat 7) hapart)
  refine ⟨hapart, hread balance (by simp), hread active (by simp), hread owner (by simp), ?_⟩
  obtain ⟨v, hv, hnull⟩ := hfield (.elementary .bool) [2] rfl
  rw [hnull.2 ⟨rfl, by decide, by decide⟩] at hv
  exact hv

end StoredField

end SlotLens

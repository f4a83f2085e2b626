import SlotLens.Json.Printer
import SlotLens.Proofs.Text.Ascii

namespace SlotLens

open Text

namespace Binary64

theorem isAscii_exponentText (e : Int) : IsAscii (exponentText e) := by
  have hdigits := isAscii_toDigits e.natAbs
  rw [exponentText, isAscii_cons]
  refine ⟨by split <;> decide, ?_⟩
  split
  · exact isAscii_cons.2 ⟨by decide, hdigits⟩
  · exact hdigits

theorem isAscii_layOut {digits : List Char} (h : IsAscii digits) (place : Int) :
    IsAscii (layOut digits place) := by
  have hzeros (n : Nat) : IsAscii (List.replicate n '0') := isAscii_replicate n (by decide)
  have htake (n : Nat) : IsAscii (digits.take n) := h.mono (List.take_subset n digits)
  have hdrop (n : Nat) : IsAscii (digits.drop n) := h.mono (List.drop_subset n digits)
  have htail : IsAscii digits.tail := h.mono (List.tail_sublist digits).subset
  rw [layOut]
  split
  · split <;> simp [*, isAscii_exponentText]
  split
  · simp [*]
  · dsimp only
    split <;> simp [*]

theorem isAscii_unsignedText (digits : Nat) (exponent : Int) :
    IsAscii (unsignedText digits exponent) := by
  have htrim {s : List Char} (h : IsAscii s) :
      IsAscii (s.reverse.dropWhile (· == '0')).reverse := by
    refine h.mono fun c hc => ?_
    exact List.mem_reverse.1 (List.dropWhile_subset _ (List.mem_reverse.1 hc))
  rw [unsignedText]
  split
  · decide
  · exact isAscii_layOut (htrim (isAscii_toDigits _)) _

theorem isAscii_text (x : Binary64) : IsAscii x.text.toList := by
  cases x with
  | finite isNegative digits exponent =>
    rw [text, String.toList_ofList, isAscii_append]
    refine ⟨?_, isAscii_unsignedText digits exponent⟩
    cases isNegative <;> decide
  | infinite isNegative => cases isNegative <;> decide
  | nan => decide

end Binary64

namespace Json

theorem isAscii_hexDigits (width n : Nat) : IsAscii (hexDigits width n) := by
  have hdigit : ∀ d : Fin 16, (hexDigit d).toNat < 128 := by decide
  induction width generalizing n with
  | zero => exact isAscii_nil
  | succ width ih =>
    rw [hexDigits, isAscii_append]
    exact ⟨ih _, isAscii_cons.2 ⟨hdigit ⟨n % 16, Nat.mod_lt n (by decide)⟩, isAscii_nil⟩⟩

theorem isAscii_codeUnit (n : Nat) : IsAscii (codeUnit n) := by
  simp [codeUnit, isAscii_hexDigits]

theorem isAscii_printChar (c : Char) : IsAscii (printChar c) := by
  unfold printChar
  iterate 7
    split
    · decide
  split
  · next h => exact isAscii_cons.2 ⟨by omega, isAscii_nil⟩
  · exact isAscii_codeUnit _

theorem isAscii_printPoint (n : Nat) : IsAscii (printPoint n) := by
  rw [printPoint]
  split
  · exact isAscii_printChar _
  split
  · exact isAscii_codeUnit n
  · exact isAscii_append.2 ⟨isAscii_codeUnit _, isAscii_codeUnit _⟩

theorem isAscii_printText (s : String) : IsAscii (printText s).toList := by
  simp [printText, isAscii_flatMap fun n _ => isAscii_printPoint n]

theorem isAscii_toString (n : Int) : IsAscii (toString n).toList := by
  cases n with
  | ofNat n =>
    change IsAscii (String.ofList (Nat.toDigits 10 n)).toList
    simp [isAscii_toDigits]
  | negSucc n =>
    change IsAscii ("-" ++ String.ofList (Nat.toDigits 10 (n + 1))).toList
    simp [isAscii_toDigits]

theorem isAscii_printReal (x : Binary64) : IsAscii (printReal x).toList := by
  unfold printReal
  split
  · decide
  · split <;> decide
  · exact x.isAscii_text

theorem isAscii_printScalar (v : Value) : IsAscii (printScalar v).toList := by
  unfold printScalar
  split
  · decide
  · split <;> decide
  · exact isAscii_toString _
  · exact isAscii_printReal _
  · exact isAscii_printText _
  · exact isAscii_printText _

theorem isAscii_lineBreak (level : Nat) : IsAscii (lineBreak level).toList := by
  simp [lineBreak, isAscii_replicate]

theorem isAscii_printKey (v : Value) : IsAscii (printKey v).toList := by
  unfold printKey
  split <;> exact isAscii_printText _

theorem isAscii_block {left right : String} {parts : List String} (hl : IsAscii left.toList)
    (hr : IsAscii right.toList) (h : ∀ part ∈ parts, IsAscii part.toList) (level : Nat) :
    IsAscii (left ++ lineBreak (level + 1) ++
      ("," ++ lineBreak (level + 1)).intercalate parts ++ lineBreak level ++ right).toList := by
  have hbreak (level : Nat) := isAscii_lineBreak level
  have hsep : IsAscii ("," ++ lineBreak (level + 1)).toList := by
    simp [hbreak]
  simp only [String.toList_append, isAscii_append]
  exact ⟨⟨⟨⟨hl, hbreak _⟩, isAscii_intercalate hsep h⟩, hbreak _⟩, hr⟩

mutual
theorem isAscii_printAt (level : Nat) (v : Value) : IsAscii (printAt level v).toList := by
  cases v with
  | list items =>
    have hitems := isAscii_printItems (level + 1) items
    unfold printAt
    cases items with
    | nil => exact (by decide : IsAscii "[]".toList)
    | cons => exact isAscii_block (by decide) (by decide) hitems level
  | object members =>
    have hmembers := isAscii_printMembers (level + 1) members
    unfold printAt
    cases members with
    | nil => exact (by decide : IsAscii "\x7b\x7d".toList)
    | cons => exact isAscii_block (by decide) (by decide) hmembers level
  | keyed entries =>
    have hentries := isAscii_printEntries (level + 1) entries
    unfold printAt
    cases entries with
    | nil => exact (by decide : IsAscii "\x7b\x7d".toList)
    | cons => exact isAscii_block (by decide) (by decide) hentries level
  | _ =>
    unfold printAt
    exact isAscii_printScalar _

theorem isAscii_printItems (level : Nat) (items : List Value) :
    ∀ part ∈ printItems level items, IsAscii part.toList := by
  cases items with
  | nil => simp [printItems]
  | cons v rest =>
    rw [printItems, List.forall_mem_cons]
    exact ⟨isAscii_printAt level v, isAscii_printItems level rest⟩

theorem isAscii_printMembers (level : Nat) (members : List (String × Value)) :
    ∀ part ∈ printMembers level members, IsAscii part.toList := by
  cases members with
  | nil => simp [printMembers]
  | cons e rest =>
    rw [printMembers, List.forall_mem_cons]
    refine ⟨?_, isAscii_printMembers level rest⟩
    simp [isAscii_printText, isAscii_printAt level e.2]

theorem isAscii_printEntries (level : Nat) (entries : List (Value × Value)) :
    ∀ part ∈ printEntries level entries, IsAscii part.toList := by
  cases entries with
  | nil => simp [printEntries]
  | cons e rest =>
    rw [printEntries, List.forall_mem_cons]
    refine ⟨?_, isAscii_printEntries level rest⟩
    simp [isAscii_printKey, isAscii_printAt level e.2]
end

end Json

end SlotLens

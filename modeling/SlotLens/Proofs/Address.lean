import SlotLens.AddressMap
import SlotLens.Proofs.Hex
import SlotLens.Proofs.Outcome
import SlotLens.Proofs.Table
import SlotLens.Proofs.Text.Ascii
import SlotLens.Proofs.Text.Lowercase

namespace SlotLens

namespace Text

theorem length_points_replicate {c : Char} (hc : c ≠ mark) (n : Nat) (rest : List Char) :
    (points (List.replicate n c ++ rest)).length = n + (points rest).length := by
  induction n with
  | zero => simp
  | succ n ih =>
    rw [List.replicate_succ, List.cons_append, points_cons hc, List.length_cons, ih]
    omega

end Text

namespace Address

def filled (digits : List Char) : List Char :=
  List.replicate (40 - (Text.points digits).length) '0' ++ digits

theorem toList_normalize (s : String) : (normalize s).toList =
    '0' :: 'x' :: filled (Text.lower (Hex.dropMark (Text.trim s.toList))) := by
  rw [normalize, String.toList_ofList, filled, List.cons_append, List.cons_append]

theorem filled_filled (digits : List Char) : filled (filled digits) = filled digits := by
  have hlength : 40 - (Text.points (filled digits)).length = 0 := by
    rw [filled, Text.length_points_replicate (by decide)]
    omega
  rw [filled, hlength]
  rfl

theorem isLower_filled {digits : List Char} (h : ∀ c ∈ digits, Text.IsLower c) {c : Char}
    (hc : c ∈ filled digits) : Text.IsLower c := by
  rcases List.mem_append.1 hc with hc | hc
  · rw [List.eq_of_mem_replicate hc]
    exact Text.isLower_of_ascii (by decide) (by decide)
  · exact h c hc

theorem isBlank_of_mem_getLast?_filled {digits : List Char}
    (h : ∀ c ∈ digits.getLast?, Text.isBlank c = false) {c : Char}
    (hc : c ∈ (filled digits).getLast?) : Text.isBlank c = false := by
  rw [filled, List.getLast?_append] at hc
  cases hd : digits.getLast? with
  | some d =>
    rw [hd] at hc
    cases hc
    exact h c hd
  | none =>
    rw [hd] at hc
    rw [List.eq_of_mem_replicate (List.mem_of_getLast? hc)]
    decide

theorem normalize_normalize (s : String) : normalize (normalize s) = normalize s := by
  have hend : ∀ c ∈ (Text.lower (Hex.dropMark (Text.trim s.toList))).getLast?,
      Text.isBlank c = false := by
    intro c hc
    refine Text.isBlank_of_mem_getLast?_lowerAfter (fun c hc => ?_) hc
    obtain ⟨front, hfront⟩ := Hex.dropMark_suffix (Text.trim s.toList)
    have hlast := congrArg List.getLast? hfront
    rw [List.getLast?_append, Option.mem_def.1 hc, Option.some_or] at hlast
    exact Text.isBlank_of_mem_getLast?_trim hlast.symm
  have htrim : Text.trim (normalize s).toList = (normalize s).toList := by
    refine Text.trim_of_ends ?_ ?_
    · rw [toList_normalize]
      intro c hc
      cases hc
      decide
    · rw [toList_normalize]
      intro c hc
      cases hf : filled (Text.lower (Hex.dropMark (Text.trim s.toList))) with
      | nil =>
        rw [hf] at hc
        cases hc
        decide
      | cons d rest =>
        rw [hf, List.getLast?_cons_cons, List.getLast?_cons_cons] at hc
        exact isBlank_of_mem_getLast?_filled hend (hf ▸ hc)
  have hlower : Text.lower (filled (Text.lower (Hex.dropMark (Text.trim s.toList)))) =
      filled (Text.lower (Hex.dropMark (Text.trim s.toList))) :=
    Text.lower_of_isLower fun c => isLower_filled fun c => Text.isLower_lower
  refine String.toList_inj.1 ?_
  rw [toList_normalize, htrim, toList_normalize, Hex.dropMark, hlower, filled_filled]

end Address

namespace AddressMap

variable {β : Type} {entries : List (String × β)} {m : AddressMap β} {address : String} {v : β}

theorem get?_eq_some : m.get? address = some v ↔ (Address.normalize address, v) ∈ m.entries :=
  Table.get?_eq_some

theorem entries_insert (h : Address.normalize address = address) :
    (m.insert address v).entries = Entries.put address v m.entries := by
  rw [insert, h]
  rfl

theorem entries_ofList (hn : (entries.map Prod.fst).Nodup)
    (hk : ∀ e ∈ entries, Address.normalize e.1 = e.1) : (ofList entries).entries = entries := by
  have hfold (m : AddressMap β) : (entries.foldl (fun m e => m.insert e.1 e.2) m).entries =
      entries.foldl (fun t e => Entries.put e.1 e.2 t) m.entries := by
    clear hn
    induction entries generalizing m with
    | nil => rfl
    | cons e entries ih =>
      obtain ⟨he, hk⟩ := List.forall_mem_cons.1 hk
      rw [List.foldl_cons, List.foldl_cons, ih hk, entries_insert he]
  rw [ofList, insertAll, Entries.ofList_of_nodup hn, hfold]
  exact Entries.ofList_of_nodup hn

end AddressMap

end SlotLens

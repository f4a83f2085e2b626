import SlotLens.Bytes.Hex
import SlotLens.Text.Numeral

namespace SlotLens.Hex

variable {c : Char} {s : List Char} {bytes : List UInt8}

theorem isDigit_digit {n : Nat} (h : n < 16) : isDigit (digit n) := by
  rw [isDigit, value?_digit h]
  rfl

theorem isDigit_of_mem_encode {bytes : List UInt8} (hc : c ∈ encode bytes) :
    isDigit c := by
  induction bytes with
  | nil => exact absurd hc List.not_mem_nil
  | cons b bytes ih =>
    have hb := b.toNat_lt
    rcases List.mem_cons.1 hc with rfl | hc
    · exact isDigit_digit (by omega)
    · rcases List.mem_cons.1 hc with rfl | hc
      · exact isDigit_digit (by omega)
      · exact ih hc

theorem toNat_of_isDigit (h : isDigit c) : 48 ≤ c.toNat ∧ c.toNat ≤ 102 := by
  simp only [isDigit, value?] at h
  split at h
  · omega
  split at h
  · omega
  split at h
  · omega
  · cases h

theorem value?_lt {n : Nat} (h : value? c = some n) : n < 16 := by
  simp only [value?] at h
  grind

theorem isBlank_of_isDigit (h : isDigit c) : Text.isBlank c = false := by
  have hc := toNat_of_isDigit h
  simp only [Text.isBlank, Text.blankRanges, List.any_eq_false, List.forall_mem_cons,
    List.not_mem_nil, false_imp_iff, implies_true, and_true, Bool.and_eq_true, decide_eq_true_eq]
  omega

theorem text_inj {b b' : List UInt8} : text b = text b' ↔ b = b' := by
  constructor
  · intro h
    have hdigits : encode b = encode b' := by
      simpa [text, String.ofList_inj] using h
    have hdecode := congrArg decode? hdigits
    rw [decode?_encode, decode?_encode] at hdecode
    exact Option.some.inj hdecode
  · rintro rfl
    rfl

theorem dropMark_suffix (s : List Char) : dropMark s <:+ s := by
  unfold dropMark
  split
  · exact ⟨['0', 'x'], rfl⟩
  · exact ⟨['0', 'X'], rfl⟩
  · exact List.suffix_refl _

theorem dropMark_of_digits (h : ∀ c ∈ s, isDigit c) : dropMark s = s := by
  unfold dropMark
  split
  · exact absurd (h 'x' (by simp)) (by decide)
  · exact absurd (h 'X' (by simp)) (by decide)
  · rfl

theorem isBlank_of_head?_dropMark (h : ∀ c ∈ dropMark s, isDigit c) :
    ∀ c ∈ s.head?, Text.isBlank c = false := by
  unfold dropMark at h
  split at h
  · rintro c ⟨⟩
    decide
  · rintro c ⟨⟩
    decide
  · exact fun c hc => isBlank_of_isDigit (h c (List.mem_of_mem_head? hc))

theorem exists_decode? (h : ∀ c ∈ s, isDigit c) (he : 2 ∣ s.length) :
    ∃ bytes, decode? s = some bytes ∧ 2 * bytes.length = s.length := by
  induction s using decode?.induct with
  | case1 => exact ⟨[], rfl, rfl⟩
  | case2 => simp at he
  | case3 high low rest ih =>
    obtain ⟨hh, hl, hrest⟩ := by simpa using h
    rw [List.length_cons, List.length_cons] at he
    obtain ⟨bytes, hbytes, hlen⟩ := ih hrest (by omega)
    obtain ⟨m, hm⟩ := Option.isSome_iff_exists.1 hh
    obtain ⟨n, hn⟩ := Option.isSome_iff_exists.1 hl
    refine ⟨UInt8.ofNat (m * 16 + n) :: bytes, ?_, ?_⟩
    · simp [decode?, hm, hn, hbytes]
    · simp only [List.length_cons]
      omega

theorem decode?_eq_some {high low : Char} {rest : List Char} :
    decode? (high :: low :: rest) = some bytes ↔ ∃ m n tail, value? high = some m ∧
      value? low = some n ∧ decode? rest = some tail ∧ bytes = UInt8.ofNat (m * 16 + n) :: tail := by
  simp only [decode?, Option.bind_eq_bind, Option.bind_eq_some_iff, Option.pure_def,
    Option.some.injEq, exists_and_left, eq_comm (b := bytes)]

theorem isDigit_of_decode? (h : decode? s = some bytes) : ∀ c ∈ s, isDigit c := by
  induction s using decode?.induct generalizing bytes with
  | case1 => exact fun c hc => absurd hc List.not_mem_nil
  | case2 => cases h
  | case3 high low rest ih =>
    obtain ⟨m, n, tail, hm, hn, htail, -⟩ := decode?_eq_some.1 h
    simp only [List.forall_mem_cons, isDigit, hm, hn, Option.isSome_some, true_and]
    exact ih htail

theorem length_of_decode? (h : decode? s = some bytes) : s.length = 2 * bytes.length := by
  induction s using decode?.induct generalizing bytes with
  | case1 =>
    cases h
    rfl
  | case2 => cases h
  | case3 high low rest ih =>
    obtain ⟨m, n, tail, -, -, htail, rfl⟩ := decode?_eq_some.1 h
    simp only [List.length_cons, ih htail]
    omega

theorem dropMark_text (bytes : List UInt8) : dropMark (text bytes).toList = encode bytes := by
  rw [text, String.toList_ofList, dropMark]

theorem read_of_decode? (h : decode? (dropMark s) = some bytes) (he : s.length % 2 = 0) :
    read s = .ok bytes := by
  have hascii : (dropMark s).any (fun c => 0x80 ≤ c.toNat) = false := by
    rw [List.any_eq_false]
    intro c hc
    have := toNat_of_isDigit (isDigit_of_decode? h c hc)
    simp only [decide_eq_true_eq]
    omega
  have hodd : ¬ s.length % 2 = 1 := by omega
  simp only [read, if_neg hodd, hascii, Bool.false_eq_true, if_false, h]

theorem exists_read (h : ∀ c ∈ s, isDigit c) (he : 2 ∣ s.length) :
    ∃ bytes, read s = .ok bytes ∧ 2 * bytes.length = s.length := by
  obtain ⟨bytes, hbytes, hlen⟩ := exists_decode? h he
  refine ⟨bytes, read_of_decode? ?_ (Nat.mod_eq_zero_of_dvd he), hlen⟩
  rw [dropMark_of_digits h, hbytes]

theorem read_text (bytes : List UInt8) : read (text bytes).toList = .ok bytes := by
  refine read_of_decode? (by rw [dropMark_text, decode?_encode]) ?_
  rw [text, String.toList_ofList, List.length_cons, List.length_cons, length_encode]
  omega

end SlotLens.Hex

import SlotLens.Slot
import SlotLens.Proofs.BigEndian
import SlotLens.Proofs.Hex
import SlotLens.Proofs.Outcome
import SlotLens.Proofs.Text.Lowercase

namespace SlotLens

namespace Hex

variable {c : Char} {s : List Char} {bytes : List UInt8}

def push (n : Nat) (c : Char) : Nat :=
  match value? c with
  | some d => n * 16 + d
  | none => n

theorem push_of_value? {d : Nat} (hc : value? c = some d) (n : Nat) : push n c = n * 16 + d := by
  rw [push, hc]

theorem toNat_eq_foldl (s : List Char) : toNat s = s.foldl push 0 := rfl

theorem foldl_push (hs : ∀ c ∈ s, isDigit c) (n : Nat) :
    s.foldl push n = n * 16 ^ s.length + toNat s := by
  induction s generalizing n with
  | nil => simp [toNat]
  | cons c s ih =>
    obtain ⟨hc, hs⟩ := List.forall_mem_cons.1 hs
    obtain ⟨d, hd⟩ := Option.isSome_iff_exists.1 hc
    rw [toNat_eq_foldl, List.foldl_cons, List.foldl_cons, ih hs, ih hs, push_of_value? hd,
      push_of_value? hd, List.length_cons, Nat.pow_succ]
    ring

theorem toNat_cons {d : Nat} (hc : value? c = some d) (hs : ∀ c ∈ s, isDigit c) :
    toNat (c :: s) = d * 16 ^ s.length + toNat s := by
  rw [toNat_eq_foldl, List.foldl_cons, foldl_push hs, push_of_value? hc, Nat.zero_mul, Nat.zero_add]

theorem toNat_of_decode? (h : decode? s = some bytes) : BigEndian.toNat bytes = toNat s := by
  induction s using decode?.induct generalizing bytes with
  | case1 =>
    cases h
    rfl
  | case2 => cases h
  | case3 high low rest ih =>
    obtain ⟨m, n, tail, hm, hn, htail, rfl⟩ := decode?_eq_some.1 h
    have hdigits := isDigit_of_decode? htail
    have hlow : ∀ c ∈ low :: rest, isDigit c :=
      List.forall_mem_cons.2 ⟨Option.isSome_iff_exists.2 ⟨n, hn⟩, hdigits⟩
    have hbyte : (UInt8.ofNat (m * 16 + n)).toNat = m * 16 + n := by
      have := value?_lt hm
      have := value?_lt hn
      exact UInt8.toNat_ofNat_of_lt' (by simp only [UInt8.size]; omega)
    have hpow : 16 ^ rest.length = 256 ^ tail.length := by
      rw [length_of_decode? htail, Nat.pow_mul]
    rw [BigEndian.toNat_cons, hbyte, ih htail, toNat_cons hm hlow, toNat_cons hn hdigits,
      List.length_cons, Nat.pow_succ, hpow]
    ring

theorem trim_of_digits (h : ∀ c ∈ dropMark s, isDigit c) (hne : dropMark s ≠ []) :
    Text.trim s = s := by
  refine Text.trim_of_ends (isBlank_of_head?_dropMark h) fun c hc => ?_
  obtain ⟨front, hfront⟩ := dropMark_suffix s
  rw [← hfront, List.getLast?_append_of_ne_nil _ hne] at hc
  exact isBlank_of_isDigit (h c (List.mem_of_mem_getLast? hc))

def IsMarked (s : List Char) : Prop := ∃ rest, s = '0' :: 'x' :: rest ∨ s = '0' :: 'X' :: rest

theorem isMarked_or (s : List Char) : IsMarked s ∨ dropMark s = s := by
  unfold dropMark
  split
  · exact .inl ⟨_, .inl rfl⟩
  · exact .inl ⟨_, .inr rfl⟩
  · exact .inr rfl

theorem IsMarked.length_eq (h : IsMarked s) : s.length = (dropMark s).length + 2 := by
  obtain ⟨rest, rfl | rfl⟩ := h <;> rfl

theorem read_eq_ok (he : s.length % 2 = 0) : read s = .ok bytes ↔ decode? (dropMark s) = some bytes := by
  constructor
  · intro h
    have hodd : ¬ s.length % 2 = 1 := by omega
    simp only [read, if_neg hodd] at h
    split at h
    · cases h
    · split at h
      · next hbytes =>
        cases h
        exact hbytes
      · cases h
  · exact fun h => read_of_decode? h he

end Hex

namespace Word

variable {s : String} {v : Value} {n : Int} {w : Word} {bytes : List UInt8}

/-! ## What is read -/

theorem numberOfText_eq_ok : numberOfText s = .ok n ↔ (digitsOf s = [] ∧ n = 0) ∨
    (Hex.dropMark (digitsOf s) ≠ [] ∧ (∀ c ∈ Hex.dropMark (digitsOf s), Hex.isDigit c) ∧
      n = Hex.toNat (Hex.dropMark (digitsOf s))) := by
  simp only [numberOfText]
  split
  · next hd =>
    rw [List.isEmpty_iff] at hd
    rw [hd]
    constructor
    · rintro ⟨⟩
      exact .inl ⟨rfl, rfl⟩
    · rintro (⟨-, rfl⟩ | ⟨hr, -⟩)
      · rfl
      · exact absurd rfl hr
  · next hd =>
    rw [List.isEmpty_iff] at hd
    split
    · next hall =>
      rw [Bool.not_eq_true', List.all_eq_false] at hall
      obtain ⟨c, hc, hdigit⟩ := hall
      simp only [reduceCtorEq, hd, false_and, false_or, false_iff, not_and]
      exact fun _ h => absurd (h c hc) hdigit
    · next hall =>
      rw [Bool.not_eq_true', Bool.not_eq_false, List.all_eq_true] at hall
      split
      · next hr =>
        rw [List.isEmpty_iff] at hr
        simp [hd, hr]
      · next hr =>
        rw [List.isEmpty_iff] at hr
        simp only [hd, false_and, false_or, hr, ne_eq, not_false_eq_true, true_and]
        exact ⟨fun h => ⟨hall, (Except.ok.inj h).symm⟩, fun h => congrArg Except.ok h.2.symm⟩

def evenDigits (s : String) : List Char :=
  if (digitsOf s).length % 2 = 1 then '0' :: digitsOf s else digitsOf s

theorem length_evenDigits (s : String) : (evenDigits s).length % 2 = 0 := by
  unfold evenDigits
  split
  · rw [List.length_cons]
    omega
  · omega

theorem bytesOfText_eq_ok :
    bytesOfText s = .ok bytes ↔ Hex.decode? (Hex.dropMark (evenDigits s)) = some bytes := by
  rw [bytesOfText, mapError_eq_ok]
  exact Hex.read_eq_ok (length_evenDigits s)

theorem toNat_of_ofBytes (h : ofBytes bytes = .ok w) : w.toNat = BigEndian.toNat bytes := by
  rw [ofBytes] at h
  split at h
  · cases h
    exact BigEndian.toNat_padLeft_zero
  · cases h

theorem ofBytes_eq_error : (∃ fault, ofBytes bytes = .error fault) ↔ 32 < bytes.length := by
  rw [ofBytes]
  split
  · next h =>
    rw [size] at h
    simp only [reduceCtorEq, exists_false, false_iff]
    omega
  · next h =>
    rw [size] at h
    simp only [Except.error.injEq, exists_eq', true_iff]
    omega

theorem ofInt_eq_ok : ofInt n = .ok w ↔ 0 ≤ n ∧ n < 2 ^ 256 ∧ w = ofNat n.toNat := by
  have hpow : Int.pow 2 256 = 2 ^ 256 := rfl
  rw [ofInt, hpow]
  split
  · next h =>
    rw [Except.ok.injEq, eq_comm]
    exact ⟨fun hw => ⟨h.1, h.2, hw⟩, fun hw => hw.2.2⟩
  · next h =>
    simp only [reduceCtorEq, false_iff]
    exact fun hw => h ⟨hw.1, hw.2.1⟩

theorem toNat_of_ofInt (h : ofInt n = .ok w) : (w.toNat : Int) = n := by
  obtain ⟨hlo, hhi, rfl⟩ := ofInt_eq_ok.1 h
  have hmod : n.toNat % Nat.pow 2 256 = n.toNat := by
    apply Nat.mod_eq_of_lt
    rw [Nat.pow_eq]
    omega
  rw [toNat_ofNat, hmod, Int.toNat_of_nonneg hlo]

/-! ## A text is read twice -/

theorem digits_of_numberOfText (h : numberOfText s = .ok n) :
    (∀ c ∈ Hex.dropMark (digitsOf s), Hex.isDigit c) ∧ n = Hex.toNat (Hex.dropMark (digitsOf s)) := by
  rcases numberOfText_eq_ok.1 h with ⟨hd, rfl⟩ | ⟨-, hdigits, hn⟩
  · rw [hd]
    exact ⟨fun c hc => absurd hc List.not_mem_nil, rfl⟩
  · exact ⟨hdigits, hn⟩

/-- A text has a second mark that the zero in front of its odd count of characters hides. -/
def HidesMark (s : String) : Prop := Hex.IsMarked (digitsOf s) ∧ (digitsOf s).length % 2 = 1

theorem bytesOfText_of_hidesMark (h : HidesMark s) : bytesOfText s ≠ .ok bytes := by
  intro hok
  obtain ⟨⟨rest, hmark⟩, hodd⟩ := h
  rw [bytesOfText_eq_ok, evenDigits, if_pos hodd] at hok
  have hdigits := Hex.isDigit_of_decode? hok
  rcases hmark with hmark | hmark <;> rw [hmark] at hdigits
  · exact absurd (hdigits 'x' (by simp [Hex.dropMark])) (by decide)
  · exact absurd (hdigits 'X' (by simp [Hex.dropMark])) (by decide)

theorem exists_bytesOfText (h : numberOfText s = .ok n) (hs : ¬ HidesMark s) :
    ∃ bytes, bytesOfText s = .ok bytes ∧ n = BigEndian.toNat bytes := by
  obtain ⟨hdigits, rfl⟩ := digits_of_numberOfText h
  suffices heven : ∃ bytes, Hex.decode? (Hex.dropMark (evenDigits s)) = some bytes ∧
      Hex.toNat (Hex.dropMark (evenDigits s)) = Hex.toNat (Hex.dropMark (digitsOf s)) by
    obtain ⟨bytes, hbytes, hn⟩ := heven
    exact ⟨bytes, bytesOfText_eq_ok.2 hbytes, by rw [Hex.toNat_of_decode? hbytes, hn]⟩
  by_cases hodd : (digitsOf s).length % 2 = 1
  · -- There is no mark, and the zero in front makes none.
    have hplain := (Hex.isMarked_or (digitsOf s)).resolve_left fun hm => hs ⟨hm, hodd⟩
    rw [hplain] at hdigits ⊢
    have hzero : ∀ c ∈ '0' :: digitsOf s, Hex.isDigit c := List.forall_mem_cons.2 ⟨rfl, hdigits⟩
    rw [evenDigits, if_pos hodd, Hex.dropMark_of_digits hzero]
    have heven : 2 ∣ ('0' :: digitsOf s).length := by
      rw [List.length_cons]
      omega
    obtain ⟨bytes, hbytes, -⟩ := Hex.exists_decode? hzero heven
    refine ⟨bytes, hbytes, ?_⟩
    rw [Hex.toNat_cons (d := 0) rfl hdigits, Nat.zero_mul, Nat.zero_add]
  · rw [evenDigits, if_neg hodd]
    have heven : 2 ∣ (Hex.dropMark (digitsOf s)).length := by
      rcases Hex.isMarked_or (digitsOf s) with hm | hplain
      · have := hm.length_eq
        omega
      · rw [hplain]
        omega
    obtain ⟨bytes, hbytes, -⟩ := Hex.exists_decode? hdigits heven
    exact ⟨bytes, hbytes, rfl⟩

/-- A text has a word and is no number. -/
inductive IsNoNumber (s : String) : Prop where
  | mark (h : digitsOf s = ['0', 'x'] ∨ digitsOf s = ['0', 'X'])
  | sign {rest : List Char} (h : digitsOf s = 'x' :: rest ∨ digitsOf s = 'X' :: rest)
    (even : rest.length % 2 = 0) (digits : ∀ c ∈ rest, Hex.isDigit c)

theorem isNoNumber_of_bytesOfText (h : bytesOfText s = .ok bytes)
    (hn : ∀ n, numberOfText s ≠ .ok n) : IsNoNumber s := by
  have hdigits := Hex.isDigit_of_decode? (bytesOfText_eq_ok.1 h)
  have hne : digitsOf s ≠ [] := fun hd => hn 0 (numberOfText_eq_ok.2 (.inl ⟨hd, rfl⟩))
  -- Any digits behind the next mark would be a number.
  have hnone (hall : ∀ c ∈ Hex.dropMark (digitsOf s), Hex.isDigit c) :
      Hex.dropMark (digitsOf s) = [] := by
    by_contra hrest
    exact hn _ (numberOfText_eq_ok.2 (.inr ⟨hrest, hall, rfl⟩))
  unfold evenDigits at hdigits
  split at hdigits
  · next hodd =>
    rcases Hex.isMarked_or ('0' :: digitsOf s) with ⟨rest, hmark⟩ | hplain
    · rw [List.cons.injEq, List.cons.injEq] at hmark
      have hd : digitsOf s = 'x' :: rest ∨ digitsOf s = 'X' :: rest :=
        hmark.imp And.right And.right
      refine .sign hd ?_ ?_
      · rcases hd with hd | hd <;> rw [hd, List.length_cons] at hodd <;> omega
      · rcases hd with hd | hd <;> rw [hd] at hdigits <;> exact hdigits
    · rw [hplain, List.forall_mem_cons] at hdigits
      have hdrop := Hex.dropMark_of_digits hdigits.2
      rw [hdrop] at hnone
      exact absurd (hnone hdigits.2) hne
  · have hrest := hnone hdigits
    rcases Hex.isMarked_or (digitsOf s) with ⟨rest, hmark⟩ | hplain
    · refine .mark ?_
      rcases hmark with hmark | hmark <;> rw [hmark, Hex.dropMark] at hrest <;> rw [hmark, hrest]
      · exact .inl rfl
      · exact .inr rfl
    · exact absurd (hplain.symm.trans hrest) hne

theorem IsNoNumber.numberOfText_ne (h : IsNoNumber s) : numberOfText s ≠ .ok n := by
  intro hok
  rcases numberOfText_eq_ok.1 hok with ⟨hd, -⟩ | ⟨hne, hdigits, -⟩
  · cases h with
    | mark h => rcases h with h | h <;> cases hd.symm.trans h
    | sign h => rcases h with h | h <;> cases hd.symm.trans h
  · cases h with
    | mark h => rcases h with h | h <;> exact hne (by rw [h]; rfl)
    | sign h =>
      rcases h with h | h <;> rw [h] at hdigits
      · exact absurd (hdigits 'x' (by simp [Hex.dropMark])) (by decide)
      · exact absurd (hdigits 'X' (by simp [Hex.dropMark])) (by decide)

/-- A value is a number and has no word. -/
inductive IsNoWord : Value → Prop where
  | range {n : Int} (h : n < 0 ∨ 2 ^ 256 ≤ n) : IsNoWord (.int n)
  | bytes {bytes : List UInt8} (h : 32 < bytes.length) : IsNoWord (.bytes bytes)
  | text {s : String} {bytes : List UInt8} (h : bytesOfText s = .ok bytes) (long : 32 < bytes.length) :
    IsNoWord (.text s)
  | mark {s : String} (h : HidesMark s) : IsNoWord (.text s)

theorem ofText_eq_ok : ofValue (.text s) = .ok w ↔
    ∃ bytes, bytesOfText s = .ok bytes ∧ ofBytes bytes = .ok w :=
  bind_eq_ok

theorem toNat_of_number (hn : number v = .ok n) (hw : ofValue v = .ok w) : (w.toNat : Int) = n := by
  cases v with
  | int m =>
    cases hn
    exact toNat_of_ofInt hw
  | bytes b =>
    cases hn
    rw [toNat_of_ofBytes hw]
  | text s =>
    obtain ⟨bytes, hbytes, hw⟩ := ofText_eq_ok.1 hw
    obtain ⟨bytes', hbytes', rfl⟩ :=
      exists_bytesOfText hn fun hs => bytesOfText_of_hidesMark hs hbytes
    cases hbytes.symm.trans hbytes'
    rw [toNat_of_ofBytes hw]
  | _ => cases hn

theorem isNoWord_iff (hn : number v = .ok n) : (∃ fault, ofValue v = .error fault) ↔ IsNoWord v := by
  cases v with
  | int m =>
    change (∃ fault, ofInt m = .error fault) ↔ _
    rw [exists_error]
    constructor
    · intro h
      refine .range ?_
      by_contra hm
      exact h _ (ofInt_eq_ok.2 ⟨by omega, by omega, rfl⟩)
    · rintro (h | - | - | -) w hw
      obtain ⟨hlo, hhi, -⟩ := ofInt_eq_ok.1 hw
      omega
  | bytes b => exact ofBytes_eq_error.trans ⟨.bytes, fun | .bytes h => h⟩
  | text s =>
    by_cases hs : HidesMark s
    · refine iff_of_true (exists_error.2 fun w hw => ?_) (.mark hs)
      obtain ⟨bytes, hbytes, -⟩ := ofText_eq_ok.1 hw
      exact bytesOfText_of_hidesMark hs hbytes
    · obtain ⟨bytes, hbytes, -⟩ := exists_bytesOfText hn hs
      have hofBytes : ofValue (.text s) = ofBytes bytes := by
        rw [ofValue, hbytes]
        rfl
      rw [hofBytes, ofBytes_eq_error]
      refine ⟨.text hbytes, fun h => ?_⟩
      cases h with
      | text h long =>
        cases hbytes.symm.trans h
        exact long
      | mark h => exact absurd h hs
  | _ => cases hn

theorem isNoNumber_iff (hw : ofValue (.text s) = .ok w) :
    (∃ fault, number (.text s) = .error fault) ↔ IsNoNumber s := by
  obtain ⟨bytes, hbytes, -⟩ := ofText_eq_ok.1 hw
  rw [exists_error]
  exact ⟨isNoNumber_of_bytesOfText hbytes, fun h _ => h.numberOfText_ne⟩

end Word

namespace Slot

theorem number_hex (w : Word) : Word.number (.text w.hex) = .ok w.toNat := by
  have hdigits : ∀ c ∈ Hex.encode w.bytes, Hex.isDigit c := fun c hc => Hex.isDigit_of_mem_encode hc
  have hne : Hex.encode w.bytes ≠ [] := by
    rw [ne_eq, ← List.length_eq_zero_iff, Hex.length_encode, w.length_bytes]
    decide
  have hread : Word.digitsOf w.hex = Hex.encode w.bytes := by
    have hdrop : Hex.dropMark w.hex.toList = Hex.encode w.bytes := Hex.dropMark_text w.bytes
    rw [Word.digitsOf, Hex.trim_of_digits (hdrop ▸ hdigits) (hdrop ▸ hne), hdrop]
  refine Word.numberOfText_eq_ok.2 (.inr ?_)
  rw [hread, Hex.dropMark_of_digits hdigits, ← Hex.toNat_of_decode? (Hex.decode?_encode w.bytes)]
  exact ⟨hne, hdigits, rfl⟩

theorem ofValue_hex (n : Int) : ofValue (.text (hex n)) = .ok (n % 2 ^ 256) := by
  have hword : Word.ofInt (wrap n) = .ok (Word.ofNat (wrap n).toNat) :=
    Word.ofInt_eq_ok.2 ⟨wrap_nonneg n, wrap_lt n, rfl⟩
  rw [ofValue, hex, number_hex, Word.toNat_of_ofInt hword, Except.map,
    wrap_of_mem (wrap_nonneg n) (wrap_lt n)]
  rfl

end Slot

namespace Word

/-- The two readings of a value agree where both succeed. A number has no word where it is out of
range, where it has too many bytes and where a zero hides its mark; a text has a word and is no
number where nothing is behind its mark and where a zero completes a mark. A slot that is written as
a word is read back. -/
theorem number_agrees (v : Value) :
    (∀ n w, number v = .ok n → ofValue v = .ok w →
      (BigEndian.toNat w.bytes : Int) = n ∧ w.bytes.length = 32) ∧
    (∀ n, number v = .ok n → ((∃ fault, ofValue v = .error fault) ↔ IsNoWord v)) ∧
    (∀ s w, v = .text s → ofValue v = .ok w →
      ((∃ fault, number v = .error fault) ↔ IsNoNumber s)) ∧
    ∀ n : Int, Slot.ofValue (.text (Slot.hex n)) = .ok (n % 2 ^ 256) := by
  refine ⟨fun n w hn hw => ⟨toNat_of_number hn hw, w.length_bytes⟩, fun n hn => isNoWord_iff hn, ?_,
    Slot.ofValue_hex⟩
  rintro s w rfl hw
  exact isNoNumber_iff hw

theorem number_agrees_marks :
    (∃ w, ofValue (.text " 0x12") = .ok w ∧ (BigEndian.toNat w.bytes : Int) = 0x12) ∧
      (∃ fault, ofValue (.text "0x0X1") = .error fault) ∧
      ∃ fault, number (.text "x12") = .error fault := by
  have hnumber : number (.text " 0x12") = .ok 0x12 := by decide +kernel
  have hmarked : number (.text "0x0X1") = .ok 1 := by decide +kernel
  refine ⟨⟨ofNat 0x12, ?_, ?_⟩, ?_, ?_⟩
  · decide +kernel
  · exact ((number_agrees _).1 _ _ hnumber (by decide +kernel)).1
  · refine ((number_agrees _).2.1 _ hmarked).2 (.mark ⟨⟨['1'], .inr ?_⟩, ?_⟩)
    · decide +kernel
    · decide +kernel
  · have hx : digitsOf "x12" = ['x', '1', '2'] := by decide +kernel
    refine ((number_agrees _).2.2.1 "x12" (ofNat 0x12) rfl (by decide +kernel)).2 ?_
    exact .sign (.inl hx) rfl (List.all_eq_true.1 (by decide +kernel))

end Word

end SlotLens

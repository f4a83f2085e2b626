import SlotLens.Text.Numeral
import SlotLens.Text.CodePoint
import SlotLens.Text.Case

namespace SlotLens.Text

def CaseRun.image (r : CaseRun) (n : Nat) : Nat := (n + r.shift).toNat

def CaseRun.avoids (r : CaseRun) (first last : Nat) : Bool :=
  Nat.blt (r.image r.last) first || Nat.blt last (r.image r.first)

def CaseRun.clears (r r' : CaseRun) : Bool :=
  r.avoids r'.first r'.last ||
    ((Nat.beq r.stride 2 || Nat.beq r.first r.last) && Nat.beq r'.stride 2 &&
      Nat.blt 0 (r.image r.first) && Nat.beq ((r.image r.first + r'.first) % 2) 1)

structure IsLower (c : Char) : Prop where
  holds_false : ∀ r ∈ caseRuns, r.holds c.toNat = false
  ne_dotted : c ≠ '\u0130'
  ne_sigma : c ≠ '\u03a3'

namespace CaseRun

variable {r r' : CaseRun} {n : Nat}

theorem holds_iff : r.holds n ↔ r.first ≤ n ∧ n ≤ r.last ∧ (n - r.first) % r.stride = 0 := by
  simp [holds, and_assoc]

theorem image_of_avoids {first last : Nat} (h : r.avoids first last) (hn : r.holds n) :
    r.image n < first ∨ last < r.image n := by
  obtain ⟨hfirst, hlast, -⟩ := holds_iff.1 hn
  simp only [avoids, Bool.or_eq_true, Nat.blt_eq, image] at h ⊢
  omega

theorem holds_image_eq_false (h : r.clears r') (hn : r.holds n) :
    r'.holds (r.image n) = false := by
  rw [Bool.eq_false_iff, ne_eq, holds_iff]
  rintro ⟨hfirst', hlast', hstride'⟩
  rw [clears, Bool.or_eq_true] at h
  rcases h with h | h
  · have := image_of_avoids h hn
    omega
  · simp only [Bool.and_eq_true, Bool.or_eq_true, Nat.beq_eq, Nat.blt_eq] at h
    obtain ⟨⟨⟨hturn, htwo⟩, hpos⟩, hodd⟩ := h
    obtain ⟨hfirst, hlast, hstride⟩ := holds_iff.1 hn
    rw [htwo] at hstride'
    rcases hturn with hturn | hturn
    · rw [hturn] at hstride
      simp only [image] at *
      omega
    · have hsame : n = r.first := by omega
      subst hsame
      omega

theorem runs_clear : caseRuns.all (fun r => caseRuns.all r.clears) = true := by decide +kernel

def isPlain (r : CaseRun) : Bool :=
  r.avoids 0xD800 0xDFFF && Nat.blt (r.image r.last) 0x110000 && r.avoids 0x130 0x130 &&
    r.avoids 0x3A3 0x3A3 && blankRanges.all fun range => r.avoids range.1 range.2

theorem runs_plain : caseRuns.all isPlain = true := by decide +kernel

end CaseRun

theorem char_ne {c d : Char} (h : c.toNat ≠ d.toNat) : c ≠ d := fun he => h (he ▸ rfl)

theorem isLower_image {r : CaseRun} {n : Nat} (hr : r ∈ caseRuns) (hn : r.holds n) :
    IsLower (Char.ofNat (r.image n)) ∧ isBlank (Char.ofNat (r.image n)) = false := by
  have hclear := List.all_eq_true.1 (List.all_eq_true.1 CaseRun.runs_clear r hr)
  have hplain := List.all_eq_true.1 CaseRun.runs_plain r hr
  simp only [CaseRun.isPlain, Bool.and_eq_true, Nat.blt_eq, List.all_eq_true] at hplain
  obtain ⟨⟨⟨⟨hhalf, hlast⟩, hdotted⟩, hsigma⟩, hblank⟩ := hplain
  have hhalf := CaseRun.image_of_avoids hhalf hn
  have hdotted := CaseRun.image_of_avoids hdotted hn
  have hsigma := CaseRun.image_of_avoids hsigma hn
  obtain ⟨-, hle, -⟩ := CaseRun.holds_iff.1 hn
  have hvalid : (r.image n).isValidChar := by
    simp only [Nat.isValidChar, CaseRun.image] at *
    omega
  have hnat := toNat_ofNat hvalid
  refine ⟨⟨fun r' hr' => ?_, char_ne ?_, char_ne ?_⟩, ?_⟩
  · rw [hnat]
    exact CaseRun.holds_image_eq_false (hclear r' hr') hn
  · rw [hnat]
    change r.image n ≠ 0x130
    omega
  · rw [hnat]
    change r.image n ≠ 0x3A3
    omega
  · rw [isBlank, List.any_eq_false]
    intro range hrange
    have hrange := CaseRun.image_of_avoids (hblank range hrange) hn
    rw [hnat]
    simp only [Bool.and_eq_true, decide_eq_true_eq]
    omega

theorem holds_ascii {n : Nat} : (⟨0x41, 0x5A, 1, 32⟩ : CaseRun).holds n ↔ 0x41 ≤ n ∧ n ≤ 0x5A := by
  simp [CaseRun.holds_iff, Nat.mod_one]

theorem holds_false_of_ascii {n : Nat} (hn : n < 0x80) (hu : ¬ (0x41 ≤ n ∧ n ≤ 0x5A))
    {r : CaseRun} (hr : r ∈ caseRuns) : r.holds n = false := by
  have htail : caseRuns.tail.all (fun r => Nat.ble 0x80 r.first) = true := by decide +kernel
  have hcons : caseRuns = ⟨0x41, 0x5A, 1, 32⟩ :: caseRuns.tail := rfl
  rw [Bool.eq_false_iff]
  rw [hcons] at hr
  rcases List.mem_cons.1 hr with rfl | hr
  · exact fun h => hu (holds_ascii.1 h)
  · have hfirst := List.all_eq_true.1 htail r hr
    rw [Nat.ble_eq] at hfirst
    intro h
    have := (CaseRun.holds_iff.1 h).1
    omega

theorem isLower_of_ascii {c : Char} (hc : c.toNat < 0x80) (hu : ¬ (0x41 ≤ c.toNat ∧ c.toNat ≤ 0x5A)) :
    IsLower c := by
  refine ⟨fun r hr => holds_false_of_ascii hc hu hr, char_ne ?_, char_ne ?_⟩
  · change c.toNat ≠ 0x130
    omega
  · change c.toNat ≠ 0x3A3
    omega

theorem isLower_mark {d : Char} (hd : d = '\u0307' ∨ d = '\u03c2' ∨ d = '\u03c3') :
    IsLower d ∧ isBlank d = false := by
  have hruns : (caseRuns.all fun r =>
      !(r.holds 0x307 || r.holds 0x3C2 || r.holds 0x3C3)) = true := by
    decide +kernel
  have hfalse {r : CaseRun} (hr : r ∈ caseRuns) :
      r.holds 0x307 = false ∧ r.holds 0x3C2 = false ∧ r.holds 0x3C3 = false := by
    simpa [and_assoc] using List.all_eq_true.1 hruns r hr
  rcases hd with rfl | rfl | rfl
  · exact ⟨⟨fun r hr => (hfalse hr).1, by decide, by decide⟩, by decide +kernel⟩
  · exact ⟨⟨fun r hr => (hfalse hr).2.1, by decide, by decide⟩, by decide +kernel⟩
  · exact ⟨⟨fun r hr => (hfalse hr).2.2, by decide, by decide⟩, by decide +kernel⟩

theorem upper_iff {c : Char} : 'A' ≤ c ∧ c ≤ 'Z' ↔ 0x41 ≤ c.toNat ∧ c.toNat ≤ 0x5A := Iff.rfl

theorem isLower_lowerChar {c d : Char} (hs : c ≠ '\u03a3') (hd : d ∈ lowerChar c) :
    IsLower d ∧ (isBlank d → isBlank c) := by
  rw [lowerChar] at hd
  split at hd
  · next hc =>
    cases List.mem_singleton.1 hd
    split
    · next hu =>
      have hrun : (⟨0x41, 0x5A, 1, 32⟩ : CaseRun) ∈ caseRuns := List.mem_cons_self
      obtain ⟨hl, hb⟩ := isLower_image hrun (holds_ascii.2 (upper_iff.1 hu))
      have himage : (⟨0x41, 0x5A, 1, 32⟩ : CaseRun).image c.toNat = c.toNat + 32 := by
        simp only [CaseRun.image]
        omega
      rw [himage] at hl hb
      exact ⟨hl, fun h => absurd h (Bool.eq_false_iff.1 hb)⟩
    · next hu => exact ⟨isLower_of_ascii hc (mt upper_iff.2 hu), id⟩
  · split at hd
    · rcases List.mem_cons.1 hd with rfl | hd
      · exact ⟨isLower_of_ascii (by decide) (by decide), fun h => absurd h (by decide +kernel)⟩
      · obtain ⟨hl, hb⟩ := isLower_mark (.inl (List.mem_singleton.1 hd))
        exact ⟨hl, fun h => absurd h (Bool.eq_false_iff.1 hb)⟩
    · next hdot =>
      split at hd
      · next r hr =>
        cases List.mem_singleton.1 hd
        obtain ⟨hl, hb⟩ := isLower_image (List.mem_of_find?_eq_some hr)
          (by simpa using List.find?_some hr)
        exact ⟨hl, fun h => absurd h (Bool.eq_false_iff.1 hb)⟩
      · next hr =>
        cases List.mem_singleton.1 hd
        refine ⟨⟨fun r hmem => ?_, hdot, hs⟩, id⟩
        simpa using List.find?_eq_none.1 hr r hmem

theorem lowerChar_ne_nil {c : Char} : lowerChar c ≠ [] := by
  rw [lowerChar]
  split
  · simp
  · split
    · simp
    · split <;> simp

theorem lowerChar_of_isLower {c : Char} (h : IsLower c) : lowerChar c = [c] := by
  rw [lowerChar]
  split
  · next hc =>
    have hu : ¬ ('A' ≤ c ∧ c ≤ 'Z') := by
      intro hu
      have hrun : (⟨0x41, 0x5A, 1, 32⟩ : CaseRun) ∈ caseRuns := List.mem_cons_self
      exact absurd (holds_ascii.2 (upper_iff.1 hu)) (Bool.eq_false_iff.1 (h.holds_false _ hrun))
    rw [if_neg hu]
  · rw [if_neg h.ne_dotted]
    have hnone : caseRuns.find? (·.holds c.toNat) = none :=
      List.find?_eq_none.2 fun r hr => by simp [h.holds_false r hr]
    rw [hnone]

section Lower

variable {before s : List Char}

theorem isLower_lowerAfter {d : Char} (hd : d ∈ lowerAfter before s) : IsLower d := by
  induction s generalizing before with
  | nil => exact absurd hd List.not_mem_nil
  | cons c rest ih =>
    rcases List.mem_append.1 hd with hd | hd
    · split at hd
      · have hsigma : d = '\u03c2' ∨ d = '\u03c3' := by
          rw [List.mem_singleton.1 hd]
          split
          · exact .inl rfl
          · exact .inr rfl
        exact (isLower_mark (.inr hsigma)).1
      · next hs => exact (isLower_lowerChar hs hd).1
    · exact ih hd

theorem lowerAfter_of_isLower (h : ∀ c ∈ s, IsLower c) : lowerAfter before s = s := by
  induction s generalizing before with
  | nil => rfl
  | cons c rest ih =>
    obtain ⟨hc, hrest⟩ := List.forall_mem_cons.1 h
    rw [lowerAfter, if_neg hc.ne_sigma, lowerChar_of_isLower hc, ih hrest]
    rfl

theorem isLower_lower {d : Char} (hd : d ∈ lower s) : IsLower d := isLower_lowerAfter hd

theorem lower_of_isLower (h : ∀ c ∈ s, IsLower c) : lower s = s := lowerAfter_of_isLower h

theorem lowerAfter_ne_nil (hs : s ≠ []) : lowerAfter before s ≠ [] := by
  cases s with
  | nil => exact absurd rfl hs
  | cons c rest =>
    rw [lowerAfter]
    split
    · simp
    · simp [lowerChar_ne_nil]

theorem isBlank_of_mem_getLast?_lowerAfter (h : ∀ c ∈ s.getLast?, isBlank c = false) {d : Char}
    (hd : d ∈ (lowerAfter before s).getLast?) : isBlank d = false := by
  induction s generalizing before with
  | nil => cases hd
  | cons c rest ih =>
    cases rest with
    | nil =>
      have hc : isBlank c = false := h c (by simp)
      rw [lowerAfter, lowerAfter, List.append_nil] at hd
      have hd := List.mem_of_getLast? hd
      split at hd
      · have hsigma : d = '\u03c2' ∨ d = '\u03c3' := by
          rw [List.mem_singleton.1 hd]
          split
          · exact .inl rfl
          · exact .inr rfl
        exact (isLower_mark (.inr hsigma)).2
      · next hs =>
        rw [Bool.eq_false_iff] at hc ⊢
        exact mt (isLower_lowerChar hs hd).2 hc
    | cons c' rest =>
      rw [List.getLast?_cons_cons] at h
      have hrest : lowerAfter (c :: before) (c' :: rest) ≠ [] := lowerAfter_ne_nil (by simp)
      rw [lowerAfter, List.getLast?_append, List.getLast?_eq_some_getLast hrest, Option.some_or,
        ← List.getLast?_eq_some_getLast hrest] at hd
      exact ih h hd

end Lower

section Trim

variable {s : List Char}

theorem dropWhile_of_head? {p : Char → Bool} (h : ∀ c ∈ s.head?, p c = false) :
    s.dropWhile p = s := by
  cases s with
  | nil => rfl
  | cons c s => rw [List.dropWhile_cons_of_neg (by simp [h c rfl])]

theorem trim_of_ends (h : ∀ c ∈ s.head?, isBlank c = false)
    (h' : ∀ c ∈ s.getLast?, isBlank c = false) : trim s = s := by
  rw [trim, trimStart, trimStart, dropWhile_of_head? h, dropWhile_of_head?, List.reverse_reverse]
  simpa using h'

theorem isBlank_of_mem_getLast?_trim {c : Char} (hc : c ∈ (trim s).getLast?) :
    isBlank c = false := by
  rw [trim, List.getLast?_reverse] at hc
  have hnot := List.head?_dropWhile_not isBlank (trimStart s).reverse
  rw [trimStart] at hc
  rw [Option.mem_def] at hc
  rw [hc] at hnot
  simpa using hnot

end Trim

end SlotLens.Text

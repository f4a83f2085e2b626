/-!
# Code points

Texts from outside are sequences of code points, and some code points are no characters: the halves
of surrogate pairs. In a string such a half is kept as a private character of its own. A character
that would then be taken for a half is kept behind a mark, and so is the mark. Main statement: no
code point is lost (`points_ofPoints`).
-/

namespace SlotLens.Text

/-- Stands before a character that means itself. -/
def mark : Char := Char.ofNat 0x10FFFF

def isHalf (n : Nat) : Bool := 0xD800 ≤ n && n < 0xE000

def halfShift : Nat := 0x100000

def standsForHalf (c : Char) : Bool := 0x10D800 ≤ c.toNat && c.toNat < 0x10E000

def isReserved (c : Char) : Bool := c == mark || standsForHalf c

def keepChar (c : Char) : List Char := if isReserved c then [mark, c] else [c]

def keep (s : String) : String :=
  if s.toList.any isReserved then String.ofList (s.toList.flatMap keepChar) else s

def ofPoint (n : Nat) : List Char :=
  if isHalf n then [Char.ofNat (n + halfShift)] else keepChar (Char.ofNat n)

def point (c : Char) : Nat := if standsForHalf c then c.toNat - halfShift else c.toNat

def points : List Char → List Nat
  | [] => []
  | [c] => [point c]
  | c :: d :: rest =>
    if c = mark then d.toNat :: points rest else point c :: points (d :: rest)

def letters (s : List Char) : List (List Char) := (points s).map ofPoint

def shown (s : String) : String :=
  String.ofList ((points s.toList).map fun n => if isHalf n then '\ufffd' else Char.ofNat n)

def utf8? (s : String) : Option (List UInt8) :=
  let ns := points s.toList
  if ns.any isHalf then none
  else some (String.ofList (ns.map Char.ofNat)).toUTF8.data.toList

def ofUtf8? (bytes : List UInt8) : Option String := (String.fromUTF8? ⟨bytes.toArray⟩).map keep

theorem toNat_ofNat {n : Nat} (h : n.isValidChar) : (Char.ofNat n).toNat = n := by
  rw [Char.ofNat, dif_pos h]
  rfl

theorem isValidChar_of_lt {n : Nat} (h : n < 0x110000) (h' : isHalf n = false) : n.isValidChar := by
  simp only [isHalf, Bool.and_eq_false_iff, decide_eq_false_iff_not] at h'
  simp only [Nat.isValidChar]
  omega

theorem points_ofPoint_append {n : Nat} (h : n < 0x110000) (rest : List Char) :
    points (ofPoint n ++ rest) = n :: points rest := by
  have step {c : Char} (hc : c ≠ mark) : points (c :: rest) = point c :: points rest := by
    cases rest with
    | nil => simp [points]
    | cons d rest => simp [points, hc]
  have mark_toNat : mark.toNat = 0x10FFFF := toNat_ofNat (by decide)
  cases hn : isHalf n with
  | true =>
    have hb : 0xD800 ≤ n ∧ n < 0xE000 := by simpa [isHalf] using hn
    have hv : (n + halfShift).isValidChar := by simp only [Nat.isValidChar, halfShift]; omega
    have ht : (Char.ofNat (n + halfShift)).toNat = n + halfShift := toNat_ofNat hv
    have hm : Char.ofNat (n + halfShift) ≠ mark := fun e => by
      have := congrArg Char.toNat e
      rw [ht, mark_toNat] at this
      simp only [halfShift] at this
      omega
    have hs : standsForHalf (Char.ofNat (n + halfShift)) = true := by
      rw [standsForHalf, ht, Bool.and_eq_true, decide_eq_true_eq, decide_eq_true_eq]
      simp only [halfShift]
      omega
    simp only [ofPoint, hn, if_true, List.cons_append, List.nil_append, step hm, point, hs, ht]
    simp
  | false =>
    have ht : (Char.ofNat n).toNat = n := toNat_ofNat (isValidChar_of_lt h hn)
    simp only [ofPoint, hn, Bool.false_eq_true, if_false, keepChar]
    split
    · simp [points, ht]
    · rename_i hr
      have hr : Char.ofNat n ≠ mark ∧ standsForHalf (Char.ofNat n) = false := by
        simpa [isReserved] using hr
      rw [List.cons_append, List.nil_append, step hr.1]
      simp [point, hr.2, ht]

theorem points_ofPoints {ns : List Nat} (h : ∀ n ∈ ns, n < 0x110000) :
    points (ns.flatMap ofPoint) = ns := by
  induction ns with
  | nil => rfl
  | cons n ns ih =>
    rw [List.flatMap_cons, points_ofPoint_append (h n (by simp)),
      ih fun m hm => h m (by simp [hm])]

end SlotLens.Text

namespace SlotLens.BigEndian

def toNat (bytes : List UInt8) : Nat := bytes.foldl (fun n b => n * 256 + b.toNat) 0

def ofNat : (width : Nat) → Nat → List UInt8
  | 0, _ => []
  | width + 1, n => ofNat width (n / 256) ++ [UInt8.ofNat (n % 256)]

@[simp] theorem toNat_nil : toNat [] = 0 := rfl

@[simp] theorem toNat_append_singleton (bytes : List UInt8) (b : UInt8) :
    toNat (bytes ++ [b]) = toNat bytes * 256 + b.toNat := by
  simp [toNat]

@[simp] theorem length_ofNat (width n : Nat) : (ofNat width n).length = width := by
  induction width generalizing n with
  | zero => rfl
  | succ width ih => simp [ofNat, ih]

theorem toNat_ofNat (width n : Nat) : toNat (ofNat width n) = n % Nat.pow 256 width := by
  rw [Nat.pow_eq]
  induction width generalizing n with
  | zero => simp [ofNat, Nat.mod_one]
  | succ width ih =>
    have h : n % 256 % 2 ^ 8 = n % 256 := Nat.mod_eq_of_lt (Nat.mod_lt _ (by decide))
    rw [ofNat, toNat_append_singleton, ih, UInt8.toNat_ofNat', h, Nat.pow_succ', Nat.mod_mul]
    omega

theorem toNat_lt (bytes : List UInt8) : toNat bytes < Nat.pow 256 bytes.length := by
  rw [Nat.pow_eq]
  suffices h : ∀ n, bytes.foldl (fun n b => n * 256 + b.toNat) n < (n + 1) * 256 ^ bytes.length by
    simpa [toNat] using h 0
  induction bytes with
  | nil => intro n; simp
  | cons b bytes ih =>
    intro n
    refine Nat.lt_of_lt_of_le (ih _) ?_
    rw [List.length_cons, Nat.pow_succ', ← Nat.mul_assoc]
    have := b.toNat_lt
    exact Nat.mul_le_mul_right _ (by simp only; omega)

theorem ofNat_toNat (bytes : List UInt8) : ofNat bytes.length (toNat bytes) = bytes := by
  obtain ⟨r, rfl⟩ : ∃ r : List UInt8, bytes = r.reverse := ⟨bytes.reverse, by simp⟩
  induction r with
  | nil => rfl
  | cons b r ih =>
    have h := b.toNat_lt
    rw [List.reverse_cons, List.length_append, List.length_singleton, ofNat,
      toNat_append_singleton]
    rw [show (toNat r.reverse * 256 + b.toNat) / 256 = toNat r.reverse by omega,
      show (toNat r.reverse * 256 + b.toNat) % 256 = b.toNat by omega, ih, UInt8.ofNat_toNat]

def padLeft (width : Nat) (fill : UInt8) (bytes : List UInt8) : List UInt8 :=
  List.replicate (width - bytes.length) fill ++ bytes

def padRight (width : Nat) (fill : UInt8) (bytes : List UInt8) : List UInt8 :=
  bytes ++ List.replicate (width - bytes.length) fill

theorem length_padLeft {width : Nat} {bytes : List UInt8} (h : bytes.length ≤ width)
    (fill : UInt8) :
    (padLeft width fill bytes).length = width := by
  simp [padLeft]; omega

theorem length_padRight {width : Nat} {bytes : List UInt8} (h : bytes.length ≤ width)
    (fill : UInt8) : (padRight width fill bytes).length = width := by
  simp [padRight]; omega

end SlotLens.BigEndian

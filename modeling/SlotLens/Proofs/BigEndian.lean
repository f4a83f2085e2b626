import SlotLens.Bytes.BigEndian
import Mathlib.Data.List.Induction
import Mathlib.Tactic.Linarith
import Mathlib.Tactic.Ring

namespace SlotLens.BigEndian

variable {bytes others : List UInt8} {width w m : Nat} {n : Int}

theorem toNat_append (front back : List UInt8) :
    toNat (front ++ back) = toNat front * 256 ^ back.length + toNat back := by
  induction back using List.reverseRecOn with
  | nil => simp
  | append_singleton back b ih =>
    rw [← List.append_assoc, toNat_append_singleton, ih, toNat_append_singleton,
      List.length_append, List.length_singleton, Nat.pow_succ]
    ring

theorem toNat_cons (b : UInt8) (bytes : List UInt8) :
    toNat (b :: bytes) = b.toNat * 256 ^ bytes.length + toNat bytes := by
  have hb : toNat [b] = b.toNat := by simp [toNat]
  rw [← List.singleton_append, toNat_append, hb]

theorem toNat_replicate_zero (k : Nat) : toNat (List.replicate k 0) = 0 := by
  induction k with
  | zero => rfl
  | succ k ih => rw [List.replicate_succ, toNat_cons, ih, UInt8.toNat_zero, Nat.zero_mul]

theorem toNat_replicate_full (k : Nat) : toNat (List.replicate k 0xff) + 1 = 256 ^ k := by
  induction k with
  | zero => rfl
  | succ k ih =>
    have hb : (0xff : UInt8).toNat = 255 := rfl
    rw [List.replicate_succ, toNat_cons, hb, List.length_replicate, Nat.pow_succ, ← ih]
    ring

theorem lt_pow (bytes : List UInt8) : toNat bytes < 256 ^ bytes.length := toNat_lt bytes

theorem toNat_ofNat_of_lt (h : m < 256 ^ width) : toNat (ofNat width m) = m := by
  rw [toNat_ofNat, Nat.pow_eq, Nat.mod_eq_of_lt h]

theorem eq_of_toNat (hl : bytes.length = others.length) (h : toNat bytes = toNat others) :
    bytes = others := by
  rw [← ofNat_toNat bytes, hl, h, ofNat_toNat]

theorem toNat_padLeft_zero : toNat (padLeft width 0 bytes) = toNat bytes := by
  rw [padLeft, toNat_append, toNat_replicate_zero, Nat.zero_mul, Nat.zero_add]

theorem head_ge_iff (h : bytes ≠ []) :
    0x80 ≤ (bytes.headD 0).toNat ↔ 2 ^ (8 * bytes.length - 1) ≤ toNat bytes := by
  obtain ⟨b, rest, rfl⟩ := List.exists_cons_of_ne_nil h
  have hrest := lt_pow rest
  have hpow : 2 ^ (8 * (b :: rest).length - 1) = 0x80 * 256 ^ rest.length := by
    have hexp : 8 * (b :: rest).length - 1 = 7 + 8 * rest.length := by
      rw [List.length_cons]
      omega
    rw [hexp, Nat.pow_add, Nat.pow_mul]
  rw [hpow, toNat_cons, List.headD_cons]
  constructor
  · intro hb
    have := Nat.mul_le_mul_right (256 ^ rest.length) hb
    omega
  · intro hle
    by_contra hb
    have := Nat.mul_le_mul_right (256 ^ rest.length) (show b.toNat + 1 ≤ 0x80 by omega)
    linarith

def twos (width : Nat) (n : Int) : List UInt8 := ofNat width (n % 256 ^ width).toNat

theorem length_twos : (twos width n).length = width := length_ofNat _ _

theorem toNat_twos : (toNat (twos width n) : Int) = n % 256 ^ width := by
  have hpos : (0 : Int) < 256 ^ width := Int.pow_pos (by decide)
  have hnonneg := Int.emod_nonneg n hpos.ne'
  have hlt := Int.emod_lt_of_pos n hpos
  rw [twos, toNat_ofNat_of_lt, Int.toNat_of_nonneg hnonneg]
  zify
  rwa [Int.toNat_of_nonneg hnonneg]

theorem eq_twos (hl : bytes.length = width) (h : n % 256 ^ width = toNat bytes) :
    bytes = twos width n := by
  refine eq_of_toNat (hl.trans length_twos.symm) ?_
  zify
  rw [toNat_twos, h]

def signFill (n : Int) : UInt8 := if n < 0 then 0xff else 0

theorem padLeft_twos (hw : w ≤ width) (hlo : -256 ^ w ≤ n) (hhi : n < 256 ^ w) :
    padLeft width (signFill n) (twos w n) = twos width n := by
  obtain ⟨k, rfl⟩ := Nat.exists_eq_add_of_le' hw
  have hone : (1 : Int) ≤ 256 ^ k := Int.pow_pos (by decide)
  have hpow : (256 : Int) ^ (k + w) = 256 ^ k * 256 ^ w := Int.pow_add ..
  have hle : (256 : Int) ^ w ≤ 256 ^ (k + w) := by
    rw [hpow]
    nlinarith [show (0 : Int) < 256 ^ w from Int.pow_pos (by decide)]
  refine eq_twos (length_padLeft (by rw [length_twos]; exact hw) _) ?_
  rw [padLeft, length_twos, Nat.add_sub_cancel, toNat_append, length_twos]
  push_cast
  rw [toNat_twos]
  by_cases hn : n < 0
  · have hfull : (toNat (List.replicate k 0xff) : Int) = 256 ^ k - 1 := by
      have := toNat_replicate_full k
      zify at this
      linarith
    have hshort : n % 256 ^ w = n + 256 ^ w := by
      rw [← Int.add_emod_right, Int.emod_eq_of_lt (by linarith) (by linarith)]
    have hlong : n % 256 ^ (k + w) = n + 256 ^ (k + w) := by
      rw [← Int.add_emod_right, Int.emod_eq_of_lt (by linarith) (by linarith)]
    rw [signFill, if_pos hn, hfull, hshort, hlong, hpow]
    ring
  · rw [signFill, if_neg hn, toNat_replicate_zero, Int.emod_eq_of_lt (by linarith) hhi,
      Int.emod_eq_of_lt (by linarith) (by linarith)]
    simp

def FitsTwos (width : Nat) (n : Int) : Prop := -2 ^ (8 * width - 1) ≤ n ∧ n < 2 ^ (8 * width - 1)

def signed (bytes : List UInt8) : Int :=
  if toNat bytes < 2 ^ (8 * bytes.length - 1) then toNat bytes
  else toNat bytes - 2 ^ (8 * bytes.length)

theorem pow_256 (w : Nat) : (256 : Int) ^ w = 2 ^ (8 * w) := by
  rw [Int.pow_mul]
  rfl

theorem two_pow_eq (h : 0 < w) : (2 : Int) ^ (8 * w) = 2 ^ (8 * w - 1) + 2 ^ (8 * w - 1) := by
  obtain ⟨k, hk⟩ := Nat.exists_eq_add_of_lt (show 0 < 8 * w by omega)
  rw [hk, Nat.add_sub_cancel, Int.pow_succ]
  ring

theorem FitsTwos.bounds (h : FitsTwos w n) (hw : 0 < w) : -256 ^ w ≤ n ∧ n < 256 ^ w := by
  have hhalf := two_pow_eq hw
  have hpos : (0 : Int) < 2 ^ (8 * w - 1) := Int.pow_pos (by decide)
  rw [pow_256]
  exact ⟨by linarith [h.1], by linarith [h.2]⟩

theorem signed_cases (bytes : List UInt8) :
    0 ≤ signed bytes ∧ toNat bytes < 2 ^ (8 * bytes.length - 1) ∧ signed bytes = toNat bytes ∨
    signed bytes < 0 ∧ 2 ^ (8 * bytes.length - 1) ≤ toNat bytes ∧
      signed bytes = toNat bytes - 2 ^ (8 * bytes.length) := by
  have hlt := lt_pow bytes
  zify at hlt
  rw [pow_256] at hlt
  rw [signed]
  split
  · next hsmall => exact .inl ⟨by omega, hsmall, rfl⟩
  · next hlarge => exact .inr ⟨by linarith, Nat.le_of_not_lt hlarge, rfl⟩

theorem twos_signed (bytes : List UInt8) : twos bytes.length (signed bytes) = bytes := by
  refine (eq_twos rfl ?_).symm
  have hlt := lt_pow bytes
  zify at hlt
  rcases signed_cases bytes with ⟨-, -, heq⟩ | ⟨-, -, heq⟩
  · rw [heq, Int.emod_eq_of_lt (by omega) hlt]
  · rw [heq, ← pow_256, Int.sub_emod_right, Int.emod_eq_of_lt (by omega) hlt]

section Signed

variable (h : bytes ≠ [])
include h

theorem fits_signed : FitsTwos bytes.length (signed bytes) := by
  have hhalf := two_pow_eq (List.length_pos_iff.2 h)
  have hlt := lt_pow bytes
  zify at hlt
  rw [pow_256] at hlt
  have hpos : (0 : Int) < 2 ^ (8 * bytes.length - 1) := Int.pow_pos (by decide)
  rw [FitsTwos]
  rcases signed_cases bytes with ⟨-, hsmall, heq⟩ | ⟨-, hlarge, heq⟩
  · zify at hsmall
    exact ⟨by linarith, by linarith⟩
  · zify at hlarge
    exact ⟨by linarith, by linarith⟩

theorem signed_neg_iff : 0x80 ≤ (bytes.headD 0).toNat ↔ signed bytes < 0 := by
  rw [head_ge_iff h]
  rcases signed_cases bytes with ⟨hsign, hsmall, -⟩ | ⟨hsign, hlarge, -⟩
  · exact iff_of_false (Nat.not_le_of_lt hsmall) (Int.not_lt.2 hsign)
  · exact iff_of_true hlarge hsign

end Signed

theorem signed_twos (h : FitsTwos w n) (hw : 0 < w) : signed (twos w n) = n := by
  have hne : twos w n ≠ [] := List.ne_nil_of_length_pos (by rw [length_twos]; exact hw)
  have hfits := fits_signed hne
  have heq := congrArg toNat (twos_signed (twos w n))
  zify at heq
  rw [length_twos] at hfits heq
  rw [toNat_twos, toNat_twos] at heq
  have hhalf := two_pow_eq hw
  obtain ⟨hlo, hhi⟩ := h
  obtain ⟨hlo', hhi'⟩ := hfits
  -- The two numbers have one remainder and lie less than the modulus apart.
  have hdvd : (256 : Int) ^ w ∣ signed (twos w n) - n :=
    Int.dvd_of_emod_eq_zero (Int.emod_eq_emod_iff_emod_sub_eq_zero.1 (by simpa using heq))
  have hzero := Int.eq_zero_of_abs_lt_dvd hdvd (by
    rw [pow_256, abs_lt]
    constructor <;> linarith)
  linarith

end SlotLens.BigEndian

import SlotLens.Command.Request
import SlotLens.Proofs.Artifact
import Mathlib.Data.Nat.Digits.Defs

namespace SlotLens

namespace Numeral

variable {s : List Char} {radix n : Nat} {ds : List Nat}

def IsShort (n : Int) : Prop := (Nat.toDigits 10 n.natAbs).length ≤ maxDigits

theorem digit?_lt {c : Char} {d : Nat} (h : digit? radix c = some d) : d < radix := by
  simp only [digit?, Option.ite_none_right_eq_some, Option.some.injEq] at h
  exact h.2 ▸ h.1

theorem digits?_lt (h : digits? radix s = some ds) : ∀ d ∈ ds, d < radix := by
  induction s using digits?.induct generalizing ds with
  | case1 => cases h
  | case2 c =>
    obtain ⟨d, hd, rfl⟩ := Option.map_eq_some_iff.1 h
    simpa using digit?_lt hd
  | case3 c rest ih =>
    rw [digits?] at h
    obtain ⟨d, hd, h⟩ := Option.bind_eq_some_iff.1 h
    obtain ⟨rest, hrest, h⟩ := Option.bind_eq_some_iff.1 h
    cases h
    exact List.forall_mem_cons.2 ⟨digit?_lt hd, ih hrest⟩
  | case4 c rest hne hu ih =>
    rw [digits?] at h
    case x_1 => exact hne
    case x_2 => exact hu
    obtain ⟨d, hd, h⟩ := Option.bind_eq_some_iff.1 h
    obtain ⟨rest, hrest, h⟩ := Option.bind_eq_some_iff.1 h
    cases h
    exact List.forall_mem_cons.2 ⟨digit?_lt hd, ih hrest⟩

theorem ofDigits_lt (h : ∀ d ∈ ds, d < radix) : ofDigits radix ds < radix ^ ds.length := by
  suffices hs : ∀ n k, n < radix ^ k →
      ds.foldl (fun n d => n * radix + d) n < radix ^ (k + ds.length) by
    simpa [ofDigits] using hs 0 0 (by simp)
  induction ds with
  | nil => exact fun n k hn => hn
  | cons d ds ih =>
    obtain ⟨hd, hds⟩ := List.forall_mem_cons.1 h
    intro n k hn
    have hnext : n * radix + d < radix ^ (k + 1) :=
      calc n * radix + d < n * radix + radix := Nat.add_lt_add_left hd _
        _ = (n + 1) * radix := (Nat.succ_mul n radix).symm
        _ ≤ radix ^ k * radix := Nat.mul_le_mul_right _ hn
        _ = radix ^ (k + 1) := (Nat.pow_succ ..).symm
    have hrest := ih hds _ _ hnext
    rw [List.foldl_cons, List.length_cons]
    rwa [show k + (ds.length + 1) = k + 1 + ds.length by omega]

theorem isShort_of_decimal? (h : decimal? s = some n) : IsShort n := by
  obtain ⟨ds, hds, h⟩ := Option.bind_eq_some_iff.1 h
  split at h
  · next hl =>
    cases h
    have hlt : ofDigits 10 ds < 10 ^ maxDigits :=
      (ofDigits_lt (digits?_lt hds)).trans_le (Nat.pow_le_pow_right (by decide) hl)
    exact Nat.toDigits_length 10 _ maxDigits (by decide) hlt
  · cases h

theorem isShort_of_ofDecimal? {text : String} {n : Int} (h : ofDecimal? text = some n) :
    IsShort n := by
  rw [ofDecimal?, signed?.eq_def] at h
  split at h
  · obtain ⟨m, hm, rfl⟩ := Option.map_eq_some_iff.1 h
    exact isShort_of_decimal? hm
  · obtain ⟨k, hk, rfl⟩ := Option.map_eq_some_iff.1 h
    obtain ⟨m, hm, h⟩ := Option.bind_eq_some_iff.1 hk
    cases h
    rw [IsShort, Int.natAbs_neg]
    exact isShort_of_decimal? hm
  · obtain ⟨m, hm, rfl⟩ := Option.map_eq_some_iff.1 h
    exact isShort_of_decimal? hm

end Numeral

def ConfigFault.IsReported (fault : ConfigFault) : Prop := (Fault.config fault).IsReported

namespace Bounds

variable {v : Value} {setting : Setting} {values : List (Setting × Value)}
  {lookup : String → Option String}

def IsWritable (setting : Setting) (v : Value) : Prop :=
  ∀ n, v = .int n → n < setting.minimum → Numeral.IsShort n

def HasShortNumbers (lookup : String → Option String) : Prop :=
  ∀ (setting : Setting) (text : String) (n : Int), lookup setting.variableName = some text →
    Numeral.ofMarked? text = some n → Numeral.IsShort n

end Bounds

namespace LabelRequest

variable {r r' : LabelRequest} {key : Key} {v : Option String}

structure IsWritable (r : LabelRequest) : Prop where
  limit : Bounds.IsWritable .limit r.limit
  depth : Bounds.IsWritable .depth r.depth
  threshold : Bounds.IsWritable .threshold r.threshold

theorem isWritable_number {setting : Setting} {w : Value} (h : number v = .ok w) :
    Bounds.IsWritable setting w := by
  intro n hn _
  subst hn
  cases v with
  | none => cases h
  | some s =>
    rw [number] at h
    split at h
    · next hs =>
      cases h
      exact Numeral.isShort_of_ofDecimal? hs
    · cases h

theorem IsWritable.set (hr : r.IsWritable) (h : r.set key v = .ok r') : r'.IsWritable := by
  cases key with
  | help => cases h
  | layout | abi | contract | output =>
    cases h
    exact ⟨hr.limit, hr.depth, hr.threshold⟩
  | length =>
    obtain ⟨k, -, rfl⟩ := map_eq_ok.1 h
    exact ⟨hr.limit, hr.depth, hr.threshold⟩
  | limit =>
    obtain ⟨w, hw, rfl⟩ := map_eq_ok.1 h
    exact ⟨isWritable_number hw, hr.depth, hr.threshold⟩
  | depth =>
    obtain ⟨w, hw, rfl⟩ := map_eq_ok.1 h
    exact ⟨hr.limit, isWritable_number hw, hr.threshold⟩
  | threshold =>
    obtain ⟨w, hw, rfl⟩ := map_eq_ok.1 h
    exact ⟨hr.limit, hr.depth, isWritable_number hw⟩

theorem IsWritable.read {hasCapture hasSurplus : Bool} {items : List (Item Key)}
    {found : Reading LabelRequest} (hr : r.IsWritable)
    (h : r.read hasCapture hasSurplus items = .ok found) : found.value.IsWritable := by
  induction items generalizing r hasCapture hasSurplus with
  | nil =>
    rw [LabelRequest.read] at h
    split at h
    · cases h
      exact hr
    · cases h
  | cons item items ih =>
    cases item with
    | option key v =>
      obtain ⟨r₁, hset, h⟩ := bind_eq_ok.1 h
      exact ih (hr.set hset) h
    | operand capture rest =>
      have hcapture : LabelRequest.IsWritable { r with capture } :=
        ⟨hr.limit, hr.depth, hr.threshold⟩
      exact ih hcapture h
    | surplus => exact ih hr h
    | malformed => cases h

end LabelRequest

namespace Request

variable {b : Bounds} {r : LabelRequest} {arguments : List String}

end Request

end SlotLens

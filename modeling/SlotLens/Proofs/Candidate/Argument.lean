import SlotLens.Candidate.Argument
import SlotLens.Proofs.Abi.Decode
import SlotLens.Proofs.Value

namespace SlotLens

def ShapeFault.IsLarge (fault : ShapeFault) : Prop := fault = .unbounded ∨ fault = .tooMany

namespace Value

variable {v : Value} {n : Int}

def IsCount (n : Int) : Prop := -Int.pow 2 63 ≤ n ∧ n < maxBytes

theorem zeroBytes_failsOnly : FailsOnly (¬ ·.IsLarge) (zeroBytes n) ↔ IsCount n := by
  have hmax : maxBytes + bytesOverhead < Int.pow 2 63 := by decide
  have hpos : 0 < maxBytes := by decide
  rw [zeroBytes, IsCount]
  split
  · constructor
    · intro h
      exact absurd (.inl rfl) (h.of_error _ rfl)
    · intro h
      omega
  split
  · refine ⟨fun _ => by omega, fun _ => .error ?_⟩
    rintro (h | h) <;> cases h
  split
  · constructor
    · intro h
      exact absurd (.inr rfl) (h.of_error _ rfl)
    · intro h
      omega
  · exact ⟨fun _ => by omega, fun _ => .ok _⟩

theorem toBytes_failsOnly :
    FailsOnly (¬ ·.IsLarge) v.toBytes ↔ ∀ n, v = .int n → IsCount n := by
  have hwrong : ¬ ShapeFault.wrongKind.IsLarge := by rintro (h | h) <;> cases h
  have hbyte : ¬ ShapeFault.notByte.IsLarge := by rintro (h | h) <;> cases h
  have items (vs : List Value) : FailsOnly (¬ ·.IsLarge) (vs.mapM toByte) := by
    apply FailsOnly.mapM
    intro w _
    unfold toByte
    split
    · split
      · exact .ok _
      · exact .error hbyte
    · exact .ok _
    · exact .error hwrong
  cases v with
  | int n =>
    rw [toBytes, zeroBytes_failsOnly]
    exact ⟨fun h m hm => by cases hm; exact h, fun h => h n rfl⟩
  | bytes | bool => exact ⟨fun _ _ h => (nomatch h), fun _ => .ok _⟩
  | text | null | real | decimal => exact ⟨fun _ _ h => (nomatch h), fun _ => .error hwrong⟩
  | list vs => exact ⟨fun _ _ h => (nomatch h), fun _ => items vs⟩
  | object fields => exact ⟨fun _ _ h => (nomatch h), fun _ => items _⟩
  | keyed entries => exact ⟨fun _ _ h => (nomatch h), fun _ => items _⟩

end Value

namespace Candidate

open Abi

variable {type : String} {value : Value}

def IsHeld (leaf : String × Value) : Prop :=
  leaf.1 = "string" ∨ leaf.1 = "bytes" → ∀ n, leaf.2 = .int n → Value.IsCount n

theorem skipsLeaf_shape {fault : ShapeFault} : skipsLeaf (.shape fault) ↔ ¬ fault.IsLarge := by
  cases fault <;> simp [skipsLeaf, ShapeFault.IsLarge]

theorem fixedBytesOf_failsOnly : FailsOnly (skipsLeaf ·) (fixedBytesOf type value) := by
  unfold fixedBytesOf
  split
  · split
    · split
      · exact .ok _
      · exact .error rfl
    · exact .ok _
  · exact .ok _

theorem checksum_failsOnly : FailsOnly (skipsLeaf ·) (Address.checksum value) := by
  have digits {digits : Option (List Char)} :
      FailsOnly (skipsLeaf ·) (Address.checksum.ofDigits digits) := by
    cases digits with
    | none => exact .error rfl
    | some digits => exact .ok _
  unfold Address.checksum
  split
  · exact digits
  · exact digits
  · exact digits
  · exact .error rfl
  · exact .error rfl

theorem skipsLeaf_hex {α : Type} (x : Except HexFault α) :
    FailsOnly (skipsLeaf ·) (x.mapError Fault.hex) :=
  .mapError (.of_forall fun _ => rfl)

theorem skipsLeaf_abi {α : Type} (x : Except AbiFault α) :
    FailsOnly (skipsLeaf ·) (liftM x : Except Fault α) :=
  .mapError (.of_forall fun _ => rfl)

theorem encodeLeaf_failsOnly [Address.Rule] :
    FailsOnly (skipsLeaf ·) (encodeLeaf type value) ↔ IsHeld (type, value) := by
  have bytes : FailsOnly (skipsLeaf ·) (liftM value.toBytes : Except Fault (List UInt8)) ↔
      ∀ n, value = .int n → Value.IsCount n := by
    rw [← Value.toBytes_failsOnly]
    exact FailsOnly.mapError_iff.trans (by simp only [skipsLeaf_shape]; rfl)
  have held (ht : type = "string" ∨ type = "bytes") :
      IsHeld (type, value) ↔ ∀ n, value = .int n → Value.IsCount n :=
    ⟨fun h => h ht, fun h _ => h⟩
  unfold encodeLeaf
  split
  · next ht =>
    rw [held (.inl ht)]
    split
    · refine ⟨fun _ _ h => (nomatch h), fun _ => ?_⟩
      split
      · exact .ok _
      · exact .error rfl
    · rw [← bytes]
      exact FailsOnly.bind_iff fun raw => ⟨_, rfl⟩
  split
  · next ht =>
    rw [held (.inr ht)]
    cases value with
    | text s =>
      refine ⟨fun _ _ h => (nomatch h), fun _ => ?_⟩
      exact (skipsLeaf_hex _).bind fun _ _ => .ok _
    | _ =>
      rw [← bytes]
      exact FailsOnly.bind_iff fun raw => ⟨_, rfl⟩
  · next hs hb =>
    refine ⟨fun _ ht => absurd ht (by simp [hs, hb]), fun _ => ?_⟩
    apply fixedBytesOf_failsOnly.bind
    intro value _
    apply (skipsLeaf_abi (Codec.ofText type)).bind
    intro codec _
    apply (skipsLeaf_abi (codec.encodeArgument value)).bind
    intro raw _
    split
    · exact checksum_failsOnly.bind fun _ _ => .ok _
    · split <;> exact .ok _

theorem ofLeaf_failsOnly [Address.Rule] :
    FailsOnly (skipsLeaf ·) (ofLeaf type value) ↔ IsHeld (type, value) :=
  FailsOnly.map_iff.trans encodeLeaf_failsOnly

def offeredLeaf [Address.Rule] (leaf : String × Value) : Option Candidate :=
  (ofLeaf leaf.1 leaf.2).toOption

theorem ofLeaves_eq_ok [Address.Rule] {found : List (String × Value)}
    {candidates : List Candidate} :
    ofLeaves found = .ok candidates ↔
      (∀ leaf ∈ found, IsHeld leaf) ∧ candidates = found.filterMap offeredLeaf := by
  induction found generalizing candidates with
  | nil => simp [ofLeaves, eq_comm]
  | cons leaf rest ih =>
    obtain ⟨type, value⟩ := leaf
    rw [List.forall_mem_cons, ← ofLeaf_failsOnly, List.filterMap_cons, offeredLeaf, ofLeaves]
    cases h : ofLeaf type value with
    | ok c =>
      simp only [map_eq_ok, ih, Except.toOption]
      constructor
      · rintro ⟨others, ⟨hheld, rfl⟩, rfl⟩
        exact ⟨⟨.ok c, hheld⟩, rfl⟩
      · rintro ⟨⟨-, hheld⟩, rfl⟩
        exact ⟨_, ⟨hheld, rfl⟩, rfl⟩
    | error fault =>
      simp only [FailsOnly.error_iff, Except.toOption]
      split
      · next hs => simp [ih, hs]
      · next hs => simp [hs]

mutual
theorem leaves_failsOnly : (t : Ty) → (v : Value) → FailsOnly (· = .wrongKind) (leaves t v)
  | .basic name size, v => by
    rw [leaves]
    exact .ok _
  | .tuple components, v => by
    rw [leaves]
    exact Value.iterate_failsOnly.bind fun values _ => leavesOfAll_failsOnly components values
  | .array item _, v => by
    rw [leaves]
    apply Value.iterate_failsOnly.bind
    intro values _
    exact FailsOnly.bind (.mapM fun value _ => leaves_failsOnly item value) fun _ _ => .ok _

theorem leavesOfAll_failsOnly :
    (ts : List Ty) → (vs : List Value) → FailsOnly (· = .wrongKind) (leavesOfAll ts vs)
  | t :: ts, v :: vs => by
    rw [leavesOfAll]
    apply (leaves_failsOnly t v).bind
    intro first _
    exact (leavesOfAll_failsOnly ts vs).bind fun _ _ => .ok _
  | [], _ => by
    rw [leavesOfAll]
    · exact .ok []
    · simp
  | t :: ts, [] => by
    rw [leavesOfAll]
    · exact .ok []
    · simp
end

theorem ofText_failsOnly : FailsOnly (· ≠ .notText) (Ty.ofText type) := by
  unfold Ty.ofText
  split
  · exact .error AbiFault.noConfusion
  split
  · split
    · exact .error AbiFault.noConfusion
    · exact .ok _
  · split <;> exact .error AbiFault.noConfusion

theorem flatten_failsOnly : FailsOnly (skipsArgument ·) (flatten (.text type) value) ↔
    FailsOnly (· = .unparsable) (Ty.ofText type) := by
  rw [flatten, Ty.ofValue]
  have hn := @ofText_failsOnly type
  cases ht : Ty.ofText type with
  | error fault =>
    rw [ht] at hn
    change FailsOnly (skipsArgument ·) (Except.error (Fault.abi fault) : Except Fault _) ↔ _
    rw [FailsOnly.error_iff, FailsOnly.error_iff]
    have hn := hn.of_error fault rfl
    cases fault <;> simp [skipsArgument] at hn ⊢
  | ok t =>
    refine ⟨fun _ => .ok t, fun _ => ?_⟩
    exact FailsOnly.mapError ((leaves_failsOnly t value).mono fun fault h => by rw [h]; rfl)

/-- An argument that can be passed over or read: its type text is in the grammar or is reported as
outside, and its leaves can be held. -/
structure IsReadable (a : String × Value) : Prop where
  type : FailsOnly (· = .unparsable) (Ty.ofText a.1)
  leaves : ∀ found, flatten (.text a.1) a.2 = .ok found → ∀ leaf ∈ found, IsHeld leaf

def offered [Address.Rule] (a : String × Value) : List Candidate :=
  match flatten (.text a.1) a.2 with
  | .ok found => found.filterMap offeredLeaf
  | .error _ => []

theorem ofArguments_eq_ok [Address.Rule] {args : List (String × Value)}
    {candidates : List Candidate} :
    ofArguments (args.map fun a => (.text a.1, a.2)) = .ok candidates ↔
      (∀ a ∈ args, IsReadable a) ∧ candidates = args.flatMap offered := by
  induction args generalizing candidates with
  | nil => simp [ofArguments, eq_comm]
  | cons a rest ih =>
    obtain ⟨type, value⟩ := a
    have hfails := @flatten_failsOnly type value
    have hreads : IsReadable (type, value) ↔ FailsOnly (skipsArgument ·) (flatten (.text type) value) ∧
        ∀ found, flatten (.text type) value = .ok found → ∀ leaf ∈ found, IsHeld leaf :=
      ⟨fun h => ⟨hfails.2 h.type, h.leaves⟩, fun h => ⟨hfails.1 h.1, h.2⟩⟩
    rw [List.forall_mem_cons, hreads, List.map_cons, ofArguments, List.flatMap_cons, offered]
    cases h : flatten (.text type) value with
    | ok found =>
      simp only [bind_eq_ok, pure_eq_ok, ofLeaves_eq_ok, ih]
      constructor
      · rintro ⟨first, ⟨hheld, rfl⟩, others, ⟨hrest, rfl⟩, rfl⟩
        refine ⟨⟨⟨.ok found, fun _ hf => ?_⟩, hrest⟩, rfl⟩
        cases hf
        exact hheld
      · rintro ⟨⟨⟨-, hheld⟩, hrest⟩, rfl⟩
        exact ⟨_, ⟨hheld found rfl, rfl⟩, _, ⟨hrest, rfl⟩, rfl⟩
    | error fault =>
      simp only [FailsOnly.error_iff]
      split
      · next hs => simp [ih, hs]
      · next hs => simp [hs]

section Decoded

theorem exists_getLast?_print {size : Size} (h : size ≠ .none) :
    ∃ c, size.print.toList.getLast? = some c ∧ c.isDigit := by
  have number (n : Nat) : ∃ c, (toString n).toList.getLast? = some c ∧ c.isDigit := by
    have htext : (toString n).toList = Nat.toDigits 10 n := Nat.toList_repr
    rw [htext]
    obtain ⟨c, hc⟩ := Option.isSome_iff_exists.1
      (List.getLast?_isSome.2 (Nat.toDigits_ne_nil (n := n) (b := 10)))
    exact ⟨c, hc, Nat.isDigit_of_mem_toDigits (by decide) (by decide) (List.mem_of_getLast? hc)⟩
  cases size with
  | none => exact absurd rfl h
  | single n => exact number n
  | double m n =>
    obtain ⟨c, hc, hdigit⟩ := number n
    refine ⟨c, ?_, hdigit⟩
    rw [Size.print, String.toList_append, List.getLast?_append, hc]
    rfl

theorem unsized_of_append {name text : String} {size : Size} (h : name ++ size.print = text)
    (hd : text.toList.getLast?.all (!·.isDigit)) :
    name = text ∧ size = .none := by
  by_cases hn : size = .none
  · subst hn
    exact ⟨by simpa [Size.print] using h, rfl⟩
  · obtain ⟨c, hc, hdigit⟩ := exists_getLast?_print hn
    rw [← h, String.toList_append, List.getLast?_append, hc, Option.some_or, Option.all_some,
      hdigit] at hd
    cases hd

theorem isHeld_of_basic {name : String} {size : Size} {c : Codec}
    (hc : Ty.basicCodec name size = .ok c) (hv : c.Fits value) :
    IsHeld (name ++ size.print, value) := by
  rintro (ht | ht) n hn
  · obtain ⟨rfl, rfl⟩ := unsized_of_append ht rfl
    cases hc
    obtain ⟨s, hs⟩ := hv
    cases hs.symm.trans hn
  · obtain ⟨rfl, rfl⟩ := unsized_of_append ht rfl
    cases hc
    obtain ⟨b, hb⟩ := hv
    cases hb.symm.trans hn

mutual
theorem leaves_of_fits : (t : Ty) → (c : Codec) → (v : Value) → t.innerCodec = .ok c → c.Fits v →
    ∃ found, leaves t v = .ok found ∧ ∀ leaf ∈ found, IsHeld leaf
  | .basic name size, c, v, hc, hv => by
    refine ⟨_, by rw [leaves], ?_⟩
    simp only [List.mem_singleton, forall_eq]
    rw [Ty.innerCodec.eq_def] at hc
    split at hc
    · next he =>
      cases he
      rintro (ht | ht) <;> simp [Size.print] at ht
    · next he =>
      cases he
      exact isHeld_of_basic hc hv
    · next he => cases he
    · next he => cases he
  | .tuple components, c, v, hc, hv => by
    rw [Ty.innerCodec] at hc
    obtain ⟨codecs, hcodecs, rfl⟩ := map_eq_ok.1 hc
    obtain ⟨values, rfl, hvalues⟩ := hv
    rw [leaves]
    exact leavesOfAll_of_fits components codecs values hcodecs hvalues
  | .array item length, c, v, hc, hv => by
    rw [Ty.innerCodec] at hc
    obtain ⟨codec, hcodec, rfl⟩ := map_eq_ok.1 hc
    obtain ⟨values, rfl, hvalues⟩ := hv
    have hitems : ∀ value ∈ values, ∃ found, leaves item value = .ok found ∧
        ∀ leaf ∈ found, IsHeld leaf :=
      fun value hm => leaves_of_fits item codec value hcodec (hvalues value hm)
    obtain ⟨found, hfound⟩ := exists_mapM.2 fun value hm =>
      (hitems value hm).imp fun _ h => h.1
    refine ⟨found.flatten, ?_, ?_⟩
    · rw [leaves]
      exact bind_eq_ok.2 ⟨values, rfl, bind_eq_ok.2 ⟨found, hfound, rfl⟩⟩
    · intro leaf hleaf
      obtain ⟨first, hfirst, hleaf⟩ := List.mem_flatten.1 hleaf
      obtain ⟨value, hm, hvalue⟩ := (mem_of_mapM hfound).1 hfirst
      obtain ⟨first', hfirst', hheld⟩ := hitems value hm
      cases hvalue.symm.trans hfirst'
      exact hheld leaf hleaf

theorem leavesOfAll_of_fits : (ts : List Ty) → (cs : List Codec) → (vs : List Value) →
    Ty.innerCodecs ts = .ok cs → Codec.AllFit cs vs →
      ∃ found, leavesOfAll ts vs = .ok found ∧ ∀ leaf ∈ found, IsHeld leaf
  | t :: ts, cs, v :: vs, hc, hv => by
    rw [Ty.innerCodecs] at hc
    obtain ⟨c, ht, hc⟩ := bind_eq_ok.1 hc
    obtain ⟨rest, hts, hc⟩ := bind_eq_ok.1 hc
    cases hc
    obtain ⟨first, hfirst, hheld⟩ := leaves_of_fits t c v ht hv.1
    obtain ⟨others, hothers, hrest⟩ := leavesOfAll_of_fits ts rest vs hts hv.2
    refine ⟨first ++ others, ?_, ?_⟩
    · rw [leavesOfAll]
      exact bind_eq_ok.2 ⟨first, hfirst, bind_eq_ok.2 ⟨others, hothers, rfl⟩⟩
    · intro leaf hleaf
      exact (List.mem_append.1 hleaf).elim (hheld leaf) (hrest leaf)
  | [], cs, vs, hc, hv => ⟨[], by rw [leavesOfAll]; simp, by simp⟩
  | t :: ts, cs, [], hc, hv => ⟨[], by rw [leavesOfAll]; simp, by simp⟩
end

theorem isReadable_of_fits {c : Codec} (hc : Codec.ofText type = .ok c) (hv : c.Fits value) :
    IsReadable (type, value) := by
  obtain ⟨t, ht, hc⟩ := bind_eq_ok.1 hc
  have hleaves : ∃ found, leaves t value = .ok found ∧ ∀ leaf ∈ found, IsHeld leaf := by
    rw [Ty.codec.eq_def] at hc
    split at hc
    · next name size =>
      exact ⟨_, by rw [leaves], by simpa using isHeld_of_basic hc hv⟩
    · split at hc
      · exact leaves_of_fits t c value hc hv
      · cases hc
  obtain ⟨found, hfound, hheld⟩ := hleaves
  refine ⟨?_, ?_⟩
  · rw [ht]
    exact .ok t
  · intro found' hfound'
    rw [flatten, Ty.ofValue, ht] at hfound'
    cases hfound.symm.trans (mapError_eq_ok.1 hfound')
    exact hheld

end Decoded

end Candidate

end SlotLens

import SlotLens.Proofs.Layout.Container
import SlotLens.Proofs.Layout.Metadata
import Mathlib.Data.List.Perm.Subperm

namespace SlotLens

namespace Descriptor

variable {e : Entry} {element : Descriptor} {members : List Descriptor} {c : Container}

theorem exists_of_mem_memberContainers (h : c ∈ memberContainers members) :
    ∃ m ∈ members, ∃ c' ∈ m.containers, c = c'.under m.slot (.field m.label) := by
  induction members with
  | nil => exact absurd h List.not_mem_nil
  | cons m rest ih =>
    rw [memberContainers, List.mem_append] at h
    rcases h with h | h
    · split at h
      · obtain ⟨c', hc', rfl⟩ := List.mem_map.1 h
        exact ⟨m, List.mem_cons_self, c', hc', rfl⟩
      · exact absurd h List.not_mem_nil
    · obtain ⟨m', hm', hc'⟩ := ih h
      exact ⟨m', List.mem_cons_of_mem _ hm', hc'⟩

/-- No byte string is cut whose slot needs no derivation. -/
def KeepsBytes (d : Descriptor) : Prop :=
  ∀ c ∈ d.containers, c.descriptor.kind = .bytes → ∃ e, c.descriptor = .bytes e

namespace KeepsBytes

theorem cut {kind : Kind} (h : kind ≠ .bytes) : (Descriptor.cut e kind).KeepsBytes := by
  intro c hc hk
  cases kind with
  | primitive | staticArray | struct => exact absurd hc List.not_mem_nil
  | mapping | dynamicArray =>
    cases List.mem_singleton.1 hc
    cases hk
  | bytes => exact absurd rfl h

theorem bytes : (Descriptor.bytes e).KeepsBytes := by
  intro c hc _
  cases List.mem_singleton.1 hc
  exact ⟨e, rfl⟩

theorem mapping {keyType : Value} : (Descriptor.mapping e keyType element).KeepsBytes := by
  intro c hc hk
  cases List.mem_singleton.1 hc
  cases hk

theorem dynamicArray : (Descriptor.dynamicArray e element).KeepsBytes := by
  intro c hc hk
  cases List.mem_singleton.1 hc
  cases hk

theorem staticArray {length : Nat} (h : element.KeepsBytes) :
    (Descriptor.staticArray e length element).KeepsBytes := by
  intro c hc hk
  rw [containers] at hc
  split at hc
  · obtain ⟨i, -, hc⟩ := List.mem_flatMap.1 hc
    obtain ⟨c', hc', rfl⟩ := List.mem_map.1 hc
    exact h c' hc' hk
  · exact absurd hc List.not_mem_nil

theorem struct (h : ∀ m ∈ members, m.KeepsBytes) : (Descriptor.struct e members).KeepsBytes := by
  intro c hc hk
  rw [containers] at hc
  obtain ⟨m, hm, c', hc', rfl⟩ := exists_of_mem_memberContainers hc
  exact h m hm c' hc' hk

end KeepsBytes

end Descriptor

namespace Metadata

variable {types : Types} {info : TypeInfo} {depth : Nat} {opened : List String} {id : Value}
  {place : Place} {kind : Kind}

theorem text_of_typeInfo (h : typeInfo types id = .ok info) : id = .text info.id := by
  unfold typeInfo at h
  split at h
  · split at h
    · cases h
      rfl
    · cases h
  · obtain ⟨key, -, h⟩ := bind_eq_ok.1 h
    cases h

theorem listed_of_typeInfo (h : typeInfo types id = .ok info) : info.id ∈ types.map Prod.fst := by
  obtain ⟨e, he, -, hid⟩ := typeInfo_eq_ok h
  rw [← hid]
  exact List.mem_map_of_mem he

/-- What a type that is opened is unfolded into, where `inner` says what its parts are unfolded
into. -/
inductive Opens (types : Types) (inner : Value → Place → Descriptor → Prop) (info : TypeInfo)
    (entry : Entry) : Descriptor → Prop
  | primitive : kindOf info = .ok .primitive → Opens types inner info entry (.primitive entry)
  | bytes : kindOf info = .ok .bytes → Opens types inner info entry (.bytes entry)
  | mapping {key value keyType d} : kindOf info = .ok .mapping →
      keyAndValue info = .ok (key, value) → keyLabel types key = .ok keyType →
      inner value .inner d → Opens types inner info entry (.mapping entry keyType d)
  | dynamicArray {base d} : kindOf info = .ok .dynamicArray → info.get? "base" = some base →
      inner base .inner d → Opens types inner info entry (.dynamicArray entry d)
  | staticArray {digits length d} : kindOf info = .ok .staticArray →
      lengthText entry.typeLabel = .ok digits → lengthOf digits = .ok length →
      inner ((info.get? "base").getD .null) .inner d →
      Opens types inner info entry (.staticArray entry length d)
  | struct {items members} : kindOf info = .ok .struct → memberItems info = .ok items →
      List.Forall₂ (fun item m => ∃ type place, readItem item = .ok (type, place) ∧
        inner type place m) items members →
      Opens types inner info entry (.struct entry members)

theorem build_zero {d : Descriptor} (h : build types 0 opened id place = .ok d) :
    ∃ info entry kind, typeInfo types id = .ok info ∧ entryOf info place = .ok entry ∧
      kindOf info = .ok kind ∧ d = .cut entry kind := by
  simp only [build, bind_eq_ok, pure_eq_ok] at h
  obtain ⟨info, hinfo, entry, hentry, kind, hkind, rfl⟩ := h
  exact ⟨info, entry, kind, hinfo, hentry, mapError_eq_ok.1 hkind, rfl⟩

theorem build_succ {d : Descriptor} (h : build types (depth + 1) opened id place = .ok d) :
    ∃ info entry kind, typeInfo types id = .ok info ∧ entryOf info place = .ok entry ∧
      kindOf info = .ok kind ∧
      ((info.id ∈ opened ∧ d = .cut entry kind) ∨
        (info.id ∉ opened ∧ Opens types (fun id place d =>
          build types depth (info.id :: opened) id place = .ok d) info entry d)) := by
  rw [build] at h
  obtain ⟨info, hinfo, h⟩ := bind_eq_ok.1 h
  obtain ⟨entry, hentry, h⟩ := bind_eq_ok.1 h
  obtain ⟨kind, hkind, h⟩ := bind_eq_ok.1 h
  have hkind : kindOf info = .ok kind := mapError_eq_ok.1 hkind
  refine ⟨info, entry, kind, hinfo, hentry, hkind, ?_⟩
  dsimp only at h
  split at h
  · next ho => exact .inl ⟨List.contains_iff_mem.1 ho, (pure_eq_ok.1 h).symm⟩
  next ho =>
  refine .inr ⟨mt List.contains_iff_mem.2 ho, ?_⟩
  cases kind with
  | primitive =>
    cases h
    exact .primitive hkind
  | bytes =>
    cases h
    exact .bytes hkind
  | mapping =>
    simp only [bind_eq_ok, pure_eq_ok] at h
    obtain ⟨⟨key, value⟩, hparts, keyType, hkey, d, hvalue, rfl⟩ := h
    exact .mapping hkind (mapError_eq_ok.1 hparts) hkey hvalue
  | dynamicArray =>
    dsimp only at h
    split at h
    · cases h
    · next base hbase =>
      simp only [bind_eq_ok, pure_eq_ok] at h
      obtain ⟨d, helement, rfl⟩ := h
      exact .dynamicArray hkind hbase helement
  | staticArray =>
    simp only [bind_eq_ok, pure_eq_ok] at h
    obtain ⟨digits, hdigits, d, helement, length, hlength, rfl⟩ := h
    exact .staticArray hkind hdigits hlength helement
  | struct =>
    simp only [bind_eq_ok, pure_eq_ok] at h
    obtain ⟨items, hitems, members, hmembers, rfl⟩ := h
    refine .struct hkind (mapError_eq_ok.1 hitems) ((mapM_eq_ok.1 hmembers).imp ?_)
    intro item m hm
    obtain ⟨⟨type, place⟩, hread, hbuild⟩ := bind_eq_ok.1 hm
    exact ⟨type, place, wrap_eq_ok.1 hread, hbuild⟩

/-- The types that are being unfolded while `depth` more may be opened. -/
structure Chain (types : Types) (depth : Nat) (opened : List String) : Prop where
  nodup : opened.Nodup
  listed : opened ⊆ types.map Prod.fst
  room : types.length ≤ depth + opened.length
  hasParts : ∀ id ∈ opened, ∀ info, typeInfo types (.text id) = .ok info →
    kindOf info ≠ .ok .bytes

namespace Chain

theorem nil : Chain types types.length [] :=
  ⟨.nil, List.nil_subset _, Nat.le_refl _, fun _ h => absurd h List.not_mem_nil⟩

theorem cons (h : Chain types (depth + 1) opened) (hi : typeInfo types id = .ok info)
    (hn : info.id ∉ opened) (hk : kindOf info ≠ .ok .bytes) :
    Chain types depth (info.id :: opened) where
  nodup := List.nodup_cons.2 ⟨hn, h.nodup⟩
  listed := List.cons_subset.2 ⟨listed_of_typeInfo hi, h.listed⟩
  room := by
    have := h.room
    rw [List.length_cons]
    omega
  hasParts := by
    intro other ho info' hi'
    rcases List.mem_cons.1 ho with rfl | ho
    · rw [← text_of_typeInfo hi, hi] at hi'
      cases hi'
      exact hk
    · exact h.hasParts other ho info' hi'

theorem mem_of_zero (h : Chain types 0 opened) (hi : typeInfo types id = .ok info) :
    info.id ∈ opened := by
  by_contra hn
  have hsub : info.id :: opened ⊆ types.map Prod.fst :=
    List.cons_subset.2 ⟨listed_of_typeInfo hi, h.listed⟩
  have hlen := (List.subperm_of_subset (List.nodup_cons.2 ⟨hn, h.nodup⟩) hsub).length_le
  have hroom := h.room
  simp only [List.length_cons, List.length_map] at hlen
  omega

theorem kind_ne_bytes (h : Chain types depth opened) (hi : typeInfo types id = .ok info)
    (ho : info.id ∈ opened) (hk : kindOf info = .ok kind) : kind ≠ .bytes := by
  rintro rfl
  exact h.hasParts info.id ho info (text_of_typeInfo hi ▸ hi) hk

end Chain

theorem build_keepsBytes {d : Descriptor} (hc : Chain types depth opened)
    (h : build types depth opened id place = .ok d) : d.KeepsBytes := by
  -- On the types that may still be opened, as in the reading itself.
  induction depth generalizing opened id place d with
  | zero =>
    obtain ⟨info, entry, kind, hinfo, -, hkind, rfl⟩ := build_zero h
    exact .cut (hc.kind_ne_bytes hinfo (hc.mem_of_zero hinfo) hkind)
  | succ depth ih =>
    obtain ⟨info, entry, kind, hinfo, -, hkind, ⟨ho, rfl⟩ | ⟨hn, hopens⟩⟩ := build_succ h
    · exact .cut (hc.kind_ne_bytes hinfo ho hkind)
    cases hopens with
    | primitive => exact fun c hc => absurd hc List.not_mem_nil
    | bytes => exact .bytes
    | mapping => exact .mapping
    | dynamicArray => exact .dynamicArray
    | staticArray hk _ _ helement =>
      exact .staticArray (ih (hc.cons hinfo hn (by simp [hk])) helement)
    | struct hk _ hmembers =>
      refine .struct fun m hm => ?_
      obtain ⟨item, -, type, place, -, hbuild⟩ := exists_of_forall₂ hmembers hm
      exact ih (hc.cons hinfo hn (by simp [hk])) hbuild

theorem layout_keepsBytes {metadata : Value} {l : Layout} (h : layout metadata = .ok l) :
    ∀ d ∈ l.descriptors, d.KeepsBytes := by
  rw [layout] at h
  split at h
  · cases h
  split at h
  · obtain ⟨types, -, h⟩ := bind_eq_ok.1 h
    obtain ⟨descriptors, hd, h⟩ := bind_eq_ok.1 h
    cases h
    intro d hd'
    obtain ⟨item, -, hitem⟩ := (mem_of_mapM hd).1 hd'
    obtain ⟨read, -, hbuild⟩ := bind_eq_ok.1 hitem
    exact build_keepsBytes .nil hbuild
  · cases h

theorem exists_bytes_of_mem_bytesRoots {metadata : Value} {l : Layout} {root : Root}
    (h : layout metadata = .ok l) (hr : root ∈ l.bytesRoots) :
    ∃ e, root.container = .bytes e := by
  obtain ⟨hroot, hk⟩ := List.mem_filter.1 hr
  obtain ⟨d, hd, c, hc, rfl⟩ := Layout.mem_roots hroot
  exact layout_keepsBytes h d hd c hc (beq_iff_eq.1 hk)

end Metadata

end SlotLens

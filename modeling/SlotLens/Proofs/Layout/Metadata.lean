import SlotLens.Layout.Metadata
import SlotLens.Proofs.Table
import SlotLens.Proofs.Value

namespace SlotLens

def Fault.IsLayout (fault : Fault) : Prop := ∃ report, fault = .layout report

/-- The faults that reading metadata can end with. -/
def Fault.OfMetadata (fault : Fault) : Prop :=
  fault.IsLayout ∨ fault = .shape .wrongKind ∨ fault = .shape .unbounded ∨
    fault = .shape .badNumeral

namespace Metadata

variable {P : Fault → Prop} {types : Types} {info : TypeInfo} {item : Value}

/-! ## Regular metadata -/

def TypeInfo.parts (info : TypeInfo) : List Value :=
  match kindOf info with
  | .ok .mapping => (info.get? "key").toList ++ (info.get? "value").toList
  | .ok .dynamicArray | .ok .staticArray => [(info.get? "base").getD .null]
  | _ => []

def isRegularItem (item : Value) : Bool :=
  (item.lookup "type").all Value.isKey && (item.lookup "slot").all Value.isFinite &&
    (item.lookup "offset").all Value.isFinite

def hasReadableLength (label : Value) : Bool :=
  match lengthText label with
  | .ok digits => (lengthOf digits).isOk
  | .error fault => fault matches .layout _

def TypeInfo.isRegular (info : TypeInfo) : Bool :=
  (info.get? "numberOfBytes").all Value.isFinite && info.parts.all Value.isKey &&
    match kindOf info with
    | .ok .struct => match memberItems info with
      | .ok items => items.all isRegularItem
      | .error _ => false
    | .ok .staticArray => (info.get? "label").all hasReadableLength
    | _ => true

def isRegular (metadata : Value) : Bool :=
  (match metadata.lookup "storage" with
    | some (.list items) => items.all isRegularItem
    | _ => true) &&
  match typesOf metadata with
  | .ok types => types.all fun e => e.2.fields?.all fun fields => TypeInfo.isRegular ⟨e.1, fields⟩
  | .error _ => true

/-! ## What can go wrong -/

structure ItemWithin (P : Fault → Prop) (types : Types) (item : Value) : Prop where
  read : FailsOnly P (wrap .malformedEntry (readItem item))
  type : ∀ read, readItem item = .ok read → FailsOnly P (typeInfo types read.1)

structure TypeInfo.Within (P : Fault → Prop) (types : Types) (info : TypeInfo) : Prop where
  entry : ∀ place, FailsOnly P (entryOf info place)
  parts : ∀ v ∈ info.parts, FailsOnly P (typeInfo types v)
  members : kindOf info = .ok .struct → FailsOnly P (liftM (memberItems info)) ∧
    ∀ items, memberItems info = .ok items → ∀ item ∈ items, ItemWithin P types item
  length : kindOf info = .ok .staticArray → ∀ place entry, entryOf info place = .ok entry →
    FailsOnly P (lengthText entry.typeLabel) ∧
      ∀ digits, lengthText entry.typeLabel = .ok digits → FailsOnly P (lengthOf digits)

theorem wrap_eq_ok {α : Type} {report : ShapeFault → LayoutFault} {x : Except ShapeFault α}
    {a : α} : wrap report x = .ok a ↔ x = .ok a := by
  rcases x with fault | a
  · cases fault <;> simp [wrap]
  · simp [wrap]

theorem keyAndValue_eq_ok {key value : Value} (h : keyAndValue info = .ok (key, value)) :
    info.get? "key" = some key ∧ info.get? "value" = some value := by
  rw [keyAndValue] at h
  split at h <;> cases h
  exact ⟨‹_›, ‹_›⟩

theorem build_failsOnly (hl : ∀ report, P (.layout report))
    (hw : ∀ v info, typeInfo types v = .ok info → info.Within P types) {depth : Nat}
    {opened : List String} {id : Value} {place : Place} (hid : FailsOnly P (typeInfo types id)) :
    FailsOnly P (build types depth opened id place) := by
  -- On the types that may still be opened; of the last one only what all types have is read.
  induction depth generalizing opened id place with
  | zero =>
    rw [build]
    apply hid.bind
    intro info hinfo
    apply ((hw id info hinfo).entry place).bind
    intro entry _
    apply FailsOnly.bind (.mapError (.of_forall hl))
    intro kind _
    exact .ok _
  | succ depth ih =>
    rw [build]
    apply hid.bind
    intro info hinfo
    have hwithin := hw id info hinfo
    apply (hwithin.entry place).bind
    intro entry hentry
    apply FailsOnly.bind (.mapError (.of_forall hl))
    intro kind hkind
    have hkind : kindOf info = .ok kind := mapError_eq_ok.1 hkind
    dsimp only
    split
    · exact .ok _
    -- Which parts are read depends on the kind.
    cases kind with
    | primitive | bytes => exact .ok _
    | mapping =>
      apply FailsOnly.bind (.mapError (.of_forall hl))
      rintro ⟨key, value⟩ hparts
      have hparts := keyAndValue_eq_ok (mapError_eq_ok.1 hparts)
      have hkey : key ∈ info.parts := by simp [TypeInfo.parts, hkind, hparts]
      have hvalue : value ∈ info.parts := by simp [TypeInfo.parts, hkind, hparts]
      apply ((hwithin.parts key hkey).bind fun _ _ => .ok _).bind
      intro keyType _
      apply (ih (hwithin.parts value hvalue)).bind
      intro _ _
      exact .ok _
    | dynamicArray =>
      cases hbase : info.get? "base" with
      | none => exact .error (hl _)
      | some base =>
        have hmem : base ∈ info.parts := by simp [TypeInfo.parts, hkind, hbase]
        apply (ih (hwithin.parts base hmem)).bind
        intro _ _
        exact .ok _
    | staticArray =>
      have hmem : (info.get? "base").getD .null ∈ info.parts := by simp [TypeInfo.parts, hkind]
      obtain ⟨htext, hlength⟩ := hwithin.length hkind place entry hentry
      apply htext.bind
      intro digits hdigits
      apply (ih (hwithin.parts _ hmem)).bind
      intro _ _
      apply (hlength digits hdigits).bind
      intro _ _
      exact .ok _
    | struct =>
      obtain ⟨hitems, hmembers⟩ := hwithin.members hkind
      apply hitems.bind
      intro items hitems
      apply FailsOnly.bind
      · apply FailsOnly.mapM
        intro item hitem
        have hitem := hmembers items (mapError_eq_ok.1 hitems) item hitem
        apply hitem.read.bind
        rintro ⟨type, place⟩ hread
        exact ih (hitem.type _ (wrap_eq_ok.1 hread))
      · intro _ _
        exact .ok _

section Reading

variable (hl : ∀ report, P (.layout report)) {v : Value} {place : Place}

include hl

theorem typeInfo_failsOnly (hv : v.isKey = false → P (.shape .wrongKind)) :
    FailsOnly P (typeInfo types v) := by
  unfold typeInfo
  split
  · split
    · exact .ok _
    · exact .error (hl _)
  · apply FailsOnly.bind
    · apply FailsOnly.mapError
      constructor
      intro fault hfault
      cases v <;> cases hfault <;> exact hv rfl
    · intro key _
      exact .error (hl _)

theorem wrap_failsOnly {α : Type} {report : ShapeFault → LayoutFault} {x : Except ShapeFault α}
    (hx : FailsOnly (fun fault => fault = .unbounded → P (.shape .unbounded)) x) :
    FailsOnly P (wrap report x) := by
  rcases x with fault | a
  · have hfault := hx.of_error fault rfl
    cases fault with
    | unbounded => exact .error (hfault rfl)
    | _ => exact .error (hl _)
  · exact .ok a

theorem readItem_failsOnly
    (hs : ∀ v, item.lookup "slot" = some v → v.isFinite = false → P (.shape .unbounded))
    (ho : ∀ v, item.lookup "offset" = some v → v.isFinite = false → P (.shape .unbounded)) :
    FailsOnly P (wrap .malformedEntry (readItem item)) := by
  apply wrap_failsOnly hl
  rw [readItem]
  refine Value.member_failsOnly.bind fun type _ => ?_
  refine Value.member_failsOnly.bind fun label _ => ?_
  refine Value.member_failsOnly.bind fun slot hslot => ?_
  refine (Value.integer_failsOnly (hs slot (Value.member_eq_ok.1 hslot))).bind fun _ _ => ?_
  refine Value.member?_failsOnly.bind fun offset hoffset => ?_
  have hoffset := Value.member?_eq_ok hoffset
  apply FailsOnly.bind
  · apply Value.integer_failsOnly
    cases offset with
    | none => exact fun h => absurd h (by decide)
    | some v => exact ho v hoffset
  · intro _ _
    exact .ok _

theorem entryOf_failsOnly
    (hs : ∀ v, info.get? "numberOfBytes" = some v → v.isFinite = false → P (.shape .unbounded)) :
    FailsOnly P (entryOf info place) := by
  unfold entryOf
  split
  · exact .error (hl _)
  apply FailsOnly.bind
  · apply wrap_failsOnly hl
    rw [labelAndSize]
    refine Value.member_failsOnly.bind fun label _ => ?_
    refine Value.member_failsOnly.bind fun size hsize => ?_
    refine (Value.integer_failsOnly (hs size (Value.member_eq_ok.1 hsize))).bind fun _ _ => ?_
    exact .ok _
  · intro _ _
    exact .ok _

omit hl in
theorem lengthText_failsOnly : FailsOnly (fun fault => fault.IsLayout ∨ fault = .shape .wrongKind)
    (lengthText v) := by
  unfold lengthText
  split
  · split
    · exact .ok _
    · exact .error (.inl ⟨_, rfl⟩)
  · exact .error (.inr rfl)

end Reading

theorem typeLabel_of_entryOf {place : Place} {entry : Entry} (h : entryOf info place = .ok entry) :
    info.get? "label" = some entry.typeLabel := by
  unfold entryOf at h
  split at h
  · cases h
  obtain ⟨⟨label, size⟩, hread, h⟩ := bind_eq_ok.1 h
  cases h
  obtain ⟨label', hlabel, hread⟩ := bind_eq_ok.1 (wrap_eq_ok.1 hread)
  obtain ⟨size', -, hread⟩ := bind_eq_ok.1 hread
  obtain ⟨n, -, hread⟩ := bind_eq_ok.1 hread
  cases hread
  exact Value.member_eq_ok.1 hlabel

theorem typeInfo_eq_ok {v : Value} (h : typeInfo types v = .ok info) :
    ∃ e ∈ types, e.2.fields? = some info.fields ∧ ⟨e.1, info.fields⟩ = info := by
  unfold typeInfo at h
  split at h
  · next id =>
    split at h
    · next fields hfields =>
      cases h
      obtain ⟨found, hfound, hfields⟩ := Option.bind_eq_some_iff.1 hfields
      exact ⟨(id, found), Entries.mem_of_find? hfound, hfields, rfl⟩
    · cases h
  · obtain ⟨key, -, h⟩ := bind_eq_ok.1 h
    cases h

theorem memberItems_eq_error {fault : ShapeFault} (h : memberItems info = .error fault) :
    fault = .wrongKind := by
  unfold memberItems at h
  split at h
  · cases h
  · split at h
    · cases h
    · next v _ _ => cases v <;> cases h <;> rfl

theorem type_of_readItem {read : Value × Place} (h : readItem item = .ok read) :
    item.lookup "type" = some read.1 := by
  obtain ⟨type, htype, h⟩ := bind_eq_ok.1 h
  obtain ⟨label, -, h⟩ := bind_eq_ok.1 h
  obtain ⟨slot, -, h⟩ := bind_eq_ok.1 h
  obtain ⟨n, -, h⟩ := bind_eq_ok.1 h
  obtain ⟨offset, -, h⟩ := bind_eq_ok.1 h
  obtain ⟨m, -, h⟩ := bind_eq_ok.1 h
  cases h
  exact Value.member_eq_ok.1 htype

/-! ## Where the faults come from -/

theorem isLayout (report : LayoutFault) : (Fault.layout report).IsLayout := ⟨report, rfl⟩

theorem ItemWithin.of_isRegular (h : isRegularItem item) : ItemWithin Fault.IsLayout types item := by
  simp only [isRegularItem, Bool.and_eq_true, Option.all_eq_true] at h
  obtain ⟨⟨htype, hslot⟩, hoffset⟩ := h
  constructor
  · apply readItem_failsOnly isLayout
    · intro v hv hf
      simp [hslot v hv] at hf
    · intro v hv hf
      simp [hoffset v hv] at hf
  · intro read hread
    apply typeInfo_failsOnly isLayout
    intro hf
    simp [htype _ (type_of_readItem hread)] at hf

theorem TypeInfo.within_of_isRegular (h : info.isRegular) :
    info.Within Fault.IsLayout types := by
  simp only [isRegular, Bool.and_eq_true, Option.all_eq_true, List.all_eq_true] at h
  obtain ⟨⟨hsize, hparts⟩, hrest⟩ := h
  constructor
  case entry =>
    intro place
    apply entryOf_failsOnly isLayout
    intro v hv hf
    simp [hsize v hv] at hf
  case parts =>
    intro v hv
    apply typeInfo_failsOnly isLayout
    intro hf
    simp [hparts v hv] at hf
  case members =>
    intro hk
    simp only [hk] at hrest
    split at hrest
    · next items hitems =>
      rw [List.all_eq_true] at hrest
      refine ⟨?_, ?_⟩
      · rw [hitems]
        exact .ok _
      · intro items' hitems' item hitem
        cases hitems.symm.trans hitems'
        exact .of_isRegular (hrest item hitem)
    · cases hrest
  case length =>
    intro hk place entry hentry
    simp only [hk, Option.all_eq_true] at hrest
    have hlabel := hrest _ (typeLabel_of_entryOf hentry)
    rw [hasReadableLength] at hlabel
    cases htext : lengthText entry.typeLabel with
    | error fault =>
      rw [htext] at hlabel
      refine ⟨.error ?_, fun digits hdigits => by cases hdigits⟩
      cases fault with
      | layout report => exact isLayout report
      | _ => cases hlabel
    | ok digits =>
      rw [htext] at hlabel
      refine ⟨.ok _, fun digits' hdigits => ?_⟩
      cases hdigits
      exact .of_isOk hlabel

theorem ItemWithin.ofMetadata : ItemWithin Fault.OfMetadata types item where
  read := readItem_failsOnly (fun _ => .inl (isLayout _)) (fun _ _ _ => .inr (.inr (.inl rfl)))
    fun _ _ _ => .inr (.inr (.inl rfl))
  type _ _ := typeInfo_failsOnly (fun _ => .inl (isLayout _)) fun _ => .inr (.inl rfl)

theorem TypeInfo.within_ofMetadata : info.Within Fault.OfMetadata types where
  entry place := entryOf_failsOnly (fun _ => .inl (isLayout _)) fun _ _ _ => .inr (.inr (.inl rfl))
  parts v _ := typeInfo_failsOnly (fun _ => .inl (isLayout _)) fun _ => .inr (.inl rfl)
  members _ := by
    refine ⟨.mapError ⟨fun fault h => ?_⟩, fun _ _ _ _ => .ofMetadata⟩
    cases memberItems_eq_error h
    exact .inr (.inl rfl)
  length _ _ entry _ := by
    refine ⟨lengthText_failsOnly.mono fun fault h => h.imp_right .inl, fun digits _ => ?_⟩
    rw [lengthOf]
    split
    · exact .ok _
    · exact .error (.inr (.inr (.inr rfl)))

theorem layout_failsOnly {metadata : Value} (hl : ∀ report, P (.layout report))
    (hitems : ∀ items, metadata.lookup "storage" = some (.list items) →
      ∀ types, ∀ item ∈ items, ItemWithin P types item)
    (htypes : ∀ types, typesOf metadata = .ok types → ∀ e ∈ types, ∀ fields,
      e.2.fields? = some fields → TypeInfo.Within P types ⟨e.1, fields⟩) :
    FailsOnly P (layout metadata) := by
  cases hr : metadata.isRecord with
  | false =>
    simp only [layout, hr]
    exact .error (hl _)
  | true =>
    simp only [layout, hr, Bool.not_true, Bool.false_eq_true, if_false]
    split
    · next items hstorage =>
      refine FailsOnly.bind (.mapError (.of_forall hl)) fun types ht => ?_
      have ht : typesOf metadata = .ok types := mapError_eq_ok.1 ht
      refine FailsOnly.bind (.mapM fun item hitem => ?_) fun _ _ => .ok _
      have hitem := hitems items hstorage types item hitem
      refine hitem.read.bind fun read hread => ?_
      refine build_failsOnly hl ?_ (hitem.type read (wrap_eq_ok.1 hread))
      intro v info hinfo
      obtain ⟨e, he, hfields, hid⟩ := typeInfo_eq_ok hinfo
      rw [← hid]
      exact htypes types ht e he info.fields hfields
    · exact .error (hl _)

theorem layout_of_isRegular {metadata : Value} (h : isRegular metadata) :
    FailsOnly Fault.IsLayout (layout metadata) := by
  rw [isRegular, Bool.and_eq_true] at h
  obtain ⟨hstorage, htypes⟩ := h
  apply layout_failsOnly isLayout
  · intro items hitems types item hitem
    rw [hitems, List.all_eq_true] at hstorage
    exact .of_isRegular (hstorage item hitem)
  · intro types ht e he fields hf
    rw [ht, List.all_eq_true] at htypes
    exact TypeInfo.within_of_isRegular (Option.all_eq_true _ _ |>.1 (htypes e he) fields hf)

/-- Reading metadata ends with a layout, a report of what is malformed, or one of three other faults.
Where the metadata is regular, it is a layout or a report. -/
theorem layout_faults (metadata : Value) : FailsOnly Fault.OfMetadata (layout metadata) ∧
    (isRegular metadata → (∃ l, layout metadata = .ok l) ∨
      ∃ report, layout metadata = .error (.layout report)) := by
  constructor
  · refine layout_failsOnly (fun report => Or.inl (isLayout report)) ?_ ?_
    · exact fun _ _ _ _ _ => .ofMetadata
    · exact fun _ _ _ _ _ _ => TypeInfo.within_ofMetadata
  · intro h
    have hfaults := layout_of_isRegular h
    cases hread : layout metadata with
    | ok l => exact .inl ⟨l, rfl⟩
    | error fault =>
      obtain ⟨report, rfl⟩ := hfaults.of_error fault hread
      exact .inr ⟨report, rfl⟩

def variableOf (slot type : Value) : Value :=
  .object [("label", .text "x"), ("offset", .int 0), ("slot", slot), ("type", type)]

def single (slot type : Value) : Value :=
  .object [("storage", .list [variableOf slot type]), ("types", .object [("t_array", .object
    [("encoding", .text "inplace"), ("label", .text "uint256[x]"), ("numberOfBytes", .text "64"),
      ("base", .text "t_uint256")])])]

theorem layout_faults_single : isRegular (single (.text "0") (.text "t_array")) ∧
    ((∃ l, layout (single (.text "0") (.text "t_array")) = .ok l) ∨
      ∃ report, layout (single (.text "0") (.text "t_array")) = .error (.layout report)) :=
  ⟨by decide, (layout_faults _).2 (by decide)⟩

/-- A list as the id of a type and a slot without end are not reported. -/
theorem single_escapes :
    layout (single (.text "0") (.list [.text "t_array"])) = .error (.shape .wrongKind) ∧
      layout (single (.real (.infinite false)) (.text "t_array")) = .error (.shape .unbounded) :=
  ⟨rfl, rfl⟩

end Metadata

end SlotLens

import SlotLens.Proofs.Layout.Part
import SlotLens.Proofs.Layout.Unfolding

/-!
# Types that name each other

Types may name each other in circles. Main statement `build_unrolls`: with the types in progress
noted in a list that is changed and restored along the way, unfolding a type ends, the list is then
what it was, and the tree has at each place what the dictionary says, but for types that come again
inside themselves. Where the types make no circles, nothing is cut.
-/

namespace SlotLens.Metadata

/-! ## Readings that note what is in progress -/

/-- Readings that may fail and that keep a list of the types in progress either way; a reading that
does not end gives nothing. -/
abbrev Unrolling := ExceptT Fault (StateT (List String) Option)

namespace Unrolling

variable {α β : Type} {x : Unrolling α} {r : Except Fault α} {opened : List String} {id : String}

def ofExcept {ε : Type} [MonadLiftT (Except ε) (Except Fault)] (x : Except ε α) : Unrolling α :=
  ExceptT.mk (pure (liftM x))

def endless : Unrolling α := ExceptT.mk fun _ => none

def during (id : String) (x : Unrolling α) : Unrolling α := ExceptT.mk fun opened => do
  let (r, opened) ← x.run.run (opened.insert id)
  return (r, opened.erase id)

/-- A reading ends and leaves the types in progress as they were. -/
def Gives (x : Unrolling α) (opened : List String) (r : Except Fault α) : Prop :=
  x.run.run opened = some (r, opened)

namespace Gives

theorem ofExcept {ε : Type} [MonadLiftT (Except ε) (Except Fault)] {x : Except ε α} :
    Gives (ofExcept x) opened (liftM x) := rfl

theorem get {f : List String → Unrolling α} (h : Gives (f opened) opened r) :
    Gives (MonadState.get >>= f) opened r := h

theorem pure {a : α} : Gives (Pure.pure a) opened (.ok a) := rfl

theorem throw {fault : Fault} : Gives (throw fault : Unrolling α) opened (.error fault) := rfl

theorem bind {f : α → Unrolling β} {g : α → Except Fault β} (hx : Gives x opened r)
    (hf : ∀ a, r = .ok a → Gives (f a) opened (g a)) : Gives (x >>= f) opened (r >>= g) := by
  have hrun : (x >>= f).run.run opened =
      match r with
      | .ok a => (f a).run.run opened
      | .error fault => some (.error fault, opened) := by
    rw [Gives] at hx
    rw [ExceptT.run_bind, StateT.run_bind, hx]
    cases r <;> rfl
  rw [Gives, hrun]
  cases r with
  | ok a => exact hf a rfl
  | error fault => rfl

theorem mapM {f : β → Unrolling α} {g : β → Except Fault α} {items : List β}
    (h : ∀ b ∈ items, Gives (f b) opened (g b)) : Gives (items.mapM f) opened (items.mapM g) := by
  induction items with
  | nil => exact pure
  | cons b items ih =>
    rw [List.mapM_cons, List.mapM_cons]
    refine bind (h b List.mem_cons_self) fun _ _ => ?_
    exact bind (ih fun b hb => h b (List.mem_cons_of_mem _ hb)) fun _ _ => pure

theorem during (hn : id ∉ opened) (hx : Gives x (id :: opened) r) :
    Gives (during id x) opened r := by
  have hadd : opened.insert id = id :: opened := List.insert_of_not_mem hn
  rw [Gives] at hx
  rw [Gives, Unrolling.during]
  change ((x.run.run (opened.insert id)).bind fun p => some (p.1, p.2.erase id)) = _
  rw [hadd, hx, Option.bind_some, List.erase_cons_head]

end Gives

end Unrolling

def unrollParts (types : Types) (inner : Value → Place → Unrolling Descriptor) (info : TypeInfo)
    (entry : Entry) : Unrolling Descriptor := do
  match ← Unrolling.ofExcept (kindOf info) with
  | .primitive => return .primitive entry
  | .bytes => return .bytes entry
  | .mapping =>
    let (key, value) ← Unrolling.ofExcept (keyAndValue info)
    let keyType ← Unrolling.ofExcept (keyLabel types key)
    return .mapping entry keyType (← inner value .inner)
  | .dynamicArray =>
    match info.get? "base" with
    | none => throw (.layout (.noBase info.id))
    | some base => return .dynamicArray entry (← inner base .inner)
  | .staticArray =>
    let digits ← Unrolling.ofExcept (lengthText entry.typeLabel)
    let element ← inner ((info.get? "base").getD .null) .inner
    return .staticArray entry (← Unrolling.ofExcept (lengthOf digits)) element
  | .struct =>
    let items ← Unrolling.ofExcept (memberItems info)
    let members ← items.mapM fun item => do
      let (type, place) ← Unrolling.ofExcept (wrap .malformedEntry (readItem item))
      inner type place
    return .struct entry members

def unroll (types : Types) : (depth : Nat) → Value → Place → Unrolling Descriptor
  | 0, _, _ => .endless
  | depth + 1, id, place => do
    let info ← Unrolling.ofExcept (typeInfo types id)
    let entry ← Unrolling.ofExcept (entryOf info place)
    if (← get).contains info.id then
      return .cut entry (← Unrolling.ofExcept (kindOf info))
    .during info.id (unrollParts types (unroll types depth) info entry)

def unrollVariable (types : Types) (depth : Nat) (item : Value) : Unrolling Descriptor := do
  let (type, place) ← Unrolling.ofExcept (wrap .malformedEntry (readItem item))
  unroll types depth type place

/-! ## The tree -/

structure Sees (types : Types) (id : Value) (place : Place) (info : TypeInfo) (entry : Entry) :
    Prop where
  typeInfo_eq : typeInfo types id = .ok info
  entryOf_eq : entryOf info place = .ok entry

/-- What a type is unfolded into below the types `above`. A type that is one of them comes again
without parts; any other one has the parts that the dictionary says, in their order, and each part
is unfolded below the same types. -/
inductive Unfolds (types : Types) : List String → Value → Place → Descriptor → Prop
  | again {above : List String} {id : Value} {place : Place} {info : TypeInfo} {entry : Entry}
      {kind : Kind} : Sees types id place info entry → info.id ∈ above → kindOf info = .ok kind →
      Unfolds types above id place (.cut entry kind)
  | primitive {above : List String} {id : Value} {place : Place} {info : TypeInfo}
      {entry : Entry} : Sees types id place info entry → info.id ∉ above →
      kindOf info = .ok .primitive → Unfolds types above id place (.primitive entry)
  | bytes {above : List String} {id : Value} {place : Place} {info : TypeInfo} {entry : Entry} :
      Sees types id place info entry → info.id ∉ above → kindOf info = .ok .bytes →
      Unfolds types above id place (.bytes entry)
  | mapping {above : List String} {id key value keyType : Value} {place : Place}
      {info : TypeInfo} {entry : Entry} {d : Descriptor} : Sees types id place info entry →
      info.id ∉ above → kindOf info = .ok .mapping → keyAndValue info = .ok (key, value) →
      keyLabel types key = .ok keyType → Unfolds types (info.id :: above) value .inner d →
      Unfolds types above id place (.mapping entry keyType d)
  | dynamicArray {above : List String} {id base : Value} {place : Place} {info : TypeInfo}
      {entry : Entry} {d : Descriptor} : Sees types id place info entry → info.id ∉ above →
      kindOf info = .ok .dynamicArray → info.get? "base" = some base →
      Unfolds types (info.id :: above) base .inner d →
      Unfolds types above id place (.dynamicArray entry d)
  | staticArray {above : List String} {id : Value} {place : Place} {info : TypeInfo}
      {entry : Entry} {digits : List Char} {length : Nat} {d : Descriptor} :
      Sees types id place info entry → info.id ∉ above → kindOf info = .ok .staticArray →
      lengthText entry.typeLabel = .ok digits → lengthOf digits = .ok length →
      Unfolds types (info.id :: above) ((info.get? "base").getD .null) .inner d →
      Unfolds types above id place (.staticArray entry length d)
  | struct {above : List String} {id : Value} {place : Place} {info : TypeInfo} {entry : Entry}
      {items : List Value} {reads : List (Value × Place)} {members : List Descriptor} :
      Sees types id place info entry → info.id ∉ above → kindOf info = .ok .struct →
      memberItems info = .ok items → items.mapM readItem = .ok reads →
      reads.length = members.length →
      (∀ p ∈ reads.zip members, Unfolds types (info.id :: above) p.1.1 p.1.2 p.2) →
      Unfolds types above id place (.struct entry members)

/-! ## Ending -/

variable {types : Types} {opened above : List String} {depth n : Nat} {id : Value} {place : Place}
  {info : TypeInfo} {entry : Entry} {d : Descriptor}

def waiting (types : Types) (opened : List String) : List String :=
  (types.map Prod.fst).filter (· ∉ opened)

theorem length_waiting_le : (waiting types opened).length ≤ types.length := by
  simpa [waiting] using List.length_filter_le (· ∉ opened) (types.map Prod.fst)

theorem length_waiting_cons (hi : typeInfo types id = .ok info) (hn : info.id ∉ opened) :
    (waiting types (info.id :: opened)).length < (waiting types opened).length := by
  have hsplit : waiting types (info.id :: opened) = (waiting types opened).filter (· ≠ info.id) := by
    rw [waiting, waiting, List.filter_filter]
    simp only [List.mem_cons, not_or, Bool.decide_and, ne_eq]
  rw [hsplit, List.length_filter_lt_length_iff_exists]
  exact ⟨info.id, List.mem_filter.2 ⟨listed_of_typeInfo hi, by simpa using hn⟩, by simp⟩

theorem mem_of_waiting (h : (waiting types opened).length ≤ 0) (hi : typeInfo types id = .ok info) :
    info.id ∈ opened := by
  by_contra hn
  exact absurd (length_waiting_cons hi hn) (by omega)

/-- A reading whose depth is not used up by the types that are left ends with what the types in
progress, handed down, say. -/
theorem unroll_gives (hd : (waiting types opened).length < depth)
    (hn : (waiting types opened).length ≤ n) :
    (unroll types depth id place).Gives opened (build types n opened id place) := by
  induction depth generalizing n opened id place with
  | zero => exact absurd hd (Nat.not_lt_zero _)
  | succ depth ih =>
    rw [unroll]
    cases n with
    | zero =>
      rw [build]
      refine .bind .ofExcept fun info hi => .bind .ofExcept fun entry _ => .get ?_
      rw [if_pos (List.contains_iff_mem.2 (mem_of_waiting hn hi))]
      exact .bind .ofExcept fun kind _ => .pure
    | succ n =>
      rw [build]
      refine .bind .ofExcept fun info hi => .bind .ofExcept fun entry _ => .get ?_
      by_cases ho : info.id ∈ opened
      · rw [if_pos (List.contains_iff_mem.2 ho)]
        refine .bind .ofExcept fun kind _ => ?_
        rw [if_pos (List.contains_iff_mem.2 ho)]
        exact .pure
      have hlt := length_waiting_cons hi ho
      have hinner (id : Value) (place : Place) :
          (unroll types depth id place).Gives (info.id :: opened)
            (build types n (info.id :: opened) id place) :=
        ih (by omega) (by omega)
      rw [if_neg (mt List.contains_iff_mem.1 ho)]
      refine .during ho (.bind .ofExcept fun kind _ => ?_)
      rw [if_neg (mt List.contains_iff_mem.1 ho)]
      cases kind with
      | primitive | bytes => exact .pure
      | mapping =>
        refine .bind .ofExcept fun parts _ => .bind .ofExcept fun keyType _ => ?_
        exact .bind (hinner _ _) fun _ _ => .pure
      | dynamicArray =>
        cases info.get? "base" with
        | none => exact .throw
        | some base => exact .bind (hinner _ _) fun _ _ => .pure
      | staticArray =>
        refine .bind .ofExcept fun digits _ => .bind (hinner _ _) fun element _ => ?_
        exact .bind .ofExcept fun length _ => .pure
      | struct =>
        refine .bind .ofExcept fun items _ => .bind (.mapM fun item _ => ?_) fun _ _ => .pure
        exact .bind .ofExcept fun read _ => hinner _ _

/-! ## What the dictionary says -/

theorem Opens.imp {inner inner' : Value → Place → Descriptor → Prop}
    (h : ∀ id place d, inner id place d → inner' id place d)
    (ho : Opens types inner info entry d) : Opens types inner' info entry d := by
  cases ho with
  | primitive hk => exact .primitive hk
  | bytes hk => exact .bytes hk
  | mapping hk hparts hkey hvalue => exact .mapping hk hparts hkey (h _ _ _ hvalue)
  | dynamicArray hk hbase helement => exact .dynamicArray hk hbase (h _ _ _ helement)
  | staticArray hk hdigits hlength helement =>
    exact .staticArray hk hdigits hlength (h _ _ _ helement)
  | struct hk hitems hmembers =>
    refine .struct hk hitems (hmembers.imp ?_)
    rintro item m ⟨type, place, hread, hm⟩
    exact ⟨type, place, hread, h _ _ _ hm⟩

theorem build_succ_iff : build types (depth + 1) opened id place = .ok d ↔
    ∃ info entry kind, typeInfo types id = .ok info ∧ entryOf info place = .ok entry ∧
      kindOf info = .ok kind ∧
      ((info.id ∈ opened ∧ d = .cut entry kind) ∨
        (info.id ∉ opened ∧ Opens types (fun id place d =>
          build types depth (info.id :: opened) id place = .ok d) info entry d)) := by
  refine ⟨build_succ, ?_⟩
  rintro ⟨info, entry, kind, hinfo, hentry, hkind, h⟩
  rw [build]
  refine bind_eq_ok.2 ⟨info, hinfo, bind_eq_ok.2 ⟨entry, hentry, bind_eq_ok.2
    ⟨kind, mapError_eq_ok.2 hkind, ?_⟩⟩⟩
  rcases h with ⟨ho, rfl⟩ | ⟨ho, hopens⟩
  · rw [if_pos (List.contains_iff_mem.2 ho)]
    rfl
  rw [if_neg (mt List.contains_iff_mem.1 ho)]
  cases hopens with
  | primitive hk | bytes hk =>
    cases hkind.symm.trans hk
    rfl
  | mapping hk hparts hkey hvalue =>
    cases hkind.symm.trans hk
    simp only [bind_eq_ok, pure_eq_ok]
    exact ⟨_, mapError_eq_ok.2 hparts, _, hkey, _, hvalue, rfl⟩
  | dynamicArray hk hbase helement =>
    cases hkind.symm.trans hk
    simp only [hbase, bind_eq_ok, pure_eq_ok]
    exact ⟨_, helement, rfl⟩
  | staticArray hk hdigits hlength helement =>
    cases hkind.symm.trans hk
    simp only [bind_eq_ok, pure_eq_ok]
    exact ⟨_, hdigits, _, helement, _, hlength, rfl⟩
  | struct hk hitems hmembers =>
    cases hkind.symm.trans hk
    simp only [bind_eq_ok, pure_eq_ok]
    refine ⟨_, mapError_eq_ok.2 hitems, _, mapM_eq_ok.2 (hmembers.imp ?_), rfl⟩
    rintro item m ⟨type, place, hread, hm⟩
    exact bind_eq_ok.2 ⟨(type, place), wrap_eq_ok.2 hread, hm⟩

theorem unfolds_iff : Unfolds types above id place d ↔
    ∃ info entry kind, typeInfo types id = .ok info ∧ entryOf info place = .ok entry ∧
      kindOf info = .ok kind ∧
      ((info.id ∈ above ∧ d = .cut entry kind) ∨
        (info.id ∉ above ∧ Opens types (Unfolds types (info.id :: above)) info entry d)) := by
  constructor
  · intro h
    cases h with
    | again hs hm hk => exact ⟨_, _, _, hs.typeInfo_eq, hs.entryOf_eq, hk, .inl ⟨hm, rfl⟩⟩
    | primitive hs hm hk => exact ⟨_, _, _, hs.typeInfo_eq, hs.entryOf_eq, hk, .inr ⟨hm, .primitive hk⟩⟩
    | bytes hs hm hk => exact ⟨_, _, _, hs.typeInfo_eq, hs.entryOf_eq, hk, .inr ⟨hm, .bytes hk⟩⟩
    | mapping hs hm hk hparts hkey hd =>
      exact ⟨_, _, _, hs.typeInfo_eq, hs.entryOf_eq, hk, .inr ⟨hm, .mapping hk hparts hkey hd⟩⟩
    | dynamicArray hs hm hk hbase hd =>
      exact ⟨_, _, _, hs.typeInfo_eq, hs.entryOf_eq, hk, .inr ⟨hm, .dynamicArray hk hbase hd⟩⟩
    | staticArray hs hm hk hdigits hlength hd =>
      exact ⟨_, _, _, hs.typeInfo_eq, hs.entryOf_eq, hk, .inr ⟨hm, .staticArray hk hdigits hlength hd⟩⟩
    | struct hs hm hk hitems hreads hlength hmembers =>
      refine ⟨_, _, _, hs.typeInfo_eq, hs.entryOf_eq, hk, .inr ⟨hm, .struct hk hitems ?_⟩⟩
      have hzip := List.forall₂_iff_zip.2 ⟨hlength, fun {read m} hp => hmembers (read, m) hp⟩
      refine (exists_forall₂.1 ⟨_, mapM_eq_ok.1 hreads, hzip⟩).imp ?_
      rintro item m ⟨⟨type, place⟩, hread, hm⟩
      exact ⟨type, place, hread, hm⟩
  · rintro ⟨info, entry, kind, hinfo, hentry, hkind, ⟨hm, rfl⟩ | ⟨hm, hopens⟩⟩
    · exact .again ⟨hinfo, hentry⟩ hm hkind
    have hs : Sees types id place info entry := ⟨hinfo, hentry⟩
    cases hopens with
    | primitive hk => exact .primitive hs hm hk
    | bytes hk => exact .bytes hs hm hk
    | mapping hk hparts hkey hd => exact .mapping hs hm hk hparts hkey hd
    | dynamicArray hk hbase hd => exact .dynamicArray hs hm hk hbase hd
    | staticArray hk hdigits hlength hd => exact .staticArray hs hm hk hdigits hlength hd
    | struct hk hitems hmembers =>
      have hcomposed : List.Forall₂ (fun item m => ∃ read, readItem item = .ok read ∧
          Unfolds types (info.id :: above) read.1 read.2 m) _ _ :=
        hmembers.imp fun item m ⟨type, place, hread, hm⟩ => ⟨(type, place), hread, hm⟩
      obtain ⟨reads, hreads, hzip⟩ := exists_forall₂.2 hcomposed
      obtain ⟨hlength, hzip⟩ := List.forall₂_iff_zip.1 hzip
      exact .struct hs hm hk hitems (mapM_eq_ok.2 hreads) hlength fun p hp => hzip hp

theorem build_eq_ok (hn : (waiting types above).length ≤ n) :
    build types n above id place = .ok d ↔ Unfolds types above id place d := by
  induction n generalizing above id place d with
  | zero =>
    rw [unfolds_iff]
    constructor
    · intro h
      obtain ⟨info, entry, kind, hinfo, hentry, hkind, rfl⟩ := build_zero h
      exact ⟨info, entry, kind, hinfo, hentry, hkind, .inl ⟨mem_of_waiting hn hinfo, rfl⟩⟩
    · rintro ⟨info, entry, kind, hinfo, hentry, hkind, ⟨-, rfl⟩ | ⟨ho, -⟩⟩
      · rw [build]
        simp only [bind_eq_ok, pure_eq_ok]
        exact ⟨info, hinfo, entry, hentry, kind, mapError_eq_ok.2 hkind, rfl⟩
      · exact absurd (mem_of_waiting hn hinfo) ho
  | succ n ih =>
    rw [build_succ_iff, unfolds_iff]
    refine exists_congr fun info => exists_congr fun entry => exists_congr fun kind =>
      and_congr_right fun hinfo => and_congr_right fun _ => and_congr_right fun _ =>
      or_congr Iff.rfl (and_congr_right fun ho => ?_)
    have hlt := length_waiting_cons hinfo ho
    have hinner (id : Value) (place : Place) (d : Descriptor) :
        build types n (info.id :: above) id place = .ok d ↔
          Unfolds types (info.id :: above) id place d := ih (by omega)
    exact ⟨.imp fun id place d => (hinner id place d).1, .imp fun id place d => (hinner id place d).2⟩

/-! ## Types without circles -/

inductive Refers (types : Types) : String → String → Prop
  | value {a b : String} {info : TypeInfo} {key : Value} : typeInfo types (.text a) = .ok info →
      kindOf info = .ok .mapping → keyAndValue info = .ok (key, .text b) → Refers types a b
  | element {a b : String} {info : TypeInfo} : typeInfo types (.text a) = .ok info →
      kindOf info = .ok .dynamicArray ∨ kindOf info = .ok .staticArray →
      info.get? "base" = some (.text b) → Refers types a b
  | member {a b : String} {info : TypeInfo} {items : List Value} {item : Value} {place : Place} :
      typeInfo types (.text a) = .ok info → kindOf info = .ok .struct →
      memberItems info = .ok items → item ∈ items → readItem item = .ok (.text b, place) →
      Refers types a b

def IsAcyclic (types : Types) : Prop := ∀ id, ¬ Relation.TransGen (Refers types) id id

def AreAround (types : Types) (above : List String) (id : Value) : Prop :=
  ∀ a ∈ above, ∀ b, id = .text b → Relation.TransGen (Refers types) a b

theorem AreAround.cons (h : AreAround types above id) (hs : Sees types id place info entry)
    {part : Value} (hr : ∀ b, part = .text b → Refers types info.id b) :
    AreAround types (info.id :: above) part := by
  rintro a ha b rfl
  rcases List.mem_cons.1 ha with rfl | ha
  · exact .single (hr b rfl)
  · exact .tail (h a ha _ (text_of_typeInfo hs.typeInfo_eq)) (hr b rfl)

theorem Sees.text (hs : Sees types id place info entry) : typeInfo types (.text info.id) = .ok info :=
  text_of_typeInfo hs.typeInfo_eq ▸ hs.typeInfo_eq

theorem Unfolds.isWhole (ha : IsAcyclic types) (h : Unfolds types above id place d)
    (hr : AreAround types above id) : d.IsWhole := by
  induction h with
  | again hs hm _ => exact absurd (hr _ hm _ (text_of_typeInfo hs.typeInfo_eq)) (ha _)
  | primitive | bytes => exact .of_parts nofun nofun
  | mapping hs _ hk hparts _ _ ih =>
    refine .of_parts nofun fun c hc => ?_
    cases hc
    refine ih (hr.cons hs ?_)
    rintro b rfl
    exact .value hs.text hk hparts
  | dynamicArray hs _ hk hbase _ ih =>
    refine .of_parts nofun fun c hc => ?_
    cases hc
    refine ih (hr.cons hs ?_)
    rintro b rfl
    exact .element hs.text (.inl hk) hbase
  | @staticArray _ _ _ info _ _ _ _ hs _ hk _ _ _ ih =>
    refine .of_parts nofun fun c hc => ?_
    cases hc
    refine ih (hr.cons hs fun b hb => .element hs.text (.inr hk) ?_)
    cases hbase : info.get? "base" with
    | none =>
      rw [hbase] at hb
      cases hb
    | some base => exact congrArg some (by simpa [hbase] using hb)
  | @struct _ _ _ _ _ _ reads members hs _ hk hitems hreads hlength _ ih =>
    refine .of_parts nofun fun m hm => ?_
    cases hm with
    | member hm =>
      have hzip : List.Forall₂ (fun read m => (read, m) ∈ reads.zip members) reads members :=
        List.forall₂_iff_zip.2 ⟨hlength, fun h => h⟩
      obtain ⟨⟨type, place⟩, hread, hp⟩ := exists_of_forall₂ hzip hm
      obtain ⟨item, hitem, hri⟩ := (mem_of_mapM hreads).1 hread
      refine ih _ hp (hr.cons hs ?_)
      rintro b rfl
      exact .member hs.text hk hitems hitem hri

/-- Whatever types name each other, unfolding one of them ends with a tree or a fault and leaves the
types in progress as they were; so do the variables of a layout, one after the other. From no type
in progress, the trees are those that the dictionary says, and none of their types is cut where the
types make no circles. -/
theorem build_unrolls (types : Types) (id : Value) (place : Place) :
    (∀ depth opened, types.length < depth →
      (unroll types depth id place).Gives opened (build types types.length opened id place)) ∧
    (∀ depth (items : List Value), types.length < depth →
      Unrolling.Gives (items.mapM (unrollVariable types depth)) []
        (items.mapM (buildVariable types))) ∧
    (∀ d, build types types.length [] id place = .ok d ↔ Unfolds types [] id place d) ∧
    (IsAcyclic types → ∀ d, build types types.length [] id place = .ok d → d.IsWhole) := by
  have hgives {depth : Nat} {opened : List String} (h : types.length < depth) {id : Value}
      {place : Place} :
      (unroll types depth id place).Gives opened (build types types.length opened id place) :=
    unroll_gives (length_waiting_le.trans_lt h) length_waiting_le
  have htree {d : Descriptor} :
      build types types.length [] id place = .ok d ↔ Unfolds types [] id place d :=
    build_eq_ok length_waiting_le
  refine ⟨fun depth opened h => hgives h, fun depth items h => ?_, fun d => htree, fun ha d hd => ?_⟩
  · exact .mapM fun item _ => .bind .ofExcept fun read _ => hgives h
  · exact (htree.1 hd).isWhole ha fun a hmem => absurd hmem List.not_mem_nil

theorem isAcyclic_of_lt (rank : String → Nat) (h : ∀ a b, Refers types a b → rank b < rank a) :
    IsAcyclic types := by
  intro id hid
  have hlt (b : String) (hb : Relation.TransGen (Refers types) id b) : rank b < rank id := by
    induction hb with
    | single hr => exact h _ _ hr
    | tail _ hr ih => exact Nat.lt_trans (h _ _ hr) ih
  exact Nat.lt_irrefl _ (hlt id hid)

def listTypes : Types :=
  [("t_uint256", .object [("encoding", .text "inplace"), ("label", .text "uint256"),
      ("numberOfBytes", .text "32")]),
    ("t_list", .object [("encoding", .text "dynamic_array"), ("label", .text "uint256[]"),
      ("numberOfBytes", .text "32"), ("base", .text "t_uint256")])]

def ringTypes : Types :=
  [("t_ring", .object [("encoding", .text "dynamic_array"), ("label", .text "ring"),
      ("numberOfBytes", .text "32"), ("base", .text "t_ring")])]

theorem typeInfo_listTypes {a : String} (h : typeInfo listTypes (.text a) = .ok info) :
    kindOf info = .ok .primitive ∨
      a = "t_list" ∧ kindOf info = .ok .dynamicArray ∧ info.get? "base" = some (.text "t_uint256") := by
  have hid : a = info.id := Value.text.inj (text_of_typeInfo h)
  have ha : a ∈ ["t_uint256", "t_list"] := hid ▸ listed_of_typeInfo h
  rcases List.mem_cons.1 ha with rfl | ha
  · cases h
    exact .inl rfl
  · cases List.mem_singleton.1 ha
    cases h
    exact .inr ⟨rfl, rfl, rfl⟩

theorem isAcyclic_listTypes : IsAcyclic listTypes := by
  refine isAcyclic_of_lt (fun id => if id = "t_list" then 1 else 0) fun a b h => ?_
  cases h with
  | value hi hk => rcases typeInfo_listTypes hi with hk' | ⟨-, hk', -⟩ <;> cases hk.symm.trans hk'
  | member hi hk => rcases typeInfo_listTypes hi with hk' | ⟨-, hk', -⟩ <;> cases hk.symm.trans hk'
  | element hi hk hbase =>
    rcases typeInfo_listTypes hi with hk' | ⟨rfl, -, hbase'⟩
    · rcases hk with hk | hk <;> cases hk.symm.trans hk'
    · cases hbase.symm.trans hbase'
      decide

theorem build_unrolls_ring :
    (unroll ringTypes 2 (.text "t_ring") .inner).Gives []
      (.ok (.dynamicArray ⟨.text "", "t_ring", .text "ring", 0, 0, 32⟩
        (.cut ⟨.text "", "t_ring", .text "ring", 0, 0, 32⟩ .dynamicArray))) ∧
      ∃ d, build listTypes 2 [] (.text "t_list") .inner = .ok d ∧ d.IsWhole := by
  obtain ⟨hends, -, -, -⟩ := build_unrolls ringTypes (.text "t_ring") .inner
  obtain ⟨-, -, -, hwhole⟩ := build_unrolls listTypes (.text "t_list") .inner
  refine ⟨hends 2 [] (by decide), _, rfl, hwhole isAcyclic_listTypes _ rfl⟩

end SlotLens.Metadata

import SlotLens.Proofs.Layout.Unfolding
import SlotLens.Proofs.Search.Direct
import Mathlib.Order.Bounds.Basic

namespace SlotLens

def Access.longLengths (access : Access) : Set Nat := {n | ∃ w ∈ access.words, w.toNat = 2 * n + 1}

def Root.chunk (root : Root) (slot : Int) (i : Nat) : Match :=
  Match.ofLocated slot root.variableDescriptor root.path .array (some (Scene.chunkNote i))
    ⟨.bytes root.container.entry, 0, [.chunk i]⟩

theorem Root.chunk_inj {root : Root} {slot : Int} {i j : Nat}
    (h : root.chunk slot i = root.chunk slot j) : i = j := by
  have hpath : root.path ++ [Segment.chunk i] = root.path ++ [Segment.chunk j] :=
    congrArg Match.path h
  cases List.append_cancel_left hpath
  rfl

namespace Scene

/-- A slot holds the word at an index of the longest content that was observed for a root. -/
def HoldsChunk (s : Scene) (root : Root) (slot : Int) (i : Nat) : Prop :=
  ∃ access data m, s.observed.get? root.slot = some access ∧ Slot.ofData root.slot = .ok data ∧
    IsGreatest access.longLengths m ∧ slot = data + i ∧ i < (m + 31) / 32

/-- The passes as far as the byte strings `before`. Byte strings are searched last. -/
def comingTo (s : Scene) (before : List Root) : Except Fault Run := do
  let r ← s.matchExact s.start
  let r ← s.matchMappings r
  let r ← s.layout.staticArrays.foldlM matchStaticArray r
  (s.layout.arrayRoots ++ before).foldlM s.matchRoot r

variable {s : Scene} {root : Root} {r r' : Run} {slot : Int} {i : Nat} {e : Entry}
  {access : Access} {results : List (Int × List Match)} {ms : List Match} {before after : List Root}

section Lengths

theorem longLength?_eq_some {label : Value} {m : Nat} :
    longLength? label access = some m ↔ IsGreatest access.longLengths m := by
  rw [longLength?, List.max?_eq_some_iff, IsGreatest, mem_upperBounds]
  simp only [mem_longLengths]
  rfl

theorem holdsChunk_iff (label : Value) : s.HoldsChunk root slot i ↔
    ∃ m data, (s.observed.get? root.slot).bind (longLength? label) = some m ∧
      Slot.ofData root.slot = .ok data ∧ slot = data + i ∧ i < (m + 31) / 32 := by
  simp only [Option.bind_eq_some_iff, longLength?_eq_some]
  constructor
  · rintro ⟨access, data, m, ho, hd, hm, hi⟩
    exact ⟨m, data, ⟨access, ho, hm⟩, hd, hi⟩
  · rintro ⟨m, data, ⟨access, ho, hm⟩, hd, hi⟩
    exact ⟨access, data, m, ho, hd, hm, hi⟩

theorem HoldsChunk.index_inj {j : Nat} (h : s.HoldsChunk root slot i)
    (h' : s.HoldsChunk root slot j) : i = j := by
  obtain ⟨-, data, -, -, hd, -, hslot, -⟩ := h
  obtain ⟨-, data', -, -, hd', -, hslot', -⟩ := h'
  cases hd.symm.trans hd'
  omega

end Lengths

section Search

theorem expandBytes_root {h h' : Hunt} (hk : kindBehind root.path = .array)
    (he : s.expandBytes root.variableDescriptor (rootItem root) root.container.entry h = .ok h')
    (hn : h.remaining.Nodup) (ho : slot ∈ h.remaining) (hr : h.results.get? slot = none) :
    (h'.results.get? slot = none ∧ ∀ i, ¬ s.HoldsChunk root slot i) ∨
      ∃ i, s.HoldsChunk root slot i ∧ h'.results.get? slot = some [root.chunk slot i] := by
  rcases expandBytes_cases he with ⟨hnone, rfl⟩ | ⟨m, data, hm, hd, rfl⟩
  · refine .inl ⟨hr, fun i hi => ?_⟩
    obtain ⟨m, -, hm, -⟩ := (holdsChunk_iff root.container.entry.typeLabel).1 hi
    cases hnone.symm.trans hm
  · generalize hg : claimChunks root.variableDescriptor root.container.entry data _ _ h = h'
    have hchunks := ((congrArg Except.ok hg).symm.trans claimChunks_eq).symm
    by_cases hs : slot ∈ h.hits data ((m + 31) / 32 : Nat)
    · obtain ⟨-, hle, hlt⟩ := Hunt.mem_hits.1 hs
      have hget := Hunt.get?_claimEach hchunks (hn.sublist (h.hits_sublist _ _)) hs rfl
        (List.cons_ne_nil _ _)
      rw [hr, rootItem, hk] at hget
      refine .inr ⟨(slot - data).toNat, ?_, hget⟩
      exact (holdsChunk_iff root.container.entry.typeLabel).2 ⟨m, data, hm, hd, by omega, by omega⟩
    · refine .inl ⟨(Hunt.get?_claimEach_of_not_mem hchunks hs).trans hr, fun i hi => hs ?_⟩
      obtain ⟨m', data', hm', hd', hslot, hlt⟩ :=
        (holdsChunk_iff root.container.entry.typeLabel).1 hi
      cases hm.symm.trans hm'
      cases hd.symm.trans hd'
      exact Hunt.mem_hits.2 ⟨ho, by omega, by omega⟩

theorem kindBehind_of_mem_roots (hr : root ∈ s.layout.roots) : kindBehind root.path = .array := by
  obtain ⟨d, -, c, hc, rfl⟩ := Layout.mem_roots hr
  rw [kindBehind, (Descriptor.containers_crosses d hc).isKey_false rfl]
  rfl

theorem matchRoot_bytes (hc : root.container = .bytes e) (hr : root ∈ s.layout.roots)
    (hp : s.Partitions r.remaining r.results) (hm : s.matchRoot r root = .ok r')
    (ho : slot ∈ r.remaining) :
    (r'.results.get? slot = none ∧ ∀ i, ¬ s.HoldsChunk root slot i) ∨
      ∃ i, s.HoldsChunk root slot i ∧ r'.results.get? slot = some [root.chunk slot i] := by
  rcases matchRoot_cases hm with ⟨hnil, -⟩ | ⟨hne, key, h, -, he, rfl⟩
  · exact absurd (hnil ▸ ho) List.not_mem_nil
  obtain ⟨h₂, hx, hrest⟩ := exploreRoot_cases hne he
  -- No container lies inside a byte string.
  have hlevels : root.container.height - 1 = 0 := by
    rw [hc]
    rfl
  rw [hlevels] at hrest
  cases hrest
  have hentry : root.container.entry = e := congrArg Descriptor.entry hc
  simp only [expand, rootItem, hc] at hx
  rw [← hentry] at hx
  exact expandBytes_root (kindBehind_of_mem_roots hr) hx hp.nodup_remaining ho (hp.get?_eq_none ho)

end Search

theorem passes_split {r₂ : Run} (hp : s.passes = .ok r₂)
    (hb : s.layout.bytesRoots = before ++ root :: after) :
    ∃ r r', s.comingTo before = .ok r ∧ s.matchRoot r root = .ok r' ∧
      s.Reaches (.between r' (after.map .root)) ∧
      Engine.Steps s (.between r' (after.map .root)) (.between r₂ []) ∧
      s.Partitions r.remaining r.results := by
  simp only [passes, matchArrays, bind_eq_ok, hb] at hp
  obtain ⟨r₃, ⟨r₄, he, hm⟩, r₅, hs, ha⟩ := hp
  rw [← List.append_assoc, List.foldlM_append, bind_eq_ok] at ha
  obtain ⟨r, hbefore, ha⟩ := ha
  rw [List.foldlM_cons, bind_eq_ok] at ha
  obtain ⟨r', hroot, hafter⟩ := ha
  have htasks : s.laterTasks = s.layout.mappingRoots.map .root ++
      (s.layout.staticArrays.map .staticArray ++
        ((s.layout.arrayRoots ++ before).map .root ++ .root root :: (after.map .root))) := by
    simp [laterTasks, hb]
  have hreach : s.Reaches (.between r (.root root :: after.map .root)) := by
    have hstart : s.Reaches (.between r₄ s.laterTasks) := Engine.matchExact_steps he
    rw [htasks] at hstart
    exact hstart.trans ((Engine.roots_steps hm).trans
      ((Engine.staticArrays_steps hs).trans (Engine.roots_steps hbefore)))
  refine ⟨r, r', ?_, hroot, hreach.trans (Engine.matchRoot_steps hroot), ?_,
    (Engine.sound_of_reaches hreach).partitions⟩
  · simp only [comingTo, bind_eq_ok]
    exact ⟨r₄, he, r₃, hm, r₅, hs, hbefore⟩
  · rw [← List.append_nil (after.map _)]
    exact Engine.roots_steps hafter

theorem mem_run_of_get? (h : s.run = .ok results) (hp : s.passes = .ok r)
    (hg : r.results.get? slot = some ms) (hk : ∀ m ∈ ms, m.kind ≠ .mapping) :
    (slot, ms) ∈ results := by
  have hpart := (Engine.sound_of_reaches (Engine.passes_steps hp)).partitions
  have hslot : slot ∈ results.map Prod.fst :=
    (keys_of_run h hp).mem_iff.2 (List.mem_append_left _ (Table.mem_keys.2 ⟨ms, hg⟩))
  obtain ⟨⟨slot', reported⟩, hm, rfl⟩ := List.mem_map.1 hslot
  rcases mem_run h hp hm with ⟨recorded, hg', hren⟩ | ⟨ho, -⟩
  · cases hg.symm.trans hg'
    rwa [Match.Renoted.eq_of_forall hren hk] at hm
  · exact absurd ho (hpart.not_mem_remaining hg)

theorem get?_of_roots {roots : List Root} (hr : s.Reaches (.between r (roots.map .root)))
    (hs : Engine.Steps s (.between r (roots.map .root)) (.between r' []))
    (hg : r.results.get? slot = some ms) : r'.results.get? slot = some ms := by
  have hindexed : ¬ (Engine.between r (roots.map .root)).IsIndexed slot := by
    rintro ⟨owner, ht⟩
    obtain ⟨root, -, he⟩ := List.mem_map.1 ht
    cases he
  have hsound := Engine.sound_of_reaches hr
  obtain ⟨-, hkept⟩ := hsound.results_eq hs hindexed (hsound.partitions.not_mem_remaining hg)
  exact hkept.trans hg

theorem run_chunks (h : s.run = .ok results) (hb : s.layout.bytesRoots = before ++ root :: after)
    (hc : root.container = .bytes e) :
    ∃ r r', s.comingTo before = .ok r ∧ s.matchRoot r root = .ok r' ∧
      ∀ slot ∈ r.remaining, ∀ i,
        (r'.results.get? slot = some [root.chunk slot i] ↔ s.HoldsChunk root slot i) ∧
        (s.HoldsChunk root slot i → (slot, [root.chunk slot i]) ∈ results) := by
  obtain ⟨r₂, -, -, hp, -⟩ := run_cases h
  obtain ⟨r, r', hbefore, hroot, hreach, hsteps, hpart⟩ := passes_split hp hb
  refine ⟨r, r', hbefore, hroot, fun slot ho i => ?_⟩
  have hmem : root ∈ s.layout.bytesRoots := by simp [hb]
  rcases matchRoot_bytes hc (List.mem_filter.1 hmem).1 hpart hroot ho with
    ⟨hnone, hmisses⟩ | ⟨j, hj, hget⟩
  · exact ⟨by simp [hnone, hmisses], fun hi => absurd hi (hmisses i)⟩
  constructor
  · rw [hget]
    constructor
    · intro heq
      obtain ⟨heq, -⟩ := List.cons.inj (Option.some.inj heq)
      exact Root.chunk_inj heq ▸ hj
    · intro hi
      rw [hi.index_inj hj]
  · intro hi
    rw [hi.index_inj hj]
    refine mem_run_of_get? h hp (get?_of_roots hreach hsteps hget) ?_
    simp [Root.chunk, Match.ofLocated]

/-- A short content is read from its word, and of a long one the length. When the search comes to a
byte string of the layout, exactly the open slots that hold a word of its content become one, and
they are reported so. In a layout that was read from metadata no byte string is cut. -/
theorem run_contents :
    (∀ label content filling (w : Word),
      w.bytes = content ++ filling ++ [UInt8.ofNat (2 * content.length)] →
      ∃ shown, BytesSlot.Shown label content shown ∧
        BytesSlot.read label w.bytes = .ok ⟨content.length, false, shown⟩) ∧
    (∀ label n, n < 2 ^ 255 →
      BytesSlot.read label (Word.ofNat (2 * n + 1)).bytes = .ok ⟨n, true, .null⟩) ∧
    (∀ label (w : Word) (last : UInt8), w.toNat % 2 = 0 → w.bytes.getLast? = some last →
      64 ≤ last.toNat → BytesSlot.read label w.bytes = .ok ⟨last.toNat / 2, false, .null⟩) ∧
    (∀ metadata l, Metadata.layout metadata = .ok l → ∀ root ∈ l.bytesRoots,
      ∃ e, root.container = .bytes e) ∧
    ∀ (s : Scene) results before root after e, s.run = .ok results →
      s.layout.bytesRoots = before ++ root :: after → root.container = .bytes e →
      ∃ r r', s.comingTo before = .ok r ∧ s.matchRoot r root = .ok r' ∧
        ∀ slot ∈ r.remaining, ∀ i,
          (r'.results.get? slot = some [root.chunk slot i] ↔ s.HoldsChunk root slot i) ∧
          (s.HoldsChunk root slot i → (slot, [root.chunk slot i]) ∈ results) := by
  refine ⟨?_, fun label n => BytesSlot.read_long, ?_, ?_, ?_⟩
  · intro label content filling w hw
    exact ⟨_, BytesSlot.shown_present label content, BytesSlot.read_short hw⟩
  · intro label w last he hl
    exact BytesSlot.read_overfull hl he
  · intro metadata l hl root hr
    exact Metadata.exists_bytes_of_mem_bytesRoots hl hr
  · intro s results before root after e h hb hc
    exact run_chunks h hb hc

def diaryMetadata : Value :=
  .object [("storage", .list [.object [("label", .text "diary"), ("slot", .int 0),
      ("type", .text "t_string")]]),
    ("types", .object [("t_string", .object [("encoding", .text "bytes"),
      ("label", .text "string"), ("numberOfBytes", .int 32)])])]

def diaryRoot : Root :=
  ⟨.bytes ⟨.text "diary", "t_string", .text "string", 0, 0, 32⟩,
    .bytes ⟨.text "diary", "t_string", .text "string", 0, 0, 32⟩, 0, []⟩

def diaryData : Int := Slot.ofHash (Word.ofNat 0).bytes

def diary : Scene where
  layout := ⟨[diaryRoot.variableDescriptor]⟩
  observed := Table.ofList [(0, ⟨Word.ofNat 81, some (Word.ofNat 67)⟩),
    (diaryData + 1, ⟨Word.ofNat 7, none⟩), (diaryData + 2, ⟨Word.ofNat 9, none⟩)]
  candidates := []
  bounds := .standard
  lengths := .empty

def greeting : Word := ⟨[0x68, 0x69] ++ List.replicate 29 0 ++ [4], by decide⟩

theorem diary_longest :
    (diary.observed.get? diaryRoot.slot).bind (longLength? (.text "string")) = some 40 := by
  decide +kernel

theorem diary_holdsChunk_iff :
    diary.HoldsChunk diaryRoot slot i ↔ slot = diaryData + i ∧ i < 2 := by
  have hd : Slot.ofData diaryRoot.slot = .ok diaryData := rfl
  simp only [holdsChunk_iff (.text "string"), diary_longest, hd]
  constructor
  · rintro ⟨_, _, ⟨⟩, ⟨⟩, hi⟩
    exact hi
  · exact fun hi => ⟨40, diaryData, rfl, rfl, hi⟩

theorem run_contents_diary :
    (∃ shown, BytesSlot.Shown (.text "string") [0x68, 0x69] shown ∧
      BytesSlot.read (.text "string") greeting.bytes = .ok ⟨2, false, shown⟩) ∧
    BytesSlot.read .null (Word.ofNat 81).bytes = .ok ⟨40, true, .null⟩ ∧
    BytesSlot.read .null (Word.ofNat 64).bytes = .ok ⟨32, false, .null⟩ ∧
    Metadata.layout diaryMetadata = .ok diary.layout ∧
    (∃ e, diaryRoot.container = .bytes e) ∧
    ∃ results, diary.run = .ok results ∧
      (diaryData + 1, [diaryRoot.chunk (diaryData + 1) 1]) ∈ results ∧
      ∃ r r', diary.comingTo [] = .ok r ∧ diary.matchRoot r diaryRoot = .ok r' ∧
        r.remaining = [diaryData + 1, diaryData + 2] ∧
        r'.results.get? (diaryData + 1) = some [diaryRoot.chunk (diaryData + 1) 1] ∧
        r'.results.get? (diaryData + 2) ≠ some [diaryRoot.chunk (diaryData + 2) 2] := by
  obtain ⟨hshort, hlong, hfull, hwhole, hsearch⟩ := run_contents
  have hlayout : Metadata.layout diaryMetadata = .ok diary.layout := rfl
  obtain ⟨e, he⟩ := hwhole _ _ hlayout diaryRoot (List.mem_singleton_self _)
  obtain ⟨results, h, -⟩ : ∃ results, diary.run = .ok results ∧ results.length = 3 :=
    exists_ok_of_toOption (by decide +kernel)
  obtain ⟨r₁, hr₁, hopen⟩ : ∃ r, diary.comingTo [] = .ok r ∧
      r.remaining = [diaryData + 1, diaryData + 2] := exists_ok_of_toOption (by decide +kernel)
  obtain ⟨r, r', hr, hr', hslots⟩ := hsearch diary results [] diaryRoot [] e h rfl he
  obtain rfl : r₁ = r := Except.ok.inj (hr₁.symm.trans hr)
  obtain ⟨hsecond, hreported⟩ := hslots (diaryData + 1) (by simp [hopen]) 1
  obtain ⟨hbehind, -⟩ := hslots (diaryData + 2) (by simp [hopen]) 2
  have hholds : diary.HoldsChunk diaryRoot (diaryData + 1) 1 :=
    diary_holdsChunk_iff.2 ⟨rfl, by decide⟩
  refine ⟨hshort _ _ _ greeting rfl, hlong .null 40 (by decide), hfull .null _ 64 (by decide)
    (by decide) (by decide), hlayout, ⟨e, he⟩, results, h, hreported hholds, r₁, r', hr, hr',
    hopen, hsecond.2 hholds, fun hget => ?_⟩
  obtain ⟨-, hlt⟩ := diary_holdsChunk_iff.1 (hbehind.1 hget)
  exact absurd hlt (by decide)

end Scene

end SlotLens

import SlotLens.Proofs.Search.Complete
import SlotLens.Proofs.Search.Depth
import SlotLens.Proofs.Search.Raise

namespace SlotLens

variable {s : Scene} {slot : Int} {r r' : Run}

namespace Scene

def varied (s : Scene) (candidates : List Candidate) (bounds : Bounds) : Scene :=
  { s with candidates, bounds }

/-- A static array holds a field at a slot, or an array or a byte string that is found without
derivation does. -/
inductive ShowsDirectly (s : Scene) (slot : Int) : Prop
  | item {owner located} : owner ∈ s.layout.staticArrays → owner.covers slot →
      owner.locate (slot - owner.slot) = .ok located → located ≠ [] → ShowsDirectly s slot
  | root {root} : root ∈ s.layout.arrayRoots ++ s.layout.bytesRoots →
      s.Shows slot ⟨root.container, root.slot⟩ → ShowsDirectly s slot

variable {candidates : List Candidate} {bounds : Bounds} {root : Root}

theorem Shows.varied {site : Site} (h : s.Shows slot site) (hk : site.container.kind ≠ .mapping) :
    (s.varied candidates bounds).Shows slot site := by
  cases h with
  | value => exact absurd rfl hk
  | element hl hd hloc hn => exact .element hl hd hloc hn
  | chunk ho hw hlong hi hd hslot => exact .chunk ho hw hlong hi hd hslot

theorem container_kind_ne (hr : root ∈ s.layout.arrayRoots ++ s.layout.bytesRoots) :
    root.container.kind ≠ .mapping := by
  rcases List.mem_append.1 hr with hr | hr <;>
    simp [beq_iff_eq.1 (List.mem_filter.1 hr).2]

theorem ShowsDirectly.varied (h : s.ShowsDirectly slot) :
    (s.varied candidates bounds).ShowsDirectly slot := by
  cases h with
  | item ho hc hl hn => exact .item ho hc hl hn
  | root hr hs => exact .root hr (hs.varied (container_kind_ne hr))

section Closes

theorem expand_misses {owner : Descriptor} {item : WorkItem} {h h' : Hunt} (front : List WorkItem)
    (hk : item.container.kind ≠ .mapping)
    (he : s.expand owner item front.length h = .ok h') (ho : slot ∈ h'.remaining) :
    ¬ s.Shows slot item.site := by
  rw [expand] at he
  split at he
  · next hm => exact absurd (congrArg Descriptor.kind hm) hk
  · next ha => exact expandArray_misses ha he ho
  · next hb => exact (expandBytes_searched hb he ho).2.misses
  · next hm ha hb =>
    generalize hsite : item.site = site
    intro hx
    cases hx with
    | value => exact hm _ _ _ (congrArg Site.container hsite)
    | element => exact ha _ _ (congrArg Site.container hsite)
    | chunk => exact hb _ (congrArg Site.container hsite)

theorem matchRoot_misses (hm : s.matchRoot r root = .ok r') (ho : slot ∈ r'.remaining)
    (hk : root.container.kind ≠ .mapping) : ¬ s.Shows slot ⟨root.container, root.slot⟩ := by
  rcases matchRoot_cases hm with ⟨hr, rfl⟩ | ⟨hr, key, h, -, he, rfl⟩
  · rw [hr] at ho
    exact absurd ho List.not_mem_nil
  · obtain ⟨h₂, hx, he⟩ := exploreRoot_cases hr he
    exact expand_misses [] hk hx ((exploreLevels_sublist he).subset ho)

theorem roots_mem_remaining {roots : List Root} (hm : roots.foldlM s.matchRoot r = .ok r')
    (ho : slot ∈ r'.remaining) : slot ∈ r.remaining := by
  have hsteps : Engine.Steps s (.between r (roots.map .root ++ [])) (.between r' []) :=
    Engine.roots_steps hm
  exact hsteps.mem_remaining ho

theorem roots_misses {roots : List Root} (hm : roots.foldlM s.matchRoot r = .ok r')
    (ho : slot ∈ r'.remaining) : ∀ root ∈ roots, root.container.kind ≠ .mapping →
      ¬ s.Shows slot ⟨root.container, root.slot⟩ := by
  induction roots generalizing r with
  | nil => exact fun root hr => absurd hr List.not_mem_nil
  | cons root roots ih =>
    rw [List.foldlM_cons, bind_eq_ok] at hm
    obtain ⟨r₁, hroot, hm⟩ := hm
    have hopen : slot ∈ r₁.remaining := roots_mem_remaining hm ho
    intro other hmem
    rcases List.mem_cons.1 hmem with rfl | hmem
    · exact matchRoot_misses hroot hopen
    · exact ih hm other hmem

theorem matchStaticArray_misses {owner : Descriptor} (hm : matchStaticArray r owner = .ok r')
    (ho : slot ∈ r'.remaining) : slot ∈ r.remaining ∧ (owner.covers slot → ∀ located,
      owner.locate (slot - owner.slot) = .ok located → located = []) := by
  obtain ⟨-, h, hclaims, hr⟩ := claimFixed_claims (t := .zero) hm
  obtain ⟨hopen, hmisses⟩ := Hunt.claimEach_misses hclaims (hr ▸ ho)
  refine ⟨hopen, fun hc located hl => ?_⟩
  simp only [Descriptor.covers, Bool.and_eq_true, decide_eq_true_eq] at hc
  exact Except.ok.inj (hl.symm.trans (hmisses (Hunt.mem_hits.2 ⟨hopen, hc.1, hc.2⟩)))

theorem staticArrays_misses {owners : List Descriptor}
    (hm : owners.foldlM matchStaticArray r = .ok r') (ho : slot ∈ r'.remaining) :
    slot ∈ r.remaining ∧ ∀ owner ∈ owners, owner.covers slot → ∀ located,
      owner.locate (slot - owner.slot) = .ok located → located = [] := by
  induction owners generalizing r with
  | nil =>
    cases hm
    exact ⟨ho, fun owner hm => absurd hm List.not_mem_nil⟩
  | cons owner owners ih =>
    rw [List.foldlM_cons, bind_eq_ok] at hm
    obtain ⟨r₁, howner, hm⟩ := hm
    obtain ⟨hopen, hrest⟩ := ih hm
    obtain ⟨hr, hfirst⟩ := matchStaticArray_misses howner hopen
    refine ⟨hr, fun other hmem => ?_⟩
    rcases List.mem_cons.1 hmem with rfl | hmem
    · exact hfirst
    · exact hrest other hmem

theorem matchArrays_misses (hm : s.matchArrays r = .ok r') (ho : slot ∈ r'.remaining) :
    ¬ s.ShowsDirectly slot := by
  rw [matchArrays, bind_eq_ok] at hm
  obtain ⟨r₁, hs, hm⟩ := hm
  have hopen : slot ∈ r₁.remaining := roots_mem_remaining hm ho
  intro hx
  cases hx with
  | item ho hc hl hn => exact hn ((staticArrays_misses hs hopen).2 _ ho hc _ hl)
  | root hr hs => exact roots_misses hm ho _ hr (container_kind_ne hr) hs

theorem passes_misses (hp : s.passes = .ok r) (ho : slot ∈ r.remaining) :
    ¬ s.ShowsDirectly slot := by
  simp only [passes, bind_eq_ok] at hp
  obtain ⟨r₁, -, hm⟩ := hp
  exact matchArrays_misses hm ho

end Closes

theorem exists_long {label : Value} {base : Int} {length : Nat}
    (h : (s.observed.get? base).bind (longLength? label) = some length) :
    ∃ access, s.observed.get? base = some access ∧ ∃ w ∈ access.words,
      (BytesSlot.ofBytes label w.bytes).isLong ∧
        (BytesSlot.ofBytes label w.bytes).length = length := by
  obtain ⟨access, ho, hl⟩ := Option.bind_eq_some_iff.1 h
  obtain ⟨w, hw, hn⟩ := (mem_longLengths label).1 (List.max?_mem hl)
  refine ⟨access, ho, w, hw, ?_⟩
  rw [BytesSlot.ofBytes_odd hn]
  exact ⟨rfl, rfl⟩

end Scene

def Task.Fits (s : Scene) : Task → Prop
  | .fixed kind owner slot =>
      kind = .exact ∨ kind = .array ∧ owner ∈ s.layout.staticArrays ∧ owner.covers slot
  | .staticArray owner => owner ∈ s.layout.staticArrays
  | .root _ => True

/-- Only the containers of roots are searched, and no key is tried. -/
def Activity.Shallow : Activity → Prop
  | .waiting | .ended => True
  | .fields .. => False
  | .opened item | .keys item .. | .elements item .. | .nested item .. | .chunks item .. =>
      item.level ≤ 1

section Recorded

variable {root : Root} {v : Descriptor} {level : Nat} {path : Path} {kind : MatchKind}
  {note : Option String} {located : List Located}

namespace Search

variable {x x' : Search} {item : WorkItem}

theorem Ranked.shows (ht : x.Traced s root.variableDescriptor) (hr : x.Ranked s root)
    (hi : x.activity.item? = some item) (hl : item.level ≤ 1)
    (hx : Finds slot x.activity path .array note located) (hn : located ≠ []) :
    (root.container.kind = .dynamicArray ∨ root.container.kind = .bytes) ∧
      s.Shows slot ⟨root.container, root.slot⟩ := by
  have hrank := hr.atHand.ranks hi
  have hroot := hrank.first (Nat.le_antisymm hl hrank.level_pos)
  subst hroot
  have hf := ht.activity
  generalize x.activity = activity at hi hx hf
  generalize hk : MatchKind.array = kind at hx
  cases hx with
  | field => cases hk
  | element hloc =>
    cases hi
    cases hf with
    | elements _ hc hlen hd =>
      rw [hc] at hloc
      have hc : root.container = _ := hc
      rw [hc]
      exact ⟨.inl rfl, .element hlen hd hloc hn⟩
  | @chunk _ _ data =>
    cases hi
    cases hf with
    | chunks _ hc hlen hd hslots =>
      obtain ⟨hle, hlt⟩ := hslots slot List.mem_cons_self
      obtain ⟨access, hobs, w, hw, hlong, hlength⟩ := Scene.exists_long hlen
      have hc : root.container = _ := hc
      rw [hc]
      exact ⟨.inr rfl, .chunk (i := (slot - data).toNat) hobs hw hlong (by omega) hd (by omega)⟩

/-- Without a single try neither a key nor a container below a root is taken up. -/
theorem Step.shallow {owner : Descriptor} (hb : s.bounds.limit = some 0)
    (hx : x.activity.Shallow) (st : Step s owner x x') : x'.activity.Shallow := by
  have spends {h h' : Hunt} (hp : h.spend s.bounds = (h', true)) : False := by
    rcases Hunt.spend_cases hp with ⟨-, hused, -⟩ | ⟨hok, -⟩
    · simp [Bounds.exhausted, hb] at hused
    · cases hok
  cases st with
  | enter _ he =>
    rcases Scene.enter_cases he with ⟨hl, -⟩ | ⟨-, -, hok, -⟩ | ⟨-, -, hp⟩
    · exact hl
    · cases hok
    · exact (spends hp).elim
  | keyMiss _ _ hp | keyHit _ _ hp => exact (spends hp).elim
  | openMapping | openArray | openLong | element | elementsNested | nest | chunk => exact hx
  | field | fieldsDone => exact hx.elim
  | _ => trivial

theorem Ranked.kind_of_shallow (hr : x.Ranked s root) (hs : x.activity.Shallow)
    (hx : Finds slot x.activity path kind note located) : kind = .array := by
  have keyless {item : WorkItem} (hi : s.Ranks root item) (hl : item.level ≤ 1) :
      Scene.kindBehind item.path = .array := by
    obtain ⟨n, hn, hc⟩ := hi.crosses
    rw [Scene.kindBehind, hc.isKey_false (by omega)]
    rfl
  have ha := hr.atHand
  generalize x.activity = activity at hs hx ha
  cases hx with
  | field => exact hs.elim
  | element | chunk => exact keyless ha hs

end Search

namespace Engine

variable {e : Engine}

theorem fits_of_reaches (h : s.Reaches e) : ∀ t ∈ e.agenda, t.Fits s := by
  induction h with
  | refl =>
    intro t ht
    simp only [Scene.engineStart, agenda, Scene.exactTasks, Scene.laterTasks, List.mem_append,
      List.mem_flatMap, List.mem_map] at ht
    rcases ht with ⟨slot, -, owner, -, rfl⟩ | (⟨root, -, rfl⟩ | ⟨owner, ho, rfl⟩) | ⟨root, -, rfl⟩
    · exact .inl rfl
    · trivial
    · exact ho
    · trivial
  | tail _ st ih =>
    cases st with
    | fixed | skip | search => exact fun t ht => ih t (List.mem_cons_of_mem _ ht)
    | staticArray =>
      intro t ht
      rcases List.mem_append.1 ht with ht | ht
      · obtain ⟨slot, hs, rfl⟩ := List.mem_map.1 ht
        refine .inr ⟨rfl, ih (.staticArray _) List.mem_cons_self, ?_⟩
        simpa [Descriptor.covers] using (Hunt.mem_hits.1 hs).2
      · exact ih t (List.mem_cons_of_mem _ ht)
    | inside | leave => exact ih

theorem Finds.showsDirectly (h : s.Reaches e) (hx : e.Finds slot v level path .array note located)
    (hl : level ≤ 1) (hn : located ≠ []) : s.ShowsDirectly slot := by
  cases hx with
  | direct hloc =>
    rcases fits_of_reaches h (.fixed _ _ _) List.mem_cons_self with hk | ⟨-, hs, hc⟩
    · cases hk
    · exact .item hs hc hloc hn
  | derived hi hx =>
    cases (traced_of_reaches h).searches with
    | within hroot ht =>
      cases ranked_of_reaches h with
      | within hr =>
        obtain ⟨hkind, hshows⟩ := hr.shows ht hi hl hx hn
        refine .root (List.mem_append.2 ?_) hshows
        exact hkind.imp (fun hc => List.mem_filter.2 ⟨hroot, beq_iff_eq.2 hc⟩)
          fun hc => List.mem_filter.2 ⟨hroot, beq_iff_eq.2 hc⟩

def Shallow : Engine → Prop
  | .between .. => True
  | .within _ _ _ x _ => x.activity.Shallow

theorem shallow_of_reaches (hb : s.bounds.limit = some 0) (h : s.Reaches e) : e.Shallow := by
  induction h with
  | refl => trivial
  | tail _ st ih =>
    cases st with
    | fixed | staticArray | skip | search | leave => trivial
    | inside st => exact st.shallow hb ih

theorem Finds.kind_ne_mapping (hb : s.bounds.limit = some 0) (h : s.Reaches e)
    (hx : e.Finds slot v level path kind note located) : kind ≠ .mapping := by
  cases hx with
  | direct =>
    rcases fits_of_reaches h (.fixed _ _ _) List.mem_cons_self with rfl | ⟨rfl, -⟩ <;> simp
  | derived _ hx =>
    cases ranked_of_reaches h with
    | within hr => simp [hr.kind_of_shallow (shallow_of_reaches hb h) hx]

end Engine

end Recorded

namespace Scene

variable {candidates : List Candidate} {bounds : Bounds}
  {results results' : List (Int × List Match)} {ms : List Match}

theorem IsRecord.kind_ne_exact {m : Match} (h : s.IsRecord slot ms) (hm : m ∈ ms) :
    m.kind ≠ .exact := by
  obtain ⟨owner, -, path, kind, note, located, -, hk, -, rfl⟩ := h
  rw [(Hunt.mem_claimed ((perm_sortBy _ _).mem_iff.1 hm)).2]
  exact hk

theorem mem_run_exact (h : s.run = .ok results) :
    ((slot, ms) ∈ results ∧ ms.any (·.kind == .exact)) ↔ slot ∈ s.observed.keys ∧
      ∃ fields, s.layout.fixedFields slot = .ok fields ∧ fields ≠ [] ∧
        ms = sortBy Match.offset fields := by
  obtain ⟨r, -, -, hp, -⟩ := run_cases h
  have hslots := (slots_of_run h).2
  constructor
  · rintro ⟨hm, hx⟩
    obtain ⟨fields, hf, hfound, hlater⟩ := (attributed_of_mem h hp hm).source
    have hn : fields ≠ [] := by
      intro hn
      obtain ⟨m, hmem, hx⟩ := List.any_eq_true.1 hx
      rcases hlater hn with ⟨_, _, recorded, -, -, -, -, hrec, -, hr⟩ | ⟨note, rfl⟩
      · obtain ⟨m₀, hm₀, hren⟩ := Match.Renoted.exists_mem hr hmem
        exact hrec.kind_ne_exact hm₀ (hren.kind_eq ▸ beq_iff_eq.1 hx)
      · cases List.mem_singleton.1 hmem
        cases hx
    exact ⟨hslots.mem_iff.1 (List.mem_map.2 ⟨_, hm, rfl⟩), fields, hf, hn, hfound hn⟩
  · rintro ⟨hs, fields, hf, hn, rfl⟩
    obtain ⟨⟨slot', ms⟩, hm, rfl⟩ := List.mem_map.1 (hslots.mem_iff.2 hs)
    obtain ⟨fields', hf', hfound, -⟩ := (attributed_of_mem h hp hm).source
    cases hf.symm.trans hf'
    cases hfound hn
    obtain ⟨m, hmem⟩ := List.exists_mem_of_ne_nil fields hn
    refine ⟨hm, List.any_eq_true.2 ⟨m, (perm_sortBy _ _).mem_iff.2 hmem, ?_⟩⟩
    rw [beq_iff_eq]
    exact (Layout.mem_fixedFields hf hmem).2

/-- The candidates and the bounds have no effect on fields that are found directly. They cannot keep
a slot open that belongs to an array at most one boundary away from its variable, and without a
single try no match is derived from a mapping. -/
theorem run_varied (h : s.run = .ok results)
    (h' : (s.varied candidates bounds).run = .ok results') :
    (results.filter fun e => e.2.any (·.kind == .exact)) =
        (results'.filter fun e => e.2.any (·.kind == .exact)) ∧
      (∀ slot ms m v n, (slot, ms) ∈ results → m ∈ ms → m.kind = .array →
        s.SetDownAt slot m v n → n ≤ 1 → Labels results' slot) ∧
      (bounds.limit = some 0 → ∀ e ∈ results', ∀ m ∈ e.2, m.kind ≠ .mapping) := by
  obtain ⟨r', -, -, hp', -⟩ := run_cases h'
  refine ⟨?_, ?_, ?_⟩
  · have ascends {results : List (Int × List Match)} {s : Scene} (h : s.run = .ok results) :
        ((results.filter fun e => e.2.any (·.kind == .exact)).map Prod.fst).Pairwise (· < ·) :=
      (slots_of_run h).1.sublist (List.filter_sublist.map Prod.fst)
    refine eq_of_pairwise_lt (ascends h) (ascends h') fun ⟨slot, ms⟩ => ?_
    rw [List.mem_filter, List.mem_filter]
    exact (mem_run_exact h).trans (mem_run_exact h').symm
  · intro slot ms m v n hs hm hk hset hn
    obtain ⟨r, before, after, path, kind, note, located, l, hp, hb, -, -, ho, hx, -, hl, hren⟩ :=
      hset.step
    cases hren.kind_eq.symm.trans hk
    have hshows := hx.showsDirectly hb hn (List.ne_nil_of_mem hl)
    have hobs := (Engine.sound_of_reaches hb).partitions.mem_observed ho
    exact (labels_iff h' hp').2 ⟨hobs, fun ho' => passes_misses hp' ho' hshows.varied⟩
  · intro hb e he m hm hk
    obtain ⟨v, n, hset⟩ := exists_setDownAt h' he hm (.inl hk)
    obtain ⟨r, before, after, path, kind, note, located, l, hp, hb', -, -, -, hx, -, hl, hren⟩ :=
      hset.step
    exact hx.kind_ne_mapping hb hb' (hren.kind_eq.symm.trans hk)

def noTries : Bounds := { Bounds.standard with limit := some 0 }

def stockItems : Int := Slot.ofHash (Word.ofNat 0).bytes

def stockPrice : Int := Slot.ofHash (crowdKey.raw ++ (Word.ofNat 1).bytes)

def stock : Scene where
  layout := ⟨[.dynamicArray ⟨.text "items", "t_array", .text "uint256[]", 0, 0, 32⟩
      (.primitive ⟨.text "", "t_uint256", .text "uint256", 0, 0, 32⟩),
    .mapping ⟨.text "prices", "t_mapping", .text "mapping(uint256 => uint256)", 1, 0, 32⟩
      (.text "uint256") (.primitive ⟨.text "", "t_uint256", .text "uint256", 0, 0, 32⟩),
    .staticArray ⟨.text "marks", "t_marks", .text "uint256[2]", 2, 0, 64⟩ 2
      (.primitive ⟨.text "", "t_uint256", .text "uint256", 0, 0, 32⟩)]⟩
  observed := Table.ofList [(0, ⟨Word.ofNat 2, none⟩), (stockItems + 1, ⟨Word.ofNat 5, none⟩),
    (stockPrice, ⟨Word.ofNat 6, none⟩), (3, ⟨Word.ofNat 7, none⟩)]
  candidates := [crowdKey]
  bounds := .standard
  lengths := .empty

theorem run_varied_stock : ∃ results results', stock.run = .ok results ∧
    (stock.varied [] noTries).run = .ok results' ∧
    (results.map fun e => (e.1, e.2.map (·.kind))) =
      [(0, [.exact]), (3, [.array]), (stockItems + 1, [.array]), (stockPrice, [.mapping])] ∧
    (results.filter fun e => e.2.any (·.kind == .exact)) =
      (results'.filter fun e => e.2.any (·.kind == .exact)) ∧
    (∀ slot ms m v n, (slot, ms) ∈ results → m ∈ ms → m.kind = .array →
      stock.SetDownAt slot m v n → n ≤ 1 → Labels results' slot) ∧
    ∀ e ∈ results', ∀ m ∈ e.2, m.kind ≠ .mapping := by
  obtain ⟨results, h, hk⟩ : ∃ results, stock.run = .ok results ∧
      (results.map fun e => (e.1, e.2.map (·.kind))) =
        [(0, [.exact]), (3, [.array]), (stockItems + 1, [.array]), (stockPrice, [.mapping])] :=
    exists_ok_of_toOption (by decide +kernel)
  obtain ⟨results', h', -⟩ : ∃ results', (stock.varied [] noTries).run = .ok results' ∧
      results'.length = 4 := exists_ok_of_toOption (by decide +kernel)
  obtain ⟨hexact, harray, hmapping⟩ := run_varied h h'
  exact ⟨results, results', h, h', hk, hexact, harray, hmapping rfl⟩

end Scene

end SlotLens

import SlotLens.Proofs.Search.Congruence
import SlotLens.Proofs.Search.Monotone

namespace SlotLens

namespace SlotSet

-- A set of slots is a list without repetitions, in any order.
variable {set : List Int} {base span : Int}

def enumerated (set : List Int) (base span : Int) : List Int :=
  ((List.range span.toNat).map fun i : Nat => base + (i : Int)).filter (· ∈ set)

/-- Go through the set, and sort what lies in the range. -/
def selected (set : List Int) (base span : Int) : List Int :=
  sortBy id (set.filter fun slot => base ≤ slot && slot < base + span)

def hits (set : List Int) (base span : Int) : List Int :=
  if span ≤ 0 then []
  else if span ≤ set.length then enumerated set base span
  else selected set base span

/-- The slots of a set in a range, in ascending order. -/
structure AreHits (set : List Int) (base span : Int) (found : List Int) : Prop where
  ascending : found.Pairwise (· < ·)
  mem_iff : ∀ slot, slot ∈ found ↔ slot ∈ set ∧ base ≤ slot ∧ slot < base + span

theorem AreHits.eq {set' found found' : List Int} (h : AreHits set base span found)
    (h' : AreHits set' base span found') (hs : set.Perm set') : found = found' := by
  have ha : (found.map id).Pairwise (· < ·) := (List.map_id found).symm ▸ h.ascending
  have ha' : (found'.map id).Pairwise (· < ·) := (List.map_id found').symm ▸ h'.ascending
  refine eq_of_pairwise_lt ha ha' fun slot => ?_
  rw [h.mem_iff, h'.mem_iff, hs.mem_iff]

theorem areHits_enumerated : AreHits set base span (enumerated set base span) := by
  refine ⟨List.Pairwise.filter _ (List.pairwise_map.2 ?_), fun slot => ?_⟩
  · exact List.pairwise_lt_range.imp fun h => by omega
  · simp only [enumerated, List.mem_filter, List.mem_map, List.mem_range, decide_eq_true_eq]
    constructor
    · rintro ⟨⟨i, hi, rfl⟩, hm⟩
      exact ⟨hm, by omega, by omega⟩
    · rintro ⟨hm, hle, hlt⟩
      exact ⟨⟨(slot - base).toNat, by omega, by omega⟩, hm⟩

theorem areHits_selected (hn : set.Nodup) : AreHits set base span (selected set base span) := by
  have hp := perm_sortBy id (set.filter fun slot => base ≤ slot && slot < base + span)
  have hnodup : ((selected set base span).map id).Nodup := by
    rw [List.map_id]
    exact hp.nodup_iff.2 (hn.filter _)
  refine ⟨?_, fun slot => ?_⟩
  · have hlt := pairwise_lt_of_nodup hnodup (sorted_sortBy id _)
    rwa [List.map_id] at hlt
  · rw [selected, hp.mem_iff]
    simp

theorem areHits_hits (hn : set.Nodup) : AreHits set base span (hits set base span) := by
  unfold hits
  split
  · next hspan =>
    refine ⟨.nil, fun slot => ⟨fun h => absurd h List.not_mem_nil, fun h => ?_⟩⟩
    omega
  · split
    · exact areHits_enumerated
    · exact areHits_selected hn

end SlotSet

theorem Hunt.areHits {h : Hunt} (ha : h.remaining.Pairwise (· < ·)) (base span : Int) :
    SlotSet.AreHits h.remaining base span (h.hits base span) :=
  ⟨ha.filter _, fun _ => mem_hits⟩

namespace Scene

variable {s s' : Scene}

theorem ascending_start : s.start.remaining.Pairwise (· < ·) := by
  have hn : (s.start.remaining.map id).Nodup := by
    rw [List.map_id]
    exact (perm_sortBy id s.observed.keys).nodup_iff.2 s.observed.nodup
  have h := pairwise_lt_of_nodup hn (sorted_sortBy id s.observed.keys)
  rwa [List.map_id] at h

theorem ascending_of_reaches {e : Engine} (h : s.Reaches e) :
    e.run.remaining.Pairwise (· < ·) :=
  ascending_start.sublist (Engine.Steps.sublist h)

theorem hits_of_reaches {e : Engine} {h : Hunt} {set : List Int} (he : s.Reaches e)
    (hr : h.remaining = e.run.remaining) (hset : set.Perm e.run.remaining) (base span : Int) :
    h.hits base span = SlotSet.hits set base span := by
  have ha := ascending_of_reaches he
  rw [← hr] at ha hset
  have hn : set.Nodup := hset.nodup_iff.2 (ha.imp Int.ne_of_lt)
  exact (Hunt.areHits ha base span).eq (SlotSet.areHits_hits hn) hset.symm

/-- Two scenes differ at most in the order of observations and lengths. -/
structure Reordered (s s' : Scene) : Prop where
  layout : s.layout = s'.layout
  candidates : s.candidates = s'.candidates
  bounds : s.bounds = s'.bounds
  observed : s.observed.entries.Perm s'.observed.entries
  lengths : s.lengths.entries.Perm s'.lengths.entries

namespace Reordered

theorem agrees (hs : s.Reordered s') : s.Agrees s' where
  candidates := hs.candidates
  bounds := hs.bounds
  observed := Table.get?_of_perm hs.observed
  lengthAt base := by
    rw [lengthAt, lengthAt, Table.get?_of_perm hs.lengths, Table.get?_of_perm hs.observed]

theorem start (hs : s.Reordered s') : s.start = s'.start := by
  have hn : (s.observed.keys.map id).Nodup := (List.map_id _).symm ▸ s.observed.nodup
  rw [Scene.start, Scene.start, sortBy_of_perm hn (hs.observed.map Prod.fst), Table.keys]

theorem matchRoot (hs : s.Reordered s') (r : Run) (root : Root) :
    s.matchRoot r root = s'.matchRoot r root := by
  simp only [Scene.matchRoot, hs.agrees.exploreRoot]

theorem passes (hs : s.Reordered s') : s.passes = s'.passes := by
  have hroot : s.matchRoot = s'.matchRoot := funext fun r => funext (hs.matchRoot r)
  have hexact : s.matchExact = s'.matchExact := by
    funext r
    rw [matchExact, matchExact, hs.layout]
  have hmappings : s.matchMappings = s'.matchMappings := by
    funext r
    rw [matchMappings, matchMappings, hs.layout, hroot]
  have harrays : s.matchArrays = s'.matchArrays := by
    funext r
    rw [matchArrays, matchArrays, hs.layout, hroot]
  rw [Scene.passes, Scene.passes, hs.start, hexact, hmappings, harrays]

theorem hypotheses (hs : s.Reordered s') : s.hypotheses = s'.hypotheses := by
  simp only [Scene.hypotheses, hs.layout, hs.agrees.lengthAt]

theorem run (hs : s.Reordered s') : s.run = s'.run := by
  have hmark : s.markAmbiguous = s'.markAmbiguous := by
    funext results
    rw [markAmbiguous, markAmbiguous, hs.hypotheses]
  have hopen : s.unresolved = s'.unresolved := by
    funext r
    rw [unresolved, unresolved, hs.bounds]
  rw [Scene.run, Scene.run, hs.passes, hmark, hopen]

end Reordered

end Scene

end SlotLens

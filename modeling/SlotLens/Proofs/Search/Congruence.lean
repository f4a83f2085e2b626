import SlotLens.Match.Explore

namespace SlotLens

namespace Scene

/-- The search of a root sees no difference between two scenes. -/
structure Agrees (s s' : Scene) : Prop where
  candidates : s.candidates = s'.candidates
  bounds : s.bounds = s'.bounds
  observed : ∀ slot, s.observed.get? slot = s'.observed.get? slot
  lengthAt : ∀ base, s.lengthAt base = s'.lengthAt base

namespace Agrees

variable {s s' : Scene} {owner value element : Descriptor} {item : WorkItem} {h : Hunt}

theorem isSearchable (hs : s.Agrees s') (base : Int) :
    s.isSearchable base = s'.isSearchable base := by
  funext c
  rw [Scene.isSearchable, Scene.isSearchable, hs.lengthAt]

theorem pushNested (hs : s.Agrees s') (base : Int) (level : Nat) (path : Path) (h : Hunt) :
    s.pushNested value base level path h = s'.pushNested value base level path h := by
  rw [Scene.pushNested, Scene.pushNested, hs.isSearchable, hs.bounds]

theorem tryKey (hs : s.Agrees s') (keyType : Value) (c : Candidate) (h : Hunt) :
    s.tryKey owner item keyType value c h = s'.tryKey owner item keyType value c h := by
  simp only [Scene.tryKey, hs.pushNested]

theorem expandMapping (hs : s.Agrees s') (keyType : Value) (candidates : List Candidate) :
    s.expandMapping owner item keyType value candidates h =
      s'.expandMapping owner item keyType value candidates h := by
  induction candidates generalizing h with
  | nil => rfl
  | cons c rest ih => simp only [Scene.expandMapping, hs.bounds, hs.tryKey, ih]

theorem pushElements (hs : s.Agrees s') (data : Int) (ahead count index : Nat) :
    s.pushElements element data item ahead count index h =
      s'.pushElements element data item ahead count index h := by
  induction count generalizing index h with
  | zero => rfl
  | succ count ih => simp only [Scene.pushElements, hs.bounds, hs.pushNested, ih]

theorem expand (hs : s.Agrees s') (ahead : Nat) :
    s.expand owner item ahead h = s'.expand owner item ahead h := by
  unfold Scene.expand
  split
  · rw [hs.candidates]
    exact hs.expandMapping _ _
  · simp only [expandArray, hs.lengthAt, hs.pushElements]
  · simp only [expandBytes, hs.observed]
  · rfl

theorem enter (hs : s.Agrees s') : s.enter item h = s'.enter item h := by
  rw [Scene.enter, Scene.enter, hs.bounds]

theorem exploreLevel (hs : s.Agrees s') (items : List WorkItem) :
    s.exploreLevel owner items h = s'.exploreLevel owner items h := by
  induction items generalizing h with
  | nil => rfl
  | cons item rest ih => simp only [Scene.exploreLevel, hs.enter, hs.expand, ih]

theorem exploreLevels (hs : s.Agrees s') (levels : Nat) (items : List WorkItem) :
    s.exploreLevels owner levels items h = s'.exploreLevels owner levels items h := by
  induction levels generalizing items h with
  | zero => rfl
  | succ levels ih => simp only [Scene.exploreLevels, hs.exploreLevel, ih]

theorem exploreRoot (hs : s.Agrees s') (root : Root) :
    s.exploreRoot root h = s'.exploreRoot root h :=
  hs.exploreLevels _ _

end Agrees

def withLayout (s : Scene) (l : Layout) : Scene := { s with layout := l }

theorem agrees_withLayout (s : Scene) (l : Layout) : (s.withLayout l).Agrees s :=
  ⟨rfl, rfl, fun _ => rfl, fun _ => rfl⟩

end Scene

end SlotLens

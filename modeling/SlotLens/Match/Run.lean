import SlotLens.Match.Explore

namespace SlotLens

structure Run where
  remaining : List Int
  results : Table Int (List Match)
  tallies : Table LabelKey Tally

namespace Scene

def start (s : Scene) : Run := ⟨sortBy id s.observed.keys, .empty, .empty⟩

def beginHunt (r : Run) (tally : Tally) : Hunt := ⟨r.remaining, r.results, tally, #[]⟩

def claimFixed (owner : Descriptor) (kind : MatchKind) (slot : Int) (r : Run) :
    Except Fault Run := do
  let located ← owner.locate (slot - owner.slot)
  let h := (beginHunt r .zero).resolve slot
    (located.map (Match.ofLocated slot owner [] kind none))
  return { r with remaining := h.remaining, results := h.results }

def matchExact (s : Scene) (r : Run) : Except Fault Run :=
  r.remaining.foldlM (fun r slot =>
    (s.layout.variablesAt slot).foldlM (fun r owner => claimFixed owner .exact slot r) r) r

/-- Search a root, if slots are open. The variables with one label share a tally. -/
def matchRoot (s : Scene) (r : Run) (root : Root) : Except Fault Run := do
  if r.remaining.isEmpty then return r
  let key ← LabelKey.ofValue root.variableDescriptor.label
  let h ← s.exploreRoot root (beginHunt r ((r.tallies.get? key).getD .zero))
  return ⟨h.remaining, h.results, r.tallies.insert key h.tally⟩

def matchMappings (s : Scene) (r : Run) : Except Fault Run :=
  s.layout.mappingRoots.foldlM s.matchRoot r

def matchStaticArray (r : Run) (owner : Descriptor) : Except Fault Run :=
  ((beginHunt r .zero).hits owner.slot owner.slotCount).foldlM
    (fun r slot => claimFixed owner .array slot r) r

def matchArrays (s : Scene) (r : Run) : Except Fault Run := do
  let r ← s.layout.staticArrays.foldlM matchStaticArray r
  (s.layout.arrayRoots ++ s.layout.bytesRoots).foldlM s.matchRoot r

structure Hypothesis where
  root : Root
  length : Int
  data : Int

/-- The dynamic arrays whose slots need no derivation and whose length is known and not zero. -/
def hypotheses (s : Scene) : Except Fault (List Hypothesis) := do
  let found ← s.layout.arrayRoots.mapM fun root => match s.lengthAt root.slot with
    | none => .ok none
    | some length =>
      if length = 0 then .ok none
      else (Slot.ofData root.slot).map fun data => some ⟨root, length, data⟩
  return found.filterMap id

def Hypothesis.explain (y : Hypothesis) (slot : Int) : Except Fault (Option String) := do
  let rel := slot - y.data
  if rel < 0 then return none
  let span ← y.root.container.dataSlotCount y.length
  if span ≤ rel then return none
  let located ← y.root.container.locateElement rel (some y.length)
  match located with
  | [] => return none
  | l :: _ =>
    return some (← Path.render y.root.variableDescriptor.label (y.root.path ++ l.path.take 1))

def explainFirst (slot : Int) : List Hypothesis → Except Fault (Option String)
  | [] => .ok none
  | y :: rest => do
    match ← y.explain slot with
    | some expression => return some expression
    | none => explainFirst slot rest

def ambiguityNote (kept other : String) : String :=
  String.join ["Ambiguous slot: explained as ", kept, " (kept) and as ", other, "."]

theorem ambiguityNote_eq (kept other : String) : ambiguityNote kept other =
    "Ambiguous slot" ++ String.join [": explained as ", kept, " (kept) and as ", other, "."] := by
  have hsplit : "Ambiguous slot: explained as " = "Ambiguous slot" ++ ": explained as " := by decide
  rw [ambiguityNote, String.join_cons, hsplit, String.append_assoc]
  simp

def markMatch (other : String) (m : Match) : Except ShapeFault Match := do
  if m.kind = .mapping then return { m with note := some (ambiguityNote (← m.expression) other) }
  else return m

def markSlot (found : List Hypothesis) (slot : Int) (results : List Match) :
    Except Fault (List Match) :=
  if results.any (·.kind == .mapping) then do
    match ← explainFirst slot found with
    | none => return results
    | some other => results.mapM fun m => markMatch other m
  else .ok results

def markAmbiguous (s : Scene) (results : List (Int × List Match)) :
    Except Fault (List (Int × List Match)) := do
  let found ← s.hypotheses
  results.mapM fun (slot, ms) => (markSlot found slot ms).map ((slot, ·))

def insertText (a : String) : List String → List String
  | [] => [a]
  | b :: rest =>
    if Text.points a.toList < Text.points b.toList then a :: b :: rest else b :: insertText a rest

def labelText : LabelKey → Except ShapeFault String
  | .text s => .ok s
  | .other _ => .error .wrongKind

def labelsWhere (holds : Tally → Bool) (tallies : Table LabelKey Tally) :
    Except ShapeFault (List String) := do
  let found ← (tallies.entries.filter fun e => holds e.2).mapM fun e => labelText e.1
  return found.foldr insertText []

def unresolvedNote (b : Bounds) (tallies : Table LabelKey Tally) : Except ShapeFault String := do
  let limited ← labelsWhere Tally.limitHit tallies
  let deep ← labelsWhere Tally.depthHit tallies
  return "Could not label this slot access." ++
    (if limited.isEmpty then "" else
      " Exploration stopped at the limit of " ++ toString (Bounds.toInt b.limit) ++ " for: " ++
        ", ".intercalate limited ++ ".") ++
    (if deep.isEmpty then "" else
      " Nested containers deeper than " ++ toString (Bounds.toInt b.depth) ++
        " were not explored for: " ++ ", ".intercalate deep ++ ".")

def passes (s : Scene) : Except Fault Run :=
  s.matchExact s.start >>= s.matchMappings >>= s.matchArrays

def unresolved (s : Scene) (r : Run) : Except ShapeFault (List (Int × List Match)) := do
  if r.remaining.isEmpty then return []
  let note ← unresolvedNote s.bounds r.tallies
  return r.remaining.map fun slot => (slot, [Match.unresolved slot note])

def run (s : Scene) : Except Fault (List (Int × List Match)) := do
  let r ← s.passes
  let resolved ← s.markAmbiguous r.results.entries
  let others ← s.unresolved r
  return sortBy Prod.fst (resolved ++ others)

end Scene

end SlotLens

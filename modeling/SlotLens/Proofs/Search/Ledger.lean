import SlotLens.Proofs.Search.Monotone
import SlotLens.Proofs.Search.Report
import SlotLens.Proofs.Search.Simulation
import Mathlib.Data.List.Nodup

/-!
# The ledger of the passes

What the search does for a label is entered in a ledger: the keys that it tries, the containers
inside derived values that it enters, and the slots that it closes. In every state that the passes
reach, the tally of a label is what the ledger says.
-/

namespace SlotLens

/-- What a step of a search does for its variable. -/
inductive Deed
  | tried : WorkItem → Candidate → Deed
  /-- A container of a variable is not entered, only one behind a derivation. -/
  | entered : WorkItem → Deed
  | closed : Int → Deed

namespace Deed

def isTried : Deed → Bool
  | .tried _ _ => true
  | _ => false

def isEntered : Deed → Bool
  | .entered _ => true
  | _ => false

def slot? : Deed → Option Int
  | .closed slot => some slot
  | _ => none

end Deed

abbrev Ledger := List (LabelKey × Deed)

namespace Ledger

variable {key : LabelKey} {deeds : List Deed} {ledger entries : Ledger}

def of (ledger : Ledger) (key : LabelKey) : List Deed := (ledger.filter (·.1 = key)).map Prod.snd

def tried (ledger : Ledger) (key : LabelKey) : Nat := (ledger.of key).countP Deed.isTried

def entered (ledger : Ledger) (key : LabelKey) : Nat := (ledger.of key).countP Deed.isEntered

def closed (ledger : Ledger) (key : LabelKey) : List Int := (ledger.of key).filterMap Deed.slot?

theorem of_append : of (ledger ++ entries) key = of ledger key ++ of entries key := by
  simp [of]

theorem tried_append : tried (ledger ++ entries) key = tried ledger key + tried entries key := by
  rw [tried, of_append, List.countP_append]
  rfl

theorem entered_append :
    entered (ledger ++ entries) key = entered ledger key + entered entries key := by
  rw [entered, of_append, List.countP_append]
  rfl

theorem closed_append :
    closed (ledger ++ entries) key = closed ledger key ++ closed entries key := by
  rw [closed, of_append, List.filterMap_append]
  rfl

theorem of_map_self : of (deeds.map (key, ·)) key = deeds := by
  simp [of, List.filter_map, Function.comp_def]

theorem of_map_of_ne {other : LabelKey} (hk : key ≠ other) :
    of (deeds.map (key, ·)) other = [] := by
  simp [of, List.filter_map, Function.comp_def, hk]

end Ledger

variable {s : Scene}

namespace Search

def use? : Activity → Activity → Option Deed
  | .waiting, .opened item => if item.level ≤ 1 then none else some (.entered item)
  | .keys item _ _ (c :: _), .keys .. => some (.tried item c)
  | .keys item _ _ (c :: _), .fields .. => some (.tried item c)
  | _, _ => none

def closed (x x' : Search) : List Int := x.hunt.remaining.filter (· ∉ x'.hunt.remaining)

def deeds (x x' : Search) : List Deed :=
  (use? x.activity x'.activity).toList ++ (x.closed x').map .closed

variable {owner : Descriptor} {x x' : Search}

theorem Step.use (st : Step s owner x x') :
    (use? x.activity x'.activity = none ∧ x'.hunt.tally.explored = x.hunt.tally.explored) ∨
      ∃ d, use? x.activity x'.activity = some d ∧
        x'.hunt.tally.explored = x.hunt.tally.explored + 1 ∧
        s.bounds.exhausted x.hunt.tally.explored = false ∧
        s.bounds.thresholdReached x.hunt.tally.found = false := by
  cases st with
  | refuse _ he =>
    rcases Scene.enter_cases he with ⟨-, hok, -⟩ | ⟨-, -, -, rfl⟩ | ⟨-, -, hp⟩
    · cases hok
    · exact .inl ⟨rfl, rfl⟩
    · rcases Hunt.spend_cases hp with ⟨hok, -, -⟩ | ⟨-, -, rfl⟩
      · cases hok
      · exact .inl ⟨rfl, rfl⟩
  | @enter _ _ item _ _ he =>
    rcases Scene.enter_cases he with ⟨hl, -, rfl⟩ | ⟨-, -, hok, -⟩ | ⟨hl, hs, hp⟩
    · exact .inl ⟨if_pos hl, rfl⟩
    · cases hok
    · rcases Hunt.spend_cases hp with ⟨-, hb, rfl⟩ | ⟨hok, -, -⟩
      · rw [Tally.isStopped, Bool.or_eq_false_iff] at hs
        exact .inr ⟨.entered item, if_neg hl, rfl, hb, hs.2⟩
      · cases hok
  | keysLimit _ _ hp =>
    rcases Hunt.spend_cases hp with ⟨hok, -, -⟩ | ⟨-, -, rfl⟩
    · cases hok
    · exact .inl ⟨rfl, rfl⟩
  | keyMiss _ hf hp | keyHit _ hf hp =>
    rcases Hunt.spend_cases hp with ⟨-, hb, rfl⟩ | ⟨hok, -, -⟩
    · exact .inr ⟨_, rfl, rfl, hb, hf⟩
    · cases hok
  | field | element | chunk => exact .inl ⟨rfl, Hunt.claim_explored⟩
  | fieldsDone | nest => exact .inl ⟨rfl, Scene.pushNested_explored⟩
  | _ => exact .inl ⟨rfl, rfl⟩

theorem use?_cases {a a' : Activity} {d : Deed} (h : use? a a' = some d) :
    (∃ item c, d = .tried item c) ∨ ∃ item, d = .entered item := by
  unfold use? at h
  split at h
  · split at h
    · cases h
    · cases h
      exact .inr ⟨_, rfl⟩
  · cases h
    exact .inl ⟨_, _, rfl⟩
  · cases h
    exact .inl ⟨_, _, rfl⟩
  · cases h

theorem countP_deeds {p : Deed → Bool} (hp : ∀ slot, p (.closed slot) = false) :
    (x.deeds x').countP p = (use? x.activity x'.activity).toList.countP p := by
  simp [deeds, hp]

theorem closed_of_deeds : (x.deeds x').filterMap Deed.slot? = x.closed x' := by
  have hc : ((x.closed x').map Deed.closed).filterMap Deed.slot? = x.closed x' := by
    simp [List.filterMap_map, Function.comp_def, Deed.slot?]
  rw [deeds, List.filterMap_append, hc]
  cases hu : use? x.activity x'.activity with
  | none => rfl
  | some d =>
    rcases use?_cases hu with ⟨item, c, rfl⟩ | ⟨item, rfl⟩ <;> rfl

theorem Step.explored (st : Step s owner x x') :
    x'.hunt.tally.explored = x.hunt.tally.explored +
      ((x.deeds x').countP Deed.isTried + (x.deeds x').countP Deed.isEntered) := by
  rw [countP_deeds fun _ => rfl, countP_deeds fun _ => rfl]
  rcases st.use with ⟨hu, he⟩ | ⟨d, hu, he, -, -⟩
  · rw [hu, he]
    rfl
  · rw [hu, he]
    rcases use?_cases hu with ⟨item, c, rfl⟩ | ⟨item, rfl⟩ <;> rfl

theorem Step.limited (st : Step s owner x x')
    (hl : ∀ n ∈ s.bounds.limit, x.hunt.tally.explored ≤ n) :
    ∀ n ∈ s.bounds.limit, x'.hunt.tally.explored ≤ n := by
  intro n hn
  have hle := hl n hn
  rcases st.use with ⟨-, he⟩ | ⟨-, -, he, hb, -⟩
  · rwa [he]
  · rw [Option.mem_def] at hn
    simp only [Bounds.exhausted, hn, decide_eq_false_iff_not] at hb
    omega

theorem closed_eq_nil (hr : x'.hunt.remaining = x.hunt.remaining) : x.closed x' = [] := by
  rw [closed, hr, List.filter_eq_nil_iff]
  simp

theorem closed_eq_singleton {slot : Int} (hn : x.hunt.remaining.Nodup)
    (ho : slot ∈ x.hunt.remaining)
    (hr : x'.hunt.remaining = x.hunt.remaining.filter (· ≠ slot)) : x.closed x' = [slot] := by
  have hf : x.closed x' = x.hunt.remaining.filter (· = slot) := by
    rw [closed, hr]
    refine List.filter_congr fun other hm => ?_
    simp [hm]
  rw [hf, List.filter_eq, List.count_eq_one_of_mem hn ho]
  rfl

theorem found_claim {before : Path} {kind : MatchKind} (note : Option String)
    (located : List Located) {slot : Int} (hn : x.hunt.remaining.Nodup)
    (ho : slot ∈ x.hunt.remaining)
    (hx : x'.hunt = x.hunt.claim slot owner before kind note located) :
    x'.hunt.tally.found = x.hunt.tally.found + (x.closed x').length := by
  rcases x.hunt.claim_cases slot owner before kind note located with ⟨-, hc⟩ | ⟨-, hr, ht⟩
  · rw [hc] at hx
    rw [closed_eq_nil (congrArg Hunt.remaining hx), hx]
    rfl
  · rw [← hx] at hr ht
    rw [closed_eq_singleton hn ho hr, ht]
    rfl

theorem Step.found (st : Step s owner x x') (hx : x.Pending) (hn : x.hunt.remaining.Nodup) :
    x'.hunt.tally.found = x.hunt.tally.found + (x.closed x').length := by
  have unchanged (hr : x'.hunt.remaining = x.hunt.remaining)
      (hf : x'.hunt.tally.found = x.hunt.tally.found) :
      x'.hunt.tally.found = x.hunt.tally.found + (x.closed x').length := by
    rw [closed_eq_nil hr, hf]
    rfl
  -- Only a claim closes a slot, and it counts it; all other steps leave both as they are.
  cases st with
  | refuse _ he | enter _ he =>
    refine unchanged (Scene.enter_keeps he).1 ?_
    rcases Scene.enter_cases he with ⟨-, -, rfl⟩ | ⟨-, -, -, rfl⟩ | ⟨-, -, hp⟩
    · rfl
    · rfl
    · rcases Hunt.spend_cases hp with ⟨-, -, rfl⟩ | ⟨-, -, rfl⟩ <;> rfl
  | keysLimit _ _ hp | keyMiss _ _ hp | keyHit _ _ hp =>
    refine unchanged (Hunt.spend_keeps hp).1 ?_
    rcases Hunt.spend_cases hp with ⟨-, -, rfl⟩ | ⟨-, -, rfl⟩ <;> rfl
  | field | element => exact found_claim _ _ hn (hx.subset List.mem_cons_self) rfl
  | @chunk _ _ item e data slot =>
    exact found_claim (some (Scene.chunkNote (slot - data).toNat))
      [⟨.bytes e, 0, [.chunk (slot - data).toNat]⟩] hn (hx.subset List.mem_cons_self) rfl
  | fieldsDone | nest => exact unchanged Scene.pushNested_remaining Scene.pushNested_found
  | _ => exact unchanged rfl rfl

end Search

def Run.tally (r : Run) (key : LabelKey) : Tally := (r.tallies.get? key).getD .zero

theorem Run.tally_insert {r : Run} {remaining : List Int} {results : Table Int (List Match)}
    {key key' : LabelKey} {t : Tally} :
    (⟨remaining, results, r.tallies.insert key t⟩ : Run).tally key' =
      if key = key' then t else r.tally key' := by
  rw [tally, Table.get?_insert]
  split <;> rfl

namespace Engine

def tally (e : Engine) (key : LabelKey) : Tally := e.run.tally key

def deeds : Engine → Engine → Ledger
  | .within _ _ key x _, .within _ _ _ x' _ => (x.deeds x').map (key, ·)
  | _, _ => []

variable {e e' : Engine}

theorem tally_within {r : Run} {root : Root} {key key' : LabelKey} {x : Search}
    {agenda : List Task} : (within r root key x agenda).tally key' =
      if key = key' then x.hunt.tally else r.tally key' :=
  Run.tally_insert

theorem Step.tally_cases (st : Step s e e') :
    (e.deeds e' = [] ∧ ∀ key, e'.tally key = e.tally key) ∨
      ∃ r root key x x' agenda, e = .within r root key x agenda ∧
        e' = .within r root key x' agenda ∧ Search.Step s root.variableDescriptor x x' := by
  cases st with
  | fixed hf =>
    obtain ⟨located, -, rfl⟩ := Scene.claimFixed_cases hf
    exact .inl ⟨rfl, fun key => rfl⟩
  | staticArray | skip => exact .inl ⟨rfl, fun key => rfl⟩
  | @search r root agenda key =>
    refine .inl ⟨rfl, fun key' => ?_⟩
    rw [tally_within]
    split
    · next hk =>
      subst hk
      rfl
    · rfl
  | inside st => exact .inr ⟨_, _, _, _, _, _, rfl, rfl, st⟩
  | leave => exact .inl ⟨rfl, fun key => rfl⟩

end Engine

namespace Scene

/-- The passes come to a state with a ledger. -/
inductive Logs (s : Scene) : Ledger → Engine → Prop
  | start : Logs s [] s.engineStart
  | step {ledger e e'} : Logs s ledger e → Engine.Step s e e' → Logs s (ledger ++ e.deeds e') e'

theorem Logs.reaches {ledger : Ledger} {e : Engine} (h : s.Logs ledger e) : s.Reaches e := by
  induction h with
  | start => exact .refl
  | step _ st ih => exact ih.tail st

theorem logs_of_reaches {e : Engine} (h : s.Reaches e) : ∃ ledger, s.Logs ledger e := by
  induction h with
  | refl => exact ⟨[], .start⟩
  | tail _ st ih =>
    obtain ⟨ledger, hl⟩ := ih
    exact ⟨_, hl.step st⟩

/-- The tally of a label is what the ledger says. -/
structure Accounts (s : Scene) (ledger : Ledger) (e : Engine) (key : LabelKey) : Prop where
  explored : (e.tally key).explored = ledger.tried key + ledger.entered key
  limited : ∀ n ∈ s.bounds.limit, (e.tally key).explored ≤ n
  found : (e.tally key).found = (ledger.closed key).length
  distinct : (ledger.closed key).Nodup
  closed : ∀ slot ∈ ledger.closed key, slot ∈ s.observed.keys ∧ slot ∉ e.run.remaining

variable {ledger : Ledger} {e e' : Engine} {key : LabelKey}

theorem Accounts.keep {entries : Ledger} (ha : s.Accounts ledger e key)
    (ht : e'.tally key = e.tally key) (he : entries.of key = [])
    (hr : ∀ slot ∈ e'.run.remaining, slot ∈ e.run.remaining) :
    s.Accounts (ledger ++ entries) e' key := by
  have hof : (ledger ++ entries).of key = ledger.of key := by
    rw [Ledger.of_append, he, List.append_nil]
  have htried : Ledger.tried (ledger ++ entries) key = ledger.tried key :=
    congrArg (List.countP Deed.isTried) hof
  have hentered : Ledger.entered (ledger ++ entries) key = ledger.entered key :=
    congrArg (List.countP Deed.isEntered) hof
  have hclosed : Ledger.closed (ledger ++ entries) key = ledger.closed key :=
    congrArg (List.filterMap Deed.slot?) hof
  refine ⟨?_, ?_, ?_, ?_, ?_⟩
  · rw [ht, htried, hentered, ha.explored]
  · rw [ht]
    exact ha.limited
  · rw [ht, hclosed, ha.found]
  · rw [hclosed]
    exact ha.distinct
  · rw [hclosed]
    intro slot hs
    obtain ⟨ho, hn⟩ := ha.closed slot hs
    exact ⟨ho, fun h => hn (hr slot h)⟩

theorem Accounts.inside {r : Run} {root : Root} {x x' : Search} {agenda : List Task}
    (ha : s.Accounts ledger (.within r root key x agenda) key)
    (hs : Engine.Sound s (.within r root key x agenda))
    (st : Search.Step s root.variableDescriptor x x') :
    s.Accounts (ledger ++ (x.deeds x').map (key, ·)) (.within r root key x' agenda) key := by
  have hn : x.hunt.remaining.Nodup := hs.partitions.nodup_remaining
  have hx : x.Pending := by
    cases hs.staged with
    | within _ hx _ => exact hx
  have hfound := ha.found
  have hexplored := ha.explored
  have hlimited := ha.limited
  rw [Engine.tally_within, if_pos rfl] at hfound hexplored hlimited
  have hclosed : Ledger.closed (ledger ++ (x.deeds x').map (key, ·)) key =
      ledger.closed key ++ x.closed x' := by
    rw [Ledger.closed_append, Ledger.closed, Ledger.closed, Ledger.of_map_self,
      Search.closed_of_deeds]
  refine ⟨?_, ?_, ?_, ?_, ?_⟩
  · rw [Engine.tally_within, if_pos rfl, st.explored, hexplored, Ledger.tried_append,
      Ledger.entered_append, Ledger.tried, Ledger.tried, Ledger.entered, Ledger.entered,
      Ledger.of_map_self]
    omega
  · rw [Engine.tally_within, if_pos rfl]
    exact st.limited hlimited
  · rw [Engine.tally_within, if_pos rfl, st.found hx hn, hfound, hclosed, List.length_append]
  · rw [hclosed]
    -- What is closed now was open, and what was closed before was not.
    refine List.nodup_append.2 ⟨ha.distinct, hn.filter _, ?_⟩
    rintro slot hs other ho rfl
    exact (ha.closed slot hs).2 (List.mem_filter.1 ho).1
  · rw [hclosed]
    intro slot hm
    rcases List.mem_append.1 hm with hm | hm
    · obtain ⟨ho, hnot⟩ := ha.closed slot hm
      exact ⟨ho, fun h => hnot (st.mem_remaining h)⟩
    · obtain ⟨ho, hnot⟩ := List.mem_filter.1 hm
      exact ⟨hs.partitions.mem_observed ho, of_decide_eq_true hnot⟩

theorem Accounts.step (ha : s.Accounts ledger e key) (hs : e.Sound s) (st : Engine.Step s e e') :
    s.Accounts (ledger ++ e.deeds e') e' key := by
  have hr : ∀ slot ∈ e'.run.remaining, slot ∈ e.run.remaining := fun slot => st.mem_remaining
  rcases st.tally_cases with ⟨hd, ht⟩ | ⟨r, root, key', x, x', agenda, rfl, rfl, hst⟩
  · exact ha.keep (ht key) (by rw [hd]; rfl) hr
  · by_cases hk : key' = key
    · subst hk
      exact ha.inside hs hst
    · refine ha.keep ?_ (Ledger.of_map_of_ne hk) hr
      rw [Engine.tally_within, Engine.tally_within, if_neg hk, if_neg hk]

theorem Logs.accounts (h : s.Logs ledger e) : s.Accounts ledger e key := by
  induction h with
  | start =>
    exact ⟨rfl, fun n _ => Nat.zero_le n, rfl, .nil, fun slot hs => absurd hs List.not_mem_nil⟩
  | step h st ih => exact ih.step (Engine.sound_of_reaches h.reaches) st

theorem thresholdReached_of_deeds (st : Engine.Step s e e') {d : Deed}
    (hd : d ∈ Ledger.of (e.deeds e') key) (hu : d.isTried ∨ d.isEntered) :
    s.bounds.thresholdReached (e.tally key).found = false := by
  rcases st.tally_cases with ⟨hn, -⟩ | ⟨r, root, key', x, x', agenda, rfl, rfl, hst⟩
  · rw [hn] at hd
    exact absurd hd List.not_mem_nil
  · by_cases hk : key' = key
    · subst hk
      rw [Engine.tally_within, if_pos rfl]
      rw [Engine.deeds, Ledger.of_map_self, Search.deeds] at hd
      rcases List.mem_append.1 hd with hd | hd
      · rcases hst.use with ⟨hnone, -⟩ | ⟨-, -, -, -, hf⟩
        · rw [hnone] at hd
          exact absurd hd List.not_mem_nil
        · exact hf
      · obtain ⟨slot, -, rfl⟩ := List.mem_map.1 hd
        simp [Deed.isTried, Deed.isEntered] at hu
    · rw [Engine.deeds, Ledger.of_map_of_ne hk] at hd
      exact absurd hd List.not_mem_nil

/-- Every state that the passes reach has a ledger, their end included. The tally of a label agrees
with it, tries stay below the limit, and none is used for a label that has come to the threshold. -/
theorem passes_accounts (s : Scene) :
    (∀ r, s.passes = .ok r → s.Reaches (.between r [])) ∧
      (∀ e, s.Reaches e → ∃ ledger, s.Logs ledger e) ∧
      ∀ ledger e, s.Logs ledger e → ∀ key, s.Accounts ledger e key ∧
        ∀ e', Engine.Step s e e' → ∀ d ∈ Ledger.of (e.deeds e') key, d.isTried ∨ d.isEntered →
          s.bounds.thresholdReached (e.tally key).found = false :=
  ⟨fun _ hp => Engine.passes_steps hp, fun _ hr => logs_of_reaches hr,
    fun _ _ hl _ => ⟨hl.accounts, fun _ st _ hd hu => thresholdReached_of_deeds st hd hu⟩⟩

theorem passes_accounts_sample : ∃ ledger r, (sample .standard).passes = .ok r ∧
    (sample .standard).Logs ledger (.between r []) ∧
    ledger.tried (.text "lists") + ledger.entered (.text "lists") = 2 ∧
    (ledger.closed (.text "lists")).length = 2 := by
  obtain ⟨hend, hledger, haccounts⟩ := passes_accounts (sample .standard)
  obtain ⟨r, hp, ht⟩ : ∃ r, (sample .standard).passes = .ok r ∧
      r.tallies.get? (.text "lists") = some ⟨2, 2, false, false⟩ :=
    exists_ok_of_toOption (by decide +kernel)
  obtain ⟨ledger, hl⟩ := hledger _ (hend r hp)
  obtain ⟨ha, -⟩ := haccounts ledger _ hl (.text "lists")
  have htally : (Engine.between r []).tally (.text "lists") = ⟨2, 2, false, false⟩ := by
    rw [Engine.tally, Engine.run, Run.tally, ht]
    rfl
  refine ⟨ledger, r, hp, hl, ?_, ?_⟩
  · rw [← ha.explored, htally]
  · rw [← ha.found, htally]

end Scene

end SlotLens

import SlotLens.Proofs.Search.Ledger
import SlotLens.Proofs.Search.Replay

/-!
# Stopping at the limit

A variable is stopped at the limit when a try is needed and none is left, and also when the
containers that wait would use all the tries that are left, while elements of an array are still to
be searched. In the second case the containers that wait are not searched either, so tries stay
unused. Where no array is given up in this way, a variable is stopped at the limit only when all its
tries are used.
-/

namespace SlotLens

variable {s : Scene}

namespace Tally

variable {t : Tally} {b : Bounds}

theorem exhausted_iff : b.exhausted t.explored ↔ ∃ n ∈ b.limit, n ≤ t.explored := by
  cases hb : b.limit with
  | none => simp [Bounds.exhausted, hb]
  | some n => simp [Bounds.exhausted, hb]

theorem thresholdReached_iff : b.thresholdReached t.found ↔ ∃ n ∈ b.threshold, n ≤ t.found := by
  cases hb : b.threshold with
  | none => simp [Bounds.thresholdReached, hb]
  | some n => simp [Bounds.thresholdReached, hb]

theorem budgetLeft_eq_some {left : Nat} :
    t.budgetLeft b = some left ↔ ∃ n, b.limit = some n ∧ n - t.explored = left := by
  simp [budgetLeft]

theorem budgetLeft_any {n : Nat} :
    (t.budgetLeft b).any (· ≤ n) ↔ ∃ l ∈ b.limit, l - t.explored ≤ n := by
  cases hb : b.limit with
  | none => simp [budgetLeft, hb]
  | some l => simp [budgetLeft, hb]

end Tally

namespace Search

/-- An array is about to be given up while tries are left, since the containers that wait would use
them. -/
def GivesUp (s : Scene) (x : Search) : Prop :=
  ∃ item element data left index, x.activity = .nested item element data (left + 1) index ∧
    x.hunt.tally.isStopped s.bounds = false ∧
    ∃ n, x.hunt.tally.budgetLeft s.bounds = some (n + 1) ∧ n < x.front.length + x.hunt.next.size

variable {owner : Descriptor} {x x' : Search}

theorem exhausted_or_givesUp {h : Hunt} {front : List WorkItem} {item : WorkItem}
    {element : Descriptor} {data : Int} {left index : Nat}
    (hs : h.tally.isStopped s.bounds = false)
    (hf : (h.tally.budgetLeft s.bounds).any (· ≤ front.length + h.next.size)) :
    s.bounds.exhausted h.tally.explored ∨
      GivesUp s ⟨h, front, .nested item element data (left + 1) index⟩ := by
  obtain ⟨l, hb, hle⟩ := Tally.budgetLeft_any.1 hf
  cases hfree : l - h.tally.explored with
  | zero => exact .inl (Tally.exhausted_iff.2 ⟨l, hb, Nat.sub_eq_zero_iff_le.1 hfree⟩)
  | succ n =>
    rw [hfree] at hle
    exact .inr ⟨item, element, data, left, index, rfl, hs, n,
      Tally.budgetLeft_eq_some.2 ⟨l, hb, hfree⟩, hle⟩

theorem Step.limitHit (st : Step s owner x x') (hl : x'.hunt.tally.limitHit) :
    x.hunt.tally.limitHit ∨ s.bounds.exhausted x.hunt.tally.explored ∨ x.GivesUp s := by
  have spends {h h' : Hunt} {ok : Bool} (hp : h.spend s.bounds = (h', ok))
      (hl : h'.tally.limitHit) : h.tally.limitHit ∨ s.bounds.exhausted h.tally.explored := by
    rcases Hunt.spend_cases hp with ⟨-, -, rfl⟩ | ⟨-, hb, -⟩
    · exact .inl hl
    · exact .inr hb
  cases st with
  | refuse _ he | enter _ he =>
    rcases Scene.enter_cases he with ⟨-, -, rfl⟩ | ⟨-, -, -, rfl⟩ | ⟨-, -, hp⟩
    · exact .inl hl
    · exact .inl hl
    · exact (spends hp hl).imp_right .inl
  | keysLimit _ _ hp | keyMiss _ _ hp | keyHit _ _ hp => exact (spends hp hl).imp_right .inl
  | field | element | chunk => exact .inl (by simpa using hl)
  | fieldsDone | nest => exact .inl (by simpa using hl)
  | nestedFull hs hf => exact .inr (exhausted_or_givesUp hs hf)
  | _ => exact .inl hl

end Search

namespace Engine

variable {e e' : Engine}

def GivesUp (s : Scene) : Engine → Prop
  | .between _ _ => False
  | .within _ _ _ x _ => x.GivesUp s

/-- A container that waits is not entered, though tries are left and the variable has not come to
the threshold. -/
def Abandons (s : Scene) : Engine → Prop
  | .within _ _ _ ⟨h, item :: _, .waiting⟩ _ => (s.enter item h).2 = false ∧
      s.bounds.exhausted h.tally.explored = false ∧ s.bounds.thresholdReached h.tally.found = false
  | _ => False

/-- Where the limit is flagged, all tries are used. -/
def SpendsAll (s : Scene) (e : Engine) : Prop :=
  ∀ key, (e.tally key).limitHit → ∀ n ∈ s.bounds.limit, (e.tally key).explored = n

theorem spendsAll_start : SpendsAll s s.engineStart := by
  intro key hl
  cases hl

theorem SpendsAll.step (hs : e.SpendsAll s) (hr : s.Reaches e) (hg : ¬ e.GivesUp s)
    (st : Step s e e') : e'.SpendsAll s := by
  intro key hl n hn
  rcases st.tally_cases with ⟨-, ht⟩ | ⟨r, root, key', x, x', agenda, rfl, rfl, hst⟩
  · rw [ht] at hl ⊢
    exact hs key hl n hn
  · by_cases hk : key' = key
    · subst hk
      obtain ⟨ledger, hledger⟩ := Scene.logs_of_reaches hr
      have haccounts : s.Accounts ledger (.within r root key' x agenda) key' := hledger.accounts
      have hbelow := haccounts.limited n hn
      have hflag := hs key'
      rw [tally_within, if_pos rfl] at hl hbelow hflag ⊢
      have hspent : x.hunt.tally.explored = n := by
        rcases hst.limitHit hl with hl | hb | hgives
        · exact hflag hl n hn
        · obtain ⟨m, hm, hle⟩ := Tally.exhausted_iff.1 hb
          cases Option.mem_unique hn hm
          omega
        · exact absurd hgives hg
      have hb : s.bounds.exhausted x.hunt.tally.explored :=
        Tally.exhausted_iff.2 ⟨n, hn, by omega⟩
      -- The step uses no try, since none is left.
      rcases hst.use with ⟨-, he⟩ | ⟨-, -, -, hfree, -⟩
      · rw [he, hspent]
      · rw [hfree] at hb
        cases hb
    · have hother := hs key
      rw [tally_within, if_neg hk] at hl hother ⊢
      exact hother hl n hn

theorem not_spendsAll_of_givesUp (hg : e.GivesUp s) : ∃ e', Step s e e' ∧ ¬ e'.SpendsAll s := by
  cases e with
  | between r agenda => exact hg.elim
  | within r root key x agenda =>
    obtain ⟨h, front, activity⟩ := x
    obtain ⟨item, element, data, left, index, rfl, hs, n, hb, hlt⟩ := hg
    have hfull : (h.tally.budgetLeft s.bounds).any (· ≤ front.length + h.next.size) :=
      (Option.any_eq_true _ _).2 ⟨n + 1, hb, decide_eq_true hlt⟩
    -- The step that gives the array up sets the flag, and at least one try is left.
    refine ⟨_, .inside (.nestedFull hs hfull), fun hspends => ?_⟩
    obtain ⟨m, hm, hleft⟩ := Tally.budgetLeft_eq_some.1 hb
    have hspent := hspends key
    rw [tally_within, if_pos rfl] at hspent
    have hused : h.tally.explored = m := hspent rfl m hm
    dsimp only at hleft
    omega

theorem SpendsAll.not_abandons (hs : e.SpendsAll s) (hr : s.Reaches e) : ¬ e.Abandons s := by
  intro ha
  match e with
  | .within r root key ⟨h, item :: front, .waiting⟩ agenda =>
    obtain ⟨hrefused, hb, hf⟩ := ha
    have hflag := hs key
    rw [tally_within, if_pos rfl] at hflag
    rcases Scene.enter_cases (Prod.ext rfl hrefused : s.enter item h = (_, false)) with
      ⟨-, hok, -⟩ | ⟨-, hstop, -, -⟩ | ⟨-, -, hp⟩
    · cases hok
    · rw [Tally.isStopped, hf, Bool.or_false] at hstop
      cases hl : s.bounds.limit with
      | none =>
        -- Without a limit the flag is never set.
        have hquiet := withinLimit_of_reaches hl hr key h.tally
          (by rw [get?_tallies_within, if_pos rfl])
        rw [hstop] at hquiet
        cases hquiet
      | some n =>
        have hspent : h.tally.explored = n := hflag hstop n hl
        have hused : s.bounds.exhausted h.tally.explored :=
          Tally.exhausted_iff.2 ⟨n, hl, hspent.ge⟩
        rw [hb] at hused
        cases hused
    · rcases Hunt.spend_cases hp with ⟨hok, -, -⟩ | ⟨-, hused, -⟩
      · cases hok
      · rw [hb] at hused
        cases hused

end Engine

namespace Scene

theorem spendsAll_of_reaches {e : Engine} (hg : ∀ e, s.Reaches e → ¬ e.GivesUp s)
    (hr : s.Reaches e) : e.SpendsAll s := by
  induction hr with
  | refl => exact Engine.spendsAll_start
  | tail hr st ih => exact ih.step hr (hg _ hr) st

/-- A variable is stopped at the limit only when all its tries are used, and no container that waits
is abandoned before, exactly where no array is given up while tries are left. -/
theorem spendsAll_iff (s : Scene) : (∀ e, s.Reaches e → e.SpendsAll s ∧ ¬ e.Abandons s) ↔
    ∀ e, s.Reaches e → ¬ e.GivesUp s := by
  constructor
  · intro hs e hr hg
    obtain ⟨e', st, hn⟩ := Engine.not_spendsAll_of_givesUp hg
    exact hn (hs e' (hr.tail st)).1
  · intro hg e hr
    have hs := spendsAll_of_reaches hg hr
    exact ⟨hs, hs.not_abandons hr⟩

end Scene

namespace Descriptor

mutual
def hasPlainArrays : Descriptor → Bool
  | .mapping _ _ value => value.hasPlainArrays
  | .dynamicArray _ element => !element.hasContainers && element.hasPlainArrays
  | .staticArray _ _ element => element.hasPlainArrays
  | .struct _ members => allHavePlainArrays members
  | _ => true

def allHavePlainArrays : List Descriptor → Bool
  | [] => true
  | d :: rest => d.hasPlainArrays && allHavePlainArrays rest
end

theorem hasPlainArrays_of_mem {members : List Descriptor} {m : Descriptor}
    (h : allHavePlainArrays members) (hm : m ∈ members) : m.hasPlainArrays := by
  induction members with
  | nil => exact absurd hm List.not_mem_nil
  | cons d rest ih =>
    rw [allHavePlainArrays, Bool.and_eq_true] at h
    rcases List.mem_cons.1 hm with rfl | hm
    · exact h.1
    · exact ih h.2 hm

end Descriptor

namespace Scene

theorem Hop.hasPlainArrays {a b : Spot} {segment : Segment} (hop : s.Hop a segment b)
    (h : a.descriptor.hasPlainArrays) : b.descriptor.hasPlainArrays := by
  cases hop with
  | field hm =>
    rw [Descriptor.hasPlainArrays] at h
    exact Descriptor.hasPlainArrays_of_mem h hm
  | item => simpa [Descriptor.hasPlainArrays, Descriptor.spotAt] using h
  | element =>
    rw [Descriptor.hasPlainArrays, Bool.and_eq_true] at h
    exact h.2
  | key => simpa [Descriptor.hasPlainArrays] using h

theorem Walk.hasPlainArrays {a b : Spot} {path : Path} (hw : s.Walk a path b)
    (h : a.descriptor.hasPlainArrays) : b.descriptor.hasPlainArrays := by
  induction hw with
  | nil => exact h
  | cons hop _ ih => exact ih (hop.hasPlainArrays h)

theorem not_givesUp_of_hasPlainArrays {e : Engine}
    (hp : ∀ d ∈ s.layout.descriptors, d.hasPlainArrays) (hr : s.Reaches e) : ¬ e.GivesUp s := by
  intro hg
  cases e with
  | between r agenda => exact hg.elim
  | within r root key x agenda =>
    obtain ⟨item, element, data, left, index, ha, -⟩ := hg
    cases (Engine.traced_of_reaches hr).searches with
    | within hroot ht =>
      have hf := ht.activity
      rw [ha] at hf
      cases hf with
      | nested hi hc _ _ hn _ =>
        obtain ⟨place, offset, hw, -⟩ := hi
        have hplain : item.container.hasPlainArrays :=
          hw.hasPlainArrays (hp _ (Layout.mem_descriptors_of_root hroot))
        rw [hc, Descriptor.hasPlainArrays, hn] at hplain
        cases hplain

def crowdKey : Candidate := ⟨(Word.ofNat 7).bytes, .null, .null, .stack⟩

def crowdOwner : Int :=
  Slot.ofHash (crowdKey.raw ++ (Word.ofNat (Slot.ofHash (Word.ofNat 0).bytes + 1).toNat).bytes)

def crowd (count : Nat) : Scene where
  layout := ⟨[.dynamicArray ⟨.text "items", "t_array", .text "struct Item[]", 0, 0, 32⟩
    (.struct ⟨.text "", "t_struct", .text "struct Item", 0, 0, 64⟩
      [.primitive ⟨.text "id", "t_uint256", .text "uint256", 0, 0, 32⟩,
        .mapping ⟨.text "owners", "t_mapping", .text "mapping(uint256 => uint256)", 1, 0, 32⟩
          (.text "uint256") (.primitive ⟨.text "", "t_uint256", .text "uint256", 0, 0, 32⟩)])]⟩
  observed := Table.ofList [(0, ⟨Word.ofNat count, none⟩), (crowdOwner, ⟨Word.ofNat 5, none⟩)]
  candidates := [crowdKey]
  bounds := { Bounds.standard with limit := some 2 }
  lengths := .empty

/-- With a third item the search for the items is stopped before it uses one of its two tries, and
an owner of the first item is not found that is found among two items. -/
theorem crowd_stops_early :
    (∃ e, (crowd 3).Reaches e ∧ (e.tally (.text "items")).limitHit ∧
      (crowd 3).bounds.limit = some 2 ∧ (e.tally (.text "items")).explored = 0) ∧
    (∃ results, (crowd 2).run = .ok results ∧
      (results.map fun r => (r.1, r.2.map (·.kind))) = [(0, [.exact]), (crowdOwner, [.mapping])]) ∧
    ∃ results, (crowd 3).run = .ok results ∧
      (results.map fun r => (r.1, r.2.map (·.kind))) =
        [(0, [.exact]), (crowdOwner, [.unresolved])] := by
  obtain ⟨r, hp, ht⟩ : ∃ r, (crowd 3).passes = .ok r ∧
      r.tallies.get? (.text "items") = some ⟨0, 0, true, false⟩ :=
    exists_ok_of_toOption (by decide +kernel)
  have htally : (Engine.between r []).tally (.text "items") = ⟨0, 0, true, false⟩ := by
    rw [Engine.tally, Engine.run, Run.tally, ht]
    rfl
  refine ⟨⟨_, Engine.passes_steps hp, ?_, rfl, ?_⟩, exists_ok_of_toOption (by decide +kernel),
    exists_ok_of_toOption (by decide +kernel)⟩
  · rw [htally]
  · rw [htally]

end Scene

end SlotLens

import SlotLens.Candidate.Basic
import SlotLens.Proofs.Table
import Mathlib.Order.Bounds.Defs

/-!
# Ranking of candidates

A ranking holds one candidate for each byte string, the first of those of least rank. It ascends by
rank, and within a rank by where the byte strings first occur, which may be in front of the
candidates that are kept. There is one ranking of each list.
-/

namespace SlotLens.Candidate

variable {c d : Candidate} {cs kept out : List Candidate}

theorem rank_le : c.rank ≤ 2 := by
  rw [rank]
  split <;> decide

/-- The first of the candidates of least rank with the same bytes. -/
def IsBest (cs : List Candidate) (c : Candidate) : Prop :=
  ∃ before after, cs = before ++ c :: after ∧
    (∀ d ∈ before, d.raw = c.raw → c.rank < d.rank) ∧ ∀ d ∈ after, d.raw = c.raw → c.rank ≤ d.rank

/-- In front by rank or, within a rank, by the first candidate with the same bytes. -/
def Precedes (cs : List Candidate) (c d : Candidate) : Prop :=
  c.rank < d.rank ∨ c.rank = d.rank ∧ (cs.map raw).idxOf c.raw < (cs.map raw).idxOf d.raw

structure IsRanking (cs out : List Candidate) : Prop where
  nodup : (out.map raw).Nodup
  mem_raws : ∀ bytes, bytes ∈ out.map raw ↔ bytes ∈ cs.map raw
  best : ∀ c ∈ out, IsBest cs c
  order : out.Pairwise (Precedes cs)

theorem IsBest.mem (h : IsBest cs c) : c ∈ cs := by
  obtain ⟨before, after, rfl, -⟩ := h
  exact List.mem_append_right _ List.mem_cons_self

theorem IsBest.le (h : IsBest cs c) (hd : d ∈ cs) (hraw : d.raw = c.raw) : c.rank ≤ d.rank := by
  obtain ⟨before, after, rfl, hbefore, hafter⟩ := h
  rcases List.mem_append.1 hd with hd | hd
  · exact Nat.le_of_lt (hbefore d hd hraw)
  · rcases List.mem_cons.1 hd with rfl | hd
    · exact Nat.le_refl _
    · exact hafter d hd hraw

theorem isBest_concat : IsBest (cs ++ [d]) c ↔
    (IsBest cs c ∧ (d.raw = c.raw → c.rank ≤ d.rank)) ∨
      (c = d ∧ ∀ e ∈ cs, e.raw = d.raw → d.rank < e.rank) := by
  constructor
  · rintro ⟨before, after, hcs, hbefore, hafter⟩
    rcases List.eq_nil_or_concat after with rfl | ⟨after, last, rfl⟩
    · obtain ⟨rfl, hd⟩ := List.append_inj' hcs rfl
      obtain rfl : d = c := by simpa using hd
      exact .inr ⟨rfl, hbefore⟩
    · rw [List.concat_eq_append, ← List.cons_append, ← List.append_assoc] at hcs
      obtain ⟨rfl, hd⟩ := List.append_inj' hcs rfl
      obtain rfl : d = last := by simpa using hd
      rw [List.concat_eq_append, List.forall_mem_append, List.forall_mem_singleton] at hafter
      exact .inl ⟨⟨before, after, rfl, hbefore, hafter.1⟩, hafter.2⟩
  · rintro (⟨⟨before, after, rfl, hbefore, hafter⟩, hd⟩ | ⟨rfl, hcs⟩)
    · refine ⟨before, after ++ [d], by simp, hbefore, ?_⟩
      rw [List.forall_mem_append, List.forall_mem_singleton]
      exact ⟨hafter, hd⟩
    · exact ⟨cs, [], rfl, hcs, fun d hd => by cases hd⟩

theorem IsBest.unique (h : IsBest cs c) (h' : IsBest cs d) (hraw : c.raw = d.raw) : c = d := by
  induction cs using List.reverseRecOn with
  | nil => cases h.mem
  | append_singleton cs last ih =>
    rcases isBest_concat.1 h with ⟨hc, hlast⟩ | ⟨rfl, hbefore⟩ <;>
      rcases isBest_concat.1 h' with ⟨hd, hlast'⟩ | ⟨rfl, hbefore'⟩
    · exact ih hc hd
    · exact absurd (hlast hraw.symm) (Nat.not_le_of_lt (hbefore' c hc.mem hraw))
    · exact absurd (hlast' hraw) (Nat.not_le_of_lt (hbefore d hd.mem hraw.symm))
    · rfl

section Unique

theorem map_raw_offer : (offer c kept).map raw =
    if c.raw ∈ kept.map raw then kept.map raw else kept.map raw ++ [c.raw] := by
  induction kept with
  | nil => rfl
  | cons first kept ih =>
    rw [offer]
    split
    · next h =>
      have hraw : (if c.rank < first.rank then c else first).raw = first.raw := by
        split
        · exact h.symm
        · rfl
      rw [List.map_cons, hraw, ← h, List.map_cons, if_pos List.mem_cons_self]
    · next h =>
      simp only [List.map_cons, ih, List.mem_cons, Ne.symm h, false_or]
      split
      · rfl
      · rfl

theorem mem_offer (hn : (kept.map raw).Nodup) : c ∈ offer d kept ↔
    (c ∈ kept ∧ (d.raw = c.raw → c.rank ≤ d.rank)) ∨
      (c = d ∧ ∀ e ∈ kept, e.raw = d.raw → d.rank < e.rank) := by
  induction kept with
  | nil => simp [offer]
  | cons first kept ih =>
    rw [List.map_cons, List.nodup_cons] at hn
    rw [offer]
    split
    · next h =>
      have hrest : ∀ {e}, e ∈ kept → e.raw ≠ d.raw := fun he hraw =>
        hn.1 (List.mem_map.2 ⟨_, he, hraw.trans h.symm⟩)
      -- Nothing behind the one that is replaced has the same bytes.
      split
      · grind
      · grind
    · next h =>
      rw [List.mem_cons, ih hn.2]
      grind

theorem unique_concat : unique (cs ++ [d]) = offer d (unique cs) := by
  rw [unique, List.foldl_append, ← unique, List.foldl_cons, List.foldl_nil]

theorem map_raw_unique : (unique cs).map raw = (cs.map raw).eraseDups := by
  induction cs using List.reverseRecOn with
  | nil => rfl
  | append_singleton cs d ih =>
    simp only [unique_concat, map_raw_offer, ih, List.mem_eraseDups, List.map_append,
      List.map_singleton, eraseDups_concat]

theorem nodup_unique : ((unique cs).map raw).Nodup := map_raw_unique ▸ nodup_eraseDups

theorem mem_unique : c ∈ unique cs ↔ IsBest cs c := by
  induction cs using List.reverseRecOn generalizing c with
  | nil => exact ⟨fun h => (List.not_mem_nil h).elim, fun h => (List.not_mem_nil h.mem).elim⟩
  | append_singleton cs d ih =>
    -- A candidate is likelier than all with its bytes if it is likelier than the best of them.
    have hall : (∀ e ∈ unique cs, e.raw = d.raw → d.rank < e.rank) ↔
        ∀ e ∈ cs, e.raw = d.raw → d.rank < e.rank := by
      constructor
      · intro h e he hraw
        have hkept : e.raw ∈ (unique cs).map raw := by
          rw [map_raw_unique, List.mem_eraseDups]
          exact List.mem_map_of_mem he
        obtain ⟨b, hb, hbe⟩ := List.mem_map.1 hkept
        exact Nat.lt_of_lt_of_le (h b hb (hbe.trans hraw)) ((ih.1 hb).le he hbe.symm)
      · exact fun h e he => h e (ih.1 he).mem
    rw [unique_concat, mem_offer nodup_unique, isBest_concat, ih, hall]

theorem pairwise_unique : (unique cs).Pairwise fun c d =>
    (cs.map raw).idxOf c.raw < (cs.map raw).idxOf d.raw := by
  have h : (cs.map raw).eraseDups.Pairwise _ := pairwise_idxOf_eraseDups
  rwa [← map_raw_unique, List.pairwise_map] at h

end Unique

section Ranked

theorem mem_ranked : c ∈ ranked cs ↔ c ∈ unique cs := by
  have hrank : c.rank = 0 ∨ c.rank = 1 ∨ c.rank = 2 := by
    have := @rank_le c
    omega
  simp only [ranked, List.mem_append, List.mem_filter, decide_eq_true_eq, ← and_or_left, or_assoc,
    and_iff_left hrank]

theorem order_ranked : (ranked cs).Pairwise (Precedes cs) := by
  have hsame : ∀ n, ((unique cs).filter (·.rank = n)).Pairwise (Precedes cs) := by
    intro n
    refine (pairwise_unique.sublist List.filter_sublist).imp_of_mem fun hc hd h => .inr ⟨?_, h⟩
    rw [of_decide_eq_true (List.mem_filter.1 hc).2, of_decide_eq_true (List.mem_filter.1 hd).2]
  have hacross : ∀ {m n}, m < n → ∀ c ∈ (unique cs).filter (·.rank = m),
      ∀ d ∈ (unique cs).filter (·.rank = n), Precedes cs c d := by
    intro m n hlt c hc d hd
    left
    rwa [of_decide_eq_true (List.mem_filter.1 hc).2, of_decide_eq_true (List.mem_filter.1 hd).2]
  refine List.pairwise_append.2 ⟨?_, hsame 2, fun c hc => ?_⟩
  · exact List.pairwise_append.2 ⟨hsame 0, hsame 1, hacross (by decide)⟩
  · rcases List.mem_append.1 hc with hc | hc
    · exact hacross (by decide) c hc
    · exact hacross (by decide) c hc

end Ranked

theorem Precedes.ne (h : Precedes cs c d) : c ≠ d := by
  rintro rfl
  rcases h with h | ⟨-, h⟩
  · exact Nat.lt_irrefl _ h
  · exact Nat.lt_irrefl _ h

theorem isRanking_ranked : IsRanking cs (ranked cs) where
  nodup := by
    -- Two candidates that are kept differ, and the best one with given bytes is determined.
    rw [List.Nodup, List.pairwise_map]
    refine order_ranked.imp_of_mem fun hc hd h hraw => h.ne ?_
    exact (mem_unique.1 (mem_ranked.1 hc)).unique (mem_unique.1 (mem_ranked.1 hd)) hraw
  mem_raws bytes := by
    rw [← List.mem_eraseDups (l := cs.map raw), ← map_raw_unique]
    simp only [List.mem_map, mem_ranked]
  best _ hc := mem_unique.1 (mem_ranked.1 hc)
  order := order_ranked

section Ranking

variable {out' cs' : List Candidate}

theorem IsRanking.mem_iff (h : IsRanking cs out) : c ∈ out ↔ IsBest cs c := by
  refine ⟨h.best c, fun hc => ?_⟩
  obtain ⟨d, hd, hraw⟩ := List.mem_map.1 ((h.mem_raws _).2 (List.mem_map_of_mem hc.mem))
  exact (h.best d hd).unique hc hraw ▸ hd

theorem IsRanking.unique (h : IsRanking cs out) (h' : IsRanking cs out') : out = out' := by
  have hperm : out.Perm out' := by
    refine (List.perm_ext_iff_of_nodup (.of_map _ h.nodup) (.of_map _ h'.nodup)).2 fun c => ?_
    rw [h.mem_iff, h'.mem_iff]
  refine hperm.eq_of_pairwise ?_ h.order h'.order
  intro c d _ _ hlt hgt
  unfold Precedes at hlt hgt
  omega

theorem IsRanking.self (h : IsRanking cs out) : IsRanking out out where
  nodup := h.nodup
  mem_raws _ := Iff.rfl
  best c hc := by
    obtain ⟨before, after, rfl⟩ := List.append_of_mem hc
    have hn := h.nodup
    rw [List.map_append, List.map_cons, List.nodup_middle, List.nodup_cons, ← List.map_append] at hn
    have hother : ∀ d ∈ before ++ after, d.raw ≠ c.raw := fun d hd hraw =>
      hn.1 (List.mem_map.2 ⟨d, hd, hraw⟩)
    exact ⟨before, after, rfl,
      fun d hd hraw => absurd hraw (hother d (List.mem_append_left _ hd)),
      fun d hd hraw => absurd hraw (hother d (List.mem_append_right _ hd))⟩
  order := by
    refine (h.order.and (List.pairwise_map.1 (pairwise_idxOf_of_nodup h.nodup))).imp fun h => ?_
    rcases h with ⟨hlt | ⟨heq, -⟩, hidx⟩
    · exact .inl hlt
    · exact .inr ⟨heq, hidx⟩

theorem IsRanking.mem_ranks (h : IsRanking cs out) {bytes : List UInt8} {n : Nat} :
    (bytes, n) ∈ out.map (fun c => (c.raw, c.rank)) ↔
      IsLeast {n | ∃ c ∈ cs, c.raw = bytes ∧ c.rank = n} n := by
  simp only [List.mem_map, Prod.mk.injEq]
  constructor
  · rintro ⟨c, hc, rfl, rfl⟩
    have hbest := h.best c hc
    refine ⟨⟨c, hbest.mem, rfl, rfl⟩, ?_⟩
    rintro _ ⟨d, hd, hraw, rfl⟩
    exact hbest.le hd hraw
  · rintro ⟨⟨c, hc, rfl, rfl⟩, hleast⟩
    obtain ⟨d, hd, hraw⟩ := List.mem_map.1 ((h.mem_raws _).2 (List.mem_map_of_mem hc))
    have hbest := h.best d hd
    exact ⟨d, hd, hraw, Nat.le_antisymm (hbest.le hc hraw.symm)
      (hleast ⟨d, hbest.mem, hraw, rfl⟩)⟩

theorem IsRanking.perm_ranks (h : IsRanking cs out) (h' : IsRanking cs' out')
    (hperm : cs.Perm cs') : (out.map fun c => (c.raw, c.rank)).Perm
      (out'.map fun c => (c.raw, c.rank)) := by
  have hnodup : ∀ {cs out}, IsRanking cs out → (out.map fun c => (c.raw, c.rank)).Nodup := by
    intro cs out h
    refine List.Nodup.of_map Prod.fst ?_
    rw [List.map_map]
    exact h.nodup
  refine (List.perm_ext_iff_of_nodup (hnodup h) (hnodup h')).2 fun ⟨bytes, n⟩ => ?_
  rw [h.mem_ranks, h'.mem_ranks]
  simp only [hperm.mem_iff]

end Ranking

/-- Ranking a list gives its only ranking. Ranking once more changes nothing, and the order of the
list matters neither for the byte strings nor for their ranks. -/
theorem isRanking_iff_eq_ranked (cs : List Candidate) :
    (∀ out, IsRanking cs out ↔ out = ranked cs) ∧ ranked (ranked cs) = ranked cs ∧
      ∀ cs', cs.Perm cs' → ((ranked cs).map fun c => (c.raw, c.rank)).Perm
        ((ranked cs').map fun c => (c.raw, c.rank)) := by
  have hranked := @isRanking_ranked
  refine ⟨fun out => ⟨fun h => h.unique hranked, fun h => h ▸ hranked⟩, ?_, fun cs' hperm => ?_⟩
  · exact hranked.unique hranked.self
  · exact hranked.perm_ranks hranked hperm

theorem isRanking_of_late_argument :
    let found (raw : UInt8) : Candidate := ⟨[raw], .null, .null, .stack⟩
    let passed (raw : UInt8) : Candidate := ⟨[raw], .int 0, .text "uint8", .argument⟩
    IsRanking [found 1, passed 2, passed 1] [passed 1, passed 2] ∧
      ranked [passed 1, passed 2] = [passed 1, passed 2] ∧
      [found 1, passed 2, passed 1].Perm [passed 2, found 1, passed 1] ∧
      ((ranked [found 1, passed 2, passed 1]).map fun c => (c.raw, c.rank)).Perm
        ((ranked [passed 2, found 1, passed 1]).map fun c => (c.raw, c.rank)) := by
  intro found passed
  obtain ⟨hiff, hagain, hperm⟩ := isRanking_iff_eq_ranked [found 1, passed 2, passed 1]
  have hswap : [found 1, passed 2, passed 1].Perm [passed 2, found 1, passed 1] := .swap ..
  exact ⟨(hiff _).2 rfl, hagain, hswap, hperm _ hswap⟩

end SlotLens.Candidate

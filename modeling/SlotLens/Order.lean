namespace SlotLens

variable {α : Type}

def insertBy (key : α → Int) (a : α) : List α → List α
  | [] => [a]
  | b :: rest => if key a < key b then a :: b :: rest else b :: insertBy key a rest

def sortBy (key : α → Int) (items : List α) : List α :=
  items.foldl (fun sorted a => insertBy key a sorted) []

theorem perm_insertBy (key : α → Int) (a : α) (items : List α) :
    (insertBy key a items).Perm (a :: items) := by
  induction items with
  | nil => exact .refl _
  | cons b rest ih =>
    rw [insertBy]
    split
    · exact .refl _
    · exact (ih.cons b).trans (.swap _ _ _)

theorem sorted_insertBy (key : α → Int) (a : α) {items : List α}
    (h : items.Pairwise fun x y => key x ≤ key y) :
    (insertBy key a items).Pairwise fun x y => key x ≤ key y := by
  induction items with
  | nil => simp [insertBy]
  | cons b rest ih =>
    rw [List.pairwise_cons] at h
    rw [insertBy]
    split
    · rename_i hab
      refine List.pairwise_cons.2 ⟨fun c hc => ?_, List.pairwise_cons.2 h⟩
      rcases List.mem_cons.1 hc with rfl | hc
      · omega
      · have := h.1 c hc; omega
    · rename_i hab
      refine List.pairwise_cons.2 ⟨fun c hc => ?_, ih h.2⟩
      rcases List.mem_cons.1 ((perm_insertBy key a rest).mem_iff.1 hc) with rfl | hc
      · omega
      · exact h.1 c hc

theorem perm_sortBy (key : α → Int) (items : List α) : (sortBy key items).Perm items := by
  suffices h : ∀ sorted, (items.foldl (fun s a => insertBy key a s) sorted).Perm
      (items ++ sorted) by simpa [sortBy] using h []
  induction items with
  | nil => intro sorted; exact .refl _
  | cons a rest ih =>
    intro sorted
    refine (ih _).trans ?_
    refine (List.Perm.append_left rest (perm_insertBy key a sorted)).trans ?_
    exact List.perm_middle

theorem sorted_sortBy (key : α → Int) (items : List α) :
    (sortBy key items).Pairwise fun x y => key x ≤ key y := by
  suffices h : ∀ sorted : List α, sorted.Pairwise (fun x y => key x ≤ key y) →
      (items.foldl (fun s a => insertBy key a s) sorted).Pairwise fun x y => key x ≤ key y from
    h [] .nil
  induction items with
  | nil => intro sorted h; exact h
  | cons a rest ih => intro sorted h; exact ih _ (sorted_insertBy key a h)

theorem insertBy_of_le (key : α → Int) (a : α) {items : List α} (h : ∀ b ∈ items, key b ≤ key a) :
    insertBy key a items = items ++ [a] := by
  induction items with
  | nil => rfl
  | cons b rest ih =>
    have := h b (by simp)
    rw [insertBy, if_neg (by omega), ih fun c hc => h c (by simp [hc])]
    rfl

theorem sortBy_of_sorted (key : α → Int) {items : List α}
    (h : items.Pairwise fun x y => key x ≤ key y) : sortBy key items = items := by
  suffices hs : ∀ sorted : List α, (sorted ++ items).Pairwise (fun x y => key x ≤ key y) →
      items.foldl (fun s a => insertBy key a s) sorted = sorted ++ items from hs [] h
  induction items with
  | nil => intro sorted _; simp
  | cons a rest ih =>
    intro sorted hs
    rw [List.foldl_cons, insertBy_of_le key a fun b hb => (List.pairwise_append.1 hs).2.2 b hb a
      (by simp), ih (List.pairwise_cons.1 h).2 _ (by simpa using hs)]
    simp

end SlotLens

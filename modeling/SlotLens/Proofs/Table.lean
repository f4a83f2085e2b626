import SlotLens.Order
import SlotLens.Table
import Mathlib.Data.List.Induction
import Mathlib.Data.List.Nodup
import Mathlib.Data.List.Perm.Basic

namespace SlotLens

variable {κ β α : Type} [DecidableEq κ]

theorem Entries.mem_of_find? {k : κ} {v : β} {t : List (κ × β)} (h : Entries.find? k t = some v) :
    (k, v) ∈ t := by
  induction t with
  | nil => cases h
  | cons e t ih =>
    rw [Entries.find?] at h
    split at h
    · next hk =>
      cases h
      exact hk ▸ List.mem_cons_self
    · exact List.mem_cons_of_mem _ (ih h)

theorem Entries.find?_eq_some {k : κ} {v : β} {t : List (κ × β)} (h : (t.map Prod.fst).Nodup) :
    Entries.find? k t = some v ↔ (k, v) ∈ t := by
  induction t with
  | nil => simp [Entries.find?]
  | cons e t ih =>
    obtain ⟨k', v'⟩ := e
    rw [List.map_cons, List.nodup_cons] at h
    by_cases hk : k' = k
    · subst hk
      have hn : (k', v) ∉ t := fun hm => h.1 (List.mem_map.2 ⟨_, hm, rfl⟩)
      simp [Entries.find?, hn, eq_comm]
    · simp [Entries.find?, hk, ih h.2, Ne.symm hk]

section Put

variable {k j : κ} {v : β} {t : List (κ × β)}

theorem Entries.filter_put_of_ne (h : j ≠ k) :
    (put j v t).filter (·.1 ≠ k) = put j v (t.filter (·.1 ≠ k)) := by
  induction t with
  | nil => simp [put, h]
  | cons e t ih =>
    obtain ⟨k', v'⟩ := e
    by_cases hj : k' = j
    · subst hj
      simp [put, h]
    · rw [put, if_neg hj]
      by_cases hk : k' = k
      · simpa [hk] using ih
      · simpa [put, hj, hk] using ih

theorem Entries.filter_put_self : (put k v t).filter (·.1 ≠ k) = t.filter (·.1 ≠ k) := by
  induction t with
  | nil => simp [put]
  | cons e t ih =>
    obtain ⟨k', v'⟩ := e
    by_cases hk : k' = k
    · simp [put, hk]
    · simpa [put, hk] using ih

theorem Entries.put_of_not_mem (h : k ∉ t.map Prod.fst) : put k v t = t ++ [(k, v)] := by
  induction t with
  | nil => rfl
  | cons e t ih =>
    rw [List.map_cons, List.mem_cons, not_or] at h
    rw [put, if_neg (Ne.symm h.1), ih h.2, List.cons_append]

theorem Entries.mem_put {e : κ × β} (h : e ∈ put k v t) : e = (k, v) ∨ e ∈ t := by
  induction t with
  | nil => exact .inl (List.mem_singleton.1 h)
  | cons first t ih =>
    rw [put] at h
    split at h
    · exact (List.mem_cons.1 h).imp_right (List.mem_cons_of_mem _)
    · rcases List.mem_cons.1 h with rfl | h
      · exact .inr List.mem_cons_self
      · exact (ih h).imp_right (List.mem_cons_of_mem _)

theorem Entries.mem_ofList {e : κ × β} (h : e ∈ ofList t) : e ∈ t := by
  suffices hs : ∀ found : List (κ × β),
      e ∈ t.foldl (fun found e => put e.1 e.2 found) found → e ∈ found ∨ e ∈ t by
    simpa using hs [] h
  clear h
  induction t with
  | nil => exact fun found hm => .inl hm
  | cons first t ih =>
    intro found hm
    rcases ih _ hm with hm | hm
    · exact (mem_put hm).elim (fun he => .inr (he ▸ List.mem_cons_self)) .inl
    · exact .inr (List.mem_cons_of_mem _ hm)

theorem Entries.ofList_of_nodup (h : (t.map Prod.fst).Nodup) : ofList t = t := by
  suffices hs : ∀ found : List (κ × β), ((found ++ t).map Prod.fst).Nodup →
      t.foldl (fun found e => put e.1 e.2 found) found = found ++ t from hs [] h
  clear h
  induction t with
  | nil => intro found _; simp
  | cons e t ih =>
    intro found hs
    have hnew : e.1 ∉ found.map Prod.fst := by
      rw [List.map_append, List.map_cons, List.nodup_append] at hs
      exact fun hm => hs.2.2 _ hm _ List.mem_cons_self rfl
    rw [List.foldl_cons, put_of_not_mem hnew, ih _ (by simpa using hs)]
    simp

end Put

namespace Table

variable {t : Table κ β} {k j : κ} {v : β}

theorem erase_insert_of_ne (h : j ≠ k) : (t.insert j v).erase k = (t.erase k).insert j v := by
  simp only [erase, insert, mk.injEq]
  exact Entries.filter_put_of_ne h

theorem erase_insert_self : (t.insert k v).erase k = t.erase k := by
  simp only [erase, insert, mk.injEq]
  exact Entries.filter_put_self

theorem get?_eq_some : t.get? k = some v ↔ (k, v) ∈ t.entries := Entries.find?_eq_some t.nodup

theorem mem_keys : k ∈ t.keys ↔ ∃ v, t.get? k = some v := by
  simp [keys, get?_eq_some]

theorem get?_eq_none : t.get? k = none ↔ k ∉ t.keys := by
  rw [mem_keys, Option.eq_none_iff_forall_not_mem]
  simp

theorem get?_of_perm {t' : Table κ β} (h : t.entries.Perm t'.entries) (k : κ) :
    t.get? k = t'.get? k := by
  refine Option.ext fun v => ?_
  rw [get?_eq_some, get?_eq_some]
  exact h.mem_iff

section InsertAll

variable {entries : List (κ × β)}

theorem get?_insertAll_of_not_mem (h : k ∉ entries.map Prod.fst) :
    (t.insertAll entries).get? k = t.get? k := by
  induction entries generalizing t with
  | nil => rfl
  | cons e entries ih =>
    rw [List.map_cons, List.mem_cons, not_or] at h
    rw [insertAll, List.foldl_cons, ← insertAll, ih h.2, get?_insert, if_neg (Ne.symm h.1)]

theorem get?_ofList {front back : List (κ × β)} (h : k ∉ back.map Prod.fst) :
    (ofList (front ++ (k, v) :: back)).get? k = some v := by
  have hsplit : ofList (front ++ (k, v) :: back) = ((ofList front).insert k v).insertAll back := by
    rw [ofList, insertAll, List.foldl_append, List.foldl_cons]
    rfl
  rw [hsplit, get?_insertAll_of_not_mem h, get?_insert, if_pos rfl]

end InsertAll

end Table

section FirstOccurrences

variable {ι : Type} [BEq ι] [LawfulBEq ι] {k : ι} {keys : List ι}

theorem eraseDups_concat : (keys ++ [k]).eraseDups =
    if k ∈ keys then keys.eraseDups else keys.eraseDups ++ [k] := by
  rw [List.eraseDups_append]
  split
  · next hk => simp [List.removeAll, hk]
  · next hk => simp [List.removeAll, List.eraseDups_cons, hk]

theorem pairwise_idxOf_eraseDups :
    keys.eraseDups.Pairwise fun j k => keys.idxOf j < keys.idxOf k := by
  induction keys using List.reverseRecOn with
  | nil => exact List.Pairwise.nil
  | append_singleton keys k ih =>
    have hfront : ∀ {j}, j ∈ keys → (keys ++ [k]).idxOf j = keys.idxOf j :=
      fun hj => List.idxOf_append_of_mem hj
    have hkept : keys.eraseDups.Pairwise fun i j => (keys ++ [k]).idxOf i < (keys ++ [k]).idxOf j := by
      refine ih.imp_of_mem fun hi hj h => ?_
      rwa [hfront (List.mem_eraseDups.1 hi), hfront (List.mem_eraseDups.1 hj)]
    rw [eraseDups_concat]
    split
    · exact hkept
    · next hk =>
      refine List.pairwise_append.2 ⟨hkept, List.pairwise_singleton _ _, fun j hj last hlast => ?_⟩
      rw [List.mem_singleton.1 hlast, hfront (List.mem_eraseDups.1 hj),
        List.idxOf_append_of_notMem hk]
      exact Nat.lt_add_right _ (List.idxOf_lt_length_iff.2 (List.mem_eraseDups.1 hj))

theorem nodup_eraseDups : keys.eraseDups.Nodup :=
  pairwise_idxOf_eraseDups.imp fun h => ne_of_apply_ne (keys.idxOf ·) (Nat.ne_of_lt h)

theorem pairwise_idxOf_of_nodup (h : keys.Nodup) :
    keys.Pairwise fun j k => keys.idxOf j < keys.idxOf k := by
  refine List.pairwise_iff_getElem.2 fun i j hi hj hlt => ?_
  rwa [h.idxOf_getElem, h.idxOf_getElem]

end FirstOccurrences

section OfList

variable {entries front back : List (κ × β)} {k : κ} {v : β}

theorem Table.ofList_concat {e : κ × β} :
    ofList (entries ++ [e]) = (ofList entries).insert e.1 e.2 := by
  rw [ofList, insertAll, List.foldl_append]
  rfl

theorem Table.keys_ofList : (ofList entries).keys = (entries.map Prod.fst).eraseDups := by
  induction entries using List.reverseRecOn with
  | nil => rfl
  | append_singleton entries e ih =>
    rw [ofList_concat, keys_insert, ih, List.map_append, List.map_singleton, eraseDups_concat]
    simp only [List.mem_eraseDups]

theorem Table.entries_ofList : (ofList entries).entries = Entries.ofList entries := by
  induction entries using List.reverseRecOn with
  | nil => rfl
  | append_singleton entries e ih =>
    rw [ofList_concat, Entries.ofList, List.foldl_append, ← Entries.ofList, ← ih]
    rfl

theorem Entries.find?_ofList {p : κ → Bool} (hk : p k = true)
    (hothers : ∀ e ∈ front ++ back, p e.1 = false) :
    (ofList (front ++ (k, v) :: back)).find? (fun e => p e.1) = some (k, v) := by
  have hback : k ∉ back.map Prod.fst := by
    intro hm
    obtain ⟨e, he, rfl⟩ := List.mem_map.1 hm
    cases (hothers e (List.mem_append_right _ he)).symm.trans hk
  have hmem : (k, v) ∈ ofList (front ++ (k, v) :: back) := by
    rw [← Table.entries_ofList, ← Table.get?_eq_some]
    exact Table.get?_ofList hback
  cases hfound : (ofList (front ++ (k, v) :: back)).find? (fun e => p e.1) with
  | none => exact absurd hk (List.find?_eq_none.1 hfound _ hmem)
  | some e =>
    have hp := List.find?_some hfound
    rcases List.mem_append.1 (mem_ofList (List.mem_of_find?_eq_some hfound)) with he | he
    · cases (hothers e (List.mem_append_left _ he)).symm.trans hp
    · rcases List.mem_cons.1 he with rfl | he
      · rfl
      · cases (hothers e (List.mem_append_right _ he)).symm.trans hp

end OfList

theorem Table.mem_keys_ofList {entries : List (κ × β)} {k : κ} :
    k ∈ (ofList entries).keys ↔ k ∈ entries.map Prod.fst := by
  rw [keys_ofList, List.mem_eraseDups]

theorem pairwise_lt_of_nodup {key : α → Int} {items : List α} (hn : (items.map key).Nodup)
    (hs : items.Pairwise fun a b => key a ≤ key b) : (items.map key).Pairwise (· < ·) := by
  rw [List.pairwise_map]
  refine (hs.and (List.pairwise_map.1 hn)).imp fun h => ?_
  exact Int.lt_iff_le_and_ne.2 h

theorem eq_of_pairwise_lt {key : α → Int} {items others : List α}
    (h : (items.map key).Pairwise (· < ·)) (h' : (others.map key).Pairwise (· < ·))
    (hm : ∀ a, a ∈ items ↔ a ∈ others) : items = others := by
  have hn : items.Nodup := List.Nodup.of_map key (h.imp Int.ne_of_lt)
  have hn' : others.Nodup := List.Nodup.of_map key (h'.imp Int.ne_of_lt)
  rw [List.pairwise_map] at h h'
  refine ((List.perm_ext_iff_of_nodup hn hn').2 hm).eq_of_pairwise ?_ h h'
  intro a b _ _ hlt hgt
  exact absurd hlt (by omega)

theorem sortBy_of_perm {key : α → Int} {items others : List α} (hn : (items.map key).Nodup)
    (h : items.Perm others) : sortBy key items = sortBy key others := by
  have hp := perm_sortBy key items
  have hp' := perm_sortBy key others
  have hn' := ((hp'.trans h.symm).map key).nodup_iff.2 hn
  have hlt := pairwise_lt_of_nodup ((hp.map key).nodup_iff.2 hn) (sorted_sortBy key items)
  refine eq_of_pairwise_lt hlt (pairwise_lt_of_nodup hn' (sorted_sortBy key others)) fun a => ?_
  rw [hp.mem_iff, hp'.mem_iff, h.mem_iff]

theorem sortBy_append_sortBy (key : α → Int) (items others : List α) :
    sortBy key (sortBy key items ++ others) = sortBy key (items ++ others) := by
  have h : sortBy key (sortBy key items) = sortBy key items :=
    sortBy_of_sorted key (sorted_sortBy key items)
  rw [sortBy, List.foldl_append, ← sortBy, h, sortBy, ← List.foldl_append, ← sortBy]

theorem sortBy_eq_nil {key : α → Int} {items : List α} : sortBy key items = [] ↔ items = [] := by
  have h := perm_sortBy key items
  constructor
  · intro he
    rw [he] at h
    exact h.nil_eq.symm
  · rintro rfl
    rfl

theorem insertBy_map {key : β → Int} {f : α → β} {a : α} {items : List α} :
    insertBy key (f a) (items.map f) = (insertBy (fun a => key (f a)) a items).map f := by
  induction items with
  | nil => rfl
  | cons b items ih =>
    rw [List.map_cons, insertBy, insertBy]
    split
    · rfl
    · rw [ih, List.map_cons]

theorem sortBy_map {key : β → Int} {f : α → β} {items : List α} :
    sortBy key (items.map f) = (sortBy (fun a => key (f a)) items).map f := by
  suffices h : ∀ sorted : List α, (items.map f).foldl (fun sorted b => insertBy key b sorted)
      (sorted.map f) = (items.foldl (fun sorted a => insertBy (fun a => key (f a)) a sorted)
        sorted).map f from h []
  induction items with
  | nil => exact fun _ => rfl
  | cons a items ih =>
    intro sorted
    rw [List.map_cons, List.foldl_cons, insertBy_map, ih, List.foldl_cons]

end SlotLens

import ThreeAddress.Table

/-!
# What is in a table

The laws of `Table` that the proofs about functions use: membership in terms of `get?`, the view of
each operation, and tables built from lists with distinct keys.
-/

namespace ThreeAddress

namespace Table

variable {α β γ : Type}

theorem ext_entries {s t : Table α β} (h : s.entries = t.entries) : s = t := by
  cases s
  cases t
  cases h
  rfl

variable [DecidableEq α]

/-! ## Membership -/

theorem find_eq_some_of_mem {k : α} {v : β} {l : List (α × β)} (nodup : (l.map Prod.fst).Nodup)
    (h : (k, v) ∈ l) : find k l = some v := by
  induction l with
  | nil => cases h
  | cons e rest ih =>
    obtain ⟨k', v'⟩ := e
    simp only [List.map_cons, List.nodup_cons] at nodup
    rcases List.mem_cons.1 h with he | hr
    · cases he
      simp [find]
    · have hne : k' ≠ k := by
        rintro rfl
        exact nodup.1 (List.mem_map_of_mem hr)
      simp [find, hne, ih nodup.2 hr]

theorem mem_of_find_eq_some {k : α} {v : β} {l : List (α × β)} (h : find k l = some v) :
    (k, v) ∈ l := by
  induction l with
  | nil => cases h
  | cons e rest ih =>
    obtain ⟨k', v'⟩ := e
    simp only [find] at h
    split at h
    · rename_i hk
      cases h
      subst hk
      exact .head _
    · exact .tail _ (ih h)

theorem get?_eq_some_iff {t : Table α β} {k : α} {v : β} : t.get? k = some v ↔ (k, v) ∈ t.entries :=
  ⟨mem_of_find_eq_some, find_eq_some_of_mem t.nodup⟩

theorem mem_iff_get? {t : Table α β} {k : α} : k ∈ t ↔ ∃ v, t.get? k = some v := by
  cases h : t.get? k with
  | none => simp [get?_eq_none_iff.1 h]
  | some v =>
    have hk : k ∈ t.keys := List.mem_map_of_mem (f := Prod.fst) (get?_eq_some_iff.1 h)
    simp [mem_iff, hk]

theorem mem_of_get? {t : Table α β} {k : α} {v : β} (h : t.get? k = some v) : k ∈ t :=
  mem_iff_get?.2 ⟨v, h⟩

theorem mem_values {t : Table α β} {v : β} : v ∈ t.values ↔ ∃ k, t.get? k = some v := by
  constructor
  · intro h
    obtain ⟨⟨k, v'⟩, he, rfl⟩ := List.mem_map.1 h
    exact ⟨k, get?_eq_some_iff.2 he⟩
  · rintro ⟨k, h⟩
    exact List.mem_map_of_mem (f := Prod.snd) (get?_eq_some_iff.1 h)

/-- Values that know their keys. -/
theorem map_values {t : Table α β} {key : β → α} (h : ∀ {k v}, t.get? k = some v → key v = k) :
    t.values.map key = t.keys := by
  unfold values keys
  rw [List.map_map]
  exact List.map_congr_left fun e he => h (get?_eq_some_iff.2 he)

theorem getD_of_get? {t : Table α β} {k : α} {v d : β} (h : t.get? k = some v) :
    t.getD k d = v := by
  rw [getD, h]
  rfl

theorem getD_of_not_mem {t : Table α β} {k : α} {d : β} (h : k ∉ t) : t.getD k d = d := by
  rw [getD, get?_eq_none_iff.2 h]
  rfl

theorem getD_insert (t : Table α β) (k k' : α) (v d : β) :
    (t.insert k v).getD k' d = if k' = k then v else t.getD k' d := by
  rw [getD, get?_insert]
  split
  · rfl
  · rfl

theorem mem_insert {t : Table α β} {k k' : α} {v : β} : k' ∈ t.insert k v ↔ k' = k ∨ k' ∈ t := by
  rw [mem_iff_get?, mem_iff_get?, get?_insert]
  by_cases h : k' = k
  · simp [h]
  · simp [h]

/-! ## The view of each operation -/

theorem find_filter {k : α} {p : α → β → Bool} {l : List (α × β)} (nodup : (l.map Prod.fst).Nodup) :
    find k (l.filter fun e => p e.1 e.2) = (find k l).filter (p k) := by
  induction l with
  | nil => rfl
  | cons e rest ih =>
    obtain ⟨k', v⟩ := e
    simp only [List.map_cons, List.nodup_cons] at nodup
    have ih := ih nodup.2
    by_cases hk : k' = k
    · subst hk
      have hnone : find k' rest = none := find_eq_none_iff.2 nodup.1
      by_cases hp : p k' v = true
      · simp [hp, find, Option.filter]
      · simp [hp, find, ih, hnone, Option.filter]
    · by_cases hp : p k' v = true
      · simp [hp, find, hk, ih]
      · simp [hp, find, hk, ih]

theorem get?_filter (t : Table α β) (p : α → β → Bool) (k : α) :
    (t.filter p).get? k = (t.get? k).filter (p k) := find_filter t.nodup

omit [DecidableEq α] in
theorem keys_filter (t : Table α β) (p : α → Bool) :
    (t.filter fun k _ => p k).keys = t.keys.filter p := by
  simp [keys, filter, List.filter_map, Function.comp_def]

theorem get?_erase (t : Table α β) (k k' : α) :
    (t.erase k).get? k' = if k' = k then none else t.get? k' := by
  rw [erase, get?_filter]
  by_cases h : k' = k
  · subst h
    cases t.get? k' <;> simp
  · cases t.get? k' <;> simp [h]

omit [DecidableEq α] in
theorem mem_mapValues {t : Table α β} {f : α → β → γ} {k : α} : k ∈ t.mapValues f ↔ k ∈ t := by
  rw [mem_iff, mem_iff, keys_mapValues]

theorem mem_modify {t : Table α β} {k k' : α} {f : β → β} : k' ∈ t.modify k f ↔ k' ∈ t :=
  mem_mapValues

theorem find_putBefore {before k : α} {v : β} {l : List (α × β)} (fresh : k ∉ l.map Prod.fst)
    (k' : α) : find k' (putBefore before k v l) = if k' = k then some v else find k' l := by
  induction l with
  | nil =>
    by_cases h : k' = k
    · simp [putBefore, find, h]
    · simp [putBefore, find, h, Ne.symm h]
  | cons e rest ih =>
    obtain ⟨k₁, v₁⟩ := e
    simp only [List.map_cons, List.mem_cons, not_or] at fresh
    by_cases hb : k₁ = before
    · by_cases h : k' = k
      · simp [putBefore, hb, find, h]
      · simp [putBefore, hb, find, h, Ne.symm h]
    · by_cases h₁ : k₁ = k'
      · subst h₁
        simp [putBefore, hb, find, Ne.symm fresh.1]
      · simp [putBefore, hb, find, h₁, ih fresh.2]

theorem get?_insertBefore {t : Table α β} {k : α} (fresh : k ∉ t) (before : α) (v : β) (k' : α) :
    (t.insertBefore before k v).get? k' = if k' = k then some v else t.get? k' := by
  have fresh' : k ∉ t.entries.map Prod.fst := fresh
  unfold insertBefore
  rw [dif_neg fresh']
  exact find_putBefore fresh' k'

theorem putBefore_perm (before k : α) (v : β) (l : List (α × β)) :
    (putBefore before k v l).Perm ((k, v) :: l) := by
  induction l with
  | nil => exact .refl _
  | cons e rest ih =>
    rw [putBefore]
    split
    · exact .refl _
    · exact (ih.cons e).trans (.swap _ _ _)

theorem insertBefore_perm {t : Table α β} {k : α} (fresh : k ∉ t) (before : α) (v : β) :
    (t.insertBefore before k v).entries.Perm ((k, v) :: t.entries) := by
  have fresh' : k ∉ t.entries.map Prod.fst := fresh
  unfold insertBefore
  rw [dif_neg fresh']
  exact putBefore_perm before k v t.entries

/-! ## Tables from lists -/

/-- A new key comes first if it is put before the first one. -/
theorem head?_keys_insertBefore {t : Table α β} {k : α} (fresh : k ∉ t) {before x : α} (v : β)
    (hx : t.keys.head? = some x) :
    (t.insertBefore before k v).keys.head? = some (if x = before then k else x) := by
  have hfresh : ¬ k ∈ t.entries.map Prod.fst := fresh
  rw [insertBefore, dif_neg hfresh]
  show ((putBefore before k v t.entries).map Prod.fst).head? = _
  unfold keys at hx
  cases hentries : t.entries with
  | nil =>
    rw [hentries] at hx
    cases hx
  | cons e rest =>
    rw [hentries] at hx
    cases hx
    rw [putBefore]
    split <;> rfl

theorem insertBefore_of_mem {t : Table α β} {k : α} (hk : k ∈ t) (before : α) (v : β) :
    t.insertBefore before k v = t :=
  dif_pos hk

theorem put_eq_append {k : α} {v : β} {l : List (α × β)} (fresh : k ∉ l.map Prod.fst) :
    put k v l = l ++ [(k, v)] := by
  induction l with
  | nil => rfl
  | cons e rest ih =>
    obtain ⟨k', v'⟩ := e
    simp only [List.map_cons, List.mem_cons, not_or] at fresh
    simp [put, Ne.symm fresh.1, ih fresh.2]

theorem foldl_insert_entries {l : List (α × β)} {t : Table α β} (nodup : (l.map Prod.fst).Nodup)
    (fresh : ∀ e ∈ l, e.1 ∉ t) :
    (l.foldl (fun t e => t.insert e.1 e.2) t).entries = t.entries ++ l := by
  induction l generalizing t with
  | nil => simp
  | cons e rest ih =>
    simp only [List.map_cons, List.nodup_cons] at nodup
    have he : e.1 ∉ t := fresh e (.head _)
    have hput : (t.insert e.1 e.2).entries = t.entries ++ [e] := put_eq_append he
    rw [List.foldl_cons, ih nodup.2, hput, List.append_assoc]
    · rfl
    · intro e' he' hm
      rcases mem_insert.1 hm with h | h
      · exact nodup.1 (h ▸ List.mem_map_of_mem he')
      · exact fresh e' (.tail _ he') h

/-- A list with distinct keys becomes a table as it is. -/
theorem ofList_entries {l : List (α × β)} (nodup : (l.map Prod.fst).Nodup) :
    (ofList l).entries = l := by
  have h := foldl_insert_entries (t := empty) nodup (fun e _ h => by cases h)
  simpa [ofList, empty] using h

theorem keys_ofList {l : List (α × β)} (nodup : (l.map Prod.fst).Nodup) :
    (ofList l).keys = l.map Prod.fst := by
  rw [keys, ofList_entries nodup]

theorem get?_ofList {l : List (α × β)} (nodup : (l.map Prod.fst).Nodup) {k : α} {v : β} :
    (ofList l).get? k = some v ↔ (k, v) ∈ l := by
  rw [get?_eq_some_iff, ofList_entries nodup]

/-- A table made by tagging distinct keys. -/
theorem get?_ofList_map {l : List α} (nodup : l.Nodup) (f : α → β) (k : α) :
    (ofList (l.map fun a => (a, f a))).get? k = if k ∈ l then some (f k) else none := by
  have hkeys : ((l.map fun a => (a, f a)).map Prod.fst) = l := by simp [Function.comp_def]
  have hnodup : ((l.map fun a => (a, f a)).map Prod.fst).Nodup := by rw [hkeys]; exact nodup
  split
  · rename_i hk
    exact (get?_ofList hnodup).2 (List.mem_map.2 ⟨k, hk, rfl⟩)
  · rename_i hk
    rw [get?_eq_none_iff, mem_iff, keys_ofList hnodup, hkeys]
    exact hk

/-- A key of a table built from a list is a key of the list. -/
theorem mem_of_get?_foldl_insert {l : List (α × β)} {t : Table α β} {k : α} {v : β}
    (h : (l.foldl (fun t e => t.insert e.1 e.2) t).get? k = some v) :
    (k, v) ∈ l ∨ t.get? k = some v := by
  induction l generalizing t with
  | nil => exact .inr h
  | cons e l ih =>
    rcases ih h with h | h
    · exact .inl (.tail _ h)
    · rw [get?_insert] at h
      split at h
      · rename_i hk
        cases h
        exact .inl (hk ▸ List.mem_cons_self)
      · exact .inr h

theorem mem_of_get?_ofList {l : List (α × β)} {k : α} {v : β} (h : (ofList l).get? k = some v) :
    (k, v) ∈ l :=
  (mem_of_get?_foldl_insert h).resolve_right fun h => (nomatch h)

theorem mem_foldl_insert {l : List (α × β)} {t : Table α β} {k : α} :
    k ∈ l.foldl (fun t e => t.insert e.1 e.2) t ↔ k ∈ t ∨ k ∈ l.map Prod.fst := by
  induction l generalizing t with
  | nil => simp
  | cons e rest ih =>
    rw [List.foldl_cons, ih, mem_insert, List.map_cons, List.mem_cons]
    exact or_assoc.trans or_left_comm

/-- Keys that all get one value. -/
theorem get?_foldl_insert_const {l : List α} {k : α} (c : β) (h : k ∈ l) (t : Table α β) :
    ((l.map fun a => (a, c)).foldl (fun t e => t.insert e.1 e.2) t).get? k = some c := by
  induction l generalizing t with
  | nil => cases h
  | cons a l ih =>
    rw [List.map_cons, List.foldl_cons]
    by_cases hl : k ∈ l
    · exact ih hl _
    · have hk : k = a := (List.mem_cons.1 h).resolve_right hl
      cases hget : ((l.map fun a => (a, c)).foldl (fun t e => t.insert e.1 e.2)
          (t.insert a c)).get? k with
      | none =>
        rw [get?_eq_none_iff, mem_foldl_insert] at hget
        exact absurd (.inl (mem_insert.2 (.inl hk))) hget
      | some v =>
        rcases mem_of_get?_foldl_insert hget with hmem | hget
        · obtain ⟨_, _, heq⟩ := List.mem_map.1 hmem
          cases heq
          rfl
        · rw [get?_insert, if_pos hk] at hget
          exact hget.symm

theorem mem_ofList {l : List (α × β)} {k : α} : k ∈ ofList l ↔ k ∈ l.map Prod.fst := by
  rw [ofList, mem_foldl_insert]
  constructor
  · rintro (h | h)
    · cases h
    · exact h
  · exact .inr

/-- A table made by tagging keys, some perhaps more than once. -/
theorem getD_ofList_map {l : List α} {k : α} (h : k ∈ l) (f : α → β) (d : β) :
    (ofList (l.map fun a => (a, f a))).getD k d = f k := by
  have hmem : (k, f k) ∈ l.map fun a => (a, f a) := List.mem_map.2 ⟨k, h, rfl⟩
  obtain ⟨v, hv⟩ := mem_iff_get?.1 (mem_ofList.2 (List.mem_map_of_mem hmem))
  obtain ⟨a, _, heq⟩ := List.mem_map.1 (mem_of_get?_ofList hv)
  cases heq
  exact getD_of_get? hv

/-- Two tables with the same keys in the same order and the same view are equal. -/
theorem ext_of_keys {s t : Table α β} (hkeys : s.keys = t.keys)
    (hget : ∀ k ∈ s, s.get? k = t.get? k) : s = t := by
  apply ext_entries
  have pairs : ∀ (u : Table α β) (e : α × β), e ∈ u.entries → u.get? e.1 = some e.2 :=
    fun u e he => get?_eq_some_iff.2 he
  apply List.ext_getElem
  · have := congrArg List.length hkeys
    simpa [keys] using this
  · intro i hs ht
    have hfst : (s.entries[i]).1 = (t.entries[i]).1 := by
      have := congrArg (fun l => l[i]?) hkeys
      simpa [keys, hs, ht] using this
    have hmem : (s.entries[i]).1 ∈ s := List.mem_map_of_mem (List.getElem_mem hs)
    have h := hget _ hmem
    have hs' := pairs s _ (List.getElem_mem hs)
    have ht' := pairs t _ (List.getElem_mem ht)
    rw [hs', hfst, ht'] at h
    exact Prod.ext hfst (Option.some.inj h)

theorem insert_getD {t : Table α β} {k : α} {d : β} (hk : k ∈ t) : t.insert k (t.getD k d) = t := by
  obtain ⟨v, hv⟩ := mem_iff_get?.1 hk
  apply ext_of_keys
  · rw [keys_insert, if_pos hk]
  · intro k' _
    rw [get?_insert, getD_of_get? hv]
    split
    · rename_i h
      rw [h, hv]
    · rfl

end Table

end ThreeAddress

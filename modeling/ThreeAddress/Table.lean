/-!
# Tables

A `Table` is a finite map that keeps its keys in the order in which they were first put in. Blocks
of a function, functions of a program and the results of the analyses are all kept in tables,
because their order shows in what is printed.

The view of a table is `get?`; each operation has one lemma that says what it does to the view and
one that says what it does to the keys.
-/

namespace ThreeAddress

/-- A list of entries with distinct keys. -/
structure Table (α β : Type) where
  /-- The entries, in the order of first insertion. -/
  entries : List (α × β)
  /-- No key occurs twice. -/
  nodup : (entries.map Prod.fst).Nodup
deriving DecidableEq

namespace Table

variable {α β γ : Type}

/-- The table without entries. -/
def empty : Table α β := ⟨[], List.nodup_nil⟩

instance : Inhabited (Table α β) := ⟨empty⟩

/-- The keys, in order. -/
def keys (t : Table α β) : List α := t.entries.map Prod.fst

/-- The values, in the order of their keys. -/
def values (t : Table α β) : List β := t.entries.map Prod.snd

/-- The number of entries. -/
def size (t : Table α β) : Nat := t.entries.length

instance : Membership α (Table α β) := ⟨fun t k => k ∈ t.keys⟩

theorem mem_iff {t : Table α β} {k : α} : k ∈ t ↔ k ∈ t.keys := Iff.rfl

theorem nodup_keys (t : Table α β) : t.keys.Nodup := t.nodup

@[simp] theorem keys_empty : (empty : Table α β).keys = [] := rfl

/-! ## Entries as a list -/

section Entries

variable [DecidableEq α]

instance (k : α) (t : Table α β) : Decidable (k ∈ t) := inferInstanceAs (Decidable (k ∈ t.keys))

/-- The value that stands with the first entry for `k`. -/
def find (k : α) : List (α × β) → Option β
  | [] => none
  | (k', v) :: rest => if k' = k then some v else find k rest

/-- Replaces the entry for `k` where it stands, or adds one at the end. -/
def put (k : α) (v : β) : List (α × β) → List (α × β)
  | [] => [(k, v)]
  | (k', v') :: rest => if k' = k then (k, v) :: rest else (k', v') :: put k v rest

/-- Puts a new entry just before the entry for `before`, or at the end if there is none. -/
def putBefore (before : α) (k : α) (v : β) : List (α × β) → List (α × β)
  | [] => [(k, v)]
  | (k', v') :: rest =>
    if k' = before then (k, v) :: (k', v') :: rest else (k', v') :: putBefore before k v rest

theorem map_fst_put (k : α) (v : β) (l : List (α × β)) :
    (put k v l).map Prod.fst
      = if k ∈ l.map Prod.fst then l.map Prod.fst else l.map Prod.fst ++ [k] := by
  induction l with
  | nil => simp [put]
  | cons e rest ih =>
    obtain ⟨k', v'⟩ := e
    by_cases h : k' = k
    · simp [put, h]
    · have h' : ¬ k = k' := fun e => h e.symm
      by_cases hm : k ∈ rest.map Prod.fst
      · simp_all [put]
      · simp_all [put]

theorem nodup_put (k : α) (v : β) {l : List (α × β)} (h : (l.map Prod.fst).Nodup) :
    ((put k v l).map Prod.fst).Nodup := by
  rw [map_fst_put]
  split
  · exact h
  · rename_i hk
    rw [List.nodup_append]
    refine ⟨h, by simp, ?_⟩
    intro a ha b hb
    simp only [List.mem_singleton] at hb
    subst hb
    intro e
    exact hk (e ▸ ha)

theorem mem_map_fst_putBefore (before k : α) (v : β) (l : List (α × β)) (x : α) :
    x ∈ (putBefore before k v l).map Prod.fst ↔ x = k ∨ x ∈ l.map Prod.fst := by
  induction l with
  | nil => simp [putBefore]
  | cons e rest ih =>
    obtain ⟨k', v'⟩ := e
    by_cases h : k' = before
    · simp [putBefore, h]
    · simp only [putBefore, if_neg h, List.map_cons, List.mem_cons, ih]
      constructor
      · rintro (h | h | h)
        · exact .inr (.inl h)
        · exact .inl h
        · exact .inr (.inr h)
      · rintro (h | h | h)
        · exact .inr (.inl h)
        · exact .inl h
        · exact .inr (.inr h)

theorem nodup_putBefore (before k : α) (v : β) {l : List (α × β)} (h : (l.map Prod.fst).Nodup)
    (hk : k ∉ l.map Prod.fst) : ((putBefore before k v l).map Prod.fst).Nodup := by
  induction l with
  | nil => simp [putBefore]
  | cons e rest ih =>
    obtain ⟨k', v'⟩ := e
    simp only [List.map_cons, List.mem_cons, not_or] at hk
    simp only [List.map_cons, List.nodup_cons] at h
    by_cases hb : k' = before
    · simp only [putBefore, if_pos hb, List.map_cons, List.nodup_cons, List.mem_cons, not_or]
      exact ⟨hk, h⟩
    · simp only [putBefore, if_neg hb, List.map_cons, List.nodup_cons]
      refine ⟨?_, ih h.2 hk.2⟩
      rw [mem_map_fst_putBefore]
      rintro (e | e)
      · exact hk.1 e.symm
      · exact h.1 e

theorem find_eq_none_iff {k : α} {l : List (α × β)} : find k l = none ↔ k ∉ l.map Prod.fst := by
  induction l with
  | nil => simp [find]
  | cons e rest ih =>
    obtain ⟨k', v'⟩ := e
    by_cases h : k' = k
    · simp [find, h]
    · have h' : ¬ k = k' := fun e => h e.symm
      simp only [find, if_neg h, ih, List.map_cons, List.mem_cons, not_or]
      exact ⟨fun hn => ⟨h', hn⟩, fun hn => hn.2⟩

theorem find_put (k k' : α) (v : β) (l : List (α × β)) :
    find k' (put k v l) = if k' = k then some v else find k' l := by
  induction l with
  | nil =>
    by_cases h : k' = k
    · simp [put, find, h]
    · have h' : ¬ k = k' := fun e => h e.symm
      simp [put, find, h, h']
  | cons e rest ih =>
    obtain ⟨k₁, v₁⟩ := e
    by_cases h₁ : k₁ = k
    · subst h₁
      by_cases h : k' = k₁
      · simp [put, find, h]
      · have h' : ¬ k₁ = k' := fun e => h e.symm
        simp [put, find, h, h']
    · simp only [put, if_neg h₁, find, ih]
      by_cases h₂ : k₁ = k'
      · subst h₂
        simp [h₁]
      · simp [h₂]

end Entries

/-! ## Reading -/

section Reading

variable [DecidableEq α]

/-- The value kept for `k`. -/
def get? (t : Table α β) (k : α) : Option β := find k t.entries

/-- The value kept for `k`, or `default` if there is none. -/
def getD (t : Table α β) (k : α) (default : β) : β := (t.get? k).getD default

/-- Whether `k` is a key. -/
def contains (t : Table α β) (k : α) : Bool := (t.get? k).isSome

theorem get?_eq_none_iff {t : Table α β} {k : α} : t.get? k = none ↔ k ∉ t := find_eq_none_iff

theorem contains_iff {t : Table α β} {k : α} : t.contains k = true ↔ k ∈ t := by
  cases h : t.get? k with
  | none =>
    have := get?_eq_none_iff.1 h
    simp [contains, h, this]
  | some v =>
    have hk : k ∈ t := by
      by_cases hk : k ∈ t
      · exact hk
      · rw [get?_eq_none_iff.2 hk] at h
        cases h
    simp [contains, h, hk]

@[simp] theorem get?_empty (k : α) : (empty : Table α β).get? k = none := rfl

end Reading

/-! ## Writing -/

section Writing

variable [DecidableEq α]

/-- Keeps `v` for `k`: in place if `k` is a key already, at the end otherwise. -/
def insert (t : Table α β) (k : α) (v : β) : Table α β :=
  ⟨put k v t.entries, nodup_put k v t.nodup⟩

/-- The table of the entries of a list; of two entries with one key the later wins, in the earlier's
place. -/
def ofList (l : List (α × β)) : Table α β := l.foldl (fun t e => t.insert e.1 e.2) empty

/-- Keeps `v` for the new key `k`, placed just before `before` (at the end if that is no key). A key
that is in the table already keeps its place and its value. -/
def insertBefore (t : Table α β) (before k : α) (v : β) : Table α β :=
  if h : k ∈ t.entries.map Prod.fst then t
  else ⟨putBefore before k v t.entries, nodup_putBefore before k v t.nodup h⟩

omit [DecidableEq α] in
/-- The entries whose key and value satisfy `p`. -/
def filter (t : Table α β) (p : α → β → Bool) : Table α β :=
  ⟨t.entries.filter fun e => p e.1 e.2,
    List.Nodup.sublist (List.Sublist.map Prod.fst List.filter_sublist) t.nodup⟩

/-- The table without the entry for `k`. -/
def erase (t : Table α β) (k : α) : Table α β := t.filter fun k' _ => k' ≠ k

omit [DecidableEq α] in
/-- Changes every value, keys and order staying as they are. -/
def mapValues (t : Table α β) (f : α → β → γ) : Table α γ :=
  ⟨t.entries.map fun e => (e.1, f e.1 e.2), by
    have h : (t.entries.map fun e => (e.1, f e.1 e.2)).map Prod.fst = t.entries.map Prod.fst := by
      simp [Function.comp_def]
    rw [h]
    exact t.nodup⟩

/-- Changes the value kept for `k`, if there is one. -/
def modify (t : Table α β) (k : α) (f : β → β) : Table α β :=
  t.mapValues fun k' v => if k' = k then f v else v

theorem get?_insert (t : Table α β) (k k' : α) (v : β) :
    (t.insert k v).get? k' = if k' = k then some v else t.get? k' :=
  find_put k k' v t.entries

theorem keys_insert (t : Table α β) (k : α) (v : β) :
    (t.insert k v).keys = if k ∈ t then t.keys else t.keys ++ [k] :=
  map_fst_put k v t.entries

omit [DecidableEq α] in
@[simp] theorem keys_mapValues (t : Table α β) (f : α → β → γ) : (t.mapValues f).keys = t.keys := by
  simp [keys, mapValues, Function.comp_def]

@[simp] theorem get?_mapValues (t : Table α β) (f : α → β → γ) (k : α) :
    (t.mapValues f).get? k = (t.get? k).map (f k) := by
  suffices h : ∀ l : List (α × β), find k (l.map fun e => (e.1, f e.1 e.2))
    = (find k l).map (f k) from
    h t.entries
  intro l
  induction l with
  | nil => rfl
  | cons e rest ih =>
    obtain ⟨k', v⟩ := e
    by_cases h : k' = k
    · subst h
      simp [find]
    · simp [find, h, ih]

@[simp] theorem keys_modify (t : Table α β) (k : α) (f : β → β) : (t.modify k f).keys = t.keys :=
  keys_mapValues t _

theorem get?_modify (t : Table α β) (k k' : α) (f : β → β) :
    (t.modify k f).get? k' = if k' = k then (t.get? k').map f else t.get? k' := by
  rw [modify, get?_mapValues]
  split
  · rfl
  · simp

theorem keys_erase (t : Table α β) (k : α) : (t.erase k).keys = t.keys.filter (· ≠ k) := by
  simp [keys, erase, filter, List.filter_map, Function.comp_def]

theorem mem_insertBefore {t : Table α β} {before k x : α} {v : β} :
    x ∈ t.insertBefore before k v ↔ x = k ∨ x ∈ t := by
  unfold insertBefore
  split
  · rename_i h
    constructor
    · exact .inr
    · rintro (rfl | hx)
      · exact h
      · exact hx
  · exact mem_map_fst_putBefore before k v t.entries x

end Writing

end Table

end ThreeAddress

import Mathlib.Data.Nat.Find
import Mathlib.Logic.Function.Iterate
import ThreeAddress.Graph.Dominators
import ThreeAddress.Proofs.Search

/-!
# The computed dominators

The sweeps over the dominator sets end with the dominators by paths. After `k` sweeps a set holds no
block that some trail of at most `k + 1` blocks avoids, and a trail without detours has at most as
many blocks as can be reached: so the sets are settled before there are as many sweeps as blocks,
and the limit on sweeps is never met (`settle_startSets`). What one sweep does is stated for trails
of any kind (`sweep_settlesFor`), since their number of blocks is not the only measure of them.

`Dominators.Describes` gathers what later proofs use: the reachable blocks, the dominator sets and
the immediate dominators.
-/

namespace ThreeAddress

variable {α : Type}

/-- If what comes of an element tells which one it came of, the elements that something comes of are
a sublist. -/
theorem map_filterMap_sublist {β : Type} (g : β → α) {f : α → Option β}
    (hf : ∀ a e, f a = some e → g e = a) {l : List α} : ((l.filterMap f).map g).Sublist l := by
  induction l with
  | nil => exact .slnil
  | cons a l ih =>
    cases h : f a with
    | none =>
      rw [List.filterMap_cons_none h]
      exact ih.cons a
    | some e =>
      rw [List.filterMap_cons_some h, List.map_cons, hf a e h]
      exact ih.cons_cons a

/-- What comes before an element of a list without repetitions stands in front of it. -/
theorem mem_front_of_idxOf_lt [DecidableEq α] {front rest : List α} {a b : α}
    (nodup : (front ++ b :: rest).Nodup)
    (hlt : (front ++ b :: rest).idxOf a < (front ++ b :: rest).idxOf b) : a ∈ front := by
  have hb : b ∉ front := fun hb => (List.nodup_append.1 nodup).2.2 b hb b (.head _) rfl
  refine Decidable.byContradiction fun ha => ?_
  rw [List.idxOf_append, List.idxOf_append, if_neg hb, if_neg ha, List.idxOf_cons_self] at hlt
  omega

/-- And what stands behind it comes after it. -/
theorem idxOf_lt_of_mem_rest [DecidableEq α] {front rest : List α} {a b : α}
    (nodup : (front ++ b :: rest).Nodup) (ha : a ∈ rest) :
    (front ++ b :: rest).idxOf b < (front ++ b :: rest).idxOf a := by
  obtain ⟨_, hright, hapart⟩ := List.nodup_append.1 nodup
  have hb : b ∉ front := fun hb => hapart b hb b (.head _) rfl
  have hafront : a ∉ front := fun hmem => hapart a hmem a (.tail _ ha) rfl
  have hne : b ≠ a := fun heq => (List.nodup_cons.1 hright).1 (heq ▸ ha)
  rw [List.idxOf_append, List.idxOf_append, if_neg hb, if_neg hafront, List.idxOf_cons_self,
    List.idxOf_cons, beq_false_of_ne hne, cond_false]
  omega

/-- `a` is the strict dominator of `b` that all strict dominators of `b` dominate. -/
def Graph.IsClosest (g : Graph) (a b : Label) : Prop :=
  g.StrictlyDominates a b ∧ ∀ c, g.StrictlyDominates c b → g.Dominates c a

/-- The dominators `d` are those of the graph `g`. -/
structure Dominators.Describes (d : Dominators) (g : Graph) : Prop where
  entry_eq : d.entry = g.entry
  nodup : d.order.Nodup
  mem_order : ∀ b, b ∈ d.order ↔ g.Reachable b
  mem_doms : ∀ b, b ∈ d.doms ↔ g.Reachable b
  mem_getD : ∀ b, g.Reachable b → ∀ a, a ∈ d.doms.getD b [] ↔ g.Dominates a b
  idom?_eq : ∀ b a, d.idom? b = some a ↔ g.Reachable b ∧ g.IsClosest a b

namespace Graph

variable {g : Graph} {order : List Label} {doms : Table Label (List Label)} {a b : Label} {n : Nat}

theorem mem_predsWithin {live : List Label} {p : Label} :
    p ∈ g.predsWithin live b ↔ p ∈ live ∧ b ∈ g.next p := by
  simp only [predsWithin, List.mem_map, List.mem_filter, Bool.and_eq_true, decide_eq_true_eq]
  constructor
  · rintro ⟨⟨q, ss⟩, ⟨he, hb, hl⟩, rfl⟩
    exact ⟨hl, next_of_get? (Table.get?_eq_some_iff.2 he) ▸ hb⟩
  · rintro ⟨hl, hb⟩
    cases hp : g.succs.get? p with
    | none => simp [next, Table.getD, hp] at hb
    | some ss =>
      rw [next_of_get? hp] at hb
      exact ⟨(p, ss), ⟨Table.get?_eq_some_iff.1 hp, hb, hl⟩, rfl⟩

theorem filter_mem_filter (order : List Label) (q : Label → Bool) :
    (order.filter fun a => decide (a ∈ order.filter q)) = order.filter q := by
  apply List.filter_congr
  intro a ha
  simp [ha]

/-- The order lists the reachable blocks, each once. -/
structure Lists (g : Graph) (order : List Label) : Prop where
  nodup : order.Nodup
  mem_iff : ∀ b, b ∈ order ↔ g.Reachable b

/-! ## What a sweep keeps -/

/-- Dominator sets on the way down: each is the part of the order that belongs to it, and nothing
that dominates is missing. -/
structure Descending (g : Graph) (order : List Label) (doms : Table Label (List Label)) : Prop where
  keys : doms.keys = order
  entry : doms.getD g.entry [] = [g.entry]
  part : ∀ b ∈ order, doms.getD b [] = order.filter (· ∈ doms.getD b [])
  above : ∀ b ∈ order, ∀ a, g.Dominates a b → a ∈ doms.getD b []

/-- The set of `b` holds only blocks that lie on all trails to `b` of the kind `Q`. -/
def SettledFor (g : Graph) (Q : List Label → Prop) (doms : Table Label (List Label)) (b : Label) :
    Prop :=
  ∀ a ∈ doms.getD b [], ∀ xs, g.Trail xs b → Q xs → a ∈ xs

/-- The set of `b` holds only blocks that lie on all trails to `b` with at most `n + 1` blocks. -/
def SettledTo (g : Graph) (n : Nat) (doms : Table Label (List Label)) (b : Label) : Prop :=
  ∀ a ∈ doms.getD b [], ∀ xs, g.Trail xs b → xs.length ≤ n + 1 → a ∈ xs

theorem meetPreds_eq (lists : Lists g order) (h : Descending g order doms) (hb : b ∈ order)
    (hne : b ≠ g.entry) :
    g.meetPreds order doms b
      = order.filter fun a => decide (a = b) || (g.predsWithin order b).all fun p =>
        decide (a ∈ doms.getD p []) := by
  unfold meetPreds
  split
  · rename_i hnil
    obtain ⟨p, hp, hpb⟩ := ((lists.mem_iff b).1 hb).exists_pred hne
    have : p ∈ g.predsWithin order b := mem_predsWithin.2 ⟨(lists.mem_iff p).2 hp, hpb⟩
    rw [hnil] at this
    cases this
  · have hsub : ∀ part ∈ (g.predsWithin order b).map fun p => doms.getD p [],
        part.Sublist order := by
      intro part hpart
      obtain ⟨p, hp, rfl⟩ := List.mem_map.1 hpart
      rw [h.part p (mem_predsWithin.1 hp).1]
      exact List.filter_sublist
    rw [commonPart_eq_filter b lists.nodup _ hsub]
    simp [List.all_map, Function.comp_def]

theorem mem_meetPreds (lists : Lists g order) (h : Descending g order doms) (hb : b ∈ order)
    (hne : b ≠ g.entry) :
    a ∈ g.meetPreds order doms b
      ↔ a ∈ order ∧ (a = b ∨ ∀ p, g.Reachable p → b ∈ g.next p → a ∈ doms.getD p []) := by
  rw [meetPreds_eq lists h hb hne, List.mem_filter]
  simp only [Bool.or_eq_true, decide_eq_true_eq, List.all_eq_true, mem_predsWithin]
  constructor
  · rintro ⟨ha, he | hall⟩
    · exact ⟨ha, .inl he⟩
    · exact ⟨ha, .inr fun p hp hpb => hall p ⟨(lists.mem_iff p).2 hp, hpb⟩⟩
  · rintro ⟨ha, he | hall⟩
    · exact ⟨ha, .inl he⟩
    · exact ⟨ha, .inr fun p hp => hall p ((lists.mem_iff p).1 hp.1) hp.2⟩

/-- One step of a sweep. -/
theorem Descending.insert (lists : Lists g order) (h : Descending g order doms) (hb : b ∈ order)
    (hne : b ≠ g.entry) : Descending g order (doms.insert b (g.meetPreds order doms b)) where
  keys := by
    have : b ∈ doms := by
      rw [Table.mem_iff, h.keys]
      exact hb
    rw [Table.keys_insert, if_pos this, h.keys]
  entry := by rw [Table.getD_insert, if_neg (Ne.symm hne), h.entry]
  part c hc := by
    rw [Table.getD_insert]
    split
    · rw [meetPreds_eq lists h hb hne, filter_mem_filter]
    · exact h.part c hc
  above c hc a ha := by
    rw [Table.getD_insert]
    split
    · rename_i hcb
      subst hcb
      refine (mem_meetPreds lists h hb hne).2
        ⟨(lists.mem_iff a).2 (ha.reachable ((lists.mem_iff c).1 hc)), ?_⟩
      by_cases hac : a = c
      · exact .inl hac
      · exact .inr fun p hp hpc => h.above p ((lists.mem_iff p).2 hp) a
          (dominates_of_edge ha hac hpc)
    · exact h.above c hc a ha

/-- The entry is settled from the start. -/
theorem Descending.settledFor_entry (h : Descending g order doms) (Q : List Label → Prop) :
    SettledFor g Q doms g.entry := by
  intro a ha xs hxs _
  rw [h.entry] at ha
  rw [List.mem_singleton.1 ha]
  exact hxs.self_mem

/-! ## What a sweep settles -/

section Sweep

variable {Q Q' : List Label → Prop} {c : Label}

theorem SettledFor.imp (h : SettledFor g Q' doms b) (hQ : ∀ xs, Q xs → Q' xs) :
    SettledFor g Q doms b :=
  fun a ha xs hxs hxQ => h a ha xs hxs (hQ xs hxQ)

theorem SettledFor.insert_of_ne {v : List Label} (h : SettledFor g Q doms c) (hne : c ≠ b) :
    SettledFor g Q (doms.insert b v) c := by
  intro a ha
  rw [Table.getD_insert, if_neg hne] at ha
  exact h a ha

/-- One step of a sweep. A trail to `b` of the new kind comes from a trail of the old kind, or from
a trail of the new kind to a predecessor that comes before `b` in the order and so has been
swept. -/
theorem SettledFor.insert (lists : Lists g order) (h : Descending g order doms) (hb : b ∈ order)
    (hne : b ≠ g.entry)
    (hstep : ∀ p ys, g.Trail ys p → Q' (b :: ys) → Q ys ∨ Q' ys ∧ order.idxOf p < order.idxOf b)
    (hn : ∀ p ∈ order, SettledFor g Q doms p)
    (hswept : ∀ p ∈ order, order.idxOf p < order.idxOf b → SettledFor g Q' doms p) :
    SettledFor g Q' (doms.insert b (g.meetPreds order doms b)) b := by
  intro a ha xs hxs hxQ
  rw [Table.getD_insert, if_pos rfl] at ha
  rcases ((mem_meetPreds lists h hb hne).1 ha).2 with rfl | hall
  · exact hxs.self_mem
  · cases hxs with
    | entry => exact absurd rfl hne
    | @step ys p _ hys hpb =>
      have hp : g.Reachable p := ⟨ys, hys⟩
      have hpo := (lists.mem_iff p).2 hp
      refine .tail _ ?_
      rcases hstep p ys hys hxQ with hQ | ⟨hQ', hlt⟩
      · exact hn p hpo a (hall p hp hpb) ys hys hQ
      · exact hswept p hpo hlt a (hall p hp hpb) ys hys hQ'

/-- A sweep that has got as far as `rest`: the blocks before it are settled for the new kind of
trails, and all blocks are for the old kind. -/
theorem sweep_fold (lists : Lists g order) (hmore : ∀ xs, Q xs → Q' xs)
    (hstep : ∀ b p ys, g.Trail ys p → Q' (b :: ys) → Q ys ∨ Q' ys ∧ order.idxOf p < order.idxOf b)
    {swept rest : List Label} (hsplit : order = swept ++ rest) (h : Descending g order doms)
    (hn : ∀ b ∈ order, SettledFor g Q doms b) (hswept : ∀ b ∈ swept, SettledFor g Q' doms b) :
    let doms' :=
  rest.foldl (fun t b => if b = g.entry then t else t.insert b (g.meetPreds order t b)) doms
    Descending g order doms' ∧ ∀ b ∈ order, SettledFor g Q' doms' b := by
  induction rest generalizing swept doms with
  | nil =>
    rw [List.append_nil] at hsplit
    exact ⟨h, fun b hb => hswept b (hsplit ▸ hb)⟩
  | cons b rest ih =>
    have hbo : b ∈ order := hsplit ▸ List.mem_append_right _ (.head _)
    have hsplit' : order = (swept ++ [b]) ++ rest := by
      rw [hsplit, List.append_assoc, List.singleton_append]
    rw [List.foldl_cons]
    by_cases hb : b = g.entry
    · rw [if_pos hb]
      refine ih hsplit' h hn fun c hc => ?_
      rcases List.mem_append.1 hc with hc | hc
      · exact hswept c hc
      · rw [List.mem_singleton.1 hc, hb]
        exact h.settledFor_entry _
    · rw [if_neg hb]
      have hnew : SettledFor g Q' (doms.insert b (g.meetPreds order doms b)) b := by
        refine SettledFor.insert lists h hbo hb (hstep b) hn fun p _ hlt => hswept p ?_
        rw [hsplit] at hlt
        exact mem_front_of_idxOf_lt (hsplit ▸ lists.nodup) hlt
      refine ih hsplit' (h.insert lists hbo hb) (fun c hc => ?_) fun c hc => ?_
      · by_cases hcb : c = b
        · rw [hcb]
          exact hnew.imp hmore
        · exact (hn c hc).insert_of_ne hcb
      · by_cases hcb : c = b
        · rw [hcb]
          exact hnew
        · refine (hswept c ?_).insert_of_ne hcb
          exact (List.mem_append.1 hc).resolve_right fun hc => hcb (List.mem_singleton.1 hc)

/-- A sweep settles the sets for trails of a new kind, if these come from trails of the old kind or
go forward in the order from trails of the new kind. -/
theorem sweep_settlesFor (lists : Lists g order) (hmore : ∀ xs, Q xs → Q' xs)
    (hstep : ∀ b p ys, g.Trail ys p → Q' (b :: ys) → Q ys ∨ Q' ys ∧ order.idxOf p < order.idxOf b)
    (h : Descending g order doms) (hn : ∀ b ∈ order, SettledFor g Q doms b) :
    Descending g order (g.sweep order doms) ∧ ∀ b ∈ order, SettledFor g Q' (g.sweep order doms) b :=
  sweep_fold lists hmore hstep (List.nil_append order).symm h hn fun _ hb =>
    absurd hb List.not_mem_nil

end Sweep

/-- A sweep settles the sets for trails that are longer by one. -/
theorem sweep_settles (lists : Lists g order) (h : Descending g order doms)
    (hn : ∀ b ∈ order, SettledTo g n doms b) :
    Descending g order (g.sweep order doms) ∧ ∀ b ∈ order,
      SettledTo g (n + 1) (g.sweep order doms) b :=
  sweep_settlesFor lists (fun _ hlen => Nat.le_succ_of_le hlen) (fun _ _ _ _ hlen =>
    .inl (Nat.le_of_succ_le_succ hlen))
    h hn

/-! ## Settled sets are the dominators -/

/-- Each set holds exactly the dominators. -/
def Exact (g : Graph) (order : List Label) (doms : Table Label (List Label)) : Prop :=
  Descending g order doms ∧ ∀ b ∈ order, ∀ a, a ∈ doms.getD b [] ↔ g.Dominates a b

section

variable (lists : Lists g order)
include lists

theorem exact_of_settled (h : Descending g order doms) (hn : ∀ b ∈ order, SettledTo g n doms b)
    (enough : order.length ≤ n + 1) : Exact g order doms := by
  refine ⟨h, fun b hb a => ⟨fun ha xs hxs => ?_, h.above b hb a⟩⟩
  obtain ⟨ys, hys, nodup, sub⟩ := hxs.simple
  have hlen : ys.length ≤ order.length := by
    apply nodup.length_le_of_subset
    intro c hc
    exact (lists.mem_iff c).2 (hys.reachable_of_mem hc)
  exact sub a (hn b hb a ha ys hys (by omega))

theorem mem_meetPreds_exact (h : Exact g order doms) (hb : b ∈ order) (hne : b ≠ g.entry)
    (a : Label) : a ∈ g.meetPreds order doms b ↔ a ∈ doms.getD b [] := by
  rw [mem_meetPreds lists h.1 hb hne, h.2 b hb]
  constructor
  · rintro ⟨_, rfl | hall⟩
    · exact .refl a
    · intro xs hxs
      cases hxs with
      | entry => exact absurd rfl hne
      | @step ys p _ hys hpb =>
        have hp : g.Reachable p := ⟨ys, hys⟩
        exact .tail _ ((h.2 p ((lists.mem_iff p).2 hp) a).1 (hall p hp hpb) ys hys)
  · intro ha
    refine ⟨(lists.mem_iff a).2 (ha.reachable ((lists.mem_iff b).1 hb)), ?_⟩
    by_cases hab : a = b
    · exact .inl hab
    · exact .inr fun p hp hpb => (h.2 p ((lists.mem_iff p).2 hp) a).2 (dominates_of_edge ha hab hpb)

/-- A sweep leaves exact sets as they are. -/
theorem sweep_exact (h : Exact g order doms) : g.sweep order doms = doms := by
  have hstep : ∀ b ∈ order, (if b = g.entry then doms else doms.insert b (g.meetPreds order doms b))
      = doms := by
    intro b hb
    split
    · rfl
    · rename_i hne
      have hval : g.meetPreds order doms b = doms.getD b [] := by
        rw [h.1.part b hb, meetPreds_eq lists h.1 hb hne, ← filter_mem_filter,
          ← meetPreds_eq lists h.1 hb hne]
        apply List.filter_congr
        intro a _
        rw [decide_eq_decide]
        exact mem_meetPreds_exact lists h hb hne a
      rw [hval]
      exact Table.insert_getD (by rw [Table.mem_iff, h.1.keys]; exact hb)
  have hfold : ∀ rest : List Label, (∀ b ∈ rest, b ∈ order) →
      rest.foldl (fun t b => if b = g.entry then t else t.insert b (g.meetPreds order t b)) doms
        = doms := by
    intro rest hrest
    induction rest with
    | nil => rfl
    | cons b rest ih =>
      rw [List.foldl_cons, hstep b (hrest b (.head _))]
      exact ih fun c hc => hrest c (.tail _ hc)
  exact hfold order fun _ hb => hb

/-- A table that a sweep leaves as it is is settled for trails of any length. -/
theorem settled_of_sweep_eq (h : Descending g order doms) (hfix : g.sweep order doms = doms)
    (hn : ∀ b ∈ order, SettledTo g n doms b) (m : Nat) :
    ∀ b ∈ order, SettledTo g (n + m) doms b := by
  induction m with
  | zero => exact hn
  | succ m ih =>
    have := (sweep_settles lists h ih).2
    rw [hfix] at this
    exact this

theorem startSets_getD (hb : b ∈ order) :
    (g.startSets order).getD b [] = if b = g.entry then [b] else order := by
  rw [Table.getD, startSets, Table.get?_ofList_map lists.nodup, if_pos hb]
  rfl

theorem startSets_descending : Descending g order (g.startSets order) where
  keys := by
    have hkeys : ((order.map fun b => (b, if b = g.entry then [b] else order)).map Prod.fst)
        = order := by
      simp [Function.comp_def]
    rw [startSets, Table.keys_ofList (by rw [hkeys]; exact lists.nodup), hkeys]
  entry := by rw [startSets_getD lists ((lists.mem_iff _).2 reachable_entry), if_pos rfl]
  part b hb := by
    rw [startSets_getD lists hb]
    split
    · have hfilter : (order.filter fun a => decide (a ∈ [b])) = order.filter (· == b) := by
        apply List.filter_congr
        intro a _
        rw [Bool.eq_iff_iff]
        simp
      rw [hfilter, List.filter_beq, lists.nodup.count, if_pos hb]
      rfl
    · exact (List.filter_eq_self.2 fun a ha => by simpa using ha).symm
  above b hb a ha := by
    rw [startSets_getD lists hb]
    split
    · rename_i he
      subst he
      rw [eq_entry_of_dominates ha]
      exact .head _
    · exact (lists.mem_iff a).2 (ha.reachable ((lists.mem_iff b).1 hb))

theorem startSets_settled : ∀ b ∈ order, SettledTo g 0 (g.startSets order) b := by
  intro b hb a ha xs hxs hlen
  cases hxs with
  | entry =>
    rw [startSets_getD lists hb, if_pos rfl] at ha
    exact ha
  | @step ys p _ hys _ =>
    have : ys ≠ [] := by
      rintro rfl
      cases hys
    have := List.length_pos_iff.2 this
    rw [List.length_cons] at hlen
    omega

end

/-! ## Sweeping ends -/

/-- The sets after `k` sweeps. -/
def sweeps (g : Graph) (order : List Label) (k : Nat) : Table Label (List Label) :=
  (g.sweep order)^[k] (g.startSets order)

theorem sweeps_succ (k : Nat) : g.sweeps order (k + 1) = g.sweep order (g.sweeps order k) :=
  Function.iterate_succ_apply' _ _ _

theorem sweeps_settled (lists : Lists g order) (n : Nat) :
    Descending g order (g.sweeps order n) ∧ ∀ b ∈ order, SettledTo g n (g.sweeps order n) b := by
  induction n with
  | zero => exact ⟨startSets_descending lists, startSets_settled lists⟩
  | succ n ih =>
    rw [sweeps_succ]
    exact sweep_settles lists ih.1 ih.2

/-- Settling stops at the first sets that a sweep leaves as they are, and counts the sweep that
shows it. -/
theorem settle_iterate {limit passes k : Nat} (hk : k < limit)
    (hfix : g.sweep order ((g.sweep order)^[k] doms) = (g.sweep order)^[k] doms)
    (hfirst : ∀ j < k, g.sweep order ((g.sweep order)^[j] doms) ≠ (g.sweep order)^[j] doms) :
    g.settle order limit passes doms = some ((g.sweep order)^[k] doms, passes + (k + 1)) := by
  induction k generalizing limit passes doms with
  | zero =>
    obtain ⟨limit, rfl⟩ := Nat.exists_eq_add_one.2 hk
    rw [settle]
    exact if_pos hfix
  | succ k ih =>
    obtain ⟨limit, rfl⟩ := Nat.exists_eq_add_one.2 (Nat.zero_lt_of_lt hk)
    have hchanged : g.sweep order doms ≠ doms := hfirst 0 (Nat.succ_pos k)
    rw [settle]
    simp only [hchanged, if_false]
    rw [ih (Nat.lt_of_succ_lt_succ hk) hfix fun j hj => hfirst (j + 1) (Nat.succ_lt_succ hj),
      Nat.add_assoc, Nat.add_comm 1]
    rfl

/-- The `k`-th sweep, counted from none, is the first that changes nothing. -/
def SettlesAt (g : Graph) (order : List Label) (k : Nat) : Prop :=
  g.sweep order (g.sweeps order k) = g.sweeps order k ∧
    ∀ j < k, g.sweep order (g.sweeps order j) ≠ g.sweeps order j

/-- Sweeping ends with the dominators, and takes no more sweeps than there are blocks. -/
theorem settle_startSets (lists : Lists g order) :
    ∃ k, k < order.length ∧ g.SettlesAt order k ∧
      g.settle order (order.length + 2) 0 (g.startSets order) = some (g.sweeps order k, k + 1) ∧
      Exact g order (g.sweeps order k) := by
  have hpos : 0 < order.length := List.length_pos_of_mem ((lists.mem_iff _).2 reachable_entry)
  obtain ⟨hlast, hsettled⟩ := sweeps_settled lists (order.length - 1)
  have hstop := sweep_exact lists (exact_of_settled lists hlast hsettled (by omega))
  have hexists : ∃ k, g.sweep order (g.sweeps order k) = g.sweeps order k := ⟨_, hstop⟩
  obtain ⟨k, hfix, hfirst⟩ : ∃ k, g.SettlesAt order k :=
    ⟨Nat.find hexists, Nat.find_spec hexists, fun j hj => Nat.find_min hexists hj⟩
  have hk : k < order.length := by
    have : k ≤ order.length - 1 := Nat.le_of_not_lt fun hlt => hfirst _ hlt hstop
    omega
  refine ⟨k, hk, ⟨hfix, hfirst⟩, ?_, ?_⟩
  · rw [settle_iterate (by omega) hfix hfirst, Nat.zero_add]
    rfl
  · obtain ⟨hdesc, hn⟩ := sweeps_settled lists k
    exact exact_of_settled lists hdesc (settled_of_sweep_eq lists hdesc hfix hn order.length)
      (by omega)

/-! ## Immediate dominators -/

theorem isClosest_unique {a' : Label} (hb : g.Reachable b) (h : g.IsClosest a b)
    (h' : g.IsClosest a' b) : a = a' :=
  Dominates.antisymm (h.1.2.reachable hb) (h'.2 a h.1) (h.2 a' h'.1)

/-- A block has fewer dominators than one that it strictly dominates. -/
theorem Exact.length_lt (lists : Lists g order) (h : Exact g order doms) (hb : b ∈ order)
    (hab : g.StrictlyDominates a b) : (doms.getD a []).length < (doms.getD b []).length := by
  have hreach := (lists.mem_iff b).1 hb
  have ha : a ∈ order := (lists.mem_iff a).2 (hab.2.reachable hreach)
  have hfresh : b ∉ doms.getD a [] := fun hba =>
    hab.1 (Dominates.antisymm (hab.2.reachable hreach) hab.2 ((h.2 a ha b).1 hba))
  have hnodup : (b :: doms.getD a []).Nodup := by
    refine List.nodup_cons.2 ⟨hfresh, ?_⟩
    rw [h.1.part a ha]
    exact lists.nodup.sublist List.filter_sublist
  refine Nat.lt_of_lt_of_le (Nat.lt_succ_self _) (hnodup.length_le_of_subset fun c hc => ?_)
  rw [h.2 b hb]
  rcases List.mem_cons.1 hc with rfl | hc
  · exact .refl c
  · exact ((h.2 a ha c).1 hc).trans hab.2

/-- The strict dominator with the most dominators is the closest one. -/
theorem closestDominator_eq (lists : Lists g order) (h : Exact g order doms) (hb : b ∈ order)
    (hne : b ≠ g.entry) : ∃ a, closestDominator doms b = some a ∧ g.IsClosest a b := by
  have hreach := (lists.mem_iff b).1 hb
  have hstrict : ∀ c, c ∈ (doms.getD b []).filter (· ≠ b) ↔ g.StrictlyDominates c b := by
    intro c
    rw [List.mem_filter, h.2 b hb, decide_eq_true_eq, StrictlyDominates, and_comm]
  obtain ⟨a, hclosest⟩ := exists_closest_dominator hreach hne
  have ha := (hstrict a).2 hclosest.1
  obtain ⟨c, hc⟩ := Option.isSome_iff_exists.1
    (List.isSome_maxOn?_of_mem (f := fun a => (doms.getD a []).length) ha)
  have hcb := (hstrict c).1 (List.maxOn?_mem hc)
  have hmost : (doms.getD a []).length ≤ (doms.getD c []).length := by
    have hle := List.le_apply_maxOn_of_mem (f := fun a => (doms.getD a []).length) ha
    rwa [List.maxOn_eq_of_maxOn?_eq_some hc] at hle
  -- All strict dominators dominate the closest one, so another one would have fewer dominators.
  have hca : c = a := by
    by_contra hne
    have horder : a ∈ order := (lists.mem_iff a).2 (hclosest.1.2.reachable hreach)
    exact Nat.not_lt.2 hmost (h.length_lt lists horder ⟨hne, hclosest.2 c hcb⟩)
  exact ⟨a, hca ▸ hc, hclosest⟩

/-- The dominators as the computation puts them together, with the sweep that was the last. -/
theorem dominators_eq (closed : g.Closed) :
    ∃ order k, g.reversePostorder = .ok order ∧ Lists g order ∧ k < order.length ∧
      g.SettlesAt order k ∧
      Exact g order (g.sweeps order k) ∧
      g.dominators = .ok ⟨g.entry, order, g.sweeps order k, Table.ofList (order.filterMap fun b =>
        if b = g.entry then none else (closestDominator (g.sweeps order k) b).map fun a => (b, a)),
          k + 1⟩ := by
  obtain ⟨order, horder, nodup, mem_iff⟩ := reversePostorder_spec closed
  have lists : Lists g order := ⟨nodup, mem_iff⟩
  obtain ⟨k, hk, hsettles, hsettle, hexact⟩ := settle_startSets lists
  exact ⟨order, k, horder, lists, hk, hsettles, hexact, by simp only [dominators, horder, hsettle,
    bind, Except.bind]⟩

/-- On a graph whose reachable blocks are all there the dominators are found. -/
theorem dominators_describes (closed : g.Closed) : ∃ d, g.dominators = .ok d ∧ d.Describes g := by
  obtain ⟨order, k, horder, lists, _, _, hexact, hdoms⟩ := dominators_eq closed
  obtain ⟨nodup, mem_iff⟩ := lists
  refine ⟨_, hdoms, rfl, nodup, mem_iff, fun b => ?_, fun b hb a => hexact.2 b ((mem_iff b).2 hb) a,
    fun b a => ?_⟩
  · rw [Table.mem_iff, hexact.1.keys]
    exact mem_iff b
  · have hkeys : ((order.filterMap fun b =>
        if b = g.entry then none else (closestDominator (g.sweeps order k) b).map fun a =>
          (b, a)).map Prod.fst).Nodup := by
      refine (map_filterMap_sublist Prod.fst fun c e hc => ?_).nodup nodup
      split at hc
      · cases hc
      · obtain ⟨_, _, rfl⟩ := Option.map_eq_some_iff.1 hc
        rfl
    show (Table.ofList _).get? b = some a ↔ _
    rw [Table.get?_ofList hkeys, List.mem_filterMap]
    constructor
    · rintro ⟨c, hc, he⟩
      split at he
      · cases he
      · rename_i hne
        obtain ⟨a', ha', heq⟩ := Option.map_eq_some_iff.1 he
        cases heq
        obtain ⟨a'', ha'', hclosest⟩ := closestDominator_eq ⟨nodup, mem_iff⟩ hexact hc hne
        rw [ha'] at ha''
        cases ha''
        exact ⟨(mem_iff b).1 hc, hclosest⟩
    · rintro ⟨hb, hclosest⟩
      have hne := hclosest.1.ne_entry
      obtain ⟨a', ha', hclosest'⟩ :=
        closestDominator_eq ⟨nodup, mem_iff⟩ hexact ((mem_iff b).2 hb) hne
      refine ⟨b, (mem_iff b).2 hb, ?_⟩
      rw [if_neg hne, ha', isClosest_unique hb hclosest hclosest']
      rfl

end Graph

end ThreeAddress

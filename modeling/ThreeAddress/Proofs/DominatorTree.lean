import ThreeAddress.Proofs.DominatorSets
import ThreeAddress.Proofs.IteratedFrontiers

/-!
# The dominator tree and frontiers

What construction of SSA form relies on:

1. `preorder_spec`: the preorder of the dominator tree lists each reachable block once; and
   `tour_spec`: the walk over the tree enters the blocks in this order, each from its immediate
   dominator.
2. `eq_of_chain`: what does not change between a block and its immediate dominator, for the blocks
   on the way from `p` up to one of its dominators, is the same at both ends.
3. `mem_iterated_of_mem_chain`: a join has in its iterated frontier all the blocks on the way from a
   predecessor up to its immediate dominator.
-/

namespace ThreeAddress

namespace TreeStep

/-- The block that a step enters. -/
def entered? : TreeStep → Option Label
  | enter b => some b
  | leave _ => none

/-- The blocks that are entered. -/
def entered (steps : List TreeStep) : List Label := steps.filterMap entered?

end TreeStep

namespace Graph

variable {g : Graph} {d : Dominators} {a b c p x : Label} {blocks : List Label} {fuel : Nat}
  {α : Type}

/-! ## Immediate dominators -/

theorem IsClosest.not_dominates (h : g.IsClosest a b) (hb : g.Reachable b) : ¬ g.Dominates b a :=
  fun hba => h.1.1 (Dominates.antisymm (h.1.2.reachable hb) h.1.2 hba)

/-- Between a block and its immediate dominator there is no other dominator. -/
theorem IsClosest.dominates_iff (h : g.IsClosest a b) (hb : g.Reachable b) :
    g.Dominates c b ↔ c = b ∨ g.Dominates c a := by
  constructor
  · intro hc
    by_cases hcb : c = b
    · exact .inl hcb
    · exact .inr (h.2 c ⟨hcb, hc⟩)
  · rintro (rfl | hc)
    · exact .refl c
    · exact hc.trans h.1.2

theorem idom?_entry (hd : d.Describes g) : d.idom? g.entry = none := by
  cases h : d.idom? g.entry with
  | none => rfl
  | some a => exact absurd rfl ((hd.idom?_eq _ _).1 h).2.1.ne_entry

theorem exists_idom? (hd : d.Describes g) (hb : g.Reachable b) (hne : b ≠ g.entry) :
    ∃ a, d.idom? b = some a ∧ g.IsClosest a b := by
  obtain ⟨a, ha⟩ := exists_closest_dominator hb hne
  exact ⟨a, (hd.idom?_eq b a).2 ⟨hb, ha⟩, ha⟩

theorem mem_children : c ∈ d.children b ↔ d.idom? c = some b := by
  rw [Dominators.idom?, Table.get?_eq_some_iff, Dominators.children, List.mem_map]
  constructor
  · rintro ⟨⟨c', a⟩, he, rfl⟩
    obtain ⟨he, ha⟩ := List.mem_filter.1 he
    have : a = b := of_decide_eq_true ha
    exact this ▸ he
  · intro he
    exact ⟨(c, b), List.mem_filter.2 ⟨he, decide_eq_true rfl⟩, rfl⟩

theorem nodup_children (d : Dominators) (b : Label) : (d.children b).Nodup :=
  List.Nodup.sublist (List.Sublist.map Prod.fst List.filter_sublist) d.idoms.nodup

/-- How many blocks dominate `b`. -/
def depth (d : Dominators) (b : Label) : Nat := (d.order.filter fun a => d.dominates a b).length

theorem dominates_iff (hd : d.Describes g) (hb : g.Reachable b) :
    d.dominates a b = true ↔ g.Dominates a b := by
  rw [Dominators.dominates, decide_eq_true_eq]
  exact hd.mem_getD b hb a

theorem depth_idom (hd : d.Describes g) (h : d.idom? b = some a) : depth d a < depth d b := by
  obtain ⟨hb, hclosest⟩ := (hd.idom?_eq b a).1 h
  have ha := hclosest.1.2.reachable hb
  have hnodup : (b :: d.order.filter fun c => d.dominates c a).Nodup := by
    refine List.nodup_cons.2 ⟨fun hmem => ?_, hd.nodup.sublist List.filter_sublist⟩
    exact hclosest.not_dominates hb ((dominates_iff hd ha).1 (List.mem_filter.1 hmem).2)
  refine Nat.lt_of_lt_of_le (Nat.lt_succ_self _) (hnodup.length_le_of_subset fun c hc => ?_)
  rw [List.mem_filter, dominates_iff hd hb, hclosest.dominates_iff hb]
  rcases List.mem_cons.1 hc with rfl | hc
  · exact ⟨(hd.mem_order c).2 hb, .inl rfl⟩
  · obtain ⟨hco, hca⟩ := List.mem_filter.1 hc
    exact ⟨hco, .inr ((dominates_iff hd ha).1 hca)⟩

theorem depth_pos (hd : d.Describes g) (hb : g.Reachable b) : 0 < depth d b :=
  List.length_pos_of_mem (List.mem_filter.2 ⟨(hd.mem_order b).2 hb,
    (dominates_iff hd hb).2 (.refl b)⟩)

theorem depth_le (d : Dominators) (b : Label) : depth d b ≤ d.order.length :=
  List.length_filter_le _ _

/-- Induction along the dominator tree. -/
theorem Reachable.alongTree (hd : d.Describes g) {P : Label → Prop} (entry : P g.entry)
    (step : ∀ b a, g.Reachable b → d.idom? b = some a → P a → P b) (hb : g.Reachable b) : P b := by
  generalize hn : depth d b = n
  induction n using Nat.strongRecOn generalizing b with
  | ind n ih =>
    by_cases hne : b = g.entry
    · exact hne ▸ entry
    · obtain ⟨a, ha, hclosest⟩ := exists_idom? hd hb hne
      exact step b a hb ha (ih _ (hn ▸ depth_idom hd ha) (hclosest.1.2.reachable hb) rfl)

/-- A block dominates itself and what its children dominate. -/
theorem dominates_iff_children (hd : d.Describes g) (hc : g.Reachable c) :
    g.Dominates b c ↔ b = c ∨ ∃ a ∈ d.children b, g.Dominates a c := by
  constructor
  · refine hc.alongTree (P := fun c => g.Dominates b c → b = c ∨ ∃ a ∈ d.children b,
      g.Dominates a c) hd
      (fun h => .inl (eq_entry_of_dominates h)) fun c a hc ha ih hbc => ?_
    have hclosest := ((hd.idom?_eq c a).1 ha).2
    rcases (hclosest.dominates_iff hc).1 hbc with rfl | hba
    · exact .inl rfl
    · rcases ih hba with rfl | ⟨e, he, hea⟩
      · exact .inr ⟨c, mem_children.2 ha, .refl c⟩
      · exact .inr ⟨e, he, hea.trans hclosest.1.2⟩
  · rintro (rfl | ⟨a, ha, hac⟩)
    · exact .refl b
    · have ha := ((hd.idom?_eq a b).1 (mem_children.1 ha)).2
      exact ha.1.2.trans hac

/-! ## Preorder -/

/-- No block lies below two of the blocks. -/
def Apart (g : Graph) (a b : Label) : Prop := ∀ c, g.Reachable c → g.Dominates a c →
    ¬ g.Dominates b c

theorem children_apart (hd : d.Describes g) (ha : a ∈ d.children c) (hb : b ∈ d.children c)
    (hne : a ≠ b) : g.Apart a b := by
  obtain ⟨hra, hca⟩ := (hd.idom?_eq a c).1 (mem_children.1 ha)
  obtain ⟨hrb, hcb⟩ := (hd.idom?_eq b c).1 (mem_children.1 hb)
  intro e he hae hbe
  rcases dominates_total he hae hbe with h | h
  · exact hca.not_dominates hra (hcb.2 a ⟨hne, h⟩)
  · exact hcb.not_dominates hrb (hca.2 b ⟨Ne.symm hne, h⟩)

/-- The blocks of the subtrees below a stack, one subtree after the other. -/
inductive Preorder (d : Dominators) : (stack blocks : List Label) → Prop
  | nil : Preorder d [] []
  | cons {b : Label} {stack rest : List Label} :
    Preorder d (d.children b ++ stack) rest → Preorder d (b :: stack) (b :: rest)

/-- The blocks below those on a stack. -/
def below (g : Graph) (stack : List Label) (c : Label) : Prop :=
  g.Reachable c ∧ ∃ b ∈ stack, g.Dominates b c

/-- What the walk needs of its stack: subtrees that are apart. -/
structure Walking (g : Graph) (stack : List Label) : Prop where
  reachable : ∀ b ∈ stack, g.Reachable b
  apart : stack.Pairwise g.Apart

section Walking

variable {stack left : List Label}

theorem Walking.pop (hd : d.Describes g) (h : Walking g (b :: stack)) :
    Walking g (d.children b ++ stack) where
  reachable c hc := by
    rcases List.mem_append.1 hc with hc | hc
    · exact ((hd.idom?_eq c b).1 (mem_children.1 hc)).1
    · exact h.reachable c (.tail _ hc)
  apart := by
    obtain ⟨hb, hstack⟩ := List.pairwise_cons.1 h.apart
    refine List.pairwise_append.2 ⟨?_, hstack, fun c hc e he x hx hcx hex => ?_⟩
    · exact (nodup_children d b).imp_of_mem fun ha hc hne => children_apart hd ha hc hne
    · exact hb e he x hx ((dominates_iff_children hd hx).2 (.inr ⟨c, hc, hcx⟩)) hex

theorem Walking.below_pop (hd : d.Describes g) (h : Walking g (b :: stack)) (c : Label) :
    below g (b :: stack) c ↔ c = b ∨ below g (d.children b ++ stack) c := by
  constructor
  · rintro ⟨hc, e, he, hec⟩
    rcases List.mem_cons.1 he with rfl | he
    · rcases (dominates_iff_children hd hc).1 hec with rfl | ⟨a, ha, hac⟩
      · exact .inl rfl
      · exact .inr ⟨hc, a, List.mem_append_left _ ha, hac⟩
    · exact .inr ⟨hc, e, List.mem_append_right _ he, hec⟩
  · rintro (rfl | ⟨hc, e, he, hec⟩)
    · exact ⟨h.reachable c (.head _), c, .head _, .refl c⟩
    · rcases List.mem_append.1 he with he | he
      · exact ⟨hc, b, .head _, (dominates_iff_children hd hc).2 (.inr ⟨e, he, hec⟩)⟩
      · exact ⟨hc, e, .tail _ he, hec⟩

theorem Walking.not_below (hd : d.Describes g) (h : Walking g (b :: stack)) :
    ¬ below g (d.children b ++ stack) b := by
  rintro ⟨hb, e, he, heb⟩
  rcases List.mem_append.1 he with he | he
  · obtain ⟨hre, hclosest⟩ := (hd.idom?_eq e b).1 (mem_children.1 he)
    exact hclosest.not_dominates hre heb
  · exact (List.pairwise_cons.1 h.apart).1 e he b hb (.refl b) heb

theorem preorderFrom_spec (hd : d.Describes g) (h : Walking g stack)
    (hleft : ∀ c, below g stack c → c ∈ left) (enough : left.length ≤ fuel) :
    (d.preorderFrom fuel stack).Nodup ∧ (∀ c, c ∈ d.preorderFrom fuel stack ↔ below g stack c) ∧
      Preorder d stack (d.preorderFrom fuel stack) := by
  induction fuel generalizing stack left with
  | zero =>
    have hnil : left = [] := List.length_eq_zero_iff.1 (by omega)
    subst hnil
    have hnone : ∀ c, ¬ below g stack c := fun c hc => List.not_mem_nil (hleft c hc)
    cases stack with
    | nil => exact ⟨List.nodup_nil, fun c => iff_of_false List.not_mem_nil (hnone c), .nil⟩
    | cons b stack => exact absurd ((h.below_pop hd b).2 (.inl rfl)) (hnone b)
  | succ fuel ih =>
    cases stack with
    | nil =>
      refine ⟨List.nodup_nil, fun c => iff_of_false List.not_mem_nil ?_, .nil⟩
      rintro ⟨_, b, hb, _⟩
      cases hb
    | cons b stack =>
      have hbelow := h.below_pop hd
      have hb : b ∈ left := hleft b ((hbelow b).2 (.inl rfl))
      have hlen := List.length_erase_of_mem hb
      have hpos : 0 < left.length := List.length_pos_of_mem hb
      obtain ⟨nodup, mem, pre⟩ := @ih (d.children b ++ stack) (left.erase b) (h.pop hd)
        (fun c hc => by
          have hcb : c ≠ b := fun e => h.not_below hd (e ▸ hc)
          exact (List.mem_erase_of_ne hcb).2 (hleft c ((hbelow c).2 (.inr hc))))
        (by omega)
      rw [Dominators.preorderFrom]
      refine ⟨List.nodup_cons.2 ⟨fun hm => h.not_below hd ((mem b).1 hm), nodup⟩, fun c => ?_,
        .cons pre⟩
      rw [List.mem_cons, mem, hbelow]

end Walking

/-- The preorder of the dominator tree lists each reachable block once. -/
theorem preorder_spec (hd : d.Describes g) :
    d.preorder.Nodup ∧ (∀ b, b ∈ d.preorder ↔ g.Reachable b) ∧ Preorder d [d.entry] d.preorder := by
  have hwalk : Walking g [d.entry] := by
    refine ⟨fun b hb => ?_, List.pairwise_singleton _ _⟩
    rw [List.mem_singleton.1 hb, hd.entry_eq]
    exact reachable_entry
  have hbelow : ∀ c, below g [d.entry] c ↔ g.Reachable c := by
    intro c
    rw [hd.entry_eq]
    exact ⟨fun h => h.1, fun h => ⟨h, g.entry, .head _, entry_dominates c⟩⟩
  obtain ⟨nodup, mem, pre⟩ := preorderFrom_spec hd hwalk
    (fun c hc => (hd.mem_order c).2 ((hbelow c).1 hc)) (Nat.le_refl d.order.length)
  exact ⟨nodup, fun b => (mem b).trans (hbelow b), pre⟩

/-! ## Tours -/

/-- A walk goes down from immediate dominators and back up: `path` holds the blocks that were
entered and not left, the latest first. -/
def Nested (d : Dominators) : (path : List Label) → (tour : List TreeStep) → Prop
  | _, [] => True
  | path, .enter b :: tour => d.idom? b = path.head? ∧ Nested d (b :: path) tour
  | path, .leave b :: tour => ∃ rest, path = b :: rest ∧ Nested d rest tour

/-- The steps on a stack: subtrees below the latest block of `path`, then that block is left. -/
def Pending (d : Dominators) : (path : List Label) → (stack : List TreeStep) → Prop
  | _, [] => True
  | path, .enter b :: stack => d.idom? b = path.head? ∧ Pending d path stack
  | path, .leave b :: stack => ∃ rest, path = b :: rest ∧ Pending d rest stack

section Tours

variable {path : List Label} {stack : List TreeStep}

theorem Pending.enter (h : Pending d path stack) {bs : List Label}
    (hbs : ∀ b ∈ bs, d.idom? b = path.head?) : Pending d path (bs.map .enter ++ stack) := by
  induction bs with
  | nil => exact h
  | cons b bs ih =>
    obtain ⟨hb, hbs⟩ := List.forall_mem_cons.1 hbs
    exact ⟨hb, ih hbs⟩

theorem Pending.nested (h : Pending d path stack) : Nested d path (d.tourFrom fuel stack) := by
  induction fuel generalizing path stack with
  | zero => exact trivial
  | succ fuel ih =>
    cases stack with
    | nil => exact trivial
    | cons step stack =>
      cases step with
      | enter b =>
        have hleave : Pending d (b :: path) (.leave b :: stack) := ⟨path, rfl, h.2⟩
        exact ⟨h.1, ih (hleave.enter fun c hc => mem_children.1 hc)⟩
      | leave b =>
        obtain ⟨rest, hpath, h⟩ := h
        exact ⟨rest, hpath, ih h⟩

theorem entered_tourFrom (h : Preorder d (TreeStep.entered stack) blocks)
    (enough : 2 * blocks.length + stack.length ≤ fuel + (TreeStep.entered stack).length) :
    TreeStep.entered (d.tourFrom fuel stack) = blocks := by
  induction fuel generalizing stack blocks with
  | zero =>
    have hle : (TreeStep.entered stack).length ≤ stack.length := List.length_filterMap_le _ _
    exact (List.length_eq_zero_iff.1 (by omega)).symm
  | succ fuel ih =>
    cases stack with
    | nil =>
      cases h
      rfl
    | cons step stack =>
      cases step with
      | enter b =>
        cases h with
        | @cons _ _ rest h =>
          have hentered : TreeStep.entered ((d.children b).map .enter ++ .leave b :: stack)
              = d.children b ++ TreeStep.entered stack := by
            rw [TreeStep.entered, List.filterMap_append, List.filterMap_map]
            exact congrArg (· ++ TreeStep.entered stack) List.filterMap_some
          have henter : TreeStep.entered (.enter b :: stack) = b :: TreeStep.entered stack := rfl
          refine congrArg (b :: ·) (ih (hentered ▸ h) ?_)
          simp only [hentered, henter, List.length_cons, List.length_append,
            List.length_map] at enough ⊢
          omega
      | leave b =>
        have hleave : TreeStep.entered (.leave b :: stack) = TreeStep.entered stack := rfl
        refine ih h ?_
        simp only [hleave, List.length_cons] at enough
        omega

/-- The walk over the dominator tree enters the blocks in preorder. -/
theorem tour_spec (hd : d.Describes g) :
    TreeStep.entered d.tour = d.preorder ∧ Nested d [] d.tour := by
  obtain ⟨nodup, mem, pre⟩ := preorder_spec hd
  refine ⟨entered_tourFrom pre ?_, Pending.nested ⟨?_, trivial⟩⟩
  · have hle := nodup.length_le_of_subset fun b hb => (hd.mem_order b).2 ((mem b).1 hb)
    show 2 * d.preorder.length + 1 ≤ 2 * d.order.length + 1
    omega
  · rw [hd.entry_eq]
    exact idom?_entry hd

end Tours

/-! ## Chains -/

/-- What does not change between a block and its immediate dominator, for the blocks on the way from
`p` up to one of its dominators, is the same at both ends. -/
theorem eq_of_climb (hd : d.Describes g) (F : Label → α) (hp : g.Reachable p)
    (hap : g.Dominates a p) (enough : depth d p ≤ fuel)
    (same : ∀ c ∈ d.climb (some a) fuel p, ∀ e, d.idom? c = some e → F c = F e) : F p = F a := by
  induction fuel generalizing p with
  | zero =>
    have := depth_pos hd hp
    omega
  | succ fuel ih =>
    by_cases hpa : p = a
    · rw [hpa]
    · have hne : p ≠ g.entry := by
        rintro rfl
        exact hpa (eq_entry_of_dominates hap).symm
      obtain ⟨e, he, hclosest⟩ := exists_idom? hd hp hne
      have hclimb : d.climb (some a) (fuel + 1) p = p :: d.climb (some a) fuel e := by
        rw [Dominators.climb, if_neg (fun h => hpa (Option.some.inj h).symm), he]
      rw [hclimb] at same
      have hae : g.Dominates a e := hclosest.2 a ⟨Ne.symm hpa, hap⟩
      have := depth_idom hd he
      rw [same p (.head _) e he]
      exact ih (hclosest.1.2.reachable hp) hae (by omega) fun c hc => same c (.tail _ hc)

theorem eq_of_chain (hd : d.Describes g) (F : Label → α) (hp : g.Reachable p)
    (hap : g.Dominates a p) (same : ∀ c ∈ d.chain (some a) p, ∀ e, d.idom? c = some e → F c = F e) :
    F p = F a :=
  eq_of_climb hd F hp hap (depth_le d p) same

theorem climb_dominates (hd : d.Describes g) {stop : Option Label} (hp : g.Reachable p) :
    ∀ c ∈ d.climb stop fuel p, g.Dominates c p := by
  induction fuel generalizing p with
  | zero => intro c hc; cases hc
  | succ fuel ih =>
    intro c hc
    rw [Dominators.climb] at hc
    split at hc
    · cases hc
    · rcases List.mem_cons.1 hc with rfl | hc
      · exact .refl c
      · cases he : d.idom? p with
        | none =>
          rw [he] at hc
          cases hc
        | some e =>
          rw [he] at hc
          have hclosest := ((hd.idom?_eq p e).1 he).2
          exact (ih (hclosest.1.2.reachable hp) c hc).trans hclosest.1.2

/-! ## Frontiers -/

theorem mem_frontier (nodup : d.order.Nodup) (hx : x ∈ d.order) :
    b ∈ (g.frontiers d).frontier x ↔ b ∈ d.order ∧ x ∈ g.runners d b := by
  rw [Frontiers.frontier, frontiers, Table.getD, Table.get?_ofList_map nodup, if_pos hx,
    Option.getD_some, List.mem_map]
  constructor
  · rintro ⟨⟨b', rs⟩, he, rfl⟩
    obtain ⟨he, hxr⟩ := List.mem_filter.1 he
    obtain ⟨c, hc, heq⟩ := List.mem_map.1 he
    cases heq
    exact ⟨hc, of_decide_eq_true hxr⟩
  · rintro ⟨hb, hxr⟩
    exact ⟨(b, g.runners d b), List.mem_filter.2 ⟨List.mem_map.2 ⟨b, hb, rfl⟩, decide_eq_true hxr⟩,
      rfl⟩

theorem frontier_subset (nodup : d.order.Nodup) :
    ∀ b ∈ (g.frontiers d).frontier x, b ∈ d.order := by
  intro b hb
  by_cases hx : x ∈ d.order
  · exact ((mem_frontier nodup hx).1 hb).1
  · rw [Frontiers.frontier, frontiers, Table.getD, Table.get?_ofList_map nodup, if_neg hx] at hb
    cases hb

/-- A frontier holds blocks that control may come to from somewhere. -/
theorem exists_pred_of_mem_frontier (nodup : d.order.Nodup) (h : b ∈ (g.frontiers d).frontier x) :
    ∃ p, b ∈ g.next p := by
  by_cases hx : x ∈ d.order
  · obtain ⟨p, hp, _⟩ := List.mem_flatMap.1 ((mem_frontier nodup hx).1 h).2
    exact ⟨p, (mem_predsWithin.1 hp).2⟩
  · rw [Frontiers.frontier, frontiers, Table.getD, Table.get?_ofList_map nodup, if_neg hx] at h
    cases h

/-- The iterated frontier holds the frontiers of the blocks and of its own. -/
theorem mem_iterated (nodup : d.order.Nodup) (hx : x ∈ d.order)
    (hmem : x ∈ blocks ∨ x ∈ (g.frontiers d).iterated blocks)
    (hb : b ∈ (g.frontiers d).frontier x) : b ∈ (g.frontiers d).iterated blocks :=
  Frontiers.mem_iterated_of_frontier (fun _ => frontier_subset nodup) hx hmem hb

/-- A block that joins control has in its iterated frontier all blocks on the way from a predecessor
up to its immediate dominator. -/
theorem mem_iterated_of_mem_chain (hd : d.Describes g) {s : Label} (hp : g.Reachable p)
    (hs : s ∈ g.next p) (hc : c ∈ d.chain (d.idom? s) p)
    (hmem : c ∈ blocks ∨ c ∈ (g.frontiers d).iterated blocks) :
    s ∈ (g.frontiers d).iterated blocks := by
  have hco : c ∈ d.order := (hd.mem_order c).2 ((climb_dominates hd hp c hc).reachable hp)
  refine mem_iterated hd.nodup hco hmem
    ((mem_frontier hd.nodup hco).2 ⟨(hd.mem_order s).2 (hp.step hs), ?_⟩)
  exact List.mem_flatMap.2 ⟨p, mem_predsWithin.2 ⟨(hd.mem_order p).2 hp, hs⟩, hc⟩

end Graph

end ThreeAddress

import ThreeAddress.Proofs.DominatorsByDeletion

/-!
# The recursive search

Reverse postorder is found with an explicit stack, on which blocks wait with the successors that
they have still to try. `Explores` is the search as it is usually told, by recursion: go through the
successors in turn, and into each that was not seen before. Its result is a forest, from which the
order of finishing and the ancestors of a block can be read off.

1. `Searches.completes`: what the stack does from its top down is what the recursive search does, so
   the reverse postorder is the finishing order of the recursive search reversed
   (`reversePostorder_explores`).
2. `Explores.trail`: some trail to a block leads through its ancestors only, so that dominators are
   ancestors.
3. `Explores.edge`: an edge leads to a block that was seen before, to an ancestor, or to a block
   that is finished sooner.
-/

namespace ThreeAddress

/-! ## Forests -/

/-- What a search finds: a block with what is found below it, its children and all that is below
these; and what is found after it, its siblings and all that is below these. -/
inductive SearchForest where
  | empty
  | node (b : Label) (children siblings : SearchForest)

namespace SearchForest

/-- The blocks in the order in which they are finished: each after all that is below it. -/
def finished : SearchForest → List Label
  | empty => []
  | node b children siblings => children.finished ++ b :: siblings.finished

/-- `t.Above a b`: in the forest `a` is an ancestor of `b`. -/
inductive Above : SearchForest → Label → Label → Prop
  | root {a b : Label} {children siblings : SearchForest} : b ∈ children.finished →
    Above (node a children siblings) a b
  | inChildren {a b c : Label} {children siblings : SearchForest} : Above children a b →
    Above (node c children siblings) a b
  | inSiblings {a b c : Label} {children siblings : SearchForest} : Above siblings a b →
    Above (node c children siblings) a b

/-- `t.Sooner a b`: in the forest `a` is finished before `b`. -/
def Sooner (t : SearchForest) (a b : Label) : Prop := ∃ earlier later, t.finished = earlier ++
    b :: later ∧ a ∈ earlier

/-- Where an edge from `u` leads: to a block that was seen before the search, to `u` itself, to an
ancestor, or to a block that is finished sooner. -/
inductive Target (t : SearchForest) (seen : List Label) (u : Label) : Label → Prop
  | seen {v : Label} : v ∈ seen → Target t seen u v
  | self : Target t seen u u
  | ancestor {v : Label} : t.Above v u → Target t seen u v
  | sooner {v : Label} : t.Sooner v u → Target t seen u v

variable {a b c : Label} {children siblings t : SearchForest}

theorem mem_finished_node :
    b ∈ (node c children siblings).finished ↔ b ∈ children.finished ∨ b = c ∨
      b ∈ siblings.finished := by
  rw [finished, List.mem_append, List.mem_cons]

theorem sooner_of_mem (h : a ∈ children.finished) : (node b children siblings).Sooner a b :=
  ⟨children.finished, siblings.finished, rfl, h⟩

theorem Sooner.inChildren (h : children.Sooner a b) : (node c children siblings).Sooner a b := by
  obtain ⟨earlier, later, heq, ha⟩ := h
  exact ⟨earlier, later ++ c :: siblings.finished, by simp [finished, heq], ha⟩

/-- A block and all that is below it come sooner than its siblings and what is below these. -/
theorem sooner_of_mem_siblings (ha : a ∈ children.finished ∨ a = c) (hb : b ∈ siblings.finished) :
    (node c children siblings).Sooner a b := by
  obtain ⟨earlier, later, heq⟩ := List.append_of_mem hb
  refine ⟨children.finished ++ c :: earlier, later, by simp [finished, heq], ?_⟩
  rcases ha with ha | rfl
  · exact List.mem_append_left _ ha
  · exact List.mem_append_right _ (.head _)

theorem Sooner.inSiblings (h : siblings.Sooner a b) : (node c children siblings).Sooner a b := by
  obtain ⟨earlier, later, heq, ha⟩ := h
  refine ⟨children.finished ++ c :: earlier, later, by simp [finished, heq], ?_⟩
  exact List.mem_append_right _ (.tail _ ha)

/-- A block is finished before its ancestors. -/
theorem Above.sooner (h : t.Above a b) : t.Sooner b a := by
  induction h with
  | root hb => exact sooner_of_mem hb
  | inChildren _ ih => exact ih.inChildren
  | inSiblings _ ih => exact ih.inSiblings

/-- What is finished sooner comes later in the order that is reversed. -/
theorem Sooner.idxOf_lt (h : t.Sooner a b) (nodup : t.finished.reverse.Nodup) :
    t.finished.reverse.idxOf b < t.finished.reverse.idxOf a := by
  obtain ⟨earlier, later, heq, ha⟩ := h
  rw [heq, List.reverse_append, List.reverse_cons, List.append_assoc,
    List.singleton_append] at nodup ⊢
  exact idxOf_lt_of_mem_rest nodup (List.mem_reverse.2 ha)

end SearchForest

/-! ## The search by recursion -/

namespace Graph

variable {g : Graph} {b : Label}

/-- `g.Explores seen todo t seen'`: the search that has seen `seen` goes through the blocks `todo`
in turn. It passes by a block that was seen; into any other it goes, by a search of its successors,
and then it is finished with the block. In the end the blocks `seen'` are seen, and those that are
new form the forest `t`. -/
inductive Explores (g : Graph) : (seen todo : List Label) → SearchForest → (seen' : List Label) →
    Prop
  | done {seen : List Label} : Explores g seen [] .empty seen
  | pass {seen seen' rest : List Label} {s : Label} {t : SearchForest} : s ∈ seen →
    Explores g seen rest t seen' →
      Explores g seen (s :: rest) t seen'
  | visit {seen seen' seen'' rest : List Label} {s : Label} {children siblings : SearchForest} :
    s ∉ seen →
      Explores g (s :: seen) (g.next s) children seen' → Explores g seen' rest siblings seen'' →
      Explores g seen (s :: rest) (.node s children siblings) seen''

namespace Explores

variable {seen seen' seen'' todo : List Label} {t t' : SearchForest}

section

variable (h : g.Explores seen todo t seen')
include h

/-- There is one search. -/
theorem unique (h' : g.Explores seen todo t' seen'') : t = t' ∧ seen' = seen'' := by
  induction h generalizing t' seen'' with
  | done =>
    cases h'
    exact ⟨rfl, rfl⟩
  | pass hs _ ih =>
    cases h' with
    | pass _ h' => exact ih h'
    | visit hs' => exact absurd hs hs'
  | visit hs _ _ ihChildren ihSiblings =>
    cases h' with
    | pass hs' => exact absurd hs' hs
    | visit _ hchildren hsiblings =>
      obtain ⟨rfl, rfl⟩ := ihChildren hchildren
      obtain ⟨rfl, rfl⟩ := ihSiblings hsiblings
      exact ⟨rfl, rfl⟩

/-- The blocks in the forest are those that were not seen before. -/
theorem mem_seen (b : Label) : b ∈ seen' ↔ b ∈ seen ∨ b ∈ t.finished := by
  induction h with
  | done => simp [SearchForest.finished]
  | pass _ _ ih => exact ih
  | visit _ _ _ ihChildren ihSiblings =>
    rw [ihSiblings, ihChildren, SearchForest.mem_finished_node, List.mem_cons]
    grind

theorem todo_seen : ∀ s ∈ todo, s ∈ seen' := by
  induction h with
  | done => exact fun s hs => (List.not_mem_nil hs).elim
  | pass hs h ih => exact List.forall_mem_cons.2 ⟨(h.mem_seen _).2 (.inl hs), ih⟩
  | visit _ hchildren hsiblings _ ihSiblings =>
    refine List.forall_mem_cons.2 ⟨(hsiblings.mem_seen _).2 (.inl ?_), ihSiblings⟩
    exact (hchildren.mem_seen _).2 (.inl (.head _))

/-- Where the edges lead. -/
theorem edge {u v : Label} (hu : u ∈ t.finished) (hv : v ∈ g.next u) : t.Target seen u v := by
  induction h with
  | done => cases hu
  | pass _ _ ih => exact ih hu
  | @visit seen seen' seen'' rest s children siblings _ hchildren _ ihChildren ihSiblings =>
    have hnew : v ∈ seen' → v ∈ seen ∨ v ∈ children.finished ∨ v = s := by
      rw [hchildren.mem_seen, List.mem_cons]
      grind
    rcases SearchForest.mem_finished_node.1 hu with hin | rfl | hin
    · cases ihChildren hin with
      | seen hseen =>
        rcases List.mem_cons.1 hseen with rfl | hseen
        · exact .ancestor (.root hin)
        · exact .seen hseen
      | self => exact .self
      | ancestor habove => exact .ancestor (.inChildren habove)
      | sooner hsooner => exact .sooner hsooner.inChildren
    · -- All successors were tried, so `v` was seen before `u` is finished.
      rcases hnew (hchildren.todo_seen v hv) with hseen | hmem | rfl
      · exact .seen hseen
      · exact .sooner (SearchForest.sooner_of_mem hmem)
      · exact .self
    · cases ihSiblings hin with
      | seen hseen =>
        rcases hnew hseen with hseen | hmem
        · exact .seen hseen
        · exact .sooner (SearchForest.sooner_of_mem_siblings hmem hin)
      | self => exact .self
      | ancestor habove => exact .ancestor (.inSiblings habove)
      | sooner hsooner => exact .sooner hsooner.inSiblings

/-- Some trail to a block leads through its ancestors only. -/
theorem trail {xs : List Label} (htodo : ∀ s ∈ todo, g.Trail (s :: xs) s) (hb : b ∈ t.finished) :
    ∃ ys, g.Trail (ys ++ xs) b ∧ ∀ a ∈ ys, a = b ∨ t.Above a b := by
  induction h generalizing xs with
  | done => cases hb
  | pass _ _ ih => exact ih (List.forall_mem_cons.1 htodo).2 hb
  | @visit seen seen' seen'' rest s children siblings _ _ _ ihChildren ihSiblings =>
    obtain ⟨hs, hrest⟩ := List.forall_mem_cons.1 htodo
    rcases SearchForest.mem_finished_node.1 hb with hb | rfl | hb
    · obtain ⟨ys, htrail, habove⟩ := ihChildren (fun c hc => .step hs hc) hb
      refine ⟨ys ++ [s], by rwa [List.append_assoc], fun a ha => ?_⟩
      rcases List.mem_append.1 ha with ha | ha
      · exact (habove a ha).imp_right .inChildren
      · cases List.mem_singleton.1 ha
        exact .inr (.root hb)
    · exact ⟨[b], hs, fun a ha => .inl (List.mem_singleton.1 ha)⟩
    · obtain ⟨ys, htrail, habove⟩ := ihSiblings hrest hb
      exact ⟨ys, htrail, fun a ha => (habove a ha).imp_right .inSiblings⟩

end

end Explores

/-! ## The stack and the recursion -/

/-- From its top down, the stack is worked off by recursive searches, and in the end the blocks are
finished in the order `order`. -/
inductive Completes (g : Graph) :
    (visited : List Label) → (stack : List (Label × List Label)) → (done order : List Label) → Prop
  | stop {visited order : List Label} : Completes g visited [] order order
  | next {visited visited' todo done order : List Label} {stack : List (Label × List Label)}
    {b : Label} {t : SearchForest} :
      g.Explores visited todo t visited' →
      Completes g visited' stack (b :: (t.finished.reverse ++ done)) order →
      Completes g visited ((b, todo) :: stack) done order

/-- The search with a stack is the recursive search. -/
theorem Searches.completes {visited done order : List Label} {stack : List (Label × List Label)}
    (run : Searches g visited stack done order) : g.Completes visited stack done order := by
  induction run with
  | stop => exact .stop
  | finish _ ih => exact .next .done ih
  | pass hs _ ih =>
    cases ih with
    | next hrest hstack => exact .next (.pass hs hrest) hstack
  | visit hs hss _ ih =>
    cases ih with
    | next hchildren hstack =>
      cases hstack with
      | next hsiblings hstack =>
        rw [← next_of_get? hss] at hchildren
        refine .next (.visit hs hchildren hsiblings) ?_
        simpa [SearchForest.finished] using hstack

/-- The reverse postorder is the order in which a recursive search finishes the blocks, reversed. It
starts with the entry, which is finished last. -/
theorem reversePostorder_explores (closed : g.Closed) : ∃ t seen, g.Explores [] [g.entry] t seen ∧
    g.reversePostorder = .ok t.finished.reverse ∧ t.finished.reverse.head? = some g.entry := by
  obtain ⟨ss, order, hss, horder, run⟩ := reversePostorder_searches closed
  cases run.completes with
  | @next _ seen _ _ _ _ _ children hchildren hstop =>
    cases hstop with
    | stop =>
      rw [← next_of_get? hss] at hchildren
      have hlast : (SearchForest.node g.entry children .empty).finished.reverse
          = g.entry :: (children.finished.reverse ++ []) := by
        simp [SearchForest.finished]
      refine ⟨_, seen, .visit List.not_mem_nil hchildren .done,
        horder.trans (congrArg _ hlast.symm), ?_⟩
      rw [hlast]
      rfl

/-- A dominator is the block itself or an ancestor. -/
theorem Explores.above_of_dominates {t : SearchForest} {seen : List Label}
    (h : g.Explores [] [g.entry] t seen) {a : Label} (hb : b ∈ t.finished)
    (hdom : g.Dominates a b) : a = b ∨ t.Above a b := by
  have hentry : ∀ s ∈ [g.entry], g.Trail [s] s := fun s hs => List.mem_singleton.1 hs ▸ .entry
  obtain ⟨ys, htrail, habove⟩ := h.trail hentry hb
  rw [List.append_nil] at htrail
  exact habove a (hdom ys htrail)

end Graph

namespace Func

/-- The reverse postorder of a function is found if its entry and the targets of the blocks that can
be reached are there. It is the order in which the recursive search from the entry finishes the
blocks, reversed; so it lists the blocks that can be reached, each once, and the entry first. A
dominator never comes after the blocks that it dominates. An edge leads to a block that does not
come after its source exactly if this is the source itself or an ancestor of it in the search. -/
theorem reversePostorder_recursive (f : Func) (hentry : f.entry ∈ f.blocks)
    (htargets : ∀ l b, f.graph.Reachable l → f.block? l = some b → ∀ s ∈ b.successors,
      s ∈ f.blocks) :
    ∃ order t seen, f.reversePostorder = .ok order ∧
      f.graph.Explores [] [f.entry] t seen ∧
      (∀ t' seen', f.graph.Explores [] [f.entry] t' seen' → t' = t) ∧
      order = t.finished.reverse ∧ (∀ b, b ∈ order ↔ f.graph.Reachable b) ∧ order.Nodup ∧
      order.head? = some f.entry ∧
      (∀ a b, f.graph.Reachable b → f.graph.Dominates a b → order.idxOf a ≤ order.idxOf b) ∧
      ∀ u v, f.graph.Reachable u → v ∈ f.graph.next u →
        (order.idxOf v ≤ order.idxOf u ↔ v = u ∨ t.Above v u) := by
  have closed : f.graph.Closed := by
    rintro l ⟨xs, hxs⟩
    cases hxs with
    | entry => exact mem_graph.2 hentry
    | step hxs hs =>
      obtain ⟨b, hb, hs⟩ := block_of_mem_next hs
      exact mem_graph.2 (htargets _ b ⟨_, hxs⟩ hb _ hs)
  obtain ⟨t, seen, hexplores, horder, hhead⟩ := Graph.reversePostorder_explores closed
  obtain ⟨order, horder', nodup, hreachable⟩ := Graph.reversePostorder_spec closed
  cases horder.symm.trans horder'
  have hfound : ∀ {b}, f.graph.Reachable b → b ∈ t.finished :=
    fun hb => List.mem_reverse.1 ((hreachable _).2 hb)
  have hfirst : ∀ {a b}, a = b ∨ t.Above a b →
      t.finished.reverse.idxOf a ≤ t.finished.reverse.idxOf b := by
    rintro a b (rfl | habove)
    · exact Nat.le_refl _
    · exact Nat.le_of_lt (habove.sooner.idxOf_lt nodup)
  refine ⟨_, t, seen, ?_, hexplores, fun t' seen' h' => (h'.unique hexplores).1, rfl, hreachable,
    nodup, hhead, fun a b hb hdom => hfirst (hexplores.above_of_dominates (hfound hb) hdom),
    fun u v hu hv => ⟨fun hback => ?_, hfirst⟩⟩
  · rw [reversePostorder, horder]
    rfl
  · cases hexplores.edge (hfound hu) hv with
    | seen hseen => cases hseen
    | self => exact .inl rfl
    | ancestor habove => exact .inr habove
    | sooner hsooner => exact absurd hback (Nat.not_le.2 (hsooner.idxOf_lt nodup))

/-- A loop with two ways in and an edge to the entry; and a block that cannot be reached, which
jumps nowhere. -/
def adrift : Func where
  name := "main"
  params := ["c"]
  blocks := Table.ofList [
    ("entry", { name := "entry", term := some (.branch (.var ⟨"c", none⟩) "left" "right") }),
    ("left", { name := "left", term := some (.branch (.var ⟨"c", none⟩) "right" "entry") }),
    ("right", { name := "right", term := some (.branch (.var ⟨"c", none⟩) "left" "right") }),
    ("lost", { name := "lost", term := some (.jump "nowhere") })]

/-- The search goes into `left` first, so the edge from `right` leads back to an ancestor. -/
theorem reversePostorder_recursive_adrift :
    adrift.entry ∈ adrift.blocks ∧
      (∀ l b, adrift.graph.Reachable l → adrift.block? l = some b → ∀ s ∈ b.successors,
        s ∈ adrift.blocks) ∧
      ∃ t seen, adrift.graph.Explores [] ["entry"] t seen ∧
      t.finished = ["right", "left", "entry"] ∧
        t.Above "left" "right" ∧ t.Above "entry" "left" := by
  have hentry : adrift.entry ∈ adrift.blocks := by decide
  have htargets : ∀ l b, adrift.graph.Reachable l → adrift.block? l = some b → ∀ s ∈ b.successors,
      s ∈ adrift.blocks := by
    have hnone : ∀ b ∈ adrift.blocks.values, "lost" ∉ b.successors := by decide
    have hothers : ∀ b ∈ adrift.blocks.values, b.name ≠ "lost" → ∀ s ∈ b.successors,
        s ∈ adrift.blocks := by decide
    have hnames : ∀ e ∈ adrift.blocks.entries, e.2.name = e.1 := by decide
    rintro l b ⟨xs, hxs⟩ hb
    refine hothers b (Table.mem_values.2 ⟨l, hb⟩) fun hname => ?_
    have hlost : l = "lost" := (hnames (l, b) (Table.get?_eq_some_iff.1 hb)).symm.trans hname
    cases hxs with
    | entry => exact absurd hlost (by decide)
    | step _ hl =>
      obtain ⟨c, hc, hl⟩ := block_of_mem_next hl
      exact hnone c (Table.mem_values.2 ⟨_, hc⟩) (hlost ▸ hl)
  obtain ⟨order, t, seen, horder, hexplores, _, heq, hreachable, _, _, _, hedge⟩ :=
    adrift.reversePostorder_recursive hentry htargets
  have hcomputed : adrift.reversePostorder = .ok ["entry", "left", "right"] := by decide +kernel
  cases horder.symm.trans hcomputed
  refine ⟨hentry, htargets, t, seen, hexplores, ?_, ?_, ?_⟩
  · rw [← List.reverse_reverse t.finished, ← heq]
    rfl
  · have hright := (hreachable "right").1 (by decide)
    exact ((hedge "right" "left" hright (by decide)).1 (by decide)).resolve_left (by decide)
  · have hleft := (hreachable "left").1 (by decide)
    exact ((hedge "left" "entry" hleft (by decide)).1 (by decide)).resolve_left (by decide)

end Func

end ThreeAddress

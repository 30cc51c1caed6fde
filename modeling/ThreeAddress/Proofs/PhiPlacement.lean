import ThreeAddress.Proofs.DominatorTree
import ThreeAddress.Proofs.EntryBlock
import ThreeAddress.Ssa.Construction

/-!
# Where phis are placed

Which names get a phi at which block. What matters is `PhisPlaced.merge`: on an edge to a block
without phi for a name, nothing between the source of the edge and the immediate dominator of its
target touches the name. So one definition of it reaches the end of both.
-/

namespace ThreeAddress

/-! ## The blocks that assign a name -/

theorem getD_foldl_addDefBlock (assignments : List (String × Label))
    (sites : Table String (List Label)) (x : String) :
    (assignments.foldl (fun sites a => addDefBlock sites a.1 a.2) sites).getD x []
      = sites.getD x [] ++ (assignments.filter (·.1 = x)).map Prod.snd := by
  induction assignments generalizing sites with
  | nil => simp
  | cons a rest ih =>
    rw [List.foldl_cons, ih, addDefBlock, Table.getD_insert, List.filter_cons]
    by_cases hx : x = a.1
    · simp [hx]
    · have hx' : ¬ a.1 = x := fun e => hx e.symm
      simp [hx, hx']

namespace Func

variable {order : List Label} {x : String} {l : Label}

/-- The name is assigned in the block, or it is a parameter and the block is the entry. -/
def Assigns (f : Func) (l : Label) (x : String) : Prop := x ∈ f.assignedIn l ∨ l = f.entry ∧
    x ∈ f.params

theorem mem_defBlocks {f : Func} (nodup : f.params.Nodup) (hl : l ∈ order) (h : f.Assigns l x) :
    l ∈ (f.defBlocks order).getD x [] := by
  rw [defBlocks, getD_foldl_addDefBlock, List.mem_append]
  rcases h with h | ⟨rfl, h⟩
  · refine .inr (List.mem_map.2 ⟨(x, l), List.mem_filter.2 ⟨?_, by simp⟩, rfl⟩)
    exact List.mem_flatMap.2 ⟨l, hl, List.mem_map.2 ⟨x, h, rfl⟩⟩
  · left
    rw [Table.getD, Table.get?_ofList_map nodup, if_pos h]
    exact .head _

/-- The names that get a phi at a block. -/
def phiNames (sites : List (String × List Label)) (l : Label) : List String :=
  (sites.filter fun s => decide (l ∈ s.2)).map Prod.fst

/-- A block with blank phis in front. -/
def withPhis (names : List String) (b : Block) : Block :=
  { b with instrs := (names.map fun x => .phi (blankPhi x b.preds)) ++ b.instrs }

theorem labels_blankPhi (x : String) (preds : List Label) : (blankPhi x preds).labels = preds := by
  simp [blankPhi, Phi.labels, Function.comp_def]

/-- Where the names `names l` got phis at each block `l`. -/
structure PhisPlaced (f : Func) (d : Dominators) (names : Label → List String) : Prop where
  nodup : ∀ l, (names l).Nodup
  /-- Phis stand where control may come from somewhere. -/
  joins : ∀ l, ∀ x ∈ names l, ∃ p, l ∈ f.graph.next p
  /-- A name that is defined between the source of an edge and the immediate dominator of its target
  has a phi at the target. -/
  merge : ∀ {p s c x}, f.graph.Reachable p → s ∈ f.graph.next p → c ∈ d.chain (d.idom? s) p →
    f.Assigns c x ∨ x ∈ names c → x ∈ names s

variable {f : Func} {d : Dominators}

theorem mem_phiNames {df : Frontiers} :
    x ∈ phiNames (f.phiSites order df) l ↔
      ∃ blocks, (f.defBlocks order).get? x = some blocks ∧ l ∈ df.iterated blocks := by
  unfold phiNames phiSites
  rw [List.mem_map]
  constructor
  · rintro ⟨⟨y, ls⟩, hmem, rfl⟩
    obtain ⟨he, hl⟩ := List.mem_filter.1 hmem
    obtain ⟨⟨z, blocks⟩, hz, heq⟩ := List.mem_map.1 he
    cases heq
    exact ⟨blocks, Table.get?_eq_some_iff.2 hz, of_decide_eq_true hl⟩
  · rintro ⟨blocks, hx, hl⟩
    refine ⟨(x, df.iterated blocks), List.mem_filter.2 ⟨?_, decide_eq_true hl⟩, rfl⟩
    exact List.mem_map.2 ⟨(x, blocks), Table.get?_eq_some_iff.1 hx, rfl⟩

theorem nodup_phiNames (f : Func) (order : List Label) (df : Frontiers) (l : Label) :
    (phiNames (f.phiSites order df) l).Nodup := by
  have hkeys : ((f.phiSites order df).map Prod.fst).Nodup := by
    rw [phiSites, List.map_map]
    exact (f.defBlocks order).nodup
  exact hkeys.sublist (List.filter_sublist.map Prod.fst)

/-- Names get phis at the iterated frontier of the blocks that assign them. -/
theorem phisPlaced (hd : d.Describes f.graph) (nodup : f.params.Nodup) :
    PhisPlaced f d (phiNames (f.phiSites d.order (f.graph.frontiers d))) where
  nodup := nodup_phiNames f d.order _
  joins l x hx := by
    obtain ⟨blocks, _, hl⟩ := mem_phiNames.1 hx
    have hpred : ∀ b, ∀ y ∈ (f.graph.frontiers d).frontier b, ∃ p, y ∈ f.graph.next p := fun _ _ =>
      Graph.exists_pred_of_mem_frontier hd.nodup
    exact Frontiers.iterated_induction (fun b _ _ => hpred b) (fun b _ => hpred b) l hl
  merge {p s c x} hp hs hc h := by
    have hco : c ∈ d.order := (hd.mem_order c).2 ((Graph.climb_dominates hd hp c hc).reachable hp)
    obtain ⟨blocks, hx, hmem⟩ : ∃ blocks, (f.defBlocks d.order).get? x = some blocks ∧
        (c ∈ blocks ∨ c ∈ (f.graph.frontiers d).iterated blocks) := by
      rcases h with h | h
      · have hc := mem_defBlocks nodup hco h
        cases hx : (f.defBlocks d.order).get? x with
        | none =>
          rw [Table.getD, hx] at hc
          cases hc
        | some blocks => exact ⟨blocks, rfl, .inl (Table.getD_of_get? hx ▸ hc)⟩
      · obtain ⟨blocks, hx, hc⟩ := mem_phiNames.1 h
        exact ⟨blocks, hx, .inr hc⟩
    exact mem_phiNames.2 ⟨blocks, hx, Graph.mem_iterated_of_mem_chain hd hp hs hc hmem⟩

theorem withPhis_spec {b : Block} (h : ∀ i ∈ b.instrs, i.isPhi = false) (names : List String) :
    (withPhis names b).phis = names.map (blankPhi · b.preds) ∧ (withPhis names b).body = b.instrs ∧
      (withPhis names b).Tidy := by
  refine Block.tidy_of_eq ?_ h fun φ hφ => ?_
  · show _ ++ b.instrs = _
    rw [List.map_map]
    rfl
  · obtain ⟨x, _, rfl⟩ := List.mem_map.1 hφ
    exact labels_blankPhi x b.preds

theorem graph_placePhis (f : Func) (sites : List (String × List Label)) :
    (f.placePhis sites).graph = f.graph :=
  graph_rewrite fun _ _ _ => rfl

theorem WellFormed.placePhis (wf : f.WellFormed) (hphi : f.PhiFree)
    (sites : List (String × List Label)) : (f.placePhis sites).WellFormed :=
  wf.rewrite fun l b hb => ⟨rfl, rfl, rfl, fun h => h, fun _ => (withPhis_spec (hphi l b hb) _).2.2⟩

end Func

end ThreeAddress

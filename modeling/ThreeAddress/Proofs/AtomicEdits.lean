import Std.Data.String.ToNat
import ThreeAddress.Func.Edges
import ThreeAddress.Proofs.Edits
import ThreeAddress.Proofs.Tables

/-!
# Edits of edges are made in full or not at all

The edits that take away an edge, split one, or delete a block make several changes one after the
other, and each of them looks blocks up. Yet none fails after its first change: what they look up
later is there, and the label that they make is new. So each is one change, or none
(`Edit.removeEdge_eq_apply`, `Edit.splitEdge_eq_applyWith`, `Edit.deleteBlock_eq_apply`).
-/

namespace ThreeAddress

/-! ## Fresh labels -/

theorem numbered_injective (base : String) (i j : Nat) (h : numbered base i = numbered base j) :
    i = j := by
  have hne : ∀ n, base ≠ base ++ "." ++ (n + 1).repr := by
    intro n heq
    rw [String.append_assoc, eq_comm, String.append_eq_left_iff, String.append_eq_empty_iff] at heq
    exact absurd heq.1 (by decide)
  cases i with
  | zero =>
    cases j with
    | zero => rfl
    | succ j => exact absurd h (hne j)
  | succ i =>
    cases j with
    | zero => exact absurd h.symm (hne i)
    | succ j => exact Nat.repr_inj.1 (String.append_right_inj _ |>.1 h)

namespace Func

variable {f : Func} {l : Label}

theorem freshLabel_not_mem (f : Func) (base : String) : f.freshLabel base ∉ f.blocks :=
  firstFree_not_mem (numbered_injective base)

/-! ## Changing one block -/

theorem modifyBlock_modifyBlock (f : Func) (l : Label) (g g' : Block → Block) :
    (f.modifyBlock l g).modifyBlock l g' = f.modifyBlock l fun b => g' (g b) := by
  have hblocks : (f.blocks.modify l g).modify l g' = f.blocks.modify l fun b => g' (g b) := by
    refine Table.ext_of_keys (by simp) fun k _ => ?_
    simp only [Table.get?_modify]
    split
    · exact Option.map_map ..
    · rfl
  exact congrArg (fun blocks => { f with blocks := blocks }) hblocks

theorem modifyBlock_of_not_mem (h : l ∉ f.blocks) (g : Block → Block) : f.modifyBlock l g = f := by
  have hblocks : f.blocks.modify l g = f.blocks := by
    refine Table.ext_of_keys (by simp) fun k hk => ?_
    have hne : k ≠ l := fun heq => h (heq ▸ Table.mem_modify.1 hk)
    rw [Table.get?_modify, if_neg hne]
  exact congrArg (fun blocks => { f with blocks := blocks }) hblocks

/-- The function with an empty block `label` on the edge from `src` to `dst`. -/
def withEdgeBlock (f : Func) (src dst label : Label) : Func :=
  let f := (f.modifyBlock src (·.retarget dst label)).modifyBlock dst (·.renamePred src label)
  let mid : Block := { name := label, term := some (.jump dst), preds := [src] }
  { f with blocks := f.blocks.insertBefore dst label mid }

theorem getBlock_of_mem (h : l ∈ f.blocks) : ∃ b, f.getBlock l = .ok b := by
  obtain ⟨b, hb⟩ := Table.mem_iff_get?.1 h
  refine ⟨b, ?_⟩
  unfold getBlock block?
  rw [hb]

end Func

namespace Edit

open Func

variable {f : Func}

/-! ## The edits -/

theorem removeEdge_eq_apply (src dst : Label) :
    removeEdge src dst = apply (·.removeEdge src dst) := by
  funext f
  cases hdst : f.getBlock dst with
  | error e =>
    have hremove : f.removeEdge src dst = .error e := by
      simp only [Func.removeEdge, hdst]
      rfl
    rw [apply_error hremove]
    exact ask_bind_error (g := (·.getBlock dst)) hdst _
  | ok b =>
    have hremove : f.removeEdge src dst = .ok (f.modifyBlock dst (·.dropPred src)) := by
      simp only [Func.removeEdge, hdst]
      rfl
    rw [apply_ok hremove, removeEdge, ask_bind_ok (g := (·.getBlock dst)) hdst, modify_bind, modify,
      modifyBlock_modifyBlock]
    rfl

/-- The edits of the two ends keep the labels, so the block that is put on the edge is new. -/
theorem splitEdge_eq_applyWith (src dst : Label) (name : Option String) :
    splitEdge src dst name = applyWith (·.splitEdge src dst name) := by
  funext f
  rw [splitEdge]
  cases hsrc : f.getBlock src with
  | error e =>
    have hsplit : f.splitEdge src dst name = .error e := by
      simp only [Func.splitEdge, hsrc]
      rfl
    rw [applyWith_error hsplit]
    exact ask_bind_error (g := (·.getBlock src)) hsrc _
  | ok source =>
    rw [ask_bind_ok (g := (·.getBlock src)) hsrc]
    cases hdst : f.getBlock dst with
    | error e =>
      have hsplit : f.splitEdge src dst name = .error e := by
        simp only [Func.splitEdge, hsrc, hdst]
        rfl
      rw [applyWith_error hsplit]
      exact ask_bind_error (g := (·.getBlock dst)) hdst _
    | ok target =>
      rw [ask_bind_ok (g := (·.getBlock dst)) hdst, get_bind]
      by_cases hedge : dst ∉ source.successors
      · have hsplit : f.splitEdge src dst name = .error (.violation (.noEdge f.name src dst)) := by
          simp only [Func.splitEdge, hsrc, hdst, bind, Except.bind, if_pos hedge]
          rfl
        rw [applyWith_error hsplit]
        simp only [if_pos hedge]
        exact fail_bind _ _ f
      · simp only [if_neg hedge]
        have hlabel := freshLabel_not_mem f (edgeName src dst name)
        have hsplit : f.splitEdge src dst name = .ok (f.freshLabel (edgeName src dst name),
            f.withEdgeBlock src dst (f.freshLabel (edgeName src dst name))) := by
          simp only [Func.splitEdge, hsrc, hdst, bind, Except.bind, if_neg hedge]
          rfl
        rw [applyWith_ok hsplit, modify_bind, modify_bind, modify_bind, modifyBlock_modifyBlock]
        generalize f.freshLabel (edgeName src dst name) = label at hlabel
        have hfresh : label ∉ ((f.modifyBlock src (·.retarget dst label)).modifyBlock dst
            (·.renamePred src label)).blocks := fun hmem =>
          hlabel (Table.mem_modify.1 (Table.mem_modify.1 hmem))
        have hinsert : Func.insertBlock ((f.modifyBlock src (·.retarget dst label)).modifyBlock dst
            (·.renamePred src label)) { name := label, term := some (.jump dst), preds := [src] }
            (some dst) = .ok (f.withEdgeBlock src dst label) := if_neg hfresh
        exact apply_bind_ok (g := (·.insertBlock _ _)) hinsert _

/-- What deleting a block does to the blocks it leads to. -/
theorem forM_removeEdge (l : Label) (succs : List Label) (f : Func) :
    (succs.forM fun s => do if s ∈ (← get).blocks ∧ s ≠ l then removeEdge l s : Edit PUnit) f
      = ⟨.ok ⟨⟩, (succs.filter (· ≠ l)).foldl (fun f s => f.modifyBlock s (·.dropPred l)) f, []⟩ := by
  induction succs generalizing f with
  | nil => rfl
  | cons s succs ih =>
    have hstep : (do if s ∈ (← get).blocks ∧ s ≠ l then removeEdge l s : Edit PUnit) f
        = ⟨.ok ⟨⟩, if s ≠ l then f.modifyBlock s (·.dropPred l) else f, []⟩ := by
      rw [get_bind]
      by_cases hs : s ∈ f.blocks
      · by_cases hne : s ≠ l
        · obtain ⟨b, hb⟩ := getBlock_of_mem hs
          have hremove : f.removeEdge l s = .ok (f.modifyBlock s (·.dropPred l)) := by
            simp only [Func.removeEdge, hb]
            rfl
          rw [if_pos ⟨hs, hne⟩, if_pos hne, removeEdge_eq_apply]
          exact apply_ok hremove
        · rw [if_neg fun h => hne h.2, if_neg hne]
          rfl
      · rw [if_neg fun h => hs h.1, modifyBlock_of_not_mem hs, ite_self]
        rfl
    show ((do if s ∈ (← get).blocks ∧ s ≠ l then removeEdge l s : Edit PUnit) >>= fun _ =>
      succs.forM fun s => do if s ∈ (← get).blocks ∧ s ≠ l then removeEdge l s : Edit PUnit) f = _
    rw [bind_def, hstep]
    simp only [ih, List.nil_append]
    by_cases hne : s ≠ l
    · rw [if_pos hne, List.filter_cons_of_pos (by simpa using hne), List.foldl_cons]
    · rw [if_neg hne, List.filter_cons_of_neg (by simpa using hne)]

theorem deleteBlock_eq_apply (l : Label) : deleteBlock l = apply (·.deleteBlock l) := by
  funext f
  rw [deleteBlock]
  cases hb : f.getBlock l with
  | error e =>
    have hdelete : f.deleteBlock l = .error e := by
      simp only [Func.deleteBlock, hb]
      rfl
    rw [apply_error hdelete]
    exact ask_bind_error (g := (·.getBlock l)) hb _
  | ok b =>
    let kept := (b.successors.filter (· ≠ l)).foldl (fun f s => f.modifyBlock s (·.dropPred l)) f
    have hdelete : f.deleteBlock l = .ok { kept with blocks := kept.blocks.erase l } := by
      simp only [Func.deleteBlock, hb]
      rfl
    rw [apply_ok hdelete, ask_bind_ok (g := (·.getBlock l)) hb, bind_def, forM_removeEdge]
    rfl

end Edit

end ThreeAddress

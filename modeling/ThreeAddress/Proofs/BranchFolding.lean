import ThreeAddress.Constants.Propagation
import ThreeAddress.Proofs.ConstantSearch
import ThreeAddress.Proofs.Reachability

/-!
# Folding branches

Branches on constants become jumps, one after the other, and the arms that are lost forget the edge.
The function that this leaves, `Func.foldedOn`, is known block by block (`foldBranches_yields`) and
is well-formed. A branch that does not wait for evidence leads where the facts say
(`mem_targets_of_foldTerm`).
-/

namespace ThreeAddress

variable {t : Terminator} {x : Label}

namespace Facts

variable {f : Func} {s : Facts}

/-- A terminator as it is left: a branch on a constant is a jump. -/
def foldTerm (s : Facts) : Terminator → Terminator
  | .branch c t e =>
    match (s.valueOf c).const? with
    | some n => .jump (if n ≠ 0 then t else e)
    | none => .branch c t e
  | t => t

/-- The arm that a branch on a constant loses. -/
def lostArm (s : Facts) : Terminator → Option Label
  | .branch c t e =>
    match (s.valueOf c).const? with
    | some n => if (if n ≠ 0 then e else t) ≠ (if n ≠ 0 then t else e) then some
      (if n ≠ 0 then e else t) else none
    | none => none
  | _ => none

theorem mem_targets_foldTerm :
    x ∈ (s.foldTerm t).targets ↔ x ∈ t.targets ∧ s.lostArm t ≠ some x := by
  cases t with
  | branch c t e =>
    cases hc : (s.valueOf c).const? with
    | none => simp [foldTerm, lostArm, hc]
    | some n =>
      by_cases hn : n = 0
      · by_cases hte : t = e
        · simp [foldTerm, lostArm, hc, hn, hte, Terminator.targets]
        · simp [foldTerm, lostArm, hc, hn, hte, Terminator.targets]
          grind
      · by_cases hte : t = e
        · simp [foldTerm, lostArm, hc, hn, hte, Terminator.targets]
        · simp [foldTerm, lostArm, hc, hn, hte, Ne.symm hte, Terminator.targets]
          grind
  | _ => simp [foldTerm, lostArm]

theorem mem_uses_of_foldTerm {x : Operand} (h : x ∈ (s.foldTerm t).uses) : x ∈ t.uses := by
  cases t with
  | branch c t e =>
    cases hc : (s.valueOf c).const? with
    | none => simpa only [foldTerm, hc] using h
    | some n =>
      simp only [foldTerm, hc] at h
      cases h
  | _ => exact h

/-- Where a terminator leads is not changed by folding, as long as its condition is as known. -/
theorem exit_foldTerm {value : Operand → Int}
    (h : ∀ x ∈ t.uses, ∀ n, s.valueOf x = .const n → value x = n) :
    (s.foldTerm t).exit value = t.exit value := by
  cases t with
  | branch c t e =>
    cases hc : s.valueOf c with
    | const n =>
      simp [foldTerm, hc, Constancy.const?, Terminator.exit, h c (by simp [Terminator.uses]) n hc]
    | _ => simp [foldTerm, hc, Constancy.const?]
  | _ => rfl

/-- Without open conditions, what is left of a terminator leads where the facts say. -/
theorem mem_targets_of_foldTerm (h : ∀ x ∈ t.uses, s.valueOf x ≠ .top)
    (hx : x ∈ (s.foldTerm t).targets) : x ∈ s.targets t := by
  cases t with
  | branch c t e =>
    cases hc : s.valueOf c with
    | top => exact absurd hc (h c (by simp [Terminator.uses]))
    | const n =>
      simp only [foldTerm, hc, Constancy.const?] at hx
      simpa [targets, hc, Terminator.targets] using hx
    | bottom =>
      simp only [foldTerm, hc, Constancy.const?, Terminator.targets] at hx
      by_cases hte : t = e <;> simp_all [targets]
  | jump t => exact hx
  | ret v => exact hx

/-- What the facts say is left of a terminator. -/
theorem mem_foldTerm_of_targets (hx : x ∈ s.targets t) : x ∈ (s.foldTerm t).targets := by
  cases t with
  | branch c t e =>
    cases hc : s.valueOf c with
    | top => simp [targets, hc] at hx
    | const n =>
      simp only [foldTerm, hc, Constancy.const?]
      simpa [targets, hc, Terminator.targets] using hx
    | bottom =>
      simp only [foldTerm, hc, Constancy.const?, Terminator.targets]
      by_cases hte : t = e <;> simp_all [targets]
  | jump t => exact hx
  | ret v => exact hx

end Facts

namespace Func

variable {f : Func} {s : Facts} {done : List Label} {l p : Label} {b : Block}

/-- The branch that ends `p` loses its arm `l`. -/
def loses (f : Func) (s : Facts) (p l : Label) : Bool :=
  match (f.block? p).bind (·.term) with
  | some t => decide (s.lostArm t = some l)
  | none => false

/-- A block once the branches of the blocks `done` are folded. -/
def foldedBlock (f : Func) (s : Facts) (done : List Label) (l : Label) (b : Block) : Block :=
  { b with term := if l ∈ done then b.term.map s.foldTerm else b.term }.keepPreds fun p =>
    !(decide (p ∈ done) && f.loses s p l)

/-- The function once the branches of the blocks `done` are folded. -/
def foldedOn (f : Func) (s : Facts) (done : List Label) : Func := f.rewrite (f.foldedBlock s done)

theorem loses_of_block (hb : f.block? p = some b) (ht : b.term = some t) :
    f.loses s p l = decide (s.lostArm t = some l) := by
  unfold loses
  rw [hb]
  show (match b.term with | some t => decide (s.lostArm t = some l) | none => false) = _
  rw [ht]

theorem block?_foldedOn (s : Facts) (done : List Label) (hb : f.block? l = some b) :
    (f.foldedOn s done).block? l = some (f.foldedBlock s done l b) := block?_rewrite_of_some _ hb

theorem keys_foldedOn (f : Func) (s : Facts) (done : List Label) :
    (f.foldedOn s done).blocks.keys = f.blocks.keys :=
  Table.keys_mapValues _ _

theorem foldedOn_nil (wf : f.WellFormed) (s : Facts) : f.foldedOn s [] = f := by
  refine eq_of_blocks rfl (keys_foldedOn _ _ _) fun l => ?_
  cases hb : f.block? l with
  | none => rw [foldedOn, block?_rewrite, hb, Option.map_none]
  | some b =>
    have hkeep : b.keepPreds (fun p => !(decide (p ∈ []) && f.loses s p l)) = b :=
      Block.keepPreds_eq_self (wf.tidy hb) fun p _ => rfl
    rw [block?_foldedOn s [] hb]
    exact congrArg some hkeep

/-- What folding one more branch does to a block. -/
theorem foldedBlock_cons {c : Block} (hb : f.block? l = some b) (ht : b.term = some t)
    (hl : l ∉ done) (hc : f.block? x = some c) :
    f.foldedBlock s (l :: done) x c =
      (if s.lostArm t = some x then Block.dropPred l else id)
        (if x
          = l then { f.foldedBlock s done x c with term := some (s.foldTerm t) } else f.foldedBlock
          s done x c) := by
  have hset : (if x = l then { f.foldedBlock s done x c with term := some (s.foldTerm t) }
      else f.foldedBlock s done x c) = { c with
        term := if x ∈ l :: done then c.term.map s.foldTerm else c.term }.keepPreds fun p =>
          !(decide (p ∈ done) && f.loses s p x) := by
    by_cases hxl : x = l
    · subst hxl
      cases hb.symm.trans hc
      rw [if_pos rfl, if_pos (.head _), ht]
      rfl
    · rw [if_neg hxl]
      simp only [List.mem_cons, hxl, false_or]
      rfl
  rw [hset]
  split
  · rename_i hlost
    rw [Block.dropPred_eq, Block.keepPreds_keepPreds, foldedBlock]
    congr 1
    funext p
    by_cases hp : p = l
    · subst hp
      simp [loses_of_block hb ht, hlost]
    · simp [hp]
  · rename_i hlost
    rw [id, foldedBlock]
    congr 1
    funext p
    by_cases hp : p = l
    · subst hp
      simp [hl, loses_of_block hb ht, hlost]
    · simp [hp]

/-- Terminators that are no branches on constants stay. -/
theorem foldedOn_cons_of_kept (hb : f.block? l = some b) (ht : b.term = some t) (hl : l ∉ done)
    (hfold : s.foldTerm t = t) (hlost : s.lostArm t = none) :
    f.foldedOn s (l :: done) = f.foldedOn s done := by
  refine eq_of_blocks rfl ((keys_foldedOn _ _ _).trans (keys_foldedOn _ _ _).symm) fun x => ?_
  cases hc : f.block? x with
  | none =>
    rw [foldedOn, foldedOn, block?_rewrite, block?_rewrite, hc, Option.map_none, Option.map_none]
  | some c =>
    rw [block?_foldedOn s _ hc, block?_foldedOn s _ hc, foldedBlock_cons hb ht hl hc, hlost, hfold]
    rw [if_neg (by simp), id]
    split
    · rename_i hxl
      subst hxl
      cases hb.symm.trans hc
      have hterm : (f.foldedBlock s done x b).term = some t := by
        show (if x ∈ done then b.term.map s.foldTerm else b.term) = _
        rw [if_neg hl, ht]
      rw [← hterm]
    · rfl

/-- Folding the branch of a block. -/
theorem foldBranch_yields (wf : f.WellFormed) {c : Operand} {t e : Label} {n : Int}
    (hb : f.block? l = some b) (ht : b.term = some (.branch c t e))
    (hc : (s.valueOf c).const? = some n) (hl : l ∉ done) :
    ∃ kept, (Edit.foldBranch l (decide (n ≠ 0))).Yields (f.foldedOn s done) kept
      (f.foldedOn s (l :: done)) := by
  have hterm : (f.foldedBlock s done l b).term = some (.branch c t e) := by
    show (if l ∈ done then b.term.map s.foldTerm else b.term) = _
    rw [if_neg hl, ht]
  have hget : (f.foldedOn s done).getBlock l = .ok (f.foldedBlock s done l b) := by
    rw [getBlock, block?_foldedOn s done hb]
  -- The arm that stays, and the other one.
  obtain ⟨keep, drop, hkeep, hdrop, hfold, hlost, hmem⟩ : ∃ keep drop,
    (if decide (n ≠ 0) = true then t else e) = keep ∧
      (if decide (n ≠ 0) = true then e else t) = drop ∧ s.foldTerm (.branch c t e) = .jump keep ∧
      (∀ x, s.lostArm (.branch c t e) = some x ↔ drop ≠ keep ∧ drop = x) ∧
      drop ∈ (Terminator.branch c t e).targets := by
    by_cases hn : n = 0
    · refine ⟨e, t, by simp [hn], by simp [hn], by simp [Facts.foldTerm, hc, hn], fun x => ?_, ?_⟩
      · simp [Facts.lostArm, hc, hn]
      · by_cases hte : t = e <;> simp [Terminator.targets, hte]
    · refine ⟨t, e, by simp [hn], by simp [hn], by simp [Facts.foldTerm, hc, hn], fun x => ?_, ?_⟩
      · simp [Facts.lostArm, hc, hn]
      · by_cases hte : t = e <;> simp [Terminator.targets, hte]
  obtain ⟨b₁, hb₁⟩ := exists_block.1 (wf.targets hb drop (by rw [Block.successors, ht]; exact hmem))
  refine ⟨keep, (Edit.yields_ask hget).bind ?_⟩
  simp only [hterm, hkeep, hdrop]
  refine (Edit.yields_modify _ _).bind ?_
  have hkeys : ∀ g : Block → Block, ((f.foldedOn s done).modifyBlock l g).blocks.keys
      = (f.foldedOn s (l :: done)).blocks.keys := fun g =>
    (Table.keys_modify _ _ _).trans ((keys_foldedOn _ _ _).trans (keys_foldedOn _ _ _).symm)
  by_cases hne : drop = keep
  · rw [if_neg (by simpa using hne)]
    have heq : (f.foldedOn s done).modifyBlock l (fun b => { b with term := some (.jump keep) })
        = f.foldedOn s (l :: done) := by
      refine eq_of_blocks rfl (hkeys _) fun x => ?_
      rw [block?_modifyBlock]
      cases hx : f.block? x with
      | none => simp [foldedOn, block?_rewrite, hx]
      | some c₁ =>
        have hnot : ¬ s.lostArm (.branch c t e) = some x := fun h => ((hlost x).1 h).1 hne
        rw [block?_foldedOn s _ hx, block?_foldedOn s _ hx, foldedBlock_cons hb ht hl hx, hfold,
          if_neg hnot]
        by_cases hxl : x = l <;> simp [hxl]
    rw [heq]
    exact Edit.yields_pure _ _
  · rw [if_pos hne, Edit.removeEdge_eq_apply]
    have heq : ((f.foldedOn s done).modifyBlock l fun b =>
        { b with term := some (.jump keep) }).removeEdge l drop
        = .ok (f.foldedOn s (l :: done)) := by
      obtain ⟨b₂, hb₂⟩ : ∃ b₂, ((f.foldedOn s done).modifyBlock l fun b =>
          { b with term := some (.jump keep) }).block? drop = some b₂ := by
        rw [block?_modifyBlock, block?_foldedOn s done hb₁]
        split
        · exact ⟨_, rfl⟩
        · exact ⟨_, rfl⟩
      unfold removeEdge getBlock
      rw [hb₂]
      show Except.ok _ = _
      congr 1
      refine eq_of_blocks rfl ((Table.keys_modify _ _ _).trans (hkeys _)) fun x => ?_
      rw [block?_modifyBlock, block?_modifyBlock]
      cases hx : f.block? x with
      | none => simp [foldedOn, block?_rewrite, hx]
      | some c₁ =>
        rw [block?_foldedOn s _ hx, block?_foldedOn s _ hx, foldedBlock_cons hb ht hl hx, hfold]
        by_cases hxd : x = drop
        · have hyes : s.lostArm (.branch c t e) = some x := (hlost x).2 ⟨hne, hxd.symm⟩
          rw [if_pos hyes, if_pos hxd]
          by_cases hxl : x = l <;> simp [hxl]
        · have hnot : ¬ s.lostArm (.branch c t e) = some x := fun h => hxd ((hlost x).1 h).2.symm
          rw [if_neg hnot, if_neg hxd]
          by_cases hxl : x = l <;> simp [hxl]
    exact (Edit.yields_apply heq).bind (Edit.yields_pure _ _)

/-- Folding the branches of several blocks. -/
theorem foldBranches_yields (wf : f.WellFormed) {labels : List Label}
    (hlabels : ∀ l ∈ labels, l ∈ f.blocks) (nodup : (labels ++ done).Nodup) :
    ∃ folded, (Edit.foldBranches s labels).Yields (f.foldedOn s done) folded
      (f.foldedOn s (labels.reverse ++ done)) := by
  induction labels generalizing done with
  | nil => exact ⟨0, Edit.yields_pure _ _⟩
  | cons l labels ih =>
    obtain ⟨b, hb⟩ := exists_block.1 (hlabels l (.head _))
    obtain ⟨t, ht⟩ := Option.ne_none_iff_exists'.1 (wf.closed hb)
    have hl : l ∉ done := fun hmem => (List.nodup_append.1 nodup).2.2 l (.head _) l hmem rfl
    have nodup' : (labels ++ (l :: done)).Nodup := List.perm_middle.nodup_iff.2 nodup
    obtain ⟨folded, hrest⟩ := ih (fun x hx => hlabels x (.tail _ hx)) nodup'
    have hterm : ((f.foldedOn s done).block? l).bind (·.term) = some t := by
      rw [block?_foldedOn s done hb]
      show (if l ∈ done then b.term.map s.foldTerm else b.term) = _
      rw [if_neg hl, ht]
    rw [List.reverse_cons, List.append_assoc, List.singleton_append]
    by_cases hbranch : ∃ c x y n, t = .branch c x y ∧ (s.valueOf c).const? = some n
    · obtain ⟨c, x, y, n, rfl, hc⟩ := hbranch
      obtain ⟨kept, hfold⟩ := foldBranch_yields wf hb ht hc hl
      refine ⟨folded + 1, (Edit.yields_get _).bind ?_⟩
      simp only [hterm, hc]
      exact hfold.bind ((Edit.yields_emit _ _).bind (hrest.bind (Edit.yields_pure _ _)))
    · have hcond : ∀ c x y, t = .branch c x y → (s.valueOf c).const? = none := fun c x y heq =>
        Option.eq_none_iff_forall_ne_some.2 fun n hn => hbranch ⟨c, x, y, n, heq, hn⟩
      have hsame : s.foldTerm t = t ∧ s.lostArm t = none := by
        cases t with
        | branch c x y => simp only [Facts.foldTerm, Facts.lostArm, hcond c x y rfl, and_self]
        | _ => exact ⟨rfl, rfl⟩
      rw [foldedOn_cons_of_kept hb ht hl hsame.1 hsame.2] at hrest
      refine ⟨folded, (Edit.yields_get _).bind ?_⟩
      simp only [hterm]
      cases t with
      | branch c x y =>
        simp only [hcond c x y rfl]
        exact hrest
      | _ => exact hrest

/-! ## The folded function is well-formed -/

/-- Folding takes the edges to lost arms away. -/
theorem mem_next_foldedOn (wf : f.WellFormed) :
    x ∈ (f.foldedOn s done).graph.next p ↔ x ∈ f.graph.next p ∧
      (p ∈ done → f.loses s p x = false) := by
  cases hb : f.block? p with
  | none =>
    have hnone : (f.foldedOn s done).block? p = none := by
      rw [foldedOn, block?_rewrite, hb, Option.map_none]
    simp [next_graph_of_none hb, next_graph_of_none hnone]
  | some b =>
    obtain ⟨t, ht⟩ := Option.ne_none_iff_exists'.1 (wf.closed hb)
    rw [next_graph hb, next_graph (block?_foldedOn s done hb), loses_of_block hb ht]
    show x ∈ Block.successors
      { b with term := if p ∈ done then b.term.map s.foldTerm else b.term } ↔ _
    by_cases hp : p ∈ done
    · simp [Block.successors, ht, hp, Facts.mem_targets_foldTerm]
    · simp [Block.successors, hp]

theorem WellFormed.foldedOn (wf : f.WellFormed) (s : Facts) (done : List Label) :
    (f.foldedOn s done).WellFormed := by
  refine wf.dropEdges (fun {l b} hb => ?_) fun {l b} hb x => ?_
  · split
    · simpa using wf.closed hb
    · exact wf.closed hb
  · have hnext : x ∈ (f.foldedOn s done).graph.next l ↔ _ := mem_next_foldedOn wf
    rw [next_graph (block?_foldedOn s done hb), next_graph hb] at hnext
    refine hnext.trans (and_congr_right fun _ => ?_)
    by_cases hl : l ∈ done <;> simp [hl]

end Func

end ThreeAddress

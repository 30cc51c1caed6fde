import ThreeAddress.Proofs.Frontiers
import ThreeAddress.Proofs.PhiPlacement
import ThreeAddress.Proofs.SsaForm

/-!
# Iterated frontiers are join points

Two paths converge at a block if they have no block in common before one of them ends there. The
join points of some blocks are the least set that holds every block at which paths from two of them,
from the entry or from join points converge. This module shows that phis stand exactly at the join
points of the blocks that assign their variable.

1. `Converges.exists_inFrontier`: where paths converge, dominance ends. On each of the two paths
   some block that is a source, or a join point already, dominates the last block before the end; if
   both strictly dominated the end, one of them would dominate the other and so could be avoided.
2. `InFrontier.converges`: where the dominance of a block ends, a path from it and a path from the
   entry converge.
3. `placePhis_at_joins`: the phis that construction places.
-/

namespace ThreeAddress

namespace Graph

variable {p : Nat → Label} {a b u x z : Label} {S : Label → Prop} {i k n : Nat}

/-! ## Paths that converge -/

/-- Two paths that are not empty lead from `x` and from `y` to `z`, and what they have in common is
the end of one of them. -/
def Converges (g : Graph) (x y z : Label) : Prop :=
  ∃ p m q n, 0 < m ∧ 0 < n ∧ g.Walk p m x z ∧ g.Walk q n y z ∧
    ∀ i ≤ m, ∀ j ≤ n, p i = q j → i = m ∨ j = n

/-- Where paths from two of the entry, the blocks `sites` and the blocks `J` converge, there is a
block of `J`. -/
def JoinClosed (g : Graph) (sites J : Set Label) : Prop :=
  ∀ x y z, x ∈ {g.entry} ∪ sites ∪ J → y ∈ {g.entry} ∪ sites ∪ J → x ≠ y → g.Converges x y z → z ∈ J

variable {g : Graph} {d : Dominators}

/-! ## Where paths converge, dominance ends -/

theorem Walk.start_reachable (w : g.Walk p n x z) (hlive : ∀ l s, s ∈ g.next l → g.Reachable l)
    (hn : 0 < n) : g.Reachable x :=
  hlive x (p 1) (w.start ▸ w.step 0 hn)

/-- Let the blocks `S` hold the frontiers of their own. Then on a path from one of them there is
always one that was passed before and dominates the block that the path has come to. -/
theorem Walk.exists_dominator (w : g.Walk p n x z) (hx : g.Reachable x) (hS : S x)
    (closed : ∀ a b, S a → g.InFrontier a b → S b) (hi : i ≤ n) :
    ∃ k ≤ i, S (p k) ∧ g.Dominates (p k) (p i) := by
  induction i with
  | zero => exact ⟨0, Nat.le_refl 0, w.start ▸ hS, .refl _⟩
  | succ i ih =>
    obtain ⟨k, hk, hSk, hdom⟩ := ih (Nat.le_of_succ_le hi)
    by_cases hnext : g.Dominates (p k) (p (i + 1))
    · exact ⟨k, Nat.le_succ_of_le hk, hSk, hnext⟩
    · have hfrontier : g.InFrontier (p k) (p (i + 1)) :=
        ⟨fun h => hnext h.2, p i, w.reachable hx (Nat.le_of_succ_le hi), w.step i hi, hdom⟩
      exact ⟨i + 1, Nat.le_refl _, closed _ _ hSk hfrontier, .refl _⟩

/-- A path that does not pass `b` after a block that `b` does not dominate ends at such a block. -/
theorem Walk.not_dominates (w : g.Walk p n x z) (hk : k ≤ n) (hnot : ¬ g.Dominates b (p k))
    (avoids : ∀ i ≤ n, p i ≠ b) : ¬ g.Dominates b z := by
  have hall : ∀ i, k + i ≤ n → ¬ g.Dominates b (p (k + i)) := by
    intro i
    induction i with
    | zero => exact fun _ => hnot
    | succ i ih =>
      intro hi hdom
      exact ih (by omega) (dominates_of_edge hdom (avoids _ hi).symm (w.step (k + i) (by omega)))
  have hend := hall (n - k) (by omega)
  rwa [Nat.add_sub_cancel' hk, w.stop] at hend

/-- Of two blocks on paths that converge, if both are passed before the end, one dominates the other
and the end, then the other does not. -/
theorem Walk.not_both {q : Nat → Label} {m l : Nat} (w : g.Walk p m x z) (hx : g.Reachable x)
    (apart : ∀ i ≤ m, ∀ j ≤ n, p i = q j → i = m ∨ j = n) (hk : k < m) (hl : l < n)
    (hdom : g.Dominates (p k) (q l)) : ¬ g.StrictlyDominates (q l) z := by
  rintro ⟨hne, hz⟩
  have hapart : ∀ i ≤ m, p i ≠ q l := by
    intro i hi heq
    rcases apart i hi l (Nat.le_of_lt hl) heq with rfl | rfl
    · exact hne (heq.symm.trans w.stop)
    · omega
  refine w.not_dominates (Nat.le_of_lt hk) (fun hback => ?_) hapart hz
  exact hapart k (Nat.le_of_lt hk)
    (Dominates.antisymm (w.reachable hx (Nat.le_of_lt hk)) hdom hback)

theorem Converges.exists_inFrontier {y : Label} (h : g.Converges x y z) (hx : g.Reachable x)
    (hy : g.Reachable y) (hSx : S x) (hSy : S y) (closed : ∀ a b, S a → g.InFrontier a b → S b) :
    ∃ a, S a ∧ g.InFrontier a z := by
  obtain ⟨p, m, q, n, hm, hn, hp, hq, apart⟩ := h
  obtain ⟨k, hk, hSk, hdomp⟩ := hp.exists_dominator hx hSx closed (i := m - 1) (by omega)
  obtain ⟨l, hl, hSl, hdomq⟩ := hq.exists_dominator hy hSy closed (i := n - 1) (by omega)
  have hlast : ∀ {r : Nat → Label} {t : Nat} {s : Label}, 0 < t → g.Walk r t s z →
      z ∈ g.next (r (t - 1)) := by
    intro r t s ht w
    have := w.step (t - 1) (by omega)
    rwa [Nat.sub_add_cancel ht, w.stop] at this
  by_cases hpz : g.StrictlyDominates (p k) z
  · by_cases hqz : g.StrictlyDominates (q l) z
    · -- Both strictly dominate the end, so one dominates the other.
      exfalso
      have hz : g.Reachable z := hp.stop ▸ hp.reachable hx (Nat.le_refl m)
      rcases dominates_total hz hpz.2 hqz.2 with hdom | hdom
      · exact hp.not_both hx apart (by omega) (by omega) hdom hqz
      · have apart' : ∀ j ≤ n, ∀ i ≤ m, q j = p i → j = n ∨
            i = m := fun j hj i hi heq => (apart i hi j hj heq.symm).symm
        exact hq.not_both hy apart' (by omega) (by omega) hdom hpz
    · exact ⟨q l, hSl, hqz, q (n - 1), hq.reachable hy (by omega), hlast hn hq, hdomq⟩
  · exact ⟨p k, hSk, hpz, p (m - 1), hp.reachable hx (by omega), hlast hm hp, hdomp⟩

/-! ## Where dominance ends, paths converge -/

/-- The path `p 0, …, p n` and then `b`. -/
def extendWalk (p : Nat → Label) (n : Nat) (b : Label) (i : Nat) : Label := if i ≤ n then p i else b

theorem extendWalk_of_le (h : i ≤ n) : extendWalk p n b i = p i := if_pos h

theorem forall_extendWalk {P : Label → Prop} (h : ∀ i ≤ n, P (p i)) (hb : P b) :
    ∀ i ≤ n + 1, P (extendWalk p n b i) := by
  intro i hi
  unfold extendWalk
  split
  · exact h i (by assumption)
  · exact hb

theorem Walk.extend (w : g.Walk p n x a) (hb : b ∈ g.next a) :
    g.Walk (extendWalk p n b) (n + 1) x b where
  start := (extendWalk_of_le (Nat.zero_le n)).trans w.start
  stop := if_neg (by omega)
  step i hi := by
    rw [extendWalk_of_le (Nat.le_of_lt_succ hi)]
    by_cases hlast : i = n
    · rw [hlast, w.stop, extendWalk, if_neg (by omega)]
      exact hb
    · rw [extendWalk_of_le (by omega)]
      exact w.step i (by omega)

/-- From a dominator a path leads to the block through nothing but blocks that it dominates. -/
theorem Dominates.exists_walk (hu : g.Reachable u) (hdom : g.Dominates x u) :
    ∃ p n, g.Walk p n x u ∧ ∀ i ≤ n, g.Dominates x (p i) := by
  obtain ⟨xs, hxs⟩ := hu
  have hstay : ∃ p n, g.Walk p n x x ∧ ∀ i ≤ n, g.Dominates x (p i) :=
    ⟨fun _ => x, 0, .single x, fun _ _ => .refl x⟩
  induction hxs with
  | entry =>
    rw [eq_entry_of_dominates hdom] at hstay ⊢
    exact hstay
  | @step xs a b hxs hb ih =>
    by_cases hxb : x = b
    · exact hxb ▸ hstay
    · obtain ⟨p, n, w, hall⟩ := ih (dominates_of_edge hdom hxb hb)
      exact ⟨_, _, w.extend hb, forall_extendWalk hall hdom⟩

/-- A block that `x` does not dominate can be reached through nothing but such blocks. -/
theorem exists_walk_of_not_dominates (hnot : ¬ g.Dominates x u) :
    ∃ p n, g.Walk p n g.entry u ∧ ∀ i ≤ n, ¬ g.Dominates x (p i) := by
  obtain ⟨xs, hxs, hx⟩ : ∃ xs, g.Trail xs u ∧ x ∉ xs := by simpa [Dominates] using hnot
  clear hnot
  induction hxs with
  | entry =>
    refine ⟨fun _ => g.entry, 0, .single g.entry, fun _ _ hdom => ?_⟩
    exact hx (hdom _ .entry)
  | @step xs a b hxs hb ih =>
    obtain ⟨p, n, w, hall⟩ := ih fun h => hx (.tail _ h)
    have hnot : ¬ g.Dominates x b := fun hdom => hx (hdom _ (.step hxs hb))
    exact ⟨_, _, w.extend hb, forall_extendWalk (P := fun c => ¬ g.Dominates x c) hall hnot⟩

/-- A block that `x` does not strictly dominate has a predecessor that `x` does not dominate. -/
theorem exists_pred_of_not_strictlyDominates (hz : g.Reachable z) (hne : z ≠ g.entry)
    (hnot : ¬ g.StrictlyDominates x z) : ∃ u, z ∈ g.next u ∧ ¬ g.Dominates x u := by
  obtain ⟨zs, hzs, hx⟩ : ∃ zs, g.Trail (z :: zs) z ∧ x ∉ zs := by
    by_cases hxz : x = z
    · obtain ⟨xs, hxs⟩ := hz
      obtain ⟨ys, hys, nodup, -⟩ := hxs.simple
      obtain ⟨zs, rfl⟩ := hys.exists_cons
      exact ⟨zs, hys, hxz ▸ (List.nodup_cons.1 nodup).1⟩
    · obtain ⟨xs, hxs, hx⟩ : ∃ xs, g.Trail xs z ∧ x ∉ xs := by
        simpa [StrictlyDominates, Dominates, hxz] using hnot
      obtain ⟨zs, rfl⟩ := hxs.exists_cons
      exact ⟨zs, hxs, fun h => hx (.tail _ h)⟩
  cases hzs with
  | entry => exact absurd rfl hne
  | @step _ u _ hu hzu => exact ⟨u, hzu, fun hdom => hx (hdom zs hu)⟩

theorem InFrontier.converges (hfirst : ∀ l, g.entry ∉ g.next l) (h : g.InFrontier x z) :
    g.Converges x g.entry z := by
  obtain ⟨hnot, u, hu, hzu, hdom⟩ := h
  have hne : z ≠ g.entry := fun heq => hfirst u (heq ▸ hzu)
  obtain ⟨v, hzv, hv⟩ := exists_pred_of_not_strictlyDominates (hu.step hzu) hne hnot
  obtain ⟨p, m, hp, hin⟩ := hdom.exists_walk hu
  obtain ⟨q, n, hq, hout⟩ := exists_walk_of_not_dominates hv
  refine ⟨_, m + 1, _, n + 1, Nat.succ_pos m, Nat.succ_pos n, hp.extend hzu, hq.extend hzv,
    fun i hi j hj heq => ?_⟩
  rcases Nat.le_or_eq_of_le_succ hi with hi | rfl
  · rcases Nat.le_or_eq_of_le_succ hj with hj | rfl
    · rw [extendWalk_of_le hi, extendWalk_of_le hj] at heq
      exact absurd (heq ▸ hin i hi) (hout j hj)
    · exact .inr rfl
  · exact .inl rfl

/-! ## Iterated frontiers -/

/-- The entry has no frontier if nothing jumps to it. -/
theorem not_inFrontier_entry (hfirst : ∀ l, g.entry ∉ g.next l) : ¬ g.InFrontier g.entry b := by
  rintro ⟨hnot, p, _, hb, _⟩
  exact hnot ⟨fun heq => hfirst p (heq ▸ hb), entry_dominates b⟩

/-- A block that paths may start from: one that can be reached and is the entry, among `blocks` or
in their iterated frontier. -/
def IsSource (g : Graph) (d : Dominators) (blocks : List Label) (a : Label) : Prop :=
  g.Reachable a ∧ a ∈ {g.entry} ∪ {b | b ∈ blocks} ∪ {b | b ∈ (g.frontiers d).iterated blocks}

theorem IsSource.mem_iterated (hd : d.Describes g) (hfirst : ∀ l, g.entry ∉ g.next l)
    {blocks : List Label} (h : g.IsSource d blocks a) (hb : g.InFrontier a b) :
    b ∈ (g.frontiers d).iterated blocks := by
  obtain ⟨ha, hsource⟩ := h
  have hfront := (mem_frontier_iff hd ha).2 hb
  have horder := (hd.mem_order a).2 ha
  rcases hsource with (hentry | hmem) | hmem
  · cases hentry
    exact absurd hb (not_inFrontier_entry hfirst)
  · exact Graph.mem_iterated hd.nodup horder (.inl hmem) hfront
  · exact Graph.mem_iterated hd.nodup horder (.inr hmem) hfront

/-- The iterated frontier of some blocks is the least set that is closed under joins. -/
theorem iterated_isLeast (hd : d.Describes g) (hfirst : ∀ l, g.entry ∉ g.next l)
    (hlive : ∀ l s, s ∈ g.next l → g.Reachable l) (blocks : List Label) :
    IsLeast {J | g.JoinClosed {b | b ∈ blocks} J} {b | b ∈ (g.frontiers d).iterated blocks} := by
  constructor
  · rintro x y z hx hy _ hconv
    have hclosed : ∀ a b, g.IsSource d blocks a → g.InFrontier a b → g.IsSource d blocks b := by
      intro a b ha hb
      have hmem := ha.mem_iterated hd hfirst hb
      obtain ⟨_, p, hp, hbp, _⟩ := hb
      exact ⟨hp.step hbp, .inr hmem⟩
    have hx' : g.Reachable x := by
      obtain ⟨p, m, _, _, hm, _, hp, _⟩ := hconv
      exact hp.start_reachable hlive hm
    have hy' : g.Reachable y := by
      obtain ⟨_, _, q, n, _, hn, _, hq, _⟩ := hconv
      exact hq.start_reachable hlive hn
    obtain ⟨a, ha, hend⟩ := hconv.exists_inFrontier hx' hy' ⟨hx', hx⟩ ⟨hy', hy⟩ hclosed
    exact ha.mem_iterated hd hfirst hend
  · intro J hJ
    refine iterated_least hd fun x _ hx b hb => ?_
    have hne : x ≠ g.entry := by
      rintro rfl
      exact not_inFrontier_entry hfirst hb
    refine hJ x g.entry b ?_ (.inl (.inl rfl)) hne (hb.converges hfirst)
    exact hx.elim (fun h => .inl (.inr h)) .inr

/-- Only the sources other than the entry matter. -/
theorem joinClosed_congr {sites sites' J : Set Label}
    (h : ∀ l, l = g.entry ∨ l ∈ sites ↔ l = g.entry ∨ l ∈ sites') :
    g.JoinClosed sites J ↔ g.JoinClosed sites' J := by
  have hsame : {g.entry} ∪ sites = {g.entry} ∪ sites' := Set.ext h
  rw [JoinClosed, JoinClosed, hsame]

end Graph

namespace Func

variable {f g : Func} {l : Label} {order : List Label} {x : String}

/-! ## Phis -/

/-- The blocks with a definition of a name: those that assign it, and the entry for a parameter. -/
theorem mem_defBlocks_iff (nodup : f.params.Nodup) :
    l ∈ (f.defBlocks order).getD x [] ↔ l = f.entry ∧ x ∈ f.params ∨ l ∈ order ∧
      x ∈ f.assignedIn l := by
  rw [defBlocks, getD_foldl_addDefBlock, List.mem_append]
  refine or_congr ?_ ?_
  · rw [Table.getD, Table.get?_ofList_map nodup]
    by_cases hx : x ∈ f.params <;> simp [hx]
  · simp [List.mem_flatMap, and_comm]

theorem not_mem_iterated_nil (df : Frontiers) (l : Label) : l ∉ df.iterated [] := by
  exact Frontiers.iterated_induction (P := fun _ => False) (fun _ h => absurd h List.not_mem_nil)
    (fun _ h => h.elim) l

theorem mem_blocks_of_assignedIn (h : x ∈ f.assignedIn l) : l ∈ f.blocks := by
  unfold assignedIn at h
  split at h
  · cases h
  · rename_i hb
    exact mem_blocks hb

/-- A name gets a phi at the iterated frontier of the blocks with a definition of it. -/
theorem mem_phiNames_iff {df : Frontiers} :
    x ∈ phiNames (f.phiSites order df) l ↔ l ∈ df.iterated ((f.defBlocks order).getD x []) := by
  rw [mem_phiNames, Table.getD]
  cases (f.defBlocks order).get? x with
  | none => simp [not_mem_iterated_nil]
  | some blocks => simp

/-- The number of phis for a name in a block. -/
def phiCount (f : Func) (l : Label) (x : String) : Nat :=
  ((f.block? l).elim [] Block.instrs).countP fun i => i.isPhi && decide (i.dest? = some ⟨x, none⟩)

theorem countP_blankPhis (preds : List Label) (names : List String) (x : String) :
    (names.map fun y => Instr.phi (blankPhi y preds)).countP
      (fun i => i.isPhi && decide (i.dest? = some ⟨x, none⟩))
      = names.count x := by
  rw [List.countP_map, List.count]
  refine List.countP_congr fun y _ => ?_
  simp [Instr.isPhi, Instr.dest?, blankPhi]

/-- A function without phis has as many phis for a name afterwards as the name stands among those of
the block. -/
theorem phiCount_placePhis (hphi : f.PhiFree) (sites : List (String × List Label))
    (hl : l ∈ f.blocks) (x : String) :
    (f.placePhis sites).phiCount l x = (phiNames sites l).count x := by
  obtain ⟨b, hb⟩ := exists_block.1 hl
  have hblock : (f.placePhis sites).block? l = some (withPhis (phiNames sites l) b) := by
    show (f.blocks.mapValues _).get? l = _
    rw [Table.get?_mapValues, show f.blocks.get? l = some b from hb]
    rfl
  have hnone : b.instrs.countP (fun i => i.isPhi && decide (i.dest? = some ⟨x, none⟩)) = 0 := by
    rw [List.countP_eq_zero]
    intro i hi
    simp [hphi l b hb i hi]
  rw [phiCount, hblock]
  show List.countP _ ((phiNames sites l).map _ ++ b.instrs) = _
  rw [List.countP_append, countP_blankPhis, hnone, Nat.add_zero]

theorem phiCount_of_not_mem (hl : l ∉ f.blocks) (x : String) : f.phiCount l x = 0 := by
  rw [phiCount, show f.block? l = none from Table.get?_eq_none_iff.2 hl]
  rfl

theorem Prepared.reachable_of_next (h : Prepared f g) (l s : Label) (hs : s ∈ g.graph.next l) :
    g.graph.Reachable l := by
  obtain ⟨b, hb, _⟩ := block_of_mem_next hs
  exact h.reachable l (mem_blocks hb)

/-- In a function that is ready for phis each name gets at most one in each block, and gets it at
the join points of the blocks that assign it. -/
theorem Prepared.phiCount_isLeast (h : Prepared f g) (nodup : g.params.Nodup) {d : Dominators}
    (hd : d.Describes g.graph) (x : String) :
    (∀ l, (g.placePhis (g.phiSites d.order (g.graph.frontiers d))).phiCount l x ≤ 1) ∧
      IsLeast {J | g.graph.JoinClosed {l | x ∈ g.assignedIn l} J}
        {l | (g.placePhis (g.phiSites d.order (g.graph.frontiers d))).phiCount l x = 1} := by
  have hcount : ∀ l, (g.placePhis (g.phiSites d.order (g.graph.frontiers d))).phiCount l x
      = if l ∈ (g.graph.frontiers d).iterated ((g.defBlocks d.order).getD x []) then 1 else 0 := by
    intro l
    by_cases hl : l ∈ g.blocks
    · rw [phiCount_placePhis h.phiFree _ hl, (nodup_phiNames g d.order _ l).count]
      simp only [mem_phiNames_iff]
    · rw [phiCount_of_not_mem fun hmem => hl (Table.mem_mapValues.1 hmem), if_neg]
      intro hmem
      exact hl (mem_graph.1
        (h.wf.graph_closed l ((hd.mem_order l).1 (List.mem_of_mem_filter hmem))))
  -- A parameter counts as assigned in the entry, which is a source anyway.
  have hsites : ∀ l, l = g.graph.entry ∨ l ∈ {l | l ∈ (g.defBlocks d.order).getD x []} ↔
      l = g.graph.entry ∨ l ∈ {l | x ∈ g.assignedIn l} := by
    intro l
    rw [Set.mem_ofPred_eq, Set.mem_ofPred_eq, mem_defBlocks_iff nodup]
    constructor
    · rintro (hl | ⟨hl, _⟩ | ⟨_, hx⟩)
      · exact .inl hl
      · exact .inl hl
      · exact .inr hx
    · rintro (hl | hx)
      · exact .inl hl
      · exact .inr (.inr ⟨(hd.mem_order l).2 (h.reachable l (mem_blocks_of_assignedIn hx)), hx⟩)
  refine ⟨fun l => ?_, ?_⟩
  · rw [hcount]
    split
    · exact Nat.le_refl 1
    · exact Nat.zero_le 1
  · have hleast := Graph.iterated_isLeast hd h.entry_first h.reachable_of_next
      ((g.defBlocks d.order).getD x [])
    simp only [Graph.joinClosed_congr hsites] at hleast
    simpa [hcount] using hleast

/-- SSA construction first removes what cannot be reached and gives the function an entry that is no
target. Where it then places phis: each name gets at most one in each block, and gets one exactly at
the join points of the blocks that assign it. The iterated frontier of any blocks is the set of
their join points. -/
theorem placePhis_at_joins (f : Func) (hphi : f.PhiFree) (hparams : f.params.Nodup)
    (hcfg : f.checkCfg = .ok ()) :
    ∃ dead g₁ fresh g₂ g d placed h, Edit.removeUnreachable.Yields f dead g₁ ∧
      Edit.ensureEntry.Yields g₁ fresh g₂ ∧ Edit.link.Yields g₂ () g ∧
      Edit.dominators.Yields g d g ∧ (Edit.placePhis d).Yields g placed h ∧
      (∀ x, (∀ l, h.phiCount l x ≤ 1) ∧
        IsLeast {J | g.graph.JoinClosed {l | x ∈ g.assignedIn l} J} {l | h.phiCount l x = 1}) ∧
      ∀ blocks, IsLeast {J | g.graph.JoinClosed {l | l ∈ blocks} J}
        {l | l ∈ (g.graph.frontiers d).iterated blocks} := by
  obtain ⟨dead, g₁, fresh, g₂, g, hremove, hensure, hlink, hprep, _⟩ :=
    (checkCfg_eq_ok.1 hcfg).prepare hphi
  obtain ⟨d, hdom, hd⟩ := hprep.wf.dominators
  have nodup : g.params.Nodup := hprep.params_eq ▸ hparams
  refine ⟨dead, g₁, fresh, g₂, g, d, _, _, hremove, hensure, hlink, Edit.yields_dominators hdom,
    (Edit.yields_get g).bind ((Edit.yields_modify _ g).bind (Edit.yields_pure _ _)),
    hprep.phiCount_isLeast nodup hd,
    Graph.iterated_isLeast hd hprep.entry_first hprep.reachable_of_next⟩

/-- Two ways through a loop that starts at the entry, one of which assigns a name, and an assignment
that cannot be reached. -/
def forkLoop : Func where
  name := "main"
  params := ["n"]
  blocks := Table.ofList [
    ("entry",
      { name := "entry", preds := ["join"],
        term := some (.branch (.var ⟨"n", none⟩) "left" "right") }),
    ("left", { name := "left", preds := ["entry"], instrs := [.copy ⟨"x", none⟩ (.const 1)],
               term := some (.jump "join") }),
    ("right", { name := "right", preds := ["entry"], term := some (.jump "join") }),
    ("lost",
      { name := "lost", instrs := [.copy ⟨"x", none⟩ (.const 2)], term := some (.jump "join") }),
    ("join", { name := "join", preds := ["left", "right", "lost"],
               instrs := [.binary ⟨"n", none⟩ "sub" (.var ⟨"n", none⟩) (.var ⟨"x", none⟩)],
               term := some (.branch (.var ⟨"n", none⟩) "entry" "done") }),
    ("done", { name := "done", preds := ["join"], term := some (.ret (some (.var ⟨"x", none⟩))) })]

theorem placePhis_at_joins_forkLoop :
    ∃ dead g₁ fresh g₂ g d placed h, Edit.removeUnreachable.Yields forkLoop dead g₁ ∧
      Edit.ensureEntry.Yields g₁ fresh g₂ ∧ Edit.link.Yields g₂ () g ∧
      Edit.dominators.Yields g d g ∧
      (Edit.placePhis d).Yields g placed h ∧
      (∀ x, (∀ l, h.phiCount l x ≤ 1) ∧
        IsLeast {J | g.graph.JoinClosed {l | x ∈ g.assignedIn l} J} {l | h.phiCount l x = 1}) ∧
      ∀ blocks, IsLeast {J | g.graph.JoinClosed {l | l ∈ blocks} J}
        {l | l ∈ (g.graph.frontiers d).iterated blocks} :=
  placePhis_at_joins forkLoop (by decide) (by decide) (by decide)

end Func

end ThreeAddress

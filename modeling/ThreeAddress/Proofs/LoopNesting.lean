import Mathlib.Data.List.Perm.Subperm
import ThreeAddress.Proofs.Loops

/-!
# How loops are nested

`Graph.InLoop` says which blocks belong to the loop of a header.

1. Two loops that have a block in common are nested (`InLoop.nested`), and the header of the inner
   one tells which is which (`InLoop.trans`, `InLoop.antisymm`).
2. So the loops that contain a loop form a chain, its depth is their number (`depthFrom_eq`), and
   the loops by decreasing depth come after all that they contain (`mem_done_of_find`).
3. A new block on the edges that enter a loop belongs to the loops around it, and changes no other
   (`Detours.of_inLoop`, `Detours.inLoop`).
-/

namespace ThreeAddress

/-! ## Sorting -/

section Sorting

variable {α : Type} {le : α → α → Bool}

theorem pairwise_insertBy (total : ∀ a b, le a b = false → le b a = true)
    (trans : ∀ a b c, le a b = true → le b c = true → le a c = true) (a : α) {l : List α}
    (h : l.Pairwise fun x y => le x y = true) :
    (insertBy le a l).Pairwise fun x y => le x y = true := by
  induction l with
  | nil => exact List.pairwise_singleton _ _
  | cons b rest ih =>
    obtain ⟨hb, hrest⟩ := List.pairwise_cons.1 h
    rw [insertBy]
    split
    · rename_i hab
      refine List.pairwise_cons.2 ⟨fun x hx => ?_, h⟩
      rcases List.mem_cons.1 hx with rfl | hx
      · exact hab
      · exact trans a b x hab (hb x hx)
    · rename_i hab
      refine List.pairwise_cons.2 ⟨fun x hx => ?_, ih hrest⟩
      rcases mem_insertBy.1 hx with rfl | hx
      · exact total x b (Bool.eq_false_iff.2 hab)
      · exact hb x hx

/-- Sorting sorts. -/
theorem pairwise_sortBy (total : ∀ a b, le a b = false → le b a = true)
    (trans : ∀ a b c, le a b = true → le b c = true → le a c = true) (l : List α) :
    (sortBy le l).Pairwise fun x y => le x y = true := by
  induction l with
  | nil => exact .nil
  | cons a rest ih => exact pairwise_insertBy total trans a ih

end Sorting

namespace Graph

/-! ## The blocks of a loop -/

/-- The block belongs to the loop of `h`: it is the header, or control gets from it to an edge that
goes back to the header without passing through the header. -/
inductive InLoop (g : Graph) (h : Label) : Label → Prop
  | header : InLoop g h h
  | latch {p : Label} : g.Reachable p → h ∈ g.next p → g.Dominates h p → InLoop g h p
  | back {p l : Label} : InLoop g h l → l ≠ h → g.Reachable p → l ∈ g.next p → InLoop g h p

section InLoop

variable {g : Graph} {d : Dominators} {h h' l x : Label}

theorem InLoop.dominates (hl : g.InLoop h l) : g.Dominates h l := by
  induction hl with
  | header => exact .refl h
  | latch _ _ hdom => exact hdom
  | back _ hne _ hnext ih => exact dominates_of_edge ih (Ne.symm hne) hnext

theorem InLoop.reachable (hh : g.Reachable h) (hl : g.InLoop h l) : g.Reachable l := by
  cases hl with
  | header => exact hh
  | latch hp _ _ => exact hp
  | back _ _ hp _ => exact hp

theorem IsHeader.reachable (hh : g.IsHeader h) : g.Reachable h := by
  obtain ⟨p, hp, hnext, _⟩ := hh
  exact hp.step hnext

/-- The blocks that are found for a loop are those that belong to it. -/
theorem mem_loopBlocks (hd : d.Describes g) (hh : g.Reachable h) :
    l ∈ g.loopBlocks d h (g.latches d h) ↔ g.InLoop h l := by
  obtain ⟨nat, hlatches⟩ := natural_loopBlocks hd hh
  constructor
  · intro hl
    have hclosure : ∀ l ∈ closure d.order (fun b => if b = h then [] else g.predsWithin d.order b)
        (h :: g.latches d h), g.InLoop h l := by
      refine closure_least (fun a ha => ?_) fun a ha b hb => ?_
      · rcases List.mem_cons.1 ha with rfl | ha
        · exact .header
        · obtain ⟨hp, hnext, hdom⟩ := (mem_latches hd).1 ha
          exact .latch hp hnext hdom
      · split at hb
        · cases hb
        · rename_i hne
          obtain ⟨hb, hnext⟩ := mem_predsWithin.1 hb
          exact .back ha hne ((hd.mem_order b).1 hb) hnext
    exact hclosure l (of_decide_eq_true (List.mem_filter.1 hl).2)
  · intro hl
    induction hl with
    | header => exact nat.header_mem
    | latch hp hnext hdom => exact hlatches _ ((mem_latches hd).2 ⟨hp, hnext, hdom⟩)
    | back _ hne hp hnext ih => exact nat.closed _ _ hp hnext ih hne

theorem mem_blocks_iff (hd : d.Describes g) {loop : Loop} (hloop : loop ∈ (g.loops d).loops) :
    l ∈ loop.blocks ↔ g.InLoop loop.header l := by
  obtain ⟨horder, _, heq⟩ := mem_loops hloop
  rw [heq]
  exact mem_loopBlocks hd ((hd.mem_order _).1 horder)

/-- Loops that have a block in common are nested. -/
theorem InLoop.nested (hd : d.Describes g) (hh : g.Reachable h) (hh' : g.Reachable h')
    (hx : g.InLoop h x) (hx' : g.InLoop h' x) : g.InLoop h h' ∨ g.InLoop h' h := by
  -- The header that is dominated belongs to the other loop: else it would dominate the other header
  -- as well.
  have hinner : ∀ {a b}, g.Reachable a → g.Reachable b → g.InLoop a x → g.InLoop b x →
      g.Dominates a b →
      g.InLoop a b := by
    intro a b ha hb hax hbx hab
    refine Classical.byContradiction fun hout => hout ?_
    have hba : g.Dominates b a :=
      (natural_loopBlocks hd ha).1.dominates_header ((mem_loopBlocks hd ha).2 hax)
      hbx.dominates fun hmem => hout ((mem_loopBlocks hd ha).1 hmem)
    rw [Dominates.antisymm ha hab hba]
    exact .header
  rcases dominates_total (hx.reachable hh) hx.dominates hx'.dominates with hab | hab
  · exact .inl (hinner hh hh' hx hx' hab)
  · exact .inr (hinner hh' hh hx' hx hab)

theorem InLoop.antisymm (hh : g.Reachable h) (hin : g.InLoop h h') (hin' : g.InLoop h' h) :
    h = h' :=
  Dominates.antisymm hh hin.dominates hin'.dominates

/-- A loop contains the loops of the headers in it. -/
theorem InLoop.trans (hh : g.Reachable h) (hin : g.InLoop h h') (hl : g.InLoop h' l) :
    g.InLoop h l := by
  by_cases heq : h' = h
  · exact heq ▸ hl
  · induction hl with
    | header => exact hin
    | latch hp hnext _ => exact .back hin heq hp hnext
    | @back p l hl hne hp hnext ih =>
      refine .back ih ?_ hp hnext
      rintro rfl
      exact heq (hin.antisymm hh hl).symm

/-- Control can stay in a loop. -/
theorem InLoop.exists_next (hh : g.IsHeader h) (hl : g.InLoop h l) :
    ∃ s ∈ g.next l, g.InLoop h s := by
  cases hl with
  | latch _ hnext _ => exact ⟨h, hnext, .header⟩
  | @back p l hl _ _ hnext => exact ⟨l, hnext, hl⟩
  | header =>
    obtain ⟨p, hp, hnext, hdom⟩ := hh
    -- On the way to the edge that goes back, control leaves the header for a block of the loop.
    have hleave : ∀ {xs l}, g.Trail xs l → g.InLoop h l → l ≠ h → ∃ s ∈ g.next h, g.InLoop h s := by
      intro xs l hxs
      induction hxs with
      | entry => exact fun hl hne => absurd (eq_entry_of_dominates hl.dominates).symm hne
      | @step xs a l hxs hstep ih =>
        intro hl hne
        by_cases ha : a = h
        · exact ⟨l, ha ▸ hstep, hl⟩
        · exact ih (.back hl hne ⟨xs, hxs⟩ hstep) ha
    by_cases heq : p = h
    · exact ⟨h, heq ▸ hnext, .header⟩
    · exact hleave hp.choose_spec (.latch hp hnext hdom) heq

end InLoop

/-! ## Depth -/

section Depth

variable {g : Graph} {d : Dominators} {l m z : Loop}

theorem nodup_loops (hd : d.Describes g) : (g.loops d).loops.Nodup := (nodup_headers hd).of_map

/-- A loop lists its blocks in the order of the graph. -/
theorem blocks_eq (hl : l ∈ (g.loops d).loops) : l.blocks = d.order.filter (· ∈ l.blocks) := by
  have hfilter := (mem_loops hl).2.2
  conv => lhs; rw [hfilter, loopBlocks]
  refine List.filter_congr fun x hx => ?_
  rw [hfilter, loopBlocks]
  simp [hx]

/-- A loop lies within those to which its header belongs, itself left out. -/
theorem within_iff (hd : d.Describes g) (hl : l ∈ (g.loops d).loops) (hm : m ∈ (g.loops d).loops) :
    l.within m = true ↔ m.header ≠ l.header ∧ g.InLoop m.header l.header := by
  rw [Loop.within, Bool.and_eq_true, decide_eq_true_eq, List.isSublist_iff_sublist]
  refine and_congr_right fun _ => ⟨fun hsub => ?_, fun hin => ?_⟩
  · exact (mem_blocks_iff hd hm).1 (hsub.subset ((mem_blocks_iff hd hl).2 .header))
  · have hsub : ∀ x ∈ l.blocks, x ∈ m.blocks := fun x hx =>
      (mem_blocks_iff hd hm).2 (hin.trans (isHeader_of_mem_loops hd hm).reachable
        ((mem_blocks_iff hd hl).1 hx))
    rw [blocks_eq hl, blocks_eq hm]
    exact List.monotone_filter_right _ fun x hx => decide_eq_true (hsub x (of_decide_eq_true hx))

theorem smallest_spec {loops : List Loop} :
    (smallest loops = none → loops = []) ∧
      ∀ m, smallest loops = some m → m ∈ loops ∧ ∀ x ∈ loops,
        m.blocks.length ≤ x.blocks.length := by
  induction loops with
  | nil => exact ⟨fun _ => rfl, fun m h => by cases h⟩
  | cons l rest ih =>
    cases hrest : smallest rest with
    | none =>
      cases ih.1 hrest
      refine ⟨fun h => (by cases h), fun m h => ?_⟩
      cases h
      exact ⟨.head _, by simp⟩
    | some k =>
      obtain ⟨hk, hleast⟩ := ih.2 k hrest
      simp only [smallest, hrest]
      split
      · rename_i hle
        refine ⟨fun h => (by cases h), fun m h => ?_⟩
        cases h
        refine ⟨.head _, fun x hx => ?_⟩
        rcases List.mem_cons.1 hx with rfl | hx
        · exact Nat.le_refl _
        · exact Nat.le_trans hle (hleast x hx)
      · rename_i hlt
        refine ⟨fun h => (by cases h), fun m h => ?_⟩
        cases h
        refine ⟨.tail _ hk, fun x hx => ?_⟩
        rcases List.mem_cons.1 hx with rfl | hx
        · exact Nat.le_of_lt (Nat.not_le.1 hlt)
        · exact hleast x hx

theorem within_trans (hd : d.Describes g) (hl : l ∈ (g.loops d).loops) (hm : m ∈ (g.loops d).loops)
    (hz : z ∈ (g.loops d).loops) (hlm : l.within m = true) (hmz : m.within z = true) :
    l.within z = true := by
  obtain ⟨hne, hin⟩ := (within_iff hd hl hm).1 hlm
  obtain ⟨hne', hin'⟩ := (within_iff hd hm hz).1 hmz
  have hreach := (isHeader_of_mem_loops hd hz).reachable
  refine (within_iff hd hl hz).2 ⟨fun heq => ?_, hin'.trans hreach hin⟩
  exact hne' (hin'.antisymm hreach (heq ▸ hin))

/-- The loops around a loop are its parent and those around the parent. -/
theorem within_iff_parent (hd : d.Describes g) (hl : l ∈ (g.loops d).loops)
    (hm : (g.loops d).parent? l = some m) (hz : z ∈ (g.loops d).loops) :
    l.within z = true ↔ z = m ∨ m.within z = true := by
  obtain ⟨hmem, hleast⟩ := smallest_spec.2 m hm
  obtain ⟨hm, hlm⟩ := List.mem_filter.1 hmem
  constructor
  · intro hlz
    by_cases heq : z = m
    · exact .inl heq
    have hne : z.header ≠ m.header :=
      fun h => heq (List.inj_on_of_nodup_map (nodup_headers hd) hz hm h)
    refine .inr ((within_iff hd hm hz).2 ⟨hne, ?_⟩)
    have hmreach := (isHeader_of_mem_loops hd hm).reachable
    have hzreach := (isHeader_of_mem_loops hd hz).reachable
    refine (InLoop.nested hd hzreach hmreach ((within_iff hd hl hz).1 hlz).2
      ((within_iff hd hl hm).1 hlm).2).resolve_right
      fun hin => ?_
    -- Then the parent would not be the smallest one.
    have hsub : z.within m = true := (within_iff hd hz hm).2 ⟨hne.symm, hin⟩
    rw [Loop.within, Bool.and_eq_true, List.isSublist_iff_sublist] at hsub
    have hsame := hsub.2.eq_of_length_le (hleast z (List.mem_filter.2 ⟨hz, hlz⟩))
    have hback : g.InLoop z.header m.header :=
      (mem_blocks_iff hd hz).1 (hsame ▸ (mem_blocks_iff hd hm).2 .header)
    exact hne (hback.antisymm hzreach hin)
  · rintro (rfl | hmz)
    · exact hlm
    · exact within_trans hd hl hm hz hlm hmz

/-- The number of loops around a loop. -/
def rank (forest : LoopForest) (l : Loop) : Nat := (forest.loops.filter l.within).length

theorem depthFrom_eq (hd : d.Describes g) {fuel : Nat} (hl : l ∈ (g.loops d).loops)
    (enough : rank (g.loops d) l ≤ fuel) :
    (g.loops d).depthFrom fuel l = rank (g.loops d) l + 1 := by
  induction fuel generalizing l with
  | zero =>
    rw [Nat.le_zero.1 enough]
    rfl
  | succ fuel ih =>
    rw [LoopForest.depthFrom]
    cases hparent : (g.loops d).parent? l with
    | none =>
      rw [rank, smallest_spec.1 hparent]
      rfl
    | some m =>
      have hm := (List.mem_filter.1 (smallest_spec.2 m hparent).1).1
      have hperm : ((g.loops d).loops.filter l.within).Perm
          (m :: (g.loops d).loops.filter m.within) := by
        refine (List.perm_ext_iff_of_nodup ((nodup_loops hd).filter _)
          (List.nodup_cons.2 ⟨fun hmem => ?_, (nodup_loops hd).filter _⟩)).2 fun z => ?_
        · exact ((within_iff hd hm hm).1 (List.mem_filter.1 hmem).2).1 rfl
        · rw [List.mem_cons, List.mem_filter, List.mem_filter]
          constructor
          · exact fun hz => ((within_iff_parent hd hl hparent hz.1).1 hz.2).imp_right fun h =>
              ⟨hz.1, h⟩
          · rintro (rfl | hz)
            · exact ⟨hm, (within_iff_parent hd hl hparent hm).2 (.inl rfl)⟩
            · exact ⟨hz.1, (within_iff_parent hd hl hparent hz.1).2 (.inr hz.2)⟩
      have hrank : rank (g.loops d) l = rank (g.loops d) m + 1 := hperm.length_eq
      rw [hrank] at enough ⊢
      show (g.loops d).depthFrom fuel m + 1 = _
      rw [ih hm (Nat.le_of_succ_le_succ enough)]

/-- A loop is deeper than those around it. -/
theorem depth_lt (hd : d.Describes g) (hl : l ∈ (g.loops d).loops) (hz : z ∈ (g.loops d).loops)
    (h : l.within z = true) : (g.loops d).depth z < (g.loops d).depth l := by
  have hdepth : ∀ {l}, l ∈ (g.loops d).loops → (g.loops d).depth l = rank (g.loops d) l + 1 :=
    fun hl => depthFrom_eq hd hl (List.length_filter_le _ _)
  have nodup : (z :: (g.loops d).loops.filter z.within).Nodup :=
    List.nodup_cons.2 ⟨fun hmem => ((within_iff hd hz hz).1 (List.mem_filter.1 hmem).2).1 rfl,
      (nodup_loops hd).filter _⟩
  have hsub : z :: (g.loops d).loops.filter z.within ⊆ (g.loops d).loops.filter l.within := by
    intro y hy
    rcases List.mem_cons.1 hy with rfl | hy
    · exact List.mem_filter.2 ⟨hz, h⟩
    · obtain ⟨hy, hzy⟩ := List.mem_filter.1 hy
      exact List.mem_filter.2 ⟨hy, within_trans hd hl hz hy h hzy⟩
  have hlen := (List.subperm_of_subset nodup hsub).length_le
  rw [hdepth hl, hdepth hz]
  exact Nat.succ_lt_succ hlen

theorem pairwise_innermostFirst (forest : LoopForest) :
    forest.innermostFirst.Pairwise fun l m => forest.depth m ≤ forest.depth l := by
  have hsorted := @pairwise_sortBy (Nat × Loop) (fun a b => decide (b.1 ≤ a.1))
    (fun a b h => by simp only [decide_eq_false_iff_not, decide_eq_true_eq] at h ⊢; omega)
    (fun a b c h h' => by simp only [decide_eq_true_eq] at h h' ⊢; omega)
    (forest.loops.map fun l => (forest.depth l, l))
  unfold LoopForest.innermostFirst
  refine List.pairwise_map.2 (hsorted.imp_of_mem fun {a b} ha hb hle => ?_)
  obtain ⟨l, _, rfl⟩ := List.mem_map.1 (mem_sortBy.1 ha)
  obtain ⟨m, _, rfl⟩ := List.mem_map.1 (mem_sortBy.1 hb)
  exact of_decide_eq_true hle

/-- When a loop has its turn, the loops in it are done. -/
theorem mem_done_of_find (hd : d.Describes g) {done : List Label} {h : Label}
    (hfind : (g.loops d).innermostFirst.find? (fun l : Loop => decide (l.header ∉ done)) = some z)
    (hh : g.IsHeader h) (hin : g.InLoop z.header h) (hne : h ≠ z.header) : h ∈ done := by
  obtain ⟨l, hl, rfl⟩ := exists_loop hd hh
  have hz : z ∈ (g.loops d).loops := mem_innermostFirst.1 (List.mem_of_find?_eq_some hfind)
  obtain ⟨_, before, after, hsplit, hbefore⟩ := List.find?_eq_some_iff_append.1 hfind
  have hmem : l ∈ before ++ z :: after := hsplit ▸ mem_innermostFirst.2 hl
  rcases List.mem_append.1 hmem with hmem | hmem
  · simpa using hbefore l hmem
  · rcases List.mem_cons.1 hmem with rfl | hmem
    · exact absurd rfl hne
    · have hpair := pairwise_innermostFirst (g.loops d)
      rw [hsplit, List.pairwise_append] at hpair
      have hle := (List.pairwise_cons.1 hpair.2.1).1 l hmem
      have hlt := depth_lt hd hl hz ((within_iff hd hl hz).2 ⟨Ne.symm hne, hin⟩)
      omega

end Depth

/-! ## A new block before a loop -/

namespace Detours

variable {g g' : Graph} {sources : List Label} {m h x l : Label}

/-- What belongs to a loop then: what did, and the new block if it is before an inner one. -/
theorem of_inLoop (det : Detours g g' sources m h) (hnew : ¬ g'.Dominates h m) (hx : x ≠ m)
    (hl : g'.InLoop x l) : (l ≠ m → g.InLoop x l) ∧ (l = m → g.InLoop x h ∧ h ≠ x) := by
  induction hl with
  | header => exact ⟨fun _ => .header, fun he => absurd he hx⟩
  | @latch p hp hnext hdom =>
    refine ⟨fun hpm => .latch (det.reachable hpm hp) (det.of_next hpm hx hnext)
      (det.dominates_of hx hdom), fun hpm => ?_⟩
    rw [hpm, det.next_new, List.mem_singleton] at hnext
    rw [hpm, hnext] at hdom
    exact absurd hdom hnew
  | @back p l _ hne hp hnext ih =>
    refine ⟨fun hpm => ?_, fun hpm => ?_⟩
    · by_cases hlm : l = m
      · obtain ⟨hin, hhx⟩ := ih.2 hlm
        rw [hlm] at hnext
        have hs : p ∈ sources :=
          (((det.mem_next p m hpm).1 hnext).resolve_left fun hold => det.fresh p hold.1).2
        exact .back hin hhx (det.reachable hpm hp) (det.source p hs)
      · exact .back (ih.1 hlm) hne (det.reachable hpm hp) (det.of_next hpm hlm hnext)
    · rw [hpm, det.next_new, List.mem_singleton] at hnext
      subst hnext
      exact ⟨ih.1 det.target_ne, hne⟩

/-- What belonged to a loop still does. -/
theorem inLoop (det : Detours g g' sources m h)
    (hsources : ∀ p ∈ sources, g.Reachable p → ¬ g.Dominates h p) (hx : x ≠ m) (hl : g.InLoop x l) :
    g'.InLoop x l := by
  induction hl with
  | header => exact .header
  | @latch p hp hnext hdom =>
    have hpm := det.ne_of_reachable hp
    refine .latch (det.reachable_of_reachable hp) ((det.mem_next p x hpm).2 (.inl ⟨hnext, ?_⟩))
      (det.dominates hpm hdom)
    rintro ⟨hs, rfl⟩
    exact hsources p hs hp hdom
  | @back p l hl hne hp hnext ih =>
    have hpm := det.ne_of_reachable hp
    have hp' := det.reachable_of_reachable hp
    by_cases hdiv : p ∈ sources ∧ l = h
    · -- The edge leads through the new block.
      obtain ⟨hs, rfl⟩ := hdiv
      have hm : m ∈ g'.next p := (det.mem_next p m hpm).2 (.inr ⟨rfl, hs⟩)
      have hmid : g'.InLoop x m :=
        .back ih hne (hp'.step hm) (by rw [det.next_new]; exact List.mem_singleton_self _)
      exact .back hmid (Ne.symm hx) hp' hm
    · exact .back ih hne hp' ((det.mem_next p l hpm).2 (.inl ⟨hnext, hdiv⟩))

end Detours

end Graph

end ThreeAddress

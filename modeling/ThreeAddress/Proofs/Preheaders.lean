import ThreeAddress.Proofs.LoopMotion
import ThreeAddress.Proofs.Reducibility

/-!
# Preheaders and the forest of loops

Code is moved out of one loop after the other, and the loops are looked for again each time. This
module shows that a preheader leaves what is found as it was (`Func.insertPreheader_keeps_forest`).

1. `Subdivides.reversePostorder`: the search takes the way that it took, with one stop more, so that
   the new block comes right before the header in the order.
2. `Detours.backEdge_iff`, `Detours.inLoop_iff`: the same edges go back, and the loops around the
   header get the new block.
3. `parent_header_eq`: parents can be told from headers alone.
-/

namespace ThreeAddress

/-- The list with `m` put before `h`. -/
def putBefore (m h : Label) (ls : List Label) : List Label :=
    ls.flatMap fun l => if l = h then [m, l] else [l]

section PutBefore

variable {m h l : Label} {ls : List Label}

theorem putBefore_cons_self : putBefore m h (h :: ls) = m :: h :: putBefore m h ls := by
  simp [putBefore]

theorem putBefore_cons_of_ne (hne : l ≠ h) : putBefore m h (l :: ls) = l :: putBefore m h ls := by
  simp [putBefore, hne]

theorem filterMap_putBefore {α : Type} {F : Label → Option α} (hm : F m = none) :
    (putBefore m h ls).filterMap F = ls.filterMap F := by
  induction ls with
  | nil => rfl
  | cons l ls ih =>
    by_cases hl : l = h
    · subst hl
      rw [putBefore_cons_self, List.filterMap_cons_none hm, List.filterMap_cons,
        List.filterMap_cons, ih]
    · rw [putBefore_cons_of_ne hl, List.filterMap_cons, List.filterMap_cons, ih]

theorem filter_putBefore {q : Label → Bool} (hm : q m = false) :
    (putBefore m h ls).filter q = ls.filter q := by
  have hguard : (putBefore m h ls).filterMap (Option.guard q) = ls.filterMap (Option.guard q) :=
    filterMap_putBefore (by simp [Option.guard, hm])
  simpa only [List.filterMap_eq_filter] using hguard

end PutBefore

namespace Graph

/-! ## The order of the search -/

/-- The successors `ss` of the block `l` when its edge to `h` leads to `m`, if it is one of the
sources. -/
def divert (sources : List Label) (m h l : Label) (ss : List Label) : List Label :=
  if l ∈ sources then ss.map fun s => if s = h then m else s else ss

/-- The new block is on the edges that enter the loop of `h`, and no others. It stands among the
successors where `h` stood. -/
structure Subdivides (g g' : Graph) (sources : List Label) (m h : Label) :
    Prop extends Detours g g' sources m h where
  target_ne_entry : h ≠ g.entry
  get?_new : g'.succs.get? m = some [h]
  get?_old : ∀ l, l ≠ m → g'.succs.get? l = (g.succs.get? l).map (divert sources m h l)
  entering : ∀ p ∈ sources, g.Reachable p → ¬ g.Dominates h p
  kept : ∀ p, g.Reachable p → h ∈ g.next p → p ∉ sources → g.Dominates h p

namespace Subdivides

variable {g g' : Graph} {sources : List Label} {m h b : Label}
  {visited visited' done order : List Label} {stack : List (Label × List Label)}

/-- The stack of a search that comes to `h` through `m`. -/
def stackThrough (sources : List Label) (m h : Label) (stack : List (Label × List Label)) :
    List (Label × List Label) :=
  stack.flatMap fun e => (e.1, divert sources m h e.1 e.2) :: if e.1 = h then [(m, [])] else []

theorem stackThrough_cons_self (ss : List Label) : stackThrough sources m h ((h, ss) :: stack) =
    (h, divert sources m h h ss) :: (m, []) :: stackThrough sources m h stack := by
  simp [stackThrough]

theorem stackThrough_cons_of_ne (hne : b ≠ h) (ss : List Label) :
    stackThrough sources m h ((b, ss) :: stack) =
    (b, divert sources m h b ss) :: stackThrough sources m h stack := by
  simp [stackThrough, hne]

theorem exists_stackThrough_cons (sources : List Label) (m h b : Label)
    (stack : List (Label × List Label)) :
    ∃ below, ∀ ss, stackThrough sources m h ((b, ss) :: stack) = (b, divert sources m h b ss)
      :: below :=
  ⟨(if b = h then [(m, [])] else []) ++ stackThrough sources m h stack,
    fun ss => by simp [stackThrough]⟩

theorem divert_nil (l : Label) : divert sources m h l [] = [] := by simp [divert]

theorem divert_cons (l s : Label) (ss : List Label) : divert sources m h l (s :: ss) =
    (if l ∈ sources ∧ s = h then m else s) :: divert sources m h l ss := by
  by_cases hl : l ∈ sources <;> simp [divert, hl]

/-- The search first comes to `h` on one of the edges that lead through `m` then: a path to another
source passes `h`. -/
theorem mem_sources (sub : Subdivides g g' sources m h) {rest : List Label}
    (hs : Searching g visited ((b, h :: rest) :: stack) done)
    (ho : Ordered g ((b, h :: rest) :: stack) done) (hh : h ∉ visited) : b ∈ sources := by
  refine Decidable.byContradiction fun hb => hh ((hs.visited_iff h).2 (.inl ?_))
  have htrail := ho.trail b _ _ rfl
  exact sub.kept b ⟨_, htrail⟩ ((hs.pending _ (.head _)).2 _ (.head _)) hb _ htrail

/-- The search goes the same way, and comes to `h` through `m`. -/
theorem searches (sub : Subdivides g g' sources m h) (run : Searches g visited stack done order)
    (hs : Searching g visited stack done) (ho : Ordered g stack done)
    (hvisited : ∀ x, x ∈ visited' ↔ x ∈ visited ∨ x = m ∧ h ∈ visited) :
    Searches g' visited' (stackThrough sources m h stack) (putBefore m h done)
      (putBefore m h order) := by
  induction run generalizing visited' with
  | stop => exact .stop
  | @finish visited done order stack b _ ih =>
    have ih := ih hs.finish (ho.finish hs) hvisited
    by_cases hb : b = h
    · subst hb
      rw [putBefore_cons_self] at ih
      rw [stackThrough_cons_self, divert_nil]
      exact .finish (.finish ih)
    · rw [putBefore_cons_of_ne hb] at ih
      rw [stackThrough_cons_of_ne hb, divert_nil]
      exact .finish ih
  | @pass visited done order rest stack b s hsv _ ih =>
    have ih := ih (hs.pass hsv) ho.pass hvisited
    have hmem : (if b ∈ sources ∧ s = h then m else s) ∈ visited' := by
      by_cases hdiv : b ∈ sources ∧ s = h
      · rw [if_pos hdiv]
        exact (hvisited m).2 (.inr ⟨rfl, hdiv.2 ▸ hsv⟩)
      · rw [if_neg hdiv]
        exact (hvisited s).2 (.inl hsv)
    obtain ⟨below, hbelow⟩ := exists_stackThrough_cons sources m h b stack
    rw [hbelow] at ih ⊢
    rw [divert_cons]
    exact .pass hmem ih
  | @visit visited done order rest ss stack b s hsv hss _ ih =>
    obtain ⟨below, hbelow⟩ := exists_stackThrough_cons sources m h b stack
    have hsm : s ≠ m := sub.ne_of_reachable hs.reachable_head
    have hget : g'.succs.get? s = some (divert sources m h s ss) := by
      rw [sub.get?_old s hsm, hss, Option.map_some]
    have hnew : s ∉ visited' := fun hmem => ((hvisited s).1 hmem).elim hsv fun hm => hsm hm.1
    rw [hbelow, divert_cons]
    by_cases hsh : s = h
    · -- Two steps: to `m`, and from there to `h`.
      subst hsh
      have hm : m ∉ visited' := fun hmem => ((hvisited m).1 hmem).elim
        (fun hold => sub.ne_of_reachable (hs.reachable m hold) rfl) fun hold => hsv hold.2
      have ih := @ih (s :: m :: visited') (hs.visit hsv hss) (ho.visit hs) fun x => by
        simp only [List.mem_cons, hvisited]
        grind
      rw [stackThrough_cons_self, hbelow] at ih
      rw [if_pos ⟨sub.mem_sources hs ho hsv, rfl⟩]
      refine .visit hm sub.get?_new (.visit ?_ hget ih)
      exact fun hmem => (List.mem_cons.1 hmem).elim hsm hnew
    · have ih := @ih (s :: visited') (hs.visit hsv hss) (ho.visit hs) fun x => by
        simp only [List.mem_cons, hvisited]
        grind
      rw [stackThrough_cons_of_ne hsh, hbelow] at ih
      rw [if_neg fun hdiv => hsh hdiv.2]
      exact .visit hnew hget ih

/-- In reverse postorder the new block comes right before the target of its edge. -/
theorem reversePostorder (sub : Subdivides g g' sources m h) (closed : g.Closed)
    (closed' : g'.Closed) (horder : g.reversePostorder = .ok order) :
    g'.reversePostorder = .ok (putBefore m h order) := by
  obtain ⟨ss, order₁, hss, horder₁, run⟩ := reversePostorder_searches closed
  obtain ⟨ss', order', hss', horder', run'⟩ := reversePostorder_searches closed'
  cases horder.symm.trans horder₁
  have hentry : g.entry ≠ h := Ne.symm sub.target_ne_entry
  have hvisited : ∀ x, x ∈ [g.entry] ↔ x ∈ [g.entry] ∨ x = m ∧ h ∈ [g.entry] := by
    simp [sub.target_ne_entry]
  have hsim := sub.searches run (searching_start hss) (.start ss) hvisited
  rw [sub.entry_eq] at hss' run'
  rw [sub.get?_old g.entry sub.entry_ne, hss, Option.map_some] at hss'
  cases hss'
  rw [stackThrough_cons_of_ne hentry] at hsim
  rw [horder', run'.unique hsim]

end Subdivides

/-! ## Loops -/

variable {g g' : Graph} {d d' : Dominators} {h x : Label} {l : Loop}

theorem headers_eq (g : Graph) (d : Dominators) :
    (g.loops d).loops.map (·.header) = d.order.filter fun h => g.latches d h ≠ [] := by
  rw [← List.filterMap_eq_filter]
  show (d.order.filterMap _).map _ = _
  rw [List.map_filterMap]
  refine List.filterMap_congr fun h _ => ?_
  cases hlatches : g.latches d h with
  | nil => simp [Option.guard, hlatches]
  | cons t more => simp [Option.guard, hlatches]

/-- The header of the parent, in terms of headers: the innermost of those around the loop. -/
theorem parent_header_iff (hd : d.Describes g) (hl : l ∈ (g.loops d).loops) :
    ((g.loops d).parent? l).map (·.header) = some x ↔
      (g.IsHeader x ∧ x ≠ l.header ∧ g.InLoop x l.header) ∧
      ∀ y, g.IsHeader y → y ≠ l.header → g.InLoop y l.header → g.InLoop y x := by
  constructor
  · intro hsome
    obtain ⟨p, hparent, rfl⟩ := Option.map_eq_some_iff.1 hsome
    obtain ⟨hp, hlp⟩ := mem_of_parent hparent
    refine ⟨⟨isHeader_of_mem_loops hd hp, (within_iff hd hl hp).1 hlp⟩, fun y hy hne hin => ?_⟩
    obtain ⟨k, hk, rfl⟩ := exists_loop hd hy
    rcases (within_iff_parent hd hl hparent hk).1 ((within_iff hd hl hk).2 ⟨hne, hin⟩) with
      rfl | hpk
    · exact .header
    · exact ((within_iff hd hp hk).1 hpk).2
  · rintro ⟨⟨hx, hne, hin⟩, hleast⟩
    obtain ⟨p, hp, rfl⟩ := exists_loop hd hx
    have hlp := (within_iff hd hl hp).2 ⟨hne, hin⟩
    cases hparent : (g.loops d).parent? l with
    | none =>
      exact absurd ((within_iff_strictlyIn hd hl hp).1 hlp) ((parent_none_iff hd hl).1 hparent p hp)
    | some q =>
      -- Each of the two loops lies in the other.
      obtain ⟨hq, hlq⟩ := mem_of_parent hparent
      obtain ⟨hqne, hqin⟩ := (within_iff hd hl hq).1 hlq
      have hqheader := isHeader_of_mem_loops hd hq
      rcases (within_iff_parent hd hl hparent hp).1 hlp with rfl | hqp
      · rfl
      · have hback := hleast q.header hqheader hqne hqin
        exact congrArg some (hback.antisymm hqheader.reachable ((within_iff hd hq hp).1 hqp).2)

/-- Parents are the same if headers are, and what lies around them. -/
theorem parent_header_eq (hd : d.Describes g) (hd' : d'.Describes g')
    (hheader : ∀ x, g'.IsHeader x ↔ g.IsHeader x)
    (hinLoop : ∀ x y, g.IsHeader x → g.IsHeader y → (g'.InLoop x y ↔ g.InLoop x y)) {l' : Loop}
    (hl : l ∈ (g.loops d).loops) (hl' : l' ∈ (g'.loops d').loops) (heq : l'.header = l.header) :
    ((g'.loops d').parent? l').map (·.header) = ((g.loops d).parent? l).map (·.header) := by
  have hlh := isHeader_of_mem_loops hd hl
  refine Option.ext fun x => ?_
  show _ = some x ↔ _ = some x
  rw [parent_header_iff hd hl, parent_header_iff hd' hl', heq]
  simp only [hheader]
  have haround : (g.IsHeader x ∧ x ≠ l.header ∧ g'.InLoop x l.header) ↔
      g.IsHeader x ∧ x ≠ l.header ∧ g.InLoop x l.header :=
    and_congr_right fun hx => and_congr_right fun _ => hinLoop x _ hx hlh
  rw [haround]
  refine and_congr_right fun hx => forall_congr' fun y => forall_congr' fun hy =>
    forall_congr' fun _ => ?_
  exact imp_congr (hinLoop y _ hy hlh) (hinLoop y x hy hx.1)

end Graph

/-- The loops of `forest'` are those of `forest`, with their latches and parents. The new block, if
there is one, belongs to the loops around that of `h`. -/
structure LoopForest.Keeps (forest forest' : LoopForest) (h : Label) (new : Option Label) :
    Prop where
  headers : forest'.loops.map (·.header) = forest.loops.map (·.header)
  latches : ∀ l ∈ forest.loops, ∀ l' ∈ forest'.loops, l'.header = l.header → l'.latches = l.latches
  parents : ∀ l ∈ forest.loops, ∀ l' ∈ forest'.loops, l'.header = l.header →
    (forest'.parent? l').map (·.header) = (forest.parent? l).map (·.header)
  blocks : ∀ l ∈ forest.loops, ∀ l' ∈ forest'.loops, l'.header = l.header → ∀ b,
    b ∈ l'.blocks ↔ b ∈ l.blocks ∨ new = some b ∧ l.header ≠ h ∧ h ∈ l.blocks

namespace Graph

variable {g g' : Graph} {d d' : Dominators} {sources : List Label} {m h x l t : Label}

namespace Detours

/-- The same edges go back. -/
theorem backEdge_iff (det : Detours g g' sources m h)
    (hsources : ∀ p ∈ sources, g.Reachable p → ¬ g.Dominates h p) (hnew : ¬ g'.Dominates h m) :
    g'.BackEdge t x ↔ g.BackEdge t x := by
  constructor
  · rintro ⟨ht, hnext, hdom⟩
    by_cases htm : t = m
    · rw [htm, det.next_new, List.mem_singleton] at hnext
      exact absurd (htm ▸ hnext ▸ hdom) hnew
    have ht := det.reachable htm ht
    by_cases hxm : x = m
    · subst hxm
      have hs : t ∈ sources :=
        (((det.mem_next t x htm).1 hnext).resolve_left fun hold => det.fresh t hold.1).2
      exact absurd (det.dominates_of_new hdom) (hsources t hs ht)
    · exact ⟨ht, det.of_next htm hxm hnext, det.dominates_of hxm hdom⟩
  · rintro ⟨ht, hnext, hdom⟩
    have htm := det.ne_of_reachable ht
    refine ⟨det.reachable_of_reachable ht, (det.mem_next t x htm).2 (.inl ⟨hnext, ?_⟩),
      det.dominates htm hdom⟩
    rintro ⟨hs, rfl⟩
    exact hsources t hs ht hdom

/-- The loops around `h` get the new block, and no loop gets another one. -/
theorem inLoop_iff (det : Detours g g' sources m h)
    (hsources : ∀ p ∈ sources, g.Reachable p → ¬ g.Dominates h p) (hnew : ¬ g'.Dominates h m)
    (hm : g'.Reachable m) (hx : x ≠ m) :
    g'.InLoop x l ↔ g.InLoop x l ∨ l = m ∧ x ≠ h ∧ g.InLoop x h := by
  constructor
  · intro hl
    obtain ⟨hold, hmid⟩ := det.of_inLoop hnew hx hl
    by_cases hlm : l = m
    · exact .inr ⟨hlm, Ne.symm (hmid hlm).2, (hmid hlm).1⟩
    · exact .inl (hold hlm)
  · rintro (hl | ⟨rfl, hxh, hh⟩)
    · exact det.inLoop hsources hx hl
    · refine .back (det.inLoop hsources hx hh) (Ne.symm hxh) hm ?_
      rw [det.next_new]
      exact .head _

end Detours

/-- An edge goes back if it leads to a dominator that was found. -/
theorem latch_iff (hd : d.Describes g) (ht : g.Reachable t) :
    (decide (x ∈ g.next t) && d.dominates x t) = true ↔ g.BackEdge t x := by
  rw [Bool.and_eq_true, decide_eq_true_eq, dominates_iff hd ht]
  exact (and_iff_right ht).symm

namespace Subdivides

variable {body : List Label}

theorem latches_eq (sub : Subdivides g g' sources m h) (pre : g'.Preheads m h body)
    (hd : d.Describes g) (hd' : d'.Describes g') (horder : d'.order = putBefore m h d.order)
    (x : Label) : g'.latches d' x = g.latches d x := by
  have hback : ∀ {t}, g'.BackEdge t x ↔ g.BackEdge t x :=
    sub.backEdge_iff sub.entering (pre.not_dominates pre.header_mem)
  unfold latches
  rw [horder, filter_putBefore]
  · refine List.filter_congr fun t ht => ?_
    have ht := (hd.mem_order t).1 ht
    rw [Bool.eq_iff_iff, latch_iff hd ht, latch_iff hd' (sub.reachable_of_reachable ht), hback]
  · rw [← Bool.not_eq_true, latch_iff hd' pre.preheader_reachable, hback]
    exact fun hm => sub.ne_of_reachable hm.1 rfl

/-- What becomes of the loops when one gets a preheader. -/
theorem keeps (sub : Subdivides g g' sources m h) (pre : g'.Preheads m h body) (hd : d.Describes g)
    (hd' : d'.Describes g') (horder : d'.order = putBefore m h d.order) :
    (g.loops d).Keeps (g'.loops d') h (some m) := by
  have hnew := pre.not_dominates pre.header_mem
  have hlatches := sub.latches_eq pre hd hd' horder
  have hheader : ∀ x, g'.IsHeader x ↔ g.IsHeader x := fun x => exists_congr fun t =>
    sub.backEdge_iff sub.entering hnew
  have hinLoop : ∀ {x l}, g.IsHeader x → (g'.InLoop x l ↔ g.InLoop x l ∨ l = m ∧ x ≠ h ∧
      g.InLoop x h) := fun hx =>
    sub.inLoop_iff sub.entering hnew pre.preheader_reachable (sub.ne_of_reachable hx.reachable)
  refine ⟨?_, fun l hl l' hl' heq => ?_, fun l hl l' hl' heq => ?_, fun l hl l' hl' heq b => ?_⟩
  · rw [headers_eq, headers_eq, horder]
    simp only [hlatches]
    refine filter_putBefore (decide_eq_false fun hne => ?_)
    obtain ⟨t, ht⟩ := List.exists_mem_of_ne_nil _ hne
    exact sub.fresh t ((mem_latches hd).1 ht).2.1
  · rw [latches_of_mem_loops hl', latches_of_mem_loops hl, heq, hlatches]
  · refine parent_header_eq hd hd' hheader (fun x y hx hy => ?_) hl hl' heq
    rw [hinLoop hx]
    exact or_iff_left fun hym => sub.ne_of_reachable hy.reachable hym.1
  · rw [mem_blocks_iff hd' hl', heq, hinLoop (isHeader_of_mem_loops hd hl), mem_blocks_iff hd hl,
      mem_blocks_iff hd hl]
    exact or_congr_right (and_congr_left' (by rw [Option.some_inj, eq_comm]))

end Subdivides

/-- Nothing becomes of them when the preheader is there. -/
theorem keeps_refl (hd : d.Describes g) (h : Label) : (g.loops d).Keeps (g.loops d) h none := by
  have hsame : ∀ l ∈ (g.loops d).loops, ∀ l' ∈ (g.loops d).loops, l'.header = l.header → l' = l :=
    fun l hl l' hl' heq =>
    eq_of_header_eq hd hl' hl heq
  refine ⟨rfl, fun l hl l' hl' heq => ?_, fun l hl l' hl' heq => ?_, fun l hl l' hl' heq b => ?_⟩
  · rw [hsame l hl l' hl' heq]
  · rw [hsame l hl l' hl' heq]
  · rw [hsame l hl l' hl' heq]
    simp

/-- A preheader is the immediate dominator of the header. -/
theorem Preheads.isClosest {p : Label} {body : List Label} (pre : g.Preheads p h body) :
    g.IsClosest p h := by
  refine ⟨pre.strictlyDominates pre.header_mem,
    fun a ha => pre.dominates_preheader pre.header_mem ha.2 fun hbody => ?_⟩
  exact ha.1 (Dominates.antisymm (pre.reachable a hbody) ha.2 (pre.dominates a hbody))

end Graph

/-! ## Functions -/

theorem Detour.Fits.subdivides {d : Detour} {f : Func} (fits : d.Fits f) (wf : f.WellFormed)
    (hne : d.target ≠ f.entry)
    (entering : ∀ p ∈ d.sources, f.graph.Reachable p → ¬ f.graph.Dominates d.target p)
    (kept : ∀ p, f.graph.Reachable p → d.target ∈ f.graph.next p → p ∉ d.sources →
      f.graph.Dominates d.target p) :
    f.graph.Subdivides (d.apply f).graph d.sources d.label d.target where
  toDetours := fits.detours wf
  target_ne_entry := hne
  get?_new := by
    rw [Func.get?_graph, Detour.block?_label fits.fresh]
    rfl
  get?_old l hl := by
    rw [Func.get?_graph, Func.get?_graph, Detour.block?_apply fits.fresh, if_neg hl]
    cases hb : f.block? l with
    | none => rfl
    | some b =>
      obtain ⟨_, _, _, hterm, _⟩ := fits.block_spec wf hb
      obtain ⟨t, ht⟩ := Option.ne_none_iff_exists'.1 (wf.closed hb)
      have fresh : d.label ∉ t.targets := by
        intro hmem
        refine fits.fresh (wf.targets hb d.label ?_)
        rwa [Block.successors, ht]
      refine congrArg some ?_
      show (d.block l b).successors = Graph.divert d.sources d.label d.target l b.successors
      rw [Block.successors, Block.successors, hterm, ht, Graph.divert]
      by_cases hs : l ∈ d.sources
      · rw [if_pos hs, if_pos hs]
        exact Terminator.targets_retarget fresh
      · rw [if_neg hs, if_neg hs]
  entering := entering
  kept := kept

namespace Func

/-- Control enters the loop through `p` alone, which leads nowhere else and dominates the header
immediately. -/
structure EnteredThrough (f : Func) (d : Dominators) (loop : Loop) (p : Label) : Prop where
  entering : ∃ head, f.block? loop.header = some head ∧ head.preds.filter (· ∉ loop.blocks) = [p]
  leaving : ∃ b, f.block? p = some b ∧ b.successors = [loop.header]
  idom : d.idom? loop.header = some p

/-- `f'` is `f` with the preheader `p` for a loop, which was there or was made. The dominators `d`
and `d'` of the two agree on the blocks that could be reached, and the loops are the same. -/
structure Preheaded (f f' : Func) (d d' : Dominators) (loop : Loop) (p : Label) (made : Bool) : Prop
    extends f'.EnteredThrough d' loop p where
  checkCfg : f'.checkCfg = .ok ()
  made_iff : made = true ↔ p ∉ f.blocks
  unchanged : made = false → f' = f
  dominates : ∀ a ∈ d.order, ∀ b ∈ d.order, d'.dominates a b = d.dominates a b
  keeps : (f.graph.loops d).Keeps (f'.graph.loops d') loop.header (if made then some p else none)

variable {f : Func} {d : Dominators} {loop : Loop} {p : Label}

theorem WellFormed.preheaderDetour_subdivides (wf : f.WellFormed) (hd : d.Describes f.graph)
    (hloop : loop ∈ (f.graph.loops d).loops) (hne : loop.header ≠ f.entry) {head : Block}
    (hhead : f.block? loop.header = some head) (houtside : ∃ p ∈ head.preds, p ∉ loop.blocks) :
    let detour := f.preheaderDetour loop.header loop.blocks head
    f.graph.Subdivides (detour.apply f).graph detour.sources detour.label loop.header := by
  refine (wf.preheaderDetour_fits hhead houtside).subdivides wf hne
    (fun q hq hreach => not_dominates_source wf hd hloop hhead hq hreach) fun q hreach hnext hq =>
      ?_
  refine (Graph.natural_of_mem_loops hd hloop).dominates q
    (Decidable.byContradiction fun hout => hq ?_)
  exact (wf.mem_sources_iff hhead q).2 ⟨hnext, hout⟩

theorem WellFormed.enteredThrough (wf : f.WellFormed) (hd : d.Describes f.graph)
    (pre : f.graph.Preheads p loop.header loop.blocks) : f.EnteredThrough d loop p := by
  have hheader := pre.reachable _ pre.header_mem
  obtain ⟨head, hhead⟩ := wf.block_of_reachable hheader
  obtain ⟨b, hb⟩ := wf.block_of_reachable pre.preheader_reachable
  refine ⟨⟨head, hhead, ?_⟩, ⟨b, hb, ?_⟩, (hd.idom?_eq _ _).2 ⟨hheader, pre.isClosest⟩⟩
  · refine List.perm_singleton.1 ((List.perm_ext_iff_of_nodup ((wf.nodup_preds hhead).filter _)
      (List.nodup_singleton p)).2 fun q => ?_)
    rw [List.mem_filter, decide_eq_true_eq, wf.mem_preds hhead, List.mem_singleton]
    constructor
    · exact fun hq => pre.only q hq.1 hq.2
    · rintro rfl
      exact ⟨pre.header_mem_next, pre.not_mem⟩
  · rw [← next_graph hb]
    exact pre.next_eq

/-- A preheader keeps dominance and the forest of loops. -/
theorem insertPreheader_keeps_forest (f : Func) (hcfg : f.checkCfg = .ok ())
    (hentry : ∀ b, f.block? f.entry = some b → b.preds = []) :
    ∃ d, f.dominators = .ok d ∧ ∀ loop ∈ (f.graph.loops d).loops, ∃ p made f' d',
      (Edit.insertPreheader loop.header loop.blocks).Yields f (p, made) f' ∧
      f'.dominators = .ok d' ∧ f.Preheaded f' d d' loop p made := by
  have wf := checkCfg_eq_ok.1 hcfg
  obtain ⟨d, hdom, hd⟩ := Graph.dominators_describes wf.graph_closed
  refine ⟨d, dominators_of_graph hdom, fun loop hloop => ?_⟩
  have hne : loop.header ≠ f.graph.entry := by
    intro (he : loop.header = f.entry)
    obtain ⟨q, _, hnext, _⟩ := Graph.isHeader_of_mem_loops hd hloop
    obtain ⟨b, hb⟩ := exists_block.1 wf.entry_mem
    have hq := (wf.mem_preds hb).2 (he ▸ hnext)
    rw [hentry b hb] at hq
    cases hq
  rcases Edit.insertPreheader_preheads wf hd hloop hne with
    ⟨p, hyields, pre⟩ | ⟨head, hhead, houtside, hyields, pre⟩
  · obtain ⟨b, hb⟩ := wf.block_of_reachable pre.preheader_reachable
    refine ⟨p, false, f, d, hyields, dominators_of_graph hdom, wf.enteredThrough hd pre, hcfg, ?_,
      fun _ => rfl, fun _ _ _ _ => rfl, Graph.keeps_refl hd _⟩
    exact iff_of_false Bool.false_ne_true fun hp => hp (mem_blocks hb)
  · have fits := wf.preheaderDetour_fits hhead houtside
    have wf' := fits.wellFormed wf
    have sub := wf.preheaderDetour_subdivides hd hloop hne hhead houtside
    obtain ⟨d', hdom', hd'⟩ := Graph.dominators_describes wf'.graph_closed
    have horder := sub.reversePostorder wf.graph_closed wf'.graph_closed
      (Graph.reversePostorder_of_dominators hdom)
    have horder' := Graph.reversePostorder_of_dominators hdom'
    refine ⟨_, true, _, d', hyields, dominators_of_graph hdom', wf'.enteredThrough hd' pre,
      checkCfg_eq_ok.2 wf', iff_of_true rfl fits.fresh, fun he => (by cases he),
      fun a ha b hb => ?_,
      sub.keeps pre hd hd' (Except.ok.inj (horder'.symm.trans horder))⟩
    have ha := (hd.mem_order a).1 ha
    have hb := (hd.mem_order b).1 hb
    rw [Bool.eq_iff_iff, Graph.dominates_iff hd hb,
      Graph.dominates_iff hd' (sub.reachable_of_reachable hb)]
    exact ⟨sub.dominates_of (sub.ne_of_reachable ha), sub.dominates (sub.ne_of_reachable hb)⟩

/-- A loop in a loop, which control enters on two ways; code that cannot be reached leads into it
too. -/
def nest : Func where
  name := "main"
  params := ["c"]
  blocks := Table.ofList [
    ("entry", { name := "entry", term := some (.jump "outer") }),
    ("outer",
      { name := "outer", term := some (.branch (.var ⟨"c", some 0⟩) "left" "right"),
        preds := ["entry", "latch"] }),
    ("left", { name := "left", term := some (.jump "inner"), preds := ["outer"] }),
    ("right", { name := "right", term := some (.jump "inner"), preds := ["outer"] }),
    ("lost", { name := "lost", term := some (.jump "inner") }),
    ("inner", { name := "inner"
                instrs := [.phi ⟨⟨"x", some 1⟩,
                  [⟨"left", .const 1⟩, ⟨"right", .const 2⟩, ⟨"lost", .const 3⟩,
                  ⟨"inner", .var ⟨"x", some 1⟩⟩]⟩]
                term := some (.branch (.var ⟨"x", some 1⟩) "inner" "latch")
                preds := ["left", "right", "lost", "inner"] }),
    ("latch",
      { name := "latch", term := some (.branch (.var ⟨"c", some 0⟩) "outer" "done"),
        preds := ["inner"] }),
    ("done", { name := "done", term := some (.ret none), preds := ["latch"] })]
  ssa := true

theorem insertPreheader_keeps_forest_nest :
    ∃ d, nest.dominators = .ok d ∧ ∃ loop ∈ (nest.graph.loops d).loops, loop.header = "inner" ∧
      ∃ p made f' d',
      (Edit.insertPreheader loop.header loop.blocks).Yields nest (p, made) f' ∧
      f'.dominators = .ok d' ∧
        nest.Preheaded f' d d' loop p made := by
  have hcfg : nest.checkCfg = .ok () := rfl
  have hentry : ∀ b, nest.block? nest.entry = some b → b.preds = [] := by
    intro b hb
    cases hb
    rfl
  obtain ⟨d, hdom, hall⟩ := insertPreheader_keeps_forest nest hcfg hentry
  obtain ⟨d', hdom', hd⟩ := Graph.dominators_describes (checkCfg_eq_ok.1 hcfg).graph_closed
  cases hdom.symm.trans (dominators_of_graph hdom')
  have houter : nest.graph.Reachable "outer" := Graph.reachable_entry.step (by decide)
  have hleft : nest.graph.Reachable "left" := houter.step (by decide)
  have hinner : nest.graph.Reachable "inner" := hleft.step (by decide)
  obtain ⟨loop, hloop, hheader⟩ := Graph.exists_loop hd ⟨"inner", hinner, by decide, .refl _⟩
  exact ⟨d, hdom, loop, hloop, hheader, hall loop hloop⟩

end Func

end ThreeAddress

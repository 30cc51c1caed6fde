import Mathlib.Data.List.Perm.Subperm
import ThreeAddress.Proofs.EdgeBlocks
import ThreeAddress.Proofs.Hoisting

/-!
# Moving invariant code out of all loops

One loop after the other gets its preheader and loses its invariant code (`Hoists`).
`hoist_improves` says what comes out: the function is in SSA form, and can stand for the old one in
any program. The number of loops that are looked at is bounded by the number of blocks, since a
preheader is never a header (`hoistLoops_fuel`).
-/

namespace ThreeAddress

variable {done : List Label} {f : Func} {l p : Label}

/-! ## Taking instructions away -/

namespace Func

variable {header : Label} {body : List Label} {sites : List Site}

/-- What is left of a block of the loop. -/
theorem Hoist.filter_zipIdx (h : f.Hoist p header body sites) {b : Block} (hl : l ∈ body)
    (hb : f.block? l = some b) :
    (b.instrs.zipIdx.filter fun (_, n) =>
      decide (n ∉ (sites.filter (·.block = l)).map (·.index))).map Prod.fst
      = b.instrs.filter (· ∉ codeOf sites) := by
  have hgone : ∀ e ∈ b.instrs.zipIdx, (e.2 ∈ (sites.filter (·.block = l)).map (·.index) ↔
      e.1 ∈ codeOf sites) := by
    rintro ⟨i, n⟩ he
    have hi := List.mk_mem_zipIdx_iff_getElem?.1 he
    constructor
    · intro hn
      obtain ⟨s, hs, rfl⟩ := List.mem_map.1 hn
      obtain ⟨hs, hblock⟩ := List.mem_filter.1 hs
      obtain ⟨_, b', hb', hi'⟩ := h.movable.site s hs
      rw [of_decide_eq_true hblock, hb] at hb'
      cases hb'
      cases hi.symm.trans hi'
      exact List.mem_map_of_mem hs
    · intro hmem
      obtain ⟨s, hs, rfl⟩ := List.mem_map.1 hmem
      obtain ⟨hbody, hsite⟩ := h.movable.site s hs
      obtain ⟨_, hmovable, _⟩ := h.movable.movable
      obtain ⟨v, hv⟩ := exists_dest_of_isMovable (hmovable s hs)
      have hreach := h.preheads.reachable
      have heq : s = ⟨l, n, s.instr⟩ :=
        h.inSsa.form.site_eq hsite ⟨b, hb, hi⟩ (hreach _ hbody) (hreach l hl) hv hv
      refine List.mem_map.2 ⟨s, List.mem_filter.2 ⟨hs, ?_⟩, congrArg Site.index heq⟩
      exact decide_eq_true (congrArg Site.block heq)
  have hfilter : (b.instrs.zipIdx.filter fun (_, n) =>
      decide (n ∉ (sites.filter (·.block = l)).map (·.index)))
      = b.instrs.zipIdx.filter ((fun i => decide (i ∉ codeOf sites)) ∘ Prod.fst) :=
    List.filter_congr fun e he => decide_eq_decide.2 (not_congr (hgone e he))
  rw [hfilter, ← List.filter_map, List.zipIdx_map_fst]

/-- Taking the instructions at the sites away and putting them at the end of the preheader moves
them. -/
theorem Hoist.removeSites_eq (h : f.Hoist p header body sites) :
    (f.removeSites sites).modifyBlock p
      (fun b => { b with instrs := b.instrs ++ sites.map (·.instr) })
      = f.hoisted p body (codeOf sites) := by
  have hremove : f.removeSites sites = f.rewrite fun l b =>
      { b with instrs := if l ∈ body then b.instrs.filter (· ∉ codeOf sites) else b.instrs } := by
    refine eq_of_blocks rfl ?_ fun l => ?_
    · exact (Table.keys_mapValues _ _).trans (Table.keys_mapValues _ _).symm
    · show (Table.mapValues _ _).get? l = _
      rw [Table.get?_mapValues, block?_rewrite]
      refine Option.map_congr fun b hb => ?_
      split
      · rename_i hl
        simp only [h.filter_zipIdx hl hb]
      · rename_i hl
        have hnone : (sites.filter (·.block = l)) = [] := by
          rw [List.filter_eq_nil_iff]
          intro s hs hblock
          exact hl (of_decide_eq_true hblock ▸ (h.movable.site s hs).1)
        simp [hnone, List.zipIdx_map_fst]
  rw [hremove]
  refine eq_of_blocks rfl ?_ fun l => ?_
  · rw [keys_modifyBlock]
    exact (Table.keys_mapValues _ _).trans (Table.keys_mapValues _ _).symm
  · rw [block?_modifyBlock, hoisted, block?_rewrite, block?_rewrite]
    by_cases hl : l = p
    · subst hl
      rw [if_pos rfl, Option.map_map]
      refine Option.map_congr fun b _ => ?_
      simp [moveCode, codeOf]
    · rw [if_neg hl]
      refine Option.map_congr fun b _ => ?_
      simp [moveCode, hl]

end Func

/-! ## A new preheader -/

namespace Detour

variable {d : Detour} {body : List Label} {sites : List Site}

/-- Instructions that are no phis stay in their places. -/
theorem Fits.hasSite (h : d.Fits f) (wf : f.WellFormed) {s : Site} (hs : f.HasSite s)
    (hphi : s.instr.isPhi = false) : (d.apply f).HasSite s := by
  obtain ⟨b, hb, hi⟩ := hs
  obtain ⟨_, hbody, htidy, _, hphis⟩ := h.block_spec wf hb
  refine ⟨_, block?_of_block? h.fresh hb, ?_⟩
  rw [(wf.tidy hb).instrs_eq] at hi
  rw [htidy.instrs_eq, hbody]
  have hlen : ((d.block s.block b).phis.map Instr.phi).length = (b.phis.map Instr.phi).length := by
    rw [List.length_map, List.length_map, hphis.length_eq]
  by_cases hlt : s.index < (b.phis.map Instr.phi).length
  · rw [List.getElem?_append_left hlt] at hi
    obtain ⟨φ, _, heq⟩ := List.mem_map.1 (List.mem_of_getElem? hi)
    rw [← heq] at hphi
    cases hphi
  · rw [List.getElem?_append_right (Nat.not_lt.1 hlt)] at hi
    rw [List.getElem?_append_right (hlen ▸ Nat.not_lt.1 hlt), hlen]
    exact hi

theorem Fits.movable (h : d.Fits f) (wf : f.WellFormed) (hlabel : d.label ∉ body)
    (hm : f.Movable body sites) : (d.apply f).Movable body sites := by
  obtain ⟨writes, hmovable, hwrites⟩ := hm.movable
  refine ⟨fun s hs => ?_, hm.nodup, ⟨writes, hmovable, fun hw l hl b' hb' i hi => ?_⟩,
    fun pre i post heq v hv => ?_⟩
  · obtain ⟨hbody, hsite⟩ := hm.site s hs
    exact ⟨hbody, h.hasSite wf hsite (isPhi_of_isMovable (hmovable s hs))⟩
  · rcases of_block?_apply h.fresh hb' with ⟨rfl, _⟩ | ⟨b, hb, rfl⟩
    · exact absurd hl hlabel
    · obtain ⟨_, hbody, htidy, _, _⟩ := h.block_spec wf hb
      rw [htidy.instrs_eq, hbody] at hi
      rcases List.mem_append.1 hi with hi | hi
      · obtain ⟨φ, _, rfl⟩ := List.mem_map.1 hi
        rfl
      · exact hwrites hw l hl b hb i (List.mem_of_mem_filter hi)
  · refine (hm.operand pre i post heq v hv).imp_left fun hout l hl hdef => ?_
    rcases h.of_defines wf hdef with ⟨rfl, _⟩ | ⟨_, hdef⟩
    · exact hlabel hl
    · exact hout l hl hdef

end Detour

/-! ## What the pass keeps -/

namespace Func

variable {f' f'' : Func}

theorem Regular.not_entryIsTarget (h : f.Regular) : ¬ f.EntryIsTarget :=
  fun ⟨p, _, hp⟩ => h.entry_first p hp

/-- What moving code leaves: SSA form, an entry that is no target, and the same runs. -/
structure Improves (f f' : Func) : Prop where
  name_eq : f'.name = f.name
  inSsa : f'.InSsa
  entry : ¬ f'.EntryIsTarget
  entryPhiFree : f.EntryPhiFree → f'.EntryPhiFree
  undefined : f.UndefinedAcyclic → f'.UndefinedAcyclic
  interchangeable : f.Interchangeable f'

theorem Improves.refl (hf : f.InSsa) (hentry : ¬ f.EntryIsTarget) : f.Improves f :=
  ⟨rfl, hf, hentry, id, id, hf.wf.delays_self.interchangeable⟩

theorem Improves.trans (h : f.Improves f') (h' : f'.Improves f'') : f.Improves f'' :=
  ⟨h'.name_eq.trans h.name_eq, h'.inSsa, h'.entry, fun hf => h'.entryPhiFree (h.entryPhiFree hf),
    fun hf => h'.undefined (h.undefined hf), h.interchangeable.trans h'.interchangeable⟩

end Func

theorem Detour.Fits.improves {d : Detour} (h : d.Fits f) (hf : f.InSsa)
    (hentry : ¬ f.EntryIsTarget) : f.Improves (d.apply f) :=
  ⟨rfl, h.inSsa hf, h.not_entryIsTarget hf.wf hentry, h.entryPhiFree hf.wf,
    h.undefinedAcyclic hf.wf, h.interchangeable hf⟩

namespace Func

variable {header : Label} {body : List Label} {sites : List Site}

theorem Hoist.of_block?_hoisted (h : f.Hoist p header body sites) {b' : Block}
    (hb' : (f.hoisted p body (codeOf sites)).block? l = some b') :
    ∃ b, f.block? l = some b ∧ b'.phis = b.phis := by
  obtain ⟨b, hb, rfl⟩ := of_block?_rewrite hb'
  exact ⟨b, hb, (h.hoisted_spec hb).1⟩

theorem Hoist.improves (h : f.Hoist p header body sites) (hentry : ¬ f.EntryIsTarget) :
    f.Improves (f.hoisted p body (codeOf sites)) := by
  refine ⟨rfl, h.hoisted_inSsa, ?_, fun hphis b' hb' => ?_,
    fun hundef l b' φ a hl hb' hφ ha hvalue => ?_,
    h.simulation.interchangeable pace_any⟩
  · unfold EntryIsTarget
    rw [Hoist.graph_eq]
    exact hentry
  · obtain ⟨b, hb, heq⟩ := h.of_block?_hoisted hb'
    exact heq.trans (hphis b hb)
  · obtain ⟨b, hb, heq⟩ := h.of_block?_hoisted hb'
    rw [Hoist.graph_eq] at hl ⊢
    exact hundef l b φ a hl hb (heq ▸ hφ) ha hvalue

end Func

/-! ## One loop -/

namespace Func

variable {f' : Func} {d : Dominators} {loop : Loop} {sites : List Site} {made : Bool}

/-- `f'` is `f` with the code at `sites` moved to a preheader of the loop, which is there or a
detour. -/
inductive Moves (f : Func) (loop : Loop) (sites : List Site) : Bool → Func → Prop
  | there {p : Label} : f.Hoist p loop.header loop.blocks sites →
    Moves f loop sites false (f.hoisted p loop.blocks (codeOf sites))
  | made {head : Block} : f.block? loop.header = some head → (∃ p ∈ head.preds, p ∉ loop.blocks) →
    ((f.preheaderDetour loop.header loop.blocks head).apply f).Hoist
      (f.preheaderDetour loop.header loop.blocks head).label loop.header loop.blocks sites →
    Moves f loop sites true (((f.preheaderDetour loop.header loop.blocks head).apply f).hoisted
      (f.preheaderDetour loop.header loop.blocks head).label loop.blocks (codeOf sites))

theorem Moves.improves (h : f.Moves loop sites made f') (hf : f.InSsa)
    (hentry : ¬ f.EntryIsTarget) : f.Improves f' := by
  cases h with
  | there h => exact h.improves hentry
  | made hhead houtside h =>
    have first := (hf.wf.preheaderDetour_fits hhead houtside).improves hf hentry
    exact first.trans (h.improves first.entry)

theorem Moves.graph_eq (h : f.Moves loop sites made f') (hmade : made = false) :
    f'.graph = f.graph := by
  cases h with
  | there h => exact Hoist.graph_eq _ _ _ _
  | made _ _ _ => cases hmade

/-- The header dominates no block from which control enters its loop. -/
theorem not_dominates_source (wf : f.WellFormed) (hd : d.Describes f.graph)
    (hloop : loop ∈ (f.graph.loops d).loops) {head : Block}
    (hhead : f.block? loop.header = some head)
    (hp : p ∈ (f.preheaderDetour loop.header loop.blocks head).sources)
    (hreach : f.graph.Reachable p) : ¬ f.graph.Dominates loop.header p := by
  intro hdom
  obtain ⟨hnext, hout⟩ := (wf.mem_sources_iff hhead p).1 hp
  exact hout (Graph.mem_blocks_of_latch hd hloop hreach hnext hdom)

theorem Moves.isHeader (h : f.Moves loop sites made f') (hf : f.InSsa) (hd : d.Describes f.graph)
    (hloop : loop ∈ (f.graph.loops d).loops) {x : Label} (hx : f'.graph.IsHeader x) :
    f.graph.IsHeader x := by
  cases h with
  | there h => rwa [Hoist.graph_eq] at hx
  | made hhead houtside h =>
    rw [Hoist.graph_eq] at hx
    exact ((hf.wf.preheaderDetour_fits hhead houtside).detours hf.wf).isHeader
      (Graph.isHeader_of_mem_loops hd hloop)
      (fun p hp hreach => not_dominates_source hf.wf hd hloop hhead hp hreach) hx

end Func

/-- What the pass over the loops that are not in `done` makes of a function, one loop after the
other. -/
inductive Hoists : List Label → Func → Func → Prop
  | stop {done : List Label} {f : Func} : (∀ x, f.graph.IsHeader x → x ∈ done) → Hoists done f f
  | skip {done : List Label} {f f' : Func} {d : Dominators} {loop : Loop} : d.Describes f.graph →
    (f.graph.loops d).innermostFirst.find? (fun l : Loop => decide (l.header ∉ done)) = some loop →
    f.invariantSites d loop = [] → Hoists (loop.header :: done) f f' → Hoists done f f'
  | move {done : List Label} {f f₁ f' : Func} {d : Dominators} {loop : Loop} {made : Bool} :
    d.Describes f.graph →
    (f.graph.loops d).innermostFirst.find? (fun l : Loop => decide (l.header ∉ done)) = some loop →
    f.Moves loop (f.invariantSites d loop) made f₁ → Hoists (loop.header :: done) f₁ f' →
    Hoists done f f'

theorem Hoists.improves {f' : Func} (h : Hoists done f f') (hf : f.InSsa)
    (hentry : ¬ f.EntryIsTarget) : f.Improves f' := by
  induction h with
  | stop _ => exact .refl hf hentry
  | skip _ _ _ _ ih => exact ih hf hentry
  | move _ _ hmoves _ ih =>
    have hfirst := hmoves.improves hf hentry
    exact hfirst.trans (ih hfirst.inSsa hfirst.entry)

namespace Edit

open Func

variable {d : Dominators} {loop : Loop} {sites : List Site} {fuel : Nat}

theorem yields_loops (d : Dominators) (f : Func) : (loops d).Yields f (f.graph.loops d) f :=
  (yields_get f).bind (Yields.emit_if (yields_pure _ f))

/-- A loop gets a preheader: one that is there, or a new block on the edges that enter. -/
theorem insertPreheader_preheads (wf : f.WellFormed) (hd : d.Describes f.graph)
    (hloop : loop ∈ (f.graph.loops d).loops) (hne : loop.header ≠ f.graph.entry) :
    (∃ p, (insertPreheader loop.header loop.blocks).Yields f (p, false) f ∧
        f.graph.Preheads p loop.header loop.blocks) ∨
      ∃ head, f.block? loop.header = some head ∧ (∃ p ∈ head.preds, p ∉ loop.blocks) ∧
        (insertPreheader loop.header loop.blocks).Yields f
          ((f.preheaderDetour loop.header loop.blocks head).label, true)
          ((f.preheaderDetour loop.header loop.blocks head).apply f) ∧
        ((f.preheaderDetour loop.header loop.blocks head).apply f).graph.Preheads
          (f.preheaderDetour loop.header loop.blocks head).label loop.header loop.blocks := by
  have nat := Graph.natural_of_mem_loops hd hloop
  obtain ⟨head, hhead⟩ := wf.block_of_reachable (nat.reachable _ nat.header_mem)
  obtain ⟨q, hq, hqnext, hqout⟩ := nat.exists_outside hne
  have houtside : ∃ p ∈ head.preds, p ∉ loop.blocks := ⟨q, (wf.mem_preds hhead).2 hqnext, hqout⟩
  rcases insertPreheader_yields wf hhead houtside with ⟨p, hinsert, hnext, honly⟩ | hinsert
  · have hp : p ∉ loop.blocks := honly q hqnext hqout ▸ hqout
    exact .inl ⟨p, hinsert, nat, hp, hne, hnext, honly⟩
  · have fits := wf.preheaderDetour_fits hhead houtside
    exact .inr ⟨head, hhead, houtside, hinsert,
      (fits.detours wf).preheads nat hne (wf.mem_sources_iff hhead)⟩

/-- Moving code once there is a preheader. -/
theorem hoistSites_yields_of {g : Func} {made : Bool}
    (hinsert : (insertPreheader loop.header loop.blocks).Yields g (p, made) f)
    (h : f.Hoist p loop.header loop.blocks sites) :
    (hoistSites loop sites).Yields g (p, made) (f.hoisted p loop.blocks (codeOf sites)) := by
  obtain ⟨b, hb⟩ := h.inSsa.wf.block_of_reachable h.preheads.preheader_reachable
  have hget : f.getBlock p = .ok b := by rw [getBlock, hb]
  have hremove := yields_modify (fun f => (f.removeSites sites).modifyBlock p fun b =>
    { b with instrs := b.instrs ++ sites.map (·.instr) }) f
  rw [h.removeSites_eq] at hremove
  unfold hoistSites
  refine hinsert.bind ((yields_ask hget).bind (hremove.bind ((yields_get _).bind ?_)))
  exact (yields_forM_emit (fun s : Site => .hoisted f.name s.instr.render s.block p) sites _).bind
    (yields_pure _ _)

/-- The edit moves the code at `sites` to a preheader. -/
theorem hoistSites_moves (hf : f.InSsa) (hentry : ¬ f.EntryIsTarget) (hd : d.Describes f.graph)
    (hloop : loop ∈ (f.graph.loops d).loops) (hm : f.Movable loop.blocks sites) :
    ∃ p made f', (hoistSites loop sites).Yields f (p, made) f' ∧ f.Moves loop sites made f' := by
  have hne : loop.header ≠ f.graph.entry := by
    intro (he : loop.header = f.entry)
    obtain ⟨q, hq, hnext, _⟩ := Graph.isHeader_of_mem_loops hd hloop
    exact hentry ⟨q, hq, he ▸ hnext⟩
  rcases insertPreheader_preheads hf.wf hd hloop hne with
    ⟨p, hinsert, pre⟩ | ⟨head, hhead, houtside, hinsert, pre⟩
  · have h : f.Hoist p loop.header loop.blocks sites := ⟨hf, pre, hm⟩
    exact ⟨p, false, _, hoistSites_yields_of hinsert h, .there h⟩
  · have fits := hf.wf.preheaderDetour_fits hhead houtside
    have h : Func.Hoist _ _ loop.header loop.blocks sites :=
      ⟨fits.inSsa hf, pre, fits.movable hf.wf pre.not_mem hm⟩
    exact ⟨_, true, _, hoistSites_yields_of hinsert h, .made hhead houtside h⟩

/-! ## All loops -/

theorem mem_loops_of_find {forest : LoopForest}
    (h : forest.innermostFirst.find? (fun l : Loop => decide (l.header ∉ done)) = some loop) :
    loop ∈ forest.loops ∧ loop.header ∉ done := by
  have hdone := List.find?_some h
  exact ⟨Graph.mem_innermostFirst.1 (List.mem_of_find?_eq_some h), of_decide_eq_true hdone⟩

/-- The headers of loops that are not done. -/
def pending (g : Graph) (d : Dominators) (done : List Label) : List Label :=
  ((g.loops d).loops.map (·.header)).filter (· ∉ done)

section Pending

variable {g : Graph} {x : Label}

theorem nodup_pending (hd : d.Describes g) : (pending g d done).Nodup :=
  (Graph.nodup_headers hd).filter _

theorem mem_pending (hd : d.Describes g) : x ∈ pending g d done ↔ g.IsHeader x ∧ x ∉ done := by
  unfold pending
  rw [List.mem_filter, decide_eq_true_eq]
  refine and_congr_left fun _ => ⟨fun hx => ?_, fun hx => ?_⟩
  · obtain ⟨loop, hloop, rfl⟩ := List.mem_map.1 hx
    exact Graph.isHeader_of_mem_loops hd hloop
  · obtain ⟨loop, hloop, rfl⟩ := Graph.exists_loop hd hx
    exact List.mem_map_of_mem hloop

/-- A loop that is done leaves fewer, if no new headers come up. -/
theorem pending_lt (hd : d.Describes g) {g' : Graph} {d' : Dominators} (hd' : d'.Describes g')
    (hheaders : ∀ x, g'.IsHeader x → g.IsHeader x) (hx : x ∈ pending g d done) :
    (pending g' d' (x :: done)).length < (pending g d done).length := by
  have nodup : (x :: pending g' d' (x :: done)).Nodup :=
    List.nodup_cons.2 ⟨fun h => ((mem_pending hd').1 h).2 (.head _), nodup_pending hd'⟩
  have hsub : x :: pending g' d' (x :: done) ⊆ pending g d done := by
    intro y hy
    rcases List.mem_cons.1 hy with rfl | hy
    · exact hx
    · obtain ⟨hheader, hdone⟩ := (mem_pending hd').1 hy
      exact (mem_pending hd).2 ⟨hheaders y hheader, fun h => hdone (.tail _ h)⟩
  exact (List.subperm_of_subset nodup hsub).length_le

end Pending

/-- Once the bound is above the number of loops that are not done, it does not matter. -/
theorem hoistLoops_fuel (hf : f.InSsa) (hentry : ¬ f.EntryIsTarget) (hd : d.Describes f.graph)
    (henough : (pending f.graph d done).length < fuel) (n : Nat) :
    hoistLoops (fuel + n) d (f.graph.loops d) done f
      = hoistLoops fuel d (f.graph.loops d) done f := by
  induction fuel generalizing f d done with
  | zero => exact absurd henough (Nat.not_lt_zero _)
  | succ fuel ih =>
    rw [Nat.succ_add]
    cases hfind : (f.graph.loops d).innermostFirst.find? (fun l : Loop =>
      decide (l.header ∉ done)) with
    | none => simp only [hoistLoops, hfind]
    | some loop =>
      obtain ⟨hloop, hdone⟩ := mem_loops_of_find hfind
      have hpending : loop.header ∈ pending f.graph d done :=
        (mem_pending hd).2 ⟨Graph.isHeader_of_mem_loops hd hloop, hdone⟩
      have hm := hf.form.movable_invariantSites hd (Graph.natural_of_mem_loops hd hloop).reachable
      simp only [hoistLoops, hfind]
      refine (yields_get f).bind_congr ?_
      split
      · exact ih hf hentry hd (Nat.lt_of_lt_of_le (pending_lt hd hd (fun _ hx => hx) hpending)
          (Nat.le_of_lt_succ henough))
      · obtain ⟨p, made, f₁, hmove, hmoves⟩ := hoistSites_moves hf hentry hd hloop hm
        have hfirst := hmoves.improves hf hentry
        have hheaders : ∀ x, f₁.graph.IsHeader x → f.graph.IsHeader x :=
          fun x hx => hmoves.isHeader hf hd hloop hx
        refine hmove.bind_congr ?_
        cases made with
        | true =>
          obtain ⟨d₁, hd₁, hdesc₁⟩ := hfirst.inSsa.wf.dominators
          refine (yields_dominators hd₁).bind_congr
            ((yields_loops d₁ f₁).bind_congr (bind_congr_left ?_ _))
          exact ih hfirst.inSsa hfirst.entry hdesc₁
            (Nat.lt_of_lt_of_le (pending_lt hd hdesc₁ hheaders hpending)
              (Nat.le_of_lt_succ henough))
        | false =>
          have hgraph := hmoves.graph_eq rfl
          refine bind_congr_left ?_ _
          rw [← hgraph]
          exact ih hfirst.inSsa hfirst.entry (hgraph ▸ hd)
            (Nat.lt_of_lt_of_le (pending_lt hd (hgraph ▸ hd) hheaders hpending)
              (Nat.le_of_lt_succ henough))

/-- There are no more loops than blocks. -/
theorem pending_le (wf : f.WellFormed) (hd : d.Describes f.graph) :
    (pending f.graph d []).length ≤ f.blocks.size := by
  have hsub : pending f.graph d [] ⊆ f.blocks.keys := by
    intro x hx
    obtain ⟨⟨p, hp, hnext, _⟩, _⟩ := (mem_pending hd).1 hx
    exact mem_graph.1 (wf.graph_closed x (hp.step hnext))
  have hlen := (List.subperm_of_subset (nodup_pending hd) hsub).length_le
  rwa [Table.keys, List.length_map] at hlen

/-! ## The pass -/

theorem mem_done_of_find_none (hd : d.Describes f.graph)
    (hfind : (f.graph.loops d).innermostFirst.find? (fun l : Loop => decide (l.header ∉ done))
      = none) (x : Label) (hx : f.graph.IsHeader x) : x ∈ done := by
  obtain ⟨loop, hloop, rfl⟩ := Graph.exists_loop hd hx
  simpa using List.find?_eq_none.1 hfind loop (Graph.mem_innermostFirst.2 hloop)

/-- With a bound above the number of loops that are not done, all of them are treated. -/
theorem hoistLoops_hoists (hf : f.InSsa) (hentry : ¬ f.EntryIsTarget) (hd : d.Describes f.graph)
    (henough : (pending f.graph d done).length < fuel) :
    ∃ r f', (hoistLoops fuel d (f.graph.loops d) done).Yields f r f' ∧ Hoists done f f' := by
  induction fuel generalizing f d done with
  | zero => exact absurd henough (Nat.not_lt_zero _)
  | succ fuel ih =>
    simp only [hoistLoops]
    cases hfind : (f.graph.loops d).innermostFirst.find? (fun l : Loop =>
      decide (l.header ∉ done)) with
    | none => exact ⟨_, f, yields_pure _ f, .stop (mem_done_of_find_none hd hfind)⟩
    | some loop =>
      obtain ⟨hloop, hdone⟩ := mem_loops_of_find hfind
      have hpending : loop.header ∈ pending f.graph d done :=
        (mem_pending hd).2 ⟨Graph.isHeader_of_mem_loops hd hloop, hdone⟩
      by_cases hsites : (f.invariantSites d loop).isEmpty
      · obtain ⟨r, f', hyields, hrest⟩ := ih hf hentry hd
          (Nat.lt_of_lt_of_le (pending_lt hd hd (fun _ hx => hx) hpending)
            (Nat.le_of_lt_succ henough))
        refine ⟨r, f', (yields_get f).bind ?_, .skip hd hfind (List.isEmpty_iff.1 hsites) hrest⟩
        rw [if_pos hsites]
        exact hyields
      · have hm := hf.form.movable_invariantSites hd (Graph.natural_of_mem_loops hd hloop).reachable
        obtain ⟨p, made, f₁, hmove, hmoves⟩ := hoistSites_moves hf hentry hd hloop hm
        have hfirst := hmoves.improves hf hentry
        have hless : ∀ {d₁ : Dominators}, d₁.Describes f₁.graph →
            (pending f₁.graph d₁ (loop.header :: done)).length < fuel := fun hd₁ =>
          Nat.lt_of_lt_of_le
            (pending_lt hd hd₁ (fun x hx => hmoves.isHeader hf hd hloop hx) hpending)
            (Nat.le_of_lt_succ henough)
        cases made with
        | true =>
          obtain ⟨d₁, hd₁, hdesc₁⟩ := hfirst.inSsa.wf.dominators
          obtain ⟨r, f', hyields, hrest⟩ := ih hfirst.inSsa hfirst.entry hdesc₁ (hless hdesc₁)
          refine ⟨(p :: r.1, (f.invariantSites d loop).map (·.movedTo p) ++ r.2), f',
            (yields_get f).bind ?_, .move hd hfind hmoves hrest⟩
          rw [if_neg hsites]
          exact hmove.bind ((yields_dominators hd₁).bind
            ((yields_loops d₁ f₁).bind (hyields.bind (yields_pure _ f'))))
        | false =>
          have hgraph := hmoves.graph_eq rfl
          obtain ⟨r, f', hyields, hrest⟩ :=
            ih hfirst.inSsa hfirst.entry (hgraph ▸ hd) (hless (hgraph ▸ hd))
          rw [hgraph] at hyields
          refine ⟨(r.1, (f.invariantSites d loop).map (·.movedTo p) ++ r.2), f',
            (yields_get f).bind ?_, .move hd hfind hmoves hrest⟩
          rw [if_neg hsites]
          exact hmove.bind (hyields.bind (yields_pure _ f'))

/-- The pass treats all loops. -/
theorem hoist_hoists (hf : f.InSsa) (hentry : ¬ f.EntryIsTarget) :
    ∃ r f', hoist.Yields f r f' ∧ Hoists [] f f' := by
  obtain ⟨d, hd, hdesc⟩ := hf.wf.dominators
  obtain ⟨r, f', hyields, hhoists⟩ :=
    hoistLoops_hoists hf hentry hdesc (Nat.lt_succ_of_le (pending_le hf.wf hdesc))
  refine ⟨⟨f.name, (f.graph.loops d).loops.length, r.1, r.2⟩, f', (yields_get f).bind ?_, hhoists⟩
  rw [hf.ssa]
  exact (yields_dominators hd).bind ((yields_loops d f).bind (hyields.bind (yields_pure _ f')))

/-- The pass succeeds, and leaves a function in SSA form that can stand for the old one. -/
theorem hoist_improves (hf : f.InSsa) (hentry : ¬ f.EntryIsTarget) :
    ∃ r f', hoist.Yields f r f' ∧ f.Improves f' := by
  obtain ⟨r, f', hyields, hhoists⟩ := hoist_hoists hf hentry
  exact ⟨r, f', hyields, hhoists.improves hf hentry⟩

end Edit

namespace Func

/-- A loop with two ways in, on which a phi gets different values, and with code that does the same
in each round. -/
def twoWaysIn : Func where
  name := "main"
  params := ["n", "k"]
  ssa := true
  versions := Table.ofList [("i", 2), ("x", 2)]
  blocks := Table.ofList [
    ("entry", { name := "entry", term := some (.branch (.var ⟨"n", some 0⟩) "loop" "other") }),
    ("other", { name := "other", preds := ["entry"], term := some (.jump "loop") }),
    ("loop", { name := "loop", preds := ["entry", "other", "loop"],
               term := some (.branch (.var ⟨"i", some 2⟩) "loop" "done"),
               instrs := [.phi ⟨⟨"i", some 1⟩, [⟨"entry", .var ⟨"n", some 0⟩⟩, ⟨"other", .const 5⟩,
                            ⟨"loop", .var ⟨"i", some 2⟩⟩]⟩,
                          .load ⟨"x", some 1⟩ (.var ⟨"k", some 0⟩),
                          .binary ⟨"x", some 2⟩ "div" (.var ⟨"x", some 1⟩) (.const 2),
                          .write (.var ⟨"x", some 2⟩),
                          .binary ⟨"i", some 2⟩ "sub" (.var ⟨"i", some 1⟩) (.const 1)] }),
    ("done",
      { name := "done", preds := ["loop"], term := some (.ret (some (.var ⟨"x", some 1⟩))) })]

/-- Invariant code can be moved out of the loops of any function in SSA form whose entry has no
predecessors and whose counters know all versions. Every loop is looked at; the result is in SSA
form; and whatever program the function is in, a run that ends within its budget ends alike, given
enough steps, with the result in its place. -/
theorem hoist_runs (f : Func) (hssa : f.checkSsa = .ok ())
    (hentry : ∀ b, f.block? f.entry = some b → b.preds = []) (hcount : f.Counted) :
    (∀ d, f.dominators = .ok d →
      ∀ n, Edit.hoistLoops (f.blocks.size + 1 + n) d (f.graph.loops d) [] f
        = Edit.hoistLoops (f.blocks.size + 1) d (f.graph.loops d) [] f) ∧
      ∃ r f', Edit.hoist.Yields f r f' ∧ f'.checkSsa = .ok () ∧ ∀ p p' key, Replaces p p' key f f' →
        ∀ spec, (p.run spec).Finished → p'.Settles spec (p.run spec).ending := by
  have hf : f.InSsa := ⟨isSsa_iff.2 hssa, hcount⟩
  have hentry : ¬ f.EntryIsTarget := by
    rintro ⟨p, _, hp⟩
    obtain ⟨b, hb⟩ := exists_block.1 hf.wf.entry_mem
    have hmem := (hf.wf.mem_preds hb).2 hp
    rw [hentry b hb] at hmem
    cases hmem
  refine ⟨fun d hd n => ?_, ?_⟩
  · obtain ⟨d', hd', hdesc⟩ := hf.wf.dominators
    cases hd.symm.trans hd'
    exact Edit.hoistLoops_fuel hf hentry hdesc (Nat.lt_succ_of_le (Edit.pending_le hf.wf hdesc)) n
  · obtain ⟨r, f', hyields, himproves⟩ := Edit.hoist_improves hf hentry
    refine ⟨r, f', hyields, isSsa_iff.1 himproves.inSsa.toIsSsa, fun p p' key rep spec hfin => ?_⟩
    exact (himproves.interchangeable p p' key rep).settles hfin

theorem hoist_runs_twoWaysIn :
    (∀ d, twoWaysIn.dominators = .ok d → ∀ n,
        Edit.hoistLoops (twoWaysIn.blocks.size + 1 + n) d (twoWaysIn.graph.loops d) [] twoWaysIn
          = Edit.hoistLoops (twoWaysIn.blocks.size + 1) d (twoWaysIn.graph.loops d) [] twoWaysIn) ∧
      ∃ r f', Edit.hoist.Yields twoWaysIn r f' ∧ f'.checkSsa = .ok () ∧ ∀ p p' key,
        Replaces p p' key twoWaysIn f' →
        ∀ spec, (p.run spec).Finished → p'.Settles spec (p.run spec).ending :=
  hoist_runs twoWaysIn rfl (by decide) (by decide)

/-- Both instructions leave the loop, for a block that merges what comes in on the two ways. -/
example : (Edit.hoist twoWaysIn).result.toOption.map
    (fun r => (r.preheaders, r.hoisted.map (·.dest)))
    = some (["loop.preheader"], ["x$1", "x$2"]) := by
  rfl

end Func

end ThreeAddress

import ThreeAddress.Proofs.LoopMotion
import ThreeAddress.Proofs.LoopNesting

/-!
# One pass moves all there is to move

A loop is exhausted if every instruction of it that could be moved by its kind reads what the loop
defines.

1. The search misses nothing (`growInvariants_complete`), so a loop is exhausted once its code was
   moved (`Moves.exhausted_self`).
2. A loop that was done stays exhausted while others are treated (`Moves.exhausted`). It does not
   contain the loop in turn, for inner loops come first; if it lies in it, nothing of it is moved,
   because the first such instruction would read what the inner loop defines.
3. `Hoists` is what the pass over all loops does, step by step. It leaves every loop exhausted
   (`Hoists.exhausted`), and then a second pass finds nothing (`hoist_of_exhausted`).
-/

namespace ThreeAddress

variable {s : Site} {i : Instr} {writes : Bool} {f' : Func}

/-! ## The search is complete -/

section Search

variable {inside invariant : List Var} {sites : List Site}

/-- One walk knows the results of what it found; if it found nothing, each candidate reads something
that varies. -/
theorem sweepInvariants_complete (inside invariant : List Var) (sites : List Site) :
    let sweep := sweepInvariants inside invariant sites
    (∀ v, v ∈ invariant ∨ v ∈ destsOf (sweep.found.map (·.instr)) → v ∈ sweep.invariant) ∧
      (sweep.found = [] → ∀ s ∈ sites, ∃ v, .var v ∈ s.instr.uses ∧ v ∈ inside ∧
        v ∉ invariant) := by
  induction sites generalizing invariant with
  | nil => exact ⟨fun v hv => hv.resolve_right List.not_mem_nil, fun _ s hs => by cases hs⟩
  | cons s sites ih =>
    simp only [sweepInvariants]
    split
    · obtain ⟨hknown, _⟩ := ih (s.instr.dest?.toList ++ invariant)
      refine ⟨fun v hv => hknown v ?_, fun h => by cases h⟩
      rw [List.map_cons, destsOf_cons, List.mem_append] at hv
      rw [List.mem_append]
      tauto
    · rename_i hs
      obtain ⟨hknown, hnone⟩ := ih invariant
      refine ⟨hknown, fun hfound => List.forall_mem_cons.2 ⟨?_, hnone hfound⟩⟩
      obtain ⟨x, hx, hvaries⟩ := List.all_eq_false.1 (Bool.eq_false_iff.2 hs)
      rw [isInvariant_iff] at hvaries
      push Not at hvaries
      obtain ⟨v, rfl, hinside, hnot⟩ := hvaries
      exact ⟨v, hx, hinside, hnot⟩

/-- A candidate that is not found reads something that is defined inside and was not found. -/
theorem growInvariants_complete {fuel : Nat} (enough : sites.length < fuel) (hs : s ∈ sites)
    (hnot : s ∉ growInvariants inside fuel invariant sites) :
    ∃ v, .var v ∈ s.instr.uses ∧ v ∈ inside ∧
      v ∉ invariant ∧ v ∉ destsOf ((growInvariants inside fuel invariant sites).map (·.instr)) := by
  induction fuel generalizing invariant sites with
  | zero => exact absurd enough (Nat.not_lt_zero _)
  | succ fuel ih =>
    obtain ⟨hknown, hnone⟩ := sweepInvariants_complete inside invariant sites
    obtain ⟨hperm, _, _⟩ := sweepInvariants_spec inside invariant sites
    rw [growInvariants] at hnot ⊢
    by_cases hempty : (sweepInvariants inside invariant sites).found.isEmpty
    · obtain ⟨v, hv, hinside, hvaries⟩ := hnone (List.isEmpty_iff.1 hempty) s hs
      rw [if_pos hempty]
      exact ⟨v, hv, hinside, hvaries, List.not_mem_nil⟩
    · rw [if_neg hempty, List.mem_append, not_or] at hnot
      have hrest : s ∈ (sweepInvariants inside invariant sites).rest :=
        (List.mem_append.1 (hperm.symm.subset hs)).resolve_left hnot.1
      have hlen := hperm.length_eq
      rw [List.length_append] at hlen
      have hpos : 0 < (sweepInvariants inside invariant sites).found.length :=
        List.length_pos_iff.2 fun h => hempty (List.isEmpty_iff.2 h)
      obtain ⟨v, hv, hinside, hvaries, hmore⟩ := ih (by omega) hrest hnot.2
      rw [if_neg hempty]
      refine ⟨v, hv, hinside, fun h => hvaries (hknown v (.inl h)), fun h => ?_⟩
      rw [List.map_append, destsOf_append, List.mem_append] at h
      exact h.elim (fun h => hvaries (hknown v (.inr h))) hmore

end Search

/-! ## Exhausted loops -/

theorem isMovable_false_of_true (h : isMovable true i = true) : isMovable false i = true := by
  cases i with
  | load d a => cases h
  | _ => exact h

theorem writesMemory_of_isMovable (h : isMovable writes i = true) : writesMemory i = false := by
  cases i with
  | store a v => cases h
  | call d g args => cases h
  | _ => rfl

namespace Func

variable {f : Func} {d : Dominators} {h x l : Label}

/-- Some instruction of the loop of `h` may change memory. -/
def WritesIn (f : Func) (h : Label) : Prop :=
  ∃ l b i, f.graph.InLoop h l ∧ f.block? l = some b ∧ i ∈ b.instrs ∧ writesMemory i = true

/-- By its kind, the instruction could leave the loop of `h`. -/
def MayLeave (f : Func) (h : Label) (i : Instr) : Prop :=
  isMovable true i = true ∨ isMovable false i = true ∧ ¬ f.WritesIn h

theorem mayLeave_iff (hwrites : writes = true ↔ f.WritesIn h) :
    isMovable writes i = true ↔ f.MayLeave h i := by
  unfold MayLeave
  cases writes with
  | true =>
    have hw : f.WritesIn h := hwrites.1 rfl
    simp [hw]
  | false =>
    have hw : ¬ f.WritesIn h := fun hw => by cases hwrites.2 hw
    simp only [hw, not_false_eq_true, and_true]
    exact ⟨.inr, fun h => h.elim isMovable_false_of_true id⟩

theorem MayLeave.isMovable (hi : f.MayLeave h i) : isMovable false i = true :=
  hi.elim isMovable_false_of_true fun hi => hi.1

/-- Where less writes memory, more may leave. -/
theorem MayLeave.mono {h' : Label} (hi : f.MayLeave h i) (hwrites : f'.WritesIn h' → f.WritesIn h) :
    f'.MayLeave h' i :=
  hi.imp_right fun hi => ⟨hi.1, fun hw => hi.2 (hwrites hw)⟩

/-- What is moved out of a loop could leave the loops in it as well. -/
theorem Movable.mayLeave {body : List Label} {sites : List Site} (hm : f.Movable body sites)
    (hin : ∀ {l}, f.graph.InLoop h l → l ∈ body) (hs : s ∈ sites) : f.MayLeave h s.instr := by
  obtain ⟨writes, hmovable, hwrites⟩ := hm.movable
  cases writes with
  | true => exact .inl (hmovable s hs)
  | false =>
    refine .inr ⟨hmovable s hs, ?_⟩
    rintro ⟨l, b, i, hl, hb, hi, hw⟩
    rw [hwrites rfl l (hin hl) b hb i hi] at hw
    cases hw

/-- Every instruction that may leave the loop of `h`, up to those in `moved`, reads what the loop
defines and `moved` does not. -/
def Exhausted (f : Func) (h : Label) (moved : List Instr) : Prop :=
  ∀ l b i, f.graph.InLoop h l → f.block? l = some b → i ∈ b.instrs → f.MayLeave h i → i ∉ moved →
    ∃ v a, .var v ∈ i.uses ∧ f.graph.InLoop h a ∧ f.Defines a v ∧ v ∉ destsOf moved

section Sites

variable {loop : Loop}

/-- The sites of a loop. -/
def loopSites (f : Func) (d : Dominators) (loop : Loop) : List Site :=
    f.sites (d.order.filter (· ∈ loop.blocks))

/-- The sites of a loop that could be moved by their kind. -/
def candidates (f : Func) (d : Dominators) (loop : Loop) : List Site :=
  (f.loopSites d loop).filter (isMovable ((f.loopSites d loop).any (writesMemory ·.instr)) ·.instr)

/-- The variables that a loop defines. -/
def insideOf (f : Func) (d : Dominators) (loop : Loop) : List Var :=
    (f.loopSites d loop).filterMap (·.instr.dest?)

theorem invariantSites_eq (f : Func) (d : Dominators) (loop : Loop) : f.invariantSites d loop
    = growInvariants (f.insideOf d loop) ((f.candidates d loop).length + 1) []
      (f.candidates d loop) :=
  rfl

section

variable (hd : d.Describes f.graph)
include hd

theorem mem_loopSites (hloop : loop ∈ (f.graph.loops d).loops) :
    s ∈ f.loopSites d loop ↔ f.graph.InLoop loop.header s.block ∧ f.HasSite s := by
  rw [loopSites, mem_sites, ← Graph.blocks_eq hloop, Graph.mem_blocks_iff hd hloop]

theorem mem_insideOf (hloop : loop ∈ (f.graph.loops d).loops) {v : Var} :
    v ∈ f.insideOf d loop ↔ ∃ a, f.graph.InLoop loop.header a ∧ f.Defines a v := by
  rw [insideOf, List.mem_filterMap]
  constructor
  · rintro ⟨s, hs, hv⟩
    obtain ⟨hl, b, hb, hi⟩ := (mem_loopSites hd hloop).1 hs
    exact ⟨s.block, hl, b, hb, mem_destsOf.2 ⟨_, List.mem_of_getElem? hi, hv⟩⟩
  · rintro ⟨a, ha, b, hb, hv⟩
    obtain ⟨i, hi, hv⟩ := mem_destsOf.1 hv
    obtain ⟨n, hn⟩ := List.mem_iff_getElem?.1 hi
    exact ⟨⟨a, n, i⟩, (mem_loopSites hd hloop).2 ⟨ha, b, hb, hn⟩, hv⟩

theorem mem_candidates (hloop : loop ∈ (f.graph.loops d).loops) :
    s ∈ f.candidates d loop ↔ (f.graph.InLoop loop.header s.block ∧ f.HasSite s) ∧
      f.MayLeave loop.header s.instr := by
  rw [candidates, List.mem_filter, mem_loopSites hd hloop]
  refine and_congr_right fun _ => mayLeave_iff ?_
  rw [List.any_eq_true]
  constructor
  · rintro ⟨s, hs, hw⟩
    obtain ⟨hl, b, hb, hi⟩ := (mem_loopSites hd hloop).1 hs
    exact ⟨s.block, b, s.instr, hl, hb, List.mem_of_getElem? hi, hw⟩
  · rintro ⟨l, b, i, hl, hb, hi, hw⟩
    obtain ⟨n, hn⟩ := List.mem_iff_getElem?.1 hi
    exact ⟨⟨l, n, i⟩, (mem_loopSites hd hloop).2 ⟨hl, b, hb, hn⟩, hw⟩

/-- All code of a loop that can be moved is found. -/
theorem exhausted_invariantSites (hloop : loop ∈ (f.graph.loops d).loops) :
    f.Exhausted loop.header (codeOf (f.invariantSites d loop)) := by
  intro l b i hl hb hi hmay hnot
  obtain ⟨n, hn⟩ := List.mem_iff_getElem?.1 hi
  have hcandidate : (⟨l, n, i⟩ : Site) ∈ f.candidates d loop :=
    (mem_candidates hd hloop).2 ⟨⟨hl, b, hb, hn⟩, hmay⟩
  obtain ⟨v, hv, hinside, _, hdest⟩ := growInvariants_complete (Nat.lt_succ_self _) hcandidate
    fun hmem => hnot (List.mem_map.2 ⟨_, hmem, rfl⟩)
  obtain ⟨a, ha, hdef⟩ := (mem_insideOf hd hloop).1 hinside
  exact ⟨v, a, hv, ha, hdef, hdest⟩

/-- Nothing is found in a loop that is exhausted. -/
theorem Exhausted.invariantSites_eq_nil (hloop : loop ∈ (f.graph.loops d).loops)
    (hex : f.Exhausted loop.header []) : f.invariantSites d loop = [] := by
  obtain ⟨⟨others, hperm⟩, hordered⟩ :=
    growInvariants_spec (f.insideOf d loop) ((f.candidates d loop).length + 1) []
    (f.candidates d loop)
  rw [← invariantSites_eq] at hperm hordered
  cases hsites : f.invariantSites d loop with
  | nil => rfl
  | cons s rest =>
    have hs : s ∈ f.invariantSites d loop := hsites ▸ List.mem_cons_self
    obtain ⟨⟨hl, b, hb, hi⟩, hmay⟩ :=
      (mem_candidates hd hloop).1 (hperm.subset (List.mem_append_left _ hs))
    obtain ⟨v, a, hv, ha, hdef, _⟩ :=
      hex _ _ _ hl hb (List.mem_of_getElem? hi) hmay List.not_mem_nil
    -- The first site that is found reads nothing from the loop.
    rcases hordered [] s rest hsites v hv with hout | hmem | hmem
    · exact absurd ((mem_insideOf hd hloop).2 ⟨a, ha, hdef⟩) hout
    · cases hmem
    · cases hmem

end

end Sites

end Func

/-! ## A new preheader -/

namespace Detour.Fits

variable {d : Detour} {f : Func} {x : Label}

theorem writesIn (h : d.Fits f) (wf : f.WellFormed)
    (hsources : ∀ p ∈ d.sources, f.graph.Reachable p → ¬ f.graph.Dominates d.target p)
    (hx : x ≠ d.label) (hw : f.WritesIn x) : (d.apply f).WritesIn x := by
  obtain ⟨l, b, i, hl, hb, hi, hw⟩ := hw
  obtain ⟨_, hbody, htidy, _, _⟩ := h.block_spec wf hb
  refine ⟨l, _, i, (h.detours wf).inLoop hsources hx hl, block?_of_block? h.fresh hb, ?_, hw⟩
  rw [htidy.instrs_eq, hbody]
  refine List.mem_append_right _ (List.mem_filter.2 ⟨hi, ?_⟩)
  cases i with
  | phi φ => cases hw
  | _ => rfl

/-- A detour into a loop keeps loops exhausted. -/
theorem exhausted (h : d.Fits f) (wf : f.WellFormed)
    (hsources : ∀ p ∈ d.sources, f.graph.Reachable p → ¬ f.graph.Dominates d.target p)
    (hnew : ¬ (d.apply f).graph.Dominates d.target d.label) (hx : x ≠ d.label) {moved : List Instr}
    (hex : f.Exhausted x moved) : (d.apply f).Exhausted x moved := by
  have det := h.detours wf
  intro l b' i hl hb' hi hmay hnot
  have hphi := isPhi_of_isMovable hmay.isMovable
  rcases of_block?_apply h.fresh hb' with ⟨_, rfl⟩ | ⟨b, hb, rfl⟩
  · obtain ⟨ψ, _, rfl⟩ := List.mem_map.1 hi
    cases hphi
  · obtain ⟨_, hbody, htidy, _, _⟩ := h.block_spec wf hb
    have hi : i ∈ b.instrs := by
      rw [htidy.instrs_eq, hbody] at hi
      rcases List.mem_append.1 hi with hi | hi
      · obtain ⟨φ, _, rfl⟩ := List.mem_map.1 hi
        cases hphi
      · exact List.mem_of_mem_filter hi
    obtain ⟨v, a, hv, ha, hdef, hdest⟩ :=
      hex _ _ _ ((det.of_inLoop hnew hx hl).1 (ne_label h.fresh hb)) hb hi
      (hmay.mono (h.writesIn wf hsources hx)) hnot
    exact ⟨v, a, hv, det.inLoop hsources hx ha, h.defines wf hdef, hdest⟩

end Detour.Fits

/-! ## Moved code -/

namespace Func.Hoist

variable {f : Func} {p header x : Label} {body : List Label} {sites : List Site}

/-- With the code moved, a loop without the preheader is exhausted if it was up to that code. -/
theorem exhausted (h : f.Hoist p header body sites) (hx : f.graph.Reachable x)
    (hp : ¬ f.graph.InLoop x p) (hex : f.Exhausted x (codeOf sites)) :
    (f.hoisted p body (codeOf sites)).Exhausted x [] := by
  have hwrites : f.WritesIn x → (f.hoisted p body (codeOf sites)).WritesIn x := by
    rintro ⟨l, b, i, hl, hb, hi, hw⟩
    refine ⟨l, _, i, by rwa [graph_eq], block?_rewrite_of_some _ hb, mem_moveCode.2 (.inl ⟨hi,
      fun _ hmem => ?_⟩), hw⟩
    obtain ⟨s, hs, rfl⟩ := List.mem_map.1 hmem
    obtain ⟨_, hmovable, _⟩ := h.movable.movable
    rw [writesMemory_of_isMovable (hmovable s hs)] at hw
    cases hw
  intro l b' i hl hb' hi hmay _
  rw [graph_eq] at hl ⊢
  obtain ⟨b, hb, rfl⟩ := of_block?_rewrite hb'
  rcases mem_moveCode.1 hi with ⟨hi, hkept⟩ | ⟨rfl, _⟩
  · have hnot : i ∉ codeOf sites := fun hmem =>
      hkept (h.mem_body_of_mem_codeOf (hl.reachable hx) hb hi hmem) hmem
    obtain ⟨v, a, hv, ha, hdef, hdest⟩ := hex l b i hl hb hi (hmay.mono hwrites) hnot
    exact ⟨v, a, hv, ha, defines hdef hdest, List.not_mem_nil⟩
  · exact absurd hl hp

/-- Nothing is moved from an exhausted loop inside. -/
theorem apart_of_exhausted (h : f.Hoist p header body sites)
    (hbody : ∀ l, l ∈ body ↔ f.graph.InLoop header l) (hin : f.graph.InLoop header x)
    (hex : f.Exhausted x []) : ∀ s ∈ sites, ¬ f.graph.InLoop x s.block := by
  have hheader := h.preheads.reachable header h.preheads.header_mem
  have hinner : ∀ {l}, f.graph.InLoop x l → l ∈ body := fun hl => (hbody _).2 (hin.trans hheader hl)
  -- The first site in the inner loop would read what that loop defines, and what it reads was moved
  -- before.
  have hfirst : ∀ n pre s post, sites = pre ++ s :: post → pre.length = n →
      ¬ f.graph.InLoop x s.block := by
    intro n
    induction n using Nat.strongRecOn with
    | ind n ih =>
      intro pre s post hsites hlen hs
      have hmem : s ∈ sites := hsites ▸ List.mem_append_right _ (.head _)
      obtain ⟨_, b, hb, hi⟩ := h.movable.site s hmem
      have hmay := h.movable.mayLeave hinner hmem
      obtain ⟨v, a, hv, ha, hdef, _⟩ :=
        hex _ _ _ hs hb (List.mem_of_getElem? hi) hmay List.not_mem_nil
      have hsplit : sites.map (·.instr) = pre.map (·.instr) ++ s.instr :: post.map (·.instr) := by
        rw [hsites, List.map_append, List.map_cons]
      rcases h.movable.operand _ _ _ hsplit v hv with hout | hpre
      · exact hout a (hinner ha) hdef
      · obtain ⟨i', hi', hd⟩ := mem_destsOf.1 hpre
        obtain ⟨s', hs', rfl⟩ := List.mem_map.1 hi'
        obtain ⟨before, after, rfl⟩ := List.append_of_mem hs'
        obtain ⟨hbody', b', hb', hi'⟩ := h.movable.site s' (by simp [hsites])
        have hhome : f.Defines s'.block v :=
          ⟨b', hb', mem_destsOf.2 ⟨_, List.mem_of_getElem? hi', hd⟩⟩
        have hblock : s'.block = a := h.inSsa.form.apart (h.preheads.reachable _ hbody')
          (h.preheads.reachable _ (hinner ha)) hhome hdef
        refine ih before.length ?_ before s' (after ++ s :: post) ?_ rfl (hblock ▸ ha)
        · rw [← hlen, List.length_append, List.length_cons]
          omega
        · rw [hsites, List.append_assoc, List.cons_append]
  intro s hs
  obtain ⟨pre, post, hsites⟩ := List.append_of_mem hs
  exact hfirst pre.length pre s post hsites rfl

/-- A loop that does not contain the one from which code is moved stays exhausted. -/
theorem exhausted_other (h : f.Hoist p header body sites)
    (hbody : ∀ l, l ∈ body ↔ f.graph.InLoop header l) (hx : f.graph.IsHeader x)
    (hout : ¬ f.graph.InLoop x header) (hex : f.Exhausted x []) :
    (f.hoisted p body (codeOf sites)).Exhausted x [] := by
  obtain ⟨d, _, hd⟩ := h.inSsa.wf.dominators
  have hheader := h.preheads.reachable header h.preheads.header_mem
  have hp : ¬ f.graph.InLoop x p := by
    intro hp
    obtain ⟨s, hs, hin⟩ := hp.exists_next hx
    rw [h.preheads.next_eq, List.mem_singleton] at hs
    exact hout (hs ▸ hin)
  have hapart : ∀ s ∈ sites, ¬ f.graph.InLoop x s.block := by
    by_cases hin : f.graph.InLoop header x
    · exact h.apart_of_exhausted hbody hin hex
    · intro s hs hsx
      have hsh := (hbody _).1 (h.movable.site s hs).1
      exact (Graph.InLoop.nested hd hheader hx.reachable hsh hsx).elim hin hout
  refine h.exhausted hx.reachable hp fun l b i hl hb hi hmay _ => ?_
  obtain ⟨v, a, hv, ha, hdef, _⟩ := hex l b i hl hb hi hmay List.not_mem_nil
  refine ⟨v, a, hv, ha, hdef, fun hmem => ?_⟩
  obtain ⟨s, hs, hd, _, hreach, c, hc, hi⟩ := h.exists_site hmem
  have hblock := h.inSsa.form.apart hreach (ha.reachable hx.reachable)
    ⟨c, hc, mem_destsOf.2 ⟨_, List.mem_of_getElem? hi, hd⟩⟩ hdef
  exact hapart s hs (hblock ▸ ha)

end Func.Hoist

/-! ## One loop -/

namespace Func.Moves

variable {f : Func} {d : Dominators} {loop : Loop} {sites : List Site} {made : Bool} {x : Label}

/-- After a preheader was made, the loop is as before, and the preheader is not dominated by the
header. -/
theorem preheaderDetour_spec (hf : f.InSsa) (hd : d.Describes f.graph)
    (hloop : loop ∈ (f.graph.loops d).loops) {head : Block}
    (hhead : f.block? loop.header = some head) (houtside : ∃ p ∈ head.preds, p ∉ loop.blocks)
    (h : ((f.preheaderDetour loop.header loop.blocks head).apply f).Hoist
      (f.preheaderDetour loop.header loop.blocks head).label loop.header loop.blocks sites) :
    let g := ((f.preheaderDetour loop.header loop.blocks head).apply f).graph
    let m := (f.preheaderDetour loop.header loop.blocks head).label
    (∀ x, f.graph.Reachable x → ∀ l, (g.InLoop x l → l ≠ m → f.graph.InLoop x l) ∧
      (f.graph.InLoop x l → g.InLoop x l)) ∧
      (∀ l, l ∈ loop.blocks ↔ g.InLoop loop.header l) ∧
      ∀ x, f.graph.Reachable x → ∀ moved, f.Exhausted x moved →
        ((f.preheaderDetour loop.header loop.blocks head).apply f).Exhausted x moved := by
  have fits := hf.wf.preheaderDetour_fits hhead houtside
  have det := fits.detours hf.wf
  have hsources : ∀ p ∈ (f.preheaderDetour loop.header loop.blocks head).sources,
      f.graph.Reachable p →
      ¬ f.graph.Dominates loop.header p :=
        fun p hp hreach => not_dominates_source hf.wf hd hloop hhead hp hreach
  have hnew := h.preheads.not_dominates h.preheads.header_mem
  have hheader := (Graph.isHeader_of_mem_loops hd hloop).reachable
  refine ⟨fun x hx l => ⟨fun hl hlm => (det.of_inLoop hnew (det.ne_of_reachable hx) hl).1 hlm,
    det.inLoop hsources (det.ne_of_reachable hx)⟩, fun l => ?_, fun x hx moved =>
    fits.exhausted hf.wf hsources hnew (det.ne_of_reachable hx)⟩
  rw [Graph.mem_blocks_iff hd hloop]
  refine ⟨det.inLoop hsources (det.ne_of_reachable hheader), fun hl => ?_⟩
  obtain ⟨hold, hlabel⟩ := det.of_inLoop hnew (det.ne_of_reachable hheader) hl
  exact hold fun hlm => (hlabel hlm).2 rfl

/-- The loop from which all code was moved is exhausted. -/
theorem exhausted_self (h : f.Moves loop (f.invariantSites d loop) made f') (hf : f.InSsa)
    (hd : d.Describes f.graph) (hloop : loop ∈ (f.graph.loops d).loops) :
    f'.Exhausted loop.header [] := by
  have hex := exhausted_invariantSites hd hloop
  have hheader := (Graph.isHeader_of_mem_loops hd hloop).reachable
  cases h with
  | @there p h =>
    exact h.exhausted hheader (fun hp => h.preheads.not_mem ((Graph.mem_blocks_iff hd hloop).2 hp))
      hex
  | made hhead houtside h =>
    obtain ⟨_, hblocks, hkeep⟩ := preheaderDetour_spec hf hd hloop hhead houtside h
    exact h.exhausted (h.preheads.reachable _ h.preheads.header_mem)
      (fun hp => h.preheads.not_mem ((hblocks _).2 hp)) (hkeep _ hheader _ hex)

/-- A loop that does not contain the one from which code is moved stays exhausted. -/
theorem exhausted (h : f.Moves loop sites made f') (hf : f.InSsa) (hd : d.Describes f.graph)
    (hloop : loop ∈ (f.graph.loops d).loops) (hx : f'.graph.IsHeader x)
    (hout : ¬ f.graph.InLoop x loop.header) (hex : f.Exhausted x []) : f'.Exhausted x [] := by
  have hreach := (h.isHeader hf hd hloop hx).reachable
  cases h with
  | there h =>
    rw [Hoist.graph_eq] at hx
    exact h.exhausted_other (fun l => Graph.mem_blocks_iff hd hloop) hx hout hex
  | made hhead houtside h =>
    obtain ⟨hsame, hblocks, hkeep⟩ := preheaderDetour_spec hf hd hloop hhead houtside h
    rw [Hoist.graph_eq] at hx
    refine h.exhausted_other hblocks hx (fun hin => hout ((hsame x hreach _).1 hin ?_))
      (hkeep x hreach [] hex)
    exact fun he => h.preheads.not_mem (he ▸ h.preheads.header_mem)

/-- Loops contain no other headers than before. -/
theorem of_inLoop (h : f.Moves loop sites made f') (hf : f.InSsa) (hd : d.Describes f.graph)
    (hloop : loop ∈ (f.graph.loops d).loops) (hx : f'.graph.IsHeader x) {y : Label}
    (hy : f'.graph.IsHeader y) (hin : f'.graph.InLoop x y) : f.graph.InLoop x y := by
  have hreach := (h.isHeader hf hd hloop hx).reachable
  have hyreach := (h.isHeader hf hd hloop hy).reachable
  cases h with
  | there h => rwa [Hoist.graph_eq] at hin
  | made hhead houtside h =>
    obtain ⟨hsame, _, _⟩ := preheaderDetour_spec hf hd hloop hhead houtside h
    rw [Hoist.graph_eq] at hin
    refine (hsame x hreach y).1 hin ?_
    exact ((hf.wf.preheaderDetour_fits hhead houtside).detours hf.wf).ne_of_reachable hyreach

end Func.Moves

/-! ## Nothing is left to move -/

/-- The loops in `done` are exhausted, and the loops in them are done as well. -/
structure Func.DoneWith (f : Func) (done : List Label) : Prop where
  exhausted : ∀ x ∈ done, f.graph.IsHeader x → f.Exhausted x []
  inner : ∀ x ∈ done, f.graph.IsHeader x → ∀ y, f.graph.IsHeader y → f.graph.InLoop x y → y ∈ done

theorem Func.doneWith_nil (f : Func) : f.DoneWith [] :=
  ⟨fun x hx => (by cases hx), fun x hx => (by cases hx)⟩

namespace Func.DoneWith

variable {f : Func} {d : Dominators} {loop : Loop} {done : List Label} {made : Bool}

/-- A loop in which nothing was found is done. -/
theorem skip (h : f.DoneWith done) (hd : d.Describes f.graph)
    (hfind : (f.graph.loops d).innermostFirst.find? (fun l : Loop => decide (l.header ∉ done))
      = some loop) (hnone : f.invariantSites d loop = []) : f.DoneWith (loop.header :: done) := by
  obtain ⟨hloop, _⟩ := Edit.mem_loops_of_find hfind
  have hself : f.Exhausted loop.header [] := by
    have hex := exhausted_invariantSites hd hloop
    rwa [hnone] at hex
  refine ⟨List.forall_mem_cons.2 ⟨fun _ => hself, h.exhausted⟩,
    List.forall_mem_cons.2 ⟨fun _ y hy hin => ?_,
    fun x hx hheader y hy hin => .tail _ (h.inner x hx hheader y hy hin)⟩⟩
  by_cases heq : y = loop.header
  · exact heq ▸ List.mem_cons_self
  · exact .tail _ (Graph.mem_done_of_find hd hfind hy hin heq)

/-- A loop whose code was moved is done. -/
theorem move (h : f.DoneWith done) (hf : f.InSsa) (hd : d.Describes f.graph)
    (hfind : (f.graph.loops d).innermostFirst.find? (fun l : Loop => decide (l.header ∉ done))
      = some loop) (hmoves : f.Moves loop (f.invariantSites d loop) made f') :
    f'.DoneWith (loop.header :: done) := by
  obtain ⟨hloop, hdone⟩ := Edit.mem_loops_of_find hfind
  have hheader := Graph.isHeader_of_mem_loops hd hloop
  have hold : ∀ {x}, f'.graph.IsHeader x → f.graph.IsHeader x :=
    fun hx => hmoves.isHeader hf hd hloop hx
  refine ⟨List.forall_mem_cons.2 ⟨fun _ => hmoves.exhausted_self hf hd hloop, fun x hx hxh => ?_⟩,
    List.forall_mem_cons.2 ⟨fun hxh y hy hin => ?_, fun x hx hxh y hy hin => ?_⟩⟩
  · refine hmoves.exhausted hf hd hloop hxh (fun hin => ?_) (h.exhausted x hx (hold hxh))
    exact hdone (h.inner x hx (hold hxh) _ hheader hin)
  · by_cases heq : y = loop.header
    · exact heq ▸ List.mem_cons_self
    · exact List.mem_cons_of_mem _
        (Graph.mem_done_of_find hd hfind (hold hy) (hmoves.of_inLoop hf hd hloop hxh hy hin) heq)
  · exact .tail _ (h.inner x hx (hold hxh) y (hold hy) (hmoves.of_inLoop hf hd hloop hxh hy hin))

end Func.DoneWith

/-- The pass leaves every loop exhausted. -/
theorem Hoists.exhausted {f : Func} {done : List Label} (h : Hoists done f f') (hf : f.InSsa)
    (hentry : ¬ f.EntryIsTarget) (hdone : f.DoneWith done) :
    ∀ x, f'.graph.IsHeader x → f'.Exhausted x [] := by
  induction h with
  | stop hall => exact fun x hx => hdone.exhausted x (hall x hx) hx
  | skip hd hfind hnone _ ih => exact ih hf hentry (hdone.skip hd hfind hnone)
  | move hd hfind hmoves _ ih =>
    have hfirst := hmoves.improves hf hentry
    exact ih hfirst.inSsa hfirst.entry (hdone.move hf hd hfind hmoves)

namespace Edit

open Func

variable {f : Func}

theorem hoistLoops_of_exhausted {d : Dominators} (hd : d.Describes f.graph)
    (hex : ∀ x, f.graph.IsHeader x → f.Exhausted x []) (fuel : Nat) (done : List Label) :
    (hoistLoops fuel d (f.graph.loops d) done).Yields f ([], []) f := by
  induction fuel generalizing done with
  | zero => exact yields_pure _ f
  | succ fuel ih =>
    simp only [hoistLoops]
    cases hfind : (f.graph.loops d).innermostFirst.find? (fun l : Loop =>
      decide (l.header ∉ done)) with
    | none => exact yields_pure _ f
    | some loop =>
      obtain ⟨hloop, _⟩ := mem_loops_of_find hfind
      have hnone := (hex _ (Graph.isHeader_of_mem_loops hd hloop)).invariantSites_eq_nil hd hloop
      refine (yields_get f).bind ?_
      rw [hnone]
      exact ih (loop.header :: done)

/-- Where all loops are exhausted, the pass changes nothing and says so. -/
theorem hoist_of_exhausted (hf : f.IsSsa) (hex : ∀ x, f.graph.IsHeader x → f.Exhausted x []) :
    ∃ r, hoist.Yields f r f ∧ r.changed = false := by
  obtain ⟨d, hd, hdesc⟩ := hf.wf.dominators
  refine ⟨⟨f.name, (f.graph.loops d).loops.length, [], []⟩, (yields_get f).bind ?_, rfl⟩
  rw [hf.ssa]
  exact (yields_dominators hd).bind ((yields_loops d f).bind
    ((hoistLoops_of_exhausted hdesc hex _ []).bind (yields_pure _ f)))

end Edit

end ThreeAddress

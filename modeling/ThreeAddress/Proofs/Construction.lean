import ThreeAddress.Proofs.PhiPlacement
import ThreeAddress.Proofs.RenamingWalk

/-!
# The function that SSA construction builds

`Func.built` is what the placement of phis and the walk over the dominator tree make of a prepared
function. On each edge, a name either has a phi at the target or stands for one definition at both
ends (`Building.edge`). From this follow SSA form (`Building.ssaForm`), that the function runs as
before (`Building.lockstep`), and that an operand is undefined only on an edge that no loop through
the phi takes (`Building.undefined_acyclic`).
-/

namespace ThreeAddress

variable {x : String} {ends : Label → Reaching} {preds : List Label}

/-! ## Renaming blank phis -/

theorem nextVersion_insert_ne {versions : Table String Int} {y : String} (h : x ≠ y) (n : Int) :
    nextVersion (versions.insert y n) x = nextVersion versions x := by
  rw [nextVersion, nextVersion, Table.getD_insert, if_neg h]

/-- A phi for a name, with the operands that reach it from its predecessors. -/
def builtPhi (ends : Label → Reaching) (versions : Table String Int) (preds : List Label)
    (x : String) : Phi :=
  ⟨⟨x, some (nextVersion versions x)⟩, preds.map fun p => ⟨p, (ends p).resolve (.var ⟨x, none⟩)⟩⟩

/-- A phi for a name, before its operands are set. -/
def versionedPhi (versions : Table String Int) (preds : List Label) (x : String) : Phi :=
  { Func.blankPhi x preds with dest := ⟨x, some (nextVersion versions x)⟩ }

/-- Each blank phi gets the next version of its name. -/
theorem renameInstrs_blankPhis {names : List String} (nodup : names.Nodup) (preds : List Label)
    (versions : Table String Int) (defs : Reaching) :
    let r := renameInstrs .sentinel (names.map fun x => .phi (Func.blankPhi x preds)) versions defs
    r.instrs = (names.map (versionedPhi versions preds)).map .phi ∧
      ∀ x, r.defs.get? x = if x ∈ names then some ⟨x,
        some (nextVersion versions x)⟩ else defs.get? x := by
  induction names generalizing versions defs with
  | nil => exact ⟨rfl, fun x => rfl⟩
  | cons y names ih =>
    obtain ⟨hy, nodup⟩ := List.nodup_cons.1 nodup
    have hne : ∀ x ∈ names, x ≠ y := fun x hx e => hy (e ▸ hx)
    obtain ⟨hinstrs, hdefs⟩ := ih nodup (versions.insert y (nextVersion versions y))
      (defs.push y ⟨y, some (nextVersion versions y)⟩)
    refine ⟨?_, fun x => ?_⟩
    · rw [List.map_cons, List.map_cons]
      show _ :: _ = _ :: _
      congr 1
      refine hinstrs.trans (congrArg _ (List.map_congr_left fun x hx => ?_))
      rw [versionedPhi, versionedPhi, nextVersion_insert_ne (hne x hx)]
    · refine (hdefs x).trans ?_
      by_cases hx : x ∈ names
      · rw [if_pos hx, if_pos (.tail _ hx), nextVersion_insert_ne (hne x hx)]
      · rw [if_neg hx, Reaching.get?_push]
        by_cases hxy : x = y
        · rw [if_pos hxy, hxy, if_pos (.head _)]
        · rw [if_neg hxy, if_neg fun h => (List.mem_cons.1 h).elim hxy hx]

theorem fill_versionedPhi {done : List Label} (h : ∀ p ∈ preds, p ∈ done)
    (versions : Table String Int) (x : String) :
    (versionedPhi versions preds x).fill ends done = builtPhi ends versions preds x := by
  simp only [Phi.fill, versionedPhi, builtPhi, Func.blankPhi, List.map_map, Phi.mk.injEq, true_and]
  apply List.map_congr_left
  intro p hp
  simp [h p hp, Reaching.operandFor]

/-! ## The function -/

namespace Func

variable {l : Label} {b : Block} {i : Instr} {v : Var} {f : Func}

/-- The function with blank phis. -/
def phied (f : Func) (names : Label → List String) : Func :=
    f.rewrite fun l b => withPhis (names l) b

/-- What renaming makes of the phis of a block. -/
def renamedPhis (names : Label → List String) (starts : Label →
    RenamePoint) (l : Label) (preds : List Label) :
    Renamed :=
  renameInstrs .sentinel ((names l).map fun x => .phi (blankPhi x preds)) (starts l).versions
    (starts l).defs

/-- What renaming makes of the instructions of a block, after its phis. -/
def renamedBody (names : Label → List String) (starts : Label →
    RenamePoint) (l : Label) (b : Block) : Renamed :=
  renameInstrs .sentinel b.instrs (renamedPhis names starts l b.preds).versions
    (renamedPhis names starts l b.preds).defs

/-- The function in SSA form. -/
def built (f : Func) (names : Label → List String) (starts : Label →
    RenamePoint) (done : List Label)
    (versions : Table String Int) : Func :=
  { (f.phied names).renamedOn starts done versions with ssa := true }

/-- No name in the code has a version. -/
def Plain (f : Func) : Prop :=
  ∀ n ∈ f.nodes, (∀ v, n.dest? = some v → v.version = none) ∧
    ∀ v, .var v ∈ n.uses → v.version = none

instance (f : Func) : Decidable f.Plain :=
  decidable_of_iff (∀ n ∈ f.nodes, (∀ v ∈ n.dest?.toList, v.version = none) ∧
      ∀ x ∈ n.uses, ∀ v ∈ x.var?.toList, v.version = none) <| by
    refine forall_congr' fun n => imp_congr_right fun _ => and_congr ?_ ?_
    · simp only [Option.mem_toList]
    · constructor
      · exact fun h v hv => h (.var v) hv v (List.mem_singleton.2 rfl)
      · intro h x hx v hv
        cases x with
        | var w =>
          rw [List.mem_singleton.1 hv]
          exact h w hx
        | const n => cases hv
        | undefined => cases hv

theorem Plain.dest (h : f.Plain) (hb : f.block? l = some b) (hi : i ∈ b.instrs)
    (hv : i.dest? = some v) : v.version = none :=
  (h _ (mem_nodes_instr.2 ⟨l, b, hb, hi⟩)).1 v hv

theorem Plain.use (h : f.Plain) (hb : f.block? l = some b) (hi : i ∈ b.instrs)
    (hv : .var v ∈ i.uses) : v.version = none :=
  (h _ (mem_nodes_instr.2 ⟨l, b, hb, hi⟩)).2 v hv

theorem Plain.termUse (h : f.Plain) {t : Terminator} (hb : f.block? l = some b)
    (ht : b.term = some t) (hv : .var v ∈ t.uses) : v.version = none :=
  (h _ (mem_nodes_term hb ht)).2 v hv

/-- A function without phis whose blocks can all be reached and whose entry is no target, with what
the walk over its dominator tree found. -/
structure Building (f : Func) (d : Dominators) (names : Label → List String) (starts : Label →
    RenamePoint)
    (versions : Table String Int) : Prop where
  wf : f.WellFormed
  phiFree : f.PhiFree
  plain : f.Plain
  params_nodup : f.params.Nodup
  reachable : ∀ l ∈ f.blocks, f.graph.Reachable l
  entry_first : ∀ l, f.entry ∉ f.graph.next l
  describes : d.Describes f.graph
  placed : PhisPlaced f d names
  walked : Walked (f.phied names) d (.ofParams f.params) starts d.preorder versions

namespace Building

variable {d : Dominators} {names : Label → List String} {starts : Label → RenamePoint}
  {versions counters : Table String Int} {defs : Reaching} {a p s : Label} {pre rest : List Instr}
  {env env' : Env} {c : Block}

/-- The function in SSA form. -/
abbrev result (_ : Building f d names starts versions) : Func :=
    f.built names starts d.preorder versions

theorem mem_preorder (h : Building f d names starts versions) : l ∈ d.preorder ↔ l ∈ f.blocks := by
  rw [(Graph.preorder_spec h.describes).2.1]
  exact ⟨fun hl => mem_graph.1 (h.wf.graph_closed l hl), h.reachable l⟩

theorem block?_phied (hb : f.block? l = some b) :
    (f.phied names).block? l = some (withPhis (names l) b) :=
  block?_rewrite_of_some _ hb

theorem renamedAt_eq (names : Label → List String) (starts : Label → RenamePoint)
    (hb : f.block? l = some b) :
    (f.phied names).renamedAt starts l
      = ⟨(renamedPhis names starts l b.preds).instrs ++ (renamedBody names starts l b).instrs,
        (renamedBody names starts l b).versions, (renamedBody names starts l b).defs,
        (renamedPhis names starts l b.preds).missing ++ (renamedBody names starts l b).missing,
        (renamedBody names starts l b).refused⟩ := by
  rw [renamedAt, instrsAt_of_block (block?_phied hb)]
  exact renameInstrs_append _ _ _ _

theorem endDefs_eq (names : Label → List String) (starts : Label → RenamePoint)
    (hb : f.block? l = some b) :
    (f.phied names).endDefs starts l = (renamedBody names starts l b).defs := by
  rw [endDefs, renamedAt_eq names starts hb]

/-- A block of the function in SSA form. -/
def builtBlock (f : Func) (names : Label → List String) (starts : Label →
    RenamePoint) (l : Label) (b : Block) : Block :=
  { b with
    instrs := ((names l).map
      (builtPhi ((f.phied names).endDefs starts) (starts l).versions b.preds)).map .phi
      ++ (renamedBody names starts l b).instrs
    term := b.term.map (·.mapUses ((f.phied names).endDefs starts l).resolve) }

section

variable (h : Building f d names starts versions)
include h

theorem isPhi_renamedBody (hb : f.block? l = some b) :
    ∀ i ∈ (renamedBody names starts l b).instrs, i.isPhi = false :=
  isPhi_renameInstrs (h.phiFree l b hb) _ _

theorem block?_built (hb : f.block? l = some b) :
    h.result.block? l = some (builtBlock f names starts l b) := by
  have hl : l ∈ d.preorder := h.mem_preorder.2 (mem_blocks hb)
  have hpreds : ∀ p ∈ b.preds, p ∈ d.preorder := by
    intro p hp
    obtain ⟨c, hc, _⟩ := block_of_mem_next ((h.wf.mem_preds hb).1 hp)
    exact h.mem_preorder.2 (mem_blocks hc)
  have hat := renamedAt_eq names starts hb
  obtain ⟨hphis, _⟩ := renameInstrs_blankPhis (h.placed.nodup l) b.preds (starts l).versions
    (starts l).defs
  have hfill : ((names l).map (versionedPhi (starts l).versions b.preds)).map
      (Phi.fill ((f.phied names).endDefs starts) d.preorder)
        = (names l).map (builtPhi ((f.phied names).endDefs starts)
          (starts l).versions b.preds) := by
    rw [List.map_map]
    exact List.map_congr_left fun x _ => fill_versionedPhi hpreds (starts l).versions x
  have hinstrs : mapLeadingPhis (Phi.fill ((f.phied names).endDefs starts) d.preorder)
      ((f.phied names).renamedAt starts l).instrs = (builtBlock f names starts l b).instrs := by
    rw [hat]
    show mapLeadingPhis _ ((renameInstrs _ _ _ _).instrs ++ _) = _
    rw [hphis, mapLeadingPhis_append _ (h.isPhi_renamedBody hb), hfill]
    rfl
  show ((f.phied names).renamedOn starts d.preorder versions).block? l = _
  rw [block?_renamedOn (block?_phied hb), renamedBlock_of_mem hl, hinstrs]
  rfl

/-! ## What names stand for -/

theorem get?_renamedPhis (l : Label) (preds : List Label) (x : String) :
    (renamedPhis names starts l preds).defs.get? x
      = if x ∈ names l then some ⟨x,
        some (nextVersion (starts l).versions x)⟩ else (starts l).defs.get? x :=
  (renameInstrs_blankPhis (h.placed.nodup l) preds _ _).2 x

theorem defs_same (hl : f.graph.Reachable l) :
    (starts l).defs.Same ((f.phied names).defsAfter (.ofParams f.params) starts (d.idom? l)) :=
  h.walked.defs_same l (h.mem_preorder.2 (mem_graph.1 (h.wf.graph_closed l hl)))

theorem defs_entry : (starts f.entry).defs.Same (.ofParams f.params) := by
  have := h.defs_same Graph.reachable_entry
  rwa [Graph.idom?_entry h.describes] at this

theorem defs_of_idom (hl : f.graph.Reachable l) (ha : d.idom? l = some a) :
    (starts l).defs.Same ((f.phied names).endDefs starts a) := by
  have := h.defs_same hl
  rwa [ha] at this

theorem get?_entry (x : String) :
    (starts f.entry).defs.get? x = if x ∈ f.params then some ⟨x, some 0⟩ else none :=
  (h.defs_entry.get? x).trans (Reaching.get?_ofParams h.params_nodup x)

/-- What is on top of the stacks where the walk enters a block is what reaches the end of its
immediate dominator. -/
theorem get?_of_idom (hl : f.graph.Reachable l) (ha : d.idom? l = some a) (x : String) :
    (starts l).defs.get? x = ((f.phied names).endDefs starts a).get? x :=
  (h.defs_of_idom hl ha).get? x

theorem namesKept (hl : f.graph.Reachable l) : (starts l).defs.NamesKept := by
  refine hl.alongTree (P := fun l => (starts l).defs.NamesKept) h.describes (fun x v hv => ?_)
    fun b a hb ha ih x v hv => ?_
  · have hv : (starts f.entry).defs.get? x = some v := hv
    rw [h.get?_entry] at hv
    split at hv
    · cases hv
      rfl
    · cases hv
  · rw [h.get?_of_idom hb ha] at hv
    exact (renames _ _ _).namesKept ih x v hv

theorem namesKept_endDefs (hl : f.graph.Reachable l) :
    ((f.phied names).endDefs starts l).NamesKept :=
  (renames _ _ _).namesKept (h.namesKept hl)

end

theorem endDefs_of_not_assigned (hassign : ¬ f.Assigns l x) (hphi : x ∉ names l) :
    ((f.phied names).endDefs starts l).get? x = (starts l).defs.get? x := by
  refine (renames _ _ _).unassigned x fun v hv e => ?_
  cases hb : f.block? l with
  | none =>
    rw [instrsAt, phied, block?_rewrite, hb] at hv
    cases hv
  | some b =>
    rw [instrsAt_of_block (block?_phied hb)] at hv
    obtain ⟨i, hi, hdest⟩ := mem_destsOf.1 hv
    rcases List.mem_append.1 hi with hi | hi
    · obtain ⟨y, hy, rfl⟩ := List.mem_map.1 hi
      cases hdest
      exact hphi (e ▸ hy)
    · refine hassign (.inl ?_)
      rw [assignedIn, hb]
      exact List.mem_filterMap.2 ⟨i, hi, by rw [hdest, ← e]; rfl⟩

section

variable (h : Building f d names starts versions)
include h

/-- On an edge to a block without phi for a name, the name stands for what it stood for. -/
theorem edge (hl : f.graph.Reachable l) (hs : s ∈ f.graph.next l) (hx : x ∉ names s) :
    (starts s).defs.get? x = ((f.phied names).endDefs starts l).get? x := by
  have hne : s ≠ f.graph.entry := by
    rintro rfl
    exact h.entry_first l hs
  obtain ⟨a, ha, hclosest⟩ := Graph.exists_idom? h.describes (hl.step hs) hne
  rw [h.get?_of_idom (hl.step hs) ha]
  refine (Graph.eq_of_chain h.describes (fun c => ((f.phied names).endDefs starts c).get? x) hl
    (Graph.dominates_of_edge hclosest.1.2 hclosest.1.1 hs) fun c hc e he => ?_).symm
  have hreach : f.graph.Reachable c := (Graph.climb_dominates h.describes hl c hc).reachable hl
  rw [← ha] at hc
  have hnot : ¬ (f.Assigns c x ∨ x ∈ names c) := fun hc' => hx (h.placed.merge hl hs hc hc')
  rw [← h.get?_of_idom hreach he]
  exact endDefs_of_not_assigned (fun hc' => hnot (.inl hc')) fun hc' => hnot (.inr hc')

theorem isSome_of_phi (hb : f.block? l = some b) (hx : x ∈ names l) :
    (((f.phied names).endDefs starts l).get? x).isSome := by
  rw [endDefs_eq names starts hb]
  refine (renames _ _ _).isSome ?_
  rw [h.get?_renamedPhis, if_pos hx]
  rfl

/-- A name that has a definition keeps one on every edge. -/
theorem isSome_of_edge (hl : f.graph.Reachable l) (hs : s ∈ f.graph.next l)
    (hx : (((f.phied names).endDefs starts l).get? x).isSome) :
    (((f.phied names).endDefs starts s).get? x).isSome := by
  by_cases hmem : x ∈ names s
  · obtain ⟨b, hb⟩ := h.wf.block_of_reachable (hl.step hs)
    exact h.isSome_of_phi hb hmem
  · refine (renames _ _ _).isSome ?_
    rw [h.edge hl hs hmem]
    exact hx

theorem isSome_of_leads (hb : f.block? l = some b) (hx : x ∈ names l) (hpath : f.graph.Leads l p) :
    (((f.phied names).endDefs starts p).get? x).isSome := by
  suffices f.graph.Reachable p ∧ (((f.phied names).endDefs starts p).get? x).isSome from this.2
  induction hpath with
  | refl => exact ⟨h.reachable l (mem_blocks hb), h.isSome_of_phi hb hx⟩
  | tail _ hstep ih => exact ⟨ih.1.step hstep, h.isSome_of_edge ih.1 hstep ih.2⟩

/-! ## The blocks of the function -/

theorem builtBlock_spec (hb : f.block? l = some b) :
    (builtBlock f names starts l b).phis
        = (names l).map (builtPhi ((f.phied names).endDefs starts) (starts l).versions b.preds) ∧
      (builtBlock f names starts l b).body = (renamedBody names starts l b).instrs ∧
      (builtBlock f names starts l b).Tidy := by
  refine Block.tidy_of_eq rfl (h.isPhi_renamedBody hb) fun φ hφ => ?_
  obtain ⟨x, _, rfl⟩ := List.mem_map.1 hφ
  show (b.preds.map _).map _ = b.preds
  rw [List.map_map]
  exact List.map_id _

theorem built_eq :
    h.result
      = { f.rewrite (builtBlock f names starts) with versions := versions, ssa := true } := by
  refine eq_of_blocks rfl ?_ fun l => ?_
  · exact (Table.keys_mapValues _ _).trans
      ((Table.keys_mapValues _ _).trans (Table.keys_mapValues _ _).symm)
  · show _ = (f.rewrite _).block? l
    rw [block?_rewrite]
    cases hb : f.block? l with
    | none =>
      show ((f.rewrite _).rewrite _).block? l = _
      rw [block?_rewrite, block?_rewrite, hb]
      rfl
    | some b => exact h.block?_built hb

end

theorem successors_builtBlock (l : Label) (b : Block) :
    (builtBlock f names starts l b).successors = b.successors := by
  unfold Block.successors builtBlock
  cases b.term with
  | none => rfl
  | some t => cases t <;> rfl

section

variable (h : Building f d names starts versions)
include h

theorem graph_built : h.result.graph = f.graph := by
  rw [h.built_eq]
  show (f.rewrite (builtBlock f names starts)).graph = f.graph
  exact graph_rewrite fun l b _ => successors_builtBlock l b

theorem wf_built : h.result.WellFormed := by
  have hwf : (f.rewrite (builtBlock f names starts)).WellFormed := by
    refine h.wf.rewrite fun l b hb => ⟨rfl, rfl, successors_builtBlock l b, fun ht => ?_,
      fun _ => ?_⟩
    · show b.term.map _ ≠ none
      simpa using ht
    · exact (h.builtBlock_spec hb).2.2
  rw [h.built_eq]
  exact hwf.congr rfl rfl

theorem of_block?_built {b' : Block} (hb' : h.result.block? l = some b') :
    ∃ b, f.block? l = some b ∧ b' = builtBlock f names starts l b := by
  rw [h.built_eq] at hb'
  exact of_block?_rewrite hb'

/-- An operand is undefined only on an edge that no loop through the phi takes. -/
theorem undefined_acyclic : h.result.UndefinedAcyclic := by
  intro l b' φ a _ hb' hφ ha hvalue hpath
  obtain ⟨b, hb, rfl⟩ := h.of_block?_built hb'
  rw [(h.builtBlock_spec hb).1] at hφ
  obtain ⟨x, hx, rfl⟩ := List.mem_map.1 hφ
  obtain ⟨p, hp, rfl⟩ := List.mem_map.1 ha
  rw [h.graph_built] at hpath
  obtain ⟨v, hv⟩ := Option.isSome_iff_exists.1 (h.isSome_of_leads hb hx hpath)
  rw [Reaching.resolve_var, hv] at hvalue
  cases hvalue

theorem entry_phiFree : h.result.EntryPhiFree := by
  intro b' hb'
  obtain ⟨b, hb, rfl⟩ := h.of_block?_built hb'
  have hnames : names f.entry = [] := by
    rw [List.eq_nil_iff_forall_not_mem]
    intro x hx
    obtain ⟨p, hp⟩ := h.placed.joins f.entry x hx
    exact h.entry_first p hp
  rw [(h.builtBlock_spec hb).1]
  show List.map _ (names f.entry) = []
  rw [hnames, List.map_nil]

end

/-! ## SSA form -/

/-- An instruction that is no phi stands after the phis. -/
theorem append_eq_of_not_phi {φs : List Phi} {post : List Instr}
    (heq : φs.map Instr.phi ++ rest = pre ++ i :: post) (hi : i.isPhi = false) :
    ∃ pre', pre = φs.map Instr.phi ++ pre' ∧ rest = pre' ++ i :: post := by
  induction φs generalizing pre with
  | nil => exact ⟨pre, rfl, heq⟩
  | cons φ φs ih =>
    cases pre with
    | nil =>
      injection heq with hφ _
      rw [← hφ] at hi
      cases hi
    | cons j pre =>
      injection heq with hj heq
      obtain ⟨pre', rfl, hrest⟩ := ih heq
      exact ⟨pre', by rw [← hj]; rfl, hrest⟩

section

variable (h : Building f d names starts versions)
include h

/-- The definitions of a block. -/
theorem destsOf_builtBlock (hb : f.block? l = some b) :
    destsOf (builtBlock f names starts l b).instrs
      = destsOf ((f.phied names).renamedAt starts l).instrs := by
  have hat := renamedAt_eq names starts hb
  obtain ⟨hphis, _⟩ := renameInstrs_blankPhis (h.placed.nodup l) b.preds (starts l).versions
    (starts l).defs
  rw [hat]
  show destsOf (_ ++ _) = destsOf ((renameInstrs _ _ _ _).instrs ++ _)
  rw [hphis, destsOf_append, destsOf_append]
  congr 1
  simp only [destsOf, List.filterMap_map, Function.comp_def]
  rfl

theorem defines_built :
    h.result.Defines l v ↔
      l ∈ f.blocks ∧ v ∈ destsOf ((f.phied names).renamedAt starts l).instrs := by
  constructor
  · rintro ⟨b', hb', hv⟩
    obtain ⟨b, hb, rfl⟩ := h.of_block?_built hb'
    exact ⟨mem_blocks hb, h.destsOf_builtBlock hb ▸ hv⟩
  · rintro ⟨hl, hv⟩
    obtain ⟨b, hb⟩ := exists_block.1 hl
    exact ⟨_, h.block?_built hb, h.destsOf_builtBlock hb ▸ hv⟩

theorem version_of_defines (hv : h.result.Defines l v) :
    ∃ n, v.version = some n ∧ (starts l).versions.getD v.name 0 < n ∧
      n ≤ ((f.phied names).renamedAt starts l).versions.getD v.name 0 :=
  (renames _ _ _).fresh v (h.defines_built.1 hv).2

/-- Blocks define different values. -/
theorem dests_apart {l' : Label} (hl : l ∈ d.preorder) (hl' : l' ∈ d.preorder) (hne : l ≠ l')
    (v : Var) (hv : v ∈ destsOf ((f.phied names).renamedAt starts l).instrs) :
    v ∉ destsOf ((f.phied names).renamedAt starts l').instrs := by
  have hpair : d.preorder.Pairwise fun a b => ∀ v,
      v ∈ destsOf ((f.phied names).renamedAt starts a).instrs →
      v ∉ destsOf ((f.phied names).renamedAt starts b).instrs := by
    refine h.walked.inOrder.imp fun {a b} hab v hva hvb => ?_
    obtain ⟨n, hn, _, hhigh⟩ := (renames _ _ _).fresh v hva
    obtain ⟨m, hm, hlow, _⟩ := (renames _ _ _).fresh v hvb
    cases hn.symm.trans hm
    exact absurd (Int.le_trans hhigh (hab v.name)) (Int.not_le.2 hlow)
  have hsymm : Std.Symm fun a b => ∀ v, v ∈ destsOf ((f.phied names).renamedAt starts a).instrs →
      v ∉ destsOf ((f.phied names).renamedAt starts b).instrs := ⟨fun _ _ h v hb ha => h v ha hb⟩
  exact hpair.forall hl hl' hne v hv

theorem definedOnce : h.result.DefinedOnce where
  params_nodup := h.params_nodup
  versioned {l v} _ hv := by
    obtain ⟨n, hn, _⟩ := h.version_of_defines hv
    rw [hn]
    exact Option.some_ne_none n
  not_param {l v} _ hv hparam := by
    obtain ⟨n, hn, hlow, _⟩ := h.version_of_defines hv
    obtain ⟨p, _, rfl⟩ := List.mem_map.1 hparam
    cases hn
    have := h.walked.nonneg l (h.mem_preorder.2 (h.defines_built.1 hv).1) p
    exact absurd hlow (Int.not_lt.2 this)
  nodup {l b'} _ hb' := by
    obtain ⟨b, hb, rfl⟩ := h.of_block?_built hb'
    rw [h.destsOf_builtBlock hb]
    exact (renames _ _ _).nodup
  apart {l l' v} _ _ hv hv' := by
    by_contra hne
    obtain ⟨hl, hv⟩ := h.defines_built.1 hv
    obtain ⟨hl', hv'⟩ := h.defines_built.1 hv'
    exact h.dests_apart (h.mem_preorder.2 hl) (h.mem_preorder.2 hl') hne v hv hv'

theorem availOut_of_availIn (hl : f.graph.Reachable l)
    (hin : (starts l).defs.Only (h.result.AvailIn l)) :
    ((f.phied names).endDefs starts l).Only (h.result.AvailOut l) :=
  (renames _ _ _).only (hin.imp fun _ => .inl) fun _ hv =>
    .inr (h.defines_built.2 ⟨mem_graph.1 (h.wf.graph_closed l hl), hv⟩)

/-- What is on the stacks is available. -/
theorem availIn (hl : f.graph.Reachable l) : (starts l).defs.Only (h.result.AvailIn l) := by
  refine hl.alongTree
    (P := fun l => (starts l).defs.Only (h.result.AvailIn l)) h.describes ?_
    fun b a hb ha ih => ?_
  · exact h.defs_entry.only (Reaching.only_ofParams fun p hp => .inl (List.mem_map_of_mem hp))
  · have hclosest := ((h.describes.idom?_eq b a).1 ha).2
    have hout := h.availOut_of_availIn (hclosest.1.2.reachable hb) ih
    refine (h.defs_of_idom hb ha).only (hout.imp fun v hv => hv.of_strictlyDominates ?_ ?_)
    · rw [h.graph_built]
      exact hb
    · rw [h.graph_built]
      exact hclosest.1

theorem availOut (hl : f.graph.Reachable l)
    (hx : ((f.phied names).endDefs starts l).get? x = some v) : h.result.AvailOut l v :=
  (h.availOut_of_availIn hl (h.availIn hl)).get? hx

/-- The function is in SSA form. -/
theorem ssaForm : h.result.SsaForm where
  toDefinedOnce := h.definedOnce
  use {l b' pre i post v} hl hb' heq hi hv := by
    rw [h.graph_built] at hl
    obtain ⟨b, hb, rfl⟩ := h.of_block?_built hb'
    obtain ⟨pre', rfl, hbody⟩ := append_eq_of_not_phi heq hi
    rw [destsOf_append, List.mem_append]
    rcases get?_of_use hbody hi hv with ⟨x, hx⟩ | hv
    · have hx := (h.get?_renamedPhis l b.preds x).symm.trans hx
      split at hx
      · cases hx
        refine .inr (.inl (mem_destsOf.2 ⟨_, List.mem_map_of_mem (List.mem_map_of_mem ‹_›), rfl⟩))
      · exact .inl ((h.availIn hl).get? hx)
    · exact .inr (.inr hv)
  termUse {l b' t v} hl hb' ht hv := by
    rw [h.graph_built] at hl
    obtain ⟨b, hb, rfl⟩ := h.of_block?_built hb'
    obtain ⟨t', _, rfl⟩ := Option.map_eq_some_iff.1 ht
    rw [Terminator.uses_mapUses] at hv
    obtain ⟨y, _, hy⟩ := List.mem_map.1 hv
    obtain ⟨x, hx⟩ := Reaching.get?_of_resolve hy
    exact h.availOut hl hx
  phiUse {l b' φ a v} hl hb' hφ ha hp hv := by
    rw [h.graph_built] at hl hp
    obtain ⟨b, hb, rfl⟩ := h.of_block?_built hb'
    rw [(h.builtBlock_spec hb).1] at hφ
    obtain ⟨x, hx, rfl⟩ := List.mem_map.1 hφ
    obtain ⟨p, _, rfl⟩ := List.mem_map.1 ha
    obtain ⟨y, hy⟩ := Reaching.get?_of_resolve hv
    exact h.availOut hp hy

end

/-! ## The function runs as before -/

/-- What the names stand for holds what the names hold. -/
def Holds (defs : Reaching) (env env' : Env) : Prop :=
  ∀ x, env.getD ⟨x, none⟩ 0 = env'.value (defs.resolve (.var ⟨x, none⟩))

theorem Holds.value (h : Holds defs env env') {x : Operand}
    (hx : ∀ v, x = .var v → v.version = none) : env'.value (defs.resolve x) = env.value x := by
  cases x with
  | var v =>
    obtain ⟨name, version⟩ := v
    cases hx _ rfl
    exact (h name).symm
  | const n => rfl
  | undefined => rfl

/-- A definition and its renamed counterpart are assigned the same value. -/
theorem Holds.push (h : Holds defs env env') (hkept : defs.NamesKept) (v : Var) (n : Int) :
    Holds (defs.push v.name v) (env.insert ⟨v.name, none⟩ n) (env'.insert v n) := by
  intro x
  rw [Reaching.resolve_var, Reaching.get?_push]
  by_cases hx : x = v.name
  · rw [if_pos hx, hx]
    exact (Env.getD_insert_self _ _ _).trans (Env.getD_insert_self _ _ _).symm
  · have hne : (⟨x, none⟩ : Var) ≠ ⟨v.name, none⟩ := fun e => hx (congrArg Var.name e)
    rw [if_neg hx, Env.getD_insert_ne _ _ hne, h x, Reaching.resolve_var]
    cases hget : defs.get? x with
    | none => rfl
    | some w =>
      have hw : w ≠ v := by
        rintro rfl
        exact hx (hkept x w hget).symm
      exact (Env.getD_insert_ne _ _ hw).symm

/-- What relates activations: they are at the same place, and what the names stand for there holds
what they hold. -/
inductive SameNames (f : Func) (d : Dominators) (names : Label → List String) (starts : Label →
    RenamePoint)
    (versions : Table String Int) : Frame → Frame → Prop
  | mk {l : Label} {b : Block} {pre rest : List Instr} {counters : Table String Int}
    {defs : Reaching} {env env' : Env} :
    f.graph.Reachable l → f.block? l = some b → b.instrs = pre ++ rest →
    (renameInstrs .sentinel rest counters defs).defs = (f.phied names).endDefs starts l →
    defs.NamesKept →
    Holds defs env env' →
    SameNames f d names starts versions ⟨f, l, rest, b.term, env⟩
      ⟨f.built names starts d.preorder versions, l,
        (renameInstrs .sentinel rest counters defs).instrs,
        b.term.map (·.mapUses ((f.phied names).endDefs starts l).resolve), env'⟩

/-- An instruction and its renamed counterpart. -/
theorem sameNames_instr (h : Building f d names starts versions) (w : World)
    (hl : f.graph.Reachable l) (hb : f.block? l = some b) (hpre : b.instrs = pre ++ i :: rest)
    (hdefs : (renameInstrs .sentinel (i :: rest) counters defs).defs
      = (f.phied names).endDefs starts l) (hkept : defs.NamesKept) (hholds : Holds defs env env') :
    Agree (SameNames f d names starts versions) (Frame.act ⟨f, l, i :: rest, b.term, env⟩ w)
      (Frame.act ⟨f.built names starts d.preorder versions, l,
        (renameInstrs .sentinel (i :: rest) counters defs).instrs,
        b.term.map (·.mapUses ((f.phied names).endDefs starts l).resolve), env'⟩ w) := by
  have hmem : i ∈ b.instrs := hpre ▸ List.mem_append_right pre (.head _)
  have hi : i.isPhi = false := h.phiFree l b hb i hmem
  have huses : renameUses defs i = i.mapUses defs.resolve := if_neg (by simp [hi])
  have hpre' : b.instrs = (pre ++ [i]) ++ rest := by rw [hpre, List.append_cons]
  have heffect : (i.mapUses defs.resolve).effect env'.value w = i.effect env.value w := by
    rw [Instr.effect_mapUses i hi]
    exact Instr.effect_congr hi w fun x hx => hholds.value fun v hv => h.plain.use hb hmem (hv ▸ hx)
  rw [renameInstrs_cons, huses] at hdefs ⊢
  cases hd : i.dest? with
  | none =>
    rw [renameDest_of_none ((i.dest?_mapUses _).trans hd)] at hdefs ⊢
    have hd' : (i.mapUses defs.resolve).dest? = none := (i.dest?_mapUses _).trans hd
    refine agree_instr rfl hi ?_ (by rw [hd, hd']) fun n => ?_
    · rw [hd']
      exact heffect
    · rw [hd, hd']
      exact .mk hl hb hpre' hdefs hkept hholds
  | some v =>
    have hd' : (i.mapUses defs.resolve).dest? = some v := (i.dest?_mapUses _).trans hd
    rw [renameDest_of_some hd'] at hdefs ⊢
    obtain ⟨x, version⟩ := v
    cases h.plain.dest hb hmem hd
    generalize nextVersion counters x = k at hdefs ⊢
    have hdest : ((i.mapUses defs.resolve).setDest ⟨x, some k⟩).dest? = some ⟨x, some k⟩ :=
      Instr.dest?_setDest _ hd'
    refine agree_instr rfl hi ?_ (by simp [hd, hdest]) fun n => ?_
    · rw [hdest, Instr.effect_setDest, heffect]
    · rw [hd, hdest]
      exact .mk hl hb hpre' hdefs (hkept.push ⟨x, some k⟩) (hholds.push hkept ⟨x, some k⟩ n)

theorem operand_builtPhi (hp : p ∈ preds) (x : String) :
    (builtPhi ends counters preds x).operand p = (ends p).resolve (.var ⟨x, none⟩) := by
  have hlabels : p ∈ (builtPhi ends counters preds x).labels :=
    List.mem_map.2 ⟨_, List.mem_map_of_mem hp, rfl⟩
  have hvalue := Phi.valueFrom?_of_mem hlabels
  obtain ⟨a, ha, hval⟩ := Option.map_eq_some_iff.1 hvalue
  obtain ⟨q, _, rfl⟩ := List.mem_map.1 (List.mem_of_find?_eq_some ha)
  have hq : q = p := by simpa using List.find?_some ha
  rw [← hval, hq]

section

variable (h : Building f d names starts versions)
include h

/-- What the names hold when control enters a block. -/
theorem holds_enter (hl : f.graph.Reachable l) (hs : s ∈ f.graph.next l) (hc : f.block? s = some c)
    (hholds : Holds ((f.phied names).endDefs starts l) env env') :
    Holds (renamedPhis names starts s c.preds).defs env
      (env'.assign (phiAssignments env' l (builtBlock f names starts s c).phis)) := by
  rw [(h.builtBlock_spec hc).1]
  generalize hφs : (names s).map
    (builtPhi ((f.phied names).endDefs starts) (starts s).versions c.preds) = φs
  have hdests : φs.map (·.dest) = (names s).map fun x =>
      (⟨x, some (nextVersion (starts s).versions x)⟩ : Var) := by
    rw [← hφs, List.map_map]
    rfl
  have hnodup : (φs.map (·.dest)).Nodup := by
    rw [hdests]
    exact (h.placed.nodup s).map fun x y e => congrArg Var.name e
  intro x
  have hget := h.get?_renamedPhis s c.preds x
  rw [hholds x]
  by_cases hx : x ∈ names s
  · rw [if_pos hx] at hget
    rw [Reaching.resolve_of_get? (v := ⟨x, none⟩) hget]
    have hmem : builtPhi ((f.phied names).endDefs starts) (starts s).versions c.preds x ∈ φs :=
      hφs ▸ List.mem_map_of_mem hx
    have hvalue := getD_phiAssignments env' env' l hnodup hmem
    rw [operand_builtPhi ((h.wf.mem_preds hc).2 hs)] at hvalue
    exact hvalue.symm
  · rw [if_neg hx, h.edge hl hs hx] at hget
    cases hw : ((f.phied names).endDefs starts l).get? x with
    | none => rw [Reaching.resolve_of_none hw, Reaching.resolve_of_none (hget.trans hw)]; rfl
    | some w =>
      rw [Reaching.resolve_of_get? hw, Reaching.resolve_of_get? (hget.trans hw)]
      refine (getD_phiAssignments_of_not_mem ?_).symm
      rw [hdests]
      intro hmem
      obtain ⟨y, hy, rfl⟩ := List.mem_map.1 hmem
      exact hx (h.namesKept_endDefs hl x _ hw ▸ hy)

/-- What the names hold when an activation starts. -/
theorem holds_start (hssa : f.ssa = false) (args : List Int) :
    Holds (starts f.entry).defs (bindParams f args) (bindParams h.result args) := by
  intro x
  have hold : (⟨x, none⟩ : Var) = f.paramVar x := by rw [paramVar, hssa]; rfl
  by_cases hx : x ∈ f.params
  · obtain ⟨i, hi⟩ : ∃ i, (x, i) ∈ f.params.zipIdx := by
      obtain ⟨⟨y, i⟩, hi, rfl⟩ := List.mem_map.1 (List.zipIdx_map_fst 0 f.params ▸ hx)
      exact ⟨i, hi⟩
    have hget : (starts f.entry).defs.get? x = some ⟨x, some 0⟩ := by
      rw [h.get?_entry, if_pos hx]
    rw [Reaching.resolve_of_get? (v := ⟨x, none⟩) hget, hold,
      getD_bindParams_of_mem h.params_nodup hi]
    exact (getD_bindParams_of_mem (f := f.built names starts d.preorder versions) h.params_nodup hi
      args).symm
  · have hget : (starts f.entry).defs.get? x = none := by rw [h.get?_entry, if_neg hx]
    rw [Reaching.resolve_of_none (v := ⟨x, none⟩) hget, hold, getD_bindParams_of_not_mem]
    · rfl
    · intro hmem
      obtain ⟨y, hy, heq⟩ := List.mem_map.1 hmem
      have hxy : y = x := congrArg Var.name heq
      exact hx (hxy ▸ hy)

theorem names_entry : names f.entry = [] := by
  refine List.eq_nil_iff_forall_not_mem.2 fun x hx => ?_
  obtain ⟨p, hp⟩ := h.placed.joins f.entry x hx
  exact h.entry_first p hp

/-- Where control enters a block, its instructions are renamed by what its phis define. -/
theorem sameNames_enter (hs : f.graph.Reachable s) (hc : f.block? s = some c)
    (hholds : Holds (renamedPhis names starts s c.preds).defs env env') :
    SameNames f d names starts versions ⟨f, s, c.body, c.term, env⟩
      ⟨f.built names starts d.preorder versions, s, (builtBlock f names starts s c).body,
        (builtBlock f names starts s c).term, env'⟩ := by
  rw [(Block.of_phiFree (h.phiFree s c hc)).2.1, (h.builtBlock_spec hc).2.1]
  exact .mk hs hc (List.nil_append _).symm (endDefs_eq names starts hc).symm
    ((renames _ _ _).namesKept (h.namesKept hs)) hholds

/-- The function runs as before, step for step. -/
theorem lockstep (hssa : f.ssa = false) :
    Lockstep f h.result 0 (SameNames f d names starts versions) where
  start args := by
    obtain ⟨b, hb⟩ := exists_block.1 h.wf.entry_mem
    refine ⟨_, _, _, start_eq hb args, start_eq (h.block?_built hb) args, fun _ => .refl, ?_⟩
    have hdefs : (renamedPhis names starts f.entry b.preds).defs = (starts f.entry).defs := by
      rw [renamedPhis, h.names_entry]
      rfl
    refine h.sameNames_enter Graph.reachable_entry hb ?_
    show Holds (renamedPhis names starts f.entry b.preds).defs _ _
    rw [hdefs]
    exact h.holds_start hssa args
  step fr fr' w hr := by
    cases hr with
    | @mk l b pre rest counters defs env env' hl hb hpre hdefs hkept hholds =>
      cases rest with
      | cons i rest => exact h.sameNames_instr w hl hb hpre hdefs hkept hholds
      | nil =>
        have hdefs : defs = (f.phied names).endDefs starts l := hdefs
        subst hdefs
        obtain ⟨t, ht⟩ := Option.ne_none_iff_exists'.1 (h.wf.closed hb)
        rw [ht]
        have hexit : (t.mapUses ((f.phied names).endDefs starts l).resolve).exit env'.value
            = t.exit env.value := by
          rw [Terminator.exit_mapUses]
          exact Terminator.exit_congr fun x hx => hholds.value fun v hv =>
            h.plain.termUse hb ht (hv ▸ hx)
        refine agree_exit hexit fun s hgoto => ?_
        have hs : s ∈ f.graph.next l := by
          rw [next_graph hb, Block.successors, ht]
          exact Terminator.mem_targets_of_exit hgoto
        obtain ⟨c, hc⟩ := h.wf.block_of_reachable (hl.step hs)
        have henter := h.wf.enter_eq env hc hs
        rw [(Block.of_phiFree (h.phiFree s c hc)).1] at henter
        have hs' : s ∈ h.result.graph.next l := by
          rw [h.graph_built]
          exact hs
        exact ⟨_, _, henter, h.wf_built.enter_eq env' (h.block?_built hc) hs',
          h.sameNames_enter (hl.step hs) hc (h.holds_enter hl hs hc hholds)⟩

end

end Building

end Func

end ThreeAddress

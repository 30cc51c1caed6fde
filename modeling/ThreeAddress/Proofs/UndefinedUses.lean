import ThreeAddress.Proofs.EnterSsa
import ThreeAddress.Proofs.JoinPoints

/-!
# Uses that no assignment reaches

During the walk over the dominator tree a name has a definition at a point if and only if some path
from the entry assigns it before (`Building.isSome_iff_carriedTo`). From paths to definitions: on
every edge a definition is kept, or a phi takes its place. From definitions to paths: phis stand in
the iterated frontier of the blocks that assign the name, and where the dominance of a block ends, a
path from it arrives.

So the uses that become undefined, or are refused, are those that no assignment can reach
(`enterSsa_undefined_uses`).
-/

namespace ThreeAddress

variable {x : String} {versions : Table String Int} {defs : Reaching} {instrs : List Instr}
  {k : Nat} {n : Node} {v : Var}

/-! ## Definitions inside a block -/

theorem Reaching.resolve_eq_undefined :
    defs.resolve (.var v) = .undefined ↔ defs.get? v.name = none := by
  rw [Reaching.resolve_var]
  cases defs.get? v.name <;> simp

theorem Reaching.unresolved_ne_nil {uses : List Operand} :
    defs.unresolved uses ≠ [] ↔ ∃ v, .var v ∈ uses ∧ defs.get? v.name = none := by
  rw [← List.isEmpty_eq_false_iff, List.isEmpty_eq_false_iff_exists_mem]
  unfold Reaching.unresolved
  simp only [List.mem_filterMap, List.mem_filter]
  constructor
  · rintro ⟨x, y, ⟨hy, hnone⟩, hx⟩
    cases y with
    | var v => exact ⟨v, hy, by simpa [Reaching.resolve?] using hnone⟩
    | const n => cases hx
    | undefined => cases hx
  · rintro ⟨v, hv, hnone⟩
    exact ⟨v.name, .var v, ⟨hv, by simp [Reaching.resolve?, hnone]⟩, rfl⟩

/-- A name has a definition after some instructions if it had one before or one of them assigns
it. -/
theorem Renames.isSome_iff {r : Renamed} (h : Renames instrs versions defs r) :
    (r.defs.get? x).isSome ↔ (defs.get? x).isSome ∨ ∃ d ∈ destsOf instrs, d.name = x := by
  constructor
  · intro hx
    by_cases hmem : ∃ d ∈ destsOf instrs, d.name = x
    · exact .inr hmem
    · rw [h.unassigned x fun d hd e => hmem ⟨d, hd, e⟩] at hx
      exact .inl hx
  · rintro (hx | ⟨d, hd, rfl⟩)
    · exact h.isSome hx
    · obtain ⟨v, _, hv⟩ := h.assigned d hd
      rw [hv]
      rfl

/-- The definitions that reach the instruction at index `k`. -/
def defsBefore (instrs : List Instr) (versions : Table String Int) (defs : Reaching) (k : Nat) :
    Reaching :=
  (renameInstrs .sentinel (instrs.take k) versions defs).defs

theorem length_renameInstrs (instrs : List Instr) (versions : Table String Int) (defs : Reaching) :
    (renameInstrs .sentinel instrs versions defs).instrs.length = instrs.length := by
  induction instrs generalizing versions defs with
  | nil => rfl
  | cons i rest ih =>
    rw [renameInstrs_cons]
    simp only [List.length_cons, ih]

/-- What a renamed instruction reads. -/
theorem uses_renameInstrs (hphi : ∀ i ∈ instrs, i.isPhi = false) {i i' : Instr}
    (hi : instrs[k]? = some i)
    (hi' : (renameInstrs .sentinel instrs versions defs).instrs[k]? = some i') :
    i'.uses = i.uses.map (defsBefore instrs versions defs k).resolve := by
  induction instrs generalizing versions defs k with
  | nil => cases hi
  | cons j rest ih =>
    rw [renameInstrs_cons] at hi'
    cases k with
    | zero =>
      cases hi
      cases hi'
      rw [uses_renameDest, renameUses, if_neg (by simp [hphi _ (.head _)]), Instr.uses_mapUses]
      rfl
    | succ k => exact ih (fun j hj => hphi j (.tail _ hj)) hi hi'

/-- Which uses lack a definition. -/
theorem missing_ne_nil :
    (renameInstrs .sentinel instrs versions defs).missing ≠ [] ↔
      ∃ k i v, instrs[k]? = some i ∧ i.isPhi = false ∧ .var v ∈ i.uses ∧
        (defsBefore instrs versions defs k).get? v.name = none := by
  induction instrs generalizing versions defs with
  | nil => simp [renameInstrs]
  | cons j rest ih =>
    rw [renameInstrs_cons]
    simp only [ne_eq, List.append_eq_nil_iff, Classical.not_and_iff_not_or_not]
    rw [← ne_eq, ← ne_eq, ih, Reaching.unresolved_ne_nil]
    constructor
    · rintro (⟨v, hv, hnone⟩ | ⟨k, i, v, hi, huse⟩)
      · cases hphi : j.isPhi with
        | true => simp [hphi] at hv
        | false => exact ⟨0, j, v, rfl, hphi, by simpa [hphi] using hv, hnone⟩
      · exact ⟨k + 1, i, v, hi, huse⟩
    · rintro ⟨k, i, v, hi, hphi, hv, hnone⟩
      cases k with
      | zero =>
        cases hi
        exact .inl ⟨v, by simpa [hphi] using hv, hnone⟩
      | succ k => exact .inr ⟨k, i, v, hi, hphi, hv, hnone⟩

theorem getElem?_nodes {t : Terminator} :
    (instrs.map Node.instr ++ [.term t])[k]? = some n ↔
      (∃ i, instrs[k]? = some i ∧ n = .instr i) ∨ k = instrs.length ∧ n = .term t := by
  induction instrs generalizing k with
  | nil => cases k <;> simp [eq_comm]
  | cons i rest ih =>
    cases k with
    | zero => simp [eq_comm]
    | succ k => simpa using ih

/-- The instructions that are no phis, then the terminator. -/
def Block.code (b : Block) : List Node := b.body.map .instr ++ b.term.toList.map .term

namespace Func

variable {f : Func} {a l : Label} {b : Block}

/-! ## Definitions at the start of a block -/

/-- Some path from the entry assigns the name before it comes to the block, or the name is a
parameter. -/
def CarriedTo (f : Func) (l : Label) (x : String) : Prop :=
  x ∈ f.params ∨ ∃ xs, f.graph.Trail (l :: xs) l ∧ ∃ a ∈ xs, x ∈ f.assignedIn a

/-- What is carried to a block that a path passes, or assigned there, is carried to the end of the
path. -/
theorem CarriedTo.of_passes {xs : List Label} (ht : f.graph.Trail (l :: xs) l) (ha : a ∈ xs)
    (h : x ∈ f.assignedIn a ∨ f.CarriedTo a x) : f.CarriedTo l x := by
  rcases h with h | h | ⟨ys, hys, c, hc, h⟩
  · exact .inr ⟨xs, ht, a, ha, h⟩
  · exact .inl h
  · obtain ⟨later, earlier, rfl⟩ := List.append_of_mem ha
    rw [← List.cons_append] at ht
    exact .inr ⟨later ++ a :: ys, ht.resume hys, c, by simp [hc], h⟩

theorem CarriedTo.of_strictlyDominates (hl : f.graph.Reachable l)
    (ha : f.graph.StrictlyDominates a l) (h : x ∈ f.assignedIn a ∨ f.CarriedTo a x) :
    f.CarriedTo l x := by
  obtain ⟨xs, hxs⟩ := hl
  have hmem := ha.2 xs hxs
  obtain ⟨ys, rfl⟩ := hxs.exists_cons
  exact .of_passes hxs ((List.mem_cons.1 hmem).resolve_left ha.1) h

theorem mem_assignedIn (hb : f.block? l = some b) :
    x ∈ f.assignedIn l ↔ ∃ v ∈ destsOf b.instrs, v.name = x := by
  simp only [assignedIn, hb, mem_destsOf, List.mem_filterMap, Option.map_eq_some_iff]
  constructor
  · rintro ⟨i, hi, v, hv, hname⟩
    exact ⟨v, ⟨i, hi, hv⟩, hname⟩
  · rintro ⟨v, ⟨i, hi, hv⟩, hname⟩
    exact ⟨i, hi, v, hv, hname⟩

namespace Building

variable {d : Dominators} {names : Label → List String} {starts : Label → RenamePoint}

/-- A name has a phi only where some path brings an assignment. -/
theorem carriedTo_of_phi (h : Building f d names starts versions)
    (hnames : names = phiNames (f.phiSites d.order (f.graph.frontiers d))) (hx : x ∈ names l) :
    f.CarriedTo l x := by
  rw [hnames, mem_phiNames_iff] at hx
  refine Graph.iterated_least (P := fun l => f.CarriedTo l x) h.describes (fun a _ ha b hb =>
    ?_) l hx
  obtain ⟨_, p, ⟨ys, hys⟩, hnext, hdom⟩ := hb
  rcases ha with ha | ha
  · rcases (mem_defBlocks_iff h.params_nodup).1 ha with ⟨_, hparam⟩ | ⟨_, hassign⟩
    · exact .inl hparam
    · exact .of_passes (.step hys hnext) (hdom ys hys) (.inl hassign)
  · exact .of_passes (.step hys hnext) (hdom ys hys) (.inr ha)

theorem isSome_endDefs_iff (hb : f.block? l = some b) :
    (((f.phied names).endDefs starts l).get? x).isSome ↔
      x ∈ f.assignedIn l ∨ ((renamedPhis names starts l b.preds).defs.get? x).isSome := by
  rw [endDefs_eq names starts hb, mem_assignedIn hb, or_comm]
  exact (renames _ _ _).isSome_iff

section

variable (h : Building f d names starts versions)
include h

/-- Definitions come from assignments: along the dominator tree, and through phis. -/
theorem carriedTo_of_isSome (hnames : names = phiNames (f.phiSites d.order (f.graph.frontiers d)))
    (hl : f.graph.Reachable l) :
    ∀ x preds, ((renamedPhis names starts l preds).defs.get? x).isSome → f.CarriedTo l x := by
  refine hl.alongTree (P := fun l => ∀ x preds,
    ((renamedPhis names starts l preds).defs.get? x).isSome → f.CarriedTo l x)
    h.describes (fun x preds hx => ?_) fun b a hb ha ih x preds hx => ?_
  · rw [h.get?_renamedPhis] at hx
    split at hx
    · exact h.carriedTo_of_phi hnames ‹_›
    · have hx : ((starts f.entry).defs.get? x).isSome := hx
      rw [h.get?_entry] at hx
      split at hx
      · exact .inl ‹_›
      · cases hx
  · rw [h.get?_renamedPhis] at hx
    split at hx
    · exact h.carriedTo_of_phi hnames ‹_›
    · have hclosest := ((h.describes.idom?_eq b a).1 ha).2
      obtain ⟨c, hc⟩ := h.wf.block_of_reachable (hclosest.1.2.reachable hb)
      rw [h.get?_of_idom hb ha, isSome_endDefs_iff hc] at hx
      exact .of_strictlyDominates hb hclosest.1 (hx.imp_right (ih x c.preds))

/-- A definition that reaches the end of a block reaches its successors. -/
theorem isSome_renamedPhis_of_edge {s : Label} (hl : f.graph.Reachable l) (hs : s ∈ f.graph.next l)
    (hx : (((f.phied names).endDefs starts l).get? x).isSome) (preds : List Label) :
    ((renamedPhis names starts s preds).defs.get? x).isSome := by
  rw [h.get?_renamedPhis]
  split
  · rfl
  · rw [h.edge hl hs ‹_›]
    exact hx

/-- Assignments are carried along paths. -/
theorem isSome_of_trail {ys : List Label} (ht : f.graph.Trail ys l)
    (hx : x ∈ f.params ∨ ∃ a ∈ ys.tail, x ∈ f.assignedIn a) (preds : List Label) :
    ((renamedPhis names starts l preds).defs.get? x).isSome := by
  induction ht generalizing preds with
  | entry =>
    rcases hx with hx | ⟨a, ha, _⟩
    · rw [h.get?_renamedPhis]
      split
      · rfl
      · show ((starts f.entry).defs.get? x).isSome
        rw [h.get?_entry, if_pos hx]
        rfl
    · cases ha
  | @step ys p l hp hl ih =>
    obtain ⟨b, hb⟩ := h.wf.block_of_reachable ⟨ys, hp⟩
    refine h.isSome_renamedPhis_of_edge ⟨ys, hp⟩ hl ((isSome_endDefs_iff hb).2 ?_) preds
    obtain ⟨zs, rfl⟩ := hp.exists_cons
    rcases hx with hx | ⟨a, ha, hx⟩
    · exact .inr (ih (.inl hx) b.preds)
    · rcases List.mem_cons.1 ha with rfl | ha
      · exact .inl hx
      · exact .inr (ih (.inr ⟨a, ha, hx⟩) b.preds)

/-- At the start of a block, after its phis, a name has a definition if and only if some path brings
one. -/
theorem isSome_iff_carriedTo (hnames : names = phiNames (f.phiSites d.order (f.graph.frontiers d)))
    (hl : f.graph.Reachable l) (preds : List Label) :
    ((renamedPhis names starts l preds).defs.get? x).isSome ↔ f.CarriedTo l x := by
  refine ⟨h.carriedTo_of_isSome hnames hl x preds, fun hx => ?_⟩
  rcases hx with hx | ⟨xs, ht, hx⟩
  · obtain ⟨ys, hys⟩ := hl
    exact h.isSome_of_trail hys (.inl hx) preds
  · exact h.isSome_of_trail ht (.inr hx) preds

end

end Building

/-! ## Uses -/

/-- On some path from the entry the name is assigned before the instruction at index `k` of the
block, or before the terminator if that is the number of instructions; or the name is a
parameter. -/
def MayBeAssigned (f : Func) (x : String) (l : Label) (k : Nat) : Prop :=
  x ∈ f.params ∨ ∃ b xs, f.block? l = some b ∧ f.graph.Trail (l :: xs) l ∧
    ((∃ a ∈ xs, x ∈ f.assignedIn a) ∨ ∃ v ∈ destsOf (b.instrs.take k), v.name = x)

theorem mayBeAssigned_iff (hl : f.graph.Reachable l) (hb : f.block? l = some b) :
    f.MayBeAssigned x l k ↔ f.CarriedTo l x ∨ ∃ v ∈ destsOf (b.instrs.take k), v.name = x := by
  constructor
  · rintro (hx | ⟨b', xs, hb', ht, hx | hx⟩)
    · exact .inl (.inl hx)
    · exact .inl (.inr ⟨xs, ht, hx⟩)
    · cases hb.symm.trans hb'
      exact .inr hx
  · rintro ((hx | ⟨xs, ht, hx⟩) | hx)
    · exact .inl hx
    · exact .inr ⟨b, xs, hb, ht, .inl hx⟩
    · obtain ⟨xs, hxs⟩ := hl
      obtain ⟨ys, rfl⟩ := hxs.exists_cons
      exact .inr ⟨b, ys, hb, hxs, .inr hx⟩

/-- The definitions that reach the instruction at index `k` of a block. -/
def defsAt (names : Label → List String) (starts : Label → RenamePoint) (l : Label) (b : Block)
    (k : Nat) : Reaching :=
  defsBefore b.instrs (renamedPhis names starts l b.preds).versions
    (renamedPhis names starts l b.preds).defs k

namespace Building

variable {d : Dominators} {names : Label → List String} {starts : Label → RenamePoint}

theorem get?_defsAt_eq_none (h : Building f d names starts versions)
    (hnames : names = phiNames (f.phiSites d.order (f.graph.frontiers d)))
    (hb : f.block? l = some b) :
    (defsAt names starts l b k).get? x = none ↔ ¬ f.MayBeAssigned x l k := by
  have hl := h.reachable l (mem_blocks hb)
  rw [mayBeAssigned_iff hl hb, ← h.isSome_iff_carriedTo hnames hl b.preds,
    ← Option.not_isSome_iff_eq_none]
  exact not_congr (renames _ _ _).isSome_iff

theorem endDefs_eq_defsAt (hb : f.block? l = some b) :
    (f.phied names).endDefs starts l = defsAt names starts l b b.instrs.length := by
  rw [endDefs_eq names starts hb, defsAt, defsBefore, List.take_length]
  rfl

theorem missing_renamedPhis (names : Label → List String) (starts : Label → RenamePoint) (l : Label)
    (preds : List Label) : (renamedPhis names starts l preds).missing = [] := by
  by_contra hmissing
  obtain ⟨k, i, v, hi, hphi, _⟩ := missing_ne_nil.1 hmissing
  obtain ⟨x, _, rfl⟩ := List.mem_map.1 (List.mem_of_getElem? hi)
  cases hphi

/-- Which blocks are refused. -/
theorem lacksDef_iff (h : Building f d names starts versions)
    (hnames : names = phiNames (f.phiSites d.order (f.graph.frontiers d)))
    (hb : f.block? l = some b) :
    (f.phied names).LacksDef starts l ↔
      ∃ k n v, b.nodes[k]? = some n ∧ .var v ∈ n.uses ∧ ¬ f.MayBeAssigned v.name l k := by
  obtain ⟨t, ht⟩ := Option.ne_none_iff_exists'.1 (h.wf.closed hb)
  have hnodes : b.nodes = b.instrs.map .instr ++ [.term t] := by rw [Block.nodes, ht]; rfl
  simp only [← h.get?_defsAt_eq_none hnames hb, hnodes, getElem?_nodes]
  rw [LacksDef, renamedAt_eq names starts hb, missing_renamedPhis, List.nil_append,
    endDefs_eq_defsAt hb]
  constructor
  · rintro (hmissing | ⟨b', t', hb', ht', hterm⟩)
    · obtain ⟨k, i, v, hi, _, hv, hnone⟩ := missing_ne_nil.1 hmissing
      exact ⟨k, .instr i, v, .inl ⟨i, hi, rfl⟩, hv, hnone⟩
    · cases (block?_phied hb).symm.trans hb'
      cases ht.symm.trans ht'
      obtain ⟨v, hv, hnone⟩ := Reaching.unresolved_ne_nil.1 hterm
      exact ⟨_, .term t, v, .inr ⟨rfl, rfl⟩, hv, hnone⟩
  · rintro ⟨k, n, v, ⟨i, hi, rfl⟩ | ⟨rfl, rfl⟩, hv, hnone⟩
    · have hphi := h.phiFree l b hb i (List.mem_of_getElem? hi)
      exact .inl (missing_ne_nil.2 ⟨k, i, v, hi, hphi, hv, hnone⟩)
    · exact .inr ⟨_, t, block?_phied hb, ht, Reaching.unresolved_ne_nil.2 ⟨v, hv, hnone⟩⟩

/-- What the code of a block reads once it was renamed. -/
theorem uses_built (h : Building f d names starts versions) (hb : f.block? l = some b) :
    (builtBlock f names starts l b).code.length = b.nodes.length ∧
      ∀ (k : Nat) (n n' : Node), b.nodes[k]? = some n →
        (builtBlock f names starts l b).code[k]? = some n' →
        n'.uses = n.uses.map (defsAt names starts l b k).resolve := by
  obtain ⟨t, ht⟩ := Option.ne_none_iff_exists'.1 (h.wf.closed hb)
  have hnodes : b.nodes = b.instrs.map .instr ++ [.term t] := by rw [Block.nodes, ht]; rfl
  have hcode : (builtBlock f names starts l b).code
      = (renamedBody names starts l b).instrs.map .instr
      ++ [.term (t.mapUses (defsAt names starts l b b.instrs.length).resolve)] := by
    rw [Block.code, (h.builtBlock_spec hb).2.1, ← endDefs_eq_defsAt hb]
    show _ ++ (b.term.map _).toList.map _ = _
    rw [ht]
    rfl
  have hlength : (renamedBody names starts l b).instrs.length = b.instrs.length :=
    length_renameInstrs _ _ _
  rw [hnodes, hcode]
  refine ⟨by simp [hlength], fun k n n' hn hn' => ?_⟩
  rw [getElem?_nodes] at hn hn'
  rcases hn with ⟨i, hi, rfl⟩ | ⟨rfl, rfl⟩
  · rcases hn' with ⟨i', hi', rfl⟩ | ⟨hk, _⟩
    · exact uses_renameInstrs (h.phiFree l b hb) hi hi'
    · rw [hk, hlength, List.getElem?_eq_none (Nat.le_refl _)] at hi
      cases hi
  · rcases hn' with ⟨i', hi', _⟩ | ⟨_, rfl⟩
    · rw [← hlength, List.getElem?_eq_none (Nat.le_refl _)] at hi'
      cases hi'
    · exact t.uses_mapUses _

end Building

/-! ## The function before it was prepared -/

namespace LedThrough

variable {g : Func} {front : List Label} {b' : Block}

section

variable (h : LedThrough f g front)
include h

theorem assignedIn_eq (wf : f.WellFormed) (wf' : g.WellFormed) (hl : f.graph.Reachable l) :
    g.assignedIn l = f.assignedIn l := by
  obtain ⟨b, hb⟩ := wf.block_of_reachable hl
  obtain ⟨b', hb', hinstrs, _⟩ := h.block wf' hl hb
  simp only [assignedIn, hb, hb', hinstrs]

theorem assignedIn_front (hl : l ∈ front) : g.assignedIn l = [] := by
  cases hb' : g.block? l with
  | none => simp only [assignedIn, hb']
  | some b' =>
    rcases h.code hb' with ⟨_, hnil, _⟩ | ⟨hnot, _⟩
    · simp only [assignedIn, hb', hnil, List.filterMap_nil]
    · exact absurd hl hnot

theorem carriedTo_iff (wf : f.WellFormed) (wf' : g.WellFormed) (params_eq : g.params = f.params)
    (hl : f.graph.Reachable l) : g.CarriedTo l x ↔ f.CarriedTo l x := by
  rw [CarriedTo, CarriedTo, params_eq]
  refine or_congr_right ⟨?_, ?_⟩
  · rintro ⟨ys, ht, a, ha, hx⟩
    rcases h.of_trail ht with hfront | ⟨xs, heq, hxs⟩
    · exact absurd hfront (h.apart hl)
    · obtain ⟨zs, rfl⟩ := hxs.exists_cons
      obtain rfl : ys = zs ++ front := (List.cons.inj heq).2
      rcases List.mem_append.1 ha with ha | ha
      · have hreach := hxs.reachable_of_mem (.tail _ ha)
        exact ⟨zs, hxs, a, ha, h.assignedIn_eq wf wf' hreach ▸ hx⟩
      · rw [h.assignedIn_front ha] at hx
        cases hx
  · rintro ⟨xs, ht, a, ha, hx⟩
    have hreach := ht.reachable_of_mem (.tail _ ha)
    exact ⟨xs ++ front, h.trail ht, a, List.mem_append_left _ ha,
      (h.assignedIn_eq wf wf' hreach).symm ▸ hx⟩

theorem mayBeAssigned_iff (wf : f.WellFormed) (wf' : g.WellFormed) (params_eq : g.params = f.params)
    (hl : f.graph.Reachable l) (hb : f.block? l = some b) (hb' : g.block? l = some b')
    (hinstrs : b'.instrs = b.instrs) : g.MayBeAssigned x l k ↔ f.MayBeAssigned x l k := by
  have hl' : g.graph.Reachable l := by
    obtain ⟨xs, hxs⟩ := hl
    exact ⟨_, h.trail hxs⟩
  rw [Func.mayBeAssigned_iff hl hb, Func.mayBeAssigned_iff hl' hb',
    h.carriedTo_iff wf wf' params_eq hl, hinstrs]

theorem nodes_eq (hb' : g.block? l = some b') (hn : b'.nodes[k]? = some n) (hv : .var v ∈ n.uses) :
    l ∉ front ∧ ∃ b, f.block? l = some b ∧ b'.instrs = b.instrs ∧ b'.term = b.term := by
  rcases h.code hb' with ⟨_, hnil, s, hjump⟩ | hsame
  · have hnodes : n ∈ b'.nodes := List.mem_of_getElem? hn
    rw [Block.nodes, hnil, hjump] at hnodes
    rw [List.mem_singleton.1 hnodes] at hv
    cases hv
  · exact hsame

end

end LedThrough

/-- Pruning or not, the code apart from phis stays. -/
theorem Regular.code_prune (h : f.Regular) (prune : Bool) :
    ∃ count f', (if prune then Edit.pruneDeadPhis else pure 0 : Edit Nat).Yields f count f' ∧
      ∀ l b, f.block? l = some b → ∃ b', f'.block? l = some b' ∧ b'.code = b.code := by
  cases prune with
  | false => exact ⟨0, f, Edit.yields_pure 0 f, fun l b hb => ⟨b, hb, rfl⟩⟩
  | true =>
    refine ⟨_, _, pruneDeadPhis_yields f, fun l b hb => ⟨_, block?_withoutDeadPhis hb, ?_⟩⟩
    rw [Block.code, (keepLive_spec (h.wf.tidy hb) f.liveVars).2.1]
    rfl

/-- SSA construction refuses a function if and only if some use in code that can be reached is
unassigned: on no path from the entry is the variable assigned before, and it is no parameter. With
the undefined operand for such uses construction succeeds, and these are the uses that it makes
undefined. -/
theorem enterSsa_undefined_uses (f : Func) (hssa : f.ssa = false) (hphi : f.PhiFree)
    (hplain : f.Plain) (hparams : f.params.Nodup) (hcfg : f.checkCfg = .ok ()) (prune : Bool) :
    ((Edit.enterSsa .refuse prune).Refuses f ↔
        ∃ l b k n v, f.graph.Reachable l ∧ f.block? l = some b ∧ b.nodes[k]? = some n ∧
          .var v ∈ n.uses ∧ ¬ f.MayBeAssigned v.name l k) ∧
      ∃ c f', (Edit.enterSsa .sentinel prune).Yields f c f' ∧
        ∀ l b, f.graph.Reachable l → f.block? l = some b → ∃ b', f'.block? l = some b' ∧
          b'.code.length = b.nodes.length ∧ ∀ k n n', b.nodes[k]? = some n → b'.code[k]? = some n' →
            ∃ g : Operand → Operand, n'.uses = n.uses.map g ∧
              ∀ v, .var v ∈ n.uses → (g (.var v) = .undefined ↔ ¬ f.MayBeAssigned v.name l k) := by
  have wf := checkCfg_eq_ok.1 hcfg
  obtain ⟨g, d, names, starts, versions, hprep, hbuild, hnames, _, _, henter⟩ :=
    Source.build ⟨wf, hphi, hplain, hparams, hssa⟩
  obtain ⟨front, hled⟩ := hprep.led
  obtain ⟨count, f', hprune, hcode⟩ := hbuild.regular.code_prune prune
  obtain ⟨⟨c, hyields⟩, hrefuses⟩ := henter prune count f' hprune
  refine ⟨hrefuses.trans ⟨?_, ?_⟩, c, f', hyields, fun l b hl hb => ?_⟩
  · rintro ⟨l, hl, hlacks⟩
    obtain ⟨b', hb'⟩ := exists_block.1 (hbuild.mem_preorder.1 hl)
    obtain ⟨k, n, v, hn, hv, hnot⟩ := (hbuild.lacksDef_iff hnames hb').1 hlacks
    obtain ⟨hfront, b, hb, hinstrs, hterm⟩ := hled.nodes_eq hb' hn hv
    obtain ⟨ys, hys⟩ := hbuild.reachable l (mem_blocks hb')
    obtain ⟨xs, _, hxs⟩ := (hled.of_trail hys).resolve_left hfront
    rw [hled.mayBeAssigned_iff wf hprep.wf hprep.params_eq ⟨xs, hxs⟩ hb hb' hinstrs] at hnot
    rw [Block.nodes, hinstrs, hterm] at hn
    exact ⟨l, b, k, n, v, ⟨xs, hxs⟩, hb, hn, hv, hnot⟩
  · rintro ⟨l, b, k, n, v, hl, hb, hn, hv, hnot⟩
    obtain ⟨b', hb', hinstrs, hterm⟩ := hled.block hprep.wf hl hb
    rw [← hled.mayBeAssigned_iff wf hprep.wf hprep.params_eq hl hb hb' hinstrs] at hnot
    rw [Block.nodes, ← hinstrs, ← hterm] at hn
    exact ⟨l, hbuild.mem_preorder.2 (mem_blocks hb'),
      (hbuild.lacksDef_iff hnames hb').2 ⟨k, n, v, hn, hv, hnot⟩⟩
  · obtain ⟨b₁, hb₁, hinstrs, hterm⟩ := hled.block hprep.wf hl hb
    obtain ⟨b', hb', hsame⟩ := hcode l _ (hbuild.block?_built hb₁)
    obtain ⟨hlength, huses⟩ := hbuild.uses_built hb₁
    have hnodes : b₁.nodes = b.nodes := by rw [Block.nodes, Block.nodes, hinstrs, hterm]
    rw [← hsame, hnodes] at hlength
    refine ⟨b', hb', hlength, fun k n n' hn hn' => ⟨_, huses k n n' (hnodes ▸ hn) (hsame ▸ hn'),
      fun v _ => ?_⟩⟩
    rw [Reaching.resolve_eq_undefined, hbuild.get?_defsAt_eq_none hnames hb₁]
    exact not_congr (hled.mayBeAssigned_iff wf hprep.wf hprep.params_eq hl hb hb₁ hinstrs)

/-- A loop that writes one variable before it assigns it, and one that nothing assigns. -/
def lateAssignment : Func where
  name := "main"
  params := ["n"]
  blocks := Table.ofList [
    ("entry", { name := "entry", term := some (.jump "loop") }),
    ("loop",
      { name := "loop", preds := ["entry", "loop"],
        term := some (.branch (.var ⟨"n", none⟩) "loop" "done"),
               instrs := [.write (.var ⟨"y", none⟩), .write (.var ⟨"z", none⟩),
                 .copy ⟨"y", none⟩ (.const 1)] }),
    ("done", { name := "done", preds := ["loop"], term := some (.ret none) })]

theorem enterSsa_undefined_uses_lateAssignment :
    (Edit.enterSsa .refuse true).Refuses lateAssignment ∧
      ∃ c f' b', (Edit.enterSsa .sentinel true).Yields lateAssignment c f' ∧
      f'.block? "loop" = some b' ∧
        (∀ n', b'.code[0]? = some n' → n'.uses ≠ [.undefined]) ∧
        ∀ n', b'.code[1]? = some n' → n'.uses = [.undefined] := by
  obtain ⟨hrefuses, c, f', hyields, hblocks⟩ :=
    enterSsa_undefined_uses lateAssignment rfl (by decide) (by decide) (by decide) rfl true
  have hnext : "loop" ∈ lateAssignment.graph.next "entry" ∧
      "loop" ∈ lateAssignment.graph.next "loop" := by decide
  have htrail : lateAssignment.graph.Trail ["loop", "entry"] "loop" := .step .entry hnext.1
  have hy : lateAssignment.MayBeAssigned "y" "loop" 0 :=
    .inr ⟨_, ["loop", "entry"], rfl, .step htrail hnext.2, .inl ⟨"loop", .head _, by decide⟩⟩
  have hz : ¬ lateAssignment.MayBeAssigned "z" "loop" 1 := by
    have hnowhere : ∀ a ∈ lateAssignment.blocks.keys, "z" ∉ lateAssignment.assignedIn a := by decide
    rw [mayBeAssigned_iff ⟨_, htrail⟩ rfl]
    rintro ((hparam | ⟨_, _, a, _, ha⟩) | ⟨v, hv, _⟩)
    · exact absurd hparam (by decide)
    · exact hnowhere a (mem_blocks_of_assignedIn ha) ha
    · cases hv
  obtain ⟨b', hb', _, huses⟩ := hblocks "loop" _ ⟨_, htrail⟩ rfl
  refine ⟨hrefuses.2 ⟨"loop", _, 1, _, ⟨"z", none⟩, ⟨_, htrail⟩, rfl, rfl, .head _, hz⟩, c, f', b',
    hyields, hb', fun n' hn' heq => ?_, fun n' hn' => ?_⟩
  · obtain ⟨g, hmap, hundefined⟩ := huses 0 _ n' rfl hn'
    exact (hundefined ⟨"y", none⟩ (.head _)).1 (List.cons.inj (hmap.symm.trans heq)).1 hy
  · obtain ⟨g, hmap, hundefined⟩ := huses 1 _ n' rfl hn'
    exact hmap.trans (congrArg (fun x => [x]) ((hundefined ⟨"z", none⟩ (.head _)).2 hz))

end Func

end ThreeAddress

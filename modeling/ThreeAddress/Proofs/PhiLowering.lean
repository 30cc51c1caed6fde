import ThreeAddress.Proofs.ParallelCopies
import ThreeAddress.Proofs.PhiIsolation

/-!
# Phis as copies

Once the blocks with phis are isolated, the phis become copies at the ends of their predecessors.

1. `lowerBlocks_yields` says what comes out: the function without its phis, and for each block the
   copies that its one successor asks for.
2. `Lowers.simulation` shows that it runs as before. An undefined operand gets no copy, so the
   variable keeps what it holds. That is 0 as long as control has not come through its phi
   (`PhisPast`).
-/

namespace ThreeAddress

variable {l p : Label} {b : Block} {φs : List Phi} {i : Instr}

/-! ## Copies for phis -/

/-- The parallel copy that phis make on the edge from `p`. -/
def phiPairs (p : Label) (φs : List Phi) : List Copy :=
  φs.filterMap fun φ => if φ.operand p = .undefined then none else some (φ.dest, φ.operand p)

theorem mem_phiPairs {c : Copy} :
    c ∈ phiPairs p φs ↔ ∃ φ ∈ φs, φ.operand p ≠ .undefined ∧ c = (φ.dest, φ.operand p) := by
  unfold phiPairs
  rw [List.mem_filterMap]
  refine exists_congr fun φ => and_congr_right fun _ => ?_
  split
  · rename_i h
    simp [h]
  · rename_i h
    simp [h, eq_comm]

theorem phiCopies_eq (h : ∀ φ ∈ φs, p ∈ φ.labels) : phiCopies p φs = .ok (phiPairs p φs) := by
  induction φs with
  | nil => rfl
  | cons φ φs ih =>
    rw [phiCopies, Phi.valueFrom?_of_mem (h φ (.head _)), ih fun ψ hψ => h ψ (.tail _ hψ)]
    unfold phiPairs
    rw [List.filterMap_cons]
    by_cases hx : φ.operand p = .undefined
    · simp only [hx, if_true]
      rfl
    · simp only [hx, if_false]
      rfl

theorem nodup_phiPairs (nodup : (φs.map (·.dest)).Nodup) (p : Label) :
    ((phiPairs p φs).map Prod.fst).Nodup := by
  refine nodup.sublist ?_
  unfold phiPairs
  induction φs with
  | nil => exact .slnil
  | cons φ φs ih =>
    have ih := ih (List.nodup_cons.1 nodup).2
    rw [List.filterMap_cons]
    split
    · exact ih.cons _
    · rename_i c hc
      split at hc
      · cases hc
      · cases hc
        exact ih.cons_cons _

/-- The code of some copies. -/
def copyCode (copies : List Copy) : List Instr := copies.map fun c => .copy c.1 c.2

theorem isPhi_of_mem_copyCode {copies : List Copy} (h : i ∈ copyCode copies) : i.isPhi = false := by
  obtain ⟨c, _, rfl⟩ := List.mem_map.1 h
  rfl

/-- Copies are made without anything else happening. -/
theorem walks_copyCode (f : Func) (l : Label) (t : Option Terminator) (copies : List Copy)
    (env : Env) (w : World) :
    Walks copies.length ⟨f, l, copyCode copies, t, env⟩ w ⟨f, l, [], t, env.copyAll copies⟩ w := by
  induction copies generalizing env with
  | nil => exact .refl
  | cons c copies ih => exact .step rfl (ih _)

/-! ## The function with copies -/

namespace Func

variable {f : Func} {done : List Label} {code : Label → List Copy} {versions : Table String Int}

/-- The function with the phis of the blocks `done` taken away, and copies at the ends of blocks. -/
def lowered (f : Func) (done : List Label) (code : Label →
    List Copy) (versions : Table String Int) : Func :=
  { f with versions }.rewrite fun l b =>
    { b with instrs := (if l ∈ done then b.body else b.instrs) ++ copyCode (code l) }

theorem block?_lowered (done : List Label) (code : Label → List Copy) (versions : Table String Int)
    (hb : f.block? l = some b) : (f.lowered done code versions).block? l
      = some { b with instrs := (if l ∈ done then b.body else b.instrs) ++ copyCode (code l) } :=
  block?_rewrite_of_some _ hb

theorem lowered_start (f : Func) : f.lowered [] (fun _ => []) f.versions = f := by
  refine eq_of_blocks rfl (Table.keys_mapValues _ _) fun l => ?_
  unfold lowered
  rw [block?_rewrite]
  show (f.block? l).map _ = f.block? l
  simp [copyCode]

/-- Copies at the end of one block more. -/
theorem modifyBlock_lowered (p : Label) (copies : List Copy) :
    (f.lowered done code versions).modifyBlock p
      (fun b => { b with instrs := b.instrs ++ copyCode copies })
      = f.lowered done (Function.update code p (code p ++ copies)) versions := by
  unfold lowered
  rw [modifyBlock_rewrite]
  refine rewrite_congr fun l b _ => ?_
  by_cases hl : l = p
  · subst hl
    simp [copyCode, Function.update_self]
  · simp [hl, Function.update_of_ne]

/-- The phis of one block more are taken away. -/
theorem modifyBlock_lowered_body (hl : l ∉ done) :
    (f.lowered done code versions).modifyBlock l (fun b => { b with instrs := b.body })
      = f.lowered (l :: done) code versions := by
  unfold lowered
  rw [modifyBlock_rewrite]
  refine rewrite_congr fun x b _ => ?_
  by_cases hx : x = l
  · subst hx
    have hfilter : (b.instrs ++ copyCode (code x)).filter (!·.isPhi) = b.body ++
        copyCode (code x) := by
      rw [List.filter_append]
      refine congrArg (b.body ++ ·) (List.filter_eq_self.2 fun i hi => ?_)
      rw [isPhi_of_mem_copyCode hi]
      rfl
    simp [hl, Block.body, hfilter]
  · simp [hx]

/-- A block without phis has none to lose. -/
theorem lowered_cons (hb : f.block? l = some b) (htidy : b.Tidy) (hphis : b.phis = []) :
    f.lowered (l :: done) code versions = f.lowered done code versions := by
  refine rewrite_congr fun x c hc => ?_
  by_cases hx : x = l
  · subst hx
    cases hb.symm.trans hc
    have hbody : b.body = b.instrs := by
      conv => rhs; rw [htidy.instrs_eq, hphis]
      rfl
    simp [hbody]
  · simp [hx]

end Func

/-! ## Making the copies -/

namespace Func

variable {f : Func} {E : Label → Label → Prop} {code : Label →
    List Copy} {versions : Table String Int}

/-- The phis have become copies on the edges `E`. -/
structure LoweredAlong (f : Func) (E : Label → Label → Prop) (code : Label →
    List Copy) (versions : Table String Int) :
    Prop where
  known : ∀ v, f.Old v → Temporaries.Knows ⟨versions, 0⟩ v
  edge : ∀ {p l b}, E p l → f.graph.Reachable p → l ∈ f.graph.next p → f.block? l = some b →
    b.phis ≠ [] →
    Performs ⟨f.versions, 0⟩ (phiPairs p b.phis) (code p)
  none : ∀ {p}, (∀ l b, E p l → l ∈ f.graph.next p → f.block? l = some b → b.phis = []) →
    code p = []
  versioned : ∀ {p c}, f.graph.Reachable p → c ∈ code p → Copy.IsVersioned c

theorem loweredAlong_start (f : Func) :
    f.LoweredAlong (fun _ _ => False) (fun _ => []) f.versions where
  known _ hv := hv
  edge h := h.elim
  none _ := rfl
  versioned _ h := (List.not_mem_nil h).elim

/-- The operands and results of phis are old, and have versions. -/
theorem InSsa.covers_phiPairs (hf : f.InSsa) (hp : f.graph.Reachable p) (hedge : l ∈ f.graph.next p)
    (hb : f.block? l = some b) :
    Temporaries.Covers ⟨f.versions, 0⟩ (phiPairs p b.phis) ∧ ∀ c ∈ phiPairs p b.phis,
      Copy.IsVersioned c := by
  have hdef : ∀ φ ∈ b.phis, f.Defines l φ.dest := fun φ hφ =>
    ⟨b, hb, mem_destsOf.2 ⟨.phi φ, (hf.wf.tidy hb).phi_mem_iff.2 hφ, rfl⟩⟩
  refine ⟨⟨fun c hc => ?_, fun c hc v hv => ?_⟩, fun c hc => ?_⟩
  · obtain ⟨φ, hφ, _, rfl⟩ := mem_phiPairs.1 hc
    exact fun n hn => hf.counted.bound (hdef φ hφ) hn
  · obtain ⟨φ, hφ, _, rfl⟩ := mem_phiPairs.1 hc
    exact hf.counted.old_of_availOut (hf.form.phi_operand_available hp (hp.step hedge) hb hφ v hv)
  · obtain ⟨φ, hφ, _, rfl⟩ := mem_phiPairs.1 hc
    refine ⟨hf.form.versioned (hp.step hedge) (hdef φ hφ), fun v hv => ?_⟩
    exact hf.form.version_of_availOut hp
      (hf.form.phi_operand_available hp (hp.step hedge) hb hφ v hv)

/-- The copies for one edge more. -/
theorem LoweredAlong.snoc (h : f.LoweredAlong E code versions) (hf : f.InSsa)
    (hiso : f.PhisIsolated) (hnew : ¬ E p l) (hedge : l ∈ f.graph.next p) (hb : f.block? l = some b)
    (hphis : b.phis ≠ []) :
    f.LoweredAlong (fun q x => E q x ∨ q = p ∧ x = l)
      (Function.update code p (code p ++
        (sequenceCopies Temporaries.fresh (phiPairs p b.phis) ⟨versions, 0⟩).1))
      (sequenceCopies Temporaries.fresh (phiPairs p b.phis) ⟨versions, 0⟩).2.versions := by
  have hempty : code p = [] := h.none fun x c hE hx hc =>
    absurd (hiso l b hb hphis p x hedge hx ▸ hE) hnew
  have hcovers : f.graph.Reachable p → Temporaries.Covers ⟨versions, 0⟩ (phiPairs p b.phis) :=
    fun hp =>
      have hold := (hf.covers_phiPairs hp hedge hb).1
      ⟨fun c hc => h.known _ (hold.dest c hc), fun c hc v hv => h.known v (hold.source c hc v hv)⟩
  rw [hempty, List.nil_append]
  refine ⟨fun v hv => ?_, fun {q x c} hE hq hx hc hcphis => ?_, fun {q} hall => ?_,
    fun {q c} hq hc => ?_⟩
  · exact Temporaries.Knows.orderPending (h.known v hv) _ _
  · by_cases hqp : q = p
    · subst hqp
      cases hiso l b hb hphis q x hedge hx
      cases hb.symm.trans hc
      rw [Function.update_self]
      exact (performs_sequenceCopies (hcovers hq)
        (nodup_phiPairs (hf.form.nodup_phis (hq.step hedge) hb (hf.wf.tidy hb)) q)).mono h.known
    · rw [Function.update_of_ne hqp]
      exact h.edge (hE.resolve_right fun he => hqp he.1) hq hx hc hcphis
  · by_cases hqp : q = p
    · subst hqp
      exact absurd (hall l b (.inr ⟨rfl, rfl⟩) hedge hb) hphis
    · rw [Function.update_of_ne hqp]
      exact h.none fun x c hE => hall x c (.inl hE)
  · by_cases hqp : q = p
    · subst hqp
      rw [Function.update_self] at hc
      exact isVersioned_sequenceCopies (hcovers hq) (hf.covers_phiPairs hq hedge hb).2 c hc
    · rw [Function.update_of_ne hqp] at hc
      exact h.versioned hq hc

end Func

namespace Edit

open Func

variable {f : Func} {E : Label → Label → Prop} {done : List Label} {code : Label → List Copy}
  {versions : Table String Int}

theorem lowerEdge_yields (done : List Label) (code : Label → List Copy)
    (versions : Table String Int) (hb : f.block? p = some b) (hlabels : ∀ φ ∈ φs, p ∈ φ.labels) :
    ∃ r, (lowerEdge φs p).Yields (f.lowered done code versions) r
      (f.lowered done (Function.update code p
        (code p ++ (sequenceCopies Temporaries.fresh (phiPairs p φs) ⟨versions, 0⟩).1))
        (sequenceCopies Temporaries.fresh (phiPairs p φs) ⟨versions, 0⟩).2.versions) := by
  generalize hseq : sequenceCopies Temporaries.fresh (phiPairs p φs) ⟨versions, 0⟩ = s
  have hpairs : (fun _ : Func => phiCopies p φs) (f.lowered done code versions)
      = .ok (phiPairs p φs) :=
    phiCopies_eq hlabels
  obtain ⟨c, hc⟩ : ∃ c, (f.lowered done code s.2.versions).getBlock p = .ok c := by
    rw [getBlock, block?_lowered done code s.2.versions hb]
    exact ⟨_, rfl⟩
  have happend := yields_modify (·.modifyBlock p fun b =>
    { b with instrs := b.instrs ++ copyCode s.1 })
    (f.lowered done code s.2.versions)
  rw [modifyBlock_lowered] at happend
  refine ⟨(s.1.length, s.2.count), (yields_ask hpairs).bind ((yields_get _).bind ?_)⟩
  have hversions : (f.lowered done code versions).versions = versions := rfl
  rw [hversions, hseq]
  exact (yields_modify _ _).bind ((yields_ask hc).bind (happend.bind (yields_pure _ _)))

theorem lowerEdges_yields (done : List Label) (hf : f.InSsa) (hiso : f.PhisIsolated)
    (hb : f.block? l = some b) (hphis : b.phis ≠ []) {ps : List Label} (nodup : ps.Nodup)
    (hps : ∀ p ∈ ps, l ∈ f.graph.next p) (hnew : ∀ p ∈ ps, ¬ E p l)
    (h : f.LoweredAlong E code versions) :
    ∃ r code' versions', (lowerEdges b.phis ps).Yields (f.lowered done code versions) r
      (f.lowered done code' versions') ∧
      f.LoweredAlong (fun q x => E q x ∨ q ∈ ps ∧ x = l) code' versions' := by
  induction ps generalizing E code versions with
  | nil =>
    refine ⟨(0, 0), code, versions, yields_pure _ _, ?_⟩
    simpa using h
  | cons p ps ih =>
    obtain ⟨hp, nodup⟩ := List.nodup_cons.1 nodup
    have hedge := hps p (.head _)
    obtain ⟨c, hc, _⟩ := block_of_mem_next hedge
    have hlabels : ∀ φ ∈ b.phis, p ∈ φ.labels := fun φ hφ =>
      (hf.wf.tidy hb).labels_eq φ hφ ▸ (hf.wf.mem_preds hb).2 hedge
    obtain ⟨r, hfirst⟩ := lowerEdge_yields done code versions hc hlabels
    have hsnoc := h.snoc hf hiso (hnew p (.head _)) hedge hb hphis
    have hnew' : ∀ q ∈ ps, ¬ (E q l ∨ q = p ∧ l = l) := by
      rintro q hq (hE | ⟨rfl, _⟩)
      · exact hnew q (.tail _ hq) hE
      · exact hp hq
    obtain ⟨r', code', versions', hyields, hlowered⟩ :=
      ih nodup (fun q hq => hps q (.tail _ hq)) hnew' hsnoc
    refine ⟨(r.1 + r'.1, r.2 + r'.2), code', versions',
      hfirst.bind (hyields.bind (yields_pure _ _)), ?_⟩
    have hsets : (fun q x => E q x ∨ q ∈ p :: ps ∧ x = l) = fun q x => (E q x ∨ q = p ∧ x = l) ∨
        q ∈ ps ∧ x = l := by
      funext q x
      simp only [List.mem_cons, or_and_right, or_assoc]
    rw [hsets]
    exact hlowered

theorem lowerBlock_yields (hf : f.InSsa) (hiso : f.PhisIsolated) (hl : l ∈ f.blocks)
    (hnew : l ∉ done) (h : f.LoweredAlong (fun _ x => x ∈ done) code versions) :
    ∃ r code' versions', (lowerBlock l).Yields (f.lowered done code versions) r
        (f.lowered (l :: done) code' versions') ∧
      f.LoweredAlong (fun _ x => x ∈ l :: done) code' versions' := by
  obtain ⟨b, hb⟩ := exists_block.1 hl
  have hb' := block?_lowered done code versions hb
  rw [if_neg hnew] at hb'
  generalize hblock : ({ b with instrs := b.instrs ++ copyCode (code l) } : Block) = b' at hb'
  have hget : (f.lowered done code versions).getBlock l = .ok b' := by rw [getBlock, hb']
  have hpreds : b'.preds = b.preds := by rw [← hblock]
  have hphis' : b'.phis = b.phis := by
    have heq : b'.instrs = b.phis.map .phi ++ (b.body ++ copyCode (code l)) := by
      rw [← hblock, ← List.append_assoc, ← (hf.wf.tidy hb).instrs_eq]
    refine (Block.tidy_of_eq heq (fun i hi => ?_) fun φ hφ => ?_).1
    · exact (List.mem_append.1 hi).elim Block.isPhi_of_mem_body isPhi_of_mem_copyCode
    · rw [hpreds]
      exact (hf.wf.tidy hb).labels_eq φ hφ
  by_cases hphis : b.phis = []
  · refine ⟨⟨0, 0, 0, 0⟩, code, versions, ?_, h.known, fun {p x c} hE hp hx hc hne => ?_,
      fun {p} hall => ?_, h.versioned⟩
    · rw [lowered_cons hb (hf.wf.tidy hb) hphis]
      refine (yields_ask hget).bind ?_
      rw [hphis', hphis]
      exact yields_pure _ _
    · rcases List.mem_cons.1 hE with rfl | hE
      · cases hb.symm.trans hc
        exact absurd hphis hne
      · exact h.edge hE hp hx hc hne
    · exact h.none fun x c hE => hall x c (.tail _ hE)
  · obtain ⟨r, code', versions', hyields, hlowered⟩ := lowerEdges_yields done hf hiso hb hphis
      (hf.wf.nodup_preds hb) (fun p hp => (hf.wf.mem_preds hb).1 hp) (fun _ _ => hnew) h
    refine ⟨⟨0, r.1, r.2, b.phis.length⟩, code', versions', (yields_ask hget).bind ?_, ?_⟩
    · have hbody := yields_modify (·.modifyBlock l fun b => { b with instrs := b.body })
        (f.lowered done code' versions')
      rw [modifyBlock_lowered_body hnew] at hbody
      rw [hphis', hpreds, if_neg fun hnil => hphis (List.isEmpty_iff.1 hnil)]
      exact hyields.bind (hbody.bind (yields_pure _ _))
    · refine ⟨hlowered.known, fun {p x c} hE hp hx hc hne => ?_, fun {p} hall => ?_,
        hlowered.versioned⟩
      · refine hlowered.edge ?_ hp hx hc hne
        rcases List.mem_cons.1 hE with rfl | hE
        · exact .inr ⟨(hf.wf.mem_preds hb).2 hx, rfl⟩
        · exact .inl hE
      · refine hlowered.none fun x c hE => hall x c ?_
        rcases hE with hE | ⟨_, rfl⟩
        · exact .tail _ hE
        · exact .head _

theorem lowerBlocks_yields (hf : f.InSsa) (hiso : f.PhisIsolated) {labels : List Label}
    (hlabels : ∀ l ∈ labels, l ∈ f.blocks) (nodup : labels.Nodup) (hnew : ∀ l ∈ labels, l ∉ done)
    (h : f.LoweredAlong (fun _ x => x ∈ done) code versions) :
    ∃ r code' versions', (lowerBlocks labels).Yields (f.lowered done code versions) r
        (f.lowered (labels.reverse ++ done) code' versions') ∧
      f.LoweredAlong (fun _ x => x ∈ labels.reverse ++ done) code' versions' := by
  induction labels generalizing done code versions with
  | nil => exact ⟨⟨0, 0, 0, 0⟩, code, versions, yields_pure _ _, h⟩
  | cons l labels ih =>
    obtain ⟨hl, nodup⟩ := List.nodup_cons.1 nodup
    obtain ⟨r, code₁, versions₁, hfirst, h₁⟩ :=
      lowerBlock_yields hf hiso (hlabels l (.head _)) (hnew l (.head _)) h
    have hnew' : ∀ x ∈ labels, x ∉ l :: done :=
      fun x hx hmem => (List.mem_cons.1 hmem).elim (fun he => hl (he ▸ hx))
      (hnew x (.tail _ hx))
    obtain ⟨r', code', versions', hyields, h'⟩ :=
      ih (fun x hx => hlabels x (.tail _ hx)) nodup hnew' h₁
    rw [List.reverse_cons, List.append_assoc]
    exact ⟨_, code', versions', hfirst.bind (hyields.bind (yields_pure _ _)), h'⟩

end Edit

/-! ## Runs -/

namespace Func

variable {f : Func} {done : List Label} {code : Label → List Copy} {versions : Table String Int}
  {s : Label} {c : Block} {v : Var}

/-- All phis have become copies. -/
structure Lowering (f : Func) (done : List Label) (code : Label →
    List Copy) (versions : Table String Int) : Prop where
  inSsa : f.InSsa
  isolated : f.PhisIsolated
  undefined : f.UndefinedAcyclic
  all : ∀ l ∈ f.blocks, l ∈ done
  along : f.LoweredAlong (fun _ x => x ∈ done) code versions

namespace Lowering

variable {b' : Block}

theorem block? (h : f.Lowering done code versions) (hb : f.block? l = some b) :
    (f.lowered done code versions).block? l
      = some { b with instrs := b.body ++ copyCode (code l) } := by
  rw [block?_lowered done code versions hb, if_pos (h.all l (mem_blocks hb))]

theorem of_block? (h : f.Lowering done code versions)
    (hb' : (f.lowered done code versions).block? l = some b') :
    ∃ b, f.block? l = some b ∧ b' = { b with instrs := b.body ++ copyCode (code l) } := by
  obtain ⟨b, hb, _⟩ := of_block?_rewrite hb'
  exact ⟨b, hb, Option.some.inj (hb'.symm.trans (h.block? hb))⟩

theorem phiFree (h : f.Lowering done code versions) : (f.lowered done code versions).PhiFree := by
  intro l b' hb' i hi
  obtain ⟨b, _, rfl⟩ := h.of_block? hb'
  exact (List.mem_append.1 hi).elim Block.isPhi_of_mem_body isPhi_of_mem_copyCode

theorem graph_eq (f : Func) (done : List Label) (code : Label → List Copy)
    (versions : Table String Int) : (f.lowered done code versions).graph = f.graph :=
  graph_rewrite fun _ _ _ => rfl

theorem wellFormed (h : f.Lowering done code versions) :
    (f.lowered done code versions).WellFormed := by
  have wf : { f with versions }.WellFormed := h.inSsa.wf.congr rfl rfl
  refine wf.rewrite fun l b hb => ⟨rfl, rfl, rfl, id, fun _ => ?_⟩
  exact h.phiFree.tidy (block?_rewrite_of_some _ hb)

/-- The code that can be reached mentions versioned variables only. -/
theorem versioned (h : f.Lowering done code versions) (hl : f.graph.Reachable l)
    (hb' : (f.lowered done code versions).block? l = some b') {n : Node} (hn : n ∈ b'.nodes)
    (hv : v ∈ n.vars) : v.version ≠ none := by
  have form := h.inSsa.form
  obtain ⟨b, hb, rfl⟩ := h.of_block? hb'
  rcases List.mem_append.1 hn with hn | hn
  · obtain ⟨i, hi, rfl⟩ := List.mem_map.1 hn
    rcases List.mem_append.1 hi with hi | hi
    · have hmem := List.mem_of_mem_filter hi
      rcases Node.mem_vars.1 hv with hv | hv
      · exact form.versioned hl ⟨b, hb, mem_destsOf.2 ⟨i, hmem, hv⟩⟩
      · exact form.version_of_availOut hl
          (form.availOut_of_use hl hb hmem (Block.isPhi_of_mem_body hi) hv)
    · obtain ⟨c, hc, rfl⟩ := List.mem_map.1 hi
      obtain ⟨hdest, hsource⟩ := h.along.versioned hl hc
      rcases Node.mem_vars.1 hv with hv | hv
      · cases hv
        exact hdest
      · exact hsource v (List.mem_singleton.1 hv).symm
  · obtain ⟨t, ht, rfl⟩ := List.mem_map.1 hn
    rcases Node.mem_vars.1 hv with hv | hv
    · cases hv
    · exact form.version_of_availOut hl (form.termUse hl hb (Option.mem_toList.1 ht) hv)

end Lowering

/-- A result of a phi that is not 0 was assigned when control came to the phi, on the way to `l`. -/
def PhisPast (f : Func) (l : Label) (env : Env) : Prop :=
  ∀ x c φ, f.graph.Reachable x → f.block? x = some c → φ ∈ c.phis → env.getD φ.dest 0 ≠ 0 →
    f.graph.Leads x l

section PhisPast

variable {env : Env}

/-- An operand that is undefined stands on an edge on which the result of the phi is still 0. -/
theorem PhisPast.eq_zero (h : f.PhisPast l env) (wf : f.WellFormed) (hundef : f.UndefinedAcyclic)
    {φ : Phi} (hs : f.graph.Reachable s) (hedge : s ∈ f.graph.next l) (hc : f.block? s = some c)
    (hφ : φ ∈ c.phis) (hop : φ.operand l = .undefined) : env.getD φ.dest 0 = 0 := by
  by_contra hne
  obtain ⟨a, ha, rfl, hvalue⟩ :=
    Phi.exists_operand ((wf.tidy hc).labels_eq φ hφ ▸ (wf.mem_preds hc).2 hedge)
  exact hundef s c φ a hs hc hφ ha (hvalue.trans hop) (h s c φ hs hc hφ hne)

theorem phisPast_start (form : f.SsaForm) (wf : f.WellFormed) (hssa : f.ssa = true)
    (args : List Int) : f.PhisPast f.entry (bindParams f args) := by
  intro x c φ hx hc hφ hne
  have hparams : f.params.map f.paramVar = f.paramVars := by
    unfold paramVar paramVars
    rw [hssa]
    rfl
  refine absurd (getD_bindParams_of_not_mem (hparams ▸ form.not_param hx ⟨c, hc, ?_⟩) args) hne
  exact mem_destsOf.2 ⟨.phi φ, (wf.tidy hc).phi_mem_iff.2 hφ, rfl⟩

/-- Only a phi assigns its result. -/
theorem PhisPast.write (h : f.PhisPast l env) (form : f.SsaForm) (wf : f.WellFormed)
    (hl : f.graph.Reachable l) (hb : f.block? l = some b) (hi : i ∈ b.body) (n : Int) :
    f.PhisPast l (env.write i.dest? n) := by
  intro x c φ hx hc hφ hne
  by_cases hd : i.dest? = some φ.dest
  · have hphi : f.Defines x φ.dest :=
      ⟨c, hc, mem_destsOf.2 ⟨.phi φ, (wf.tidy hc).phi_mem_iff.2 hφ, rfl⟩⟩
    cases form.apart hx hl hphi ⟨b, hb, mem_destsOf.2 ⟨i, List.mem_of_mem_filter hi, hd⟩⟩
    cases hb.symm.trans hc
    -- The block would define the variable twice.
    have nodup := form.nodup hl hb
    rw [(wf.tidy hb).destsOf_eq, List.nodup_append] at nodup
    exact absurd rfl (nodup.2.2 _ (List.mem_map_of_mem hφ) _ (mem_destsOf.2 ⟨i, hi, hd⟩))
  · rw [Env.getD_write_of_ne hd] at hne
    exact h x c φ hx hc hφ hne

theorem PhisPast.enter (h : f.PhisPast l env) (form : f.SsaForm) (wf : f.WellFormed)
    (hs : f.graph.Reachable s) (hedge : s ∈ f.graph.next l) (hc : f.block? s = some c) :
    f.PhisPast s (env.assign (phiAssignments env l c.phis)) := by
  intro x d φ hx hd hφ hne
  by_cases hmem : φ.dest ∈ c.phis.map (·.dest)
  · have hdef : ∀ {y e}, f.block? y = some e → φ.dest ∈ e.phis.map (·.dest) → f.Defines y φ.dest :=
      fun he hmem => by
      refine ⟨_, he, ?_⟩
      rw [(wf.tidy he).destsOf_eq]
      exact List.mem_append_left _ hmem
    rw [form.apart hx hs (hdef hd (List.mem_map_of_mem hφ)) (hdef hc hmem)]
    exact .refl
  · rw [getD_phiAssignments_of_not_mem hmem] at hne
    exact (h x d φ hx hd hφ hne).tail hedge

end PhisPast

namespace Lowering

variable {env env' : Env}

/-- What relates activations: they are at the same place, and agree on the variables that there
were. -/
inductive Tracks (f : Func) (done : List Label) (code : Label →
    List Copy) (versions : Table String Int) :
    Frame → Frame → Prop
  | mk {l : Label} {b : Block} {pre rest : List Instr} {env env' : Env} : f.graph.Reachable l →
    f.block? l = some b →
    b.body = pre ++ rest → f.PhisPast l env → (∀ v, f.Old v → env'.getD v 0 = env.getD v 0) →
    Tracks f done code versions ⟨f, l, rest, b.term, env⟩
      ⟨f.lowered done code versions, l, rest ++ copyCode (code l), b.term, env'⟩

section

variable (h : f.Lowering done code versions)
include h

/-- The copies for an edge do what the phis do. -/
theorem copies_eq (hl : f.graph.Reachable l) (hedge : s ∈ f.graph.next l) (hc : f.block? s = some c)
    (hphis : c.phis ≠ []) (hpast : f.PhisPast l env)
    (hagree : ∀ v, f.Old v → env'.getD v 0 = env.getD v 0) (hold : f.Old v) :
    (env'.copyAll (code l)).getD v 0 = (env.assign (phiAssignments env l c.phis)).getD v 0 := by
  have hs := hl.step hedge
  obtain ⟨hmade, hother⟩ := h.along.edge (h.all s (mem_blocks hc)) hl hedge hc hphis env'
  have nodup := h.inSsa.form.nodup_phis hs hc (h.inSsa.wf.tidy hc)
  by_cases hv : v ∈ c.phis.map (·.dest)
  · obtain ⟨φ, hφ, rfl⟩ := List.mem_map.1 hv
    rw [getD_phiAssignments env env l nodup hφ]
    by_cases hop : φ.operand l = .undefined
    · -- No copy is made; the variable is 0 as it is.
      have hnot : φ.dest ∉ (phiPairs l c.phis).map Prod.fst := by
        intro hmem
        obtain ⟨p, hp, heq⟩ := List.mem_map.1 hmem
        obtain ⟨ψ, hψ, hdef, rfl⟩ := mem_phiPairs.1 hp
        cases List.inj_on_of_nodup_map nodup hψ hφ heq
        exact hdef hop
      rw [hother _ hold hnot, hagree _ hold, hop]
      exact hpast.eq_zero h.inSsa.wf h.undefined hs hedge hc hφ hop
    · rw [hmade (φ.dest, φ.operand l) (mem_phiPairs.2 ⟨φ, hφ, hop, rfl⟩)]
      exact Env.value_congr fun v hv => hagree v (h.inSsa.counted.old_of_availOut
        (h.inSsa.form.phi_operand_available hl hs hc hφ v hv))
  · rw [getD_phiAssignments_of_not_mem hv, ← hagree v hold]
    refine hother v hold fun hmem => hv ?_
    obtain ⟨p, hp, rfl⟩ := List.mem_map.1 hmem
    obtain ⟨φ, hφ, _, rfl⟩ := mem_phiPairs.1 hp
    exact List.mem_map_of_mem hφ

/-- Blocks are entered without phis. -/
theorem enter_eq (hc : f.block? s = some c) (env : Env) :
    Frame.enter (f.lowered done code versions) env (some l) s
      = .ok ⟨f.lowered done code versions, s, c.body ++ copyCode (code s), c.term, env⟩ := by
  obtain ⟨hphis, hbody, _⟩ := Block.of_phiFree (h.phiFree s _ (h.block? hc))
  have henter := Frame.enter_eq (p := l) (h.block? hc) (by rw [hphis]; simp) env
  rw [hphis, hbody] at henter
  exact henter

/-- A step along an edge to phis: the copies are made first. -/
theorem match_edge {t : Terminator} {w : World} (hl : f.graph.Reachable l)
    (hb : f.block? l = some b) (ht : b.term = some t) (hedge : s ∈ f.graph.next l)
    (hc : f.block? s = some c) (hphis : c.phis ≠ []) (hpast : f.PhisPast l env)
    (hagree : ∀ v, f.Old v → env'.getD v 0 = env.getD v 0) :
    Match AnyPace (fun _ => Tracks f done code versions) ⟨f, l, [], some t, env⟩
      ⟨f.lowered done code versions, l, copyCode (code l), some t, env'⟩ w := by
  have htargets : t.targets = [s] := by
    have hnext : f.graph.next l = t.targets := by rw [next_graph hb, Block.successors, ht]
    refine List.perm_singleton.1
      ((List.perm_ext_iff_of_nodup (nodup_targets t) (List.nodup_singleton s)).2 fun x => ?_)
    rw [← hnext, List.mem_singleton]
    exact ⟨h.isolated s c hc hphis l x hedge, fun hx => hx ▸ hedge⟩
  have hwalks := walks_copyCode (f.lowered done code versions) l (some t) (code l) env' w
  have hstep := Frame.act_goto (t.exit_of_targets htargets env.value)
    (h.inSsa.wf.enter_eq env hc hedge) w
  have hstep' := Frame.act_goto (Terminator.exit_of_targets htargets (env'.copyAll (code l)).value)
    (h.enter_eq (l := l) hc (env'.copyAll (code l))) w
  refine .go trivial (.one hstep) (hwalks.trans (.one hstep')) ?_
  exact .mk (hl.step hedge) hc (List.nil_append _).symm
    (hpast.enter h.inSsa.form h.inSsa.wf (hl.step hedge) hedge hc)
    fun v hold => h.copies_eq hl hedge hc hphis hpast hagree hold

theorem simulation :
    Simulation AnyPace f (f.lowered done code versions) fun _ => Tracks f done code versions where
  start args := by
    obtain ⟨b, hb⟩ := exists_block.1 h.inSsa.wf.entry_mem
    have hb' : (f.lowered done code versions).block? (f.lowered done code versions).entry = _ :=
      h.block? hb
    have hstart' := start_eq hb' args
    rw [(Block.of_phiFree (h.phiFree _ _ hb')).2.1] at hstart'
    refine ⟨_, _, start_eq hb args, hstart', fun _ => ?_⟩
    exact .mk Graph.reachable_entry hb (List.nil_append _).symm
      (phisPast_start h.inSsa.form h.inSsa.wf h.inSsa.ssa args) fun _ _ => rfl
  step fr fr' w hr := by
    have wf := h.inSsa.wf
    have form := h.inSsa.form
    have counted := h.inSsa.counted
    cases hr with
    | @mk l b pre rest env env' hl hb heq hpast hagree =>
      cases rest with
      | cons i rest =>
        have hbody : i ∈ b.body := heq ▸ List.mem_append_right _ (.head _)
        have hi := Block.isPhi_of_mem_body hbody
        have heff : i.effect env'.value w = i.effect env.value w :=
          Instr.effect_congr hi w fun x hx =>
          Env.value_congr fun v hv => hagree v (counted.old_of_availOut
            (form.availOut_of_use hl hb (List.mem_of_mem_filter hbody) hi (hv ▸ hx)))
        have hname : f.name = (f.lowered done code versions).name := rfl
        refine (agree_instr_self hname hi heff fun n => ?_).match pace_any fun _ _ _ hab => hab
        exact .mk hl hb (heq.trans (List.append_cons pre i rest))
          (hpast.write form wf hl hb hbody n)
          fun v hold => Env.getD_write_congr (hagree v hold) i.dest? n
      | nil =>
        obtain ⟨t, ht⟩ := Option.ne_none_iff_exists'.1 (wf.closed hb)
        rw [ht]
        by_cases hphis : ∃ s c, s ∈ f.graph.next l ∧ f.block? s = some c ∧ c.phis ≠ []
        · obtain ⟨s, c, hedge, hc, hphis⟩ := hphis
          exact h.match_edge hl hb ht hedge hc hphis hpast hagree
        · -- No phi follows, so there are no copies.
          have hnone : ∀ s c, s ∈ f.graph.next l → f.block? s = some c → c.phis = [] :=
            fun s c hs hc =>
            Classical.byContradiction fun hne => hphis ⟨s, c, hs, hc, hne⟩
          have hcode : code l = [] := h.along.none fun s c _ hs hc => hnone s c hs hc
          have hexit : t.exit env'.value = t.exit env.value := Terminator.exit_congr fun x hx =>
            Env.value_congr fun v hv =>
              hagree v (counted.old_of_availOut (form.termUse hl hb ht (hv ▸ hx)))
          rw [hcode]
          refine (agree_exit hexit fun s hgoto => ?_).match pace_any fun _ _ _ hab => hab
          have hedge : s ∈ f.graph.next l := by
            rw [next_graph hb, Block.successors, ht]
            exact Terminator.mem_targets_of_exit hgoto
          obtain ⟨c, hc⟩ := wf.block_of_reachable (hl.step hedge)
          have hpast' := hpast.enter form wf (hl.step hedge) hedge hc
          have henter := wf.enter_eq env hc hedge
          rw [hnone s c hedge hc] at henter hpast'
          exact ⟨_, _, henter, h.enter_eq hc env',
            .mk (hl.step hedge) hc (List.nil_append _).symm hpast' hagree⟩

end

end Lowering

end Func

end ThreeAddress

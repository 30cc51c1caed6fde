import ThreeAddress.Proofs.PhiLowering
import ThreeAddress.Proofs.PlainNaming

/-!
# SSA destruction

Edges are split, phis become copies, versions become plain names. `InSsa.leaveSsa` puts the three
parts together; it asks for undefined operands to stand only where no path comes back to their phi,
`leaveSsa_runs` for none at all.
-/

namespace ThreeAddress

namespace Func

variable {f f' : Func}

/-- What SSA destruction leaves: a well-formed function with plain names and no phis, and the same
runs. -/
structure LeavesSsa (f f' : Func) : Prop where
  name_eq : f'.name = f.name
  wf : f'.WellFormed
  ssa : f'.ssa = false
  phiFree : f'.PhiFree
  plain : f'.Plain
  defined : ∀ n ∈ f'.nodes, .undefined ∉ n.uses
  interchangeable : f.Interchangeable f'

/-- Plain names after the phis are gone. -/
theorem Lowering.leavesSsa {done : List Label} {code : Label → List Copy}
    {versions : Table String Int} (h : f.Lowering done code versions) :
    f.LeavesSsa (f.lowered done code versions).named := by
  have hssa : (f.lowered done code versions).ssa = true := h.inSsa.ssa
  have nodup : (f.lowered done code versions).params.Nodup := h.inSsa.form.params_nodup
  have lockstep := h.phiFree.named_lockstep h.wellFormed hssa nodup fun hl hb' hn hv =>
    h.versioned (Lowering.graph_eq f done code versions ▸ hl) hb' hn hv
  obtain ⟨hplain, hdefined⟩ := plain_named (f.lowered done code versions)
  exact ⟨rfl, h.wellFormed.named h.phiFree, rfl, named_phiFree h.phiFree, hplain, hdefined,
    (h.simulation.interchangeable pace_any).trans lockstep.interchangeable⟩

theorem InSsa.leaveSsa (hf : f.InSsa) (hundef : f.UndefinedAcyclic) :
    ∃ r f', Edit.leaveSsa.Yields f r f' ∧ f.LeavesSsa f' := by
  obtain ⟨splits, f₁, hisolate, hsplits, hiso⟩ := Edit.isolatePhis_yields hf (fun l hl => hl)
    fun l b hb _ hl => absurd (mem_blocks hb) hl
  have hstart : f₁.LoweredAlong (fun _ x => x ∈ []) (fun _ => []) f₁.versions := by
    simpa using f₁.loweredAlong_start
  obtain ⟨r, code, versions, hlower, hlowered⟩ :=
    Edit.lowerBlocks_yields hsplits.inSsa hiso (fun l hl => hl)
    f₁.blocks.nodup_keys (fun l _ => List.not_mem_nil) hstart
  rw [lowered_start] at hlower
  have lowering : f₁.Lowering (f₁.blocks.keys.reverse ++ []) code versions :=
    ⟨hsplits.inSsa, hiso, hsplits.undefined hundef,
      fun l hl => List.mem_append_left _ (List.mem_reverse.2 hl), hlowered⟩
  have hleaves := lowering.leavesSsa
  refine ⟨{ r with splitEdges := splits }, _, (Edit.yields_get f).bind ?_,
    { hleaves with
      name_eq := hleaves.name_eq.trans hsplits.name_eq
      interchangeable := hsplits.interchangeable.trans hleaves.interchangeable }⟩
  rw [hf.ssa]
  refine hisolate.bind ((Edit.yields_get f₁).bind (hlower.bind ((Edit.yields_modify _ _).bind ?_)))
  exact (Edit.yields_emit _ _).bind (Edit.yields_pure _ _)

/-- Two variables that change places in each round, with an edge into the loop that needs a block of
its own. -/
def swapLoop : Func where
  name := "main"
  params := ["a", "b"]
  ssa := true
  versions := Table.ofList [("a", 1), ("b", 1), ("t", 1)]
  blocks := Table.ofList [
    ("entry", { name := "entry", term := some (.branch (.var ⟨"a", some 0⟩) "loop" "done") }),
    ("loop",
      { name := "loop", preds := ["entry", "loop"],
        term := some (.branch (.var ⟨"t", some 1⟩) "loop" "done"),
               instrs := [.phi ⟨⟨"a", some 1⟩,
                 [⟨"entry", .var ⟨"a", some 0⟩⟩, ⟨"loop", .var ⟨"b", some 1⟩⟩]⟩,
                          .phi ⟨⟨"b", some 1⟩,
                            [⟨"entry", .var ⟨"b", some 0⟩⟩, ⟨"loop", .var ⟨"a", some 1⟩⟩]⟩,
                          .write (.var ⟨"a", some 1⟩), .read ⟨"t", some 1⟩] }),
    ("done", { name := "done", preds := ["entry", "loop"], term := some (.ret none) })]

/-- Any function in SSA form whose counters know all versions and whose phis have no undefined
operands can be taken out of SSA form. The result passes the check of the graph and has no phis, no
versions and no undefined operands; and whatever program the function is in, a run that ends within
its budget ends alike, given enough steps, with the result in its place. -/
theorem leaveSsa_runs (f : Func) (hssa : f.checkSsa = .ok ()) (hcount : f.Counted)
    (hdefined : ∀ b ∈ f.blockList, ∀ φ ∈ b.phis, ∀ a ∈ φ.incoming, a.value ≠ .undefined) :
    ∃ r f', Edit.leaveSsa.Yields f r f' ∧ f'.checkCfg = .ok () ∧ f'.ssa = false ∧ f'.PhiFree ∧
      f'.Plain ∧ (∀ n ∈ f'.nodes, .undefined ∉ n.uses) ∧
      ∀ p p' key, Replaces p p' key f f' → ∀ spec,
        (p.run spec).Finished → p'.Settles spec (p.run spec).ending := by
  have hf : f.InSsa := ⟨isSsa_iff.2 hssa, hcount⟩
  have hundef : f.UndefinedAcyclic := fun l b φ a _ hb hφ ha hvalue =>
    absurd hvalue (hdefined b (Table.mem_values.2 ⟨l, hb⟩) φ hφ a ha)
  obtain ⟨r, f', hyields, hleaves⟩ := hf.leaveSsa hundef
  refine ⟨r, f', hyields, checkCfg_eq_ok.2 hleaves.wf, hleaves.ssa, hleaves.phiFree, hleaves.plain,
    hleaves.defined, fun p p' key rep spec hfin =>
    (hleaves.interchangeable p p' key rep).settles hfin⟩

theorem leaveSsa_runs_swapLoop :
    ∃ r f', Edit.leaveSsa.Yields swapLoop r f' ∧ f'.checkCfg = .ok () ∧ f'.ssa = false ∧
      f'.PhiFree ∧ f'.Plain ∧
      (∀ n ∈ f'.nodes, .undefined ∉ n.uses) ∧ ∀ p p' key, Replaces p p' key swapLoop f' →
        ∀ spec, (p.run spec).Finished → p'.Settles spec (p.run spec).ending :=
  leaveSsa_runs swapLoop rfl (by decide) (by decide)

/-- Both edges into the loop are split; the swap takes a temporary. -/
example : (Edit.leaveSsa swapLoop).result.toOption = some ⟨2, 5, 1, 2⟩ := by
  rfl

end Func

end ThreeAddress

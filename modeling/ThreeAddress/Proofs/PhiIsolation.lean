import ThreeAddress.Proofs.EdgeBlocks
import ThreeAddress.Ssa.Destruction

/-!
# Edges of their own for phis

Before phis become copies, each edge into a block with phis gets a source that leads nowhere else.
Every split is a detour, so the function stays in SSA form and runs as before
(`isolatePhis_yields`).
-/

namespace ThreeAddress

variable {l : Label}

namespace Func

variable {f f' f'' : Func}

/-- A block that leads to `l` leads nowhere else. -/
def Isolated (f : Func) (l : Label) : Prop := ∀ p x, l ∈ f.graph.next p → x ∈ f.graph.next p → x = l

/-- All blocks with phis are isolated. -/
def PhisIsolated (f : Func) : Prop := ∀ l b, f.block? l = some b → b.phis ≠ [] → f.Isolated l

/-- What splitting edges keeps. -/
structure SplitsTo (f f' : Func) : Prop where
  name_eq : f'.name = f.name
  inSsa : f'.InSsa
  undefined : f.UndefinedAcyclic → f'.UndefinedAcyclic
  interchangeable : f.Interchangeable f'
  mem : ∀ l ∈ f.blocks, l ∈ f'.blocks
  phis : ∀ l b', f'.block? l = some b' → b'.phis ≠ [] → ∃ b, f.block? l = some b ∧ b.phis ≠ []
  isolated : ∀ l ∈ f.blocks, f.Isolated l → f'.Isolated l

theorem SplitsTo.refl (hf : f.InSsa) : f.SplitsTo f :=
  ⟨rfl, hf, id, hf.wf.delays_self.interchangeable, fun _ => id, fun _ b hb hphis => ⟨b, hb, hphis⟩,
    fun _ _ => id⟩

theorem SplitsTo.trans (h : f.SplitsTo f') (h' : f'.SplitsTo f'') : f.SplitsTo f'' where
  name_eq := h'.name_eq.trans h.name_eq
  inSsa := h'.inSsa
  undefined hf := h'.undefined (h.undefined hf)
  interchangeable := h.interchangeable.trans h'.interchangeable
  mem l hl := h'.mem l (h.mem l hl)
  phis l b'' hb'' hphis := by
    obtain ⟨b', hb', hphis'⟩ := h'.phis l b'' hb'' hphis
    exact h.phis l b' hb' hphis'
  isolated l hl hiso := h'.isolated l (h.mem l hl) (h.isolated l hl hiso)

/-- One edge is split. -/
theorem InSsa.splitsTo (hf : f.InSsa) {p : Label} {c : Block} (hc : f.block? l = some c)
    (hedge : l ∈ f.graph.next p) : f.SplitsTo ((f.edgeDetour p l none c).apply f) := by
  have fits := hf.wf.edgeDetour_fits hc hedge none
  have det := fits.detours hf.wf
  refine ⟨rfl, fits.inSsa hf, fits.undefinedAcyclic hf.wf, fits.interchangeable hf, fun x hx => ?_,
    fun x b' hb' hphis => ?_, fun x hx hiso q y hq hy => ?_⟩
  · obtain ⟨b, hb⟩ := exists_block.1 hx
    exact mem_blocks (Detour.block?_of_block? fits.fresh hb)
  · rcases Detour.of_block?_apply fits.fresh hb' with ⟨rfl, rfl⟩ | ⟨b, hb, rfl⟩
    · exact absurd rfl hphis
    · refine ⟨b, hb, fun hnil => hphis ?_⟩
      have hforall := (fits.block_spec hf.wf hb).2.2.2.2
      rw [hnil] at hforall
      exact List.forall₂_nil_left_iff.1 hforall
  · by_cases hqm : q = (f.edgeDetour p l none c).label
    · rw [hqm, det.next_new, List.mem_singleton] at hq hy
      exact hy.trans hq.symm
    · have hxm : x ≠ (f.edgeDetour p l none c).label := fun he => fits.fresh (he ▸ hx)
      obtain ⟨hq, hsplit⟩ := ((det.mem_next q x hqm).1 hq).resolve_right fun h => hxm h.1
      rcases (det.mem_next q y hqm).1 hy with ⟨hy, _⟩ | ⟨_, hs⟩
      · exact hiso q y hq hy
      · -- The source leads to both ends of the split edge, so they are the same.
        refine absurd ⟨hs, ?_⟩ hsplit
        exact (hiso q l hq (fits.source q hs)).symm

end Func

namespace Edit

open Func

variable {f : Func}

/-- The edges that are left to split are those from `ps`. -/
theorem splitForPhis_yields {ps : List Label} (hf : f.InSsa) (hl : l ∈ f.blocks) (nodup : ps.Nodup)
    (hps : ∀ p ∈ ps, l ∈ f.graph.next p)
    (hrest : ∀ p, p ∉ ps → l ∈ f.graph.next p → ∀ x ∈ f.graph.next p, x = l) :
    ∃ n f', (splitForPhis l ps).Yields f n f' ∧ f.SplitsTo f' ∧ f'.Isolated l := by
  induction ps generalizing f with
  | nil =>
    exact ⟨0, f, yields_pure 0 f, .refl hf, fun p x hp hx => hrest p List.not_mem_nil hp x hx⟩
  | cons p ps ih =>
    obtain ⟨hp, nodup⟩ := List.nodup_cons.1 nodup
    have hedge := hps p (.head _)
    obtain ⟨b, hb, hsucc⟩ := block_of_mem_next hedge
    have hget : f.getBlock p = .ok b := by rw [getBlock, hb]
    by_cases hmany : b.successors.length > 1
    · obtain ⟨c, hc⟩ := exists_block.1 hl
      have fits := hf.wf.edgeDetour_fits hc hedge none
      have det := fits.detours hf.wf
      have hfirst := hf.splitsTo hc hedge
      have hlm : l ≠ (f.edgeDetour p l none c).label := Detour.ne_label fits.fresh hc
      have hps₁ : ∀ q ∈ ps, l ∈ ((f.edgeDetour p l none c).apply f).graph.next q := by
        intro q hq
        obtain ⟨e, he, _⟩ := block_of_mem_next (hps q (.tail _ hq))
        refine (det.mem_next q l (Detour.ne_label fits.fresh he)).2 (.inl ⟨hps q (.tail _ hq),
          fun hs => ?_⟩)
        exact hp (List.mem_singleton.1 hs.1 ▸ hq)
      have hrest₁ : ∀ q, q ∉ ps → l ∈ ((f.edgeDetour p l none c).apply f).graph.next q →
          ∀ x ∈ ((f.edgeDetour p l none c).apply f).graph.next q, x = l := by
        intro q hq hql x hx
        by_cases hqm : q = (f.edgeDetour p l none c).label
        · rw [hqm, det.next_new, List.mem_singleton] at hx
          exact hx
        · obtain ⟨hql, hsplit⟩ := ((det.mem_next q l hqm).1 hql).resolve_right fun h => hlm h.1
          have hqp : q ≠ p := fun he => hsplit ⟨List.mem_singleton.2 he, rfl⟩
          obtain ⟨hx, _⟩ := ((det.mem_next q x hqm).1 hx).resolve_right fun h =>
            hqp (List.mem_singleton.1 h.2)
          exact hrest q (fun hmem => (List.mem_cons.1 hmem).elim hqp hq) hql x hx
      obtain ⟨n, f', hyields, hsplits, hiso⟩ := ih hfirst.inSsa (hfirst.mem l hl) nodup hps₁ hrest₁
      refine ⟨n + 1, f', (yields_ask hget).bind ?_, hfirst.trans hsplits, hiso⟩
      rw [if_pos hmany]
      exact (splitEdge_yields hc hedge none).bind (hyields.bind (yields_pure _ f'))
    · have honly : b.successors = [l] := by
        obtain ⟨x, hx⟩ := List.length_eq_one_iff.1
          (Nat.le_antisymm (Nat.not_lt.1 hmany) (List.length_pos_of_mem hsucc))
        rw [hx, List.mem_singleton] at hsucc
        rw [hx, hsucc]
      obtain ⟨n, f', hyields, hsplits, hiso⟩ := ih hf hl nodup (fun q hq => hps q (.tail _ hq))
        fun q hq hql x hx => by
          by_cases hqp : q = p
          · rw [hqp, next_graph hb, honly, List.mem_singleton] at hx
            exact hx
          · exact hrest q (fun hmem => (List.mem_cons.1 hmem).elim hqp hq) hql x hx
      refine ⟨n, f', (yields_ask hget).bind ?_, hsplits, hiso⟩
      rw [if_neg hmany]
      exact hyields

/-- The blocks that are left to look at are `labels`. -/
theorem isolatePhis_yields {labels : List Label} (hf : f.InSsa)
    (hlabels : ∀ l ∈ labels, l ∈ f.blocks)
    (hrest : ∀ l b, f.block? l = some b → b.phis ≠ [] → l ∉ labels → f.Isolated l) :
    ∃ n f', (isolatePhis labels).Yields f n f' ∧ f.SplitsTo f' ∧ f'.PhisIsolated := by
  induction labels generalizing f with
  | nil =>
    exact ⟨0, f, yields_pure 0 f, .refl hf, fun l b hb hphis => hrest l b hb hphis List.not_mem_nil⟩
  | cons l labels ih =>
    obtain ⟨b, hb⟩ := exists_block.1 (hlabels l (.head _))
    have hget : f.getBlock l = .ok b := by rw [getBlock, hb]
    obtain ⟨n, f₁, hfirst, hsplits, hiso⟩ : ∃ n f₁,
        (if b.phis.isEmpty then pure 0 else splitForPhis l b.preds : Edit Nat).Yields f n f₁ ∧
        f.SplitsTo f₁ ∧
          (b.phis ≠ [] → f₁.Isolated l) := by
      by_cases hphis : b.phis = []
      · refine ⟨0, f, ?_, .refl hf, fun h => absurd hphis h⟩
        rw [hphis]
        exact yields_pure 0 f
      · obtain ⟨n, f₁, hyields, hsplits, hiso⟩ :=
          splitForPhis_yields hf (mem_blocks hb) (hf.wf.nodup_preds hb)
          (fun p hp => (hf.wf.mem_preds hb).1 hp) fun p hp hedge =>
            absurd ((hf.wf.mem_preds hb).2 hedge) hp
        refine ⟨n, f₁, ?_, hsplits, fun _ => hiso⟩
        rw [if_neg fun h => hphis (List.isEmpty_iff.1 h)]
        exact hyields
    obtain ⟨m, f', hyields, hsplits', hall⟩ := ih hsplits.inSsa
      (fun x hx => hsplits.mem x (hlabels x (.tail _ hx))) fun x b' hb' hphis hx => by
        obtain ⟨c, hc, hcphis⟩ := hsplits.phis x b' hb' hphis
        by_cases hxl : x = l
        · subst hxl
          cases hb.symm.trans hc
          exact hiso hcphis
        · exact hsplits.isolated x (mem_blocks hc)
            (hrest x c hc hcphis fun hmem => (List.mem_cons.1 hmem).elim hxl hx)
    refine ⟨n + m, f', (yields_ask hget).bind (Yields.ite_bind ?_), hsplits.trans hsplits', hall⟩
    exact hfirst.bind (hyields.bind (yields_pure _ f'))

end Edit

end ThreeAddress

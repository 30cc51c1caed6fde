import ThreeAddress.Proofs.LoopMotion
import ThreeAddress.Proofs.LoopNesting
import ThreeAddress.Proofs.Varying

/-!
# Moving code makes no constants

A function that varies still does when invariant code is moved out of a loop (`Moves.varies`). A
solution for the result is one for the function before: code that is moved to a preheader is looked
at wherever the loop runs, and a phi in a new preheader merges operands that differ.
-/

namespace ThreeAddress

open Constancy

variable {l p : Label} {b : Block} {t : Terminator} {σ : Guess} {x : Operand} {φ : Phi}

/-! ## Solutions -/

/-- What a solution says of a phi is below each operand that arrives along an edge that runs. -/
theorem Guess.Solves.phi_operand {f : Func} (hσ : σ.Solves f) (wf : f.WellFormed) (hl : σ.runs l)
    (hb : f.block? l = some b) (hφ : φ ∈ b.phis) (hnext : l ∈ f.graph.next p) (hgoes : σ.goes p l) :
    (σ.value φ.dest).Below (σ.known (φ.operand p)) := by
  have hlabel : p ∈ φ.labels := (wf.tidy hb).labels_eq φ hφ ▸ (wf.mem_preds hb).2 hnext
  obtain ⟨a, ha, rfl, hval⟩ := Phi.exists_operand hlabel
  rw [← hval]
  exact hσ.phi hl hb hφ ha hgoes

/-- What is below two operands that differ varies, if variables do. -/
theorem Guess.eq_bottom_of_operands {c : Constancy} {y : Operand} (hne : x ≠ y)
    (hx : ∀ v, x = .var v → σ.value v = .bottom) (hy : ∀ v, y = .var v → σ.value v = .bottom)
    (hcx : c.Below (σ.known x)) (hcy : c.Below (σ.known y)) : c = .bottom := by
  have hliteral : ∀ {z}, (∀ v, z = .var v → σ.value v = .bottom) → c.Below (σ.known z) →
      c = .bottom ∨ ∃ n, z = .const n := by
    intro z hz hcz
    cases z with
    | const n => exact .inr ⟨n, rfl⟩
    | undefined => exact .inl (eq_bottom_of_below hcz)
    | var v => exact .inl (eq_bottom_of_below (hz v rfl ▸ hcz))
  rcases hliteral hx hcx with hbottom | ⟨n, rfl⟩
  · exact hbottom
  rcases hliteral hy hcy with hbottom | ⟨m, rfl⟩
  · exact hbottom
  cases c with
  | bottom => rfl
  | top => cases eq_top_of_below hcx
  | const k =>
    rcases of_const_below hcx with hk | hk
    · cases hk
    rcases of_const_below hcy with hk' | hk'
    · cases hk'
    exact absurd (congrArg Operand.const
      ((Constancy.const.inj hk).trans (Constancy.const.inj hk').symm)) hne

theorem Terminator.follow_retarget {known : Operand → Constancy} {x : Label} (old new : Label)
    (h : x ∈ t.follow known) :
    (if x = old then new else x) ∈ (t.retarget old new).follow known := by
  cases t with
  | jump y =>
    cases List.mem_singleton.1 h
    exact .head _
  | ret v => cases h
  | branch c y z =>
    cases hc : known c with
    | top => simp [follow, hc] at h
    | const n =>
      simp only [follow, hc, List.mem_singleton] at h
      by_cases hn : n = 0 <;> simp [follow, retarget, hc, h, hn]
    | bottom =>
      simp only [follow, hc, List.mem_cons, List.not_mem_nil, or_false] at h
      rcases h with rfl | rfl <;> simp [follow, retarget, hc]

/-! ## Moved code -/

namespace Func.Hoist

variable {f : Func} {header : Label} {body : List Label} {sites : List Site}

/-- A solution with the code moved is one without. -/
theorem solves (h : f.Hoist p header body sites) (hσ : σ.Solves (f.hoisted p body (codeOf sites))) :
    σ.Solves f where
  other v hv := by
    refine hσ.other v fun l hl => ?_
    obtain ⟨b', hb', hd⟩ := hl
    obtain ⟨b, hb, rfl⟩ := of_block?_rewrite hb'
    obtain ⟨i, hi, hd⟩ := mem_destsOf.1 hd
    rcases mem_moveCode.1 hi with ⟨hi, _⟩ | ⟨_, hi⟩
    · exact hv l ⟨b, hb, mem_destsOf.2 ⟨i, hi, hd⟩⟩
    · obtain ⟨a, _, hdef⟩ := h.exists_home (mem_destsOf.2 ⟨i, hi, hd⟩)
      exact hv a hdef
  entry := hσ.entry
  edge := hσ.edge
  dominator hl hmem ha := hσ.dominator hl (mem_rewrite.2 hmem) (by rwa [graph_eq])
  phi {l b φ a} hl hb hφ ha hgoes := by
    refine hσ.phi hl (block?_rewrite_of_some _ hb) ?_ ha hgoes
    rw [(h.hoisted_spec hb).1]
    exact hφ
  instr {l b i d} hl hb hi hd := by
    by_cases hmoved : l ∈ body ∧ i ∈ codeOf sites
    · -- The preheader dominates the loop, so it runs as well.
      obtain ⟨c, hc⟩ := h.inSsa.wf.block_of_reachable h.preheads.preheader_reachable
      have hp : σ.runs p := hσ.dominator hl (mem_rewrite.2 (mem_blocks hc)) (by
        rw [graph_eq]
        exact (h.preheads.strictlyDominates hmoved.1).2)
      refine hσ.instr hp (block?_rewrite_of_some _ hc) ?_ hd
      rw [(h.hoisted_spec hc).2.1]
      exact mem_moveCode.2 (.inr ⟨rfl, hmoved.2⟩)
    · refine hσ.instr hl (block?_rewrite_of_some _ hb) ?_ hd
      rw [(h.hoisted_spec hb).2.1]
      exact mem_moveCode.2 (.inl ⟨hi, fun hl hmem => hmoved ⟨hl, hmem⟩⟩)
  term {l b t x} hl hb ht hx := hσ.term hl (block?_rewrite_of_some _ hb) ht hx

theorem varies (h : f.Hoist p header body sites) (hf : f.Varies) :
    (f.hoisted p body (codeOf sites)).Varies where
  branch {l b c t e} hb' ht n := by
    obtain ⟨b, hb, rfl⟩ := of_block?_rewrite hb'
    exact hf.branch hb ht n
  value {σ} hσ l v _ := hf.value_eq (h.solves hσ) v

end Func.Hoist

/-! ## New preheaders -/

namespace Detour

variable {d : Detour} {f : Func} {τ : Guess} {v : Var}

/-- What a guess for the function with the detour says of the function without. -/
def guess (d : Detour) (τ : Guess) : Guess where
  value v := if v ∈ d.merges.map (·.dest) then .bottom else τ.value v
  runs l := l ≠ d.label ∧ τ.runs l
  goes p l := l ≠ d.label ∧ if p ∈ d.sources ∧ l = d.target then τ.goes p d.label else τ.goes p l

section

variable (h : d.Fits f)
include h

theorem Fits.not_merge (hv : f.Old v) : v ∉ d.merges.map (·.dest) := by
  intro hmem
  obtain ⟨ψ, hψ, rfl⟩ := List.mem_map.1 hmem
  obtain ⟨n, hn, hlt, _⟩ := h.merge_new ψ hψ
  have := hv n hn
  omega

theorem Fits.value_guess (hv : f.Old v) : (d.guess τ).value v = τ.value v :=
  if_neg (h.not_merge hv)

theorem Fits.known_guess (hx : ∀ v, x = .var v → f.Old v) : (d.guess τ).known x = τ.known x := by
  cases x with
  | var v => exact h.value_guess (hx v rfl)
  | _ => rfl

/-- Control that comes to the new block goes on to the target. -/
theorem Fits.goes_target (hτ : τ.Solves (d.apply f)) (hp : τ.goes p d.label) :
    τ.goes d.label d.target :=
  hτ.term (hτ.edge hp) (block?_label h.fresh) rfl (.head _)

/-- What a solution says of a phi is below its operands, those that the new block merges among
them. -/
theorem Fits.phi_below (wf : f.WellFormed) (hτ : τ.Solves (d.apply f)) (hl : τ.runs l)
    (hb : f.block? l = some b) (hφ : φ ∈ b.phis) (hnext : l ∈ f.graph.next p)
    (hgoes : if p ∈ d.sources ∧ l = d.target then τ.goes p d.label else τ.goes p l) :
    (τ.value φ.dest).Below (τ.known (φ.operand p)) := by
  have det := h.detours wf
  have wf' := h.wellFormed wf
  have hb' := block?_of_block? h.fresh hb
  have hpm : p ≠ d.label := by
    obtain ⟨c, hc, _⟩ := Func.block_of_mem_next hnext
    exact ne_label h.fresh hc
  split at hgoes
  · rename_i hsource
    obtain ⟨hp, rfl⟩ := hsource
    obtain ⟨φ', hφ', fits⟩ := exists_of_forall₂ (h.head_phis hb).flip hφ
    have hlast := hτ.phi_operand wf' hl hb' hφ'
      (by rw [det.next_new]; exact List.mem_singleton_self _)
      (h.goes_target hτ hgoes)
    rw [fits.dest_eq] at hlast
    rcases fits.joined with hsame | ⟨ψ, hψ, heq, hψop⟩
    · rwa [hsame p hp] at hlast
    · rw [heq] at hlast
      have hfirst := hτ.phi_operand wf' (hτ.edge hgoes) (block?_label h.fresh)
        (by rw [(d.middle_spec h.merge_labels).1]; exact hψ)
          ((det.mem_next p d.label hpm).2 (.inr ⟨rfl, hp⟩)) hgoes
      rw [hψop p hp] at hfirst
      exact hlast.trans hfirst
  · rename_i hsource
    obtain ⟨φ', hφ', hdest, hoperand⟩ := exists_of_forall₂ (h.block_spec wf hb).2.2.2.2.flip hφ
    have hbelow := hτ.phi_operand wf' hl hb' hφ' ((det.mem_next p l hpm).2 (.inl ⟨hnext, hsource⟩))
      hgoes
    rwa [hdest, hoperand p hpm hsource] at hbelow

/-- Where a terminator leads, control goes, if need be by the new block. -/
theorem Fits.goes_of_follow (wf : f.WellFormed) (hτ : τ.Solves (d.apply f)) {x : Label}
    (hl : τ.runs l) (hb : f.block? l = some b) (ht : b.term = some t) (hx : x ∈ t.follow τ.known) :
    if l ∈ d.sources ∧ x = d.target then τ.goes l d.label else τ.goes l x := by
  have hb' := block?_of_block? h.fresh hb
  have hterm := (h.block_spec wf hb).2.2.2.1
  rw [ht] at hterm
  by_cases hs : l ∈ d.sources
  · rw [if_pos hs] at hterm
    have hgoes := hτ.term hl hb' hterm (Terminator.follow_retarget d.target d.label hx)
    by_cases hx : x = d.target
    · rw [if_pos hx] at hgoes
      rwa [if_pos ⟨hs, hx⟩]
    · rw [if_neg hx] at hgoes
      rwa [if_neg fun hsx => hx hsx.2]
  · rw [if_neg hs] at hterm
    rw [if_neg fun hsx => hs hsx.1]
    exact hτ.term hl hb' hterm hx

/-- A solution with the detour is one without. -/
theorem Fits.solves (hf : f.InSsa) (hreach : ∀ l ∈ f.blocks, f.graph.Reachable l)
    (hτ : τ.Solves (d.apply f)) : (d.guess τ).Solves f where
  other v hv := by
    show (if _ then _ else _) = _
    split
    · rfl
    · rename_i hmerge
      refine hτ.other v fun l hl => ?_
      rcases h.of_defines hf.wf hl with ⟨_, hmem⟩ | ⟨_, hdef⟩
      · exact hmerge hmem
      · exact hv l hdef
  entry := ⟨(h.detours hf.wf).entry_ne, hτ.entry⟩
  edge {p l} hgoes := by
    obtain ⟨hl, hgoes⟩ := hgoes
    refine ⟨hl, ?_⟩
    split at hgoes
    · rename_i hsource
      rw [hsource.2]
      exact hτ.edge (h.goes_target hτ hgoes)
    · exact hτ.edge hgoes
  dominator {a l} hl hmem ha := by
    obtain ⟨b, hb⟩ := Func.exists_block.1 hmem
    refine ⟨ne_label h.fresh hb,
      hτ.dominator hl.2 (Func.mem_blocks (block?_of_block? h.fresh hb)) ?_⟩
    exact (h.detours hf.wf).dominates hl.1 ha
  phi {l b φ a} hl hb hφ ha hgoes := by
    have hlr := hreach l (Func.mem_blocks hb)
    obtain ⟨hvalue, hnext⟩ := hf.wf.operand_of_mem hb hφ ha
    obtain ⟨c, hc, _⟩ := Func.block_of_mem_next hnext
    have hold : ∀ v, a.value = .var v → f.Old v := fun v hv =>
      hf.counted.old_of_availOut (hf.form.phiUse hlr hb hφ ha (hreach _ (Func.mem_blocks hc)) hv)
    have hdest : f.Old φ.dest := hf.counted.old_of_availOut (l := l)
      (.inr ⟨b, hb, mem_destsOf.2 ⟨_, (hf.wf.tidy hb).phi_mem_iff.2 hφ, rfl⟩⟩)
    rw [h.value_guess hdest, h.known_guess hold, ← hvalue]
    exact h.phi_below hf.wf hτ hl.2 hb hφ hnext hgoes.2
  instr {l b i v} hl hb hi hv := by
    have hlr := hreach l (Func.mem_blocks hb)
    have hmem : i ∈ b.instrs := (hf.wf.tidy hb).instrs_eq ▸ List.mem_append_right _ hi
    have hdest : f.Old v :=
      hf.counted.old_of_availOut (l := l) (.inr ⟨b, hb, mem_destsOf.2 ⟨_, hmem, hv⟩⟩)
    have hbelow := hτ.instr hl.2 (block?_of_block? h.fresh hb)
      (by rw [(h.block_spec hf.wf hb).2.1]; exact hi) hv
    rw [h.value_guess hdest]
    refine hbelow.trans (Instr.fold_mono fun x hx => ?_)
    rw [h.known_guess fun w hw => ?_]
    · exact meet_self _
    · exact hf.counted.old_of_availOut (hf.form.availOut_of_use hlr hb hmem (b.isPhi_of_mem_body hi)
        (hw ▸ hx))
  term {l b t x} hl hb ht hx := by
    have hlr := hreach l (Func.mem_blocks hb)
    have hfollow : x ∈ t.follow τ.known := Terminator.follow_mono (fun y hy => by
      rw [h.known_guess fun w hw =>
        hf.counted.old_of_availOut (hf.form.termUse hlr hb ht (hw ▸ hy))]
      exact meet_self _) hx
    have hnext : x ∈ f.graph.next l := by
      rw [Func.next_graph hb, Block.successors, ht]
      exact Terminator.mem_targets_of_follow hfollow
    have hxm : x ≠ d.label := fun he => h.fresh (he ▸ hf.wf.mem_of_next hnext)
    exact ⟨hxm, h.goes_of_follow hf.wf hτ hl.2 hb ht hfollow⟩

theorem Fits.branch (wf : f.WellFormed) (hf : f.Varies) {c : Operand} {t e : Label}
    (hb' : (d.apply f).block? l = some b) (ht : b.term = some (.branch c t e)) (n : Int) :
    c ≠ .const n := by
  rcases of_block?_apply h.fresh hb' with ⟨_, rfl⟩ | ⟨b, hb, rfl⟩
  · cases ht
  · rw [(h.block_spec wf hb).2.2.2.1] at ht
    split at ht
    · obtain ⟨t₀, ht₀, heq⟩ := Option.map_eq_some_iff.1 ht
      cases t₀ with
      | branch c t e =>
        cases heq
        exact hf.branch hb ht₀ n
      | jump y => cases heq
      | ret v => cases heq
    · exact hf.branch hb ht n

/-- A detour whose phis merge operands that differ leaves nothing that could be known. -/
theorem Fits.varies (hf : f.InSsa) (hreach : ∀ l ∈ f.blocks, f.graph.Reachable l)
    (hvaries : f.Varies)
    (hdiffer : ∀ ψ ∈ d.merges, ∃ p ∈ d.sources, ∃ q ∈ d.sources, ψ.operand p ≠ ψ.operand q) :
    (d.apply f).Varies where
  branch hb ht := h.branch hf.wf hvaries hb ht
  value {τ} hτ l v hv := by
    have hσ := h.solves hf hreach hτ
    have hold : ∀ {v}, f.Old v → τ.value v = .bottom := fun hv => by
      rw [← h.value_guess hv]
      exact hvaries.value_eq hσ _
    rcases h.of_defines hf.wf hv with ⟨_, hv⟩ | ⟨_, hv⟩
    · obtain ⟨ψ, hψ, rfl⟩ := List.mem_map.1 hv
      obtain ⟨c, φ, hc, hφ, hφop⟩ := h.merge_source ψ hψ
      -- All edges from the sources run, and what is not a literal varies.
      have hbelow : ∀ p ∈ d.sources, (τ.value ψ.dest).Below (τ.known (ψ.operand p)) := by
        intro p hp
        have hnext := h.source p hp
        obtain ⟨b, hb, _⟩ := Func.block_of_mem_next hnext
        have hpr := hreach p (Func.mem_blocks hb)
        have hgoes := (hvaries.goes hσ (hvaries.runs hσ hpr) hnext).2
        rw [if_pos ⟨hp, rfl⟩] at hgoes
        refine hτ.phi_operand (h.wellFormed hf.wf) (hτ.edge hgoes)
          (block?_label h.fresh) ?_ ?_ hgoes
        · rw [(d.middle_spec h.merge_labels).1]
          exact hψ
        · exact ((h.detours hf.wf).mem_next p _ ((h.detours hf.wf).source_ne p hp)).2
            (.inr ⟨rfl, hp⟩)
      have hvar : ∀ p ∈ d.sources, ∀ w, ψ.operand p = .var w → τ.value w = .bottom := by
        intro p hp w hw
        obtain ⟨b, hb, _⟩ := Func.block_of_mem_next (h.source p hp)
        have hpr := hreach p (Func.mem_blocks hb)
        refine hold (hf.counted.old_of_availOut (l := p) ?_)
        exact hf.form.phi_operand_available hpr (hpr.step (h.source p hp)) hc hφ w
          ((hφop p hp).symm.trans hw)
      obtain ⟨p, hp, q, hq, hne⟩ := hdiffer ψ hψ
      exact Guess.eq_bottom_of_operands hne (hvar p hp) (hvar q hq) (hbelow p hp) (hbelow q hq)
    · exact hold (hf.counted.old_of_availOut (.inr hv))

/-- With a detour from blocks that can be reached, all blocks still can. -/
theorem Fits.reachable (wf : f.WellFormed) (hreach : ∀ l ∈ f.blocks, f.graph.Reachable l)
    (hl : l ∈ (d.apply f).blocks) : (d.apply f).graph.Reachable l := by
  have det := h.detours wf
  obtain ⟨b', hb'⟩ := Func.exists_block.1 hl
  rcases of_block?_apply h.fresh hb' with ⟨rfl, _⟩ | ⟨b, hb, _⟩
  · obtain ⟨p, hp⟩ := List.exists_mem_of_ne_nil _ h.nonempty
    obtain ⟨b, hb, _⟩ := Func.block_of_mem_next (h.source p hp)
    refine (det.reachable_of_reachable (hreach p (Func.mem_blocks hb))).step ?_
    exact (det.mem_next p _ (det.source_ne p hp)).2 (.inr ⟨rfl, hp⟩)
  · exact det.reachable_of_reachable (hreach l (Func.mem_blocks hb))

end

end Detour

/-- The phis for a preheader merge operands that differ. -/
theorem splitHeaderPhis_differ (loop : List Label) (label : Label) (instrs : List Instr)
    (versions : Table String Int) :
    ∀ ψ ∈ (splitHeaderPhis loop label instrs versions).merges,
      ∃ a ∈ ψ.incoming, ∃ c ∈ ψ.incoming, a.value ≠ c.value := by
  induction instrs generalizing versions with
  | nil => exact fun ψ hψ => by cases hψ
  | cons i instrs ih =>
    cases i with
    | phi φ =>
      cases hfilter : φ.incoming.filter fun a => decide (a.block ∉ loop) with
      | nil =>
        simp only [splitHeaderPhis, hfilter]
        exact fun ψ hψ => by cases hψ
      | cons a more =>
        cases hsame : more.all fun c => decide (c.value = a.value) with
        | true =>
          simp only [splitHeaderPhis, hfilter, hsame, if_true]
          exact ih versions
        | false =>
          simp only [splitHeaderPhis, hfilter, hsame, Bool.false_eq_true, if_false]
          refine List.forall_mem_cons.2 ⟨?_, ih _⟩
          obtain ⟨c, hc, hne⟩ := List.all_eq_false.1 hsame
          exact ⟨c, .tail _ hc, a, .head _, by simpa using hne⟩
    | _ => exact fun ψ hψ => by cases hψ

namespace Func

variable {f f' : Func} {d : Dominators} {loop : Loop} {sites : List Site} {made : Bool}

theorem WellFormed.preheaderDetour_differ (wf : f.WellFormed) {header : Label} {body : List Label}
    {head : Block} (hhead : f.block? header = some head) (houtside : ∃ p ∈ head.preds, p ∉ body) :
    ∀ ψ ∈ (f.preheaderDetour header body head).merges,
      ∃ p ∈ (f.preheaderDetour header body head).sources,
      ∃ q ∈ (f.preheaderDetour header body head).sources, ψ.operand p ≠ ψ.operand q := by
  intro ψ hψ
  have fits := wf.preheaderDetour_fits hhead houtside
  obtain ⟨a, ha, c, hc, hne⟩ := splitHeaderPhis_differ _ _ _ _ ψ hψ
  have hlabels := fits.merge_labels ψ hψ
  have nodup : ψ.labels.Nodup := hlabels ▸ fits.nodup
  refine ⟨a.block, hlabels ▸ List.mem_map_of_mem ha, c.block, hlabels ▸ List.mem_map_of_mem hc, ?_⟩
  rwa [Phi.operand_of_mem nodup ha, Phi.operand_of_mem nodup hc]

theorem Moves.reachable (h : f.Moves loop sites made f') (wf : f.WellFormed)
    (hreach : ∀ l ∈ f.blocks, f.graph.Reachable l) : ∀ l ∈ f'.blocks, f'.graph.Reachable l := by
  intro l hl
  cases h with
  | there h =>
    rw [Hoist.graph_eq]
    exact hreach l (mem_rewrite.1 hl)
  | made hhead houtside h =>
    rw [Hoist.graph_eq]
    exact (wf.preheaderDetour_fits hhead houtside).reachable wf hreach (mem_rewrite.1 hl)

/-- Moving code out of a loop makes nothing constant. -/
theorem Moves.varies (h : f.Moves loop sites made f') (hf : f.InSsa)
    (hreach : ∀ l ∈ f.blocks, f.graph.Reachable l) (hvaries : f.Varies) : f'.Varies := by
  cases h with
  | there h => exact h.varies hvaries
  | made hhead houtside h =>
    exact h.varies ((hf.wf.preheaderDetour_fits hhead houtside).varies hf hreach hvaries
      (hf.wf.preheaderDetour_differ hhead houtside))

end Func

namespace Hoists

variable {f f' : Func} {done : List Label}

theorem reachable (h : Hoists done f f') (hf : f.InSsa) (hentry : ¬ f.EntryIsTarget)
    (hreach : ∀ l ∈ f.blocks, f.graph.Reachable l) : ∀ l ∈ f'.blocks, f'.graph.Reachable l := by
  induction h with
  | stop _ => exact hreach
  | skip _ _ _ _ ih => exact ih hf hentry hreach
  | move _ _ hmoves _ ih =>
    have hfirst := hmoves.improves hf hentry
    exact ih hfirst.inSsa hfirst.entry (hmoves.reachable hf.wf hreach)

/-- Moving code out of all loops makes nothing constant. -/
theorem varies (h : Hoists done f f') (hf : f.InSsa) (hentry : ¬ f.EntryIsTarget)
    (hreach : ∀ l ∈ f.blocks, f.graph.Reachable l) (hvaries : f.Varies) : f'.Varies := by
  induction h with
  | stop _ => exact hvaries
  | skip _ _ _ _ ih => exact ih hf hentry hreach hvaries
  | move _ _ hmoves _ ih =>
    have hfirst := hmoves.improves hf hentry
    exact ih hfirst.inSsa hfirst.entry (hmoves.reachable hf.wf hreach)
      (hmoves.varies hf hreach hvaries)

end Hoists

end ThreeAddress

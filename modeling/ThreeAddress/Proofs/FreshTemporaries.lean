import ThreeAddress.Proofs.CopyCycles
import ThreeAddress.Proofs.FreshVersions

/-!
# Fresh temporaries

When phis become copies, a cycle of copies needs a temporary, which is a fresh version of the
destination that it saves. `Func.Saves f g temps` says that the phis of `f` have become copies in
`g` with the temporaries `temps`: they are drawn from the counters of `f`, and each is the result of
a copy, which stays when the phis go. So the temporaries are exactly the variables that occur in `g`
and not in `f` (`Saves.occurs_iff`). It holds along each edge, each block and the whole of SSA
destruction, and the reported count is that of the temporaries.
-/

namespace ThreeAddress

variable {t : Temporaries} {P : Var → Prop} {copies : List Copy} {p : Label}

/-! ## Sequences of copies -/

section Sequences

variable {σ : Type} {fresh : Var → σ → Var × σ} {pending : List Copy} {ds : List Var}

/-- The copies mention what the pending ones mention, and temporaries. -/
theorem Sequences.only {s s' : σ} (h : Sequences fresh pending s ds copies s')
    (hpending : ∀ c ∈ pending, (Node.instr (.copy c.1 c.2)).Only P) :
    ∀ c ∈ copies, (Node.instr (.copy c.1 c.2)).Only fun v => P v ∨ v ∈ temporaries fresh ds s := by
  induction h generalizing P with
  | done => exact List.forall_mem_nil _
  | @make pre post copies ds c s s' _ _ ih =>
    have hsub : pre ++ post ⊆ pre ++ c :: post :=
      ((List.sublist_cons_self c post).append_left pre).subset
    refine List.forall_mem_cons.2 ⟨?_, ih fun c' hc' => hpending c' (hsub hc')⟩
    exact (hpending c (List.mem_append_right _ (.head _))).imp fun v hv => .inl hv
  | @save pending copies ds d s s' _ hd _ ih =>
    have hsaved : P d := by
      obtain ⟨c, hc, rfl⟩ := List.mem_map.1 hd
      exact (Node.only_copy.1 (hpending c hc)).1
    refine List.forall_mem_cons.2 ⟨Node.only_copy.2 ⟨.inr (.head _), fun v hv => ?_⟩,
      fun c hc => ?_⟩
    · cases hv
      exact .inl hsaved
    · have hredirect : ∀ c ∈ redirect d (fresh d s).1 pending,
          (Node.instr (.copy c.1 c.2)).Only fun v => P v ∨ v = (fresh d s).1 := by
        intro c hc
        obtain ⟨c₀, hc₀, heq⟩ := List.mem_map.1 hc
        refine Node.only_copy.2 ⟨.inl ?_, fun v hv => ?_⟩
        · exact heq ▸ (Node.only_copy.1 (hpending c₀ hc₀)).1
        · rcases source_of_mem_redirect hc hv with rfl | ⟨_, c₁, hc₁, hv⟩
          · exact .inr rfl
          · exact .inl ((Node.only_copy.1 (hpending c₁ hc₁)).2 v hv)
      refine (ih hredirect c hc).imp fun v hv => ?_
      rcases hv with (hv | rfl) | hv
      · exact .inl hv
      · exact .inr (.head _)
      · exact .inr (.tail _ hv)

/-- The counters know what they knew and the temporaries, which are counted. -/
theorem Sequences.knows {t' : Temporaries}
    (h : Sequences Temporaries.fresh pending t ds copies t') :
    (∀ v, t.Knows v → t'.Knows v) ∧ (∀ v ∈ temporaries Temporaries.fresh ds t, t'.Knows v) ∧
      t'.count = t.count + (temporaries Temporaries.fresh ds t).length := by
  induction h with
  | done => exact ⟨fun v hv => hv, List.forall_mem_nil _, rfl⟩
  | make _ _ ih => exact ih
  | @save pending copies ds d t t' _ _ _ ih =>
    obtain ⟨hmono, htemps, hcount⟩ := ih
    refine ⟨fun v hv => hmono v (hv.fresh d), List.forall_mem_cons.2 ⟨hmono _ (t.knows_fresh d),
      htemps⟩, ?_⟩
    rw [hcount, temporaries, List.length_cons]
    simp only [Temporaries.fresh]
    omega

end Sequences

theorem only_phiCopies {φs : List Phi} (hφs : ∀ φ ∈ φs, (Node.instr (.phi φ)).Only P)
    (h : phiCopies p φs = .ok copies) : ∀ c ∈ copies, (Node.instr (.copy c.1 c.2)).Only P := by
  intro c hc
  obtain ⟨φ, hφ, a, ha, rfl⟩ := mem_of_phiCopies h hc
  obtain ⟨hdest, hincoming⟩ := Node.only_phi.1 (hφs φ hφ)
  exact Node.only_copy.2 ⟨hdest, hincoming a ha⟩

theorem destsOf_copyCode (copies : List Copy) :
    destsOf (copyCode copies) = copies.map Prod.fst := by
  rw [destsOf, copyCode, List.filterMap_map]
  exact List.filterMap_eq_map' ▸ rfl

theorem destsOf_body_append (b : Block) (copies : List Copy) :
    destsOf (Block.body { b with instrs := b.instrs ++ copyCode copies }) = destsOf b.body ++
      copies.map Prod.fst := by
  have hcopies : (copyCode copies).filter (!·.isPhi) = copyCode copies :=
    List.filter_eq_self.2 fun i hi => by rw [isPhi_of_mem_copyCode hi]; rfl
  rw [Block.body, List.filter_append, destsOf_append, hcopies, destsOf_copyCode]
  rfl

/-! ## Functions -/

namespace Func

variable {f g : Func} {temps more : List Var} {v : Var}

/-- Some instruction that is no phi has the result `v`. -/
def Computes (f : Func) (v : Var) : Prop := ∃ l b, f.block? l = some b ∧ v ∈ destsOf b.body

theorem Computes.occurs (h : f.Computes v) : f.Occurs v := by
  obtain ⟨l, b, hb, hv⟩ := h
  obtain ⟨i, hi, hdest⟩ := mem_destsOf.1 hv
  exact (Node.only_iff.1 ((f.only_occurs.code hb).instrs i (List.mem_of_mem_filter hi))).1 v hdest

theorem Computes.modifyBlock (h : f.Computes v) (l : Label) {k : Block → Block}
    (hk : ∀ b, destsOf b.body ⊆ destsOf (k b).body) : (f.modifyBlock l k).Computes v := by
  obtain ⟨x, b, hb, hv⟩ := h
  by_cases hx : x = l
  · refine ⟨x, k b, ?_, hk b hv⟩
    rw [block?_modifyBlock, if_pos hx, hb]
    rfl
  · refine ⟨x, b, ?_, hv⟩
    rw [block?_modifyBlock, if_neg hx, hb]

/-- `g` makes copies for phis of `f`, with the temporaries `temps`. -/
structure Saves (f g : Func) (temps : List Var) : Prop extends f.Draws g temps where
  results : ∀ v ∈ temps, g.Computes v

/-- The temporaries are what is new. -/
theorem Saves.occurs_iff (h : f.Saves g temps) (hf : f.Only f.Old) (v : Var) :
    v ∈ temps ↔ g.Occurs v ∧ ¬ f.Occurs v := by
  constructor
  · exact fun hv => ⟨(h.results v hv).occurs, h.not_occurs hf hv⟩
  · rintro ⟨hg, hnot⟩
    exact (only_iff.1 h.only v hg).resolve_left hnot

/-- The counters know what the copies for phis mention. -/
theorem Saves.old (h : f.Saves g temps) (hf : f.Only f.Old) (hv : f.Occurs v ∨ v ∈ temps) :
    g.Old v := by
  rcases hv with hv | hv
  · exact h.mono v (only_iff.1 hf v hv)
  · exact (h.fresh v hv).2

/-- Copies at the end of a block, with the temporaries that they need. -/
theorem Saves.appendCopies (h : f.Saves g temps) {b : Block} {pending : List Copy} {ds : List Var}
    (hb : g.block? p = some b)
    (hseq : Sequences Temporaries.fresh pending ⟨g.versions, 0⟩ ds copies t)
    (hpending : ∀ c ∈ pending, (Node.instr (.copy c.1 c.2)).Only fun v => f.Occurs v ∨ v ∈ temps) :
    f.Saves ({ g with versions := t.versions }.modifyBlock p fun b =>
      { b with instrs := b.instrs ++ copyCode copies })
      (temps ++ temporaries Temporaries.fresh ds ⟨g.versions, 0⟩) := by
  obtain ⟨hmono, hknows, _⟩ := hseq.knows
  obtain ⟨nodup, hnot⟩ := Temporaries.temporaries_fresh ds ⟨g.versions, 0⟩
  refine ⟨h.extend ?_ hmono (fun v hv => ⟨hnot v hv, hknows v hv⟩) nodup, fun v hv => ?_⟩
  · have hcode := h.only.imp fun v hv =>
      hv.imp_right (List.mem_append_left (temporaries Temporaries.fresh ds ⟨g.versions, 0⟩))
    have hcounted : Only _ { g with versions := t.versions } := ⟨hcode.code, hcode.params⟩
    refine hcounted.modifyBlock p fun b hb => (hcode.code hb).setInstrs fun i hi => ?_
    rcases List.mem_append.1 hi with hi | hi
    · exact (hcode.code hb).instrs i hi
    · obtain ⟨c, hc, rfl⟩ := List.mem_map.1 hi
      refine (hseq.only hpending c hc).imp fun v hv => ?_
      rw [List.mem_append, ← or_assoc]
      exact hv
  · rcases List.mem_append.1 hv with hv | hv
    · refine Computes.modifyBlock (h.results v hv) p fun b => ?_
      rw [destsOf_body_append]
      exact List.subset_append_left _ _
    · refine ⟨p, { b with instrs := b.instrs ++ copyCode copies }, ?_, ?_⟩
      · rw [block?_modifyBlock, if_pos rfl]
        exact congrArg (Option.map _) hb
      · rw [destsOf_body_append]
        exact List.mem_append_right _ (hseq.perm.mem_iff.2 (List.mem_append_right _ hv))

/-- The phis of a block go. -/
theorem Saves.dropPhis (h : f.Saves g temps) (l : Label) :
    f.Saves (g.modifyBlock l fun b => { b with instrs := b.body }) temps where
  only := h.only.modifyBlock l fun b hb => (h.only.code hb).setInstrs fun i hi =>
    (h.only.code hb).instrs i (List.mem_of_mem_filter hi)
  mono := h.mono
  fresh := h.fresh
  nodup := h.nodup
  results v hv := by
    refine (h.results v hv).modifyBlock l fun b x hx => ?_
    have hbody : Block.body { b with instrs := b.body } = b.body := by
      rw [Block.body, Block.body, List.filter_filter]
      simp
    rwa [hbody]

end Func

namespace Edit

open Func

variable {f g g' : Func} {temps : List Var} {φs : List Phi} {r : Nat × Nat} {d : Destruction}

theorem Yields.saves_of_lowerEdge (h : (lowerEdge φs p).Yields g r g') (hsaves : f.Saves g temps)
    (hf : f.Only f.Old)
    (hφs : ∀ φ ∈ φs, (Node.instr (.phi φ)).Only fun v => f.Occurs v ∨ v ∈ temps) :
    ∃ more, more.length = r.2 ∧ f.Saves g' (temps ++ more) := by
  obtain ⟨pairs, _, ⟨hpairs, rfl⟩, h⟩ := h.of_bind
  have h := (yields_get _).after h
  have h := (yields_modify _ _).after h
  obtain ⟨b, _, ⟨hb, rfl⟩, h⟩ := h.of_bind
  have h := (yields_modify _ _).after h
  obtain ⟨rfl, rfl⟩ := (yields_pure _ _).unique h
  have honly := only_phiCopies hφs hpairs
  have hcovers : Temporaries.Covers ⟨g.versions, 0⟩ pairs :=
    ⟨fun c hc => hsaves.old hf (Node.only_copy.1 (honly c hc)).1, fun c hc v hv =>
      hsaves.old hf ((Node.only_copy.1 (honly c hc)).2 v hv)⟩
  obtain ⟨⟨ds, hseq⟩, _⟩ := sequences_sequenceCopies hcovers.supplies
  refine ⟨_, (hseq.knows.2.2.trans (Nat.zero_add _)).symm, ?_⟩
  exact hsaves.appendCopies (getBlock_eq_ok hb) hseq fun c hc => honly c (List.mem_of_mem_filter hc)

theorem Yields.saves_of_lowerEdges {preds : List Label} (h : (lowerEdges φs preds).Yields g r g')
    (hsaves : f.Saves g temps) (hf : f.Only f.Old)
    (hφs : ∀ φ ∈ φs, (Node.instr (.phi φ)).Only fun v => f.Occurs v ∨ v ∈ temps) :
    ∃ more, more.length = r.2 ∧ f.Saves g' (temps ++ more) := by
  induction preds generalizing g temps r with
  | nil =>
    obtain ⟨rfl, rfl⟩ := (yields_pure _ _).unique h
    exact ⟨[], rfl, by rwa [List.append_nil]⟩
  | cons p preds ih =>
    obtain ⟨r₁, g₁, hfirst, h⟩ := h.of_bind
    obtain ⟨r₂, g₂, hrest, h⟩ := h.of_bind
    obtain ⟨rfl, rfl⟩ := (yields_pure _ _).unique h
    obtain ⟨more, hmore, hsaves₁⟩ := hfirst.saves_of_lowerEdge hsaves hf hφs
    obtain ⟨more', hmore', hsaves₂⟩ := ih hrest hsaves₁ fun φ hφ =>
      (hφs φ hφ).imp fun v hv => hv.imp_right (List.mem_append_left _)
    exact ⟨more ++ more', by rw [List.length_append, hmore, hmore'], by rwa [← List.append_assoc]⟩

theorem Yields.saves_of_lowerBlock {l : Label} (h : (lowerBlock l).Yields g d g')
    (hsaves : f.Saves g temps) (hf : f.Only f.Old) :
    ∃ more, more.length = d.temporaries ∧ f.Saves g' (temps ++ more) := by
  obtain ⟨b, _, ⟨hb, rfl⟩, h⟩ := h.of_bind
  split at h
  · obtain ⟨rfl, rfl⟩ := (yields_pure _ _).unique h
    exact ⟨[], rfl, by rwa [List.append_nil]⟩
  · obtain ⟨r, g₁, hedges, h⟩ := h.of_bind
    have h := (yields_modify _ _).after h
    obtain ⟨rfl, rfl⟩ := (yields_pure _ _).unique h
    obtain ⟨more, hmore, hsaves₁⟩ := hedges.saves_of_lowerEdges hsaves hf fun φ hφ =>
      (hsaves.only.code (getBlock_eq_ok hb)).phis hφ
    exact ⟨more, hmore, hsaves₁.dropPhis l⟩

theorem Yields.saves_of_lowerBlocks {labels : List Label} (h : (lowerBlocks labels).Yields g d g')
    (hsaves : f.Saves g temps) (hf : f.Only f.Old) :
    ∃ more, more.length = d.temporaries ∧ f.Saves g' (temps ++ more) := by
  induction labels generalizing g temps d with
  | nil =>
    obtain ⟨rfl, rfl⟩ := (yields_pure _ _).unique h
    exact ⟨[], rfl, by rwa [List.append_nil]⟩
  | cons l labels ih =>
    obtain ⟨d₁, g₁, hfirst, h⟩ := h.of_bind
    obtain ⟨d₂, g₂, hrest, h⟩ := h.of_bind
    obtain ⟨rfl, rfl⟩ := (yields_pure _ _).unique h
    obtain ⟨more, hmore, hsaves₁⟩ := hfirst.saves_of_lowerBlock hsaves hf
    obtain ⟨more', hmore', hsaves₂⟩ := ih hrest hsaves₁
    exact ⟨more ++ more', by rw [List.length_append, hmore, hmore'], by rwa [← List.append_assoc]⟩

/-- The steps of SSA destruction, and its temporaries. -/
theorem Yields.temporaries (h : leaveSsa.Yields f d g) (hf : f.Only f.Old) :
    ∃ (splits : Nat) (f₁ : Func) (lowered : Destruction) (f₂ : Func) (temps : List Var),
      (isolatePhis f.blocks.keys).Yields f splits f₁ ∧
      (lowerBlocks f₁.blocks.keys).Yields f₁ lowered f₂ ∧ g = f₂.named ∧ temps.Nodup ∧
      temps.length = d.temporaries ∧
      ∀ v, v ∈ temps ↔ f₂.Occurs v ∧ ¬ f.Occurs v := by
  have h := (yields_get f).after h
  dsimp only at h
  split at h
  · obtain ⟨_, _, hfail, _⟩ := h.of_bind
    cases hfail.1
  · obtain ⟨splits, f₁, hsplit, h⟩ := h.of_bind
    have h := (yields_get f₁).after h
    obtain ⟨lowered, f₂, hlower, h⟩ := h.of_bind
    have h := (yields_modify _ _).after h
    have h := (yields_emit _ _).after h
    obtain ⟨rfl, rfl⟩ := (yields_pure _ _).unique h
    have hstart : f.Saves f₁ [] :=
      ⟨(isolatePhis_within f.blocks.keys (.refl f) hsplit).1.draws, List.forall_mem_nil _⟩
    obtain ⟨temps, hlength, hsaves⟩ := hlower.saves_of_lowerBlocks hstart hf
    exact ⟨splits, f₁, lowered, f₂, temps, hsplit, hlower, rfl, hsaves.nodup, hlength,
      hsaves.occurs_iff hf⟩

end Edit

end ThreeAddress

import ThreeAddress.Proofs.SsaForm

/-!
# SSA form on paths

The check of SSA form works with dominator sets and places in blocks. `Func.SsaOnPaths` says what it
decides without either: no value has two definitions in code that can be reached, and whatever path
control takes from the entry to a use, it has passed the definition of the value before.
`checkSsa_iff_onPaths` is the equivalence.

From paths to dominance: all paths to a use pass some definition, there is only one, so all pass the
same block. Were it the block of the use itself, a path without detours would pass it only once, and
after the use.
-/

namespace ThreeAddress

namespace Func

variable {l : Label} {v : Var} {xs : List Label} {k : Nat}

/-- A place that defines a value: a parameter, or an instruction of a block. -/
inductive DefSite where
  | param (k : Nat)
  | instr (l : Label) (k : Nat)

/-- The place defines `v`. Parameters count as values with version 0, and blocks that cannot be
reached do not count. -/
def DefinedAt (f : Func) (v : Var) : DefSite → Prop
  | .param k => f.paramVars[k]? = some v
  | .instr l k => f.graph.Reachable l ∧ ∃ b i, f.block? l = some b ∧ b.instrs[k]? = some i ∧
    i.dest? = some v

/-- `v` is used before the instruction at index `k` of block `l`, or at the end of the block: by the
instruction itself, by the terminator, or by a phi that control enters from `l`. The block of the
use and the predecessor of a phi have to be reachable. -/
inductive UsedAt (f : Func) (v : Var) : Label → Nat → Prop
  | instr {l : Label} {b : Block} {k : Nat} {i : Instr} : f.graph.Reachable l →
    f.block? l = some b →
      b.instrs[k]? = some i → i.isPhi = false → .var v ∈ i.uses → UsedAt f v l k
  | term {l : Label} {b : Block} {t : Terminator} : f.graph.Reachable l → f.block? l = some b →
    b.term = some t →
      .var v ∈ t.uses → UsedAt f v l b.instrs.length
  | phi {l : Label} {b c : Block} {φ : Phi} {a : PhiArg} : f.graph.Reachable l →
    f.block? l = some b →
      .phi φ ∈ b.instrs → a ∈ φ.incoming → f.graph.Reachable a.block → f.block? a.block = some c →
      a.value = .var v → UsedAt f v a.block c.instrs.length

/-- The values that a path has defined which went through the blocks `xs`, the latest first. -/
def definedAlong (f : Func) (xs : List Label) : List Var :=
  f.paramVars ++ xs.reverse.flatMap fun l => destsOf ((f.block? l).elim [] Block.instrs)

/-- SSA form, said of all paths. -/
structure SsaOnPaths (f : Func) : Prop where
  unique : ∀ {v s s'}, f.DefinedAt v s → f.DefinedAt v s' → s = s'
  versioned : ∀ {v s}, f.DefinedAt v s → v.version ≠ none
  use_versioned : ∀ {v l k}, f.UsedAt v l k → v.version ≠ none
  defined : ∀ {v l k b xs}, f.UsedAt v l k → f.block? l = some b → f.graph.Trail (l :: xs) l →
    v ∈ f.definedAlong xs ∨ v ∈ destsOf (b.instrs.take k)

variable {f : Func}

/-! ## Definitions -/

theorem mem_definedAlong : v ∈ f.definedAlong xs ↔ v ∈ f.paramVars ∨ ∃ a ∈ xs, f.Defines a v := by
  rw [definedAlong, List.mem_append, List.mem_flatMap]
  refine or_congr_right (exists_congr fun a => and_congr List.mem_reverse ?_)
  cases hb : f.block? a with
  | none => simp [Defines, hb, destsOf]
  | some b => exact (defines_iff hb).symm

/-- Instructions define different variables if no two of them define the same. -/
theorem nodup_destsOf {instrs : List Instr} : (destsOf instrs).Nodup ↔
    ∀ (k k' : Nat) (i i' : Instr) (v : Var), instrs[k]? = some i → instrs[k']? = some i' →
      i.dest? = some v →
      i'.dest? = some v → k = k' := by
  rw [destsOf, List.Nodup, List.pairwise_filterMap, List.pairwise_iff_getElem]
  constructor
  · intro h k k' i i' v hk hk' hi hi'
    obtain ⟨hlt, rfl⟩ := List.getElem?_eq_some_iff.1 hk
    obtain ⟨hlt', rfl⟩ := List.getElem?_eq_some_iff.1 hk'
    rcases Nat.lt_trichotomy k k' with hkk | rfl | hkk
    · exact absurd rfl (h k k' hlt hlt' hkk v hi v hi')
    · rfl
    · exact absurd rfl (h k' k hlt' hlt hkk v hi' v hi)
  · rintro h k k' hlt hlt' hkk v hi v' hi' rfl
    have := h k k' _ _ v (List.getElem?_eq_getElem hlt) (List.getElem?_eq_getElem hlt') hi hi'
    omega

theorem definedAt_of_defines (hl : f.graph.Reachable l) (h : f.Defines l v) :
    ∃ k, f.DefinedAt v (.instr l k) := by
  obtain ⟨b, hb, hv⟩ := h
  obtain ⟨i, hi, hd⟩ := mem_destsOf.1 hv
  obtain ⟨k, hk⟩ := List.mem_iff_getElem?.1 hi
  exact ⟨k, hl, b, i, hb, hk, hd⟩

theorem DefinedAt.defines (h : f.DefinedAt v (.instr l k)) : f.Defines l v := by
  obtain ⟨_, b, i, hb, hk, hd⟩ := h
  exact ⟨b, hb, mem_destsOf.2 ⟨i, List.mem_of_getElem? hk, hd⟩⟩

theorem definedAt_of_mem_paramVars (h : v ∈ f.paramVars) : ∃ k, f.DefinedAt v (.param k) :=
  List.mem_iff_getElem?.1 h

theorem DefinedOnce.unique (once : f.DefinedOnce) {s s' : DefSite} (h : f.DefinedAt v s)
    (h' : f.DefinedAt v s') : s = s' := by
  cases s with
  | param k =>
    have hparam : v ∈ f.paramVars := List.mem_of_getElem? h
    cases s' with
    | param k' =>
      obtain ⟨hlt, _⟩ := List.getElem?_eq_some_iff.1 h
      rw [(List.getElem?_inj hlt (nodup_paramVars.2 once.params_nodup)).1 (h.trans h'.symm)]
    | instr l k' => exact absurd hparam (once.not_param h'.1 h'.defines)
  | instr l k =>
    cases s' with
    | param k' => exact absurd (List.mem_of_getElem? h') (once.not_param h.1 h.defines)
    | instr l' k' =>
      have hll : l = l' := once.apart h.1 h'.1 h.defines h'.defines
      subst hll
      obtain ⟨hl, b, i, hb, hk, hi⟩ := h
      obtain ⟨_, b', i', hb', hk', hi'⟩ := h'
      cases hb.symm.trans hb'
      rw [nodup_destsOf.1 (once.nodup hl hb) k k' i i' v hk hk' hi hi']

/-- At most one definition of each value, said of blocks and said of places. -/
theorem definedOnce_of_unique (unique : ∀ {v s s'}, f.DefinedAt v s → f.DefinedAt v s' → s = s')
    (versioned : ∀ {v s}, f.DefinedAt v s → v.version ≠ none) : f.DefinedOnce where
  params_nodup := by
    rw [← nodup_paramVars, List.nodup_iff_getElem?_ne_getElem?]
    intro k k' hlt hlt' heq
    have hget := List.getElem?_eq_getElem hlt'
    have h : DefSite.param k = .param k' := unique (v := f.paramVars[k']) (heq.trans hget) hget
    injection h with h
    omega
  versioned hl hv := by
    obtain ⟨k, hk⟩ := definedAt_of_defines hl hv
    exact versioned hk
  not_param hl hv hp := by
    obtain ⟨k, hk⟩ := definedAt_of_defines hl hv
    obtain ⟨k', hk'⟩ := definedAt_of_mem_paramVars hp
    cases unique hk hk'
  nodup {l b} hl hb := nodup_destsOf.2 fun k k' i i' v hk hk' hi hi' => by
    have h : DefSite.instr l k = .instr l k' := unique (v := v) ⟨hl, b, i, hb, hk, hi⟩ ⟨hl, b, i',
      hb, hk', hi'⟩
    injection h
  apart hl hl' hv hv' := by
    obtain ⟨k, hk⟩ := definedAt_of_defines hl hv
    obtain ⟨k', hk'⟩ := definedAt_of_defines hl' hv'
    have h := unique hk hk'
    injection h

/-! ## Uses -/

/-- What dominance makes available, every path has defined. -/
theorem AvailIn.mem_definedAlong (h : f.AvailIn l v) (hxs : f.graph.Trail (l :: xs) l) :
    v ∈ f.definedAlong xs := by
  rw [Func.mem_definedAlong]
  refine h.imp_right fun ⟨a, hdom, hdef⟩ => ⟨a, ?_, hdef⟩
  exact (List.mem_cons.1 (hdom.2 _ hxs)).resolve_left hdom.1

/-- What every path has defined, dominance makes available. -/
theorem DefinedOnce.availIn_of_paths (once : f.DefinedOnce) {here : List Var}
    (hl : f.graph.Reachable l)
    (h : ∀ xs, f.graph.Trail (l :: xs) l → v ∈ f.definedAlong xs ∨ v ∈ here) :
    f.AvailIn l v ∨ v ∈ here := by
  by_cases hparam : v ∈ f.paramVars
  · exact .inl (.inl hparam)
  by_cases hhere : v ∈ here
  · exact .inr hhere
  have hpath : ∀ xs, f.graph.Trail (l :: xs) l → ∃ a ∈ xs, f.Defines a v := fun xs hxs =>
    (mem_definedAlong.1 ((h xs hxs).resolve_right hhere)).resolve_left hparam
  obtain ⟨ys, hys⟩ := hl
  obtain ⟨zs, hzs, nodup, -⟩ := hys.simple
  obtain ⟨xs, rfl⟩ := hzs.exists_cons
  obtain ⟨home, hhome, hdef⟩ := hpath xs hzs
  have hreach : f.graph.Reachable home := hzs.reachable_of_mem (.tail _ hhome)
  refine .inl (.inr ⟨home, ⟨?_, fun ws hws => ?_⟩, hdef⟩)
  · rintro rfl
    exact (List.nodup_cons.1 nodup).1 hhome
  · obtain ⟨ws, rfl⟩ := hws.exists_cons
    obtain ⟨a, ha, hdef'⟩ := hpath ws hws
    have hmem : a ∈ l :: ws := .tail _ ha
    exact once.apart (hws.reachable_of_mem hmem) hreach hdef' hdef ▸ hmem

/-- What a use reads in SSA form is available. -/
theorem SsaForm.available (form : f.SsaForm) (wf : f.WellFormed) (h : f.UsedAt v l k) {b : Block}
    (hb : f.block? l = some b) : f.AvailIn l v ∨ v ∈ destsOf (b.instrs.take k) := by
  have hend : ∀ {l b}, f.block? l = some b → f.AvailOut l v →
      f.AvailIn l v ∨ v ∈ destsOf (b.instrs.take b.instrs.length) := by
    intro l b hb hout
    rw [List.take_length]
    exact hout.imp_right (defines_iff hb).1
  cases h with
  | @instr _ b' _ i hl hb' hk hphi hv =>
    cases hb.symm.trans hb'
    obtain ⟨hlt, hi⟩ := List.getElem?_eq_some_iff.1 hk
    have hsplit : b.instrs = b.instrs.take k ++ i :: b.instrs.drop (k + 1) := by
      rw [← hi, List.getElem_cons_drop, List.take_append_drop]
    exact form.use hl hb hsplit hphi hv
  | @term _ b' t hl hb' ht hv =>
    cases hb.symm.trans hb'
    exact hend hb (form.termUse hl hb ht hv)
  | @phi l b' c φ a hl hb' hφ ha hreach hc hv =>
    cases hb.symm.trans hc
    exact hend hb (form.phiUse hl hb' ((wf.tidy hb').phi_mem_iff.1 hφ) ha hreach hv)

theorem UsedAt.reachable (h : f.UsedAt v l k) : f.graph.Reachable l := by
  cases h with
  | instr hl => exact hl
  | term hl => exact hl
  | phi _ _ _ _ hreach => exact hreach

/-! ## The equivalence -/

theorem SsaForm.onPaths (form : f.SsaForm) (wf : f.WellFormed) : f.SsaOnPaths where
  unique := form.toDefinedOnce.unique
  versioned {v s} h := by
    cases s with
    | param k =>
      obtain ⟨p, _, rfl⟩ := List.mem_map.1 (List.mem_of_getElem? h)
      exact Option.some_ne_none _
    | instr l k => exact form.versioned h.1 h.defines
  use_versioned {v l k} h := by
    obtain ⟨b, hb⟩ := wf.block_of_reachable h.reachable
    refine form.version_of_availOut h.reachable ((form.available wf h hb).imp_right fun hv => ?_)
    obtain ⟨i, hi, hd⟩ := mem_destsOf.1 hv
    exact ⟨b, hb, mem_destsOf.2 ⟨i, List.mem_of_mem_take hi, hd⟩⟩
  defined h hb hxs := (form.available wf h hb).imp_left fun hv => hv.mem_definedAlong hxs

theorem SsaOnPaths.ssaForm (h : f.SsaOnPaths) (wf : f.WellFormed) : f.SsaForm := by
  have once := definedOnce_of_unique h.unique h.versioned
  have havail : ∀ {v l k b}, f.UsedAt v l k → f.block? l = some b → f.AvailIn l v ∨
      v ∈ destsOf (b.instrs.take k) :=
    fun hused hb => once.availIn_of_paths hused.reachable fun xs hxs => h.defined hused hb hxs
  have hend : ∀ {v l b}, f.UsedAt v l b.instrs.length → f.block? l = some b → f.AvailOut l v := by
    intro v l b hused hb
    refine (havail hused hb).imp_right fun hv => ⟨b, hb, ?_⟩
    rwa [List.take_length] at hv
  refine ⟨once, fun {l b pre i post v} hl hb heq hphi hv => ?_,
    fun hl hb ht hv => hend (.term hl hb ht hv) hb, ?_⟩
  · have hk : b.instrs[pre.length]? = some i := by
      rw [heq, List.getElem?_append_right (Nat.le_refl _)]; simp
    have := havail (.instr hl hb hk hphi hv) hb
    rwa [heq, List.take_left] at this
  · intro l b φ a v hl hb hφ ha hreach hv
    obtain ⟨c, hc⟩ := wf.block_of_reachable hreach
    exact hend (.phi hl hb ((wf.tidy hb).phi_mem_iff.2 hφ) ha hreach hc hv) hc

/-- A function that claims SSA form passes the check of SSA form exactly if it passes that of its
graph and is in SSA form in the sense of paths. -/
theorem checkSsa_iff_onPaths (f : Func) (hssa : f.ssa = true) :
    f.checkSsa = .ok () ↔ f.checkCfg = .ok () ∧ f.SsaOnPaths := by
  rw [checkSsa_eq_ok, checkCfg_eq_ok]
  constructor
  · rintro ⟨_, wf, form⟩
    exact ⟨wf, form.onPaths wf⟩
  · rintro ⟨wf, hpaths⟩
    exact ⟨hssa, wf, hpaths.ssaForm wf⟩

/-- A loop of one block with a phi that is fed by its own block, and by a block that nothing jumps
to. -/
def selfFed : Func where
  name := "main"
  params := ["n"]
  ssa := true
  blocks := Table.ofList [
    ("entry", { name := "entry", term := some (.jump "loop") }),
    ("lost", { name := "lost", term := some (.jump "loop") }),
    ("loop", { name := "loop", preds := ["entry", "lost", "loop"],
               instrs := [.phi ⟨⟨"i", some 1⟩,
                 [⟨"entry", .var ⟨"n", some 0⟩⟩, ⟨"lost", .var ⟨"i", none⟩⟩,
                            ⟨"loop", .var ⟨"i", some 2⟩⟩]⟩,
                          .binary ⟨"i", some 2⟩ "sub" (.var ⟨"i", some 1⟩) (.const 1)],
               term := some (.branch (.var ⟨"i", some 2⟩) "loop" "done") }),
    ("done",
      { name := "done", preds := ["loop"], term := some (.ret (some (.var ⟨"i", some 1⟩))) })]

theorem checkSsa_iff_onPaths_selfFed :
    selfFed.checkSsa = .ok () ∧ selfFed.checkCfg = .ok () ∧ selfFed.SsaOnPaths := by
  have hcheck : selfFed.checkSsa = .ok () := by decide
  exact ⟨hcheck, (checkSsa_iff_onPaths selfFed rfl).1 hcheck⟩

end Func

end ThreeAddress

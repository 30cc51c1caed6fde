import ThreeAddress.Proofs.InvariantSites

/-!
# Moving code to a preheader

`Func.hoisted` is the function with some invariant code of a loop at the end of its preheader. It is
in SSA form (`Hoist.hoisted_inSsa`), since the preheader dominates the loop, and it runs as before
(`Hoist.simulation`): while control is in the loop, each variable that was moved holds what its
instruction would assign.
-/

namespace ThreeAddress

variable {pre : List Instr}

/-- The instructions at some sites. -/
def codeOf (sites : List Site) : List Instr := sites.map (·.instr)

/-- What becomes of the code of block `l` when `moved` goes from the loop `body` to the end of
`p`. -/
def moveCode (p : Label) (body : List Label) (moved : List Instr) (l : Label) (code : List Instr) :
    List Instr :=
  (if l ∈ body then code.filter (· ∉ moved) else code) ++ if l = p then moved else []

section MoveCode

variable {p l : Label} {body : List Label} {moved code post : List Instr} {i : Instr}

theorem moveCode_nil (h : l ≠ p) : moveCode p body moved l [] = [] := by
  simp [moveCode, h]

theorem moveCode_preheader (h : p ∉ body) : moveCode p body moved p [] = moved := by
  simp [moveCode, h]

theorem moveCode_of_mem (hl : l ∈ body) (hi : i ∈ moved) :
    moveCode p body moved l (i :: code) = moveCode p body moved l code := by
  simp [moveCode, hl, hi]

theorem moveCode_of_not_mem (hi : i ∉ moved) :
    moveCode p body moved l (i :: code) = i :: moveCode p body moved l code := by
  unfold moveCode
  split
  · rw [List.filter_cons_of_pos (by simpa using hi)]
    rfl
  · rfl

theorem moveCode_append (hpre : ∀ i ∈ pre, i ∉ moved) :
    moveCode p body moved l (pre ++ code) = pre ++ moveCode p body moved l code := by
  induction pre with
  | nil => rfl
  | cons i pre ih =>
    rw [List.cons_append, moveCode_of_not_mem (hpre i (.head _)),
      ih fun j hj => hpre j (.tail _ hj)]
    rfl

theorem mem_moveCode :
    i ∈ moveCode p body moved l code ↔ (i ∈ code ∧ (l ∈ body → i ∉ moved)) ∨
    (l = p ∧ i ∈ moved) := by
  unfold moveCode
  rw [List.mem_append]
  refine or_congr ?_ ?_
  · split
    · rename_i hl
      simp [hl]
    · rename_i hl
      simp [hl]
  · split
    · rename_i hl
      simp [hl]
    · rename_i hl
      simp [hl]

theorem mem_destsOf_moveCode {v : Var} (hv : v ∈ destsOf code) (hnot : v ∉ destsOf moved) :
    v ∈ destsOf (moveCode p body moved l code) := by
  obtain ⟨i, hi, hd⟩ := mem_destsOf.1 hv
  refine mem_destsOf.2 ⟨i, mem_moveCode.2 (.inl ⟨hi, fun _ hmem => hnot ?_⟩), hd⟩
  exact mem_destsOf.2 ⟨i, hmem, hd⟩

theorem filter_split {q : Instr → Bool} (h : code.filter q = pre ++ i :: post) :
    ∃ pre₀ post₀, code = pre₀ ++ i :: post₀ ∧ pre₀.filter q = pre := by
  obtain ⟨code₁, code₂, rfl, hpre, hrest⟩ := List.filter_eq_append_iff.1 h
  obtain ⟨skip, post₀, rfl, hskip, _, _⟩ := List.filter_eq_cons_iff.1 hrest
  refine ⟨code₁ ++ skip, post₀, (List.append_assoc _ _ _).symm, ?_⟩
  rw [List.filter_append, hpre, List.filter_eq_nil_iff.2 hskip, List.append_nil]

/-- Where an instruction comes from, and what of the code before it is still before it. -/
theorem moveCode_split (hp : p ∉ body) (h : moveCode p body moved l code = pre ++ i :: post) :
    (∃ pre₀ post₀, code = pre₀ ++ i :: post₀ ∧ ∀ j ∈ pre₀, j ∉ moved → j ∈ pre) ∨
      l = p ∧ ∃ pre₁, moved = pre₁ ++ i :: post ∧ pre = code ++ pre₁ := by
  unfold moveCode at h
  rcases List.append_eq_append_iff.1 h with ⟨mid, hpre, hpost⟩ | ⟨mid, hcode, hpost⟩
  · -- It is one of those that were moved.
    refine .inr ?_
    split at hpost
    · rename_i hl
      rw [hl, if_neg hp] at hpre
      exact ⟨hl, mid, hpost, hpre⟩
    · cases mid <;> cases hpost
  · cases mid with
    | nil =>
      refine .inr ?_
      split at hpost
      · rename_i hl
        rw [hl, if_neg hp, List.append_nil] at hcode
        exact ⟨hl, [], hpost.symm, by rw [hcode, List.append_nil]⟩
      · cases hpost
    | cons j mid =>
      cases hpost
      refine .inl ?_
      split at hcode
      · obtain ⟨pre₀, post₀, hsplit, hfilter⟩ := filter_split hcode
        refine ⟨pre₀, post₀, hsplit, fun j hj hnot => ?_⟩
        rw [← hfilter, List.mem_filter]
        exact ⟨hj, decide_eq_true hnot⟩
      · exact ⟨pre, mid, hcode, fun j hj _ => hj⟩

end MoveCode

namespace Func

/-- The function with `moved` taken from the loop `body` to the end of `p`. -/
def hoisted (f : Func) (p : Label) (body : List Label) (moved : List Instr) : Func :=
  f.rewrite fun l b => { b with instrs := moveCode p body moved l b.instrs }

/-- The instructions at `sites` can be moved from the loop `body` with header `header` to `p`. -/
structure Hoist (f : Func) (p header : Label) (body : List Label) (sites : List Site) : Prop where
  inSsa : f.InSsa
  preheads : f.graph.Preheads p header body
  movable : f.Movable body sites

namespace Hoist

variable {f : Func} {p header l : Label} {body : List Label} {sites : List Site} {i : Instr}
  {v : Var} {b : Block} {rest : List Instr} {env env' : Env} {w : World} {mem : Memory}

/-! ## The variables that are moved -/

section

variable (h : f.Hoist p header body sites)
include h

theorem isPhi_of_mem (hi : i ∈ codeOf sites) : i.isPhi = false := by
  obtain ⟨s, hs, rfl⟩ := List.mem_map.1 hi
  obtain ⟨_, hmovable, _⟩ := h.movable.movable
  exact isPhi_of_isMovable (hmovable s hs)

theorem exists_site (hv : v ∈ destsOf (codeOf sites)) :
    ∃ s ∈ sites, s.instr.dest? = some v ∧ s.block ∈ body ∧ f.graph.Reachable s.block ∧
      f.HasSite s := by
  obtain ⟨i, hi, hd⟩ := mem_destsOf.1 hv
  obtain ⟨s, hs, rfl⟩ := List.mem_map.1 hi
  obtain ⟨hbody, hsite⟩ := h.movable.site s hs
  exact ⟨s, hs, hd, hbody, h.preheads.reachable _ hbody, hsite⟩

theorem exists_home (hv : v ∈ destsOf (codeOf sites)) : ∃ a ∈ body, f.Defines a v := by
  obtain ⟨s, _, hd, hbody, _, b, hb, hi⟩ := h.exists_site hv
  exact ⟨s.block, hbody, b, hb, mem_destsOf.2 ⟨_, List.mem_of_getElem? hi, hd⟩⟩

/-- An instruction that can be reached and assigns a variable that is moved is moved, and stands in
the loop. -/
theorem mem_codeOf (hl : f.graph.Reachable l) (hb : f.block? l = some b) (hi : i ∈ b.instrs)
    (hd : i.dest? = some v) (hv : v ∈ destsOf (codeOf sites)) : l ∈ body ∧ i ∈ codeOf sites := by
  obtain ⟨s, hs, hd', hbody, hr, hsite⟩ := h.exists_site hv
  obtain ⟨n, hn⟩ := List.mem_iff_getElem?.1 hi
  have heq : s = ⟨l, n, i⟩ := h.inSsa.form.site_eq hsite ⟨b, hb, hn⟩ hr hl hd' hd
  subst heq
  exact ⟨hbody, List.mem_map_of_mem hs⟩

theorem mem_body_of_defines (hl : f.graph.Reachable l) (hdef : f.Defines l v)
    (hv : v ∈ destsOf (codeOf sites)) : l ∈ body := by
  obtain ⟨b, hb, hdest⟩ := hdef
  obtain ⟨i, hi, hd⟩ := mem_destsOf.1 hdest
  exact (h.mem_codeOf hl hb hi hd hv).1

/-- An instruction that is moved stands in the loop. -/
theorem mem_body_of_mem_codeOf (hl : f.graph.Reachable l) (hb : f.block? l = some b)
    (hi : i ∈ b.instrs) (hmem : i ∈ codeOf sites) : l ∈ body := by
  obtain ⟨s, hs, rfl⟩ := List.mem_map.1 hmem
  obtain ⟨_, hmovable, _⟩ := h.movable.movable
  obtain ⟨v, hv⟩ := exists_dest_of_isMovable (hmovable s hs)
  exact (h.mem_codeOf hl hb hi hv (mem_destsOf.2 ⟨_, hmem, hv⟩)).1

theorem nodup_dests : (destsOf (codeOf sites)).Nodup := by
  refine List.pairwise_filterMap.2
    (h.movable.nodup.imp_of_mem fun {i j} hi hj hne v hv v' hv' heq => hne ?_)
  subst heq
  obtain ⟨s, hs, rfl⟩ := List.mem_map.1 hi
  obtain ⟨s', hs', rfl⟩ := List.mem_map.1 hj
  obtain ⟨hbody, hsite⟩ := h.movable.site s hs
  obtain ⟨hbody', hsite'⟩ := h.movable.site s' hs'
  rw [h.inSsa.form.site_eq hsite hsite' (h.preheads.reachable _ hbody)
    (h.preheads.reachable _ hbody') hv hv']

/-- A variable that is moved is not available before the loop. -/
theorem not_availOut (hv : v ∈ destsOf (codeOf sites)) : ¬ f.AvailOut p v := by
  have hp := h.preheads.preheader_reachable
  have hdom : ∀ {a}, f.graph.Dominates a p → ¬ f.Defines a v := fun ha hdef =>
    h.preheads.not_dominates (h.mem_body_of_defines (ha.reachable hp) hdef hv) ha
  rintro ((hparam | ⟨a, ha, hdef⟩) | hdef)
  · obtain ⟨a, ha, hdef⟩ := h.exists_home hv
    exact h.inSsa.form.not_param (h.preheads.reachable a ha) hdef hparam
  · exact hdom ha.2 hdef
  · exact hdom (.refl p) hdef

/-- What the moved code reads from outside the loop is available before the loop. -/
theorem availOut_of_operand (hi : i ∈ codeOf sites) (hv : .var v ∈ i.uses)
    (hout : ∀ l ∈ body, ¬ f.Defines l v) : f.AvailOut p v := by
  obtain ⟨s, hs, rfl⟩ := List.mem_map.1 hi
  obtain ⟨hbody, b, hb, hsite⟩ := h.movable.site s hs
  have havail := h.inSsa.form.availOut_of_use (h.preheads.reachable _ hbody) hb
    (List.mem_of_getElem? hsite)
    (h.isPhi_of_mem hi) hv
  rcases havail with (hparam | ⟨a, ha, hdef⟩) | hdef
  · exact .inl (.inl hparam)
  · have hdom := h.preheads.dominates_preheader hbody ha.2 fun hmem => hout a hmem hdef
    by_cases hap : a = p
    · exact .inr (hap ▸ hdef)
    · exact .inl (.inr ⟨a, ⟨hap, hdom⟩, hdef⟩)
  · exact absurd hdef (hout _ hbody)

/-! ## Well-formedness -/

theorem hoisted_spec (hb : f.block? l = some b) : let b' :=
  { b with instrs := moveCode p body (codeOf sites) l b.instrs }
    b'.phis = b.phis ∧ b'.body = moveCode p body (codeOf sites) l b.body ∧ b'.Tidy := by
  have htidy := h.inSsa.wf.tidy hb
  have hphis : ∀ i ∈ b.phis.map Instr.phi, i ∉ codeOf sites := by
    intro i hi hmem
    obtain ⟨φ, _, rfl⟩ := List.mem_map.1 hi
    cases h.isPhi_of_mem hmem
  refine Block.tidy_of_eq ?_ (fun i hi => ?_) htidy.labels_eq
  · show moveCode p body (codeOf sites) l b.instrs = _
    conv => lhs; rw [htidy.instrs_eq]
    exact moveCode_append hphis
  · rcases mem_moveCode.1 hi with hi | hi
    · exact b.isPhi_of_mem_body hi.1
    · exact h.isPhi_of_mem hi.2

end

theorem graph_eq (f : Func) (p : Label) (body : List Label) (moved : List Instr) :
    (f.hoisted p body moved).graph = f.graph := graph_rewrite fun _ _ _ => rfl

theorem wellFormed (h : f.Hoist p header body sites) :
    (f.hoisted p body (codeOf sites)).WellFormed :=
  h.inSsa.wf.rewrite fun _ _ hb => ⟨rfl, rfl, rfl, fun hterm => hterm,
    fun _ => (h.hoisted_spec hb).2.2⟩

/-! ## SSA form -/

theorem of_defines (h : f.Hoist p header body sites) (hl : f.graph.Reachable l)
    (hv : (f.hoisted p body (codeOf sites)).Defines l v) :
    l = p ∧ v ∈ destsOf (codeOf sites) ∨ f.Defines l v ∧ v ∉ destsOf (codeOf sites) := by
  obtain ⟨b', hb', hv⟩ := hv
  obtain ⟨b, hb, rfl⟩ := of_block?_rewrite hb'
  obtain ⟨i, hi, hd⟩ := mem_destsOf.1 hv
  rcases mem_moveCode.1 hi with ⟨hi, hnot⟩ | ⟨hlp, hi⟩
  · refine .inr ⟨⟨b, hb, mem_destsOf.2 ⟨i, hi, hd⟩⟩, fun hmem => ?_⟩
    obtain ⟨hbody, hcode⟩ := h.mem_codeOf hl hb hi hd hmem
    exact hnot hbody hcode
  · exact .inl ⟨hlp, mem_destsOf.2 ⟨i, hi, hd⟩⟩

theorem defines (hv : f.Defines l v) (hnot : v ∉ destsOf (codeOf sites)) :
    (f.hoisted p body (codeOf sites)).Defines l v := by
  obtain ⟨b, hb, hv⟩ := hv
  exact ⟨_, block?_rewrite_of_some _ hb, mem_destsOf_moveCode hv hnot⟩

section

variable (h : f.Hoist p header body sites)
include h

theorem defines_preheader (hv : v ∈ destsOf (codeOf sites)) :
    (f.hoisted p body (codeOf sites)).Defines p v := by
  obtain ⟨b, hb⟩ := h.inSsa.wf.block_of_reachable h.preheads.preheader_reachable
  obtain ⟨i, hi, hd⟩ := mem_destsOf.1 hv
  exact ⟨_, block?_rewrite_of_some _ hb, mem_destsOf.2 ⟨i, mem_moveCode.2 (.inr ⟨rfl, hi⟩), hd⟩⟩

/-- Where a block of the loop dominates, so does the preheader. -/
theorem availIn_of_dominates {a : Label} (ha : a ∈ body) (hdom : f.graph.Dominates a l)
    (hv : v ∈ destsOf (codeOf sites)) : (f.hoisted p body (codeOf sites)).AvailIn l v := by
  refine .inr ⟨p, ?_, h.defines_preheader hv⟩
  rw [graph_eq]
  exact (h.preheads.strictlyDominates ha).trans_dominates (h.preheads.reachable a ha) hdom

theorem availIn (hl : f.graph.Reachable l) (hv : f.AvailIn l v) :
    (f.hoisted p body (codeOf sites)).AvailIn l v := by
  rcases hv with hparam | ⟨a, ha, hdef⟩
  · exact .inl hparam
  · by_cases hmem : v ∈ destsOf (codeOf sites)
    · exact h.availIn_of_dominates (h.mem_body_of_defines (ha.2.reachable hl) hdef hmem) ha.2 hmem
    · exact .inr ⟨a, (graph_eq f p body _).symm ▸ ha, defines hdef hmem⟩

theorem availOut (hl : f.graph.Reachable l) (hv : f.AvailOut l v) :
    (f.hoisted p body (codeOf sites)).AvailOut l v := by
  rcases hv with hin | hdef
  · exact .inl (h.availIn hl hin)
  · by_cases hmem : v ∈ destsOf (codeOf sites)
    · exact .inl (h.availIn_of_dominates (h.mem_body_of_defines hl hdef hmem) (.refl l) hmem)
    · exact .inr (defines hdef hmem)

theorem definedOnce : (f.hoisted p body (codeOf sites)).DefinedOnce := by
  have form := h.inSsa.form
  refine ⟨form.params_nodup, ?_, ?_, ?_, ?_⟩
  · intro l v hl hv
    rw [graph_eq] at hl
    rcases h.of_defines hl hv with ⟨_, hmem⟩ | ⟨hdef, _⟩
    · obtain ⟨a, ha, hdef⟩ := h.exists_home hmem
      exact form.versioned (h.preheads.reachable a ha) hdef
    · exact form.versioned hl hdef
  · intro l v hl hv
    rw [graph_eq] at hl
    rcases h.of_defines hl hv with ⟨_, hmem⟩ | ⟨hdef, _⟩
    · obtain ⟨a, ha, hdef⟩ := h.exists_home hmem
      exact form.not_param (h.preheads.reachable a ha) hdef
    · exact form.not_param hl hdef
  · intro l b' hl hb'
    rw [graph_eq] at hl
    obtain ⟨b, hb, rfl⟩ := of_block?_rewrite hb'
    have nodup := form.nodup hl hb
    show (destsOf (moveCode p body (codeOf sites) l b.instrs)).Nodup
    unfold moveCode
    rw [destsOf_append, List.nodup_append]
    refine ⟨?_, ?_, fun v hv v' hv' heq => ?_⟩
    · split
      · exact nodup.sublist (List.filter_sublist.filterMap _)
      · exact nodup
    · split
      · exact h.nodup_dests
      · exact List.nodup_nil
    · subst heq
      split at hv'
      · rename_i hlp
        subst hlp
        rw [if_neg h.preheads.not_mem] at hv
        exact h.not_availOut hv' (.inr ⟨b, hb, hv⟩)
      · cases hv'
  · intro l l' v hl hl' hv hv'
    rw [graph_eq] at hl hl'
    rcases h.of_defines hl hv with ⟨rfl, hmem⟩ | ⟨hdef, hnot⟩
    · rcases h.of_defines hl' hv' with ⟨rfl, _⟩ | ⟨_, hnot⟩
      · rfl
      · exact absurd hmem hnot
    · rcases h.of_defines hl' hv' with ⟨_, hmem⟩ | ⟨hdef', _⟩
      · exact absurd hmem hnot
      · exact form.apart hl hl' hdef hdef'

theorem ssaForm : (f.hoisted p body (codeOf sites)).SsaForm where
  toDefinedOnce := h.definedOnce
  use {l b' pre i post v} hl hb' heq hi hv := by
    rw [graph_eq] at hl
    obtain ⟨b, hb, rfl⟩ := of_block?_rewrite hb'
    rcases moveCode_split h.preheads.not_mem heq with
      ⟨pre₀, post₀, hsplit, hpre⟩ | ⟨rfl, pre₁, hsplit, rfl⟩
    · rcases h.inSsa.form.use hl hb hsplit hi hv with hin | hmem
      · exact .inl (h.availIn hl hin)
      · by_cases hmoved : v ∈ destsOf (codeOf sites)
        · have hdef : f.Defines l v :=
            ⟨b, hb, by rw [hsplit, destsOf_append]; exact List.mem_append_left _ hmem⟩
          exact .inl (h.availIn_of_dominates (h.mem_body_of_defines hl hdef hmoved)
            (.refl l) hmoved)
        · obtain ⟨j, hj, hd⟩ := mem_destsOf.1 hmem
          exact .inr (mem_destsOf.2 ⟨j, hpre j hj fun hj' => hmoved (mem_destsOf.2 ⟨j, hj', hd⟩),
            hd⟩)
    · -- The moved code reads what is available before the loop, or what comes before in it.
      rw [destsOf_append, List.mem_append]
      rcases h.movable.operand pre₁ i post hsplit v hv with hout | hmem
      · have hmem : i ∈ codeOf sites := hsplit ▸ List.mem_append_right _ (.head _)
        rcases h.availOut_of_operand hmem hv hout with hin | hdef
        · exact .inl (h.availIn hl hin)
        · exact .inr (.inl ((defines_iff hb).1 hdef))
      · exact .inr (.inr hmem)
  termUse {l b' t v} hl hb' ht hv := by
    rw [graph_eq] at hl
    obtain ⟨b, hb, rfl⟩ := of_block?_rewrite hb'
    exact h.availOut hl (h.inSsa.form.termUse hl hb ht hv)
  phiUse {l b' φ a v} hl hb' hφ ha hp hv := by
    rw [graph_eq] at hl hp
    obtain ⟨b, hb, rfl⟩ := of_block?_rewrite hb'
    rw [(h.hoisted_spec hb).1] at hφ
    exact h.availOut hp (h.inSsa.form.phiUse hl hb hφ ha hp hv)

/-- SSA form stays. -/
theorem hoisted_inSsa : (f.hoisted p body (codeOf sites)).InSsa where
  wf := h.wellFormed
  ssa := h.inSsa.ssa
  form := h.ssaForm
  counted := by
    refine ⟨h.inSsa.counted.nonneg, fun {l v n} hv hn => ?_⟩
    obtain ⟨b', hb', hv⟩ := hv
    obtain ⟨b, hb, rfl⟩ := of_block?_rewrite hb'
    obtain ⟨i, hi, hd⟩ := mem_destsOf.1 hv
    rcases mem_moveCode.1 hi with ⟨hi, _⟩ | ⟨_, hi⟩
    · exact h.inSsa.counted.bound ⟨b, hb, mem_destsOf.2 ⟨i, hi, hd⟩⟩ hn
    · obtain ⟨a, _, hdef⟩ := h.exists_home (mem_destsOf.2 ⟨i, hi, hd⟩)
      exact h.inSsa.counted.bound hdef hn

end

/-! ## Runs -/

/-- Where an instruction leaves the memory as it is. -/
theorem memory_of_act {g : Func} {t : Option Terminator} (hi : writesMemory i = false) :
    (∀ fr₁ w₁, Frame.act ⟨g, l, i :: rest, t, env⟩ w = .go fr₁ w₁ → w₁.memory = w.memory) ∧
      ∀ callee args k, Frame.act ⟨g, l, i :: rest, t, env⟩ w ≠ .call callee args k := by
  simp only [Frame.act]
  cases i with
  | binary d op x y =>
    cases h : evalBinary op (env.value x) (env.value y) <;>
      simp +contextual [Instr.effect, Frame.after, h]
  | unary d op x =>
    cases h : evalUnary op (env.value x) <;> simp +contextual [Instr.effect, Frame.after, h]
  | read d => cases h : w.inputs <;> simp +contextual [Instr.effect, Frame.after, h]
  | store a v => cases hi
  | call d callee args => cases hi
  | _ => simp +contextual [Instr.effect, Frame.after]

/-- The variables of these instructions hold what the instructions would assign. -/
def Settled (moved : List Instr) (env : Env) (mem : Memory) : Prop :=
  ∀ i ∈ moved, ∀ v, i.dest? = some v → env.getD v 0 = i.result env.value mem

section

variable (h : f.Hoist p header body sites)
include h

theorem operand_cases (hi : i ∈ codeOf sites) (hv : .var v ∈ i.uses) :
    (∀ l ∈ body, ¬ f.Defines l v) ∨ v ∈ destsOf (codeOf sites) := by
  obtain ⟨pre, post, heq⟩ := List.append_of_mem hi
  refine (h.movable.operand pre i post heq v hv).imp_right fun hmem => ?_
  rw [heq, destsOf_append]
  exact List.mem_append_left _ hmem

/-- What the moved code reads and assigns is all that matters. -/
theorem settled_congr (hsettled : Settled (codeOf sites) env mem)
    (hsame : ∀ v, v ∈ destsOf (codeOf sites) ∨ (∀ l ∈ body, ¬ f.Defines l v) →
      env'.getD v 0 = env.getD v 0) : Settled (codeOf sites) env' mem := by
  intro i hi v hv
  rw [hsame v (.inl (mem_destsOf.2 ⟨i, hi, hv⟩)), hsettled i hi v hv]
  refine (Instr.result_congr (fun x hx => Env.value_congr fun u hu => ?_) mem).symm
  exact hsame u (h.operand_cases hi (hu ▸ hx)).symm

/-- If the loop writes memory, the memory does not matter. -/
theorem settled_memory {mem' : Memory} (hsettled : Settled (codeOf sites) env mem) (hl : l ∈ body)
    (hb : f.block? l = some b) (hi : i ∈ b.instrs) (hwrites : writesMemory i = true) :
    Settled (codeOf sites) env mem' := by
  obtain ⟨writes, hmovable, hnone⟩ := h.movable.movable
  cases writes with
  | false =>
    rw [hnone rfl l hl b hb i hi] at hwrites
    cases hwrites
  | true =>
    intro j hj v hv
    obtain ⟨s, hs, rfl⟩ := List.mem_map.1 hj
    rw [hsettled _ hj v hv]
    exact result_eq_of_writes (hmovable s hs) _ _ _

/-- An instruction of the loop that stays changes nothing that the moved code reads or assigns. -/
theorem not_dest (hl : l ∈ body) (hb : f.block? l = some b) (hi : i ∈ b.instrs)
    (hnot : i ∉ codeOf sites) (hv : v ∈ destsOf (codeOf sites) ∨ ∀ l ∈ body, ¬ f.Defines l v) :
    i.dest? ≠ some v := by
  intro hd
  rcases hv with hmem | hout
  · exact hnot (h.mem_codeOf (h.preheads.reachable l hl) hb hi hd hmem).2
  · exact hout l hl ⟨b, hb, mem_destsOf.2 ⟨i, hi, hd⟩⟩

/-- The moved code runs at the end of the preheader. -/
theorem walks_moved (g : Func) (l : Label) (t : Option Terminator) (w : World) {done : List Instr}
    (heq : codeOf sites = done ++ rest) (hsettled : Settled done env w.memory) :
    ∃ env', Walks rest.length ⟨g, l, rest, t, env⟩ w ⟨g, l, [], t, env'⟩ w ∧
      Settled (codeOf sites) env' w.memory ∧
      ∀ v, v ∉ destsOf (codeOf sites) → env'.getD v 0 = env.getD v 0 := by
  induction rest generalizing done env with
  | nil =>
    rw [List.append_nil] at heq
    exact ⟨env, .refl, heq ▸ hsettled, fun _ _ => rfl⟩
  | cons i rest ih =>
    have hi : i ∈ codeOf sites := heq ▸ List.mem_append_right _ (.head _)
    obtain ⟨s, hs, hsi⟩ := List.mem_map.1 hi
    obtain ⟨writes, hmovable, _⟩ := h.movable.movable
    have himovable : isMovable writes i = true := hsi ▸ hmovable s hs
    obtain ⟨d, hd⟩ := exists_dest_of_isMovable himovable
    have hdmem : d ∈ destsOf (codeOf sites) := mem_destsOf.2 ⟨i, hi, hd⟩
    have hfresh : d ∉ destsOf done := by
      have nodup := h.nodup_dests
      rw [heq, destsOf_append, destsOf_cons, hd] at nodup
      exact fun hmem => (List.nodup_append.1 nodup).2.2 d hmem d (.head _) rfl
    -- What the instructions so far read is not assigned again.
    have hread : ∀ j ∈ done ++ [i], ∀ v, .var v ∈ j.uses → v ≠ d := by
      have hcases : ∀ pre post j, codeOf sites = pre ++ j :: post → (∀ x ∈ pre, x ∈ done) →
          ∀ v, .var v ∈ j.uses →
          v ≠ d := by
        rintro pre post j hsplit hpre v hv rfl
        rcases h.movable.operand pre j post hsplit v hv with hout | hmem
        · obtain ⟨a, ha, hdef⟩ := h.exists_home hdmem
          exact hout a ha hdef
        · obtain ⟨x, hx, hxd⟩ := mem_destsOf.1 hmem
          exact hfresh (mem_destsOf.2 ⟨x, hpre x hx, hxd⟩)
      intro j hj
      rcases List.mem_append.1 hj with hj | hj
      · obtain ⟨pre, post, rfl⟩ := List.append_of_mem hj
        exact hcases pre (post ++ i :: rest) j (by rw [heq, List.append_assoc]; rfl) fun x hx =>
          List.mem_append_left _ hx
      · cases List.mem_singleton.1 hj
        exact hcases done rest i heq fun x hx => hx
    have hresult : ∀ j ∈ done ++ [i],
        j.result (Env.value (env.insert d (i.result env.value w.memory))) w.memory
        = j.result env.value w.memory := by
      intro j hj
      refine Instr.result_congr (fun x hx => Env.value_congr fun v hv => ?_) w.memory
      exact Env.getD_insert_ne env _ (hread j hj v (hv ▸ hx))
    have hnext : Settled (done ++ [i]) (env.insert d (i.result env.value w.memory)) w.memory := by
      intro j hj v hv
      rw [hresult j hj]
      rcases List.mem_append.1 hj with hj | hj
      · have hne : v ≠ d := fun he => hfresh (he ▸ mem_destsOf.2 ⟨j, hj, hv⟩)
        rw [Env.getD_insert_ne env _ hne]
        exact hsettled j hj v hv
      · cases List.mem_singleton.1 hj
        cases hd.symm.trans hv
        exact Env.getD_insert_self env d _
    obtain ⟨env', hwalks, hsettled', hoff⟩ := ih (heq.trans (List.append_cons done i rest)) hnext
    refine ⟨env', .step ?_ hwalks, hsettled', fun v hv => ?_⟩
    · simp only [Frame.act, effect_of_isMovable himovable hd env w, Frame.after]
    · rw [hoff v hv]
      exact Env.getD_insert_ne env _ fun he => hv (he ▸ hdmem)

end

/-- What relates activations: they are at the same place, they agree on what is available and on
what is not moved, and in the loop what is moved is there already. -/
inductive Tracks (f : Func) (p : Label) (body : List Label) (sites : List Site) (mem : Memory) :
    Frame → Frame → Prop
  | mk {l : Label} {b : Block} {pre rest : List Instr} {env env' : Env} : f.graph.Reachable l →
    f.block? l = some b →
    b.instrs = pre ++ rest → (∀ i ∈ rest, i.isPhi = false) →
    (∀ v, v ∉ destsOf (codeOf sites) ∨ f.AvailIn l v ∨ v ∈ destsOf pre →
      env'.getD v 0 = env.getD v 0) →
    (l ∈ body → Settled (codeOf sites) env' mem) →
    Tracks f p body sites mem ⟨f, l, rest, b.term, env⟩
      ⟨f.hoisted p body (codeOf sites), l, moveCode p body (codeOf sites) l rest, b.term, env'⟩

section

variable (h : f.Hoist p header body sites)
include h

/-- Entering a block. -/
theorem enter_tracks {x : Label} (hl : f.graph.Reachable l) (hnext : x ∈ f.graph.next l)
    (hagree : ∀ v, v ∉ destsOf (codeOf sites) ∨ f.AvailOut l v → env'.getD v 0 = env.getD v 0)
    (hsettled : x ∈ body → Settled (codeOf sites) env' mem) :
    ∃ fr fr', Frame.enter f env (some l) x = .ok fr ∧
      Frame.enter (f.hoisted p body (codeOf sites)) env' (some l) x = .ok fr' ∧
      Tracks f p body sites mem fr fr' := by
  have hx := hl.step hnext
  obtain ⟨c, hc⟩ := h.inSsa.wf.block_of_reachable hx
  obtain ⟨hphis, hbody, _⟩ := h.hoisted_spec hc
  have hnext' : x ∈ (f.hoisted p body (codeOf sites)).graph.next l :=
    (graph_eq f p body _).symm ▸ hnext
  have henter := h.wellFormed.enter_eq env' (block?_rewrite_of_some _ hc) hnext'
  have hassign : phiAssignments env' l c.phis = phiAssignments env l c.phis := by
    refine phiAssignments_congr (List.forall₂_same.2 fun φ hφ =>
      ⟨rfl, Env.value_congr fun v hv => hagree v (.inr ?_)⟩)
    exact h.inSsa.form.phi_operand_available hl hx hc hφ v hv
  -- No phi is moved.
  have hdest : ∀ v ∈ c.phis.map (·.dest), v ∉ destsOf (codeOf sites) := by
    intro v hv hmem
    obtain ⟨φ, hφ, rfl⟩ := List.mem_map.1 hv
    have hcode := (h.mem_codeOf hx hc ((h.inSsa.wf.tidy hc).phi_mem_iff.2 hφ) rfl hmem).2
    cases h.isPhi_of_mem hcode
  rw [hphis, hbody, hassign] at henter
  refine ⟨_, _, h.inSsa.wf.enter_eq env hc hnext, henter, .mk hx hc (h.inSsa.wf.tidy hc).instrs_eq
    (fun i hi => c.isPhi_of_mem_body hi) (fun v hv => ?_) fun hin =>
      h.settled_congr (hsettled hin) fun v hv => ?_⟩
  · refine Env.getD_assign_congr (hagree v ?_) _
    rw [destsOf_map_phi] at hv
    rcases hv with hnot | hin | hphi
    · exact .inl hnot
    · exact .inr (hin.of_edge hnext)
    · exact .inl (hdest v hphi)
  · refine getD_phiAssignments_of_not_mem fun hphi => ?_
    rcases hv with hmem | hout
    · exact hdest v hphi hmem
    · refine hout x hin ⟨c, hc, ?_⟩
      rw [(h.inSsa.wf.tidy hc).destsOf_eq]
      exact List.mem_append_left _ hphi

/-- An instruction that stays does the same on both sides. -/
theorem instr_match (hl : f.graph.Reachable l) (hb : f.block? l = some b)
    (heq : b.instrs = pre ++ i :: rest) (hrest : ∀ j ∈ i :: rest, j.isPhi = false)
    (hagree : ∀ v, v ∉ destsOf (codeOf sites) ∨ f.AvailIn l v ∨ v ∈ destsOf pre →
      env'.getD v 0 = env.getD v 0) (hsettled : l ∈ body → Settled (codeOf sites) env' w.memory)
    (hnot : i ∉ codeOf sites) :
    Match AnyPace (Tracks f p body sites) ⟨f, l, i :: rest, b.term, env⟩
      ⟨f.hoisted p body (codeOf sites), l, moveCode p body (codeOf sites) l (i :: rest), b.term,
        env'⟩ w := by
  have hi : i.isPhi = false := hrest i (.head _)
  have hmem : i ∈ b.instrs := heq ▸ List.mem_append_right _ (.head _)
  have heff : i.effect env'.value w = i.effect env.value w := Instr.effect_congr hi w fun x hx =>
    Env.value_congr fun v hv =>
      hagree v (.inr (h.inSsa.form.operand_available hl hb heq hi hx v hv))
  have hname : f.name = (f.hoisted p body (codeOf sites)).name := rfl
  have hnext : ∀ mem, (writesMemory i = false → mem = w.memory) → ∀ n, Tracks f p body sites mem
      ⟨f, l, rest, b.term, env.write i.dest? n⟩
      ⟨f.hoisted p body (codeOf sites), l, moveCode p body (codeOf sites) l rest, b.term,
        env'.write i.dest? n⟩ := by
    intro mem hmemory n
    refine .mk hl hb (heq.trans (List.append_cons pre i rest)) (fun j hj => hrest j (.tail _ hj))
      (fun v hv => ?_) fun hin => ?_
    · by_cases hd : i.dest? = some v
      · rw [hd, Env.getD_write_self, Env.getD_write_self]
      · refine Env.getD_write_congr (hagree v ?_) _ n
        rw [mem_destsOf_snoc] at hv
        exact hv.imp_right (Or.imp_right fun hmem => hmem.resolve_right hd)
    · have hsame : Settled (codeOf sites) (env'.write i.dest? n) w.memory :=
        h.settled_congr (hsettled hin) fun v hv =>
          Env.getD_write_of_ne (h.not_dest hin hb hmem hnot hv)
      cases hwrites : writesMemory i with
      | false => exact hmemory hwrites ▸ hsame
      | true => exact h.settled_memory hsame hin hb hmem hwrites
  rw [moveCode_of_not_mem hnot]
  refine (agree_instr_self (R := fun a b => ∀ mem, (writesMemory i = false → mem = w.memory) →
    Tracks f p body sites mem a b)
    hname hi heff fun n mem hmemory => hnext mem hmemory n).match_memory pace_any
      (fun fr₁ w₁ hact a b hab => ?_)
    fun g args k hact mem a b hab => ?_
  · exact hab w₁.memory fun hwrites => (memory_of_act hwrites).1 fr₁ w₁ hact
  · exact hab mem fun hwrites => absurd hact ((memory_of_act hwrites).2 g args k)

/-- The end of the preheader: the moved code runs before control enters the loop. -/
theorem preheader_match (hb : f.block? p = some b)
    (hagree : ∀ v, v ∉ destsOf (codeOf sites) ∨ f.AvailOut p v → env'.getD v 0 = env.getD v 0) :
    Match AnyPace (Tracks f p body sites) ⟨f, p, [], b.term, env⟩
      ⟨f.hoisted p body (codeOf sites), p, moveCode p body (codeOf sites) p [], b.term,
        env'⟩ w := by
  have hp := h.preheads.preheader_reachable
  have hnext := h.preheads.header_mem_next
  obtain ⟨t, ht⟩ := Option.ne_none_iff_exists'.1 (h.inSsa.wf.closed hb)
  have hexit : ∀ value, t.exit value = .goto header := by
    intro value
    have htargets : t.targets = [header] := by
      have := h.preheads.next_eq
      rwa [next_graph hb, Block.successors, ht] at this
    exact Terminator.exit_of_targets htargets value
  rw [moveCode_preheader h.preheads.not_mem]
  have hnone : Settled [] env' w.memory := fun i hi => by cases hi
  obtain ⟨env₁, hwalks, hsettled, hoff⟩ :=
    h.walks_moved (f.hoisted p body (codeOf sites)) p b.term w
    (List.nil_append _).symm hnone
  have hagree₁ : ∀ v, v ∉ destsOf (codeOf sites) ∨ f.AvailOut p v →
      env₁.getD v 0 = env.getD v 0 := by
    intro v hv
    have hnot : v ∉ destsOf (codeOf sites) := hv.elim id fun havail hmem =>
      h.not_availOut hmem havail
    rw [hoff v hnot]
    exact hagree v hv
  obtain ⟨fr, fr', henter, henter', htracks⟩ := h.enter_tracks hp hnext hagree₁ fun _ => hsettled
  rw [ht] at hwalks ⊢
  exact .go trivial (.one (Frame.act_goto (hexit _) henter w))
    (hwalks.trans (.one (Frame.act_goto (hexit _) henter' w)))
    htracks

/-- The end of another block. -/
theorem exit_match (hl : f.graph.Reachable l) (hb : f.block? l = some b) (hlp : l ≠ p)
    (hagree : ∀ v, v ∉ destsOf (codeOf sites) ∨ f.AvailOut l v → env'.getD v 0 = env.getD v 0)
    (hsettled : l ∈ body → Settled (codeOf sites) env' w.memory) :
    Match AnyPace (Tracks f p body sites) ⟨f, l, [], b.term, env⟩
      ⟨f.hoisted p body (codeOf sites), l, moveCode p body (codeOf sites) l [], b.term,
        env'⟩ w := by
  obtain ⟨t, ht⟩ := Option.ne_none_iff_exists'.1 (h.inSsa.wf.closed hb)
  have hexit : t.exit env'.value = t.exit env.value := Terminator.exit_congr fun x hx =>
    Env.value_congr fun v hv => hagree v (.inr (h.inSsa.form.termUse hl hb ht (hv ▸ hx)))
  rw [moveCode_nil hlp, ht]
  cases hgoto : t.exit env.value with
  | leave n =>
    exact .ret trivial .refl .refl (Frame.act_leave hgoto w) (Frame.act_leave (hexit.trans hgoto) w)
  | goto x =>
    have hnext : x ∈ f.graph.next l := by
      rw [next_graph hb, Block.successors, ht]
      exact Terminator.mem_targets_of_exit hgoto
    obtain ⟨fr, fr', henter, henter', htracks⟩ := h.enter_tracks hl hnext hagree fun hx => hsettled
      (Decidable.byContradiction fun hout => hlp (h.preheads.enters hl hnext hx hout).1)
    exact .go (m := 0) (n := 0) trivial (.one (Frame.act_goto hgoto henter w))
      (.one (Frame.act_goto (hexit.trans hgoto) henter' w)) htracks

/-- Activations that are related keep up with each other. The first one makes the steps of moved
code alone. -/
theorem tracks_match (hl : f.graph.Reachable l) (hb : f.block? l = some b)
    (heq : b.instrs = pre ++ rest) (hrest : ∀ j ∈ rest, j.isPhi = false)
    (hagree : ∀ v, v ∉ destsOf (codeOf sites) ∨ f.AvailIn l v ∨ v ∈ destsOf pre →
      env'.getD v 0 = env.getD v 0) (hsettled : l ∈ body → Settled (codeOf sites) env' w.memory) :
    Match AnyPace (Tracks f p body sites) ⟨f, l, rest, b.term, env⟩
      ⟨f.hoisted p body (codeOf sites), l, moveCode p body (codeOf sites) l rest, b.term,
        env'⟩ w := by
  induction rest generalizing pre env with
  | nil =>
    have hagree' : ∀ v, v ∉ destsOf (codeOf sites) ∨ f.AvailOut l v →
        env'.getD v 0 = env.getD v 0 := by
      refine fun v hv => hagree v (hv.imp_right (Or.imp_right fun hdef => ?_))
      rwa [defines_iff hb, heq, List.append_nil] at hdef
    by_cases hlp : l = p
    · subst hlp
      exact h.preheader_match hb hagree'
    · exact h.exit_match hl hb hlp hagree' hsettled
  | cons i rest ih =>
    by_cases hcode : i ∈ codeOf sites
    · have hmem : i ∈ b.instrs := heq ▸ List.mem_append_right _ (.head _)
      have hin := h.mem_body_of_mem_codeOf hl hb hmem hcode
      obtain ⟨s, hs, hsi⟩ := List.mem_map.1 hcode
      obtain ⟨writes, hmovable, _⟩ := h.movable.movable
      have himovable : isMovable writes i = true := hsi ▸ hmovable s hs
      obtain ⟨d, hd⟩ := exists_dest_of_isMovable himovable
      -- It assigns what the variable holds on the other side already.
      have hresult : i.result env.value w.memory = env'.getD d 0 := by
        rw [hsettled hin i hcode d hd]
        refine (Instr.result_congr (fun x hx => Env.value_congr fun v hv =>
          hagree v (.inr ?_)) w.memory).symm
        exact h.inSsa.form.operand_available hl hb heq (hrest i (.head _)) hx v hv
      have hact : Frame.act ⟨f, l, i :: rest, b.term, env⟩ w = .go ⟨f, l, rest, b.term,
          env.insert d (env'.getD d 0)⟩ w := by
        simp only [Frame.act, effect_of_isMovable himovable hd env w, Frame.after, hresult]
      rw [moveCode_of_mem hin hcode]
      refine .after_walks pace_any trivial (.one hact) .refl
        (ih (heq.trans (List.append_cons pre i rest))
        (fun j hj => hrest j (.tail _ hj)) fun v hv => ?_)
      by_cases hvd : v = d
      · subst hvd
        exact (Env.getD_insert_self env v _).symm
      · rw [Env.getD_insert_ne env _ hvd]
        refine hagree v ?_
        rw [mem_destsOf_snoc, hd] at hv
        exact hv.imp_right (Or.imp_right fun hmem => hmem.resolve_right fun he =>
          hvd (Option.some.inj he).symm)
    · exact h.instr_match hl hb heq hrest hagree hsettled hcode

/-- The function runs as before. -/
theorem simulation :
    Simulation AnyPace f (f.hoisted p body (codeOf sites)) (Tracks f p body sites) where
  start args := by
    obtain ⟨b, hb⟩ := Func.exists_block.1 h.inSsa.wf.entry_mem
    have hb' : (f.hoisted p body (codeOf sites)).block? f.entry = some _ :=
      block?_rewrite_of_some _ hb
    have hstart' : (f.hoisted p body (codeOf sites)).start args
        = .ok ⟨f.hoisted p body (codeOf sites), f.entry,
        moveCode p body (codeOf sites) f.entry b.body, b.term, bindParams f args⟩ := by
      rw [← (h.hoisted_spec hb).2.1]
      exact Func.start_eq hb' args
    refine ⟨_, _, Func.start_eq hb args, hstart', fun _ => ?_⟩
    refine .mk Graph.reachable_entry hb (h.inSsa.wf.tidy hb).instrs_eq (fun i hi =>
      b.isPhi_of_mem_body hi) (fun _ _ => rfl)
      fun hin => ?_
    exact absurd (Graph.eq_entry_of_dominates (h.preheads.dominates _ hin)) h.preheads.header_ne
  step fr fr' w hr := by
    cases hr with
    | mk hl hb heq hrest hagree hsettled => exact h.tracks_match hl hb heq hrest hagree hsettled

end

end Hoist

end Func

end ThreeAddress

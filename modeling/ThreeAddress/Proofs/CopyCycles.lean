import Mathlib.Data.Set.Card
import Mathlib.Dynamics.PeriodicPts.Lemmas
import ThreeAddress.Proofs.ParallelCopies

/-!
# One temporary for each cycle of copies

Copies to different variables form a graph in which every variable has at most one arrow, from a
destination to the variable it reads. So two cycles with a common member are the same
(`IsCopyCycle.eq_of_mem`), and where all destinations are read every destination lies on a cycle
(`exists_cycle`). Making a copy keeps the cycles, and saving a destination takes away exactly the
cycle it lies on; so temporaries are made for one member of every cycle, and for nothing else
(`Sequences.cycles`).
-/

namespace ThreeAddress

variable {copies : List Copy} {d : Var}

/-! ## Cycles of a relation -/

section Cycles

variable {α : Type} {r r' : α → α → Prop}

theorem exists_cons_of_mem_cycle {c : Cycle α} {a : α} (h : a ∈ c) :
    ∃ l : List α, c = ↑(a :: l) := by
  induction c using Quotient.inductionOn with
  | _ xs =>
    obtain ⟨front, back, rfl⟩ := List.append_of_mem (Cycle.mem_coe_iff.1 h)
    exact ⟨back ++ front, Cycle.coe_eq_coe.2 List.isRotated_append⟩

/-- A member of a cycle goes to one and comes from one. -/
theorem chain_exists_of_mem {c : Cycle α} {a : α} (h : c.Chain r) (ha : a ∈ c) :
    (∃ b ∈ c, r a b) ∧ ∃ b ∈ c, r b a := by
  obtain ⟨l, rfl⟩ := exists_cons_of_mem_cycle ha
  rw [Cycle.chain_coe_cons] at h
  constructor
  · cases l with
    | nil => exact ⟨a, ha, List.IsChain.rel h⟩
    | cons b l => exact ⟨b, by simp, List.IsChain.rel h⟩
  · rw [← List.cons_append, List.isChain_append] at h
    obtain ⟨_, _, hlast⟩ := h
    refine ⟨(a :: l).getLast (List.cons_ne_nil a l), Cycle.mem_coe_iff.2 (List.getLast_mem _),
      hlast _ ?_ a rfl⟩
    exact List.getLast?_eq_getLast_of_ne_nil _

theorem chain_imp_of_mem {c : Cycle α} (h : c.Chain r) (himp : ∀ a ∈ c, ∀ b ∈ c, r a b → r' a b) :
    c.Chain r' := by
  induction c using Cycle.induction_on with
  | nil => exact Cycle.Chain.nil r'
  | cons a l _ =>
    rw [Cycle.chain_coe_cons] at h ⊢
    have hmem : ∀ b, b ∈ a :: (l ++ [a]) → b ∈ (↑(a :: l) : Cycle α) :=
      fun b hb => by simpa [or_comm] using hb
    exact h.imp_of_mem_imp fun b b' hb hb' hr => himp b (hmem b hb) b' (hmem b' hb') hr

/-- Where every member goes to at most one, there is one way back. -/
theorem eq_of_isChain (hr : ∀ a b b', r a b → r a b' → b = b') {a x : α} {l l' : List α}
    (h : List.IsChain r (a :: (l ++ [x]))) (h' : List.IsChain r (a :: (l' ++ [x]))) (hx : x ∉ l)
    (hx' : x ∉ l') : l = l' := by
  induction l generalizing a l' with
  | nil =>
    cases l' with
    | nil => rfl
    | cons b l' => exact absurd (hr a x b h.rel h'.rel ▸ List.mem_cons_self) hx'
  | cons b l ih =>
    cases l' with
    | nil => exact absurd (hr a x b h'.rel h.rel ▸ List.mem_cons_self) hx
    | cons b' l' =>
      cases hr a b b' h.rel h'.rel
      rw [ih h.of_cons h'.of_cons (fun hm => hx (.tail _ hm)) fun hm => hx' (.tail _ hm)]

theorem chain_eq_of_mem (hr : ∀ a b b', r a b → r a b' → b = b') {c c' : Cycle α} {a : α}
    (h : c.Chain r) (h' : c'.Chain r) (nodup : c.Nodup) (nodup' : c'.Nodup) (ha : a ∈ c)
    (ha' : a ∈ c') : c = c' := by
  obtain ⟨l, rfl⟩ := exists_cons_of_mem_cycle ha
  obtain ⟨l', rfl⟩ := exists_cons_of_mem_cycle ha'
  rw [Cycle.chain_coe_cons] at h h'
  rw [Cycle.nodup_coe_iff, List.nodup_cons] at nodup nodup'
  rw [eq_of_isChain hr h h' nodup.1 nodup'.1]

end Cycles

/-! ## Cycles of copies -/

/-- `d` is to hold what `v` holds. -/
def CopiesFrom (copies : List Copy) (d v : Var) : Prop := (d, .var v) ∈ copies

theorem copiesFrom_of_mem {c : Copy} {v : Var} (hc : c ∈ copies) (hv : c.2 = .var v) :
    CopiesFrom copies c.1 v := by
  rw [CopiesFrom, ← hv]
  exact hc

/-- A cycle, of two variables at least, in the graph of the copies. -/
structure IsCopyCycle (copies : List Copy) (c : Cycle Var) : Prop where
  nodup : c.Nodup
  two_le : 2 ≤ c.length
  chain : c.Chain (CopiesFrom copies)

namespace IsCopyCycle

variable {copies' : List Copy} {c c' : Cycle Var} {t : Var}

theorem exists_mem (h : IsCopyCycle copies c) : ∃ d, d ∈ c := by
  obtain ⟨_, hlength, _⟩ := h
  induction c using Cycle.induction_on with
  | nil => exact absurd hlength (by simp)
  | cons d l _ => exact ⟨d, by simp⟩

/-- A member of a cycle is a destination and is read. -/
theorem overwritten (h : IsCopyCycle copies c) (hd : d ∈ c) : Overwritten copies d := by
  obtain ⟨⟨v, _, hv⟩, w, _, hw⟩ := chain_exists_of_mem h.chain hd
  exact ⟨List.mem_map.2 ⟨_, hv, rfl⟩, List.mem_map.2 ⟨_, hw, rfl⟩⟩

theorem of_forall (h : IsCopyCycle copies c)
    (himp : ∀ d ∈ c, ∀ v ∈ c, CopiesFrom copies d v → CopiesFrom copies' d v) :
    IsCopyCycle copies' c :=
  ⟨h.nodup, h.two_le, chain_imp_of_mem h.chain himp⟩

/-- Cycles with a common member are the same. -/
theorem eq_of_mem (nodup : (copies.map Prod.fst).Nodup) (h : IsCopyCycle copies c)
    (h' : IsCopyCycle copies c') (hd : d ∈ c) (hd' : d ∈ c') : c = c' := by
  refine chain_eq_of_mem (fun a b b' hb hb' => ?_) h.chain h'.chain h.nodup h'.nodup hd hd'
  cases List.inj_on_of_nodup_map nodup hb hb' rfl
  rfl

/-- A copy whose destination nothing reads lies on no cycle. -/
theorem make_iff {pre post : List Copy} {first : Copy}
    (hunread : ∀ c' ∈ pre ++ first :: post, c'.2 ≠ .var first.1) :
    IsCopyCycle (pre ++ first :: post) c ↔ IsCopyCycle (pre ++ post) c := by
  constructor
  · intro h
    refine h.of_forall fun d hd v _ hv => ?_
    rcases List.mem_cons.1 (List.perm_middle.mem_iff.1 hv) with rfl | hv
    · obtain ⟨c', hc', hread⟩ := List.mem_map.1 (h.overwritten hd).2
      exact absurd hread (hunread c' hc')
    · exact hv
  · intro h
    exact h.of_forall fun d _ v _ hv => List.perm_middle.mem_iff.2 (.tail _ hv)

/-- When a destination is saved, its cycle is opened, and the others stay. -/
theorem redirect_iff (ht : ¬ Mentioned copies t) (hdest : d ∈ copies.map Prod.fst) :
    IsCopyCycle (redirect d t copies) c ↔ IsCopyCycle copies c ∧ d ∉ c := by
  constructor
  · intro h
    have hread : ∀ v ∈ c, v ≠ d := by
      rintro v hv rfl
      exact (overwritten_of_redirect ht (h.overwritten hv)).1 rfl
    refine ⟨h.of_forall fun a _ v hv hcopy => ?_, fun hd => hread d hd rfl⟩
    obtain ⟨⟨a', s⟩, hmem, heq⟩ := List.mem_map.1 hcopy
    obtain ⟨rfl, hs⟩ := Prod.mk.inj heq
    split at hs
    · cases hs
      exact absurd (.inl (overwritten_of_redirect ht (h.overwritten hv)).2.1) ht
    · exact copiesFrom_of_mem hmem hs
  · rintro ⟨h, hd⟩
    refine h.of_forall fun a _ v hv hcopy => List.mem_map.2 ⟨_, hcopy, ?_⟩
    have hne : (Operand.var v) ≠ .var d := fun he => hd (Operand.var.inj he ▸ hv)
    simp only [if_neg hne]

end IsCopyCycle

/-- Where all destinations are read, sources lead back to each of them: from a destination one goes
to one that reads it, this is one to one, and so all destinations are reached. -/
theorem exists_source (nodup : (copies.map Prod.fst).Nodup)
    (hall : ∀ c ∈ copies, Overwritten copies c.1) (hd : d ∈ copies.map Prod.fst) :
    ∃ source : Var → Var, d ∈ Function.periodicPts source ∧
      ∀ n, CopiesFrom copies (source^[n] d) (source^[n + 1] d) := by
  have hreader : ∀ x : {x // x ∈ copies.map Prod.fst}, ∃ y : {y // y ∈ copies.map Prod.fst},
      CopiesFrom copies y.1 x.1 := by
    rintro ⟨x, hx⟩
    obtain ⟨c, hc, rfl⟩ := List.mem_map.1 hx
    obtain ⟨c', hc', hread⟩ := List.mem_map.1 (hall c hc).2
    exact ⟨⟨c'.1, List.mem_map_of_mem hc'⟩, copiesFrom_of_mem hc' hread⟩
  choose reader hreader using hreader
  have hinj : Function.Injective reader := by
    intro x x' heq
    have hx := hreader x
    rw [heq] at hx
    have hsame := List.inj_on_of_nodup_map nodup hx (hreader x') rfl
    exact Subtype.ext (Operand.var.inj (Prod.mk.inj hsame).2)
  let back := (Equiv.ofBijective reader (Finite.injective_iff_bijective.1 hinj)).symm
  let source : Var → Var := fun v => if h : v ∈ copies.map Prod.fst then (back ⟨v, h⟩).1 else v
  have hback : ∀ x, CopiesFrom copies x.1 (back x).1 := fun x => by
    have h := hreader (back x)
    rwa [show reader (back x) = x from Equiv.ofBijective_apply_symm_apply reader _ x] at h
  have hsource : Function.Semiconj Subtype.val back source := fun x => by
    simp only [source, dif_pos x.2]
  refine ⟨source, hsource.mapsTo_periodicPts (back.injective.mem_periodicPts ⟨d, hd⟩), fun n => ?_⟩
  have h := hback (back^[n] ⟨d, hd⟩)
  rw [← Function.iterate_succ_apply' back] at h
  rwa [(hsource.iterate_right n).eq, (hsource.iterate_right (n + 1)).eq] at h

/-- Where all destinations are read and none by itself, every destination lies on a cycle. -/
theorem exists_cycle (nodup : (copies.map Prod.fst).Nodup) (hself : ∀ c ∈ copies, c.2 ≠ .var c.1)
    (hall : ∀ c ∈ copies, Overwritten copies c.1) (hd : d ∈ copies.map Prod.fst) :
    ∃ c, IsCopyCycle copies c ∧ d ∈ c := by
  obtain ⟨source, hperiodic, hchain⟩ := exists_source nodup hall hd
  refine ⟨Function.periodicOrbit source d, ⟨Function.nodup_periodicOrbit, ?_, ?_⟩,
    Function.self_mem_periodicOrbit hperiodic⟩
  · rw [Function.periodicOrbit_length]
    have hpos := Function.minimalPeriod_pos_of_mem_periodicPts hperiodic
    have hne : Function.minimalPeriod source d ≠ 1 := fun h => by
      have hcopy := hchain 0
      rw [Function.iterate_one, Function.iterate_zero, id,
        Function.minimalPeriod_eq_one_iff_isFixedPt.1 h] at hcopy
      exact hself _ hcopy rfl
    omega
  · exact (Function.periodicOrbit_chain' _ hperiodic).2 hchain

/-! ## What is saved -/

section Sequences

variable {σ : Type} {fresh : Var → σ → Var × σ} {pending : List Copy} {ds : List Var}

theorem ne_self_redirect {t : Var} (ht : ¬ Mentioned pending t)
    (hself : ∀ c ∈ pending, c.2 ≠ .var c.1) : ∀ c ∈ redirect d t pending, c.2 ≠ .var c.1 := by
  intro c hc heq
  obtain ⟨c', hc', rfl⟩ := List.mem_map.1 hc
  simp only at heq
  split at heq
  · exact ht (.inl (Operand.var.inj heq ▸ List.mem_map_of_mem hc'))
  · exact hself c' hc' heq

/-- Temporaries are made for one member of every cycle, and for nothing else. -/
theorem Sequences.cycles {s s' : σ} (h : Sequences fresh pending s ds copies s')
    (hs : Supplies fresh s pending) (nodup : (pending.map Prod.fst).Nodup)
    (hself : ∀ c ∈ pending, c.2 ≠ .var c.1) :
    (∀ c, IsCopyCycle pending c → ∃! d, d ∈ c ∧ d ∈ ds) ∧ ∀ d ∈ ds, ∃ c, IsCopyCycle pending c ∧
      d ∈ c := by
  induction h with
  | done =>
    refine ⟨fun c hc => ?_, fun d hd => (List.not_mem_nil hd).elim⟩
    obtain ⟨d, hd⟩ := hc.exists_mem
    exact (List.not_mem_nil (hc.overwritten hd).1).elim
  | @make pre post copies ds first s s' hunread _ ih =>
    have hsub : (pre ++ post).Sublist (pre ++ first :: post) :=
      (List.sublist_cons_self first post).append_left pre
    simp only [IsCopyCycle.make_iff hunread]
    exact ih (hs.of_subset hsub.subset) (nodup.sublist (hsub.map _)) fun c hc =>
      hself c (hsub.subset hc)
  | @save pending copies ds d s s' hall hd _ ih =>
    have hread : Overwritten pending d := by
      obtain ⟨c, hc, rfl⟩ := List.mem_map.1 hd
      exact hall c hc
    have ht := hs.not_mentioned hread
    obtain ⟨hone, hsome⟩ :=
      ih (hs.redirect hread) (by rwa [map_fst_redirect]) (ne_self_redirect ht hself)
    simp only [IsCopyCycle.redirect_iff ht hd] at hone hsome
    obtain ⟨c₀, hc₀, hd₀⟩ := exists_cycle nodup hself hall hd
    constructor
    · intro c hc
      by_cases hdc : d ∈ c
      · -- what is saved later lies on other cycles
        refine ⟨d, ⟨hdc, .head _⟩, fun e he => ?_⟩
        rcases List.mem_cons.1 he.2 with rfl | hmem
        · rfl
        · obtain ⟨c', ⟨hc', hdc'⟩, he'⟩ := hsome e hmem
          exact absurd (hc'.eq_of_mem nodup hc he' he.1 ▸ hdc) hdc'
      · obtain ⟨e, ⟨hec, heds⟩, hunique⟩ := hone c ⟨hc, hdc⟩
        refine ⟨e, ⟨hec, .tail _ heds⟩, fun e' he' => hunique e' ⟨he'.1, ?_⟩⟩
        rcases List.mem_cons.1 he'.2 with rfl | hmem
        · exact absurd he'.1 hdc
        · exact hmem
    · refine List.forall_mem_cons.2 ⟨⟨c₀, hc₀, hd₀⟩, fun e he => ?_⟩
      obtain ⟨c, ⟨hc, _⟩, hec⟩ := hsome e he
      exact ⟨c, hc, hec⟩

/-- One copy is made for every pending one and one for every temporary. -/
theorem Sequences.perm {s s' : σ} (h : Sequences fresh pending s ds copies s') :
    (copies.map Prod.fst).Perm (pending.map Prod.fst ++ temporaries fresh ds s) := by
  induction h with
  | done => exact .nil
  | @make pre post copies ds first s s' _ _ ih =>
    rw [List.map_append, List.append_assoc] at ih ⊢
    exact (ih.cons first.1).trans List.perm_middle.symm
  | @save pending copies ds d s s' _ _ _ ih =>
    rw [map_fst_redirect] at ih
    exact (ih.cons (fresh d s).1).trans List.perm_middle.symm

/-- As many cycles as temporaries. -/
theorem ncard_cycles (nodup : ds.Nodup) (hone : ∀ c, IsCopyCycle copies c → ∃! d, d ∈ c ∧ d ∈ ds)
    (hsome : ∀ d ∈ ds, ∃ c, IsCopyCycle copies c ∧ d ∈ c) (hdests : (copies.map Prod.fst).Nodup) :
    {c | IsCopyCycle copies c}.ncard = ds.length := by
  choose! cycle hcycle hmem using hsome
  rw [← List.toFinset_card_of_nodup nodup, ← Set.ncard_coe_finset]
  symm
  refine Set.ncard_congr (fun d _ => cycle d) (fun d hd => ?_) (fun d e hd he heq => ?_) fun c hc =>
    ?_
  · exact hcycle d (List.mem_toFinset.1 hd)
  · rw [Finset.mem_coe, List.mem_toFinset] at hd he
    exact (hone _ (hcycle d hd)).unique ⟨hmem d hd, hd⟩ ⟨heq ▸ hmem e he, he⟩
  · obtain ⟨d, ⟨hdc, hd⟩, _⟩ := hone c hc
    exact ⟨d, List.mem_toFinset.2 hd, (hcycle d hd).eq_of_mem hdests hc (hmem d hd) hdc⟩

/-! ## Which temporaries are asked for -/

/-- Makes temporaries as `fresh` does, and writes down for what. -/
def logged (fresh : Var → σ → Var × σ) (d : Var) (s : σ × List Var) : Var × σ × List Var :=
  ((fresh d s.1).1, (fresh d s.1).2, s.2 ++ [d])

theorem temporaries_logged (ds : List Var) (s : σ × List Var) :
    temporaries (logged fresh) ds s = temporaries fresh ds s.1 := by
  induction ds generalizing s with
  | nil => rfl
  | cons d ds ih => rw [temporaries, temporaries, ih]; rfl

theorem Supplies.logged {s : σ} (h : Supplies fresh s copies) (log : List Var) :
    Supplies (logged fresh) (s, log) copies := by
  intro ds nodup hds
  rw [temporaries_logged]
  exact h ds nodup hds

theorem Sequences.log {s s' : σ × List Var} (h : Sequences (logged fresh) pending s ds copies s') :
    Sequences fresh pending s.1 ds copies s'.1 ∧ s'.2 = s.2 ++ ds := by
  induction h with
  | done => exact ⟨.done, (List.append_nil _).symm⟩
  | make hunread _ ih => exact ⟨.make hunread ih.1, ih.2⟩
  | @save pending copies ds d s s' hall hd _ ih =>
    refine ⟨.save hall hd ih.1, ih.2.trans ?_⟩
    rw [ThreeAddress.logged, List.append_assoc, List.singleton_append]

variable (fresh) in
/-- Writing down changes nothing else. -/
theorem orderPending_logged (bound : Nat) (pending : List Copy) (s : σ × List Var) :
    (orderPending (logged fresh) bound pending s).1 = (orderPending fresh bound pending s.1).1 ∧
      (orderPending (logged fresh) bound pending s).2.1
        = (orderPending fresh bound pending s.1).2 := by
  induction bound generalizing pending s with
  | zero => exact ⟨rfl, rfl⟩
  | succ bound ih =>
    cases pending with
    | nil => exact ⟨rfl, rfl⟩
    | cons c rest =>
      cases hfirst : extractFirst (isUnread (c :: rest)) (c :: rest) with
      | some r =>
        simp only [orderPending, hfirst]
        exact ⟨by rw [(ih r.2 s).1], (ih r.2 s).2⟩
      | none =>
        simp only [orderPending, hfirst]
        obtain ⟨hcopies, hstate⟩ :=
          ih (redirect c.1 (logged fresh c.1 s).1 (c :: rest)) (logged fresh c.1 s).2
        exact ⟨by rw [hcopies]; rfl, hstate⟩

end Sequences

/-- Copies of variables to themselves lie on no cycle. -/
theorem isCopyCycle_filter_iff {c : Cycle Var} (nodup : (copies.map Prod.fst).Nodup) :
    IsCopyCycle (copies.filter fun c => decide (c.2 ≠ .var c.1)) c ↔ IsCopyCycle copies c := by
  constructor
  · intro h
    exact h.of_forall fun d _ v _ hv => List.mem_of_mem_filter hv
  · intro h
    refine h.of_forall fun d hd v _ hv => List.mem_filter.2 ⟨hv, decide_eq_true fun heq => ?_⟩
    obtain rfl : v = d := Operand.var.inj heq
    -- otherwise the copy is a cycle alone, which is the whole of `c`
    have hloop : Cycle.Chain (CopiesFrom copies) ↑[v] := (Cycle.chain_singleton _ v).2 hv
    have hone : c = ↑[v] := by
      refine chain_eq_of_mem (fun a b b' hb hb' => ?_) h.chain hloop h.nodup ?_ hd ?_
      · exact Operand.var.inj (Prod.mk.inj (List.inj_on_of_nodup_map nodup hb hb' rfl)).2
      · exact Cycle.nodup_coe_iff.2 (List.nodup_singleton v)
      · exact Cycle.mem_coe_iff.2 (.head _)
    have hlength := h.two_le
    rw [hone] at hlength
    exact absurd hlength (by simp)

/-- Copies to different variables are made one after the other, whatever makes the temporaries, as
long as these are different from each other and from the variables of the copies. The order is found
before the bound is reached. Every destination ends up with what its source held before, and no
variable but the destinations and the temporaries changes. A temporary is made for exactly one
member of each cycle. One copy is made for each destination that is not its own source, and one for
each temporary. -/
theorem sequenceCopies_one_temporary_per_cycle {σ : Type} {fresh : Var → σ → Var × σ} {s : σ}
    {copies : List Copy} (nodup : (copies.map Prod.fst).Nodup) (hs : Supplies fresh s copies) :
    ∃ out s' calls,
      sequenceCopies fresh copies s = (out, s') ∧
      sequenceCopies (logged fresh) copies (s, []) = (out, s', calls) ∧
      (∀ bound, 3 * (copies.filter fun c => decide (c.2 ≠ .var c.1)).length ≤ bound →
        orderPending fresh bound (copies.filter fun c => decide (c.2 ≠ .var c.1)) s = (out, s')) ∧
      (∀ env : Env, (∀ c ∈ copies, (env.copyAll out).getD c.1 0 = env.value c.2) ∧
        ∀ v, v ∉ copies.map Prod.fst → v ∉ temporaries fresh calls s →
          (env.copyAll out).get? v = env.get? v) ∧
      calls.Nodup ∧ (∀ c, IsCopyCycle copies c → ∃! d, d ∈ c ∧ d ∈ calls) ∧
      (∀ d ∈ calls, ∃ c, IsCopyCycle copies c ∧ d ∈ c) ∧
      {c | IsCopyCycle copies c}.ncard = calls.length ∧
      (out.map Prod.fst).Perm
        ((copies.filter fun c => decide (c.2 ≠ .var c.1)).map Prod.fst ++
          temporaries fresh calls s) := by
  have hsub : (copies.filter fun c => decide (c.2 ≠ .var c.1)).Sublist copies := List.filter_sublist
  obtain ⟨⟨calls, hlogged⟩, _⟩ := sequences_sequenceCopies (hs.logged [])
  obtain ⟨hcopies, hstate⟩ := orderPending_logged fresh
    (3 * (copies.filter fun c => decide (c.2 ≠ .var c.1)).length) (copies.filter fun c =>
      decide (c.2 ≠ .var c.1)) (s, [])
  obtain ⟨hseq, hcalls⟩ := hlogged.log
  have hfilter := hs.of_subset hsub.subset
  have hds := (hseq.saved hfilter).1
  obtain ⟨hone, hsome⟩ := hseq.cycles hfilter (nodup.sublist (hsub.map _))
    fun c hc => of_decide_eq_true (List.mem_filter.1 hc).2
  simp only [isCopyCycle_filter_iff nodup] at hone hsome
  refine ⟨_, _, calls, rfl, Prod.ext hcopies (Prod.ext hstate hcalls),
    (sequences_sequenceCopies hs).2, ?_, hds, hone, hsome, ncard_cycles hds hone hsome nodup, ?_⟩
  · exact hcopies ▸ hseq.realizes_all hs nodup
  · exact hcopies ▸ hseq.perm

/-- A swap, two variables that spread from it, a constant and a copy that moves nothing. -/
def swapAndSpread : List Copy :=
  [(⟨"a", none⟩, .var ⟨"b", none⟩), (⟨"b", none⟩, .var ⟨"a", none⟩),
    (⟨"c", none⟩, .var ⟨"a", none⟩), (⟨"d", none⟩, .var ⟨"c", none⟩), (⟨"e", none⟩, .const 7),
    (⟨"f", none⟩, .var ⟨"f", none⟩)]

theorem sequenceCopies_swapAndSpread :
    (swapAndSpread.map Prod.fst).Nodup ∧ Supplies Temporaries.fresh ⟨.empty, 0⟩ swapAndSpread ∧
      {c | IsCopyCycle swapAndSpread c}.ncard = 1 ∧
      ∀ env : Env, ∀ c ∈ swapAndSpread,
        (env.copyAll (sequenceCopies Temporaries.fresh swapAndSpread ⟨.empty, 0⟩).1).getD c.1 0
          = env.value c.2 := by
  have nodup : (swapAndSpread.map Prod.fst).Nodup := by decide
  have hplain : ∀ c ∈ swapAndSpread, c.1.version = none ∧ ∀ v, c.2 = .var v → v.version = none := by
    simp [swapAndSpread]
  have hs : Supplies Temporaries.fresh ⟨.empty, 0⟩ swapAndSpread := by
    refine Temporaries.Covers.supplies ⟨fun c hc n hn => ?_, fun c hc v hv n hn => ?_⟩
    · rw [(hplain c hc).1] at hn
      cases hn
    · rw [(hplain c hc).2 v hv] at hn
      cases hn
  obtain ⟨out, t', calls, hout, hcalls, _, hvalues, _, _, _, hcount, _⟩ :=
    sequenceCopies_one_temporary_per_cycle nodup hs
  have hone : calls = [⟨"a", none⟩] := by
    have h : (sequenceCopies (logged Temporaries.fresh) swapAndSpread (⟨.empty, 0⟩, [])).2.2
        = [⟨"a", none⟩] := by decide
    rwa [hcalls] at h
  refine ⟨nodup, hs, ?_, fun env => ?_⟩
  · rw [hcount, hone]
    rfl
  · rw [hout]
    exact (hvalues env).1

end ThreeAddress

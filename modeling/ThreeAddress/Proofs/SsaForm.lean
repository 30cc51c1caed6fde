import Mathlib.Data.List.Pairwise
import ThreeAddress.Proofs.DominatorTree
import ThreeAddress.Proofs.WellFormed

/-!
# SSA form

`Func.SsaForm` says what SSA form asks for in terms of paths: each value has one definition, and
each use reads a value whose definition dominates it. What is available at a point is what the
parameters, the blocks that strictly dominate and the instructions before it define.
`checkSsa_eq_ok` shows that the check accepts exactly these functions.
-/

namespace ThreeAddress

variable {v : Var} {instrs : List Instr} {b : Block} {i : Instr}

/-- What stands opposite an item of the second list. -/
theorem exists_of_forall₂ {α β : Type} {R : α → β → Prop} {l : List α} {l' : List β}
    (h : List.Forall₂ R l l') {b : β} (hb : b ∈ l') : ∃ a ∈ l, R a b := by
  induction h with
  | nil => cases hb
  | @cons a b' _ _ hr _ ih =>
    rcases List.mem_cons.1 hb with rfl | hb
    · exact ⟨a, .head _, hr⟩
    · obtain ⟨a', ha', hr'⟩ := ih hb
      exact ⟨a', .tail _ ha', hr'⟩

/-- The variables that some instructions define, in order. -/
def destsOf (instrs : List Instr) : List Var := instrs.filterMap Instr.dest?

theorem destsOf_append (xs ys : List Instr) : destsOf (xs ++ ys) = destsOf xs ++ destsOf ys :=
  List.filterMap_append

theorem destsOf_cons (i : Instr) (instrs : List Instr) :
    destsOf (i :: instrs) = i.dest?.toList ++ destsOf instrs := by
  unfold destsOf
  cases h : i.dest? with
  | none => simp [h]
  | some v => simp [h]

theorem mem_destsOf : v ∈ destsOf instrs ↔ ∃ i ∈ instrs, i.dest? = some v :=
  List.mem_filterMap

theorem mem_destsOf_snoc : v ∈ destsOf (instrs ++ [i]) ↔ v ∈ destsOf instrs ∨ i.dest? = some v := by
  rw [destsOf_append, List.mem_append]
  exact or_congr_right (by simp [mem_destsOf])

theorem destsOf_map_phi (φs : List Phi) : destsOf (φs.map .phi) = φs.map (·.dest) := by
  rw [destsOf, List.filterMap_map]
  exact List.filterMap_eq_map' ▸ rfl

/-- A block defines the results of its phis, then what its body defines. -/
theorem Block.Tidy.destsOf_eq (h : b.Tidy) :
    destsOf b.instrs = b.phis.map (·.dest) ++ destsOf b.body := by
  conv => lhs; rw [h.instrs_eq]
  rw [destsOf_append, destsOf_map_phi]

namespace Func

variable {l : Label} {site : Label × Nat} {order : List Label} {post pre : List Instr}
  {sites sites' : Sites} {x : Operand} {place : Nat}

/-- The values that parameters arrive with. -/
def paramVars (f : Func) : List Var := f.params.map fun p => ⟨p, some 0⟩

/-- The block registered under `l` defines `v`. -/
def Defines (f : Func) (l : Label) (v : Var) : Prop := ∃ b, f.block? l = some b ∧
    v ∈ destsOf b.instrs

/-- `v` is available where control enters `l`. -/
def AvailIn (f : Func) (l : Label) (v : Var) : Prop :=
  v ∈ f.paramVars ∨ ∃ a, f.graph.StrictlyDominates a l ∧ f.Defines a v

/-- `v` is available at the end of `l`. -/
def AvailOut (f : Func) (l : Label) (v : Var) : Prop := f.AvailIn l v ∨ f.Defines l v

/-- Each value has one definition, with a version. Blocks that cannot be reached do not count. -/
structure DefinedOnce (f : Func) : Prop where
  params_nodup : f.params.Nodup
  versioned : ∀ {l v}, f.graph.Reachable l → f.Defines l v → v.version ≠ none
  not_param : ∀ {l v}, f.graph.Reachable l → f.Defines l v → v ∉ f.paramVars
  nodup : ∀ {l b}, f.graph.Reachable l → f.block? l = some b → (destsOf b.instrs).Nodup
  apart : ∀ {l l' v}, f.graph.Reachable l → f.graph.Reachable l' → f.Defines l v → f.Defines l' v →
    l = l'

/-- Each value has one definition, and each use reads a value that is available. -/
structure SsaForm (f : Func) : Prop extends DefinedOnce f where
  use : ∀ {l b pre i post v}, f.graph.Reachable l → f.block? l = some b → b.instrs = pre ++
    i :: post →
    i.isPhi = false → .var v ∈ i.uses → f.AvailIn l v ∨ v ∈ destsOf pre
  termUse : ∀ {l b t v}, f.graph.Reachable l → f.block? l = some b → b.term = some t →
    .var v ∈ t.uses →
    f.AvailOut l v
  phiUse : ∀ {l b φ a v}, f.graph.Reachable l → f.block? l = some b → φ ∈ b.phis → a ∈ φ.incoming →
    f.graph.Reachable a.block → a.value = .var v → f.AvailOut a.block v

/-- The version counters are at or above all versions in use. -/
structure Counted (f : Func) : Prop where
  nonneg : ∀ x ∈ f.params, 0 ≤ f.lastVersion x
  bound : ∀ {l v n}, f.Defines l v → v.version = some n → n ≤ f.lastVersion v.name

/-- An operand of a phi that can be reached is undefined only on an edge that no path from the phi
takes. -/
def UndefinedAcyclic (f : Func) : Prop :=
  ∀ l b φ a, f.graph.Reachable l → f.block? l = some b → φ ∈ b.phis → a ∈ φ.incoming →
    a.value = .undefined →
    ¬ f.graph.Leads l a.block

/-- No phi stands at the entry, where control may come from nowhere. -/
def EntryPhiFree (f : Func) : Prop := ∀ b, f.block? f.entry = some b → b.phis = []

instance (f : Func) : Decidable f.EntryPhiFree :=
  inferInstanceAs (Decidable (∀ b ∈ f.block? f.entry, b.phis = []))

theorem EntryPhiFree.instrs_eq {f : Func} (h : f.EntryPhiFree) (wf : f.WellFormed)
    (hb : f.block? f.entry = some b) : b.instrs = [] ++ b.body := by
  have heq := (wf.tidy hb).instrs_eq
  rwa [h b hb] at heq

/-- What the check of SSA form asks for. -/
structure IsSsa (f : Func) : Prop where
  wf : f.WellFormed
  ssa : f.ssa = true
  form : f.SsaForm

/-- The function is in SSA form, and its counters know all versions. -/
structure InSsa (f : Func) : Prop extends IsSsa f where
  counted : f.Counted

/-- What SSA construction leaves: SSA form, with nothing that cannot be reached and an entry that is
no target. -/
structure Regular (f : Func) : Prop extends InSsa f where
  reachable : ∀ l ∈ f.blocks, f.graph.Reachable l
  entry_first : ∀ l, f.entry ∉ f.graph.next l
  entry_phiFree : f.EntryPhiFree
  undefined : f.UndefinedAcyclic

variable {f : Func}

theorem DefinedOnce.nodup_phis (once : f.DefinedOnce) (hl : f.graph.Reachable l)
    (hb : f.block? l = some b) (htidy : b.Tidy) : (b.phis.map (·.dest)).Nodup := by
  have := once.nodup hl hb
  rw [htidy.destsOf_eq, List.nodup_append] at this
  exact this.1

theorem defines_iff (hb : f.block? l = some b) : f.Defines l v ↔ v ∈ destsOf b.instrs := by
  constructor
  · rintro ⟨b', hb', hv⟩
    rw [hb] at hb'
    cases hb'
    exact hv
  · exact fun hv => ⟨b, hb, hv⟩

/-- What is available after an edge was available before it. -/
theorem AvailIn.of_edge {s : Label} (hs : s ∈ f.graph.next l) (h : f.AvailIn s v) :
    f.AvailOut l v := by
  rcases h with h | ⟨a, ha, hdef⟩
  · exact .inl (.inl h)
  · have hal := Graph.dominates_of_edge ha.2 ha.1 hs
    by_cases heq : a = l
    · exact .inr (heq ▸ hdef)
    · exact .inl (.inr ⟨a, ⟨heq, hal⟩, hdef⟩)

/-- What is available at the end of a dominator is available. -/
theorem AvailOut.of_strictlyDominates {a : Label} (hl : f.graph.Reachable l)
    (ha : f.graph.StrictlyDominates a l) (h : f.AvailOut a v) : f.AvailIn l v := by
  rcases h with (h | ⟨c, hc, hdef⟩) | hdef
  · exact .inl h
  · exact .inr ⟨c, hc.2.trans_strictly hl ha, hdef⟩
  · exact .inr ⟨a, ha, hdef⟩

theorem SsaForm.version_of_availOut (h : f.SsaForm) (hl : f.graph.Reachable l)
    (hv : f.AvailOut l v) : v.version ≠ none := by
  rcases hv with (hv | ⟨a, ha, hdef⟩) | hdef
  · obtain ⟨p, _, rfl⟩ := List.mem_map.1 hv
    intro h
    cases h
  · exact h.versioned (ha.2.reachable hl) hdef
  · exact h.versioned hl hdef

/-- The operands of an instruction are available before it. -/
theorem SsaForm.operand_available (form : f.SsaForm) (hl : f.graph.Reachable l)
    (hb : f.block? l = some b) (heq : b.instrs = pre ++ i :: post) (hi : i.isPhi = false)
    (hx : x ∈ i.uses) (v : Var) (hv : x = .var v) : f.AvailIn l v ∨ v ∈ destsOf pre :=
  form.use hl hb heq hi (hv ▸ hx)

/-- What an instruction reads is available at the end of its block. -/
theorem SsaForm.availOut_of_use (form : f.SsaForm) (hl : f.graph.Reachable l)
    (hb : f.block? l = some b) (hmem : i ∈ b.instrs) (hi : i.isPhi = false) (hv : .var v ∈ i.uses) :
    f.AvailOut l v := by
  obtain ⟨pre, post, heq⟩ := List.append_of_mem hmem
  refine (form.use hl hb heq hi hv).imp_right fun hpre => ⟨b, hb, ?_⟩
  rw [heq, destsOf_append]
  exact List.mem_append_left _ hpre

/-- The operand of a phi on an edge that runs is available before the edge. -/
theorem SsaForm.phi_operand_available (form : f.SsaForm) {x : Label} {c : Block}
    (hl : f.graph.Reachable l) (hx : f.graph.Reachable x) (hc : f.block? x = some c) {φ : Phi}
    (hφ : φ ∈ c.phis) (v : Var) (hv : φ.operand l = .var v) : f.AvailOut l v := by
  obtain ⟨a, ha, rfl, hval⟩ := Phi.mem_incoming_of_operand hv Operand.noConfusion
  exact form.phiUse hx hc hφ ha hl hval

/-- The variable has a version that was handed out, or none. -/
def Old (f : Func) (v : Var) : Prop := ∀ n, v.version = some n → n ≤ f.lastVersion v.name

/-- What is available is old. -/
theorem Counted.old_of_availOut (h : f.Counted) (hv : f.AvailOut l v) : f.Old v := by
  intro n hn
  rcases hv with (hv | ⟨a, _, hdef⟩) | hdef
  · obtain ⟨p, hp, rfl⟩ := List.mem_map.1 hv
    cases hn
    exact h.nonneg p hp
  · exact h.bound hdef hn
  · exact h.bound hdef hn

theorem counted_iff : f.Counted ↔ (∀ x ∈ f.params, 0 ≤ f.lastVersion x) ∧
    ∀ b ∈ f.blockList, ∀ v ∈ destsOf b.instrs, ∀ n ∈ v.version, n ≤ f.lastVersion v.name := by
  constructor
  · intro h
    refine ⟨h.nonneg, fun b hb v hv n hn => ?_⟩
    obtain ⟨l, hl⟩ := Table.mem_values.1 hb
    exact h.bound ⟨b, hl, hv⟩ hn
  · rintro ⟨hnonneg, hbound⟩
    refine ⟨hnonneg, fun {l v n} hv hn => ?_⟩
    obtain ⟨b, hb, hv⟩ := hv
    exact hbound b (Table.mem_values.2 ⟨l, hb⟩) v hv n hn

instance (f : Func) : Decidable f.Counted := decidable_of_iff _ counted_iff.symm

/-- Values are still defined once if there are fewer definitions. -/
theorem DefinedOnce.of_sublist {f' : Func} (once : f.DefinedOnce) (hparams : f'.params = f.params)
    (hreach : ∀ l, f'.graph.Reachable l → f.graph.Reachable l)
    (hblock : ∀ l b', f'.block? l = some b' → ∃ b, f.block? l = some b ∧
      (destsOf b'.instrs).Sublist (destsOf b.instrs)) : f'.DefinedOnce := by
  have hdefines : ∀ {l v}, f'.Defines l v → f.Defines l v := by
    rintro l v ⟨b', hb', hv⟩
    obtain ⟨b, hb, hsub⟩ := hblock l b' hb'
    exact ⟨b, hb, hsub.subset hv⟩
  have hparamVars : f'.paramVars = f.paramVars := by rw [paramVars, paramVars, hparams]
  refine ⟨hparams ▸ once.params_nodup, fun hl hv => once.versioned (hreach _ hl) (hdefines hv),
    fun hl hv => hparamVars ▸ once.not_param (hreach _ hl) (hdefines hv), fun {l b'} hl hb' => ?_,
    fun hl hl' hv hv' => once.apart (hreach _ hl) (hreach _ hl') (hdefines hv) (hdefines hv')⟩
  obtain ⟨b, hb, hsub⟩ := hblock l b' hb'
  exact (once.nodup (hreach l hl) hb).sublist hsub

/-! ## The sites of definitions -/

/-- Where the instructions of block `l` define variables, from place `place` on. -/
def siteList (l : Label) : (place : Nat) → List Instr → List (Var × Label × Nat)
  | _, [] => []
  | place, i :: rest => (i.dest?.toList.map fun d => (d, l, place)) ++ siteList l (place + 1) rest

theorem mem_siteList :
    (v, site) ∈ siteList l place instrs ↔
      ∃ pre i post, instrs = pre ++ i :: post ∧ i.dest? = some v ∧
      site = (l, place + pre.length) := by
  induction instrs generalizing place with
  | nil =>
    constructor
    · intro h
      cases h
    · rintro ⟨pre, i, post, h, _⟩
      cases pre <;> cases h
  | cons j rest ih =>
    rw [siteList, List.mem_append, ih]
    constructor
    · rintro (h | ⟨pre, i, post, rfl, hi, rfl⟩)
      · obtain ⟨d, hd, heq⟩ := List.mem_map.1 h
        cases heq
        exact ⟨[], j, rest, rfl, Option.mem_toList.1 hd, rfl⟩
      · exact ⟨j :: pre, i, post, rfl, hi, by rw [List.length_cons, Nat.add_right_comm,
          Nat.add_assoc]⟩
    · rintro ⟨pre, i, post, heq, hi, rfl⟩
      cases pre with
      | nil =>
        injection heq with hj _
        subst hj
        exact .inl (List.mem_map.2 ⟨v, Option.mem_toList.2 hi, rfl⟩)
      | cons j' pre =>
        injection heq with hj hrest
        exact .inr ⟨pre, i, post, hrest, hi, by rw [List.length_cons, Nat.add_right_comm,
          Nat.add_assoc]⟩

theorem map_fst_siteList (l : Label) (place : Nat) (instrs : List Instr) :
    (siteList l place instrs).map Prod.fst = destsOf instrs := by
  induction instrs generalizing place with
  | nil => rfl
  | cons i rest ih =>
    rw [siteList, List.map_append, ih, destsOf_cons, List.map_map]
    exact congrArg (· ++ destsOf rest) (List.map_id _)

/-- `sites'` holds the sites `sites` and then those of `defs`, which are versioned and all
different. -/
structure Extends (sites : Sites) (defs : List (Var × Label × Nat)) (sites' : Sites) : Prop where
  versioned : ∀ e ∈ defs, e.1.version ≠ none
  entries_eq : sites'.entries = sites.entries ++ defs

theorem Extends.nil : Extends sites [] sites' ↔ sites' = sites := by
  constructor
  · intro h
    exact Table.ext_entries (by rw [h.entries_eq, List.append_nil])
  · rintro rfl
    exact ⟨fun _ h => (nomatch h), (List.append_nil _).symm⟩

theorem Extends.append {xs ys : List (Var × Label × Nat)} :
    Extends sites (xs ++ ys) sites' ↔ ∃ mid, Extends sites xs mid ∧ Extends mid ys sites' := by
  constructor
  · rintro ⟨hv, he⟩
    have hnodup : ((sites.entries ++ xs).map Prod.fst).Nodup := by
      have := sites'.nodup
      rw [he, ← List.append_assoc, List.map_append] at this
      exact (List.nodup_append.1 this).1
    refine ⟨⟨sites.entries ++ xs, hnodup⟩, ⟨fun e h => hv e (List.mem_append_left _ h), rfl⟩,
      fun e h => hv e (List.mem_append_right _ h), ?_⟩
    rw [he, List.append_assoc]
  · rintro ⟨mid, ⟨hv, he⟩, hv', he'⟩
    refine ⟨fun e h => ?_, by rw [he', he, List.append_assoc]⟩
    rcases List.mem_append.1 h with h | h
    · exact hv e h
    · exact hv' e h

theorem addSite_eq_ok :
    f.addSite sites v l place = .ok sites' ↔ Extends sites [(v, l, place)] sites' := by
  unfold addSite
  constructor
  · intro h
    cases hv : v.version with
    | none =>
      rw [hv] at h
      cases h
    | some n =>
      cases hs : sites.get? v with
      | some s =>
        rw [hv, hs] at h
        cases h
      | none =>
        rw [hv, hs] at h
        cases h
        refine ⟨fun e he => ?_, Table.put_eq_append (Table.get?_eq_none_iff.1 hs)⟩
        rw [List.mem_singleton.1 he, hv]
        intro h
        cases h
  · rintro ⟨hv, he⟩
    have hversion := hv (v, l, place) (.head _)
    have hfresh : v ∉ sites := by
      intro hmem
      have := sites'.nodup
      rw [he, List.map_append, List.nodup_append] at this
      exact this.2.2 v hmem v (.head _) rfl
    cases hn : v.version with
    | none => exact absurd hn hversion
    | some n =>
      rw [Table.get?_eq_none_iff.2 hfresh]
      show Except.ok (sites.insert v (l, place)) = _
      congr 1
      apply Table.ext_entries
      rw [he]
      exact Table.put_eq_append hfresh

theorem paramSites_eq_ok {ps : List String} :
    f.paramSites sites ps = .ok sites' ↔
      Extends sites (ps.map fun p => (⟨p, some 0⟩, f.entry, 0)) sites' := by
  induction ps generalizing sites with
  | nil =>
    rw [List.map_nil, Extends.nil, paramSites]
    exact ⟨fun h => (Except.ok.inj h).symm, fun h => h ▸ rfl⟩
  | cons p ps ih =>
    show _ ↔ Extends sites ([(⟨p, some 0⟩, f.entry, 0)] ++ ps.map _) sites'
    rw [Extends.append, paramSites, bind_eq_ok]
    exact exists_congr fun mid => and_congr addSite_eq_ok ih

theorem instrSites_eq_ok :
    f.instrSites l sites place instrs = .ok sites' ↔
      Extends sites (siteList l place instrs) sites' := by
  induction instrs generalizing sites place with
  | nil =>
    rw [siteList, Extends.nil, instrSites]
    exact ⟨fun h => (Except.ok.inj h).symm, fun h => h ▸ rfl⟩
  | cons i rest ih =>
    rw [siteList, Extends.append, instrSites]
    cases i.dest? with
    | none =>
      show f.instrSites l sites (place + 1) rest = _ ↔ ∃ mid, Extends sites [] mid ∧ _
      simp only [Extends.nil, exists_eq_left]
      exact ih
    | some d =>
      show (f.addSite sites d l place >>= fun sites => f.instrSites l sites (place + 1) rest) = _
        ↔ _
      rw [bind_eq_ok]
      exact exists_congr fun mid => and_congr addSite_eq_ok ih

/-- Where a block defines variables. -/
def sitesIn (f : Func) (l : Label) : List (Var × Label × Nat) :=
  match f.block? l with
  | none => []
  | some b => siteList l 1 b.instrs

theorem blockSites_eq_ok {labels : List Label} (hblocks : ∀ l ∈ labels, l ∈ f.blocks) :
    f.blockSites sites labels = .ok sites' ↔ Extends sites (labels.flatMap f.sitesIn) sites' := by
  induction labels generalizing sites with
  | nil =>
    rw [List.flatMap_nil, Extends.nil, blockSites]
    exact ⟨fun h => (Except.ok.inj h).symm, fun h => h ▸ rfl⟩
  | cons l labels ih =>
    obtain ⟨b, hb⟩ := exists_block.1 (hblocks l (.head _))
    have hhere : f.sitesIn l = siteList l 1 b.instrs := by rw [sitesIn, hb]
    have hrecall : f.recallBlock l = .ok b := by rw [recallBlock, hb]
    rw [List.flatMap_cons, Extends.append, blockSites, hrecall, hhere]
    show (f.instrSites l sites 1 b.instrs >>= fun sites => f.blockSites sites labels) = _ ↔ _
    rw [bind_eq_ok]
    refine exists_congr fun mid => and_congr instrSites_eq_ok ?_
    exact ih fun l hl => hblocks l (.tail _ hl)

/-- Where a function defines variables: the parameters, then the blocks that can be reached. -/
def definitions (f : Func) (order : List Label) : List (Var × Label × Nat) :=
  (f.params.map fun p => (⟨p, some 0⟩, f.entry, 0)) ++ order.flatMap f.sitesIn

theorem mem_sitesIn :
    (v, site) ∈ f.sitesIn l ↔ ∃ b pre i post, f.block? l = some b ∧ b.instrs = pre ++ i :: post ∧
      i.dest? = some v ∧ site = (l, 1 + pre.length) := by
  unfold sitesIn
  cases hb : f.block? l with
  | none => simp
  | some b =>
    show _ ∈ siteList l 1 b.instrs ↔ _
    rw [mem_siteList]
    constructor
    · rintro ⟨pre, i, post, h⟩
      exact ⟨b, pre, i, post, rfl, h⟩
    · rintro ⟨_, pre, i, post, heq, h⟩
      cases heq
      exact ⟨pre, i, post, h⟩

theorem defines_of_mem_sitesIn (h : (v, site) ∈ f.sitesIn l) : site.1 = l ∧ f.Defines l v := by
  obtain ⟨b, pre, i, post, hb, heq, hi, rfl⟩ := mem_sitesIn.1 h
  exact ⟨rfl, b, hb, mem_destsOf.2 ⟨i, heq ▸ List.mem_append_right _ (.head _), hi⟩⟩

theorem exists_site_of_defines (h : f.Defines l v) : ∃ n, (v, l, n) ∈ f.sitesIn l := by
  obtain ⟨b, hb, hv⟩ := h
  obtain ⟨i, hi, hd⟩ := mem_destsOf.1 hv
  obtain ⟨pre, post, heq⟩ := List.append_of_mem hi
  exact ⟨1 + pre.length, mem_sitesIn.2 ⟨b, pre, i, post, hb, heq, hd, rfl⟩⟩

theorem map_fst_sitesIn (hb : f.block? l = some b) :
    (f.sitesIn l).map Prod.fst = destsOf b.instrs := by
  rw [sitesIn, hb]
  exact map_fst_siteList l 1 b.instrs

/-! ## Definitions that are unique -/

theorem map_fst_paramSites (f : Func) :
    (f.params.map fun p => ((⟨p, some 0⟩, f.entry, 0) : Var × Label × Nat)).map Prod.fst
      = f.paramVars := by
  simp [paramVars, Function.comp_def]

theorem nodup_paramVars : f.paramVars.Nodup ↔ f.params.Nodup := by
  unfold paramVars
  constructor
  · exact fun h => List.Nodup.of_map _ h
  · intro h
    rw [List.nodup_iff_pairwise_ne, List.pairwise_map]
    exact h.imp fun hne heq => hne (congrArg Var.name heq)

theorem mem_definitions {e : Var × Label × Nat} :
    e ∈ f.definitions order ↔ (∃ p ∈ f.params, e = (⟨p, some 0⟩, f.entry, 0)) ∨ ∃ l ∈ order,
      e ∈ f.sitesIn l := by
  rw [definitions, List.mem_append, List.mem_map, List.mem_flatMap]
  refine or_congr_left (exists_congr fun p => and_congr_right fun _ => eq_comm)

theorem mem_map_fst_sitesIn : v ∈ (f.sitesIn l).map Prod.fst ↔ f.Defines l v := by
  constructor
  · intro h
    obtain ⟨e, he, rfl⟩ := List.mem_map.1 h
    exact (defines_of_mem_sitesIn he).2
  · intro h
    obtain ⟨n, hn⟩ := exists_site_of_defines h
    exact List.mem_map_of_mem (f := Prod.fst) hn

/-- The list of definitions is in order exactly if each value has one definition. -/
theorem definedOnce_iff (wf : f.WellFormed) (nodup : order.Nodup)
    (mem_order : ∀ l, l ∈ order ↔ f.graph.Reachable l) :
    f.DefinedOnce ↔ (∀ e ∈ f.definitions order, e.1.version ≠ none) ∧
      ((f.definitions order).map Prod.fst).Nodup := by
  have hnodup : ((f.definitions order).map Prod.fst).Nodup ↔ f.params.Nodup ∧
      (order.flatMap fun l => (f.sitesIn l).map Prod.fst).Nodup ∧
      ∀ v ∈ f.paramVars, ∀ w ∈ order.flatMap fun l => (f.sitesIn l).map Prod.fst, v ≠ w := by
    rw [definitions, List.map_append, map_fst_paramSites, List.nodup_append, nodup_paramVars,
      List.map_flatMap]
  rw [hnodup, List.nodup_flatMap]
  constructor
  · intro h
    refine ⟨fun e he => ?_, h.params_nodup, ⟨fun l hl => ?_, ?_⟩, fun v hv w hw heq => ?_⟩
    · rcases mem_definitions.1 he with ⟨p, _, rfl⟩ | ⟨l, hl, he⟩
      · intro h
        cases h
      · exact h.versioned ((mem_order l).1 hl) (defines_of_mem_sitesIn he).2
    · obtain ⟨b, hb⟩ := wf.block_of_reachable ((mem_order l).1 hl)
      rw [map_fst_sitesIn hb]
      exact h.nodup ((mem_order l).1 hl) hb
    · refine nodup.imp_of_mem fun {l l'} hl hl' hne v hv hv' => hne ?_
      exact h.apart ((mem_order l).1 hl) ((mem_order l').1 hl') (mem_map_fst_sitesIn.1 hv)
        (mem_map_fst_sitesIn.1 hv')
    · obtain ⟨l, hl, hw⟩ := List.mem_flatMap.1 hw
      exact h.not_param ((mem_order l).1 hl) (mem_map_fst_sitesIn.1 hw) (heq ▸ hv)
  · rintro ⟨hversioned, hparams, ⟨hin, hpair⟩, hparam⟩
    have hsite : ∀ {l v}, f.graph.Reachable l → f.Defines l v →
        v ∈ order.flatMap fun l => (f.sitesIn l).map Prod.fst := fun hl hv =>
      List.mem_flatMap.2 ⟨_, (mem_order _).2 hl, mem_map_fst_sitesIn.2 hv⟩
    refine ⟨hparams, fun {l v} hl hv => ?_, fun hl hv hp => hparam _ hp _ (hsite hl hv) rfl,
      fun {l b} hl hb => ?_, ?_⟩
    · obtain ⟨n, hn⟩ := exists_site_of_defines hv
      exact hversioned _ (mem_definitions.2 (.inr ⟨l, (mem_order l).2 hl, hn⟩))
    · rw [← map_fst_sitesIn hb]
      exact hin l ((mem_order l).2 hl)
    · intro l l' v hl hl' hv hv'
      by_cases hne : l = l'
      · exact hne
      · have hsymm : Std.Symm (Function.onFun List.Disjoint fun l => (f.sitesIn l).map Prod.fst) :=
          ⟨fun _ _ h _ ha ha' => h ha' ha⟩
        have hdisj := hpair.forall ((mem_order l).2 hl) ((mem_order l').2 hl') hne
        exact absurd (mem_map_fst_sitesIn.2 hv') (hdisj (mem_map_fst_sitesIn.2 hv))

/-! ## Uses of what is available -/

/-- `v` is defined at a place of `l` before `place`, or in a block that strictly dominates `l`. -/
def SiteFor (f : Func) (order : List Label) (l : Label) (place : Nat) (v : Var) : Prop :=
  ∃ home n, (v, home, n) ∈ f.definitions order ∧
    (home = l ∧ n < place ∨ home ≠ l ∧ f.graph.Dominates home l)

theorem siteFor_iff (mem_order : ∀ l, l ∈ order ↔ f.graph.Reachable l) (hl : f.graph.Reachable l)
    (hb : f.block? l = some b) (heq : b.instrs = pre ++ post) :
    f.SiteFor order l (pre.length + 1) v ↔ f.AvailIn l v ∨ v ∈ destsOf pre := by
  constructor
  · rintro ⟨home, n, hmem, hplace⟩
    rcases mem_definitions.1 hmem with ⟨p, hp, he⟩ | ⟨a, ha, hsite⟩
    · cases he
      exact .inl (.inl (List.mem_map_of_mem hp))
    · obtain ⟨rfl, hdef⟩ := defines_of_mem_sitesIn hsite
      rcases hplace with ⟨rfl, hn⟩ | ⟨hne, hdom⟩
      · obtain ⟨b', pre', i, post', hb', heq', hi, hn'⟩ := mem_sitesIn.1 hsite
        rw [hb] at hb'
        cases hb'
        injection hn' with _ hn'
        -- The defining instruction comes earlier in the block, in the part before the use.
        have hprefix : (pre' ++ [i]) <+: pre := by
          have hleft : (pre' ++ [i]) <+: b.instrs := ⟨post', by rw [heq', List.append_assoc]; rfl⟩
          have hright : pre <+: b.instrs := ⟨post, heq.symm⟩
          refine List.prefix_of_prefix_length_le hleft hright ?_
          · rw [List.length_append, List.length_singleton]
            omega
        refine .inr (mem_destsOf.2 ⟨i, hprefix.subset ?_, hi⟩)
        exact List.mem_append_right _ (.head _)
      · exact .inl (.inr ⟨home, ⟨hne, hdom⟩, hdef⟩)
  · rintro ((hp | ⟨a, ha, hdef⟩) | hpre)
    · obtain ⟨p, hmem, rfl⟩ := List.mem_map.1 hp
      refine ⟨f.entry, 0, mem_definitions.2 (.inl ⟨p, hmem, rfl⟩), ?_⟩
      by_cases he : f.entry = l
      · exact .inl ⟨he, Nat.succ_pos _⟩
      · exact .inr ⟨he, Graph.entry_dominates l⟩
    · obtain ⟨n, hn⟩ := exists_site_of_defines hdef
      refine ⟨a, n, mem_definitions.2 (.inr ⟨a, (mem_order a).2 (ha.2.reachable hl), hn⟩), .inr ha⟩
    · obtain ⟨i, hi, hd⟩ := mem_destsOf.1 hpre
      obtain ⟨pre', post', rfl⟩ := List.append_of_mem hi
      refine ⟨l, 1 + pre'.length,
        mem_definitions.2 (.inr ⟨l, (mem_order l).2 hl, mem_sitesIn.2 ?_⟩), .inl ⟨rfl, ?_⟩⟩
      · exact ⟨b, pre', i, post' ++ post, hb, by rw [heq, List.append_assoc]; rfl, hd, rfl⟩
      · rw [List.length_append, List.length_cons]
        omega

/-- What is available at the end of a block, from any place after its instructions. -/
theorem siteFor_end_iff (mem_order : ∀ l, l ∈ order ↔ f.graph.Reachable l)
    (hl : f.graph.Reachable l) (hb : f.block? l = some b) (k : Nat) :
    f.SiteFor order l (b.instrs.length + 1 + k) v ↔ f.AvailOut l v := by
  have hall := siteFor_iff (v := v) mem_order hl hb (List.append_nil b.instrs).symm
  rw [AvailOut, defines_iff hb, ← hall]
  constructor
  · rintro ⟨home, n, hmem, ⟨rfl, hn⟩ | hdom⟩
    · refine ⟨home, n, hmem, .inl ⟨rfl, ?_⟩⟩
      rcases mem_definitions.1 hmem with ⟨p, _, he⟩ | ⟨a, _, hsite⟩
      · cases he
        exact Nat.succ_pos _
      · obtain ⟨b', pre, i, post, hb', heq, _, hn'⟩ := mem_sitesIn.1 hsite
        injection hn' with ha hn'
        subst ha
        rw [hb] at hb'
        cases hb'
        rw [hn', heq, List.length_append, List.length_cons]
        omega
    · exact ⟨home, n, hmem, .inr hdom⟩
  · rintro ⟨home, n, hmem, ⟨rfl, hn⟩ | hdom⟩
    · exact ⟨home, n, hmem, .inl ⟨rfl, by omega⟩⟩
    · exact ⟨home, n, hmem, .inr hdom⟩

/-! ## The check -/

section Check

variable {d : Dominators}

/-- The facts that the check of uses works with. -/
structure CheckData (f : Func) (d : Dominators) (sites : Sites) : Prop where
  describes : d.Describes f.graph
  entries_eq : sites.entries = f.definitions d.order
  versioned : ∀ e ∈ f.definitions d.order, e.1.version ≠ none

theorem CheckData.get?_eq (data : CheckData f d sites) :
    sites.get? v = some site ↔ (v, site) ∈ f.definitions d.order := by
  rw [Table.get?_eq_some_iff, data.entries_eq]

theorem CheckData.checkUse_eq_ok (data : CheckData f d sites) (hl : f.graph.Reachable l) :
    f.checkUse d sites l place x = .ok () ↔ ∀ v, x = .var v → f.SiteFor d.order l place v := by
  cases x with
  | const n => simp [checkUse]
  | undefined => simp [checkUse]
  | var v =>
    have hvar : (∀ w, Operand.var v = .var w → f.SiteFor d.order l place w) ↔
        f.SiteFor d.order l place v :=
      ⟨fun h => h v rfl, fun h w hw => by cases hw; exact h⟩
    rw [hvar]
    unfold SiteFor
    cases hs : sites.get? v with
    | none =>
      have hnone : ∀ home n, (v, home, n) ∉ f.definitions d.order := by
        intro home n hmem
        rw [data.get?_eq.2 hmem] at hs
        cases hs
      cases hv : v.version with
      | none => simp [checkUse, hv, hnone]
      | some k => simp [checkUse, hv, hs, hnone]
    | some site =>
      obtain ⟨home, n⟩ := site
      have hmem := data.get?_eq.1 hs
      have huniq : ∀ home' n', (v, home', n') ∈ f.definitions d.order → home' = home ∧ n' = n := by
        intro home' n' hmem'
        rw [data.get?_eq.2 hmem'] at hs
        cases hs
        exact ⟨rfl, rfl⟩
      cases hv : v.version with
      | none => exact absurd hv (data.versioned _ hmem)
      | some k =>
        simp only [checkUse, hv, hs]
        constructor
        · intro h
          refine ⟨home, n, hmem, ?_⟩
          split at h
          · rename_i hhome
            exact .inl ⟨hhome, require_eq_ok.1 h⟩
          · rename_i hhome
            exact .inr ⟨hhome, (Graph.dominates_iff data.describes hl).1 (require_eq_ok.1 h)⟩
        · rintro ⟨home', n', hmem', hplace⟩
          obtain ⟨rfl, rfl⟩ := huniq home' n' hmem'
          rcases hplace with ⟨hhome, hn⟩ | ⟨hhome, hdom⟩
          · rw [if_pos hhome]
            exact require_eq_ok.2 hn
          · rw [if_neg hhome]
            exact require_eq_ok.2 ((Graph.dominates_iff data.describes hl).2 hdom)

/-- The uses of some instructions of a block are right. -/
def UsesIn (f : Func) (l : Label) (preds : List Label) (pre instrs : List Instr) : Prop :=
  ∀ mid i post, instrs = mid ++ i :: post →
    (i.isPhi = false → ∀ v, .var v ∈ i.uses → f.AvailIn l v ∨ v ∈ destsOf (pre ++ mid)) ∧
      ∀ φ, i = .phi φ → ∀ a ∈ φ.incoming, a.block ∈ preds → f.graph.Reachable a.block →
        ∀ v, a.value = .var v → f.AvailOut a.block v

theorem CheckData.checkPhiArg_eq_ok (data : CheckData f d sites) (wf : f.WellFormed)
    {preds : List Label} {a : PhiArg} :
    f.checkPhiArg d sites preds a = .ok () ↔ (a.block ∈ preds → f.graph.Reachable a.block →
      ∀ v, a.value = .var v → f.AvailOut a.block v) := by
  have hreach : d.isReachable a.block = true ↔ f.graph.Reachable a.block := by
    rw [Dominators.isReachable, Table.contains_iff, data.describes.mem_doms]
  unfold checkPhiArg
  split
  · rename_i h
    rw [hreach] at h
    obtain ⟨b, hb⟩ := wf.block_of_reachable h.2
    have hrecall : f.recallBlock a.block = .ok b := by rw [recallBlock, hb]
    rw [hrecall]
    show f.checkUse d sites a.block (b.instrs.length + 1 + 1) a.value = _ ↔ _
    rw [data.checkUse_eq_ok h.2]
    simp only [siteFor_end_iff data.describes.mem_order h.2 hb]
    exact ⟨fun hu _ _ => hu, fun hu => hu h.1 h.2⟩
  · rename_i h
    rw [hreach] at h
    simp only [true_iff]
    exact fun hp hr => absurd ⟨hp, hr⟩ h

theorem CheckData.checkInstrs_eq_ok (data : CheckData f d sites) (wf : f.WellFormed)
    (hl : f.graph.Reachable l) (hb : f.block? l = some b) (heq : b.instrs = pre ++ instrs) :
    f.checkInstrs d sites l b.preds (pre.length + 1) instrs = .ok () ↔
      f.UsesIn l b.preds pre instrs := by
  induction instrs generalizing pre with
  | nil =>
    simp only [checkInstrs, true_iff]
    intro mid i post h
    cases mid <;> cases h
  | cons j rest ih =>
    have ih := @ih (pre ++ [j]) (by rw [heq, List.append_assoc]; rfl)
    rw [List.length_append, List.length_singleton] at ih
    have hhere : f.UsesIn l b.preds pre (j :: rest) ↔
        ((j.isPhi = false → ∀ v, .var v ∈ j.uses → f.AvailIn l v ∨ v ∈ destsOf pre) ∧
          ∀ φ, j = .phi φ → ∀ a ∈ φ.incoming, a.block ∈ b.preds → f.graph.Reachable a.block →
            ∀ v, a.value = .var v → f.AvailOut a.block v) ∧
            f.UsesIn l b.preds (pre ++ [j]) rest := by
      constructor
      · intro h
        refine ⟨?_, fun mid i post hrest => ?_⟩
        · have := h [] j rest rfl
          rwa [List.append_nil] at this
        · have := h (j :: mid) i post (by rw [hrest]; rfl)
          rwa [List.append_cons] at this
      · rintro ⟨hj, hrest⟩ mid i post h
        cases mid with
        | nil =>
          injection h with h _
          subst h
          rwa [List.append_nil]
        | cons j' mid =>
          injection h with h hr
          subst h
          rw [List.append_cons]
          exact hrest mid i post hr
    rw [hhere]
    by_cases hphi : j.isPhi = true
    · obtain ⟨φ, rfl⟩ : ∃ φ, j = .phi φ := by cases j <;> simp_all [Instr.isPhi]
      show (checkAll (f.checkPhiArg d sites b.preds) φ.incoming >>=
        fun _ => f.checkInstrs d sites l b.preds _ rest) = _ ↔ _
      rw [check_bind_eq_ok, checkAll_eq_ok, ih]
      refine and_congr_left fun _ => ⟨fun h => ⟨fun hi => by simp [hphi] at hi, ?_⟩,
        fun h a ha => ?_⟩
      · rintro _ ⟨rfl⟩ a ha
        exact (data.checkPhiArg_eq_ok wf).1 (h a ha)
      · exact (data.checkPhiArg_eq_ok wf).2 (h.2 φ rfl a ha)
    · have hphi : j.isPhi = false := by simpa using hphi
      have hstep : f.checkInstrs d sites l b.preds (pre.length + 1) (j :: rest)
          = (checkAll (f.checkUse d sites l (pre.length + 1)) j.uses >>= fun _ =>
              f.checkInstrs d sites l b.preds (pre.length + 1 + 1) rest) := by
        cases j with
        | phi φ => cases hphi
        | _ => rfl
      rw [hstep, check_bind_eq_ok, checkAll_eq_ok, ih]
      refine and_congr_left fun _ => ⟨fun h => ⟨fun _ v hv => ?_, ?_⟩, fun h x hx => ?_⟩
      · exact (siteFor_iff data.describes.mem_order hl hb heq).1
          ((data.checkUse_eq_ok hl).1 (h _ hv) v rfl)
      · rintro φ rfl
        cases hphi
      · refine (data.checkUse_eq_ok hl).2 fun v hv => ?_
        exact (siteFor_iff data.describes.mem_order hl hb heq).2 (h.1 hphi v (hv ▸ hx))

/-- The uses of a block are right. -/
def UsesRight (f : Func) (l : Label) : Prop :=
  ∀ b, f.block? l = some b → f.UsesIn l b.preds [] b.instrs ∧
    ∀ t, b.term = some t → ∀ v, .var v ∈ t.uses → f.AvailOut l v

theorem CheckData.checkBlock_eq_ok (data : CheckData f d sites) (wf : f.WellFormed)
    (hl : f.graph.Reachable l) : f.checkBlock d sites l = .ok () ↔ f.UsesRight l := by
  obtain ⟨b, hb⟩ := wf.block_of_reachable hl
  have hrecall : f.recallBlock l = .ok b := by rw [recallBlock, hb]
  have hinstrs := data.checkInstrs_eq_ok wf hl hb (show b.instrs = [] ++ b.instrs from rfl)
  have hright : f.UsesRight l ↔ f.UsesIn l b.preds [] b.instrs ∧
      ∀ t, b.term = some t → ∀ v, .var v ∈ t.uses → f.AvailOut l v := by
    constructor
    · exact fun h => h b hb
    · intro h b' hb'
      rw [hb] at hb'
      cases hb'
      exact h
  unfold checkBlock
  rw [hright, hrecall]
  show (f.checkInstrs d sites l b.preds 1 b.instrs >>= fun _ => _) = _ ↔ _
  rw [check_bind_eq_ok]
  refine and_congr hinstrs ?_
  cases ht : b.term with
  | none => simp
  | some t =>
    show checkAll (f.checkUse d sites l (b.instrs.length + 1 + 0)) t.uses = _ ↔ _
    rw [checkAll_eq_ok]
    constructor
    · rintro h _ ⟨rfl⟩ v hv
      exact (siteFor_end_iff data.describes.mem_order hl hb 0).1
        ((data.checkUse_eq_ok hl).1 (h _ hv) v rfl)
    · intro h x hx
      refine (data.checkUse_eq_ok hl).2 fun v hv => ?_
      exact (siteFor_end_iff data.describes.mem_order hl hb 0).2 (h t rfl v (hv ▸ hx))

end Check

theorem ssaForm_iff (wf : f.WellFormed) :
    f.SsaForm ↔ f.DefinedOnce ∧ ∀ l, f.graph.Reachable l → f.UsesRight l := by
  constructor
  · intro h
    refine ⟨h.toDefinedOnce, fun l hl b hb => ⟨?_, ?_⟩⟩
    · rintro mid i post heq
      refine ⟨fun hi v hv => h.use hl hb heq hi hv, ?_⟩
      rintro φ rfl a ha _ hr v hv
      have hφ : φ ∈ b.phis := (wf.tidy hb).phi_mem_iff.1 (heq ▸ List.mem_append_right _ (.head _))
      exact h.phiUse hl hb hφ ha hr hv
    · intro t ht v hv
      exact h.termUse hl hb ht hv
  · rintro ⟨once, uses⟩
    refine ⟨once, ?_, ?_, ?_⟩
    · intro l b pre i post v hl hb heq hi hv
      exact ((uses l hl b hb).1 pre i post heq).1 hi v hv
    · intro l b t v hl hb ht hv
      exact (uses l hl b hb).2 t ht v hv
    · intro l b φ a v hl hb hφ ha hr hv
      obtain ⟨pre, post, heq⟩ := List.append_of_mem ((wf.tidy hb).phi_mem_iff.2 hφ)
      have hpred : a.block ∈ b.preds := (wf.tidy hb).labels_eq φ hφ ▸ List.mem_map_of_mem ha
      exact ((uses l hl b hb).1 pre _ post heq).2 φ rfl a ha hpred hr v hv

theorem WellFormed.dominators (wf : f.WellFormed) :
    ∃ d, f.dominators = .ok d ∧ d.Describes f.graph := by
  obtain ⟨d, hd, h⟩ := Graph.dominators_describes wf.graph_closed
  refine ⟨d, ?_, h⟩
  unfold Func.dominators
  rw [hd]
  rfl

theorem checkValues_eq_ok (wf : f.WellFormed) {d : Dominators} (hd : d.Describes f.graph) :
    f.checkValues d = .ok () ↔ f.SsaForm := by
  have hblocks : ∀ l ∈ d.order, l ∈ f.blocks :=
    fun l hl => mem_graph.1 (wf.graph_closed l ((hd.mem_order l).1 hl))
  unfold checkValues
  simp only [bind_eq_ok, paramSites_eq_ok, blockSites_eq_ok hblocks, checkAll_eq_ok]
  rw [ssaForm_iff wf, definedOnce_iff wf hd.nodup hd.mem_order]
  constructor
  · rintro ⟨mid, hparams, sites, hsites, hcheck⟩
    have hext : Extends .empty (f.definitions d.order) sites :=
      Extends.append.2 ⟨mid, hparams, hsites⟩
    have hentries : sites.entries = f.definitions d.order := by
      rw [hext.entries_eq]
      rfl
    have data : CheckData f d sites := ⟨hd, hentries, hext.versioned⟩
    refine ⟨⟨hext.versioned, hentries ▸ sites.nodup⟩, fun l hl => ?_⟩
    exact (data.checkBlock_eq_ok wf hl).1 (hcheck l ((hd.mem_order l).2 hl))
  · rintro ⟨⟨hversioned, hnodup⟩, huses⟩
    have hext : Extends .empty (f.definitions d.order) ⟨f.definitions d.order, hnodup⟩ :=
      ⟨hversioned, rfl⟩
    have data : CheckData f d ⟨f.definitions d.order, hnodup⟩ := ⟨hd, rfl, hversioned⟩
    obtain ⟨mid, hparams, hsites⟩ := Extends.append.1 hext
    refine ⟨mid, hparams, _, hsites, fun l hl => ?_⟩
    exact (data.checkBlock_eq_ok wf ((hd.mem_order l).1 hl)).2 (huses l ((hd.mem_order l).1 hl))

/-- The check accepts the functions in SSA form. -/
theorem checkSsa_eq_ok : f.checkSsa = .ok () ↔ f.ssa = true ∧ f.WellFormed ∧ f.SsaForm := by
  simp only [checkSsa, checkSsaGraph, check_bind_eq_ok, require_eq_ok, checkCfg_eq_ok, and_assoc]
  refine and_congr_right fun _ => and_congr_right fun wf => ?_
  obtain ⟨d, hd, hdesc⟩ := wf.dominators
  rw [hd]
  exact checkValues_eq_ok wf hdesc

theorem isSsa_iff : f.IsSsa ↔ f.checkSsa = .ok () := by
  rw [checkSsa_eq_ok]
  exact ⟨fun h => ⟨h.ssa, h.wf, h.form⟩, fun h => ⟨h.2.1, h.1, h.2.2⟩⟩

end Func

end ThreeAddress

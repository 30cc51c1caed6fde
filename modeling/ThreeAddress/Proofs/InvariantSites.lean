import ThreeAddress.Hoist
import ThreeAddress.Proofs.Loops

/-!
# Invariant code

What the search for invariant code finds (`DefinedOnce.movable_invariantSites`): instructions of the
loop, each once, that can run anywhere, in an order in which each reads only what the loop does not
define or an earlier one defines.
-/

namespace ThreeAddress

variable {s : Site} {i : Instr} {v : Var}

/-- In a list that defines nothing twice, two instructions with the same result are one. -/
theorem index_eq_of_dest {instrs : List Instr} (nodup : (destsOf instrs).Nodup) {m n : Nat}
    {j : Instr} (hi : instrs[m]? = some i) (hj : instrs[n]? = some j) (hiv : i.dest? = some v)
    (hjv : j.dest? = some v) : m = n := by
  have hpair := List.pairwise_filterMap.1 nodup
  have hlt : ∀ {m n : Nat} {i j : Instr}, instrs[m]? = some i → instrs[n]? = some j →
      i.dest? = some v →
      j.dest? = some v → ¬ m < n := by
    intro m n i j hi hj hiv hjv hlt
    obtain ⟨hm, rfl⟩ := List.getElem?_eq_some_iff.1 hi
    obtain ⟨hn, rfl⟩ := List.getElem?_eq_some_iff.1 hj
    exact List.pairwise_iff_getElem.1 hpair m n hm hn hlt v hiv v hjv rfl
  exact Nat.le_antisymm (Nat.not_lt.1 (hlt hj hi hjv hiv)) (Nat.not_lt.1 (hlt hi hj hiv hjv))

/-! ## Instructions that can be moved -/

namespace Instr

/-- What an instruction that can be moved assigns. -/
def result (value : Operand → Int) (mem : Memory) : Instr → Int
  | binary _ op l r =>
    match evalBinary op (value l) (value r) with
    | .ok n => n
    | .error _ => 0
  | unary _ op x =>
    match evalUnary op (value x) with
    | .ok n => n
    | .error _ => 0
  | copy _ x => value x
  | load _ a => mem.getD (value a) 0
  | _ => 0

theorem result_congr {value value' : Operand → Int} (h : ∀ x ∈ i.uses, value' x = value x)
    (mem : Memory) : i.result value' mem = i.result value mem := by
  cases i with
  | binary d op l r =>
    have hl := h l (by simp [uses])
    have hr := h r (by simp [uses])
    simp [result, hl, hr]
  | unary d op x => simp [result, h x (by simp [uses])]
  | copy d x => simp [result, h x (by simp [uses])]
  | load d a => simp [result, h a (by simp [uses])]
  | _ => rfl

end Instr

/-- An operation that cannot fail on its right operand has a result. -/
theorem BinaryOp.eval_of_not_traps (o : BinaryOp) (a : Int) {b : Int} (h : o.traps = true → b ≠ 0) :
    ∃ n, o.eval a b = .ok n := by
  cases o with
  | div => exact ⟨_, if_neg (h rfl)⟩
  | mod => exact ⟨_, if_neg (h rfl)⟩
  | _ => exact ⟨_, rfl⟩

section Movable

variable {writes : Bool}

theorem exists_dest_of_isMovable (h : isMovable writes i = true) : ∃ d, i.dest? = some d := by
  cases i with
  | store a v => cases h
  | call d g args => cases h
  | write v => cases h
  | _ => exact ⟨_, rfl⟩

/-- An instruction that can be moved assigns its result and does nothing else. -/
theorem effect_of_isMovable (h : isMovable writes i = true) {d : Var} (hd : i.dest? = some d)
    (env : Env) (w : World) : i.effect env.value w = .assign d (i.result env.value w.memory) w := by
  cases i with
  | binary _ op l r =>
    cases hd
    unfold isMovable at h
    cases hop : BinaryOp.ofName? op with
    | none =>
      simp only [hop] at h
      cases h
    | some o =>
      simp only [hop] at h
      have hright : o.traps = true → env.value r ≠ 0 := by
        intro htraps
        rw [if_pos htraps] at h
        cases r with
        | const n => exact of_decide_eq_true h
        | var v => cases h
        | undefined => cases h
      obtain ⟨n, hn⟩ := o.eval_of_not_traps (env.value l) hright
      simp only [Instr.effect, Instr.result, evalBinary, hop, hn]
  | unary _ op x =>
    cases hd
    obtain ⟨o, ho⟩ := Option.isSome_iff_exists.1 h
    simp only [Instr.effect, Instr.result, evalUnary, ho]
  | copy _ x =>
    cases hd
    rfl
  | load _ a =>
    cases hd
    rfl
  | store a v => cases h
  | call d g args => cases h
  | read d => cases h
  | write v => cases h
  | phi φ => cases h

/-- If the loop writes memory, the result does not depend on it. -/
theorem result_eq_of_writes (h : isMovable true i = true) (value : Operand → Int)
    (mem mem' : Memory) : i.result value mem' = i.result value mem := by
  cases i with
  | load d a => cases h
  | _ => rfl

theorem isPhi_of_isMovable (h : isMovable writes i = true) : i.isPhi = false := by
  cases i with
  | phi φ => cases h
  | _ => rfl

end Movable

/-! ## The search -/

section Search

variable {inside invariant : List Var} {sites : List Site}

/-- What each site reads is not defined inside, known to be invariant or the result of an earlier
site. -/
def Ordered (inside invariant : List Var) (sites : List Site) : Prop :=
  ∀ pre s post, sites = pre ++ s :: post → ∀ v, .var v ∈ s.instr.uses →
    v ∉ inside ∨ v ∈ invariant ∨ v ∈ destsOf (pre.map (·.instr))

theorem Ordered.nil : Ordered inside invariant [] := by
  intro pre s post h
  cases pre <;> cases h

theorem Ordered.cons (hs : ∀ v, .var v ∈ s.instr.uses → v ∉ inside ∨ v ∈ invariant)
    (h : Ordered inside (s.instr.dest?.toList ++ invariant) sites) :
    Ordered inside invariant (s :: sites) := by
  intro pre c post heq v hv
  cases pre with
  | nil =>
    cases heq
    exact (hs v hv).imp_right .inl
  | cons c' pre =>
    cases heq
    rw [List.map_cons, destsOf_cons, List.mem_append]
    rcases h pre c post rfl v hv with hout | hinv | hpre
    · exact .inl hout
    · exact .inr ((List.mem_append.1 hinv).symm.imp_right .inl)
    · exact .inr (.inr (.inr hpre))

theorem Ordered.append {more : List Site} {invariant' : List Var}
    (h : Ordered inside invariant sites) (h' : Ordered inside invariant' more)
    (hinv : ∀ v ∈ invariant', v ∈ invariant ∨ v ∈ destsOf (sites.map (·.instr))) :
    Ordered inside invariant (sites ++ more) := by
  intro pre s post heq v hv
  rcases List.append_eq_append_iff.1 heq with ⟨mid, rfl, rfl⟩ | ⟨mid, rfl, hmid⟩
  · rw [List.map_append, destsOf_append, List.mem_append]
    rcases h' mid s post rfl v hv with hout | hmem | hmem
    · exact .inl hout
    · exact .inr ((hinv v hmem).imp_right .inl)
    · exact .inr (.inr (.inr hmem))
  · cases mid with
    | nil =>
      rw [List.nil_append] at hmid
      rw [List.append_nil] at hinv
      rcases h' [] s post hmid.symm v hv with hout | hmem | hmem
      · exact .inl hout
      · exact .inr (hinv v hmem)
      · cases hmem
    | cons c mid =>
      cases hmid
      exact h pre s mid rfl v hv

theorem isInvariant_iff {x : Operand} :
    isInvariant inside invariant x = true ↔ ∀ v, x = .var v → v ∉ inside ∨ v ∈ invariant := by
  cases x with
  | var v => simp [isInvariant]
  | const n => simp [isInvariant]
  | undefined => simp [isInvariant]

/-- One walk sorts the candidates, and finds invariant ones in order. -/
theorem sweepInvariants_spec (inside invariant : List Var) (sites : List Site) :
    let sweep := sweepInvariants inside invariant sites
    (sweep.found ++ sweep.rest).Perm sites ∧ Ordered inside invariant sweep.found ∧
      ∀ v ∈ sweep.invariant, v ∈ invariant ∨ v ∈ destsOf (sweep.found.map (·.instr)) := by
  induction sites generalizing invariant with
  | nil => exact ⟨.refl _, .nil, fun v hv => .inl hv⟩
  | cons s sites ih =>
    simp only [sweepInvariants]
    split
    · rename_i hs
      obtain ⟨hperm, hordered, hinv⟩ := ih (s.instr.dest?.toList ++ invariant)
      refine ⟨hperm.cons s, .cons (fun v hv => ?_) hordered, fun v hv => ?_⟩
      · exact isInvariant_iff.1 (List.all_eq_true.1 hs _ hv) v rfl
      · rw [List.map_cons, destsOf_cons, List.mem_append]
        rcases hinv v hv with hmem | hmem
        · exact (List.mem_append.1 hmem).symm.imp_right .inl
        · exact .inr (.inr hmem)
    · obtain ⟨hperm, hordered, hinv⟩ := ih invariant
      exact ⟨List.perm_middle.trans (hperm.cons s), hordered, hinv⟩

/-- All walks together find some of the candidates, in order. -/
theorem growInvariants_spec (inside : List Var) (fuel : Nat) (invariant : List Var)
    (sites : List Site) :
    (∃ rest, (growInvariants inside fuel invariant sites ++ rest).Perm sites) ∧
      Ordered inside invariant (growInvariants inside fuel invariant sites) := by
  induction fuel generalizing invariant sites with
  | zero => exact ⟨⟨sites, .refl _⟩, .nil⟩
  | succ fuel ih =>
    obtain ⟨hperm, hordered, hinv⟩ := sweepInvariants_spec inside invariant sites
    simp only [growInvariants]
    split
    · exact ⟨⟨sites, .refl _⟩, .nil⟩
    · obtain ⟨⟨rest, hrest⟩, hordered'⟩ := ih (sweepInvariants inside invariant sites).invariant
        (sweepInvariants inside invariant sites).rest
      refine ⟨⟨rest, ?_⟩, hordered.append hordered' hinv⟩
      rw [List.append_assoc]
      exact (hrest.append_left _).trans hperm

end Search

/-! ## Sites of a function -/

namespace Func

variable {f : Func} {d : Dominators} {body labels : List Label} {loop : Loop}

/-- The instruction stands where the site says. -/
def HasSite (f : Func) (s : Site) : Prop := ∃ b, f.block? s.block = some b ∧
    b.instrs[s.index]? = some s.instr

theorem mem_sites : s ∈ f.sites labels ↔ s.block ∈ labels ∧ f.HasSite s := by
  unfold sites HasSite
  rw [List.mem_flatMap]
  constructor
  · rintro ⟨l, hl, hs⟩
    cases hb : f.block? l with
    | none =>
      rw [hb] at hs
      cases hs
    | some b =>
      rw [hb] at hs
      obtain ⟨⟨i, n⟩, hmem, rfl⟩ := List.mem_map.1 hs
      exact ⟨hl, b, hb, List.mk_mem_zipIdx_iff_getElem?.1 hmem⟩
  · rintro ⟨hl, b, hb, hi⟩
    refine ⟨s.block, hl, ?_⟩
    rw [hb]
    exact List.mem_map.2 ⟨(s.instr, s.index), List.mk_mem_zipIdx_iff_getElem?.2 hi, rfl⟩

theorem nodup_sites (nodup : labels.Nodup) : (f.sites labels).Nodup := by
  unfold sites
  refine List.nodup_flatMap.2 ⟨fun l _ => ?_, nodup.imp fun {l l'} hne s hs hs' => hne ?_⟩
  · cases hb : f.block? l with
    | none => exact List.nodup_nil
    | some b =>
      refine List.Nodup.map_on (fun a ha c hc heq => ?_) ?_
      · injection heq with _ hindex hinstr
        exact Prod.ext hinstr hindex
      · exact List.Nodup.of_map Prod.snd (by rw [List.zipIdx_map_snd]; exact List.nodup_range')
  · have hblock := List.mem_singleton.1
      (mem_sites.1 (List.mem_flatMap.2 ⟨l, List.mem_singleton_self l, hs⟩)).1
    have hblock' := List.mem_singleton.1
      (mem_sites.1 (List.mem_flatMap.2 ⟨l', List.mem_singleton_self l', hs'⟩)).1
    exact hblock.symm.trans hblock'

/-- Two instructions with the same result are one. -/
theorem DefinedOnce.site_eq (once : f.DefinedOnce) {s' : Site} (hs : f.HasSite s)
    (hs' : f.HasSite s') (hl : f.graph.Reachable s.block) (hl' : f.graph.Reachable s'.block)
    (hv : s.instr.dest? = some v) (hv' : s'.instr.dest? = some v) : s = s' := by
  obtain ⟨b, hb, hi⟩ := hs
  obtain ⟨b', hb', hi'⟩ := hs'
  have hdef : f.Defines s.block v := ⟨b, hb, mem_destsOf.2 ⟨_, List.mem_of_getElem? hi, hv⟩⟩
  have hdef' : f.Defines s'.block v := ⟨b', hb', mem_destsOf.2 ⟨_, List.mem_of_getElem? hi', hv'⟩⟩
  have hblock := once.apart hl hl' hdef hdef'
  rw [hblock, hb'] at hb
  cases hb
  have hindex : s.index = s'.index := index_eq_of_dest (once.nodup hl' hb') hi hi' hv hv'
  rw [hindex, hi'] at hi
  cases s
  cases s'
  cases hblock
  cases hindex
  cases hi
  rfl

/-- The instructions at `sites` can be moved out of the loop `body`. -/
structure Movable (f : Func) (body : List Label) (sites : List Site) : Prop where
  site : ∀ s ∈ sites, s.block ∈ body ∧ f.HasSite s
  nodup : (sites.map (·.instr)).Nodup
  movable : ∃ writes, (∀ s ∈ sites, isMovable writes s.instr = true) ∧
    (writes = false → ∀ l ∈ body, ∀ b, f.block? l = some b → ∀ i ∈ b.instrs, writesMemory i = false)
  operand : ∀ pre i post, sites.map (·.instr) = pre ++ i :: post → ∀ v, .var v ∈ i.uses →
    (∀ l ∈ body, ¬ f.Defines l v) ∨ v ∈ destsOf pre

theorem mem_sites_of_invariant (hs : s ∈ f.invariantSites d loop) :
    s ∈ f.sites (d.order.filter (· ∈ loop.blocks)) := by
  obtain ⟨⟨rest, hperm⟩, _⟩ := growInvariants_spec _ _ [] _
  exact List.mem_of_mem_filter (hperm.subset (List.mem_append_left _ hs))

/-- The sites that are found can be moved. -/
theorem DefinedOnce.movable_invariantSites (once : f.DefinedOnce) (hd : d.Describes f.graph)
    (hbody : ∀ l ∈ loop.blocks, f.graph.Reachable l) :
    f.Movable loop.blocks (f.invariantSites d loop) := by
  let labels := d.order.filter (· ∈ loop.blocks)
  let inside := (f.sites labels).filterMap (·.instr.dest?)
  let writes := (f.sites labels).any (writesMemory ·.instr)
  let candidates := (f.sites labels).filter (isMovable writes ·.instr)
  have hlabels : ∀ l, l ∈ labels ↔ l ∈ loop.blocks := by
    intro l
    rw [List.mem_filter, decide_eq_true_eq]
    exact and_iff_right_of_imp fun hl => (hd.mem_order l).2 (hbody l hl)
  have hinside : ∀ {l b i}, l ∈ loop.blocks → f.block? l = some b → i ∈ b.instrs →
      ∃ n, (⟨l, n, i⟩ : Site) ∈ f.sites labels := by
    intro l b i hl hb hi
    obtain ⟨n, hn⟩ := List.mem_iff_getElem?.1 hi
    exact ⟨n, mem_sites.2 ⟨(hlabels l).2 hl, b, hb, hn⟩⟩
  obtain ⟨⟨rest, hperm⟩, hordered⟩ :=
    growInvariants_spec inside (candidates.length + 1) [] candidates
  have hfound : ∀ s ∈ f.invariantSites d loop, s ∈ candidates := fun s hs =>
    hperm.subset (List.mem_append_left _ hs)
  have hsite : ∀ s ∈ f.invariantSites d loop, s.block ∈ loop.blocks ∧ f.HasSite s := by
    intro s hs
    obtain ⟨hl, hsite⟩ := mem_sites.1 (mem_sites_of_invariant hs)
    exact ⟨(hlabels _).1 hl, hsite⟩
  have hmovable : ∀ s ∈ f.invariantSites d loop, isMovable writes s.instr = true := fun s hs =>
    (List.mem_filter.1 (hfound s hs)).2
  refine ⟨hsite, ?_, ⟨writes, hmovable, fun hwrites l hl b hb i hi => ?_⟩,
    fun pre i post heq v hv => ?_⟩
  · have nodup : (f.invariantSites d loop).Nodup := by
      have hcandidates : candidates.Nodup := (nodup_sites (hd.nodup.filter _)).filter _
      exact (List.nodup_append.1 (hperm.nodup_iff.2 hcandidates)).1
    refine nodup.map_on fun s hs s' hs' heq => ?_
    obtain ⟨v, hv⟩ := exists_dest_of_isMovable (hmovable s hs)
    exact once.site_eq (hsite s hs).2 (hsite s' hs').2 (hbody _ (hsite s hs).1)
      (hbody _ (hsite s' hs').1) hv (heq ▸ hv)
  · obtain ⟨n, hn⟩ := hinside hl hb hi
    have := List.any_eq_false.1 hwrites _ hn
    simpa using this
  · obtain ⟨pre', tail, hsites, rfl, htail⟩ := List.map_eq_append_iff.1 heq
    obtain ⟨s, post', rfl, rfl, rfl⟩ := List.map_eq_cons_iff.1 htail
    rcases hordered pre' s post' hsites v hv with hout | hmem | hmem
    · refine .inl fun l hl hdef => hout ?_
      obtain ⟨b, hb, hv⟩ := hdef
      obtain ⟨i, hi, hd⟩ := mem_destsOf.1 hv
      obtain ⟨n, hn⟩ := hinside hl hb hi
      exact List.mem_filterMap.2 ⟨_, hn, hd⟩
    · cases hmem
    · exact .inr hmem

end Func

end ThreeAddress

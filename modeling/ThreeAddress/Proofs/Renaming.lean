import ThreeAddress.Proofs.Reachability
import ThreeAddress.Proofs.SsaForm
import ThreeAddress.Ssa.Construction

/-!
# Renaming instructions

What renaming does to a list of instructions, and what setting phi operands does to a block, apart
from the walk over the dominator tree. Renaming gives each definition a version above all that were
handed out before, and keeps what each name stands for.
-/

namespace ThreeAddress

variable {versions : Table String Int} {defs : Reaching} {instrs rest : List Instr} {i i' : Instr}
  {r : Renamed} {d v : Var} {P : Var → Prop} {l : Label}

/-! ## Definitions that reach a point -/

namespace Reaching

variable {x : Operand}

section Stacks

variable {defs' : Reaching} {params : List String} {x : String}

theorem stack_push (defs : Reaching) (x : String) (v : Var) (y : String) :
    (defs.push x v).stack y = if y = x then v :: defs.stack x else defs.stack y :=
  Table.getD_insert ..

theorem get?_push (defs : Reaching) (x : String) (v : Var) (y : String) :
    (defs.push x v).get? y = if y = x then some v else defs.get? y := by
  rw [get?, stack_push]
  split <;> rfl

theorem stack_pops (defs : Reaching) (names : List String) (x : String) :
    (names.foldl pop defs).stack x = (defs.stack x).drop (names.count x) := by
  induction names generalizing defs with
  | nil => rfl
  | cons y names ih =>
    have hpop : (defs.pop y).stack x = if x = y then (defs.stack y).tail else defs.stack x :=
      Table.getD_insert ..
    rw [List.foldl_cons, ih, hpop, List.count_cons]
    split
    · rename_i hx
      rw [hx, if_pos (beq_self_eq_true y), List.drop_tail]
    · rename_i hx
      rw [if_neg fun he => hx (eq_of_beq he).symm, Nat.add_zero]

theorem mem_ofParams (hv : v ∈ (ofParams params).stack x) : x ∈ params ∧ v = ⟨x, some 0⟩ := by
  rw [stack, Table.getD] at hv
  cases hx : (ofParams params).byName.get? x with
  | none =>
    rw [hx] at hv
    cases hv
  | some vs =>
    rw [hx] at hv
    obtain ⟨p, hp, heq⟩ := List.mem_map.1 (Table.mem_of_get?_ofList hx)
    cases heq
    exact ⟨hp, List.mem_singleton.1 hv⟩

theorem get?_ofParams (nodup : params.Nodup) (x : String) :
    (ofParams params).get? x = if x ∈ params then some ⟨x, some 0⟩ else none := by
  rw [get?, stack, Table.getD, ofParams, Table.get?_ofList_map nodup]
  split <;> rfl

/-- The stacks hold the same definitions. -/
def Same (defs defs' : Reaching) : Prop := ∀ x, defs.stack x = defs'.stack x

theorem Same.get? (h : defs.Same defs') (x : String) : defs.get? x = defs'.get? x :=
  congrArg List.head? (h x)

theorem Same.pops (h : defs.Same defs') (names : List String) :
    (names.foldl pop defs).Same (names.foldl pop defs') := fun x => by
  rw [stack_pops, stack_pops, h x]

/-- All definitions on the stacks are as `P` says. -/
def Only (P : Var → Prop) (defs : Reaching) : Prop := ∀ x, ∀ v ∈ defs.stack x, P v

theorem Only.get? (h : defs.Only P) (hv : defs.get? x = some v) : P v :=
  h x v (List.mem_of_head? hv)

theorem Only.imp {Q : Var → Prop} (h : defs.Only P) (himp : ∀ v, P v → Q v) : defs.Only Q :=
  fun x v hv => himp v (h x v hv)

theorem Same.only (h : defs.Same defs') (h' : defs'.Only P) : defs.Only P := fun x v hv =>
  h' x v (h x ▸ hv)

theorem Only.push (h : defs.Only P) (x : String) (hv : P v) : (defs.push x v).Only P := by
  intro y w hw
  rw [stack_push] at hw
  split at hw
  · rcases List.mem_cons.1 hw with rfl | hw
    · exact hv
    · exact h x w hw
  · exact h y w hw

theorem Only.pops (h : defs.Only P) (names : List String) : (names.foldl pop defs).Only P := by
  intro x v hv
  rw [stack_pops] at hv
  exact h x v (List.mem_of_mem_drop hv)

theorem only_ofParams (h : ∀ p ∈ params, P ⟨p, some 0⟩) : (ofParams params).Only P := by
  intro x v hv
  obtain ⟨hx, rfl⟩ := mem_ofParams hv
  exact h x hx

end Stacks

/-- A name stands for one of its own versions. -/
def NamesKept (defs : Reaching) : Prop := ∀ x v, defs.get? x = some v → v.name = x

theorem NamesKept.push (h : defs.NamesKept) (v : Var) : (defs.push v.name v).NamesKept := by
  intro x w hw
  rw [get?_push] at hw
  split at hw
  · cases hw
    exact (‹x = v.name›).symm
  · exact h x w hw

theorem resolve_var (defs : Reaching) (v : Var) :
    defs.resolve (.var v) = match defs.get? v.name with
      | some w => .var w
      | none => .undefined := by
  show ((defs.get? v.name).map Operand.var).getD .undefined = _
  cases defs.get? v.name <;> rfl

theorem resolve_of_get? {w : Var} (h : defs.get? v.name = some w) :
    defs.resolve (.var v) = .var w := by
  rw [resolve_var, h]

theorem resolve_of_none (h : defs.get? v.name = none) : defs.resolve (.var v) = .undefined := by
  rw [resolve_var, h]

theorem get?_of_resolve (h : defs.resolve x = .var v) : ∃ name, defs.get? name = some v := by
  cases x with
  | var w =>
    rw [resolve_var] at h
    split at h
    · cases h
      exact ⟨_, ‹_›⟩
    · cases h
  | const n => cases h
  | undefined => cases h

theorem Only.resolve (h : defs.Only P) (hv : defs.resolve x = .var v) : P v := by
  obtain ⟨y, hy⟩ := get?_of_resolve hv
  exact h.get? hy

end Reaching

/-! ## One instruction -/

/-- An instruction with its uses renamed; the operands of phis are set later. -/
def renameUses (defs : Reaching) (i : Instr) : Instr :=
    if i.isPhi then i else i.mapUses defs.resolve

theorem renameInstrs_cons (i : Instr) (rest : List Instr) (versions : Table String Int)
    (defs : Reaching) : let head := renameDest (renameUses defs i) versions defs
    let tail := renameInstrs .sentinel rest head.2.1 head.2.2
    renameInstrs .sentinel (i :: rest) versions defs
      = ⟨head.1 :: tail.instrs, tail.versions, tail.defs,
        defs.unresolved (if i.isPhi then [] else i.uses) ++ tail.missing, tail.refused⟩ :=
  rfl

theorem Instr.uses_setDest (d : Var) (i : Instr) : (i.setDest d).uses = i.uses := by
  cases i with
  | call e g args => cases e <;> rfl
  | _ => rfl

theorem Instr.isPhi_setDest (d : Var) (i : Instr) : (i.setDest d).isPhi = i.isPhi := by
  cases i with
  | call e g args => cases e <;> rfl
  | _ => rfl

theorem Instr.dest?_setDest (d' : Var) (h : i.dest? = some d) : (i.setDest d').dest? = some d' := by
  cases i with
  | call e g args =>
    cases h
    rfl
  | store a v => cases h
  | write v => cases h
  | _ => rfl

theorem dest?_renameUses (defs : Reaching) (i : Instr) : (renameUses defs i).dest? = i.dest? := by
  unfold renameUses
  split
  · rfl
  · exact i.dest?_mapUses _

theorem isPhi_renameUses (defs : Reaching) (i : Instr) : (renameUses defs i).isPhi = i.isPhi := by
  unfold renameUses
  split
  · rfl
  · exact i.isPhi_mapUses _

/-- The version that a definition of a name gets. -/
def nextVersion (versions : Table String Int) (name : String) : Int := versions.getD name 0 + 1

theorem renameDest_of_none (h : i.dest? = none) (versions : Table String Int) (defs : Reaching) :
    renameDest i versions defs = (i, versions, defs) := by
  rw [renameDest, h]

theorem renameDest_of_some (h : i.dest? = some d) (versions : Table String Int) (defs : Reaching) :
    renameDest i versions defs = (i.setDest ⟨d.name, some (nextVersion versions d.name)⟩,
      versions.insert d.name (nextVersion versions d.name),
      defs.push d.name ⟨d.name, some (nextVersion versions d.name)⟩) := by
  rw [renameDest, h]
  rfl

theorem isPhi_renameDest (i : Instr) (versions : Table String Int) (defs : Reaching) :
    (renameDest i versions defs).1.isPhi = i.isPhi := by
  cases hd : i.dest? with
  | none => rw [renameDest_of_none hd]
  | some d =>
    rw [renameDest_of_some hd]
    exact i.isPhi_setDest _

theorem uses_renameDest (i : Instr) (versions : Table String Int) (defs : Reaching) :
    (renameDest i versions defs).1.uses = i.uses := by
  cases hd : i.dest? with
  | none => rw [renameDest_of_none hd]
  | some d =>
    rw [renameDest_of_some hd]
    exact i.uses_setDest _

/-- What a renamed instruction reads, reached it. -/
theorem get?_of_mem_uses (hi : i.isPhi = false)
    (h : .var v ∈ (renameDest (renameUses defs i) versions defs).1.uses) :
    ∃ x, defs.get? x = some v := by
  rw [uses_renameDest, renameUses, if_neg (by simp [hi]), Instr.uses_mapUses] at h
  obtain ⟨y, _, hy⟩ := List.mem_map.1 h
  exact Reaching.get?_of_resolve hy

/-- What reaches the next instruction reached this one or is defined by it. -/
theorem get?_renameDest {x : String} (h : (renameDest i versions defs).2.2.get? x = some v) :
    defs.get? x = some v ∨ (renameDest i versions defs).1.dest? = some v := by
  cases hd : i.dest? with
  | none =>
    rw [renameDest_of_none hd] at h
    exact .inl h
  | some d =>
    rw [renameDest_of_some hd] at h ⊢
    rw [Reaching.get?_push] at h
    split at h
    · cases h
      exact .inr (Instr.dest?_setDest _ hd)
    · exact .inl h

/-- Counters start at 0. -/
theorem nonneg_start (params : List String) (x : String) :
    0 ≤ (Table.ofList (params.map fun p => (p, (0 : Int)))).getD x 0 := by
  rw [Table.getD]
  cases hx : (Table.ofList (params.map fun p => (p, (0 : Int)))).get? x with
  | none => exact Int.le_refl 0
  | some n =>
    obtain ⟨p, _, heq⟩ := List.mem_map.1 (Table.mem_of_get?_ofList hx)
    cases heq
    exact Int.le_refl 0

/-! ## Lists of instructions -/

theorem renameInstrs_append (xs ys : List Instr) (versions : Table String Int) (defs : Reaching) :
    let first := renameInstrs .sentinel xs versions defs
    let second := renameInstrs .sentinel ys first.versions first.defs
    renameInstrs .sentinel (xs ++ ys) versions defs
      = ⟨first.instrs ++ second.instrs, second.versions, second.defs, first.missing ++
        second.missing, second.refused⟩ := by
  induction xs generalizing versions defs with
  | nil => rfl
  | cons i xs ih =>
    have h := ih (renameDest (renameUses defs i) versions defs).2.1
      (renameDest (renameUses defs i) versions defs).2.2
    rw [List.cons_append, renameInstrs_cons, renameInstrs_cons, h]
    simp only [List.cons_append, List.append_assoc]

theorem isPhi_renameInstrs (h : ∀ i ∈ instrs, i.isPhi = false) (versions : Table String Int)
    (defs : Reaching) :
    ∀ i ∈ (renameInstrs .sentinel instrs versions defs).instrs, i.isPhi = false := by
  induction instrs generalizing versions defs with
  | nil => intro i hi; cases hi
  | cons j rest ih =>
    rw [renameInstrs_cons]
    intro i hi
    rcases List.mem_cons.1 hi with rfl | hi
    · rw [isPhi_renameDest, isPhi_renameUses]
      exact h j (.head _)
    · exact ih (fun k hk => h k (.tail _ hk)) _ _ i hi

/-- Renaming keeps the operands of phis. -/
theorem phi_of_renameInstrs (hi : i ∈ (renameInstrs .sentinel instrs versions defs).instrs)
    (hphi : i.isPhi = true) : ∃ j ∈ instrs, j.isPhi = true ∧ j.uses = i.uses := by
  induction instrs generalizing versions defs with
  | nil => cases hi
  | cons j rest ih =>
    rw [renameInstrs_cons] at hi
    rcases List.mem_cons.1 hi with rfl | hi
    · rw [isPhi_renameDest, isPhi_renameUses] at hphi
      refine ⟨j, .head _, hphi, ?_⟩
      rw [uses_renameDest, renameUses, if_pos hphi]
    · obtain ⟨k, hk, hsame⟩ := ih hi
      exact ⟨k, .tail _ hk, hsame⟩

/-- A renamed instruction reads what reached the start or is defined before it. -/
theorem get?_of_use {pre post : List Instr}
    (heq : (renameInstrs .sentinel instrs versions defs).instrs = pre ++ i :: post)
    (hi : i.isPhi = false) (hv : .var v ∈ i.uses) :
    (∃ x, defs.get? x = some v) ∨ v ∈ destsOf pre := by
  induction instrs generalizing versions defs pre with
  | nil =>
    cases pre with
    | nil => cases heq
    | cons j pre => cases heq
  | cons j rest ih =>
    rw [renameInstrs_cons] at heq
    cases pre with
    | nil =>
      injection heq with heq _
      subst heq
      rw [isPhi_renameDest, isPhi_renameUses] at hi
      exact .inl (get?_of_mem_uses hi hv)
    | cons k pre =>
      injection heq with hk heq
      subst hk
      rcases ih heq with ⟨x, hx⟩ | h
      · rcases get?_renameDest hx with hx | hdest
        · exact .inl ⟨x, hx⟩
        · exact .inr (mem_destsOf.2 ⟨_, .head _, hdest⟩)
      · obtain ⟨k, hk, hdest⟩ := mem_destsOf.1 h
        exact .inr (mem_destsOf.2 ⟨k, .tail _ hk, hdest⟩)

/-- What holds of renamed instructions. -/
structure Renames (instrs : List Instr) (versions : Table String Int) (defs : Reaching)
    (r : Renamed) : Prop where
  refused : r.refused = none
  namesKept : defs.NamesKept → r.defs.NamesKept
  /-- Versions only go up. -/
  mono : ∀ x, versions.getD x 0 ≤ r.versions.getD x 0
  /-- A definition gets a version that was not handed out before, and that is accounted for
  after. -/
  fresh : ∀ v ∈ destsOf r.instrs, ∃ n, v.version = some n ∧ versions.getD v.name 0 < n ∧
    n ≤ r.versions.getD v.name 0
  nodup : (destsOf r.instrs).Nodup
  /-- A definition on the stacks was there or is made here. -/
  origin : ∀ x, ∀ v ∈ r.defs.stack x, v ∈ defs.stack x ∨ v ∈ destsOf r.instrs
  /-- Names that are not assigned keep their definition. -/
  unassigned : ∀ x, (∀ d ∈ destsOf instrs, d.name ≠ x) → r.defs.get? x = defs.get? x
  /-- Names that are assigned stand for what is defined here. -/
  assigned : ∀ d ∈ destsOf instrs, ∃ v ∈ destsOf r.instrs, r.defs.get? d.name = some v
  /-- Below the definitions that are made here the stacks are as before. -/
  stacked : ∀ x, (r.defs.stack x).drop ((destsOf instrs).countP (·.name = x)) = defs.stack x

/-- An instruction without destination in front. -/
theorem Renames.cons_of_none (h : Renames rest versions defs r) (hi : i.dest? = none)
    (hi' : i'.dest? = none) (missing : List String) :
    Renames (i :: rest) versions defs { r with instrs := i' :: r.instrs, missing } := by
  have hdests : destsOf (i :: rest) = destsOf rest := List.filterMap_cons_none hi
  have hdests' : destsOf (i' :: r.instrs) = destsOf r.instrs := List.filterMap_cons_none hi'
  refine ⟨h.refused, h.namesKept, h.mono, ?_, ?_, ?_, ?_, ?_, ?_⟩
  · rw [hdests']
    exact h.fresh
  · rw [hdests']
    exact h.nodup
  · rw [hdests']
    exact h.origin
  · rw [hdests]
    exact h.unassigned
  · rw [hdests, hdests']
    exact h.assigned
  · rw [hdests]
    exact h.stacked

/-- An instruction in front whose destination gets a version that was not handed out. -/
theorem Renames.cons_of_some {n : Int}
    (h : Renames rest (versions.insert d.name n) (defs.push d.name v) r) (hi : i.dest? = some d)
    (hi' : i'.dest? = some v) (hv : v = ⟨d.name, some n⟩) (hlt : versions.getD d.name 0 < n)
    (missing : List String) :
    Renames (i :: rest) versions defs { r with instrs := i' :: r.instrs, missing } := by
  have hvname : v.name = d.name := by rw [hv]
  have hinsert : ∀ x, versions.getD x 0 ≤ (versions.insert d.name n).getD x 0 := by
    intro x
    rw [Table.getD_insert]
    split
    · rename_i hx
      rw [hx]
      exact Int.le_of_lt hlt
    · exact Int.le_refl _
  have hself : (versions.insert d.name n).getD d.name 0 = n := by rw [Table.getD_insert, if_pos rfl]
  have hdests : destsOf (i :: rest) = d :: destsOf rest := List.filterMap_cons_some hi
  have hdests' : destsOf (i' :: r.instrs) = v :: destsOf r.instrs := List.filterMap_cons_some hi'
  refine ⟨h.refused, fun hkept => h.namesKept ?_, fun x => Int.le_trans (hinsert x) (h.mono x), ?_,
    ?_, ?_, ?_, ?_, fun x => ?_⟩
  · rw [← hvname]
    exact hkept.push v
  · rw [hdests']
    intro w hw
    rcases List.mem_cons.1 hw with rfl | hw
    · have hmono := h.mono d.name
      rw [hself] at hmono
      rw [hvname]
      exact ⟨n, by rw [hv], hlt, hmono⟩
    · obtain ⟨m, hm, hlow, hhigh⟩ := h.fresh w hw
      exact ⟨m, hm, Int.lt_of_le_of_lt (hinsert w.name) hlow, hhigh⟩
  · rw [hdests', List.nodup_cons]
    refine ⟨fun hmem => ?_, h.nodup⟩
    obtain ⟨m, hm, hlow, _⟩ := h.fresh v hmem
    rw [hv] at hm hlow
    cases hm
    rw [hself] at hlow
    exact absurd hlow (Int.lt_irrefl _)
  · rw [hdests']
    intro x w hw
    rcases h.origin x w hw with hx | hx
    · rw [Reaching.stack_push] at hx
      split at hx
      · rename_i hxd
        rcases List.mem_cons.1 hx with rfl | hx
        · exact .inr (.head _)
        · exact .inl (hxd ▸ hx)
      · exact .inl hx
    · exact .inr (.tail _ hx)
  · rw [hdests]
    intro x hx
    have hne : x ≠ d.name := fun e => hx d (.head _) e.symm
    rw [h.unassigned x fun e he => hx e (.tail _ he), Reaching.get?_push, if_neg hne]
  · rw [hdests, hdests']
    intro e he
    by_cases hlater : ∃ e' ∈ destsOf rest, e'.name = e.name
    · obtain ⟨e', he', hname⟩ := hlater
      obtain ⟨w, hw, hget⟩ := h.assigned e' he'
      exact ⟨w, .tail _ hw, hname ▸ hget⟩
    · have hed : e = d := (List.mem_cons.1 he).resolve_right fun h => hlater ⟨e, h, rfl⟩
      subst hed
      refine ⟨v, .head _, ?_⟩
      rw [h.unassigned e.name fun e' he' hname => hlater ⟨e', he', hname⟩, Reaching.get?_push,
        if_pos rfl]
  · rw [hdests, List.countP_cons]
    split
    · rename_i hx
      rw [← List.drop_drop, h.stacked, Reaching.stack_push, if_pos (of_decide_eq_true hx).symm]
      rw [← of_decide_eq_true hx]
      rfl
    · rename_i hx
      rw [Nat.add_zero, h.stacked, Reaching.stack_push,
        if_neg fun he => hx (decide_eq_true he.symm)]

theorem renames (instrs : List Instr) (versions : Table String Int) (defs : Reaching) :
    Renames instrs versions defs (renameInstrs .sentinel instrs versions defs) := by
  induction instrs generalizing versions defs with
  | nil =>
    exact
      { refused := rfl
        namesKept := fun h => h
        mono := fun x => Int.le_refl _
        fresh := fun v hv => (nomatch hv)
        nodup := List.nodup_nil
        origin := fun x v h => .inl h
        unassigned := fun x _ => rfl
        assigned := fun d hd => (nomatch hd)
        stacked := fun x => rfl }
  | cons i rest ih =>
    rw [renameInstrs_cons]
    cases hd : i.dest? with
    | none =>
      have hd' := (dest?_renameUses defs i).trans hd
      rw [renameDest_of_none hd']
      exact (ih _ _).cons_of_none hd hd' _
    | some d =>
      have hd' := (dest?_renameUses defs i).trans hd
      rw [renameDest_of_some hd']
      refine (ih _ _).cons_of_some hd (Instr.dest?_setDest _ hd') rfl ?_ _
      rw [nextVersion]
      omega

theorem Renames.only (h : Renames instrs versions defs r) (hdefs : defs.Only P)
    (hnew : ∀ v ∈ destsOf r.instrs, P v) : r.defs.Only P := fun x v hv =>
  (h.origin x v hv).elim (hdefs x v) (hnew v)

/-- No name loses its definition. -/
theorem Renames.isSome (h : Renames instrs versions defs r) {x : String}
    (hx : (defs.get? x).isSome) : (r.defs.get? x).isSome := by
  by_cases hmem : ∃ d ∈ destsOf instrs, d.name = x
  · obtain ⟨d, hd, rfl⟩ := hmem
    obtain ⟨v, _, hv⟩ := h.assigned d hd
    rw [hv]
    rfl
  · rw [h.unassigned x fun d hd e => hmem ⟨d, hd, e⟩]
    exact hx

/-- A phi that differs from another in the version of its variable. -/
def Phi.SameName (φ ψ : Phi) : Prop := φ.incoming = ψ.incoming ∧ φ.dest.name = ψ.dest.name

/-- Renaming changes the versions of the variables of phis only. -/
theorem sameName_renameInstrs (instrs : List Instr) (versions : Table String Int)
    (defs : Reaching) :
    (leadingPhis (renameInstrs .sentinel instrs versions defs).instrs).Forall₂ Phi.SameName
      (leadingPhis instrs) := by
  induction instrs generalizing versions defs with
  | nil => exact .nil
  | cons i rest ih =>
    cases i with
    | phi φ => exact .cons ⟨rfl, rfl⟩ (ih _ _)
    | call d g args => cases d <;> exact .nil
    | _ => exact .nil

/-! ## Operands of phis -/

/-- What a phi takes from a predecessor, by the definitions that reach the end of that. -/
def Reaching.operandFor (defs : Reaching) (φ : Phi) : Operand :=
    defs.resolve (.var ⟨φ.dest.name, none⟩)

/-- The phi with its operands set for the predecessors in `done`. -/
def Phi.fill (ends : Label → Reaching) (done : List Label) (φ : Phi) : Phi :=
  { φ with incoming := φ.incoming.map fun a =>
      if a.block ∈ done then { a with value := (ends a.block).operandFor φ } else a }

namespace Phi

variable {ends ends' : Label → Reaching} {done : List Label} {φ : Phi}

theorem labels_fill (φ : Phi) : (φ.fill ends done).labels = φ.labels := by
  simp only [fill, labels, List.map_map]
  apply List.map_congr_left
  intro a _
  simp only [Function.comp]
  split <;> rfl

theorem fill_nil (φ : Phi) : φ.fill ends [] = φ := by
  simp [fill]

/-- Operands are set one predecessor after the other. -/
theorem fill_fill (h : ∀ p ∈ done, ends' p = ends p) (l : Label) (φ : Phi) :
    (φ.fill ends done).fill ends' [l] = φ.fill ends' (done ++ [l]) := by
  simp only [fill, List.map_map, Phi.mk.injEq, true_and]
  apply List.map_congr_left
  intro a _
  simp only [Function.comp, List.mem_singleton, List.mem_append]
  by_cases hl : a.block = l
  · by_cases hd : a.block ∈ done
    · simp [← hl, hd, Reaching.operandFor]
    · simp [← hl, hd, Reaching.operandFor]
  · by_cases hd : a.block ∈ done
    · simp [hl, hd, h _ hd, Reaching.operandFor]
    · simp [hl, hd]

/-- Only predecessors that the phi has operands for count. -/
theorem fill_congr {done' : List Label} (hdone : ∀ p ∈ φ.labels, p ∈ done' ↔ p ∈ done)
    (h : ∀ p ∈ done, ends' p = ends p) : φ.fill ends' done' = φ.fill ends done := by
  simp only [fill, Phi.mk.injEq, true_and]
  apply List.map_congr_left
  intro a ha
  have hiff := hdone a.block (List.mem_map_of_mem ha)
  by_cases hd : a.block ∈ done
  · rw [if_pos hd, if_pos (hiff.2 hd), h _ hd]
  · rw [if_neg hd, if_neg fun hd' => hd (hiff.1 hd')]

theorem fill_setDest (φ : Phi) (h : d.name = φ.dest.name) :
    ({ φ with dest := d } : Phi).fill ends done = { φ.fill ends done with dest := d } := by
  simp only [fill, Reaching.operandFor, h]

theorem setFirst_eq_map {v : Operand} {args : List PhiArg} (nodup : (args.map (·.block)).Nodup) :
    setFirst l v args = args.map fun a => if a.block = l then { a with value := v } else a := by
  induction args with
  | nil => rfl
  | cons a rest ih =>
    obtain ⟨ha, nodup⟩ := List.nodup_cons.1 nodup
    rw [setFirst, List.map_cons]
    split
    · rename_i hl
      have hrest : rest.map (fun a => if a.block = l then { a with value := v } else a) = rest := by
        refine (List.map_congr_left fun c hc => if_neg fun e => ?_).trans (List.map_id rest)
        exact ha (List.mem_map.2 ⟨c, hc, e.trans hl.symm⟩)
      rw [hrest]
    · rw [ih nodup]

theorem setValue?_eq (ends : Label → Reaching) (hl : l ∈ φ.labels) (nodup : φ.labels.Nodup) :
    φ.setValue? l ((ends l).operandFor φ) = some (φ.fill ends [l]) := by
  obtain ⟨a, ha, hal⟩ := List.mem_map.1 hl
  have hany : φ.incoming.any (fun a => decide (a.block = l)) = true :=
    List.any_eq_true.2 ⟨a, ha, by simpa using hal⟩
  rw [setValue?, if_pos hany, setFirst_eq_map nodup]
  congr 2
  apply List.map_congr_left
  intro c _
  by_cases hc : c.block = l
  · simp [hc]
  · simp [hc]

end Phi

/-- Setting the operands for a predecessor changes each leading phi. -/
theorem fillPhis_eq (ends : Label → Reaching)
    (h : ∀ φ ∈ leadingPhis instrs, l ∈ φ.labels ∧ φ.labels.Nodup) :
    ∃ missing, fillPhis l (ends l) instrs = ⟨mapLeadingPhis (Phi.fill ends [l]) instrs, missing,
      none⟩ := by
  induction instrs with
  | nil => exact ⟨_, rfl⟩
  | cons i rest ih =>
    cases i with
    | phi φ =>
      rw [leadingPhis] at h
      obtain ⟨hl, nodup⟩ := h φ (.head _)
      obtain ⟨missing, hrest⟩ := ih fun ψ hψ => h ψ (.tail _ hψ)
      have hset := Phi.setValue?_eq ends hl nodup
      unfold Reaching.operandFor at hset
      rw [fillPhis]
      simp only [hset, hrest]
      exact ⟨_, rfl⟩
    | _ => exact ⟨_, rfl⟩

/-- It makes no difference to renaming whether phis have their operands. -/
theorem renameInstrs_mapLeadingPhis {ends : Label → Reaching} {done : List Label}
    (instrs : List Instr) (versions : Table String Int) (defs : Reaching) :
    renameInstrs .sentinel (mapLeadingPhis (Phi.fill ends done) instrs) versions defs
      = { renameInstrs .sentinel instrs versions defs with
          instrs := mapLeadingPhis (Phi.fill ends done)
            (renameInstrs .sentinel instrs versions defs).instrs } := by
  induction instrs generalizing versions defs with
  | nil => rfl
  | cons i rest ih =>
    cases i with
    | phi φ =>
      have hdest : ∀ ψ : Phi, renameDest (.phi ψ) versions defs
          = (.phi { ψ with dest := ⟨ψ.dest.name, some (nextVersion versions ψ.dest.name)⟩ },
            versions.insert ψ.dest.name (nextVersion versions ψ.dest.name),
            defs.push ψ.dest.name ⟨ψ.dest.name, some (nextVersion versions ψ.dest.name)⟩) :=
              fun _ => rfl
      have hcons : ∀ (ψ : Phi) rest, renameInstrs .sentinel (.phi ψ :: rest) versions defs
          = let head := renameDest (.phi ψ) versions defs
            let tail := renameInstrs .sentinel rest head.2.1 head.2.2
            { tail with instrs := head.1 :: tail.instrs } := fun _ _ => rfl
      rw [mapLeadingPhis, hcons, hcons, hdest, hdest]
      show Renamed.mk _ _ _ _ _ = Renamed.mk _ _ _ _ _
      have ih := ih (versions.insert φ.dest.name (nextVersion versions φ.dest.name))
        (defs.push φ.dest.name ⟨φ.dest.name, some (nextVersion versions φ.dest.name)⟩)
      simp only [show (φ.fill ends done).dest = φ.dest from rfl, ih, mapLeadingPhis,
        Phi.fill_setDest]
    | call d g args => cases d <;> rfl
    | _ => rfl

end ThreeAddress

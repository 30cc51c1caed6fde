import ThreeAddress.Proofs.DistinctNames
import ThreeAddress.Proofs.LegiblePasses

/-!
# Edits that make no variables

`Func.Only P` says that all variables of a function have a property. Edits that delete, move or
redirect code keep any such property; that the variables are among those that occurred at first is
the strongest one. So `Func.Within f` is kept by these edits, whatever makes them succeed.
-/

namespace ThreeAddress

variable {P Q : Var → Prop} {g : Operand → Operand} {φ : Phi}

/-! ## Nodes -/

namespace Node

variable {n : Node}

/-- All variables of the node have the property. -/
def Only (P : Var → Prop) (n : Node) : Prop := ∀ v ∈ n.vars, P v

theorem only_iff : n.Only P ↔ (∀ v, n.dest? = some v → P v) ∧ ∀ v, .var v ∈ n.uses → P v := by
  constructor
  · exact fun h => ⟨fun v hv => h v (mem_vars.2 (.inl hv)), fun v hv => h v (mem_vars.2 (.inr hv))⟩
  · exact fun h v hv => (mem_vars.1 hv).elim (h.1 v) (h.2 v)

theorem Only.imp (h : n.Only P) (himp : ∀ v, P v → Q v) : n.Only Q := fun v hv => himp v (h v hv)

theorem only_phi :
    (Node.instr (.phi φ)).Only P ↔ P φ.dest ∧ ∀ a ∈ φ.incoming, ∀ v, a.value = .var v → P v := by
  rw [only_iff]
  constructor
  · exact fun h => ⟨h.1 _ rfl, fun a ha v hv => h.2 v (List.mem_map.2 ⟨a, ha, hv⟩)⟩
  · rintro ⟨hdest, hincoming⟩
    refine ⟨fun v hv => ?_, fun v hv => ?_⟩
    · cases hv
      exact hdest
    · obtain ⟨a, ha, hv⟩ := List.mem_map.1 hv
      exact hincoming a ha v hv

theorem only_copy {d : Var} {x : Operand} :
    (Node.instr (.copy d x)).Only P ↔ P d ∧ ∀ v, x = .var v → P v := by
  rw [only_iff]
  constructor
  · exact fun h => ⟨h.1 d rfl, fun v hv => h.2 v (hv ▸ List.mem_singleton_self x)⟩
  · rintro ⟨hdest, hsource⟩
    refine ⟨fun v hv => ?_, fun v hv => hsource v (List.mem_singleton.1 hv).symm⟩
    cases hv
    exact hdest

theorem only_jump (l : Label) : (Node.term (.jump l)).Only P := fun v hv => by cases hv

theorem Only.retarget {t : Terminator} (h : (Node.term t).Only P) (old new : Label) :
    (Node.term (t.retarget old new)).Only P := by
  cases t with
  | jump l => exact only_jump _
  | branch c l r => exact h
  | ret v => exact h

/-- New operands count only by the variables that they read. -/
theorem Only.mapUses (h : n.Only P) (hg : ∀ x ∈ n.uses, ∀ v, g x = .var v → P v) :
    (n.mapUses g).Only P := by
  refine only_iff.2 ⟨fun v hv => (only_iff.1 h).1 v (dest?_mapUses g n ▸ hv), fun v hv => ?_⟩
  rw [uses_mapUses] at hv
  obtain ⟨x, hx, hv⟩ := List.mem_map.1 hv
  exact hg x hx v hv

end Node

/-! ## Blocks -/

namespace Block

variable {b : Block}

/-- All variables of the block have the property. -/
structure Only (P : Var → Prop) (b : Block) : Prop where
  instrs : ∀ i ∈ b.instrs, (Node.instr i).Only P
  term : ∀ t, b.term = some t → (Node.term t).Only P

theorem Only.imp (h : b.Only P) (himp : ∀ v, P v → Q v) : b.Only Q :=
  ⟨fun i hi => (h.instrs i hi).imp himp, fun t ht => (h.term t ht).imp himp⟩

theorem only_iff_nodes : b.Only P ↔ ∀ n ∈ b.nodes, n.Only P := by
  constructor
  · intro h n hn
    rcases List.mem_append.1 hn with hn | hn
    · obtain ⟨i, hi, rfl⟩ := List.mem_map.1 hn
      exact h.instrs i hi
    · obtain ⟨t, ht, rfl⟩ := List.mem_map.1 hn
      exact h.term t (Option.mem_toList.1 ht)
  · intro h
    refine ⟨fun i hi => h _ (List.mem_append_left _ (List.mem_map_of_mem hi)), fun t ht => h _ ?_⟩
    exact List.mem_append_right _ (List.mem_map_of_mem (Option.mem_toList.2 ht))

section

variable (h : b.Only P)
include h

theorem Only.phis (hφ : φ ∈ b.phis) : (Node.instr (.phi φ)).Only P :=
  h.instrs _ (phi_mem_of_leading hφ)

theorem Only.setInstrs {instrs : List Instr} (hinstrs : ∀ i ∈ instrs, (Node.instr i).Only P) :
    Only P { b with instrs } := ⟨hinstrs, h.term⟩

theorem Only.setPreds (preds : List Label) : Only P { b with preds } := ⟨h.instrs, h.term⟩

theorem Only.mapTerm {g : Terminator → Terminator}
    (hg : ∀ t, b.term = some t → (Node.term (g t)).Only P) :
    Only P { b with term := b.term.map g } := by
  refine ⟨h.instrs, fun t' ht' => ?_⟩
  obtain ⟨t, ht, rfl⟩ := Option.map_eq_some_iff.1 ht'
  exact hg t ht

theorem Only.mapPhis {g : Phi → Phi} (hg : ∀ φ ∈ b.phis, (Node.instr (.phi (g φ))).Only P) :
    (b.mapPhis g).Only P := by
  refine h.setInstrs fun i hi => ?_
  rcases mem_mapLeadingPhis hi with hi | ⟨φ, hφ, rfl⟩
  · exact h.instrs i hi
  · exact hg φ hφ

theorem Only.retarget (old new : Label) : (b.retarget old new).Only P :=
  h.mapTerm fun t ht => (h.term t ht).retarget old new

theorem Only.dropPred (l : Label) : (b.dropPred l).Only P := by
  refine (h.setPreds _).mapPhis fun φ hφ => ?_
  obtain ⟨hdest, hincoming⟩ := Node.only_phi.1 (h.phis hφ)
  exact Node.only_phi.2 ⟨hdest, fun a ha => hincoming a (List.mem_of_mem_filter ha)⟩

theorem Only.renamePred (old new : Label) : (b.renamePred old new).Only P := by
  refine (h.setPreds _).mapPhis fun φ hφ => ?_
  obtain ⟨hdest, hincoming⟩ := Node.only_phi.1 (h.phis hφ)
  refine Node.only_phi.2 ⟨hdest, fun a ha => ?_⟩
  obtain ⟨a', ha', rfl⟩ := List.mem_map.1 ha
  split
  · exact hincoming a' ha'
  · exact hincoming a' ha'

/-- Operands that read no other variable than before. -/
theorem Only.mapUses (hg : ∀ x v, g x = .var v → x = .var v) : (b.mapUses g).Only P := by
  have hnode : ∀ {n : Node}, n.Only P → (n.mapUses g).Only P := fun hn =>
    hn.mapUses fun x hx v hv => (Node.only_iff.1 hn).2 v (hg x v hv ▸ hx)
  have hinstrs : Only P { b with instrs := b.instrs.map (·.mapUses g) } := by
    refine h.setInstrs fun i hi => ?_
    obtain ⟨j, hj, rfl⟩ := List.mem_map.1 hi
    exact hnode (h.instrs j hj)
  exact hinstrs.mapTerm fun t ht => hnode (h.term t ht)

theorem Only.putConstants (s : Facts) : (s.putConstants b).Only P := by
  refine (h.setInstrs fun i hi => h.instrs i (List.mem_of_mem_filter hi)).mapUses fun x v hx => ?_
  cases x with
  | var w =>
    rw [Facts.substitute] at hx
    split at hx
    · cases hx
    · exact hx
  | _ => cases hx

end

end Block

/-! ## Functions -/

namespace Func

variable {f g g' : Func} {v : Var} {k : Label → Block → Block} {b : Block} {dst src : Label}

/-- All variables that occur have the property. -/
structure Only (P : Var → Prop) (f : Func) : Prop where
  code : ∀ {l b}, f.block? l = some b → b.Only P
  params : ∀ p ∈ f.params, P ⟨p, some 0⟩

theorem only_iff : f.Only P ↔ ∀ v, f.Occurs v → P v := by
  constructor
  · rintro h v (⟨n, hn, hv⟩ | ⟨p, hp, rfl⟩)
    · obtain ⟨l, b, hb, hn⟩ := mem_nodes.1 hn
      exact Block.only_iff_nodes.1 (h.code hb) n hn v hv
    · exact h.params p hp
  · intro h
    refine ⟨fun hb => Block.only_iff_nodes.2 fun n hn v hv => ?_,
      fun p hp => h _ (.inr ⟨p, hp, rfl⟩)⟩
    exact h v (.inl ⟨n, mem_nodes.2 ⟨_, _, hb, hn⟩, hv⟩)

theorem only_occurs (f : Func) : f.Only f.Occurs := only_iff.2 fun _ hv => hv

theorem Only.imp (h : f.Only P) (himp : ∀ v, P v → Q v) : f.Only Q :=
  ⟨fun hb => (h.code hb).imp himp, fun p hp => himp _ (h.params p hp)⟩

theorem Only.rewrite (h : f.Only P) (hk : ∀ l b, f.block? l = some b → (k l b).Only P) :
    (f.rewrite k).Only P := by
  refine ⟨fun hb' => ?_, h.params⟩
  obtain ⟨b, hb, rfl⟩ := of_block?_rewrite hb'
  exact hk _ b hb

theorem Only.modifyBlock (h : f.Only P) (l : Label) {k : Block → Block}
    (hk : ∀ b, f.block? l = some b → (k b).Only P) : (f.modifyBlock l k).Only P := by
  refine h.rewrite (k := fun x b => if x = l then k b else b) fun x b hb => ?_
  split
  · rename_i heq
    exact hk b (heq ▸ hb)
  · exact h.code hb

theorem Only.insertBefore (h : f.Only P) (hb : b.Only P) (before label : Label) :
    Only P { f with blocks := f.blocks.insertBefore before label b } := by
  refine ⟨fun {l b'} hb' => ?_, h.params⟩
  by_cases hlabel : label ∈ f.blocks
  · rw [block?, Table.insertBefore_of_mem hlabel] at hb'
    exact h.code hb'
  · rw [block?, Table.get?_insertBefore hlabel] at hb'
    split at hb'
    · cases hb'
      exact hb
    · exact h.code hb'

theorem Only.erase (h : f.Only P) (l : Label) : Only P { f with blocks := f.blocks.erase l } := by
  refine ⟨fun {x b} hb => ?_, h.params⟩
  rw [block?, Table.get?_erase] at hb
  split at hb
  · cases hb
  · exact h.code hb

/-- Only variables of `f` occur in `g`, and the counters are the same. -/
structure Within (f g : Func) : Prop where
  versions_eq : g.versions = f.versions
  only : g.Only f.Occurs

theorem Within.refl (f : Func) : f.Within f := ⟨rfl, f.only_occurs⟩

theorem Within.rewrite (h : f.Within g) (hk : ∀ l b, b.Only f.Occurs → (k l b).Only f.Occurs) :
    f.Within (g.rewrite k) :=
  ⟨h.versions_eq, h.only.rewrite fun l b hb => hk l b (h.only.code hb)⟩

theorem Within.modifyBlock (h : f.Within g) (l : Label) {k : Block → Block}
    (hk : ∀ b, b.Only f.Occurs → (k b).Only f.Occurs) : f.Within (g.modifyBlock l k) :=
  ⟨h.versions_eq, h.only.modifyBlock l fun b hb => hk b (h.only.code hb)⟩

theorem Within.insertBefore (h : f.Within g) (hb : b.Only f.Occurs) (before label : Label) :
    f.Within { g with blocks := g.blocks.insertBefore before label b } :=
  ⟨h.versions_eq, h.only.insertBefore hb before label⟩

end Func

/-! ## Edits -/

namespace Edit

open Func

variable {f : Func}

theorem removeEdge_within (src dst : Label) :
    (removeEdge src dst).Keeps f.Within fun _ => True := by
  rw [removeEdge_eq_apply]
  refine keeps_apply fun g g' h hremove => ?_
  obtain ⟨b, _, hremove⟩ := bind_eq_ok.1 hremove
  cases hremove
  exact h.modifyBlock dst fun b hb => hb.dropPred src

theorem deleteBlock_within (l : Label) : (deleteBlock l).Keeps f.Within fun _ => True := by
  refine (keeps_ask (R := fun _ => True) fun _ _ _ _ => trivial).bind fun b _ =>
    (keeps_forM fun s _ => keeps_get.bind fun g _ => ?_).bind fun _ _ => ?_
  · split
    · exact removeEdge_within l s
    · exact keeps_pure trivial
  · exact keeps_modify fun g h => ⟨h.versions_eq, h.only.erase l⟩

theorem splitEdge_within (src dst : Label) (name : Option String) :
    (splitEdge src dst name).Keeps f.Within fun _ => True := by
  rw [splitEdge_eq_applyWith]
  refine keeps_applyWith fun g label g' h hsplit => ⟨?_, trivial⟩
  unfold Func.splitEdge at hsplit
  obtain ⟨source, _, hsplit⟩ := bind_eq_ok.1 hsplit
  obtain ⟨target, _, hsplit⟩ := bind_eq_ok.1 hsplit
  split at hsplit
  · cases hsplit
  · cases hsplit
    refine Within.insertBefore ((h.modifyBlock src fun b hb => hb.retarget _ _).modifyBlock dst
      fun b hb =>
      hb.renamePred _ _) ⟨List.forall_mem_nil _, fun t ht => ?_⟩ _ _
    cases ht
    exact Node.only_jump dst

theorem foldBranch_within (l : Label) (taken : Bool) :
    (foldBranch l taken).Keeps f.Within fun _ => True := by
  refine (keeps_ask (R := fun _ => True) fun _ _ _ _ => trivial).bind fun b _ => ?_
  split
  · have hjump : ∀ {b : Block} (keep : Label), b.Only f.Occurs →
        Block.Only f.Occurs { b with term := some (.jump keep) } := by
      refine fun keep hb => ⟨hb.instrs, fun t ht => ?_⟩
      cases ht
      exact Node.only_jump keep
    have hdrop : ∀ keep drop : Label, (if drop ≠ keep then removeEdge l drop >>= fun _ => pure keep
        else pure keep : Edit Label).Keeps f.Within fun _ => True := by
      intro keep drop
      split
      · exact (removeEdge_within l drop).bind fun _ _ => keeps_pure trivial
      · exact keeps_pure trivial
    exact (keeps_modify fun g hg => hg.modifyBlock l fun b hb => hjump _ hb).bind fun _ _ =>
      hdrop _ _
  · exact keeps_get.bind fun _ _ => keeps_fail _

theorem foldBranches_within (s : Facts) (labels : List Label) :
    (foldBranches s labels).Keeps f.Within fun _ => True := by
  induction labels with
  | nil => exact keeps_pure trivial
  | cons l labels ih =>
    refine keeps_get.bind fun g _ => ?_
    dsimp only
    split
    · exact (foldBranch_within l _).bind fun _ _ => (keeps_emit _).bind fun _ _ =>
        ih.bind fun _ _ => keeps_pure trivial
    · exact ih

theorem findConstants_within : findConstants.Keeps f.Within fun _ => True := by
  refine keeps_get.bind fun g _ => (keeps_forM fun e _ => keeps_emit e).bind fun _ _ => ?_
  split
  · exact keeps_fail _
  · exact keeps_pure trivial

theorem propagateConstants_within : propagateConstants.Keeps f.Within fun _ => True := by
  refine keeps_get.bind fun g _ => ?_
  dsimp only
  split
  · exact (keeps_fail (R := fun _ => False) _).bind fun _ hfalse => hfalse.elim
  · refine findConstants_within.bind fun s _ => (foldBranches_within s _).bind fun _ _ =>
      keeps_get.bind fun _ _ =>
      (keeps_forM fun l _ => deleteBlock_within l).bind fun _ _ => keeps_get.bind fun _ _ =>
      (keeps_modify fun g hg => ?_).bind fun _ _ => (keeps_emit _).bind fun _ _ =>
        keeps_pure trivial
    exact hg.rewrite fun l b hb => hb.putConstants s

theorem pruneDeadPhis_within : pruneDeadPhis.Keeps f.Within fun _ => True := by
  refine keeps_get.bind fun g hg => (keeps_modify fun _ _ => ?_).bind fun _ _ => ?_
  · exact hg.rewrite fun l b hb => hb.setInstrs fun i hi => hb.instrs i (List.mem_of_mem_filter hi)
  · split
    · exact (keeps_emit _).bind fun _ _ => keeps_pure trivial
    · exact keeps_pure trivial

theorem removeUnreachable_within : removeUnreachable.Keeps f.Within fun _ => True := by
  refine (keeps_ask (R := fun _ => True) fun _ _ _ _ => trivial).bind fun live _ =>
    keeps_get.bind fun g _ =>
    (keeps_forM fun l _ => deleteBlock_within l).bind fun _ _ => ?_
  dsimp only
  split
  · exact (keeps_emit _).bind fun _ _ => keeps_pure trivial
  · exact keeps_pure trivial

/-- A phi of the old entry may take a parameter as it arrives, which occurs already. -/
theorem ensureEntry_within : ensureEntry.Keeps f.Within fun _ => True := by
  refine keeps_get.bind fun g hg => ?_
  split
  · exact keeps_fail _
  · rename_i old _
    split
    · exact keeps_pure trivial
    · refine (keeps_modify fun _ _ => ?_).bind fun _ _ => (keeps_emit _).bind fun _ _ =>
        keeps_pure trivial
      have hled : f.Within
          (g.modifyBlock g.entry (addEntryPred g.params (g.freshLabel "entry"))) := by
        refine hg.modifyBlock g.entry fun b hb => (hb.setPreds _).mapPhis fun φ hφ => ?_
        obtain ⟨hdest, hincoming⟩ := Node.only_phi.1 (hb.phis hφ)
        refine Node.only_phi.2 ⟨hdest, fun a ha v hv => ?_⟩
        rcases List.mem_append.1 ha with ha | ha
        · exact hincoming a ha v hv
        · rw [List.mem_singleton.1 ha, entryValue] at hv
          split at hv
          · cases hv
            exact hg.only.params _ ‹_›
          · cases hv
      have hfront : Block.Only f.Occurs
          { name := g.freshLabel "entry", term := some (.jump old.name) } := by
        refine ⟨List.forall_mem_nil _, fun t ht => ?_⟩
        cases ht
        exact Node.only_jump old.name
      have hnew := hled.insertBefore hfront old.name (g.freshLabel "entry")
      exact ⟨hnew.versions_eq, hnew.only.code, hnew.only.params⟩

theorem link_within : link.Keeps f.Within fun _ => True := by
  refine keeps_get.bind fun g _ => (keeps_modify fun g hg => ?_).bind fun _ _ => ?_
  · exact hg.rewrite fun l b hb => hb.setPreds _
  · split
    · exact keeps_fail _
    · exact keeps_pure trivial

theorem splitForPhis_within (l : Label) (preds : List Label) :
    (splitForPhis l preds).Keeps f.Within fun _ => True := by
  induction preds with
  | nil => exact keeps_pure trivial
  | cons p preds ih =>
    refine (keeps_ask (R := fun _ => True) fun _ _ _ _ => trivial).bind fun b _ => ?_
    split
    · exact (splitEdge_within p l none).bind fun _ _ => ih.bind fun _ _ => keeps_pure trivial
    · exact ih

theorem isolatePhis_within (labels : List Label) :
    (isolatePhis labels).Keeps f.Within fun _ => True := by
  induction labels with
  | nil => exact keeps_pure trivial
  | cons l labels ih =>
    refine (keeps_ask (R := fun _ => True) fun _ _ _ _ => trivial).bind fun b _ => ?_
    dsimp only
    split
    · exact (keeps_pure (R := fun _ => True) trivial).bind fun _ _ => ih.bind fun _ _ =>
        keeps_pure trivial
    · exact (splitForPhis_within l b.preds).bind fun _ _ => ih.bind fun _ _ => keeps_pure trivial

end Edit

end ThreeAddress

import ThreeAddress.Proofs.SpelledTexts

/-!
# Code that can be written

`Func.Legible` asks for names that are names, whether or not versions are added to them, and for
versions that are not below zero. This is more than printing needs, and it is what passes keep: a
name gets a version, a versioned name becomes plain, a label is made of other labels.
`Func.Presentable` adds that the entry comes first, as it does in a text.
-/

namespace ThreeAddress

open Text

variable {instrs : List Instr} {l new : Label} {d v : Var} {φ : Phi}

/-! ## Legible code -/

/-- The variable can be written with its version and without. -/
structure Var.Legible (v : Var) : Prop where
  name : isName v.name = true
  version : ∀ n, v.version = some n → 0 ≤ n

def Operand.Legible (x : Operand) : Prop := ∀ v, x = .var v → v.Legible

structure Phi.Legible (φ : Phi) : Prop where
  dest : φ.dest.Legible
  incoming : ∀ a ∈ φ.incoming, isName a.block = true ∧ a.value.Legible

structure Node.Legible (n : Node) : Prop where
  dest : ∀ v, n.dest? = some v → v.Legible
  uses : ∀ x ∈ n.uses, x.Legible
  labels : ∀ l ∈ n.labels, isName l = true
  callees : ∀ g ∈ n.callees, isName g = true

structure Block.Legible (b : Block) : Prop where
  name : isName b.name = true
  instrs : ∀ i ∈ b.instrs, (Node.instr i).Legible
  term : ∀ t, b.term = some t → (Node.term t).Legible
  preds : ∀ p ∈ b.preds, isName p = true

structure Func.Legible (f : Func) : Prop where
  name : isName f.name = true
  params : ∀ x ∈ f.params, isName x = true
  params_nodup : f.params.Nodup
  blocks : ∀ {l b}, f.block? l = some b → b.name = l ∧ b.Legible
  counters : ∀ x, 0 ≤ f.lastVersion x

/-- The function can be written, and shows its blocks in the order of their text. -/
structure Func.Presentable (f : Func) : Prop extends Legible f where
  entry_first : f.blocks.keys.head? = some f.entry

/-! ## Nodes -/

theorem Var.Legible.spelled (h : v.Legible) : v.Spelled := by
  unfold Var.Spelled
  split
  · exact h.name
  · rename_i n hn
    exact ⟨isWord_of_isName h.name, h.version n hn⟩

theorem Operand.legible_const (n : Int) : (Operand.const n).Legible := fun v hv => by cases hv

theorem Operand.legible_undefined : Operand.undefined.Legible := fun v hv => by cases hv

theorem Var.Legible.operand (h : v.Legible) : (Operand.var v).Legible := by
  intro w hw
  cases hw
  exact h

theorem Phi.Legible.node (h : φ.Legible) : (Node.instr (.phi φ)).Legible where
  dest v hv := by
    cases hv
    exact h.dest
  uses x hx := by
    obtain ⟨a, ha, rfl⟩ := List.mem_map.1 hx
    exact (h.incoming a ha).2
  labels l hl := by
    obtain ⟨a, ha, rfl⟩ := List.mem_map.1 hl
    exact (h.incoming a ha).1
  callees g hg := by cases hg

theorem Node.Legible.phi (h : (Node.instr (.phi φ)).Legible) : φ.Legible where
  dest := h.dest _ rfl
  incoming _ ha := ⟨h.labels _ (List.mem_map_of_mem ha), h.uses _ (List.mem_map_of_mem ha)⟩

theorem legible_jump (hl : isName l = true) : (Node.term (.jump l)).Legible where
  dest v hv := by cases hv
  uses x hx := by cases hx
  labels x hx := by
    rw [List.mem_singleton.1 hx]
    exact hl
  callees g hg := by cases hg

theorem legible_copy {x : Operand} (hd : d.Legible) (hx : x.Legible) :
    (Node.instr (.copy d x)).Legible where
  dest v hv := by
    cases hv
    exact hd
  uses y hy := by
    rw [List.mem_singleton.1 hy]
    exact hx
  labels l hl := by cases hl
  callees g hg := by cases hg

namespace Node

variable {n : Node}

theorem Legible.vars (h : n.Legible) (hv : v ∈ n.vars) : v.Legible := by
  rcases List.mem_append.1 hv with hv | hv
  · exact h.dest v (Option.mem_toList.1 hv)
  · obtain ⟨x, hx, hxv⟩ := List.mem_filterMap.1 hv
    cases x with
    | var w =>
      cases hxv
      exact h.uses _ hx v rfl
    | const _ => cases hxv
    | undefined => cases hxv

theorem Legible.spelled (h : n.Legible) : n.Spelled :=
  ⟨fun _ hv => (h.vars hv).spelled, h.labels, h.callees⟩

theorem dest?_mapUses (g : Operand → Operand) (n : Node) : (n.mapUses g).dest? = n.dest? := by
  cases n with
  | instr i => exact i.dest?_mapUses g
  | term t => rfl

theorem uses_mapUses (g : Operand → Operand) (n : Node) : (n.mapUses g).uses = n.uses.map g := by
  cases n with
  | instr i => exact i.uses_mapUses g
  | term t => exact t.uses_mapUses g

theorem labels_mapUses (g : Operand → Operand) (n : Node) : (n.mapUses g).labels = n.labels := by
  cases n with
  | instr i =>
    cases i with
    | phi φ => exact List.map_map
    | _ => rfl
  | term t => cases t <;> rfl

theorem callees_mapUses (g : Operand → Operand) (n : Node) : (n.mapUses g).callees = n.callees := by
  cases n with
  | instr i => cases i <;> rfl
  | term t => rfl

theorem Legible.mapUses (h : n.Legible) {g : Operand → Operand}
    (hg : ∀ x, x.Legible → (g x).Legible) : (n.mapUses g).Legible where
  dest v hv := h.dest v (dest?_mapUses g n ▸ hv)
  uses x hx := by
    rw [uses_mapUses] at hx
    obtain ⟨y, hy, rfl⟩ := List.mem_map.1 hx
    exact hg y (h.uses y hy)
  labels l hl := h.labels l (labels_mapUses g n ▸ hl)
  callees c hc := h.callees c (callees_mapUses g n ▸ hc)

theorem Legible.setDest {i : Instr} (h : (Node.instr i).Legible) (hd : d.Legible) :
    (Node.instr (i.setDest d)).Legible := by
  have hdest : ∀ v, (i.setDest d).dest? = some v → v.Legible := by
    intro v hv
    cases i with
    | store a x => cases hv
    | write x => cases hv
    | call e g args =>
      cases e with
      | none => cases hv
      | some e =>
        cases hv
        exact hd
    | _ =>
      cases hv
      exact hd
  cases i with
  | call e g args =>
    cases e with
    | none => exact h
    | some e => exact ⟨hdest, h.uses, h.labels, h.callees⟩
  | _ => exact ⟨hdest, h.uses, h.labels, h.callees⟩

theorem Legible.retarget {t : Terminator} (h : (Node.term t).Legible) (old : Label)
    (hnew : isName new = true) : (Node.term (t.retarget old new)).Legible := by
  have hname : ∀ l ∈ (Node.term t).labels, isName (if l = old then new else l) = true := by
    intro l hl
    split
    · exact hnew
    · exact h.labels l hl
  cases t with
  | jump l =>
    refine ⟨h.dest, h.uses, fun x hx => ?_, h.callees⟩
    rw [List.mem_singleton.1 hx]
    exact hname l (.head _)
  | branch c l r =>
    refine ⟨h.dest, h.uses, fun x hx => ?_, h.callees⟩
    rcases List.mem_pair.1 hx with rfl | rfl
    · exact hname l (.head _)
    · exact hname r (.tail _ (.head _))
  | ret v => exact h

end Node

/-! ## Blocks -/

namespace Block

variable {b : Block}

section

variable (h : b.Legible)
include h

theorem Legible.nodes {n : Node} (hn : n ∈ b.nodes) : n.Legible := by
  rcases List.mem_append.1 hn with hn | hn
  · obtain ⟨i, hi, rfl⟩ := List.mem_map.1 hn
    exact h.instrs i hi
  · obtain ⟨t, ht, rfl⟩ := List.mem_map.1 hn
    exact h.term t (Option.mem_toList.1 ht)

theorem Legible.spelled : b.Spelled := ⟨h.name, fun _ hn => (h.nodes hn).spelled, h.preds⟩

theorem Legible.phis (hφ : φ ∈ b.phis) : φ.Legible := (h.instrs _ (phi_mem_of_leading hφ)).phi

theorem Legible.setInstrs (hinstrs : ∀ i ∈ instrs, (Node.instr i).Legible) :
    Legible { b with instrs } := ⟨h.name, hinstrs, h.term, h.preds⟩

theorem Legible.setPreds {preds : List Label} (hpreds : ∀ p ∈ preds, isName p = true) :
    Legible { b with preds } := ⟨h.name, h.instrs, h.term, hpreds⟩

theorem Legible.mapTerm {g : Terminator → Terminator}
    (hg : ∀ t, (Node.term t).Legible → (Node.term (g t)).Legible) :
    Legible { b with term := b.term.map g } := by
  refine ⟨h.name, h.instrs, fun t' ht' => ?_, h.preds⟩
  obtain ⟨t, ht, rfl⟩ := Option.map_eq_some_iff.1 ht'
  exact hg t (h.term t ht)

theorem Legible.mapPhis {g : Phi → Phi} (hg : ∀ φ : Phi, φ.Legible → (g φ).Legible) :
    (b.mapPhis g).Legible := by
  refine h.setInstrs fun i hi => ?_
  rcases mem_mapLeadingPhis hi with hi | ⟨φ, hφ, rfl⟩
  · exact h.instrs i hi
  · exact (hg φ (h.phis hφ)).node

theorem Legible.mapUses {g : Operand → Operand} (hg : ∀ x, x.Legible → (g x).Legible) :
    (b.mapUses g).Legible := by
  have hinstrs : Legible { b with instrs := b.instrs.map (·.mapUses g) } := by
    refine h.setInstrs fun i hi => ?_
    obtain ⟨j, hj, rfl⟩ := List.mem_map.1 hi
    exact (h.instrs j hj).mapUses hg
  exact hinstrs.mapTerm fun t ht => ht.mapUses hg

theorem Legible.retarget (old : Label) (hnew : isName new = true) : (b.retarget old new).Legible :=
  h.mapTerm fun _ ht => ht.retarget old hnew

theorem Legible.renamePred (old : Label) (hnew : isName new = true) :
    (b.renamePred old new).Legible := by
  refine (h.setPreds fun p hp => ?_).mapPhis fun φ hφ => ⟨hφ.dest, fun a ha => ?_⟩
  · obtain ⟨q, hq, rfl⟩ := List.mem_map.1 hp
    split
    · exact hnew
    · exact h.preds q hq
  · obtain ⟨a', ha', rfl⟩ := List.mem_map.1 ha
    split
    · exact ⟨hnew, (hφ.incoming a' ha').2⟩
    · exact hφ.incoming a' ha'

end

end Block

/-! ## Functions -/

namespace Func

variable {f : Func} {g : Label → Block → Block} {versions : Table String Int} {b : Block}

theorem Legible.spelled (h : f.Legible) : f.Spelled :=
  ⟨h.name, h.params, fun hb => (h.blocks hb).2.spelled⟩

theorem Legible.rewrite (h : f.Legible)
    (hg : ∀ l b, f.block? l = some b → b.Legible → (g l b).name = b.name ∧ (g l b).Legible) :
    (f.rewrite g).Legible where
  name := h.name
  params := h.params
  params_nodup := h.params_nodup
  blocks hb' := by
    obtain ⟨b, hb, rfl⟩ := of_block?_rewrite hb'
    obtain ⟨hname, hlegible⟩ := h.blocks hb
    obtain ⟨hname', hlegible'⟩ := hg _ b hb hlegible
    exact ⟨hname'.trans hname, hlegible'⟩
  counters := h.counters

theorem Legible.insertBefore (h : f.Legible) {label : Label} (hname : b.name = label)
    (hb : b.Legible) (before : Label) :
    Legible { f with blocks := f.blocks.insertBefore before label b } := by
  refine ⟨h.name, h.params, h.params_nodup, fun {l b'} hb' => ?_, h.counters⟩
  by_cases hlabel : label ∈ f.blocks
  · rw [block?, Table.insertBefore_of_mem hlabel] at hb'
    exact h.blocks hb'
  · rw [block?, Table.get?_insertBefore hlabel] at hb'
    split at hb'
    · rename_i heq
      cases hb'
      exact ⟨hname.trans heq.symm, hb⟩
    · exact h.blocks hb'

theorem Legible.setVersions (h : f.Legible) (hv : ∀ x, 0 ≤ versions.getD x 0) :
    Legible { f with versions } := ⟨h.name, h.params, h.params_nodup, h.blocks, hv⟩

theorem Legible.isName_label (h : f.Legible) (hb : f.block? l = some b) : isName l = true := by
  obtain ⟨hname, hlegible⟩ := h.blocks hb
  exact hname ▸ hlegible.name

theorem isName_freshLabel (f : Func) {base : String} (h : isName base = true) :
    isName (f.freshLabel base) = true :=
  isName_firstFree h _

/-- A block that is asked for is there. -/
theorem getBlock_eq_ok (h : f.getBlock l = .ok b) : f.block? l = some b := by
  unfold getBlock at h
  split at h
  · rename_i hb
    cases h
    exact hb
  · cases h

theorem Presentable.entry_mem (h : f.Presentable) : f.entry ∈ f.blocks :=
  List.mem_of_head? h.entry_first

theorem Presentable.rewrite (h : f.Presentable)
    (hg : ∀ l b, f.block? l = some b → b.Legible → (g l b).name = b.name ∧ (g l b).Legible) :
    (f.rewrite g).Presentable where
  toLegible := h.toLegible.rewrite hg
  entry_first := by
    rw [← show f.blocks.keys.head? = some (f.rewrite g).entry from h.entry_first]
    exact congrArg List.head? (Table.keys_mapValues _ _)

theorem Presentable.modifyBlock (h : f.Presentable) (l : Label) {g : Block → Block}
    (hg : ∀ b, f.block? l = some b → b.Legible → (g b).name = b.name ∧ (g b).Legible) :
    (f.modifyBlock l g).Presentable := by
  refine h.rewrite (g := fun x b => if x = l then g b else b) fun x b hb hlegible => ?_
  split
  · rename_i heq
    exact hg b (heq ▸ hb) hlegible
  · exact ⟨rfl, hlegible⟩

theorem Presentable.setInstrs (h : f.Presentable) (l : Label)
    (hinstrs : ∀ i ∈ instrs, (Node.instr i).Legible) :
    (f.modifyBlock l fun b => { b with instrs }).Presentable :=
  h.modifyBlock l fun _ _ hb => ⟨rfl, hb.setInstrs hinstrs⟩

theorem Presentable.setVersions (h : f.Presentable) (hv : ∀ x, 0 ≤ versions.getD x 0) :
    Presentable { f with versions } := ⟨h.toLegible.setVersions hv, h.entry_first⟩

end Func

end ThreeAddress

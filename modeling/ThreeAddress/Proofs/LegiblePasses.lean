import ThreeAddress.Proofs.ConstantPropagation
import ThreeAddress.Proofs.LeaveSsa
import ThreeAddress.Proofs.LegibleConstruction
import ThreeAddress.Proofs.LoopMotion

/-!
# Passes keep code that can be written

After SSA construction nothing leads to the entry, and it stays in front, since new blocks are put
in front of blocks that something leads to. `Func.Headed` is what the passes keep, each edit
whatever makes it succeed.
-/

namespace ThreeAddress

open Text

variable {versions : Table String Int} {φs : List Phi} {instrs : List Instr} {copies : List Copy}
  {e l label p : Label} {x : Operand} {b : Block} {f : Func}

/-- The function is presentable and its entry is `e`, which has no predecessors. -/
structure Func.Headed (e : Label) (f : Func) : Prop extends Presentable f where
  entry_eq : f.entry = e
  free : ∀ b, f.block? e = some b → b.preds = []

namespace Func

section

variable (h : f.Headed e)
include h

theorem Headed.rewrite {g : Label → Block → Block}
    (hg : ∀ l b, f.block? l = some b → b.Legible → (g l b).name = b.name ∧ (g l b).Legible ∧
      (b.preds = [] → (g l b).preds = [])) : (f.rewrite g).Headed e where
  toPresentable := h.toPresentable.rewrite fun l b hb hlegible =>
    ⟨(hg l b hb hlegible).1, (hg l b hb hlegible).2.1⟩
  entry_eq := h.entry_eq
  free b' hb' := by
    obtain ⟨b, hb, rfl⟩ := of_block?_rewrite hb'
    exact (hg e b hb (h.blocks hb).2).2.2 (h.free b hb)

theorem Headed.modifyBlock (l : Label) {g : Block → Block}
    (hg : ∀ b, b.Legible → (g b).name = b.name ∧ (g b).Legible ∧
      (b.preds = [] → (g b).preds = [])) :
    (f.modifyBlock l g).Headed e := by
  refine h.rewrite (g := fun x b => if x = l then g b else b) fun x b _ hlegible => ?_
  split
  · exact hg b hlegible
  · exact ⟨rfl, hlegible, fun hpreds => hpreds⟩

theorem Headed.setInstrs (l : Label) (hinstrs : ∀ i ∈ instrs, (Node.instr i).Legible) :
    (f.modifyBlock l fun b => { b with instrs }).Headed e :=
  h.modifyBlock l fun _ hb => ⟨rfl, hb.setInstrs hinstrs, fun hpreds => hpreds⟩

theorem Headed.setVersions (hv : ∀ x, 0 ≤ versions.getD x 0) : Headed e { f with versions } :=
  ⟨h.toPresentable.setVersions hv, h.entry_eq, h.free⟩

theorem Headed.entry_mem : e ∈ f.blocks := h.entry_eq ▸ h.toPresentable.entry_mem

/-- A block that is not put in front of the entry. -/
theorem Headed.insertBefore {before : Label} (hname : b.name = label) (hb : b.Legible)
    (hbefore : before ≠ e) :
    Headed e { f with blocks := f.blocks.insertBefore before label b } := by
  have hlegible := h.toLegible.insertBefore hname hb before
  by_cases hlabel : label ∈ f.blocks
  · have hsame := Table.insertBefore_of_mem hlabel before b
    refine ⟨⟨hlegible, ?_⟩, h.entry_eq, fun b' hb' => ?_⟩
    · rw [hsame]
      exact h.entry_first
    · rw [block?, hsame] at hb'
      exact h.free b' hb'
  · refine ⟨⟨hlegible, ?_⟩, h.entry_eq, fun b' hb' => ?_⟩
    · rw [Table.head?_keys_insertBefore hlabel b h.entry_first,
        if_neg fun heq => hbefore (heq.symm.trans h.entry_eq)]
    · rw [block?, Table.get?_insertBefore hlabel, if_neg fun heq : e = label =>
        hlabel (heq ▸ h.entry_mem)] at hb'
      exact h.free b' hb'

theorem Headed.keepBlocks {keep : Label → Bool} (hentry : keep e = true) :
    (f.keepBlocks keep).Headed e where
  toPresentable := h.toPresentable.keepBlocks (h.entry_eq ▸ hentry)
  entry_eq := h.entry_eq
  free b' hb' := by
    obtain ⟨_, b, hb, rfl⟩ := of_block?_keepBlocks hb'
    show b.preds.filter keep = []
    rw [h.free b hb]
    rfl

end

end Func

/-! ## Constants -/

theorem legible_foldTerm (s : Facts) {t : Terminator} (h : (Node.term t).Legible) :
    (Node.term (s.foldTerm t)).Legible := by
  cases t with
  | branch c l r =>
    rw [Facts.foldTerm]
    split
    · refine legible_jump (h.labels _ ?_)
      split
      · exact .head _
      · exact .tail _ (.head _)
    · exact h
  | _ => exact h

theorem legible_substitute (s : Facts) (hx : x.Legible) : (s.substitute x).Legible := by
  cases x with
  | var v =>
    rw [Facts.substitute]
    split
    · exact Operand.legible_const _
    · exact hx
  | _ => exact hx

theorem Func.Headed.propagated (h : f.Headed e) {s : Facts} (hentry : e ∈ s.blocks) :
    (f.propagated s).Headed e := by
  have hfolded : (f.foldedOn s s.blocks).Headed e := by
    refine h.rewrite fun l b _ hb => ⟨rfl, ?_, fun hpreds => ?_⟩
    · refine Block.Legible.keepPreds ?_ _
      split
      · exact hb.mapTerm fun t ht => legible_foldTerm s ht
      · exact hb
    · show b.preds.filter _ = []
      rw [hpreds]
      rfl
  refine (hfolded.keepBlocks (decide_eq_true hentry)).rewrite fun l b _ hb =>
    ⟨rfl, ?_, fun hpreds => hpreds⟩
  refine Block.Legible.mapUses (hb.setInstrs fun i hi => ?_) fun x hx => legible_substitute s hx
  exact hb.instrs i (List.mem_of_mem_filter hi)

/-! ## Code motion -/

theorem mem_of_mem_mergeOutside {α : Type} {isInside : α → Bool} {merged a : α} {l : List α}
    (h : a ∈ mergeOutside isInside merged l) : a = merged ∨ a ∈ l := by
  induction l with
  | nil => cases h
  | cons b rest ih =>
    rw [mergeOutside] at h
    split at h
    · rcases List.mem_cons.1 h with rfl | h
      · exact .inr (.head _)
      · exact (ih h).imp_right (List.mem_cons_of_mem _)
    · rcases List.mem_cons.1 h with rfl | h
      · exact .inl rfl
      · exact .inr (.tail _ (List.mem_of_mem_filter h))

theorem legible_splitHeaderPhis (loop : List Label) (hlabel : isName label = true)
    (hinstrs : ∀ i ∈ instrs, (Node.instr i).Legible) (hv : ∀ x, 0 ≤ versions.getD x 0) :
    (∀ i ∈ (splitHeaderPhis loop label instrs versions).instrs, (Node.instr i).Legible) ∧
      (∀ x, 0 ≤ (splitHeaderPhis loop label instrs versions).versions.getD x 0) ∧
      ∀ φ ∈ (splitHeaderPhis loop label instrs versions).merges, φ.Legible := by
  induction instrs generalizing versions with
  | nil => exact ⟨hinstrs, hv, List.forall_mem_nil _⟩
  | cons i rest ih =>
    obtain ⟨hi, hrest⟩ := List.forall_mem_cons.1 hinstrs
    cases i with
    | phi φ =>
      rw [splitHeaderPhis]
      split
      · exact ⟨hinstrs, hv, List.forall_mem_nil _⟩
      · rename_i a more hout
        have hmem : ∀ a' ∈ a :: more, a' ∈ φ.incoming :=
          fun a' ha' => List.mem_of_mem_filter (hout ▸ ha')
        have hfresh := hi.phi.dest.next hv
        dsimp only
        have hmerged : Operand.Legible (if more.all (·.value = a.value) then a.value
            else .var ⟨φ.dest.name, some (versions.getD φ.dest.name 0 + 1)⟩) := by
          split
          · exact (hi.phi.incoming a (hmem a (.head _))).2
          · exact hfresh.operand
        have hv' : ∀ x, 0 ≤ (if more.all (·.value = a.value) then versions
            else versions.insert φ.dest.name (versions.getD φ.dest.name 0 + 1)).getD x 0 := by
          split
          · exact hv
          · exact nonneg_insert hv _ (nonneg_next hv _)
        obtain ⟨hcode, hversions, hmerges⟩ := ih hrest hv'
        generalize splitHeaderPhis loop label rest _ = tail at hcode hversions hmerges ⊢
        refine ⟨List.forall_mem_cons.2 ⟨Phi.Legible.node ⟨hi.phi.dest, fun a' ha' => ?_⟩, hcode⟩,
          hversions, ?_⟩
        · rcases mem_of_mem_mergeOutside ha' with rfl | ha'
          · exact ⟨hlabel, hmerged⟩
          · exact hi.phi.incoming a' ha'
        · split
          · exact hmerges
          · exact List.forall_mem_cons.2 ⟨⟨hfresh, fun a' ha' => hi.phi.incoming a' (hmem a' ha')⟩,
              hmerges⟩
    | _ => exact ⟨hinstrs, hv, List.forall_mem_nil _⟩

namespace Edit

open Func

theorem getBlock_keepsHead (l : Label) :
    (ask (·.getBlock l)).Keeps (Headed e) fun b => (b.name = l ∧ b.Legible) ∧
      (l = e → b.preds = []) :=
  keeps_ask fun _ b h hb => ⟨h.blocks (getBlock_eq_ok hb),
    fun heq => h.free b (heq ▸ getBlock_eq_ok hb)⟩

theorem makePreheader_keeps {header : Label} (hheader : isName header = true) (hne : header ≠ e)
    (loop : List Label) {outside : List Label} (houtside : ∀ p ∈ outside, isName p = true) :
    (makePreheader header loop outside).Keeps (Headed e) fun _ => True := by
  refine keeps_get.bind fun g hg => ?_
  have hlabel : isName (g.freshLabel (header ++ ".preheader")) = true := by
    refine isName_freshLabel g (isName_append (isWord_of_isName hheader) (List.all_eq_true.1 ?_)
      (.inl ?_))
    all_goals decide
  refine (keeps_forM fun p _ => ?_).bind fun _ _ =>
    (getBlock_keepsHead header).bind fun head hhead => ?_
  · refine (getBlock_keepsHead p).bind fun _ _ => keeps_modify fun f hf => ?_
    exact hf.modifyBlock p fun b hb => ⟨rfl, hb.retarget header hlabel, fun hpreds => hpreds⟩
  · obtain ⟨hcode, hversions, hmerges⟩ :=
      legible_splitHeaderPhis loop hlabel hhead.1.2.instrs hg.counters
    refine (keeps_modify fun f hf => (hf.setInstrs header hcode).setVersions hversions).bind
      fun _ _ => ?_
    dsimp only
    split
    · exact (keeps_fail (R := fun _ => False) _).bind fun _ hfalse => hfalse.elim
    · refine (keeps_modify fun f hf => ?_).bind fun _ _ => (keeps_emit _).bind fun _ _ =>
        keeps_pure trivial
      have hpreds : (f.modifyBlock header fun b =>
          { b with
            preds := mergeOutside (fun p => decide (p ∈ loop))
              (g.freshLabel (header ++ ".preheader")) b.preds }).Headed
            e := by
        refine hf.modifyBlock header fun b hb => ⟨rfl, hb.setPreds fun p hp => ?_, fun hnil => ?_⟩
        · rcases mem_of_mem_mergeOutside hp with rfl | hp
          · exact hlabel
          · exact hb.preds p hp
        · rw [hnil]
          rfl
      refine hpreds.insertBefore rfl ⟨hlabel, fun i hi => ?_, fun t ht => ?_, houtside⟩ hne
      · obtain ⟨φ, hφ, rfl⟩ := List.mem_map.1 hi
        exact (hmerges φ hφ).node
      · cases ht
        exact legible_jump hheader

theorem insertPreheader_keeps (header : Label) (loop : List Label) :
    (insertPreheader header loop).Keeps (Headed e) fun _ => True := by
  refine (getBlock_keepsHead header).bind fun head hhead => ?_
  obtain ⟨⟨hname, hlegible⟩, hfree⟩ := hhead
  -- A block with predecessors is not the entry.
  have hmake : ∀ p more, (∀ q ∈ p :: more, q ∈ head.preds) →
      (makePreheader header loop (p :: more)).Keeps (Headed e) fun _ => True := by
    intro p more hsub
    have hne : header ≠ e := by
      intro heq
      have hp := hsub p (.head _)
      rw [hfree heq] at hp
      cases hp
    exact makePreheader_keeps (hname ▸ hlegible.name) hne loop fun q hq =>
      hlegible.preds q (hsub q hq)
  have hsub : ∀ q ∈ head.preds.filter (· ∉ loop), q ∈ head.preds :=
    fun q hq => List.mem_of_mem_filter hq
  generalize head.preds.filter (· ∉ loop) = outside at hsub
  cases outside with
  | nil => exact keeps_get.bind fun _ _ => keeps_fail _
  | cons p more =>
    cases more with
    | nil =>
      refine (getBlock_keepsHead p).bind fun b _ => ?_
      split
      · exact keeps_pure trivial
      · exact (hmake p [] hsub).bind fun _ _ => keeps_pure trivial
    | cons q more => exact (hmake p (q :: more) hsub).bind fun _ _ => keeps_pure trivial

theorem hoistSites_keeps (loop : Loop) {sites : List Site}
    (hsites : ∀ s ∈ sites, (Node.instr s.instr).Legible) :
    (hoistSites loop sites).Keeps (Headed e) fun _ => True := by
  refine (insertPreheader_keeps loop.header loop.blocks).bind fun r _ =>
    (getBlock_keepsHead r.1).bind fun _ _ =>
    (keeps_modify fun f hf => ?_).bind fun _ _ => keeps_get.bind fun g _ => ?_
  · have hremoved : (f.removeSites sites).Headed e := by
      refine hf.rewrite fun l b _ hb => ⟨rfl, hb.setInstrs fun i hi => ?_, fun hpreds => hpreds⟩
      obtain ⟨x, hx, rfl⟩ := List.mem_map.1 hi
      exact hb.instrs _ (List.fst_mem_of_mem_zipIdx (List.mem_of_mem_filter hx))
    refine hremoved.modifyBlock r.1 fun b hb => ⟨rfl, hb.setInstrs fun i hi => ?_,
      fun hpreds => hpreds⟩
    rcases List.mem_append.1 hi with hi | hi
    · exact hb.instrs i hi
    · obtain ⟨s, hs, rfl⟩ := List.mem_map.1 hi
      exact hsites s hs
  · exact (keeps_forM fun s _ => keeps_emit _).bind fun _ _ => keeps_pure trivial

theorem keeps_loops {I : Func → Prop} (d : Dominators) : (loops d).Keeps I fun _ => True := by
  refine keeps_get.bind fun g _ => ?_
  dsimp only
  split
  · exact (keeps_emit _).bind fun _ _ => keeps_pure trivial
  · exact keeps_pure trivial

theorem hoistLoops_keeps (fuel : Nat) (d : Dominators) (forest : LoopForest) (done : List Label) :
    (hoistLoops fuel d forest done).Keeps (Headed e) fun _ => True := by
  induction fuel generalizing d forest done with
  | zero => exact keeps_pure trivial
  | succ fuel ih =>
    rw [hoistLoops]
    split
    · exact keeps_pure trivial
    · rename_i loop _
      refine keeps_get.bind fun g hg => ?_
      dsimp only
      split
      · exact ih d forest _
      · refine (hoistSites_keeps loop fun s hs => ?_).bind fun r _ => ?_
        · obtain ⟨b, hb, hi⟩ := (mem_sites.1 (mem_sites_of_invariant hs)).2
          exact (hg.blocks hb).2.instrs _ (List.mem_of_getElem? hi)
        · split
          · exact keeps_dominators.bind fun d _ => (keeps_loops d).bind fun forest _ =>
              (ih d forest _).bind fun _ _ => keeps_pure trivial
          · exact (ih d forest _).bind fun _ _ => keeps_pure trivial

theorem hoist_keeps : hoist.Keeps (Headed e) fun _ => True := by
  refine keeps_get.bind fun g _ => ?_
  dsimp only
  split
  · exact (keeps_fail (R := fun _ => False) _).bind fun _ hfalse => hfalse.elim
  · exact keeps_dominators.bind fun d _ => (keeps_loops d).bind fun forest _ =>
      (hoistLoops_keeps _ d forest []).bind fun _ _ => keeps_pure trivial

end Edit

/-! ## Leaving SSA form -/

theorem Func.Headed.splitEdge {f' : Func} (h : f.Headed e) (hl : l ≠ e)
    (hsplit : f.splitEdge p l none = .ok (label, f')) : f'.Headed e := by
  unfold Func.splitEdge at hsplit
  obtain ⟨source, hsource, hsplit⟩ := bind_eq_ok.1 hsplit
  obtain ⟨target, htarget, hsplit⟩ := bind_eq_ok.1 hsplit
  split at hsplit
  · cases hsplit
  · cases hsplit
    have hsrc := h.toLegible.isName_label (getBlock_eq_ok hsource)
    have hdst := h.toLegible.isName_label (getBlock_eq_ok htarget)
    have hlabel : isName (f.freshLabel (edgeName p l none)) = true :=
      isName_freshLabel f
        (isName_join (isWord_of_isName hsrc) (isNameChar_of_isWord (isWord_of_isName hdst)))
    refine Headed.insertBefore ((h.modifyBlock p fun b hb => ?_).modifyBlock l fun b hb =>
      ?_) rfl ?_ hl
    · exact ⟨rfl, hb.retarget l hlabel, fun hpreds => hpreds⟩
    · exact ⟨rfl, hb.renamePred p hlabel, fun hpreds => by simp [Block.renamePred, Block.mapPhis,
        hpreds]⟩
    · refine ⟨hlabel, List.forall_mem_nil _, fun t ht => ?_, fun q hq => ?_⟩
      · cases ht
        exact legible_jump hdst
      · rw [List.mem_singleton.1 hq]
        exact hsrc

def LegibleCopies (copies : List Copy) : Prop := ∀ c ∈ copies, c.1.Legible ∧ c.2.Legible

/-- A copy takes one of the operands of a phi to its result. -/
theorem mem_of_phiCopies (h : phiCopies p φs = .ok copies) {c : Copy} (hc : c ∈ copies) :
    ∃ φ ∈ φs, ∃ a ∈ φ.incoming, c = (φ.dest, a.value) := by
  induction φs generalizing copies with
  | nil =>
    cases h
    cases hc
  | cons φ φs ih =>
    rw [phiCopies] at h
    split at h
    · cases h
    · rename_i x hx
      obtain ⟨rest, hrest, h⟩ := bind_eq_ok.1 h
      cases h
      have hlater : c ∈ rest → ∃ ψ ∈ φ :: φs, ∃ a ∈ ψ.incoming, c = (ψ.dest, a.value) :=
        fun hc => by
        obtain ⟨ψ, hψ, hfrom⟩ := ih hrest hc
        exact ⟨ψ, .tail _ hψ, hfrom⟩
      split at hc
      · exact hlater hc
      · rcases List.mem_cons.1 hc with rfl | hc
        · obtain ⟨a, ha, rfl⟩ := Option.map_eq_some_iff.1 hx
          exact ⟨φ, .head _, a, List.mem_of_find?_eq_some ha, rfl⟩
        · exact hlater hc

theorem legible_phiCopies (h : ∀ φ ∈ φs, φ.Legible) (hcopies : phiCopies p φs = .ok copies) :
    LegibleCopies copies := by
  intro c hc
  obtain ⟨φ, hφ, a, ha, rfl⟩ := mem_of_phiCopies hcopies hc
  exact ⟨(h φ hφ).dest, ((h φ hφ).incoming a ha).2⟩

theorem legible_orderPending (fuel : Nat) {pending : List Copy} (h : LegibleCopies pending)
    {t : Temporaries} (hv : ∀ x, 0 ≤ t.versions.getD x 0) :
    LegibleCopies (orderPending Temporaries.fresh fuel pending t).1 ∧
      ∀ x, 0 ≤ (orderPending Temporaries.fresh fuel pending t).2.versions.getD x 0 := by
  induction fuel generalizing pending t with
  | zero => exact ⟨List.forall_mem_nil _, hv⟩
  | succ fuel ih =>
    cases pending with
    | nil => exact ⟨List.forall_mem_nil _, hv⟩
    | cons c rest =>
      rw [orderPending]
      split
      · rename_i next others hfirst
        obtain ⟨_, pre, post, heq, rfl⟩ := extractFirst_eq_some hfirst
        rw [heq] at h
        obtain ⟨hpre, hpost⟩ := List.forall_mem_append.1 h
        obtain ⟨hnext, hpost⟩ := List.forall_mem_cons.1 hpost
        obtain ⟨hcopies, hversions⟩ := ih (List.forall_mem_append.2 ⟨hpre, hpost⟩) hv
        exact ⟨List.forall_mem_cons.2 ⟨hnext, hcopies⟩, hversions⟩
      · have hc := (h c (.head _)).1
        have hfresh : (Temporaries.fresh c.1 t).1.Legible := hc.next hv
        have hredirect : LegibleCopies (redirect c.1 (Temporaries.fresh c.1 t).1 (c :: rest)) := by
          intro c' hc'
          obtain ⟨c₀, hc₀, rfl⟩ := List.mem_map.1 hc'
          refine ⟨(h c₀ hc₀).1, ?_⟩
          dsimp only
          split
          · exact hfresh.operand
          · exact (h c₀ hc₀).2
        have hv' : ∀ x, 0 ≤ (Temporaries.fresh c.1 t).2.versions.getD x 0 :=
          nonneg_insert hv _ (nonneg_next hv _)
        obtain ⟨hcopies, hversions⟩ := ih hredirect hv'
        exact ⟨List.forall_mem_cons.2 ⟨⟨hfresh, hc.operand⟩, hcopies⟩, hversions⟩

/-! ## Plain names -/

namespace Naming

variable {naming : Naming} {base : String} {seen : Table String (List Int)} {n : Int}

def Legible (naming : Naming) : Prop := ∀ key s, naming.names.get? key = some s → isName s = true

theorem isName_candidate (hbase : isName base = true) (hn : 0 ≤ n) (k : Nat) :
    isName (candidate base n k) = true := by
  obtain ⟨m, rfl⟩ := Int.eq_ofNat_of_zero_le hn
  have htext : candidate base m k = base ++
      ("_" ++ (m.repr ++ String.ofList (List.replicate k '_'))) := by
    rw [candidate, String.append_assoc, String.append_assoc]
    rfl
  have htail : ("_" ++ (m.repr ++ String.ofList (List.replicate k '_'))).toList
      = '_' :: (m.repr.toList ++ List.replicate k '_') := by
    simp only [String.toList_append, String.toList_ofList]
    rfl
  rw [htext]
  refine isName_append (isWord_of_isName hbase) (fun c hc => ?_) (.inr (htail ▸ List.mem_cons_self))
  rw [htail] at hc
  rcases List.mem_cons.1 hc with rfl | hc
  · rfl
  · rcases List.mem_append.1 hc with hc | hc
    · exact isNameChar_of_isDigit (isDigit_of_mem_repr hc)
    · rw [List.eq_of_mem_replicate hc]
      rfl

theorem Legible.insert (h : naming.Legible) (key : String × Int) {s : String} (hs : isName s = true)
    (taken : List String) : Legible ⟨taken, naming.names.insert key s⟩ := by
  intro key' s' hs'
  rw [Table.get?_insert] at hs'
  split at hs'
  · cases hs'
    exact hs
  · exact h key' s' hs'

theorem Legible.addOne (h : naming.Legible) (hbase : isName base = true) (hn : 0 ≤ n) :
    (naming.addOne base n).Legible := by
  unfold Naming.addOne
  split
  · exact h.insert _ hbase _
  · obtain ⟨k, hk⟩ := firstFree_eq (candidate base n) naming.taken
    refine h.insert _ ?_ _
    rw [hk]
    exact isName_candidate hbase hn k

theorem Legible.addBase (h : naming.Legible) (hbase : isName base = true) {versions : List Int}
    (hversions : ∀ n ∈ versions, 0 ≤ n) : (naming.addBase base versions).Legible := by
  have hall : ∀ ns : List Int, (∀ n ∈ ns, 0 ≤ n) → ∀ {naming : Naming}, naming.Legible →
      (ns.foldl (fun naming n => naming.addOne base n) naming).Legible := by
    intro ns hns
    induction ns with
    | nil => exact fun h => h
    | cons n ns ih =>
      obtain ⟨hn, hns⟩ := List.forall_mem_cons.1 hns
      exact fun h => ih hns (h.addOne hbase hn)
  unfold Naming.addBase
  split
  · exact h.insert _ hbase _
  · exact hall _ (fun n hn => hversions n (mem_sortBy.1 hn)) h

/-- The bases of versions are names, and the versions are not below zero. -/
def LegibleSeen (seen : Table String (List Int)) : Prop :=
  ∀ base versions, seen.get? base = some versions → isName base = true ∧ ∀ n ∈ versions, 0 ≤ n

theorem LegibleSeen.addVersion (h : LegibleSeen seen) (hbase : isName base = true) (hn : 0 ≤ n) :
    LegibleSeen (addVersion seen base n) := by
  intro x versions hx
  unfold ThreeAddress.addVersion at hx
  rw [Table.get?_insert] at hx
  split at hx
  · rename_i heq
    cases hx
    have hold : ∀ m ∈ seen.getD base [], 0 ≤ m := by
      rw [Table.getD]
      cases hseen : seen.get? base with
      | none => exact List.forall_mem_nil _
      | some versions => exact (h base versions hseen).2
    refine ⟨heq ▸ hbase, ?_⟩
    split
    · exact hold
    · exact List.forall_mem_append.2 ⟨hold, List.forall_mem_singleton.2 hn⟩
  · exact h x versions hx

theorem LegibleSeen.foldl {all : List (String × Int)}
    (hall : ∀ m ∈ all, isName m.1 = true ∧ 0 ≤ m.2) (h : LegibleSeen seen) :
    LegibleSeen (all.foldl (fun seen m => ThreeAddress.addVersion seen m.1 m.2) seen) := by
  induction all generalizing seen with
  | nil => exact h
  | cons m all ih =>
    obtain ⟨hm, hall⟩ := List.forall_mem_cons.1 hall
    exact ih hall (h.addVersion hm.1 hm.2)

theorem Legible.addBases {entries : List (String × List Int)}
    (hentries : ∀ e ∈ entries, isName e.1 = true ∧ ∀ n ∈ e.2, 0 ≤ n) (h : naming.Legible) :
    (entries.foldl (fun naming e => naming.addBase e.1 e.2) naming).Legible := by
  induction entries generalizing naming with
  | nil => exact h
  | cons e entries ih =>
    obtain ⟨he, hentries⟩ := List.forall_mem_cons.1 hentries
    exact ih hentries (h.addBase he.1 he.2)

theorem Legible.plain (h : naming.Legible) {v : Var} (hv : v.Legible) :
    (naming.plain v).Legible := by
  unfold Naming.plain
  split
  · exact hv
  · refine ⟨?_, fun n hn => by cases hn⟩
    dsimp only
    rw [Table.getD]
    cases hget : naming.names.get? (v.name, _) with
    | none => exact hv.name
    | some s => exact h _ s hget

theorem Legible.plainOperand (h : naming.Legible) (hx : x.Legible) :
    (naming.plainOperand x).Legible := by
  cases x with
  | const n => exact hx
  | var v => exact (h.plain (hx v rfl)).operand
  | undefined => exact Operand.legible_const 0

theorem Legible.plainBlock (h : naming.Legible) (hb : b.Legible) :
    (naming.plainBlock b).Legible := by
  have hinstrs : Block.Legible { b with instrs := b.instrs.map naming.plainInstr } := by
    refine hb.setInstrs fun i hi => ?_
    obtain ⟨j, hj, rfl⟩ := List.mem_map.1 hi
    have hused := (hb.instrs j hj).mapUses fun x hx => h.plainOperand hx
    unfold Naming.plainInstr
    dsimp only
    split
    · exact hused
    · rename_i d hd
      exact hused.setDest (h.plain (hused.dest d hd))
  exact hinstrs.mapTerm fun t ht => ht.mapUses fun x hx => h.plainOperand hx

end Naming

namespace Func

theorem Legible.seenVersions (h : f.Legible) : Naming.LegibleSeen f.seenVersions := by
  refine Naming.LegibleSeen.foldl (fun m hm => ?_) fun base versions hbase => by cases hbase
  rcases List.mem_append.1 hm with hm | hm
  · obtain ⟨v, hv, hm⟩ := List.mem_filterMap.1 hm
    obtain ⟨n, hn, rfl⟩ := Option.map_eq_some_iff.1 hm
    obtain ⟨node, hnode, hv⟩ := List.mem_flatMap.1 hv
    obtain ⟨l, b, hb, hnode⟩ := mem_nodes.1 hnode
    have hlegible := ((h.blocks hb).2.nodes hnode).vars hv
    exact ⟨hlegible.name, hlegible.version n hn⟩
  · obtain ⟨p, hp, rfl⟩ := List.mem_map.1 hm
    exact ⟨h.params p hp, Int.le_refl 0⟩

theorem Legible.naming (h : f.Legible) : (Naming.ofFunc f).Legible := by
  refine Naming.Legible.addBases (fun e he => ?_) fun key s hs => by cases hs
  exact h.seenVersions e.1 e.2 (Table.get?_eq_some_iff.2 he)

theorem Headed.named (h : f.Headed e) : f.named.Headed e := by
  have hplain : f.withPlainNames.Headed e := h.rewrite fun l b _ hb =>
    ⟨rfl, h.toLegible.naming.plainBlock hb, fun hpreds => hpreds⟩
  have hlegible : f.named.Legible :=
    ⟨h.name, h.params, h.params_nodup, hplain.blocks, fun x => Int.le_refl 0⟩
  exact ⟨⟨hlegible, hplain.entry_first⟩, h.entry_eq, hplain.free⟩

end Func

namespace Edit

open Func

theorem splitForPhis_keeps (hl : l ≠ e) (preds : List Label) :
    (splitForPhis l preds).Keeps (Headed e) fun _ => True := by
  induction preds with
  | nil => exact keeps_pure trivial
  | cons p preds ih =>
    refine (getBlock_keepsHead p).bind fun b _ => ?_
    split
    · rw [splitEdge_eq_applyWith]
      refine (keeps_applyWith (R := fun _ => True) fun f label f' hf hsplit =>
        ⟨hf.splitEdge hl hsplit, trivial⟩).bind fun _ _ => ih.bind fun _ _ => keeps_pure trivial
    · exact ih

theorem isolatePhis_keeps (labels : List Label) :
    (isolatePhis labels).Keeps (Headed e) fun _ => True := by
  induction labels with
  | nil => exact keeps_pure trivial
  | cons l labels ih =>
    refine (getBlock_keepsHead l).bind fun b hb => ?_
    have hsplit : (splitForPhis l b.preds).Keeps (Headed e) fun _ => True := by
      by_cases hl : l = e
      · rw [hb.2 hl]
        exact keeps_pure trivial
      · exact splitForPhis_keeps hl b.preds
    dsimp only
    split
    · exact (keeps_pure (R := fun _ => True) trivial).bind fun _ _ => ih.bind fun _ _ =>
        keeps_pure trivial
    · exact hsplit.bind fun _ _ => ih.bind fun _ _ => keeps_pure trivial

theorem lowerEdge_keeps (h : ∀ φ ∈ φs, φ.Legible) (p : Label) :
    (lowerEdge φs p).Keeps (Headed e) fun _ => True := by
  refine (keeps_ask fun _ _ _ hcopies => legible_phiCopies h hcopies).bind fun pairs hpairs =>
    keeps_get.bind fun g hg => ?_
  have hpending : LegibleCopies (pairs.filter fun c => decide (c.2 ≠ .var c.1)) := fun c hc =>
    hpairs c (List.mem_of_mem_filter hc)
  obtain ⟨hcopies, hversions⟩ :=
    legible_orderPending (3 * (pairs.filter fun c => decide (c.2 ≠ .var c.1)).length) hpending
    (t := ⟨g.versions, 0⟩) hg.counters
  refine (keeps_modify fun f hf => hf.setVersions hversions).bind fun _ _ =>
    (getBlock_keepsHead p).bind fun _ _ =>
    (keeps_modify fun f hf => ?_).bind fun _ _ => keeps_pure trivial
  refine hf.modifyBlock p fun b hb => ⟨rfl, hb.setInstrs fun i hi => ?_, fun hpreds => hpreds⟩
  rcases List.mem_append.1 hi with hi | hi
  · exact hb.instrs i hi
  · obtain ⟨c, hc, rfl⟩ := List.mem_map.1 hi
    exact legible_copy (hcopies c hc).1 (hcopies c hc).2

theorem lowerEdges_keeps (h : ∀ φ ∈ φs, φ.Legible) (preds : List Label) :
    (lowerEdges φs preds).Keeps (Headed e) fun _ => True := by
  induction preds with
  | nil => exact keeps_pure trivial
  | cons p preds ih =>
    exact (lowerEdge_keeps h p).bind fun _ _ => ih.bind fun _ _ => keeps_pure trivial

theorem lowerBlock_keeps (l : Label) : (lowerBlock l).Keeps (Headed e) fun _ => True := by
  refine (getBlock_keepsHead l).bind fun b hb => ?_
  dsimp only
  split
  · exact keeps_pure trivial
  · refine (lowerEdges_keeps (fun φ hφ => hb.1.2.phis hφ) b.preds).bind fun _ _ =>
      (keeps_modify fun f hf => hf.modifyBlock l fun c hc => ?_).bind fun _ _ => keeps_pure trivial
    exact ⟨rfl, hc.setInstrs fun i hi => hc.instrs i (List.mem_of_mem_filter hi),
      fun hpreds => hpreds⟩

theorem lowerBlocks_keeps (labels : List Label) :
    (lowerBlocks labels).Keeps (Headed e) fun _ => True := by
  induction labels with
  | nil => exact keeps_pure trivial
  | cons l labels ih =>
    exact (lowerBlock_keeps l).bind fun _ _ => ih.bind fun _ _ => keeps_pure trivial

theorem leaveSsa_keeps : leaveSsa.Keeps (Headed e) fun _ => True := by
  refine keeps_get.bind fun g _ => ?_
  dsimp only
  split
  · exact (keeps_fail (R := fun _ => False) _).bind fun _ hfalse => hfalse.elim
  · exact (isolatePhis_keeps _).bind fun _ _ => keeps_get.bind fun _ _ =>
      (lowerBlocks_keeps _).bind fun _ _ =>
      (keeps_modify fun _ hf => hf.named).bind fun _ _ => (keeps_emit _).bind fun _ _ =>
        keeps_pure trivial

end Edit

end ThreeAddress

import ThreeAddress.Proofs.Frames
import ThreeAddress.Ssa.Destruction

/-!
# Parallel copies made one after the other

`Sequences` says how the copies are put in order: one whose destination nothing reads any more is
made, or a destination is saved in a temporary. Wherever temporaries come from, if they are
different from each other and from the variables of the copies (`Supplies`), the bound on the number
of steps is never reached (`sequences_orderPending`), and whatever order comes out, each destination
ends up with what its source held at first (`Sequences.realizes`).

Version counters supply temporaries that they did not know before (`Temporaries.Covers.supplies`).
-/

namespace ThreeAddress

variable {copies pending : List Copy} {t t' : Temporaries} {ds : List Var} {d v x : Var} {c : Copy}
  {α : Type}

/-- Makes copies one after the other. -/
def Env.copyAll (env : Env) (copies : List Copy) : Env :=
    copies.foldl (fun env c => env.insert c.1 (env.value c.2)) env

/-! ## Temporaries -/

/-- The temporaries that `fresh` makes for `ds`, one after the other. -/
def temporaries {σ : Type} (fresh : Var → σ → Var × σ) : List Var → σ → List Var
  | [], _ => []
  | d :: ds, s => (fresh d s).1 :: temporaries fresh ds (fresh d s).2

/-- The variable is a destination or a source of the copies. -/
def Mentioned (copies : List Copy) (v : Var) : Prop := v ∈ copies.map Prod.fst ∨
    .var v ∈ copies.map Prod.snd

/-- The variable is a destination of the copies, and one of them reads it. -/
def Overwritten (copies : List Copy) (v : Var) : Prop := v ∈ copies.map Prod.fst ∧
    .var v ∈ copies.map Prod.snd

/-- Asked for temporaries for destinations that are read, for each at most once, `fresh` makes
different variables, and none of those that the copies mention. -/
def Supplies {σ : Type} (fresh : Var → σ → Var × σ) (s : σ) (copies : List Copy) : Prop :=
  ∀ ds : List Var, ds.Nodup → (∀ d ∈ ds, Overwritten copies d) →
    (temporaries fresh ds s).Nodup ∧ ∀ t ∈ temporaries fresh ds s, ¬ Mentioned copies t

section Supplies

variable {σ : Type} {fresh : Var → σ → Var × σ} {s : σ} {copies' : List Copy}

theorem Mentioned.of_subset (h : Mentioned copies v) (hsub : copies ⊆ copies') :
    Mentioned copies' v :=
  h.imp (fun h => List.map_subset _ hsub h) fun h => List.map_subset _ hsub h

theorem Overwritten.of_subset (h : Overwritten copies v) (hsub : copies ⊆ copies') :
    Overwritten copies' v :=
  ⟨List.map_subset _ hsub h.1, List.map_subset _ hsub h.2⟩

theorem Supplies.of_subset (h : Supplies fresh s copies) (hsub : copies' ⊆ copies) :
    Supplies fresh s copies' := by
  intro ds nodup hds
  obtain ⟨hnodup, hnot⟩ := h ds nodup fun d hd => (hds d hd).of_subset hsub
  exact ⟨hnodup, fun t ht hmem => hnot t ht (hmem.of_subset hsub)⟩

theorem Supplies.not_mentioned (h : Supplies fresh s copies) (hd : Overwritten copies d) :
    ¬ Mentioned copies (fresh d s).1 :=
  (h [d] (List.nodup_singleton d) fun _ hx => List.mem_singleton.1 hx ▸ hd).2 _ (.head _)

end Supplies

/-! ## Steps -/

theorem extractFirst_eq_some {p : α → Bool} {l rest : List α} {a : α}
    (h : extractFirst p l = some (a, rest)) :
    p a = true ∧ ∃ pre post, l = pre ++ a :: post ∧ rest = pre ++ post := by
  induction l generalizing rest with
  | nil => cases h
  | cons b l ih =>
    rw [extractFirst] at h
    split at h
    · cases h
      exact ⟨‹_›, [], l, rfl, rfl⟩
    · obtain ⟨r, hr, heq⟩ := Option.map_eq_some_iff.1 h
      cases heq
      obtain ⟨hp, pre, post, hl, hrest⟩ := ih hr
      exact ⟨hp, b :: pre, post, by rw [hl, List.cons_append], by rw [hrest, List.cons_append]⟩

theorem extractFirst_eq_none {p : α → Bool} {l : List α} (h : extractFirst p l = none) :
    ∀ a ∈ l, p a = false := by
  induction l with
  | nil => simp
  | cons b l ih =>
    rw [extractFirst] at h
    split at h
    · cases h
    · rename_i hb
      simp only [List.mem_cons, forall_eq_or_imp]
      exact ⟨Bool.not_eq_true _ ▸ hb, ih (Option.map_eq_none_iff.1 h)⟩

theorem isUnread_iff : isUnread pending c = true ↔ ∀ c' ∈ pending, c'.2 ≠ .var c.1 := by
  simp [isUnread]

theorem map_fst_redirect (d x : Var) (pending : List Copy) :
    (redirect d x pending).map Prod.fst = pending.map Prod.fst := by
  unfold redirect
  rw [List.map_map]
  rfl

/-- Redirecting copies does not make them read anything but the temporary. -/
theorem source_of_mem_redirect (h : c ∈ redirect d x pending) (hv : c.2 = .var v) :
    v = x ∨ v ≠ d ∧ ∃ c' ∈ pending, c'.2 = .var v := by
  obtain ⟨c', hc', rfl⟩ := List.mem_map.1 h
  simp only at hv
  split at hv
  · exact .inl (Operand.var.inj hv).symm
  · rename_i hne
    exact .inr ⟨fun he => hne (he ▸ hv), c', hc', hv⟩

theorem overwritten_of_redirect (hx : ¬ Mentioned pending x)
    (h : Overwritten (redirect d x pending) v) : v ≠ d ∧ Overwritten pending v := by
  obtain ⟨hdest, hread⟩ := h
  rw [map_fst_redirect] at hdest
  obtain ⟨c, hc, hv⟩ := List.mem_map.1 hread
  rcases source_of_mem_redirect hc hv with rfl | ⟨hne, c', hc', hv'⟩
  · exact absurd (.inl hdest) hx
  · exact ⟨hne, hdest, List.mem_map.2 ⟨c', hc', hv'⟩⟩

theorem mentioned_of_redirect (h : Mentioned (redirect d x pending) v) :
    v = x ∨ Mentioned pending v := by
  rcases h with h | h
  · rw [map_fst_redirect] at h
    exact .inr (.inl h)
  · obtain ⟨c, hc, hv⟩ := List.mem_map.1 h
    refine (source_of_mem_redirect hc hv).imp_right ?_
    rintro ⟨_, c', hc', hv'⟩
    exact .inr (List.mem_map.2 ⟨c', hc', hv'⟩)

section Sequences

variable {σ : Type} {fresh : Var → σ → Var × σ} {temps : List Var} {made : List Copy}

/-- A destination that was saved is not read any more, so the next temporaries are for others. -/
theorem Supplies.redirect {s : σ} (h : Supplies fresh s pending) (hd : Overwritten pending d) :
    Supplies fresh (fresh d s).2 (redirect d (fresh d s).1 pending) := by
  intro ds nodup hds
  have hds' := fun v hv => overwritten_of_redirect (h.not_mentioned hd) (hds v hv)
  obtain ⟨hnodup, hnot⟩ := h (d :: ds) (List.nodup_cons.2 ⟨fun hmem => (hds' d hmem).1 rfl, nodup⟩)
    (List.forall_mem_cons.2 ⟨hd, fun v hv => (hds' v hv).2⟩)
  obtain ⟨hfirst, hnodup⟩ := List.nodup_cons.1 hnodup
  refine ⟨hnodup, fun t ht hmem => ?_⟩
  rcases mentioned_of_redirect hmem with rfl | hmem
  · exact hfirst ht
  · exact hnot t (.tail _ ht) hmem

variable (fresh) in
/-- `Sequences fresh pending s ds copies s'`: `copies`, one after the other, make the pending ones,
with temporaries for `ds` from `s` on; the temporaries after that come from `s'`. -/
inductive Sequences : List Copy → σ → List Var → List Copy → σ → Prop
  | done {s : σ} : Sequences [] s [] [] s
  /-- A copy is made when nothing reads its destination. -/
  | make {pre post copies : List Copy} {ds : List Var} {c : Copy} {s s' : σ} :
    (∀ c' ∈ pre ++ c :: post, c'.2 ≠ .var c.1) → Sequences (pre ++ post) s ds copies s' →
      Sequences (pre ++ c :: post) s ds (c :: copies) s'
  /-- When all destinations are read, one is saved for those that read it. -/
  | save {pending copies : List Copy} {ds : List Var} {d : Var} {s s' : σ} :
    (∀ c ∈ pending, Overwritten pending c.1) → d ∈ pending.map Prod.fst →
    Sequences (redirect d (fresh d s).1 pending) (fresh d s).2 ds copies s' →
      Sequences pending s (d :: ds) (((fresh d s).1, .var d) :: copies) s'

/-- The bound is enough: a copy takes two steps at most, and one if it can be made at once. -/
def Enough (bound : Nat) (pending : List Copy) : Prop :=
  2 * pending.length ≤ bound ∨
    2 * pending.length ≤ bound + 1 ∧ ∃ c ∈ pending, isUnread pending c = true

/-- After a destination was saved its copy can be made. -/
theorem isUnread_redirect (hd : d ∈ pending.map Prod.fst) (hx : x ≠ d) :
    ∃ c ∈ redirect d x pending, isUnread (redirect d x pending) c = true := by
  rw [← map_fst_redirect d x] at hd
  obtain ⟨c, hc, rfl⟩ := List.mem_map.1 hd
  refine ⟨c, hc, isUnread_iff.2 fun c' hc' hread => ?_⟩
  rcases source_of_mem_redirect hc' hread with he | ⟨he, _⟩
  · exact hx he.symm
  · exact he rfl

theorem overwritten_of_isUnread (hall : ∀ c ∈ pending, isUnread pending c = false) :
    ∀ c ∈ pending, Overwritten pending c.1 := by
  intro c hc
  have hread : ¬ ∀ c' ∈ pending, c'.2 ≠ .var c.1 := fun h => by
    rw [← isUnread_iff, hall c hc] at h
    cases h
  simp only [ne_eq, not_forall, Decidable.not_not] at hread
  obtain ⟨c', hc', hv⟩ := hread
  exact ⟨List.mem_map_of_mem hc, List.mem_map.2 ⟨c', hc', hv⟩⟩

/-- With a bound that is enough all pending copies are made, and no larger bound makes a
difference. -/
theorem sequences_orderPending {bound : Nat} {s : σ} (hs : Supplies fresh s pending)
    (henough : Enough bound pending) :
    (∃ ds, Sequences fresh pending s ds (orderPending fresh bound pending s).1
      (orderPending fresh bound pending s).2) ∧
      ∀ more, orderPending fresh (bound + more) pending s = orderPending fresh bound pending s := by
  induction bound generalizing pending s with
  | zero =>
    have hnil : pending = [] := by
      rcases henough with h | ⟨h, c, hc, _⟩
      · exact List.length_eq_zero_iff.1 (by omega)
      · have := List.length_pos_of_mem hc
        omega
    subst hnil
    exact ⟨⟨[], .done⟩, fun more => by cases more <;> rfl⟩
  | succ bound ih =>
    cases pending with
    | nil => exact ⟨⟨[], .done⟩, fun more => by rw [Nat.succ_add]; rfl⟩
    | cons c rest =>
      simp only [Nat.succ_add]
      cases hfirst : extractFirst (isUnread (c :: rest)) (c :: rest) with
      | some r =>
        obtain ⟨next, pending⟩ := r
        obtain ⟨hunread, pre, post, heq, rfl⟩ := extractFirst_eq_some hfirst
        simp only [orderPending, hfirst]
        rw [heq] at hunread hs henough ⊢
        have hsub : (pre ++ post).Sublist (pre ++ next :: post) :=
          (List.sublist_cons_self next post).append_left pre
        have hle : Enough bound (pre ++ post) := by
          have hle : 2 * (pre ++ next :: post).length ≤ bound + 2 := by
            rcases henough with h | h
            · omega
            · exact h.1
          refine .inl ?_
          simp only [List.length_append, List.length_cons] at hle ⊢
          omega
        obtain ⟨⟨ds, hseq⟩, hmore⟩ := ih (hs.of_subset hsub.subset) hle
        exact ⟨⟨ds, .make (isUnread_iff.1 hunread) hseq⟩, fun more => by rw [hmore more]⟩
      | none =>
        have hall := extractFirst_eq_none hfirst
        have hread := overwritten_of_isUnread hall
        simp only [orderPending, hfirst]
        have hc := hread c (.head _)
        have hne : (fresh c.1 s).1 ≠ c.1 :=
          fun he => hs.not_mentioned hc (.inl (by rw [he]; exact hc.1))
        have hle : Enough bound (redirect c.1 (fresh c.1 s).1 (c :: rest)) := by
          refine .inr ⟨?_, isUnread_redirect hc.1 hne⟩
          rcases henough with h | ⟨_, c', hc', hunread⟩
          · rw [redirect, List.length_map]
            exact h
          · rw [hall c' hc'] at hunread
            cases hunread
        obtain ⟨⟨ds, hseq⟩, hmore⟩ := ih (hs.redirect hc) hle
        exact ⟨⟨c.1 :: ds, .save hread hc.1 hseq⟩, fun more => by rw [hmore more]⟩

/-- Temporaries are made for destinations that are read, and for each once. -/
theorem Sequences.saved {s s' : σ} (h : Sequences fresh pending s ds copies s')
    (hs : Supplies fresh s pending) : ds.Nodup ∧ ∀ d ∈ ds, Overwritten pending d := by
  induction h with
  | done => exact ⟨List.nodup_nil, fun d hd => by cases hd⟩
  | @make pre post copies ds c s s' _ _ ih =>
    have hsub : pre ++ post ⊆ pre ++ c :: post :=
      ((List.sublist_cons_self c post).append_left pre).subset
    obtain ⟨nodup, hds⟩ := ih (hs.of_subset hsub)
    exact ⟨nodup, fun d hd => (hds d hd).of_subset hsub⟩
  | @save pending copies ds d s s' hall hd _ ih =>
    obtain ⟨c, hc, rfl⟩ := List.mem_map.1 hd
    obtain ⟨nodup, hds⟩ := ih (hs.redirect (hall c hc))
    have hds' := fun v hv => overwritten_of_redirect (hs.not_mentioned (hall c hc)) (hds v hv)
    exact ⟨List.nodup_cons.2 ⟨fun hmem => (hds' _ hmem).1 rfl, nodup⟩,
      List.forall_mem_cons.2 ⟨hall c hc, fun v hv => (hds' v hv).2⟩⟩

/-! ## What the copies do -/

/-- `copies`, one after the other, do what `pending` do at the same time, and change nothing else
but `temps`. -/
def Realizes (temps : List Var) (pending copies : List Copy) : Prop :=
  ∀ env : Env, (∀ c ∈ pending, (env.copyAll copies).getD c.1 0 = env.value c.2) ∧
    ∀ v, v ∉ pending.map Prod.fst → v ∉ temps → (env.copyAll copies).get? v = env.get? v

theorem getD_congr {env env' : Env} (h : env'.get? v = env.get? v) :
    env'.getD v 0 = env.getD v 0 := by
  unfold Table.getD
  rw [h]

theorem Realizes.make {pre post : List Copy} (hunread : ∀ c' ∈ pre ++ c :: post, c'.2 ≠ .var c.1)
    (htemp : c.1 ∉ temps) (nodup : ((pre ++ c :: post).map Prod.fst).Nodup)
    (h : Realizes temps (pre ++ post) copies) :
    Realizes temps (pre ++ c :: post) (c :: copies) := by
  intro env
  obtain ⟨hmade, hother⟩ := h (env.insert c.1 (env.value c.2))
  rw [List.map_append, List.map_cons, List.nodup_middle, List.nodup_cons,
    ← List.map_append] at nodup
  refine ⟨fun c' hc' => ?_, fun v hv hnot => ?_⟩
  · rcases List.mem_cons.1 (List.perm_middle.mem_iff.1 hc') with rfl | hc'
    · exact (getD_congr (hother c'.1 nodup.1 htemp)).trans (Env.getD_insert_self _ _ _)
    · refine (hmade c' hc').trans (Env.value_congr fun v hv => Env.getD_insert_ne _ _ ?_)
      rintro rfl
      exact hunread c' (List.perm_middle.mem_iff.2 (.tail _ hc')) hv
  · rw [List.map_append, List.map_cons, List.perm_middle.mem_iff, ← List.map_append, List.mem_cons,
      not_or] at hv
    refine (hother v hv.2 hnot).trans ?_
    rw [Table.get?_insert, if_neg hv.1]

theorem Realizes.save {t : Var} (ht : ¬ Mentioned pending t)
    (h : Realizes temps (redirect d t pending) copies) :
    Realizes (t :: temps) pending ((t, .var d) :: copies) := by
  intro env
  obtain ⟨hmade, hother⟩ := h (env.insert t (env.getD d 0))
  refine ⟨fun c hc => ?_, fun v hv hnot => ?_⟩
  · refine (hmade _ (List.mem_map_of_mem hc)).trans ?_
    simp only
    split
    · rename_i hread
      rw [hread]
      exact Env.getD_insert_self _ _ _
    · refine Env.value_congr fun v hv => Env.getD_insert_ne _ _ ?_
      rintro rfl
      exact ht (.inr (List.mem_map.2 ⟨c, hc, hv⟩))
  · rw [← map_fst_redirect d t] at hv
    rw [List.mem_cons, not_or] at hnot
    refine (hother v hv hnot.2).trans ?_
    rw [Table.get?_insert, if_neg hnot.1]

theorem Sequences.realizes {s s' : σ} (h : Sequences fresh pending s ds copies s')
    (hs : Supplies fresh s pending) (nodup : (pending.map Prod.fst).Nodup) :
    Realizes (temporaries fresh ds s) pending copies := by
  induction h with
  | done => exact fun env => ⟨fun c hc => (List.not_mem_nil hc).elim, fun _ _ _ => rfl⟩
  | @make pre post copies ds c s s' hunread hseq ih =>
    have hsub : (pre ++ post).Sublist (pre ++ c :: post) :=
      (List.sublist_cons_self c post).append_left pre
    obtain ⟨hds, hread⟩ := hseq.saved (hs.of_subset hsub.subset)
    have hnot := (hs ds hds fun d hd => (hread d hd).of_subset hsub.subset).2
    refine .make hunread (fun hmem => hnot c.1 hmem (.inl ?_)) nodup ?_
    · exact List.mem_map_of_mem (List.mem_append_right _ (.head _))
    · exact ih (hs.of_subset hsub.subset) (nodup.sublist (hsub.map _))
  | @save pending copies ds d s s' hall hd _ ih =>
    obtain ⟨c, hc, rfl⟩ := List.mem_map.1 hd
    refine .save (hs.not_mentioned (hall c hc)) (ih (hs.redirect (hall c hc)) ?_)
    rwa [map_fst_redirect]

/-- Copies of variables to themselves need not be made. -/
theorem Realizes.of_filter (nodup : (copies.map Prod.fst).Nodup)
    (htemps : ∀ c ∈ copies, c.1 ∉ temps)
    (h : Realizes temps (copies.filter fun c => decide (c.2 ≠ .var c.1)) made) :
    Realizes temps copies made := by
  intro env
  obtain ⟨hmade, hother⟩ := h env
  have hsub : (copies.filter fun c => decide (c.2 ≠ .var c.1)).Sublist copies := List.filter_sublist
  refine ⟨fun c hc => ?_,
    fun v hv hnot => hother v (fun hmem => hv ((hsub.map _).subset hmem)) hnot⟩
  by_cases hself : c.2 = .var c.1
  · rw [hself]
    refine getD_congr (hother c.1 (fun hmem => ?_) (htemps c hc))
    obtain ⟨c', hc', heq⟩ := List.mem_map.1 hmem
    obtain ⟨hc', hne⟩ := List.mem_filter.1 hc'
    cases List.inj_on_of_nodup_map nodup hc' hc heq
    exact of_decide_eq_true hne hself
  · exact hmade c (List.mem_filter.2 ⟨hc, decide_eq_true hself⟩)

/-- Of the copies those that move something are made, and no larger bound makes a difference. -/
theorem sequences_sequenceCopies {s : σ} (hs : Supplies fresh s copies) :
    (∃ ds, Sequences fresh (copies.filter fun c => decide (c.2 ≠ .var c.1)) s ds
      (sequenceCopies fresh copies s).1
        (sequenceCopies fresh copies s).2) ∧
      ∀ bound, 3 * (copies.filter fun c => decide (c.2 ≠ .var c.1)).length ≤ bound →
        orderPending fresh bound (copies.filter fun c => decide (c.2 ≠ .var c.1)) s
          = sequenceCopies fresh copies s := by
  have hsub : copies.filter (fun c => decide (c.2 ≠ .var c.1)) ⊆ copies := List.filter_subset_self _
  obtain ⟨hseq, hmore⟩ := sequences_orderPending (hs.of_subset hsub)
    (.inl (Nat.mul_le_mul_right _ (by decide : 2 ≤ 3)))
  refine ⟨hseq, fun bound hle => ?_⟩
  rw [← Nat.add_sub_cancel' hle, hmore]
  rfl

/-- A parallel copy to different variables can be made one by one. -/
theorem Sequences.realizes_all {s s' : σ}
    (h : Sequences fresh (copies.filter fun c => decide (c.2 ≠ .var c.1)) s ds made s')
    (hs : Supplies fresh s copies) (nodup : (copies.map Prod.fst).Nodup) :
    Realizes (temporaries fresh ds s) copies made := by
  have hsub : (copies.filter fun c => decide (c.2 ≠ .var c.1)).Sublist copies := List.filter_sublist
  have hs' := hs.of_subset hsub.subset
  obtain ⟨hds, hread⟩ := h.saved hs'
  have hnot := (hs ds hds fun d hd => (hread d hd).of_subset hsub.subset).2
  refine (h.realizes hs' (nodup.sublist (hsub.map _))).of_filter nodup fun c hc hmem => ?_
  exact hnot c.1 hmem (.inl (List.mem_map_of_mem hc))

end Sequences

/-! ## Temporaries from version counters -/

namespace Temporaries

/-- The counters are at or above the version of `v`. -/
def Knows (t : Temporaries) (v : Var) : Prop := ∀ n, v.version = some n →
    n ≤ t.versions.getD v.name 0

theorem not_knows_fresh (t : Temporaries) (v : Var) : ¬ t.Knows (fresh v t).1 := by
  intro h
  have hle := h _ rfl
  unfold fresh at hle
  simp only at hle
  omega

theorem knows_fresh (t : Temporaries) (v : Var) : (fresh v t).2.Knows (fresh v t).1 := by
  rintro n hn
  cases hn
  refine Int.le_of_eq ?_
  simp only [fresh]
  rw [Table.getD_insert, if_pos rfl]

theorem Knows.fresh (h : t.Knows x) (v : Var) : (fresh v t).2.Knows x := by
  intro n hn
  have hle := h n hn
  simp only [Temporaries.fresh]
  rw [Table.getD_insert]
  split
  · rename_i heq
    rw [heq] at hle
    omega
  · exact hle

/-- The counters know all variables of the copies. -/
structure Covers (t : Temporaries) (copies : List Copy) : Prop where
  dest : ∀ c ∈ copies, t.Knows c.1
  source : ∀ c ∈ copies, ∀ v, c.2 = .var v → t.Knows v

theorem Covers.knows (h : t.Covers copies) (hv : Mentioned copies v) : t.Knows v := by
  rcases hv with hv | hv
  · obtain ⟨c, hc, rfl⟩ := List.mem_map.1 hv
    exact h.dest c hc
  · obtain ⟨c, hc, hv⟩ := List.mem_map.1 hv
    exact h.source c hc v hv

/-- What is handed out was not known before, and is known then. -/
theorem temporaries_fresh (ds : List Var) (t : Temporaries) :
    (temporaries fresh ds t).Nodup ∧ ∀ x ∈ temporaries fresh ds t, ¬ t.Knows x := by
  induction ds generalizing t with
  | nil => exact ⟨List.nodup_nil, fun x hx => by cases hx⟩
  | cons d ds ih =>
    obtain ⟨nodup, hnot⟩ := ih (fresh d t).2
    refine ⟨List.nodup_cons.2 ⟨fun hmem => hnot _ hmem (t.knows_fresh d), nodup⟩, ?_⟩
    exact List.forall_mem_cons.2 ⟨t.not_knows_fresh d, fun x hx hx' => hnot x hx (hx'.fresh d)⟩

theorem Covers.supplies (h : t.Covers copies) : Supplies fresh t copies := by
  intro ds _ _
  obtain ⟨nodup, hnot⟩ := temporaries_fresh ds t
  exact ⟨nodup, fun x hx hmem => hnot x hx (h.knows hmem)⟩

end Temporaries

/-- `copies`, one after the other, do what `pending` do at the same time, as far as the counters
know the variables. -/
def Performs (t : Temporaries) (pending copies : List Copy) : Prop :=
  ∀ env : Env, (∀ c ∈ pending, (env.copyAll copies).getD c.1 0 = env.value c.2) ∧
    ∀ v, t.Knows v → v ∉ pending.map Prod.fst → (env.copyAll copies).getD v 0 = env.getD v 0

theorem Performs.mono (h : Performs t' pending copies) (hknows : ∀ v, t.Knows v → t'.Knows v) :
    Performs t pending copies :=
  fun env => ⟨(h env).1, fun v hv => (h env).2 v (hknows v hv)⟩

theorem performs_sequenceCopies (hcovers : t.Covers copies) (nodup : (copies.map Prod.fst).Nodup) :
    Performs t copies (sequenceCopies Temporaries.fresh copies t).1 := by
  obtain ⟨⟨ds, hseq⟩, _⟩ := sequences_sequenceCopies hcovers.supplies
  intro env
  obtain ⟨hmade, hother⟩ := hseq.realizes_all hcovers.supplies nodup env
  refine ⟨hmade, fun v hv hnot => getD_congr (hother v hnot fun hmem => ?_)⟩
  exact (Temporaries.temporaries_fresh ds t).2 v hmem hv

/-! ## What the copies mention -/

/-- The variables of the copy have versions. -/
def Copy.IsVersioned (c : Copy) : Prop := c.1.version ≠ none ∧ ∀ v, c.2 = .var v → v.version ≠ none

theorem Sequences.isVersioned (h : Sequences Temporaries.fresh pending t ds copies t')
    (hpending : ∀ c ∈ pending, Copy.IsVersioned c) : ∀ c ∈ copies, Copy.IsVersioned c := by
  have hfresh : ∀ d t, (Temporaries.fresh d t).1.version ≠ none := fun d t h => by cases h
  induction h with
  | done => exact hpending
  | @make pre post copies ds c t t' _ _ ih =>
    have hsub : pre ++ post ⊆ pre ++ c :: post :=
      ((List.sublist_cons_self c post).append_left pre).subset
    simp only [List.mem_cons, forall_eq_or_imp]
    exact ⟨hpending c (List.mem_append_right _ (.head _)), ih fun c' hc' => hpending c' (hsub hc')⟩
  | @save pending copies ds d t t' _ hd _ ih =>
    simp only [List.mem_cons, forall_eq_or_imp]
    refine ⟨⟨hfresh d t, fun v hv => ?_⟩, ih fun c hc => ?_⟩
    · cases hv
      obtain ⟨c, hc, rfl⟩ := List.mem_map.1 hd
      exact (hpending c hc).1
    · obtain ⟨c', hc', heq⟩ := List.mem_map.1 hc
      refine ⟨heq ▸ (hpending c' hc').1, fun v hv => ?_⟩
      rcases source_of_mem_redirect hc hv with rfl | ⟨_, c', hc', hv⟩
      · exact hfresh d t
      · exact (hpending c' hc').2 v hv

theorem isVersioned_sequenceCopies (hcovers : t.Covers copies)
    (hcopies : ∀ c ∈ copies, Copy.IsVersioned c) :
    ∀ c ∈ (sequenceCopies Temporaries.fresh copies t).1, Copy.IsVersioned c := by
  obtain ⟨⟨ds, hseq⟩, _⟩ := sequences_sequenceCopies hcovers.supplies
  exact hseq.isVersioned fun c hc => hcopies c (List.mem_of_mem_filter hc)

/-- Counters never go back. -/
theorem Temporaries.Knows.orderPending (h : t.Knows v) (fuel : Nat) (pending : List Copy) :
    (orderPending Temporaries.fresh fuel pending t).2.Knows v := by
  induction fuel generalizing pending t with
  | zero => exact h
  | succ fuel ih =>
    cases pending with
    | nil => exact h
    | cons c rest =>
      cases hfirst : extractFirst (isUnread (c :: rest)) (c :: rest) with
      | some r =>
        simp only [ThreeAddress.orderPending, hfirst]
        exact ih h _
      | none =>
        simp only [ThreeAddress.orderPending, hfirst]
        exact ih (h.fresh c.1) _

end ThreeAddress

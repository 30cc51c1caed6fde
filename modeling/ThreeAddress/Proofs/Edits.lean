import ThreeAddress.Edit

/-!
# Edits that succeed

`Edit.Yields m f a f'` says that an edit takes `f` to `f'` with result `a`. An edit made of several
steps is proved to succeed step by step, with one lemma for each way of making a step.

`Edit.Keeps m I R` says less: if the edit succeeds, it has kept `I`, and its result has `R`. It is
proved step by step as well, without a word on why the steps succeed.
-/

namespace ThreeAddress

namespace Edit

variable {α β γ : Type} {m : Edit α} {f f' f'' : Func} {g : Func → Except Fault Func} {e : Fault}
  {c : Prop}

/-- The edit takes `f` to `f'` and returns `a`. -/
def Yields (m : Edit α) (f : Func) (a : α) (f' : Func) : Prop := (m f).result = .ok a ∧
    (m f).func = f'

theorem Yields.bind {a : α} {k : α → Edit β} {b : β} (hm : m.Yields f a f')
    (hk : (k a).Yields f' b f'') : (m >>= k).Yields f b f'' := by
  obtain ⟨hres, rfl⟩ := hm
  unfold Yields at *
  rw [bind_def, hres]
  exact hk

theorem yields_pure (a : α) (f : Func) : (pure a : Edit α).Yields f a f := ⟨rfl, rfl⟩

theorem yields_get (f : Func) : get.Yields f f f := ⟨rfl, rfl⟩

theorem yields_modify (g : Func → Func) (f : Func) : (modify g).Yields f () (g f) := ⟨rfl, rfl⟩

theorem yields_emit (e : Event) (f : Func) : (emit e).Yields f () f := ⟨rfl, rfl⟩

theorem yields_ask {g : Func → Except Fault α} {a : α} (h : g f = .ok a) : (ask g).Yields f a f :=
  ⟨h, rfl⟩

theorem yields_apply (h : g f = .ok f') : (apply g).Yields f () f' := by
  unfold Yields apply
  rw [h]
  exact ⟨rfl, rfl⟩

theorem yields_applyWith {g : Func → Except Fault (α × Func)} {a : α} (h : g f = .ok (a, f')) :
    (applyWith g).Yields f a f' := by
  unfold Yields applyWith
  rw [h]
  exact ⟨rfl, rfl⟩

theorem yields_mapFault {h : Fault → Fault} {a : α} (hm : m.Yields f a f') :
    (mapFault h m).Yields f a f' := by
  obtain ⟨hres, hfunc⟩ := hm
  refine ⟨?_, hfunc⟩
  show (m f).result.mapError h = .ok a
  rw [hres]
  rfl

/-- An edit has one outcome. -/
theorem Yields.unique {a b : α} (h : m.Yields f a f') (h' : m.Yields f b f'') :
    a = b ∧ f' = f'' := by
  obtain ⟨hres, rfl⟩ := h
  obtain ⟨hres', rfl⟩ := h'
  rw [hres] at hres'
  cases hres'
  exact ⟨rfl, rfl⟩

/-- Reporting something in some cases changes nothing. -/
theorem Yields.emit_if [Decidable c] {e : Event} {k : PUnit → Edit β} {b : β}
    (h : (k ⟨⟩).Yields f b f') : (if c then emit e >>= k else k ⟨⟩).Yields f b f' := by
  split
  · exact (yields_emit e f).bind h
  · exact h

/-- What follows a choice may stand in both branches. -/
theorem Yields.ite_bind [Decidable c] {m' : Edit α} {k : α → Edit β} {b : β}
    (h : ((if c then m else m') >>= k).Yields f b f') :
    (if c then m >>= k else m' >>= k).Yields f b f' := by
  split
  · rwa [if_pos ‹_›] at h
  · rwa [if_neg ‹_›] at h

theorem yields_dominators {d : Dominators} (h : f.dominators = .ok d) : dominators.Yields f d f :=
  (yields_ask h).bind ((yields_get f).bind ((yields_emit _ f).bind (yields_pure d f)))

/-- One change after the other. -/
theorem yields_forM {k : γ → Edit PUnit} {step : Func → γ → Func} {l : List γ}
    (h : ∀ done c rest, l = done ++ c :: rest →
      (k c).Yields (done.foldl step f) ⟨⟩ (step (done.foldl step f) c)) :
    (l.forM k).Yields f ⟨⟩ (l.foldl step f) := by
  induction l generalizing f with
  | nil => exact yields_pure _ f
  | cons c l ih =>
    show (k c >>= fun _ => l.forM k).Yields f ⟨⟩ _
    refine (h [] c l rfl).bind (ih fun done c' rest heq => ?_)
    exact h (c :: done) c' rest (by rw [heq, List.cons_append])

theorem yields_forM_emit (e : γ → Event) (l : List γ) (f : Func) :
    (l.forM fun c => emit (e c)).Yields f ⟨⟩ f := by
  induction l with
  | nil => exact yields_pure _ f
  | cons c l ih => exact (yields_emit (e c) f).bind ih

/-- Steps that succeed together succeed one by one. -/
theorem Yields.of_bind {k : α → Edit β} {b : β} (h : (m >>= k).Yields f b f'') :
    ∃ a f', m.Yields f a f' ∧ (k a).Yields f' b f'' := by
  unfold Yields at h
  rw [bind_def] at h
  cases hm : (m f).result with
  | error e =>
    rw [hm] at h
    cases h.1
  | ok a =>
    rw [hm] at h
    exact ⟨a, (m f).func, ⟨hm, rfl⟩, h⟩

theorem Yields.after {k : α → Edit β} {a : α} {b : β} (hm : m.Yields f a f')
    (h : (m >>= k).Yields f b f'') : (k a).Yields f' b f'' := by
  obtain ⟨_, _, hm', hk⟩ := h.of_bind
  obtain ⟨rfl, rfl⟩ := hm.unique hm'
  exact hk

theorem Yields.of_ask {g : Func → Except Fault α} {a : α} (h : (ask g).Yields f a f') :
    g f = .ok a ∧ f = f' := h

/-- Changes that succeed together are made one after the other. -/
theorem Yields.eq_foldl {k : γ → Edit PUnit} {step : Func → γ → Func} {l : List γ}
    (hk : ∀ c f f', (k c).Yields f ⟨⟩ f' → f' = step f c) (h : (l.forM k).Yields f ⟨⟩ f') :
    f' = l.foldl step f := by
  induction l generalizing f with
  | nil => exact ((yields_pure _ f).unique h).2.symm
  | cons c l ih =>
    change (k c >>= fun _ => l.forM k).Yields f ⟨⟩ f' at h
    obtain ⟨_, f₁, hc, h⟩ := h.of_bind
    rw [ih h, hk c f f₁ hc]
    rfl

/-! ## What edits keep -/

/-- Where the edit succeeds, it has kept `I`, and its result has `R`. -/
def Keeps (m : Edit α) (I : Func → Prop) (R : α → Prop) : Prop := ∀ ⦃f a f'⦄, I f →
    m.Yields f a f' → I f' ∧ R a

section Keeps

variable {I : Func → Prop} {R : α → Prop} {S : β → Prop}

theorem Keeps.bind {k : α → Edit β} (h : m.Keeps I R) (hk : ∀ a, R a → (k a).Keeps I S) :
    (m >>= k).Keeps I S := by
  intro f b f'' hI hyields
  obtain ⟨a, f', hm, hrest⟩ := hyields.of_bind
  obtain ⟨hI, hR⟩ := h hI hm
  exact hk a hR hI hrest

theorem Keeps.imp {R' : α → Prop} (h : m.Keeps I R) (himp : ∀ a, R a → R' a) : m.Keeps I R' :=
  fun _ _ _ hI hyields =>
  (h hI hyields).imp_right (himp _)

theorem keeps_pure {a : α} (h : R a) : (pure a : Edit α).Keeps I R := by
  intro f b f' hI hyields
  obtain ⟨rfl, rfl⟩ := (yields_pure a f).unique hyields
  exact ⟨hI, h⟩

theorem keeps_get : get.Keeps I I := by
  intro f g f' hI hyields
  obtain ⟨rfl, rfl⟩ := (yields_get f).unique hyields
  exact ⟨hI, hI⟩

theorem keeps_modify {g : Func → Func} (h : ∀ f, I f → I (g f)) :
    (modify g).Keeps I fun _ => True := by
  intro f a f' hI hyields
  obtain ⟨_, rfl⟩ := (yields_modify g f).unique hyields
  exact ⟨h f hI, trivial⟩

theorem keeps_emit (e : Event) : (emit e).Keeps I fun _ => True := by
  intro f a f' hI hyields
  obtain ⟨_, rfl⟩ := (yields_emit e f).unique hyields
  exact ⟨hI, trivial⟩

theorem keeps_fail (e : Fault) : (fail e : Edit α).Keeps I R := by
  intro f a f' _ hyields
  cases hyields.1

theorem keeps_ask {g : Func → Except Fault α} (h : ∀ f a, I f → g f = .ok a → R a) :
    (ask g).Keeps I R := by
  intro f a f' hI hyields
  obtain ⟨hres, rfl⟩ := hyields
  exact ⟨hI, h f a hI hres⟩

theorem keeps_apply (h : ∀ f f', I f → g f = .ok f' → I f') : (apply g).Keeps I fun _ => True := by
  intro f a f' hI hyields
  cases hg : g f with
  | error e =>
    have hres := hyields.1
    unfold apply at hres
    rw [hg] at hres
    cases hres
  | ok f₁ =>
    obtain ⟨_, rfl⟩ := (yields_apply hg).unique hyields
    exact ⟨h f f₁ hI hg, trivial⟩

theorem keeps_applyWith {g : Func → Except Fault (α × Func)}
    (h : ∀ f a f', I f → g f = .ok (a, f') → I f' ∧ R a) : (applyWith g).Keeps I R := by
  intro f a f' hI hyields
  cases hg : g f with
  | error e =>
    have hres := hyields.1
    unfold applyWith at hres
    rw [hg] at hres
    cases hres
  | ok r =>
    obtain ⟨rfl, rfl⟩ := (yields_applyWith (show g f = .ok (r.1, r.2) from hg)).unique hyields
    exact h f r.1 r.2 hI hg

theorem Keeps.mapFault (h : m.Keeps I R) (g : Fault → Fault) : (mapFault g m).Keeps I R := by
  intro f a f' hI hyields
  obtain ⟨hres, hfunc⟩ := hyields
  refine h hI ⟨?_, hfunc⟩
  change (m f).result.mapError g = .ok a at hres
  cases hm : (m f).result with
  | error e =>
    rw [hm] at hres
    cases hres
  | ok b =>
    rw [hm] at hres
    exact hres

theorem keeps_forM {k : γ → Edit PUnit} {l : List γ} (h : ∀ c ∈ l, (k c).Keeps I fun _ => True) :
    (l.forM k).Keeps I fun _ => True := by
  induction l with
  | nil => exact keeps_pure trivial
  | cons c l ih =>
    show (k c >>= fun _ => l.forM k).Keeps I _
    exact (h c (.head _)).bind fun _ _ => ih fun c' hc' => h c' (.tail _ hc')

theorem keeps_dominators : dominators.Keeps I fun _ => True :=
  (keeps_ask fun _ _ _ _ => trivial).bind fun _ _ => keeps_get.bind fun _ _ =>
    (keeps_emit _).bind fun _ _ =>
    keeps_pure trivial

end Keeps

/-! ## Edits that do the same -/

theorem ask_bind_ok {g : Func → Except Fault α} {a : α} (h : g f = .ok a) (k : α → Edit β) :
    (ask g >>= k) f = k a f := by
  simp only [bind_def, ask, h, List.nil_append]

theorem ask_bind_error {g : Func → Except Fault α} (h : g f = .error e) (k : α → Edit β) :
    (ask g >>= k) f = ⟨.error e, f, []⟩ := by
  simp only [bind_def, ask, h]

theorem get_bind (k : Func → Edit β) (f : Func) : (get >>= k) f = k f f := by
  simp only [bind_def, get, List.nil_append]

theorem modify_bind (g : Func → Func) (k : Unit → Edit β) (f : Func) :
    (modify g >>= k) f = k () (g f) := by
  simp only [bind_def, modify, List.nil_append]

theorem fail_bind (e : Fault) (k : α → Edit β) (f : Func) :
    (fail e >>= k) f = ⟨.error e, f, []⟩ := rfl

theorem apply_ok (h : g f = .ok f') : apply g f = ⟨.ok (), f', []⟩ := by
  simp only [apply, h]

theorem apply_error (h : g f = .error e) : apply g f = ⟨.error e, f, []⟩ := by
  simp only [apply, h]

theorem apply_bind_ok (h : g f = .ok f') (k : Unit → Edit β) : (apply g >>= k) f = k () f' := by
  simp only [bind_def, apply_ok h, List.nil_append]

theorem applyWith_ok {g : Func → Except Fault (α × Func)} {a : α} (h : g f = .ok (a, f')) :
    applyWith g f = ⟨.ok a, f', []⟩ := by
  simp only [applyWith, h]

theorem applyWith_error {g : Func → Except Fault (α × Func)} (h : g f = .error e) :
    applyWith g f = ⟨.error e, f, []⟩ := by
  simp only [applyWith, h]

/-- What follows a step that succeeds counts only where the step arrives. -/
theorem Yields.bind_congr {a : α} {k k' : α → Edit β} (hm : m.Yields f a f')
    (h : k a f' = k' a f') : (m >>= k) f = (m >>= k') f := by
  obtain ⟨hres, rfl⟩ := hm
  rw [bind_def, bind_def, hres]
  simp only [h]

theorem bind_congr_left {m' : Edit α} (h : m f = m' f) (k : α → Edit β) :
    (m >>= k) f = (m' >>= k) f := by
  rw [bind_def, bind_def, h]

end Edit

end ThreeAddress

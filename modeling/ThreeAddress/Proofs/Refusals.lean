import ThreeAddress.Proofs.Renaming

/-!
# Refused uses

A policy that refuses uses without a definition does as the other one, up to the first use that it
refuses (`Edit.enterSsa_refuse`). `Edit.RefusesIf` says when there is one: for a block, when one of
its uses has no definition (`Edit.renameBlock_refusesIf`).
-/

namespace ThreeAddress

/-- The fault is a use without a definition. -/
def Fault.IsUndefinedUse (e : Fault) : Prop := ∃ f l x, e = .undefinedUse f l x

namespace Edit

variable {α β : Type} {m m' : Edit α} {f f' : Func}

/-- The edit fails at a use without a definition. -/
def Refuses (m : Edit α) (f : Func) : Prop := ∃ e, (m f).result = .error e ∧ e.IsUndefinedUse

theorem Refuses.not_yields (h : m.Refuses f) {a : α} : ¬ m.Yields f a f' := by
  rintro ⟨hok, _⟩
  obtain ⟨e, he, _⟩ := h
  rw [hok] at he
  cases he

theorem Refuses.bind (h : m.Refuses f) (k : α → Edit β) : (m >>= k).Refuses f := by
  obtain ⟨e, he, hundef⟩ := h
  refine ⟨e, ?_, hundef⟩
  rw [bind_def, he]

theorem Refuses.of_yields {a : α} {k : α → Edit β} (hm : m.Yields f a f') (hk : (k a).Refuses f') :
    (m >>= k).Refuses f := by
  obtain ⟨e, he, hundef⟩ := hk
  refine ⟨e, ?_, hundef⟩
  rw [bind_def, hm.1]
  exact hm.2 ▸ he

/-- `m` refuses a use, or does what `m'` does. -/
def RefusesOr (m m' : Edit α) (f : Func) : Prop := m.Refuses f ∨ m f = m' f

theorem RefusesOr.refl (m : Edit α) (f : Func) : m.RefusesOr m f := .inr rfl

theorem RefusesOr.bind {k k' : α → Edit β} (h : m.RefusesOr m' f)
    (hk : ∀ a f', (k a).RefusesOr (k' a) f') : (m >>= k).RefusesOr (m' >>= k') f := by
  rcases h with h | h
  · exact .inl (h.bind k)
  · cases hresult : (m f).result with
    | error e => exact .inr (by rw [bind_def, bind_def, ← h, hresult])
    | ok a =>
      rcases hk a (m f).func with hk | hk
      · exact .inl (.of_yields ⟨hresult, rfl⟩ hk)
      · exact .inr (by simp only [bind_def, ← h, hresult, hk])

theorem RefusesOr.bind_right (m : Edit α) {k k' : α → Edit β}
    (hk : ∀ a f', (k a).RefusesOr (k' a) f') : (m >>= k).RefusesOr (m >>= k') f :=
  (RefusesOr.refl m f).bind hk

theorem RefusesOr.fail (e : Fault) (k k' : α → Edit β) (f : Func) :
    ((Edit.fail e : Edit α) >>= k).RefusesOr (Edit.fail e >>= k') f := .inr rfl

/-- What an edit that does not refuse yields. -/
theorem RefusesOr.yields {a : α} (h : m.RefusesOr m' f) (hyields : m'.Yields f a f') :
    m.Refuses f ∨ m.Yields f a f' := by
  refine h.imp_right fun h => ?_
  unfold Yields
  rw [h]
  exact hyields

/-- If `P`, then `m` refuses a use, and otherwise it does what `m'` does. -/
def RefusesIf (P : Prop) (m m' : Edit α) (f : Func) : Prop := P ∧ m.Refuses f ∨ ¬ P ∧ m f = m' f

section RefusesIf

variable {P Q : Prop}

theorem RefusesIf.refl (m : Edit α) (f : Func) : RefusesIf False m m f := .inr ⟨id, rfl⟩

theorem RefusesIf.congr (h : RefusesIf P m m' f) (hiff : P ↔ Q) : RefusesIf Q m m' f := by
  rwa [← propext hiff]

theorem RefusesIf.bind {a : α} {k k' : α → Edit β} (h : RefusesIf P m m' f) (hm' : m'.Yields f a f')
    (hk : RefusesIf Q (k a) (k' a) f') : RefusesIf (P ∨ Q) (m >>= k) (m' >>= k') f := by
  rcases h with ⟨hP, href⟩ | ⟨hP, heq⟩
  · exact .inl ⟨.inl hP, href.bind k⟩
  · have hm : m.Yields f a f' := by
      unfold Yields
      rw [heq]
      exact hm'
    rcases hk with ⟨hQ, href⟩ | ⟨hQ, hkeq⟩
    · exact .inl ⟨.inr hQ, .of_yields hm href⟩
    · refine .inr ⟨fun h => h.elim hP hQ, ?_⟩
      simp only [bind_def, heq, hm'.1, hm'.2, hkeq]

theorem RefusesIf.bind_right {a : α} {k k' : α → Edit β} (hm : m.Yields f a f')
    (hk : RefusesIf Q (k a) (k' a) f') : RefusesIf Q (m >>= k) (m >>= k') f :=
  ((RefusesIf.refl m f).bind hm hk).congr (iff_of_eq (false_or Q))

theorem RefusesIf.bind_left {a : α} {k : α → Edit β} (h : RefusesIf P m m' f)
    (hm' : m'.Yields f a f') : RefusesIf P (m >>= k) (m' >>= k) f :=
  (h.bind hm' (.refl (k a) f')).congr (iff_of_eq (or_false P))

theorem RefusesIf.refuses_iff {a : α} (h : RefusesIf P m m' f) (hm' : m'.Yields f a f') :
    m.Refuses f ↔ P := by
  rcases h with ⟨hP, href⟩ | ⟨hP, heq⟩
  · exact iff_of_true href hP
  · refine iff_of_false (fun href => ?_) hP
    obtain ⟨e, he, _⟩ := href
    rw [heq, hm'.1] at he
    cases he

end RefusesIf

end Edit

/-- A use is refused if there is one without a definition; otherwise the policy does not matter. -/
theorem renameInstrs_refuse (instrs : List Instr) (versions : Table String Int) (defs : Reaching) :
    (renameInstrs .sentinel instrs versions defs).missing ≠ [] ∧
        (∃ x, (renameInstrs .refuse instrs versions defs).refused = some x) ∨
      (renameInstrs .sentinel instrs versions defs).missing = [] ∧
        renameInstrs .refuse instrs versions defs
          = renameInstrs .sentinel instrs versions defs := by
  induction instrs generalizing versions defs with
  | nil => exact .inr ⟨rfl, rfl⟩
  | cons i rest ih =>
    cases hmissing : defs.unresolved (if i.isPhi then [] else i.uses) with
    | cons x more =>
      simp only [renameInstrs, hmissing]
      exact .inl ⟨List.cons_ne_nil _ _, x, rfl⟩
    | nil =>
      simp only [renameInstrs, hmissing, List.nil_append]
      refine (ih _ _).imp_right fun heq => ⟨heq.1, ?_⟩
      rw [heq.2]

namespace Edit

variable {f : Func}

theorem renameBlock_refuse (l : Label) (defs : Reaching) :
    (renameBlock .refuse l defs).RefusesOr (renameBlock .sentinel l defs) f := by
  refine .bind_right _ fun b f₁ => .bind_right _ fun g f₂ => ?_
  rcases renameInstrs_refuse b.instrs g.versions defs with ⟨_, x, hx⟩ | ⟨_, heq⟩
  · simp only [hx]
    exact .inl ⟨_, rfl, f₂.name, l, x, rfl⟩
  · rw [heq]
    refine .bind_right _ fun _ f₃ => ?_
    simp only [(renames b.instrs g.versions defs).refused]
    -- The uses of the terminator come last.
    split
    · exact .inl ⟨_, rfl, f₃.name, l, _, rfl⟩
    · exact .refl _ f₃

/-- A block is refused if one of its uses has no definition. -/
theorem renameBlock_refusesIf {l : Label} {b : Block} {t : Terminator} (hb : f.block? l = some b)
    (ht : b.term = some t) (defs : Reaching) :
    RefusesIf ((renameInstrs .sentinel b.instrs f.versions defs).missing ≠ [] ∨
        (renameInstrs .sentinel b.instrs f.versions defs).defs.unresolved t.uses ≠ [])
      (renameBlock .refuse l defs) (renameBlock .sentinel l defs) f := by
  have hask : f.getBlock l = .ok b := by rw [Func.getBlock, hb]
  refine .bind_right (yields_ask hask) (.bind_right (yields_get f) ?_)
  rcases renameInstrs_refuse b.instrs f.versions defs with ⟨hmissing, x, hx⟩ | ⟨hmissing, heq⟩
  · simp only [hx]
    exact .inl ⟨.inl hmissing, _, rfl, f.name, l, x, rfl⟩
  · rw [heq, hmissing]
    refine .bind_right (yields_modify _ f) ?_
    simp only [(renames b.instrs f.versions defs).refused, ht]
    cases hterm : (renameInstrs .sentinel b.instrs f.versions defs).defs.unresolved t.uses with
    | cons x more => exact .inl ⟨.inr (List.cons_ne_nil _ _), _, rfl, _, l, x, rfl⟩
    | nil => exact (RefusesIf.refl _ _).congr (by simp)

theorem renameAlong_refuse (tour : List TreeStep) (defs : Reaching)
    (pushed : Table Label (List String)) :
    (renameAlong .refuse tour defs pushed).RefusesOr (renameAlong .sentinel tour defs pushed)
      f := by
  induction tour generalizing defs pushed f with
  | nil => exact .refl _ f
  | cons step tour ih =>
    cases step with
    | leave l => exact ih _ _
    | enter l =>
      exact .bind_right _ fun g f₁ => (renameBlock_refuse l defs).bind fun r f₂ =>
        (ih _ _).bind fun uses f₃ => .refl _ f₃

/-- The policy matters only for what is refused. -/
theorem enterSsa_refuse (prune : Bool) :
    (enterSsa .refuse prune).RefusesOr (enterSsa .sentinel prune) f := by
  have hrename : ∀ d f, (rename .refuse d).RefusesOr (rename .sentinel d) f := fun d f =>
    .bind_right _ fun _ _ => .bind_right _ fun _ _ => renameAlong_refuse _ _ _
  refine .bind_right _ fun g _ => ?_
  cases g.ssa with
  | true => exact .fail _ _ _ _
  | false =>
    refine .bind_right _ fun _ _ => .bind_right _ fun _ _ => .bind_right _ fun _ _ =>
      .bind_right _ fun d _ =>
      .bind_right _ fun _ _ => ?_
    exact (hrename d _).bind fun uses f' => .refl _ f'

theorem Yields.sentinel_of_enterSsa {policy : UndefinedPolicy} {prune : Bool} {c : Construction}
    {g : Func} (h : (enterSsa policy prune).Yields f c g) :
    (enterSsa .sentinel prune).Yields f c g := by
  cases policy with
  | sentinel => exact h
  | refuse =>
    rcases enterSsa_refuse (f := f) prune with ⟨e, he, _⟩ | heq
    · cases h.1.symm.trans he
    · unfold Yields at h ⊢
      rwa [← heq]

end Edit

end ThreeAddress

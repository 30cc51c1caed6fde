import ThreeAddress.Event
import ThreeAddress.Func

/-!
# Edits

An edit changes a function step by step and may fail part way: then the changes made before the
failure stay. So an edit returns the function that it reached in any case, beside its result or
fault, and the events that it reported. What an edit does to a function depends on that function
only, never on what was reported before.
-/

namespace ThreeAddress

/-- What an edit leaves. -/
structure Outcome (α : Type) where
  /-- The result, or why there is none. -/
  result : Except Fault α
  /-- The function reached. -/
  func : Func
  /-- The events reported, in order. -/
  log : List Event

/-- A change of a function with a result. -/
def Edit (α : Type) : Type := Func → Outcome α

namespace Edit

variable {α β γ : Type}

/-- Leaves the function as it is. -/
protected def pure (a : α) : Edit α := fun f => ⟨.ok a, f, []⟩

/-- Goes on with `k` where `m` arrived, unless `m` failed. -/
protected def bind (m : Edit α) (k : α → Edit β) : Edit β := fun f =>
  let first := m f
  match first.result with
  | .error e => ⟨.error e, first.func, first.log⟩
  | .ok a =>
    let second := k a first.func
    ⟨second.result, second.func, first.log ++ second.log⟩

instance : Monad Edit where
  pure := Edit.pure
  bind := Edit.bind

/-- The function as it is now. -/
def get : Edit Func := fun f => ⟨.ok f, f, []⟩

/-- Changes the function. -/
def modify (g : Func → Func) : Edit Unit := fun f => ⟨.ok (), g f, []⟩

/-- Reports an event. -/
def emit (e : Event) : Edit Unit := fun f => ⟨.ok (), f, [e]⟩

/-- Fails. -/
def fail (e : Fault) : Edit α := fun f => ⟨.error e, f, []⟩

/-- Asks something of the function that may fail. -/
def ask (g : Func → Except Fault α) : Edit α := fun f => ⟨g f, f, []⟩

/-- Makes a change that is made in full or not at all. -/
def apply (g : Func → Except Fault Func) : Edit Unit := fun f =>
  match g f with
  | .ok f' => ⟨.ok (), f', []⟩
  | .error e => ⟨.error e, f, []⟩

/-- Makes a change that is made in full or not at all, and has a result. -/
def applyWith (g : Func → Except Fault (α × Func)) : Edit α := fun f =>
  match g f with
  | .ok (a, f') => ⟨.ok a, f', []⟩
  | .error e => ⟨.error e, f, []⟩

/-- Changes the fault of an edit that fails. -/
def mapFault (h : Fault → Fault) (m : Edit α) : Edit α := fun f =>
  let o := m f
  ⟨o.result.mapError h, o.func, o.log⟩

/-- Computes the dominators and reports it. -/
def dominators : Edit Dominators := do
  let d ← ask Func.dominators
  emit (.dominatorsFound (← get).name d.passes d.order.length)
  return d

/-- Finds the loops and reports irreducible edges. -/
def loops (d : Dominators) : Edit LoopForest := do
  let f ← get
  let forest := f.graph.loops d
  if !forest.irreducible.isEmpty then emit (.irreducible f.name forest.irreducible)
  return forest

theorem bind_def (m : Edit α) (k : α → Edit β) (f : Func) : (m >>= k) f = match (m f).result with
      | .error e => ⟨.error e, (m f).func, (m f).log⟩
      | .ok a => ⟨(k a (m f).func).result, (k a (m f).func).func, (m f).log ++
        (k a (m f).func).log⟩ := rfl

theorem pure_def (a : α) (f : Func) : (pure a : Edit α) f = ⟨.ok a, f, []⟩ := rfl

instance : LawfulMonad Edit := LawfulMonad.mk' Edit
  (by
    intro α m
    funext f
    show Edit.bind m (fun a => Edit.pure a) f = m f
    simp only [Edit.bind, Edit.pure]
    cases h : (m f).result with
    | error e => simp [← h]
    | ok a => simp [← h])
  (by
    intro α β a k
    funext f
    show Edit.bind (Edit.pure a) k f = k a f
    simp [Edit.bind, Edit.pure])
  (by
    intro α β γ m k l
    funext f
    show Edit.bind (Edit.bind m k) l f = Edit.bind m (fun a => Edit.bind (k a) l) f
    simp only [Edit.bind]
    cases (m f).result with
    | error e => rfl
    | ok a =>
      simp only
      cases (k a (m f).func).result with
      | error e => rfl
      | ok b => simp [List.append_assoc])

end Edit

end ThreeAddress

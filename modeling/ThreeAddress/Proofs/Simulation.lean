import Mathlib.Data.List.Forall2
import ThreeAddress.Proofs.Activations
import ThreeAddress.Proofs.Tables

/-!
# Simulation

Two programs that differ in one function end alike if the activations of that function keep up with
each other. The relation between activations may look at the memory, which all activations share.

1. `Match` says what keeping up means: both make some steps by themselves and are related again, or
   both come to the same call, return or error. How many steps the one may make for those of the
   other is a `Pace`. `Simulation.interchangeable` is the theorem for any pace,
   `Simulation.noSlower` for one that never loses a step.
2. `Lockstep` is the case of one step against one step, except that the second function may make
   some steps more at its start. `Lockstep.ends` counts the steps.
3. `Program.Lockstep` is the case of whole programs that do the same step by step. Their runs are
   the same, also where the budget cuts them off.
-/

namespace ThreeAddress

variable {R S : Memory → Frame → Frame → Prop} {calls : List String} {q : Nat → Nat → Prop}
  {p p' : Program} {fr fr' fr₁ : Frame} {args inputs : List Int} {w w' w₁ : World} {o : Ending}
  {f f' f₁ f₂ f₃ : Func} {delay m n : Nat} {entry g key : String} {spec : RunSpec}
  {ks ks' : List Caller} {maxDepth n' : Int} {e : RunError}

/-- `Walks n fr w fr' w'`: `fr` makes `n` steps by itself and arrives at `fr'`. -/
inductive Walks : Nat → Frame → World → Frame → World → Prop
  | refl {fr : Frame} {w : World} : Walks 0 fr w fr w
  | step {n : Nat} {fr fr₁ fr₂ : Frame} {w w₁ w₂ : World} :
    fr.act w = .go fr₁ w₁ → Walks n fr₁ w₁ fr₂ w₂ → Walks (n + 1) fr w fr₂ w₂

theorem Walks.one (h : fr.act w = .go fr' w') : Walks 1 fr w fr' w' := .step h .refl

theorem Walks.trans {fr₂ fr₃ : Frame} {w₂ w₃ : World} (h : Walks m fr₁ w₁ fr₂ w₂)
    (h' : Walks n fr₂ w₂ fr₃ w₃) : Walks (m + n) fr₁ w₁ fr₃ w₃ := by
  induction h with
  | refl => rwa [Nat.zero_add]
  | step hact _ ih =>
    rw [Nat.add_right_comm]
    exact .step hact (ih h')

/-! ## Endings along a walk -/

section Endings

theorem Walks.ends (h : Walks m fr w fr' w') (hends : Ends p maxDepth n calls fr' ks w' o) :
    Ends p maxDepth (n + m) calls fr ks w o := by
  induction h with
  | refl => exact hends
  | step hact _ ih => exact .go hact (ih hends)

theorem Walks.ends_inv (h : Walks m fr w fr' w') (hends : Ends p maxDepth n calls fr ks w o) :
    ∃ n', n = n' + m ∧ Ends p maxDepth n' calls fr' ks w' o := by
  induction h generalizing n with
  | refl => exact ⟨n, rfl, hends⟩
  | @step m _ _ _ _ _ _ hact _ ih =>
    cases hends with
    | go hact' hends =>
      rw [hact] at hact'
      cases hact'
      obtain ⟨n', rfl, h'⟩ := ih hends
      exact ⟨n', rfl, h'⟩
    | call hact' => simp [hact] at hact'
    | refused hact' => simp [hact] at hact'
    | resume hact' => simp [hact] at hact'
    | returned hact' => simp [hact] at hact'
    | stopped hact' => simp [hact] at hact'

theorem Ends.call_inv {k : Caller} (hact : fr.act w = .call g args k)
    (h : Ends p maxDepth n calls fr ks w o) :
    (∃ fr' n' later, n = n' + 1 ∧ calls = g :: later ∧
      p.activate maxDepth g args (ks.length + 1) = .ok fr' ∧
        Ends p maxDepth n' later fr' (k :: ks) w o) ∨
      ∃ e, n = 1 ∧ calls = [] ∧ p.activate maxDepth g args (ks.length + 1) = .error e ∧
        o = ⟨.error e, w.output, w.memory⟩ := by
  cases h with
  | go hact' => simp [hact] at hact'
  | call hact' hstart h =>
    rw [hact] at hact'
    cases hact'
    exact .inl ⟨_, _, _, rfl, rfl, hstart, h⟩
  | refused hact' hstart =>
    rw [hact] at hact'
    cases hact'
    exact .inr ⟨_, rfl, rfl, hstart, rfl⟩
  | resume hact' => simp [hact] at hact'
  | returned hact' => simp [hact] at hact'
  | stopped hact' => simp [hact] at hact'

theorem Ends.ret_inv {v : Option Int} (hact : fr.act w = .ret v)
    (h : Ends p maxDepth n calls fr ks w o) :
    (∃ k ks' n', ks = k :: ks' ∧ n = n' + 1 ∧ Ends p maxDepth n' calls (k.resume v) ks' w o) ∨
      ks = [] ∧ n = 1 ∧ calls = [] ∧ o = ⟨.ok v, w.output, w.memory⟩ := by
  cases h with
  | go hact' => simp [hact] at hact'
  | call hact' => simp [hact] at hact'
  | refused hact' => simp [hact] at hact'
  | resume hact' h =>
    rw [hact] at hact'
    cases hact'
    exact .inl ⟨_, _, _, rfl, rfl, h⟩
  | returned hact' =>
    rw [hact] at hact'
    cases hact'
    exact .inr ⟨rfl, rfl, rfl, rfl⟩
  | stopped hact' => simp [hact] at hact'

theorem Ends.stop_inv (hact : fr.act w = .stop e) (h : Ends p maxDepth n calls fr ks w o) :
    n = 1 ∧ calls = [] ∧ o = ⟨.error e, w.output, w.memory⟩ := by
  cases h with
  | go hact' => simp [hact] at hact'
  | call hact' => simp [hact] at hact'
  | refused hact' => simp [hact] at hact'
  | resume hact' => simp [hact] at hact'
  | returned hact' => simp [hact] at hact'
  | stopped hact' =>
    rw [hact] at hact'
    cases hact'
    exact ⟨rfl, rfl, rfl⟩

end Endings

/-! ## Keeping up -/

/-- How many steps one side may make while the other makes some: `q m n` allows `n` steps for
`m`. -/
structure Pace (q : Nat → Nat → Prop) : Prop where
  zero : q 0 0
  one : q 1 1
  add : ∀ {i j m n}, q i j → q m n → q (i + m) (j + n)

/-- Any number of steps for any other. -/
def AnyPace (_ _ : Nat) : Prop := True

theorem pace_any : Pace AnyPace := ⟨trivial, trivial, fun _ _ => trivial⟩

/-- At most as many steps. -/
def NoMore (m n : Nat) : Prop := n ≤ m

theorem pace_noMore : Pace NoMore := ⟨Nat.le_refl 0, Nat.le_refl 1, Nat.add_le_add⟩

theorem Pace.swap (h : Pace q) : Pace fun m n => q n m := ⟨h.zero, h.one, h.add⟩

/-- Two activations that wait are related whenever they get the same result. -/
def Resumes (R : Memory → Frame → Frame → Prop) (k k' : Caller) : Prop :=
  ∀ mem v, R mem (k.resume v) (k'.resume v)

/-- Two activations keep up with each other in the world `w`, at the pace `q`. -/
inductive Match (q : Nat → Nat → Prop) (R : Memory → Frame → Frame →
    Prop) (fr fr' : Frame) (w : World) : Prop
  /-- Both make some steps and are related again. -/
  | go {m n : Nat} {fr₁ fr₁' : Frame} {w₁ : World} :
    q (m + 1) (n + 1) → Walks (m + 1) fr w fr₁ w₁ → Walks (n + 1) fr' w fr₁' w₁ →
    R w₁.memory fr₁ fr₁' →
      Match q R fr fr' w
  /-- Both come to the same call. -/
  | call {m n : Nat} {fr₁ fr₁' : Frame} {w₁ : World} {g : String} {args : List Int}
    {k k' : Caller} :
    q m n → Walks m fr w fr₁ w₁ → Walks n fr' w fr₁' w₁ → fr₁.act w₁ = .call g args k →
      fr₁'.act w₁ = .call g args k' → Resumes R k k' → Match q R fr fr' w
  /-- Both come to return the same value. -/
  | ret {m n : Nat} {fr₁ fr₁' : Frame} {w₁ : World} {v : Option Int} :
    q m n → Walks m fr w fr₁ w₁ → Walks n fr' w fr₁' w₁ → fr₁.act w₁ = .ret v →
    fr₁'.act w₁ = .ret v →
      Match q R fr fr' w
  /-- Both come to the same error. -/
  | stop {m n : Nat} {fr₁ fr₁' : Frame} {w₁ : World} {e : RunError} :
    q m n → Walks m fr w fr₁ w₁ → Walks n fr' w fr₁' w₁ → fr₁.act w₁ = .stop e →
    fr₁'.act w₁ = .stop e →
      Match q R fr fr' w

section Match

theorem Match.mono (h : Match q R fr fr' w) (hRS : ∀ mem a b, R mem a b → S mem a b) :
    Match q S fr fr' w := by
  cases h with
  | go hq hw hw' hr => exact .go hq hw hw' (hRS _ _ _ hr)
  | call hq hw hw' ha ha' hr => exact .call hq hw hw' ha ha' fun mem v => hRS _ _ _ (hr mem v)
  | ret hq hw hw' ha ha' => exact .ret hq hw hw' ha ha'
  | stop hq hw hw' ha ha' => exact .stop hq hw hw' ha ha'

theorem Match.symm (h : Match q R fr fr' w) :
    Match (fun m n => q n m) (fun mem a b => R mem b a) fr' fr w := by
  cases h with
  | go hq hw hw' hr => exact .go hq hw' hw hr
  | call hq hw hw' ha ha' hr => exact .call hq hw' hw ha' ha hr
  | ret hq hw hw' ha ha' => exact .ret hq hw' hw ha' ha
  | stop hq hw hw' ha ha' => exact .stop hq hw' hw ha' ha

/-- Steps that either side makes first do not matter, at the right pace. -/
theorem Match.after_walks (pace : Pace q) {fr₁' : Frame} (hq : q m n) (hw : Walks m fr w fr₁ w₁)
    (hw' : Walks n fr' w fr₁' w₁) (h : Match q R fr₁ fr₁' w₁) : Match q R fr fr' w := by
  cases h with
  | @go i j _ _ _ hij hi hj hr =>
    have hsum : q (m + (i + 1)) (n + (j + 1)) := pace.add hq hij
    exact .go (m := m + i) (n := n + j) hsum (hw.trans hi) (hw'.trans hj) hr
  | call hij hi hj ha ha' hr => exact .call (pace.add hq hij) (hw.trans hi) (hw'.trans hj) ha ha' hr
  | ret hij hi hj ha ha' => exact .ret (pace.add hq hij) (hw.trans hi) (hw'.trans hj) ha ha'
  | stop hij hi hj ha ha' => exact .stop (pace.add hq hij) (hw.trans hi) (hw'.trans hj) ha ha'

theorem Match.refl (pace : Pace q) (hR : ∀ mem fr, R mem fr fr) (fr : Frame) (w : World) :
    Match q R fr fr w := by
  cases h : fr.act w with
  | go fr₁ w₁ => exact .go (m := 0) (n := 0) pace.one (.one h) (.one h) (hR _ _)
  | call g args k => exact .call pace.zero .refl .refl h h fun _ _ => hR _ _
  | ret v => exact .ret pace.zero .refl .refl h h
  | stop e => exact .stop pace.zero .refl .refl h h

end Match

/-- Starting a function in two programs gives related activations, or the same error. -/
inductive Activated (R : Memory → Frame → Frame → Prop) : Except RunError Frame →
    Except RunError Frame → Prop
  | ok {fr fr' : Frame} : (∀ mem, R mem fr fr') → Activated R (.ok fr) (.ok fr')
  | error {e : RunError} : Activated R (.error e) (.error e)

section Activated

variable {a b : Except RunError Frame}

theorem Activated.symm (h : Activated R a b) : Activated (fun mem x y => R mem y x) b a := by
  cases h with
  | ok hr => exact .ok hr
  | error => exact .error

theorem Activated.of_ok (h : Activated R a b) (ha : a = .ok fr) :
    ∃ fr', b = .ok fr' ∧ ∀ mem, R mem fr fr' := by
  cases h with
  | ok hr =>
    cases ha
    exact ⟨_, rfl, hr⟩
  | error => cases ha

theorem Activated.of_error (h : Activated R a b) (ha : a = .error e) : b = .error e := by
  cases h with
  | ok hr => cases ha
  | error => exact ha

end Activated

/-- Two programs whose activations keep up with each other, at the pace `q`. -/
structure Similar (q : Nat → Nat → Prop) (p p' : Program) (R : Memory → Frame → Frame → Prop) :
    Prop where
  step : ∀ fr fr' w, R w.memory fr fr' → Match q R fr fr' w
  activated : ∀ maxDepth g args depth,
    Activated R (p.activate maxDepth g args depth) (p'.activate maxDepth g args depth)

section Similar

theorem Similar.symm (h : Similar q p p' R) :
    Similar (fun m n => q n m) p' p (fun mem a b => R mem b a) where
  step fr fr' w hr := (h.step fr' fr w hr).symm
  activated maxDepth g args depth := (h.activated maxDepth g args depth).symm

theorem Similar.ends (sim : Similar q p p' R) (pace : Pace q) (hr : R w.memory fr fr')
    (hks : List.Forall₂ (Resumes R) ks ks') (h : Ends p maxDepth n calls fr ks w o) :
    ∃ n', q n n' ∧ Ends p' maxDepth n' calls fr' ks' w o := by
  induction n using Nat.strongRecOn generalizing calls fr fr' ks ks' w with
  | ind n ih =>
    cases sim.step fr fr' w hr with
    | @go i j _ _ _ hij hi hj hr₁ =>
      obtain ⟨n₁, rfl, h₁⟩ := hi.ends_inv h
      obtain ⟨n', hn', h'⟩ := ih n₁ (by omega) hr₁ hks h₁
      exact ⟨_, pace.add hn' hij, hj.ends h'⟩
    | @call i j _ _ _ g args k k' hij hi hj ha ha' hk =>
      obtain ⟨n₁, rfl, h₁⟩ := hi.ends_inv h
      have hlen : ks.length = ks'.length := hks.length_eq
      have hact := sim.activated maxDepth g args (ks.length + 1)
      rcases h₁.call_inv ha with ⟨fr₂, n₂, later, rfl, rfl, hstart, h₂⟩ | ⟨e, rfl, rfl, hstart, rfl⟩
      · obtain ⟨fr₂', hstart', hr₂⟩ := hact.of_ok hstart
        obtain ⟨n', hn', h'⟩ := ih n₂ (by omega) (hr₂ _) (.cons hk hks) h₂
        exact ⟨_, pace.add (pace.add hn' pace.one) hij, hj.ends (.call ha' (hlen ▸ hstart') h')⟩
      · exact ⟨_, pace.add pace.one hij, hj.ends (.refused ha' (hlen ▸ hact.of_error hstart))⟩
    | @ret i j _ _ _ v hij hi hj ha ha' =>
      obtain ⟨n₁, rfl, h₁⟩ := hi.ends_inv h
      rcases h₁.ret_inv ha with ⟨k, rest, n₂, rfl, rfl, h₂⟩ | ⟨rfl, rfl, rfl, rfl⟩
      · cases hks with
        | cons hk hks =>
          obtain ⟨n', hn', h'⟩ := ih n₂ (by omega) (hk _ v) hks h₂
          exact ⟨_, pace.add (pace.add hn' pace.one) hij, hj.ends (.resume ha' h')⟩
      · cases hks
        exact ⟨_, pace.add pace.one hij, hj.ends (.returned ha')⟩
    | @stop i j _ _ _ e hij hi hj ha ha' =>
      obtain ⟨n₁, rfl, h₁⟩ := hi.ends_inv h
      obtain ⟨rfl, rfl, rfl⟩ := h₁.stop_inv ha
      exact ⟨_, pace.add pace.one hij, hj.ends (.stopped ha')⟩

theorem Similar.endsIn (sim : Similar q p p' R) (pace : Pace q)
    (h : p.EndsIn maxDepth entry args inputs n calls o) :
    ∃ n', q n n' ∧ p'.EndsIn maxDepth entry args inputs n' calls o := by
  have hact := sim.activated maxDepth entry args 0
  unfold Program.EndsIn at h ⊢
  cases hstart : p.activate maxDepth entry args 0 with
  | error e =>
    simp only [hstart] at h
    obtain ⟨rfl, rfl, rfl⟩ := h
    simp only [hact.of_error hstart]
    exact ⟨0, pace.zero, rfl, trivial, trivial⟩
  | ok fr =>
    simp only [hstart] at h
    obtain ⟨fr', hstart', hr⟩ := hact.of_ok hstart
    simp only [hstart']
    obtain ⟨later, rfl, h⟩ := h
    obtain ⟨n', hn', h'⟩ := sim.ends pace (hr _) .nil h
    exact ⟨n', hn', later, rfl, h'⟩

end Similar

/-! ## One function in the place of another -/

/-- How a program can end, given enough steps. -/
def Program.Endings (p : Program) (maxDepth : Int) (entry : String) (args inputs : List Int)
    (o : Ending) : Prop :=
  ∃ n calls, p.EndsIn maxDepth entry args inputs n calls o

/-- Every run that ends in one of the programs ends alike in the other. -/
def Program.SameEndings (p p' : Program) : Prop :=
  ∀ maxDepth entry args inputs o, p.Endings maxDepth entry args inputs o ↔
    p'.Endings maxDepth entry args inputs o

theorem Program.SameEndings.refl (p : Program) : p.SameEndings p := fun _ _ _ _ _ => Iff.rfl

theorem Program.SameEndings.trans {p₁ p₂ p₃ : Program} (h : p₁.SameEndings p₂)
    (h' : p₂.SameEndings p₃) : p₁.SameEndings p₃ :=
  fun d e a i o => (h d e a i o).trans (h' d e a i o)

theorem Similar.endings (sim : Similar q p p' R) (pace : Pace q)
    (h : p.Endings maxDepth entry args inputs o) : p'.Endings maxDepth entry args inputs o := by
  obtain ⟨n, calls, h⟩ := h
  obtain ⟨n', _, h'⟩ := sim.endsIn pace h
  exact ⟨n', calls, h'⟩

theorem Similar.sameEndings (sim : Similar q p p' R) (pace : Pace q) : p.SameEndings p' :=
  fun _ _ _ _ _ => ⟨sim.endings pace, sim.symm.endings pace.swap⟩

/-- `p'` is `p` with `f'` in the place of `f`, which is called `key`. -/
structure Replaces (p p' : Program) (key : String) (f f' : Func) : Prop where
  before : p.function? key = some f
  after : p'.function? key = some f'
  others : ∀ g, g ≠ key → p'.function? g = p.function? g

/-- Two functions that can stand for each other in any program. -/
def Func.Interchangeable (f f' : Func) : Prop := ∀ p p' key, Replaces p p' key f f' →
    p.SameEndings p'

theorem Replaces.insert (h : p.function? key = some f) (f' : Func) :
    Replaces p ⟨p.functions.insert key f'⟩ key f f' where
  before := h
  after := by
    show (p.functions.insert key f').get? key = _
    rw [Table.get?_insert, if_pos rfl]
  others g hg := by
    show (p.functions.insert key f').get? g = _
    rw [Table.get?_insert, if_neg hg]
    rfl

theorem Func.Interchangeable.trans (h : f₁.Interchangeable f₂) (h' : f₂.Interchangeable f₃) :
    f₁.Interchangeable f₃ := by
  intro p p' key rep
  have first := Replaces.insert rep.before f₂
  refine (h _ _ _ first).trans (h' _ _ key ⟨first.after, rep.after, fun g hg => ?_⟩)
  rw [rep.others g hg, first.others g hg]

/-- The activations of `f` and `f'` keep up with each other, at the pace `q`. -/
structure Simulation (q : Nat → Nat → Prop) (f f' : Func) (R : Memory → Frame → Frame → Prop) :
    Prop where
  start : ∀ args, ∃ fr fr', f.start args = .ok fr ∧ f'.start args = .ok fr' ∧ ∀ mem, R mem fr fr'
  step : ∀ fr fr' w, R w.memory fr fr' → Match q R fr fr' w

theorem Simulation.similar (pace : Pace q) (sim : Simulation q f f' R)
    (rep : Replaces p p' key f f') : Similar q p p' fun mem fr fr' => fr = fr' ∨ R mem fr fr' where
  step fr fr' w hr := by
    rcases hr with rfl | hr
    · exact .refl pace (fun _ _ => .inl rfl) fr w
    · exact (sim.step fr fr' w hr).mono fun _ _ _ => .inr
  activated maxDepth g args depth := by
    rw [Program.activate_eq, Program.activate_eq]
    by_cases hg : g = key
    · subst hg
      rw [rep.before, rep.after]
      obtain ⟨fr, fr', hf, hf', hr⟩ := sim.start args
      show Activated _ (if _ then _ else _) (if _ then _ else _)
      split
      · exact .error
      · rw [hf, hf']
        exact .ok fun mem => .inr (hr mem)
    · rw [rep.others g hg]
      have same : ∀ x : Except RunError Frame,
          Activated (fun mem a b => a = b ∨ R mem a b) x x := by
        intro x
        cases x with
        | error e => exact .error
        | ok fr => exact .ok fun _ => .inl rfl
      exact same _

theorem Simulation.interchangeable (pace : Pace q) (sim : Simulation q f f' R) :
    f.Interchangeable f' :=
  fun _ _ _ rep => (sim.similar pace rep).sameEndings pace

/-- In any program, `f'` can stand for `f` without a run that ends taking more steps. -/
def Func.NoSlower (f f' : Func) : Prop :=
  ∀ p p' key, Replaces p p' key f f' → ∀ maxDepth entry args inputs n calls o,
    p.EndsIn maxDepth entry args inputs n calls o → ∃ n' ≤ n,
    p'.EndsIn maxDepth entry args inputs n' calls o

theorem Simulation.noSlower (sim : Simulation NoMore f f' R) : f.NoSlower f' :=
  fun _ _ _ rep _ _ _ _ _ _ _ h => (sim.similar pace_noMore rep).endsIn pace_noMore h

/-! ## Lockstep -/

/-- Two activations do the same. -/
inductive Agree (R : Frame → Frame → Prop) : Act → Act → Prop
  | go {fr fr' : Frame} {w : World} : R fr fr' → Agree R (.go fr w) (.go fr' w)
  | call {g : String} {args : List Int} {k k' : Caller} :
    (∀ v, R (k.resume v) (k'.resume v)) → Agree R (.call g args k) (.call g args k')
  | ret {v : Option Int} : Agree R (.ret v) (.ret v)
  | stop {e : RunError} : Agree R (.stop e) (.stop e)

/-- The activations of `f` and `f'` do the same step by step, after `delay` steps that `f'` makes
more. -/
structure Lockstep (f f' : Func) (delay : Nat) (R : Frame → Frame → Prop) : Prop where
  start : ∀ args, ∃ fr fr₀ fr', f.start args = .ok fr ∧ f'.start args = .ok fr₀ ∧
    (∀ w, Walks delay fr₀ w fr' w) ∧ R fr fr'
  step : ∀ fr fr' w, R fr fr' → Agree R (fr.act w) (fr'.act w)

/-- Two activations that do the same keep up with each other, if what they do relates them in the
memory that there is then. -/
theorem Agree.match_memory (pace : Pace q) {R : Frame → Frame → Prop}
    (h : Agree R (fr.act w) (fr'.act w))
    (hgo : ∀ fr₁ w₁, fr.act w = .go fr₁ w₁ → ∀ a b, R a b → S w₁.memory a b)
    (hcall : ∀ g args k, fr.act w = .call g args k → ∀ mem a b, R a b → S mem a b) :
    Match q S fr fr' w := by
  generalize ha : fr.act w = a at h
  generalize ha' : fr'.act w = a' at h
  cases h with
  | go hr => exact .go (m := 0) (n := 0) pace.one (.one ha) (.one ha') (hgo _ _ ha _ _ hr)
  | call hr => exact .call pace.zero .refl .refl ha ha' fun mem v => hcall _ _ _ ha _ _ _ (hr v)
  | ret => exact .ret pace.zero .refl .refl ha ha'
  | stop => exact .stop pace.zero .refl .refl ha ha'

theorem Agree.match (pace : Pace q) {R : Frame → Frame → Prop} (h : Agree R (fr.act w) (fr'.act w))
    (hRS : ∀ mem a b, R a b → S mem a b) : Match q S fr fr' w :=
  h.match_memory pace (fun _ _ _ => hRS _) fun _ _ _ _ => hRS

theorem Lockstep.simulation {R : Frame → Frame → Prop} (h : Lockstep f f' delay R) :
    Simulation AnyPace f f' fun _ fr fr₀ => ∃ n fr', (∀ w, Walks n fr₀ w fr' w) ∧ R fr fr' where
  start args := by
    obtain ⟨fr, fr₀, fr', hf, hf', hwalks, hr⟩ := h.start args
    exact ⟨fr, fr₀, hf, hf', fun _ => ⟨delay, fr', hwalks, hr⟩⟩
  step fr fr₀ w hr := by
    obtain ⟨n, fr', hwalks, hr⟩ := hr
    refine .after_walks pace_any trivial .refl (hwalks w)
      ((h.step fr fr' w hr).match pace_any fun _ a b hab => ?_)
    exact ⟨0, b, fun _ => .refl, hab⟩

theorem Lockstep.interchangeable {R : Frame → Frame → Prop} (h : Lockstep f f' delay R) :
    f.Interchangeable f' := h.simulation.interchangeable pace_any

section Counting

variable {depth : Nat} {R : Frame → Frame → Prop}

theorem Lockstep.agree (h : Lockstep f f' delay R) (hr : fr = fr' ∨ R fr fr') (w : World) :
    Agree (fun a b => a = b ∨ R a b) (fr.act w) (fr'.act w) := by
  rcases hr with rfl | hr
  · cases fr.act w with
    | go fr₁ w₁ => exact .go (.inl rfl)
    | call g args k => exact .call fun _ => .inl rfl
    | ret v => exact .ret
    | stop e => exact .stop
  · generalize fr.act w = a, fr'.act w = a', h.step fr fr' w hr = hagree
    cases hagree with
    | go hr => exact .go (.inr hr)
    | call hr => exact .call fun v => .inr (hr v)
    | ret => exact .ret
    | stop => exact .stop

theorem Lockstep.agree_of_act {a : Act} (h : Lockstep f f' delay R) (hr : fr = fr' ∨ R fr fr')
    (hact : fr.act w = a) : ∃ a', fr'.act w = a' ∧ Agree (fun a b => a = b ∨ R a b) a a' :=
  ⟨_, rfl, hact ▸ h.agree hr w⟩

/-- An activation of the replaced function is delayed, any other is the same. -/
theorem Lockstep.activate (h : Lockstep f f' delay R) (rep : Replaces p p' key f f')
    (hstart : p.activate maxDepth g args depth = .ok fr) :
    ∃ fr₀ fr', p'.activate maxDepth g args depth = .ok fr₀ ∧
      (∀ w, Walks (if g = key then delay else 0) fr₀ w fr' w) ∧ (fr = fr' ∨ R fr fr') := by
  rw [Program.activate_eq] at hstart ⊢
  by_cases hg : g = key
  · subst hg
    obtain ⟨fr₁, fr₀, fr', hf, hf', hwalks, hr⟩ := h.start args
    simp only [rep.before] at hstart
    simp only [rep.after]
    split at hstart
    · cases hstart
    · rename_i hdepth
      rw [hf] at hstart
      cases hstart
      rw [if_neg hdepth]
      simp only [if_true]
      exact ⟨fr₀, fr', hf', hwalks, .inr hr⟩
  · rw [rep.others g hg, if_neg hg]
    exact ⟨fr, fr, hstart, fun _ => .refl, .inl rfl⟩

theorem Lockstep.activate_error (h : Lockstep f f' delay R) (rep : Replaces p p' key f f')
    (hstart : p.activate maxDepth g args depth = .error e) :
    p'.activate maxDepth g args depth = .error e :=
  ((h.simulation.similar pace_any rep).activated maxDepth g args depth).of_error hstart

theorem delay_count_cons (delay : Nat) (g key : String) (calls : List String) :
    delay * (g :: calls).count key = delay * calls.count key + if g = key then delay else 0 := by
  rw [List.count_cons, Nat.mul_add]
  by_cases hg : g = key
  · simp [hg]
  · simp [hg]

/-- The run takes the delay once for each activation of the replaced function. -/
theorem Lockstep.ends (h : Lockstep f f' delay R) (rep : Replaces p p' key f f')
    (hr : fr = fr' ∨ R fr fr')
    (hks : List.Forall₂ (fun k k' => ∀ v, k.resume v = k'.resume v ∨
      R (k.resume v) (k'.resume v)) ks ks') (hends : Ends p maxDepth n calls fr ks w o) :
    Ends p' maxDepth (n + delay * calls.count key) calls fr' ks' w o := by
  induction hends generalizing fr' ks' with
  | @go n calls fr fr₁ ks w w₁ o hact _ ih =>
    obtain ⟨_, ha', hagree⟩ := h.agree_of_act hr hact
    cases hagree with
    | go hr₁ =>
      rw [Nat.add_right_comm]
      exact .go ha' (ih hr₁ hks)
  | @call n calls fr fr₁ k ks w o g args hact hstart _ ih =>
    obtain ⟨_, ha', hagree⟩ := h.agree_of_act hr hact
    cases hagree with
    | call hk =>
      obtain ⟨fr₀, fr₁', hstart', hwalks, hr₁⟩ := h.activate rep hstart
      have hends' := (hwalks w).ends (ih hr₁ (.cons hk hks))
      rw [hks.length_eq] at hstart'
      have hsteps : n + 1 + delay * (g :: calls).count key
          = n + delay * calls.count key + (if g = key then delay else 0) + 1 := by
        rw [delay_count_cons]
        omega
      rw [hsteps]
      exact .call ha' hstart' hends'
  | @refused fr _ _ w _ _ _ hact hstart =>
    obtain ⟨_, ha', hagree⟩ := h.agree_of_act hr hact
    cases hagree with
    | call hk =>
      rw [hks.length_eq] at hstart
      exact .refused ha' (h.activate_error rep hstart)
  | @resume n calls fr k ks w o v hact _ ih =>
    obtain ⟨_, ha', hagree⟩ := h.agree_of_act hr hact
    cases hagree with
    | ret =>
      cases hks with
      | cons hk hks =>
        rw [Nat.add_right_comm]
        exact .resume ha' (ih (hk v) hks)
  | @returned fr w _ hact =>
    obtain ⟨_, ha', hagree⟩ := h.agree_of_act hr hact
    cases hagree with
    | ret =>
      cases hks
      exact .returned ha'
  | @stopped fr _ w _ hact =>
    obtain ⟨_, ha', hagree⟩ := h.agree_of_act hr hact
    cases hagree with
    | stop => exact .stopped ha'

/-- Runs of a program, counted. -/
theorem Lockstep.endsIn (h : Lockstep f f' delay R) (rep : Replaces p p' key f f')
    (hends : p.EndsIn maxDepth entry args inputs n calls o) :
    p'.EndsIn maxDepth entry args inputs (n + delay * calls.count key) calls o := by
  unfold Program.EndsIn at hends ⊢
  cases hstart : p.activate maxDepth entry args 0 with
  | error e =>
    simp only [hstart] at hends
    obtain ⟨rfl, rfl, rfl⟩ := hends
    simp only [h.activate_error rep hstart]
    exact ⟨rfl, trivial, trivial⟩
  | ok fr =>
    simp only [hstart] at hends
    obtain ⟨later, rfl, hends⟩ := hends
    obtain ⟨fr₀, fr', hstart', hwalks, hr⟩ := h.activate rep hstart
    simp only [hstart']
    have hends' := (hwalks _).ends (h.ends rep hr .nil hends)
    have hsteps : n + delay * (entry :: later).count key
        = n + delay * later.count key + (if entry = key then delay else 0) := by
      rw [delay_count_cons]
      omega
    rw [hsteps]
    exact ⟨later, rfl, hends'⟩

/-- `f'` runs as `f` does, with `delay` steps more in each activation. -/
structure Func.Delays (f f' : Func) (delay : Nat) : Prop where
  interchangeable : f.Interchangeable f'
  endsIn : ∀ {p p' key}, Replaces p p' key f f' → ∀ {maxDepth entry args inputs n calls o},
    p.EndsIn maxDepth entry args inputs n calls o →
      p'.EndsIn maxDepth entry args inputs (n + delay * calls.count key) calls o

theorem Lockstep.delays (h : Lockstep f f' delay R) : f.Delays f' delay :=
  ⟨h.interchangeable, fun rep _ _ _ _ _ _ _ hends => h.endsIn rep hends⟩

theorem Func.Delays.trans {k k' : Nat} (h : f₁.Delays f₂ k) (h' : f₂.Delays f₃ k') :
    f₁.Delays f₃ (k + k') where
  interchangeable := h.interchangeable.trans h'.interchangeable
  endsIn {p p' key} rep maxDepth entry args inputs n calls o hends := by
    have first := Replaces.insert rep.before f₂
    have second : Replaces _ p' key f₂ f₃ :=
      ⟨first.after, rep.after, fun g hg => (rep.others g hg).trans (first.others g hg).symm⟩
    have := h'.endsIn second (h.endsIn first hends)
    rwa [Nat.add_assoc, ← Nat.add_mul] at this

end Counting

/-! ## Whole programs in lockstep -/

/-- The activations of two programs do the same step by step. -/
structure Program.Lockstep (p p' : Program) (R : Frame → Frame → Prop) : Prop where
  name_eq : ∀ {fr fr'}, R fr fr' → fr'.func.name = fr.func.name
  activated : ∀ maxDepth g args depth,
    Activated (fun _ => R) (p.activate maxDepth g args depth) (p'.activate maxDepth g args depth)
  step : ∀ fr fr' w, R fr fr' → Agree R (fr.act w) (fr'.act w)

namespace Program.Lockstep

variable {R : Frame → Frame → Prop}

theorem state_run (h : p.Lockstep p' R) (maxDepth limit : Int) {budget done : Nat} (hr : R fr fr')
    (hks : List.Forall₂ (fun k k' => ∀ v, R (k.resume v) (k'.resume v)) ks ks') :
    (fr'.state ks' w).run p' maxDepth limit budget done
      = (fr.state ks w).run p maxDepth limit budget done := by
  induction budget generalizing done fr fr' ks ks' w with
  | zero =>
    show RunResult.mk (.error (.stepLimit limit fr'.func.name)) _ _ _ = _
    rw [h.name_eq hr]
    rfl
  | succ budget ih =>
    rw [State.run, State.run, step_state, step_state]
    generalize fr.act w = a, fr'.act w = a', h.step fr fr' w hr = hagree
    cases hagree with
    | go hr => exact ih hr hks
    | @call g args k k' hk =>
      have hactivated := h.activated maxDepth g args (ks.length + 1)
      dsimp only
      rw [← hks.length_eq]
      generalize p.activate maxDepth g args (ks.length + 1) = x,
        p'.activate maxDepth g args (ks.length + 1) = x'
        at hactivated
      cases hactivated with
      | ok hr => exact ih (hr w.memory) (.cons hk hks)
      | error => rfl
    | @ret v =>
      cases hks with
      | nil => rfl
      | cons hk hks => exact ih (hk v) hks
    | stop => rfl

/-- Runs of the two programs cannot be told apart, under any budget. -/
theorem run_eq (h : p.Lockstep p' R) (spec : RunSpec) : p'.run spec = p.run spec := by
  have hactivated := h.activated spec.maxDepth spec.entry spec.args 0
  unfold Program.run
  generalize p.activate spec.maxDepth spec.entry spec.args 0 = x,
    p'.activate spec.maxDepth spec.entry spec.args 0 = x'
    at hactivated
  cases hactivated with
  | ok hr => exact h.state_run _ _ (w := ⟨∅, spec.inputs, #[]⟩) (hr ∅) .nil
  | error => rfl

end Program.Lockstep

/-- A function that keeps step from the start on keeps step in every program. -/
theorem Lockstep.program {R : Frame → Frame → Prop} (h : Lockstep f f' 0 R)
    (rep : Replaces p p' key f f') (name_eq : ∀ {fr fr'}, R fr fr' → fr'.func.name = fr.func.name) :
    p.Lockstep p' fun fr fr' => fr = fr' ∨ R fr fr' where
  name_eq hr := by
    rcases hr with rfl | hr
    · rfl
    · exact name_eq hr
  activated maxDepth g args depth := by
    cases hstart : p.activate maxDepth g args depth with
    | error e =>
      rw [h.activate_error rep hstart]
      exact .error
    | ok fr =>
      obtain ⟨fr₀, fr', hstart', hwalks, hr⟩ := h.activate rep hstart
      rw [ite_self] at hwalks
      cases hwalks ⟨∅, [], #[]⟩
      rw [hstart']
      exact .ok fun _ => hr
  step fr fr' w hr := h.agree hr w

/-! ## Runs under a budget -/

/-- The run was not cut off by its budget. -/
def RunResult.Finished (r : RunResult) : Prop := ∀ limit f, r.result ≠ .error (.stepLimit limit f)

/-- The same run under another budget. -/
def RunSpec.withBudget (spec : RunSpec) (maxSteps : Int) : RunSpec := { spec with maxSteps }

/-- A run has one ending. -/
theorem Program.EndsIn.unique {n' : Nat} {calls' : List String} {o' : Ending}
    (h : p.EndsIn maxDepth entry args inputs n calls o)
    (h' : p.EndsIn maxDepth entry args inputs n' calls' o') : n = n' ∧ o = o' := by
  let spec : RunSpec := ⟨entry, args, inputs, (max n n' : Nat), maxDepth⟩
  have hrun : p.run spec = _ := (Program.EndsIn.run_eq h (Nat.le_max_left n n')).1
  have hrun' : p.run spec = _ := (Program.EndsIn.run_eq h' (Nat.le_max_right n n')).1
  have heq := hrun.symm.trans hrun'
  cases o
  cases o'
  cases heq
  exact ⟨rfl, rfl⟩

theorem Program.EndsIn.result_ne_stepLimit (h : p.EndsIn maxDepth entry args inputs n calls o)
    (limit : Int) (f : String) : o.result ≠ .error (.stepLimit limit f) := by
  unfold Program.EndsIn at h
  cases hstart : p.activate maxDepth entry args 0 with
  | error e =>
    simp only [hstart] at h
    obtain ⟨_, _, rfl⟩ := h
    intro he
    cases he
    exact Program.activate_ne_stepLimit _ _ _ _ _ _ _ hstart
  | ok fr =>
    simp only [hstart] at h
    obtain ⟨_, _, h⟩ := h
    exact h.result_ne_stepLimit limit f

/-- A run ends under some budget if and only if it has an ending. -/
theorem Program.exists_finished_iff :
    (∃ n, (p.run (spec.withBudget n)).Finished) ↔
      ∃ o, p.Endings spec.maxDepth spec.entry spec.args spec.inputs o := by
  constructor
  · rintro ⟨n, h⟩
    obtain ⟨m, calls, _, hends⟩ := p.endsIn_of_run h
    exact ⟨_, m, calls, hends⟩
  · rintro ⟨o, n, calls, h⟩
    have hends : p.EndsIn (spec.withBudget n).maxDepth (spec.withBudget n).entry
        (spec.withBudget n).args
      (spec.withBudget n).inputs n calls o := h
    refine ⟨n, ?_⟩
    rw [(hends.run_eq (Nat.le_refl n)).1]
    exact h.result_ne_stepLimit

/-- Programs with the same endings end alike under budgets that are enough. -/
theorem Program.SameEndings.ending_eq (h : p.SameEndings p') {n : Int}
    (hp : (p.run (spec.withBudget n)).Finished) (hp' : (p'.run (spec.withBudget n')).Finished) :
    (p'.run (spec.withBudget n')).ending = (p.run (spec.withBudget n)).ending := by
  obtain ⟨m, calls, _, hends⟩ := p.endsIn_of_run hp
  obtain ⟨m', calls', _, hends'⟩ := p'.endsIn_of_run hp'
  obtain ⟨m'', calls'', hends''⟩ := (h _ _ _ _ _).1 ⟨m, calls, hends⟩
  exact (hends'.unique hends'').2

theorem Program.SameEndings.exists_finished_iff (h : p.SameEndings p') (spec : RunSpec) :
    (∃ n, (p.run (spec.withBudget n)).Finished) ↔ ∃ n, (p'.run (spec.withBudget n)).Finished := by
  rw [Program.exists_finished_iff, Program.exists_finished_iff]
  exact exists_congr fun o => h _ _ _ _ o

/-- The program ends as `o` says under every budget that is large enough. -/
def Program.Settles (p : Program) (spec : RunSpec) (o : Ending) : Prop :=
  ∃ n : Int, ∀ m ≥ n, (p.run (spec.withBudget m)).Finished ∧ (p.run (spec.withBudget m)).ending = o

/-- A run that ends within its budget ends alike in the other program, given enough steps. -/
theorem Program.SameEndings.settles (h : p.SameEndings p') (hp : (p.run spec).Finished) :
    p'.Settles spec (p.run spec).ending := by
  obtain ⟨n, calls, _, hends⟩ := p.endsIn_of_run hp
  obtain ⟨n', calls', hends'⟩ := (h _ _ _ _ _).1 ⟨n, calls, hends⟩
  refine ⟨n', fun m hm => ?_⟩
  have hends'' : p'.EndsIn (spec.withBudget m).maxDepth (spec.withBudget m).entry
      (spec.withBudget m).args
    (spec.withBudget m).inputs n' calls' (p.run spec).ending := hends'
  have hbudget : n' ≤ (spec.withBudget m).maxSteps.toNat := by
    show n' ≤ m.toNat
    omega
  rw [(hends''.run_eq hbudget).1]
  exact ⟨hends'.result_ne_stepLimit, rfl⟩

/-- A run that ends within its budget still does, alike and in no more steps. -/
theorem Func.NoSlower.run_le (h : f.NoSlower f') (rep : Replaces p p' key f f')
    (hp : (p.run spec).Finished) :
    (p'.run spec).ending = (p.run spec).ending ∧ (p'.run spec).steps ≤ (p.run spec).steps := by
  obtain ⟨n, calls, hn, hends⟩ := p.endsIn_of_run hp
  obtain ⟨n', hle, hends'⟩ := h _ _ _ rep _ _ _ _ _ _ _ hends
  have hsteps : (p.run spec).steps = n := by rw [(hends.run_eq hn).1]
  rw [hsteps, (hends'.run_eq (Nat.le_trans hle hn)).1]
  exact ⟨rfl, hle⟩

/-- What a delay adds to the number of steps. -/
theorem Func.Delays.steps_eq (h : f.Delays f' delay) (rep : Replaces p p' key f f') {n : Int}
    (hp : (p.run (spec.withBudget n)).Finished) (hp' : (p'.run (spec.withBudget n')).Finished) :
    (p'.run (spec.withBudget n')).steps
      = (p.run (spec.withBudget n)).steps + delay * p.activations (spec.withBudget n) key := by
  obtain ⟨m, calls, hm, hends⟩ := p.endsIn_of_run hp
  obtain ⟨m', calls', hm', hends'⟩ := p'.endsIn_of_run hp'
  obtain ⟨hrun, hcalls⟩ := hends.run_eq hm
  have hsteps : (p.run (spec.withBudget n)).steps = m := by rw [hrun]
  have hsteps' : (p'.run (spec.withBudget n')).steps = m' := by rw [(hends'.run_eq hm').1]
  rw [hsteps, hsteps', hcalls]
  exact (hends'.unique (h.endsIn rep hends)).1

/-- The runs of `p'` end if and as those of `p` do, and take `extra` steps more than those. -/
def Program.RunsAs (p p' : Program) (extra : RunSpec → Nat) : Prop :=
  ∀ spec : RunSpec, ((∃ n, (p.run (spec.withBudget n)).Finished) ↔
    ∃ n, (p'.run (spec.withBudget n)).Finished) ∧
    ∀ n n', (p.run (spec.withBudget n)).Finished → (p'.run (spec.withBudget n')).Finished →
      (p'.run (spec.withBudget n')).ending = (p.run (spec.withBudget n)).ending ∧
      (p'.run (spec.withBudget n')).steps = (p.run (spec.withBudget n)).steps
        + extra (spec.withBudget n)

theorem Func.Delays.runsAs (h : f.Delays f' delay) (rep : Replaces p p' key f f') :
    p.RunsAs p' fun spec => delay * p.activations spec key := by
  have hsame := h.interchangeable _ _ _ rep
  exact fun spec => ⟨hsame.exists_finished_iff spec,
    fun n n' hn hn' => ⟨hsame.ending_eq hn hn', h.steps_eq rep hn hn'⟩⟩

end ThreeAddress

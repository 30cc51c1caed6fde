import ThreeAddress.Proofs.Simulation

/-!
# Budgets

A run is given a budget of steps and a limit to the number of activations that wait. This module
shows that both only cut runs off: a run that meets neither limit is the same under larger ones, and
a run that is out of steps wrote a part of what it would have written with more.

1. `Ends.of_le`: the way to an ending that is no excess of depth is open under every larger limit as
   well.
2. `State.output_step`, `State.output_run`: what is written stays written.
3. `State.run_of_stepLimit`: a run that is out of steps took them all, and a larger budget only
   continues it.
-/

namespace ThreeAddress

variable {p : Program} {maxDepth maxDepth' : Int} {calls : List String} {args : List Int}
  {g : String} {o : Ending} {fr : Frame} {w : World} {n : Nat}

/-! ## More activations -/

/-- No activation was refused because too many waited. -/
def RunResult.WithinDepth (r : RunResult) : Prop := ∀ limit f,
    r.result ≠ .error (.depthLimit limit f)

theorem Program.activate_of_le (hdepth : maxDepth ≤ maxDepth') {depth : Nat}
    {r : Except RunError Frame} (h : p.activate maxDepth g args depth = r)
    (hr : ∀ limit f, r ≠ .error (.depthLimit limit f)) : p.activate maxDepth' g args depth = r := by
  subst h
  rw [Program.activate_eq] at hr ⊢
  rw [Program.activate_eq]
  cases hf : p.function? g with
  | none => rfl
  | some f =>
    simp only [hf] at hr ⊢
    have hshallow : ¬ (depth : Int) > maxDepth := fun hdeep => hr maxDepth g (if_pos hdeep)
    rw [if_neg hshallow, if_neg fun hdeep => hshallow (Int.lt_of_le_of_lt hdepth hdeep)]

/-- The steps to an ending are the same under a larger limit, unless the ending is that the limit
was met. -/
theorem Ends.of_le (hdepth : maxDepth ≤ maxDepth') {ks : List Caller}
    (h : Ends p maxDepth n calls fr ks w o)
    (hresult : ∀ limit f, o.result ≠ .error (.depthLimit limit f)) :
    Ends p maxDepth' n calls fr ks w o := by
  induction h with
  | go hact _ ih => exact .go hact (ih hresult)
  | call hact hstart _ ih =>
    refine .call hact (Program.activate_of_le hdepth hstart fun limit f herror => ?_) (ih hresult)
    cases herror
  | refused hact hstart =>
    refine .refused hact (Program.activate_of_le hdepth hstart fun limit f herror => ?_)
    cases herror
    exact hresult limit f rfl
  | resume hact _ ih => exact .resume hact (ih hresult)
  | returned hact => exact .returned hact
  | stopped hact => exact .stopped hact

theorem Program.EndsIn.of_le (hdepth : maxDepth ≤ maxDepth') {entry : String} {inputs : List Int}
    (h : p.EndsIn maxDepth entry args inputs n calls o)
    (hresult : ∀ limit f, o.result ≠ .error (.depthLimit limit f)) :
    p.EndsIn maxDepth' entry args inputs n calls o := by
  unfold Program.EndsIn at h ⊢
  have hstart : p.activate maxDepth' entry args 0 = p.activate maxDepth entry args 0 := by
    refine Program.activate_of_le hdepth rfl fun limit f herror => ?_
    rw [herror] at h
    obtain ⟨_, _, rfl⟩ := h
    exact hresult limit f rfl
  rw [hstart]
  cases hactivate : p.activate maxDepth entry args 0 with
  | error e =>
    simp only [hactivate] at h
    exact h
  | ok fr =>
    simp only [hactivate] at h
    obtain ⟨later, hcalls, hends⟩ := h
    exact ⟨later, hcalls, hends.of_le hdepth hresult⟩

/-! ## What was written -/

/-- The world after an effect; calls and failures leave it as it is. -/
def Effect.world (w : World) : Effect → World
  | assign _ _ w' | pass w' => w'
  | call .. | trap _ => w

/-- The state that a step leads to, or stops in. -/
def Progress.state : Progress → State
  | running s | returned _ s | failed _ s => s

theorem Instr.output_effect (i : Instr) (value : Operand → Int) (w : World) :
    w.output.toList <+: ((i.effect value w).world w).output.toList := by
  cases i with
  | binary d op l r =>
    cases h : evalBinary op (value l) (value r) <;> simp [effect, h, Effect.world]
  | unary d op x => cases h : evalUnary op (value x) <;> simp [effect, h, Effect.world]
  | read d => cases h : w.inputs <;> simp [effect, h, Effect.world]
  | write v =>
    simp only [effect, Effect.world, Array.toList_push]
    exact List.prefix_append _ _
  | _ => exact List.prefix_rfl

theorem Frame.output_act {fr' : Frame} {w' : World} (h : fr.act w = .go fr' w') :
    w.output.toList <+: w'.output.toList := by
  obtain ⟨func, block, code, term, env⟩ := fr
  cases code with
  | cons i code =>
    have heffect := i.output_effect env.value w
    simp only [act] at h
    cases he : i.effect env.value w with
    | assign d n w₁ =>
      rw [he] at h heffect
      cases h
      exact heffect
    | pass w₁ =>
      rw [he] at h heffect
      cases h
      exact heffect
    | call d g args =>
      rw [he] at h
      cases h
    | trap e =>
      rw [he] at h
      cases h
  | nil =>
    cases term with
    | none => cases h
    | some t =>
      simp only [act] at h
      cases hexit : t.exit env.value with
      | leave v =>
        rw [hexit] at h
        cases h
      | goto l =>
        simp only [hexit, leaveBy, goto] at h
        cases henter : enter func env (some block) l with
        | error e =>
          rw [henter] at h
          cases h
        | ok fr₁ =>
          rw [henter] at h
          cases h
          exact List.prefix_rfl

/-- A step keeps what was written. -/
theorem State.output_step (p : Program) (maxDepth : Int) (s : State) :
    s.output.toList <+: (s.step p maxDepth).state.output.toList := by
  have hstep : s.step p maxDepth = _ := step_state p maxDepth s.frame s.callers s.world
  rw [hstep]
  cases hact : s.frame.act s.world with
  | go fr w => exact Frame.output_act hact
  | call g args k =>
    cases hstart : p.activate maxDepth g args (s.callers.length + 1) <;> simp only [hstart] <;>
      exact List.prefix_rfl
  | ret v => cases hks : s.callers <;> exact List.prefix_rfl
  | stop e => exact List.prefix_rfl

theorem State.output_run (p : Program) (maxDepth limit : Int) (budget done : Nat) (s : State) :
    s.output.toList <+: (State.run p maxDepth limit budget done s).output.toList := by
  induction budget generalizing done s with
  | zero => exact List.prefix_rfl
  | succ budget ih =>
    have hkept := s.output_step p maxDepth
    rw [State.run]
    cases hstep : s.step p maxDepth with
    | running s' =>
      rw [hstep] at hkept
      exact hkept.trans (ih (done + 1) s')
    | returned v s' =>
      rw [hstep] at hkept
      exact hkept
    | failed e s' =>
      rw [hstep] at hkept
      exact hkept

/-! ## More steps -/

theorem State.step_ne_stepLimit (p : Program) (maxDepth : Int) (s s' : State) (limit : Int)
    (g : String) : s.step p maxDepth ≠ .failed (.stepLimit limit g) s' := by
  intro h
  have hstep : s.step p maxDepth = _ := step_state p maxDepth s.frame s.callers s.world
  rw [h] at hstep
  cases hact : s.frame.act s.world with
  | go fr w => simp [hact] at hstep
  | call g' args k =>
    simp only [hact] at hstep
    cases hstart : p.activate maxDepth g' args (s.callers.length + 1) with
    | ok fr => simp [hstart] at hstep
    | error e =>
      simp only [hstart] at hstep
      cases hstep
      exact p.activate_ne_stepLimit _ _ _ _ _ _ hstart
  | ret v =>
    simp only [hact] at hstep
    cases hks : s.callers <;> simp [hks] at hstep
  | stop e =>
    simp only [hact] at hstep
    cases hstep
    exact s.frame.act_ne_stepLimit _ _ _ hact

/-- A run that is out of steps took one too many, and what it wrote a run with more steps writes as
well. -/
theorem State.run_of_stepLimit {limit limit' : Int} {budget done : Nat} {s : State}
    (h : (State.run p maxDepth limit budget done s).result = .error (.stepLimit limit' g)) :
    (State.run p maxDepth limit budget done s).steps = done + budget + 1 ∧
      ∀ (limit'' : Int) (more : Nat), (State.run p maxDepth limit budget done s).output.toList
        <+: (State.run p maxDepth limit'' (budget + more) done s).output.toList := by
  induction budget generalizing done s with
  | zero => exact ⟨rfl, fun limit'' more => s.output_run p maxDepth limit'' (0 + more) done⟩
  | succ budget ih =>
    rw [State.run] at h ⊢
    cases hstep : s.step p maxDepth with
    | running s' =>
      simp only [hstep] at h ⊢
      obtain ⟨hsteps, hprefix⟩ := ih h
      refine ⟨by rw [hsteps]; omega, fun limit'' more => ?_⟩
      rw [Nat.add_right_comm, State.run]
      simp only [hstep]
      exact hprefix limit'' more
    | returned v s' => simp [hstep] at h
    | failed e s' =>
      simp only [hstep] at h
      cases h
      exact absurd hstep (s.step_ne_stepLimit p maxDepth s' limit' g)

/-! ## Larger budgets -/

/-- A run that is neither out of steps nor too deep is the same, to the number of its steps, under
any larger budgets. A run that is out of steps counts one more than its budget, and what it wrote is
the beginning of what the run writes with any larger budget of steps. -/
theorem Program.run_monotone (p : Program) (spec : RunSpec) (hbudget : 0 ≤ spec.maxSteps) :
    ((p.run spec).Finished → (p.run spec).WithinDepth →
      ∀ maxSteps maxDepth, spec.maxSteps ≤ maxSteps → spec.maxDepth ≤ maxDepth →
        p.run { spec with maxSteps, maxDepth } = p.run spec) ∧
    (¬ (p.run spec).Finished → (p.run spec).steps = spec.maxSteps + 1 ∧
      ∀ maxSteps, spec.maxSteps ≤ maxSteps →
        (p.run spec).output.toList <+: (p.run { spec with maxSteps }).output.toList) := by
  constructor
  · intro hfinished hwithin maxSteps maxDepth hsteps hdepth
    obtain ⟨n, calls, hn, hends⟩ := Program.endsIn_of_run hfinished
    have hn' : n ≤ maxSteps.toNat := Nat.le_trans hn (Int.toNat_le_toNat hsteps)
    obtain ⟨hlarger, _⟩ : p.run { spec with maxSteps, maxDepth } = _ ∧
        _ := (hends.of_le hdepth hwithin).run_eq hn'
    exact hlarger.trans (hends.run_eq hn).1.symm
  · intro hcut
    simp only [RunResult.Finished, not_forall, not_not] at hcut
    obtain ⟨limit, g, hcut⟩ := hcut
    unfold Program.run at hcut ⊢
    cases hstart : p.activate spec.maxDepth spec.entry spec.args 0 with
    | error e =>
      simp only [hstart] at hcut
      cases hcut
      exact absurd hstart (p.activate_ne_stepLimit _ _ _ _ _ _)
    | ok fr =>
      simp only [hstart] at hcut ⊢
      obtain ⟨hsteps, hprefix⟩ := State.run_of_stepLimit hcut
      refine ⟨by rw [hsteps]; omega, fun maxSteps hle => ?_⟩
      obtain ⟨more, hmore⟩ := Nat.exists_eq_add_of_le (Int.toNat_le_toNat hle)
      rw [hmore]
      exact hprefix maxSteps more

/-- A function that writes its argument and then calls itself with the number below, down to 0. -/
def descent : Program :=
  ⟨Table.ofList [("main",
    { name := "main"
      params := ["n"]
      blocks := Table.ofList [
        ("entry",
          { name := "entry"
            instrs := [.write (.var ⟨"n", none⟩)]
            term := some (.branch (.var ⟨"n", none⟩) "more" "done") }),
        ("more",
          { name := "more"
            instrs := [.binary ⟨"m", none⟩ "sub" (.var ⟨"n", none⟩) (.const 1),
              .call none "main" [.var ⟨"m", none⟩]]
            term := some (.jump "done") }),
        ("done", { name := "done", term := some (.ret (some (.var ⟨"n", none⟩))) })] })]⟩

/-- Fifteen steps and two activations that wait are enough from 2 on; six steps end in the second
activation. -/
theorem Program.run_monotone_descent :
    (∀ maxSteps maxDepth, 15 ≤ maxSteps → 2 ≤ maxDepth →
      descent.run ⟨"main", [2], [], maxSteps, maxDepth⟩ = descent.run ⟨"main", [2], [], 15, 2⟩) ∧
    (descent.run ⟨"main", [2], [], 6, 2⟩).steps = 7 ∧
    ∀ maxSteps, 6 ≤ maxSteps →
      [2, 1] <+: (descent.run ⟨"main", [2], [], maxSteps, 2⟩).output.toList := by
  have henough : (descent.run ⟨"main", [2], [], 15, 2⟩).result = .ok (some 2) := by decide +kernel
  have hcut : (descent.run ⟨"main", [2], [], 6, 2⟩).result
      = .error (.stepLimit 6 "main") := by decide +kernel
  have houtput : (descent.run ⟨"main", [2], [], 6, 2⟩).output.toList = [2, 1] := by decide +kernel
  obtain ⟨same, _⟩ := descent.run_monotone ⟨"main", [2], [], 15, 2⟩ (by decide)
  obtain ⟨_, part⟩ := descent.run_monotone ⟨"main", [2], [], 6, 2⟩ (by decide)
  obtain ⟨hsteps, hprefix⟩ := part fun h => h 6 "main" hcut
  refine ⟨same (fun _ _ h => ?_) (fun _ _ h => ?_), ?_,
    fun maxSteps hle => houtput ▸ hprefix maxSteps hle⟩
  · cases henough.symm.trans h
  · cases henough.symm.trans h
  · exact Int.ofNat.inj hsteps

end ThreeAddress

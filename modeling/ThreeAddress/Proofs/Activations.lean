import ThreeAddress.Machine

/-!
# What an activation does

A step of the machine is a step of the running activation, `Frame.act`, which knows nothing of the
program and of the activations that wait: it goes on by itself, calls, returns or stops. `Ends` is
the big-step reading of a run: how it ends, in how many steps and with which calls. `Ends.run_eq`
and `endsIn_of_run` tie it to `State.run`. `Program.Visits.invariant` is the way to show something
of every activation in a run.
-/

namespace ThreeAddress

variable {value value' : Operand → Int} {ks : List Caller} {w : World} {o : Ending} {fr : Frame}
  {args : List Int} {I : Frame → Prop} {spec : RunSpec} {budget n : Nat}

/-- What activations share. -/
structure World where
  /-- The memory. -/
  memory : Memory
  /-- The inputs not read so far. -/
  inputs : List Int
  /-- What was written so far. -/
  output : Array Int

/-! ## Instructions and terminators -/

/-- What an instruction does, given the values of its operands. -/
inductive Effect where
  /-- It assigns a variable. -/
  | assign (d : Var) (n : Int) (w : World)
  /-- It assigns none. -/
  | pass (w : World)
  /-- It calls. -/
  | call (d : Option Var) (callee : String) (args : List Int)
  /-- It has no result. -/
  | trap (e : EvalError)

/-- The effect as it is if an assignment goes to `d`. -/
def Effect.setDest (d : Var) : Effect → Effect
  | assign _ n w => assign d n w
  | call (some _) g args => call (some d) g args
  | e => e

/-- What an instruction does in a world. -/
@[grind =] def Instr.effect (value : Operand → Int) (w : World) : Instr → Effect
  | binary d op l r =>
    match evalBinary op (value l) (value r) with
    | .ok n => .assign d n w
    | .error e => .trap e
  | unary d op x =>
    match evalUnary op (value x) with
    | .ok n => .assign d n w
    | .error e => .trap e
  | copy d x => .assign d (value x) w
  | load d a => .assign d (w.memory.getD (value a) 0) w
  | store a v => .pass { w with memory := w.memory.insert (value a) (value v) }
  | call d g args => .call d g (args.map value)
  | read d =>
    match w.inputs with
    | [] => .assign d 0 w
    | n :: inputs => .assign d (wrap n) { w with inputs }
  | write v => .pass { w with output := w.output.push (value v) }
  | phi _ => .pass w

namespace Instr

variable {i : Instr} {d : Option Var} {g : String} {w' : World}

theorem dest?_mapUses (g : Operand → Operand) (i : Instr) : (i.mapUses g).dest? = i.dest? := by
  cases i <;> rfl

theorem uses_mapUses (g : Operand → Operand) (i : Instr) : (i.mapUses g).uses = i.uses.map g := by
  cases i <;> simp [mapUses, uses]

theorem isPhi_mapUses (g : Operand → Operand) (i : Instr) : (i.mapUses g).isPhi = i.isPhi := by
  cases i <;> rfl

theorem effect_mapUses (i : Instr) (hi : i.isPhi = false) (g : Operand → Operand)
    (value : Operand → Int) (w : World) :
    (i.mapUses g).effect value w = i.effect (fun x => value (g x)) w := by
  cases i with
  | call d h args => simp [mapUses, effect, Function.comp_def]
  | phi φ => cases hi
  | _ => rfl

theorem setDest_dest? {d : Var} (h : i.dest? = some d) : i.setDest d = i := by
  cases i with
  | call e g args =>
    cases h
    rfl
  | store a v => cases h
  | write v => cases h
  | _ =>
    cases h
    rfl

theorem effect_setDest (i : Instr) (d : Var) (value : Operand → Int) (w : World) :
    (i.setDest d).effect value w = (i.effect value w).setDest d := by
  cases i with
  | binary _ op l r =>
    cases h : evalBinary op (value l) (value r) <;> simp [setDest, effect, Effect.setDest, h]
  | unary _ op x => cases h : evalUnary op (value x) <;> simp [setDest, effect, Effect.setDest, h]
  | call e g args => cases e <;> rfl
  | read _ => cases h : w.inputs <;> simp [setDest, effect, Effect.setDest, h]
  | _ => rfl

/-- An instruction depends on the values of its operands only. -/
theorem effect_congr (hi : i.isPhi = false) (w : World) (h : ∀ x ∈ i.uses, value x = value' x) :
    i.effect value w = i.effect value' w := by
  cases i with
  | binary d op l r =>
    have hl := h l (by simp [uses])
    have hr := h r (by simp [uses])
    simp [effect, hl, hr]
  | unary d op x => simp [effect, h x (by simp [uses])]
  | copy d x => simp [effect, h x (by simp [uses])]
  | load d a => simp [effect, h a (by simp [uses])]
  | store a v => simp [effect, h a (by simp [uses]), h v (by simp [uses])]
  | call d g args =>
    have : args.map value = args.map value' := List.map_congr_left h
    simp [effect, this]
  | read d => rfl
  | write v => simp [effect, h v (by simp [uses])]
  | phi φ => cases hi

theorem dest?_of_assign {d : Var} {n : Int} (h : i.effect value w = .assign d n w') :
    i.dest? = some d := by
  cases i with
  | binary _ op l r => cases he : evalBinary op (value l) (value r) <;> simp_all [effect, dest?]
  | unary _ op x => cases he : evalUnary op (value x) <;> simp_all [effect, dest?]
  | read _ => cases he : w.inputs <;> simp_all [effect, dest?]
  | _ => simp_all [effect, dest?]

theorem eq_call_of_effect (h : i.effect value w = .call d g args) : ∃ xs, i = .call d g xs := by
  cases i with
  | binary _ op l r => cases he : evalBinary op (value l) (value r) <;> simp_all [effect]
  | unary _ op x => cases he : evalUnary op (value x) <;> simp_all [effect]
  | read _ => cases he : w.inputs <;> simp_all [effect]
  | _ => simp_all [effect]

theorem dest?_of_call (h : i.effect value w = .call d g args) : i.dest? = d := by
  obtain ⟨_, rfl⟩ := eq_call_of_effect h
  rfl

theorem dest?_of_pass (hi : i.isPhi = false) (h : i.effect value w = .pass w') :
    i.dest? = none := by
  cases i with
  | binary _ op l r => cases he : evalBinary op (value l) (value r) <;> simp_all [effect]
  | unary _ op x => cases he : evalUnary op (value x) <;> simp_all [effect]
  | read _ => cases he : w.inputs <;> simp_all [effect]
  | phi φ => cases hi
  | _ => simp_all [effect, dest?]

end Instr

/-- Where a terminator leads. -/
inductive Exit where
  /-- To another block. -/
  | goto (l : Label)
  /-- Back to the caller. -/
  | leave (value : Option Int)

/-- Where a terminator leads, given the values of its operands. -/
def Terminator.exit (value : Operand → Int) : Terminator → Exit
  | jump t => .goto t
  | branch c t e => .goto (if value c ≠ 0 then t else e)
  | ret v => .leave (v.map value)

namespace Terminator

variable {t : Terminator}

theorem uses_mapUses (g : Operand → Operand) (t : Terminator) :
    (t.mapUses g).uses = t.uses.map g := by
  cases t with
  | ret v => cases v <;> rfl
  | _ => rfl

theorem targets_mapUses (t : Terminator) (g : Operand → Operand) :
    (t.mapUses g).targets = t.targets := by
  cases t <;> rfl

theorem exit_mapUses (t : Terminator) (g : Operand → Operand) (value : Operand → Int) :
    (t.mapUses g).exit value = t.exit (fun x => value (g x)) := by
  cases t with
  | ret v => cases v <;> rfl
  | _ => rfl

theorem exit_congr (h : ∀ x ∈ t.uses, value x = value' x) : t.exit value = t.exit value' := by
  cases t with
  | jump t => rfl
  | branch c t e => simp [exit, h c (by simp [uses])]
  | ret v =>
    cases v with
    | none => rfl
    | some x => simp [exit, h x (by simp [uses])]

theorem mem_targets_of_exit {l : Label} (h : t.exit value = .goto l) : l ∈ t.targets := by
  cases t with
  | jump t => simp_all [exit, targets]
  | branch c t e =>
    by_cases hc : value c = 0
    · by_cases hte : t = e <;> simp_all [exit, targets]
    · by_cases hte : t = e <;> simp_all [exit, targets]
  | ret v => simp [exit] at h

end Terminator

/-! ## Steps of an activation -/

/-- What an activation does next. -/
inductive Act where
  /-- It goes on. -/
  | go (fr : Frame) (w : World)
  /-- It calls. -/
  | call (callee : String) (args : List Int) (k : Caller)
  /-- It returns. -/
  | ret (value : Option Int)
  /-- It stops the run. -/
  | stop (e : RunError)

namespace Frame

/-- Goes on at a block. -/
def goto (fr : Frame) (w : World) (l : Label) : Act :=
  match enter fr.func fr.env (some fr.block) l with
  | .ok fr' => .go fr' w
  | .error e => .stop e

/-- Goes on after an instruction. -/
def after (fr : Frame) (code : List Instr) : Effect → Act
  | .assign d n w => .go { fr with code, env := fr.env.insert d n } w
  | .pass w => .go { fr with code } w
  | .call d g args => .call g args ⟨{ fr with code }, d⟩
  | .trap e => .stop (.arithmetic fr.func.name fr.block e)

/-- Follows a terminator. -/
def leaveBy (fr : Frame) (w : World) : Exit → Act
  | .goto l => fr.goto w l
  | .leave v => .ret v

/-- What an activation does next. -/
def act (fr : Frame) (w : World) : Act :=
  match fr.code with
  | i :: code => fr.after code (i.effect fr.env.value w)
  | [] =>
    match fr.term with
    | none => .stop (.openBlock fr.func.name fr.block)
    | some t => fr.leaveBy w (t.exit fr.env.value)

end Frame

/-- The activation that waited, once it gets its result. -/
def Caller.resume (k : Caller) (value : Option Int) : Frame :=
  match k.dest with
  | none => k.frame
  | some d => { k.frame with env := k.frame.env.insert d (value.getD 0) }

/-- Starts an activation of the function. -/
def Func.start (f : Func) (args : List Int) : Except RunError Frame :=
    Frame.enter f (bindParams f args) none f.entry

/-- The state of the machine with an activation running. -/
def Frame.state (fr : Frame) (callers : List Caller) (w : World) : State :=
  ⟨fr, callers, w.memory, w.inputs, w.output⟩

/-- What the activations of a state share. -/
def State.world (s : State) : World := ⟨s.memory, s.inputs, s.output⟩

theorem Program.activate_eq (p : Program) (maxDepth : Int) (g : String) (args : List Int)
    (depth : Nat) : p.activate maxDepth g args depth = match p.function? g with
      | none => .error (.unknownCallee g)
      | some f => if (depth : Int) > maxDepth then .error (.depthLimit maxDepth g) else f.start
        args := rfl

/-- A step of the machine is a step of the running activation. -/
theorem step_state (p : Program) (maxDepth : Int) (fr : Frame) (callers : List Caller) (w : World) :
    (fr.state callers w).step p maxDepth = match fr.act w with
      | .go fr' w' => .running (fr'.state callers w')
      | .call g args k =>
        match p.activate maxDepth g args (callers.length + 1) with
        | .ok fr' => .running (fr'.state (k :: callers) w)
        | .error e => .failed e (fr.state callers w)
      | .ret v =>
        match callers with
        | [] => .returned v (fr.state [] w)
        | k :: ks => .running ((k.resume v).state ks w)
      | .stop e => .failed e (fr.state callers w) := by
  obtain ⟨func, block, code, term, env⟩ := fr
  cases code with
  | cons i code =>
    cases i with
    | binary d op l r =>
      cases h : evalBinary op (env.value l) (env.value r) <;>
        simp [State.step, Frame.state, State.runInstr, Frame.act, Instr.effect, Frame.after,
          State.assign, h]
    | unary d op x =>
      cases h : evalUnary op (env.value x) <;>
        simp [State.step, Frame.state, State.runInstr, Frame.act, Instr.effect, Frame.after,
          State.assign, h]
    | call d g args =>
      cases h : p.activate maxDepth g (args.map env.value) (callers.length + 1) <;>
        simp [State.step, Frame.state, State.runInstr, Frame.act, Instr.effect, Frame.after, h]
    | read d =>
      cases h : w.inputs <;>
        simp [State.step, Frame.state, State.runInstr, Frame.act, Instr.effect, Frame.after,
          State.assign, h]
    | _ => rfl
  | nil =>
    have goes : ∀ l, State.goto (Frame.state ⟨func, block, [], term, env⟩ callers w) l
        = match Frame.enter func env (some block) l with
          | .ok fr' => .running (fr'.state callers w)
          | .error e => .failed e (Frame.state ⟨func, block, [], term, env⟩ callers w) :=
            fun l => rfl
    cases term with
    | none => rfl
    | some t =>
      cases t with
      | jump t =>
        show State.goto _ t = _
        rw [goes]
        cases h : Frame.enter func env (some block) t <;>
          simp [Frame.act, Terminator.exit, Frame.leaveBy, Frame.goto, h]
      | branch c t e =>
        show State.goto _ (if env.value c ≠ 0 then t else e) = _
        rw [goes]
        cases h : Frame.enter func env (some block) (if env.value c ≠ 0 then t else e) <;>
          simp only [Frame.act, Terminator.exit, Frame.leaveBy, Frame.goto, h]
      | ret v =>
        cases callers with
        | nil => rfl
        | cons k ks =>
          obtain ⟨fr, d⟩ := k
          cases d <;> rfl

/-! ## Endings -/

/-- How a run ends, apart from the number of its steps. -/
structure Ending where
  /-- The value returned, or why there is none. -/
  result : Except RunError (Option Int)
  /-- What was written. -/
  output : Array Int
  /-- The memory at the end. -/
  memory : Memory

/-- `Ends p maxDepth n calls fr ks w o`: with `ks` waiting, `fr` makes the run end in `o` after `n`
steps, in which the functions `calls` are activated. -/
inductive Ends (p : Program) (maxDepth : Int) :
    Nat → List String → Frame → List Caller → World → Ending → Prop
  | go {n : Nat} {calls : List String} {fr fr' : Frame} {ks : List Caller} {w w' : World}
    {o : Ending} :
    fr.act w = .go fr' w' → Ends p maxDepth n calls fr' ks w' o →
    Ends p maxDepth (n + 1) calls fr ks w o
  | call {n : Nat} {calls : List String} {fr fr' : Frame} {k : Caller} {ks : List Caller}
    {w : World} {o : Ending}
    {g : String} {args : List Int} :
    fr.act w = .call g args k → p.activate maxDepth g args (ks.length + 1) = .ok fr' →
      Ends p maxDepth n calls fr' (k :: ks) w o → Ends p maxDepth (n + 1) (g :: calls) fr ks w o
  | refused {fr : Frame} {k : Caller} {ks : List Caller} {w : World} {g : String} {args : List Int}
    {e : RunError} :
    fr.act w = .call g args k → p.activate maxDepth g args (ks.length + 1) = .error e →
      Ends p maxDepth 1 [] fr ks w ⟨.error e, w.output, w.memory⟩
  | resume {n : Nat} {calls : List String} {fr : Frame} {k : Caller} {ks : List Caller} {w : World}
    {o : Ending}
    {v : Option Int} :
    fr.act w = .ret v → Ends p maxDepth n calls (k.resume v) ks w o →
    Ends p maxDepth (n + 1) calls fr (k :: ks) w o
  | returned {fr : Frame} {w : World} {v : Option Int} :
    fr.act w = .ret v → Ends p maxDepth 1 [] fr [] w ⟨.ok v, w.output, w.memory⟩
  | stopped {fr : Frame} {ks : List Caller} {w : World} {e : RunError} :
    fr.act w = .stop e → Ends p maxDepth 1 [] fr ks w ⟨.error e, w.output, w.memory⟩

variable {p : Program} {maxDepth : Int}

theorem Ends.pos {calls : List String} (h : Ends p maxDepth n calls fr ks w o) : 0 < n := by
  cases h <;> exact Nat.succ_pos _

/-- A run with enough budget ends as it should. -/
theorem Ends.run_eq {calls : List String} (h : Ends p maxDepth n calls fr ks w o) (limit : Int)
    (hn : n ≤ budget) (done : Nat) :
    State.run p maxDepth limit budget done (fr.state ks w) = ⟨o.result, o.output, o.memory,
      done + n⟩ := by
  induction budget generalizing n calls fr ks w done with
  | zero =>
    have := h.pos
    omega
  | succ budget ih =>
    rw [State.run, step_state]
    cases h with
    | go hact h =>
      rw [hact]
      simp only [ih h (Nat.le_of_succ_le_succ hn), Nat.add_right_comm, Nat.add_assoc]
    | call hact hstart h =>
      rw [hact]
      simp only [hstart, ih h (Nat.le_of_succ_le_succ hn), Nat.add_right_comm, Nat.add_assoc]
    | refused hact hstart =>
      rw [hact]
      simp only [hstart]
      rfl
    | resume hact h =>
      rw [hact]
      simp only [ih h (Nat.le_of_succ_le_succ hn), Nat.add_right_comm, Nat.add_assoc]
    | returned hact =>
      rw [hact]
      rfl
    | stopped hact =>
      rw [hact]
      rfl

/-- A run ends within its budget, or meets the limit. -/
theorem ends_or_stepLimit (limit : Int) (budget done : Nat) (fr : Frame) (ks : List Caller)
    (w : World) :
    (∃ n calls o, n ≤ budget ∧ Ends p maxDepth n calls fr ks w o) ∨
      ∃ g, (State.run p maxDepth limit budget done (fr.state ks w)).result
        = .error (.stepLimit limit g) := by
  induction budget generalizing done fr ks w with
  | zero => exact .inr ⟨_, rfl⟩
  | succ budget ih =>
    rw [State.run, step_state]
    cases hact : fr.act w with
    | go fr' w' =>
      rcases ih (done + 1) fr' ks w' with ⟨n, calls, o, hn, h⟩ | ⟨g, hg⟩
      · exact .inl ⟨n + 1, calls, o, Nat.succ_le_succ hn, .go hact h⟩
      · exact .inr ⟨g, hg⟩
    | call g args k =>
      cases hstart : p.activate maxDepth g args (ks.length + 1) with
      | error e => exact .inl ⟨1, [], _, Nat.succ_le_succ (Nat.zero_le _), .refused hact hstart⟩
      | ok fr' =>
        rcases ih (done + 1) fr' (k :: ks) w with ⟨n, calls, o, hn, h⟩ | ⟨g', hg⟩
        · exact .inl ⟨n + 1, g :: calls, o, Nat.succ_le_succ hn, .call hact hstart h⟩
        · exact .inr ⟨g', by simp only [hstart, hg]⟩
    | ret v =>
      cases ks with
      | nil => exact .inl ⟨1, [], _, Nat.succ_le_succ (Nat.zero_le _), .returned hact⟩
      | cons k ks =>
        rcases ih (done + 1) (k.resume v) ks w with ⟨n, calls, o, hn, h⟩ | ⟨g', hg⟩
        · exact .inl ⟨n + 1, calls, o, Nat.succ_le_succ hn, .resume hact h⟩
        · exact .inr ⟨g', hg⟩
    | stop e => exact .inl ⟨1, [], _, Nat.succ_le_succ (Nat.zero_le _), .stopped hact⟩

/-! ## Counting activations -/

/-- Whether the activation is about to call the function. -/
def Frame.calls (fr : Frame) (name : String) : Bool :=
  match fr.code with
  | .call _ g _ :: _ => decide (g = name)
  | _ => false

/-- How often a function is activated by calls in at most `budget` steps. -/
def State.activations (p : Program) (maxDepth : Int) (name : String) : (budget : Nat) → State → Nat
  | 0, _ => 0
  | budget + 1, s =>
    match s.step p maxDepth with
    | .running s' => (if s.frame.calls name then 1 else 0) + activations p maxDepth name budget s'
    | _ => 0

theorem Frame.calls_of_act (fr : Frame) (w : World) (name : String) :
    fr.calls name = match fr.act w with
      | .call g _ _ => decide (g = name)
      | _ => false := by
  obtain ⟨func, block, code, term, env⟩ := fr
  cases code with
  | cons i code =>
    cases i with
    | binary d op l r =>
      cases h : evalBinary op (env.value l) (env.value r) <;>
        simp [calls, act, Instr.effect, after, h]
    | unary d op x =>
      cases h : evalUnary op (env.value x) <;> simp [calls, act, Instr.effect, after, h]
    | read d => cases h : w.inputs <;> simp [calls, act, Instr.effect, after, h]
    | _ => rfl
  | nil =>
    cases term with
    | none => rfl
    | some t =>
      cases h : t.exit env.value with
      | goto l =>
        cases he : enter func env (some block) l <;> simp [calls, act, leaveBy, goto, h, he]
      | leave v => simp [calls, act, leaveBy, h]

/-- The activations that a run counts are the calls of its ending. -/
theorem Ends.activations_eq {calls : List String} (h : Ends p maxDepth n calls fr ks w o)
    (name : String) (hn : n ≤ budget) :
    State.activations p maxDepth name budget (fr.state ks w) = calls.count name := by
  induction budget generalizing n calls fr ks w with
  | zero =>
    have := h.pos
    omega
  | succ budget ih =>
    have hcalls : (fr.state ks w).frame.calls name = _ := fr.calls_of_act w name
    rw [State.activations, step_state]
    cases h with
    | go hact h =>
      rw [hact] at hcalls
      simp only [hact, hcalls, ih h (Nat.le_of_succ_le_succ hn)]
      simp
    | call hact hstart h =>
      rw [hact] at hcalls
      simp only [hact, hcalls, hstart, ih h (Nat.le_of_succ_le_succ hn)]
      simp [List.count_cons, Nat.add_comm]
    | refused hact hstart => simp [hact, hstart]
    | resume hact h =>
      rw [hact] at hcalls
      simp only [hact, hcalls, ih h (Nat.le_of_succ_le_succ hn)]
      simp
    | returned hact => simp [hact]
    | stopped hact => simp [hact]

/-! ## No step fails for want of budget -/

theorem Func.start_ne_stepLimit (f : Func) (args : List Int) (limit : Int) (g : String) :
    f.start args ≠ .error (.stepLimit limit g) := by
  intro h
  unfold Func.start Frame.enter at h
  cases hb : f.block? f.entry with
  | none => simp [hb] at h
  | some b =>
    rw [hb] at h
    cases h

theorem Program.activate_ne_stepLimit (p : Program) (maxDepth : Int) (name : String)
    (args : List Int) (depth : Nat) (limit : Int) (g : String) :
    p.activate maxDepth name args depth ≠ .error (.stepLimit limit g) := by
  intro h
  rw [Program.activate_eq] at h
  cases hf : p.function? name with
  | none => simp [hf] at h
  | some f =>
    simp only [hf] at h
    split at h
    · cases h
    · exact f.start_ne_stepLimit args limit g h

theorem phiValues_ne_stepLimit (env : Env) (prev : Label) (φs : List Phi) (limit : Int)
    (g : String) : phiValues env prev φs ≠ .error (.stepLimit limit g) := by
  induction φs with
  | nil => intro h; cases h
  | cons φ φs ih =>
    intro h
    rw [phiValues] at h
    cases hφ : φ.valueFrom? prev with
    | none => simp [hφ] at h
    | some x =>
      simp only [hφ] at h
      cases hrest : phiValues env prev φs with
      | error e =>
        rw [hrest] at h
        cases h
        exact ih hrest
      | ok vs =>
        rw [hrest] at h
        cases h

theorem Frame.goto_ne_stepLimit (fr : Frame) (w : World) (l : Label) (limit : Int) (g : String) :
    fr.goto w l ≠ .stop (.stepLimit limit g) := by
  intro h
  unfold goto enter at h
  cases hb : fr.func.block? l with
  | none => simp [hb] at h
  | some b =>
    simp only [hb] at h
    cases hv : phiValues fr.env fr.block b.phis with
    | ok vs =>
      rw [hv] at h
      cases h
    | error e =>
      rw [hv] at h
      cases h
      exact phiValues_ne_stepLimit _ _ _ _ _ hv

theorem Frame.act_ne_stepLimit (fr : Frame) (w : World) (limit : Int) (g : String) :
    fr.act w ≠ .stop (.stepLimit limit g) := by
  obtain ⟨func, block, code, term, env⟩ := fr
  intro h
  cases code with
  | cons i code =>
    simp only [act] at h
    cases he : i.effect env.value w <;> simp [after, he] at h
  | nil =>
    cases term with
    | none => simp [act] at h
    | some t =>
      cases he : t.exit env.value with
      | leave v => simp [act, leaveBy, he] at h
      | goto l =>
        simp only [act, leaveBy, he] at h
        exact goto_ne_stepLimit _ _ _ _ _ h

theorem Ends.result_ne_stepLimit {calls : List String} (h : Ends p maxDepth n calls fr ks w o)
    (limit : Int) (g : String) : o.result ≠ .error (.stepLimit limit g) := by
  induction h with
  | go _ _ ih => exact ih
  | call _ _ _ ih => exact ih
  | refused _ hstart =>
    intro h
    cases h
    exact Program.activate_ne_stepLimit _ _ _ _ _ _ _ hstart
  | resume _ _ ih => exact ih
  | returned _ => intro h; cases h
  | stopped hact =>
    intro h
    cases h
    exact Frame.act_ne_stepLimit _ _ _ _ hact

/-! ## Runs of a program -/

/-- The state in which the first activation starts. -/
def World.initial (inputs : List Int) : World := ⟨∅, inputs, #[]⟩

/-- The program, started with `entry`, ends in `o` after `n` steps, in which the functions `calls`
are activated. -/
def Program.EndsIn (p : Program) (maxDepth : Int) (entry : String) (args inputs : List Int)
    (n : Nat) (calls : List String) (o : Ending) : Prop :=
  match p.activate maxDepth entry args 0 with
  | .error e => n = 0 ∧ calls = [] ∧ o = ⟨.error e, #[], ∅⟩
  | .ok fr => ∃ later, calls = entry :: later ∧ Ends p maxDepth n later fr [] (.initial inputs) o

/-- How often a function is activated in a run. -/
def Program.activations (p : Program) (spec : RunSpec) (name : String) : Nat :=
  match p.activate spec.maxDepth spec.entry spec.args 0 with
  | .error _ => 0
  | .ok fr =>
    (if spec.entry = name then 1 else 0)
      + State.activations p spec.maxDepth name spec.maxSteps.toNat
        (fr.state [] (.initial spec.inputs))

/-- What a run leaves, apart from the number of its steps. -/
def RunResult.ending (r : RunResult) : Ending := ⟨r.result, r.output, r.memory⟩

theorem Program.EndsIn.run_eq {calls : List String}
    (h : p.EndsIn spec.maxDepth spec.entry spec.args spec.inputs n calls o)
    (hn : n ≤ spec.maxSteps.toNat) :
    p.run spec = ⟨o.result, o.output, o.memory, n⟩ ∧ ∀ name,
      p.activations spec name = calls.count name := by
  unfold Program.EndsIn at h
  unfold Program.run Program.activations
  cases hstart : p.activate spec.maxDepth spec.entry spec.args 0 with
  | error e =>
    simp only [hstart] at h
    obtain ⟨rfl, rfl, rfl⟩ := h
    exact ⟨rfl, fun _ => rfl⟩
  | ok fr =>
    simp only [hstart] at h
    obtain ⟨later, rfl, h⟩ := h
    refine ⟨(h.run_eq spec.maxSteps hn 0).trans (by rw [Nat.zero_add]), fun name => ?_⟩
    simp only [h.activations_eq name hn, List.count_cons, beq_iff_eq, Nat.add_comm]

theorem Program.endsIn_of_run (h : ∀ limit f, (p.run spec).result ≠ .error (.stepLimit limit f)) :
    ∃ n calls, n ≤ spec.maxSteps.toNat ∧
      p.EndsIn spec.maxDepth spec.entry spec.args spec.inputs n calls (p.run spec).ending := by
  have found : ∃ n calls o, n ≤ spec.maxSteps.toNat ∧
      p.EndsIn spec.maxDepth spec.entry spec.args spec.inputs n calls o := by
    unfold Program.run at h
    unfold Program.EndsIn
    cases hstart : p.activate spec.maxDepth spec.entry spec.args 0 with
    | error e => exact ⟨0, [], _, Nat.zero_le _, rfl, rfl, rfl⟩
    | ok fr =>
      simp only [hstart] at h
      rcases ends_or_stepLimit spec.maxSteps spec.maxSteps.toNat 0 fr [] (.initial spec.inputs)
        with ⟨n, later, o, hn, hends⟩ | ⟨g, hg⟩
      · exact ⟨n, spec.entry :: later, o, hn, later, rfl, hends⟩
      · exact absurd hg (h _ _)
  obtain ⟨n, calls, o, hn, hin⟩ := found
  refine ⟨n, calls, hn, ?_⟩
  rw [(hin.run_eq hn).1]
  exact hin

/-! ## States of a run -/

/-- The states that a run goes through, whatever its budget. -/
inductive Program.Visits (p : Program) (spec : RunSpec) : State → Prop
  | start {fr : Frame} : p.activate spec.maxDepth spec.entry spec.args 0 = .ok fr →
    Visits p spec (fr.state [] (.initial spec.inputs))
  | step {s s' : State} : Visits p spec s → s.step p spec.maxDepth = .running s' → Visits p spec s'

/-- The activations of a state: the one that runs and those that wait. -/
def State.activationsNow (s : State) : List Frame := s.frame :: s.callers.map (·.frame)

/-- The activation is about to follow an edge to `l`. -/
def Frame.Takes (fr : Frame) (l : Label) : Prop :=
  fr.code = [] ∧ ∃ t, fr.term = some t ∧ t.exit fr.env.value = .goto l

theorem Program.start_of_activate {name : String} {depth : Nat}
    (h : p.activate maxDepth name args depth = .ok fr) :
    ∃ f, p.function? name = some f ∧ f.start args = .ok fr := by
  rw [Program.activate_eq] at h
  cases hf : p.function? name with
  | none => simp [hf] at h
  | some f =>
    simp only [hf] at h
    split at h
    · cases h
    · exact ⟨f, rfl, h⟩

/-- The property holds of the activation where it goes on. While it waits for a call it holds, and
so it does once the activation gets the result. -/
def Act.Keeps (I : Frame → Prop) : Act → Prop
  | go fr _ => I fr
  | call _ _ k => I k.frame ∧ ∀ v, I (k.resume v)
  | ret _ | stop _ => True

theorem Act.Keeps.imp {J : Frame → Prop} {a : Act} (h : a.Keeps I) (hIJ : ∀ fr, I fr → J fr) :
    a.Keeps J := by
  cases a with
  | go fr w => exact hIJ fr h
  | call g args k => exact ⟨hIJ _ h.1, fun v => hIJ _ (h.2 v)⟩
  | ret v => trivial
  | stop e => trivial

/-- What holds of activations at their start and is kept by their steps, holds of all activations in
a run. One that waits has it now and once it gets its result. -/
theorem Program.Visits.invariant (hstart : ∀ (f : Func) args fr, f.start args = .ok fr → I fr)
    (hkeeps : ∀ fr w, I fr → (fr.act w).Keeps I) {s : State} (h : p.Visits spec s) :
    I s.frame ∧ ∀ k ∈ s.callers, I k.frame ∧ ∀ v, I (k.resume v) := by
  induction h with
  | start hact =>
    obtain ⟨f, _, hf⟩ := Program.start_of_activate hact
    exact ⟨hstart f _ _ hf, fun k hk => by cases hk⟩
  | @step s s' _ hstep ih =>
    obtain ⟨hframe, hcallers⟩ := ih
    have hstate : s.step p spec.maxDepth = _ := step_state p spec.maxDepth s.frame s.callers s.world
    rw [hstep] at hstate
    have hnext := hkeeps _ s.world hframe
    cases hact : s.frame.act s.world with
    | go fr' w' =>
      simp only [hact] at hstate hnext
      cases hstate
      exact ⟨hnext, hcallers⟩
    | call g args k =>
      simp only [hact] at hstate hnext
      cases hnew : p.activate spec.maxDepth g args (s.callers.length + 1) with
      | error e => simp [hnew] at hstate
      | ok fr' =>
        simp only [hnew] at hstate
        cases hstate
        obtain ⟨f, _, hf⟩ := Program.start_of_activate hnew
        exact ⟨hstart f _ _ hf, List.forall_mem_cons.2 ⟨hnext, hcallers⟩⟩
    | ret v =>
      simp only [hact] at hstate
      cases hks : s.callers with
      | nil => simp [hks] at hstate
      | cons k ks =>
        rw [hks] at hcallers
        simp only [hks] at hstate
        cases hstate
        obtain ⟨hk, hrest⟩ := List.forall_mem_cons.1 hcallers
        exact ⟨hk.2 v, hrest⟩
    | stop e => simp [hact] at hstate

end ThreeAddress

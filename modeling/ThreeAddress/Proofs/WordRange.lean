import Mathlib.Data.Nat.Bitwise
import ThreeAddress.Proofs.Reachability

/-!
# Everything is a word

The literals of a program may have any size, but if they are words, so is all that a run ever holds:
variables, memory addresses and cells, what is written and what is returned. Arguments and inputs
are reduced when they arrive, arithmetic reduces its results, and everything else moves values from
one place to another.

`Frame.act_holdsWords` says it of one step of an activation and `State.step_holdsWords` of one step
of the machine; from there it goes to all states of a run and to its end, whatever that is
(`Program.run_holdsWords`).
-/

namespace ThreeAddress

variable {values : List (Var × Int)} {fr : Frame} {op : String} {i : Instr} {w : World} {a n : Int}
  {env : Env}

/-! ## Words -/

/-- The integer is a signed 64-bit word. -/
def IsWord (n : Int) : Prop := -0x8000000000000000 ≤ n ∧ n < 0x8000000000000000

instance (n : Int) : Decidable (IsWord n) :=
  inferInstanceAs (Decidable (-0x8000000000000000 ≤ n ∧ n < 0x8000000000000000))

theorem isWord_zero : IsWord 0 := by decide

theorem and_wordMask (n : Nat) : n &&& wordMask = n % wordCount :=
  Nat.and_two_pow_sub_one_eq_mod n 64

/-- The bits that are left when those of `n` are taken from a full word. -/
theorem wordMask_xor {n : Nat} (h : n < wordCount) : wordMask ^^^ n = wordMask - n := by
  have hsucc : wordMask - n = 2 ^ 64 - (n + 1) := by unfold wordMask; omega
  refine Nat.eq_of_testBit_eq fun i => ?_
  have hmask : wordMask.testBit i = decide (i < 64) := Nat.testBit_two_pow_sub_one 64 i
  rw [Nat.testBit_xor, hmask, hsucc, Nat.testBit_two_pow_sub_succ h]
  by_cases hi : i < 64
  · rw [decide_eq_true hi, Bool.true_xor, Bool.true_and]
  · have hle : wordCount ≤ 2 ^ i :=
      Nat.pow_le_pow_right (n := 2) (i := 64) (by decide) (Nat.le_of_not_lt hi)
    rw [decide_eq_false hi, Nat.testBit_lt_two_pow (Nat.lt_of_lt_of_le h hle)]
    rfl

/-- Masking is reduction modulo the number of words, below zero too. -/
theorem masked_wordMask (n : Int) : (masked wordMask n : Int) = n % wordCount := by
  cases n with
  | ofNat n =>
    show ((n &&& wordMask : Nat) : Int) = _
    rw [and_wordMask]
    rfl
  | negSucc n =>
    show ((wordMask ^^^ (n &&& wordMask) : Nat) : Int) = _
    have hlt : n % wordCount < wordCount := Nat.mod_lt _ (by decide)
    rw [and_wordMask, wordMask_xor hlt, Int.negSucc_eq]
    unfold wordMask wordCount at *
    omega

/-- The sign bit is set from the half of the words on. -/
theorem and_signBit {n : Nat} (h : n < wordCount) : n &&& signBit ≠ 0 ↔ signBit ≤ n := by
  have hbits : n &&& signBit = (n.testBit 63).toNat * signBit := Nat.and_two_pow n 63
  rw [hbits, Nat.testBit_eq_decide_div_mod_eq]
  unfold wordCount at h
  unfold signBit
  by_cases hbit : n / 2 ^ 63 % 2 = 1
  · rw [decide_eq_true hbit]
    simp only [Bool.toNat_true]
    omega
  · rw [decide_eq_false hbit]
    simp only [Bool.toNat_false]
    omega

/-- Masking and the test of the sign bit give the balanced remainder. -/
theorem wrap_eq_bmod (n : Int) : wrap n = n.bmod wordCount := by
  have hword := masked_wordMask n
  have hlt : masked wordMask n < wordCount := by
    have := Int.emod_lt_of_pos n (b := wordCount) (by decide)
    omega
  have hhalf : ((wordCount : Int) + 1) / 2 = signBit := rfl
  unfold wrap
  simp only [and_signBit hlt]
  rw [Int.bmod_def, ← hword, hhalf]
  split <;> split <;> omega

theorem isWord_wrap (n : Int) : IsWord (wrap n) := by
  have hpos : 0 < wordCount := by decide
  have hle := Int.le_bmod (x := n) hpos
  have hlt := Int.bmod_lt (x := n) hpos
  rw [wrap_eq_bmod]
  simp only [wordCount] at hle hlt
  unfold IsWord wordCount
  omega

theorem isWord_ofBool (b : Bool) : IsWord (ofBool b) := by
  cases b <;> decide

/-- Operations give words, whatever their operands are. -/
theorem isWord_evalBinary {b : Int} (h : evalBinary op a b = .ok n) : IsWord n := by
  unfold evalBinary at h
  split at h
  · rename_i o _
    cases o with
    | div =>
      simp only [BinaryOp.eval] at h
      split at h
      · cases h
      · cases h
        exact isWord_wrap _
    | mod =>
      simp only [BinaryOp.eval] at h
      split at h
      · cases h
      · cases h
        exact isWord_wrap _
    | add | sub | mul =>
      cases h
      exact isWord_wrap _
    | eq | ne | lt | le | gt | ge =>
      cases h
      exact isWord_ofBool _
  · cases h

theorem isWord_evalUnary (h : evalUnary op a = .ok n) : IsWord n := by
  unfold evalUnary at h
  split at h
  · rename_i o _
    cases h
    cases o with
    | neg => exact isWord_wrap _
    | not => exact isWord_ofBool _
  · cases h

/-! ## Literals -/

/-- The integer that an operand spells out. -/
def Operand.literal? : Operand → Option Int
  | const n => some n
  | _ => none

/-- The integers that a node spells out, those of phi operands included. -/
def Node.literals (n : Node) : List Int := n.uses.filterMap Operand.literal?

/-- The integers that a function spells out. -/
def Func.literals (f : Func) : List Int := f.nodes.flatMap Node.literals

/-- The integers that a program spells out. -/
def Program.literals (p : Program) : List Int := p.functions.values.flatMap Func.literals

/-- The operand, should it be a literal, is a word. -/
def Operand.WordLiteral (x : Operand) : Prop := ∀ n, x = .const n → IsWord n

section Literals

variable {f : Func} {l : Label} {b : Block}

theorem Func.wordLiteral (hf : ∀ n ∈ f.literals, IsWord n) {node : Node} (hnode : node ∈ f.nodes) :
    ∀ x ∈ node.uses, x.WordLiteral := by
  rintro x hx n rfl
  exact hf n (List.mem_flatMap.2 ⟨node, hnode, List.mem_filterMap.2 ⟨_, hx, rfl⟩⟩)

theorem Func.wordLiteral_body (hf : ∀ n ∈ f.literals, IsWord n) (hb : f.block? l = some b)
    (hi : i ∈ b.body) : ∀ x ∈ i.uses, x.WordLiteral := by
  have hnode : .instr i ∈ f.nodes := mem_nodes_instr.2 ⟨l, b, hb, List.mem_of_mem_filter hi⟩
  exact f.wordLiteral hf hnode

theorem Func.wordLiteral_term (hf : ∀ n ∈ f.literals, IsWord n) (hb : f.block? l = some b)
    {t : Terminator} (ht : b.term = some t) : ∀ x ∈ t.uses, x.WordLiteral := by
  have hnode : .term t ∈ f.nodes := mem_nodes_term hb ht
  exact f.wordLiteral hf hnode

end Literals

/-! ## What is held -/

/-- The variables hold words. -/
def Env.HoldsWords (env : Env) : Prop := ∀ v n, env.get? v = some n → IsWord n

/-- Memory has words at words, and words were written. -/
structure World.HoldsWords (w : World) : Prop where
  memory : ∀ a n : Int, w.memory[a]? = some n → IsWord a ∧ IsWord n
  output : ∀ n ∈ w.output, IsWord n

namespace Env.HoldsWords

theorem empty : Env.HoldsWords .empty := fun _ _ h => by cases h

theorem insert (h : env.HoldsWords) (v : Var) (hn : IsWord n) :
    Env.HoldsWords (Table.insert env v n) := by
  intro x m hx
  rw [Table.get?_insert] at hx
  split at hx
  · cases hx
    exact hn
  · exact h x m hx

theorem assign (h : env.HoldsWords) (hvalues : ∀ e ∈ values, IsWord e.2) :
    (env.assign values).HoldsWords := by
  induction values generalizing env with
  | nil => exact h
  | cons e rest ih =>
    obtain ⟨he, hrest⟩ := List.forall_mem_cons.1 hvalues
    exact ih (h.insert e.1 he) hrest

theorem value (h : env.HoldsWords) {x : Operand} (hx : x.WordLiteral) : IsWord (env.value x) := by
  cases x with
  | const n => exact hx n rfl
  | undefined => exact isWord_zero
  | var v =>
    show IsWord (env.getD v 0)
    cases hv : env.get? v with
    | none =>
      rw [Table.getD, hv]
      exact isWord_zero
    | some n =>
      rw [Table.getD_of_get? hv]
      exact h v n hv

end Env.HoldsWords

theorem holdsWords_bindParams (f : Func) (args : List Int) : (bindParams f args).HoldsWords := by
  rw [bindParams_eq]
  refine Env.HoldsWords.empty.assign fun e he => ?_
  obtain ⟨p, _, rfl⟩ := List.mem_map.1 he
  show IsWord ((args[p.2]?.map wrap).getD 0)
  cases args[p.2]? with
  | none => exact isWord_zero
  | some n => exact isWord_wrap n

/-! ## Steps of an activation -/

/-- An activation with words in its variables and in all that it may run. -/
structure Frame.HoldsWords (fr : Frame) : Prop where
  env : fr.env.HoldsWords
  code : ∀ i ∈ fr.code, ∀ x ∈ i.uses, x.WordLiteral
  term : ∀ t, fr.term = some t → ∀ x ∈ t.uses, x.WordLiteral
  func : ∀ n ∈ fr.func.literals, IsWord n

/-- An effect that leaves words. -/
def Effect.HoldsWords : Effect → Prop
  | assign _ n w => IsWord n ∧ w.HoldsWords
  | pass w => w.HoldsWords
  | call .. | trap _ => True

theorem Instr.effect_holdsWords (henv : env.HoldsWords) (hw : w.HoldsWords)
    (hi : ∀ x ∈ i.uses, x.WordLiteral) : (i.effect env.value w).HoldsWords := by
  have hvalue : ∀ x ∈ i.uses, IsWord (env.value x) := fun x hx => henv.value (hi x hx)
  cases i with
  | binary d op l r =>
    cases he : evalBinary op (env.value l) (env.value r) with
    | error e => simp [effect, he, Effect.HoldsWords]
    | ok n =>
      simp only [effect, he]
      exact ⟨isWord_evalBinary he, hw⟩
  | unary d op x =>
    cases he : evalUnary op (env.value x) with
    | error e => simp [effect, he, Effect.HoldsWords]
    | ok n =>
      simp only [effect, he]
      exact ⟨isWord_evalUnary he, hw⟩
  | copy d x => exact ⟨hvalue x (.head _), hw⟩
  | load d a =>
    refine ⟨?_, hw⟩
    rw [Std.TreeMap.getD_eq_getD_getElem?]
    cases hcell : w.memory[env.value a]? with
    | none => exact isWord_zero
    | some n => exact (hw.memory _ n hcell).2
  | store a v =>
    refine ⟨fun k n hk => ?_, hw.output⟩
    rw [Std.TreeMap.getElem?_insert] at hk
    split at hk
    · rename_i heq
      cases hk
      rw [← Std.LawfulEqCmp.eq_of_compare heq]
      exact ⟨hvalue a (.head _), hvalue v (.tail _ (.head _))⟩
    · exact hw.memory k n hk
  | call d g args => trivial
  | read d =>
    cases hin : w.inputs with
    | nil =>
      simp only [effect, hin]
      exact ⟨isWord_zero, hw⟩
    | cons n inputs =>
      simp only [effect, hin]
      exact ⟨isWord_wrap n, hw.memory, hw.output⟩
  | write v =>
    refine ⟨hw.memory, fun n hn => ?_⟩
    rcases Array.mem_push.1 hn with hn | rfl
    · exact hw.output n hn
    · exact hvalue v (.head _)
  | phi φ => exact hw

/-- The values that phis take are words. -/
theorem isWord_of_phiValues {p : Label} {φs : List Phi} (henv : env.HoldsWords)
    (hφs : ∀ φ ∈ φs, ∀ a ∈ φ.incoming, a.value.WordLiteral) (h : phiValues env p φs = .ok values) :
    ∀ e ∈ values, IsWord e.2 := by
  induction φs generalizing values with
  | nil =>
    cases h
    exact List.forall_mem_nil _
  | cons φ φs ih =>
    rw [phiValues] at h
    cases hx : φ.valueFrom? p with
    | none => simp [hx] at h
    | some x =>
      simp only [hx] at h
      obtain ⟨rest, hrest, h⟩ := bind_eq_ok.1 h
      cases h
      obtain ⟨hφ, hφs⟩ := List.forall_mem_cons.1 hφs
      obtain ⟨a, ha, rfl⟩ := Option.map_eq_some_iff.1 hx
      refine List.forall_mem_cons.2 ⟨?_, ih hφs hrest⟩
      exact henv.value (hφ a (List.mem_of_find?_eq_some ha))

theorem Frame.enter_holdsWords {f : Func} {prev : Option Label} {l : Label}
    (hf : ∀ n ∈ f.literals, IsWord n) (henv : env.HoldsWords)
    (h : Frame.enter f env prev l = .ok fr) : fr.HoldsWords := by
  unfold Frame.enter at h
  cases hb : f.block? l with
  | none => simp [hb] at h
  | some b =>
    have hframe : ∀ {values}, (∀ e ∈ values, IsWord e.2) →
        Frame.HoldsWords ⟨f, l, b.body, b.term, env.assign values⟩ := fun hvalues =>
      ⟨henv.assign hvalues, fun i hi => f.wordLiteral_body hf hb hi,
        fun t ht => f.wordLiteral_term hf hb ht, hf⟩
    cases prev with
    | none =>
      simp only [hb] at h
      cases h
      exact hframe (List.forall_mem_nil _)
    | some p =>
      simp only [hb] at h
      obtain ⟨values, hvalues, h⟩ := bind_eq_ok.1 h
      cases h
      refine hframe (isWord_of_phiValues henv (fun φ hφ a ha => ?_) hvalues)
      have hφ : .instr (.phi φ) ∈ f.nodes :=
        Func.mem_nodes_instr.2 ⟨l, b, hb, phi_mem_of_leading hφ⟩
      exact f.wordLiteral hf hφ _ (List.mem_map_of_mem ha)

/-- What an activation does next, with words only. -/
def Act.HoldsWords : Act → Prop
  | go fr w => fr.HoldsWords ∧ w.HoldsWords
  | call _ _ k => k.frame.HoldsWords
  | ret v => ∀ n ∈ v, IsWord n
  | stop _ => True

theorem Frame.act_holdsWords (h : fr.HoldsWords) (hw : w.HoldsWords) : (fr.act w).HoldsWords := by
  obtain ⟨f, l, code, term, env⟩ := fr
  cases code with
  | cons i code =>
    obtain ⟨hi, hcode⟩ := List.forall_mem_cons.1 h.code
    have heff := Instr.effect_holdsWords h.env hw hi
    show (Frame.after _ code (i.effect env.value w)).HoldsWords
    cases he : i.effect env.value w with
    | assign d n w' =>
      rw [he] at heff
      exact ⟨⟨h.env.insert d heff.1, hcode, h.term, h.func⟩, heff.2⟩
    | pass w' =>
      rw [he] at heff
      exact ⟨⟨h.env, hcode, h.term, h.func⟩, heff⟩
    | call d g args => exact ⟨h.env, hcode, h.term, h.func⟩
    | trap e => trivial
  | nil =>
    cases term with
    | none => trivial
    | some t =>
      have ht := h.term t rfl
      show (Frame.leaveBy _ w (t.exit env.value)).HoldsWords
      cases hexit : t.exit env.value with
      | goto x =>
        show (Frame.goto _ w x).HoldsWords
        unfold Frame.goto
        cases henter : Frame.enter f env (some l) x with
        | error e => trivial
        | ok fr => exact ⟨Frame.enter_holdsWords h.func h.env henter, hw⟩
      | leave v =>
        cases t with
        | jump x => cases hexit
        | branch c x y => cases hexit
        | ret x =>
          cases hexit
          intro n hn
          obtain ⟨y, rfl, rfl⟩ := Option.map_eq_some_iff.1 (Option.mem_def.1 hn)
          exact h.env.value (ht y (.head _))

theorem Caller.resume_holdsWords {k : Caller} {v : Option Int} (h : k.frame.HoldsWords)
    (hv : ∀ n ∈ v, IsWord n) : (k.resume v).HoldsWords := by
  have hn : IsWord (v.getD 0) := by
    cases v with
    | none => exact isWord_zero
    | some n => exact hv n rfl
  unfold Caller.resume
  split
  · exact h
  · exact ⟨h.env.insert _ hn, h.code, h.term, h.func⟩

/-! ## Steps of the machine -/

/-- All activations hold words, and so does what they share. -/
structure State.HoldsWords (s : State) : Prop where
  activations : ∀ fr ∈ s.activationsNow, fr.HoldsWords
  world : s.world.HoldsWords

/-- A step to words only. -/
def Progress.HoldsWords : Progress → Prop
  | running s | failed _ s => s.HoldsWords
  | returned v s => (∀ n ∈ v, IsWord n) ∧ s.HoldsWords

section Machine

variable {p : Program} {s : State}

theorem Program.activate_holdsWords (hp : ∀ n ∈ p.literals, IsWord n) {maxDepth : Int}
    {name : String} {args : List Int} {depth : Nat}
    (h : p.activate maxDepth name args depth = .ok fr) : fr.HoldsWords := by
  obtain ⟨f, hf, h⟩ := Program.start_of_activate h
  refine Frame.enter_holdsWords (fun n hn => hp n ?_) (holdsWords_bindParams f args) h
  exact List.mem_flatMap.2 ⟨f, Table.mem_values.2 ⟨name, hf⟩, hn⟩

theorem State.step_holdsWords (hp : ∀ n ∈ p.literals, IsWord n) (maxDepth : Int)
    (h : s.HoldsWords) : (s.step p maxDepth).HoldsWords := by
  obtain ⟨hframe, hcallers⟩ := List.forall_mem_cons.1 h.activations
  have hact := Frame.act_holdsWords hframe h.world
  have hstate : s.step p maxDepth = _ := step_state p maxDepth s.frame s.callers s.world
  rw [hstate]
  cases he : s.frame.act s.world with
  | go fr w =>
    rw [he] at hact
    exact ⟨List.forall_mem_cons.2 ⟨hact.1, hcallers⟩, hact.2⟩
  | call g args k =>
    rw [he] at hact
    cases hstart : p.activate maxDepth g args (s.callers.length + 1) with
    | error e =>
      simp only [hstart]
      exact h
    | ok fr =>
      simp only [hstart]
      have hnew := p.activate_holdsWords hp hstart
      exact ⟨List.forall_mem_cons.2 ⟨hnew, List.forall_mem_cons.2 ⟨hact, hcallers⟩⟩, h.world⟩
  | ret v =>
    rw [he] at hact
    cases hks : s.callers with
    | nil =>
      refine ⟨hact, List.forall_mem_cons.2 ⟨hframe, List.forall_mem_nil _⟩, h.world⟩
    | cons k ks =>
      rw [hks] at hcallers
      obtain ⟨hk, hks⟩ := List.forall_mem_cons.1 hcallers
      exact ⟨List.forall_mem_cons.2 ⟨Caller.resume_holdsWords hk hact, hks⟩, h.world⟩
  | stop e => exact h

/-- All states of a run hold words. -/
theorem Program.Visits.holdsWords {spec : RunSpec} (h : p.Visits spec s)
    (hp : ∀ n ∈ p.literals, IsWord n) : s.HoldsWords := by
  induction h with
  | start hstart =>
    have hframe := p.activate_holdsWords hp hstart
    refine ⟨List.forall_mem_cons.2 ⟨hframe, List.forall_mem_nil _⟩, ⟨fun a n hcell => ?_, ?_⟩⟩
    · cases Std.TreeMap.getElem?_emptyc.symm.trans hcell
    · exact fun n hn => (Array.not_mem_empty n hn).elim
  | step _ hstep ih =>
    have hprogress := State.step_holdsWords hp spec.maxDepth ih
    rwa [hstep] at hprogress

/-- What a run leaves is made of words. -/
structure RunResult.HoldsWords (r : RunResult) : Prop where
  value : ∀ n, r.result = .ok (some n) → IsWord n
  memory : ∀ a n : Int, r.memory[a]? = some n → IsWord a ∧ IsWord n
  output : ∀ n ∈ r.output, IsWord n

theorem RunResult.holdsWords_of_state (h : s.HoldsWords) {result : Except RunError (Option Int)}
    (hvalue : ∀ n, result = .ok (some n) → IsWord n) (steps : Nat) :
    RunResult.HoldsWords ⟨result, s.output, s.memory, steps⟩ :=
  ⟨hvalue, h.world.memory, h.world.output⟩

theorem State.holdsWords_run (hp : ∀ n ∈ p.literals, IsWord n) (maxDepth limit : Int)
    (budget done : Nat) (h : s.HoldsWords) :
    (State.run p maxDepth limit budget done s).HoldsWords := by
  induction budget generalizing done s with
  | zero => exact RunResult.holdsWords_of_state h (fun n hn => by cases hn) _
  | succ budget ih =>
    have hprogress := State.step_holdsWords hp maxDepth h
    rw [State.run]
    cases hstep : s.step p maxDepth with
    | running s' =>
      rw [hstep] at hprogress
      exact ih _ hprogress
    | returned v s' =>
      rw [hstep] at hprogress
      refine RunResult.holdsWords_of_state hprogress.2 (fun n hn => ?_) _
      cases hn
      exact hprogress.1 n rfl
    | failed e s' =>
      rw [hstep] at hprogress
      exact RunResult.holdsWords_of_state hprogress (fun n hn => by cases hn) _

end Machine

/-! ## Runs -/

/-- If the literals of a program are words, then at every moment of a run the variables of all
activations, the memory addresses and cells and the values written are words, and so is a value that
an activation returns; and the run leaves words, however it ends. Arguments and inputs may be any
integers. -/
theorem Program.run_holdsWords (p : Program) (hp : ∀ n ∈ p.literals, IsWord n) (spec : RunSpec) :
    (∀ s, p.Visits spec s →
      (∀ fr ∈ s.activationsNow, ∀ v n, fr.env.get? v = some n → IsWord n) ∧
      (∀ a n : Int, s.memory[a]? = some n → IsWord a ∧ IsWord n) ∧
      (∀ n ∈ s.output, IsWord n) ∧
      ∀ n, s.frame.act s.world = .ret (some n) → IsWord n) ∧
    (p.run spec).HoldsWords := by
  refine ⟨fun s hs => ?_, ?_⟩
  · have h := hs.holdsWords hp
    have hact := Frame.act_holdsWords (h.activations s.frame (.head _)) h.world
    refine ⟨fun fr hfr => (h.activations fr hfr).env, h.world.memory, h.world.output,
      fun n hret => ?_⟩
    rw [hret] at hact
    exact hact n rfl
  · unfold Program.run
    cases hstart : p.activate spec.maxDepth spec.entry spec.args 0 with
    | error e =>
      refine ⟨fun n hn => ?_, fun a n hcell => ?_, fun n hn => (Array.not_mem_empty n hn).elim⟩
      · cases hn
      · cases Std.TreeMap.getElem?_emptyc.symm.trans hcell
    | ok fr => exact State.holdsWords_run hp _ _ _ _ ((Program.Visits.start hstart).holdsWords hp)

/-- A function that divides the least word by -1, stores its argument there, and calls itself with
an input. -/
def overflow : Program :=
  ⟨Table.ofList [("main",
    { name := "main"
      params := ["n"]
      blocks := Table.ofList [("entry",
        { name := "entry"
          instrs := [.binary ⟨"x", none⟩ "div" (.const (-0x8000000000000000)) (.const (-1)),
            .store (.var ⟨"x", none⟩) (.var ⟨"n", none⟩), .write (.var ⟨"n", none⟩),
            .read ⟨"y", none⟩, .call (some ⟨"z", none⟩) "main" [.var ⟨"y", none⟩]]
          term := some (.ret (some (.var ⟨"z", none⟩))) })] })]⟩

/-- Argument and input are out of range, and the run ends in an error at the third activation. -/
theorem Program.run_holdsWords_overflow :
    (∀ n ∈ overflow.literals, IsWord n) ∧
      (overflow.run ⟨"main", [0x18000000000000000], [-0x8000000000000001], 100, 1⟩).HoldsWords :=
  ⟨by decide, (overflow.run_holdsWords (by decide) _).2⟩

/-- What is written there, and why it ends. -/
example : (overflow.run ⟨"main", [0x18000000000000000], [-0x8000000000000001], 100, 1⟩).output
    = #[-0x8000000000000000, 0x7fffffffffffffff] := by
  decide +kernel

end ThreeAddress

import Mathlib
import ThreeAddress.Proofs.Reading
import ThreeAddress.Proofs.Stages

/-!
# Whole programs in the pipeline

The functions of a program go through the pipeline one after the other, and each result takes the
place of the function that it was made from. So a program whose functions all come out well ends as
it did before (`optimize_spec`). Programs that are read from a text with no function in SSA form
always do (`optimize_endsAs`); a function that is written in SSA form has to suit the stages
(`optimize_settles`), which not all of them do (`optimize_breaks`).
-/

namespace ThreeAddress

variable {fs : List Func} {p : Program}

/-- The runs of `p'` end if and as those of `p` do. -/
def Program.EndsAs (p p' : Program) : Prop :=
  ∀ spec : RunSpec, ((∃ n, (p.run (spec.withBudget n)).Finished) ↔
    ∃ n, (p'.run (spec.withBudget n)).Finished) ∧
    ∀ n n', (p.run (spec.withBudget n)).Finished → (p'.run (spec.withBudget n')).Finished →
      (p'.run (spec.withBudget n')).ending = (p.run (spec.withBudget n)).ending

theorem Program.SameEndings.endsAs {p' : Program} (h : p.SameEndings p') : p.EndsAs p' :=
  fun spec => ⟨h.exists_finished_iff spec, fun _ _ hn hn' => h.ending_eq hn hn'⟩

/-! ## One function after the other -/

variable {opts : Options}

/-- Unless a use is refused, all functions come out. -/
theorem optimizeAll_spec (h : ∀ f ∈ fs, f.Source ∨ f.Fit opts) :
    (opts.policy = .refuse ∧ ∃ e, (optimizeAll opts fs).1 = .error e ∧ e.IsUndefinedUse) ∨
      ∃ done, (optimizeAll opts fs).1 = .ok done ∧
      List.Forall₂ (fun f d => f.ActsAs d.1) fs done := by
  induction fs with
  | nil => exact .inr ⟨[], rfl, .nil⟩
  | cons f fs ih =>
    obtain ⟨hf, hfs⟩ := List.forall_mem_cons.1 h
    unfold optimizeAll
    rcases Edit.optimize_leaves hf with ⟨hpolicy, e, he, hundef⟩ | ⟨report, f', ⟨hresult, hfunc⟩, _,
      hacts⟩
    · refine .inl ⟨hpolicy, e, ?_, hundef⟩
      simp only [he]
    · simp only [hresult, hfunc]
      rcases ih hfs with ⟨hpolicy, e, he, hundef⟩ | ⟨done, hdone, hall⟩
      · refine .inl ⟨hpolicy, e, ?_, hundef⟩
        rw [he]
        rfl
      · refine .inr ⟨(f', report) :: done, ?_, .cons hacts hall⟩
        rw [hdone]
        rfl

/-- Functions that act alike take the places of those with their names. -/
theorem sameEndings_setFunctions {done : List (Func × FunctionReport)}
    (h : List.Forall₂ (fun f d => f.ActsAs d.1) fs done) (nodup : (fs.map (·.name)).Nodup)
    (hp : ∀ f ∈ fs, p.function? f.name = some f) :
    p.SameEndings (done.foldl (fun p d => p.setFunction d.1) p) := by
  induction h generalizing p with
  | nil => exact .refl p
  | @cons f d fs done hacts _ ih =>
    obtain ⟨hf, hfs⟩ := List.forall_mem_cons.1 hp
    obtain ⟨hnot, nodup⟩ := List.nodup_cons.1 nodup
    have hrep : Replaces p (p.setFunction d.1) f.name f d.1 := by
      rw [Program.setFunction, hacts.name_eq]
      exact .insert hf d.1
    refine (hacts.interchangeable _ _ _ hrep).trans (ih nodup fun g hg => ?_)
    -- The functions that follow have other names.
    rw [hrep.others g.name fun heq => hnot (List.mem_map.2 ⟨g, hg, heq⟩)]
    exact hfs g hg

namespace Program

/-- A program whose functions can be dealt with is taken through the pipeline, unless a use is
refused, and keeps its endings. -/
theorem optimize_spec (hname : ∀ {key f}, p.function? key = some f → f.name = key)
    (h : ∀ f ∈ p.functions.values, f.Source ∨ f.Fit opts) :
    (opts.policy = .refuse ∧ ∃ e, (p.optimize opts).result = .error e ∧ e.IsUndefinedUse) ∨
      ∃ p' reports, (p.optimize opts).result = .ok (p', reports) ∧ p.SameEndings p' := by
  unfold optimize
  rcases optimizeAll_spec h with ⟨hpolicy, e, he, hundef⟩ | ⟨done, hdone, hall⟩
  · refine .inl ⟨hpolicy, e, ?_, hundef⟩
    simp only [he]
    rfl
  · refine .inr ⟨done.foldl (fun p d => p.setFunction d.1) p, done.map Prod.snd, ?_,
      sameEndings_setFunctions hall ?_ fun f hf => ?_⟩
    · simp only [hdone]
      rfl
    · rw [Table.map_values hname]
      exact p.functions.nodup_keys
    · obtain ⟨key, hkey⟩ := Table.mem_values.1 hf
      rw [hname hkey]
      exact hkey

/-! ## Programs that are read -/

/-- The text of a loop through the entry. -/
def countdownText : String :=
  "function main(n) \x7b
  entry:
  n = sub n, 1
  write n
  branch n, entry, done
  done:
  return
  \x7d"

/-- A program that is read with no function in SSA form can be taken through the pipeline with any
options: nothing but a use without a definition stops it, and that only if such uses are refused.
The runs of the result end under some budget if and only if those of the program do, and then
alike. -/
theorem optimize_endsAs (source : String) (p : Program) (hp : Text.parse source = .ok p)
    (hssa : ∀ f ∈ p.functions.values, f.ssa = false) (opts : Options) :
    (∀ e, (p.optimize opts).result = .error e → opts.policy = .refuse ∧ e.IsUndefinedUse) ∧
      ∀ p' reports, (p.optimize opts).result = .ok (p', reports) → p.EndsAs p' := by
  have hsource : ∀ f ∈ p.functions.values, f.Source ∨ f.Fit opts := by
    intro f hf
    obtain ⟨key, hkey⟩ := Table.mem_values.1 hf
    exact .inl ((Text.parse_spec hp hkey).2.source (hssa f hf))
  rcases optimize_spec (fun hf => (Text.parse_spec hp hf).1) hsource with
    ⟨hpolicy, e, he, hundef⟩ | ⟨q, reports, hq, hsame⟩
  · rw [he]
    refine ⟨fun e' he' => ?_, fun p' reports h => (by cases h)⟩
    cases he'
    exact ⟨hpolicy, hundef⟩
  · rw [hq]
    refine ⟨fun e he => (by cases he), fun p' reports h => ?_⟩
    cases h
    exact hsame.endsAs

theorem optimize_endsAs_countdown :
    Text.parse countdownText = .ok ⟨Table.ofList [("main", Func.countdown)]⟩ ∧
      ∃ p' reports, (Program.optimize ⟨Table.ofList [("main", Func.countdown)]⟩
          { constants := true, motion := true, rounds := 2, prune := true }).result = .ok (p',
            reports) ∧
        Program.EndsAs ⟨Table.ofList [("main", Func.countdown)]⟩ p' := by
  have hread : Text.parse countdownText = .ok ⟨Table.ofList [("main", Func.countdown)]⟩ := by cbv
  obtain ⟨hfault, hends⟩ := optimize_endsAs countdownText _ hread (by decide)
    { constants := true, motion := true, rounds := 2, prune := true }
  refine ⟨hread, ?_⟩
  cases hresult : (Program.optimize ⟨Table.ofList [("main", Func.countdown)]⟩
      { constants := true, motion := true, rounds := 2, prune := true }).result with
  | error e => cases (hfault e hresult).1
  | ok r => exact ⟨r.1, r.2, rfl, hends r.1 r.2 hresult⟩

/-! ## Programs that are read in SSA form -/

/-- The text of two variables that change places in each round. -/
def swapText : String :=
  "function main(a, b) \x7b
  entry:
  branch a$0, loop, done
  loop:
  a$1 = phi [entry: a$0, loop: b$1]
  b$1 = phi [entry: b$0, loop: a$1]
  write a$1
  t$1 = read
  branch t$1, loop, done
  done:
  return
  \x7d"

/-- A program that is read and passes the check can be taken through the pipeline with any options,
if undefined uses are not refused and the functions in SSA form suit the stages. Whatever run of the
program ends within its budget, the same run of the result ends alike, given enough steps. -/
theorem optimize_settles (source : String) (p : Program) (hp : Text.parse source = .ok p)
    (hcheck : p.check = .ok ()) (opts : Options) (hpolicy : opts.policy = .sentinel)
    (hsuits : ∀ f ∈ p.functions.values, f.ssa = true → f.Suits opts) :
    ∃ p' reports, (p.optimize opts).result = .ok (p', reports) ∧
      ∀ spec, (p.run spec).Finished → p'.Settles spec (p.run spec).ending := by
  have hfit : ∀ f ∈ p.functions.values, f.Source ∨ f.Fit opts := by
    intro f hf
    obtain ⟨key, hkey⟩ := Table.mem_values.1 hf
    have hread := (Text.parse_spec hp hkey).2
    cases hssa : f.ssa with
    | false => exact .inl (hread.source hssa)
    | true =>
      have hform := checkAll_eq_ok.1 hcheck f hf
      rw [Func.check, if_pos hssa] at hform
      exact .inr ⟨⟨Func.isSsa_iff.2 hform, hread.counted hssa⟩, hsuits f hf hssa⟩
  rcases optimize_spec (fun hf => (Text.parse_spec hp hf).1) hfit with
    ⟨hrefuse, _⟩ | ⟨p', reports, hresult, hsame⟩
  · rw [hpolicy] at hrefuse
    cases hrefuse
  · exact ⟨p', reports, hresult, fun spec hfin => hsame.settles hfin⟩

theorem swapLoop_suits (opts : Options) : Func.swapLoop.Suits opts where
  entryPhiFree _ := by decide
  entry _ := by
    rintro ⟨p, _, hp⟩
    obtain ⟨b, hb, hnext⟩ := Func.block_of_mem_next hp
    have hnone : ∀ b ∈ Func.swapLoop.blocks.values, Func.swapLoop.entry ∉ b.successors := by decide
    exact hnone b (Table.mem_values.2 ⟨p, hb⟩) hnext
  undefined _ := by
    intro l b φ a _ hb hφ ha hvalue
    have hnone : ∀ b ∈ Func.swapLoop.blocks.values, ∀ φ ∈ b.phis, ∀ a ∈ φ.incoming,
        a.value ≠ .undefined := by decide
    exact absurd hvalue (hnone b (Table.mem_values.2 ⟨l, hb⟩) φ hφ a ha)

theorem optimize_settles_swapLoop :
    Text.parse swapText = .ok ⟨Table.ofList [("main", Func.swapLoop)]⟩ ∧ Func.swapLoop.ssa = true ∧
      ∃ p' reports, (Program.optimize ⟨Table.ofList [("main", Func.swapLoop)]⟩
          { constants := true, motion := true, rounds := 2 }).result = .ok (p', reports) ∧
        ∀ spec, (Program.run ⟨Table.ofList [("main", Func.swapLoop)]⟩ spec).Finished →
          p'.Settles spec (Program.run ⟨Table.ofList [("main", Func.swapLoop)]⟩ spec).ending := by
  have hread : Text.parse swapText = .ok ⟨Table.ofList [("main", Func.swapLoop)]⟩ := by cbv
  refine ⟨hread, rfl, optimize_settles swapText _ hread rfl _ rfl fun f hf _ => ?_⟩
  obtain rfl : f = Func.swapLoop := List.mem_singleton.1 hf
  exact swapLoop_suits _

/-- The text of a loop through the entry, with a phi that says nothing of the start. -/
def entryPhiText : String :=
  "function main() \x7b
  entry:
  x$1 = phi [loop: 1]
  write x$1
  branch x$1, done, loop
  loop:
  jump entry
  done:
  return
  \x7d"

/-- The text of a loop through the entry, with code that does the same in each round. -/
def entryLoopText : String :=
  "function main() \x7b
  entry:
  x$1 = add 1, 2
  write x$1
  t$1 = load 0
  branch t$1, entry, done
  done:
  return
  \x7d"

/-- The text of a loop in which a value is undefined in the second round. -/
def lostValueText : String :=
  "function main() \x7b
  entry:
  jump loop
  loop:
  i$1 = phi [entry: 2, loop: i$2]
  x$1 = phi [entry: 7, loop: undef]
  write x$1
  i$2 = sub i$1, 1
  branch i$2, loop, done
  done:
  return
  \x7d"

/-- Each stage has functions that do not suit it, although they pass the check. With a phi at the
entry, blocks are deleted that the entry still leads to; a loop that starts at the entry gets no
preheader; and a value that an edge makes undefined keeps the value of the last round. -/
theorem optimize_breaks :
    (∃ p ∈ (Text.parse entryPhiText).toOption, p.check.isOk ∧
      (p.optimize (.ofLevel .constants)).result.toOption = none) ∧
    (∃ p ∈ (Text.parse entryLoopText).toOption, p.check.isOk ∧
      (p.optimize (.ofLevel .motion)).result.toOption = none) ∧
    ∃ p ∈ (Text.parse lostValueText).toOption, p.check.isOk ∧ (p.run {}).result.isOk ∧
    (p.run {}).output = #[7, 0] ∧
      ∃ r ∈ (p.optimize (.ofLevel .none)).result.toOption, (r.1.run {}).result.isOk ∧
      (r.1.run {}).output = #[7, 7] := by
  decide +kernel

end Program

end ThreeAddress

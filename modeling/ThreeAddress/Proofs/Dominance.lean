import Mathlib.Logic.Relation
import ThreeAddress.Graph.Basic

/-!
# Dominance by paths

A trail is a way from the entry to a block, a walk one between any two blocks. A block dominates
another if it lies on every trail to it. This module has the theory of that relation on any graph,
reducible or not:

1. `Dominates.trans`, `Dominates.antisymm`, `dominates_total`: the dominators of a reachable block
   form a chain.
2. `dominates_of_edge`: what strictly dominates a block dominates its predecessors.
3. `exists_closest_dominator`: of the strict dominators of a block one is dominated by all the
   others.
-/

namespace ThreeAddress

variable {a b : Label} {xs : List Label}

namespace Graph

variable {c x z : Label} {p : Nat → Label} {earlier later : List Label} {n : Nat}

/-- `g.Trail xs b`: the blocks `xs`, the latest first, lead from the entry to `b`. -/
inductive Trail (g : Graph) : List Label → Label → Prop
  | entry : Trail g [g.entry] g.entry
  | step {xs : List Label} {a b : Label} : Trail g xs a → b ∈ g.next a → Trail g (b :: xs) b

/-- Some trail leads to the block. -/
def Reachable (g : Graph) (b : Label) : Prop := ∃ xs, g.Trail xs b

/-- Every trail to `b` goes through `a`. -/
def Dominates (g : Graph) (a b : Label) : Prop := ∀ xs, g.Trail xs b → a ∈ xs

/-- `a` dominates `b` and is another block. -/
def StrictlyDominates (g : Graph) (a b : Label) : Prop := a ≠ b ∧ g.Dominates a b

/-- Control may go from `a` to `b`. -/
def Leads (g : Graph) (a b : Label) : Prop := Relation.ReflTransGen (fun p s => s ∈ g.next p) a b

variable {g : Graph}

/-! ## Trails -/

theorem Trail.self_mem (h : g.Trail xs b) : b ∈ xs := by
  cases h with
  | entry => exact .head _
  | step _ _ => exact .head _

theorem Trail.entry_mem (h : g.Trail xs b) : g.entry ∈ xs := by
  induction h with
  | entry => exact .head _
  | step _ _ ih => exact .tail _ ih

theorem Trail.head? (h : g.Trail xs b) : xs.head? = some b := by
  cases h with
  | entry => rfl
  | step _ _ => rfl

theorem Trail.exists_cons (h : g.Trail xs b) : ∃ ys, xs = b :: ys := by
  cases h with
  | entry => exact ⟨[], rfl⟩
  | step _ _ => exact ⟨_, rfl⟩

theorem Trail.end_unique (ha : g.Trail xs a) (hb : g.Trail xs b) : a = b :=
  Option.some.inj (ha.head?.symm.trans hb.head?)

theorem Trail.last_step (h : g.Trail (c :: xs) b) (hne : xs ≠ []) :
    c = b ∧ ∃ a, g.Trail xs a ∧ b ∈ g.next a := by
  cases h with
  | entry => exact absurd rfl hne
  | step h hb => exact ⟨rfl, _, h, hb⟩

/-- A trail can be cut at any of its blocks. -/
theorem Trail.cut (h : g.Trail xs b) (ha : a ∈ xs) :
    ∃ later earlier, xs = later ++ earlier ∧ g.Trail earlier a := by
  induction h with
  | entry =>
    have : a = g.entry := List.mem_singleton.1 ha
    subst this
    exact ⟨[], _, rfl, .entry⟩
  | @step xs c b h hb ih =>
    rcases List.mem_cons.1 ha with rfl | ha
    · exact ⟨[], _, rfl, .step h hb⟩
    · obtain ⟨later, earlier, rfl, hearlier⟩ := ih ha
      exact ⟨b :: later, earlier, rfl, hearlier⟩

theorem Trail.tail_at (h : g.Trail (later ++ a :: earlier) b) : g.Trail (a :: earlier) a := by
  induction later generalizing b with
  | nil =>
    have : a = b := Option.some.inj h.head?
    exact this ▸ h
  | cons c later ih =>
    obtain ⟨_, _, h, _⟩ := Trail.last_step h (by simp)
    exact ih h

/-- What a trail does after it left `a` can follow any other trail to `a`. -/
theorem Trail.resume {ys : List Label} (h : g.Trail (later ++ a :: earlier) b) (ha : g.Trail ys a) :
    g.Trail (later ++ ys) b := by
  induction later generalizing b with
  | nil =>
    have : b = a := by cases h <;> rfl
    subst this
    exact ha
  | cons c later ih =>
    obtain ⟨rfl, _, h, hb⟩ := Trail.last_step h (by simp)
    exact .step (ih h) hb

/-- A trail without detours. -/
theorem Trail.simple (h : g.Trail xs b) : ∃ ys, g.Trail ys b ∧ ys.Nodup ∧ ∀ a ∈ ys, a ∈ xs := by
  induction h with
  | entry => exact ⟨_, .entry, by simp, fun a h => h⟩
  | @step xs c b h hb ih =>
    obtain ⟨ys, hys, nodup, sub⟩ := ih
    by_cases hmem : b ∈ ys
    · obtain ⟨later, earlier, rfl, hearlier⟩ := hys.cut hmem
      refine ⟨earlier, hearlier, (List.nodup_append.1 nodup).2.1, fun a ha => ?_⟩
      exact .tail _ (sub a (List.mem_append_right _ ha))
    · refine ⟨b :: ys, .step hys hb, List.nodup_cons.2 ⟨hmem, nodup⟩, fun a ha => ?_⟩
      rcases List.mem_cons.1 ha with rfl | ha
      · exact .head _
      · exact .tail _ (sub a ha)

theorem Trail.reachable_of_mem (h : g.Trail xs b) (ha : a ∈ xs) : g.Reachable a := by
  obtain ⟨_, earlier, _, hearlier⟩ := h.cut ha
  exact ⟨earlier, hearlier⟩

theorem reachable_entry : g.Reachable g.entry := ⟨_, .entry⟩

theorem Reachable.step (h : g.Reachable a) (hb : b ∈ g.next a) : g.Reachable b := by
  obtain ⟨xs, hxs⟩ := h
  exact ⟨_, .step hxs hb⟩

/-- A reachable block other than the entry has a reachable predecessor. -/
theorem Reachable.exists_pred (h : g.Reachable b) (hb : b ≠ g.entry) :
    ∃ a, g.Reachable a ∧ b ∈ g.next a := by
  obtain ⟨xs, hxs⟩ := h
  cases hxs with
  | entry => exact absurd rfl hb
  | step h hn => exact ⟨_, ⟨_, h⟩, hn⟩

/-! ## Walks -/

/-- The blocks `p 0, …, p n` lead from `x` to `z`. -/
structure Walk (g : Graph) (p : Nat → Label) (n : Nat) (x z : Label) : Prop where
  start : p 0 = x
  stop : p n = z
  step : ∀ i < n, p (i + 1) ∈ g.next (p i)

theorem Walk.reachable (w : g.Walk p n x z) (hx : g.Reachable x) {i : Nat} (hi : i ≤ n) :
    g.Reachable (p i) := by
  induction i with
  | zero => exact w.start ▸ hx
  | succ i ih => exact (ih (Nat.le_of_succ_le hi)).step (w.step i hi)

/-- The block `b` and then the path `p 0, p 1, …`. -/
def consWalk (b : Label) (p : Nat → Label) (i : Nat) : Label := if i = 0 then b else p (i - 1)

theorem consWalk_succ (b : Label) (p : Nat → Label) (i : Nat) : consWalk b p (i + 1) = p i :=
  if_neg (Nat.succ_ne_zero i)

theorem Walk.cons (w : g.Walk p n x z) (hx : x ∈ g.next b) : g.Walk (consWalk b p) (n + 1) b z where
  start := rfl
  stop := (consWalk_succ b p n).trans w.stop
  step i hi := by
    rw [consWalk_succ]
    cases i with
    | zero => exact w.start ▸ hx
    | succ i =>
      rw [consWalk_succ]
      exact w.step i (Nat.lt_of_succ_lt_succ hi)

theorem Walk.single (a : Label) : g.Walk (fun _ => a) 0 a a :=
  ⟨rfl, rfl, fun i hi => absurd hi (Nat.not_lt_zero i)⟩

/-! ## Dominance -/

theorem Dominates.refl (a : Label) : g.Dominates a a := fun _ h => h.self_mem

theorem entry_dominates (b : Label) : g.Dominates g.entry b := fun _ h => h.entry_mem

theorem eq_entry_of_dominates (h : g.Dominates a g.entry) : a = g.entry :=
  List.mem_singleton.1 (h _ .entry)

theorem Dominates.reachable (h : g.Dominates a b) (hb : g.Reachable b) : g.Reachable a := by
  obtain ⟨xs, hxs⟩ := hb
  exact hxs.reachable_of_mem (h xs hxs)

theorem Dominates.trans (hab : g.Dominates a b) (hbc : g.Dominates b c) : g.Dominates a c := by
  intro xs hxs
  obtain ⟨later, earlier, rfl, hearlier⟩ := hxs.cut (hbc xs hxs)
  exact List.mem_append_right _ (hab earlier hearlier)

/-- What strictly dominates a block dominates its predecessors. -/
theorem dominates_of_edge (h : g.Dominates a c) (hne : a ≠ c) (hc : c ∈ g.next b) :
    g.Dominates a b := by
  intro xs hxs
  rcases List.mem_cons.1 (h _ (.step hxs hc)) with rfl | ha
  · exact absurd rfl hne
  · exact ha

/-- Two blocks that dominate each other are one. -/
theorem Dominates.antisymm (ha : g.Reachable a) (hab : g.Dominates a b) (hba : g.Dominates b a) :
    a = b := by
  obtain ⟨xs, hxs⟩ := ha
  -- A shortest trail to `a` has no room for `b` and `a` once more.
  generalize hn : xs.length = n
  induction n using Nat.strongRecOn generalizing xs with
  | ind n ih =>
    obtain ⟨later, earlier, rfl, hearlier⟩ := hxs.cut (hba xs hxs)
    obtain ⟨later', earlier', rfl, hearlier'⟩ := hearlier.cut (hab earlier hearlier)
    cases later with
    | nil => exact hxs.end_unique hearlier
    | cons c later =>
      refine ih earlier'.length ?_ earlier' hearlier' rfl
      rw [← hn, List.length_append, List.length_append, List.length_cons]
      omega

/-- Of two dominators of a block one dominates the other. -/
theorem dominates_total (hc : g.Reachable c) (ha : g.Dominates a c) (hb : g.Dominates b c) :
    g.Dominates a b ∨ g.Dominates b a := by
  by_cases hab : g.Dominates a b
  · exact .inl hab
  by_cases hba : g.Dominates b a
  · exact .inr hba
  exfalso
  obtain ⟨xs, hxs, hax⟩ : ∃ xs, g.Trail xs b ∧ a ∉ xs := by simpa [Dominates] using hab
  obtain ⟨ys, hys, hby⟩ : ∃ ys, g.Trail ys a ∧ b ∉ ys := by simpa [Dominates] using hba
  obtain ⟨zs, hzs⟩ := hc
  obtain ⟨later, earlier, rfl, hlater⟩ := List.eq_append_cons_of_mem (ha zs hzs)
  -- Whichever of the two comes last on the trail can be reached without the other.
  by_cases hb' : b ∈ later
  · obtain ⟨later', earlier', rfl, hlater'⟩ := List.eq_append_cons_of_mem hb'
    rw [List.append_assoc, List.cons_append] at hzs
    rcases List.mem_append.1 (ha _ (hzs.resume hxs)) with h | h
    · exact hlater (List.mem_append_left _ h)
    · exact hax h
  · rcases List.mem_append.1 (hb _ (hzs.resume hys)) with h | h
    · exact hb' h
    · exact hby h

/-! ## Strict dominance -/

theorem StrictlyDominates.trans_dominates (ha : g.Reachable b) (hab : g.StrictlyDominates a b)
    (hbc : g.Dominates b c) : g.StrictlyDominates a c := by
  refine ⟨?_, hab.2.trans hbc⟩
  rintro rfl
  exact hab.1 (Dominates.antisymm (hab.2.reachable ha) hab.2 hbc)

theorem Dominates.trans_strictly (hc : g.Reachable c) (hab : g.Dominates a b)
    (hbc : g.StrictlyDominates b c) : g.StrictlyDominates a c := by
  refine ⟨?_, hab.trans hbc.2⟩
  rintro rfl
  exact hbc.1 (Dominates.antisymm (hbc.2.reachable hc) hbc.2 hab)

theorem StrictlyDominates.ne_entry (h : g.StrictlyDominates a b) : b ≠ g.entry := by
  rintro rfl
  exact h.1 (eq_entry_of_dominates h.2)

/-- A block other than the entry has a closest strict dominator. -/
theorem exists_closest_dominator (hb : g.Reachable b) (hne : b ≠ g.entry) :
    ∃ a, g.StrictlyDominates a b ∧ ∀ c, g.StrictlyDominates c b → g.Dominates c a := by
  classical
  obtain ⟨xs, hxs⟩ := hb
  obtain ⟨ys, hys, nodup, -⟩ := hxs.simple
  have hreach : g.Reachable b := ⟨ys, hys⟩
  obtain ⟨zs, rfl⟩ : ∃ zs, ys = b :: zs := by
    cases hys with
    | entry => exact absurd rfl hne
    | step _ _ => exact ⟨_, rfl⟩
  have onTrail : ∀ c, g.StrictlyDominates c b → c ∈ zs := by
    intro c hc
    rcases List.mem_cons.1 (hc.2 _ hys) with rfl | h
    · exact absurd rfl hc.1
    · exact h
  -- The closest one is the last dominator that a simple trail passes.
  have hsome : ∃ a, zs.find? (fun c => decide (g.Dominates c b)) = some a := by
    rw [← Option.isSome_iff_exists, List.find?_isSome]
    exact ⟨g.entry, onTrail _ ⟨Ne.symm hne, entry_dominates b⟩, by simpa using entry_dominates b⟩
  obtain ⟨a, ha⟩ := hsome
  obtain ⟨hdom, later, earlier, rfl, hlater⟩ := List.find?_eq_some_iff_append.1 ha
  have hab : a ≠ b := by
    rintro rfl
    exact (List.nodup_cons.1 nodup).1 (by simp)
  refine ⟨a, ⟨hab, of_decide_eq_true hdom⟩, fun c hc => ?_⟩
  by_cases hca : c = a
  · subst hca
    exact .refl c
  rcases dominates_total hreach hc.2 (of_decide_eq_true hdom) with h | h
  · exact h
  · -- Otherwise `c` came before `a` on the trail, and so would have been reached without it.
    exfalso
    have hmem : c ∈ earlier := by
      rcases List.mem_append.1 (onTrail c hc) with h' | h'
      · have := hlater c h'
        simp only [Bool.not_eq_true', decide_eq_false_iff_not] at this
        exact absurd hc.2 this
      · rcases List.mem_cons.1 h' with h' | h'
        · exact absurd h' hca
        · exact h'
    have nodup' : (a :: earlier).Nodup := (List.nodup_append.1 (List.nodup_cons.1 nodup).2).2.1
    have hys' : g.Trail ((b :: later) ++ a :: earlier) b := hys
    obtain ⟨later', earlier', heq, hearlier'⟩ := (Trail.tail_at hys').cut (.tail _ hmem)
    cases later' with
    | nil =>
      rw [List.nil_append] at heq
      subst heq
      exact hca (hearlier'.end_unique (Trail.tail_at hys'))
    | cons d later' =>
      injection heq with _ heq
      exact (List.nodup_cons.1 nodup').1 (heq ▸ List.mem_append_right _ (h earlier' hearlier'))

end Graph

/-! ## Fewer edges -/

/-- A graph with the same entry and fewer edges. -/
structure Graph.Subgraph (g' g : Graph) : Prop where
  entry_eq : g'.entry = g.entry
  next : ∀ l x, x ∈ g'.next l → x ∈ g.next l

namespace Graph.Subgraph

variable {g g' : Graph}

theorem trail (h : Subgraph g' g) (ht : g'.Trail xs b) : g.Trail xs b := by
  induction ht with
  | entry =>
    rw [h.entry_eq]
    exact .entry
  | step _ hb ih => exact .step ih (h.next _ _ hb)

theorem reachable (h : Subgraph g' g) (hb : g'.Reachable b) : g.Reachable b := by
  obtain ⟨xs, hxs⟩ := hb
  exact ⟨xs, h.trail hxs⟩

theorem strictlyDominates (h : Subgraph g' g) (hab : g.StrictlyDominates a b) :
    g'.StrictlyDominates a b :=
  ⟨hab.1, fun xs hxs => hab.2 xs (h.trail hxs)⟩

theorem leads (h : Subgraph g' g) (hab : g'.Leads a b) : g.Leads a b :=
  Relation.ReflTransGen.mono (fun p x hx => h.next p x hx) _ _ hab

end Graph.Subgraph

end ThreeAddress

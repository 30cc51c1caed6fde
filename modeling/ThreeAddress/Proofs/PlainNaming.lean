import ThreeAddress.Proofs.Construction
import ThreeAddress.Ssa.PlainNames

/-!
# Plain names for versions

1. `Naming.plain_inj` shows that all versions a function mentions get different plain names. A name
   in use never comes up as a new one, so it can only stand for the one version of it that keeps the
   plain form (`Naming.Separates`).
2. `PhiFree.named_lockstep` shows that a function without phis runs as before under its plain names.
-/

namespace ThreeAddress

variable {seen : Table String (List Int)} {p x : String} {k : Int}

/-! ## The versions that are seen -/

theorem mem_getD_addVersion {name : String} {n : Int} :
    k ∈ (addVersion seen name n).getD x [] ↔ k ∈ seen.getD x [] ∨ x = name ∧ k = n := by
  unfold addVersion
  rw [Table.getD_insert]
  by_cases hx : x = name
  · subst hx
    simp only [if_true, true_and]
    split
    · exact ⟨.inl, fun h => h.elim id fun hk => hk ▸ ‹_›⟩
    · rw [List.mem_append, List.mem_singleton]
  · simp [hx]

theorem mem_getD_foldl_addVersion {all : List (String × Int)} :
    k ∈ (all.foldl (fun seen m => addVersion seen m.1 m.2) seen).getD x [] ↔ k ∈ seen.getD x [] ∨
      (x, k) ∈ all := by
  induction all generalizing seen with
  | nil => simp
  | cons m all ih =>
    rw [List.foldl_cons, ih, mem_getD_addVersion, List.mem_cons, or_assoc, Prod.ext_iff]

namespace Func

variable {f : Func} {v : Var}

/-- The function mentions this version, in its code or as a parameter. -/
def Mentions (f : Func) (v : Var) : Prop := ∃ n, v.version = some n ∧
    n ∈ f.seenVersions.getD v.name []

theorem mentions_of_node {n : Node} (hn : n ∈ f.nodes) (hv : v ∈ n.vars)
    (hversion : v.version ≠ none) : f.Mentions v := by
  obtain ⟨k, hk⟩ := Option.ne_none_iff_exists'.1 hversion
  refine ⟨k, hk, mem_getD_foldl_addVersion.2
    (.inr (List.mem_append_left _ (List.mem_filterMap.2 ⟨v, ?_, ?_⟩)))⟩
  · exact List.mem_flatMap.2 ⟨n, hn, hv⟩
  · rw [hk]
    rfl

theorem mentions_param (hp : p ∈ f.params) : f.Mentions ⟨p, some 0⟩ :=
  ⟨0, rfl, mem_getD_foldl_addVersion.2 (.inr (List.mem_append_right _ (List.mem_map_of_mem hp)))⟩

end Func

/-! ## Different names -/

namespace Naming

/-- The version of a name that keeps the plain form. -/
def plainVersion (versions : List Int) : Int :=
  match versions with
  | [n] => n
  | _ => 0

variable {naming : Naming} {base s : String} {n : Int}

/-- All names given so far differ: a name that is in use without its version stands for its plain
version. -/
structure Separates (seen : Table String (List Int)) (naming : Naming) : Prop where
  bases : ∀ b ∈ seen, b ∈ naming.taken
  taken : ∀ {k s}, naming.names.get? k = some s → s ∈ naming.taken
  plain : ∀ {b n s}, naming.names.get? (b, n) = some s → n = plainVersion (seen.getD b []) → s = b
  base : ∀ {b n s}, naming.names.get? (b, n) = some s → s ∈ seen → s = b ∧
    n = plainVersion (seen.getD b [])
  inj : ∀ {k k' s}, naming.names.get? k = some s → naming.names.get? k' = some s → k = k'

theorem separates_start (seen : Table String (List Int)) : Separates seen ⟨seen.keys, .empty⟩ where
  bases _ h := h
  taken h := by cases h
  plain h := by cases h
  base h := by cases h
  inj h := by cases h

/-- The plain version gets the name itself. -/
theorem Separates.insertPlain (h : Separates seen naming) (hbase : base ∈ seen)
    (hn : n = plainVersion (seen.getD base [])) :
    Separates seen { naming with names := naming.names.insert (base, n) base } := by
  refine ⟨h.bases, fun {k s} hk => ?_, fun {b m s} hk hm => ?_, fun {b m s} hk hs => ?_,
    fun {k k' s} hk hk' => ?_⟩
  · rw [Table.get?_insert] at hk
    split at hk
    · cases hk
      exact h.bases base hbase
    · exact h.taken hk
  · rw [Table.get?_insert] at hk
    split at hk
    · rename_i heq
      cases hk
      exact (congrArg Prod.fst heq).symm
    · exact h.plain hk hm
  · rw [Table.get?_insert] at hk
    split at hk
    · rename_i heq
      cases heq
      cases hk
      exact ⟨rfl, hn⟩
    · exact h.base hk hs
  · -- Another entry for this name would be for its plain version too.
    have hother : ∀ {k}, naming.names.get? k = some base → k = (base, n) := by
      rintro ⟨b, m⟩ hk
      obtain ⟨rfl, rfl⟩ := h.base hk hbase
      rw [hn]
    rw [Table.get?_insert] at hk hk'
    split at hk
    · cases hk
      split at hk'
      · rename_i heq heq'
        rw [heq, heq']
      · rename_i heq _
        rw [heq, hother hk']
    · split at hk'
      · rename_i heq
        cases hk'
        rw [heq, hother hk]
      · exact h.inj hk hk'

/-- Any other version gets a name that is not in use. -/
theorem Separates.insertFresh (h : Separates seen naming) (hs : s ∉ naming.taken)
    (hn : n ≠ plainVersion (seen.getD base [])) :
    Separates seen ⟨naming.taken ++ [s], naming.names.insert (base, n) s⟩ := by
  have hother : ∀ {k}, naming.names.get? k ≠ some s := fun hk => hs (h.taken hk)
  refine ⟨fun b hb => List.mem_append_left _ (h.bases b hb), fun {k x} hk => ?_,
    fun {b m x} hk hm => ?_, fun {b m x} hk hx => ?_, fun {k k' x} hk hk' => ?_⟩
  · rw [Table.get?_insert] at hk
    split at hk
    · cases hk
      exact List.mem_append_right _ (.head _)
    · exact List.mem_append_left _ (h.taken hk)
  · rw [Table.get?_insert] at hk
    split at hk
    · rename_i heq
      cases heq
      exact absurd hm hn
    · exact h.plain hk hm
  · rw [Table.get?_insert] at hk
    split at hk
    · cases hk
      exact absurd (h.bases s hx) hs
    · exact h.base hk hx
  · rw [Table.get?_insert] at hk hk'
    split at hk
    · cases hk
      split at hk'
      · rename_i heq heq'
        rw [heq, heq']
      · exact absurd hk' hother
    · split at hk'
      · cases hk'
        exact absurd hk hother
      · exact h.inj hk hk'

theorem candidate_inj (base : String) (n : Int) (i j : Nat)
    (h : candidate base n i = candidate base n j) : i = j := by
  have hlen := congrArg String.length h
  simp only [candidate, String.length_append, String.length_ofList, List.length_replicate] at hlen
  omega

/-- What giving names keeps and adds. -/
structure Names (seen : Table String (List Int)) (naming naming' : Naming) (base : String)
    (versions : List Int) :
    Prop where
  separates : Separates seen naming'
  mono : ∀ k ∈ naming.names, k ∈ naming'.names
  covers : ∀ n ∈ versions, (base, n) ∈ naming'.names

theorem Separates.addOne (h : Separates seen naming) (hbase : base ∈ seen)
    (hplain : plainVersion (seen.getD base []) = 0) (n : Int) :
    Names seen naming (naming.addOne base n) base [n] := by
  have hcovers : ∀ (names : Table (String × Int) String) (s : String), ∀ m ∈ [n],
      (base, m) ∈ names.insert (base, n) s :=
    fun names s m hm => Table.mem_insert.2 (.inl (by rw [List.mem_singleton.1 hm]))
  unfold Naming.addOne
  split
  · rename_i hn
    exact ⟨h.insertPlain hbase (hn.trans hplain.symm), fun k hk => Table.mem_insert.2 (.inr hk),
      hcovers _ _⟩
  · rename_i hn
    exact ⟨h.insertFresh (firstFree_not_mem (candidate_inj base n)) (hplain ▸ hn),
      fun k hk => Table.mem_insert.2 (.inr hk), hcovers _ _⟩

theorem Separates.addAll (h : Separates seen naming) (hbase : base ∈ seen)
    (hplain : plainVersion (seen.getD base []) = 0) (versions : List Int) :
    Names seen naming (versions.foldl (fun naming n => naming.addOne base n) naming) base
      versions := by
  induction versions generalizing naming with
  | nil => exact ⟨h, fun _ hk => hk, fun _ hn => (List.not_mem_nil hn).elim⟩
  | cons n versions ih =>
    have first := h.addOne hbase hplain n
    have rest := ih first.separates
    refine ⟨rest.separates, fun k hk => rest.mono k (first.mono k hk), fun m hm => ?_⟩
    rcases List.mem_cons.1 hm with rfl | hm
    · exact rest.mono _ (first.covers m (.head _))
    · exact rest.covers m hm

theorem Separates.addBase (h : Separates seen naming) {versions : List Int}
    (hbase : seen.get? base = some versions) :
    Names seen naming (naming.addBase base versions) base versions := by
  have hmem := Table.mem_of_get? hbase
  have hgetD : seen.getD base [] = versions := Table.getD_of_get? hbase
  have hmany : plainVersion versions = 0 →
      Names seen naming ((sortBy (fun a b => decide (a ≤ b)) versions).foldl (fun naming n =>
        naming.addOne base n) naming)
        base versions := by
    intro hplain
    have names := h.addAll hmem (hgetD ▸ hplain) (sortBy (fun a b => decide (a ≤ b)) versions)
    exact ⟨names.separates, names.mono, fun n hn => names.covers n (mem_sortBy.2 hn)⟩
  unfold Naming.addBase
  split
  · rename_i n
    refine ⟨h.insertPlain hmem (hgetD ▸ rfl), fun k hk => Table.mem_insert.2 (.inr hk),
      fun m hm => ?_⟩
    exact Table.mem_insert.2 (.inl (by rw [List.mem_singleton.1 hm]))
  · rename_i hne
    refine hmany ?_
    unfold plainVersion
    split
    · rename_i n
      exact absurd rfl (hne n)
    · rfl

theorem separates_foldl_addBase {entries : List (String × List Int)} (h : Separates seen naming)
    (hentries : ∀ e ∈ entries, seen.get? e.1 = some e.2) :
    Separates seen (entries.foldl (fun naming e => naming.addBase e.1 e.2) naming) ∧
      (∀ k ∈ naming.names,
        k ∈ (entries.foldl (fun naming e => naming.addBase e.1 e.2) naming).names) ∧
      ∀ e ∈ entries, ∀ n ∈ e.2,
        (e.1, n) ∈ (entries.foldl (fun naming e => naming.addBase e.1 e.2) naming).names := by
  induction entries generalizing naming with
  | nil => exact ⟨h, fun _ hk => hk, fun _ he => (List.not_mem_nil he).elim⟩
  | cons e entries ih =>
    have first := h.addBase (hentries e (.head _))
    obtain ⟨hseparates, hmono, hcovers⟩ := ih first.separates fun e' he' =>
      hentries e' (.tail _ he')
    refine ⟨hseparates, fun k hk => hmono k (first.mono k hk), fun e' he' n hn => ?_⟩
    rcases List.mem_cons.1 he' with rfl | he'
    · exact hmono _ (first.covers n hn)
    · exact hcovers e' he' n hn

end Naming

namespace Func

variable {f : Func} {v v' : Var}

theorem separates_ofFunc (f : Func) :
    Naming.Separates f.seenVersions (Naming.ofFunc f) ∧
      ∀ b n, n ∈ f.seenVersions.getD b [] → (b, n) ∈ (Naming.ofFunc f).names := by
  obtain ⟨hseparates, _, hcovers⟩ :=
    Naming.separates_foldl_addBase (Naming.separates_start f.seenVersions)
    fun e he => Table.get?_eq_some_iff.2 he
  refine ⟨hseparates, fun b n hn => ?_⟩
  cases hb : f.seenVersions.get? b with
  | none =>
    rw [Table.getD_of_not_mem (Table.get?_eq_none_iff.1 hb)] at hn
    cases hn
  | some versions =>
    rw [Table.getD_of_get? hb] at hn
    exact hcovers (b, versions) (Table.get?_eq_some_iff.1 hb) n hn

/-- The plain form of a version that is mentioned is in the table. -/
theorem Mentions.exists_name (h : f.Mentions v) : ∃ n s, v = ⟨v.name, some n⟩ ∧
    (Naming.ofFunc f).names.get? (v.name, n) = some s ∧ (Naming.ofFunc f).plain v = ⟨s, none⟩ := by
  obtain ⟨n, hn, hmem⟩ := h
  obtain ⟨s, hs⟩ := Table.mem_iff_get?.1 (f.separates_ofFunc.2 _ _ hmem)
  refine ⟨n, s, ?_, hs, ?_⟩
  · rw [← hn]
  · simp only [Naming.plain, hn, Table.getD_of_get? hs]

/-- Versions that are mentioned get different names. -/
theorem Mentions.plain_inj (h : f.Mentions v) (h' : f.Mentions v')
    (heq : (Naming.ofFunc f).plain v = (Naming.ofFunc f).plain v') : v = v' := by
  obtain ⟨n, s, hv, hs, hplain⟩ := h.exists_name
  obtain ⟨n', s', hv', hs', hplain'⟩ := h'.exists_name
  rw [hplain, hplain'] at heq
  cases heq
  have hkeys := Prod.mk.inj (f.separates_ofFunc.1.inj hs hs')
  rw [hv, hv', hkeys.1, hkeys.2]

/-- Parameters keep their names. -/
theorem plain_param (hp : p ∈ f.params) : (Naming.ofFunc f).plain ⟨p, some 0⟩ = ⟨p, none⟩ := by
  have hmentions := mentions_param hp
  obtain ⟨n, s, hv, hs, hplain⟩ := hmentions.exists_name
  cases hv
  rw [hplain, f.separates_ofFunc.1.plain hs]
  obtain ⟨k, hk, hmem⟩ := hmentions
  cases hk
  unfold Naming.plainVersion
  split
  · rename_i m heq
    exact List.mem_singleton.1 (heq ▸ hmem)
  · rfl

end Func

/-! ## Code under plain names -/

namespace Naming

variable (naming : Naming) (i : Instr)

theorem dest?_plainInstr : (naming.plainInstr i).dest? = i.dest?.map naming.plain := by
  unfold plainInstr
  simp only [Instr.dest?_mapUses]
  cases hd : i.dest? with
  | none =>
    simp only
    rw [Instr.dest?_mapUses, hd]
    rfl
  | some d =>
    simp only
    exact Instr.dest?_setDest _ (hd ▸ Instr.dest?_mapUses _ i)

theorem uses_plainInstr : (naming.plainInstr i).uses = i.uses.map naming.plainOperand := by
  unfold plainInstr
  simp only
  split
  · exact Instr.uses_mapUses _ i
  · rw [Instr.uses_setDest, Instr.uses_mapUses]

theorem isPhi_plainInstr : (naming.plainInstr i).isPhi = i.isPhi := by
  unfold plainInstr
  simp only
  split
  · exact Instr.isPhi_mapUses _ i
  · rw [Instr.isPhi_setDest, Instr.isPhi_mapUses]

/-- The instruction does the same under plain names, up to the name of its result. -/
theorem effect_plainInstr {i : Instr} (hi : i.isPhi = false) {value value' : Operand → Int}
    (w : World) (hvalue : ∀ x ∈ i.uses, value' (naming.plainOperand x) = value x) :
    (naming.plainInstr i).effect value' w = match (naming.plainInstr i).dest? with
      | none => i.effect value w
      | some d => (i.effect value w).setDest d := by
  have hsame : (i.mapUses naming.plainOperand).effect value' w = i.effect value w := by
    rw [Instr.effect_mapUses i hi]
    exact Instr.effect_congr hi w hvalue
  rw [dest?_plainInstr]
  unfold plainInstr
  simp only [Instr.dest?_mapUses]
  cases i.dest? with
  | none => exact hsame
  | some d =>
    simp only [Option.map_some]
    rw [Instr.effect_setDest, hsame]

theorem not_versioned_plain (v : Var) : (naming.plain v).version = none := by
  unfold plain
  split
  · assumption
  · rfl

/-- A plain operand is defined, and has no version. -/
theorem plainOperand_ne (x : Operand) :
    naming.plainOperand x ≠ .undefined ∧ ∀ v, naming.plainOperand x = .var v →
      v.version = none := by
  cases x with
  | const n => exact ⟨Operand.noConfusion, fun v => Operand.noConfusion⟩
  | undefined => exact ⟨Operand.noConfusion, fun v => Operand.noConfusion⟩
  | var x =>
    refine ⟨Operand.noConfusion, fun v h => ?_⟩
    cases h
    exact naming.not_versioned_plain x

end Naming

namespace Func

variable {f : Func} {l : Label} {b : Block}

/-- The function under plain names. -/
def named (f : Func) : Func := { f.withPlainNames with ssa := false, versions := .empty }

theorem block?_named (hb : f.block? l = some b) :
    f.named.block? l = some ((Naming.ofFunc f).plainBlock b) :=
  block?_rewrite_of_some (fun _ => (Naming.ofFunc f).plainBlock) hb

theorem of_block?_named {b' : Block} (hb' : f.named.block? l = some b') :
    ∃ b, f.block? l = some b ∧ b' = (Naming.ofFunc f).plainBlock b :=
  of_block?_rewrite (g := fun _ => (Naming.ofFunc f).plainBlock) hb'

theorem named_phiFree (h : f.PhiFree) : f.named.PhiFree := by
  intro l b' hb' i' hi'
  obtain ⟨b, hb, rfl⟩ := of_block?_named hb'
  obtain ⟨i, hi, rfl⟩ := List.mem_map.1 hi'
  rw [Naming.isPhi_plainInstr]
  exact h l b hb i hi

theorem successors_plainBlock (naming : Naming) (b : Block) :
    (naming.plainBlock b).successors = b.successors := by
  unfold Naming.plainBlock Block.successors
  cases b.term with
  | none => rfl
  | some t => exact t.targets_mapUses _

theorem WellFormed.named (wf : f.WellFormed) (h : f.PhiFree) : f.named.WellFormed := by
  refine (wf.rewrite (g := fun _ => (Naming.ofFunc f).plainBlock) fun l b hb => ?_).congr rfl rfl
  refine ⟨rfl, rfl, successors_plainBlock _ b, fun hterm => ?_, fun _ => ?_⟩
  · simpa [Naming.plainBlock] using hterm
  · exact (named_phiFree h).tidy (block?_named hb)

/-- What the nodes of a block become. -/
theorem mem_nodes_plainBlock {naming : Naming} {n' : Node} (h : n' ∈ (naming.plainBlock b).nodes) :
    ∃ n ∈ b.nodes, n'.dest? = n.dest?.map naming.plain ∧
      n'.uses = n.uses.map naming.plainOperand := by
  rcases List.mem_append.1 h with h | h
  · obtain ⟨i', hi', rfl⟩ := List.mem_map.1 h
    obtain ⟨i, hi, rfl⟩ := List.mem_map.1 hi'
    exact ⟨.instr i, List.mem_append_left _ (List.mem_map_of_mem hi), naming.dest?_plainInstr i,
      naming.uses_plainInstr i⟩
  · obtain ⟨t', ht', rfl⟩ := List.mem_map.1 h
    obtain ⟨t, ht, rfl⟩ := Option.map_eq_some_iff.1 (Option.mem_toList.1 ht')
    exact ⟨.term t, List.mem_append_right _ (List.mem_map_of_mem (Option.mem_toList.2 ht)), rfl,
      t.uses_mapUses _⟩

/-- No name has a version, and no operand is undefined. -/
theorem plain_named (f : Func) : f.named.Plain ∧ ∀ n ∈ f.named.nodes, .undefined ∉ n.uses := by
  have hnode : ∀ n' ∈ f.named.nodes, ∃ n : Node, n'.dest? = n.dest?.map (Naming.ofFunc f).plain ∧
      n'.uses = n.uses.map (Naming.ofFunc f).plainOperand := by
    intro n' hn'
    obtain ⟨l, b', hb', hn'⟩ := mem_nodes.1 hn'
    obtain ⟨b, _, rfl⟩ := of_block?_named hb'
    obtain ⟨n, _, h⟩ := mem_nodes_plainBlock hn'
    exact ⟨n, h⟩
  refine ⟨fun n' hn' => ⟨fun v hv => ?_, fun v hv => ?_⟩, fun n' hn' hmem => ?_⟩
  · obtain ⟨n, hdest, _⟩ := hnode n' hn'
    rw [hdest] at hv
    obtain ⟨d, _, rfl⟩ := Option.map_eq_some_iff.1 hv
    exact Naming.not_versioned_plain _ d
  · obtain ⟨n, _, huses⟩ := hnode n' hn'
    rw [huses] at hv
    obtain ⟨x, _, hx⟩ := List.mem_map.1 hv
    exact (Naming.plainOperand_ne _ x).2 v hx
  · obtain ⟨n, _, huses⟩ := hnode n' hn'
    rw [huses] at hmem
    obtain ⟨x, _, hx⟩ := List.mem_map.1 hmem
    exact (Naming.plainOperand_ne _ x).1 hx

/-! ## Runs -/

/-- Each version that is mentioned has its value under its plain name. -/
def HoldsPlain (f : Func) (env env' : Env) : Prop :=
  ∀ v, f.Mentions v → env'.getD ((Naming.ofFunc f).plain v) 0 = env.getD v 0

section HoldsPlain

variable {env env' : Env}

theorem HoldsPlain.value (h : f.HoldsPlain env env') {x : Operand}
    (hx : ∀ v, x = .var v → f.Mentions v) :
    env'.value ((Naming.ofFunc f).plainOperand x) = env.value x := by
  cases x with
  | const n => rfl
  | undefined => rfl
  | var v => exact h v (hx v rfl)

theorem HoldsPlain.write (h : f.HoldsPlain env env') {d : Option Var}
    (hd : ∀ v, d = some v → f.Mentions v) (n : Int) :
    f.HoldsPlain (env.write d n) (env'.write (d.map (Naming.ofFunc f).plain) n) := by
  intro v hv
  by_cases hdv : d = some v
  · rw [hdv, Option.map_some, Env.getD_write_self, Env.getD_write_self]
  · rw [Env.getD_write_of_ne hdv, Env.getD_write_of_ne, h v hv]
    intro heq
    obtain ⟨v', hv', hplain⟩ := Option.map_eq_some_iff.1 heq
    exact hdv (hv'.trans (congrArg some ((hd v' hv').plain_inj hv hplain)))

theorem holdsPlain_start (hssa : f.ssa = true) (nodup : f.params.Nodup) (args : List Int) :
    f.HoldsPlain (bindParams f args) (bindParams f.named args) := by
  have hvar : ∀ p, f.paramVar p = ⟨p, some 0⟩ := fun p => by rw [paramVar, hssa]; rfl
  intro v hv
  by_cases hparam : v ∈ f.params.map f.paramVar
  · obtain ⟨p, hp, rfl⟩ := List.mem_map.1 hparam
    obtain ⟨i, hget⟩ := List.mem_iff_getElem?.1 hp
    have hi : (p, i) ∈ f.params.zipIdx := List.mk_mem_zipIdx_iff_getElem?.2 hget
    have hi' : (p, i) ∈ f.named.params.zipIdx := hi
    rw [getD_bindParams_of_mem nodup hi args, hvar, plain_param hp]
    exact getD_bindParams_of_mem (f := f.named) nodup hi' args
  · rw [getD_bindParams_of_not_mem hparam args]
    refine getD_bindParams_of_not_mem (f := f.named) (fun hmem => hparam ?_) args
    obtain ⟨p, hmem, heq⟩ := List.mem_map.1 hmem
    have hp : p ∈ f.params := hmem
    rw [← (mentions_param hp).plain_inj hv ((plain_param hp).trans heq), ← hvar]
    exact List.mem_map_of_mem hp

end HoldsPlain

theorem PhiFree.enter_eq (h : f.PhiFree) {s : Label} {c : Block} (hc : f.block? s = some c)
    (l : Label) (env : Env) : Frame.enter f env (some l) s = .ok ⟨f, s, c.instrs, c.term, env⟩ := by
  obtain ⟨hphis, hbody, _⟩ := Block.of_phiFree (h s c hc)
  have henter := Frame.enter_eq (p := l) hc (by rw [hphis]; simp) env
  rw [hphis, hbody] at henter
  exact henter

/-- What relates activations: they are at the same place, with the same values under plain names. -/
inductive SameValues (f : Func) : Frame → Frame → Prop
  | mk {l : Label} {b : Block} {pre rest : List Instr} {env env' : Env} : f.graph.Reachable l →
    f.block? l = some b →
    b.instrs = pre ++ rest → f.HoldsPlain env env' →
    SameValues f ⟨f, l, rest, b.term, env⟩
      ⟨f.named, l, rest.map (Naming.ofFunc f).plainInstr,
        b.term.map (·.mapUses (Naming.ofFunc f).plainOperand), env'⟩

/-- A function in SSA form without phis runs under plain names as it did. -/
theorem PhiFree.named_lockstep (h : f.PhiFree) (wf : f.WellFormed) (hssa : f.ssa = true)
    (nodup : f.params.Nodup)
    (hversioned : ∀ {l b n v}, f.graph.Reachable l → f.block? l = some b → n ∈ b.nodes →
      v ∈ n.vars → v.version ≠ none) : Lockstep f f.named 0 f.SameValues := by
  have hmentions : ∀ {l b n v}, f.graph.Reachable l → f.block? l = some b → n ∈ b.nodes →
      v ∈ n.vars → f.Mentions v :=
    fun hl hb hn hv => mentions_of_node (mem_nodes.2 ⟨_, _, hb, hn⟩) hv (hversioned hl hb hn hv)
  refine ⟨fun args => ?_, fun fr fr' w hr => ?_⟩
  · obtain ⟨b, hb⟩ := exists_block.1 wf.entry_mem
    have hb' : f.named.block? f.named.entry = _ := block?_named hb
    have hstart := start_eq hb args
    have hstart' := start_eq hb' args
    rw [(Block.of_phiFree (h _ b hb)).2.1] at hstart
    rw [(Block.of_phiFree (named_phiFree h _ _ hb')).2.1] at hstart'
    exact ⟨_, _, _, hstart, hstart', fun _ => .refl,
      .mk Graph.reachable_entry hb (List.nil_append _).symm (holdsPlain_start hssa nodup args)⟩
  · cases hr with
    | @mk l b pre rest env env' hl hb heq hholds =>
      cases rest with
      | cons i rest =>
        have hmem : i ∈ b.instrs := heq ▸ List.mem_append_right _ (.head _)
        have hi := h l b hb i hmem
        have hvars : ∀ v ∈ (Node.instr i).vars, f.Mentions v := fun v =>
          hmentions hl hb (List.mem_append_left _ (List.mem_map_of_mem hmem))
        have hname : f.name = f.named.name := rfl
        refine agree_instr hname hi (Naming.effect_plainInstr _ hi w fun x hx =>
          hholds.value fun v hv => ?_) ?_
          fun n => ?_
        · exact hvars v (Node.mem_vars.2 (.inr (hv ▸ hx)))
        · rw [Naming.dest?_plainInstr, Option.map_eq_none_iff]
        · rw [Naming.dest?_plainInstr]
          exact .mk hl hb (heq.trans (List.append_cons pre i rest))
            (hholds.write (fun v hv => hvars v (Node.mem_vars.2 (.inl hv))) n)
      | nil =>
        obtain ⟨t, ht⟩ := Option.ne_none_iff_exists'.1 (wf.closed hb)
        have hvars : ∀ v ∈ (Node.term t).vars, f.Mentions v := fun v =>
          hmentions hl hb (List.mem_append_right _ (List.mem_map_of_mem (Option.mem_toList.2 ht)))
        have hexit : (t.mapUses (Naming.ofFunc f).plainOperand).exit env'.value
            = t.exit env.value := by
          rw [Terminator.exit_mapUses]
          exact Terminator.exit_congr fun x hx => hholds.value fun v hv =>
            hvars v (Node.mem_vars.2 (.inr (hv ▸ hx)))
        rw [ht]
        refine agree_exit hexit fun s hgoto => ?_
        have hedge : s ∈ f.graph.next l := by
          rw [next_graph hb, Block.successors, ht]
          exact Terminator.mem_targets_of_exit hgoto
        obtain ⟨c, hc⟩ := wf.block_of_reachable (hl.step hedge)
        exact ⟨_, _, h.enter_eq hc l env, (named_phiFree h).enter_eq (block?_named hc) l env',
          .mk (hl.step hedge) hc (List.nil_append _).symm hholds⟩

end Func

end ThreeAddress

/-
# Two loops that can be exchanged

Two loops, one directly inside the other, thread values if the outer loop does nothing with what it
carries but pass it through the inner one (`Threads`).  `Nest` is what is known of such loops that
carry one tensor, and read it only through the slice into which the inner one accumulates.

Both loops together walk over the pairs of their variables, the outer one first
(`LoopPair.exec_outer`).
-/
import ConvNest.Proofs.Disjoint
import ConvNest.Proofs.Reading
import ConvNest.Proofs.Scenes
import ConvNest.Proofs.Settled

namespace ConvNest.Program

open Node List

/-- The parts of two nested loops: the operations before the inner loop, those of its body, the
induction variables and carried values, and what the outer loop starts from and the inner one
yields. -/
structure PairParts where
  prior : List Node
  inner : Node
  body : List Node
  outerIv : ValueId
  outerCarried : List ValueId
  innerIv : ValueId
  innerCarried : List ValueId
  inits : List ValueId
  yields : List ValueId

/-- Two loops, one directly inside the other: the outer loop does nothing with what it carries but
pass it through the inner one. -/
structure Threads (V : List ValueId) (n : Node) (p : PairParts) : Prop where
  inScope : n.Scoped V
  apart : Apart V [n]
  outerKind : n.head.kind = .forLoop
  outerArgs : n.args = p.outerIv :: p.outerCarried
  outerInits : n.head.operands.drop 3 = p.inits
  outerBody : ∃ y, n.nodes = p.prior ++ [p.inner, y] ∧ y.head.kind.isTerminator = true ∧
    y.head.operands = p.inner.head.results
  priorInner : ∀ m ∈ p.prior, m.head.kind.isTerminator = false
  innerKind : p.inner.head.kind = .forLoop
  innerArgs : p.inner.args = p.innerIv :: p.innerCarried
  innerBounds : ∀ v ∈ p.inner.head.operands.take 3, v ∈ V
  innerInits : p.inner.head.operands.drop 3 = p.outerCarried
  innerBody : ∃ y, p.inner.nodes = p.body ++ [y] ∧ y.head.kind.isTerminator = true ∧
    y.head.operands = p.yields
  bodyInner : ∀ m ∈ p.body, m.head.kind.isTerminator = false
  passes : ∀ m ∈ subsAll p.prior ++ subsAll p.inner.nodes, ∀ c ∈ p.outerCarried, c ∉ m.head.operands

/-- The names of the loop variables, of what the inner loop carries, and of what is defined in both
bodies. -/
def PairParts.names (p : PairParts) : List ValueId :=
  p.innerIv :: p.outerIv :: (p.innerCarried ++ (defs p.prior ++ defs p.body))

namespace Threads

variable {V : List ValueId} {n : Node} {p : PairParts} (h : Threads V n p)

include h

/-! ## 1. Loops that thread values -/

theorem inner_mem : p.inner ∈ n.nodes := by
  obtain ⟨y, hnodes, -, -⟩ := h.outerBody
  simp [hnodes]

/-- The nodes of the parts are nodes of the loops. -/
theorem subs_mem {k : Node} (hk : k ∈ subsAll p.prior ∨ k ∈ subsAll p.body) : k ∈ n.subs := by
  obtain ⟨y, hnodes, -, -⟩ := h.outerBody
  obtain ⟨z, hinner, -, -⟩ := h.innerBody
  rw [subs_eq n, hnodes, subsAll_append, subsAll_cons, subs_eq p.inner, hinner, subsAll_append]
  simp only [mem_cons, mem_append]
  tauto

theorem scopedBody : ScopedAll (p.outerIv :: p.outerCarried ++ V) n.nodes :=
  h.outerArgs ▸ (scoped_iff.1 h.inScope).2

theorem scopedPrior : ScopedAll (p.outerIv :: V) p.prior := by
  obtain ⟨y, hnodes, -, -⟩ := h.outerBody
  have hs := h.scopedBody
  rw [hnodes, scopedAll_append] at hs
  refine hs.1.restrict fun m hm v hv hmem => ?_
  have hout : v ∉ p.outerCarried := fun hc => h.passes m (mem_append_left _ hm) v hc hv
  simp only [mem_append, mem_cons] at hmem ⊢
  tauto

theorem scopedInner : ScopedAll (p.innerIv :: p.innerCarried ++ (outs p.prior ++ p.outerIv :: V))
    p.inner.nodes := by
  obtain ⟨y, hnodes, -, -⟩ := h.outerBody
  have hs := h.scopedBody
  rw [hnodes, scopedAll_append] at hs
  have hin := (scoped_iff.1 (scopedAll_cons.1 hs.2).1).2
  rw [h.innerArgs] at hin
  refine hin.restrict fun m hm v hv hmem => ?_
  have hout : v ∉ p.outerCarried := fun hc => h.passes m (mem_append_right _ hm) v hc hv
  simp only [mem_append, mem_cons] at hmem ⊢
  tauto

/-- The names of what the loops define are different. -/
theorem namesNodup : p.names.Nodup := by
  obtain ⟨y, hnodes, -, -⟩ := h.outerBody
  obtain ⟨z, hinner, -, -⟩ := h.innerBody
  have hnodup := h.apart.nodup
  rw [defs_single, h.outerArgs, hnodes, defs_append, defs_cons, defs_single p.inner,
    h.innerArgs, hinner, defs_append] at hnodup
  simp only [PairParts.names, nodup_append, nodup_cons, mem_append] at hnodup ⊢
  grind

/-- What the loops define is not visible before them. -/
theorem names_notMem {u : ValueId} (hu : u ∈ p.names) : u ∉ V := fun hV => by
  refine h.apart.outside u hV ?_
  obtain ⟨y, hnodes, -, -⟩ := h.outerBody
  obtain ⟨z, hinner, -, -⟩ := h.innerBody
  rw [defs_single, h.outerArgs, hnodes, defs_append, defs_cons, defs_single p.inner,
    h.innerArgs, hinner, defs_append]
  simp only [PairParts.names, mem_append, mem_cons] at hu ⊢
  tauto

end Threads

/-- The parts of two nested loops: the operations before the inner loop, those of its body around
the accumulation, and the induction variables and carried values. -/
structure NestParts where
  prior : List Node
  inner : Node
  before : List Node
  acc : Node
  after : List Node
  outerIv : ValueId
  outerCarried : ValueId
  innerIv : ValueId
  innerCarried : ValueId
  outerInit : ValueId
  result : ValueId

namespace NestParts

variable (p : NestParts)

/-- The body of the inner loop, but for its end. -/
def body : List Node := p.before ++ p.acc :: p.after

/-- The store in which the inner loop starts, for a value of the outer variable and a carried
datum. -/
def base (S : Store) (d : Datum) (o : Int64) : Option Store :=
  execAll p.prior (S.assign [p.outerIv, p.outerCarried] [.index o, d])

/-- The store in which the inner body starts, for a value of the inner variable and a carried
datum. -/
abbrev entered (U : Store) (i : Int64) (d : Datum) : Store :=
  U.assign [p.innerIv, p.innerCarried] [.index i, d]

/-- What the inner body makes of the carried datum, for values of the outer and the inner variable.
The datum that the outer loop carries at that time does not matter: it is always the first one. -/
def step (S : Store) (first : Datum) (x : Int64 × Int64) (d : Datum) : Option Datum :=
  (p.base S first x.1).bind fun U =>
    (runAll p.inner.nodes (U.assign [p.innerIv, p.innerCarried] [.index x.2, d])).bind List.head?

/-- The parts of two loops, without the accumulation. -/
def pair : PairParts :=
  ⟨p.prior, p.inner, p.body, p.outerIv, [p.outerCarried], p.innerIv, [p.innerCarried],
    [p.outerInit], [p.result]⟩

end NestParts

/-- Pairs of the variables of two loops, the outer one first. -/
def outerFirst (os is : List Int64) : List (Int64 × Int64) := os.flatMap fun o => is.map (o, ·)

/-- Two loops that carry one value, one directly inside the other: the outer loop does nothing with
the value but pass it through the inner one. -/
structure LoopPair (V : List ValueId) (n : Node) (p : NestParts) : Prop where
  inScope : n.Scoped V
  apart : Apart V [n]
  outerKind : n.head.kind = .forLoop
  outerArgs : n.args = [p.outerIv, p.outerCarried]
  outerInits : n.head.operands.drop 3 = [p.outerInit]
  outerResults : n.head.results.length = 1
  outerBody : ∃ y, n.nodes = p.prior ++ [p.inner, y] ∧ y.head.kind.isTerminator = true ∧
    y.head.operands = p.inner.head.results
  priorInner : ∀ m ∈ p.prior, m.head.kind.isTerminator = false
  innerKind : p.inner.head.kind = .forLoop
  innerArgs : p.inner.args = [p.innerIv, p.innerCarried]
  innerBounds : ∀ v ∈ p.inner.head.operands.take 3, v ∈ V
  innerInits : p.inner.head.operands.drop 3 = [p.outerCarried]
  innerResults : p.inner.head.results.length = 1
  innerBody : ∃ y, p.inner.nodes = p.body ++ [y] ∧ y.head.kind.isTerminator = true ∧
    y.head.operands = [p.result]
  bodyInner : ∀ m ∈ p.body, m.head.kind.isTerminator = false
  passes : ∀ m ∈ subsAll p.prior ++ subsAll p.inner.nodes, p.outerCarried ∉ m.head.operands
  accKind : p.acc.head.kind = .insertSlice
  accResult : p.acc.head.results[0]? = some p.result
  accDest : p.acc.head.operands[1]? = some p.innerCarried

/-- Two loops that carry one tensor can be exchanged: the inner one reads it only through the slice
into which it accumulates. -/
structure Nest (V : List ValueId) (n : Node) (p : NestParts) : Prop extends LoopPair V n p where
  accOthers : p.acc.head.operands[0]? ≠ some p.innerCarried ∧
    p.innerCarried ∉ p.acc.head.operands.drop 2
  reads : ∀ m ∈ subsAll (p.before ++ p.after), Extracts p.innerCarried m
  slices : ∀ m ∈ subsAll (p.before ++ p.after), p.innerCarried ∈ m.head.operands →
    m.head.offsetsAndSizes = p.acc.head.offsetsAndSizes

/-! ## 2. Stores and walks -/

theorem Store.assign_pair (S : Store) (a b : ValueId) (x y : Datum) (v : ValueId) :
    S.assign [a, b] [x, y] v = if v = a then some x else if v = b then some y else S v := by
  by_cases hva : v = a
  · simp [Store.assign, idxOf?_cons, hva]
  · have hav : ¬ a = v := fun heq => hva heq.symm
    by_cases hvb : v = b
    · subst hvb
      simp [Store.assign, idxOf?_cons, hav, hva]
    · have hbv : ¬ b = v := fun heq => hvb heq.symm
      simp [Store.assign, idxOf?_cons, hva, hav, hbv, hvb]

theorem NestParts.entered_apply (p : NestParts) (U : Store) (i : Int64) (d : Datum) (v : ValueId) :
    p.entered U i d v =
      if v = p.innerIv then some (.index i) else if v = p.innerCarried then some d else U v :=
  U.assign_pair _ _ _ _ v

/-- A walk that carries one datum. -/
theorem foldlM_single {X : Type} {F : List Datum → X → Option (List Datum)}
    {f : Datum → X → Option Datum} {xs : List X}
    (hF : ∀ d, ∀ x ∈ xs, F [d] x = (f d x).map fun d => [d]) (d : Datum) :
    xs.foldlM F [d] = (xs.foldlM f d).map fun d => [d] := by
  induction xs generalizing d with
  | nil => rfl
  | cons x xs ih =>
    rw [foldlM_cons, foldlM_cons, hF d x mem_cons_self]
    cases f d x with
    | none => rfl
    | some d' => exact ih (fun d y hy => hF d y (mem_cons_of_mem _ hy)) d'

variable {hd : Head} {S : Store}

/-- The values of a variable depend only on the bounds. -/
theorem Head.ivs_of_bounds {S' : Store} (hS : ∀ v ∈ hd.operands.take 3, S' v = S v) :
    hd.ivs S' = hd.ivs S := by
  have hi {k : Nat} {v : ValueId} (hk : k < 3) (hv : hd.operands[k]? = some v) :
      S'.index v = S.index v := by
    have hmem : v ∈ hd.operands.take 3 :=
      mem_of_getElem? (by rw [getElem?_take_of_lt hk]; exact hv)
    rw [Store.index, hS v hmem, Store.index]
  refine rel_eq (rel_bind_same fun v hv => ?_)
  rw [hi (by decide) hv]
  refine rel_bind_same fun l _ => rel_bind_same fun v hv => ?_
  rw [hi (by decide) hv]
  refine rel_bind_same fun u _ => rel_bind_same fun v hv => ?_
  rw [hi (by decide) hv]
  exact rel_refl

/-- The data of a loop that starts from one value. -/
theorem Head.inits_single {v : ValueId} {ds : List Datum} (hdrop : hd.operands.drop 3 = [v]) :
    hd.inits S = some ds ↔ ∃ d, S v = some d ∧ ds = [d] := by
  have hlen : 3 ≤ hd.operands.length := by
    have := congrArg List.length hdrop
    simp only [length_drop, length_singleton] at this
    omega
  have hitems : (itemsAfter hd.operands 3).toOption = some [v] :=
    toOption_eq_some.2 (itemsAfter_ok.2 ⟨by decide, by exact_mod_cast hlen, hdrop.symm⟩)
  rw [Head.inits, hitems]
  cases hd : S v <;> simp [hd, eq_comm]

namespace LoopPair

variable {V : List ValueId} {n : Node} {p : NestParts} (h : LoopPair V n p)
variable {o : Int64} {U : Store} {ds : List Datum}

include h

/-! ## 3. Scopes -/

theorem threads : Threads V n p.pair where
  inScope := h.inScope
  apart := h.apart
  outerKind := h.outerKind
  outerArgs := h.outerArgs
  outerInits := h.outerInits
  outerBody := h.outerBody
  priorInner := h.priorInner
  innerKind := h.innerKind
  innerArgs := h.innerArgs
  innerBounds := h.innerBounds
  innerInits := h.innerInits
  innerBody := h.innerBody
  bodyInner := h.bodyInner
  passes m hm c hc := by
    obtain rfl := mem_singleton.1 hc
    exact h.passes m hm

theorem apartBody : Apart ([p.outerIv, p.outerCarried] ++ V) n.nodes := h.outerArgs ▸ h.apart.body

theorem scopedPrior : ScopedAll (p.outerIv :: V) p.prior := h.threads.scopedPrior

theorem scopedInner : ScopedAll ([p.innerIv, p.innerCarried] ++ (outs p.prior ++ p.outerIv :: V))
    p.inner.nodes := h.threads.scopedInner

/-! ## 4. The loops walk over pairs -/

theorem carried_notMem : p.outerCarried ∉ V := fun hmem => by
  refine h.apart.outside _ hmem ?_
  rw [defs_single, h.outerArgs]
  simp

variable {S : Store} {d first : Datum} {v : ValueId} {os : List Int64}

theorem prior_notMem (hv : v ∈ [p.outerIv, p.outerCarried] ++ V) : v ∉ outs p.prior := by
  obtain ⟨y, hnodes, -, -⟩ := h.outerBody
  have hnot := h.apartBody.outside v hv
  rw [hnodes, defs_append, mem_append, not_or] at hnot
  exact fun hout => hnot.1 (outs_subset_defs _ hout)

/-- What is visible before the loops is not changed by what comes before the inner one. -/
theorem base_visible (hU : p.base S d o = some U) (hv : v ∈ V) : U v = S v := by
  rw [execAll_frame hU (h.prior_notMem (mem_append_right _ hv))]
  refine Store.assign_of_notMem fun hmem => h.apart.outside v hv ?_
  rw [defs_single, h.outerArgs]
  simp only [mem_append]
  exact .inl (.inr hmem)

/-- The carried datum has no influence on what comes before the inner loop. -/
theorem base_congr (hU : p.base S d o = some U) (first : Datum) :
    ∃ U₀, p.base S first o = some U₀ ∧ Follows (fun v => v)
      (outs p.prior ++ p.outerIv :: V) U₀ U := by
  have hstart : Follows (fun v => v) (p.outerIv :: V)
      (S.assign [p.outerIv, p.outerCarried] [.index o, d])
      (S.assign [p.outerIv, p.outerCarried] [.index o, first]) := by
    intro v hv
    rw [Store.assign_pair, Store.assign_pair]
    split
    · rfl
    · next hne =>
      rw [if_neg, if_neg] <;>
        exact fun heq => h.carried_notMem (heq ▸ (mem_cons.1 hv).resolve_left hne)
  obtain ⟨U₀, hU₀, hfollows⟩ := execAll_congr h.scopedPrior hstart hU
  exact ⟨U₀, hU₀, fun v hv => (hfollows v hv).symm⟩

/-- The inner body yields one datum. -/
theorem inner_single (hrun : runAll p.inner.nodes U = some ds) : ∃ d, ds = [d] := by
  obtain ⟨y, hnodes, hterm, hoperands⟩ := h.innerBody
  rw [hnodes, runAll_append h.bodyInner, Option.bind_eq_some_iff] at hrun
  obtain ⟨T, -, hrun⟩ := hrun
  rw [runAll_terminator hterm, hoperands, mapM_cons] at hrun
  obtain ⟨d, -, hrun⟩ := Option.bind_eq_some_iff.1 hrun
  exact ⟨d, (Option.some.inj hrun).symm⟩

/-- One iteration of the inner loop, in an iteration of the outer one that carries any datum. -/
theorem inner_iteration {i : Int64} {d' : Datum} (hU : p.base S d' o = some U)
    (first d : Datum) : Head.iteration p.inner.args (runAll p.inner.nodes) U [d] i =
      (p.step S first (o, i) d).map fun d => [d] := by
  obtain ⟨U₀, hU₀, hfollows⟩ := h.base_congr hU first
  have hassign : Follows (fun v => v)
    ([p.innerIv, p.innerCarried] ++ (outs p.prior ++ p.outerIv :: V))
      (p.entered U₀ i d) (p.entered U i d) :=
    hfollows.assign_fixed (fun _ _ _ => Iff.rfl) _
  have hsame := runAll_congr h.scopedInner hassign
  rw [Head.iteration, h.innerArgs, ← hsame, NestParts.step, hU₀, Option.bind_some]
  cases hrun : runAll p.inner.nodes (p.entered U₀ i d) with
  | none => rfl
  | some ds =>
    obtain ⟨d', rfl⟩ := h.inner_single hrun
    rfl

/-- One iteration of the outer loop runs the inner one. -/
theorem outer_parts (hrun : Head.iteration n.args (runAll n.nodes) S [d] o = some ds) : ∃ U is,
      p.base S d o = some U ∧ p.inner.head.ivs S = some is ∧ p.inner.head.ivs U = some is ∧
      p.inner.head.inits U = some [d] ∧
      is.foldlM (Head.iteration p.inner.args (runAll p.inner.nodes) U) [d] = some ds := by
  obtain ⟨y, hnodes, hterm, hoperands⟩ := h.outerBody
  rw [Head.iteration, h.outerArgs, hnodes, runAll_append h.priorInner,
    Option.bind_eq_some_iff] at hrun
  obtain ⟨U, hU, hrun⟩ := hrun
  have hinner : p.inner.head.kind.isTerminator = false := by rw [h.innerKind]; rfl
  rw [runAll_cons hinner, Option.bind_eq_some_iff] at hrun
  obtain ⟨T, hT, hrun⟩ := hrun
  obtain ⟨is, inits, outs, his, hinits, -, houts, rfl⟩ := (exec_loop_iff h.innerKind).1 hT
  have hivs : p.inner.head.ivs S = some is := by
    rw [← his]
    exact (Head.ivs_of_bounds fun v hv => h.base_visible hU (h.innerBounds v hv)).symm
  have hcarried : U p.outerCarried = some d := by
    have hne : p.outerCarried ≠ p.outerIv := by
      have := h.apart.nodup
      rw [defs_single, h.outerArgs] at this
      grind
    rw [execAll_frame hU (h.prior_notMem (by simp)), Store.assign_pair, if_neg hne, if_pos rfl]
  obtain ⟨d₁, hd₁, rfl⟩ := (Head.inits_single h.innerInits).1 hinits
  cases hcarried.symm.trans hd₁
  have hsingle := houts
  rw [foldlM_single (fun d i _ => h.inner_iteration hU d d), Option.map_eq_some_iff] at hsingle
  obtain ⟨r, -, rfl⟩ := hsingle
  obtain ⟨v, hv⟩ := length_eq_one_iff.1 h.innerResults
  rw [runAll_terminator hterm, hoperands, hv] at hrun
  obtain rfl : [r] = ds := by
    simpa [Store.assign] using hrun
  exact ⟨U, is, hU, hivs, his, hinits, houts⟩

/-- One iteration of the outer loop walks over the pairs with its variable. -/
theorem outer_iteration (first : Datum)
    (hrun : Head.iteration n.args (runAll n.nodes) S [d] o = some ds) :
    ∃ U is r, p.base S d o = some U ∧ p.inner.head.ivs S = some is ∧
      (is.map (o, ·)).foldlM (fun d x => p.step S first x d) d = some r ∧ ds = [r] := by
  obtain ⟨U, is, hU, his, -, -, houts⟩ := h.outer_parts hrun
  rw [foldlM_single (fun d i _ => h.inner_iteration hU first d), Option.map_eq_some_iff] at houts
  obtain ⟨r, hr, rfl⟩ := houts
  refine ⟨U, is, r, hU, his, ?_, rfl⟩
  rw [foldlM_map]
  exact hr

theorem outer_iterations {is : List Int64} (his : p.inner.head.ivs S = some is) (first : Datum)
    (hrun : os.foldlM (Head.iteration n.args (runAll n.nodes) S) [d] = some ds) :
    (∀ o ∈ os, ∃ U, p.base S first o = some U) ∧ ∃ r,
      (outerFirst os is).foldlM (fun d x => p.step S first x d) d = some r ∧ ds = [r] := by
  induction os generalizing d with
  | nil => exact ⟨by simp, d, rfl, (Option.some.inj hrun).symm⟩
  | cons o os ih =>
    obtain ⟨c, hc, hrun⟩ := Option.bind_eq_some_iff.1 hrun
    obtain ⟨U, is', d', hU, his', hd', rfl⟩ := h.outer_iteration first hc
    cases his.symm.trans his'
    obtain ⟨hbases, r, hr, rfl⟩ := ih hrun
    refine ⟨fun o' ho' => ?_, r, ?_, rfl⟩
    · rcases mem_cons.1 ho' with rfl | ho'
      · obtain ⟨U₀, hU₀, -⟩ := h.base_congr hU first
        exact ⟨U₀, hU₀⟩
      · exact hbases o' ho'
    · rw [outerFirst, flatMap_cons, foldlM_append, hd']
      exact hr

/-- **The loops walk over the pairs of their variables, the outer one first.** -/
theorem exec_outer {T : Store} (hos : n.head.ivs S = some (o :: os)) (hT : n.exec S = some T) :
    ∃ first is r, S p.outerInit = some first ∧
      p.inner.head.ivs S = some is ∧ (∀ x ∈ o :: os, ∃ U, p.base S first x = some U) ∧
      (outerFirst (o :: os) is).foldlM (fun d x => p.step S first x d) first = some r ∧
      T = S.assign n.head.results [r] := by
  obtain ⟨os', inits, outs, hos', hinits, -, houts, rfl⟩ := (exec_loop_iff h.outerKind).1 hT
  cases hos.symm.trans hos'
  obtain ⟨first, hfirst, rfl⟩ := (Head.inits_single h.outerInits).1 hinits
  have hfold := houts
  obtain ⟨c, hc, -⟩ := Option.bind_eq_some_iff.1 hfold
  obtain ⟨-, is, -, -, his, -, -⟩ := h.outer_iteration first hc
  obtain ⟨hbases, r, hr, rfl⟩ := h.outer_iterations his first houts
  exact ⟨first, is, r, hfirst, his, hbases, hr, rfl⟩

end LoopPair

end ConvNest.Program

/-
# Exchanged loops compute the same

`Swapped` is what is known of the loops that take the place of two others: the bounds are exchanged,
the operations before the inner loop are copied into the new outer loop or into the new inner one,
and the inner body is copied.

The new loops walk over the same pairs, the inner variable first (`Swapped.exec_outer`).  If the
slices of different pairs are disjoint, the order of the pairs does not matter (`Swapped.serves`).
-/
import ConvNest.Proofs.SwapScenes
import ConvNest.Proofs.SwapThreads

namespace ConvNest.Program

open Node List

/-- Pairs of the variables of two loops, the inner one first. -/
def innerFirst (os is : List Int64) : List (Int64 × Int64) := is.flatMap fun i => os.map (·, i)

theorem outerFirst_perm (os is : List Int64) : (outerFirst os is).Perm (innerFirst os is) := by
  induction os with
  | nil => simp [outerFirst, innerFirst]
  | cons o os ih =>
    exact (ih.append_left _).trans (map_append_flatMap_perm _ _ _)

/-! ## 1. The order of pairs -/

namespace Nest

variable {V : List ValueId} {n : Node} {p : NestParts} (h : Nest V n p)

include h

variable {S : Store} {t₀ : Tensor} {x : Int64 × Int64} {xs ys : List (Int64 × Int64)}

/-- The positions that the slice of a pair covers. -/
def region (p : NestParts) (S : Store) (t₀ : Tensor) (x : Int64 × Int64) (j : Nat) : Prop :=
  ∃ w, p.box S (.tensor t₀) x = some w ∧ Tensor.Covers t₀.dims w.1 w.2 j

/-- A step that starts from a tensor comes to a tensor. -/
theorem step_tensor (t : Tensor) : p.step S (.tensor t₀) x (.tensor t) =
    (p.tensorStep S (.tensor t₀) x t).map .tensor := by
  rw [NestParts.tensorStep]
  cases hstep : p.step S (.tensor t₀) x (.tensor t) with
  | none => rfl
  | some d =>
    obtain ⟨U, -, hd⟩ := Option.bind_eq_some_iff.1 hstep
    obtain ⟨ds, hds, hd⟩ := Option.bind_eq_some_iff.1 hd
    obtain ⟨-, -, -, -, t', -, -, rfl⟩ := h.inserts_of_run hds
    cases hd
    rfl

theorem foldlM_tensor (t : Tensor) :
    xs.foldlM (fun d x => p.step S (.tensor t₀) x d) (.tensor t) =
      (xs.foldlM (fun t x => p.tensorStep S (.tensor t₀) x t) t).map Datum.tensor := by
  induction xs generalizing t with
  | nil => rfl
  | cons x xs ih =>
    rw [foldlM_cons, foldlM_cons, h.step_tensor]
    cases p.tensorStep S (.tensor t₀) x t with
    | none => rfl
    | some t' => exact ih t'

/-- Pairs with disjoint slices can be walked over in any order. -/
theorem foldlM_perm (hperm : xs.Perm ys) (hbase : ∀ x ∈ xs, ∃ U, p.base S (.tensor t₀) x.1 = some U)
    (hbox : ∀ x ∈ xs, ∃ w, p.box S (.tensor t₀) x = some w)
    (hdisj : xs.Pairwise fun x y => ∀ j, region p S t₀ x j → ¬ region p S t₀ y j) {d : Datum}
    (hfold : xs.foldlM (fun d x => p.step S (.tensor t₀) x d) (.tensor t₀) = some d) :
    ys.foldlM (fun d x => p.step S (.tensor t₀) x d) (.tensor t₀) = some d := by
  rw [h.foldlM_tensor, Option.map_eq_some_iff] at hfold ⊢
  obtain ⟨t, ht, rfl⟩ := hfold
  refine ⟨t, Tensor.foldlM_perm hperm (fun x hx => ?_) hdisj
    (show t₀.Alike t₀ from .refl _ _) ht, rfl⟩
  obtain ⟨U, hU⟩ := hbase x hx
  obtain ⟨w, hw⟩ := hbox x hx
  have hregion : region p S t₀ x = Tensor.Covers t₀.dims w.1 w.2 := by
    funext j
    simp [region, hw]
  rw [hregion]
  exact h.step_local hU hw

end Nest

/-- The offsets and sizes of the slice that the node of a scene extracts or inserts. -/
def Scene.slice (s : Scene) : Option (List Int64 × List Int64) :=
  s.node.head.offsetsAndSizes.bind fun q => Head.sliceWords s.store q.1 q.2

/-- No index lies in both slices. -/
def DisjointSlices (w w' : List Int64 × List Int64) : Prop :=
  ∀ q, ¬ (Tensor.InSlice w.1 w.2 q ∧ Tensor.InSlice w'.1 w'.2 q)

/-- Disjoint slices cover different positions, as long as positions do not wrap around. -/
theorem DisjointSlices.covers {w w' : List Int64 × List Int64} (h : DisjointSlices w w')
    {dims : List Int64} (hfits : Tensor.volume dims ≤ 2 ^ 63) {j : Nat}
    (hj : Tensor.Covers dims w.1 w.2 j) : ¬ Tensor.Covers dims w'.1 w'.2 j := by
  rintro ⟨q', i', hin', hpos', heq'⟩
  obtain ⟨q, i, hin, hpos, heq⟩ := hj
  have hi := Tensor.position_toInt_zero hfits hpos
  have hi' := Tensor.position_toInt_zero hfits hpos'
  have hb := Tensor.rowMajor_bounds (Tensor.position_inside hpos)
  have hb' := Tensor.rowMajor_bounds (Tensor.position_inside hpos')
  have hsame : i = i' := Int64.toInt_inj.1 (by omega)
  subst hsame
  obtain rfl := Tensor.position_inj hfits hpos hpos'
  exact h q ⟨hin, hin'⟩

/-! ## 2. The new loops -/

/-- The names of the loop variables, of what the inner loop carries, and of what is defined in both
bodies. -/
def NestParts.names (p : NestParts) : List ValueId :=
  p.innerIv :: p.innerCarried :: p.outerIv :: (defs p.prior ++ defs p.body)

namespace LoopPair

variable {V : List ValueId} {n : Node} {p : NestParts} (h : LoopPair V n p)

include h

/-- The names of what the loops define are different. -/
theorem namesNodup : p.names.Nodup := by
  have hnodup := h.threads.namesNodup
  simp only [PairParts.names, NestParts.names, NestParts.pair, cons_append, nil_append, nodup_cons,
    mem_cons] at hnodup ⊢
  tauto

/-- What the loops define is not visible before them. -/
theorem names_notMem {u : ValueId} (hu : u ∈ p.names) : u ∉ V :=
  h.threads.names_notMem (by
    simp only [PairParts.names, NestParts.names, NestParts.pair, cons_append, nil_append,
      mem_cons] at hu ⊢
    tauto)

end LoopPair

/-- The parts of the new loops: what moves into the inner one and what stays in the outer one, the
copies of both and of the inner body, and the new inner loop. -/
structure SwapParts where
  sunk : List Node
  hoisted : List Node
  sunk' : List Node
  hoisted' : List Node
  body' : List Node
  inner' : Node
  carried' : ValueId

/-- The body of the new outer loop is made of copies, which are renamed by `ρ`. -/
structure SwappedBody (V : List ValueId) (n : Node) (p : NestParts) (q : SwapParts)
    (ρ : ValueId → ValueId) : Prop where
  split : (q.sunk ++ q.hoisted).Perm p.prior
  scopedHoisted : ScopedAll V q.hoisted
  scopedSunk : ScopedAll (outs q.hoisted ++ p.outerIv :: V) q.sunk
  innerKind : q.inner'.head.kind = .forLoop
  innerBounds : q.inner'.head.operands.take 3 = n.head.operands.take 3
  innerInits : q.inner'.head.operands.drop 3 = [q.carried']
  innerArgs : q.inner'.args = [ρ p.outerIv, ρ p.innerCarried]
  innerResults : q.inner'.head.results.length = 1
  innerBody : ∃ y, q.inner'.nodes = q.sunk' ++ q.body' ++ [y] ∧ y.head.kind.isTerminator = true ∧
    y.head.operands = [ρ p.result]
  hoistedMaps : MapsAll ρ q.hoisted q.hoisted'
  sunkMaps : MapsAll ρ q.sunk q.sunk'
  bodyMaps : MapsAll ρ p.body q.body'
  fixed : ∀ v ∈ V, ρ v = v
  separates : Separates ρ p.names (p.names ++ V)
  carriedNew : ∀ v ∈ p.names ++ V, ρ v ≠ q.carried'

/-- The loop `n'` is made of copies, and has the loops of the nest exchanged. -/
structure Swapped (V : List ValueId) (n : Node) (p : NestParts) (q : SwapParts)
    (ρ : ValueId → ValueId) (n' : Node) : Prop extends SwappedBody V n p q ρ where
  outerKind : n'.head.kind = .forLoop
  outerBounds : n'.head.operands.take 3 = p.inner.head.operands.take 3
  outerInits : n'.head.operands.drop 3 = [p.outerInit]
  outerArgs : n'.args = [ρ p.innerIv, q.carried']
  outerResults : n'.head.results.length = 1
  outerBody : ∃ y, n'.nodes = q.hoisted' ++ [q.inner', y] ∧ y.head.kind.isTerminator = true ∧
    y.head.operands = q.inner'.head.results

theorem pairwise_of_forall₂ {α β : Type} {R : α → β → Prop} {P : β → β → Prop} {Q : α → α → Prop}
    (hPQ : ∀ {a b a' b'}, R a b → R a' b' → P b b' → Q a a') {xs : List α} {ys : List β}
    (hR : Forall₂ R xs ys) (hP : ys.Pairwise P) : xs.Pairwise Q := by
  induction hR with
  | nil => exact .nil
  | cons hxy hR ih =>
    rw [pairwise_cons] at hP ⊢
    refine ⟨fun x' hx' => ?_, ih hP.2⟩
    obtain ⟨y', hy', hxy'⟩ := exists_of_forall₂_mem hR.flip hx'
    exact hPQ hxy hxy' (hP.1 y' hy')

/-- Loops with the same bounds have the same values of their variables. -/
theorem Head.ivs_of_take {hd hd' : Head} (h : hd'.operands.take 3 = hd.operands.take 3)
    (S : Store) :
    hd'.ivs S = hd.ivs S := by
  have hk : ∀ k < 3, hd'.operands[k]? = hd.operands[k]? := fun k hk => by
    rw [← getElem?_take_of_lt hk, h, getElem?_take_of_lt hk]
  rw [Head.ivs, Head.ivs, hk 0 (by decide), hk 1 (by decide), hk 2 (by decide)]

/-- A walk that carries one datum in a list. -/
theorem foldlM_carried {X : Type} {F : List Datum → X → Option (List Datum)}
    {f : Datum → X → Option Datum} {xs : List X}
    (hF : ∀ d, ∀ x ∈ xs, ∀ r, f d x = some r → F [d] x = some [r]) {d r : Datum}
    (h : xs.foldlM f d = some r) : xs.foldlM F [d] = some [r] := by
  induction xs generalizing d with
  | nil => rw [Option.some.inj h]; rfl
  | cons x xs ih =>
    rw [foldlM_cons] at h ⊢
    obtain ⟨c, hc, h⟩ := Option.bind_eq_some_iff.1 h
    rw [hF d x mem_cons_self c hc]
    exact ih (fun d y hy => hF d y (mem_cons_of_mem _ hy)) h

namespace Swapped

variable {V : List ValueId} {n n' : Node} {p : NestParts} {q : SwapParts} {ρ : ValueId → ValueId}
  (h : Nest V n p) (w : Swapped V n p q ρ n')

include h w

variable {S S' : Store} {first d r d₀ : Datum} {i o : Int64} {U : Store}
variable {v : ValueId} {T : Store} {os : List Int64}

omit h w in
theorem assign_one (S : Store) (v : ValueId) (d : Datum) : S.assign [v] [d] v = some d := by
  simp [Store.assign]

omit w in
/-- The operations before the inner loop are settled when it starts. -/
theorem settled (hU : p.base S first o = some U) : ∀ m ∈ p.prior, Settles U m := by
  obtain ⟨y, hnodes, -, -⟩ := h.outerBody
  have ha := h.apartBody
  rw [hnodes] at ha
  refine settled_of_execAll h.scopedPrior ⟨?_, fun v hv hd => ?_⟩ hU
  · have := ha.nodup
    rw [defs_append] at this
    exact (nodup_append.1 this).1
  · refine ha.outside v ?_ ?_
    · simp only [cons_append, mem_cons] at hv ⊢
      tauto
    · rw [defs_append]
      exact mem_append_left _ hd

omit h in
theorem mem_prior (hv : v ∈ defs q.hoisted ∨ v ∈ defs q.sunk) : v ∈ defs p.prior := by
  rw [← mem_defs_perm w.split, defs_append, mem_append]
  exact hv.symm

omit h in
theorem mem_names (hv : v ∈ defs q.hoisted ∨ v ∈ defs q.sunk) : v ∈ p.names := by
  simp [NestParts.names, w.mem_prior hv]

omit h in
/-- Different names of what the loops define stay different. -/
theorem name_ne {u : ValueId} (hu : u ∈ p.names) (hv : v ∈ p.names ++ V) (hne : v ≠ u) :
    ρ v ≠ ρ u :=
  fun heq => hne (w.separates u hu v hv heq.symm).symm

/-- A loop variable, or what the inner loop carries. -/
def IsArgument (p : NestParts) (v : ValueId) : Prop :=
  v = p.innerIv ∨ v = p.innerCarried ∨ v = p.outerIv

omit h w in
theorem IsArgument.mem (hv : IsArgument p v) : v ∈ p.names := by
  rcases hv with rfl | rfl | rfl <;> simp [NestParts.names]

omit w in
theorem IsArgument.notMem (hv : IsArgument p v) : v ∉ V ∧ v ∉ defs p.prior := by
  refine ⟨h.names_notMem hv.mem, ?_⟩
  have hnames := h.namesNodup
  simp only [NestParts.names, nodup_cons, mem_cons, mem_append, not_or] at hnames
  rcases hv with rfl | rfl | rfl <;> tauto

/-- The copies of operations before the inner loop do not define what an argument is renamed to. -/
theorem argument_notMem {ks ks' : List Node} (hmap : MapsAll ρ ks ks')
    (hks : ∀ u ∈ defs ks, u ∈ defs p.prior) (hv : IsArgument p v) : ρ v ∉ outs ks' := by
  rw [hmap.outs]
  intro hout
  obtain ⟨u, hu, heq⟩ := mem_map.1 hout
  have hprior := hks u (outs_subset_defs _ hu)
  refine w.name_ne hv.mem (mem_append_left _ (by simp [NestParts.names, hprior])) ?_ heq
  rintro rfl
  exact (hv.notMem h).2 hprior

/-- The hoisted operations define in the new outer loop what they defined in the old one, in any of
its iterations. -/
theorem exec_hoisted (hU : p.base S first o = some U) (hS : ∀ v ∈ V, S' v = S v) (i : Int64)
    (d : Datum) :
    ∃ T, execAll q.hoisted' (S'.assign [ρ p.innerIv, q.carried'] [.index i, d]) = some T ∧
      Follows ρ (outs q.hoisted ++ V) U T := by
  have hdefs : defs q.hoisted ⊆ p.names := fun v hv => w.mem_names (.inl hv)
  refine execAll_settled (fun m hm => settled h hU m ?_) w.hoistedMaps w.scopedHoisted
    (w.separates.mono hdefs (append_subset.2 ⟨fun v hv => mem_append_left _ (hdefs hv),
      subset_append_right _ _⟩)) fun v hv => ?_
  · exact w.split.mem_iff.1 (mem_append_right _ hm)
  · have hiv : IsArgument p p.innerIv := .inl rfl
    have hne : ρ v ≠ ρ p.innerIv := w.name_ne hiv.mem (mem_append_right _ hv)
      fun heq => (hiv.notMem h).1 (heq ▸ hv)
    rw [Store.assign_pair, if_neg hne, if_neg (w.carriedNew v (mem_append_right _ hv)),
      w.fixed v hv, hS v hv, h.base_visible hU hv]

/-- The new inner body finds what the old one found, once the sunk operations are executed. -/
theorem exec_sunk (hU : p.base S first o = some U) (hS : ∀ v ∈ V, S' v = S v)
    (hT : execAll q.hoisted' (S'.assign [ρ p.innerIv, q.carried'] [.index i, d₀]) = some T)
    (d : Datum) :
    ∃ T', execAll q.sunk' (T.assign [ρ p.outerIv, ρ p.innerCarried] [.index o, d]) = some T' ∧
      Follows ρ (Nest.scope V p) (p.entered U i d) T' := by
  obtain ⟨T₀, hT₀, hfollows⟩ := w.exec_hoisted h hU hS i d₀
  obtain rfl := Option.some.inj (hT₀.symm.trans hT)
  have hinnerIv : IsArgument p p.innerIv := .inl rfl
  have hcarried : IsArgument p p.innerCarried := .inr (.inl rfl)
  have houterIv : IsArgument p p.outerIv := .inr (.inr rfl)
  obtain ⟨hivs, hne⟩ : p.innerIv ≠ p.outerIv ∧ p.innerIv ≠ p.innerCarried ∧
      p.innerCarried ≠ p.outerIv := by
    have hnames := h.namesNodup
    simp only [NestParts.names, nodup_cons, mem_cons] at hnames
    tauto
  have hdefs : defs q.sunk ⊆ p.names := fun v hv => w.mem_names (.inr hv)
  -- what is visible to the sunk operations
  have hvisible {v : ValueId} (hv : v ∈ outs q.hoisted ++ p.outerIv :: V) : v ∈ p.names ++ V := by
    simp only [mem_append, mem_cons] at hv ⊢
    rcases hv with hv | rfl | hv
    · exact .inl (w.mem_names (.inl (outs_subset_defs _ hv)))
    · exact .inl houterIv.mem
    · exact .inr hv
  have hstart : Follows ρ (outs q.hoisted ++ p.outerIv :: V) U
      (T₀.assign [ρ p.outerIv, ρ p.innerCarried] [.index o, d]) := fun v hv => by
    have hmem := hvisible hv
    rw [Store.assign_pair]
    by_cases hiv : v = p.outerIv
    · subst hiv
      rw [if_pos rfl, execAll_frame hU fun hout => (houterIv.notMem h).2 (outs_subset_defs _ hout),
        Store.assign_pair, if_pos rfl]
    · have hold : v ∈ outs q.hoisted ++ V := by
        simp only [mem_append, mem_cons] at hv ⊢
        tauto
      have hc : v ≠ p.innerCarried := by
        rintro rfl
        rcases mem_append.1 hold with hold | hold
        · exact (hcarried.notMem h).2 (w.mem_prior (.inl (outs_subset_defs _ hold)))
        · exact (hcarried.notMem h).1 hold
      rw [if_neg (w.name_ne houterIv.mem hmem hiv), if_neg (w.name_ne hcarried.mem hmem hc)]
      exact hfollows v hold
  obtain ⟨T', hT', hend⟩ := execAll_settled (fun m hm => settled h hU m
    (w.split.mem_iff.1 (mem_append_left _ hm))) w.sunkMaps w.scopedSunk
    (w.separates.mono hdefs (append_subset.2 ⟨fun v hv => mem_append_left _ (hdefs hv),
      fun v hv => hvisible hv⟩)) hstart
  have hsunk {v : ValueId} (hv : IsArgument p v) : ρ v ∉ outs q.sunk' :=
    argument_notMem h w w.sunkMaps (fun u hu => w.mem_prior (.inr hu)) hv
  refine ⟨T', hT', fun v hv => ?_⟩
  rw [NestParts.entered_apply]
  by_cases hi : v = p.innerIv
  · subst hi
    rw [if_pos rfl, execAll_frame hT' (hsunk hinnerIv), Store.assign_pair,
      if_neg (w.name_ne houterIv.mem (mem_append_left _ hinnerIv.mem) hivs),
      if_neg (w.name_ne hcarried.mem (mem_append_left _ hinnerIv.mem) hne.1),
      execAll_frame hT
        (argument_notMem h w w.hoistedMaps (fun u hu => w.mem_prior (.inl hu)) hinnerIv),
      Store.assign_pair, if_pos rfl]
  · rw [if_neg hi]
    by_cases hc : v = p.innerCarried
    · subst hc
      rw [if_pos rfl, execAll_frame hT' (hsunk hcarried), Store.assign_pair,
        if_neg (w.name_ne houterIv.mem (mem_append_left _ hcarried.mem) hne.2), if_pos rfl]
    · rw [if_neg hc]
      refine hend v ?_
      have hprior : v ∈ outs p.prior → v ∈ outs q.sunk ∨ v ∈ outs q.hoisted := fun hout => by
        rw [← mem_outs_perm w.split, outs_append, mem_append] at hout
        exact hout
      simp only [Nest.scope, mem_append, mem_cons] at hv ⊢
      tauto

/-! ## 3. The new loops walk over pairs -/

/-- The copy of the inner body yields what the body yields. -/
theorem run_body {A : Store} (hfollows : Follows ρ (Nest.scope V p) A T) {y : Node}
    (hterm : y.head.kind.isTerminator = true)
    (hoperands : y.head.operands = [ρ p.result]) {ds : List Datum}
    (hrun : runAll p.inner.nodes A = some ds) : runAll (q.body' ++ [y]) T = some ds := by
  obtain ⟨z, hnodes, hz, hresult⟩ := h.innerBody
  have hscoped : ScopedAll (Nest.scope V p) (p.body ++ [z]) := hnodes ▸ h.scopedInner
  rw [scopedAll_append] at hscoped
  have hmem : p.result ∈ outs p.body ++ Nest.scope V p :=
    (scoped_iff.1 (scopedAll_cons.1 hscoped.2).1).1 _ (by simp [hresult])
  have hbody : defs p.body ⊆ p.names := fun v hv => by simp [NestParts.names, hv]
  have hscope : Nest.scope V p ⊆ p.names ++ V := fun v hv => by
    have := outs_subset_defs p.prior (a := v)
    simp only [NestParts.names] at hv ⊢
    grind
  rw [hnodes, runAll_append h.bodyInner, Option.bind_eq_some_iff] at hrun
  obtain ⟨C, hC, hend⟩ := hrun
  obtain ⟨C', hC', hsame⟩ :=
    execAll_maps w.bodyMaps hscoped.1 (w.separates.mono hbody (append_subset.2
    ⟨fun v hv => mem_append_left _ (hbody hv), hscope⟩)) hfollows hC
  rw [← hend, runAll_append (w.bodyMaps.inner h.bodyInner), hC', Option.bind_some,
    runAll_terminator hterm, runAll_terminator hz, hoperands, hresult, mapM_cons, mapM_cons,
    hsame _ hmem]
  rfl

/-- One iteration of the new inner loop. -/
theorem inner_iteration (hU : p.base S first o = some U) (hS : ∀ v ∈ V, S' v = S v)
    (hT : execAll q.hoisted' (S'.assign [ρ p.innerIv, q.carried'] [.index i, d₀]) = some T)
    (hstep : p.step S first (o, i) d = some r) :
    Head.iteration q.inner'.args (runAll q.inner'.nodes) T [d] o = some [r] := by
  obtain ⟨T', hT', hfollows⟩ := w.exec_sunk h hU hS hT d
  obtain ⟨y, hnodes, hterm, hoperands⟩ := w.innerBody
  have hsunk : ∀ m ∈ q.sunk, m.head.kind.isTerminator = false := fun m hm =>
    h.priorInner m (w.split.mem_iff.1 (mem_append_left _ hm))
  rw [NestParts.step, hU, Option.bind_some] at hstep
  obtain ⟨ds, hds, hr⟩ := Option.bind_eq_some_iff.1 hstep
  obtain ⟨d', rfl⟩ := h.inner_single hds
  cases hr
  rw [Head.iteration, w.innerArgs, hnodes, append_assoc,
    runAll_append (w.sunkMaps.inner hsunk), hT', Option.bind_some]
  exact w.run_body h hfollows hterm hoperands hds

/-- One iteration of the new outer loop walks over the pairs with its variable. -/
theorem outer_iteration (hos : n.head.ivs S = some os) (hne : os ≠ [])
    (hbase : ∀ o ∈ os, ∃ U, p.base S first o = some U) (hS : ∀ v ∈ V, S' v = S v)
    (hwalk : (os.map (·, i)).foldlM (fun d x => p.step S first x d) d = some r) :
    Head.iteration n'.args (runAll n'.nodes) S' [d] i = some [r] := by
  obtain ⟨o, ho⟩ := exists_mem_of_ne_nil os hne
  obtain ⟨U, hU⟩ := hbase o ho
  obtain ⟨T, hT, hfollows⟩ := w.exec_hoisted h hU hS i d
  obtain ⟨y, hnodes, hterm, hoperands⟩ := w.outerBody
  have hhoisted : ∀ m ∈ q.hoisted, m.head.kind.isTerminator = false := fun m hm =>
    h.priorInner m (w.split.mem_iff.1 (mem_append_right _ hm))
  have hinner : q.inner'.head.kind.isTerminator = false := by rw [w.innerKind]; rfl
  have hivs : q.inner'.head.ivs T = some os := by
    rw [← hos, Head.ivs_of_take w.innerBounds]
    refine Head.ivs_of_bounds fun v hv => ?_
    have hV : v ∈ V := (scoped_iff.1 h.inScope).1 v (mem_of_mem_take hv)
    have := hfollows v (mem_append_right _ hV)
    rw [w.fixed v hV] at this
    rw [this, h.base_visible hU hV]
  have hcarried : T q.carried' = some d := by
    have hout : q.carried' ∉ outs q.hoisted' := by
      rw [w.hoistedMaps.outs]
      intro hmem
      obtain ⟨u, hu, heq⟩ := mem_map.1 hmem
      exact w.carriedNew u (mem_append_left _ (w.mem_names (.inl (outs_subset_defs _ hu)))) heq
    have hiv : q.carried' ≠ ρ p.innerIv := fun heq =>
      w.carriedNew p.innerIv (mem_append_left _ (IsArgument.mem (.inl rfl))) heq.symm
    rw [execAll_frame hT hout, Store.assign_pair, if_neg hiv, if_pos rfl]
  have hinits : q.inner'.head.inits T = some [d] :=
    (Head.inits_single w.innerInits).2 ⟨d, hcarried, rfl⟩
  rw [foldlM_map] at hwalk
  have hfold : os.foldlM (Head.iteration q.inner'.args (runAll q.inner'.nodes) T) [d] = some [r] :=
    foldlM_carried (fun d o ho r hstep => by
      obtain ⟨U, hU⟩ := hbase o ho
      exact w.inner_iteration h hU hS hT hstep) hwalk
  obtain ⟨v, hv⟩ := length_eq_one_iff.1 w.innerResults
  have hsome : q.inner'.exec T = some (T.assign q.inner'.head.results [r]) :=
    (exec_loop_iff w.innerKind).2 ⟨os, [d], [r], hivs, hinits, by simp [w.innerArgs], hfold, rfl⟩
  rw [Head.iteration, w.outerArgs, hnodes, runAll_append (w.hoistedMaps.inner hhoisted), hT,
    Option.bind_some, runAll_cons hinner, hsome, Option.bind_some, runAll_terminator hterm,
    hoperands, hv]
  simp [Store.assign]

/-- **The new loops walk over the pairs of the variables, the inner one first.** -/
theorem exec_outer {is : List Int64} (hos : n.head.ivs S = some os) (hne : os ≠ [])
    (his : p.inner.head.ivs S = some is) (hfirst : S p.outerInit = some first)
    (hbase : ∀ o ∈ os, ∃ U, p.base S first o = some U) (hS : ∀ v ∈ V, S' v = S v)
    (hwalk : (innerFirst os is).foldlM (fun d x => p.step S first x d) first = some r) :
    n'.exec S' = some (S'.assign n'.head.results [r]) := by
  have hinit : p.outerInit ∈ V := (scoped_iff.1 h.inScope).1 _
    (mem_of_mem_drop (by rw [h.outerInits]; simp))
  have hivs : n'.head.ivs S' = some is := by
    rw [← his, Head.ivs_of_take w.outerBounds]
    exact Head.ivs_of_bounds fun v hv => hS v (h.innerBounds v hv)
  have hinits : n'.head.inits S' = some [first] :=
    (Head.inits_single w.outerInits).2 ⟨first, (hS _ hinit).trans hfirst, rfl⟩
  rw [innerFirst, Box.foldlM_flatMap] at hwalk
  exact (exec_loop_iff w.outerKind).2 ⟨is, [first], [r], hivs, hinits, by simp [w.outerArgs],
    foldlM_carried (fun d i _ r hstep => w.outer_iteration h hos hne hbase hS hstep) hwalk, rfl⟩

/-! ## 4. The new loops serve for the old ones -/

/-- **The new loops compute what the old ones did**, if the slices of different iterations are
disjoint and the positions in the carried tensor do not wrap around. -/
theorem serves {σ : ValueId → ValueId} {a b : ValueId} (ha : n.head.results = [a])
    (hb : n'.head.results = [b]) (hσ : σ a = b) (hos : n.head.ivs S = some os) (hne : os ≠ [])
    (hfits : ∀ t, S p.outerInit = some (.tensor t) → Tensor.volume t.dims ≤ 2 ^ 63)
    (hdisj : ((n.log V S).tail.filter (·.node.id = p.acc.id)).Pairwise fun s s' =>
      ∀ u u', s.slice = some u → s'.slice = some u' → DisjointSlices u u') :
        Serves V n [n'] σ S := by
  intro S' T hS hT
  obtain ⟨o, os, rfl⟩ := exists_cons_of_ne_nil hne
  obtain ⟨first, is, r, hfirst, his, hbase, hwalk, rfl⟩ := h.exec_outer hos hT
  suffices hinner : (innerFirst (o :: os) is).foldlM (fun d x => p.step S first x d)
      first = some r by
    refine ⟨_, by rw [execAll_cons, w.exec_outer h hos hne his hfirst hbase hS hinner]; rfl, ?_⟩
    rintro x hx
    obtain rfl : x = a := by simpa [ha] using hx
    rw [hσ, ha, hb]
    simp [assign_one]
  cases is with
  | nil =>
    have hnil : outerFirst (o :: os) [] = [] := (outerFirst_perm (o :: os) []).eq_nil
    rwa [hnil] at hwalk
  | cons i is =>
    obtain ⟨t, rfl⟩ : ∃ t, first = .tensor t := by
      obtain ⟨c, hc, -⟩ := Option.bind_eq_some_iff.1 hwalk
      obtain ⟨U, -, hc⟩ := Option.bind_eq_some_iff.1 hc
      obtain ⟨ds, hds, -⟩ := Option.bind_eq_some_iff.1 hc
      obtain ⟨t, -, -, -, -, ht, -, -⟩ := h.inserts_of_run hds
      exact ⟨t, ht⟩
    obtain ⟨l, hl, hall⟩ := h.accumulations hos his hfirst hT
    have hfilter : l.filter (·.node.id = p.acc.id) = l := filter_eq_self.2 fun s hs => by
      obtain ⟨x, -, hx⟩ := exists_of_forall₂_mem hall hs
      simp [hx.node]
    have hpair := hdisj.sublist (hfilter ▸ hl.filter _)
    refine h.foldlM_perm (outerFirst_perm _ _) (fun x hx => ?_) (fun x hx => ?_)
      (pairwise_of_forall₂ (fun {x s y s'} hx hy hs j hj hj' => ?_) hall hpair) hwalk
    · obtain ⟨o', ho', hx⟩ := mem_flatMap.1 hx
      obtain ⟨i', -, rfl⟩ := mem_map.1 hx
      exact hbase o' ho'
    · obtain ⟨s, -, hs⟩ := exists_of_forall₂_mem hall.flip hx
      obtain ⟨u, -, hu⟩ := hs.slice
      exact ⟨u, hu⟩
    · obtain ⟨u, hsu, hu⟩ := hx.slice
      obtain ⟨u', hsu', hu'⟩ := hy.slice
      obtain ⟨z, hz, hj⟩ := hj
      obtain ⟨z', hz', hj'⟩ := hj'
      cases hu.symm.trans hz
      cases hu'.symm.trans hz'
      refine (hs u u' ?_ ?_).covers (hfits t hfirst) hj hj'
      · rw [Scene.slice, hx.node, hsu]
      · rw [Scene.slice, hy.node, hsu']

end Swapped

end ConvNest.Program

/-
# Exchanging loops keeps what a function computes

Two loops that carry a tensor can be exchanged if the slices that their iterations accumulate into
are disjoint: the function computes what it did (`swapLoops_run`).

This needs that the positions of the tensor's elements are words.  Where they are not, slices
without a common index can still share a position, and then the order of the iterations matters
(`swapLoops_run_wrapping`).
-/
import ConvNest.Proofs.Attempts
import ConvNest.Proofs.SwapExchange

namespace ConvNest.Conv

open Program Node Edit List

/-! ## 1. What is asked of the loops and of a run -/

/-- The offsets and sizes of the slice that an operation extracts or inserts, in an environment. -/
def sliceIn (g : Graph) (i : OpId) (E : Env) : Option (List Int64 × List Int64) :=
  (outcome (do
    let p ← g.offsetsAndSizes i
    Eval.sliceWords g p.1 p.2 : Eval (List Int64 × List Int64)) E).map Prod.fst

/-- The bounds of a loop, in an environment. -/
def boundsIn (g : Graph) (i : OpId) (E : Env) : Option (Int64 × Int64) :=
  (outcome (do
    let b ← g.bounds i
    return (← Eval.index g b.lower, ← Eval.index g b.upper) : Eval (Int64 × Int64)) E).map Prod.fst

/-- A loop has an iteration, from an environment. -/
def Iterates (g : Graph) (i : OpId) (E : Env) : Prop := ∃ p ∈ boundsIn g i E, p.1 < p.2

instance (g : Graph) (i : OpId) (E : Env) : Decidable (Iterates g i E) :=
  inferInstanceAs (Decidable (∃ p ∈ boundsIn g i E, p.1 < p.2))

/-- Two loops carry a tensor, and the operation `acc` accumulates into it.  The inner body reads the
tensor only through the slice that it accumulates into.  Each time the function executes the outer
loop, there is an iteration, and the slices of all iterations of both loops are disjoint. -/
structure Independent (g : Graph) (f : FuncId) (args : List Tensor) (outer inner acc : OpId) :
    Prop where
  one : g.carriedCount outer = 1
  accumulates : accumulations g inner = .ok [(acc, 0)]
  reads : ∀ v, g.carried inner = .ok [v] → ReadsOwnSlice g inner acc v
  iterates : ∀ x ∈ g.visits f args, x.op = outer → Iterates g outer x.state
  disjoint : ∀ x l, x :: l <:+ g.visits f args → x.op = outer →
    ((l.takeWhile (·.op ≠ outer)).filter (·.op = acc)).Pairwise fun y z =>
      ∀ u w, sliceIn g acc y.state = some u → sliceIn g acc z.state = some w → DisjointSlices u w

/-- The positions of all elements of the tensors that a loop starts from are words. -/
def Addressable (g : Graph) (f : FuncId) (args : List Tensor) (loop : OpId) : Prop :=
  ∀ x ∈ g.visits f args, x.op = loop → ∀ v, g.inits loop = .ok [v] → ∀ t,
    x.state[v.idx]? = some (.tensor t) → Tensor.volume t.dims ≤ 2 ^ 63

/-! ## 2. Scenes of the loops -/

theorem Head.trips_ne_nil {upper step : Int64} {fuel : Nat} {iv : Int64} {os : List Int64}
    (hlt : iv < upper) (h : Head.trips upper step fuel iv = some os) : os ≠ [] := by
  cases fuel with
  | zero => cases h
  | succ fuel =>
    rw [Head.trips, if_pos hlt] at h
    obtain ⟨rest, -, rfl⟩ := Option.map_eq_some_iff.1 h
    exact cons_ne_nil _ _

/-- What corresponds to a part of a list. -/
theorem forall₂_infix {α β : Type} {R : α → β → Prop} {xs : List α} {ys zs : List β}
    (h : Forall₂ R xs ys) (hz : zs <:+: ys) : ∃ ws, ws <:+: xs ∧ Forall₂ R ws zs := by
  obtain ⟨as, bs, rfl⟩ := hz
  refine ⟨(xs.drop as.length).take zs.length,
    ( take_prefix _ _).isInfix.trans (drop_suffix _ _).isInfix, ?_⟩
  have htake := forall₂_take zs.length (forall₂_drop as.length h)
  simpa using htake

section Shown

variable {g : Graph} {x : Visit Env} {s : Scene}

theorem agrees_operands (h : Shows x s) : Agrees s.node.head.operands x.state s.store :=
  h.agrees.mono (scoped_iff.1 h.inScope).1

theorem sliceIn_eq (h : Shows x s) (hn : Here g s.node) :
    sliceIn g s.node.id x.state = s.slice := by
  have hread := read_slice hn (agrees_operands h) pure
  simp only [bind_pure] at hread
  rw [sliceIn, Scene.slice]
  refine (congrArg (Option.map Prod.fst) hread).trans ?_
  cases (s.node.head.offsetsAndSizes.bind fun q => Head.sliceWords s.store q.1 q.2) <;> rfl

/-- A loop that has an iteration. -/
theorem ivs_ne_nil (h : Shows x s) (hn : Here g s.node) {l u c : ValueId} {inits : List ValueId}
    (hops : s.node.head.operands = l :: u :: c :: inits) (hi : Iterates g s.node.id x.state)
    {os : List Int64} (hos : s.node.head.ivs s.store = some os) : os ≠ [] := by
  obtain ⟨⟨lower, upper⟩, hb, hlt⟩ := hi
  have hag := agrees_operands h
  rw [hops] at hag
  -- both bounds are read from the same data
  have hindex : s.store.index l = some lower ∧ s.store.index u = some upper := by
    have hl := outcome_index (g := g) (hag l (by simp))
    have hu := outcome_index (g := g) (hag u (by simp))
    rw [Option.mem_def, boundsIn, ask, hn.bounds_eq hops] at hb
    simp only [Except.toOption, Option.bind_some, outcome_bind, hl] at hb
    cases hlower : s.store.index l with
    | none => simp [hlower] at hb
    | some a =>
      simp only [hlower, Option.map_some, Option.bind_some, hu] at hb
      cases hupper : s.store.index u with
      | none => simp [hupper] at hb
      | some b =>
        simp only [hupper] at hb
        cases Option.some.inj hb
        exact ⟨rfl, rfl⟩
  rw [Head.ivs, hops] at hos
  simp only [getElem?_cons_zero, getElem?_cons_succ, Option.bind_eq_bind, Option.bind_some,
    hindex.1, hindex.2] at hos
  obtain ⟨step, -, hos⟩ := Option.bind_eq_some_iff.1 hos
  split at hos
  · cases hos
  · exact Head.trips_ne_nil hlt hos

end Shown

section Runs

variable {e e' : Editor} {f : FuncId} {args ts : List Tensor} {b₀ : BlockId}
  {params V : List ValueId} {T : List Node} {n : Node} {p : NestParts} {outer inner acc : OpId}
  {S' : Store} {s : Scene}

/-- The scenes of the outer loop but the first are those of what is in it. -/
theorem mem_of_tail {S : Store} (hkind : n.head.kind = .forLoop) (hexec : n.exec S = some S')
    (h : s ∈ (n.log V S).tail) : s.node ∈ subsAll n.nodes := by
  obtain ⟨ivs, inits, outs, hivs, hinits, -⟩ := (exec_loop_iff hkind).1 hexec
  rw [log_loop hkind hivs hinits, tail_cons] at h
  obtain ⟨c, iv, hs, -⟩ := infix_walkLog h
  exact (scene_place hs).mem

/-- The slices of the iterations are disjoint wherever the outer loop is executed. -/
theorem disjoint_scenes (hv : Valid e.graph f b₀ params T) (hrun : e.graph.run f args = .ok ts)
    (hi : Independent e.graph f args n.id inner acc) (hkind : n.head.kind = .forLoop)
    (hs : s ∈ logAll params T (startStore params args)) (hn : s.node = n) (hV : s.visible = V)
    (hexec : n.exec s.store = some S') :
    ((n.log V s.store).tail.filter (·.node.id = acc)).Pairwise fun s s' =>
      ∀ u u', s.slice = some u → s'.slice = some u' → DisjointSlices u u' := by
  have hinfix := scenes_of_node hs
  rw [hn, hV] at hinfix
  obtain ⟨ws, ⟨as, bs, hws⟩, hshows⟩ := forall₂_infix (hv.visits hrun) hinfix
  obtain ⟨ivs, inits, outs, hivs, hinits, -⟩ := (exec_loop_iff hkind).1 hexec
  have hlog := log_loop (V := V) hkind hivs hinits
  have htail {s' : Scene} (hs' : s' ∈ (n.log V s.store).tail) := mem_of_tail hkind hexec hs'
  rw [hlog] at hshows htail ⊢
  generalize walkLog _ _ ivs inits = scenes at hshows htail ⊢
  obtain ⟨x, l, hx, hl, rfl⟩ := forall₂_cons_right_iff.1 hshows
  have hmem : n ∈ subsAll T := hn ▸ (scene_place hs).mem
  have hheld := hv.holds.held.single hmem
  -- nothing in the loop is the loop itself
  have hne : ∀ y ∈ l, y.op ≠ n.id := fun y hy heq => by
    obtain ⟨s', hs', hshow⟩ := exists_of_forall₂_mem hl.flip hy
    refine Held.notMem_nodes hheld ?_
    rw [← heq, hshow.op]
    exact mem_map_of_mem (htail hs')
  have hall : Forall₂ (fun s' y => Here e.graph s'.node ∧ Shows y s') scenes l :=
    (forall₂_and_left _ _).2 ⟨fun s' hs' => hheld.inner (mem_subsAll_of_mem mem_cons_self) _
      (htail hs'), hl.flip⟩
  have hfilter := rel_filter (p := fun s' => decide (s'.node.id = acc))
    (q := fun y => decide (y.op = acc)) (fun s' y h => by simp [h.2.op]) hall
  have hpaired := (forall₂_and_left _ _).2
    ⟨fun s' hs' => (of_decide_eq_true (mem_filter.1 hs').2 : s'.node.id = acc), hfilter⟩
  have hdisj := hi.disjoint x (l ++ bs) ⟨as, by rw [← hws]; simp⟩ hx.op
  rw [takeWhile_append_of_pos (by simpa using hne), filter_append] at hdisj
  refine pairwise_of_forall₂ (fun {s' y s'' y'} h h' hP u u' hu hu' => ?_) hpaired
    (pairwise_append.1 hdisj).1
  obtain ⟨rfl, hhere, hshow⟩ := h
  obtain ⟨hid, hhere', hshow'⟩ := h'
  exact hP u u' ((sliceIn_eq hshow hhere).trans hu) (hid ▸ (sliceIn_eq hshow' hhere').trans hu')

/-- The new loops serve wherever the function executes the old ones. -/
theorem servesAt_of_swapped (hv : Valid e.graph f b₀ params T) (hn : Place params T V n)
    (hrun : e.graph.run f args = .ok ts) (hnest : Nest V n p)
    (hi : Independent e.graph f args n.id inner p.acc.id)
    (ha : Addressable e.graph f args n.id) {n' : Node} {q : SwapParts} {ρ σ : ValueId → ValueId}
    (hswapped : Swapped V n p q ρ n') (hσ : n.head.results.map σ = n'.head.results)
    (hs : s ∈ logAll params T (startStore params args)) : ServesAt V n [n'] σ s := by
  intro hid hpoint S' U hS hexec
  have hids := hv.holds.ids_nodup hv.sane
  have hnode : s.node = n := eq_of_id hids (scene_place hs).mem hn.mem hid
  have hvisible : s.visible = V := (scene_place hs).unique hids hn hid
  have hhere : Here e.graph n := hv.holds.held n hn.mem
  obtain ⟨x, hx, hshows⟩ := exists_of_forall₂_mem (hv.visits hrun) hs
  have hop : x.op = n.id := hshows.op.trans hid
  obtain ⟨l, u, c, inits, -, -, hops, -, -⟩ := loop_parts (hv.rules n hn.mem) hnest.outerKind
  obtain rfl : inits = [p.outerInit] := by simpa [hops] using hnest.outerInits
  obtain ⟨os, -, -, hos, -⟩ := (exec_loop_iff hnest.outerKind).1 hexec
  have hne : os ≠ [] := ivs_ne_nil hshows (hnode ▸ hhere) (hnode ▸ hops)
    (hid ▸ hi.iterates x hx hop) (hnode ▸ hos)
  obtain ⟨a, hresult⟩ := length_eq_one_iff.1 hnest.outerResults
  obtain ⟨b, hresult'⟩ := length_eq_one_iff.1 hswapped.outerResults
  rw [hresult, hresult'] at hσ
  refine hswapped.serves hnest hresult hresult' (by simpa using hσ) hos hne (fun t ht => ?_)
    (disjoint_scenes hv hrun hi hnest.outerKind hs hnode hvisible hexec) S' U hS hexec
  have hag := agrees_operands hshows
  rw [hnode, hops] at hag
  exact ha x hx hop p.outerInit (hhere.inits_eq hops) t ((hag _ (by simp)).trans ht)

end Runs

/-! ## 3. Runs -/

variable {e : Editor}

/-- What `swapLoops` has done. -/
theorem swapLoops_ok {h h' : LoopNest} {e' : Editor} {inner outer : Option OpId}
    {rest : List (Option OpId)} (hloops : h.loops = inner :: outer :: rest)
    (hswap : (swapLoops h).run e = .ok (.ok h') e') :
    ∃ plan r, (swapPlan e.graph outer inner).run = .ok (.ok plan) ∧ exchange plan e = .ok r e' := by
  rw [swapLoops, hloops] at hswap
  cases hk : h.kernel with
  | none =>
    rw [hk] at hswap
    cases hswap
  | some kernel =>
    rw [hk] at hswap
    obtain ⟨g, e₁, hgraph, hswap⟩ := Attempt.run_bind_eq_ok.1 hswap
    obtain ⟨rfl, rfl⟩ := Edit.graph_ok.1 (Attempt.run_edit_eq_ok.1 hgraph)
    obtain ⟨plan, e₂, hinquiry, hswap⟩ := Attempt.run_bind_eq_ok.1 hswap
    obtain ⟨hplan, rfl⟩ := Attempt.run_inquiry_eq_ok.1 hinquiry
    obtain ⟨⟨⟩, e₃, hdemand, hswap⟩ := Attempt.run_bind_eq_ok.1 hswap
    obtain ⟨-, rfl⟩ := Attempt.run_inquiry_eq_ok.1 hdemand
    obtain ⟨r, e₄, hexchange, hswap⟩ := Attempt.run_bind_eq_ok.1 hswap
    obtain ⟨-, rfl⟩ := Attempt.run_pure_eq_ok.1 hswap
    exact ⟨plan, r, hplan, Attempt.run_edit_eq_ok.1 hexchange⟩

/-- **Exchanging loops keeps what a function computes.**  `swapLoops` builds a copy of the inner
loop around a copy of the outer one, so that the body runs for the same pairs of values in another
order.  Every pair reads and writes its own slice of the carried tensor (`Independent`), and where
positions are words disjoint slices have disjoint positions (`Addressable`); so the iterations
commute, and the new loops serve for the old ones. -/
theorem swapLoops_run {e e' : Editor} {f : FuncId} {args ts : List Tensor} {outer inner acc : OpId}
    {rest : List (Option OpId)} {h h' : LoopNest} (hg : Sane e.graph)
    (hf : e.graph.verify f = .ok ()) (hloops : h.loops = some inner :: some outer :: rest)
    (houter : e.graph.Contains f outer) (hi : Independent e.graph f args outer inner acc)
    (ha : Addressable e.graph f args outer) (hrun : e.graph.run f args = .ok ts)
    (hswap : (swapLoops h).run e = .ok (.ok h') e') :
    e'.graph.run f args = .ok ts := by
  obtain ⟨plan, r, hplan, hexchange⟩ := swapLoops_ok hloops hswap
  obtain ⟨b₀, params, T, hv⟩ := verify_tree hg hf
  obtain ⟨n, hn, rfl⟩ := hv.node houter
  obtain ⟨V, hplace⟩ := place_of_mem hn params
  have hheld := hv.holds.held.single hn
  have hp := swapPlan_iff.1 hplan
  obtain ⟨p, hpair, rfl, hacc⟩ := hp.single hv hplace hi.one
  obtain ⟨⟩ : acc = p.acc.id := by simpa using Except.ok.inj (hi.accumulates.symm.trans hacc)
  obtain ⟨sunk, hoisted, hsplit, rfl⟩ := hp.splits hg hheld hpair.threads
  obtain ⟨b, pre, post, n', q, e₁, e₂, hrun', hx, hbuilds, -⟩ :=
    exchange_builds hpair.threads hsplit hv hplace
  obtain ⟨q', hswapped⟩ := hbuilds.swapped hpair hsplit
  obtain ⟨rfl, rfl⟩ := EStateM.Result.ok.inj (hexchange.symm.trans hrun')
  have hinner : Here e.graph p.inner := hheld.inner (mem_subsAll_of_mem mem_cons_self) p.inner
    (mem_subsAll_of_mem hpair.threads.inner_mem)
  have hnest := nest_of_reads hg hheld hpair (hi.reads _ (hinner.carried_eq hpair.innerArgs))
  refine hx.run (by simp [outs]) hrun fun s hs =>
    servesAt_of_swapped hv hplace hrun hnest hi ha hswapped ?_ hs
  obtain ⟨a, ha⟩ := length_eq_one_iff.1 hpair.outerResults
  obtain ⟨b, hb⟩ := length_eq_one_iff.1 hswapped.outerResults
  simp [ha, hb, Exchange.subst, moved]

/-! ## 4. Scattered writes -/

/-- The slices have no common index on some axis. -/
def separated (w w' : List Int64 × List Int64) : Bool :=
  ((w.1.zip w.2).zip (w'.1.zip w'.2)).any fun p =>
    p.1.1.toInt + p.1.2.toInt ≤ p.2.1.toInt || p.2.1.toInt + p.2.2.toInt ≤ p.1.1.toInt

theorem disjoint_of_separated {w w' : List Int64 × List Int64} (h : separated w w' = true) :
    DisjointSlices w w' := by
  obtain ⟨os, zs⟩ := w
  obtain ⟨os', zs'⟩ := w'
  rintro q ⟨hq, hq'⟩
  induction q generalizing os zs os' zs' with
  | nil => cases os <;> cases os' <;> simp_all [separated, Tensor.InSlice]
  | cons x q ih =>
    rcases os with _ | ⟨o, os⟩ <;> rcases os' with _ | ⟨o', os'⟩ <;> rcases zs with _ | ⟨z, zs⟩ <;>
      rcases zs' with _ | ⟨z', zs'⟩ <;> simp only [Tensor.InSlice] at hq hq'
    simp only [separated, zip_cons_cons, any_cons, Bool.or_eq_true, decide_eq_true_eq] at h
    rcases h with h | h
    · omega
    · exact ih os zs os' zs' h hq.2 hq'.2

variable {g : Graph} {inner acc : OpId} {c : ValueId}

/-- A carried tensor is read only through its own slice, in a form that can be checked. -/
theorem readsOwnSlice_of
    (h : ∀ j ∈ (g.bodyOps inner).flatMap g.subtree, ∀ p ∈ (g.op j).operands.zipIdx, p.1 = c →
      (j = acc ∧ p.2 = 1) ∨ (g.kind j = .extractSlice ∧ p.2 = 0 ∧
        ∃ x ∈ (g.offsetsAndSizes j).toOption, (g.offsetsAndSizes acc).toOption = some x)) :
    ReadsOwnSlice g inner acc c := fun j hj k hk => by
  rcases h j hj (c, k)
    (mk_mem_zipIdx_iff_getElem?.2 hk) rfl with hacc | ⟨hkind, hzero, x, hx, hsame⟩
  · exact .inl hacc
  · refine .inr ⟨hkind, hzero, ?_⟩
    rw [toOption_eq_some.1 hx, toOption_eq_some.1 hsame]

variable {args : List Tensor}

/-- Loops that are executed once are independent if their slices are separated. -/
theorem independent_of_slices {f : FuncId} {outer : OpId} (ws : List (List Int64 × List Int64))
    (hloops : g.carriedCount outer = 1 ∧ (accumulations g inner).toOption = some [(acc, 0)] ∧
      (g.carried inner).toOption = some [c])
    (hreads : ReadsOwnSlice g inner acc c)
    (hiter : ∀ x ∈ g.visits f args, x.op = outer → Iterates g outer x.state)
    (hslices : ((g.visits f args).filter (·.op = acc)).map (sliceIn g acc ·.state) = ws.map some)
    (hws : ws.Pairwise (separated · · = true)) : Independent g f args outer inner acc where
  one := hloops.1
  accumulates := toOption_eq_some.1 hloops.2.1
  reads v hv := by
    obtain rfl : c = v := by
      simpa using Except.ok.inj ((toOption_eq_some.1 hloops.2.2).symm.trans hv)
    exact hreads
  iterates := hiter
  disjoint x l hl hx := by
    have hall : ((g.visits f args).filter (·.op = acc)).Pairwise fun y z => ∀ u w,
        sliceIn g acc y.state = some u → sliceIn g acc z.state = some w → DisjointSlices u w := by
      rw [← pairwise_map (R := fun a b => ∀ u w, a = some u → b = some w → DisjointSlices u w),
        hslices, pairwise_map]
      exact hws.imp fun h u w hu hw => by
        obtain ⟨rfl, rfl⟩ := And.intro (Option.some.inj hu) (Option.some.inj hw)
        exact disjoint_of_separated h
    exact hall.sublist (((takeWhile_sublist _).trans
      ((sublist_cons_self x l).trans hl.sublist)).filter _)

/-- A function that writes the four elements of its second argument into its first one, taken as a
grid with rows of eight elements: two elements of a row are read, the second of them is overwritten,
and both are written back.  The rows are `stride` apart. -/
def scatter (height stride : Int64) : Editor :=
  let build : Edit Unit := do
    let f ← newFunc "scatter" [.tensor (.ofSizes .int32 [height * 8]),
      .tensor (.ofSizes .int32 [2, 2])]
    setPoint (pointAtEnd (← bodyOf f))
    let grid ← expand ⟨0⟩ [[0, 1]] (.ofSizes .int32 [height, 8])
    let zero ← constIndex 0
    let two ← constIndex 2
    let one ← constIndex 1
    let (outer, _) ← forLoop zero two one [grid] fun o carried => do
      let row ← affineApply ⟨1, 0, [.mul (.dim 0) (.const stride)]⟩ [o]
      let base ← affineApply ⟨1, 0, [.add (.dim 0) (.const (-1))]⟩ [one]
      let (inner, _) ← forLoop zero two one carried fun i carried => do
        let column := .add (.dim 0) (.mul (.add (.dim 1) (.dim 2)) (.const 2))
        let column ← affineApply ⟨3, 0, [column]⟩ [base, o, i]
        let dest ← itemAt carried 0
        let pair ← extractSlice dest [.dynamic row, .dynamic column] [.static 1, .static 2]
        let piece ← extractSlice ⟨1⟩ [.dynamic o, .dynamic i] [.static 1, .static 1]
        let pair ← insertSlice piece pair [.static 0, .static 1] [.static 1, .static 1]
        let dest ← insertSlice pair dest [.dynamic row, .dynamic column] [.static 1, .static 2]
        return ([dest], ())
      return ((← Edit.op inner).results, ())
    let flat ← collapse (← itemAt (← Edit.op outer).results 0) [[0, 1]]
    discard (funcReturn [flat])
  match build .empty with
  | .ok _ e => e
  | .error _ e => e

/-- The loops of the function. -/
def scatterLoops : LoopNest := ⟨some ⟨12⟩, [some ⟨7⟩, some ⟨4⟩], [], []⟩

/-- The arguments for a grid of the given elements. -/
def scatterArgs (xs : Array Int64) : List Tensor :=
  [⟨.int32, [.ofNat xs.size], .ints xs⟩, ⟨.int32, [2, 2], .ints #[1, 2, 3, 4]⟩]

/-- A run gives one tensor, with these words. -/
def gives (r : Except Fault (List Tensor)) (xs : Array Int64) : Bool :=
  match r with
  | .ok [t] => t.data.same (.ints xs)
  | _ => false

variable {r : Except Fault (List Tensor)} {xs : Array Int64}

theorem exists_of_gives (h : gives r xs = true) :
    ∃ ts, r = .ok ts := by
  cases r with
  | ok ts => exact ⟨ts, rfl⟩
  | error _ => cases h

theorem gives_unique {ys : Array Int64} (hx : gives r xs = true) (hy : gives r ys = true) :
    xs = ys := by
  unfold gives at hx hy
  split at hx
  · next t =>
    obtain ⟨elem, dims, zs | zs⟩ := t
    · simp only [Elements.same, Bool.and_eq_true, Array.isEmpty_iff] at hx hy
      rw [hx.2, hy.2]
    · simp only [Elements.same, beq_iff_eq] at hx hy
      rw [← hx, ← hy]
  · cases hx

/-- A grid of two rows. -/
def lowGrid : Array Int64 := #[10, 20, 30, 40, 50, 60, 70, 80, 11, 21, 31, 41, 51, 61, 71, 81]

theorem lowScatter_independent :
    Independent (scatter 2 1).graph ⟨0⟩ (scatterArgs lowGrid) ⟨4⟩ ⟨7⟩ ⟨12⟩ := by
  refine independent_of_slices [([0, 0], [1, 2]), ([0, 2], [1, 2]), ([1, 2], [1, 2]),
    ([1, 4], [1, 2])] (c := ⟨12⟩) ?_ (readsOwnSlice_of ?_) ?_ ?_ ?_
  all_goals decide +kernel

/-- A grid that is so high that the product of its sides wraps around: all its rows share their
positions. -/
def highGrid : Array Int64 := #[10, 20, 30, 40, 50, 60, 70, 80]

theorem highScatter_independent :
    Independent (scatter (2 ^ 61 + 1) (2 ^ 61)).graph ⟨0⟩ (scatterArgs highGrid) ⟨4⟩ ⟨7⟩ ⟨12⟩ := by
  refine independent_of_slices [([0, 0], [1, 2]), ([0, 2], [1, 2]), ([2 ^ 61, 2], [1, 2]),
    ([2 ^ 61, 4], [1, 2])] (c := ⟨12⟩) ?_ (readsOwnSlice_of ?_) ?_ ?_ ?_
  all_goals decide +kernel

/-- Whether the loops can be exchanged, and a run gives these words then. -/
def swapGives (e : Editor) (args : List Tensor) (xs : Array Int64) : Bool :=
  match (swapLoops scatterLoops).run e with
  | .ok (.ok _) e' => gives (e'.graph.run ⟨0⟩ args) xs
  | _ => false

theorem exists_of_swapGives (h : swapGives e args xs = true) :
    ∃ h' e', (swapLoops scatterLoops).run e = .ok (.ok h') e' ∧
      gives (e'.graph.run ⟨0⟩ args) xs = true := by
  unfold swapGives at h
  split at h
  · next h' e' heq => exact ⟨h', e', heq, h⟩
  · cases h

theorem swapLoops_run_scatter :
    Sane (scatter 2 1).graph ∧ (scatter 2 1).graph.verify ⟨0⟩ = .ok () ∧
    Independent (scatter 2 1).graph ⟨0⟩ (scatterArgs lowGrid) ⟨4⟩ ⟨7⟩ ⟨12⟩ ∧
    Addressable (scatter 2 1).graph ⟨0⟩ (scatterArgs lowGrid) ⟨4⟩ ∧
    ∃ ts h' e', (scatter 2 1).graph.run ⟨0⟩ (scatterArgs lowGrid) = .ok ts ∧
      (swapLoops scatterLoops).run (scatter 2 1) = .ok (.ok h') e' ∧
      e'.graph.run ⟨0⟩ (scatterArgs lowGrid) = .ok ts := by
  have hsane : Sane (scatter 2 1).graph := by decide +kernel
  have hverify : (scatter 2 1).graph.verify ⟨0⟩ = .ok () := toOption_eq_some.1 (by decide +kernel)
  have haddress : Addressable (scatter 2 1).graph ⟨0⟩ (scatterArgs lowGrid) ⟨4⟩ := by
    intro x hx hop v hv t ht
    obtain rfl : (⟨2⟩ : ValueId) = v := by
      have hinits : (scatter 2 1).graph.inits ⟨4⟩ = .ok [⟨2⟩] :=
        toOption_eq_some.1 (by decide +kernel)
      simpa using Except.ok.inj (hinits.symm.trans hv)
    have hall : ∀ x ∈ (scatter 2 1).graph.visits ⟨0⟩ (scatterArgs lowGrid), x.op = ⟨4⟩ →
        ∀ t ∈ x.state[2]?.bind Datum.tensor?, Tensor.volume t.dims ≤ 2 ^ 63 := by decide +kernel
    exact hall x hx hop t (by simp [ht, Datum.tensor?])
  have hgives : gives ((scatter 2 1).graph.run ⟨0⟩ (scatterArgs lowGrid))
    #[10, 1, 30, 2, 50, 60, 70, 80, 11, 21, 31, 3, 51, 4, 71, 81] = true := by decide +kernel
  have hswapGives : swapGives (scatter 2 1) (scatterArgs lowGrid)
    #[10, 1, 30, 2, 50, 60, 70, 80, 11, 21, 31, 3, 51, 4, 71, 81] = true := by decide +kernel
  obtain ⟨ts, hrun⟩ := exists_of_gives hgives
  obtain ⟨h', e', hswap, -⟩ := exists_of_swapGives hswapGives
  exact ⟨hsane, hverify, lowScatter_independent, haddress, ts, h', e', hrun, hswap,
    swapLoops_run hsane hverify rfl ⟨⟨0⟩, by decide +kernel, by decide +kernel⟩
      lowScatter_independent haddress hrun hswap⟩

/-- Where positions wrap around, exchanging loops changes what is computed. -/
theorem swapLoops_run_wrapping :
    Sane (scatter (2 ^ 61 + 1) (2 ^ 61)).graph ∧
    (scatter (2 ^ 61 + 1) (2 ^ 61)).graph.verify ⟨0⟩ = .ok () ∧
    (scatter (2 ^ 61 + 1) (2 ^ 61)).graph.Contains ⟨0⟩ ⟨4⟩ ∧
    Independent (scatter (2 ^ 61 + 1) (2 ^ 61)).graph ⟨0⟩ (scatterArgs highGrid) ⟨4⟩ ⟨7⟩ ⟨12⟩ ∧
    (∀ x ∈ (scatter (2 ^ 61 + 1) (2 ^ 61)).graph.visits ⟨0⟩ (scatterArgs highGrid), x.op = ⟨7⟩ →
      Iterates (scatter (2 ^ 61 + 1) (2 ^ 61)).graph ⟨7⟩ x.state) ∧
    ∃ ts h' e', (scatter (2 ^ 61 + 1) (2 ^ 61)).graph.run ⟨0⟩ (scatterArgs highGrid) = .ok ts ∧
      (swapLoops scatterLoops).run (scatter (2 ^ 61 + 1) (2 ^ 61)) = .ok (.ok h') e' ∧
      e'.graph.run ⟨0⟩ (scatterArgs highGrid) ≠ .ok ts := by
  have hgives : gives ((scatter (2 ^ 61 + 1) (2 ^ 61)).graph.run ⟨0⟩ (scatterArgs highGrid))
    #[10, 1, 30, 3, 50, 4, 70, 80] = true := by decide +kernel
  have hswapGives : swapGives (scatter (2 ^ 61 + 1) (2 ^ 61)) (scatterArgs highGrid)
    #[10, 1, 30, 2, 50, 4, 70, 80] = true := by decide +kernel
  obtain ⟨ts, hrun⟩ := exists_of_gives hgives
  obtain ⟨h', e', hswap, hgives'⟩ := exists_of_swapGives hswapGives
  have hsane : Sane (scatter (2 ^ 61 + 1) (2 ^ 61)).graph := by decide +kernel
  have hverify : (scatter (2 ^ 61 + 1) (2 ^ 61)).graph.verify ⟨0⟩ = .ok () :=
    toOption_eq_some.1 (by decide +kernel)
  refine ⟨hsane, hverify, ⟨⟨0⟩, by decide +kernel, by decide +kernel⟩, highScatter_independent,
    by decide +kernel, ts, h', e', hrun, hswap, fun heq => ?_⟩
  rw [hrun, ← heq] at hgives
  exact absurd (gives_unique hgives hgives') (by decide)

end ConvNest.Conv

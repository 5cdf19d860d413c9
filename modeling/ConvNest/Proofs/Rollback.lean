/-
# Rolling back a failed transformation

Before a transformation is applied to a target, the function is copied and the handles are saved.
If the transformation fails, the copy takes the place of the function and the handles get the copies
of what they stood for.  `Restored` says what is there then: a function that prints, verifies and
runs as it did before the target, and handles that list the corresponding operations
(`run_restored`).

Nothing that the transformation has done to the failed target matters, as long as it has not spoken
of the copy, which it knows nothing about (`Action.Avoids`).  What it has done to the targets
before, through the rewriter (`Rewrites`), has kept the books, so that the function can be copied;
but the function is verified afterwards only if it was so just before the failed target
(`run_unverified`).
-/
import ConvNest.Proofs.Attempts
import ConvNest.Proofs.Isolation
import ConvNest.Proofs.TargetRuns

namespace ConvNest.Transform

open Program Node List

/-! ## 1. Actions outside of a region -/

/-- An action that speaks only of what is outside of the region; handles are outside of every
region. -/
def Action.Avoids (R : Region) : Action → Prop
  | track _ _ => True
  | consume _ => True
  | request r => r.Avoids R

variable {R : Region} {g₀ : Graph} {e : Editor}

theorem Action.run_spares {a : Action} (h : a.Avoids R) (he : Spares R g₀ e) :
    Spares R g₀ (a.run.after e) := by
  cases a with
  | track name ops => exact ⟨he.graph, he.point⟩
  | consume k =>
    rcases consume_after (e := e) k with heq | heq
    · rw [heq]
      exact he
    · rw [heq]
      exact ⟨he.graph, he.point⟩
  | request r => exact Rewrite.run_spares h he

theorem Action.runAll_spares {as : List Action} (h : ∀ a ∈ as, a.Avoids R) (he : Spares R g₀ e) :
    Spares R g₀ (runAll as e) := by
  induction as generalizing e with
  | nil => exact he
  | cons a as ih =>
    exact ih (fun b hb => h b (mem_cons_of_mem _ hb)) (run_spares (h a mem_cons_self) he)

/-- An action that speaks only of what is in the graph. -/
def Action.Known (g : Graph) : Action → Prop
  | track _ _ => True
  | consume _ => True
  | request r => r.Known g

/-- Every action speaks only of what is in the graph when its turn comes. -/
def Action.KnownAll : List Action → Editor → Prop
  | [], _ => True
  | a :: as, e => a.Known e.graph ∧ KnownAll as (a.run.after e)

variable {s : Prop}

theorem Action.run_kept {a : Action} (h : a.Known e.graph) (he : Kept s e) :
    Kept s (a.run.after e) := by
  cases a with
  | track name ops => exact ⟨⟨he.exact, he.point⟩, he.sane⟩
  | consume k =>
    rcases consume_after (e := e) k with heq | heq
    · rw [heq]
      exact he
    · rw [heq]
      exact ⟨⟨he.exact, he.point⟩, he.sane⟩
  | request r => exact r.run_kept e he h

theorem Action.runAll_kept {as : List Action} (h : KnownAll as e) (he : Kept s e) :
    Kept s (runAll as e) := by
  induction as generalizing e with
  | nil => exact he
  | cons a as ih => exact ih h.2 (run_kept h.1 he)

/-! ## 2. The copy in the place of the function -/

/-- The body of another function has been moved into a function. -/
structure BodyMoved (f : FuncId) (b : BlockId) (g g' : Graph) : Prop where
  op : ∀ i, g'.op i = g.op i
  value : ∀ v, g'.value v = g.value v
  block : ∀ c, (g'.block c).args = (g.block c).args ∧ (g'.block c).ops = (g.block c).ops
  func : g'.func f = { g.func f with body := some b }

theorem func_modifyFunc (g : Graph) (k j : FuncId) (w : Func → Func) :
    (g.modifyFunc k w).func j = if k = j ∧ k.idx < g.funcs.size then w (g.func j)
      else g.func j := by
  obtain ⟨k⟩ := k
  obtain ⟨j⟩ := j
  unfold Graph.modifyFunc Graph.func
  simp only [Array.getD_eq_getD_getElem?, Array.getElem?_modify]
  by_cases hk : k < g.funcs.size
  · by_cases hkj : k = j
    · subst hkj
      simp [hk]
    · simp [hkj]
  · by_cases hkj : k = j
    · subst hkj
      simp [hk]
    · simp [hkj]

theorem block_func (g : Graph) (b c : BlockId) (x : Option FuncId) :
    ((g.modifyBlock b fun y => { y with func := x }).block c).args = (g.block c).args ∧
      ((g.modifyBlock b fun y => { y with func := x }).block c).ops = (g.block c).ops := by
  rw [Graph.block_modifyBlock]
  split <;> exact ⟨rfl, rfl⟩

theorem restoreFunc_eq {f c : FuncId} {b b' : BlockId} (hne : c ≠ f)
    (hb : (e.graph.func f).body = some b) (hb' : (e.graph.func c).body = some b') :
    ∃ g, Edit.restoreFunc f c e = .ok () (Edit.onGraph e g) ∧ BodyMoved f b' e.graph g := by
  refine ⟨(((e.graph.modifyBlock b fun x => { x with func := none }).modifyFunc f fun x =>
    { x with body := some b' }).modifyBlock b' fun x => { x with func := some f }).modifyFunc c
      fun x =>
      { x with body := none }, ?_, fun _ => rfl, fun _ => rfl, fun d => ?_, ?_⟩
  · unfold Edit.restoreFunc
    rw [if_neg hne]
    refine state_bind_ok b (Edit.bodyOf_eq hb) ?_
    refine state_bind_ok ()
      rfl ?_
    refine state_bind_ok _ rfl ?_
    have hbody : ((e.graph.modifyBlock b fun x => { x with func := none }).func c).body = some b' :=
      hb'
    simp only [hbody]
    exact state_bind_ok () rfl (state_bind_ok b' rfl (state_bind_ok () rfl rfl))
  · obtain ⟨hargs, hops⟩ :=
      block_func ((e.graph.modifyBlock b fun x => { x with func := none }).modifyFunc f
      fun x => { x with body := some b' }) b' d (some f)
    obtain ⟨hargs', hops'⟩ := block_func e.graph b d none
    exact ⟨hargs.trans hargs', hops.trans hops'⟩
  · have hlt : f.idx < e.graph.funcs.size := lt_of_body hb
    rw [func_modifyFunc, if_neg fun h => hne h.1]
    show ((e.graph.modifyBlock b fun x => { x with func := none }).modifyFunc f fun x =>
      { x with body := some b' }).func f = _
    rw [func_modifyFunc, if_pos ⟨rfl, hlt⟩]
    rfl

/-! ## 3. The handles -/

/-- What is there once a function and the handles have been put back to what they were in the editor
`e`, with operations exchanged for their copies. -/
structure Restored (f : FuncId) (m : Mapping) (e e' : Editor) : Prop where
  print : e'.graph.print f = e.graph.print f
  verified : e'.graph.verify f = .ok ()
  run : ∀ args, e'.graph.run f args = e.graph.run f args
  handles : ∀ h x, e.handles.find? h = some x →
    ∃ ops, e'.handles.find? h = some { x with ops := ops } ∧
    ops = x.ops.filterMap m.lookupOp ∧ ((∀ i ∈ x.ops, e.graph.Contains f i) →
      x.ops.map m.lookupOp = ops.map some ∧ ∀ i ∈ ops, e'.graph.Contains f i)
  unknown : ∀ h, e.handles.find? h = none → lookup e'.handles h = .error .unknownHandle

theorem find?_restored (t saved : HandleTable) (copy : OpId → Option OpId) (h : Handle) :
    (t.restored saved copy).find? h =
      (saved.find? h).map fun x => { x with ops := x.ops.filterMap copy } :=
  HandleTable.find?_mapTracked saved (fun _ x => { x with ops := x.ops.filterMap copy }) h

theorem lookup_unknown {t : HandleTable} {h : Handle} (hfind : t.find? h = none) :
    lookup t h = .error .unknownHandle := by
  unfold lookup
  rw [hfind]

/-- Operations that all have a copy. -/
theorem map_copies {copy : OpId → Option OpId} {ops : List OpId} (h : ∀ i ∈ ops, (copy i).isSome) :
    ops.map copy = (ops.filterMap copy).map some := by
  induction ops with
  | nil => rfl
  | cons i ops ih =>
    obtain ⟨j, hj⟩ := Option.isSome_iff_exists.1 (h i mem_cons_self)
    rw [map_cons, filterMap_cons, hj, ih fun k hk => h k (mem_cons_of_mem _ hk)]
    rfl

/-! ## 4. The failed target -/

namespace Transformation

variable {t : Transformation} {f c : FuncId} {target : OpId} {e e₂ : Editor} {m : Mapping}

/-- On a target the transformation fails in a way that cannot be skipped, or answers a wrong number
of operations, after actions that keep out of the region. -/
def FailsOutside (t : Transformation) (target : OpId) (R : Region) (e : Editor) : Prop :=
  ∃ as r, (∀ a ∈ as, a.Avoids R) ∧ (t.apply target).run e = .ok r (Action.runAll as e) ∧
    ((∃ why, r = .error why ∧ why.isSilenceable = false) ∨ ∃ ops, r = .ok ops ∧
      ops.length ≠ t.results)

/-- A failure and a wrong number of operations are the same to a run. -/
theorem applyChecked_fails {R : Region} (h : t.FailsOutside target R e) :
    ∃ as why, (∀ a ∈ as, a.Avoids R) ∧ why.isSilenceable = false ∧
      (t.applyChecked target).run e = .ok (.error why) (Action.runAll as e) := by
  obtain ⟨as, r, has, hrun, ⟨why, rfl, hwhy⟩ | ⟨ops, rfl, hlen⟩⟩ := h
  · refine ⟨as, why, has, hwhy, ?_⟩
    exact state_bind_ok _ hrun rfl
  · refine ⟨as, .resultCount ops.length t.results, has, rfl, ?_⟩
    unfold applyChecked
    rw [ExceptT.run_bind]
    refine state_bind_ok _ hrun ?_
    simp only [if_pos hlen]
    rfl

/-- The handles and the function are put back after a failure. -/
theorem applyTo_failed (hclone : Edit.cloneFunc f e = .ok (c, m) e₂) {e₃ : Editor} {why : Failure}
    (hwhy : why.isSilenceable = false) (hrun : (t.applyChecked target).run e₂ = .ok (.error why) e₃)
    {g : Graph} (hrestore : Edit.restoreFunc f c e₃ = .ok () (Edit.onGraph e₃ g)) :
    t.applyTo f target e = .ok (.failed (.undone t.name (g.kind target) why))
      { e₃ with graph := g, handles := e₃.handles.restored e₂.handles m.lookupOp } := by
  refine state_bind_ok (c, m) hclone ?_
  refine state_bind_ok e₂ rfl ?_
  refine state_bind_ok _ hrun ?_
  simp only [hwhy]
  exact state_bind_ok () (state_bind_ok () hrestore rfl) rfl

/-- The saved handles list the copies of what they listed, and these are in the function if it holds
the copies. -/
theorem handles_restored {b : BlockId} {params : List ValueId} {ns ns' : List Node}
    (hv : Valid e.graph f b params ns) (hcopied : FuncCopied f params ns ns' m e e₂)
    {e' : Editor} {saved : HandleTable}
    (hhandles : e'.handles = saved.restored e.handles m.lookupOp)
    (hin : ∀ j ∈ ids ns', e'.graph.Contains f j) {h : Handle} {x : Tracked}
    (hx : e.handles.find? h = some x) :
    ∃ ops, e'.handles.find? h = some { x with ops := ops } ∧
      ops = x.ops.filterMap m.lookupOp ∧ ((∀ i ∈ x.ops, e.graph.Contains f i) →
        x.ops.map m.lookupOp = ops.map some ∧ ∀ i ∈ ops, e'.graph.Contains f i) := by
  have hcopy (i : OpId) (hi : e.graph.Contains f i) : ∃ j ∈ ids ns', m.lookupOp i = some j := by
    obtain ⟨n, hn, rfl⟩ := (hv.holds.contains_iff hv.body).1 hi
    have hmem : m.lookupOp n.id ∈ (ids ns').map some := by
      rw [← hcopied.ops]
      exact mem_map_of_mem (mem_map_of_mem hn)
    obtain ⟨j, hj, heq⟩ := mem_map.1 hmem
    exact ⟨j, hj, heq.symm⟩
  refine ⟨_, ?_, rfl, fun hops => ⟨map_copies fun i hi => ?_, fun j hj => ?_⟩⟩
  · rw [hhandles, find?_restored, hx]
    rfl
  · obtain ⟨j, -, hj⟩ := hcopy i (hops i hi)
    rw [hj]
    rfl
  · obtain ⟨i, hi, hij⟩ := mem_filterMap.1 hj
    obtain ⟨j', hj', heq⟩ := hcopy i (hops i hi)
    cases hij.symm.trans heq
    exact hin j hj'

/-- **A failed target is undone.** -/
theorem applyTo_restored (he : Kept True e) (hf : e.graph.verify f = .ok ())
    (hfails : ∀ c m e₂, Edit.cloneFunc f e = .ok (c, m) e₂ →
      t.FailsOutside target (e₂.graph.funcRegion c) e₂) :
    ∃ c m e₂ why e', Edit.cloneFunc f e = .ok (c, m) e₂ ∧
      t.applyTo f target e = .ok (.failed why) e' ∧ Restored f m e e' := by
  obtain ⟨b, params, ns, hv⟩ := verify_tree (he.sane trivial) hf
  obtain ⟨m, ns', e₂, hclone, hcopied⟩ := Edit.cloneFunc_ok hv
  obtain ⟨as, why, has, hwhy, hrun⟩ := applyChecked_fails (hfails _ _ _ hclone)
  have hbody := congrArg Func.body hcopied.func_new
  rw [funcRegion_eq hbody hcopied.holds] at has
  have hspares := (Action.runAll_spares has ⟨hcopied.secluded hv he.exact, fun d hd hnew => by
    rw [hcopied.only] at hd
    exact Nat.not_lt.2 (hcopied.block_new hv.sane hnew) (he.point d hd)⟩).graph
  have hfunc (k : FuncId) : (Action.runAll as e₂).graph.func k = e₂.graph.func k := by
    unfold Graph.func
    rw [hspares.funcs]
  have hold : (Action.runAll as e₂).graph.func f = e.graph.func f := by
    rw [hfunc, hcopied.func_old (lt_of_body hv.body)]
  have hne : e.graph.nextFunc ≠ f := by
    rintro rfl
    exact Nat.lt_irrefl _ (lt_of_body hv.body)
  obtain ⟨g, hrestore, hmoved⟩ := restoreFunc_eq hne (by rw [hold]; exact hv.body)
    (by rw [hfunc]; exact hbody)
  have hop : ∀ i ∈ ids ns', g.op i = e₂.graph.op i :=
    fun i hi => (hmoved.op i).trans (hspares.op i hi)
  have hvalue : ∀ v ∈ params.map m.lookup ++ defs ns', g.value v = e₂.graph.value v := fun v hmem =>
    (hmoved.value v).trans (hspares.value v hmem)
  have hblock : ∀ d, (treeRegion e.graph.nextBlock (params.map m.lookup) ns').blocks d →
      (g.block d).args = (e₂.graph.block d).args ∧ (g.block d).ops = (e₂.graph.block d).ops :=
      fun d hd => by
    rw [← hspares.block d hd]
    exact hmoved.block d
  have hbodyG : (g.func f).body = some e.graph.nextBlock := by rw [hmoved.func]
  obtain ⟨hverified, hprint, hruns⟩ := hcopied.same_of_entries hv he.exact
    (by rw [hmoved.func, hold]) hbodyG hop hvalue hblock
  have hroot := (hcopied.sane.rooted hcopied.holds).congr (hcopied.scoped hv) hop hvalue hblock
  have hsaved : e₂.handles = e.handles := by rw [hcopied.only]; rfl
  have hin : ∀ j ∈ ids ns', g.Contains f j := by
    intro j hj
    obtain ⟨n, hn, rfl⟩ := mem_map.1 hj
    exact (hroot.holds.contains_iff hbodyG).2 ⟨n, hn, rfl⟩
  refine ⟨_, m, e₂, _, _, hclone, applyTo_failed hclone hwhy hrun hrestore, ?_⟩
  exact
    { print := hprint
      verified := hverified
      run := hruns
      handles := fun h x hx => handles_restored hv hcopied (by rw [hsaved]) hin hx
      unknown := fun h hx => lookup_unknown (by rw [find?_restored, hsaved, hx]; rfl) }

/-- The transformation changes a program only by actions on what is in it, whatever it ends with. -/
def Rewrites (t : Transformation) : Prop :=
  ∀ target e r e', Booked e → (t.apply target).run e = .ok r e' →
    ∃ as, Action.KnownAll as e ∧ e' = Action.runAll as e

/-- A target that did not fail has kept the books: the function has been copied, and then there were
actions. -/
theorem applyTo_kept (ht : t.Rewrites) (he : Kept s e) {step : Step} {e₁ : Editor}
    (h : t.applyTo f target e = .ok step e₁) (hstep : ∀ why, step ≠ .failed why) : Kept s e₁ := by
  obtain ⟨⟨c, m⟩, e₂, hclone, h⟩ := state_bind_eq_ok.1 h
  have he₂ := (Edit.cloneFunc_leaves f he e rfl).1 _ _ hclone
  obtain ⟨_, _, hget, h⟩ := state_bind_eq_ok.1 h
  obtain ⟨rfl, rfl⟩ := state_get_eq_ok.1 hget
  obtain ⟨r, e₃, hrun, h⟩ := state_bind_eq_ok.1 h
  have he₃ : Kept s e₃ := by
    unfold applyChecked at hrun
    rw [ExceptT.run_bind] at hrun
    obtain ⟨r', e₄, happly, hrun⟩ := state_bind_eq_ok.1 hrun
    obtain ⟨as, has, rfl⟩ := ht target e₂ r' e₄ he₂.toBooked happly
    have hkept := Action.runAll_kept has he₂
    cases r' with
    | error why => exact (state_pure_eq_ok.1 hrun).2 ▸ hkept
    | ok ops =>
      dsimp only at hrun
      split at hrun <;> exact (state_pure_eq_ok.1 hrun).2 ▸ hkept
  cases r with
  | ok ops => exact (state_pure_eq_ok.1 h).2 ▸ he₃
  | error why =>
    dsimp only at h
    split at h
    · exact (state_pure_eq_ok.1 h).2 ▸ he₃
    · obtain ⟨_, _, -, h⟩ := state_bind_eq_ok.1 h
      obtain ⟨_, _, -, h⟩ := state_bind_eq_ok.1 h
      exact absurd (state_pure_eq_ok.1 h).1.symm (hstep _)

/-- Targets that have been gone through have kept the books. -/
theorem Walked.kept {pre : List OpId} {log : List (List OpId × Editor)} {e₀ : Editor}
    (ht : t.Rewrites) (hw : Walked t f pre e₀ log e) (he : Kept s e₀) : Kept s e := by
  induction hw with
  | nil => exact he
  | erased _ _ ih => exact ih he
  | skipped _ happly _ ih => exact ih (applyTo_kept ht he happly (by simp))
  | done _ happly _ ih => exact ih (applyTo_kept ht he happly (by simp))

/-- **A run that fails leaves everything as it was before the target that it failed on.**  The
targets before have been changed through the rewriter, from a state in which the books were in
order; just before the failed one, the function was verified. -/
theorem run_restored {h : Handle} {x : Tracked} {pre rest : List OpId}
    {log : List (List OpId × Editor)} {e₀ : Editor} (hs : Sane e₀.graph) (he : Booked e₀)
    (ht : t.Rewrites) (hx : lookup e₀.handles h = .ok x) (htargets : x.ops = pre ++ target :: rest)
    (hw : Walked t f pre e₀ log e) (hlive : (e.graph.op target).erased = false)
    (hf : e.graph.verify f = .ok ()) (hfails : ∀ c m e₂, Edit.cloneFunc f e = .ok (c, m) e₂ →
      t.FailsOutside target (e₂.graph.funcRegion c) e₂) :
    ∃ c m e₂ skipped why e', Edit.cloneFunc f e = .ok (c, m) e₂ ∧
      t.run f h e₀ = .ok ⟨skipped, .error why⟩ e' ∧ Restored f m e e' := by
  have hkept : Kept True e := hw.kept ht ⟨he, fun _ => hs⟩
  obtain ⟨c, m, e₂, why, e', hclone, happly, hrestored⟩ := applyTo_restored hkept hf hfails
  obtain ⟨skipped, hrun⟩ := run_failed hx htargets hw hlive happly
  exact ⟨c, m, e₂, skipped, why, e', hclone, hrun, hrestored⟩

/-- Everything in the copy of a verified function is new, so that whoever speaks of what was there
before keeps out of it. -/
theorem cloneFunc_new (hs : Sane e.graph) (hf : e.graph.verify f = .ok ())
    (hclone : Edit.cloneFunc f e = .ok (c, m) e₂) :
    e₂ = Edit.onGraph e e₂.graph ∧ (∀ i, (e₂.graph.funcRegion c).ops i → e.graph.ops.size ≤ i.idx) ∧
      ∀ v, (e₂.graph.funcRegion c).values v → e.graph.values.size ≤ v.idx := by
  obtain ⟨b, params, ns, hv⟩ := verify_tree hs hf
  obtain ⟨m', ns', e', hrun, hcopied⟩ := Edit.cloneFunc_ok hv
  obtain ⟨hr, rfl⟩ := EStateM.Result.ok.inj (hclone.symm.trans hrun)
  cases hr
  rw [funcRegion_eq (congrArg Func.body hcopied.func_new) hcopied.holds]
  exact ⟨hcopied.only, fun i hi => hcopied.opsNew i hi, fun v hmem => hcopied.value_new hmem⟩

/-! ## 5. A loop that is spoiled -/

/-- Replaces a loop by what it starts from, for which it answers nothing, erases a return, and
answers any other operation as it is. -/
def spoiling : Transformation where
  name := "spoil"
  results := 1
  apply target := do
    let g ← (Edit.graph : Edit Graph)
    if g.kind target = .forLoop then
      (Edit.replaceOp target ((g.op target).operands.drop 3) : Edit Unit)
      let _ ← (track "spoiled" [] : Edit Handle)
      return []
    else if g.kind target = .funcReturn then
      (Edit.erase target : Edit Unit)
      return [target]
    else
      return [target]

theorem spoiling_rewrites : spoiling.Rewrites := by
  intro target e r e' he hrun
  obtain ⟨g, e₁, hg, hrun⟩ := Attempt.run_edit_bind_eq_ok.1 hrun
  cases hg
  have hlt {k : Kind} (hk : k ≠ default) (hkind : e.graph.kind target = k) :
      target.idx < e.graph.ops.size :=
    Graph.lt_of_op_ne fun heq => hk (hkind.symm.trans (congrArg Op.kind heq))
  by_cases hloop : e.graph.kind target = .forLoop
  · rw [if_pos hloop] at hrun
    obtain ⟨_, e₁, hreplace, hrun⟩ := Attempt.run_edit_bind_eq_ok.1 hrun
    obtain ⟨_, e₂, htrack, hrun⟩ := Attempt.run_edit_bind_eq_ok.1 hrun
    obtain rfl := (state_pure_eq_ok.1 hrun).2
    refine ⟨[.request (.replaceOp target ((e.graph.op target).operands.drop 3)),
      .track "spoiled" []],
        ⟨⟨hlt (by decide) hloop, fun v hv => he.exact.operands target v (mem_of_mem_drop hv)⟩,
        trivial, trivial⟩, ?_⟩
    show e₂ = (Action.track "spoiled" []).run.after ((Edit.replaceOp _ _).after e)
    rw [after_of_ok hreplace]
    exact (after_of_ok (state_bind_ok _ htrack rfl)).symm
  · rw [if_neg hloop] at hrun
    by_cases hreturn : e.graph.kind target = .funcReturn
    · rw [if_pos hreturn] at hrun
      obtain ⟨_, e₁, herase, hrun⟩ := Attempt.run_edit_bind_eq_ok.1 hrun
      obtain rfl := (state_pure_eq_ok.1 hrun).2
      exact ⟨[.request (.erase target)], ⟨hlt (by decide) hreturn, trivial⟩,
        (after_of_ok herase).symm⟩
    · rw [if_neg hreturn] at hrun
      exact ⟨[], trivial, (state_pure_eq_ok.1 hrun).2.symm⟩

/-- The function `doubler` with handles. -/
def doublerWith (t : HandleTable) : Editor := { doubler with handles := t }

section

variable {t : HandleTable}

theorem doublerWith_graph : (doublerWith t).graph = doubler.graph := by
  simp only [doublerWith]

theorem doublerWith_sane : Sane (doublerWith t).graph := by
  rw [doublerWith_graph]
  exact doubler_sane

theorem doublerWith_verify : (doublerWith t).graph.verify ⟨0⟩ = .ok () := by
  rw [doublerWith_graph]
  exact doubler_verify

theorem doublerWith_booked : Booked (doublerWith t) := by
  have hpoint : (doublerWith t).point = doubler.point := by simp only [doublerWith]
  refine ⟨?_, ?_⟩
  · rw [doublerWith_graph]
    exact doubler_booked.exact
  · rw [doublerWith_graph, hpoint]
    exact doubler_booked.point

end

/-- The function `doubler` with a handle of its generic operation and of the loop around it. -/
def trackedDoubler : Editor := doublerWith (doubler.handles.track "sums" [⟨4⟩, ⟨3⟩]).2

theorem trackedDoubler_entries :
    trackedDoubler.handles.entries = [(⟨0⟩, ⟨"sums", [⟨4⟩, ⟨3⟩], false⟩)] := by
  have hnext : doubler.handles.next = 0 := by decide +kernel
  have hnone : doubler.handles.entries = [] := isEmpty_iff.1 (by decide +kernel)
  simp only [trackedDoubler, doublerWith, HandleTable.track, hnext, hnone, nil_append]

/-- The function after its generic operation has been answered. -/
def answeredDoubler : Editor := (Edit.cloneFunc ⟨0⟩).after trackedDoubler

theorem cloneFunc_trackedDoubler :
    ∃ c m, Edit.cloneFunc ⟨0⟩ trackedDoubler = .ok (c, m) answeredDoubler := by
  have hs : Sane trackedDoubler.graph := doublerWith_sane
  obtain ⟨b, params, ns, hv⟩ := verify_tree hs doublerWith_verify
  obtain ⟨m, ns', e', hrun, -⟩ := Edit.cloneFunc_ok hv
  exact ⟨_, m, hrun.trans (by rw [answeredDoubler, after_of_ok hrun])⟩

theorem walked_trackedDoubler :
    Walked spoiling ⟨0⟩ [⟨4⟩] trackedDoubler [([⟨4⟩], answeredDoubler)] answeredDoubler := by
  obtain ⟨c, m, hclone⟩ := cloneFunc_trackedDoubler
  refine .done (by decide +kernel) (state_bind_ok (c, m) hclone ?_) (.nil _)
  refine state_bind_ok answeredDoubler rfl ?_
  refine state_bind_ok (.ok [⟨4⟩]) ?_ rfl
  have hkind : answeredDoubler.graph.kind ⟨4⟩ = .generic := by decide +kernel
  refine Attempt.run_bind_eq_ok.2 ⟨[⟨4⟩], answeredDoubler, ?_, rfl⟩
  refine Attempt.run_bind_eq_ok.2 ⟨answeredDoubler.graph, answeredDoubler, rfl, ?_⟩
  simp only [hkind]
  rfl

theorem answeredDoubler_sane : Sane answeredDoubler.graph := by decide +kernel

theorem answeredDoubler_verify : answeredDoubler.graph.verify ⟨0⟩ = .ok () :=
  toOption_eq_some.1 (by decide +kernel)

theorem ok_of_run' {α : Type} {x : Edit α} {a : α} (h : x.run' e = some a) :
    ∃ e', x e = .ok a e' := by
  unfold EStateM.run' at h
  split at h
  · next e' hx => exact ⟨e', hx.trans (by rw [Option.some.inj h])⟩
  · cases h

theorem spoiling_fails (hclone : Edit.cloneFunc ⟨0⟩ answeredDoubler = .ok (c, m) e₂) :
    spoiling.FailsOutside ⟨3⟩ (e₂.graph.funcRegion c) e₂ := by
  obtain ⟨-, hops, hvalues⟩ := cloneFunc_new answeredDoubler_sane answeredDoubler_verify hclone
  have he₂ : e₂ = (Edit.cloneFunc ⟨0⟩).after answeredDoubler := (after_of_ok hclone).symm
  obtain ⟨e₃, hreplace⟩ : ∃ e₃, Edit.replaceOp ⟨3⟩ [⟨0⟩] e₂ = .ok () e₃ :=
    ok_of_run' (by rw [he₂]; decide +kernel)
  have hkind : e₂.graph.kind ⟨3⟩ = .forLoop := by
    rw [he₂]
    decide +kernel
  have hinits : (e₂.graph.op ⟨3⟩).operands.drop 3 = [⟨0⟩] := by
    rw [he₂]
    decide +kernel
  refine ⟨[.request (.replaceOp ⟨3⟩ [⟨0⟩]), .track "spoiled" []], .ok [], ?_, ?_,
    .inr ⟨[], rfl, by decide⟩⟩
  · intro a ha
    rcases mem_cons.1 ha with rfl | ha
    · refine ⟨fun hmem => absurd (hops _ hmem) (by decide +kernel), fun v hv hmem => ?_⟩
      obtain rfl := mem_singleton.1 hv
      exact absurd (hvalues _ hmem) (by decide +kernel)
    · obtain rfl := mem_singleton.1 ha
      trivial
  · have hafter : Action.runAll [.request (.replaceOp ⟨3⟩ [⟨0⟩]), .track "spoiled" []] e₂ =
        { e₃ with handles := (e₃.handles.track "spoiled" []).2 } := by
      show (Action.track "spoiled" []).run.after ((Edit.replaceOp ⟨3⟩ [⟨0⟩]).after e₂) = _
      rw [after_of_ok hreplace]
      rfl
    rw [hafter]
    refine Attempt.run_bind_eq_ok.2 ⟨e₂.graph, e₂, rfl, ?_⟩
    simp only [hkind, hinits]
    refine Attempt.run_bind_eq_ok.2 ⟨(), e₃, Attempt.run_edit_eq_ok.2 hreplace, ?_⟩
    exact Attempt.run_bind_eq_ok.2 ⟨_, _, Attempt.run_edit_eq_ok.2 rfl, rfl⟩

/-- The generic operation is answered, and then the loop around it is spoiled, which is undone. -/
theorem run_restored_doubler : spoiling.Rewrites ∧ answeredDoubler.graph.verify ⟨0⟩ = .ok () ∧
    ∃ c m e₂ skipped why e', Edit.cloneFunc ⟨0⟩ answeredDoubler = .ok (c, m) e₂ ∧
      spoiling.run ⟨0⟩ ⟨0⟩ trackedDoubler = .ok ⟨skipped, .error why⟩ e' ∧
      Restored ⟨0⟩ m answeredDoubler e' := by
  have hfind : trackedDoubler.handles.find? ⟨0⟩ =
      some ⟨"sums", [⟨4⟩] ++ ⟨3⟩ :: [], false⟩ := by
    rw [HandleTable.find?, trackedDoubler_entries]
    rfl
  have hlive : (answeredDoubler.graph.op ⟨3⟩).erased = false := by decide +kernel
  refine ⟨spoiling_rewrites, answeredDoubler_verify, ?_⟩
  exact run_restored doublerWith_sane doublerWith_booked spoiling_rewrites
    (lookup_ok.2 ⟨hfind, rfl⟩) rfl walked_trackedDoubler hlive answeredDoubler_verify
    fun _ _ _ => spoiling_fails

/-- **A verified function need not be verified after a run that fails.**  The return is erased,
which succeeds; when the loop then fails, the function is put back as it was before the loop,
without its return. -/
theorem run_unverified : spoiling.Rewrites ∧
    let e := doublerWith (doubler.handles.track "ends" [⟨8⟩, ⟨3⟩]).2
    Sane e.graph ∧ Booked e ∧ e.graph.verify ⟨0⟩ = .ok () ∧
      ((spoiling.run ⟨0⟩ ⟨0⟩).run' e).map (fun o => o.result.toOption) = some none ∧
      (((spoiling.run ⟨0⟩ ⟨0⟩).after e).graph.verify ⟨0⟩).toOption = none := by
  refine ⟨spoiling_rewrites, doublerWith_sane, doublerWith_booked, doublerWith_verify, ?_⟩
  exact ⟨by decide +kernel, by decide +kernel⟩

end Transformation

end ConvNest.Transform

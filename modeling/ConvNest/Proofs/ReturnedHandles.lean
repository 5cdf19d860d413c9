/-
# The handles that a run returns

A run that succeeds returns handles of what the transformation has answered, one column for each
result.  The answers for one target are held while the transformation goes on to the next one.
Nothing follows them meanwhile, so that a returned handle may list an operation that is erased by
then.  `Returned` says exactly what is listed, and that this is the only way to it: an operation
which was alive when it was answered, and is listed but erased, was erased on one of the targets
after that (`run_returned`).
-/
import ConvNest.Proofs.Rollback

namespace ConvNest.Transform

open Program List

/-! ## 1. Handles have numbers that were given out -/

/-- The number of the next handle is new. -/
def Numbered (e : Editor) : Prop := ∀ p ∈ e.handles.entries, p.1.id < e.handles.next

namespace Numbered

variable {e e' : Editor} {α : Type}

theorem mapTracked (h : Numbered e) (k : Handle → Tracked → Tracked)
    (hk : e'.handles = e.handles.mapTracked k) : Numbered e' := by
  intro p hp
  rw [hk] at hp ⊢
  obtain ⟨q, hq, rfl⟩ := mem_map.1 hp
  exact h q hq

theorem still (h : Numbered e) (hs : Still e e') : Numbered e' := by
  unfold Numbered
  rw [hs.handles]
  exact h

theorem by_still {x : Edit α} (hx : Still.By x) :
    Leaves (fun _ => Numbered) Numbered x fun _ => Numbered :=
  .each fun e he => (hx e).mono (fun _ heq => heq ▸ .refl e)
    (fun _ _ => he.still) fun _ _ => he.still

theorem noteErased (h : Numbered e) (i : OpId) : Numbered (e.noteErased i) :=
  h.mapTracked (fun _ x => { x with ops := x.ops.filter (· ≠ i) }) rfl

theorem consume (h : Numbered e) (k : Handle) :
    Numbered { e with handles := e.handles.consume k } :=
  h.mapTracked (fun j x => if j = k then { x with ops := [], consumed := true } else x) rfl

theorem erase (i : OpId) :
    Leaves (fun _ => Numbered) Numbered (Edit.erase i) fun _ => Numbered := by
  refine .bind (by_still Still.graph) fun g => .bind (by_still (Still.demand _ _)) fun _ =>
    .bind (by_still (Still.forM fun _ => Still.checkUnused _ _ _)) fun _ =>
    .bind (by_still (Still.leave i)) fun _ =>
    .bind (.forM fun j _ => .modify fun e he => he.noteErased j) fun _ =>
    .bind (by_still (Still.forM Still.dropOperands)) fun _ =>
      .bind (by_still (Still.unplace i)) fun _ =>
    .forM fun j _ => .modify fun e he => he

theorem noteReplaced (h : Numbered e) (i : OpId) (values : List ValueId) :
    Numbered (e.noteReplaced i values) := by
  cases hd : HandleTable.definerOf e.graph values with
  | none =>
    have hsame : (e.noteReplaced i values).handles = e.handles := by
      simp only [Editor.noteReplaced, HandleTable.replaced, hd]
    unfold Numbered
    rw [hsame]
    exact h
  | some d =>
    refine h.mapTracked (fun _ x => { x with ops := x.ops.map fun j => if j = i then d else j }) ?_
    simp only [Editor.noteReplaced, HandleTable.replaced, hd]

theorem replaceOp (i : OpId) (values : List ValueId) :
    Leaves (fun _ => Numbered) Numbered (Edit.replaceOp i values) fun _ => Numbered :=
  .bind (by_still (Still.op i)) fun _ => .bind (by_still (Still.demand _ _)) fun _ =>
    .bind (.modify fun _ he => he.noteReplaced i values) fun _ =>
    .bind (by_still (Still.forM fun _ => Still.replaceUses _ _)) fun _ => erase i

theorem track (h : Numbered e) (name : String) (ops : List OpId) :
    Numbered { e with handles := (e.handles.track name ops).2 } := by
  intro p hp
  rcases mem_append.1 hp with hp | hp
  · exact Nat.lt_succ_of_lt (h p hp)
  · obtain rfl := mem_singleton.1 hp
    exact Nat.lt_succ_self _

theorem request (r : Rewrite) (h : Numbered e) : Numbered (r.run.after e) := by
  rcases r.still_or with hstill | ⟨i, values, rfl⟩ | ⟨i, rfl⟩
  · exact (by_still hstill).after h
  · exact (replaceOp i values).after h
  · exact (erase i).after h

theorem action (a : Action) (h : Numbered e) : Numbered (a.run.after e) := by
  cases a with
  | track name ops => exact h.track name ops
  | consume k =>
    rcases consume_after (e := e) k with heq | heq
    · rw [heq]
      exact h
    · rw [heq]
      exact h.consume k
  | request r => exact h.request r

theorem actions (as : List Action) (h : Numbered e) : Numbered (Action.runAll as e) := by
  induction as generalizing e with
  | nil => exact h
  | cons a as ih => exact ih (h.action a)

end Numbered

namespace Transformation

variable {t : Transformation} {f : FuncId} {target : OpId} {targets : List OpId} {e e₁ e' : Editor}
  {log : List (List OpId × Editor)} {i : OpId}

/-- Whatever a transformation does, it does by actions. -/
def Acts (t : Transformation) : Prop := ∀ target e r e', (t.apply target).run e = .ok r e' →
  ∃ as, e' = Action.runAll as e

/-! ## 2. What a target leaves -/

theorem applyChecked_ok {r : Except Failure (List OpId)}
    (h : (t.applyChecked target).run e = .ok r e') :
    (∃ r', (t.apply target).run e = .ok r' e') ∧ ∀ ops, r = .ok ops → ops.length = t.results := by
  unfold applyChecked at h
  rw [ExceptT.run_bind] at h
  obtain ⟨r', e₁, hr', h⟩ := state_bind_eq_ok.1 h
  cases r' with
  | error why =>
    obtain ⟨rfl, rfl⟩ := state_pure_eq_ok.1 h
    exact ⟨⟨_, hr'⟩, fun ops hops => by cases hops⟩
  | ok ops =>
    by_cases hlen : ops.length = t.results
    · simp only [ne_eq, hlen] at h
      obtain ⟨rfl, rfl⟩ := state_pure_eq_ok.1 h
      refine ⟨⟨_, hr'⟩, fun ops' hops => ?_⟩
      cases hops
      exact hlen
    · simp only [ne_eq, hlen] at h
      obtain ⟨rfl, rfl⟩ := state_pure_eq_ok.1 h
      exact ⟨⟨_, hr'⟩, fun ops' hops => by cases hops⟩

/-- A target that is done with or skipped: what has happened after the function was copied. -/
theorem applyTo_ok {s : Step} (h : t.applyTo f target e = .ok s e') :
    (∃ why, s = .failed why) ∨ ∃ e₀ r, Still e e₀ ∧ (t.applyChecked target).run e₀ = .ok r e' ∧
      ∀ ops, s = .done ops → r = .ok ops := by
  obtain ⟨c, e₀, hclone, h⟩ := state_bind_eq_ok.1 h
  have hstill : Still e e₀ := (Still.cloneFunc f e e (.refl e)).1 _ _ hclone
  obtain ⟨e₁, e₁', hget, h⟩ := state_bind_eq_ok.1 h
  obtain ⟨rfl, rfl⟩ := state_get_eq_ok.1 hget
  obtain ⟨r, e₂, hr, h⟩ := state_bind_eq_ok.1 h
  cases r with
  | ok ops =>
    obtain ⟨rfl, rfl⟩ := state_pure_eq_ok.1 h
    refine .inr ⟨e₀, _, hstill, hr, fun ops' hops => ?_⟩
    cases hops
    rfl
  | error why =>
    simp only at h
    split at h
    · obtain ⟨rfl, rfl⟩ := state_pure_eq_ok.1 h
      exact .inr ⟨e₀, _, hstill, hr, fun ops' hops => by cases hops⟩
    · obtain ⟨_, _, -, h⟩ := state_bind_eq_ok.1 h
      exact .inl ⟨_, (state_pure_eq_ok.1 h).1.symm⟩

theorem applyTo_numbered (ht : t.Acts) {s : Step} (h : t.applyTo f target e = .ok s e')
    (hs : ∀ why, s ≠ .failed why) (he : Numbered e) : Numbered e' := by
  rcases applyTo_ok h with ⟨why, rfl⟩ | ⟨e₀, r, hstill, hr, -⟩
  · exact absurd rfl (hs why)
  · obtain ⟨r', hr'⟩ := (applyChecked_ok hr).1
    obtain ⟨as, rfl⟩ := ht _ _ _ _ hr'
    exact (he.still hstill).actions as

theorem applyTo_length {ops : List OpId} (h : t.applyTo f target e = .ok (.done ops) e') :
    ops.length = t.results := by
  rcases applyTo_ok h with ⟨why, heq⟩ | ⟨e₀, r, -, hr, hdone⟩
  · cases heq
  · exact (applyChecked_ok hr).2 ops (hdone ops rfl)

theorem Walked.numbered (hw : Walked t f targets e log e') (ht : t.Acts) (he : Numbered e) :
    Numbered e' := by
  induction hw with
  | nil => exact he
  | erased _ _ ih => exact ih he
  | skipped _ h _ ih => exact ih (applyTo_numbered ht h (fun _ heq => by cases heq) he)
  | done _ h _ ih => exact ih (applyTo_numbered ht h (fun _ heq => by cases heq) he)

/-! ## 3. What later targets erase -/

/-- On one of the targets, an operation that was alive has been erased. -/
def Loses (t : Transformation) (f : FuncId) (targets : List OpId) (e : Editor) (i : OpId)
    (e' : Editor) : Prop :=
  ∃ pre target post log log' s e₁ e₂, targets = pre ++ target :: post ∧ Walked t f pre e log e₁ ∧
    (e₁.graph.op i).erased = false ∧ t.applyTo f target e₁ = .ok s e₂ ∧
    (e₂.graph.op i).erased = true ∧ Walked t f post e₂ log' e'

/-- An operation is erased on one of the targets, if at all. -/
theorem Walked.loses (hw : Walked t f targets e log e') (hlive : (e.graph.op i).erased = false)
    (hgone : (e'.graph.op i).erased = true) : Loses t f targets e i e' := by
  -- The first target after which the operation is erased.
  induction hw with
  | nil => rw [hlive] at hgone; cases hgone
  | @erased target rest _ _ _ h hrest ih =>
    obtain ⟨pre, target', post, log₁, log₂, s, e₁, e₂, rfl, hpre, hrest'⟩ := ih hlive hgone
    exact ⟨target :: pre, target', post, log₁, log₂, s, e₁, e₂, rfl, .erased h hpre, hrest'⟩
  | @skipped target rest _ e₃ _ _ _ hl h hrest ih =>
    cases hmid : (e₃.graph.op i).erased with
    | true => exact ⟨[], target, rest, [], _, _, _, e₃, rfl, .nil _, hlive, h, hmid, hrest⟩
    | false =>
      obtain ⟨pre, target', post, log₁, log₂, s, e₁, e₂, rfl, hpre, hrest'⟩ := ih hmid hgone
      exact ⟨target :: pre, target', post, log₁, log₂, s, e₁, e₂, rfl, .skipped hl h hpre, hrest'⟩
  | @done target rest _ e₃ _ _ ops hl h hrest ih =>
    cases hmid : (e₃.graph.op i).erased with
    | true => exact ⟨[], target, rest, [], _, _, _, e₃, rfl, .nil _, hlive, h, hmid, hrest⟩
    | false =>
      obtain ⟨pre, target', post, log₁, log₂, s, e₁, e₂, rfl, hpre, hrest'⟩ := ih hmid hgone
      exact ⟨target :: pre, target', post, _, log₂, s, e₁, e₂, rfl, .done hl h hpre, hrest'⟩

/-- Every answer was given for a target, and other targets came after it. -/
theorem Walked.answered (hw : Walked t f targets e log e') {p : List OpId × Editor} (hp : p ∈ log) :
    p.1.length = t.results ∧ ∃ pre target post log' e₁, targets = pre ++ target :: post ∧
      t.applyTo f target e₁ = .ok (.done p.1) p.2 ∧ Walked t f post p.2 log' e' := by
  induction hw with
  | nil => cases hp
  | @erased target _ _ _ _ _ _ ih =>
    obtain ⟨hlen, pre, target', post, log', e₁, rfl, h⟩ := ih hp
    exact ⟨hlen, target :: pre, target', post, log', e₁, rfl, h⟩
  | @skipped target _ _ _ _ _ _ _ _ _ ih =>
    obtain ⟨hlen, pre, target', post, log', e₁, rfl, h⟩ := ih hp
    exact ⟨hlen, target :: pre, target', post, log', e₁, rfl, h⟩
  | @done target rest _ _ _ _ _ _ h hrest ih =>
    rcases mem_cons.1 hp with rfl | hp
    · exact ⟨applyTo_length h, [], target, rest, _, _, rfl, h, hrest⟩
    · obtain ⟨hlen, pre, target', post, log', e₁, rfl, h⟩ := ih hp
      exact ⟨hlen, target :: pre, target', post, log', e₁, rfl, h⟩

/-! ## 4. The returned handles -/

theorem find?_track_of_some {t : HandleTable} {h : Handle} {x : Tracked} (hx : t.find? h = some x)
    (name : String) (ops : List OpId) : (t.track name ops).2.find? h = some x := by
  unfold HandleTable.find? at hx
  simp [HandleTable.find?, HandleTable.track, lookup_append, hx]

/-- Handles that are tracked one after the other. -/
theorem trackAll_ok {name : Nat → String} {ops : Nat → List OpId} {ks : List Nat} {hs : List Handle}
    (he : Numbered e) (h : ks.mapM (fun k => track (name k) (ops k)) e = .ok hs e') :
    e'.graph = e.graph ∧ (∀ h x, e.handles.find? h = some x → e'.handles.find? h = some x) ∧
      Forall₂ (fun k h => e'.handles.find? h = some ⟨name k, ops k, false⟩) ks hs := by
  induction ks generalizing e hs with
  | nil =>
    obtain ⟨rfl, rfl⟩ := state_pure_eq_ok.1 h
    exact ⟨rfl, fun _ _ hx => hx, .nil⟩
  | cons k ks ih =>
    rw [mapM_cons] at h
    obtain ⟨h₀, e₁, htrack, h⟩ := state_bind_eq_ok.1 h
    obtain ⟨hs', e₂, hrest, h⟩ := state_bind_eq_ok.1 h
    obtain ⟨rfl, rfl⟩ := state_pure_eq_ok.1 h
    cases htrack
    obtain ⟨hgraph, hkept, hall⟩ := ih (he.track _ _) hrest
    exact ⟨hgraph, fun h x hx => hkept h x (find?_track_of_some hx _ _),
      .cons (hkept _ _ (Lists.find?_track he _ _)) hall⟩

/-- What a run returns that has gone through the targets and written the log. -/
structure Returned (t : Transformation) (f : FuncId) (targets : List OpId)
    (log : List (List OpId × Editor)) (hs : List Handle) (e' : Editor) : Prop where
  length : hs.length = t.results
  listed : ∀ k h, hs[k]? = some h →
  ∃ name, lookup e'.handles h = .ok ⟨name, column (log.map (·.1)) k, false⟩
  /-- No handle lists an erased operation exactly if no answer has been erased. -/
  live : (∀ h ∈ hs, ∀ x, lookup e'.handles h = .ok x →
    ∀ i ∈ x.ops, (e'.graph.op i).erased = false) ↔
    ∀ p ∈ log, ∀ i ∈ p.1, (e'.graph.op i).erased = false
  /-- An answer that was alive has been erased on a target that came after its own. -/
  stale : ∀ p ∈ log, ∀ i ∈ p.1, (p.2.graph.op i).erased = false → (e'.graph.op i).erased = true →
    ∃ pre target post e₁, targets = pre ++ target :: post ∧
      t.applyTo f target e₁ = .ok (.done p.1) p.2 ∧ ∃ e₂, e₂.graph = e'.graph ∧
      Loses t f post p.2 i e₂

/-- **What a run that succeeds returns**: column `k` lists the `k`-th operation that was answered
for each target, in the order of the targets.  The answers become handles only when the last target
is done, and no event reaches them before; so what is listed but erased was erased on a target after
its own, and this does happen (`returned_erased`). -/
theorem run_returned {h : Handle} {skipped : List Failure} {hs : List Handle} (ht : t.Acts)
    (he : Numbered e) (hrun : t.run f h e = .ok ⟨skipped, .ok hs⟩ e') :
    ∃ x log e₁, lookup e.handles h = .ok x ∧ Walked t f x.ops e log e₁ ∧ e'.graph = e₁.graph ∧
      Returned t f x.ops log hs e' := by
  obtain ⟨x, log, e₁, hx, hw, htrack⟩ := run_ok hrun
  obtain ⟨hgraph, -, hall⟩ := trackAll_ok ((hw.numbered ht he).consume h) htrack
  have hlength : hs.length = t.results := by
    rw [← hall.length_eq, length_range]
  have hlisted : ∀ k h, hs[k]? = some h →
      ∃ name, lookup e'.handles h = .ok ⟨name, column (log.map (·.1)) k, false⟩ := by
    intro k h' hk
    obtain ⟨hlt, rfl⟩ := List.getElem?_eq_some_iff.1 hk
    have hfind := hall.get (by rwa [← hall.length_eq] at hlt) hlt
    simp only [get_eq_getElem, getElem_range] at hfind
    exact ⟨_, lookup_ok.2 ⟨hfind, rfl⟩⟩
  refine ⟨x, log, e₁, hx, hw, hgraph, hlength, hlisted,
    ⟨fun hlive p hp i hi => ?_, fun hlive h' hh y hy i hi => ?_⟩, fun p hp i hi hlive hgone => ?_⟩
  · obtain ⟨k, hk, rfl⟩ := getElem_of_mem hi
    have hlt : k < hs.length := by rwa [hlength, ← (hw.answered hp).1]
    obtain ⟨name, hy⟩ := hlisted k hs[k] (getElem?_eq_getElem hlt)
    refine hlive _ (getElem_mem hlt) _ hy _ (mem_filterMap.2 ⟨p.1, mem_map_of_mem hp, ?_⟩)
    exact getElem?_eq_getElem hk
  · obtain ⟨k, hlt, rfl⟩ := getElem_of_mem hh
    obtain ⟨name, hy'⟩ := hlisted k hs[k] (getElem?_eq_getElem hlt)
    obtain rfl := Except.ok.inj (hy.symm.trans hy')
    obtain ⟨row, hrow, hik⟩ := mem_filterMap.1 hi
    obtain ⟨p, hp, rfl⟩ := mem_map.1 hrow
    exact hlive p hp i (mem_of_getElem? hik)
  · obtain ⟨-, pre, target, post, log', e₀, htargets, happly, hpost⟩ := hw.answered hp
    rw [hgraph] at hgone
    exact ⟨pre, target, post, e₀, htargets, happly, e₁, hgraph.symm, hpost.loses hlive hgone⟩

/-! ## 5. A loop that is answered for after what is in it -/

/-- Answers generic operations as they are, and replaces any other operation by the value `⟨0⟩`, for
which it answers the operation `⟨0⟩`. -/
def dropping : Transformation where
  name := "drop"
  results := 1
  apply target := do
    let g ← (Edit.graph : Edit Graph)
    if g.kind target = .generic then return [target]
    (Edit.replaceOp target [⟨0⟩] : Edit Unit)
    return [⟨0⟩]

theorem dropping_acts : dropping.Acts := by
  intro target e r e' h
  simp only [dropping] at h
  rw [ExceptT.run_bind] at h
  obtain ⟨r₁, e₁, hgraph, h⟩ := state_bind_eq_ok.1 h
  cases hgraph
  dsimp only at h
  split at h
  · exact ⟨[], (state_pure_eq_ok.1 h).2.symm⟩
  · rw [ExceptT.run_bind] at h
    obtain ⟨r₂, e₂, hreplace, h⟩ := state_bind_eq_ok.1 h
    obtain ⟨u, e₃, hok, hu⟩ := state_bind_eq_ok.1 hreplace
    obtain ⟨rfl, rfl⟩ := state_pure_eq_ok.1 hu
    exact ⟨[.request (.replaceOp target [⟨0⟩])],
      (state_pure_eq_ok.1 h).2.symm.trans (after_of_ok hok).symm⟩

/-- The generic operation is answered as it is; then the loop around it is replaced. -/
theorem dropping_run :
    ∃ skipped x e', dropping.run ⟨0⟩ ⟨0⟩ trackedDoubler = .ok ⟨skipped, .ok [⟨1⟩]⟩ e' ∧
    lookup e'.handles ⟨1⟩ = .ok x ∧ x.ops = [⟨4⟩, ⟨0⟩] ∧ (e'.graph.op ⟨4⟩).erased = true := by
  obtain ⟨e', hrun⟩ := ok_of_run' (e := trackedDoubler) (a := (some [⟨1⟩], some [⟨4⟩, ⟨0⟩], true))
    (x := do
      let o ← dropping.run ⟨0⟩ ⟨0⟩
      let e ← get
      return (o.result.toOption, (opsOf e.handles ⟨1⟩).toOption, (e.graph.op ⟨4⟩).erased))
        (by decide +kernel)
  obtain ⟨o, e₁, hrun, h⟩ := state_bind_eq_ok.1 hrun
  obtain ⟨e₂, e₂', hget, h⟩ := state_bind_eq_ok.1 h
  obtain ⟨rfl, rfl⟩ := state_get_eq_ok.1 hget
  obtain ⟨heq, rfl⟩ := state_pure_eq_ok.1 h
  obtain ⟨hresult, heq⟩ := Prod.mk.inj heq
  obtain ⟨hops, herased⟩ := Prod.mk.inj heq
  obtain ⟨skipped, result⟩ := o
  obtain rfl := toOption_eq_some.1 hresult
  unfold opsOf at hops
  cases hx : lookup e₁.handles ⟨1⟩ with
  | error why =>
    rw [hx] at hops
    cases hops
  | ok x =>
    rw [hx] at hops
    exact ⟨skipped, x, e₁, hrun, hx, Option.some.inj hops, herased⟩

theorem run_returned_doubler : Numbered trackedDoubler ∧ ∃ skipped hs e',
    dropping.run ⟨0⟩ ⟨0⟩ trackedDoubler = .ok ⟨skipped, .ok hs⟩ e' ∧
      ∃ x log e₁, lookup trackedDoubler.handles ⟨0⟩ = .ok x ∧
        Walked dropping ⟨0⟩ x.ops trackedDoubler log e₁ ∧
        e'.graph = e₁.graph ∧ Returned dropping ⟨0⟩ x.ops log hs e' := by
  have hnumbered : Numbered trackedDoubler := by
    intro p hp
    rw [trackedDoubler_entries, mem_singleton] at hp
    subst hp
    decide +kernel
  obtain ⟨skipped, x, e', hrun, -⟩ := dropping_run
  exact ⟨hnumbered, skipped, _, e', hrun, run_returned dropping_acts hnumbered hrun⟩

/-- A handle that was returned lists an operation that has been erased, although every operation was
alive when it was answered. -/
theorem returned_erased : ∃ skipped hs h x i e',
    dropping.run ⟨0⟩ ⟨0⟩ trackedDoubler = .ok ⟨skipped, .ok hs⟩ e' ∧ h ∈ hs ∧
      lookup e'.handles h = .ok x ∧ i ∈ x.ops ∧ (e'.graph.op i).erased = true := by
  obtain ⟨skipped, x, e', hrun, hx, hops, herased⟩ := dropping_run
  refine ⟨skipped, [⟨1⟩], ⟨1⟩, x, ⟨4⟩, e', hrun, mem_singleton_self _, hx, ?_, herased⟩
  rw [hops]
  exact mem_cons_self

end Transformation

end ConvNest.Transform

/-
# What handles list

Handles are used between requests to a rewriter: operations are tracked, and handles are consumed.
After any such actions, faults included, a handle that is not consumed lists no erased operation,
and what was tracked and is neither erased nor replaced is listed in the order in which it was
tracked (`Action.runAll_upToDate`).
-/
import ConvNest.Proofs.Followed
import ConvNest.Transform.Handles

namespace ConvNest.Transform

open Program List

/-! ## 1. Actions -/

/-- An action on a program or on the handles of its operations. -/
inductive Action where
  | track (name : String) (ops : List OpId)
  | consume (h : Handle)
  | request (r : Rewrite)

namespace Action

/-- What an action does. -/
def run : Action → Edit Unit
  | track name ops => do let _ ← Transform.track name ops
  | consume h => do let _ ← Transform.consume h
  | request r => r.run

/-- The editor after actions, one after the other. -/
def runAll (as : List Action) (e : Editor) : Editor := as.foldl (fun e a => a.run.after e) e

/-- What is tracked is in the graph and not erased, and so is everything that a request speaks
of. -/
def Allowed (g : Graph) : Action → Prop
  | track _ ops => ∀ i ∈ ops, i.idx < g.ops.size ∧ (g.op i).erased = false
  | consume _ => True
  | request r => r.Known g ∧ r.Defined g

/-- Every action is allowed when its turn comes. -/
def AllowedAll : List Action → Editor → Prop
  | [], _ => True
  | a :: as, e => a.Allowed e.graph ∧ AllowedAll as (a.run.after e)

theorem runAll_append (as bs : List Action) (e : Editor) :
    runAll (as ++ bs) e = runAll bs (runAll as e) := foldl_append

theorem allowedAll_append {as bs : List Action} {e : Editor} :
    AllowedAll (as ++ bs) e ↔ AllowedAll as e ∧ AllowedAll bs (runAll as e) := by
  induction as generalizing e with
  | nil => simp [AllowedAll, runAll]
  | cons a as ih =>
    rw [cons_append, AllowedAll, AllowedAll, ih, and_assoc]
    rfl

end Action

/-! ## 2. No handle lists an erased operation -/

/-- Handles list operations of the graph that are not erased. -/
structure Current (e : Editor) : Prop where
  fresh : ∀ p ∈ e.handles.entries, p.1.id < e.handles.next
  live : ∀ p ∈ e.handles.entries, ∀ i ∈ p.2.ops,
    i.idx < e.graph.ops.size ∧ (e.graph.op i).erased = false

namespace Current

variable {e e' : Editor}

theorem followed (h : Current e) {ρ : OpId → OpId} {D : List OpId} {l : List Event}
    (hf : Followed ρ D l e e') : Current e' := by
  constructor
  · intro p hp
    rw [hf.handles] at hp ⊢
    obtain ⟨q, hq, rfl⟩ := mem_map.1 hp
    exact h.fresh q hq
  · intro p hp i hi
    rw [hf.handles] at hp
    obtain ⟨q, hq, rfl⟩ := mem_map.1 hp
    obtain ⟨hmap, hD⟩ := mem_filter.1 hi
    obtain ⟨j, hj, rfl⟩ := mem_map.1 hmap
    have hlive : (ρ j).idx < e.graph.ops.size ∧ (e.graph.op (ρ j)).erased = false := by
      rcases hf.replaced j with heq | ⟨hlive, -⟩
      · rw [heq]
        exact h.live q hq j hj
      · exact hlive
    refine ⟨Nat.lt_of_lt_of_le hlive.1 hf.size, ?_⟩
    rw [hf.erased _ hlive.1, hlive.2]
    simpa using hD

theorem followedAll (h : Current e) (hf : FollowedAll e e') : Current e' := by
  induction hf with
  | refl => exact h
  | tail _ hstep ih =>
    obtain ⟨ρ, D, l, hstep⟩ := hstep
    exact ih.followed hstep

theorem track (h : Current e) (name : String) {ops : List OpId}
    (hops : ∀ i ∈ ops, i.idx < e.graph.ops.size ∧ (e.graph.op i).erased = false) :
    Current { e with handles := (e.handles.track name ops).2 } := by
  constructor
  · intro p hp
    rcases mem_append.1 hp with hp | hp
    · exact Nat.lt_succ_of_lt (h.fresh p hp)
    · obtain rfl := mem_singleton.1 hp
      exact Nat.lt_succ_self _
  · intro p hp
    rcases mem_append.1 hp with hp | hp
    · exact h.live p hp
    · obtain rfl := mem_singleton.1 hp
      exact hops

theorem consume (h : Current e) (k : Handle) :
    Current { e with handles := e.handles.consume k } := by
  constructor
  · intro p hp
    obtain ⟨q, hq, rfl⟩ := mem_map.1 hp
    exact h.fresh q hq
  · intro p hp i hi
    obtain ⟨q, hq, rfl⟩ := mem_map.1 hp
    dsimp only at hi
    split at hi
    · cases hi
    · exact h.live q hq i hi

end Current

/-! ## 3. What stays listed -/

/-- The operations are not erased, and none of them has been replaced since the journal had `k`
events. -/
def Untouched (e : Editor) (k : Nat) (ops : List OpId) : Prop :=
  ∀ i ∈ ops, (e.graph.op i).erased = false ∧ ∀ values, .replaced i values ∉ e.journal.drop k

/-- The handle, which got the operations `ops` when the journal had `k` events, is not consumed and
still lists those of them that have not been touched. -/
structure Lists (h : Handle) (name : String) (ops : List OpId) (k : Nat) (e : Editor) : Prop where
  given : h.id < e.handles.next
  journal : k ≤ e.journal.length
  known : ∀ i ∈ ops, i.idx < e.graph.ops.size
  found : ∃ x, e.handles.find? h = some x ∧ x.consumed = false ∧ x.name = name ∧
    ∀ kept, kept.Sublist ops → Untouched e k kept → kept.Sublist x.ops

namespace Lists

variable {h : Handle} {name : String} {ops : List OpId} {k : Nat} {e e' : Editor}

section

variable (hl : Lists h name ops k e)

include hl

theorem followed {ρ : OpId → OpId} {D : List OpId} {l : List Event} (hf : Followed ρ D l e e') :
    Lists h name ops k e' := by
  obtain ⟨x, hfind, hconsumed, hname, hkept⟩ := hl.found
  refine ⟨?_, ?_, fun i hi => Nat.lt_of_lt_of_le (hl.known i hi) hf.size,
    { x with ops := (x.ops.map ρ).filter (· ∉ D) }, ?_, hconsumed, hname, ?_⟩
  · rw [hf.handles]
    exact hl.given
  · rw [hf.journal, length_append]
    exact Nat.le_add_right_of_le hl.journal
  · rw [hf.handles, HandleTable.find?_mapTracked, hfind]
    rfl
  intro kept hsub huntouched
  have hold (i : OpId) (hi : i ∈ kept) : (e.graph.op i).erased = false ∧ i ∉ D := by
    have herased := (huntouched i hi).1
    rw [hf.erased i (hl.known i (hsub.subset hi))] at herased
    simpa using herased
  have hsame (i : OpId) (hi : i ∈ kept) : ρ i = i := by
    rcases hf.replaced i with heq | ⟨-, values, hmem⟩
    · exact heq
    · refine absurd ?_ ((huntouched i hi).2 values)
      rw [hf.journal, drop_append_of_le_length hl.journal]
      exact mem_append_right _ hmem
  have hsub' := hkept kept hsub fun i hi => ⟨(hold i hi).1, fun values hmem => by
    refine (huntouched i hi).2 values ?_
    rw [hf.journal, drop_append_of_le_length hl.journal]
    exact mem_append_left _ hmem⟩
  -- what is kept is neither exchanged nor dropped
  have hkeep : (kept.map ρ).filter (· ∉ D) = kept := by
    rw [map_congr_left hsame, map_id', filter_eq_self]
    simpa using fun i hi => (hold i hi).2
  rw [← hkeep]
  exact (hsub'.map ρ).filter _

theorem followedAll (hf : FollowedAll e e') : Lists h name ops k e' := by
  induction hf with
  | refl => exact hl
  | tail _ hstep ih =>
    obtain ⟨ρ, D, l, hstep⟩ := hstep
    exact ih.followed hstep

theorem track (name' : String) (ops' : List OpId) :
    Lists h name ops k { e with handles := (e.handles.track name' ops').2 } := by
  obtain ⟨x, hfind, hx⟩ := hl.found
  refine ⟨Nat.lt_succ_of_lt hl.given, hl.journal, hl.known, x, ?_, hx⟩
  unfold HandleTable.find? at hfind ⊢
  simp [HandleTable.track, lookup_append, hfind]

theorem consume {h' : Handle} (hne : h ≠ h') :
    Lists h name ops k { e with handles := e.handles.consume h' } := by
  obtain ⟨x, hfind, hx⟩ := hl.found
  refine ⟨hl.given, hl.journal, hl.known, x, ?_, hx⟩
  rw [HandleTable.consume, HandleTable.find?_mapTracked, hfind, Option.map_some, if_neg hne]

end

theorem find?_track {t : HandleTable} (hfresh : ∀ p ∈ t.entries, p.1.id < t.next) (name : String)
    (ops : List OpId) :
    (t.track name ops).2.find? (t.track name ops).1 = some ⟨name, ops, false⟩ := by
  have hnone : t.entries.lookup ⟨t.next⟩ = none := by
    refine lookup_eq_none_iff.2 fun p hp => bne_iff_ne.2 fun heq => ?_
    have hlt := hfresh p hp
    rw [← heq] at hlt
    exact Nat.lt_irrefl _ hlt
  simp [HandleTable.find?, HandleTable.track, lookup_append, hnone]

/-- A handle that is new lists what it is given. -/
theorem new (hfresh : ∀ p ∈ e.handles.entries, p.1.id < e.handles.next)
    (name : String) {ops : List OpId} (hops : ∀ i ∈ ops, i.idx < e.graph.ops.size) :
    Lists (e.handles.track name ops).1 name ops e.journal.length
      { e with handles := (e.handles.track name ops).2 } := by
  exact ⟨Nat.lt_succ_self _, Nat.le_refl _, hops, ⟨name, ops, false⟩,
    find?_track hfresh name ops, rfl, rfl, fun _ hsub _ => hsub⟩

end Lists

/-! ## 4. Every action -/

section Actions

variable {e : Editor}
variable {h : Handle}

section

variable {name : String} {ops : List OpId} {k : Nat} {as : List Action}

theorem consume_error {f : Failure} (hl : lookup e.handles h = .error f) :
    Transform.consume h e = .ok (.error f) e := by
  refine state_bind_ok e rfl ?_
  rw [hl]
  rfl

theorem consume_ok {x : Tracked} (hl : lookup e.handles h = .ok x) :
    Transform.consume h e = .ok (.ok ()) { e with handles := e.handles.consume h } := by
  refine state_bind_ok e rfl ?_
  rw [hl]
  rfl

theorem after_of_ok {α : Type} {x : Edit α} {a : α} {e' : Editor} (h : x e = .ok a e') :
    x.after e = e' := by
  unfold Edit.after
  rw [h]

theorem consume_after (h : Handle) : (Action.consume h).run.after e = e ∨
    (Action.consume h).run.after e = { e with handles := e.handles.consume h } := by
  cases hl : lookup e.handles h with
  | error f => exact .inl (after_of_ok (state_bind_ok _ (consume_error hl) rfl))
  | ok x => exact .inr (after_of_ok (state_bind_ok _ (consume_ok hl) rfl))

/-- What one action keeps. -/
theorem Action.run_current (a : Action) (he : Booked e) (hc : Current e) (ha : a.Allowed e.graph) :
    Booked (a.run.after e) ∧ Current (a.run.after e) := by
  cases a with
  | track name ops => exact ⟨⟨he.exact, he.point⟩, hc.track name ha⟩
  | consume h =>
    rcases consume_after (e := e) h with heq | heq
    · rw [heq]
      exact ⟨he, hc⟩
    · rw [heq]
      exact ⟨⟨he.exact, he.point⟩, hc.consume h⟩
  | request r => exact ⟨r.run_booked e he ha.1, hc.followedAll (r.run_follows he ha.1 ha.2)⟩

theorem Action.run_lists (a : Action) (he : Booked e) (ha : a.Allowed e.graph)
    (hl : Lists h name ops k e) (hne : a ≠ .consume h) : Lists h name ops k (a.run.after e) := by
  cases a with
  | track name' ops' => exact hl.track name' ops'
  | consume h' =>
    rcases consume_after (e := e) h' with heq | heq
    · rw [heq]
      exact hl
    · rw [heq]
      exact hl.consume fun heq => hne (heq ▸ rfl)
  | request r => exact hl.followedAll (r.run_follows he ha.1 ha.2)

theorem Action.runAll_current (he : Booked e) (hc : Current e) (ha : AllowedAll as e) :
    Booked (runAll as e) ∧ Current (runAll as e) := by
  induction as generalizing e with
  | nil => exact ⟨he, hc⟩
  | cons a as ih =>
    obtain ⟨he', hc'⟩ := a.run_current he hc ha.1
    exact ih he' hc' ha.2

theorem Action.runAll_lists (he : Booked e) (hc : Current e) (ha : AllowedAll as e)
    (hl : Lists h name ops k e) (hne : .consume h ∉ as) : Lists h name ops k (runAll as e) := by
  induction as generalizing e with
  | nil => exact hl
  | cons a as ih =>
    obtain ⟨he', hc'⟩ := a.run_current he hc ha.1
    rw [mem_cons, not_or] at hne
    exact ih he' hc' ha.2 (a.run_lists he ha.1 hl fun heq => hne.1 heq.symm) hne.2

end

theorem lookup_ok {t : HandleTable} {x : Tracked} :
    lookup t h = .ok x ↔ t.find? h = some x ∧ x.consumed = false := by
  unfold lookup
  cases t.find? h with
  | none => simp
  | some y =>
    cases hy : y.consumed with
    | true =>
      simp only [hy, if_true, reduceCtorEq, Option.some.injEq, false_iff, not_and,
        Bool.not_eq_false]
      rintro rfl
      exact hy
    | false =>
      simp only [hy, Bool.false_eq_true, if_false, Except.ok.injEq, Option.some.injEq, iff_self_and]
      rintro rfl
      exact hy

theorem Current.empty (h : e.handles = .empty) : Current e := by
  constructor <;> rw [h] <;> exact forall_mem_nil _

/-- What handles list after actions.  A handle that is not consumed lists no erased operation.  One
that was given operations and has not been consumed since is known by its name, and lists those of
them that were neither erased nor replaced since, in their order. -/
structure UpToDate (as : List Action) (e : Editor) : Prop where
  live : ∀ h x, lookup (Action.runAll as e).handles h = .ok x →
    ∀ i ∈ x.ops, ((Action.runAll as e).graph.op i).erased = false
  listed : ∀ pre name ops post, as = pre ++ .track name ops :: post →
    .consume ((Action.runAll pre e).handles.track name ops).1 ∉ post →
    ∃ x, lookup (Action.runAll as e).handles ((Action.runAll pre e).handles.track name ops).1 =
      .ok x ∧ x.name = name ∧ ∀ kept, kept.Sublist ops →
        Untouched (Action.runAll as e) (Action.runAll pre e).journal.length kept →
        kept.Sublist x.ops

/-- **Handles never go stale**, whatever actions are taken, faults included.  The handles follow
every event of the rewriter: an erased operation is taken off the lists when it is erased, and a
replaced one gives its place to the one that stands for it.  A request that faults half way has told
of what it had done until then. -/
theorem Action.runAll_upToDate {as : List Action} (he : Booked e) (hempty : e.handles = .empty)
    (ha : AllowedAll as e) : UpToDate as e := by
  constructor
  · intro h x hx i hi
    obtain ⟨-, hc⟩ := runAll_current he (.empty hempty) ha
    obtain ⟨l, r, hentries, -⟩ := lookup_eq_some_iff.1 (lookup_ok.1 hx).1
    exact (hc.live (h, x) (by rw [hentries]; simp) i hi).2
  · rintro pre name ops post rfl hne
    rw [allowedAll_append] at ha
    obtain ⟨he₁, hc₁⟩ := runAll_current he (.empty hempty) ha.1
    obtain ⟨htrack, hpost⟩ := ha.2
    obtain ⟨he₂, hc₂⟩ := (Action.track name ops).run_current he₁ hc₁ htrack
    have hl := runAll_lists he₂ hc₂ hpost (Lists.new hc₁.fresh name fun i hi => (htrack i hi).1) hne
    rw [runAll_append]
    obtain ⟨x, hfind, hconsumed, hname, hkept⟩ := hl.found
    exact ⟨x, lookup_ok.2 ⟨hfind, hconsumed⟩, hname, hkept⟩

/-- Three additions are tracked; then one is replaced by the result of another one, and one is
erased, twice. -/
def sampleActions : List Action :=
  [.request (.setPoint ⟨some ⟨0⟩, none⟩), .request (.create .addInt [⟨0⟩, ⟨0⟩] [.index] .none none),
    .request (.create .addInt [⟨1⟩, ⟨0⟩] [.index] .none none), .request (.clone ⟨0⟩ .empty),
    .track "sums" [⟨0⟩, ⟨2⟩, ⟨1⟩], .request (.replaceOp ⟨1⟩ [⟨3⟩]), .request (.erase ⟨0⟩),
    .request (.erase ⟨0⟩)]

theorem allowedAll_sampleActions : Action.AllowedAll sampleActions (.ofFunc "f" [.index]) := by
  refine ⟨⟨?_, ?_⟩, ⟨⟨by decide, ?_⟩, ?_⟩, ⟨⟨by decide, ?_⟩, ?_⟩,
    ⟨⟨by decide, fun v => ?_⟩, ?_⟩, ?_, ⟨⟨by decide, by decide⟩, ?_⟩, ⟨?_, ?_⟩, ⟨?_, ?_⟩, trivial⟩
  · rintro b ⟨⟩
    decide
  · rintro i values ⟨⟩
  · rintro b ⟨⟩
  · rintro i values ⟨⟩
  · rintro b ⟨⟩
  · rintro i values ⟨⟩
  · exact .inl (Mapping.lookup_empty v)
  · rintro i values ⟨⟩
  · show ∀ i ∈ _, _ ∧ _
    decide
  · rintro i values ⟨⟩ v hv d hd
    obtain rfl := mem_singleton.1 hv
    obtain rfl : d = ⟨2⟩ := Option.some.inj (hd.symm.trans (by decide))
    decide
  · show _ < _
    decide
  · rintro i values ⟨⟩
  · show _ < _
    decide
  · rintro i values ⟨⟩

theorem Action.runAll_upToDate_sample : Booked (.ofFunc "f" [.index]) ∧
    AllowedAll sampleActions (.ofFunc "f" [.index]) ∧
    UpToDate sampleActions (.ofFunc "f" [.index]) :=
  ⟨(Rewrite.ofFunc_kept True ..).toBooked, allowedAll_sampleActions,
    runAll_upToDate (Rewrite.ofFunc_kept True ..).toBooked rfl allowedAll_sampleActions⟩

end Actions

end ConvNest.Transform

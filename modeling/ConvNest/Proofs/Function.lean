/-
# The meaning of a function

A valid function is run by running its tree, from the store that gives the parameters their
arguments: `Valid.run_iff` for the results, and `Valid.visits` for everything that is executed.
-/
import ConvNest.Proofs.Verified

namespace ConvNest.Program

open Node List

/-- The store that gives the parameters their arguments, and nothing else. -/
def startStore (params : List ValueId) (args : List Tensor) : Store :=
  Store.assign (fun _ => none) params (args.map .tensor)

/-- The results of a function with the given parameters and tree. -/
def call (params : List ValueId) (ns : List Node) (args : List Tensor) : Option (List Tensor) :=
  (runAll ns (startStore params args)).bind (List.mapM Datum.tensor?)

/-- Arguments as the parameters ask for. -/
def Graph.Accepts (g : Graph) (params : List ValueId) (args : List Tensor) : Prop :=
  args.length = params.length ∧ ∀ (k : Nat) v t, params[k]? = some v → args[k]? = some t →
    (g.ty v).isTensor = true ∧ (g.ty v).shape.compatible t.shape = true

section Arguments

variable {g : Graph} {E : Env}
variable {vs : List ValueId} {ts : List Tensor}

theorem accepts_cons {v : ValueId} {t : Tensor} : g.Accepts (v :: vs) (t :: ts) ↔
      ((g.ty v).isTensor = true ∧ (g.ty v).shape.compatible t.shape = true) ∧ g.Accepts vs ts := by
  constructor
  · rintro ⟨hlen, h⟩
    exact ⟨h 0 v t rfl rfl, Nat.succ.inj hlen, fun k u s hu hs => h (k + 1) u s hu hs⟩
  · rintro ⟨hfirst, hlen, h⟩
    refine ⟨congrArg _ hlen, fun k u s hu hs => ?_⟩
    cases k with
    | zero =>
      cases hu
      cases hs
      exact hfirst
    | succ k => exact h k u s hu hs

theorem outcome_bindArguments (hvs : vs.Nodup) (h : g.Accepts vs ts) (k : Nat) :
    ∃ F, outcome (Eval.bindArguments g k vs ts) E = some ((), F) ∧
      Assigned vs (ts.map .tensor) E F := by
  induction vs generalizing ts E k with
  | nil =>
    obtain rfl : ts = [] := length_eq_zero_iff.1 h.1
    exact ⟨E, rfl, assigned_nil⟩
  | cons v vs ih =>
    obtain ⟨t, ts, rfl⟩ := exists_cons_of_length_eq_add_one h.1
    obtain ⟨hfirst, hrest⟩ := accepts_cons.1 h
    obtain ⟨F, hF, ha⟩ := ih (E := E.insert v.idx (.tensor t)) (nodup_cons.1 hvs).2 hrest (k + 1)
    refine ⟨F, ?_, ha.cons (nodup_cons.1 hvs).1⟩
    simpa [Eval.bindArguments, hfirst, outcome_define] using hF

theorem outcome_bindArguments_none (hlen : ts.length = vs.length) (h : ¬ g.Accepts vs ts)
    (k : Nat) :
    outcome (Eval.bindArguments g k vs ts) E = none := by
  induction vs generalizing ts E k with
  | nil => exact absurd ⟨hlen, by simp⟩ h
  | cons v vs ih =>
    obtain ⟨t, ts, rfl⟩ := exists_cons_of_length_eq_add_one hlen
    unfold Eval.bindArguments
    by_cases hfirst : (g.ty v).isTensor = true ∧ (g.ty v).shape.compatible t.shape = true
    · have hrest := ih (E := E.insert v.idx (.tensor t)) (Nat.succ.inj hlen)
        (fun hr => h (accepts_cons.2 ⟨hfirst, hr⟩)) (k + 1)
      simpa [hfirst, outcome_define] using hrest
    · have : (!(g.ty v).isTensor || !(g.ty v).shape.compatible t.shape) = true := by
        cases h1 : (g.ty v).isTensor <;> cases h2 : (g.ty v).shape.compatible t.shape <;>
          simp_all
      simp [this]

end Arguments

section Functions

variable {g : Graph} {f : FuncId} {b : BlockId} {params : List ValueId} {ns : List Node}
  {args ts : List Tensor}

variable (hv : Valid g f b params ns)

include hv

theorem Valid.paramsNodup : params.Nodup :=
  (nodup_append.1 (hv.holds.nodup hv.sane)).1

/-- A function is ready to run as soon as its parameters have got data. -/
theorem Valid.ready {ds : List Datum} {F : Env} (ha : Assigned params ds ∅ F) :
    Ready g ns params F (Store.assign (fun _ => none) params ds) where
  held := hv.holds.held
  counts m hm := (hv.rules m hm).counts
  inScope := hv.inScope
  nodup := hv.holds.defs_nodup hv.sane
  apart v hp hd := (nodup_append.1 (hv.holds.nodup hv.sane)).2.2 v hp v hd rfl
  quiet v hvi := by
    rw [ha.changed.same fun hp => ?_]
    · rfl
    · exact (nodup_append.1 (hv.holds.nodup hv.sane)).2.2 v hp v (idles_subset_defs ns hvi) rfl
  agrees v hp := by
    have := ha.agrees (V := []) (S := fun _ => none) hv.paramsNodup (by simp) (by simp [Agrees])
    exact this v (by simpa using hp)

theorem Valid.watched (hacc : g.Accepts params args) : Option.Rel
    (fun p ts => p.1 = ts ∧
      List.Forall₂ Shows p.2.2 (logAll params ns (startStore params args)))
    (outcome (Watched.func g f args) (∅, [])) (call params ns args) := by
  obtain ⟨F, hF, ha⟩ := outcome_bindArguments (E := ∅) hv.paramsNodup hacc 0
  have hlen : ¬ args.length ≠ params.length := by simp [hacc.1]
  simp only [Watched.func, watched_ask, toOption_present, hv.body, Option.bind_some, hv.holds.args,
    hlen, if_false, outcome_bind (Watched.lift _), Watched.outcome_lift, hF, Option.map_some,
    Watched.block, hv.holds.ops, outcome_bind (Watched.ops _ _ _)]
  refine rel_bind (ops_adequate (hv.holds.depth_le hv.sane) (hv.ready ha) []) fun p ds hp => ?_
  obtain ⟨new, hnew, hshows⟩ := hp.grown
  rw [hp.data, outcome_mapM _ Datum.tensor? p.2 (fun d => by cases d <;> rfl) ds]
  cases ds.mapM Datum.tensor? with
  | none => exact .none
  | some ts => exact .some ⟨rfl, by simpa [hnew, startStore] using hshows⟩

theorem Valid.rejected (hacc : ¬ g.Accepts params args) :
    outcome (Watched.func g f args) (∅, []) = none := by
  simp only [Watched.func, watched_ask, toOption_present, hv.body, Option.bind_some, hv.holds.args]
  by_cases hlen : args.length = params.length
  · simp [hlen, outcome_bindArguments_none hlen hacc]
  · simp [hlen]

/-- **A valid function computes the meaning of its tree.** -/
theorem Valid.run_iff :
    g.run f args = .ok ts ↔ g.Accepts params args ∧ call params ns args = some ts := by
  rw [Graph.run_eq_ok_iff]
  by_cases hacc : g.Accepts params args
  · have hrel := hv.watched hacc
    constructor
    · rintro ⟨E, hE⟩
      rw [hE] at hrel
      obtain ⟨ts', hts', rfl, -⟩ := rel_some_left hrel
      exact ⟨hacc, hts'⟩
    · rintro ⟨-, hcall⟩
      rw [hcall] at hrel
      obtain ⟨⟨ts', E, l⟩, hw, rfl, -⟩ := rel_some_right hrel
      refine ⟨E, ?_⟩
      simp only [Graph.visits, outcome_eq_some.1 hw, hw]
  · rw [hv.rejected hacc]
    simp [hacc]

/-- **A valid function executes what the meaning of its tree lists.** -/
theorem Valid.visits (h : g.run f args = .ok ts) :
    List.Forall₂ Shows (g.visits f args) (logAll params ns (startStore params args)) := by
  obtain ⟨E, hE⟩ := Graph.run_eq_ok_iff.1 h
  have hrel := hv.watched (hv.run_iff.1 h).1
  rw [hE] at hrel
  obtain ⟨-, -, -, hshows⟩ := rel_some_left hrel
  exact hshows

end Functions

end ConvNest.Program

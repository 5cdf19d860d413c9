/-
# Evaluations that are watched

The evaluator of programs with a record of what it does: every operation that it executes, and every
point of a generic operation, with the data of all values at that moment.  `Graph.visits` is the
record of a function on given arguments.

Watching changes nothing: what a watched evaluation computes is what the evaluation computes
(`run_eq_ok_iff`).
-/
import ConvNest.Proofs.Matching
import ConvNest.Proofs.Meaning

namespace ConvNest.Program

/-! ## 1. Recording changes nothing -/

/-- An evaluation that keeps a record. -/
abbrev Recorded (ρ : Type) := EStateM Fault (Env × List ρ)

namespace Recorded

variable {ρ α : Type}

/-- The evaluation that keeps a record does what the other one does, faults included. -/
abbrev Mirrors (t : Recorded ρ α) (x : Eval α) : Prop := Matches (fun s E => E = s.1) t x Eq

end Recorded

open Recorded

/-- A watched evaluation: the data of values, and what was executed so far. -/
abbrev Watched := EStateM Fault (Env × List (Visit Env))

namespace Watched

/-- An evaluation that executes nothing worth a record. -/
def lift {α : Type} (x : Eval α) : Watched α := fun s =>
  match x s.1 with
  | .ok a E => .ok a (E, s.2)
  | .error f E => .error f (E, s.2)

/-- Records a visit. -/
def note (i : OpId) (point : Option (List Int64)) : Watched Unit :=
  modify fun s => (s.1, s.2 ++ [⟨i, s.1, point⟩])

/-- Runs a loop from a value of its variable on. -/
def loop (upper step : Int64) (body : Int64 → List Datum → Watched (List Datum)) :
    Nat → Int64 → List Datum → Watched (List Datum)
  | 0, _, _ => throw (.stuck .endless)
  | fuel + 1, iv, carried =>
    if iv < upper then do
      let next ← body iv carried
      loop upper step body fuel (iv + step) next
    else pure carried

/-- A loop, whose body is run by `block`. -/
def forLoop (g : Graph) (block : BlockId → Watched (List Datum)) (i : OpId) : Watched Unit := do
  let lower ← lift (Eval.index g (← g.operand i 0))
  let upper ← lift (Eval.index g (← g.operand i 1))
  let step ← lift (Eval.index g (← g.operand i 2))
  if step ≤ 0 then throw (.loopStep step)
  let inits ← lift ((← g.inits i).mapM (Eval.datum g))
  let args ← g.carried i
  let results ← loop upper step (fun iv carried => do
    lift (Eval.define (← g.inductionVar i) (.index iv))
    lift (Eval.bindCarried args carried)
    block (← g.bodyId i)) Eval.wordCount lower inits
  lift (Eval.defineAll (g.op i).results results)

/-- One point of a generic operation. -/
def genericPoint (i : OpId) (maps : List Affine.Map) (args : List ValueId) (inputs : List Tensor)
    (syms : List Int64) (body : Watched (List Datum)) (outs : List Tensor) (point : List Int64) :
    Watched (List Tensor) := do
  note i (some point)
  let indices ← lift (Eval.bindElements point syms maps args (inputs ++ outs))
  let yields ← body
  lift (Eval.storeYields yields (indices.drop inputs.length) outs)

/-- A generic operation, whose body is run by `block`. -/
def generic (g : Graph) (block : BlockId → Watched (List Datum)) (i : OpId) : Watched Unit := do
  let a ← g.genericAttr i
  let shaped ← g.shaped i
  let inputCount := (← g.inputs i).length
  let operands ← lift (shaped.mapM (Eval.tensor g))
  let syms ← lift ((← g.symbols i).mapM (Eval.index g))
  let sides ← Eval.loopRanges a.maps a.iterators.length operands
  let b ← g.bodyId i
  let args := (g.block b).args
  if a.maps.length < shaped.length then throw (.stuck .position)
  let step := genericPoint i a.maps args (operands.take inputCount) syms (block b)
  let outs ← Box.foldM sides step (operands.drop inputCount)
  lift (Eval.defineAll (g.op i).results (outs.map .tensor))

/-- An operation, whose body is run by `block`. -/
def op (g : Graph) (block : BlockId → Watched (List Datum)) (i : OpId) : Watched Unit := do
  note i none
  match g.kind i with
  | .generic => generic g block i
  | .forLoop => forLoop g block i
  | _ => lift (Eval.op g (fun _ => throw (.stuck .kind)) i)

/-- Runs operations up to the first terminator, and gives the data of its operands. -/
def ops (g : Graph) (block : BlockId → Watched (List Datum)) : List OpId → Watched (List Datum)
  | [] => throw .noTerminator
  | i :: rest =>
    if (g.kind i).isTerminator then lift ((g.op i).operands.mapM (Eval.datum g))
    else do
      op g block i
      ops g block rest

/-- Runs a block, nested at most `fuel` deep. -/
def block (g : Graph) : Nat → BlockId → Watched (List Datum)
  | 0, _ => throw (.stuck .endless)
  | fuel + 1, b => ops g (block g fuel) (g.block b).ops

/-- Runs a function. -/
def func (g : Graph) (f : FuncId) (args : List Tensor) : Watched (List Tensor) := do
  let b ← present (g.func f).body
  let params := (g.block b).args
  if args.length ≠ params.length then
    throw (.argumentCount (g.func f).name params.length args.length)
  lift (Eval.bindArguments g 0 params args)
  (← block g (g.ops.size + 1) b).mapM fun
    | .tensor t => pure t
    | _ => throw (.stuck .kind)

/-! ## 2. Watching changes nothing -/

section Mirroring

variable {α : Type}

@[simp] theorem outcome_lift (x : Eval α) (s : Env × List (Visit Env)) :
    outcome (lift x) s = (outcome x s.1).map fun p => (p.1, p.2, s.2) := by
  simp only [outcome, lift]
  cases x s.1 <;> rfl

theorem mirrors_lift (x : Eval α) : Mirrors (lift x) x := by
  rintro s _ rfl
  unfold lift
  cases x s.1 with
  | ok a E => exact .inl ⟨a, a, _, E, rfl, rfl, rfl, rfl⟩
  | error f E => exact .inr ⟨f, _, E, rfl, rfl⟩

theorem mirrors_note_bind (i : OpId) (p : Option (List Int64)) {f : Unit → Watched α} {x : Eval α}
    (h : Mirrors (f ()) x) : Mirrors (note i p >>= f) x :=
  fun s E hE => h (s.1, s.2 ++ [Visit.mk i s.1 p]) E hE

theorem mirrors_loop {upper step : Int64} {t : Int64 → List Datum → Watched (List Datum)}
    {x : Int64 → List Datum → Eval (List Datum)} (h : ∀ iv c, Mirrors (t iv c) (x iv c))
    (fuel : Nat) (iv : Int64) (c : List Datum) :
    Mirrors (loop upper step t fuel iv c) (Eval.loop upper step x fuel iv c) := by
  induction fuel generalizing iv c with
  | zero => exact .throw _
  | succ fuel ih =>
    simp only [loop, Eval.loop]
    split
    · exact .same (h iv c) fun next => ih (iv + step) next
    · exact .pure rfl

variable {g : Graph} {t : BlockId → Watched (List Datum)} {x : BlockId → Eval (List Datum)}

section

variable (h : ∀ b, Mirrors (t b) (x b))

include h

theorem mirrors_forLoop (i : OpId) : Mirrors (forLoop g t i) (Eval.forLoop g x i) := by
  refine .ask fun v => .same (mirrors_lift _) fun lower => .ask fun v => .same (mirrors_lift _)
    fun upper => ?_
  refine .ask fun v => .same (mirrors_lift _) fun step => ?_
  split
  · exact .throw_bind _
  refine .ask fun vs => .same (mirrors_lift _) fun inits => ?_
  refine .ask fun args => .same (mirrors_loop (fun iv c => ?_) _ _ _) fun results => mirrors_lift _
  exact .ask fun v => .same (mirrors_lift _) fun _ => .same (mirrors_lift _) fun _ =>
    .ask fun b => h b

theorem mirrors_generic (i : OpId) : Mirrors (generic g t i) (Eval.generic g x i) := by
  refine .ask fun a => .ask fun shaped => .ask fun inputs => .same (mirrors_lift _)
    fun operands => ?_
  refine .ask fun vs => .same (mirrors_lift _) fun syms => .ask fun sides => .ask fun b => ?_
  dsimp only
  split
  · exact .throw_bind _
  rw [Box.foldM_eq_foldlM, Box.foldM_eq_foldlM]
  refine .same (.foldlM (fun outs p => ?_) _ _) fun outs => mirrors_lift _
  refine mirrors_note_bind _ _ (.same (mirrors_lift _) fun indices => ?_)
  exact .same (h b) fun ys => mirrors_lift _

theorem mirrors_op (i : OpId) : Mirrors (op g t i) (Eval.op g x i) := by
  refine mirrors_note_bind _ _ ?_
  cases hk : g.kind i with
  | generic => simpa only [Eval.op, hk] using mirrors_generic h i
  | forLoop => simpa only [Eval.op, hk] using mirrors_forLoop h i
  | _ => simpa only [Eval.op, hk] using mirrors_lift _

theorem mirrors_ops (is : List OpId) : Mirrors (ops g t is) (Eval.ops g x is) := by
  induction is with
  | nil => exact .throw _
  | cons i is ih =>
    simp only [ops, Eval.ops]
    split
    · exact mirrors_lift _
    · exact .same (mirrors_op h i) fun _ => ih

end

theorem mirrors_block (g : Graph) (fuel : Nat) (b : BlockId) :
    Mirrors (block g fuel b) (Eval.block g fuel b) := by
  induction fuel generalizing b with
  | zero => exact .throw _
  | succ fuel ih => exact mirrors_ops ih _

theorem mirrors_func (g : Graph) (f : FuncId) (args : List Tensor) :
    Mirrors (func g f args) (Eval.func g f args) := by
  refine .ask fun b => ?_
  dsimp only
  split
  · exact .throw_bind _
  refine .same (mirrors_lift _) fun _ => .same (mirrors_block g _ b) fun ds =>
    .mapM_same (fun d => ?_) ds
  cases d with
  | tensor t => exact .pure rfl
  | _ => exact .throw _

end Mirroring

end Watched

namespace Graph

/-- What a function executes on the given arguments, in order. -/
def visits (g : Graph) (f : FuncId) (args : List Tensor) : List (Visit Env) :=
  match Watched.func g f args (∅, []) with
  | .ok _ s => s.2
  | .error _ s => s.2

variable {g : Graph} {f : FuncId} {args ts : List Tensor}

theorem run_eq_ok : g.run f args = .ok ts ↔ ∃ E, outcome (Eval.func g f args) ∅ = some (ts, E) := by
  simp only [run, EStateM.run, outcome]
  cases Eval.func g f args ∅ <;> simp

/-- **A function computes what it computes when it is watched.** -/
theorem run_eq_ok_iff :
    g.run f args = .ok ts ↔
      ∃ E, outcome (Watched.func g f args) (∅, []) = some (ts, E, g.visits f args) := by
  rw [run_eq_ok]
  unfold outcome visits
  rcases Watched.mirrors_func g f args (∅, []) ∅ rfl with
    ⟨us, _, s, E, hw, he, rfl, rfl⟩ | ⟨f, s, E, hw, he⟩
  · simp [hw, he, Prod.ext_iff]
  · simp [hw, he]

end Graph

end ConvNest.Program

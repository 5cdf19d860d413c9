/-
# The meaning of trees

A tree of operations is a function on stores.  A store gives data to values; the store around a body
is never changed by it, and what a body computes is seen only through the values that it yields.
Faults are not told apart: a computation that fails has no result.

`exec` is the meaning of one node and `runAll` that of the nodes of a block, by recursion on the
tree.  `log` and `logAll` list what is executed on the way, in order: every operation, and every
point of a generic operation, with the store at that moment.
-/
import ConvNest.Program.Eval
import ConvNest.Proofs.Outcome
import ConvNest.Proofs.Tree

namespace ConvNest.Program

open List

namespace Datum

/-- The tensor, if it is one. -/
def tensor? : Datum → Option Tensor
  | tensor t => some t
  | _ => none

/-- The scalar, if it is one. -/
def scalar? : Datum → Option Scalar
  | scalar s => some s
  | _ => none

/-- The word, if it is one. -/
def index? : Datum → Option Int64
  | index n => some n
  | _ => none

end Datum

/-! ## 1. Stores -/

/-- The data of values. -/
abbrev Store := ValueId → Option Datum

namespace Store

/-- The tensor of a value. -/
def tensor (S : Store) (v : ValueId) : Option Tensor := (S v).bind Datum.tensor?

/-- The scalar of a value. -/
def scalar (S : Store) (v : ValueId) : Option Scalar := (S v).bind Datum.scalar?

/-- The word of a value. -/
def index (S : Store) (v : ValueId) : Option Int64 := (S v).bind Datum.index?

/-- The word of an index. -/
def word (S : Store) : Index → Option Int64
  | .static n => some n
  | .dynamic v => S.index v

/-- The store in which values have the given data, one by one.  Values without a datum have none. -/
def assign (S : Store) (vs : List ValueId) (ds : List Datum) : Store := fun v =>
  match vs.idxOf? v with
  | some k => ds[k]?
  | none => S v

variable {S : Store} {vs : List ValueId} {ds : List Datum} {v : ValueId}

theorem assign_of_notMem (h : v ∉ vs) : S.assign vs ds v = S v := by
  simp only [assign]
  rw [idxOf?_eq_none_iff.2 h]

theorem assign_getElem (h : vs.Nodup) {k : Nat} (hk : vs[k]? = some v) :
    S.assign vs ds v = ds[k]? := by
  obtain ⟨hlt, rfl⟩ := List.getElem?_eq_some_iff.1 hk
  simp only [assign]
  rw [idxOf?_eq_some_iff.2 ⟨hlt, rfl, fun j hj hjk => ?_⟩]
  exact pairwise_iff_getElem.1 h j k (Nat.lt_trans hj hlt) hlt hj hjk

end Store

/-! ## 2. Operations without a body -/

namespace Head

/-- A constant of a type. -/
def constant (h : Head) (ty : Ty) : Option Datum :=
  match h.attr with
  | .constant n x =>
    if ty.isIndex then some (.index n)
    else if ty.elem.isFloat then some (.scalar (.ofFloat ty.elem x))
    else some (.scalar (.ofInt ty.elem n))
  | _ => none

/-- An operation on two scalars. -/
def binary (h : Head) (S : Store) : Option Datum := do
  let x ← S.scalar (← h.operands[0]?)
  let y ← S.scalar (← h.operands[1]?)
  return .scalar (← (Eval.arith h.kind x y).toOption)

/-- A conversion of a scalar. -/
def widen (h : Head) (ty : Ty) (S : Store) : Option Datum := do
  let x ← S.scalar (← h.operands[0]?)
  return .scalar <| match h.kind with
    | .extendInt => x.extendInt ty.elem
    | .intToFloat => x.intToFloat ty.elem
    | _ => x.extendFloat ty.elem

/-- The least value of a map. -/
def affine (h : Head) (S : Store) : Option Datum :=
  match h.attr with
  | .affine m => do
    let ns ← h.operands.mapM S.index
    let dims ← (firstItems ns m.dims.toInt).toOption
    let syms ← (itemsAfter ns m.dims.toInt).toOption
    let vs ← (m.eval dims syms).toOption
    return .index (← (Eval.least vs).toOption)
  | _ => none

/-- The dimension of a tensor. -/
def tensorDim (h : Head) (S : Store) : Option Datum := do
  let t ← S.tensor (← h.operands[0]?)
  match h.attr with
  | .axis a => return .index (← (t.shape.dimAt a).toOption).toWord
  | _ => none

/-- Merges groups of axes. -/
def collapse (h : Head) (S : Store) : Option Datum := do
  let t ← S.tensor (← h.operands[0]?)
  match h.attr with
  | .reshape groups =>
    let dims ← (Eval.groupSizes t.dims groups).toOption
    let s ← (Shape.make t.elem dims).toOption
    return .tensor (← (t.reshape s).toOption)
  | _ => none

/-- Splits axes to the shape of the result. -/
def expand (h : Head) (ty : Ty) (S : Store) : Option Datum := do
  let t ← S.tensor (← h.operands[0]?)
  let _ ← ty.shape.checkStatic.toOption
  return .tensor (← (t.reshape ty.shape).toOption)

/-- The offsets and sizes of a slice. -/
def offsetsAndSizes (h : Head) : Option (List Index × List Index) :=
  match h.attr with
  | .slice a => do
    let (offsets, left) ← (Graph.resolveMarks a.offsets
      (h.operands.drop (if h.kind = .insertSlice then 2 else 1))).toOption
    let (sizes, _) ← (Graph.resolveMarks a.sizes left).toOption
    return (offsets, sizes)
  | _ => none

/-- The words of offsets and sizes, taken in turn.  Sizes without an offset are zero. -/
def sliceWords (S : Store) : List Index → List Index → Option (List Int64 × List Int64)
  | [], zs => some ([], zs.map fun _ => 0)
  | o :: os, zs => do
    let a ← S.word o
    match zs with
    | [] => none
    | z :: zs =>
      let b ← S.word z
      let (as, bs) ← sliceWords S os zs
      return (a :: as, b :: bs)

/-- The slice of a tensor. -/
def extractSlice (h : Head) (S : Store) : Option Datum := do
  let src ← S.tensor (← h.operands[0]?)
  let (os, zs) ← h.offsetsAndSizes
  let (offsets, sizes) ← sliceWords S os zs
  return .tensor (← (src.extractSlice offsets sizes).toOption)

/-- A tensor with a slice replaced. -/
def insertSlice (h : Head) (S : Store) : Option Datum := do
  let src ← S.tensor (← h.operands[0]?)
  let dest ← S.tensor (← h.operands[1]?)
  let (os, zs) ← h.offsetsAndSizes
  let (offsets, sizes) ← sliceWords S os zs
  return .tensor (← (src.insertSlice dest offsets sizes).toOption)

/-- A convolution. -/
def conv (h : Head) (S : Store) : Option Datum :=
  match h.attr with
  | .conv strides dilations => do
    let input ← S.tensor (← h.operands[0]?)
    let filter ← S.tensor (← h.operands[1]?)
    let output ← S.tensor (← h.operands[2]?)
    return .tensor (← (input.conv2d filter output strides dilations).toOption)
  | _ => none

/-- The datum of the first result, which has the given type, of an operation without a body. -/
def leaf (h : Head) (ty : Ty) (S : Store) : Option Datum :=
  match h.kind with
  | .constant => h.constant ty
  | .addInt | .mulInt | .addFloat | .mulFloat => h.binary S
  | .extendInt | .extendFloat | .intToFloat => h.widen ty S
  | .affineApply | .affineMin => h.affine S
  | .tensorDim => h.tensorDim S
  | .collapse => h.collapse S
  | .expand => h.expand ty S
  | .extractSlice => h.extractSlice S
  | .insertSlice => h.insertSlice S
  | .conv => h.conv S
  | _ => none

/-- The store after an operation without a body.  Results other than the first have no data. -/
def define (h : Head) (S : Store) : Option Store := do
  let ty ← h.tys[0]?
  let d ← h.leaf ty S
  return S.assign h.results [d]

/-! ## 3. Loops -/

/-- The values of the variable of a loop, from the given one on, unless it never ends. -/
def trips (upper step : Int64) : Nat → Int64 → Option (List Int64)
  | 0, _ => none
  | fuel + 1, iv =>
    if iv < upper then (trips upper step fuel (iv + step)).map (iv :: ·) else some []

/-- The values of the variable of a loop. -/
def ivs (h : Head) (S : Store) : Option (List Int64) := do
  let lower ← S.index (← h.operands[0]?)
  let upper ← S.index (← h.operands[1]?)
  let step ← S.index (← h.operands[2]?)
  if step ≤ 0 then none else trips upper step Eval.wordCount lower

/-- The data that a loop starts from. -/
def inits (h : Head) (S : Store) : Option (List Datum) := do
  (← (itemsAfter h.operands 3).toOption).mapM S

/-- One iteration of a loop whose body is `run`. -/
def iteration (args : List ValueId) (run : Store → Option (List Datum)) (S : Store)
    (carried : List Datum) (iv : Int64) : Option (List Datum) :=
  run (S.assign args (.index iv :: carried))

/-! ## 4. Generic operations -/

/-- What the points of a generic operation are computed from. -/
structure Setup where
  maps : List Affine.Map
  inputs : List Tensor
  outs : List Tensor
  syms : List Int64
  sides : List Int64

/-- What a generic operation is computed from. -/
def setup (h : Head) (S : Store) : Option Setup :=
  match h.attr with
  | .generic a => do
    let shaped ← (firstItems h.operands (a.inputs.toInt + h.results.length)).toOption
    let inputs ← (firstItems h.operands a.inputs.toInt).toOption
    let tensors ← shaped.mapM S.tensor
    let symbols ← (itemsAfter h.operands (a.inputs.toInt + h.results.length)).toOption
    let syms ← symbols.mapM S.index
    let sides ← (Eval.loopRanges a.maps a.iterators.length tensors).toOption
    if a.maps.length ≠ shaped.length then none
    else some ⟨a.maps, tensors.take inputs.length, tensors.drop inputs.length, syms, sides⟩
  | _ => none

/-- The indices of a point in the operands, and the elements there. -/
def elements (point syms : List Int64) :
    List Affine.Map → List Tensor → Option (List (List Int64 × Scalar))
  | [], _ => some []
  | _ :: _, [] => none
  | m :: ms, t :: ts => do
    let indices ← m.results.mapM fun e => (e.eval point syms).toOption
    let s ← (t.scalarAt indices).toOption
    return (indices, s) :: (← elements point syms ms ts)

/-- Stores yielded scalars in the outputs.  Outputs beyond them stay. -/
def store : List Datum → List (List Int64) → List Tensor → Option (List Tensor)
  | [], _, outs => some outs
  | .scalar s :: ds, indices :: rest, t :: ts => do
    let t ← (t.setScalar indices s).toOption
    return t :: (← store ds rest ts)
  | _, _, _ => none

/-- One point of a generic operation whose body is `run`. -/
def pointStep (x : Setup) (args : List ValueId) (run : Store → Option (List Datum)) (S : Store)
    (outs : List Tensor) (point : List Int64) : Option (List Tensor) := do
  let es ← elements point x.syms x.maps (x.inputs ++ outs)
  let ys ← run (S.assign args (es.map fun e => .scalar e.2))
  store ys ((es.map (·.1)).drop x.inputs.length) outs

end Head

/-! ## 5. Trees -/

namespace Node

mutual

/-- The store after a node. -/
def exec : Node → Store → Option Store
  | mk _ h _ as ns, S =>
    match h.kind with
    | .forLoop => do
      let ivs ← h.ivs S
      let inits ← h.inits S
      if as.length ≠ inits.length + 1 then none
      else do
        let outs ← ivs.foldlM (Head.iteration as (runAll ns) S) inits
        return S.assign h.results outs
    | .generic => do
      let x ← h.setup S
      if as.length ≠ x.maps.length then none
      else do
        let outs ← (Box.points x.sides).foldlM (Head.pointStep x as (runAll ns) S) x.outs
        return S.assign h.results (outs.map .tensor)
    | _ => h.define S

/-- The data that the nodes of a block yield. -/
def runAll : List Node → Store → Option (List Datum)
  | [], _ => none
  | n :: ns, S =>
    if n.head.kind.isTerminator then n.head.operands.mapM S else (n.exec S).bind (runAll ns)

end

/-- The store after nodes that follow one another. -/
def execAll (ns : List Node) (S : Store) : Option Store := ns.foldlM (fun S n => n.exec S) S

section Equations

variable {n : Node} {ns ms : List Node} {S : Store}
variable {S' : Store}

theorem exec_loop (h : n.head.kind = .forLoop) : n.exec S = (do
    let ivs ← n.head.ivs S
    let inits ← n.head.inits S
    if n.args.length ≠ inits.length + 1 then none
    else do
      let outs ← ivs.foldlM (Head.iteration n.args (runAll n.nodes) S) inits
      return S.assign n.head.results outs) := by
  cases n with
  | mk i hd b as ns =>
    simp only [head_mk] at h
    simp only [exec, h]
    rfl

theorem exec_generic (h : n.head.kind = .generic) : n.exec S = (do
    let x ← n.head.setup S
    if n.args.length ≠ x.maps.length then none
    else do
      let outs ← (Box.points x.sides).foldlM (Head.pointStep x n.args (runAll n.nodes) S) x.outs
      return S.assign n.head.results (outs.map .tensor)) := by
  cases n with
  | mk i hd b as ns =>
    simp only [head_mk] at h
    simp only [exec, h]
    rfl

theorem exec_leaf (h : n.head.kind ≠ .forLoop) (h' : n.head.kind ≠ .generic) :
    n.exec S = n.head.define S := by
  cases n with
  | mk i hd b as ns =>
    simp only [head_mk] at h h' ⊢
    simp only [exec]

theorem exec_loop_iff (h : n.head.kind = .forLoop) : n.exec S = some S' ↔
    ∃ ivs inits outs, n.head.ivs S = some ivs ∧ n.head.inits S = some inits ∧
      n.args.length = inits.length + 1 ∧
      ivs.foldlM (Head.iteration n.args (runAll n.nodes) S) inits = some outs ∧
      S' = S.assign n.head.results outs := by
  rw [exec_loop h]
  simp only [Option.bind_eq_bind, Option.bind_eq_some_iff]
  constructor
  · rintro ⟨ivs, hivs, inits, hinits, h⟩
    split at h
    · cases h
    · next hlen =>
      obtain ⟨outs, houts, heq⟩ := Option.bind_eq_some_iff.1 h
      exact ⟨ivs, inits, outs, hivs, hinits, Decidable.not_not.1 hlen, houts,
        (Option.some.inj heq).symm⟩
  · rintro ⟨ivs, inits, outs, hivs, hinits, hlen, houts, rfl⟩
    refine ⟨ivs, hivs, inits, hinits, ?_⟩
    rw [if_neg (fun hne => hne hlen), houts]
    rfl

theorem exec_generic_iff (h : n.head.kind = .generic) : n.exec S = some S' ↔
    ∃ x outs, n.head.setup S = some x ∧ n.args.length = x.maps.length ∧
      (Box.points x.sides).foldlM (Head.pointStep x n.args (runAll n.nodes) S) x.outs = some outs ∧
      S' = S.assign n.head.results (outs.map .tensor) := by
  rw [exec_generic h]
  simp only [Option.bind_eq_bind, Option.bind_eq_some_iff]
  constructor
  · rintro ⟨x, hx, h⟩
    split at h
    · cases h
    · next hlen =>
      obtain ⟨outs, houts, heq⟩ := Option.bind_eq_some_iff.1 h
      exact ⟨x, outs, hx, Decidable.not_not.1 hlen, houts, (Option.some.inj heq).symm⟩
  · rintro ⟨x, outs, hx, hlen, houts, rfl⟩
    refine ⟨x, hx, ?_⟩
    rw [if_neg (fun hne => hne hlen), houts]
    rfl

theorem exec_leaf_iff (h : n.head.kind ≠ .forLoop) (h' : n.head.kind ≠ .generic) :
    n.exec S = some S' ↔ ∃ ty d, n.head.tys[0]? = some ty ∧ n.head.leaf ty S = some d ∧
      S' = S.assign n.head.results [d] := by
  rw [exec_leaf h h']
  simp only [Head.define, Option.bind_eq_bind, Option.bind_eq_some_iff]
  constructor
  · rintro ⟨ty, hty, d, hd, heq⟩
    exact ⟨ty, d, hty, hd, (Option.some.inj heq).symm⟩
  · rintro ⟨ty, d, hty, hd, rfl⟩
    exact ⟨ty, hty, d, hd, rfl⟩

/-- A node changes nothing but its results. -/
theorem exec_assign (h : n.exec S = some S') : ∃ ds, S' = S.assign n.head.results ds := by
  by_cases hl : n.head.kind = .forLoop
  · obtain ⟨-, -, outs, -, -, -, -, rfl⟩ := (exec_loop_iff hl).1 h
    exact ⟨outs, rfl⟩
  · by_cases hg : n.head.kind = .generic
    · obtain ⟨-, outs, -, -, -, rfl⟩ := (exec_generic_iff hg).1 h
      exact ⟨_, rfl⟩
    · obtain ⟨-, d, -, -, rfl⟩ := (exec_leaf_iff hl hg).1 h
      exact ⟨[d], rfl⟩

theorem exec_frame (h : n.exec S = some S') {v : ValueId} (hv : v ∉ n.head.results) :
    S' v = S v := by
  obtain ⟨ds, rfl⟩ := exec_assign h
  exact Store.assign_of_notMem hv

theorem runAll_nil : runAll [] S = none := by simp [runAll]

theorem runAll_terminator (h : n.head.kind.isTerminator = true) :
    runAll (n :: ns) S = n.head.operands.mapM S := by simp [runAll, h]

theorem runAll_cons (h : n.head.kind.isTerminator = false) :
    runAll (n :: ns) S = (n.exec S).bind (runAll ns) := by simp [runAll, h]

@[simp] theorem execAll_cons : execAll (n :: ns) S = (n.exec S).bind (execAll ns) := rfl

theorem execAll_append : execAll (ms ++ ns) S = (execAll ms S).bind (execAll ns) := by
  simp only [execAll, foldlM_append]
  rfl

theorem execAll_frame (h : execAll ns S = some S') {v : ValueId} (hv : v ∉ outs ns) :
    S' v = S v := by
  induction ns generalizing S with
  | nil => rw [Option.some.inj h]
  | cons n ns ih =>
    rw [execAll_cons, Option.bind_eq_some_iff] at h
    obtain ⟨T, hT, h⟩ := h
    simp only [outs, flatMap_cons, mem_append, not_or] at hv
    rw [ih h hv.2, exec_frame hT hv.1]

theorem runAll_append (h : ∀ m ∈ ms, m.head.kind.isTerminator = false) :
    runAll (ms ++ ns) S = (execAll ms S).bind (runAll ns) := by
  induction ms generalizing S with
  | nil => rfl
  | cons m ms ih =>
    rw [cons_append, runAll_cons (h m mem_cons_self), execAll_cons, Option.bind_assoc]
    exact congrArg _ (funext fun S => ih fun k hk => h k (mem_cons_of_mem _ hk))

end Equations

end Node

/-! ## 6. What is executed -/

/-- An operation that is executed, or a point of a generic operation, with the state before it. -/
structure Visit (σ : Type) where
  op : OpId
  state : σ
  point : Option (List Int64)

/-- A visit of a node, with the values that are visible there. -/
structure Scene where
  visible : List ValueId
  node : Node
  store : Store
  point : Option (List Int64)

/-- What is executed on a walk: `log` at each step, up to the first that fails. -/
def walkLog {α β γ : Type} (step : β → α → Option β) (log : β → α → List γ) : List α → β → List γ
  | [], _ => []
  | x :: xs, b =>
    log b x ++ match step b x with
      | some b' => walkLog step log xs b'
      | none => []

namespace Node

mutual

/-- What a node executes, where `V` is visible. -/
def log : List ValueId → Node → Store → List Scene
  | V, mk i h b as ns, S =>
    ⟨V, mk i h b as ns, S, none⟩ :: match h.kind with
      | .forLoop =>
        match h.ivs S, h.inits S with
        | some ivs, some inits =>
          walkLog (Head.iteration as (runAll ns) S)
            (fun c iv => logAll (as ++ V) ns (S.assign as (.index iv :: c))) ivs inits
        | _, _ => []
      | .generic =>
        match h.setup S with
        | some x =>
          walkLog (Head.pointStep x as (runAll ns) S)
            (fun outs p => ⟨V, mk i h b as ns, S, some p⟩ ::
              match Head.elements p x.syms x.maps (x.inputs ++ outs) with
              | some es => logAll (as ++ V) ns (S.assign as (es.map fun e => .scalar e.2))
              | none => []) (Box.points x.sides) x.outs
        | none => []
      | _ => []

/-- What the nodes of a block execute, where `V` is visible. -/
def logAll : List ValueId → List Node → Store → List Scene
  | _, [], _ => []
  | V, n :: ns, S =>
    if n.head.kind.isTerminator then []
    else n.log V S ++ match n.exec S with
      | some S' => logAll (n.head.results ++ V) ns S'
      | none => []

end

end Node

end ConvNest.Program

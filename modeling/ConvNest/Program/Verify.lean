/-
# Well-formed programs

The rules a function has to keep: every operand is defined earlier in an enclosing block and not
erased, the use lists agree with the operands, every block ends with the terminator of its owner and
has no other, and loops and generic operations have operands, results and bodies that fit together.

`verify` reports the first broken rule.  It is stuck, rather than reporting a rule, at operations
that lack the operands or attribute that a rule speaks of.
-/
import ConvNest.Program.View

namespace ConvNest.Program

/-- A broken rule. -/
inductive Defect where
  | noBody (func : String)
  | erasedInBlock (kind : Kind) (pos : Nat)
  | wrongParent (kind : Kind) (pos : Nat)
  | wrongEnd (wanted found : Kind)
  | terminatorInside (kind : Kind) (pos : Nat)
  | emptyBlock (wanted : Kind)
  | erasedOperand (kind : Kind) (i : Nat) (definer : Kind)
  | notVisible (kind : Kind) (i : Nat) (value : String)
  | missingUse (kind : Kind) (i : Nat)
  | erasedUser (kind : Kind) (i : Nat) (user : Kind)
  | staleUse (kind : Kind) (i : Nat) (user : Kind)
  | strayBody (kind : Kind)
  | loopBound (ty : Ty)
  | loopArguments (count : Int)
  | loopVariable (ty : Ty)
  | loopResults (results inits : Nat)
  | loopTypes (i : Nat) (init arg result : Ty)
  | loopYields (count inits : Nat)
  | loopYieldType (i : Nat) (found wanted : Ty)
  | genericMaps (maps operands : Nat)
  | genericSymbols (operands : Nat) (symbols : Int64)
  | genericMap (i : Nat) (map : Affine.Map) (ty : Ty)
  | genericResult (i : Nat) (result output : Ty)
  | genericArguments (count : Nat)
  | genericYields (count results : Nat)
  /-- A broken rule inside of something. -/
  | within (place : String) (defect : Defect)
  deriving Repr

namespace Defect

/-- The text of a broken rule. -/
def message : Defect → String
  | noBody f => s!"func @{f} has no body"
  | erasedInBlock k p => s!"erased op {k.name} still in block at position {Text.count p}"
  | wrongParent k p => s!"op {k.name} at position {Text.count p} has the wrong parent block"
  | wrongEnd w k => s!"block must end with {w.name}, got {k.name}"
  | terminatorInside k p =>
    s!"terminator {k.name} in the middle of a block (position {Text.count p})"
  | emptyBlock w => s!"empty block, expected a {w.name} terminator"
  | erasedOperand k i d =>
    s!"{k.name}: operand #{Text.count i} defined by erased op {d.name}"
  | notVisible k i v => s!"{k.name}: operand #{Text.count i} ({v}) does not dominate its use"
  | missingUse k i => s!"{k.name}: operand #{Text.count i} missing from its use-list"
  | erasedUser k i u => s!"{k.name}: result #{Text.count i} used by erased op {u.name}"
  | staleUse k i u => s!"{k.name}: result #{Text.count i} has a stale use in {u.name}"
  | strayBody k => s!"{k.name} must not have a body"
  | loopBound t => s!"scf.for: bounds and step must be index values, got {t.text}"
  | loopArguments n => s!"scf.for: body must have 1+{toString n} arguments"
  | loopVariable t => s!"scf.for: induction variable must be an index, got {t.text}"
  | loopResults r n =>
    s!"scf.for: {Text.count r} results for {Text.count n} iter args"
  | loopTypes i a b c =>
    s!"scf.for: iter arg #{Text.count i} type mismatch (init {a.text}, arg {b.text}, " ++
      s!"result {c.text})"
  | loopYields n m => s!"scf.for: yields {Text.count n} values for {Text.count m} iter args"
  | loopYieldType i a b =>
    s!"scf.for: yielded #{Text.count i} has type {a.text}, expected {b.text}"
  | genericMaps m n =>
    s!"linalg.generic: {Text.count m} indexing maps for {Text.count n} operands"
  | genericSymbols n s =>
    s!"linalg.generic: {Text.count n} symbol operands for {Text.word s} symbols"
  | genericMap i m t =>
    s!"linalg.generic: indexing map #{Text.count i} {m.text} inconsistent with operand {t.text}"
  | genericResult i a b =>
    s!"linalg.generic: result #{Text.count i} type {a.text} differs from output {b.text}"
  | genericArguments n => s!"linalg.generic: body must have {Text.count n} arguments"
  | genericYields n r =>
    s!"linalg.generic: yields {Text.count n} values for {Text.count r} outputs"
  | within p d => p ++ ": " ++ d.message

end Defect

/-- Why verification ends: a broken rule, or a fault. -/
inductive Rejection where
  | defect (d : Defect)
  | fault (f : Fault)
  deriving Repr

/-- A verification. -/
abbrev Check := Except Rejection

/-- A fault ends a verification. -/
instance : MonadLift (Except Fault) Check := ⟨fun x => x.mapError .fault⟩

namespace Check

/-- Reports a broken rule. -/
def reject {α : Type} (d : Defect) : Check α := .error (.defect d)

/-- Reports a broken rule unless it is kept. -/
@[macro_inline] def require (kept : Bool) (d : Defect) : Check Unit :=
  if kept then .ok () else reject d

/-- Says where a broken rule was found; faults pass. -/
def inside {α : Type} (place : String) (x : Check α) : Check α :=
  x.mapError fun
    | .defect d => .defect (.within place d)
    | .fault f => .fault f

/-- An operand may not be defined by an erased operation. -/
def definer (g : Graph) (kind : Kind) (v : ValueId) (k : Nat) : Check Unit :=
  match g.definingOp v with
  | some d => require (!(g.op d).erased) (.erasedOperand kind k (g.kind d))
  | none => .ok ()

/-- The rules of one operand. -/
def operand (g : Graph) (visible : List ValueId) (i : OpId) (v : ValueId) (k : Nat) :
    Check Unit := do
  definer g (g.kind i) v k
  require (visible.contains v) (.notVisible (g.kind i) k (g.valueText v))
  require ((g.value v).uses.contains ⟨i, k⟩) (.missingUse (g.kind i) k)

/-- The rules of one use of a result. -/
def use (g : Graph) (i : OpId) (r : ValueId) (u : Use) : Check Unit := do
  require (!(g.op u.op).erased) (.erasedUser (g.kind i) (g.value r).index (g.kind u.op))
  require ((g.op u.op).operands[u.index]? == some r)
    (.staleUse (g.kind i) (g.value r).index (g.kind u.op))

/-- The rules of the uses of one result. -/
def result (g : Graph) (i : OpId) (r : ValueId) : Check Unit := (g.value r).uses.forM (use g i r)

/-- The body of a loop or a generic operation. -/
def body (x : Op) (d : Defect) : Check BlockId :=
  match x.body with
  | some b => .ok b
  | none => reject d

/-- The rules of a loop, whose body is checked by `check`. -/
def forLoop (g : Graph) (check : BlockId → Kind → Check Unit) (i : OpId) : Check Unit := do
  let x := g.op i
  let bs ← g.bounds i
  [bs.lower, bs.upper, bs.step].forM fun v => require (g.ty v).isIndex (.loopBound (g.ty v))
  let inits ← g.inits i
  let b ← body x (.loopArguments inits.length)
  require ((g.block b).args.length == 1 + inits.length) (.loopArguments inits.length)
  let iv ← g.inductionVar i
  require (g.ty iv).isIndex (.loopVariable (g.ty iv))
  require (x.results.length == inits.length) (.loopResults x.results.length inits.length)
  (((← g.carried i).zip inits).zip x.results).zipIdx.forM fun p =>
    let arg := g.ty p.1.1.1
    let init := g.ty p.1.1.2
    let res := g.ty p.1.2
    require (arg == init && res == init) (.loopTypes p.2 init arg res)
  inside "scf.for body" (check b .loopYield)
  let yields ← g.yielded i
  require (yields.length == inits.length) (.loopYields yields.length inits.length)
  (yields.zip inits).zipIdx.forM fun p =>
    require (g.ty p.1.1 == g.ty p.1.2) (.loopYieldType p.2 (g.ty p.1.1) (g.ty p.1.2))

/-- The rules of a generic operation, whose body is checked by `check`. -/
def generic (g : Graph) (check : BlockId → Kind → Check Unit) (i : OpId) : Check Unit := do
  let x := g.op i
  let a ← g.genericAttr i
  let shaped ← g.shaped i
  require (a.maps.length == shaped.length) (.genericMaps a.maps.length shaped.length)
  let symbols ← g.symbols i
  require (Word.length symbols == a.symbols) (.genericSymbols symbols.length a.symbols)
  (a.maps.zip shaped).zipIdx.forM fun p =>
    let m := p.1.1
    let t := g.ty p.1.2
    require (m.dims == Word.length a.iterators && m.syms == a.symbols && m.arity == t.shape.rank)
      (.genericMap p.2 m t)
  ((← g.outputs i).zip x.results).zipIdx.forM fun p =>
    require (g.ty p.1.2 == g.ty p.1.1) (.genericResult p.2 (g.ty p.1.2) (g.ty p.1.1))
  let b ← body x (.genericArguments shaped.length)
  require ((g.block b).args.length == shaped.length) (.genericArguments shaped.length)
  inside "linalg.generic body" (check b .genericYield)
  let yields ← g.yielded i
  require (yields.length == x.results.length) (.genericYields yields.length x.results.length)

/-- The rules of an operation, whose body is checked by `check`. -/
def op (g : Graph) (check : List ValueId → BlockId → Kind → Check Unit) (visible : List ValueId)
    (i : OpId) : Check Unit := do
  let x := g.op i
  x.operands.zipIdx.forM fun p => operand g visible i p.1 p.2
  x.results.forM (result g i)
  match x.kind with
  | .forLoop => forLoop g (check visible) i
  | .generic => generic g (check visible) i
  | k => require x.body.isNone (.strayBody k)

/-- The rules of the place of an operation in a block. -/
def placement (g : Graph) (b : BlockId) (wanted : Kind) (i : OpId) (pos : Nat) (isLast : Bool) :
    Check Unit := do
  let x := g.op i
  require (!x.erased) (.erasedInBlock x.kind pos)
  require (x.parent == some b) (.wrongParent x.kind pos)
  if isLast then require (x.kind == wanted) (.wrongEnd wanted x.kind)
  else require (!x.kind.isTerminator) (.terminatorInside x.kind pos)

/-- The operations of a block from a position on; each sees the results of those before it. -/
def ops (g : Graph) (check : List ValueId → BlockId → Kind → Check Unit) (b : BlockId)
    (wanted : Kind) : List ValueId → Nat → List OpId → Check Unit
  | _, _, [] => .ok ()
  | visible, pos, i :: rest => do
    placement g b wanted i pos rest.isEmpty
    op g check visible i
    ops g check b wanted ((g.op i).results ++ visible) (pos + 1) rest

/-- The rules of a block that has to end with the given kind, nested at most `fuel` deep. -/
def block (g : Graph) : Nat → List ValueId → BlockId → Kind → Check Unit
  | 0, _, _, _ => .error (.fault (.stuck .endless))
  | fuel + 1, visible, b, wanted => do
    let x := g.block b
    require (!x.ops.isEmpty) (.emptyBlock wanted)
    ops g (block g fuel) b wanted (x.args ++ visible) 0 x.ops

end Check

/-- Checks that a function is well formed. -/
def Graph.verify (g : Graph) (f : FuncId) : Check Unit :=
  let name := (g.func f).name
  match (g.func f).body with
  | none => Check.reject (.noBody name)
  | some b => Check.inside ("func @" ++ name) (Check.block g (g.ops.size + 1) [] b .funcReturn)

end ConvNest.Program

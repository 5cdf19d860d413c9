/-
# What verification says

A function that is verified is held by its graph as a tree: every operation is where it claims to
be, every operand is visible, and loops and generic operations have the operands, arguments, results
and yielded values that fit together.  `Rules` is what verification says about one node, and
`verify_tree` reads all of it off a verification that succeeded.
-/
import ConvNest.Program.Verify
import ConvNest.Proofs.Adequacy

namespace ConvNest.Program

open List

namespace Node

/-- The nodes end with one of the given kind, and have no other terminator. -/
def Ends (k : Kind) (ns : List Node) : Prop :=
  ∃ init last, ns = init ++ [last] ∧ last.head.kind = k ∧
    ∀ m ∈ init, m.head.kind.isTerminator = false

/-- What verification says about a node. -/
structure Rules (g : Graph) (n : Node) : Prop where
  counts : Counts n
  loopEnd : n.head.kind = .forLoop → Ends .loopYield n.nodes
  genericEnd : n.head.kind = .generic → Ends .genericYield n.nodes
  leafBody : n.structured = false → n.body = none
  loopBounds : n.head.kind = .forLoop → ∀ k v, k < 3 → n.head.operands[k]? = some v →
    g.ty v = .index
  loopVariable : n.head.kind = .forLoop → ∀ v, n.args[0]? = some v → g.ty v = .index
  loopInits : n.head.kind = .forLoop →
    (n.head.operands.drop 3).map g.ty = n.head.results.map g.ty
  loopArgs : n.head.kind = .forLoop → (n.args.drop 1).map g.ty = n.head.results.map g.ty
  loopYields : n.head.kind = .forLoop → ∀ m ∈ n.nodes, m.head.kind.isTerminator = true →
    m.head.operands.map g.ty = n.head.results.map g.ty
  inputs : ∀ a, n.head.kind = .generic → n.head.attr = .generic a → 0 ≤ a.inputs.toInt ∧
    a.inputs.toInt + n.head.results.length ≤ n.head.operands.length
  outputs : ∀ a, n.head.kind = .generic → n.head.attr = .generic a →
    ((n.head.operands.take (a.inputs.toInt + n.head.results.length).toNat).drop
      a.inputs.toInt.toNat).map g.ty = n.head.results.map g.ty
  maps : ∀ a, n.head.kind = .generic → n.head.attr = .generic a → ∀ (k : Nat) m v,
    a.maps[k]? = some m → n.head.operands[k]? = some v →
      m.dims = Word.length a.iterators ∧ m.syms = a.symbols ∧ m.arity = (g.ty v).shape.rank
  symbols : ∀ a, n.head.kind = .generic → n.head.attr = .generic a →
    Word.length (n.head.operands.drop (a.inputs.toInt + n.head.results.length).toNat) = a.symbols
  hasAttr : n.head.kind = .generic → ∃ a, n.head.attr = .generic a

/-- What the rules say of a loop. -/
structure LoopRules (g : Graph) (n : Node) : Prop where
  hasBody : ∃ b, n.body = some b
  operands : n.head.operands.length = n.args.length + 2
  results : n.args.length = n.head.results.length + 1
  ends : Ends .loopYield n.nodes
  bounds : ∀ k v, k < 3 → n.head.operands[k]? = some v → g.ty v = .index
  index : ∀ v, n.args[0]? = some v → g.ty v = .index
  inits : (n.head.operands.drop 3).map g.ty = n.head.results.map g.ty
  args : (n.args.drop 1).map g.ty = n.head.results.map g.ty
  yields : ∀ m ∈ n.nodes, m.head.kind.isTerminator = true →
    m.head.operands.map g.ty = n.head.results.map g.ty

/-- What the rules say of a generic operation. -/
structure GenericRules (g : Graph) (n : Node) (a : GenericAttr) : Prop where
  attr : n.head.attr = .generic a
  hasBody : ∃ b, n.body = some b
  ends : Ends .genericYield n.nodes
  yields : ∀ m ∈ n.nodes, m.head.kind.isTerminator = true →
    m.head.operands.length = n.head.results.length
  count : (a.maps.length : Int) = a.inputs.toInt + n.head.results.length
  args : n.args.length = a.maps.length
  inputs : 0 ≤ a.inputs.toInt ∧ a.inputs.toInt + n.head.results.length ≤ n.head.operands.length
  outputs : ((n.head.operands.take (a.inputs.toInt + n.head.results.length).toNat).drop
    a.inputs.toInt.toNat).map g.ty = n.head.results.map g.ty
  maps : ∀ (k : Nat) m v, a.maps[k]? = some m → n.head.operands[k]? = some v →
    m.dims = Word.length a.iterators ∧ m.syms = a.symbols ∧ m.arity = (g.ty v).shape.rank
  symbols : Word.length (n.head.operands.drop (a.inputs.toInt + n.head.results.length).toNat) =
    a.symbols

variable {g : Graph} {n : Node}

theorem eq_last {ns : List Node} {m last : Node} (hns : ∀ m ∈ ns, m.head.kind.isTerminator = false)
    (hm : m ∈ ns ++ [last]) (ht : m.head.kind.isTerminator = true) : m = last := by
  rcases mem_append.1 hm with hm | hm
  · simp [hns m hm] at ht
  · exact mem_singleton.1 hm

/-- An operation without a body keeps the rules. -/
theorem rules_leaf (hl : n.head.kind ≠ .forLoop) (hg : n.head.kind ≠ .generic)
    (hb : n.body = none) : Rules g n := by
  have hs : n.structured ≠ true := by simp [structured, hl, hg]
  have hcounts : Counts n :=
    { hasBody := (absurd · hs)
      loopOperands := (absurd · hl)
      loopResults := (absurd · hl)
      yields := (absurd · hs)
      maps := fun _ => (absurd · hg)
      args := fun _ => (absurd · hg) }
  exact
    { counts := hcounts
      loopEnd := (absurd · hl)
      genericEnd := (absurd · hg)
      leafBody := fun _ => hb
      loopBounds := (absurd · hl)
      loopVariable := (absurd · hl)
      loopInits := (absurd · hl)
      loopArgs := (absurd · hl)
      loopYields := (absurd · hl)
      inputs := fun _ => (absurd · hg)
      outputs := fun _ => (absurd · hg)
      maps := fun _ => (absurd · hg)
      symbols := fun _ => (absurd · hg)
      hasAttr := (absurd · hg) }

/-- The operands and arguments of a loop. -/
theorem loop_parts (hrules : Rules g n) (hkind : n.head.kind = .forLoop) :
    ∃ l u s inits iv carried, n.head.operands = l :: u :: s :: inits ∧ n.args = iv :: carried ∧
      ∀ v ∈ [l, u, s], g.ty v = .index := by
  have hoperands := hrules.counts.loopOperands hkind
  obtain ⟨iv, carried, hargs⟩ := exists_cons_of_length_eq_add_one (hrules.counts.loopResults hkind)
  rw [hargs, length_cons] at hoperands
  rcases hops : n.head.operands with _ | ⟨l, _ | ⟨u, _ | ⟨s, inits⟩⟩⟩
  · simp [hops] at hoperands
  · simp [hops] at hoperands
  · simp [hops] at hoperands
  · have hbounds := hrules.loopBounds hkind
    rw [hops] at hbounds
    refine ⟨l, u, s, inits, iv, carried, rfl, hargs, fun v hv => ?_⟩
    simp only [mem_cons, not_mem_nil, or_false] at hv
    rcases hv with rfl | rfl | rfl
    · exact hbounds 0 _ (by decide) rfl
    · exact hbounds 1 _ (by decide) rfl
    · exact hbounds 2 _ (by decide) rfl

/-- A loop that carries one value has one of each. -/
theorem Rules.single (h : Rules g n) (hk : n.head.kind = .forLoop)
    (hone : n.head.operands.length = 4) :
    ∃ l u s iv c init r, n.head.operands = [l, u, s, init] ∧ n.args = [iv, c] ∧
      n.head.results = [r] := by
  have hargs := h.counts.loopOperands hk
  have hresults := h.counts.loopResults hk
  obtain ⟨l, tail, ho, htail⟩ := List.length_eq_succ_iff.1 hone
  obtain ⟨u, s, init, rfl⟩ := List.length_eq_three.1 htail
  obtain ⟨iv, c, ha⟩ := List.length_eq_two.1 (show n.args.length = 2 by omega)
  obtain ⟨r, hr⟩ := List.length_eq_one_iff.1 (show n.head.results.length = 1 by omega)
  exact ⟨l, u, s, iv, c, init, r, ho.symm, ha, hr⟩

theorem LoopRules.rules (h : LoopRules g n) (hk : n.head.kind = .forLoop) : Rules g n := by
  have hg : n.head.kind ≠ .generic := by simp [hk]
  exact {
    counts := ⟨fun _ => h.hasBody, fun _ => h.operands, fun _ => h.results,
      fun _ m hm ht => by simpa using congrArg List.length (h.yields m hm ht),
      fun _ => (absurd · hg), fun _ => (absurd · hg)⟩
    loopEnd := fun _ => h.ends
    genericEnd := (absurd · hg)
    leafBody := fun hs => by simp [structured, hk] at hs
    loopBounds := fun _ => h.bounds
    loopVariable := fun _ => h.index
    loopInits := fun _ => h.inits
    loopArgs := fun _ => h.args
    loopYields := fun _ => h.yields
    inputs := fun _ => (absurd · hg)
    outputs := fun _ => (absurd · hg)
    maps := fun _ => (absurd · hg)
    symbols := fun _ => (absurd · hg)
    hasAttr := (absurd · hg) }

theorem GenericRules.rules {a : GenericAttr} (h : GenericRules g n a)
    (hk : n.head.kind = .generic) :
    Rules g n := by
  have hl : n.head.kind ≠ .forLoop := by simp [hk]
  have hattr (a' : GenericAttr) (ha : n.head.attr = .generic a') : a = a' :=
    Attr.generic.inj (h.attr.symm.trans ha)
  exact {
    counts := ⟨fun _ => h.hasBody, (absurd · hl), (absurd · hl), fun _ => h.yields,
      fun a' _ ha => hattr a' ha ▸ h.count, fun a' _ ha => hattr a' ha ▸ h.args⟩
    loopEnd := (absurd · hl)
    genericEnd := fun _ => h.ends
    leafBody := fun hs => by simp [structured, hk] at hs
    loopBounds := (absurd · hl)
    loopVariable := (absurd · hl)
    loopInits := (absurd · hl)
    loopArgs := (absurd · hl)
    loopYields := (absurd · hl)
    inputs := fun a' _ ha => hattr a' ha ▸ h.inputs
    outputs := fun a' _ ha => hattr a' ha ▸ h.outputs
    maps := fun a' _ ha => hattr a' ha ▸ h.maps
    symbols := fun a' _ ha => hattr a' ha ▸ h.symbols
    hasAttr := fun _ => ⟨a, h.attr⟩ }

end Node

open Node

/-! ## 1. Reading checks -/

section Reading

variable {α : Type} {d : Defect} {a : α}

theorem require_ok {c : Bool} {u : Unit} : Check.require c d = .ok u ↔ c = true := by
  cases c <;> simp [Check.require, Check.reject]

theorem check_lift_ok {x : Except Fault α} : (liftM x : Check α) = .ok a ↔ x = .ok a := by
  cases x with
  | ok b => exact ⟨fun h => congrArg _ (Except.ok.inj h), fun h => congrArg _ (Except.ok.inj h)⟩
  | error e => exact ⟨fun h => (nomatch h), fun h => (nomatch h)⟩

theorem inside_ok {p : String} {x : Check α} : Check.inside p x = .ok a ↔ x = .ok a := by
  cases x <;> simp [Check.inside, Except.mapError]

theorem check_body_ok {x : Op} {b : BlockId} : Check.body x d = .ok b ↔ x.body = some b := by
  unfold Check.body
  cases x.body <;> simp [Check.reject]

theorem Ty.isIndex_iff {t : Ty} : t.isIndex = true ↔ t = .index := by
  cases t <;> simp [Ty.isIndex]

end Reading

/-! ## 2. Operations -/

section Operations

variable {g : Graph} {check : List ValueId → BlockId → Kind → Check Unit} {visible : List ValueId}
  {i : OpId} {wanted : Kind}
variable {ns : List Node} {b : BlockId} {α β : Type}

theorem operand_ok {v : ValueId} {k : Nat} (h : Check.operand g visible i v k = .ok ()) :
    v ∈ visible ∧ ⟨i, k⟩ ∈ (g.value v).uses := by
  obtain ⟨-, -, h⟩ := except_bind_eq_ok.1 h
  obtain ⟨⟨⟩, hv, hu⟩ := except_bind_eq_ok.1 h
  exact ⟨by simpa using require_ok.1 hv, by simpa using require_ok.1 hu⟩

/-- The body of an operation with its arguments, as far as a check has gone through it. -/
structure Checked (g : Graph) (visible : List ValueId) (b : BlockId) (wanted : Kind)
    (ns : List Node) : Prop where
  holds : Holds g b (g.block b).args ns
  inScope : ScopedAll ((g.block b).args ++ visible) ns
  rules : ∀ m ∈ subsAll ns, Rules g m
  ends : wanted.isTerminator = true → Ends wanted ns

section

variable {vs : List ValueId} {γ : Type} {xs : List α} {ys : List β} {j : Nat} {x : α} {y : β}
  {k : Kind}

theorem bounds_ok {bs : Graph.Bounds} (h : g.bounds i = .ok bs) :
    (g.op i).operands[0]? = some bs.lower ∧ (g.op i).operands[1]? = some bs.upper ∧
      (g.op i).operands[2]? = some bs.step := by
  unfold Graph.bounds at h
  simp only [except_bind_eq_ok] at h
  obtain ⟨l, hl, u, hu, s, hs, h⟩ := h
  obtain rfl := except_pure_eq_ok.1 h
  exact ⟨itemAt_ok.1 hl, itemAt_ok.1 hu, itemAt_ok.1 hs⟩

theorem yielded_ok (h : g.yielded i = .ok vs) :
    ∃ b j, (g.op i).body = some b ∧ (g.block b).ops.getLast? = some j ∧ (g.op j).operands = vs := by
  obtain ⟨b, hb, h⟩ := except_bind_eq_ok.1 h
  obtain ⟨j, hj, h⟩ := except_bind_eq_ok.1 h
  refine ⟨b, j, present_ok.1 hb, ?_, except_pure_eq_ok.1 h⟩
  have ht := present_ok.1 hj
  unfold Graph.terminator at ht
  split at ht
  · next hlast =>
    split at ht
    · rw [hlast, ht]
    · cases ht
  · cases ht

theorem Node.Ends.terminator_eq (h : Ends k ns) :
    ∃ last, ns.getLast? = some last ∧ last.head.kind = k ∧
      ∀ m ∈ ns, m.head.kind.isTerminator = true → m = last := by
  obtain ⟨init, last, rfl, hlast, hinit⟩ := h
  exact ⟨last, by simp, hlast, fun m hm ht => eq_last hinit hm ht⟩

/-- The only terminator of a body yields what the graph says it does. -/
theorem Checked.yields (h : Checked g visible b k ns) (hk : k.isTerminator = true)
    (hb : (g.op i).body = some b) (hy : g.yielded i = .ok vs) :
    ∀ m ∈ ns, m.head.kind.isTerminator = true → m.head.operands = vs := by
  obtain ⟨b', j, hb', hj, hvs⟩ := yielded_ok hy
  cases hb.symm.trans hb'
  obtain ⟨last, hlast, -, honly⟩ := (h.ends hk).terminator_eq
  intro m hm ht
  obtain rfl := honly m hm ht
  rw [h.holds.ops, getLast?_map, hlast] at hj
  cases hj
  rw [← (h.holds.held.here hm).operands, hvs]

theorem map_eq_of_getElem {f : α → γ} {k : β → γ} (hlen : xs.length = ys.length)
    (h : ∀ (j : Nat) x y, xs[j]? = some x → ys[j]? = some y → f x = k y) : xs.map f = ys.map k := by
  refine ext_getElem (by simpa using hlen) fun j hj hj' => ?_
  rw [length_map] at hj hj'
  rw [getElem_map, getElem_map]
  exact h j _ _ (getElem?_eq_getElem hj) (getElem?_eq_getElem hj')

theorem zip_at (hx : xs[j]? = some x) (hy : ys[j]? = some y) : (xs.zip ys)[j]? = some (x, y) :=
  getElem?_zip_eq_some.2 ⟨hx, hy⟩

theorem mem_zip (hx : xs[j]? = some x) (hy : ys[j]? = some y) : (x, y) ∈ xs.zip ys :=
  mem_of_getElem? (zip_at hx hy)

theorem mem_zipIdx_zip (hx : xs[j]? = some x) (hy : ys[j]? = some y) :
    ((x, y), j) ∈ (xs.zip ys).zipIdx :=
  mem_zipIdx_iff_getElem?.2 (zip_at hx hy)

theorem forall_zipIdx {P : α → Prop} (h : ∀ p ∈ xs.zipIdx, P p.1) : ∀ x ∈ xs, P x := by
  intro x hx
  obtain ⟨k, hk⟩ := getElem?_of_mem hx
  exact h (x, k) (mem_zipIdx_iff_getElem?.2 hk)

end

/-- The node of an operation, with what is in its body. -/
def nodeOf (g : Graph) (i : OpId) (ns : List Node) : Node :=
  .mk i ⟨g.kind i, (g.op i).operands, (g.op i).results, (g.op i).results.map g.ty, (g.op i).attr⟩
    (g.op i).body ((g.op i).body.elim [] fun b => (g.block b).args) ns

theorem loop_rules (hk : g.kind i = .forLoop)
    (ih : ∀ b, check visible b .loopYield = .ok () → ∃ ns, Checked g visible b .loopYield ns)
    (h : Check.forLoop g (check visible) i = .ok ()) :
    ∃ b ns, (g.op i).body = some b ∧ Checked g visible b .loopYield ns ∧
      Rules g (nodeOf g i ns) := by
  simp only [Check.forLoop, except_bind_eq_ok, check_lift_ok, require_ok, check_body_ok, inside_ok,
    except_forM_eq_ok, Ty.isIndex_iff, beq_iff_eq, Bool.and_eq_true, exists_const] at h
  obtain ⟨bs, hbs, hindex, inits, hinits, b, hown, hargs, iv, hiv, hivTy, hresults, carried,
    hcarried, htys, ⟨⟩, hbody, yields, hyields, hcount, hytys⟩ := h
  obtain ⟨ns, hns⟩ := ih b hbody
  have hlast := hns.yields rfl hown hyields
  obtain ⟨hlower, hupper, hstep⟩ := bounds_ok hbs
  obtain ⟨-, hlen, hdrop⟩ := itemsAfter_ok.1 hinits
  obtain rfl : inits = (g.op i).operands.drop 3 := hdrop
  rw [length_drop] at hargs hresults hcount
  simp only [Graph.inductionVar, Graph.carried, Graph.bodyOf, hown] at hiv hcarried
  obtain rfl := (itemsAfter_ok.1 hcarried).2.2
  have hinitTys : ((g.op i).operands.drop 3).map g.ty = (g.op i).results.map g.ty := by
    refine map_eq_of_getElem (by rw [length_drop, hresults]) fun j x y hx hy => ?_
    have hj := (List.getElem?_eq_some_iff.1 hy).1
    obtain ⟨z, hz⟩ : ∃ z, ((g.block b).args.drop 1)[j]? = some z :=
      ⟨_, getElem?_eq_getElem (by rw [length_drop]; omega)⟩
    exact (htys _ (mem_zipIdx_zip (zip_at hz hx) hy)).2.symm
  have hargTys : ((g.block b).args.drop 1).map g.ty = (g.op i).results.map g.ty := by
    rw [← hinitTys]
    refine map_eq_of_getElem (by simp only [length_drop]; omega) fun j x y hx hy => ?_
    have hj := (List.getElem?_eq_some_iff.1 hy).1
    rw [length_drop] at hj
    obtain ⟨z, hz⟩ : ∃ z, (g.op i).results[j]? = some z :=
      ⟨_, getElem?_eq_getElem (by omega)⟩
    exact (htys _ (mem_zipIdx_zip (zip_at hx hy) hz)).1
  have hyieldTys : yields.map g.ty = (g.op i).results.map g.ty := by
    rw [← hinitTys]
    exact map_eq_of_getElem (by rw [length_drop, hcount]) fun j x y hx hy =>
      hytys _ (mem_zipIdx_zip hx hy)
  have hargsOf : (nodeOf g i ns).args = (g.block b).args := by simp [nodeOf, hown]
  refine ⟨b, ns, hown, hns, LoopRules.rules ⟨⟨b, hown⟩, ?_, ?_, hns.ends rfl, fun k v hk3 hv => ?_,
    fun v hv => ?_, hinitTys, hargsOf ▸ hargTys, fun m hm ht => (hlast m hm ht).symm ▸ hyieldTys⟩
      hk⟩
  · rw [hargsOf]
    show (g.op i).operands.length = _
    omega
  · rw [hargsOf]
    show _ = (g.op i).results.length + 1
    omega
  · refine hindex v ?_
    obtain rfl | rfl | rfl : k = 0 ∨ k = 1 ∨ k = 2 := by omega
    · simp [Option.some.inj (hv.symm.trans hlower)]
    · simp [Option.some.inj (hv.symm.trans hupper)]
    · simp [Option.some.inj (hv.symm.trans hstep)]
  · rw [hargsOf, itemAt_ok.1 hiv] at hv
    exact Option.some.inj hv ▸ hivTy

theorem generic_rules (hk : g.kind i = .generic)
    (ih : ∀ b, check visible b .genericYield = .ok () → ∃ ns, Checked g visible b .genericYield ns)
    (h : Check.generic g (check visible) i = .ok ()) :
    ∃ b ns, (g.op i).body = some b ∧ Checked g visible b .genericYield ns ∧
      Rules g (nodeOf g i ns) := by
  simp only [Check.generic, except_bind_eq_ok, check_lift_ok, require_ok, check_body_ok, inside_ok,
    except_forM_eq_ok, beq_iff_eq, Bool.and_eq_true, and_assoc, exists_const] at h
  obtain ⟨a, hga, shaped, hshaped, hmaps, symbols, hsymbols, hsymCount, hmapTys, outputs,
    houtputs, houtTys, b, hown, hargs, ⟨⟩, hbody, yields, hyields, hcount⟩ := h
  obtain ⟨ns, hns⟩ := ih b hbody
  have hlast := hns.yields rfl hown hyields
  have hattr : (g.op i).attr = .generic a := by
    unfold Graph.genericAttr at hga
    split at hga
    · next heq => rw [heq, Except.ok.inj hga]
    · cases hga
  have hfirst : firstItems (g.op i).operands (g.shapedCount i a) = .ok shaped := by
    rw [Graph.shaped, hga] at hshaped
    exact hshaped
  obtain ⟨hpos, hle, hshapedEq⟩ := firstItems_ok.1 hfirst
  have houts : itemsAfter shaped a.inputs.toInt = .ok outputs := by
    rw [Graph.outputs, hshaped, hga] at houtputs
    exact houtputs
  obtain ⟨hin, hinle, houtsEq⟩ := itemsAfter_ok.1 houts
  have hsyms : itemsAfter (g.op i).operands (g.shapedCount i a) = .ok symbols := by
    rw [Graph.symbols, hga] at hsymbols
    exact hsymbols
  obtain ⟨-, -, rfl⟩ := itemsAfter_ok.1 hsyms
  have hlen : (shaped.length : Int) = a.inputs.toInt + (g.op i).results.length := by
    have := firstItems_length hfirst
    simpa [Graph.shapedCount] using this
  have houtLen : outputs.length = (g.op i).results.length := by
    rw [houtsEq, length_drop]
    omega
  have houtTys : outputs.map g.ty = (g.op i).results.map g.ty :=
    map_eq_of_getElem houtLen fun j x y hx hy => (houtTys _ (mem_zipIdx_zip hx hy)).symm
  rw [houtsEq, hshapedEq] at houtTys
  have hargsOf : (nodeOf g i ns).args = (g.block b).args := by simp [nodeOf, hown]
  refine ⟨b, ns, hown, hns, GenericRules.rules ⟨hattr, ⟨b, hown⟩, hns.ends rfl,
    fun m hm ht => (hlast m hm ht).symm ▸ hcount, hmaps ▸ hlen, ?_, ⟨hin, hle⟩, houtTys,
    fun k m v hm hv => ?_, hsymCount⟩ hk⟩
  · rw [hargsOf, hmaps, hargs]
  · refine hmapTys _ (mem_zipIdx_zip hm ?_)
    rw [hshapedEq, getElem?_take_of_lt]
    · exact hv
    · have := (List.getElem?_eq_some_iff.1 hm).1
      rw [hshapedEq, length_take] at hmaps
      omega

/-! ## 3. Trees -/

theorem nodeOf_here (hoperands : ∀ p ∈ (g.op i).operands.zipIdx, ⟨i, p.2⟩ ∈ (g.value p.1).uses)
    (herased : (g.op i).erased = false)
    (hbody : ∀ b, (g.op i).body = some b → Holds g b (g.block b).args ns)
    (hnone : (g.op i).body = none → ns = []) : Held g [nodeOf g i ns] := by
  rw [held_single]
  constructor
  · refine ⟨rfl, rfl, rfl, rfl, rfl, rfl, herased, ?_, ?_, ?_, ?_, ?_⟩
    · intro k v hv
      exact hoperands (v, k) (mem_zipIdx_iff_getElem?.2 hv)
    · intro b hb
      replace hb : (g.op i).body = some b := hb
      simp [nodeOf, hb]
    · exact fun b hb => (hbody b hb).ops
    · intro hb
      replace hb : (g.op i).body = none := hb
      exact ⟨by simp [nodeOf, hb], hnone hb⟩
    · intro m hm
      show (g.op m.id).parent = (g.op i).body
      cases hb : (g.op i).body with
      | none =>
        rw [show (nodeOf g i ns).nodes = [] from hnone hb] at hm
        cases hm
      | some b => exact (hbody b hb).placed m hm
  · show Held g ns
    cases hb : (g.op i).body with
    | none => rw [hnone hb]; exact held_nil g
    | some b => exact (hbody b hb).held

/-- What a check that went through an operation has found. -/
structure CheckedOp (g : Graph) (visible : List ValueId) (n : Node) : Prop where
  held : Held g [n]
  inScope : n.Scoped visible
  rules : ∀ m ∈ n.subs, Rules g m

theorem op_tree (ih : ∀ b k, check visible b k = .ok () → ∃ ns, Checked g visible b k ns)
    (herased : (g.op i).erased = false) (h : Check.op g check visible i = .ok ()) :
    ∃ n, n.id = i ∧ n.head.kind = g.kind i ∧ n.head.results = (g.op i).results ∧
      CheckedOp g visible n := by
  obtain ⟨⟨⟩, hoperands, h⟩ := except_bind_eq_ok.1 h
  obtain ⟨⟨⟩, -, h⟩ := except_bind_eq_ok.1 h
  have huses : ∀ p ∈ (g.op i).operands.zipIdx, p.1 ∈ visible ∧ ⟨i, p.2⟩ ∈ (g.value p.1).uses :=
    fun p hp => operand_ok (except_forM_eq_ok.1 hoperands p hp)
  have hvisible : ∀ v ∈ (g.op i).operands, v ∈ visible := forall_zipIdx fun p hp => (huses p hp).1
  have withBody {b : BlockId} {k : Kind} {ns : List Node} (hb : (g.op i).body = some b)
      (hns : Checked g visible b k ns) (hr : Rules g (nodeOf g i ns)) :
      CheckedOp g visible (nodeOf g i ns) := by
    refine ⟨nodeOf_here (fun p hp => (huses p hp).2) herased ?_ ?_, ?_, fun m hm => ?_⟩
    · exact fun b' hb' => Option.some.inj (hb.symm.trans hb') ▸ hns.holds
    · exact fun hn => absurd (hb.symm.trans hn) (Option.some_ne_none b)
    · refine scoped_iff.2 ⟨hvisible, ?_⟩
      simpa [nodeOf, hb] using hns.inScope
    · rw [subs_eq, mem_cons] at hm
      rcases hm with rfl | hm
      · exact hr
      · exact hns.rules m hm
  by_cases hl : g.kind i = .forLoop
  · have h : Check.forLoop g (check visible) i = .ok () := by
      simpa only [show (g.op i).kind = .forLoop from hl] using h
    obtain ⟨b, ns, hb, hns, hr⟩ := loop_rules hl (fun b hb => ih b _ hb) h
    exact ⟨nodeOf g i ns, rfl, rfl, rfl, withBody hb hns hr⟩
  by_cases hge : g.kind i = .generic
  · have h : Check.generic g (check visible) i = .ok () := by
      simpa only [show (g.op i).kind = .generic from hge] using h
    obtain ⟨b, ns, hb, hns, hr⟩ := generic_rules hge (fun b hb => ih b _ hb) h
    exact ⟨nodeOf g i ns, rfl, rfl, rfl, withBody hb hns hr⟩
  have hnone : (g.op i).body = none := by
    have hbody : (g.op i).body.isNone = true := by
      split at h
      · exact absurd ‹_› hl
      · exact absurd ‹_› hge
      · exact require_ok.1 h
    simpa using hbody
  refine ⟨nodeOf g i [], rfl, rfl, rfl, ?_, ?_, ?_⟩
  · exact nodeOf_here (fun p hp => (huses p hp).2) herased
      (fun b hb => absurd (hb.symm.trans hnone) (Option.some_ne_none b)) fun _ => rfl
  · exact scoped_iff.2 ⟨hvisible, by simp [nodeOf]⟩
  · intro m hm
    rw [subs_eq, show (nodeOf g i []).nodes = [] from rfl, subsAll_nil, mem_singleton] at hm
    exact hm ▸ rules_leaf hl hge hnone

theorem ops_tree {is : List OpId} {pos : Nat}
    (ih : ∀ visible b k, check visible b k = .ok () → ∃ ns, Checked g visible b k ns)
    (h : Check.ops g check b wanted visible pos is = .ok ()) :
    ∃ ns, ns.map Node.id = is ∧ Held g ns ∧ (∀ n ∈ ns, (g.op n.id).parent = some b) ∧
      ScopedAll visible ns ∧ (∀ m ∈ subsAll ns, Rules g m) ∧ (is ≠ [] → Ends wanted ns) := by
  induction is generalizing visible pos with
  | nil => exact ⟨[], by simp⟩
  | cons i is tail =>
    obtain ⟨⟨⟩, hplace, h⟩ := except_bind_eq_ok.1 h
    obtain ⟨⟨⟩, hop, h⟩ := except_bind_eq_ok.1 h
    obtain ⟨ns, rfl, hheld, hplaced, hscope, hrules, hends⟩ := tail h
    obtain ⟨⟨⟩, herased, hplace⟩ := except_bind_eq_ok.1 hplace
    obtain ⟨⟨⟩, hparent, hplace⟩ := except_bind_eq_ok.1 hplace
    have herased : (g.op i).erased = false := by simpa using require_ok.1 herased
    have hparent : (g.op i).parent = some b := by simpa using require_ok.1 hparent
    obtain ⟨n, rfl, hkind, hresults, hn⟩ := op_tree (ih visible) herased hop
    refine ⟨n :: ns, rfl, held_cons.2 ⟨hn.held, hheld⟩, ?_, ?_, ?_, ?_⟩
    · simpa using ⟨hparent, hplaced⟩
    · rw [scopedAll_cons, hresults]
      exact ⟨hn.inScope, hscope⟩
    · intro m hm
      rw [subsAll_cons, mem_append] at hm
      exact hm.elim (hn.rules m) (hrules m)
    · intro _
      cases ns with
      | nil =>
        have hwanted : g.kind n.id = wanted := by simpa [Graph.kind] using require_ok.1 hplace
        exact ⟨[], n, rfl, hkind.trans hwanted, by simp⟩
      | cons k ns =>
        obtain ⟨init, last, heq, hlast, hinit⟩ := hends (by simp)
        have hinner : (g.kind n.id).isTerminator = false := by
          simpa [Graph.kind] using require_ok.1 hplace
        refine ⟨n :: init, last, by rw [heq, cons_append], hlast, ?_⟩
        simpa [hkind, hinner] using hinit

theorem block_tree (fuel : Nat) (h : Check.block g fuel visible b wanted = .ok ()) :
    ∃ ns, Checked g visible b wanted ns := by
  induction fuel generalizing visible b wanted with
  | zero => cases h
  | succ fuel ih =>
    obtain ⟨⟨⟩, hne, h⟩ := except_bind_eq_ok.1 h
    obtain ⟨ns, hids, hheld, hplaced, hscope, hrules, hends⟩ :=
      ops_tree (fun visible b k hk => ih hk) h
    have hne : (g.block b).ops ≠ [] := by simpa using require_ok.1 hne
    exact ⟨ns, ⟨rfl, hids.symm, hplaced, hheld⟩, hscope, hrules, fun _ => hends hne⟩

end Operations

/-! ## 4. Functions -/

/-- A function of a sane graph that is held as a tree, and keeps the rules. -/
structure Valid (g : Graph) (f : FuncId) (b : BlockId) (params : List ValueId) (ns : List Node) :
    Prop where
  sane : Sane g
  body : (g.func f).body = some b
  holds : Holds g b params ns
  inScope : ScopedAll params ns
  rules : ∀ m ∈ subsAll ns, Rules g m
  ends : Ends .funcReturn ns

variable {g : Graph} {f : FuncId}

/-- A verified function is a tree that keeps the rules, whatever else is true of the graph. -/
theorem verify_holds (h : g.verify f = .ok ()) :
    ∃ b params ns, (g.func f).body = some b ∧ Holds g b params ns ∧ ScopedAll params ns ∧
      (∀ m ∈ subsAll ns, Rules g m) ∧ Ends .funcReturn ns := by
  unfold Graph.verify at h
  cases hb : (g.func f).body with
  | none => simp [hb, Check.reject] at h
  | some b =>
    simp only [hb] at h
    obtain ⟨ns, hns⟩ := block_tree _ (inside_ok.1 h)
    exact ⟨b, (g.block b).args, ns, rfl, hns.holds, by simpa using hns.inScope, hns.rules,
      hns.ends rfl⟩

/-- **A verified function of a sane graph is a tree that keeps the rules.** -/
theorem verify_tree (hg : Sane g) (h : g.verify f = .ok ()) :
    ∃ b params ns, Valid g f b params ns := by
  obtain ⟨b, params, ns, hb, hholds, hscope, hrules, hends⟩ := verify_holds h
  exact ⟨b, params, ns, hg, hb, hholds, hscope, hrules, hends⟩

end ConvNest.Program

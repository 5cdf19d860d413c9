/-
# The checks before loops are exchanged

Two loops of a verified function are either planned to be exchanged or found to be out of order: the
checks never end by a fault (`swapPlan_settles`), as long as the operations that insert slices have
a destination and a result (`InsertsSlices`).
-/
import ConvNest.Proofs.Contents
import ConvNest.Proofs.SwapParts

namespace ConvNest

open Program Node List

/-! ## 1. Questions that are settled -/

namespace Inquiry

variable {α β : Type} {P : α → Prop} {Q : β → Prop}

/-- A question has an answer with the property `P`, or something is out of order. -/
def Settles (q : Inquiry α) (P : α → Prop) : Prop :=
  (∃ a, q.run = .ok (.ok a) ∧ P a) ∨ ∃ d, q.run = .ok (.error (.disorder d))

namespace Settles

variable {a : α}

theorem pure (h : P a) : Settles (pure a) P := .inl ⟨a, rfl, h⟩

theorem throw (d : Disorder) : Settles (throw (.disorder d)) P := .inr ⟨d, rfl⟩

variable {q : Inquiry α}

theorem bind {k : α → Inquiry β} (hq : q.Settles P) (hk : ∀ a, P a → (k a).Settles Q) :
    (q >>= k).Settles Q := by
  rcases hq with ⟨a, ha, hp⟩ | ⟨d, hd⟩
  · have hrun : (q >>= k).run = (k a).run := by rw [ExceptT.run_bind, ha]; rfl
    rcases hk a hp with ⟨b, hb, hq⟩ | ⟨d, hd⟩
    · exact .inl ⟨b, hrun.trans hb, hq⟩
    · exact .inr ⟨d, hrun.trans hd⟩
  · exact .inr ⟨d, by rw [ExceptT.run_bind, hd]; rfl⟩

theorem mono {P' : α → Prop} (hq : q.Settles P) (h : ∀ a, P a → P' a) : q.Settles P' := by
  rcases hq with ⟨a, ha, hp⟩ | hd
  · exact .inl ⟨a, ha, h a hp⟩
  · exact .inr hd

theorem lift {x : Except Fault α} (hx : x = .ok a) : Settles (liftM x) (· = a) :=
  .inl ⟨a, run_lift_eq_ok.2 hx, rfl⟩

theorem demand (c : Bool) (d : Disorder) :
    Settles (Inquiry.demand c (.disorder d)) fun _ => c = true := by
  cases c with
  | true => exact .pure rfl
  | false => exact .throw d

theorem forM {xs : List α} {k : α → Inquiry Unit} (h : ∀ x ∈ xs, (k x).Settles fun _ => True) :
    (xs.forM k).Settles fun _ => True := by
  induction xs with
  | nil => exact .pure trivial
  | cons x xs ih =>
    exact .bind (h x mem_cons_self) fun _ _ => ih fun y hy => h y (mem_cons_of_mem _ hy)

end Settles

end Inquiry

namespace Conv

/-! ## 2. Loops of a verified function -/

/-- The operations of a function that insert a slice have a destination and a result. -/
def InsertsSlices (g : Graph) (f : FuncId) : Prop := ∀ i, g.Contains f i → g.kind i = .insertSlice →
  2 ≤ (g.op i).operands.length ∧ (g.op i).results ≠ []

section Loops

variable {g : Graph} {f : FuncId} {b₀ : BlockId} {params : List ValueId} {T : List Node} {n : Node}
  {i inner : OpId}

/-- The parts of a loop that is as verification asks can be read. -/
structure Readable (g : Graph) (i : OpId) : Prop where
  bounds : ∃ b, g.bounds i = .ok b
  inits : ∃ vs, g.inits i = .ok vs
  inductionVar : ∃ iv, g.inductionVar i = .ok iv
  carried : ∃ cs, g.carried i = .ok cs ∧ ∃ ys, g.yielded i = .ok ys ∧ ys.length = cs.length

theorem readable_of_rules (hheld : Held g [n]) (hrules : Rules g n)
    (hkind : n.head.kind = .forLoop) :
    Readable g n.id := by
  have hhere : Here g n := hheld.here mem_cons_self
  obtain ⟨l, u, s, inits, iv, carried, hops, hargs, -⟩ := loop_parts hrules hkind
  obtain ⟨ns, y, hnodes, hyield, -⟩ := hrules.loopEnd hkind
  have hy : y ∈ n.nodes := by simp [hnodes]
  have hterm : y.head.kind.isTerminator = true := by rw [hyield]; rfl
  have hyields := congrArg List.length (hrules.loopYields hkind y hy hterm)
  have hcarried := congrArg List.length (hrules.loopArgs hkind)
  simp only [length_map, hargs] at hyields hcarried
  have hyhere : Here g y := hheld y (by simp [subs_eq, mem_subsAll_of_mem hy])
  have hyielded : g.yielded n.id = .ok y.head.operands := hhere.yielded_eq hyhere hnodes hterm
  exact
    { bounds := ⟨_, hhere.bounds_eq hops⟩
      inits := ⟨_, hhere.inits_eq hops⟩
      inductionVar := ⟨_, hhere.inductionVar_eq hargs⟩
      carried := ⟨_, hhere.carried_eq hargs, _, hyielded, hyields.trans hcarried.symm⟩ }

theorem accumulations_total {carried : List ValueId} (hcarried : g.carried i = .ok carried)
    (hslices : ∀ j ∈ g.bodyOps i, g.kind j = .insertSlice → 2 ≤ (g.op j).operands.length) :
    ∃ found, accumulations g i = .ok found := by
  have heach : ∀ j ∈ g.bodyOps i, ∃ ks, accumulatesInto g carried j = .ok ks := by
    intro j hj
    unfold accumulatesInto
    split
    · exact ⟨_, rfl⟩
    · next hkind =>
      rw [not_or, Decidable.not_not] at hkind
      have hlen := hslices j hj hkind.1
      have hdest : g.operand j 1 = .ok (g.op j).operands[1] := itemAt_ok.2 (getElem?_eq_getElem _)
      exact ⟨_, by rw [hdest]; rfl⟩
  have hfound : ∃ ls, ((g.bodyOps i).mapM fun j => do
      return (← accumulatesInto g carried j).map fun k => (j, k)) = .ok ls := by
    refine except_mapM_total fun j hj => ?_
    obtain ⟨ks, hks⟩ := heach j hj
    exact ⟨_, by rw [hks]; rfl⟩
  obtain ⟨ls, hls⟩ := hfound
  exact ⟨ls.flatten, except_bind_ok carried hcarried (except_bind_ok ls hls rfl)⟩

/-! ## 3. The checks -/

theorem carryingLoop_settles (g : Graph) (i : Option OpId) : (carryingLoop g i).Settles fun j =>
    i = some j ∧ (g.op j).erased = false ∧ g.kind j = .forLoop := by
  cases i with
  | none => exact .throw _
  | some i =>
    refine .bind (.demand _ _) fun _ hloop => .bind (.demand _ _) fun _ _ => .pure ⟨rfl, ?_⟩
    simpa using hloop

theorem checkThreading_settles {outer : OpId} (houter : Readable g outer)
    (hinner : Readable g inner) :
    (checkThreading g outer inner).Settles fun _ => True := by
  obtain ⟨carried, hcarried, yields, hyields, -⟩ := houter.carried
  obtain ⟨inits, hinits⟩ := hinner.inits
  refine .bind (.lift hyields) fun _ _ => .bind (.demand _ _) fun _ _ => ?_
  refine .bind (.lift hcarried) fun _ _ => .bind (.lift hinits) fun _ _ =>
    .bind (.demand _ _) fun _ _ => ?_
  exact .forM fun _ _ => .forM fun _ _ => .mono (.demand _ _) fun _ _ => trivial

theorem checkBounds_settles (outer : OpId) (hinner : Readable g inner) :
    (checkBounds g outer inner).Settles fun _ => True := by
  obtain ⟨b, hb⟩ := hinner.bounds
  exact .bind (.lift hb) fun _ _ => .forM fun _ _ => .mono (.demand _ _) fun _ _ => trivial

theorem checkAccumulation_settles (hinner : Readable g inner)
    (hslices : ∀ j ∈ g.bodyOps inner, g.kind j = .insertSlice →
      2 ≤ (g.op j).operands.length ∧ (g.op j).results ≠ []) :
    (checkAccumulation g inner).Settles fun _ => True := by
  obtain ⟨carried, hcarried, yields, hyields, hlen⟩ := hinner.carried
  obtain ⟨found, hfound⟩ := accumulations_total hcarried fun j hj hk => (hslices j hj hk).1
  refine .bind (.lift hfound) ?_
  rintro found rfl
  rcases found with _ | ⟨⟨acc, k⟩, _ | ⟨_, _⟩⟩
  · exact .throw _
  · -- the accumulation is into a carried value, so there is a value that is yielded at its position
    obtain ⟨hacc, hkind, v, hv, -⟩ := accumulations_mem hcarried hfound mem_cons_self
    have hk : k < yields.length := hlen ▸ (List.getElem?_eq_some_iff.1 hv).1
    have hresult : 0 < (g.op acc).results.length := length_pos_of_ne_nil (hslices acc hacc hkind).2
    refine .bind (.lift hyields) ?_
    rintro yields rfl
    refine .bind (.lift (itemAt_ok.2 (getElem?_eq_getElem hk))) fun _ _ => ?_
    refine .bind (.lift (itemAt_ok.2 (getElem?_eq_getElem hresult))) fun _ _ => ?_
    exact .bind (.demand _ _) fun _ _ => .forM fun _ _ => .mono (.demand _ _) fun _ _ => trivial
  · exact .throw _

/-- The body of an operation of a function is in the function. -/
theorem bodyOps_contains (hv : Valid g f b₀ params T) (hi : g.Contains f i) :
    ∀ j ∈ g.bodyOps i, g.Contains f j := by
  intro j hj
  obtain ⟨n, hn, rfl⟩ := hv.node hi
  rw [(hv.holds.held n hn).bodyOps_eq] at hj
  obtain ⟨m, hm, rfl⟩ := mem_map.1 hj
  exact (hv.holds.contains_iff hv.body).2 ⟨m, nodes_mem_subsAll hn hm, rfl⟩

/-- **Two loops can be exchanged or something is out of order.** -/
theorem swapPlan_settles (hv : Valid g f b₀ params T)
    (hslices : InsertsSlices g f) {outer inner : Option OpId}
    (houter : ∀ i, outer = some i → (g.op i).erased = true ∨ g.Contains f i)
    (hinner : ∀ i, inner = some i → (g.op i).erased = true ∨ g.Contains f i) :
    (swapPlan g outer inner).Settles fun plan => ∃ o i, outer = some o ∧ inner = some i ∧
      g.Contains f o ∧ g.Contains f i ∧ PlansSwap g o i plan := by
  have hread {i : OpId} (hi : (g.op i).erased = true ∨ g.Contains f i)
    (hlive : (g.op i).erased = false)
      (hkind : g.kind i = .forLoop) : g.Contains f i ∧ Readable g i := by
    have hin := hi.resolve_left (by simp [hlive])
    obtain ⟨n, hn, rfl⟩ := hv.node hin
    exact ⟨hin, readable_of_rules (hv.holds.held.single hn)
      (hv.rules n hn) ((hv.holds.held n hn).kind ▸ hkind)⟩
  have hplan : (swapPlan g outer inner).Settles fun _ => ∃ o i, outer = some o ∧ inner = some i ∧
      g.Contains f o ∧ g.Contains f i := by
    refine .bind (carryingLoop_settles g outer) ?_
    rintro o ⟨rfl, hlive, hkind⟩
    obtain ⟨ho, hreado⟩ := hread (houter o rfl) hlive hkind
    refine .bind (carryingLoop_settles g inner) ?_
    rintro i ⟨rfl, hlive', hkind'⟩
    obtain ⟨hi, hreadi⟩ := hread (hinner i rfl) hlive' hkind'
    obtain ⟨iv, hiv⟩ := hreado.inductionVar
    refine .bind (.demand _ _) fun _ _ => .bind (.demand _ _) fun _ _ =>
      .bind (.demand _ _) fun _ _ => ?_
    refine .bind (checkThreading_settles hreado hreadi) fun _ _ => ?_
    refine .bind (checkBounds_settles o hreadi) fun _ _ => .bind (.lift hiv) fun _ _ => ?_
    refine .bind (checkAccumulation_settles hreadi fun j hj =>
      hslices j (bodyOps_contains hv hi j hj))
      fun _ _ => ?_
    exact .pure ⟨o, i, rfl, rfl, ho, hi⟩
  rcases hplan with ⟨plan, hplan, o, i, rfl, rfl, ho, hi⟩ | hd
  · exact .inl ⟨plan, hplan, o, i, rfl, rfl, ho, hi, swapPlan_iff.1 hplan⟩
  · exact .inr hd

end Loops

end Conv

end ConvNest

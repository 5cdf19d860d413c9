/-
# Trees that are verified

`verify_tree` reads off a verification what it says about the tree of a function.  Here is the other
direction: a function that is held as a tree, whose operands are visible and whose nodes keep the
rules, is verified (`verify_of_tree`), if the books about its operations are kept (`Books`): no
operand is defined by an erased operation, and the use lists of the results have no entry that is
stale.
-/
import ConvNest.Proofs.Contents

namespace ConvNest.Program

open Node List

/-- What verification asks of the books about the operations of trees, apart from what makes them
trees of the graph. -/
structure Books (g : Graph) (ns : List Node) : Prop where
  definers : ∀ n ∈ subsAll ns, ∀ v ∈ n.head.operands, ∀ d, g.definingOp v = some d →
    (g.op d).erased = false
  uses : ∀ n ∈ subsAll ns, ∀ r ∈ n.head.results, ∀ u ∈ (g.value r).uses,
    (g.op u.op).erased = false ∧ (g.op u.op).operands[u.index]? = some r

theorem Books.mono {g : Graph} {ms ns : List Node} (h : Books g ns)
    (hsub : ∀ n ∈ subsAll ms, n ∈ subsAll ns) :
    Books g ms :=
  ⟨fun n hn => h.definers n (hsub n hn), fun n hn => h.uses n (hsub n hn)⟩

section Operations

variable {g : Graph} {n : Node} {visible : List ValueId} {check : BlockId → Kind → Check Unit}

/-! ## 1. Operands and results -/

theorem operand_passes (hn : Here g n) (hvisible : ∀ v ∈ n.head.operands, v ∈ visible)
    (hlive : ∀ v ∈ n.head.operands, ∀ d, g.definingOp v = some d → (g.op d).erased = false)
    {v : ValueId} {k : Nat} (hv : n.head.operands[k]? = some v) :
    Check.operand g visible n.id v k = .ok () := by
  have hmem := mem_of_getElem? hv
  refine except_bind_ok () ?_ (except_bind_ok () (require_ok.2 ?_) (require_ok.2 ?_))
  · unfold Check.definer
    split
    · next d hd =>
      rw [hlive v hmem d hd]
      rfl
    · rfl
  · exact contains_iff_mem.2 (hvisible v hmem)
  · exact contains_iff_mem.2 (hn.used k v hv)

theorem result_passes {i : OpId} {r : ValueId} (h : ∀ u ∈ (g.value r).uses,
    (g.op u.op).erased = false ∧ (g.op u.op).operands[u.index]? = some r) : Check.result g i r =
      .ok () := by
  refine except_forM_eq_ok.2 fun u hu => except_bind_ok () (require_ok.2 ?_) (require_ok.2 ?_)
  · rw [(h u hu).1]
    rfl
  · rw [(h u hu).2]
    exact beq_self_eq_true _

/-! ## 2. Loops and generic operations -/

/-- The body of a node yields what its terminator has as operands. -/
theorem yielded_eq (hn : Held g [n]) {k : Kind} (hends : Ends k n.nodes)
    (hk : k.isTerminator = true) :
    ∃ last ∈ n.nodes, last.head.kind.isTerminator = true ∧
      g.yielded n.id = .ok last.head.operands := by
  obtain ⟨init, last, hnodes, hlast, -⟩ := hends
  have hmem : last ∈ n.nodes := by simp [hnodes]
  have hterm : last.head.kind.isTerminator = true := by rw [hlast, hk]
  exact ⟨last, hmem, hterm,
    (hn.here mem_cons_self).yielded_eq ((hn.child hmem).here mem_cons_self) hnodes hterm⟩

theorem ty_of_map_eq {xs ys : List ValueId} (h : xs.map g.ty = ys.map g.ty) {p : ValueId × ValueId}
    (hp : p ∈ xs.zip ys) : g.ty p.1 = g.ty p.2 := by
  obtain ⟨k, hk⟩ := getElem?_of_mem hp
  obtain ⟨hx, hy⟩ := getElem?_zip_eq_some.1 hk
  have hat := congrArg (·[k]?) h
  simpa [hx, hy] using hat

/-- The parts of a loop that keeps the rules: its body `c`, its bounds, its initial values, the
arguments of its body, and the end of its body. -/
structure LoopParts (g : Graph) (n : Node) (c : BlockId) (lower upper step : ValueId)
    (inits : List ValueId) (iv : ValueId) (carried : List ValueId) (last : Node) : Prop where
  body : n.body = some c
  operands : n.head.operands = lower :: upper :: step :: inits
  args : n.args = iv :: carried
  bounds : ∀ v ∈ [lower, upper, step], g.ty v = .index
  index : g.ty iv = .index
  results : inits.map g.ty = n.head.results.map g.ty
  carries : carried.map g.ty = inits.map g.ty
  yields : last.head.operands.map g.ty = inits.map g.ty
  yielded : g.yielded n.id = .ok last.head.operands

variable (hn : Held g [n]) (hr : Rules g n)

include hn hr

theorem Rules.loopParts (hk : n.head.kind = .forLoop) :
    ∃ c lower upper step inits iv carried last,
      LoopParts g n c lower upper step inits iv carried last := by
  obtain ⟨c, hc⟩ := hr.counts.hasBody (by simp [structured, hk])
  obtain ⟨l, u, s, inits, iv, carried, hl, hivs, hbounds⟩ := loop_parts hr hk
  obtain ⟨last, hlast, hterm, hyielded⟩ := yielded_eq hn (hr.loopEnd hk) rfl
  have hinits : inits.map g.ty = n.head.results.map g.ty := by
    have h := hr.loopInits hk
    rwa [hl] at h
  have hcarried : carried.map g.ty = n.head.results.map g.ty := by
    have h := hr.loopArgs hk
    rwa [hivs] at h
  refine ⟨c, l, u, s, inits, iv, carried, last, ?_⟩
  exact
    { body := hc
      operands := hl
      args := hivs
      bounds := hbounds
      index := hr.loopVariable hk iv (by rw [hivs]; rfl)
      results := hinits
      carries := hcarried.trans hinits.symm
      yields := (hr.loopYields hk last hlast hterm).trans hinits.symm
      yielded := hyielded }

theorem forLoop_passes (hk : n.head.kind = .forLoop)
    (hcheck : ∀ c, n.body = some c → check c .loopYield = .ok ()) :
    Check.forLoop g check n.id = .ok () := by
  have hhere := hn.here mem_cons_self
  obtain ⟨c, l, u, s, inits, iv, carried, last, h⟩ := Rules.loopParts hn hr hk
  have hbody : (g.op n.id).body = some c := hhere.body.trans h.body
  have hargs : (g.block c).args = iv :: carried := (hhere.bodyArgs c h.body).trans h.args
  have hresults : inits.length = n.head.results.length := by
    simpa using congrArg List.length h.results
  have hcarried : carried.length = inits.length := by simpa using congrArg List.length h.carries
  have hyields : last.head.operands.length = inits.length := by
    simpa using congrArg List.length h.yields
  refine except_bind_ok _ (check_lift_ok.2 (hhere.bounds_eq h.operands)) ?_
  refine except_bind_ok () (except_forM_eq_ok.2 fun v hv => require_ok.2 ?_) ?_
  · rw [h.bounds v hv]
    rfl
  refine except_bind_ok inits (check_lift_ok.2 (hhere.inits_eq h.operands)) ?_
  refine except_bind_ok c (check_body_ok.2 hbody) (except_bind_ok () (require_ok.2 ?_) ?_)
  · simp only [hargs, length_cons, beq_iff_eq]
    omega
  refine except_bind_ok iv (check_lift_ok.2 (hhere.inductionVar_eq h.args)) ?_
  refine except_bind_ok () (require_ok.2 ?_) ?_
  · rw [h.index]
    rfl
  refine except_bind_ok () (require_ok.2 ?_) ?_
  · rw [hhere.results, hresults]
    exact beq_self_eq_true _
  refine except_bind_ok carried (check_lift_ok.2 (hhere.carried_eq h.args)) ?_
  refine except_bind_ok () (except_forM_eq_ok.2 fun p hp => require_ok.2 ?_) ?_
  · have hmem := fst_mem_of_mem_zipIdx hp
    rw [hhere.results] at hmem
    obtain ⟨k, hk⟩ := getElem?_of_mem hmem
    obtain ⟨hxy, hz⟩ := getElem?_zip_eq_some.1 hk
    have hres := ty_of_map_eq h.results (mem_zip (getElem?_zip_eq_some.1 hxy).2 hz)
    rw [ty_of_map_eq h.carries (mem_of_getElem? hxy), hres]
    simp
  refine except_bind_ok () (inside_ok.2 (hcheck c h.body)) ?_
  refine except_bind_ok _ (check_lift_ok.2 h.yielded) (except_bind_ok () (require_ok.2 ?_) ?_)
  · rw [hyields]
    exact beq_self_eq_true _
  · refine except_forM_eq_ok.2 fun p hp => require_ok.2 ?_
    rw [ty_of_map_eq h.yields (fst_mem_of_mem_zipIdx hp)]
    exact beq_self_eq_true _

theorem generic_passes (hk : n.head.kind = .generic)
    (hcheck : ∀ c, n.body = some c → check c .genericYield = .ok ()) :
    Check.generic g check n.id = .ok () := by
  have hhere := hn.here mem_cons_self
  obtain ⟨c, hc⟩ := hr.counts.hasBody (by simp [structured, hk])
  obtain ⟨a, ha⟩ := hr.hasAttr hk
  obtain ⟨last, hlast, hterm, hyielded⟩ := yielded_eq hn (hr.genericEnd hk) rfl
  obtain ⟨hpos, hle⟩ := hr.inputs a hk ha
  have hbody : (g.op n.id).body = some c := hhere.body.trans hc
  have hargs : (g.block c).args = n.args := hhere.bodyArgs c hc
  have hattr : g.genericAttr n.id = .ok a := by
    unfold Graph.genericAttr
    rw [hhere.attr, ha]
  have hcount : g.shapedCount n.id a = a.inputs.toInt + n.head.results.length := by
    unfold Graph.shapedCount
    rw [hhere.results]
  -- the operands that the maps speak of
  obtain ⟨N, hN⟩ : ∃ N : Nat, a.inputs.toInt + n.head.results.length = N :=
    ⟨_, (Int.toNat_of_nonneg (by omega)).symm⟩
  have hshaped : firstItems (g.op n.id).operands (g.shapedCount n.id a) =
      .ok (n.head.operands.take N) := by
    rw [hhere.operands, hcount, hN]
    exact firstItems_ok.2 ⟨by omega, by omega, rfl⟩
  have hmaps : a.maps.length = (n.head.operands.take N).length := by
    have h := hr.counts.maps a hk ha
    rw [length_take]
    omega
  have hshaped' : g.shaped n.id = .ok (n.head.operands.take N) :=
    except_bind_ok a hattr hshaped
  refine except_bind_ok a (check_lift_ok.2 hattr) ?_
  refine except_bind_ok _ (check_lift_ok.2 hshaped') (except_bind_ok () (require_ok.2 ?_) ?_)
  · rw [hmaps]
    exact beq_self_eq_true _
  refine except_bind_ok (n.head.operands.drop N) (check_lift_ok.2 (except_bind_ok a hattr ?_))
    (except_bind_ok () (require_ok.2 ?_) ?_)
  · rw [hhere.operands, hcount, hN]
    exact itemsAfter_ok.2 ⟨by omega, by omega, rfl⟩
  · have h := hr.symbols a hk ha
    rw [hN, Int.toNat_natCast] at h
    rw [h]
    exact beq_self_eq_true _
  refine except_bind_ok () (except_forM_eq_ok.2 fun p hp => require_ok.2 ?_) ?_
  · obtain ⟨k, hget⟩ := getElem?_of_mem (fst_mem_of_mem_zipIdx hp)
    obtain ⟨hm, hv⟩ := getElem?_zip_eq_some.1 hget
    have hlt : k < N := by
      have h := (List.getElem?_eq_some_iff.1 hv).1
      rw [length_take] at h
      omega
    rw [getElem?_take_of_lt hlt] at hv
    obtain ⟨hdims, hsyms, harity⟩ := hr.maps a hk ha k p.1.1 p.1.2 hm hv
    simp only [hdims, hsyms, harity, beq_self_eq_true, Bool.and_self]
  refine except_bind_ok ((n.head.operands.take N).drop a.inputs.toInt.toNat) (check_lift_ok.2 ?_) ?_
  · refine except_bind_ok _ hshaped' (except_bind_ok a hattr (itemsAfter_ok.2 ⟨hpos, ?_, rfl⟩))
    rw [length_take]
    omega
  refine except_bind_ok () (except_forM_eq_ok.2 fun p hp => require_ok.2 ?_) ?_
  · have h := hr.outputs a hk ha
    rw [hN, Int.toNat_natCast] at h
    have hmem := fst_mem_of_mem_zipIdx hp
    rw [hhere.results] at hmem
    rw [ty_of_map_eq h hmem]
    exact beq_self_eq_true _
  refine except_bind_ok c (check_body_ok.2 hbody) (except_bind_ok () (require_ok.2 ?_) ?_)
  · rw [hargs, hr.counts.args a hk ha, hmaps]
    exact beq_self_eq_true _
  refine except_bind_ok () (inside_ok.2 (hcheck c hc)) ?_
  refine except_bind_ok _ (check_lift_ok.2 hyielded) (require_ok.2 ?_)
  rw [hhere.results, hr.counts.yields (by simp [structured, hk]) last hlast hterm]
  exact beq_self_eq_true _

end Operations

/-! ## 3. Trees -/

section Trees

variable {g : Graph}
variable {visible : List ValueId} {b : BlockId} {ns : List Node}

variable {check : List ValueId → BlockId → Kind → Check Unit} {wanted : Kind}

theorem op_passes {n : Node} (hn : Held g [n]) (hr : Rules g n) (hbooks : Books g [n])
    (hscope : n.Scoped visible)
    (hcheck : ∀ c k, n.body = some c → Ends k n.nodes → check visible c k = .ok ()) :
    Check.op g check visible n.id = .ok () := by
  have hhere := hn.here mem_cons_self
  have hself : n ∈ subsAll [n] := mem_subsAll_of_mem mem_cons_self
  have hkind : (g.op n.id).kind = n.head.kind := hhere.kind
  refine except_bind_ok () (except_forM_eq_ok.2 fun p hp => ?_)
    (except_bind_ok () (except_forM_eq_ok.2 fun r hres => ?_) ?_)
  · rw [hhere.operands] at hp
    exact operand_passes hhere (scoped_iff.1 hscope).1 (hbooks.definers n hself)
      (mem_zipIdx_iff_getElem?.1 hp)
  · rw [hhere.results] at hres
    exact result_passes (hbooks.uses n hself r hres)
  · split
    · next hk =>
      exact forLoop_passes hn hr (hkind.symm.trans hk) fun c hc =>
        hcheck c _ hc (hr.loopEnd (hkind.symm.trans hk))
    · next hk =>
      exact generic_passes hn hr (hkind.symm.trans hk)
        fun c hc => hcheck c _ hc (hr.genericEnd (hkind.symm.trans hk))
    · next hl hge =>
      rw [hkind] at hl hge
      refine require_ok.2 ?_
      rw [hhere.body, hr.leafBody (by simpa [structured] using ⟨hl, hge⟩)]
      rfl

theorem ops_passes {pos : Nat} (hns : Held g ns) (hplaced : ∀ n ∈ ns, (g.op n.id).parent = some b)
    (hscope : ScopedAll visible ns) (hrules : ∀ m ∈ subsAll ns, Rules g m) (hbooks : Books g ns)
    (hends : ns = [] ∨ Ends wanted ns)
    (hcheck : ∀ n ∈ ns, ∀ visible, n.Scoped visible → ∀ c k, n.body = some c → Ends k n.nodes →
      check visible c k = .ok ()) : Check.ops g check b wanted visible pos (ns.map Node.id) =
        .ok () := by
  induction ns generalizing visible pos with
  | nil => rfl
  | cons n ns ih =>
    obtain ⟨hn, hrest⟩ := held_cons.1 hns
    have hhere := hn.here mem_cons_self
    obtain ⟨hscopeOne, hscopeRest⟩ := scopedAll_cons.1 hscope
    have hkind : (g.op n.id).kind = n.head.kind := hhere.kind
    obtain ⟨init, last, hlist, hlast, hinit⟩ := hends.resolve_left (cons_ne_nil n ns)
    refine except_bind_ok () ?_ (except_bind_ok () ?_ ?_)
    · refine except_bind_ok () (require_ok.2 (by rw [hhere.present]; rfl))
        (except_bind_ok () (require_ok.2 ?_) ?_)
      · rw [hplaced n mem_cons_self]
        exact beq_self_eq_true _
      · cases init with
        | nil =>
          cases hlist
          refine require_ok.2 ?_
          rw [hkind, hlast]
          exact beq_self_eq_true _
        | cons m init =>
          cases hlist
          rw [if_neg (by simp), hkind, hinit n mem_cons_self]
          rfl
    · refine op_passes hn (hrules n (mem_subsAll_of_mem mem_cons_self)) ?_ hscopeOne
        fun c k hc hk => hcheck n mem_cons_self _ hscopeOne c k hc hk
      exact hbooks.mono fun m hm => by simpa using .inl (by simpa using hm)
    · rw [hhere.results]
      refine ih hrest (fun m hm => hplaced m (mem_cons_of_mem _ hm)) hscopeRest
        (fun m hm => hrules m (by simp [hm])) (hbooks.mono fun m hm => by simp [hm]) ?_
        fun m hm => hcheck m (mem_cons_of_mem _ hm)
      cases init with
      | nil => exact .inl (List.cons.inj hlist).2
      | cons m init =>
        exact .inr ⟨init, last, (List.cons.inj hlist).2, hlast,
          fun k hk => hinit k (mem_cons_of_mem _ hk)⟩

theorem block_passes {fuel : Nat} {as : List ValueId} (hns : Holds g b as ns)
    (hscope : ScopedAll (as ++ visible) ns) (hrules : ∀ m ∈ subsAll ns, Rules g m)
    (hbooks : Books g ns) (hends : Ends wanted ns) (hdepth : depthAll ns < fuel) :
    Check.block g fuel visible b wanted = .ok () := by
  induction fuel generalizing b wanted as ns visible with
  | zero => exact absurd hdepth (Nat.not_lt_zero _)
  | succ fuel ih =>
    refine except_bind_ok () (require_ok.2 ?_) ?_
    · obtain ⟨init, last, rfl, -, -⟩ := hends
      rw [hns.ops]
      simp
    · rw [hns.ops, hns.args]
      refine ops_passes hns.held hns.placed hscope hrules hbooks (.inr hends)
        fun n hn visible hsc c k hc hk => ?_
      have hmem := mem_subsAll_of_mem hn
      refine ih (hns.held.body hmem hc) (scoped_iff.1 hsc).2
        (fun m hm => hrules m (subsAll_trans hmem (subs_eq n ▸ mem_cons_of_mem _ hm)))
        (hbooks.mono fun m hm => subsAll_trans hmem (subs_eq n ▸ mem_cons_of_mem _ hm)) hk ?_
      have hle := depth_le_of_mem hn
      rw [depth_eq] at hle
      omega

/-- **A function that is held as a tree that keeps the rules is verified, if its books are
kept.** -/
theorem verify_of_tree {f : FuncId} {params : List ValueId} (hbody : (g.func f).body = some b)
    (hns : Holds g b params ns) (hscope : ScopedAll params ns)
    (hrules : ∀ m ∈ subsAll ns, Rules g m) (hends : Ends .funcReturn ns) (hbooks : Books g ns) :
    g.verify f = .ok () := by
  unfold Graph.verify
  rw [hbody]
  exact inside_ok.2 (block_passes hns (by simpa using hscope) hrules hbooks hends
    (Nat.lt_succ_of_le hns.depthAll_le))

end Trees

end ConvNest.Program

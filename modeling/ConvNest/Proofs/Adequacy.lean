/-
# Evaluation follows the meaning of trees

The evaluator runs a body in the same environment as what is around it; the meaning of a tree knows
scopes only.  Both agree on a graph that holds the tree, as long as every operand is visible and no
value is defined twice: what is visible at a node is never overwritten while the node runs.

The agreement is that of results, of the data of visible values, and of everything that is executed
(`ops_adequate`).
-/
import ConvNest.Proofs.Environment
import ConvNest.Proofs.Views

namespace ConvNest.Program

open List

namespace Node

/-! ## 1. Values that get data -/

/-- Whether all results of an operation get data, and not only the first. -/
def structured (n : Node) : Bool := n.head.kind == .forLoop || n.head.kind == .generic

/-- The values that a node gives data to, apart from those nested in it. -/
def live (n : Node) : List ValueId :=
  (if n.structured then n.head.results else n.head.results.take 1) ++ n.args

/-- The results that never get data. -/
def idle (n : Node) : List ValueId := if n.structured then [] else n.head.results.drop 1

/-- The values that trees give data to. -/
def lives (ns : List Node) : List ValueId := (subsAll ns).flatMap live

/-- The results in trees that never get data. -/
def idles (ns : List Node) : List ValueId := (subsAll ns).flatMap idle

theorem live_subset_own (n : Node) : n.live ⊆ n.own := by
  intro v hv
  simp only [live, own, mem_append] at hv ⊢
  refine hv.imp_left fun hv => ?_
  split at hv
  · exact hv
  · exact mem_of_mem_take hv

theorem idle_subset_results (n : Node) : n.idle ⊆ n.head.results := by
  intro v hv
  unfold idle at hv
  split at hv
  · cases hv
  · exact mem_of_mem_drop hv

theorem idle_subset_own (n : Node) : n.idle ⊆ n.own := fun _ hv =>
  mem_append_left _ (n.idle_subset_results hv)

theorem flatMap_subset_own {f : Node → List ValueId} (hf : ∀ n, f n ⊆ own n) (ms : List Node) :
    ms.flatMap f ⊆ ms.flatMap own := by
  intro v hv
  obtain ⟨m, hm, hvm⟩ := mem_flatMap.1 hv
  exact mem_flatMap.2 ⟨m, hm, hf m hvm⟩

theorem lives_subset_defs (ns : List Node) : lives ns ⊆ defs ns :=
  flatMap_subset_own live_subset_own _

theorem idles_subset_defs (ns : List Node) : idles ns ⊆ defs ns :=
  flatMap_subset_own idle_subset_own _

variable {v : ValueId}

theorem notMem_live_of_idle {n : Node} (h : n.own.Nodup) (hv : v ∈ n.idle) :
    v ∉ n.live := by
  unfold idle at hv
  unfold live
  split at hv
  · cases hv
  · next hs =>
    rw [if_neg hs]
    intro hl
    obtain ⟨hr, -, hdisj⟩ := nodup_append.1 h
    rcases mem_append.1 hl with hl | hl
    · rw [← take_append_drop 1 n.head.results, nodup_append] at hr
      exact hr.2.2 v hl v hv rfl
    · exact hdisj v (mem_of_mem_drop hv) v hl rfl

theorem notMem_lives_of_idles {ns : List Node} (h : (defs ns).Nodup) (hv : v ∈ idles ns) :
    v ∉ lives ns := by
  unfold defs at h
  unfold idles at hv
  unfold lives
  generalize subsAll ns = ms at h hv ⊢
  induction ms with
  | nil => cases hv
  | cons m ms ih =>
    simp only [flatMap_cons, mem_append] at h hv ⊢
    obtain ⟨hm, hms, hdisj⟩ := nodup_append.1 h
    rintro (hl | hl) <;> rcases hv with hv | hv
    · exact notMem_live_of_idle hm hv hl
    · exact hdisj v (m.live_subset_own hl) v (flatMap_subset_own idle_subset_own ms hv) rfl
    · exact hdisj v (m.idle_subset_own hv) v (flatMap_subset_own live_subset_own ms hl) rfl
    · exact ih hms hv hl

theorem lives_append (ms ns : List Node) : lives (ms ++ ns) = lives ms ++ lives ns := by
  simp [lives]

theorem idles_append (ms ns : List Node) : idles (ms ++ ns) = idles ms ++ idles ns := by
  simp [idles]

theorem lives_single (n : Node) : lives [n] = n.live ++ lives n.nodes := by
  simp [lives, subs_eq n]

theorem idles_single (n : Node) : idles [n] = n.idle ++ idles n.nodes := by
  simp [idles, subs_eq n]

/-- The numbers of operands, arguments, results and yielded values of a loop or a generic operation
fit together. -/
structure Counts (n : Node) : Prop where
  hasBody : n.structured = true → ∃ b, n.body = some b
  loopOperands : n.head.kind = .forLoop → n.head.operands.length = n.args.length + 2
  loopResults : n.head.kind = .forLoop → n.args.length = n.head.results.length + 1
  yields : n.structured = true → ∀ m ∈ n.nodes, m.head.kind.isTerminator = true →
    m.head.operands.length = n.head.results.length
  maps : ∀ a, n.head.kind = .generic → n.head.attr = .generic a →
    (a.maps.length : Int) = a.inputs.toInt + n.head.results.length
  args : ∀ a, n.head.kind = .generic → n.head.attr = .generic a →
    n.args.length = a.maps.length

end Node

/-! ## 2. What is compared -/

open Node

/-- A recorded visit shows a scene: the environment gives the values that are visible there the data
that the store gives them. -/
structure Shows (x : Visit Env) (y : Scene) : Prop where
  op : x.op = y.node.id
  point : x.point = y.point
  agrees : Agrees y.visible x.state y.store
  inScope : y.node.Scoped y.visible
  apart : ∀ v ∈ y.visible, v ∉ defs [y.node]
  quiet : Quiet (idles [y.node]) x.state

/-- All that the comparison asks of a graph, of trees in it, and of where they run. -/
structure Ready (g : Graph) (ns : List Node) (V : List ValueId) (E : Env) (S : Store) : Prop where
  held : Held g ns
  counts : ∀ m ∈ subsAll ns, Counts m
  inScope : ScopedAll V ns
  nodup : (defs ns).Nodup
  apart : ∀ v ∈ V, v ∉ defs ns
  quiet : Quiet (idles ns) E
  agrees : Agrees V E S

/-- The record has grown by visits that show the given scenes. -/
def Grown (l l' : List (Visit Env)) (scenes : List Scene) : Prop :=
  ∃ new, l' = l ++ new ∧ Forall₂ Shows new scenes

theorem Grown.trans {l l' l'' : List (Visit Env)} {xs ys : List Scene} (h : Grown l l' xs)
    (h' : Grown l' l'' ys) : Grown l l'' (xs ++ ys) := by
  obtain ⟨new, rfl, hx⟩ := h
  obtain ⟨new', rfl, hy⟩ := h'
  exact ⟨new ++ new', append_assoc _ _ _, rel_append hx hy⟩

/-- What becomes of one node: its results have the data of the store, and nothing else that is
visible has changed. -/
structure NodeEnd (n : Node) (V : List ValueId) (E : Env) (l : List (Visit Env)) (S : Store)
    (p : Unit × Env × List (Visit Env)) (S' : Store) : Prop where
  agrees : Agrees (n.head.results ++ V) p.2.1 S'
  changed : Changed (lives [n]) E p.2.1
  grown : Grown l p.2.2 (n.log V S)

/-- What becomes of the nodes of a block. -/
structure BlockEnd (ns : List Node) (V : List ValueId) (E : Env) (l : List (Visit Env)) (S : Store)
    (p : List Datum × Env × List (Visit Env)) (ds : List Datum) : Prop where
  data : p.1 = ds
  changed : Changed (lives ns) E p.2.1
  grown : Grown l p.2.2 (logAll V ns S)

/-! ## 3. Walks -/

section Walks

variable {α β : Type}

theorem walkLog_cons {γ : Type} (step : β → α → Option β) (log : β → α → List γ) (x : α)
    (xs : List α) (b : β) : walkLog step log (x :: xs) b =
      log b x ++ match step b x with
        | some b' => walkLog step log xs b'
        | none => [] := rfl

/-- A walk follows another one if each of its steps does. -/
theorem foldlM_follows {I : Env → Prop} {G : β → Prop} {f : β → α → Watched β}
    {step : β → α → Option β} {log : β → α → List Scene} {xs : List α}
    (h : ∀ b x s, x ∈ xs → I s.1 → G b → Option.Rel
      (fun p b' => p.1 = b' ∧ I p.2.1 ∧ G b' ∧ Grown s.2 p.2.2 (log b x))
      (outcome (f b x) s) (step b x))
    {b : β} {s : Env × List (Visit Env)} (hi : I s.1) (hb : G b) : Option.Rel
      (fun p b' => p.1 = b' ∧ I p.2.1 ∧ G b' ∧ Grown s.2 p.2.2 (walkLog step log xs b))
      (outcome (xs.foldlM f b) s) (xs.foldlM step b) := by
  induction xs generalizing b s with
  | nil => exact .some ⟨rfl, hi, hb, [], by simp, .nil⟩
  | cons x xs ih =>
    rw [foldlM_cons, foldlM_cons, outcome_bind, walkLog_cons]
    have first := h b x s mem_cons_self hi hb
    generalize outcome (f b x) s = y, step b x = z at first
    cases first with
    | none => exact .none
    | @some p b' hp =>
      obtain ⟨rfl, hi', hb', hg⟩ := hp
      have rest := ih (fun b x s hx => h b x s (mem_cons_of_mem _ hx)) hi' hb'
      exact rel_mono rest fun q c hq => ⟨hq.1, hq.2.1, hq.2.2.1, hg.trans hq.2.2.2⟩

/-- A loop is a walk over the values of its variable. -/
theorem outcome_loop (upper step : Int64) (body : Int64 → List Datum → Watched (List Datum))
    (fuel : Nat) (iv : Int64) (c : List Datum) (s : Env × List (Visit Env)) :
    outcome (Watched.loop upper step body fuel iv c) s =
      (Head.trips upper step fuel iv).bind fun ivs =>
        outcome (ivs.foldlM (fun c iv => body iv c) c) s := by
  induction fuel generalizing iv c s with
  | zero => rfl
  | succ fuel ih =>
    simp only [Watched.loop, Head.trips]
    split
    · simp only [outcome_bind, ih]
      cases Head.trips upper step fuel (iv + step) with
      | none => cases outcome (body iv c) s <;> rfl
      | some ivs => simp only [Option.bind_some, Option.map_some, foldlM_cons, outcome_bind]
    · rfl

end Walks

/-! ## 4. Nodes -/

section Nodes

variable {g : Graph} {n : Node} {V : List ValueId} {E F : Env} {S : Store} {k : Nat}
  {inits : List Datum}

theorem runAll_length {ns : List Node} {ds : List Datum}
    (h : ∀ m ∈ ns, m.head.kind.isTerminator = true → m.head.operands.length = k)
    (hr : runAll ns S = some ds) :
    ds.length = k := by
  induction ns generalizing S with
  | nil => simp [runAll_nil] at hr
  | cons m ns ih =>
    cases ht : m.head.kind.isTerminator with
    | true =>
      rw [runAll_terminator ht] at hr
      rw [length_of_mapM hr, h m mem_cons_self ht]
    | false =>
      rw [runAll_cons ht, Option.bind_eq_some_iff] at hr
      obtain ⟨S', -, hr⟩ := hr
      exact ih (fun k hk => h k (mem_cons_of_mem _ hk)) hr

section

variable (hr : Ready g [n] V E S)

include hr

theorem Ready.here : Here g n := hr.held.here mem_cons_self

theorem Ready.count : Counts n :=
  hr.counts n (mem_subsAll_of_mem mem_cons_self)

theorem Ready.operands : Agrees n.head.operands E S :=
  hr.agrees.mono (scoped_iff.1 (scopedAll_cons.1 hr.inScope).1).1

theorem Ready.resultsNodup : n.head.results.Nodup := by
  have h := hr.nodup
  rw [defs_single, append_assoc, nodup_append] at h
  exact h.1

theorem Ready.argsNodup : n.args.Nodup := by
  have h := hr.nodup
  rw [defs_single, append_assoc, nodup_append, nodup_append] at h
  exact h.2.1.1

theorem Ready.resultsApart : ∀ v ∈ V, v ∉ n.head.results := by
  intro v hv hmem
  refine hr.apart v hv ?_
  rw [defs_single]
  exact mem_append_left _ (mem_append_left _ hmem)

end

/-- What changes while the body of a node runs. -/
def Touched (n : Node) : List ValueId := n.args ++ lives n.nodes

theorem touched_subset_lives (n : Node) : Touched n ⊆ lives [n] := by
  intro v hv
  rw [lives_single, mem_append]
  rcases mem_append.1 hv with hv | hv
  · exact .inl (mem_append_right _ hv)
  · exact .inr hv

theorem touched_subset_defs (n : Node) : Touched n ⊆ defs [n] := fun _ hv =>
  lives_subset_defs _ (touched_subset_lives n hv)

section

variable {D F : Env} {ds : List Datum} (hr : Ready g [n] V E S)

include hr

/-- The body of a node is ready whenever its arguments have got data. -/
theorem Ready.enter (hD : Changed (Touched n) E D) (ha : Assigned n.args ds D F) :
    Ready g n.nodes (n.args ++ V) F (S.assign n.args ds) where
  held := hr.held.inner (mem_subsAll_of_mem mem_cons_self)
  counts m hm := by
    refine hr.counts m ?_
    simp [subs_eq n, hm]
  inScope := (scoped_iff.1 (scopedAll_cons.1 hr.inScope).1).2
  nodup := by
    have h := hr.nodup
    rw [defs_single, nodup_append] at h
    exact h.2.1
  apart v hv hmem := by
    rcases mem_append.1 hv with hv | hv
    · have h := hr.nodup
      rw [defs_single, nodup_append] at h
      exact h.2.2 v (mem_append_right _ hv) v hmem rfl
    · refine hr.apart v hv ?_
      rw [defs_single]
      exact mem_append_right _ hmem
  quiet := by
    intro v hv
    have hidle : v ∈ idles [n] := by
      rw [idles_single]
      exact mem_append_right _ hv
    have hlive := notMem_lives_of_idles hr.nodup hidle
    rw [ha.changed.same fun h => hlive (touched_subset_lives n (mem_append_left _ h)),
      hD.same fun h => hlive (touched_subset_lives n h)]
    exact hr.quiet v hidle
  agrees := by
    refine ha.agrees hr.argsNodup (fun v hv hmem => ?_) (hD.agrees (fun v hv hmem => ?_) hr.agrees)
    · refine hr.apart v hv ?_
      rw [defs_single]
      exact mem_append_left _ (mem_append_right _ hmem)
    · exact hr.apart v hv (touched_subset_defs n hmem)

/-- A node whose results have got data has come to its end. -/
theorem Ready.finish {l l' : List (Visit Env)} (hD : Changed (Touched n) E D)
    (ha : Assigned n.head.results ds D F) (hchanged : Changed n.live D F)
    (hg : Grown l l' (n.log V S)) :
    NodeEnd n V E l S ((), F, l') (S.assign n.head.results ds) where
  agrees := by
    refine ha.agrees hr.resultsNodup hr.resultsApart (hD.agrees (fun v hv hmem => ?_) hr.agrees)
    exact hr.apart v hv (touched_subset_defs n hmem)
  changed := by
    refine (hD.trans hchanged).mono (append_subset.2 ⟨touched_subset_lives n, ?_⟩)
    rw [lives_single]
    exact subset_append_left _ _
  grown := hg

theorem Ready.shows (hF : Changed (Touched n) E F) (p : Option (List Int64)) :
    Shows ⟨n.id, F, p⟩ ⟨V, n, S, p⟩ where
  op := rfl
  point := rfl
  agrees := hF.agrees (fun v hv hmem => hr.apart v hv (touched_subset_defs n hmem)) hr.agrees
  inScope := (scopedAll_cons.1 hr.inScope).1
  apart := hr.apart
  quiet := hF.quiet (fun _ hv hmem =>
    notMem_lives_of_idles hr.nodup hv (touched_subset_lives n hmem)) hr.quiet

end

section

variable {β α : Type} {xs ys : List α} {k : Int}

theorem log_leaf (hl : n.head.kind ≠ .forLoop) (hg : n.head.kind ≠ .generic) :
    n.log V S = [⟨V, n, S, none⟩] := by
  cases n with
  | mk i h b as ns =>
    simp only [head_mk] at hl hg
    simp only [log]

theorem leaf_adequate (hr : Ready g [n] V E S) (hl : n.head.kind ≠ .forLoop)
    (hg : n.head.kind ≠ .generic) (block : BlockId → Watched (List Datum)) (l : List (Visit Env)) :
    Option.Rel (NodeEnd n V E l S)
      (outcome (Watched.op g block n.id) (E, l)) (n.exec S) := by
  have hop : outcome (Watched.op g block n.id) (E, l) =
      (outcome (Eval.op g (fun _ => throw (.stuck .kind)) n.id) E).map
        fun p => (p.1, p.2, l ++ [⟨n.id, E, none⟩]) := by
    simp only [Watched.op, outcome_bind, Watched.note, outcome_modify, Option.bind_some,
      hr.here.kind]
    rw [Watched.outcome_lift]
  rw [hop, outcome_leaf hr.here hr.operands hl hg, exec_leaf hl hg, Head.define]
  have htys : n.head.tys = n.head.results.map g.ty := hr.here.tys
  cases hres : n.head.results with
  | nil => simp only [htys, hres]; exact .none
  | cons r rest =>
    simp only [htys, hres, map_cons, getElem?_cons_zero, Option.bind_some,
      Option.bind_eq_bind]
    cases n.head.leaf (g.ty r) S with
    | none => exact .none
    | some d =>
      have nodup := hr.resultsNodup
      rw [hres] at nodup
      have idle : n.idle = rest := by
        have : n.structured = false := by simp [structured, hl, hg]
        simp [Node.idle, this, hres]
      have assigned : Assigned (r :: rest) [d] E (E.insert r.idx d) := by
        refine Assigned.cons (nodup_cons.1 nodup).1 ⟨Changed.refl _ _, fun k v hk => ?_⟩
        have hv : v ∈ rest := mem_of_getElem? hk
        have hne : r ≠ v := fun h => (nodup_cons.1 nodup).1 (h ▸ hv)
        rw [env_insert, if_neg hne]
        refine (hr.quiet v ?_).trans (by simp)
        rw [idles_single, idle]
        exact mem_append_left _ hv
      refine .some ?_
      rw [← hres] at assigned
      have fin : Changed n.live E (E.insert r.idx d) →
          Grown l (l ++ [⟨n.id, E, none⟩]) (n.log V S) → NodeEnd n V E l S _ _ :=
        hr.finish (Changed.refl _ _) assigned
      rw [hres] at fin
      refine fin ?_ ?_
      · intro k hk
        have hr : r.idx ≠ k := hk r (mem_append_left _ (by split <;> simp [hres]))
        rw [Std.TreeMap.getElem?_insert]
        simp [hr]
      · rw [log_leaf hl hg]
        exact ⟨_, rfl, .cons (hr.shows (Changed.refl _ _) none) .nil⟩

theorem watched_read_index (hn : Here g n) (ha : Agrees n.head.operands E S) (k : Nat)
    (f : Int64 → Watched β) (l : List (Visit Env)) :
    outcome (liftM (g.operand n.id k) >>= fun v => Watched.lift (Eval.index g v) >>= f) (E, l) =
      (n.head.operands[k]?.bind S.index).bind fun t => outcome (f t) (E, l) := by
  refine read_operand hn (fun v hv => ?_) k f
  rw [Watched.outcome_lift, outcome_index (ha v hv)]
  cases S.index v <;> rfl

theorem outcome_note_bind (i : OpId) (p : Option (List Int64)) (f : Unit → Watched β) (E : Env)
    (l : List (Visit Env)) :
    outcome (Watched.note i p >>= f) (E, l) = outcome (f ()) (E, l ++ [⟨i, E, p⟩]) := rfl

theorem watched_ask (x : Except Fault α) (f : α → Watched β) (s : Env × List (Visit Env)) :
    outcome (liftM x >>= f) s = x.toOption.bind fun a => outcome (f a) s := by
  cases x <;> rfl

theorem itemsAfter_subset (h : itemsAfter xs k = .ok ys) : ys ⊆ xs :=
  (itemsAfter_ok.1 h).2.2 ▸ drop_subset _ _

theorem firstItems_subset (h : firstItems xs k = .ok ys) : ys ⊆ xs :=
  (firstItems_ok.1 h).2.2 ▸ take_subset _ _

theorem watched_read_inits (hn : Here g n) (ha : Agrees n.head.operands E S)
    (f : List Datum → Watched β) (l : List (Visit Env)) :
    outcome (liftM (g.inits n.id) >>= fun vs => Watched.lift (vs.mapM (Eval.datum g)) >>= f)
      (E, l) = (n.head.inits S).bind fun ds => outcome (f ds) (E, l) := by
  simp only [watched_ask, Graph.inits, hn.operands, Head.inits]
  cases hi : itemsAfter n.head.operands 3 with
  | error e => rfl
  | ok vs =>
    simp only [toOption_ok, Option.bind_some, outcome_bind, Watched.outcome_lift,
      Option.bind_eq_bind, outcome_mapM_of fun v hv => outcome_datum (g := g)
        (ha v (itemsAfter_subset hi hv))]
    cases vs.mapM S <;> rfl

end

theorem log_loop (h : n.head.kind = .forLoop) {ivs : List Int64} (hi : n.head.ivs S = some ivs)
    (hd : n.head.inits S = some inits) :
    n.log V S = ⟨V, n, S, none⟩ :: walkLog (Head.iteration n.args (runAll n.nodes) S)
      (fun c iv => logAll (n.args ++ V) n.nodes (S.assign n.args (.index iv :: c))) ivs inits := by
  cases n with
  | mk i hd b as ns =>
    simp only [head_mk] at h hi hd
    simp only [log, h, hi, hd]
    rfl

/-- The body of a node follows its meaning, wherever it is ready. -/
def BodyFollows (g : Graph) (n : Node) (fuel : Nat) : Prop :=
  ∀ V E S l, Ready g n.nodes V E S → Option.Rel (BlockEnd n.nodes V E l S)
    (outcome (Watched.ops g (Watched.block g fuel) (n.nodes.map Node.id)) (E, l)) (runAll n.nodes S)

variable {fuel : Nat} {b : BlockId} {vs : List ValueId} {s : Env × List (Visit Env)} {α : Type}

theorem Ready.iteration (hr : Ready g [n] V E S) (h : n.head.kind = .forLoop)
    (body : BodyFollows g n fuel) (hb : n.body = some b) {v : ValueId} (hargs : n.args = v :: vs)
    {c : List Datum} (hc : c.length = vs.length) (iv : Int64) (hs : Changed (Touched n) E s.1) :
    Option.Rel
      (fun p c' => p.1 = c' ∧ Changed (Touched n) E p.2.1 ∧ c'.length = vs.length ∧
        Grown s.2 p.2.2 (logAll (n.args ++ V) n.nodes (S.assign n.args (.index iv :: c))))
      (outcome (do
        Watched.lift (Eval.define v (.index iv))
        Watched.lift (Eval.bindCarried vs c)
        Watched.block g (fuel + 1) b) s) (Head.iteration n.args (runAll n.nodes) S c iv) := by
  have nodup := hr.argsNodup
  rw [hargs, nodup_cons] at nodup
  obtain ⟨F, hF, ha⟩ := outcome_bindCarried (E := s.1.insert v.idx (.index iv)) nodup.2 hc
  have assigned : Assigned n.args (.index iv :: c) s.1 F := hargs ▸ ha.cons nodup.1
  simp only [outcome_bind, Watched.outcome_lift, outcome_define, Option.map_some, Option.bind_some,
    hF, Watched.block, hr.here.bodyOps b hb]
  refine rel_mono_right (body _ F _ s.2 (hr.enter hs assigned)) fun p ds hds hp => ?_
  refine ⟨hp.data, ?_, ?_, hp.grown⟩
  · refine ((hs.trans assigned.changed).trans hp.changed).mono ?_
    simp only [Touched]
    simp
  · have := runAll_length (hr.count.yields (by simp [structured, h])) hds
    have := hr.count.loopResults h
    simp only [hargs, length_cons] at this
    omega

theorem inits_length (h : n.head.inits S = some inits) :
    n.head.operands.length = inits.length + 3 := by
  simp only [Head.inits, Option.bind_eq_bind, Option.bind_eq_some_iff, toOption_eq_some] at h
  obtain ⟨vs, hvs, h⟩ := h
  have hlen := length_of_mapM h
  obtain ⟨-, hle, rfl⟩ := itemsAfter_ok.1 hvs
  rw [length_drop] at hlen
  omega

theorem loop_adequate (hr : Ready g [n] V E S) (h : n.head.kind = .forLoop)
    (body : BodyFollows g n fuel) (l : List (Visit Env)) : Option.Rel (NodeEnd n V E l S)
      (outcome (Watched.op g (Watched.block g (fuel + 1)) n.id) (E, l)) (n.exec S) := by
  have hn := hr.here
  have count := hr.count
  obtain ⟨v, vs, hargs⟩ := exists_cons_of_length_eq_add_one (count.loopResults h)
  obtain ⟨b, hb⟩ := count.hasBody (by simp [structured, h])
  have hbody : g.bodyId n.id = .ok b := by rw [Graph.bodyId, hn.body, hb]; rfl
  rw [exec_loop h]
  simp only [Watched.op, outcome_note_bind, hn.kind, h, Watched.forLoop,
    watched_read_index hn hr.operands, Head.ivs, Option.bind_eq_bind, Option.bind_assoc]
  refine rel_bind_same fun v0 h0 => rel_bind_same fun lower hlower => ?_
  refine rel_bind_same fun v1 h1 => rel_bind_same fun upper hupper => ?_
  refine rel_bind_same fun v2 h2 => rel_bind_same fun step hs => ?_
  by_cases hstep : step ≤ 0
  · simp only [hstep]
    exact .none
  simp only [hstep, if_false, watched_read_inits hn hr.operands, watched_ask, hn.carried_eq hargs,
    hn.inductionVar_eq hargs, hbody, toOption_ok, outcome_bind (Watched.loop _ _ _ _ _ _),
    outcome_loop, Option.bind_assoc]
  cases hinits : n.head.inits S with
  | none => cases Head.trips upper step Eval.wordCount lower <;> exact .none
  | some inits =>
    have hlen := inits_length hinits
    have hivs {ivs : List Int64} (ht : Head.trips upper step Eval.wordCount lower = some ivs) :
        n.head.ivs S = some ivs := by
      simp [Head.ivs, h0, hlower, h1, hupper, h2, hs, hstep, ht]
    have hvs : n.args.length = vs.length + 1 := by rw [hargs, length_cons]
    have := count.loopOperands h
    have := count.loopResults h
    simp only [Option.bind_some]
    refine rel_bind_same fun ivs htrips => ?_
    rw [if_neg (by omega)]
    refine rel_bind (foldlM_follows (I := Changed (Touched n) E)
      (G := fun c : List Datum => c.length = vs.length)
      (fun c iv s _ hs hc => hr.iteration h body hb hargs hc iv hs) (Changed.refl _ _)
      (by omega)) fun p outs hp => ?_
    obtain ⟨rfl, hD, hout, hg⟩ := hp
    have hresults : p.1.length = n.head.results.length := by omega
    obtain ⟨F, hF, ha⟩ := outcome_defineAll (E := p.2.1) hr.resultsNodup hresults
    simp only [Watched.outcome_lift, hn.results, hF]
    refine .some (hr.finish hD ha (ha.changed.mono ?_) ?_)
    · simp [live, structured, h]
    · rw [log_loop h (hivs htrips) hinits]
      exact Grown.trans ⟨_, rfl, .cons (hr.shows (Changed.refl _ _) none) .nil⟩ hg

theorem log_generic (h : n.head.kind = .generic) {x : Head.Setup} (hx : n.head.setup S = some x) :
    n.log V S = ⟨V, n, S, none⟩ :: walkLog (Head.pointStep x n.args (runAll n.nodes) S)
      (fun outs p => ⟨V, n, S, some p⟩ ::
        match Head.elements p x.syms x.maps (x.inputs ++ outs) with
        | some es => logAll (n.args ++ V) n.nodes (S.assign n.args (es.map fun e => .scalar e.2))
        | none => []) (Box.points x.sides) x.outs := by
  cases n with
  | mk i hd b as ns =>
    simp only [head_mk] at h hx
    simp only [log, h, hx]
    rfl

theorem Ready.point (hr : Ready g [n] V E S) (body : BodyFollows g n fuel) (hb : n.body = some b)
    (x : Head.Setup) (hargs : n.args.length = x.maps.length) {outs : List Tensor}
    (hk : outs.length = k) (p : List Int64) (hs : Changed (Touched n) E s.1) : Option.Rel
      (fun q outs' => q.1 = outs' ∧ Changed (Touched n) E q.2.1 ∧ outs'.length = k ∧
        Grown s.2 q.2.2 (⟨V, n, S, some p⟩ ::
          match Head.elements p x.syms x.maps (x.inputs ++ outs) with
          | some es => logAll (n.args ++ V) n.nodes (S.assign n.args (es.map fun e => .scalar e.2))
          | none => []))
      (outcome (Watched.genericPoint n.id x.maps n.args x.inputs x.syms
        (Watched.block g (fuel + 1) b) outs p) s)
      (Head.pointStep x n.args (runAll n.nodes) S outs p) := by
  obtain ⟨D, l⟩ := s
  simp only [Watched.genericPoint, outcome_note_bind, Head.pointStep, Option.bind_eq_bind]
  have first : Option.Rel _
      (outcome (Eval.bindElements p x.syms x.maps n.args (x.inputs ++ outs)) D) _ :=
    outcome_bindElements hr.argsNodup hargs
  simp only [outcome_bind, Watched.outcome_lift]
  generalize outcome (Eval.bindElements p x.syms x.maps n.args (x.inputs ++ outs)) D = y,
    Head.elements p x.syms x.maps (x.inputs ++ outs) = z at first ⊢
  cases first with
  | none => exact .none
  | @some q es hq =>
    obtain ⟨hindices, assigned⟩ := hq
    simp only [Option.map_some, Option.bind_some, Watched.block, hr.here.bodyOps b hb]
    refine rel_bind (body _ q.2 _ (l ++ [⟨n.id, D, some p⟩]) (hr.enter hs assigned))
      fun r ys hy => ?_
    rw [hindices, hy.data, outcome_storeYields, Option.map_map]
    cases hstore : Head.store ys ((es.map (·.1)).drop x.inputs.length) outs with
    | none => exact .none
    | some outs' =>
      refine .some ⟨rfl, ?_, (store_length hstore).trans hk, ?_⟩
      · refine ((hs.trans assigned.changed).trans hy.changed).mono ?_
        simp only [Touched]
        simp
      · exact Grown.trans ⟨_, rfl, .cons (hr.shows hs (some p)) .nil⟩ hy.grown

theorem firstItems_length {xs ys : List α} {k : Int} (h : firstItems xs k = .ok ys) :
    (ys.length : Int) = k := by
  obtain ⟨hpos, hle, rfl⟩ := firstItems_ok.1 h
  rw [length_take]
  omega

theorem watched_mapM {β : Type} {f : ValueId → Eval α} {k : ValueId → Option α}
    (h : ∀ v ∈ vs, outcome (f v) E = (k v).map (·, E)) (next : List α → Watched β)
    (l : List (Visit Env)) :
    outcome (Watched.lift (vs.mapM f) >>= next) (E, l) =
      (vs.mapM k).bind fun ys => outcome (next ys) (E, l) := by
  rw [outcome_bind, Watched.outcome_lift, outcome_mapM_of h]
  cases vs.mapM k <;> rfl

theorem generic_adequate (hr : Ready g [n] V E S) (h : n.head.kind = .generic)
    (body : BodyFollows g n fuel) (l : List (Visit Env)) : Option.Rel (NodeEnd n V E l S)
      (outcome (Watched.op g (Watched.block g (fuel + 1)) n.id) (E, l)) (n.exec S) := by
  have hn := hr.here
  have count := hr.count
  obtain ⟨b, hb⟩ := count.hasBody (by simp [structured, h])
  have hbody : g.bodyId n.id = .ok b := by rw [Graph.bodyId, hn.body, hb]; rfl
  have operands := hr.operands
  rw [exec_generic h]
  simp only [Watched.op, outcome_note_bind, hn.kind, h, Watched.generic, Graph.genericAttr,
    Graph.shaped, Graph.inputs, Graph.symbols, Graph.shapedCount, hn.attr, hn.operands, hn.results]
  cases hattr : n.head.attr with
  | generic a =>
    have hmaps := count.maps a h hattr
    have hargs := count.args a h hattr
    simp only [watched_ask, toOption_ok, toOption_bind, Option.bind_some, Option.bind_eq_bind]
    cases hsh : firstItems n.head.operands (a.inputs.toInt + n.head.results.length) with
    | error e => simp [Head.setup, hattr, hsh]
    | ok shaped =>
      have tensors : ∀ v ∈ shaped, outcome (Eval.tensor g v) E = (S.tensor v).map (·, E) :=
        fun v hv => outcome_tensor (operands v (firstItems_subset hsh hv))
      cases hin : firstItems n.head.operands a.inputs.toInt with
      | error e => simp [Head.setup, hattr, hsh, hin]
      | ok inputs =>
        simp only [toOption_ok, Option.bind_some, watched_mapM tensors]
        cases hts : shaped.mapM S.tensor with
        | none => simp [Head.setup, hattr, hsh, hin, hts]
        | some ts =>
          cases hsy : itemsAfter n.head.operands (a.inputs.toInt + n.head.results.length) with
          | error e => simp [Head.setup, hattr, hsh, hin, hsy]
          | ok symbols =>
            have indices : ∀ v ∈ symbols, outcome (Eval.index g v) E = (S.index v).map (·, E) :=
              fun v hv => outcome_index (operands v (itemsAfter_subset hsy hv))
            simp only [watched_ask, toOption_ok, toOption_bind, Option.bind_some, hsy,
              watched_mapM indices]
            cases hns : symbols.mapM S.index with
            | none => simp [Head.setup, hattr, hsh, hin, hsy, hns]
            | some syms =>
              cases hsides : Eval.loopRanges a.maps a.iterators.length ts with
              | error e => simp [Head.setup, hattr, hsh, hin, hts, hsy, hns, hsides]
              | ok sides =>
                have hshaped := firstItems_length hsh
                have hinputs := firstItems_length hin
                have hlen := length_of_mapM hts
                have hx : n.head.setup S =
                    some ⟨a.maps, ts.take inputs.length, ts.drop inputs.length, syms, sides⟩ := by
                  have : a.maps.length = shaped.length := by omega
                  simp [Head.setup, hattr, hsh, hin, hts, hsy, hns, hsides, this]
                have enough : ¬ a.maps.length < shaped.length := by omega
                simp only [hx, Option.bind_some, hargs, ne_eq, not_true, if_false, toOption_ok,
                  hbody, enough, hn.bodyArgs b hb, Box.foldM_eq_foldlM,
                  outcome_bind (List.foldlM _ _ _)]
                refine rel_bind (foldlM_follows (I := Changed (Touched n) E)
                  (G := fun outs : List Tensor => outs.length = n.head.results.length)
                  (fun outs p s _ hs ho => hr.point body hb
                    ⟨a.maps, ts.take inputs.length, ts.drop inputs.length, syms, sides⟩
                      hargs ho p hs)
                  (Changed.refl _ _) ?_) fun p outs hp => ?_
                · rw [length_drop]
                  omega
                · obtain ⟨rfl, hD, hout, hg⟩ := hp
                  have hresults : (p.1.map Datum.tensor).length = n.head.results.length := by
                    rw [length_map, hout]
                  obtain ⟨F, hF, ha⟩ := outcome_defineAll (E := p.2.1) hr.resultsNodup hresults
                  simp only [Watched.outcome_lift, hF, Option.map_some]
                  refine .some (hr.finish hD ha (ha.changed.mono ?_) ?_)
                  · simp [live, structured, h]
                  · rw [log_generic h hx]
                    exact Grown.trans ⟨_, rfl, .cons (hr.shows (Changed.refl _ _) none) .nil⟩ hg
  | _ => simp [Head.setup, hattr]

end Nodes

/-! ## 5. Blocks -/

section Blocks

variable {g : Graph} {V : List ValueId} {E : Env} {S : Store}

/-- A node follows its meaning, wherever it is ready. -/
def NodeFollows (g : Graph) (n : Node) (fuel : Nat) : Prop :=
  ∀ V E S l, Ready g [n] V E S → Option.Rel (NodeEnd n V E l S)
    (outcome (Watched.op g (Watched.block g fuel) n.id) (E, l)) (n.exec S)

section

variable {n : Node} {ns : List Node}

theorem Ready.first (hr : Ready g (n :: ns) V E S) :
    Ready g [n] V E S where
  held := (held_cons.1 hr.held).1
  counts m hm :=
  hr.counts m (by simp only [subsAll_cons, subsAll_nil, append_nil] at hm ⊢; simp [hm])
  inScope := by simpa using (scopedAll_cons.1 hr.inScope).1
  nodup := by
    have h := hr.nodup
    rw [defs_cons, nodup_append] at h
    exact h.1
  apart v hv hmem := hr.apart v hv (by rw [defs_cons]; exact mem_append_left _ hmem)
  quiet v hv := hr.quiet v (by
    rw [← singleton_append, idles_append]
    exact mem_append_left _ hv)
  agrees := hr.agrees

theorem Ready.rest (hr : Ready g (n :: ns) V E S) {F : Env} {S' : Store}
    (ha : Agrees (n.head.results ++ V) F S') (hc : Changed (lives [n]) E F) :
    Ready g ns (n.head.results ++ V) F S' where
  held := (held_cons.1 hr.held).2
  counts m hm := hr.counts m (by simp [hm])
  inScope := (scopedAll_cons.1 hr.inScope).2
  nodup := by
    have h := hr.nodup
    rw [defs_cons, nodup_append] at h
    exact h.2.1
  apart v hv hmem := by
    rcases mem_append.1 hv with hv | hv
    · have h := hr.nodup
      rw [defs_cons, nodup_append] at h
      refine h.2.2 v ?_ v hmem rfl
      rw [defs_single]
      exact mem_append_left _ (mem_append_left _ hv)
    · exact hr.apart v hv (by rw [defs_cons]; exact mem_append_right _ hmem)
  quiet v hv := by
    have hidle : v ∈ idles (n :: ns) := by
      rw [← singleton_append, idles_append]
      exact mem_append_right _ hv
    rw [hc.same fun hl => ?_]
    · exact hr.quiet v hidle
    · refine notMem_lives_of_idles hr.nodup hidle ?_
      rw [← singleton_append, lives_append]
      exact mem_append_left _ hl
  agrees := ha

theorem logAll_terminator (h : n.head.kind.isTerminator = true) :
    logAll V (n :: ns) S = [] := by simp [logAll, h]

theorem logAll_cons (h : n.head.kind.isTerminator = false) :
    logAll V (n :: ns) S = n.log V S ++ match n.exec S with
      | some S' => logAll (n.head.results ++ V) ns S'
      | none => [] := by
  simp only [logAll, h]
  rfl

theorem ops_follow {fuel : Nat} (ih : ∀ n ∈ ns, NodeFollows g n fuel) (hr : Ready g ns V E S)
    (l : List (Visit Env)) : Option.Rel (BlockEnd ns V E l S)
      (outcome (Watched.ops g (Watched.block g fuel) (ns.map Node.id)) (E, l)) (runAll ns S) := by
  induction ns generalizing V E S l with
  | nil => rw [runAll_nil]; exact .none
  | cons n ns tail =>
    have first := hr.first
    rw [map_cons]
    cases ht : n.head.kind.isTerminator with
    | true =>
      simp only [Watched.ops, first.here.kind, ht, if_true, runAll_terminator ht,
        first.here.operands, Watched.outcome_lift,
        outcome_mapM_of fun v hv => outcome_datum (g := g) (first.operands v hv)]
      cases n.head.operands.mapM S with
      | none => exact .none
      | some ds =>
        refine .some ⟨rfl, Changed.refl _ _, ?_⟩
        rw [logAll_terminator ht]
        exact ⟨[], by simp, .nil⟩
    | false =>
      simp only [Watched.ops, first.here.kind, ht, Bool.false_eq_true, if_false, runAll_cons ht,
        outcome_bind]
      have step := ih n mem_cons_self V E S l first
      have hlog : logAll V (n :: ns) S = _ := logAll_cons ht
      generalize outcome (Watched.op g (Watched.block g fuel) n.id) (E, l) = y at step ⊢
      cases hx : n.exec S with
      | none =>
        rw [hx] at step
        cases step
        exact .none
      | some S' =>
        rw [hx] at step hlog
        obtain ⟨p, rfl, hp⟩ := rel_some_right step
        refine rel_mono (tail (fun m hm => ih m (mem_cons_of_mem _ hm))
          (hr.rest hp.agrees hp.changed) p.2.2) fun q ds hq => ?_
        refine ⟨hq.data, ?_, ?_⟩
        · rw [← singleton_append, lives_append]
          exact hp.changed.trans hq.changed
        · rw [hlog]
          exact hp.grown.trans hq.grown

end

theorem node_follows (g : Graph) (n : Node) (fuel : Nat) (h : n.depth ≤ fuel) :
    NodeFollows g n fuel := by
  induction n using Node.induct generalizing fuel with
  | mk i hd b as ns ih =>
    obtain ⟨fuel, rfl⟩ : ∃ k, fuel = k + 1 := ⟨fuel - 1, by rw [depth_eq] at h; omega⟩
    have body : BodyFollows g (.mk i hd b as ns) fuel := fun V E S l hr =>
      ops_follow (fun n hn => ih n hn fuel (by
        have := depth_le_of_mem hn
        rw [depth_eq, nodes_mk] at h
        omega)) hr l
    intro V E S l hr
    by_cases hl : hd.kind = .forLoop
    · exact loop_adequate hr hl body l
    by_cases hg : hd.kind = .generic
    · exact generic_adequate hr hg body l
    exact leaf_adequate hr hl hg _ l

/-- **Running operations of a graph follows the meaning of the trees that it holds.** -/
theorem ops_adequate {ns : List Node} {fuel : Nat} (h : depthAll ns ≤ fuel)
    (hr : Ready g ns V E S) (l : List (Visit Env)) : Option.Rel (BlockEnd ns V E l S)
      (outcome (Watched.ops g (Watched.block g fuel) (ns.map Node.id)) (E, l)) (runAll ns S) :=
  ops_follow (fun n hn => node_follows g n fuel (Nat.le_trans (depth_le_of_mem hn) h)) hr l

end Blocks

end ConvNest.Program

/-
# Replacing a node of a tree

`replacedAll i new σ ns` are the trees `ns` with the trees `new` in the place of the operation `i`,
where every operand `v` has become `σ v`.

Values that are visible after emitted operations can take the place of the results of the operation
that they stand before (`Exchange.of_emitted`), and the graph then holds the replaced tree
(`Exchange.valid`).
-/
import ConvNest.Proofs.Emission
import ConvNest.Proofs.Function
import ConvNest.Proofs.Rewire

namespace ConvNest.Program

open List

variable {f : FuncId} {b b₀ : BlockId} {params : List ValueId} {T : List Node} {g : Graph}
  {n : Node}

/-- What an operation is, with other operands. -/
def Head.move (σ : ValueId → ValueId) (h : Head) : Head := { h with operands := h.operands.map σ }

namespace Node

/-! ## 1. Places -/

/-- The node `m` is in the trees, where `W` is visible, at a place where `V` is visible. -/
inductive Place : List ValueId → List Node → List ValueId → Node → Prop
  | here {V : List ValueId} {n : Node} {ns : List Node} : Place V (n :: ns) V n
  | later {W V : List ValueId} {n m : Node} {ns : List Node}
      (h : Place (n.head.results ++ W) ns V m) : Place W (n :: ns) V m
  | inside {W V : List ValueId} {n m : Node} {ns : List Node}
      (h : Place (n.args ++ W) n.nodes V m) : Place W (n :: ns) V m

/-- The values that are visible around trees are not defined in them, and no value is defined
twice. -/
structure Apart (W : List ValueId) (ns : List Node) : Prop where
  nodup : (defs ns).Nodup
  outside : ∀ v ∈ W, v ∉ defs ns

section Places

variable {W V : List ValueId} {n m : Node} {ns : List Node}

theorem Apart.tail (h : Apart W (n :: ns)) : Apart (n.head.results ++ W) ns := by
  obtain ⟨hnodup, hout⟩ := h
  rw [defs_cons, defs_single] at hnodup hout
  obtain ⟨-, hns, hdisj⟩ := nodup_append.1 hnodup
  refine ⟨hns, fun v hv hd => ?_⟩
  rcases mem_append.1 hv with hv | hv
  · exact hdisj v (by simp [hv]) v hd rfl
  · exact hout v hv (mem_append_right _ hd)

theorem Apart.head (h : Apart W (n :: ns)) : Apart W [n] := by
  obtain ⟨hnodup, hout⟩ := h
  rw [defs_cons] at hnodup hout
  exact ⟨(nodup_append.1 hnodup).1, fun v hv hd => hout v hv (mem_append_left _ hd)⟩

theorem Apart.body (h : Apart W [n]) : Apart (n.args ++ W) n.nodes := by
  obtain ⟨hnodup, hout⟩ := h
  rw [defs_single] at hnodup hout
  obtain ⟨hown, hns, hdisj⟩ := nodup_append.1 hnodup
  refine ⟨hns, fun v hv hd => ?_⟩
  rcases mem_append.1 hv with hv | hv
  · exact hdisj v (by simp [hv]) v hd rfl
  · exact hout v hv (mem_append_right _ hd)

theorem Place.mem (h : Place W ns V m) : m ∈ subsAll ns := by
  induction h with
  | here => simp
  | later _ ih => simp [ih]
  | inside _ ih => simp [subs_eq, ih]

theorem Place.cons (h : Place W [n] V m) (ns : List Node) : Place W (n :: ns) V m := by
  cases h with
  | here => exact .here
  | later h => cases h
  | inside h => exact .inside h

theorem place_of_mem (h : m ∈ subsAll ns) (W : List ValueId) : ∃ V, Place W ns V m := by
  induction ns using forest generalizing W with
  | nil => simp at h
  | cons n ns body rest =>
    rcases mem_subsAll_cons.1 h with rfl | h | h
    · exact ⟨W, .here⟩
    · obtain ⟨V, hV⟩ := body h (n.args ++ W)
      exact ⟨V, .inside hV⟩
    · obtain ⟨V, hV⟩ := rest h (n.head.results ++ W)
      exact ⟨V, .later hV⟩

theorem Place.scoped (h : Place W ns V m) (hs : ScopedAll W ns) : m.Scoped V := by
  induction h with
  | here => exact (scopedAll_cons.1 hs).1
  | later _ ih => exact ih (scopedAll_cons.1 hs).2
  | inside _ ih => exact ih (scoped_iff.1 (scopedAll_cons.1 hs).1).2

/-- What is visible at a node is not defined in it. -/
theorem Place.apart (h : Place W ns V m) (ha : Apart W ns) : Apart V [m] := by
  induction h with
  | here => exact ha.head
  | later _ ih => exact ih ha.tail
  | inside _ ih => exact ih ha.head.body

theorem Place.visible (h : Place W ns V m) : ∀ v ∈ V, v ∈ W ++ defs ns := by
  induction h with
  | here => exact fun v hv => mem_append_left _ hv
  | later _ ih =>
    intro v hv
    rw [defs_cons, defs_single]
    grind
  | inside _ ih =>
    intro v hv
    rw [defs_cons, defs_single]
    grind

theorem ids_cons : ids (n :: ns) = n.id :: (ids n.nodes ++ ids ns) := by simp [ids, subs_eq n]

/-- An operation has one place. -/
theorem Place.unique {V' : List ValueId} {m' : Node} (hids : (ids ns).Nodup) (h : Place W ns V m)
    (h' : Place W ns V' m') (heq : m.id = m'.id) : V = V' := by
  induction h with
  | here =>
    rw [ids_cons, nodup_cons] at hids
    cases h' with
    | here => rfl
    | later h' => exact absurd (mem_append_right _ (heq ▸ mem_map_of_mem h'.mem)) hids.1
    | inside h' => exact absurd (mem_append_left _ (heq ▸ mem_map_of_mem h'.mem)) hids.1
  | later h ih =>
    rw [ids_cons, nodup_cons, nodup_append] at hids
    obtain ⟨hid, -, hns, hdisj⟩ := hids
    have hm := mem_map_of_mem (f := Node.id) h.mem
    cases h' with
    | here => exact absurd (mem_append_right _ (heq ▸ hm)) hid
    | later h' => exact ih hns h' heq
    | inside h' => exact absurd heq.symm (hdisj _ (mem_map_of_mem h'.mem) _ hm)
  | inside h ih =>
    rw [ids_cons, nodup_cons, nodup_append] at hids
    obtain ⟨hid, hnodes, -, hdisj⟩ := hids
    have hm := mem_map_of_mem (f := Node.id) h.mem
    cases h' with
    | here => exact absurd (mem_append_left _ (heq ▸ hm)) hid
    | later h' => exact absurd heq (hdisj _ hm _ (mem_map_of_mem h'.mem))
    | inside h' => exact ih hnodes h' heq

end Places

/-! ## 2. Replaced trees -/

mutual

/-- A node in whose body an operation is replaced. -/
def replaced (i : OpId) (new : List Node) (σ : ValueId → ValueId) : Node → Node
  | mk j h b as ks => mk j (h.move σ) b as (replacedAll i new σ ks)

/-- Trees in which an operation is replaced. -/
def replacedAll (i : OpId) (new : List Node) (σ : ValueId → ValueId) : List Node → List Node
  | [] => []
  | k :: ks => (if k.id = i then new else [k.replaced i new σ]) ++ replacedAll i new σ ks

end

mutual

/-- The nodes of a tree, without those of an operation in it. -/
def spared (i : OpId) : Node → List Node
  | mk j h b as ks => mk j h b as ks :: sparedAll i ks

/-- The nodes of trees, without those of an operation in them. -/
def sparedAll (i : OpId) : List Node → List Node
  | [] => []
  | k :: ks => (if k.id = i then [] else k.spared i) ++ sparedAll i ks

end

mutual

/-- The nodes of an operation in the body of a node. -/
def tops (i : OpId) : Node → List Node
  | mk _ _ _ _ ks => topsAll i ks

/-- The nodes of an operation. -/
def topsAll (i : OpId) : List Node → List Node
  | [] => []
  | k :: ks => (if k.id = i then [k] else k.tops i) ++ topsAll i ks

end

section Replaced

variable {i : OpId} {new : List Node} {σ : ValueId → ValueId} {n m : Node} {ns ks : List Node}

@[simp] theorem replaced_id : (n.replaced i new σ).id = n.id := by
  cases n
  simp [replaced]

@[simp] theorem replaced_head : (n.replaced i new σ).head = n.head.move σ := by
  cases n
  simp [replaced]

@[simp] theorem replaced_body : (n.replaced i new σ).body = n.body := by
  cases n
  simp [replaced]

@[simp] theorem replaced_args : (n.replaced i new σ).args = n.args := by
  cases n
  simp [replaced]

@[simp] theorem replaced_nodes : (n.replaced i new σ).nodes = replacedAll i new σ n.nodes := by
  cases n
  simp [replaced]

@[simp] theorem replacedAll_nil : replacedAll i new σ [] = [] := by simp [replacedAll]

@[simp] theorem replacedAll_cons : replacedAll i new σ (n :: ns) =
    (if n.id = i then new else [n.replaced i new σ]) ++ replacedAll i new σ ns := by
  simp [replacedAll]

theorem mem_replacedAll : m ∈ replacedAll i new σ ns ↔
    ∃ n ∈ ns, if n.id = i then m ∈ new else m = n.replaced i new σ := by
  induction ns with
  | nil => simp
  | cons n ns ih =>
    simp only [replacedAll_cons, mem_append, ih, mem_cons, exists_eq_or_imp]
    refine or_congr_left ?_
    split <;> simp

theorem map_id_replacedAll : (replacedAll i new σ ns).map id =
    (ns.map id).flatMap fun j => if j = i then new.map id else [j] := by
  induction ns with
  | nil => simp
  | cons n ns ih =>
    rw [replacedAll_cons, map_append, ih, map_cons, flatMap_cons]
    congr 1
    split <;> simp

theorem spared_eq : n.spared i = n :: sparedAll i n.nodes := by
  cases n
  simp [spared]

theorem sparedAll_nil : sparedAll i [] = [] := by simp [sparedAll]

theorem sparedAll_cons : sparedAll i (n :: ns) =
    (if n.id = i then [] else n.spared i) ++ sparedAll i ns := by simp [sparedAll]

theorem mem_sparedAll_cons : m ∈ sparedAll i (n :: ns) ↔
    (n.id ≠ i ∧ (m = n ∨ m ∈ sparedAll i n.nodes)) ∨ m ∈ sparedAll i ns := by
  rw [sparedAll_cons, mem_append, spared_eq]
  by_cases hn : n.id = i <;> simp

theorem tops_eq : n.tops i = topsAll i n.nodes := by
  cases n
  simp [tops]

theorem topsAll_cons : topsAll i (n :: ns) =
    (if n.id = i then [n] else topsAll i n.nodes) ++ topsAll i ns := by simp [topsAll, tops_eq]

/-- The nodes of replaced trees are new or spared. -/
theorem subs_replacedAll : ∀ m ∈ subsAll (replacedAll i new σ ns),
    m ∈ subsAll new ∨ ∃ k ∈ sparedAll i ns, m = k.replaced i new σ := by
  induction ns using forest with
  | nil => simp
  | cons n ns body rest =>
    intro m hm
    rw [replacedAll_cons, subsAll_append, mem_append] at hm
    simp only [mem_sparedAll_cons]
    rcases hm with hm | hm
    · by_cases hn : n.id = i
      · rw [if_pos hn] at hm
        exact .inl hm
      · rw [if_neg hn] at hm
        rcases mem_subsAll_cons.1 hm with rfl | hm | hm
        · exact .inr ⟨n, .inl ⟨hn, .inl rfl⟩, rfl⟩
        · rw [replaced_nodes] at hm
          exact (body m hm).imp_right
            (Exists.imp fun k => And.imp_left fun hk => .inl ⟨hn, .inr hk⟩)
        · simp at hm
    · exact (rest m hm).imp_right (Exists.imp fun k => And.imp_left .inr)

/-- The nodes of trees are the spared ones and those of the operation. -/
theorem perm_spared (i : OpId) (ns : List Node) :
    (subsAll ns).Perm (sparedAll i ns ++ subsAll (topsAll i ns)) := by
  induction ns using forest with
  | nil => simp [sparedAll, topsAll]
  | cons n ns body rest =>
    rw [subsAll_cons, sparedAll_cons, topsAll_cons, subsAll_append]
    by_cases hn : n.id = i
    · simp only [hn, if_true, subsAll_cons, subsAll_nil, append_nil]
      exact (rest.append_left _).trans (perm_append_comm_assoc _ _ _)
    · simp only [hn, subs_eq n, spared_eq]
      refine ((body.cons n).append rest).trans ?_
      simp only [append_assoc, cons_append]
      exact ((perm_append_comm_assoc _ _ _).append_left _).cons n

theorem sparedAll_ne : ∀ m ∈ sparedAll i ns, m.id ≠ i := by
  induction ns using forest with
  | nil => simp [sparedAll]
  | cons n ns body rest =>
    intro m hm
    rcases mem_sparedAll_cons.1 hm with ⟨hn, rfl | hm⟩ | hm
    · exact hn
    · exact body m hm
    · exact rest m hm

theorem topsAll_id : ∀ m ∈ topsAll i ns, m.id = i := by
  induction ns using forest with
  | nil => simp [topsAll]
  | cons n ns body rest =>
    rw [topsAll_cons]
    by_cases hn : n.id = i
    · simpa [hn] using rest
    · simpa [hn, or_imp, forall_and] using ⟨body, rest⟩

theorem sparedAll_subset : sparedAll i ns ⊆ subsAll ns := fun _ hm =>
  (perm_spared i ns).mem_iff.2 (mem_append_left _ hm)

section

variable (hids : (ids ns).Nodup)

include hids

theorem eq_of_id {k : Node} (hm : m ∈ subsAll ns) (hk : k ∈ subsAll ns) (h : m.id = k.id) : m = k :=
  inj_on_of_nodup_map hids hm hk h

theorem mem_topsAll (hn : n ∈ subsAll ns) : n ∈ topsAll n.id ns := by
  rcases mem_append.1 ((perm_spared n.id ns).mem_iff.1 hn) with h | h
  · exact absurd rfl (sparedAll_ne n h)
  · obtain ⟨t, ht, -⟩ := mem_subsAll.1 h
    have hts : t ∈ subsAll ns := (perm_spared n.id ns).mem_iff.2
      (mem_append_right _ (mem_subsAll_of_mem ht))
    rw [eq_of_id hids hn hts (topsAll_id t ht).symm]
    exact (topsAll_id t ht).symm ▸ ht

/-- A spared node is none of those of the operation. -/
theorem spared_id_notMem (hn : n ∈ subsAll ns) (hm : m ∈ sparedAll n.id ns) : m.id ∉ ids [n] := by
  intro hmem
  obtain ⟨k, hk, heq⟩ := mem_map.1 hmem
  have hperm := (perm_spared n.id ns).map id
  rw [map_append] at hperm
  have hdisj := (nodup_append.1 (hperm.nodup_iff.1 hids)).2.2
  refine hdisj m.id (mem_map_of_mem hm) m.id ?_ rfl
  rw [← heq]
  refine mem_map_of_mem (mem_subsAll.2 ⟨n, mem_topsAll hids hn, ?_⟩)
  simpa using hk

/-- What a spared node defines is not defined in the operation. -/
theorem spared_own_notMem (hdefs : (defs ns).Nodup) (hn : n ∈ subsAll ns)
    (hm : m ∈ sparedAll n.id ns) {v : ValueId} (hv : v ∈ m.own) : v ∉ defs [n] := by
  intro hd
  have hperm := (perm_spared n.id ns).flatMap_right own
  rw [flatMap_append] at hperm
  have hdisj := (nodup_append.1 (hperm.nodup_iff.1 hdefs)).2.2
  refine hdisj v (mem_flatMap.2 ⟨m, hm, hv⟩) v ?_ rfl
  obtain ⟨k, hk, hvk⟩ := mem_defs.1 hd
  refine mem_flatMap.2 ⟨k, mem_subsAll.2 ⟨n, mem_topsAll hids hn, ?_⟩, hvk⟩
  simpa using hk

end

theorem mem_sparedAll {l : Node} (hl : l ∈ ns) (hne : l.id ≠ i) : l ∈ sparedAll i ns := by
  induction ns with
  | nil => cases hl
  | cons n ns ih =>
    rcases mem_cons.1 hl with rfl | hl
    · exact mem_sparedAll_cons.2 (.inl ⟨hne, .inl rfl⟩)
    · exact mem_sparedAll_cons.2 (.inr (ih hl))

/-- The body of a spared node is spared, but for the operation itself. -/
theorem spared_nodes : ∀ m ∈ sparedAll i ns, ∀ l ∈ m.nodes, l.id ≠ i → l ∈ sparedAll i ns := by
  induction ns using forest with
  | nil => simp [sparedAll]
  | cons n ns body rest =>
    intro m hm l hl hne
    refine mem_sparedAll_cons.2 ?_
    rcases mem_sparedAll_cons.1 hm with ⟨hn, rfl | hm⟩ | hm
    · exact .inl ⟨hn, .inr (mem_sparedAll hl hne)⟩
    · exact .inl ⟨hn, .inr (body m hm l hl hne)⟩
    · exact .inr (rest m hm l hl hne)

theorem replacedAll_append : replacedAll i new σ (ns ++ ks) =
    replacedAll i new σ ns ++ replacedAll i new σ ks := by
  induction ns with
  | nil => simp
  | cons n ns ih => simp [ih]

theorem Ends.replaced {k : Kind} (hk : k.isTerminator = true) (h : Ends k ns)
    (hi : ∀ n ∈ ns, n.id = i → n.head.kind.isTerminator = false)
    (hnew : ∀ m ∈ new, m.head.kind.isTerminator = false) : Ends k (replacedAll i new σ ns) := by
  obtain ⟨init, last, rfl, hlast, hinit⟩ := h
  have hne : last.id ≠ i := fun heq => by
    have := hi last (by simp) heq
    rw [hlast, hk] at this
    cases this
  refine ⟨replacedAll i new σ init, last.replaced i new σ, ?_, ?_, fun m hm => ?_⟩
  · rw [replacedAll_append, replacedAll_cons, if_neg hne, replacedAll_nil, append_nil]
  · rw [replaced_head]
    exact hlast
  · obtain ⟨l, hl, hml⟩ := mem_replacedAll.1 hm
    split at hml
    · exact hnew m hml
    · rw [hml, replaced_head]
      exact hinit l hl

end Replaced

end Node

open Node

/-! ## 3. What takes the place of results -/

section Substitution

variable {rs vs : List ValueId} {v : ValueId}

theorem moved_of_notMem (h : v ∉ rs) : moved (rs.zip vs) v = v := by
  induction rs generalizing vs with
  | nil => rfl
  | cons r rs ih =>
    cases vs with
    | nil => rfl
    | cons w vs =>
      have hne : v ≠ r := fun heq => h (heq ▸ mem_cons_self)
      rw [zip_cons_cons, moved, foldl_cons, if_neg hne]
      exact ih fun hmem => h (mem_cons_of_mem _ hmem)

theorem moved_getElem (hrs : rs.Nodup) (hdisj : ∀ v ∈ vs, v ∉ rs) {k : Nat} {r : ValueId}
    (hr : rs[k]? = some r) (hv : vs[k]? = some v) : moved (rs.zip vs) r = v := by
  induction rs generalizing vs k with
  | nil => simp at hr
  | cons r' rs ih =>
    cases vs with
    | nil => simp at hv
    | cons v' vs =>
      obtain ⟨hnot, hrs⟩ := nodup_cons.1 hrs
      have hrest : ∀ v ∈ vs, v ∉ rs := fun v hv hmem =>
        hdisj v (mem_cons_of_mem _ hv) (mem_cons_of_mem _ hmem)
      rw [zip_cons_cons, moved, foldl_cons]
      cases k with
      | zero =>
        cases hr
        obtain rfl := Option.some.inj hv
        rw [if_pos rfl]
        exact moved_of_notMem fun hmem => hdisj v' mem_cons_self (mem_cons_of_mem _ hmem)
      | succ k =>
        have hne : r ≠ r' := fun heq => hnot (heq ▸ mem_of_getElem? hr)
        rw [if_neg hne]
        exact ih hrs hrest hr hv

end Substitution

/-! ## 4. Around the replaced node -/

namespace Node

/-- The node `n`, which sees `V`, is the only one of its operation in trees where `W` is visible,
and moving values by `σ` keeps those that the other nodes define. -/
structure Around (V : List ValueId) (n : Node) (σ : ValueId → ValueId) (W : List ValueId)
    (ks : List Node) : Prop where
  apart : Apart W ks
  place : ∀ V' m, Place W ks V' m → m.id = n.id → V' = V ∧ m = n
  fixed : ∀ m ∈ sparedAll n.id ks, ∀ u ∈ m.own, σ u = u

section Around

variable {V W : List ValueId} {n k : Node} {σ : ValueId → ValueId} {ks : List Node} {i : OpId}

theorem spared_tail (i : OpId) (k : Node) (ks : List Node) :
    sparedAll i ks ⊆ sparedAll i (k :: ks) := by
  exact subset_append_right _ _

theorem spared_head (i : OpId) (k : Node) (ks : List Node) :
    sparedAll i [k] ⊆ sparedAll i (k :: ks) := by
  rw [sparedAll_cons, sparedAll_nil, append_nil, sparedAll_cons]
  exact subset_append_left _ _

theorem spared_body (hk : k.id ≠ i) : sparedAll i k.nodes ⊆ sparedAll i [k] := fun m hm => by
  simp [sparedAll_cons, hk, spared_eq, sparedAll_nil, hm]

theorem spared_self (hk : k.id ≠ i) : k ∈ sparedAll i [k] := by
  simp [sparedAll_cons, hk, spared_eq]

theorem Around.tail (h : Around V n σ W (k :: ks)) : Around V n σ (k.head.results ++ W) ks where
  apart := h.apart.tail
  place V' m hm := h.place V' m (.later hm)
  fixed m hm := h.fixed m (spared_tail _ k ks hm)

theorem Around.head (h : Around V n σ W (k :: ks)) : Around V n σ W [k] where
  apart := h.apart.head
  place V' m hm := h.place V' m (hm.cons ks)
  fixed m hm := h.fixed m (spared_head _ k ks hm)

theorem Around.body (h : Around V n σ W [k]) (hk : k.id ≠ n.id) :
    Around V n σ (k.args ++ W) k.nodes where
  apart := h.apart.body
  place V' m hm := h.place V' m (.inside hm)
  fixed m hm := h.fixed m (spared_body hk hm)

theorem Around.own (h : Around V n σ W [k]) (hk : k.id ≠ n.id) : ∀ u ∈ k.own, σ u = u :=
  h.fixed k (spared_self hk)

/-- Moving the operands of an operation whose results stay renames it. -/
theorem move_eq {h : Head} (hfix : ∀ v ∈ h.results, σ v = v) : h.move σ = h.rename σ := by
  have hmap : h.results.map σ = h.results := by
    conv_rhs => rw [← map_id h.results]
    exact map_congr_left hfix
  rw [Head.rename, hmap, Head.move]

theorem Around.here (h : Around V n σ W (k :: ks)) (hk : k.id = n.id) : W = V ∧ k = n :=
  h.place W k .here hk

variable {new : List Node}

/-- Replaced trees are in scope: where `W` was visible, what takes its place is. -/
theorem scopedAll_replaced (hnew : ScopedAll V new)
    (hout : ∀ r ∈ n.head.results, σ r ∈ outs new ++ V) (hV : ∀ v ∈ V, σ v = v) {W' : List ValueId}
    (h : Around V n σ W ks) (hs : ScopedAll W ks) (hw : ∀ v ∈ W, σ v ∈ W') :
    ScopedAll W' (replacedAll n.id new σ ks) := by
  induction ks using forest generalizing W W' with
  | nil => simp
  | cons k ks body rest =>
    obtain ⟨hk, hks⟩ := scopedAll_cons.1 hs
    rw [replacedAll_cons, scopedAll_append]
    by_cases hid : k.id = n.id
    · obtain ⟨rfl, rfl⟩ := h.here hid
      rw [if_pos hid]
      have hseen : ∀ v ∈ W, v ∈ W' := fun v hv => hV v hv ▸ hw v hv
      refine ⟨hnew.mono hseen, rest h.tail hks fun v hv => ?_⟩
      rcases mem_append.1 hv with hv | hv
      · rcases mem_append.1 (hout v hv) with hv | hv
        · exact mem_append_left _ hv
        · exact mem_append_right _ (hseen _ hv)
      · exact mem_append_right _ (hw v hv)
    · obtain ⟨hoperands, hnodes⟩ := scoped_iff.1 hk
      have hfix (vs us : List ValueId) (hvs : ∀ v ∈ vs, σ v = v) (hus : vs ⊆ us) :
          ∀ v ∈ vs ++ W, σ v ∈ us ++ W' := fun v hv => (mem_append.1 hv).elim
        (fun hv => mem_append_left _ ((hvs v hv).symm ▸ hus hv)) fun hv =>
        mem_append_right _ (hw v hv)
      rw [if_neg hid, scopedAll_cons, scoped_iff, replaced_head, replaced_args, replaced_nodes]
      refine ⟨⟨⟨fun v hv => ?_, body (h.head.body hid) hnodes (hfix _ _ (fun v hv =>
        h.head.own hid v (mem_append_right _ hv)) fun v hv => hv)⟩, scopedAll_nil _⟩, ?_⟩
      · obtain ⟨u, hu, rfl⟩ := mem_map.1 hv
        exact hw u (hoperands u hu)
      · refine rest h.tail hks (hfix _ _ (fun v hv => h.head.own hid v (mem_append_left _ hv)) ?_)
        simp [outs, Head.move]

end Around

end Node

/-! ## 5. The replaced function -/

/-- The block that a node is in is none of those in the node. -/
theorem Valid.body_ne (hv : Valid g f b₀ params T) {m : Node} (hn : n ∈ subsAll T)
    (hmem : n.id ∈ (g.block b).ops) (hm : m ∈ n.subs) : m.body ≠ some b := by
  intro hb
  have hhere := hv.holds.held m (subsAll_trans hn hm)
  rw [hhere.bodyOps b hb] at hmem
  obtain ⟨l, hl, hid⟩ := mem_map.1 hmem
  have hln : l ∈ n.subs := subs_trans hm (mem_subs_of_mem_nodes hl)
  have heq : l = n := eq_of_id (hv.holds.ids_nodup hv.sane) (subsAll_trans hn hln) hn hid
  have hle := sizeOf_le_of_mem_subs hm
  have hlt := sizeOf_lt_of_mem hl
  rw [heq] at hlt
  cases m
  simp only [nodes_mk, Node.mk.sizeOf_spec] at hle hlt
  omega

theorem Valid.body_lt (hv : Valid g f b params T) : b.idx < g.blocks.size := by
  obtain ⟨init, last, rfl, -, -⟩ := hv.ends
  exact Graph.lt_of_listed (i := last.id) (by simp [hv.holds.ops])

theorem Valid.apart (hv : Valid g f b params T) : Apart params T := by
  obtain ⟨-, hdefs, hdisj⟩ := nodup_append.1 (hv.holds.nodup hv.sane)
  exact ⟨hdefs, fun v hv hd => hdisj v hv v hd rfl⟩

/-- A node of a valid function has been replaced: new trees have been emitted before it, and then
`values`, which they compute or which the node sees, have taken the place of its results. -/
structure Exchange (f : FuncId) (b₀ : BlockId) (params : List ValueId) (T : List Node)
    (V : List ValueId) (n : Node) (b : BlockId) (pre rest : List OpId) (new : List Node)
    (values : List ValueId) (e e₁ e₂ : Editor) : Prop where
  before : Valid e.graph f b₀ params T
  place : Place params T V n
  inner : n.head.kind.isTerminator = false
  start : Start V b pre (n.id :: rest) e
  emitted : Emitted Rules V b pre (n.id :: rest) e e₁ new
  newInner : ∀ m ∈ new, m.head.kind.isTerminator = false
  computed : ∀ v ∈ values, v ∈ outs new ++ V
  types : values.map e₁.graph.ty = n.head.results.map e.graph.ty
  length : values.length = n.head.results.length
  rewired : Rewired (n.head.results.zip values) (ids [n]) n.id b e₁.graph e₂.graph

/-- **Values that are visible after emitted operations can take the place of the results of the
operation that they stand before.** -/
theorem Exchange.of_emitted {f : FuncId} {b : BlockId} {params V : List ValueId}
    (values : List ValueId) {T new : List Node} {pre rest : List OpId} {e e₁ e₁' : Editor}
    (hv : Valid e.graph f b₀ params T) (hn : Place params T V n)
    (hinner : n.head.kind.isTerminator = false) (hs : Start V b pre (n.id :: rest) e)
    (hemitted : Emitted Rules V b pre (n.id :: rest) e e₁ new)
    (hnew : ∀ m ∈ new, m.head.kind.isTerminator = false)
    (hcomputed : ∀ v ∈ values, v ∈ outs new ++ V)
    (htypes : values.map e₁.graph.ty = n.head.results.map e.graph.ty)
    (hgraph : e₁'.graph = e₁.graph) :
    ∃ e₂, Edit.replaceOp n.id values e₁' = .ok () e₂ ∧
      Exchange f b₀ params T V n b pre rest new values e e₁ e₂ := by
  have hhere : Here e.graph n := hv.holds.held n hn.mem
  have hmem : n.id ∈ (e.graph.block b).ops := by
    rw [hs.place.ops]
    simp
  obtain ⟨hnlt, hparent⟩ := hv.sane.parent b n.id hmem
  have hop : e₁.graph.op n.id = e.graph.op n.id := hemitted.grows.op n.id hnlt
  have hresults : (e₁.graph.op n.id).results = n.head.results := by rw [hop, hhere.results]
  have hlt : ∀ r ∈ n.head.results, r.idx < e.graph.values.size := fun r hr =>
    hv.holds.held.defs_lt hv.sane r (mem_defs.2 ⟨n, hn.mem, by simp [own, hr]⟩)
  have hps : Replaceable e₁.graph (n.head.results.zip values) := by
    refine ⟨fun p hp => ?_, fun p hp => ?_, fun p hp q hq heq => ?_⟩
    · exact hemitted.next.visible _ (hcomputed _ (of_mem_zip hp).2)
    · rw [hemitted.grows.ty _ (hlt _ (of_mem_zip hp).1)]
      obtain ⟨k, hk, rfl⟩ := mem_iff_getElem.1 hp
      have h := congrArg (·[k]?) htypes
      simp only [length_zip, Nat.lt_min] at hk
      simpa [hk.1, hk.2] using h
    · have hr : q.1 ∈ n.head.results := (of_mem_zip hq).1
      rcases mem_append.1 (hcomputed _ (of_mem_zip hp).2) with hnew | hold
      · -- the emitted values are new, and the results are not
        have hge := hemitted.defsNew _ (outs_subset_defs _ hnew)
        have := hlt _ hr
        rw [heq] at hge
        omega
      · -- what an operation sees is not defined by it
        exact (hn.apart hv.apart).outside _ (heq ▸ hold) (by simp [defs_single, hr])
  have hlen : values.length = (e₁.graph.op n.id).results.length := by
    rw [hresults]
    simpa using congrArg List.length htypes
  have hheld : Held e₁.graph [n] := hemitted.grows.held hs.sane
    (hv.holds.held.single hn.mem) (by simpa using hnlt)
    fun m hm c hc heq => hv.body_ne hn.mem hmem (by simpa using hm) (hc.trans heq)
  have hreplaced := @Edit.replaceOp_ok e₁'
  rw [hgraph] at hreplaced
  obtain ⟨e₂, hreplace, hr⟩ := hreplaced hemitted.next.sane
    (show (e₁.graph.op n.id).parent = some b by rw [hop, hparent])
    (by rw [hemitted.next.place.ops]; simp) (by rw [hop, hhere.present]) hlen (hresults.symm ▸ hps)
  rw [hresults, hheld.subtree hemitted.next.sane (Nat.lt_of_lt_of_le hnlt hemitted.grows.opsLe)]
    at hr
  exact ⟨e₂, hreplace, hv, hn, hinner, hs, hemitted, hnew, hcomputed, htypes, hresults ▸ hlen, hr⟩

namespace Exchange

variable {f : FuncId} {b₀ c : BlockId} {params : List ValueId} {T : List Node} {V : List ValueId}
  {n : Node} {b : BlockId} {pre rest : List OpId} {new : List Node} {values : List ValueId}
  {e e₁ e₂ : Editor} (x : Exchange f b₀ params T V n b pre rest new values e e₁ e₂) {r : ValueId}
variable {v : ValueId} {m : Node}

include x

theorem idsNodup : (ids T).Nodup := x.before.holds.ids_nodup x.before.sane

theorem apart : Apart params T := x.before.apart

theorem mem : n ∈ subsAll T := x.place.mem

theorem parent : (e.graph.op n.id).parent = some b :=
  (x.start.sane.parent b n.id (by rw [x.start.place.ops]; simp)).2

theorem held : Held e.graph [n] := x.before.holds.held.single x.mem

theorem id_lt : n.id.idx < e.graph.ops.size :=
  (x.start.sane.parent b n.id (by rw [x.start.place.ops]; simp)).1

/-- What takes the place of a value. -/
abbrev subst (n : Node) (values : List ValueId) : ValueId → ValueId :=
  moved (n.head.results.zip values)

omit x in
theorem subst_of_notMem (hv : v ∉ n.head.results) : subst n values v = v :=
  moved_of_notMem hv

theorem subst_visible (hv : v ∈ V) : subst n values v = v :=
  subst_of_notMem fun hr => (x.place.apart x.apart).outside v hv (by simp [defs_single, hr])

theorem subst_param (hv : v ∈ params) : subst n values v = v :=
  subst_of_notMem fun hr =>
    x.apart.outside v hv (mem_defs.2 ⟨n, x.mem, mem_append_left _ hr⟩)

theorem results_lt (hv : v ∈ n.head.results) : v.idx < e.graph.values.size :=
  (owner_of_mem_results x.start.sane ((x.held.here mem_cons_self).results ▸ hv)).1

/-- No result takes the place of another one. -/
theorem values_apart (hv : v ∈ values) : v ∉ n.head.results := fun hr => by
  rcases mem_append.1 (x.computed v hv) with hv | hv
  · exact Nat.not_lt.2 (x.emitted.defsNew v (outs_subset_defs new hv)) (x.results_lt hr)
  · exact (x.place.apart x.apart).outside v hv (by simp [defs_single, hr])

theorem subst_result {k : Nat} (hr : n.head.results[k]? = some r) (hv : values[k]? = some v) :
    subst n values r = v := by
  refine moved_getElem ?_ (fun v hv => x.values_apart hv) hr hv
  have := results_nodup x.start.sane n.id
  rwa [(x.held.here mem_cons_self).results] at this

theorem subst_mem (hr : r ∈ n.head.results) : subst n values r ∈ values := by
  obtain ⟨k, hk⟩ := mem_iff_getElem?.1 hr
  obtain ⟨hlt, -⟩ := List.getElem?_eq_some_iff.1 hk
  have hv := getElem?_eq_getElem (x.length ▸ hlt : k < values.length)
  rw [x.subst_result hk hv]
  exact getElem_mem _

theorem ty_eq (v : ValueId) : e₂.graph.ty v = e₁.graph.ty v := by
  obtain ⟨us, hus⟩ := x.rewired.value v
  unfold Graph.ty
  rw [hus]

/-- A value has the type of what takes its place. -/
theorem ty_subst (hv : v.idx < e.graph.values.size) :
    e₂.graph.ty (subst n values v) = e.graph.ty v := by
  rw [x.ty_eq]
  by_cases hmem : v ∈ n.head.results
  · obtain ⟨k, hk⟩ := mem_iff_getElem?.1 hmem
    obtain ⟨hlt, -⟩ := List.getElem?_eq_some_iff.1 hk
    have hw := getElem?_eq_getElem (x.length ▸ hlt : k < values.length)
    rw [x.subst_result hk hw]
    have htypes := congrArg (fun l => l[k]?) x.types
    simpa only [getElem?_map, hw, hk, Option.map_some, Option.some.injEq] using htypes
  · rw [subst_of_notMem hmem]
    exact x.emitted.grows.ty v hv

omit x in
theorem listed₁ (hm : Here e₁.graph m) : Listed e₁.graph m.id := fun k v hk =>
  hm.used k v (hm.operands ▸ hk)

theorem spared_lt (hm : m ∈ sparedAll n.id T) : m.id.idx < e.graph.ops.size :=
  x.before.holds.ids_lt x.before.sane m.id (mem_map_of_mem (sparedAll_subset hm))

/-- A spared operation has only got other operands. -/
theorem op_spared (hm : m ∈ sparedAll n.id T) : e₂.graph.op m.id =
    { e.graph.op m.id with operands := (e.graph.op m.id).operands.map (subst n values) } ∧
      Listed e₂.graph m.id := by
  have hhere := x.before.holds.held m (sparedAll_subset hm)
  have hop := x.emitted.grows.op m.id (x.spared_lt hm)
  have hlisted : Listed e₁.graph m.id := fun k v hk => by
    rw [hop] at hk
    exact x.emitted.grows.uses v _ (hhere.used k v (hhere.operands ▸ hk))
  have := x.rewired.op m.id (spared_id_notMem x.idsNodup x.mem hm) hlisted
  rw [hop] at this
  exact this

theorem new_id (hm : m ∈ subsAll new) : m.id ∉ ids [n] := by
  intro hmem
  have hlt := x.held.ids_lt x.start.sane (by simpa using x.id_lt) m.id hmem
  exact Nat.not_lt.2 (x.emitted.opsNew m hm) hlt

/-- The new operations do not use what is replaced. -/
theorem subst_new (hm : m ∈ subsAll new) (hv : v ∈ m.names) : subst n values v = v := by
  refine subst_of_notMem fun hr => ?_
  rcases mem_append.1 (names_visible x.emitted.inScope m hm v hv) with hv | hv
  · refine (x.place.apart x.apart).outside v hv ?_
    rw [defs_single]
    simp [hr]
  · exact Nat.not_lt.2 (x.emitted.defsNew v hv) (x.results_lt hr)

theorem op_new (hm : m ∈ subsAll new) :
    e₂.graph.op m.id = e₁.graph.op m.id ∧ Listed e₂.graph m.id := by
  have hhere := x.emitted.held m hm
  obtain ⟨hop, hlisted⟩ := x.rewired.op m.id (x.new_id hm) (listed₁ hhere)
  refine ⟨?_, hlisted⟩
  have hid : (e₁.graph.op m.id).operands.map (subst n values) = (e₁.graph.op m.id).operands := by
    rw [hhere.operands]
    conv_rhs => rw [← map_id m.head.operands]
    exact map_congr_left fun v hv => x.subst_new hm (by simp [names, hv])
  rw [hop, hid]

theorem block_ne (hc : c ≠ b) (hlt : c.idx < e.graph.blocks.size) :
    e₂.graph.block c = e.graph.block c := by
  rw [x.rewired.block c hc, x.emitted.grows.block c hlt fun h => hc (Option.some.inj h)]

theorem ops_eq : (e₂.graph.block b).ops = pre ++ new.map Node.id ++ rest := by
  have hnodup := x.emitted.next.sane.opsNodup b
  rw [x.emitted.next.place.ops] at hnodup
  rw [x.rewired.ops, x.emitted.next.place.ops]
  have hnot : n.id ∉ pre ++ new.map Node.id := fun hmem =>
    (nodup_append.1 hnodup).2.2 _ hmem _ mem_cons_self rfl
  rw [erase_append_right _ hnot, erase_cons_head]

omit x in
theorem flatMap_of_notMem {i : OpId} {ids js : List OpId} (h : i ∉ ids) :
    (ids.flatMap fun j => if j = i then js else [j]) = ids := by
  conv_rhs => rw [← flatMap_singleton' ids]
  exact flatMap_congr fun j hj => if_neg fun heq : j = i => h (heq ▸ hj)

/-- A block of the old tree has become one of the replaced tree. -/
theorem block_replaced {as : List ValueId} {ks : List Node} (hc : c.idx < e.graph.blocks.size)
    (h : Holds e.graph c as ks) (hks : ∀ k ∈ ks, k.id ≠ n.id → k ∈ sparedAll n.id T) :
    (e₂.graph.block c).args = as ∧
    (e₂.graph.block c).ops = (replacedAll n.id new (subst n values) ks).map Node.id ∧
    ∀ m ∈ replacedAll n.id new (subst n values) ks, (e₂.graph.op m.id).parent = some c := by
  have hparent : ∀ k ∈ ks, k.id ≠ n.id → (e₂.graph.op k.id).parent = some c := fun k hk hne => by
    rw [(x.op_spared (hks k hk hne)).1]
    exact h.placed k hk
  by_cases hcb : c = b
  · subst hcb
    have hops := x.start.place.ops
    have hnodup := x.start.sane.opsNodup c
    rw [hops] at hnodup
    obtain ⟨-, hrest, hdisj⟩ := nodup_append.1 hnodup
    have hpre : n.id ∉ pre := fun hmem => hdisj _ hmem _ mem_cons_self rfl
    refine ⟨?_, ?_, fun m hm => ?_⟩
    · rw [x.rewired.around.1, x.emitted.grows.args c hc, h.args]
    · rw [x.ops_eq, map_id_replacedAll, ← h.ops, hops, flatMap_append, flatMap_cons,
        flatMap_of_notMem hpre, flatMap_of_notMem (nodup_cons.1 hrest).1, if_pos rfl,
        append_assoc]
    · obtain ⟨k, hk, hmk⟩ := mem_replacedAll.1 hm
      split at hmk
      · rw [(x.op_new (mem_subsAll_of_mem hmk)).1]
        exact x.emitted.placed m hmk
      · next hne =>
        rw [hmk, replaced_id]
        exact hparent k hk hne
  · have hne : ∀ k ∈ ks, k.id ≠ n.id := fun k hk heq => by
      have := h.placed k hk
      rw [heq, x.parent] at this
      exact hcb (Option.some.inj this).symm
    have hnot : n.id ∉ ks.map Node.id := fun hmem => by
      obtain ⟨k, hk, heq⟩ := mem_map.1 hmem
      exact hne k hk heq
    rw [x.block_ne hcb hc]
    refine ⟨h.args, ?_, fun m hm => ?_⟩
    · rw [h.ops, map_id_replacedAll, flatMap_of_notMem hnot]
    · obtain ⟨k, hk, hmk⟩ := mem_replacedAll.1 hm
      rw [if_neg (hne k hk)] at hmk
      rw [hmk, replaced_id]
      exact hparent k hk (hne k hk)

/-- The graph holds the new trees. -/
theorem here_new (hm : m ∈ subsAll new) : Here e₂.graph m := by
  have hhere := x.emitted.held m hm
  obtain ⟨hop, hlisted⟩ := x.op_new hm
  have hblock : ∀ c, m.body = some c → e₂.graph.block c = e₁.graph.block c := fun c hc =>
    x.rewired.block c (x.emitted.body_ne x.start hm hc)
  refine hhere.congr hop (fun c hc => by rw [hblock c hc]) (fun c hc => by rw [hblock c hc])
    (fun v _ => x.ty_eq v) (fun k v hk _ => hlisted k v ?_) fun k hk => ?_
  · rw [hop, hhere.operands, hk]
  · rw [(x.op_new (nodes_mem_subsAll hm hk)).1]

/-- The graph holds a spared node, with other operands. -/
theorem here_spared (hm : m ∈ sparedAll n.id T) :
    Here e₂.graph (m.replaced n.id new (subst n values)) := by
  have hhere := x.before.holds.held m (sparedAll_subset hm)
  obtain ⟨hop, hlisted⟩ := x.op_spared hm
  have hbody : ∀ c, m.body = some c → _ := fun c hc =>
    x.block_replaced (x.before.sane.body m.id c (hhere.body.trans hc))
      (x.before.holds.held.body (sparedAll_subset hm) hc) (spared_nodes m hm)
  exact {
    kind := by
      rw [replaced_id, replaced_head, Graph.kind, hop]
      exact hhere.kind
    operands := by
      rw [replaced_id, replaced_head, hop]
      exact congrArg (List.map _) hhere.operands
    results := by
      rw [replaced_id, replaced_head, hop]
      exact hhere.results
    attr := by
      rw [replaced_id, replaced_head, hop]
      exact hhere.attr
    tys := by
      rw [replaced_head]
      refine hhere.tys.trans (map_congr_left fun v hv => ?_)
      have hlt := (owner_of_mem_results x.before.sane (hhere.results ▸ hv)).1
      rw [x.ty_eq, x.emitted.grows.ty v hlt]
    body := by rw [replaced_id, replaced_body, hop, ← hhere.body]
    present := by rw [replaced_id, hop, ← hhere.present]
    used := fun k v hk => by
      rw [replaced_head] at hk
      rw [replaced_id]
      refine hlisted k v ?_
      rw [hop]
      exact (congrArg (fun l => (l.map (subst n values))[k]?) hhere.operands).trans hk
    bodyArgs := fun c hc => by
      rw [replaced_body] at hc
      rw [replaced_args]
      exact (hbody c hc).1
    bodyOps := fun c hc => by
      rw [replaced_body] at hc
      rw [replaced_nodes]
      exact (hbody c hc).2.1
    noBody := fun hc => by
      rw [replaced_body] at hc
      rw [replaced_args, replaced_nodes, (hhere.noBody hc).1, (hhere.noBody hc).2]
      exact ⟨rfl, by simp⟩
    placed := fun k hk => by
      rw [replaced_nodes] at hk
      rw [replaced_body]
      obtain ⟨l, hl, -⟩ := mem_replacedAll.1 hk
      obtain ⟨c, hc⟩ := hhere.body_of_nodes (ne_nil_of_mem hl)
      rw [hc]
      exact (hbody c hc).2.2 k hk }

/-- What takes the place of values keeps the values of spared nodes. -/
theorem subst_own (hm : m ∈ sparedAll n.id T) {u : ValueId} (hu : u ∈ m.own) :
    subst n values u = u :=
  subst_of_notMem fun hr =>
    spared_own_notMem x.idsNodup x.apart.nodup x.mem hm hu (by simp [defs_single, hr])

theorem around : Around V n (subst n values) params T where
  apart := x.apart
  place _ _ hm hid := ⟨(hm.unique x.idsNodup x.place hid), eq_of_id x.idsNodup hm.mem x.mem hid⟩
  fixed _ hm _ hu := x.subst_own hm hu

theorem like (hm : m ∈ sparedAll n.id T) :
    Like (subst n values) m (m.replaced n.id new (subst n values)) where
  head := by rw [replaced_head, move_eq fun v hv => x.subst_own hm (by simp [own, hv])]
  args := by
    rw [replaced_args]
    conv_lhs => rw [← map_id m.args]
    exact map_congr_left fun v hv => (x.subst_own hm (by simp [own, hv])).symm
  body := by rw [replaced_body]
  ends k hk h := by
    rw [replaced_nodes]
    refine h.replaced hk (fun l hl hid => ?_) x.newInner
    rw [eq_of_id x.idsNodup (nodes_mem_subsAll (sparedAll_subset hm) hl) x.mem hid]
    exact x.inner
  yields m' hm' ht := by
    rw [replaced_nodes] at hm'
    obtain ⟨l, hl, hml⟩ := mem_replacedAll.1 hm'
    split at hml
    · rw [x.newInner m' hml] at ht
      cases ht
    · subst hml
      rw [replaced_head] at ht ⊢
      exact ⟨l, hl, ht, rfl⟩

/-- A natural property of the old nodes and of the new ones is one of all nodes of the replaced
tree. -/
theorem every {P : Graph → Node → Prop} (hP : Natural P)
    (hold : ∀ m ∈ sparedAll n.id T, P e.graph m) (hnew : ∀ m ∈ subsAll new, P e₁.graph m) :
    ∀ m ∈ subsAll (replacedAll n.id new (subst n values) T), P e₂.graph m := by
  intro m hm
  rcases subs_replacedAll m hm with hm | ⟨k, hk, rfl⟩
  · exact hP (like_refl m) (fun v _ => x.ty_eq v) (hnew m hm)
  · refine hP (x.like hk) (fun v hv => x.ty_subst ?_) (hold k hk)
    exact x.before.holds.defs_lt x.before.sane v
      (names_visible x.before.inScope k (sparedAll_subset hk) v hv)

theorem inScope : ScopedAll params (replacedAll n.id new (subst n values) T) := by
  refine scopedAll_replaced x.emitted.inScope (fun r hr => ?_) (fun v hv => x.subst_visible hv)
    x.around x.before.inScope fun v hv => ?_
  · exact x.computed _ (x.subst_mem hr)
  · rwa [x.subst_param hv]

/-- **A valid function in which a node is replaced is valid.** -/
theorem valid : Valid e₂.graph f b₀ params (replacedAll n.id new (subst n values) T) := by
  obtain ⟨hargs, hops, hplaced⟩ := x.block_replaced x.before.body_lt x.before.holds fun k hk hne =>
    mem_sparedAll hk hne
  exact {
    sane := x.rewired.sane
    body := by
      rw [Graph.func, x.rewired.funcs, x.emitted.grows.funcs]
      exact x.before.body
    holds := ⟨hargs, hops, hplaced, fun m hm => by
      rcases subs_replacedAll m hm with hm | ⟨k, hk, rfl⟩
      · exact x.here_new hm
      · exact x.here_spared hk⟩
    inScope := x.inScope
    rules := x.every natural_rules (fun m hm => x.before.rules m (sparedAll_subset hm))
      x.emitted.every
    ends := x.before.ends.replaced rfl (fun l hl hid => by
      rw [eq_of_id x.idsNodup (mem_subsAll_of_mem hl) x.mem hid]
      exact x.inner) x.newInner }

end Exchange

end ConvNest.Program

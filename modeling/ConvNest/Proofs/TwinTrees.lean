/-
# Trees that are twins

A tree with the values renamed is a twin of the tree (`twinFuncs_of_maps`): the correspondence is
the renaming, on the values that the tree mentions.
-/
import ConvNest.Proofs.Contents
import ConvNest.Proofs.Twins

namespace ConvNest.Program

open Node List

/-- The block is the body that is made of the given arguments and trees, and their values know where
they are defined. -/
structure Rooted (g : Graph) (b : BlockId) (params : List ValueId) (ns : List Node) : Prop where
  holds : Holds g b params ns
  params : ∀ (k : Nat) v, params[k]? = some v → (g.value v).owner = .argument b ∧
    (g.value v).index = k
  results : ∀ n ∈ subsAll ns, ∀ (k : Nat) v, n.head.results[k]? = some v →
    (g.value v).owner = .result n.id ∧ (g.value v).index = k
  args : ∀ n ∈ subsAll ns, ∀ (k : Nat) v, n.args[k]? = some v →
    ∃ c, n.body = some c ∧ (g.value v).owner = .argument c ∧ (g.value v).index = k

theorem Sane.rooted {g : Graph} (hg : Sane g) {b : BlockId} {params : List ValueId} {ns : List Node}
    (h : Holds g b params ns) : Rooted g b params ns where
  holds := h
  params k v hv := (hg.args b k v (by rw [h.args]; exact hv)).2
  results n hn k v hv := (hg.results n.id k v (by rw [(h.held n hn).results]; exact hv)).2
  args n hn k v hv := by
    obtain ⟨c, hc⟩ := (h.held n hn).body_of_args (List.ne_nil_of_mem (List.mem_of_getElem? hv))
    exact ⟨c, hc, (hg.args c k v (by rw [(h.held n hn).bodyArgs c hc]; exact hv)).2⟩

/-- The correspondence of values that a renaming gives, on some values. -/
def Renames (ρ : ValueId → ValueId) (D : List ValueId) (v v' : ValueId) : Prop := v ∈ D ∧ v' = ρ v

section Twins

variable {g g' : Graph} {ρ : ValueId → ValueId} {D params : List ValueId}
variable {b b' : BlockId} {ns ns' : List Node}

theorem forall₂_renames {vs : List ValueId} (h : ∀ v ∈ vs, v ∈ D) :
    List.Forall₂ (Renames ρ D) vs (vs.map ρ) :=
  forall₂_map_right_iff.2 (forall₂_same.2 fun v hv => ⟨h v hv, rfl⟩)

theorem twin_of_maps {n n' : Node} (hn : Here g n) (hn' : Here g' n') (hm : Maps ρ n n')
    (hnames : ∀ v ∈ n.names, v ∈ D) : Twin g g' (Renames ρ D) n.id n'.id := by
  obtain ⟨hhead, hbody, hargs, -⟩ := maps_iff.1 hm
  simp only [names, mem_append] at hnames
  refine ⟨?_, ?_, ?_, ?_, ?_⟩
  · rw [hn'.kind, hhead, hn.kind]
    rfl
  · rw [hn'.attr, hhead, hn.attr]
    rfl
  · rw [hn.operands, hn'.operands, hhead]
    exact forall₂_renames fun v hv => hnames v (.inl (.inl (.inl hv)))
  · rw [hn.results, hn'.results, hhead]
    exact forall₂_renames fun v hv => hnames v (.inl (.inl (.inr hv)))
  · rw [hn.body, hn'.body]
    cases hc : n.body with
    | none =>
      rw [hc] at hbody
      rw [Option.isSome_eq_false_iff.1 hbody |> Option.isNone_iff_eq_none.1]
      exact .none
    | some c =>
      rw [hc] at hbody
      obtain ⟨c', hc'⟩ := Option.isSome_iff_exists.1 hbody
      rw [hc']
      refine .some ?_
      rw [hn.bodyArgs c hc, hn'.bodyArgs c' hc', hargs]
      exact forall₂_renames fun v hv => hnames v (.inl (.inr hv))

/-- Blocks that hold a tree and a renamed copy of it are twins. -/
theorem twinBlocks_of_maps {k : Nat} {as as' : List ValueId}
    (hns : Holds g b as ns) (hns' : Holds g' b' as' ns') (hmaps : MapsAll ρ ns ns')
    (hnames : ∀ n ∈ subsAll ns, ∀ v ∈ n.names, v ∈ D) (hdepth : depthAll ns < k) :
    TwinBlocks g g' (Renames ρ D) k b b' := by
  induction k generalizing b b' as as' ns ns' with
  | zero => exact absurd hdepth (Nat.not_lt_zero _)
  | succ k ih =>
    unfold TwinBlocks
    rw [hns.ops, hns'.ops, forall₂_map_left_iff, forall₂_map_right_iff]
    have hboth := (forall₂_and_left _ _).2 ⟨fun n (hn : n ∈ ns) => hn, (MapsAll.forall₂ hmaps)⟩
    have hall := ((forall₂_and_left _ _).2 ⟨fun n' (hn' : n' ∈ ns') => hn', hboth.flip⟩).flip
    refine List.Forall₂.imp (fun n n' h => ?_) hall
    obtain ⟨hn', hn, hm⟩ := h
    have hmem := mem_subsAll_of_mem hn
    have hmem' := mem_subsAll_of_mem hn'
    refine ⟨twin_of_maps (hns.held n hmem) (hns'.held n' hmem') hm (hnames n hmem),
      fun c c' hc hc' => ?_⟩
    rw [(hns.held n hmem).body] at hc
    rw [(hns'.held n' hmem').body] at hc'
    refine ih (hns.held.body hmem hc) (hns'.held.body hmem' hc') (maps_iff.1 hm).2.2.2
      (fun m hm => hnames m (subsAll_trans hmem (subs_eq n ▸ mem_cons_of_mem _ hm))) ?_
    have hle := depth_le_of_mem hn
    rw [depth_eq] at hle
    omega

/-- A renaming of the values of a tree pairs values that are defined alike. -/
theorem naming_of_maps (hns : Rooted g b params ns) (hns' : Rooted g' b' (params.map ρ) ns')
    (hmaps : MapsAll ρ ns ns') (htypes : ∀ v ∈ params ++ defs ns, g'.ty (ρ v) = g.ty v)
    (hinj : ∀ u ∈ params ++ defs ns, ∀ v ∈ params ++ defs ns, ρ u = ρ v → u = v) :
    Naming g g' (Renames ρ (params ++ defs ns)) where
  one := by
    rintro u _ v _ ⟨hu, rfl⟩ ⟨hv, rfl⟩
    exact ⟨congrArg ρ, hinj u hu v hv⟩
  same := by
    rintro v _ ⟨hv, rfl⟩
    have hty := htypes v hv
    rcases mem_append.1 hv with hp | hd
    · obtain ⟨k, hk⟩ := getElem?_of_mem hp
      obtain ⟨howner, hindex⟩ := hns.params k v hk
      obtain ⟨howner', hindex'⟩ := hns'.params k (ρ v) (by rw [getElem?_map, hk]; rfl)
      exact ⟨hty, hindex'.trans hindex.symm, .inl ⟨b, b', howner, howner'⟩⟩
    · obtain ⟨n, hn, hown⟩ := mem_defs.1 hd
      obtain ⟨n', hn', hm⟩ := exists_of_forall₂_mem (MapsAll.subsAll hmaps).flip hn
      obtain ⟨hhead, -, hargs, -⟩ := maps_iff.1 hm
      rcases mem_append.1 hown with hr | ha
      · obtain ⟨k, hk⟩ := getElem?_of_mem hr
        obtain ⟨howner, hindex⟩ := hns.results n hn k v hk
        have hk' : n'.head.results[k]? = some (ρ v) := by
          rw [hhead, Head.rename, getElem?_map, hk]
          rfl
        obtain ⟨howner', hindex'⟩ := hns'.results n' hn' k (ρ v) hk'
        refine ⟨hty, hindex'.trans hindex.symm, .inr ⟨n.id, n'.id, howner, howner', ?_, ?_⟩⟩
        · rw [(hns'.holds.held n' hn').kind, hhead, (hns.holds.held n hn).kind]
          rfl
        · rw [(hns'.holds.held n' hn').attr, hhead, (hns.holds.held n hn).attr]
          rfl
      · obtain ⟨k, hk⟩ := getElem?_of_mem ha
        obtain ⟨c, -, howner, hindex⟩ := hns.args n hn k v hk
        obtain ⟨c', -, howner', hindex'⟩ :=
          hns'.args n' hn' k (ρ v) (by rw [hargs, getElem?_map, hk]; rfl)
        exact ⟨hty, hindex'.trans hindex.symm, .inl ⟨c, c', howner, howner'⟩⟩

/-- **Functions that are held as a tree and a renamed copy of it are twins.** -/
theorem twinFuncs_of_maps {f f' : FuncId} (hname : (g'.func f').name = (g.func f).name)
    (hbody : (g.func f).body = some b) (hbody' : (g'.func f').body = some b')
    (hns : Rooted g b params ns) (hns' : Rooted g' b' (params.map ρ) ns')
    (hscope : ScopedAll params ns) (hmaps : MapsAll ρ ns ns')
    (htypes : ∀ v ∈ params ++ defs ns, g'.ty (ρ v) = g.ty v)
    (hinj : ∀ u ∈ params ++ defs ns, ∀ v ∈ params ++ defs ns, ρ u = ρ v → u = v) :
    TwinFuncs g g' (Renames ρ (params ++ defs ns)) f f' where
  naming := naming_of_maps hns hns' hmaps htypes hinj
  name := hname
  bodies := by
    refine ⟨b, b', depthAll ns + 1, hbody, hbody', ?_, ?_, ?_, ?_⟩
    · rw [hns.holds.args, hns'.holds.args]
      exact forall₂_renames fun v hv => mem_append_left _ hv
    · exact twinBlocks_of_maps hns.holds hns'.holds hmaps (names_visible hscope)
        (Nat.lt_succ_self _)
    · exact Nat.succ_le_succ hns.holds.depthAll_le
    · rw [← MapsAll.depthAll_eq hmaps]
      exact Nat.succ_le_succ hns'.holds.depthAll_le

end Twins

end ConvNest.Program

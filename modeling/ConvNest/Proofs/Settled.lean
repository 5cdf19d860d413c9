/-
# Settled stores

Every value is defined once, so after a block has been executed its nodes have nothing left to say:
a node that is executed once more, from the store at the end, leaves it as it is
(`settled_of_execAll`).  Copies of some of the nodes can therefore be executed in any order in which
each finds its operands (`execAll_settled`).

A tree computes the same from stores that agree on what it uses (`exec_congr`).
-/
import ConvNest.Proofs.Replace

namespace ConvNest.Program

open Node List

namespace Node

/-! ## 1. What a tree uses -/

section Uses

variable {V W : List ValueId} {n : Node} {ns : List Node}

/-- Trees are in scope already where only what they use is visible. -/
theorem ScopedAll.restrict (hs : ScopedAll V ns)
    (hw : ∀ m ∈ subsAll ns, ∀ v ∈ m.head.operands, v ∈ V → v ∈ W) : ScopedAll W ns := by
  induction ns using forest generalizing V W with
  | nil => simp
  | cons n ns body rest =>
    simp only [mem_subsAll_cons, or_imp, forall_and, forall_eq] at hw
    obtain ⟨hn, hns⟩ := scopedAll_cons.1 hs
    obtain ⟨hoperands, hnodes⟩ := scoped_iff.1 hn
    refine scopedAll_cons.2 ⟨scoped_iff.2 ⟨fun v hv => hw.1 v hv (hoperands v hv), ?_⟩, ?_⟩
    · refine body hnodes fun m hm v hv hmem => ?_
      exact mem_append.2 ((mem_append.1 hmem).imp_right (hw.2.1 m hm v hv))
    · refine rest hns fun m hm v hv hmem => ?_
      exact mem_append.2 ((mem_append.1 hmem).imp_right (hw.2.2 m hm v hv))

theorem Scoped.restrict (hs : n.Scoped V)
    (hw : ∀ m ∈ n.subs, ∀ v ∈ m.head.operands, v ∈ V → v ∈ W) : n.Scoped W := by
  simpa using @ScopedAll.restrict V W [n] (by simpa using hs) (by simpa using hw)

theorem mapsAll_refl (ns : List Node) : MapsAll (fun v => v) ns ns := by
  induction ns using forest with
  | nil => simp
  | cons n ns body rest =>
    exact mapsAll_cons.2 ⟨n, ns, rfl, maps_iff.2 ⟨(Head.rename_self _).symm, rfl, by simp, body⟩,
      rest⟩

theorem maps_refl (n : Node) : Maps (fun v => v) n n :=
  maps_iff.2 ⟨(Head.rename_self _).symm, rfl, by simp, mapsAll_refl _⟩

variable {S S' : Store}

/-- A node computes the same from stores that agree on what it uses. -/
theorem exec_congr {T : Store} (hs : n.Scoped V) (h : Follows (fun v => v) V S S')
    (hT : n.exec S = some T) : ∃ T', n.exec S' = some T' ∧ Follows (fun v => v)
    (n.head.results ++ V) T T' :=
  (exec_like n n V S S' T (maps_refl n) hs (fun _ _ _ _ heq => heq) h.same hT).imp
    fun _ => And.imp_right .of_same

variable (hs : ScopedAll V ns) (h : Follows (fun v => v) V S S')

include hs h

theorem runAll_congr : runAll ns S = runAll ns S' := by
  have forth {A B : Store} (h : Follows (fun v => v) V A B) {ys : List Datum}
    (hrun : runAll ns A = some ys) :
      runAll ns B = some ys := by
    obtain ⟨ys', hrun', hys⟩ :=
      runAll_like (mapsAll_refl ns) hs (fun _ _ _ _ heq => heq) h.same hrun
    rw [Likeness.all_same hys, hrun']
  exact Option.ext fun ys => ⟨forth h, forth fun v hv => (h v hv).symm⟩

theorem execAll_congr {T : Store} (hT : execAll ns S = some T) :
    ∃ T', execAll ns S' = some T' ∧ Follows (fun v => v) (outs ns ++ V) T T' :=
  execAll_maps (mapsAll_refl ns) hs (fun _ _ _ _ heq => heq) h hT

end Uses

/-! ## 2. Settled stores -/

/-- A node that is executed leaves the store as it is. -/
def Settles (T : Store) (n : Node) : Prop := n.exec T = some T

section Settled

variable {V : List ValueId} {n : Node} {ns : List Node} {S T : Store}

theorem settles_of_exec (hs : n.Scoped V) {U : Store} (h : n.exec S = some U)
    (hused : ∀ v ∈ V, T v = S v) (hdefined : ∀ v ∈ n.head.results, T v = U v) : Settles T n := by
  obtain ⟨U', hU', hfollows⟩ := exec_congr hs (show Follows (fun v => v) V S T from hused) h
  have heq : U' = T := by
    funext v
    by_cases hv : v ∈ n.head.results
    · rw [hfollows v (mem_append_left _ hv), hdefined v hv]
    · exact exec_frame hU' hv
  rw [Settles, hU', heq]

/-- **A block settles the store that it comes to.** -/
theorem settled_of_execAll (hs : ScopedAll V ns) (ha : Apart V ns) (h : execAll ns S = some T) :
    ∀ n ∈ ns, Settles T n := by
  induction ns generalizing V S with
  | nil => simp
  | cons n ns ih =>
    obtain ⟨hn, hns⟩ := scopedAll_cons.1 hs
    rw [execAll_cons, Option.bind_eq_some_iff] at h
    obtain ⟨U, hU, h⟩ := h
    intro m hm
    rcases mem_cons.1 hm with rfl | hm
    · -- Later nodes change neither what the node uses nor what it defines.
      have hlater {v : ValueId} (hv : v ∈ m.head.results ++ V) : T v = U v :=
        execAll_frame h fun hout => ha.tail.outside v hv (outs_subset_defs ns hout)
      refine settles_of_exec hn hU (fun v hv => ?_) fun v hv => hlater (mem_append_left _ hv)
      rw [hlater (mem_append_right _ hv)]
      exact exec_frame hU fun hr => ha.head.outside v hv (by simp [defs_single, hr])
    · exact ih hns ha.tail h m hm

theorem execAll_of_settled (hsettled : ∀ n ∈ ns, Settles T n) : execAll ns T = some T := by
  induction ns with
  | nil => rfl
  | cons n ns ih =>
    rw [execAll_cons, hsettled n mem_cons_self, Option.bind_some]
    exact ih fun m hm => hsettled m (mem_cons_of_mem _ hm)

/-- **Copies of settled nodes define what the nodes have defined.** -/
theorem execAll_settled {ρ : ValueId → ValueId} {ns' : List Node} {S' : Store}
    (hsettled : ∀ n ∈ ns, Settles T n) (hmap : MapsAll ρ ns ns') (hs : ScopedAll V ns)
    (hsep : Separates ρ (defs ns) (defs ns ++ V)) (h : Follows ρ V T S') :
    ∃ T', execAll ns' S' = some T' ∧ Follows ρ (outs ns ++ V) T T' :=
  execAll_maps hmap hs hsep h (execAll_of_settled hsettled)

end Settled

end Node

end ConvNest.Program

/-
# What is executed, and where

Every scene of a tree is one of a node at its place (`scene_place`).  What is visible there has the
data that it has at the end of the block, if it is visible there too (`scene_store`), and the scenes
of one execution of a node follow one another (`scenes_of_node`).
-/
import ConvNest.Proofs.Context

namespace ConvNest.Program

open Node List

theorem infix_walkLog {α β γ : Type} {step : β → α → Option β} {log : β → α → List γ} {xs : List α}
    {b : β} {s : γ} (h : s ∈ walkLog step log xs b) :
    ∃ c x, s ∈ log c x ∧ log c x <:+: walkLog step log xs b := by
  induction xs generalizing b with
  | nil => cases h
  | cons x xs ih =>
    rw [walkLog_cons] at h ⊢
    rcases mem_append.1 h with h | h
    · exact ⟨b, x, h, (prefix_append _ _).isInfix⟩
    · cases hstep : step b x with
      | none =>
        rw [hstep] at h
        cases h
      | some c =>
        rw [hstep] at h
        obtain ⟨d, y, hs, hinfix⟩ := ih h
        exact ⟨d, y, hs, hinfix.trans (suffix_append _ _).isInfix⟩

namespace Node

variable {V : List ValueId} {n : Node} {ns : List Node} {S T : Store} {s : Scene}

/-- A scene of a node is one of the node itself or one of its body. -/
theorem mem_log (h : s ∈ n.log V S) : (∃ p, s = ⟨V, n, S, p⟩) ∨
    ∃ ds, s ∈ logAll (n.args ++ V) n.nodes (S.assign n.args ds) ∧
      logAll (n.args ++ V) n.nodes (S.assign n.args ds) <:+: n.log V S := by
  cases n with
  | mk i hd b as ks =>
    simp only [log, mem_cons] at h ⊢
    rcases h with rfl | h
    · exact .inl ⟨none, rfl⟩
    · cases hk : hd.kind with
      | forLoop =>
        simp only [hk] at h ⊢
        cases hivs : hd.ivs S with
        | none => simp [hivs] at h
        | some ivs =>
          cases hinits : hd.inits S with
          | none => simp [hinits] at h
          | some inits =>
            simp only [hivs, hinits] at h ⊢
            obtain ⟨c, iv, h, hin⟩ := infix_walkLog h
            exact .inr ⟨_, h, hin.trans (suffix_cons _ _).isInfix⟩
      | generic =>
        simp only [hk] at h ⊢
        cases hx : hd.setup S with
        | none => simp [hx] at h
        | some x =>
          simp only [hx] at h ⊢
          obtain ⟨outs, p, h, hin⟩ := infix_walkLog h
          rcases mem_cons.1 h with rfl | h
          · exact .inl ⟨some p, rfl⟩
          · cases hes : Head.elements p x.syms x.maps (x.inputs ++ outs) with
            | none => simp [hes] at h
            | some es =>
              simp only [hes] at h hin
              exact .inr ⟨_, h, ((suffix_cons _ _).isInfix.trans hin).trans
                (suffix_cons _ _).isInfix⟩
      | _ => simp [hk] at h

/-- A scene of a block is one of its first node, or one of the others. -/
theorem mem_logAll_cons (h : s ∈ logAll V (n :: ns) S) : n.head.kind.isTerminator = false ∧
    (s ∈ n.log V S ∨ ∃ U, n.exec S = some U ∧ s ∈ logAll (n.head.results ++ V) ns U) := by
  cases ht : n.head.kind.isTerminator with
  | true =>
    rw [logAll_terminator ht] at h
    cases h
  | false =>
    refine ⟨rfl, ?_⟩
    rw [logAll_cons ht] at h
    rcases mem_append.1 h with h | h
    · exact .inl h
    · cases hU : n.exec S with
      | none =>
        rw [hU] at h
        cases h
      | some U =>
        rw [hU] at h
        exact .inr ⟨U, rfl, h⟩

/-! ## 1. Places -/

/-- **A scene is one of a node at its place.** -/
theorem scene_place (h : s ∈ logAll V ns S) : Place V ns s.visible s.node := by
  induction ns using forest generalizing V S with
  | nil => simp [logAll] at h
  | cons n ns body rest =>
    rcases (mem_logAll_cons h).2 with h | ⟨U, -, h⟩
    · rcases mem_log h with ⟨p, rfl⟩ | ⟨ds, h, -⟩
      · exact .here
      · exact .inside (body h)
    · exact .later (rest h)

/-! ## 2. Stores -/

/-- What is visible around trees has the same data at each scene. -/
theorem scene_frame (ha : Apart V ns) (h : s ∈ logAll V ns S) : ∀ v ∈ V, s.store v = S v := by
  induction ns using forest generalizing V S with
  | nil => simp [logAll] at h
  | cons n ns body rest =>
    intro v hv
    have hout : v ∉ defs [n] := ha.head.outside v hv
    rw [defs_single] at hout
    rcases (mem_logAll_cons h).2 with h | ⟨U, hU, h⟩
    · rcases mem_log h with ⟨p, rfl⟩ | ⟨ds, h, -⟩
      · rfl
      · rw [body ha.head.body h v (mem_append_right _ hv)]
        exact Store.assign_of_notMem fun hmem => hout (by simp [hmem])
    · rw [rest ha.tail h v (mem_append_right _ hv)]
      exact exec_frame hU fun hr => hout (by simp [hr])

/-- **What is visible at a scene and at the end of the block has the same data at both.** -/
theorem scene_store (ha : Apart V ns) (h : s ∈ logAll V ns S) (hT : execAll ns S = some T) :
    ∀ v ∈ s.visible, v ∈ outs ns ++ V → s.store v = T v := by
  induction ns generalizing V S with
  | nil => simp [logAll] at h
  | cons n ns ih =>
    rw [execAll_cons, Option.bind_eq_some_iff] at hT
    obtain ⟨U, hU, hT⟩ := hT
    intro v hvis hv
    have hframe := scene_frame ha h
    rcases (mem_logAll_cons h).2 with h | ⟨U', hU', h⟩
    · -- Inside of the first node only what was visible before is visible at the end too.
      have hinner : v ∈ V ∨ v ∈ n.args ++ defs n.nodes := by
        rcases mem_log h with ⟨p, rfl⟩ | ⟨ds, h, -⟩
        · exact .inl hvis
        · have := (scene_place h).visible v hvis
          grind
      have hmem : v ∈ V := by
        refine hinner.resolve_right fun hin => ?_
        have hnodup := ha.nodup
        rw [defs_cons, defs_single] at hnodup
        rcases mem_append.1 hv with hv | hv
        · have hcases : v ∈ n.head.results ∨ v ∈ defs ns := by
            simp only [outs, flatMap_cons, mem_append] at hv
            exact hv.imp_right fun h => outs_subset_defs ns h
          rw [append_assoc n.head.results, nodup_append] at hnodup
          obtain ⟨hown, -, hdisj⟩ := hnodup
          rcases hcases with hr | hd
          · exact (nodup_append.1 hown).2.2 v hr v hin rfl
          · exact hdisj v (mem_append_right _ hin) v hd rfl
        · refine ha.outside v hv ?_
          rw [defs_cons, defs_single, append_assoc n.head.results]
          exact mem_append_left _ (mem_append_right _ hin)
      have hnotIn : v ∉ outs (n :: ns) := fun hout => ha.outside v hmem (outs_subset_defs _ hout)
      have hcons : v ∉ n.head.results ∧ v ∉ outs ns := by
        simpa [outs] using hnotIn
      rw [hframe v hmem, execAll_frame hT hcons.2, exec_frame hU hcons.1]
    · cases hU.symm.trans hU'
      refine ih ha.tail h hT v hvis ?_
      simp only [outs, flatMap_cons, mem_append] at hv ⊢
      tauto

/-! ## 3. Executions of a node -/

/-- **The scenes of one execution of a node follow one another.** -/
theorem scenes_of_node (h : s ∈ logAll V ns S) :
    s.node.log s.visible s.store <:+: logAll V ns S := by
  induction ns using forest generalizing V S with
  | nil => simp [logAll] at h
  | cons n ns body rest =>
    obtain ⟨ht, hs⟩ := mem_logAll_cons h
    rw [logAll_cons ht]
    rcases hs with hs | ⟨U, hU, hs⟩
    · refine List.IsInfix.trans ?_ (prefix_append _ _).isInfix
      rcases mem_log hs with ⟨p, rfl⟩ | ⟨ds, h, hin⟩
      · exact infix_rfl
      · exact (body h).trans hin
    · rw [hU]
      exact (rest hs).trans (suffix_append _ _).isInfix

end Node

end ConvNest.Program

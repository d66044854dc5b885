import Mathlib
import ValueGraph.Proofs.Runs

namespace ValueGraph

open Program

/-!
# Well-typed programs

Every factory checks its operands, and every edit of an edge checks only that the new
operand has the type of the old one.  That is enough: whatever runs lead to, the
operands of every instruction obey the rule of its kind.
-/

namespace Program

variable {p q : Program}

theorem Shapes.wellTyped {pr : Promise} (shapes : p.Shapes pr q) (hs : p.Sound)
    (wellTyped : p.WellTyped) : q.WellTyped := by
  intro i ongoing
  obtain ⟨ongoingBefore, resembles | ⟨-, conf⟩⟩ := shapes.resembles_or hs ongoing
  · exact (wellTyped i ongoingBefore).of_resembles hs.registry shapes.wanes.table resembles
  · exact conf (wellTyped i ongoingBefore)

theorem kept_wellTyped (pr : Promise) : Kept pr WellTyped where
  grow := by
    intro p q v ty payload hs hsq added blank noInst wellTyped i ongoing
    have ne : i ≠ v := by
      rintro rfl
      obtain ⟨l, h, -⟩ := ongoing
      rw [added.exchanged.link?, Function.update_self] at h
      cases payload <;> simp_all [Payload.inst?, Payload.category]
    have ongoingBefore : p.Ongoing i := by
      refine ongoing.of_link?_eq ?_
      rw [added.exchanged.link?, Function.update_of_ne ne]
    exact (wellTyped i ongoingBefore).of_resembles hs.registry added.waxes.table
      (added.resembles hs hsq ongoingBefore.isLive)
  build := by
    intro p q i ty kind hs built wellTyped inst ongoing
    by_cases eq : inst = i
    · subst eq
      exact built.conforms
    · have ongoingBefore : p.Ongoing inst := by
        refine ongoing.of_link?_eq ?_
        rw [built.link?, Function.update_of_ne eq]
      exact (wellTyped inst ongoingBefore).of_resembles hs.registry (built.waxes hs).table
        (built.resembles hs ongoingBefore.isLive)
  adopt := by
    intro p q i write l hs adopts wellTyped inst ongoing
    have ongoingBefore : p.Ongoing inst := by
      by_cases eq : inst = i
      · subst eq
        exact ⟨l, adopts.relinked.held, by simp [adopts.status]⟩
      · refine ongoing.of_link?_eq ?_
        rw [adopts.relinked.links, Function.update_of_ne eq]
    exact (wellTyped inst ongoingBefore).of_resembles hs.registry
      adopts.relinked.restrings.rearranges.wanes.table (adopts.resembles hs ongoing.isLive)
  shape := fun hs shapes => shapes.wellTyped hs

theorem wellTyped_of_runAll? {name : String} {cfg : Settings} {ops : List Operation} {s : Program}
    (run : (initial name cfg).runAll? ops = some s) : s.WellTyped := by
  refine (runAll?_invariant (fun hs wellTyped _ leads => ?_) (sound_initial name cfg) ?_
    (along_true _ ops) run).2
  · exact (kept_wellTyped _).reaches hs leads.reaches wellTyped
  · rintro i ⟨l, h, -⟩
    simp at h

end Program

end ValueGraph

import Mathlib
import ValueGraph.Audit
import ValueGraph.Proofs.Nesting
import ValueGraph.Proofs.Successors

namespace ValueGraph

open Program

/-!
# Audits of programs that edits have made

The audit derives anew what edits maintain.  In a sound program with tidy edges and
an exact flow graph every reading of the audit succeeds, going through what is nested
under an instruction comes to an end, and nothing is found.
-/

variable {v u : ValueId} {e : EdgeId} {i : InstId} {b : BlockId} {f : FuncId}

namespace Program

variable {s : Program}

@[simp]
theorem report_false (violation : Violation) : report false violation = [] :=
  rfl

/-! ### Edges -/

theorem operandValues_eq_ok (wired : s.Wired) (live : s.isLive u = true) :
    ∃ values, s.operandValues u = .ok values := by
  obtain ⟨n, found⟩ := Arena.contains_iff_get?.mp live
  obtain ⟨values, read⟩ : ∃ values, n.operands.mapM s.edgeValue = .ok values := by
    refine exists_mapM_eq_ok fun e mem => ?_
    rw [← operandsOf_eq found] at mem
    obtain ⟨d, h, -⟩ := wired.edge_of_operand mem
    exact ⟨d.value, edgeValue_eq_ok.mpr ⟨d, h, rfl⟩⟩
  refine ⟨values, ?_⟩
  simp only [operandValues, bind_eq_ok, operands_eq_ok]
  exact ⟨n.operands, ⟨n, found, rfl⟩, read⟩

end Program

end ValueGraph

import Mathlib
import ValueGraph.Proofs.Auditing

namespace ValueGraph

open Program List

/-!
# What an audit without findings certifies

The audit reads any program, also one that no edit could have made.  When it gives an
answer and reports nothing, every operand edge of the instructions in blocks is listed
at both of its ends, every block that holds instructions ends in its only terminator,
and all counts of targets agree with the terminator and with the counts of sources at the
targets.  The counts of sources are looked at from the blocks that lead there only: a
source that does not lead there goes unnoticed.
-/

variable {u : ValueId} {fuel : Nat} {i : InstId} {b src : BlockId} {prev : Option InstId}

theorem eq_ok_nil_of_mapM_flatten {ε α β : Type} {reading : α → Except ε (List β)}
    {items : List α} {answers : List (List β)} (reads : items.mapM reading = .ok answers)
    (nothing : answers.flatten = []) {item : α} (mem : item ∈ items) : reading item = .ok [] := by
  have each := mapM_eq_ok.mp reads
  obtain ⟨k, bound, rfl⟩ := getElem_of_mem mem
  have read := each.get bound (each.length_eq ▸ bound)
  rwa [flatten_eq_nil_iff.mp nothing _ (get_mem ..)] at read

namespace Program

variable {s : Program}

theorem report_eq_nil_iff {cond : Bool} {violation : Violation} :
    report cond violation = [] ↔ cond = false := by
  cases cond <;> simp [report]

/-! ### Edges -/

/-- An operand edge of a user is there, names the user, and is listed by the value that
it reads. -/
def Mirrored (program : Program) (user : ValueId) (edge : EdgeId) : Prop :=
  ∃ data node, program.edges.get? edge = some data ∧ data.user = user ∧
    program.values.get? data.value = some node ∧ edge ∈ node.usedBy

theorem mirrored_of_isListedByValue {e : EdgeId} (listed : s.isListedByValue u e = true) :
    s.Mirrored u e := by
  unfold isListedByValue at listed
  split at listed
  next d found =>
    simp only [Bool.and_eq_true, beq_iff_eq, Option.any_eq_true, contains_eq_mem,
      decide_eq_true_eq] at listed
    obtain ⟨isUser, n, foundNode, mem⟩ := listed
    exact ⟨d, n, found, isUser, foundNode, mem⟩
  next => cases listed

theorem mirrored_of_auditOperands (clean : s.auditOperands u = .ok []) :
    ∃ edges, s.operands u = .ok edges ∧ ∀ e ∈ edges, s.Mirrored u e := by
  simp only [auditOperands, bind_eq_ok, pure_eq_ok, flatMap_eq_nil_iff,
    report_eq_nil_iff, Bool.not_eq_false'] at clean
  obtain ⟨edges, read, listed⟩ := clean
  exact ⟨edges, read, fun e mem => mirrored_of_isListedByValue (listed e mem)⟩

theorem mirrored_of_auditInstWithin (clean : s.auditInstWithin fuel i = .ok []) :
    ∃ edges, s.operands i = .ok edges ∧ ∀ e ∈ edges, s.Mirrored i e := by
  cases fuel with
  | zero => cases clean
  | succ fuel =>
    simp only [auditInstWithin, bind_eq_ok] at clean
    obtain ⟨ops, readOperands, uses, -, values, -, inner, -, rest⟩ := clean
    -- whatever is nested, the findings on the operands stand in front
    have nothing : ops = [] := by
      cases inner with
      | none =>
        rw [pure_eq_ok, append_eq_nil_iff] at rest
        exact rest.1
      | some inner =>
        simp only [bind_eq_ok, pure_eq_ok, append_eq_nil_iff] at rest
        obtain ⟨st, -, findings, -, ⟨⟨none, -⟩, -⟩, -⟩ := rest
        exact none
    exact mirrored_of_auditOperands (nothing ▸ readOperands)

/-! ### Chains -/

/-- What an audit without findings says of a member of a chain. -/
structure Certified (program : Program) (inst : InstId) (isLast : Bool) : Prop where
  operands : ∃ edges, program.operands inst = .ok edges ∧
    ∀ edge ∈ edges, program.Mirrored inst edge
  terminator : isLast = false → program.isTerminator inst = .ok false

theorem certified_of_auditMember {d : Inst} (clean : s.auditMember b prev i = .ok [])
    (h : s.inst i = .ok d) : s.Certified i d.next.isNone := by
  simp only [auditMember, bind_eq_ok, pure_eq_ok, append_eq_nil_iff, report_eq_nil_iff] at clean
  obtain ⟨data, read, findings, within, ⟨-, misplaced⟩, rfl⟩ := clean
  obtain rfl := Except.ok.inj (h.symm.trans read)
  refine ⟨mirrored_of_auditInstWithin within, fun notLast => ?_⟩
  have follows : d.next.isSome = true := by
    cases next : d.next with
    | none => simp [next] at notLast
    | some next => rfl
  simp only [isTerminator, kind, bind_eq_ok, pure_eq_ok]
  refine ⟨d.kind, ⟨d, h, rfl⟩, ?_⟩
  simpa [follows] using misplaced

/-- Along a chain every member is certified, and all but the last are certified to be no
terminators. -/
theorem certified_of_auditMembers {start : Option InstId} {insts : List InstId}
    (chain : s.chainWithin fuel start = .ok insts) (clean : s.auditMembers b prev insts = .ok []) :
    ∀ front i rest, insts = front ++ i :: rest → s.Certified i rest.isEmpty := by
  induction fuel generalizing start prev insts with
  | zero =>
    cases start with
    | none =>
      rw [chainWithin, pure_eq_ok] at chain
      simp [← chain]
    | some first => cases chain
  | succ fuel ih =>
    cases start with
    | none =>
      rw [chainWithin, pure_eq_ok] at chain
      simp [← chain]
    | some first =>
      simp only [chainWithin, bind_eq_ok, pure_eq_ok] at chain
      obtain ⟨d, h, others, behind, rfl⟩ := chain
      simp only [auditMembers, bind_eq_ok, pure_eq_ok, append_eq_nil_iff] at clean
      obtain ⟨_, own, _, later, rfl, rfl⟩ := clean
      intro front i rest split
      cases front with
      | nil =>
        obtain ⟨rfl, rfl⟩ := cons.inj split
        have last : d.next.isNone = others.isEmpty := by
          cases next : d.next with
          | none =>
            rw [next, chainWithin, pure_eq_ok] at behind
            simp [← behind]
          | some next =>
            rw [next] at behind
            cases fuel with
            | zero => cases behind
            | succ fuel =>
              simp only [chainWithin, bind_eq_ok, pure_eq_ok] at behind
              obtain ⟨_, -, _, -, rfl⟩ := behind
              rfl
        exact last ▸ certified_of_auditMember own h
      | cons inst front =>
        exact ih behind later front i rest (cons.inj split).2

theorem certified_of_auditChain (clean : s.auditChain b = .ok []) :
    ∃ d insts, s.block b = .ok d ∧ s.instructions b = .ok insts ∧
      (∀ i ∈ insts, ∃ edges, s.operands i = .ok edges ∧ ∀ e ∈ edges, s.Mirrored i e) ∧
      (d.length ≠ 0 → ∃ front last, insts = front ++ [last] ∧ d.last = some last ∧
        s.isTerminator last = .ok true ∧ ∀ i ∈ front, s.isTerminator i = .ok false) := by
  simp only [auditChain, bind_eq_ok] at clean
  obtain ⟨d, h, insts, read, members, readMembers, clean⟩ := clean
  obtain ⟨nothing, isLast, length, ends⟩ : members = [] ∧ d.last = insts.getLast? ∧
      d.length = insts.length ∧
      ∀ last, insts.getLast? = some last → s.isTerminator last = .ok true := by
    split at clean
    next last found =>
      simp only [bind_eq_ok, pure_eq_ok, append_eq_nil_iff, report_eq_nil_iff,
        Bool.or_eq_false_iff, bne_eq_false_iff_eq] at clean
      obtain ⟨ends, readEnds, _, rfl, ⟨nothing, isLast, length⟩, isEnded⟩ := clean
      refine ⟨nothing, isLast, length, fun inst isOther => ?_⟩
      obtain rfl := Option.mem_unique found isOther
      rw [readEnds, (by simpa using report_eq_nil_iff.mp isEnded : ends = true)]
    next empty =>
      simp only [bind_eq_ok, pure_eq_ok, append_eq_nil_iff, report_eq_nil_iff,
        Bool.or_eq_false_iff, bne_eq_false_iff_eq] at clean
      obtain ⟨_, -, ⟨nothing, isLast, length⟩, -⟩ := clean
      exact ⟨nothing, isLast, length, by simp [empty]⟩
  subst nothing
  have chain := read
  simp only [instructions, chainFrom, bind_eq_ok] at chain
  obtain ⟨_, -, chain⟩ := chain
  have certified := certified_of_auditMembers chain readMembers
  refine ⟨d, insts, h, read, fun i mem => ?_, fun nonempty => ?_⟩
  · obtain ⟨front, rest, split⟩ := append_of_mem mem
    exact (certified front i rest split).operands
  · rw [length, ne_eq, length_eq_zero_iff] at nonempty
    have split := dropLast_append_getLast nonempty
    rw [getLast?_eq_some_getLast nonempty] at isLast
    refine ⟨insts.dropLast, insts.getLast nonempty, split.symm, isLast,
      ends _ (getLast?_eq_some_getLast nonempty), fun i mem => ?_⟩
    obtain ⟨front, rest, parts⟩ := append_of_mem mem
    refine (certified front i (rest ++ [insts.getLast nonempty]) ?_).terminator (by simp)
    rw [← cons_append, ← append_assoc, ← parts, split]

/-! ### The flow graph -/

/-- The blocks that the terminator of a block leads to, with repeats. -/
def flowFrom (program : Program) (block : BlockId) : Except Fault (List BlockId) := do
  match ← program.terminator? block with
  | some terminator => program.targets terminator
  | none => pure []

theorem auditFlow_eq (s : Program) (b : BlockId) :
    s.auditFlow b = do
      let actual ← s.flowFrom b
      let d ← s.block b
      let findings ← (distinct (actual ++ d.jumpsTo.keys)).mapM (s.auditFlowTo b d.jumpsTo actual)
      return findings.flatten := by
  unfold auditFlow flowFrom
  cases s.terminator? b with
  | error fault => rfl
  | ok term => cases term <;> rfl

theorem counts_of_auditFlowTo {tgt : BlockId} {kept : CountMap} {actual : List BlockId}
    (clean : s.auditFlowTo src kept actual tgt = .ok []) :
    kept.count tgt = actual.count tgt ∧ ∃ data, s.block tgt = .ok data ∧
        data.comesFrom.count src = actual.count tgt := by
  unfold auditFlowTo at clean
  split at clean
  next =>
    simp only [bind_eq_ok, pure_eq_ok, report_eq_nil_iff, Bool.or_eq_false_iff,
      bne_eq_false_iff_eq, Bool.not_eq_false'] at clean
    obtain ⟨data, h, _, rfl, eq, answered⟩ := clean
    exact ⟨eq.symm, data, h, (beq_iff_eq.mp answered).trans eq.symm⟩
  next => simp [pure_eq_ok, report] at clean

theorem counts_of_auditFlow (clean : s.auditFlow src = .ok []) :
    ∃ d actual, s.block src = .ok d ∧ s.flowFrom src = .ok actual ∧
      ∀ tgt, d.jumpsTo.count tgt = actual.count tgt ∧
      (tgt ∈ actual → ∃ data, s.block tgt = .ok data ∧
          data.comesFrom.count src = actual.count tgt) := by
  simp only [auditFlow_eq, bind_eq_ok, pure_eq_ok] at clean
  obtain ⟨actual, leads, d, h, findings, readAll, nothing⟩ := clean
  have mentioned : ∀ {tgt}, tgt ∈ actual ++ d.jumpsTo.keys →
      s.auditFlowTo src d.jumpsTo actual tgt = .ok [] := fun mem =>
    eq_ok_nil_of_mapM_flatten readAll nothing (by simpa [distinct, mem_mergeSort] using mem)
  refine ⟨d, actual, h, leads, fun tgt => ⟨?_, fun mem => ?_⟩⟩
  · by_cases mem : tgt ∈ actual ++ d.jumpsTo.keys
    · exact (counts_of_auditFlowTo (mentioned mem)).1
    · rw [mem_append, not_or] at mem
      rw [count_eq_zero.mpr mem.1]
      exact CountMap.countIn_eq_zero mem.2
  · exact (counts_of_auditFlowTo (mentioned (mem_append_left _ mem))).2

/-! ### Functions -/

theorem exists_blocks_of_audit {f : FuncId} (clean : s.audit = .ok []) (listed : f ∈ s.functions) :
    ∃ blocks, s.blocks f = .ok blocks ∧
      ∀ b ∈ blocks, s.auditChain b = .ok [] ∧ s.auditFlow b = .ok [] := by
  simp only [audit, bind_eq_ok, pure_eq_ok, append_eq_nil_iff] at clean
  obtain ⟨globals, -, fns, readFunctions, -, nothing⟩ := clean
  have ofFunction := eq_ok_nil_of_mapM_flatten readFunctions nothing listed
  simp only [auditFunction, bind_eq_ok, pure_eq_ok, append_eq_nil_iff] at ofFunction
  obtain ⟨own, -, params, -, _, -, regs, -, _, -, blocks, read, findings, readBlocks, -,
    noBlocks⟩ := ofFunction
  refine ⟨blocks, read, fun b mem => ?_⟩
  have ofBlock := eq_ok_nil_of_mapM_flatten readBlocks noBlocks mem
  simp only [auditBlock, bind_eq_ok, pure_eq_ok, append_eq_nil_iff] at ofBlock
  obtain ⟨_, -, _, -, _, chain, _, flow, ⟨-, rfl⟩, rfl⟩ := ofBlock
  exact ⟨chain, flow⟩

end Program

/-- When the audit of any program gives an answer and reports nothing, then for each block
of the functions that are listed the counts of targets have every block as often as the
terminator leads there, and so do the counts of sources at every block that the terminator
leads to; every operand edge of its instructions is listed by the value it reads; and if it
holds instructions, it ends in its only terminator. -/
theorem empty_audit_certifies_blocks {program : Program} {function : FuncId}
    (clean : program.audit = .ok []) (listed : function ∈ program.functions) :
    ∃ blocks, program.blocks function = .ok blocks ∧ ∀ source ∈ blocks,
      ∃ data insts actual, program.block source = .ok data ∧
        program.instructions source = .ok insts ∧ program.flowFrom source = .ok actual ∧
        (∀ target, data.jumpsTo.count target = actual.count target ∧
          (target ∈ actual → ∃ other, program.block target = .ok other ∧
            other.comesFrom.count source = actual.count target)) ∧
        (∀ inst ∈ insts, ∃ edges, program.operands inst = .ok edges ∧
          ∀ edge ∈ edges, program.Mirrored inst edge) ∧
        (data.length ≠ 0 → ∃ front last, insts = front ++ [last] ∧ data.last = some last ∧
          program.isTerminator last = .ok true ∧
            ∀ inst ∈ front, program.isTerminator inst = .ok false) := by
  obtain ⟨blocks, read, certified⟩ := exists_blocks_of_audit clean listed
  refine ⟨blocks, read, fun source member => ?_⟩
  obtain ⟨chain, flow⟩ := certified source member
  obtain ⟨data, insts, held, readInsts, mirrored, ends⟩ := certified_of_auditChain chain
  obtain ⟨again, actual, heldAgain, leads, counts⟩ := counts_of_auditFlow flow
  obtain rfl := Except.ok.inj (held.symm.trans heldAgain)
  exact ⟨data, insts, actual, held, readInsts, leads, counts, mirrored, ends⟩

/-- A function of two blocks, the first of which leads to the second. -/
theorem empty_audit_certifies_branch :
    ∃ program, (Program.initial "m" .standard).runAll?
        [.requestType (.function ⟨.void, [], false⟩), .addFunction "f" ⟨13⟩,
          .addBlock ⟨0, 0⟩, .addBlock ⟨0, 0⟩, .buildBr ⟨2, 0⟩, .pushBack ⟨1, 0⟩ ⟨3, 0⟩,
          .buildUnreachable, .pushBack ⟨2, 0⟩ ⟨4, 0⟩] = some program ∧
      ∃ data actual, program.block ⟨1, 0⟩ = .ok data ∧ program.flowFrom ⟨1, 0⟩ = .ok actual ∧
        data.jumpsTo.count ⟨2, 0⟩ = actual.count ⟨2, 0⟩ := by
  refine exists_runAll? fun program run => ?_
  obtain ⟨clean, listed, layout⟩ : program.audit = .ok [] ∧
      program.functions = [⟨0, 0⟩] ∧ program.blocks ⟨0, 0⟩ = .ok [⟨1, 0⟩, ⟨2, 0⟩] := by
    apply holds_of_runAll? run
  obtain ⟨blocks, read, certified⟩ := empty_audit_certifies_blocks clean
    (show (⟨0, 0⟩ : FuncId) ∈ program.functions by simp [listed])
  obtain rfl := Except.ok.inj (layout.symm.trans read)
  obtain ⟨data, insts, actual, held, -, leads, counts, -, -⟩ := certified ⟨1, 0⟩ (by simp)
  exact ⟨data, actual, held, leads, (counts ⟨2, 0⟩).1⟩

/-- A program with other counts of sources at a block. -/
def Program.withSources (program : Program) (block : BlockId) (sources : CountMap) : Program :=
  { program with
    values := program.values.modify block fun node =>
      match node.payload with
      | .block data => { node with payload := .block { data with comesFrom := sources } }
      | _ => node }

/-- The second of two blocks leads nowhere, yet is counted as a source of the first.
The audit does not notice. -/
theorem audit_misses_surplus_source :
    ∃ program, (Program.initial "m" .standard).runAll?
        [.requestType (.function ⟨.void, [], false⟩), .addFunction "f" ⟨13⟩,
          .addBlock ⟨0, 0⟩, .addBlock ⟨0, 0⟩, .buildBr ⟨2, 0⟩, .pushBack ⟨1, 0⟩ ⟨3, 0⟩,
          .buildUnreachable, .pushBack ⟨2, 0⟩ ⟨4, 0⟩] = some program ∧
      (program.withSources ⟨1, 0⟩ (.increment .empty ⟨2, 0⟩)).functions = [⟨0, 0⟩] ∧
      (program.withSources ⟨1, 0⟩ (.increment .empty ⟨2, 0⟩)).blocks ⟨0, 0⟩ = .ok [⟨1, 0⟩, ⟨2, 0⟩] ∧
      (program.withSources ⟨1, 0⟩ (.increment .empty ⟨2, 0⟩)).audit = .ok [] ∧
      (program.withSources ⟨1, 0⟩ (.increment .empty ⟨2, 0⟩)).edgeCount ⟨2, 0⟩ ⟨1, 0⟩ = .ok 0 ∧
      (program.withSources ⟨1, 0⟩ (.increment .empty ⟨2, 0⟩)).predecessors ⟨1, 0⟩ =
        .ok [⟨2, 0⟩] := by
  refine exists_runAll? fun program run => ?_
  apply holds_of_runAll? run

end ValueGraph

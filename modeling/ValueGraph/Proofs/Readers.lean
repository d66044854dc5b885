import Mathlib
import ValueGraph.Proofs.Reachability
import ValueGraph.Proofs.SymbolTable
import ValueGraph.Proofs.Typing

namespace ValueGraph

open Program Option Arena

/-!
# Readings of nodes that are there

Whatever a run leads to, the nodes that are there can be read: the handles that a
reading follows name what the reading takes them for, and the traversals end within
their bounds.  Two readings are left open.  The block around an instruction is found
only if everything that it is nested under is still there, and a call that is
finalized has no callee in front of its arguments.
-/

variable {f : FuncId} {α : Type}

/-- A reading meets no fault. -/
def Answers {α : Type} (reading : Except Fault α) : Prop :=
  ∃ answer, reading = .ok answer

namespace Answers

variable {β : Type} {reading : Except Fault α} {next : α → Except Fault β}

theorem pure (a : α) : Answers (Pure.pure a) :=
  ⟨a, rfl⟩

theorem bind {a : α} (read : reading = .ok a) (rest : Answers (next a)) :
    Answers (reading >>= next) := by
  rw [read]
  exact rest

theorem andThen (first : Answers reading) (rest : ∀ a, Answers (next a)) :
    Answers (reading >>= next) := by
  obtain ⟨a, read⟩ := first
  exact bind read (rest a)

end Answers

namespace Program

variable {s : Program} {v : ValueId} {i : InstId} {b : BlockId}

/-! ### Any node -/

/-- What can be read from any node. -/
structure NodeAnswers (program : Program) (value : ValueId) : Prop where
  type : Answers (program.typeOf value)
  category : Answers (program.category value)
  name : Answers (program.nameOf value)
  operands : Answers (program.operands value)
  operand : ∀ index, Answers (program.operand? value index)
  uses : Answers (program.usedBy value)
  users : Answers (program.users value)
  signed : Answers (program.intValue? value)
  unsigned : Answers (program.uintValue? value)

theorem constant?_answers (live : s.isLive v = true) : Answers (s.constant? v) := by
  rw [isLive_iff, isSome_iff_exists] at live
  obtain ⟨payload, h⟩ := live
  apply Answers.bind (payload_eq_ok.mpr h)
  split <;> exact Answers.pure _

namespace Sound

variable (hs : s.Sound)
include hs

section

variable (live : s.isLive v = true)
include live

theorem nameOf_answers : Answers (s.nameOf v) := by
  obtain ⟨n, found⟩ := contains_iff_get?.mp live
  apply Answers.bind (node_eq_ok.mpr found)
  cases named : n.name with
  | none => exact Answers.pure _
  | some name =>
    have kept := hs.catalogue.labels v name (by simp [name?, found, named])
    have text := Array.getElem?_eq_getElem kept
    exact Answers.bind (names_text_eq_ok.mpr text) (Answers.pure _)

theorem operand?_answers (k : Nat) : Answers (s.operand? v k) := by
  obtain ⟨n, found⟩ := contains_iff_get?.mp live
  apply Answers.bind (operands_eq_ok.mpr ⟨n, found, rfl⟩)
  cases listed : n.operands[k]? with
  | none => exact Answers.pure _
  | some e =>
    have mem : e ∈ s.operandsOf v := by
      rw [operandsOf_eq found]
      exact List.mem_of_getElem? listed
    obtain ⟨d, h, -⟩ := hs.wired.edge_of_operand mem
    exact Answers.bind (edgeValue_eq_ok.mpr ⟨d, h, rfl⟩) (Answers.pure _)

theorem users_answers : Answers (s.users v) := by
  obtain ⟨n, found⟩ := contains_iff_get?.mp live
  apply Answers.bind (usedBy_eq_ok.mpr ⟨n, found, rfl⟩)
  obtain ⟨users, read⟩ : ∃ users, n.usedBy.mapM s.edgeUser = .ok users := by
    refine exists_mapM_eq_ok fun e mem => ?_
    rw [← usesOf_eq found] at mem
    obtain ⟨d, h, -⟩ := hs.wired.edge_of_use mem
    refine ⟨d.user, ?_⟩
    simp only [edgeUser, bind_eq_ok, edge_eq_ok, pure_eq_ok]
    exact ⟨d, h, rfl⟩
  exact Answers.bind read (Answers.pure _)

theorem type_answers :
    ∃ ty, s.typeOf v = .ok ty ∧ Answers (s.types.intBits? ty) ∧ Answers (s.types.isSigned ty) := by
  obtain ⟨n, found⟩ := contains_iff_get?.mp live
  have reg := hs.registry.nodes v n.type (by rw [type?, found, map_some])
  obtain ⟨entry, entered⟩ := reg.exists_entry
  have shape : s.types.shape n.type = .ok entry.shape :=
    TypeTable.shape_eq_ok.mpr ⟨entry, entered, rfl⟩
  refine ⟨n.type, typeOf_eq_ok.mpr ⟨n, found, rfl⟩, ?_, ?_⟩
  all_goals
    apply Answers.bind shape
    split <;> exact Answers.pure _

theorem intValue?_answers : Answers (s.intValue? v) := by
  obtain ⟨ty, readType, bits, sign⟩ := hs.type_answers live
  apply Answers.bind readType
  apply bits.andThen
  intro width
  cases width with
  | none => exact Answers.pure _
  | some width =>
    apply (constant?_answers live).andThen
    intro c
    cases c.bind (·.intBits?) with
    | none => exact Answers.pure _
    | some word =>
      refine sign.andThen fun signed => ?_
      obtain ⟨reading, read⟩ := exists_signedReading word width signed
      exact Answers.bind read (Answers.pure _)

theorem uintValue?_answers : Answers (s.uintValue? v) := by
  obtain ⟨ty, readType, bits, -⟩ := hs.type_answers live
  apply Answers.bind readType
  apply bits.andThen
  intro width
  cases width with
  | none => exact Answers.pure _
  | some width => exact (constant?_answers live).andThen fun _ => Answers.pure _

theorem nodeAnswers : s.NodeAnswers v := by
  obtain ⟨n, found⟩ := contains_iff_get?.mp live
  exact
    { type := ⟨n.type, typeOf_eq_ok.mpr ⟨n, found, rfl⟩⟩
      category := ⟨n.payload.category, by
        simp only [category, bind_eq_ok, payload_eq_ok, pure_eq_ok]
        exact ⟨n.payload, payload?_eq_some_iff.mpr ⟨n, found, rfl⟩, rfl⟩⟩
      name := hs.nameOf_answers live
      operands := ⟨n.operands, operands_eq_ok.mpr ⟨n, found, rfl⟩⟩
      operand := hs.operand?_answers live
      uses := ⟨n.usedBy, usedBy_eq_ok.mpr ⟨n, found, rfl⟩⟩
      users := hs.users_answers live
      signed := hs.intValue?_answers live
      unsigned := hs.uintValue?_answers live }

end

end Sound

/-! ### Instructions -/

/-- What can be read from an instruction, and when the two readings that may meet a fault
do not. -/
structure InstAnswers (program : Program) (inst : InstId) : Prop where
  status : Answers (program.status inst)
  parent : Answers (program.parentBlock? inst)
  nested : Answers (program.nestedValue? inst)
  targets : Answers (program.targets inst)
  cases : Answers (program.switchCases inst)
  default : Answers (program.switchDefault? inst)
  callee : Answers (program.callee? inst)
  incoming : Answers (program.incoming inst)
  entry : ∀ source, Answers (program.incomingValue? inst source)
  complete : Answers (program.isComplete inst)
  enclosing : Answers (program.enclosingBlock? inst) ↔
    ∀ outer, Relation.TransGen program.Holds outer inst → program.isInst outer = true
  arguments : Answers (program.callArguments inst) ↔
    ¬ (program.kind inst = .ok .call ∧ program.operands inst = .ok [])

theorem switch_answers {onSwitch : List Int64 → Except Fault α} {otherwise : α}
    (hi : s.isInst i = true) (reads : ∀ values, Answers (onSwitch values)) :
    Answers (do
      match ← s.switchValues? i with
      | some values => onSwitch values
      | none => return otherwise) := by
  obtain ⟨d, h⟩ := exists_inst?_of_isInst hi
  have values : Answers (s.switchValues? i) := by
    apply Answers.bind (kind_eq_ok.mpr ⟨d, h, rfl⟩)
    split <;> exact Answers.pure _
  apply values.andThen
  intro answer
  cases answer with
  | none => exact Answers.pure _
  | some values => exact reads values

namespace Sound

variable (hs : s.Sound)
include hs

section

variable (hi : s.isInst i = true)
include hi

theorem nestedValue?_answers : Answers (s.nestedValue? i) := by
  apply (hs.operand?_answers (isLive_of_category hi) 1).andThen
  intro inner
  cases inner with
  | none => exact Answers.pure _
  | some inner =>
    dsimp only
    split
    next isInner =>
      obtain ⟨d, h⟩ := exists_inst?_of_isInst isInner
      refine Answers.andThen ?_ fun _ => Answers.pure _
      apply Answers.bind (inst_eq_ok.mpr h)
      split <;> exact Answers.pure _
    next => exact Answers.pure _

theorem blockOperand?_answers (k : Nat) : Answers (s.blockOperand? i k) := by
  apply (hs.operand?_answers (isLive_of_category hi) k).andThen
  intro v
  cases v <;> exact Answers.pure _

theorem casesFrom_answers {values : List Int64} (pos : Nat) :
    Answers (s.casesFrom i pos values) := by
  induction values generalizing pos with
  | nil => exact Answers.pure _
  | cons v rest ih =>
    apply (hs.blockOperand?_answers hi _).andThen
    intro tgt
    apply (ih (pos + 1)).andThen
    intro cases
    cases tgt <;> exact Answers.pure _

theorem callee?_answers : Answers (s.callee? i) := by
  obtain ⟨d, h⟩ := exists_inst?_of_isInst hi
  apply Answers.bind (kind_eq_ok.mpr ⟨d, h, rfl⟩)
  split
  next => exact hs.operand?_answers (isLive_of_category hi) 0
  next => exact Answers.pure _

theorem callArguments_answers_iff :
    Answers (s.callArguments i) ↔ ¬ (s.kind i = .ok .call ∧ s.operands i = .ok []) := by
  obtain ⟨d, h⟩ := exists_inst?_of_isInst hi
  obtain ⟨n, found⟩ := contains_iff_get?.mp (isLive_of_category hi)
  obtain ⟨values, readValues⟩ := operandValues_eq_ok hs.wired (isLive_of_category hi)
  have readKind : s.kind i = .ok d.kind := kind_eq_ok.mpr ⟨d, h, rfl⟩
  have readEdges : s.operands i = .ok n.operands := operands_eq_ok.mpr ⟨n, found, rfl⟩
  have sameLength : n.operands.length = values.length := by
    simp only [operandValues, readEdges, bind_eq_ok, mapM_eq_ok] at readValues
    obtain ⟨_, ⟨⟩, read⟩ := readValues
    exact read.length_eq
  rw [callArguments, readKind, readEdges]
  cases d.kind
  case call =>
    cases values with
    | nil =>
      have empty := List.length_eq_zero_iff.mp sameLength
      refine iff_of_false ?_ (not_not_intro ⟨rfl, congrArg _ empty⟩)
      rintro ⟨a, read⟩
      rw [readValues] at read
      exact absurd read (by rintro ⟨⟩)
    | cons first rest =>
      refine iff_of_true (.bind rfl (.bind readValues (.pure _))) ?_
      rintro ⟨-, empty⟩
      injection empty with empty
      simp [empty] at sameLength
  all_goals exact iff_of_true (Answers.pure _) (by rintro ⟨⟨⟩, -⟩)

end

theorem entryAmong?_answers {src : BlockId} {edges : List EdgeId}
    (listed : ∀ e ∈ edges, e ∈ s.operandsOf i) : Answers (s.entryAmong? src edges) := by
  induction edges with
  | nil => exact Answers.pure _
  | cons e rest ih =>
    obtain ⟨d, h, -⟩ := hs.wired.edge_of_operand (listed e (by simp))
    apply Answers.bind (edgeSlot_eq_ok.mpr ⟨d, h, rfl⟩)
    split
    next => exact Answers.pure _
    next => exact ih fun edge mem => listed edge (by simp [mem])

theorem incomingValue?_answers (hi : s.isInst i = true) (src : BlockId) :
    Answers (s.incomingValue? i src) := by
  obtain ⟨n, found⟩ := contains_iff_get?.mp (isLive_of_category hi)
  have entry : Answers (s.entryFor? i src) := by
    apply Answers.bind (operands_eq_ok.mpr ⟨n, found, rfl⟩)
    apply hs.entryAmong?_answers
    exact fun e mem => by rwa [operandsOf_eq found]
  obtain ⟨a, read⟩ := entry
  apply Answers.bind read
  cases a with
  | none => exact Answers.pure _
  | some e =>
    simp only [entryFor?, bind_eq_ok] at read
    obtain ⟨_, -, readAmong⟩ := read
    obtain ⟨-, d, h, -⟩ := entryAmong?_eq_some readAmong
    exact Answers.bind (edgeValue_eq_ok.mpr ⟨d, h, rfl⟩) (Answers.pure _)

theorem mem_threads_of_home? (home : s.home? i = some b) : i ∈ s.threads b := by
  cases h : s.link? i with
  | none => simp [home?, h] at home
  | some l =>
    have conn : l.status = .connected := by
      by_contra apart
      rw [home?, h, bind_some] at home
      obtain ⟨-, -, ⟨-, out⟩ | ⟨-, write, holder⟩⟩ := hs.chains.unchained i l h apart
      · rw [out] at home
        exact absurd home (by simp [Holder.home?])
      · rw [holder] at home
        exact absurd home (by simp [Holder.home?])
    exact hs.mem_threads h conn home

theorem isBlock_of_home? (home : s.home? i = some b) : s.isBlock b = true :=
  hs.isBlock_of_mem_threads (hs.mem_threads_of_home? home)

theorem isComplete_answers (hi : s.isInst i = true) : Answers (s.isComplete i) := by
  apply Answers.bind (parentBlock?_eq_ok.mpr ⟨hi, rfl⟩)
  cases home : s.home? i with
  | none => exact Answers.pure _
  | some b =>
    obtain ⟨d, h⟩ := isBlock_iff.mp (hs.isBlock_of_home? home)
    apply Answers.bind (incoming_eq_ok hs.wired (isLive_of_category hi))
    exact Answers.bind (block_eq_ok.mpr h) (Answers.pure _)

theorem callArguments_answers (wellTyped : s.WellTyped) (ongoing : s.Ongoing i) :
    Answers (s.callArguments i) := by
  obtain ⟨kind, own, facets, hKind, -, seen, accepts⟩ := wellTyped i ongoing
  obtain ⟨l, hLink, -⟩ := ongoing
  rw [hs.callArguments_answers_iff (isInst_of_link? hLink)]
  rintro ⟨readKind, readEdges⟩
  obtain ⟨d, h, isCall⟩ := kind_eq_ok.mp readKind
  obtain ⟨n, found, empty⟩ := operands_eq_ok.mp readEdges
  have noFacets : facets = [] := by
    rw [operandsOf_eq found, empty, List.map_nil] at seen
    exact List.map_eq_nil_iff.mp seen.symm
  have call : kind = .call := by
    rw [kind?, h, map_some, isCall] at hKind
    exact (some.inj hKind).symm
  subst call noFacets
  obtain ⟨count, slots⟩ := accepts.lays
  simp at slots

end Sound

theorem isInst_of_enclosingBlockWithin {fuel : Nat} {a : Option BlockId} {outer : InstId}
    (read : s.enclosingBlockWithin fuel i = .ok a) (path : Relation.TransGen s.Holds outer i) :
    s.isInst outer = true := by
  induction fuel generalizing i with
  | zero => simp [enclosingBlockWithin] at read
  | succ fuel ih =>
    obtain ⟨m, first, l, hLink, holder⟩ := Relation.TransGen.tail'_iff.mp path
    obtain ⟨d, h, rfl⟩ := map_eq_some_iff.mp hLink
    have inner : s.enclosingBlockWithin fuel m = .ok a := by
      have sameHolder : d.holder = some (.inst m) := holder
      simp only [enclosingBlockWithin, bind_eq_ok, inst_eq_ok] at read
      obtain ⟨_, h', read⟩ := read
      obtain rfl := mem_unique h h'
      rwa [sameHolder] at read
    rcases Relation.reflTransGen_iff_eq_or_transGen.mp first with eq | path
    · subst eq
      cases fuel with
      | zero => simp [enclosingBlockWithin] at inner
      | succ fuel =>
        rw [enclosingBlockWithin] at inner
        obtain ⟨d, read, -⟩ := bind_eq_ok.mp inner
        simp [isInst_eq, link?, inst_eq_ok.mp read]
    · exact ih inner path

theorem enclosingBlock?_answers_iff (rooted : s.Rooted) (hi : s.isInst i = true) :
    Answers (s.enclosingBlock? i) ↔
      ∀ outer, Relation.TransGen s.Holds outer i → s.isInst outer = true := by
  constructor
  · rintro ⟨a, read⟩
    exact fun outer path => isInst_of_enclosingBlockWithin read path
  · intro out
    exact enclosingBlockWithin_of_path rooted out hi (.nil _ _ _) (by simp)

theorem Sound.instAnswers (hs : s.Sound) (rooted : s.Rooted) (hi : s.isInst i = true) :
    s.InstAnswers i where
  status := by
    obtain ⟨d, h⟩ := exists_inst?_of_isInst hi
    exact ⟨_, status_eq_ok.mpr ⟨d, h, rfl⟩⟩
  parent := ⟨_, parentBlock?_eq_ok.mpr ⟨hi, rfl⟩⟩
  nested := hs.nestedValue?_answers hi
  targets := ⟨_, hs.wired.targets_eq_ok hi⟩
  cases := switch_answers hi fun _ => hs.casesFrom_answers hi _
  default := switch_answers hi fun _ => hs.blockOperand?_answers hi _
  callee := hs.callee?_answers hi
  incoming := ⟨_, incoming_eq_ok hs.wired (isLive_of_category hi)⟩
  entry := hs.incomingValue?_answers hi
  complete := hs.isComplete_answers hi
  enclosing := enclosingBlock?_answers_iff rooted hi
  arguments := hs.callArguments_answers_iff hi

/-! ### Blocks, functions and the rest -/

/-- What can be read from a block. -/
structure BlockAnswers (program : Program) (block : BlockId) : Prop where
  instructions : Answers (program.instructions block)
  successors : Answers (program.successors block)
  predecessors : Answers (program.predecessors block)
  edgeCount : ∀ target, Answers (program.edgeCount block target)

theorem Sound.blockAnswers (hs : s.Sound) (hb : s.isBlock b = true) : s.BlockAnswers b := by
  obtain ⟨d, h⟩ := isBlock_iff.mp hb
  have read : s.block b = .ok d := block_eq_ok.mpr h
  constructor
  · exact ⟨_, hs.chains.instructions_eq_ok hb⟩
  · exact ⟨_, hs.successors_eq_ok hb⟩
  · exact Answers.bind read (Answers.pure _)
  · exact fun tgt => Answers.bind read (Answers.pure _)

/-- What can be read from a function. -/
structure FunctionAnswers (program : Program) (function : FuncId) : Prop where
  params : Answers (program.params function)
  blocks : Answers (program.blocks function)
  registers : Answers (program.registers function)
  postorder : Answers (program.postorder function)

theorem Sound.functionAnswers (hs : s.Sound) (isFn : s.isFunction f = true) :
    s.FunctionAnswers f := by
  rw [isFunction_eq, isSome_iff_exists] at isFn
  obtain ⟨d, h⟩ := isFn
  have reading : s.function f = .ok d := function_eq_ok.mpr h
  constructor
  · exact Answers.bind reading (Answers.pure _)
  · exact Answers.bind reading (Answers.pure _)
  · exact Answers.bind reading (Answers.pure _)
  · obtain ⟨order, read, -⟩ := hs.postorder_eq_ok h
    exact ⟨order, read⟩

theorem Charted.reachableBlocks_answers (charted : s.Charted) (hs : s.Sound)
    (isFn : s.isFunction f = true) : Answers (s.reachableBlocks f) := by
  rw [isFunction_eq, isSome_iff_exists] at isFn
  obtain ⟨d, h⟩ := isFn
  obtain ⟨set, read, -⟩ := reachableSet_spec hs charted.flowing charted.keyed h
  exact ⟨_, reachableBlocks_eq_ok h read⟩

end Program

/-- Wherever a run leads, whatever is there can be read.  Two readings need more than that:
the block around an instruction is found if and only if all that the instruction is nested
under is there, and a call tells its arguments if and only if it has operands, which it has
until it is finalized. -/
theorem live_nodes_answer_readings {name : String} {settings : Settings}
    {operations : List Operation} {program : Program}
    (run : (Program.initial name settings).runAll? operations = some program) :
    (∀ value, program.isLive value = true → program.NodeAnswers value) ∧
    (∀ inst, program.isInst inst = true → program.InstAnswers inst ∧
      (program.status inst ≠ .ok .finalized → Answers (program.callArguments inst))) ∧
    (∀ block, program.isBlock block = true → program.BlockAnswers block) ∧
    (∀ function, program.isFunction function = true → program.FunctionAnswers function ∧
      (operations.length < 2 ^ 32 → Answers (program.reachableBlocks function))) ∧
    (∀ register, program.isRegister register = true → (program.register? register).isSome) ∧
    ∀ global, program.isGlobal global = true → Answers (program.initializer? global) := by
  have sound := sound_of_runAll? run
  have rooted := rooted_of_runAll? run
  have wellTyped := wellTyped_of_runAll? run
  refine ⟨fun value live => sound.nodeAnswers live, fun inst isInst => ⟨?_, fun ongoing => ?_⟩,
    fun block isBlock => sound.blockAnswers isBlock, fun function isFunction =>
      ⟨?_, fun short => ?_⟩,
    fun register isRegister => ?_, fun global isGlobal => ?_⟩
  · exact sound.instAnswers rooted isInst
  · obtain ⟨data, held⟩ := exists_inst?_of_isInst isInst
    refine sound.callArguments_answers wellTyped ⟨data.link, ?_, fun finalized => ongoing ?_⟩
    · exact link?_of_inst? held
    · exact status_eq_ok.mpr ⟨data, held, finalized⟩
  · exact sound.functionAnswers isFunction
  · exact (charted_of_runAll? run short).reachableBlocks_answers sound isFunction
  · rwa [isRegister_eq] at isRegister
  · exact sound.operand?_answers (isLive_of_isSymbol (.inr isGlobal)) 0

/-- Everything can be read from a call while it is not finalized, and from the function it
stands in. -/
theorem standing_call_answers_readings :
    ∃ program, (Program.initial "m" .standard).runAll?
        [.requestType (.function ⟨.void, [], false⟩), .addFunction "f" ⟨13⟩, .addBlock ⟨0, 0⟩,
          .buildUnreachable, .pushBack ⟨1, 0⟩ ⟨2, 0⟩, .buildCall ⟨0, 0⟩ [],
          .pushFront ⟨1, 0⟩ ⟨3, 0⟩] = some program ∧
      program.isInst ⟨3, 0⟩ = true ∧ program.isFunction ⟨0, 0⟩ = true ∧
      program.InstAnswers ⟨3, 0⟩ ∧ Answers (program.callArguments ⟨3, 0⟩) ∧
      Answers (program.reachableBlocks ⟨0, 0⟩) := by
  refine exists_runAll? fun program run => ?_
  obtain ⟨isInst, isFunction, connected⟩ : program.isInst ⟨3, 0⟩ = true ∧
      program.isFunction ⟨0, 0⟩ = true ∧ program.status ⟨3, 0⟩ = .ok .connected := by
    apply holds_of_runAll? run
  obtain ⟨-, insts, -, functions, -⟩ := live_nodes_answer_readings run
  obtain ⟨answers, arguments⟩ := insts _ isInst
  exact ⟨isInst, isFunction, answers, arguments (by rw [connected]; rintro ⟨⟩),
    (functions _ isFunction).2 (by decide)⟩

/-- A call that is finalized is still there but its arguments cannot be read; nor can the
block around an instruction whose register write was erased without it. -/
theorem finalized_call_has_no_arguments :
    (∃ program, (Program.initial "m" .standard).runAll?
        [.requestType (.function ⟨.void, [], false⟩), .addFunction "f" ⟨13⟩,
          .buildCall ⟨0, 0⟩ [], .finalize ⟨1, 0⟩] = some program ∧
      program.isInst ⟨1, 0⟩ = true ∧
      program.callee? ⟨1, 0⟩ = .ok none ∧
      program.callArguments ⟨1, 0⟩ = .error (.cutPastEnd 1 0)) ∧
    ∃ program, (Program.initial "m" .standard).runAll?
        [.requestType (.function ⟨.void, [], false⟩), .addFunction "f" ⟨13⟩,
          .enableRegisters ⟨0, 0⟩, .allocateRegister ⟨0, 0⟩ ⟨5⟩, .constSigned ⟨5⟩ 1,
          .buildBinary .add ⟨2, 0⟩ ⟨2, 0⟩, .buildRegWrite ⟨1, 0⟩ ⟨3, 0⟩,
          .setUse ⟨3, 0⟩ (some ⟨2, 0⟩), .eraseInstruction ⟨4, 0⟩] = some program ∧
      program.isInst ⟨3, 0⟩ = true ∧
      program.enclosingBlock? ⟨3, 0⟩ = .error (.stale 4 0) := by
  refine ⟨exists_runAll? fun program run => ?_, exists_runAll? fun program run => ?_⟩
  · apply holds_of_runAll? run
  · apply holds_of_runAll? run

end ValueGraph

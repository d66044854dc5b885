import Mathlib
import ValueGraph.Proofs.Progress

namespace ValueGraph

/-!
# Tables of conversions

Three tables say how a scalar becomes another: the ways that there are, the rule of each
operator, and the operator that the types suggest.  All three depend on what kinds of scalars
there are and on their widths only, and they agree: there is a way exactly if some operator
applies, and an operator that is suggested applies.
-/

variable {k k' : ScalarKind} {bits bits' : Nat} {t : TypeTable} {src tgt : TypeId} {p : Program}
  {v : ValueId}

/-- What a scalar is apart from its width. -/
inductive ScalarKind where
  | int (signed : Bool)
  | float
  | pointer
deriving DecidableEq

namespace ScalarKind

def isInt : ScalarKind → Bool
  | .int _ => true
  | _ => false

def isSigned : ScalarKind → Bool
  | .int signed => signed
  | _ => false

/-- Whether there is a way from one kind to the other at all. -/
def converts : ScalarKind → ScalarKind → Bool
  | .float, .pointer | .pointer, .float => false
  | _, _ => true

/-- Whether an operator applies between kinds and widths. -/
def takes (source target : ScalarKind) (bits bits' : Nat) : CastOp → Bool
  | .trunc => source.isInt && target.isInt && bits' < bits
  | .zext | .sext => source.isInt && target.isInt && bits < bits'
  | .fpTrunc => source == .float && target == .float && bits' < bits
  | .fpExt => source == .float && target == .float && bits < bits'
  | .fpToInt => source == .float && target.isInt
  | .intToFp => source.isInt && target == .float
  | .ptrToInt => source == .pointer && target.isInt
  | .intToPtr => source.isInt && target == .pointer
  | .bitcast => source.converts target && bits == bits'

/-- The operator that kinds and widths suggest. -/
def suggests (source target : ScalarKind) (bits bits' : Nat) : Option CastOp :=
  if source.isInt && target.isInt then
    some (if bits < bits' then if source.isSigned then .sext else .zext
      else if bits' < bits then .trunc else .bitcast)
  else if source == .float && target == .float then
    some (if bits < bits' then .fpExt else if bits' < bits then .fpTrunc else .bitcast)
  else if source.converts target && bits == bits' then
    some .bitcast
  else
    none

/-- An operator that is suggested applies. -/
theorem takes_of_suggests {op : CastOp} (suggested : k.suggests k' bits bits' = some op) :
    k.takes k' bits bits' op = true := by
  unfold suggests at suggested
  split at suggested
  next ints =>
    obtain rfl := Option.some.inj suggested
    have ways : k.converts k' = true := by cases k <;> cases k' <;> simp_all [isInt, converts]
    split
    next wider => split <;> simp [takes, ints, wider]
    next =>
      split
      next narrower => simp [takes, ints, narrower]
      next => simp [takes, ways]; omega
  next =>
    split at suggested
    next floats =>
      obtain rfl := Option.some.inj suggested
      have ways : k.converts k' = true := by cases k <;> cases k' <;> simp_all [converts]
      split
      next wider => simp [takes, floats, wider]
      next =>
        split
        next narrower => simp [takes, floats, narrower]
        next => simp [takes, ways]; omega
    next =>
      split at suggested
      next same =>
        obtain rfl := Option.some.inj suggested
        exact same
      next => cases suggested

/-- Something is suggested between integers, between floats, and where bits can be read anew. -/
theorem isSome_suggests_iff : (k.suggests k' bits bits').isSome = true ↔
    k.isInt = true ∧ k'.isInt = true ∨ k = .float ∧ k' = .float ∨
      k.takes k' bits bits' .bitcast = true := by
  unfold suggests takes
  split
  next ints => simp_all
  next ints =>
    split
    next floats => simp_all
    next floats => split <;> simp_all

/-- There is a way exactly if some operator applies. -/
theorem converts_iff (pointers : k = .pointer → k' = .pointer → bits = bits') :
    k.converts k' = true ↔ ∃ op, k.takes k' bits bits' op = true := by
  constructor
  · intro ways
    cases k with
    | int signed =>
      cases k' with
      | int signed' => exact ⟨_, takes_of_suggests rfl⟩
      | float => exact ⟨.intToFp, rfl⟩
      | pointer => exact ⟨.intToPtr, rfl⟩
    | float =>
      cases k' with
      | int signed' => exact ⟨.fpToInt, rfl⟩
      | float => exact ⟨_, takes_of_suggests rfl⟩
      | pointer => cases ways
    | pointer =>
      cases k' with
      | int signed' => exact ⟨.ptrToInt, rfl⟩
      | float => cases ways
      | pointer => exact ⟨.bitcast, by simp [takes, converts, pointers rfl rfl]⟩
  · rintro ⟨op, applies⟩
    cases op <;> cases k <;> cases k' <;> simp [takes, converts, isInt] at applies ⊢

end ScalarKind

/-! ### Types that are scalars -/

/-- The kind of a layer that is a scalar. -/
def Shape.scalarKind? : Shape → Option ScalarKind
  | .int _ signed => some (.int signed)
  | .float _ _ _ => some .float
  | .pointer _ => some .pointer
  | _ => none

namespace TypeTable

/-- A scalar type of a kind and a width. -/
structure Scalar (table : TypeTable) (type : TypeId) (kind : ScalarKind) (width : Nat) : Prop where
  shape : ∃ shape, table.shape type = .ok shape ∧ shape.scalarKind? = some kind
  bits : table.scalarBits? type = .ok (some width)
  intBits : table.intBits? type = .ok (if kind.isInt then some width else none)
  floatBits : table.floatBits? type = .ok (if kind = .float then some width else none)
  isInt : table.isInt type = .ok kind.isInt
  isFloat : table.isFloat type = .ok (kind == .float)
  isPointer : table.isPointer type = .ok (kind == .pointer)
  isSigned : table.isSigned type = .ok kind.isSigned
  isStorable : table.isStorable type = .ok true
  ofPointer : kind = .pointer → width = table.pointerBits.toNat

/-- A type with a width is a scalar. -/
theorem exists_scalar (read : t.scalarBits? src = .ok (some bits)) : ∃ k, t.Scalar src k bits := by
  obtain ⟨shape, isShape, width⟩ := bind_eq_ok.mp read
  cases kind : shape.scalarKind? with
  | none => cases shape <;> cases kind <;> cases width
  | some k =>
    have float : t.floatBits? src = .ok (if k = .float then some bits else none) := by
      rw [floatBits?, isShape]
      cases shape <;> cases kind
      case float => exact width
      all_goals rfl
    have int : t.intBits? src = .ok (if k.isInt then some bits else none) := by
      rw [intBits?, isShape]
      cases shape <;> cases kind
      case int => exact width
      all_goals rfl
    refine ⟨k, ⟨shape, isShape, kind⟩, read, int, float, ?_, ?_, ?_, ?_, ?_, ?_⟩
    · rw [isInt, isShape]
      cases shape <;> cases kind <;> rfl
    · rw [isFloat, isShape]
      cases shape <;> cases kind <;> rfl
    · rw [isPointer, isShape]
      cases shape <;> cases kind <;> rfl
    · rw [isSigned, isShape]
      cases shape <;> cases kind <;> rfl
    · rw [isStorable, storableWithin, isShape]
      cases shape <;> cases kind <;> rfl
    · rintro rfl
      cases shape <;> cases kind
      exact (Option.some.inj (Except.ok.inj width)).symm

variable (lay : t.Layered) (source : t.Scalar src k bits) (target : t.Scalar tgt k' bits')
include lay source target

/-- The ways between scalars. -/
theorem Scalar.conversions_eq : ∃ ways, t.conversions src tgt = .ok ways ∧
    (ways ≠ .none ↔ k.converts k' = true) ∧ ways.reinterpret = k.takes k' bits bits' .bitcast := by
  obtain ⟨shape, isShape, kind⟩ := source.shape
  obtain ⟨shape', isShape', kind'⟩ := target.shape
  have reg := registered_of_shape isShape
  have reg' := registered_of_shape isShape'
  obtain ⟨same, equal⟩ := lay.equal_answers reg reg'
  have dropped := lay.dropsConstWithin_eq reg reg' (Nat.lt_succ_self _)
  have width : t.sameWidth src tgt = .ok (bits == bits') := by
    rw [sameWidth, source.bits, target.bits]
    rfl
  simp only [conversions, width, equal, dropsConst, dropped, bind, Except.bind]
  cases same with
  | true =>
    have trees := (lay.equal_iff reg reg').mp equal
    have ways : k.converts k' = true := by
      have float := source.isFloat
      rw [@isFloat_eq .plain _ _ lay reg, trees, ← @isFloat_eq .plain _ _ lay reg',
        target.isFloat] at float
      have float := Except.ok.inj float
      cases k <;> cases k' <;> simp [ScalarKind.converts] at float ⊢
    exact ⟨_, rfl, by simp [ways, Conversions.none], by simp [ScalarKind.takes, ways]⟩
  | false =>
    have pointers : k = .pointer → k' = .pointer → bits = bits' := fun first second =>
      (source.ofPointer first).trans (target.ofPointer second).symm
    simp only [isShape, isShape', Bool.false_eq_true, if_false]
    cases shape <;> cases kind <;> cases shape' <;> cases kind' <;>
      exact ⟨_, rfl, by simp [Conversions.none, ScalarKind.converts],
        by simp [ScalarKind.takes, ScalarKind.converts, Conversions.none, pointers]⟩

/-- The rules of the operators between scalars. -/
theorem Scalar.castApplies_eq (op : CastOp) :
    t.castApplies op src tgt = .ok (k.takes k' bits bits' op) := by
  obtain ⟨ways, conversions, -, reinterpret⟩ := source.conversions_eq lay target
  cases op
  case bitcast =>
    rw [castApplies, conversions]
    exact congrArg Except.ok reinterpret
  all_goals
    simp only [castApplies, source.intBits, target.intBits, source.floatBits, target.floatBits,
      source.isInt, target.isInt, source.isFloat, target.isFloat, source.isPointer,
      target.isPointer, bind, Except.bind]
    cases k <;> cases k' <;> rfl

/-- The operator that scalars suggest. -/
theorem Scalar.pickCast?_eq : t.pickCast? src tgt = .ok (k.suggests k' bits bits') := by
  obtain ⟨ways, conversions, -, reinterpret⟩ := source.conversions_eq lay target
  simp only [pickCast?, source.intBits, target.intBits, source.floatBits, target.floatBits,
    source.isSigned, conversions, reinterpret, bind, Except.bind]
  cases k <;> cases k' <;> rfl

end TypeTable

/-! ### Building conversions -/

section Building

variable (hs : p.Sound) (operand : p.operandType v .castOperand = .ok src)
  (source : p.types.Scalar src k bits) (target : p.types.Scalar tgt k' bits')
include hs operand source target

theorem buildCast_eq (op : CastOp) : buildCast op v tgt p =
    if k.takes k' bits bits' op then Edit.perform (Step.addInst tgt (.cast op) [(.fixed 0, v)]) p
    else .refused (.edit (.typeMismatch src (.castApplies op))) p := by
  have applies := source.castApplies_eq hs.registry.layered target op
  have storable : p.requireStorable tgt .castTargetIsStorable = .ok () := by
    rw [Program.requireStorable, target.isStorable]
    rfl
  simp only [buildCast, Edit.plan, Program.planCast, operand, storable, applies, bind, Except.bind]
  cases k.takes k' bits bits' op <;> rfl

theorem exists_buildCast_iff (op : CastOp) :
    (∃ inst after, buildCast op v tgt p = .done inst after) ↔ k.takes k' bits bits' op = true := by
  rw [buildCast_eq hs operand source target]
  constructor
  · rintro ⟨inst, after, done⟩
    split at done
    next applies => exact applies
    next => cases done
  · intro applies
    obtain ⟨n, found, -⟩ := Option.map_eq_some_iff.mp (Program.operandType_eq_ok operand)
    obtain ⟨i, q, run⟩ : (Step.addInst tgt (.cast op) [(.fixed 0, v)]).Succeeds p :=
      Step.addInst_succeeds hs.stored (Arena.contains_iff_get?.mpr ⟨n, found⟩)
    exact ⟨i, q, by rw [if_pos applies, Edit.perform_eq_done.mpr run]⟩

theorem buildAutomaticCast_eq : buildAutomaticCast v tgt p =
    match k.suggests k' bits bits' with
    | some op => buildCast op v tgt p
    | none => .refused (.edit (.typeMismatch tgt .castExists)) p := by
  have picked := source.pickCast?_eq hs.registry.layered target
  simp only [buildAutomaticCast, buildCast, Edit.plan, operand, picked, bind, Except.bind]
  cases k.suggests k' bits bits' <;> rfl

end Building

/-- Whether widths call for an operator that widens, one that narrows, or a reading of the bits. -/
def FitsWidths (widen narrow : CastOp) (bits bits' : Nat) (op : CastOp) : Prop :=
  (bits < bits' → op = widen) ∧ (bits' < bits → op = narrow) ∧ (bits = bits' → op = .bitcast)

theorem fitsWidths_ite (widen narrow : CastOp) (bits bits' : Nat) :
    FitsWidths widen narrow bits bits'
    (if bits < bits' then widen else if bits' < bits then narrow else .bitcast) := by
  refine ⟨fun wider => if_pos wider, fun narrower => ?_, ?_⟩
  · rw [if_neg (by omega), if_pos narrower]
  · rintro rfl
    simp

/-- The ways between two types, the conversions that can be built from a value of the first, and
the operator that the types suggest belong together. -/
structure Program.CastsAgree (program : Program) (value : ValueId) (source target : TypeId)
    (bits bits' : Nat) (ways : Conversions) (pick : Option CastOp) : Prop where
  exists_iff : ways ≠ .none ↔ ∃ op inst after, buildCast op value target program = .done inst after
  picked : ∀ op, pick = some op → ∃ inst after,
    buildCast op value target program = .done inst after ∧
    buildAutomaticCast value target program = .done inst after
  unpicked : pick = none → buildAutomaticCast value target program =
    .refused (.edit (.typeMismatch target .castExists)) program
  isSome_iff : pick.isSome = true ↔
    program.types.isInt source = .ok true ∧ program.types.isInt target = .ok true ∨
    program.types.isFloat source = .ok true ∧ program.types.isFloat target = .ok true ∨
    ways.reinterpret = true
  ints : ∀ op, pick = some op → program.types.isInt source = .ok true →
    program.types.isInt target = .ok true → ∃ signed, program.types.isSigned source = .ok signed ∧
      FitsWidths (if signed then .sext else .zext) .trunc bits bits' op
  floats : ∀ op, pick = some op → program.types.isFloat source = .ok true →
    program.types.isFloat target = .ok true → FitsWidths .fpExt .fpTrunc bits bits' op

/-- The tables of conversions agree on scalars: there is a way exactly if some operator builds a
conversion, and the operator that the types suggest builds one.  One is suggested between integers,
between floats, and where the bits can be read anew; otherwise the target is refused. -/
theorem cast_tables_agree {name : String} {settings : Settings} {operations : List Operation}
    {program : Program} {value : ValueId} {source target : TypeId} {bits bits' : Nat}
    (run : (Program.initial name settings).runAll? operations = some program)
    (operand : program.operandType value .castOperand = .ok source)
    (scalar : program.types.scalarBits? source = .ok (some bits))
    (scalar' : program.types.scalarBits? target = .ok (some bits')) :
    ∃ ways pick, program.types.conversions source target = .ok ways ∧
      program.types.pickCast? source target = .ok pick ∧
      program.CastsAgree value source target bits bits' ways pick := by
  have sound := Program.sound_of_runAll? run
  obtain ⟨kind, isScalar⟩ := TypeTable.exists_scalar scalar
  obtain ⟨kind', isScalar'⟩ := TypeTable.exists_scalar scalar'
  obtain ⟨ways, conversions, some_iff, reinterpret⟩ :=
    isScalar.conversions_eq sound.registry.layered isScalar'
  have builds := exists_buildCast_iff sound operand isScalar isScalar'
  have automatic := buildAutomaticCast_eq sound operand isScalar isScalar'
  refine ⟨ways, _, conversions, isScalar.pickCast?_eq sound.registry.layered isScalar',
    ⟨?_, fun op picked => ?_, fun nothing => ?_, ?_, fun op picked int int' => ?_,
      fun op picked float float' => ?_⟩⟩
  · rw [some_iff, ScalarKind.converts_iff fun pointer pointer' =>
      (isScalar.ofPointer pointer).trans (isScalar'.ofPointer pointer').symm]
    simp only [builds]
  · obtain ⟨inst, after, done⟩ := (builds op).mpr (ScalarKind.takes_of_suggests picked)
    exact ⟨inst, after, done, by rw [automatic, picked, ← done]⟩
  · rw [automatic, nothing]
  · rw [ScalarKind.isSome_suggests_iff, reinterpret, isScalar.isInt, isScalar'.isInt,
      isScalar.isFloat, isScalar'.isFloat]
    simp
  · have ints : (kind.isInt && kind'.isInt) = true := by
      rw [Except.ok.inj (isScalar.isInt.symm.trans int),
        Except.ok.inj (isScalar'.isInt.symm.trans int')]
      rfl
    rw [ScalarKind.suggests, if_pos ints] at picked
    exact ⟨_, isScalar.isSigned, Option.some.inj picked ▸ fitsWidths_ite _ _ _ _⟩
  · have floats : (kind == .float && kind' == .float) = true := by
      rw [Except.ok.inj (isScalar.isFloat.symm.trans float),
        Except.ok.inj (isScalar'.isFloat.symm.trans float')]
      rfl
    have ints : ¬ (kind.isInt && kind'.isInt) = true := by
      cases kind <;> simp [ScalarKind.isInt] at floats ⊢
    rw [ScalarKind.suggests, if_neg ints, if_pos floats] at picked
    exact Option.some.inj picked ▸ fitsWidths_ite _ _ _ _

/-- A signed byte is widened to 32 bits by extending its sign. -/
theorem byte_is_sign_extended :
    ∃ program, (Program.initial "m" .standard).runAll? [.constSigned ⟨3⟩ 7] = some program ∧
      program.operandType ⟨0, 0⟩ .castOperand = .ok ⟨3⟩ ∧
      program.types.scalarBits? ⟨3⟩ = .ok (some 8) ∧
      program.types.scalarBits? ⟨5⟩ = .ok (some 32) ∧
      ∃ inst after, buildCast .sext ⟨0, 0⟩ ⟨5⟩ program = .done inst after ∧
        buildAutomaticCast ⟨0, 0⟩ ⟨5⟩ program = .done inst after := by
  refine Program.exists_runAll? fun program run => ?_
  obtain ⟨operand, scalar, scalar', picks⟩ : program.operandType ⟨0, 0⟩ .castOperand = .ok ⟨3⟩ ∧
      program.types.scalarBits? ⟨3⟩ = .ok (some 8) ∧
      program.types.scalarBits? ⟨5⟩ = .ok (some 32) ∧
      program.types.pickCast? ⟨3⟩ ⟨5⟩ = .ok (some .sext) := by
    apply Program.holds_of_runAll? run
  obtain ⟨ways, pick, -, picked, agree⟩ := cast_tables_agree run operand scalar scalar'
  exact ⟨operand, scalar, scalar', agree.picked _ (Except.ok.inj (picked.symm.trans picks))⟩

/-! ### Reading bits anew -/

/-- Bits are read anew between scalars of one width only. -/
theorem TypeTable.sameWidth_of_reinterpret {ways : Conversions}
    (converts : t.conversions src tgt = .ok ways) (anew : ways.reinterpret = true) :
    t.sameWidth src tgt = .ok true := by
  simp only [conversions, bind_eq_ok] at converts
  obtain ⟨same, width, equal, -, converts⟩ := converts
  cases equal with
  | true =>
    obtain ⟨drops, -, made⟩ := bind_eq_ok.mp converts
    cases made
    exact anew ▸ width
  | false =>
    obtain ⟨shape, isShape, converts⟩ := bind_eq_ok.mp converts
    obtain ⟨shape', isShape', converts⟩ := bind_eq_ok.mp converts
    by_cases pointers : (∃ pointee, shape = .pointer pointee) ∧ ∃ pointee, shape' = .pointer pointee
    · obtain ⟨⟨_, rfl⟩, _, rfl⟩ := pointers
      simp [sameWidth, scalarBits?, Shape.scalarBits?, isShape, isShape', bind, Except.bind, pure,
        Except.pure]
    · rw [width]
      cases shape <;> cases shape' <;> cases converts <;> simp_all [Conversions.none]

/-- What is read anew has two scalar types of one width. -/
theorem Program.exists_width_of_bitcast {q : Program} {i : InstId} {bits bits' : Option Nat}
    (operand : p.operandType v .castOperand = .ok src) (width : p.types.scalarBits? src = .ok bits)
    (width' : p.types.scalarBits? tgt = .ok bits') (done : buildCast .bitcast v tgt p = .done i q) :
    ∃ scalar, bits = some scalar ∧ bits' = some scalar := by
  simp only [buildCast, Edit.plan_eq_done, planCast, bind_eq_ok, liftHalt_eq_ok,
    require_eq_ok, TypeTable.castApplies] at done
  obtain ⟨_, ⟨src', operand', _, -, _, ⟨ways, converts, anew⟩, _, rfl, -⟩, -⟩ := done
  cases operand.symm.trans operand'
  have same := TypeTable.sameWidth_of_reinterpret converts (Except.ok.inj anew)
  rw [TypeTable.sameWidth, width, width'] at same
  cases bits with
  | none => cases same
  | some bits =>
    cases bits' with
    | none => cases same
    | some bits' =>
      obtain rfl : bits = bits' := beq_iff_eq.mp (Except.ok.inj same)
      exact ⟨bits, rfl, rfl⟩

/-- A value is read anew exactly as another scalar of the same width, unless one of the two is a
float and the other a pointer. -/
theorem bitcast_built_iff_same_width {name : String} {settings : Settings}
    {operations : List Operation} {program : Program} {value : ValueId} {source target : TypeId}
    {bits bits' : Option Nat}
    (run : (Program.initial name settings).runAll? operations = some program)
    (operand : program.operandType value .castOperand = .ok source)
    (width : program.types.scalarBits? source = .ok bits)
    (width' : program.types.scalarBits? target = .ok bits') :
    (∃ inst after, buildCast .bitcast value target program = .done inst after) ↔
      (∃ scalar, bits = some scalar ∧ bits' = some scalar) ∧
      ¬ (program.types.isFloat source = .ok true ∧ program.types.isPointer target = .ok true) ∧
      ¬ (program.types.isPointer source = .ok true ∧ program.types.isFloat target = .ok true) := by
  have sound := Program.sound_of_runAll? run
  refine (and_iff_right_of_imp fun ⟨_, _, done⟩ =>
    Program.exists_width_of_bitcast operand width width' done).symm.trans (and_congr_right ?_)
  rintro ⟨scalar, rfl, rfl⟩
  obtain ⟨kind, isScalar⟩ := TypeTable.exists_scalar width
  obtain ⟨kind', isScalar'⟩ := TypeTable.exists_scalar width'
  rw [exists_buildCast_iff sound operand isScalar isScalar', isScalar.isFloat,
    isScalar.isPointer, isScalar'.isFloat, isScalar'.isPointer, ScalarKind.takes]
  cases kind <;> cases kind' <;> simp [ScalarKind.converts]

/-- An integer of 64 bits is read anew as a pointer of 64 bits. -/
theorem word_is_read_as_pointer :
    ∃ program, (Program.initial "m" .standard).runAll?
        [.constSigned ⟨6⟩ 7, .requestType (.pointer ⟨3⟩)] = some program ∧
      program.types.scalarBits? ⟨6⟩ = .ok (some 64) ∧
      program.types.scalarBits? ⟨13⟩ = .ok (some 64) ∧
      ∃ inst after, buildCast .bitcast ⟨0, 0⟩ ⟨13⟩ program = .done inst after := by
  refine Program.exists_runAll? fun program run => ?_
  obtain ⟨operand, width, width', kinds⟩ : program.operandType ⟨0, 0⟩ .castOperand = .ok ⟨6⟩ ∧
      program.types.scalarBits? ⟨6⟩ = .ok (some 64) ∧
      program.types.scalarBits? ⟨13⟩ = .ok (some 64) ∧
      program.types.isFloat ⟨6⟩ = .ok false ∧ program.types.isPointer ⟨6⟩ = .ok false := by
    apply Program.holds_of_runAll? run
  exact ⟨width, width', (bitcast_built_iff_same_width run operand width width').mpr
    ⟨⟨64, rfl, rfl⟩, by simp [kinds]⟩⟩

/-- A float of 64 bits is not read anew as a pointer of 64 bits. -/
theorem double_is_not_read_as_pointer :
    ∃ program, (Program.initial "m" .standard).runAll?
        [.constUndefined ⟨12⟩, .requestType (.pointer ⟨3⟩)] = some program ∧
      program.operandType ⟨0, 0⟩ .castOperand = .ok ⟨12⟩ ∧
      program.types.scalarBits? ⟨12⟩ = .ok (some 64) ∧
      program.types.scalarBits? ⟨13⟩ = .ok (some 64) ∧
      buildCast .bitcast ⟨0, 0⟩ ⟨13⟩ program =
        .refused (.edit (.typeMismatch ⟨12⟩ (.castApplies .bitcast))) program := by
  refine Program.exists_runAll? fun program run => ⟨?_, ?_, ?_, of_decide_eq_true ?_⟩
  · apply Program.holds_of_runAll? run
  · apply Program.holds_of_runAll? run
  · apply Program.holds_of_runAll? run
  · apply Program.holds_of_runAll? run

end ValueGraph

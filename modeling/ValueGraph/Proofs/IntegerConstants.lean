import Mathlib
import ValueGraph.Proofs.Runs

namespace ValueGraph

/-!
# Integer constants

An integer constant keeps a number modulo its width.  Its bits are the remainder, and a signed
constant is read as the number of that remainder that its width has.  Reading and making
constants shift words, never by a word or more.
-/

variable {number : Int} {half : Nat} {signed : Bool}

/-! ### Words -/

/-- The lowest bits of a word are found without a fault, and they are its remainder. -/
theorem exists_truncate (word : UInt64) (width : Nat) :
    ∃ low, truncate word width = .ok low ∧ low.toNat = word.toNat % 2 ^ min width 64 := by
  unfold truncate
  split
  next small =>
    have power : ∀ shift < 64,
        (((1 : UInt64) <<< UInt64.ofNat shift) - 1).toNat = 2 ^ shift - 1 := by
      decide
    refine ⟨_, by rw [shiftedBy, if_pos small]; rfl, ?_⟩
    rw [UInt64.toNat_and, power width small, Nat.and_two_pow_sub_one_eq_mod,
      Nat.min_eq_left small.le]
  next large =>
    refine ⟨word, rfl, ?_⟩
    rw [Nat.min_eq_right (Nat.not_lt.mp large), Nat.mod_eq_of_lt word.toNat_lt]

/-- The signed remainder of a number is the one number of its class that a width has. -/
theorem bmod_two_pow_eq_iff {reading : Int} :
    number.bmod (2 ^ (half + 1)) = reading ↔
      -2 ^ half ≤ reading ∧ reading < 2 ^ half ∧ (2 : Int) ^ (half + 1) ∣ reading - number := by
  have least : ((2 ^ (half + 1) : Nat) : Int) / 2 = 2 ^ half := by push_cast; omega
  have limit : (((2 ^ (half + 1) : Nat) : Int) + 1) / 2 = 2 ^ half := by push_cast; omega
  rw [Int.bmod_eq_iff (by positivity), least, limit]
  push_cast
  rfl

/-- Shifting a number up within a word and down again leaves its signed remainder. -/
theorem bmod_mul_ediv (number : Int) (half shift : Nat) :
    (number * 2 ^ shift).bmod (2 ^ (half + shift + 1)) / 2 ^ shift =
      number.bmod (2 ^ (half + 1)) := by
  obtain ⟨least, largest, divides⟩ :=
    bmod_two_pow_eq_iff.mp (Eq.refl (number.bmod (2 ^ (half + 1))))
  have positive : (0 : Int) < 2 ^ shift := by positivity
  have shifted : (number * 2 ^ shift).bmod (2 ^ (half + shift + 1)) =
      number.bmod (2 ^ (half + 1)) * 2 ^ shift := by
    refine bmod_two_pow_eq_iff.mpr ⟨?_, ?_, ?_⟩
    · rw [pow_add 2 half, ← neg_mul]
      exact mul_le_mul_of_nonneg_right least positive.le
    · rw [pow_add 2 half shift]
      exact mul_lt_mul_of_pos_right largest positive
    · rw [← sub_mul, add_right_comm, pow_add]
      exact mul_dvd_mul_right divides _
  rw [shifted, Int.mul_ediv_cancel _ positive.ne']

theorem toInt_of_signedReading {word : UInt64} {reading : Int64} (narrow : half + 1 < 64)
    (read : signedReading word (half + 1) true = .ok reading) :
    reading.toInt = (word.toNat : Int).bmod (2 ^ (half + 1)) := by
  have amounts : ∀ shift < 64, ((Int64.ofNat shift).toBitVec.smod 64).toNat = shift := by decide
  have small : 64 - (half + 1) < 64 := by omega
  have amount := amounts (64 - (half + 1)) small
  have whole : half + (64 - (half + 1)) + 1 = 64 := by omega
  have shifts : (word.toInt64 <<< Int64.ofNat (64 - (half + 1))) >>>
      Int64.ofNat (64 - (half + 1)) = reading := by
    rw [signedReading, if_neg (Nat.succ_ne_zero half), if_pos (by simpa using narrow)] at read
    simp only [shiftedBy, if_pos small] at read
    exact Except.ok.inj read
  rw [← bmod_mul_ediv _ _ (64 - (half + 1)), whole, ← shifts]
  simp only [Int64.toInt, Int64.toBitVec_shiftRight, Int64.toBitVec_shiftLeft,
    BitVec.sshiftRight_eq', BitVec.shiftLeft_eq', BitVec.toInt_sshiftRight,
    BitVec.toInt_shiftLeft, amount,
    Int.shiftRight_eq_div_pow, Nat.shiftLeft_eq]
  simp

/-! ### Readings -/

/-- Whether a signed word is what a number, kept as some bits of a width, is read as. -/
def ReadsAs (width : Nat) (signed : Bool) (number : Int) (payload : UInt64) (reading : Int64) :
    Prop :=
  if width = 0 then
    reading = 0
  else if signed ∧ width < 64 then
    ∀ candidate : Int, candidate = reading.toInt ↔ candidate ≡ number [ZMOD 2 ^ width] ∧
      -2 ^ (width - 1) ≤ candidate ∧ candidate < 2 ^ (width - 1)
  else
    reading = payload.toInt64

theorem toNat_toUInt64 (number : Int64) :
    (number.toUInt64.toNat : Int) = number.toInt % 2 ^ 64 := by
  change (number.toBitVec.toNat : Int) = number.toBitVec.toInt % ((2 ^ 64 : Nat) : Int)
  rw [BitVec.toInt_eq_toNat_bmod, Int.bmod_emod]
  exact_mod_cast (Nat.mod_eq_of_lt number.toBitVec.isLt).symm

section

variable {width : Nat} {payload : UInt64} {reading : Int64}
  (kept : (payload.toNat : Int) = number % 2 ^ min width 64)
  (read : signedReading payload width signed = .ok reading)
include kept read

theorem readsAs_of_signedReading : ReadsAs width signed number payload reading := by
  unfold ReadsAs
  split
  next none =>
    rw [signedReading, if_pos none] at read
    exact (Except.ok.inj read).symm
  next some =>
    split
    next narrow =>
      obtain ⟨rfl, small⟩ := narrow
      obtain ⟨half, rfl⟩ := Nat.exists_eq_succ_of_ne_zero some
      rw [Nat.min_eq_left small.le] at kept
      have remainder : (payload.toNat : Int).bmod (2 ^ (half + 1)) =
          number.bmod (2 ^ (half + 1)) := by
        rw [kept, ← Int.emod_bmod number]
        push_cast
        rfl
      intro candidate
      rw [toInt_of_signedReading small read, remainder, eq_comm, bmod_two_pow_eq_iff,
        Int.modEq_comm, Int.modEq_iff_dvd, Nat.succ_sub_one]
      tauto
    next wide =>
      rw [signedReading, if_neg some, if_neg (by simpa using wide)] at read
      exact (Except.ok.inj read).symm

theorem truncate_of_signedReading : truncate reading.toUInt64 width = .ok payload := by
  have below : payload.toNat % 2 ^ min width 64 = payload.toNat := by
    zify
    rw [kept, Int.emod_emod_of_dvd _ dvd_rfl]
  obtain ⟨low, cut, remainder⟩ := exists_truncate reading.toUInt64 width
  rw [cut, Except.ok.injEq, ← UInt64.toNat_inj, remainder]
  by_cases none : width = 0
  · subst none
    rw [← below, min_eq_left (Nat.zero_le _), pow_zero, Nat.mod_one, Nat.mod_one]
  by_cases narrow : signed = true ∧ width < 64
  · obtain ⟨rfl, small⟩ := narrow
    obtain ⟨half, rfl⟩ := Nat.exists_eq_succ_of_ne_zero none
    rw [← below, Nat.min_eq_left small.le]
    zify
    rw [toNat_toUInt64, toInt_of_signedReading small read,
      Int.emod_emod_of_dvd _ (pow_dvd_pow 2 small.le)]
    exact_mod_cast @Int.bmod_emod payload.toNat (2 ^ (half + 1))
  · rw [signedReading, if_neg none, if_neg (by simpa using narrow)] at read
    obtain rfl := Except.ok.inj read
    exact below

theorem eq_zero_iff_of_signedReading : reading = 0 ↔ payload = 0 := by
  constructor
  · rintro rfl
    have cut := truncate_of_signedReading kept read
    obtain ⟨low, cutZero, remainder⟩ := exists_truncate (0 : Int64).toUInt64 width
    obtain rfl := Except.ok.inj (cut.symm.trans cutZero)
    rw [← UInt64.toNat_inj, remainder]
    exact Nat.zero_mod _
  · rintro rfl
    by_cases narrow : width ≠ 0 ∧ signed = true ∧ width < 64
    · obtain ⟨some, rfl, small⟩ := narrow
      obtain ⟨half, rfl⟩ := Nat.exists_eq_succ_of_ne_zero some
      rw [← Int64.toInt_inj, toInt_of_signedReading small read]
      exact Int.zero_bmod
    · rw [signedReading] at read
      split at read
      next => exact (Except.ok.inj read).symm
      next some =>
        rw [if_neg (by simpa [some] using narrow)] at read
        exact (Except.ok.inj read).symm

end

/-! ### Constants of a program -/

namespace Program

variable {p : Program} {ty : TypeId} {bits : UInt32}

/-- A constant of an integer type that was made from a number. -/
structure HoldsNumber (program : Program) (value : ValueId) (type : TypeId) (bits : UInt32)
    (signed : Bool) (number : Int) (payload : UInt64) (reading : Int64) : Prop where
  kept : (payload.toNat : Int) = number % 2 ^ min bits.toNat 64
  stored : program.constant? value = .ok (some (.int payload))
  unsigned : program.uintValue? value = .ok (some payload)
  read : program.intValue? value = .ok (some reading)
  reads : ReadsAs bits.toNat signed number payload reading
  again : ∃ other after, constSigned type reading program = .done other after ∧
    after.constant? other = .ok (some (.int payload))
  zero_iff : program.isZero value = .ok true ↔ program.intValue? value = .ok (some 0)
  zero_iff_unsigned : program.isZero value = .ok true ↔ program.uintValue? value = .ok (some 0)

theorem intBits?_eq_ok (shape : p.types.shape ty = .ok (.int bits signed)) :
    p.types.intBits? ty = .ok (some bits.toNat) := by
  rw [TypeTable.intBits?, shape]
  rfl

/-- Making a constant of an integer type succeeds. -/
theorem exists_constUnsigned (stored : p.Stored)
    (shape : p.types.shape ty = .ok (.int bits signed)) {word low : UInt64}
    (cut : truncate word bits.toNat = .ok low) :
    ∃ v q, constUnsigned ty word p = .done v q ∧ p.Added q v ty (.constant (.int low)) := by
  obtain ⟨v, q, run⟩ : ∃ v q, (Step.addConstant ty (.int low)).run p = .ok (v, q) :=
    ⟨_, _, Step.addNode_run.mpr ⟨rfl, rfl⟩⟩
  refine ⟨v, q, Edit.plan_eq_done.mpr ⟨_, ?_, run⟩, Step.addNode_spec stored run⟩
  simp only [bind_eq_ok, liftHalt_eq_ok]
  refine ⟨_, intBits?_eq_ok shape, ?_⟩
  simp only [bind_eq_ok, liftHalt_eq_ok]
  exact ⟨low, cut, rfl⟩

theorem Added.holdsNumber {q : Program} {v : ValueId} {word low : UInt64}
    (added : p.Added q v ty (.constant (.int low)))
    (shape : p.types.shape ty = .ok (.int bits signed))
    (remainder : low.toNat = word.toNat % 2 ^ min bits.toNat 64)
    (eq : (word.toNat : Int) ≡ number [ZMOD 2 ^ 64]) :
    ∃ reading, q.HoldsNumber v ty bits signed number low reading := by
  obtain ⟨reading, read⟩ := exists_signedReading low bits.toNat signed
  have kept : (low.toNat : Int) = number % 2 ^ min bits.toNat 64 := by
    rw [remainder]
    push_cast
    exact eq.of_dvd (pow_dvd_pow 2 (Nat.min_le_right _ _))
  have found : q.values.get? v = some (.fresh ty (.constant (.int low))) := by
    rw [added.nodes, Function.update_self]
  have type : q.typeOf v = .ok ty := typeOf_eq_ok.mpr ⟨_, found, rfl⟩
  have shapeAfter : q.types.shape ty = .ok (.int bits signed) := by
    rw [added.others]
    exact shape
  have width := intBits?_eq_ok shapeAfter
  have constant : q.constant? v = .ok (some (.int low)) := by
    rw [constant?, payload, node_eq_ok.mpr found]
    rfl
  have unsigned : q.uintValue? v = .ok (some low) := by
    simp only [uintValue?, type, width, constant, bind, Except.bind]
    rfl
  have readValue : q.intValue? v = .ok (some reading) := by
    have sign : q.types.isSigned ty = .ok signed := by
      rw [TypeTable.isSigned, shapeAfter]
      rfl
    refine bind_eq_ok.mpr ⟨ty, type, bind_eq_ok.mpr ⟨_, width, ?_⟩⟩
    refine bind_eq_ok.mpr ⟨_, constant, ?_⟩
    exact bind_eq_ok.mpr ⟨signed, sign, bind_eq_ok.mpr ⟨reading, read, rfl⟩⟩
  have isZero : q.isZero v = .ok (low == 0) := by
    simp only [isZero, constant, bind, Except.bind]
    rfl
  obtain ⟨other, after, made, addedAgain⟩ :=
    exists_constUnsigned added.stored shapeAfter (truncate_of_signedReading kept read)
  refine ⟨reading, kept, constant, unsigned, readValue, readsAs_of_signedReading kept read,
    ⟨other, after, made, ?_⟩, ?_, ?_⟩
  · rw [constant?, payload, node_eq_ok.mpr (show after.values.get? other = _ by
      rw [addedAgain.nodes, Function.update_self])]
    rfl
  · rw [isZero, readValue]
    simp [eq_zero_iff_of_signedReading kept read]
  · rw [isZero, unsigned]
    simp

end Program

/-- Integer constants keep numbers modulo their width: they are read as the number of that class
which the type has, the reading makes the same constant again, and no shift goes too far. -/
theorem integer_constants_round_trip {name : String} {settings : Settings}
    {operations : List Operation} {program : Program} {type : TypeId} {bits : UInt32}
    {signed : Bool} (run : (Program.initial name settings).runAll? operations = some program)
    (isInt : program.types.shape type = .ok (.int bits signed)) :
    (∀ word : UInt64, ∃ value after payload reading,
      constUnsigned type word program = .done value after ∧
      after.HoldsNumber value type bits signed word.toNat payload reading) ∧
    (∀ number : Int64, ∃ value after payload reading,
      constSigned type number program = .done value after ∧
      after.HoldsNumber value type bits signed number.toInt payload reading) ∧
    ∀ word : UInt64, (∃ low, truncate word bits.toNat = .ok low) ∧
      ∃ reading, signedReading word bits.toNat signed = .ok reading := by
  have sound := Program.sound_of_runAll? run
  refine ⟨fun word => ?_, fun number => ?_, fun word => ⟨?_, exists_signedReading _ _ _⟩⟩
  · obtain ⟨low, cut, remainder⟩ := exists_truncate word bits.toNat
    obtain ⟨value, after, made, added⟩ := Program.exists_constUnsigned sound.stored isInt cut
    obtain ⟨reading, holds⟩ := added.holdsNumber isInt remainder rfl
    exact ⟨value, after, low, reading, made, holds⟩
  · obtain ⟨low, cut, remainder⟩ := exists_truncate number.toUInt64 bits.toNat
    obtain ⟨value, after, made, added⟩ := Program.exists_constUnsigned sound.stored isInt cut
    have eq : (number.toUInt64.toNat : Int) ≡ number.toInt [ZMOD 2 ^ 64] := by
      rw [toNat_toUInt64]
      exact Int.mod_modEq _ _
    obtain ⟨reading, holds⟩ := added.holdsNumber isInt remainder eq
    exact ⟨value, after, low, reading, made, holds⟩
  · obtain ⟨low, cut, -⟩ := exists_truncate word bits.toNat
    exact ⟨low, cut⟩

/-- As a signed number of five bits, 19 is kept and read as -13. -/
theorem nineteen_in_five_bits_is_negative :
    ∃ program, (Program.initial "m" .standard).runAll? [.requestType (.int 5 true)] = some program ∧
      program.types.shape ⟨13⟩ = .ok (.int 5 true) ∧ ∃ value after payload reading,
        constSigned ⟨13⟩ 19 program = .done value after ∧
        after.HoldsNumber value ⟨13⟩ 5 true 19 payload reading ∧ reading.toInt = -13 := by
  refine Program.exists_runAll? fun program run => ?_
  have isInt : program.types.shape ⟨13⟩ = .ok (.int 5 true) := by
    apply Program.holds_of_runAll? run
  obtain ⟨-, signed, -⟩ := integer_constants_round_trip run isInt
  obtain ⟨value, after, payload, reading, made, holds⟩ := signed 19
  exact ⟨isInt, value, after, payload, reading, made, holds,
    ((holds.reads (-13)).mpr (by decide)).symm⟩

end ValueGraph

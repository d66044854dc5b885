import Mathlib
import ValueGraph.Proofs.Building
import ValueGraph.Proofs.Resemblance

open Function

namespace ValueGraph

/-!
# Blocks in functions

A block that is in a function is one of the blocks of the function, and an instruction
that returns from it returns what the function does.  A return is looked at when it is
put into a block and when its block is put into a function; from then on it stays what
it is.
-/

variable {f : FuncId} {d : Function} {a : Unit} {v : ValueId} {ty : TypeId}

namespace Program

variable {p q : Program} {pr : Promise} {b : BlockId} {i : InstId}

/-! ### Checks -/

theorem returnType_eq_ok {s : Program} {res : TypeId} :
    s.returnType f = .ok res ↔ ∃ d, s.function? f = some d ∧ s.types.Yields d.type res := by
  simp only [returnType, bind_eq_ok, function_eq_ok, TypeTable.Yields]
  constructor
  · rintro ⟨d, h, a, read, isResult⟩
    refine ⟨d, h, a, read, ?_⟩
    cases a <;> exact (pure_eq_ok.mp isResult).symm
  · rintro ⟨d, h, a, read, rfl⟩
    refine ⟨d, h, a, read, ?_⟩
    cases a <;> rfl

theorem Sound.returns_of_checkReturn (hs : p.Sound) (h : p.function? f = some d)
    (checked : p.checkReturn f i = .ok a) : p.Returns d.type i := by
  intro isRet
  have places := hs.slotsOf_ret isRet
  obtain ⟨data, hInst, isKind⟩ := Option.map_eq_some_iff.mp isRet
  simp only [checkReturn, bind_eq_ok, liftHalt_eq_ok, kind_eq_ok] at checked
  obtain ⟨_, ⟨_, h', rfl⟩, checked⟩ := checked
  obtain rfl := Option.mem_unique hInst h'
  simp only [isKind, bind_eq_ok, liftHalt_eq_ok, returnType_eq_ok] at checked
  obtain ⟨res, ⟨_, hFn, yields⟩, op, readOperand, checked⟩ := checked
  obtain rfl := Option.mem_unique h hFn
  simp only [operand?, bind_eq_ok, operands_eq_ok] at readOperand
  obtain ⟨_, ⟨n, hNode, rfl⟩, readOperand⟩ := readOperand
  rw [← operandsOf_eq hNode] at readOperand
  refine ⟨res, ?_⟩
  cases ops : p.operandsOf i with
  | nil =>
    simp only [ops, List.getElem?_nil, pure_eq_ok] at readOperand
    subst readOperand
    simp only [bind_eq_ok, liftHalt_eq_ok, require_eq_ok] at checked
    obtain ⟨_, isVoid, rfl⟩ := checked
    exact ⟨[], yields, rfl, isVoid⟩
  | cons e rest =>
    obtain rfl : rest = [] := by
      have length := places.length_le
      rw [slotsOf, List.length_map, ops] at length
      simpa using length
    simp only [ops, List.getElem?_cons_zero, bind_eq_ok, edgeValue_eq_ok, pure_eq_ok] at readOperand
    obtain ⟨_, ⟨edgeData, hEdge, rfl⟩, rfl⟩ := readOperand
    simp only [bind_eq_ok, liftHalt_eq_ok, typeOf_eq_ok, require_eq_ok] at checked
    obtain ⟨_, ⟨v, hValue, rfl⟩, _, isEqual, rfl⟩ := checked
    refine ⟨[⟨edgeData.slot, v.type, p.isBlock edgeData.value⟩], yields, ?_, isEqual⟩
    simp [edgeFacet?, hEdge, facet?, type?, hValue]

/-- A return that passes the check for a block returns what the function of the block does. -/
theorem Sound.returns_of_checkReturnIn (hs : p.Sound) (seated : p.seat? b = some (some f))
    (h : p.function? f = some d) (checked : p.checkReturnIn b i = .ok a) : p.Returns d.type i := by
  obtain ⟨data, hBlock, isSeat⟩ := Option.map_eq_some_iff.mp seated
  simp only [checkReturnIn, bind_eq_ok, liftHalt_eq_ok, block_eq_ok] at checked
  obtain ⟨_, h', checked⟩ := checked
  obtain rfl := Option.mem_unique hBlock h'
  rw [isSeat] at checked
  exact hs.returns_of_checkReturn h checked

theorem Sound.eq_getLast?_of_ret (hs : p.Sound) (mem : i ∈ p.threads b)
    (isRet : p.kind? i = some .ret) : (p.threads b).getLast? = some i := by
  obtain ⟨front, rest, split⟩ := List.append_of_mem mem
  have linked := hs.chains.linked b front i rest split
  obtain ⟨d, h, isKind⟩ := Option.map_eq_some_iff.mp isRet
  rw [link?, h, Option.map_some, Option.some.injEq] at linked
  have ends : true = decide (rest = []) := by
    have eq := congrArg Link.isTerminator linked
    simpa [Inst.link, isKind, InstKind.isTerminator] using eq
  rw [split, of_decide_eq_true ends.symm]
  simp

theorem returns_of_plain {d : Inst} (h : p.inst? i = some d) (plain : d.kind.isTerminator = false)
    (ty : TypeId) : p.Returns ty i := by
  intro isRet
  obtain ⟨_, h', isKind⟩ := Option.map_eq_some_iff.mp isRet
  obtain rfl := Option.mem_unique h h'
  simp [isKind, InstKind.isTerminator] at plain

theorem closes_update {insts : List InstId} (listed : ∀ inst ∈ insts, inst ∈ p.threads b ∨ inst = i)
    (returns : ∀ f d, p.seat? b = some (some f) → p.function? f = some d → p.Returns d.type i) :
    p.Closes (update p.threads b insts) := by
  intro home inst mem out f d seated h
  rw [update_apply] at mem
  split at mem
  next eq =>
    subst eq
    rcases listed inst mem with inside | rfl
    · exact absurd inside out
    · exact returns f d seated h
  next => exact absurd mem out

/-! ### Blocks that are lodged -/

/-- Every block in a function is listed there and returns what the function does; functions
that are torn down are exempt. -/
def Lodged (program : Program) (exempt : FuncId → Prop) : Prop :=
  ∀ block function, program.seat? block = some (some function) → ¬ exempt function →
    ∃ data, program.function? function = some data ∧ block ∈ data.blocks ∧
      ∀ inst ∈ program.threads block, program.Returns data.type inst

namespace Lodged

variable {exempt : FuncId → Prop}

section

variable (lodged : p.Lodged exempt)
include lodged

theorem mono {more : FuncId → Prop} (weaker : ∀ f, exempt f → more f) : p.Lodged more :=
  fun b f seated stands =>
    lodged b f seated fun isExempt => stands (weaker f isExempt)

/-- Blocks stay lodged while none comes into a function, their functions keep their lists,
nothing comes into a thread, and what stands there goes on to return what it did. -/
theorem of_kept (seats : ∀ b f, q.seat? b = some (some f) → p.seat? b = some (some f))
    (fns : ∀ b f d, p.function? f = some d → b ∈ d.blocks → q.function? f = some d)
    (threads : ∀ b i, i ∈ q.threads b → i ∈ p.threads b)
    (returns : ∀ b i, i ∈ q.threads b → ∀ ty, p.Returns ty i → q.Returns ty i) :
    q.Lodged exempt := by
  intro b f seated stands
  obtain ⟨d, h, listed, returned⟩ := lodged b f (seats b f seated) stands
  refine ⟨d, fns b f d h listed, listed, fun i mem => ?_⟩
  exact returns b i mem d.type (returned i (threads b i mem))

theorem of_added {payload : Payload} (hs : p.Sound) (hsq : q.Sound) (added : p.Added q v ty payload)
    (blank : payload.Blank) : q.Lodged exempt := by
  have threads := (added.chains hs.chains blank).threads_eq
  refine lodged.of_kept (fun b f seated => ?_) (fun b f d h _ => ?_)
    (fun b i mem => threads ▸ mem) fun b i mem ty returns => ?_
  · rw [added.exchanged.seat?, update_apply] at seated
    split at seated
    next =>
      cases payload with
      | block d =>
        obtain rfl : d = Block.detached := blank
        simp [Payload.block?, Block.detached] at seated
      | _ => simp [Payload.block?] at seated
    next => exact seated
  · have ne : f ≠ v := by
      rintro rfl
      simp [function?, added.payload?_eq_none] at h
    rw [added.exchanged.function?, update_of_ne ne, h]
  · rw [threads] at mem
    exact returns.of_resembles hs.registry added.waxes.table
      (added.resembles hs hsq (hs.ongoing_of_mem mem).isLive)

theorem of_built {new : InstId} {kind : InstKind} (hs : p.Sound) (built : p.Built q new ty kind) :
    q.Lodged exempt := by
  have threads := (built.chains hs.chains).threads_eq
  refine lodged.of_kept (fun b f seated => ?_) (fun b f d h _ => ?_)
    (fun b i mem => threads ▸ mem) fun b i mem ty returns => ?_
  · rw [built.seat?, update_apply] at seated
    split at seated
    · cases seated
    · exact seated
  · rwa [built.function?]
  · rw [threads] at mem
    exact returns.of_resembles hs.registry (built.waxes hs).table
      (built.resembles hs (hs.ongoing_of_mem mem).isLive)

theorem of_adopts {adopted write : InstId} {l : Link} (hs : p.Sound)
    (adopts : p.Adopts q adopted write l) : q.Lodged exempt := by
  have rea := adopts.relinked.restrings.rearranges
  have hsq := adopts.sound hs
  have threads := (adopts.chains hs).threads_eq
  refine lodged.of_kept (fun b f seated => ?_) (fun b f d h _ => ?_)
    (fun b i mem => threads ▸ mem) fun b i mem ty returns => ?_
  · rwa [rea.seats] at seated
  · rwa [rea.bodies]
  · exact returns.of_resembles hs.registry rea.wanes.table
      (adopts.resembles hs (hsq.ongoing_of_mem mem).isLive)

end

end Lodged

theorem Dropped.function?_of_listed (drop : p.Dropped q v) (bare : p.countOf v = 1 → p.Bare v)
    (h : p.function? f = some d) (listed : b ∈ d.blocks) : q.function? f = some d := by
  rcases drop.exchanged_or with ⟨-, pls, -⟩ | ⟨last, -, exch, -⟩
  · rwa [function?, pls]
  · have ne : f ≠ v := by
      rintro rfl
      obtain ⟨-, noBody, -⟩ := bare last _ (function?_eq_some_iff.mp h)
      simp [Function.blocks, noBody] at listed
    rw [exch.function?, update_of_ne ne, h]

/-- What returns from a function after a move and did not cease to stand in its block goes
on to return what it did. -/
theorem Shapes.returns (shapes : p.Shapes pr q) (hs : p.Sound) (mem : i ∈ q.threads b)
    (returns : p.Returns ty i) : q.Returns ty i := by
  have ongoing := (shapes.sound hs).ongoing_of_mem mem
  obtain ⟨-, resembles | ⟨noReturn, -⟩⟩ := shapes.resembles_or hs ongoing
  · exact returns.of_resembles hs.registry shapes.wanes.table resembles
  · intro isRet
    have eq := (shapes.wanes.sorts i ongoing.isLive).shells
    exact absurd (ret_iff_shell?.mpr (eq ▸ ret_iff_shell?.mp isRet)) noReturn

/-- Every move keeps blocks lodged in functions that are not torn down. -/
theorem Shapes.lodged (shapes : p.Shapes pr q) (hs : p.Sound) (agrees : pr.agrees)
    (lodged : p.Lodged pr.razes) : q.Lodged pr.razes := by
  have returns : ∀ b i, i ∈ q.threads b → ∀ ty, p.Returns ty i →
      q.Returns ty i := fun _ _ mem _ => shapes.returns hs mem
  have eq : q.seat? = p.seat? → q.function? = p.function? →
      q.threads = p.threads → q.Lodged pr.razes := by
    intro seats fns threads
    refine lodged.of_kept ?_ ?_ (fun b i mem => threads ▸ mem) returns
    · intro b f seated
      rwa [seats] at seated
    · intro b f d h _
      rwa [fns]
  cases shapes with
  | raze razed =>
    have dw := razed.dwindles hs
    refine lodged.of_kept ?_ ?_ ?_ returns
    · intro b f seated
      rwa [dw.seats] at seated
    · intro b f d h _
      rwa [dw.bodies]
    · exact fun b i mem => (dw.threads b).subset mem
  | relabel lab =>
    exact eq lab.seat? lab.functions (hs.chains.of_same lab.link? lab.ends?).threads_eq
  | retain v retained =>
    have pls : q.payload? = p.payload? := by
      funext other
      rw [payload?, payload?, retained.nodes]
    refine eq ?_ ?_ (hs.chains.of_same ?_ ?_).threads_eq
    · simp only [seat?_eq_bind, pls]
    · funext other
      simp only [function?, pls]
    · simp only [link?_eq_bind, pls]
    · simp only [ends?_eq_bind, pls]
  | drop v dropped bare =>
    have threads := dropped.threads_eq_of_bare hs bare
    exact lodged.of_kept (fun _ _ => dropped.seat?_before)
      (fun _ _ _ => dropped.function?_of_listed bare) (fun _ _ mem => threads ▸ mem) returns
  | redraw redraws =>
    have skeleton := redraws.rewires.skeleton
    exact eq skeleton.seat? skeleton.function? (redraws.rewires.threads_eq hs)
  | thread threads reth closes =>
    intro b f seated stands
    rw [reth.seats] at seated
    obtain ⟨d, h, listed, returned⟩ := lodged b f seated stands
    refine ⟨d, by rw [reth.bodies, h], listed, fun i mem => ?_⟩
    refine returns b i mem d.type ?_
    by_cases stood : i ∈ p.threads b
    · exact returned i stood
    · rw [reth.chains.threads_eq] at mem
      exact closes b i mem stood f d seated h
  | resettle settle staffed allots lodges =>
    intro b f seated stands
    have threads := settle.threads_eq hs
    by_cases stayed : p.seat? b = some (some f)
    · obtain ⟨old, h, listed, returned⟩ := lodged b f stayed stands
      obtain ⟨new, hNew, sameType, listedNew⟩ := lodges.stay b f old stayed seated h listed stands
      refine ⟨new, hNew, listedNew, fun i mem => ?_⟩
      exact returns b i mem new.type (sameType ▸ returned i (threads ▸ mem))
    · obtain ⟨new, hNew, listedNew, returned⟩ := lodges.come b f stayed seated
      refine ⟨new, hNew, listedNew, fun i mem => ?_⟩
      exact returns b i mem new.type (returned agrees i (threads ▸ mem))

end Program

end ValueGraph

import Mathlib
import ValueGraph.Proofs.Runs

namespace ValueGraph

open Program

/-!
# Agreement of returns with functions

Every move keeps blocks lodged in their functions, but for a function that is torn down
in the course of an operation.  When the operation is over no block is left in such a
function, so whatever runs lead to, all blocks are lodged.
-/

variable {op : Operation} {s : Program}

namespace Program

variable {p q : Program} {pr : Promise}

theorem kept_lodged (agrees : pr.agrees) : Kept pr fun s => s.Lodged pr.razes where
  grow sound soundAfter added blank _ lodged := lodged.of_added sound soundAfter added blank
  build sound built lodged := lodged.of_built sound built
  adopt sound adopts lodged := lodged.of_adopts sound adopts
  shape sound shapes lodged := shapes.lodged sound agrees lodged

/-- A block is left in a function that an operation tears down only if the operation was
refused. -/
theorem Lodged.eq_of_razes {b : BlockId} {f : FuncId} (lodged : p.Lodged fun _ => False)
    (hs : p.Sound) (razes : op.Razes p f) (run : (op.run p).after? = some q)
    (seated : q.seat? b = some (some f)) : q = p := by
  cases outcome : op.run p with
  | done reply res =>
    rw [outcome] at run
    obtain rfl := Option.some.inj run
    obtain ⟨was, unlisted⟩ := razes.evicts hs outcome b seated
    obtain ⟨d, h, listed, -⟩ := lodged b f was id
    exact absurd listed (unlisted d h)
  | refused cause res =>
    rw [outcome] at run
    obtain rfl := Option.some.inj run
    refine Operation.reverts_run hs ?_ outcome
    rintro function rfl
    exact razes.2.2
  | faulted fault =>
    rw [outcome] at run
    cases run

theorem Lodged.of_run (lodged : p.Lodged fun _ => False) (hs : p.Sound)
    (run : (op.run p).after? = some q) : q.Lodged fun _ => False := by
  have leads := Operation.leads_of_run hs run
  have lodgedAfter : q.Lodged (op.Razes p) :=
    (kept_lodged lodged).reaches hs leads.reaches (lodged.mono fun _ => False.elim)
  intro b f seated stands
  by_cases razes : op.Razes p f
  · obtain rfl := lodged.eq_of_razes hs razes run seated
    exact lodged b f seated stands
  · exact lodgedAfter b f seated razes

theorem lodged_of_runAll? {name : String} {cfg : Settings} {ops : List Operation}
    (run : (initial name cfg).runAll? ops = some s) : s.Lodged fun _ => False := by
  refine (runAll?_counted (fun _ reached => reached.Lodged fun _ => False)
    (fun hs lodged run _ => lodged.of_run hs run) (sound_initial name cfg) ?_
    (along_run _ ops) run).2
  intro b f seated
  simp [seat?, block?] at seated

/-- The values that edges read have the types that are seen through the edges. -/
theorem exists_mapM_edgeValue {edges : List EdgeId} {facets : List Facet}
    (seen : edges.map s.edgeFacet? = facets.map some) :
    ∃ values, edges.mapM s.edgeValue = .ok values ∧
      List.Forall₂ (fun v facet => s.typeOf v = .ok facet.type) values facets := by
  simp only [mapM_eq_ok]
  induction facets generalizing edges with
  | nil =>
    obtain rfl := List.map_eq_nil_iff.mp seen
    exact ⟨[], .nil, .nil⟩
  | cons facet facets ih =>
    obtain ⟨e, rest, rfl, isFacet, seenRest⟩ := List.map_eq_cons_iff.mp seen
    obtain ⟨values, reads, types⟩ := ih seenRest
    obtain ⟨d, h, isFacet⟩ := Option.bind_eq_some_iff.mp isFacet
    obtain ⟨ty, isType, rfl⟩ := Option.map_eq_some_iff.mp isFacet
    refine ⟨d.value :: values, .cons (edgeValue_eq_ok.mpr ⟨d, h, rfl⟩) reads, .cons ?_ types⟩
    exact typeOf_eq_ok.mpr (Option.map_eq_some_iff.mp isType)

end Program

/-- Whatever runs lead to, an instruction that ends a block by returning from the function
that the block is in reads one value of a type that is equal to what the function
returns, or none if the function returns void. -/
theorem return_agrees_with_function {name : String} {settings : Settings}
    {operations : List Operation} {program : Program} {block : BlockId} {data : Block}
    {function : FuncId} {inst : InstId}
    (run : (Program.initial name settings).runAll? operations = some program)
    (held : program.block? block = some data) (seated : data.parent = some function)
    (ending : program.terminator? block = .ok (some inst)) (isRet : program.kind inst = .ok .ret) :
    ∃ result, program.returnType function = .ok result ∧
      ((∃ value type, program.operandValues inst = .ok [value] ∧
          program.typeOf value = .ok type ∧ program.types.equal type result = .ok true) ∨
        program.operandValues inst = .ok [] ∧ program.types.isVoid result = .ok true) := by
  have sound := sound_of_runAll? run
  have isSeat : program.seat? block = some (some function) := by
    rw [seat?, held, Option.map_some, seated]
  obtain ⟨found, heldFunction, -, returned⟩ := lodged_of_runAll? run block function isSeat id
  have member : inst ∈ program.threads block :=
    List.mem_of_getLast? (sound.chains.terminator?_eq (by simp) ending).symm
  obtain ⟨instData, heldInst, isKind⟩ := kind_eq_ok.mp isRet
  obtain ⟨result, facets, yields, read, returns⟩ := returned inst member
    (by rw [kind?, heldInst, Option.map_some, isKind])
  refine ⟨result, returnType_eq_ok.mpr ⟨found, heldFunction, yields⟩, ?_⟩
  obtain ⟨values, readValues, types⟩ := exists_mapM_edgeValue read
  have reads : program.operandValues inst = .ok values := by
    obtain ⟨node, found⟩ := Arena.contains_iff_get?.mp (sound.ongoing_of_mem member).isLive
    rw [operandsOf_eq found] at readValues
    exact bind_eq_ok.mpr ⟨_, operands_eq_ok.mpr ⟨node, found, rfl⟩, readValues⟩
  cases types with
  | nil => exact Or.inr ⟨reads, returns⟩
  | @cons value facet values facets isType rest =>
    cases rest with
    | nil => exact Or.inl ⟨value, facet.type, reads, isType, returns⟩
    | cons => exact returns.elim

/-- A block is filled, then put into a function; its return is made to read a value of a
const type and comes into another block when the block is split. -/
theorem split_return_agrees_with_function :
    ∃ program, (Program.initial "m" .standard).runAll?
        [.requestType (.withConst ⟨5⟩ true), .requestType (.function ⟨⟨5⟩, [], false⟩),
          .addFunction "f" ⟨14⟩, .constSigned ⟨5⟩ 1, .constSigned ⟨13⟩ 2, .createBlock,
          .buildRet (some ⟨1, 0⟩), .pushBack ⟨3, 0⟩ ⟨4, 0⟩, .appendBlock ⟨0, 0⟩ ⟨3, 0⟩,
          .setUse ⟨0, 0⟩ (some ⟨2, 0⟩), .splitBlock ⟨4, 0⟩] = some program ∧
      (program.block? ⟨5, 0⟩).map (·.parent) = some (some ⟨0, 0⟩) ∧
      program.terminator? ⟨5, 0⟩ = .ok (some ⟨4, 0⟩) ∧
      program.kind ⟨4, 0⟩ = .ok .ret ∧
      ∃ result, program.returnType ⟨0, 0⟩ = .ok result ∧
        ((∃ value type, program.operandValues ⟨4, 0⟩ = .ok [value] ∧
            program.typeOf value = .ok type ∧ program.types.equal type result = .ok true) ∨
          program.operandValues ⟨4, 0⟩ = .ok [] ∧ program.types.isVoid result = .ok true) := by
  refine exists_runAll? fun program run => ?_
  obtain ⟨isSeat, ending, isRet⟩ : (program.block? ⟨5, 0⟩).map (·.parent) = some (some ⟨0, 0⟩) ∧
      program.terminator? ⟨5, 0⟩ = .ok (some ⟨4, 0⟩) ∧ program.kind ⟨4, 0⟩ = .ok .ret := by
    apply holds_of_runAll? run
  obtain ⟨data, held, seated⟩ := Option.map_eq_some_iff.mp isSeat
  exact ⟨isSeat, ending, isRet, return_agrees_with_function run held seated ending isRet⟩

end ValueGraph

import Mathlib
import ValueGraph.Proofs.Runs

namespace ValueGraph

open Program

/-!
# Slots of registers

A register is granted a slot that is free, or the next one, and leaves it free when
it is given back.  As long as only registers that their functions list are given
back, no slot is granted twice: the slots of the registers of a function and its
free slots are all slots before the next one, each once.
-/

variable {f : FuncId} {d : Function}

namespace Program

variable {p q : Program} {pr : Promise}

theorem Sound.isLive_of_granted {r : RegId} (hs : p.Sound) (h : p.function? f = some d)
    (mem : r ∈ d.granted) : p.isLive r = true := by
  obtain ⟨data, known, -⟩ := (hs.staffed f d h).granted r mem
  rw [isLive_iff, register?_eq_some_iff.mp known]
  rfl

/-- Moves that add no node and leave the lists of functions alone. -/
theorem Allotted.of_wanes (allotted : p.Allotted) (hsq : q.Sound) (wanes : p.Wanes q)
    (fns : ∀ f d, q.function? f = some d → p.function? f = some d) : q.Allotted := by
  intro f d h
  refine (allotted f d (fns f d h)).mono fun r mem => ?_
  exact (wanes.sorts r (hsq.isLive_of_granted h mem)).registers

/-- Moves that take no node away and leave the lists of a function alone. -/
theorem Allotted.of_waxes (allotted : p.Allotted) (hs : p.Sound) (waxes : p.Waxes q)
    (h : p.function? f = some d) : q.Allots d :=
  (allotted f d h).mono fun r mem =>
    (waxes.sorts r (hs.isLive_of_granted h mem)).registers

theorem Shapes.allotted (shapes : p.Shapes pr q) (hs : p.Sound) (returns : pr.returnsOwned)
    (allotted : p.Allotted) : q.Allotted := by
  have hsq := shapes.sound hs
  have wanes := shapes.wanes
  cases shapes with
  | raze razed =>
    refine allotted.of_wanes hsq wanes fun f d h => ?_
    rwa [(razed.dwindles hs).bodies] at h
  | relabel lab =>
    refine allotted.of_wanes hsq wanes fun f d h => ?_
    rwa [lab.functions] at h
  | retain v retained =>
    refine allotted.of_wanes hsq wanes fun f d h => ?_
    simpa only [function?, payload?, retained.nodes] using h
  | drop v dropped =>
    refine allotted.of_wanes hsq wanes fun f d h => ?_
    rw [function?_eq_some_iff, payload?, Option.map_eq_some_iff] at h ⊢
    obtain ⟨n, found, isFn⟩ := h
    exact ⟨n, dropped.node_before found, isFn⟩
  | redraw redraws =>
    refine allotted.of_wanes hsq wanes fun f d h => ?_
    rwa [redraws.rewires.skeleton.function?] at h
  | thread threads reth =>
    refine allotted.of_wanes hsq wanes fun f d h => ?_
    rwa [reth.bodies] at h
  | resettle settle staffed allots => exact allots returns allotted

theorem kept_allotted (returns : pr.returnsOwned) : Kept pr Allotted where
  grow := by
    intro p q v ty payload hs hsq added blank noInst allotted f d h
    rw [added.exchanged.function?, Function.update_apply] at h
    split at h
    next isNew =>
      cases payload with
      | function made =>
        obtain rfl := Option.some.inj h
        exact allots_of_none blank.2.2
      | _ => cases h
    next => exact allotted.of_waxes hs added.waxes h
  build := by
    intro p q i ty kind hs built allotted f d h
    obtain ⟨started, added, joined⟩ := built.added
    rw [joined.rewires.skeleton.function?, added.exchanged.function?, Function.update_apply] at h
    split at h
    next => cases h
    next => exact allotted.of_waxes hs (built.waxes hs) h
  adopt := by
    intro p q i write l hs adopts allotted
    have rea := adopts.relinked.restrings.rearranges
    refine allotted.of_wanes (adopts.sound hs) rea.wanes fun f d h => ?_
    rwa [rea.bodies] at h
  shape := fun hs shapes => shapes.allotted hs returns

theorem allotted_of_runAll? {name : String} {cfg : Settings} {ops : List Operation} {s : Program}
    (run : (initial name cfg).runAll? ops = some s)
    (along : (initial name cfg).Along (fun p op _ => op.ReturnsOwned p) ops) : s.Allotted := by
  refine (runAll?_invariant (fun hs allotted returns leads => ?_) (sound_initial name cfg)
    ?_ along run).2
  · exact (kept_allotted returns).reaches hs leads.reaches allotted
  · intro f d h
    simp [function?] at h

end Program

/-- In runs in which only registers that their functions list are given back, the
registers of a function have different slots, none of them free, no slot is free twice,
and these are all slots before the next one. -/
theorem register_slots_not_shared {name : String} {settings : Settings}
    {operations : List Operation} {program : Program} {function : FuncId} {data : Function}
    {file : RegisterFile}
    (run : (Program.initial name settings).runAll? operations = some program)
    (along : (Program.initial name settings).Along
      (fun before operation _ => operation.ReturnsOwned before) operations)
    (held : program.function? function = some data) (found : data.registers = some file) :
    ∃ slot : RegId → Nat, (∀ register ∈ file.live, program.register? register =
        some { parent := function, slot := slot register }) ∧
      (file.live.map slot).Nodup ∧
      (∀ register ∈ file.live, slot register ∉ file.free) ∧
      file.free.Nodup ∧
      ∀ number, number < file.next ↔
        number ∈ file.free ∨ ∃ register ∈ file.live, slot register = number := by
  have perm := allotted_of_runAll? run along function data held file found
  have fits := (sound_of_runAll? run).staffed function data held
  let slot : RegId → Nat := fun register => ((program.register? register).map (·.slot)).getD 0
  have slots : ∀ register ∈ file.live, program.register? register =
      some { parent := function, slot := slot register } := by
    intro register member
    obtain ⟨register', known, rfl⟩ := fits.granted register
      (by simpa [Function.granted, found] using member)
    simp [slot, known]
  have listed : file.live.filterMap (fun register => (program.register? register).map (·.slot)) =
      file.live.map slot := by
    rw [← List.filterMap_eq_map]
    refine List.filterMap_congr fun register member => ?_
    simp [slots register member]
  rw [listed] at perm
  obtain ⟨nodupLive, nodupFree, disjoint⟩ :=
    List.nodup_append.mp (perm.nodup_iff.mpr List.nodup_range)
  refine ⟨slot, slots, nodupLive, fun register member inFree => ?_, nodupFree, fun number => ?_⟩
  · exact disjoint _ (List.mem_map_of_mem member) _ inFree rfl
  · rw [← List.mem_range, ← perm.mem_iff, List.mem_append, List.mem_map, or_comm]

/-- A register is given back and another one granted in its slot. -/
theorem reused_slot_not_shared :
    ∃ program, (Program.initial "m" .standard).runAll?
        ([.requestType (.function ⟨.void, [], false⟩), .addFunction "f" ⟨13⟩,
          .enableRegisters ⟨0, 0⟩, .allocateRegister ⟨0, 0⟩ ⟨5⟩, .allocateRegister ⟨0, 0⟩ ⟨5⟩] ++
          [.freeRegister ⟨1, 0⟩, .allocateRegister ⟨0, 0⟩ ⟨5⟩]) = some program ∧
      program.function? ⟨0, 0⟩ = some
        { type := ⟨13⟩
          params := []
          body := none
          registers := some { next := 2, free := [], live := [⟨2, 0⟩, ⟨1, 1⟩] } } ∧
      ∃ slot : RegId → Nat, ([⟨2, 0⟩, ⟨1, 1⟩].map slot).Nodup ∧
        ∀ number, number < 2 ↔ ∃ register ∈ [⟨2, 0⟩, ⟨1, 1⟩], slot register = number := by
  refine exists_runAll? fun program run => ?_
  have held : program.function? ⟨0, 0⟩ = some
      { type := ⟨13⟩
        params := []
        body := none
        registers := some { next := 2, free := [], live := [⟨2, 0⟩, ⟨1, 1⟩] } } := by
    apply holds_of_runAll? run
  obtain ⟨slot, -, nodup, -, -, all⟩ := register_slots_not_shared run
    (.append (along_of_forall (by simp [Operation.ReturnsOwned]) _) fun middle runFirst after _ =>
        ⟨fun _ => read_of_runAll? (·.isOwned ⟨1, 0⟩) runFirst (by decide +kernel),
          fun last _ => ⟨trivial, trivial⟩⟩) held rfl
  exact ⟨held, slot, nodup, by simpa using all⟩

/-- A register that the client holds on to can be given back twice, which leaves its slot
free twice. -/
theorem slot_free_twice :
    ∃ program, (Program.initial "m" .standard).runAll?
        [.requestType (.function ⟨.void, [], false⟩), .addFunction "f" ⟨13⟩,
          .enableRegisters ⟨0, 0⟩, .allocateRegister ⟨0, 0⟩ ⟨5⟩, .retain ⟨1, 0⟩,
          .freeRegister ⟨1, 0⟩, .freeRegister ⟨1, 0⟩] = some program ∧
      program.function? ⟨0, 0⟩ = some
        { type := ⟨13⟩
          params := []
          body := none
          registers := some { next := 1, free := [0, 0], live := [] } } := by
  refine exists_runAll? fun program run => ?_
  apply holds_of_runAll? run

end ValueGraph

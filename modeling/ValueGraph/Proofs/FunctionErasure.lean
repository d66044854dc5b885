import Mathlib
import ValueGraph.Proofs.BlockErasure

namespace ValueGraph

open Program List Option Payload

/-!
# What goes with a function

A function that is erased is struck from all lists.  If this was its last owner, its body is
torn down: the instructions of its blocks with what they carry, then the blocks, its
registers and its arguments.  All of them lose one owner, and nothing else does but the
constants that the instructions read.
-/

variable {vacated bare unreg torn p q unlisted emptied : Program} {f : FuncId} {old : Function}
  {v : ValueId} {i : InstId}

/-- The nodes that a function owns, and the function itself. -/
def Function.holdings (data : Function) (function : FuncId) : List ValueId :=
  data.blocks ++ data.granted ++ data.params ++ [function]

namespace Program

variable {s : Program} {d : Function}

theorem mem_holdings_iff :
    v ∈ old.holdings f ↔ v ∈ old.blocks ∨ v ∈ old.granted ∨ v ∈ old.params ∨ v = f := by
  simp [Function.holdings]

section

variable (fits : s.Fits f old) (h : s.function? f = some d)
include fits h

/-- The lists of a function are lists of blocks, of registers and of arguments. -/
theorem Fits.categories :
    (∀ v ∈ old.blocks, (s.payload? v).map Payload.category = some .block) ∧
      (∀ v ∈ old.granted, (s.payload? v).map Payload.category = some .register) ∧
      (∀ v ∈ old.params, (s.payload? v).map Payload.category = some .argument) ∧
      (s.payload? f).map Payload.category = some .function := by
  refine ⟨fun v hb => ?_, fun v granted => ?_, fun v param => ?_, ?_⟩
  · obtain ⟨data, hBlock, -⟩ := map_eq_some_iff.mp (fits.blocks v hb)
    rw [block?_eq_some_iff.mp hBlock]
    rfl
  · obtain ⟨details, hReg, -⟩ := fits.granted v granted
    rw [register?_eq_some_iff.mp hReg]
    rfl
  · obtain ⟨details, hArg, -⟩ := fits.params v param
    rw [argument?_eq_some_iff.mp hArg]
    rfl
  · rw [function?_eq_some_iff.mp h]
    rfl

/-- What a function owns is there, is neither an instruction nor a constant, and is listed as a
block if it is one. -/
theorem Fits.sorts_of_mem (mem : v ∈ old.holdings f) :
    s.isLive v = true ∧ s.isInst v = false ∧
      s.isConstant v = false ∧ (s.isBlock v = true → v ∈ old.blocks) := by
  obtain ⟨blocks, granted, params, isFn⟩ := fits.categories h
  have live : ∀ {kind}, (s.payload? v).map Payload.category = some kind → s.isLive v = true := by
    intro kind isKind
    obtain ⟨payload, found, -⟩ := Option.map_eq_some_iff.mp isKind
    rw [isLive_iff, found, Option.isSome_some]
  rcases mem_holdings_iff.mp mem with hb | isGranted | isParam | rfl
  · refine ⟨live (blocks v hb), ?_⟩
    simp [isInst, isConstant, blocks v hb, hb]
  · refine ⟨live (granted v isGranted), ?_⟩
    simp [isInst, isConstant, isBlock, granted v isGranted]
  · refine ⟨live (params v isParam), ?_⟩
    simp [isInst, isConstant, isBlock, params v isParam]
  · refine ⟨live isFn, ?_⟩
    simp [isInst, isConstant, isBlock, isFn]

theorem Fits.nodup_holdings : (old.holdings f).Nodup := by
  obtain ⟨blocks, granted, params, isFn⟩ := fits.categories h
  have eq : ∀ {v kind category}, (s.payload? v).map Payload.category = some kind →
      (s.payload? v).map Payload.category = some category → kind = category :=
    fun isKind isOther => mem_unique isKind isOther
  refine nodup_append.mpr ⟨nodup_append.mpr ⟨nodup_append.mpr
    ⟨fits.blocksNodup, fits.grantedNodup, ?_⟩, fits.paramsNodup, ?_⟩, nodup_singleton _, ?_⟩
  · rintro v hb _ isGranted rfl
    cases eq (blocks v hb) (granted v isGranted)
  · rintro v mem _ isParam rfl
    rcases mem_append.mp mem with hb | isGranted
    · cases eq (blocks v hb) (params v isParam)
    · cases eq (granted v isGranted) (params v isParam)
  · rintro v mem _ isLast rfl
    obtain rfl := mem_singleton.mp isLast
    simp only [mem_append] at mem
    rcases mem with (hb | isGranted) | isParam
    · cases eq (blocks v hb) isFn
    · cases eq (granted v isGranted) isFn
    · cases eq (params v isParam) isFn

end

/-- A function is struck from all lists and loses its own list of blocks; nothing else
changes. -/
structure Unbinds (before after : Program) (function : FuncId) : Prop where
  nodes : ∀ value, value ≠ function → after.values.get? value = before.values.get? value
  counts : after.values.count? = before.values.count?
  edges : after.edges = before.edges
  operands : after.operandsOf = before.operandsOf
  links : after.link? = before.link?
  blocks : after.block? = before.block?
  constants : after.isConstant = before.isConstant
  threads : after.threads = before.threads

/-- The stages in which a function goes. -/
structure FunctionStages
    (before unlisted emptied after : Program)
    (function : FuncId)
    (old : Function) : Prop where
  held : before.function? function = some old
  last : before.countOf function = 1
  fits : before.Fits function old
  unbinds : before.Unbinds unlisted function
  shrunk : ∃ promise, Shrunk promise before unlisted
  demolished : unlisted.Demolished emptied after old.blocks (old.holdings function)
    (old.holdings function)
  lists : after.surroundings = (before.strike function).surroundings
  unseated : ∀ block ∈ old.blocks, ∀ seat, after.seat? block = some seat → seat = none

/-- A function is gone with its body; all else stays. -/
structure ErasesFunction
    (before after : Program)
    (function : FuncId)
    (members blocks : List ValueId)
    (insts : List InstId) : Prop where
  functions : after.functions = before.functions.filter (· != function)
  symbols : ∀ text, after.symbol? text = (before.symbol? text).filter (· != function)
  gone : after.isLive function = false
  givesUp : ∀ value ∈ members ++ blocks, before.GivesUp after value
  emptied : ∀ block data, block ∈ blocks → after.block block = .ok data →
    data.parent = none ∧ after.instructions block = .ok []
  goes : ∀ inst, before.GoesWith insts inst → before.GivesUp after inst ∧
    (after.isLive inst = true → after.status inst = .ok .finalized ∧ after.operands inst = .ok [])
  uses : ∃ (torn : List InstId) (lists : List (List EdgeId)),
    (∀ inst, inst ∈ torn ↔ before.GoesWith insts inst) ∧ torn.Nodup ∧
    torn.mapM before.operands = .ok lists ∧
    before.edges.size = after.edges.size + (lists.map List.length).sum
  edges : ∀ edge data, after.edge edge = .ok data ↔
    before.edge edge = .ok data ∧ ¬ before.GoesWith insts data.user
  freed : ∀ value, before.isLive value = true → after.isLive value = false →
    value = function ∨ value ∈ members ++ blocks ∨ before.GoesWith insts value ∨
      (before.isConstant value = true ∧ ∃ uses, before.usedBy value = .ok uses ∧
        before.values.count? value = some uses.length ∧
        ∀ edge ∈ uses, ∃ data, before.edge edge = .ok data ∧ before.GoesWith insts data.user)
  operands : ∀ user old, ¬ before.GoesWith insts user → after.isLive user = true →
    before.operands user = .ok old → after.operands user = .ok old
  cores : ∀ value, value ∉ members ++ blocks → ¬ before.GoesWith insts value →
    after.isLive value = true → after.core? value = before.core? value
  flow : ∀ block old, block ∉ blocks → before.block block = .ok old →
    ∃ new, after.block block = .ok new ∧ old.Loses new blocks
  instructions : ∀ block found, block ∉ blocks → before.instructions block = .ok found →
    after.instructions block = .ok found
  counts : ∀ value, value ≠ function → value ∉ members ++ blocks → ¬ before.GoesWith insts value →
    before.isConstant value = false → after.values.count? value = before.values.count? value

theorem DropsBody.unbinds
    (drops : (p.strike f).DropsBody unlisted emptied vacated bare unreg torn f old d)
    (hs : p.Sound) : p.Unbinds unlisted f := by
  have refit := drops.refitted
  have nodes : ∀ v, v ≠ f → unlisted.values.get? v = p.values.get? v := by
    intro v ne
    obtain ⟨_, -, isUnlisted⟩ := Step.modifyFunction_run.mp drops.unlist
    rw [← isUnlisted, get?_withPayload, if_neg ne]
    rfl
  exact
    { nodes := nodes
      counts := refit.counts
      edges := refit.edges
      operands := refit.operands
      links := refit.links
      blocks := by
        funext b
        by_cases eq : b = f
        · subst eq
          have isFn : p.payload? b = some (.function old) :=
            function?_eq_some_iff.mp drops.held
          have still : unlisted.payload? b = some (.function { old with body := none }) := by
            rw [← function?_eq_some_iff, refit.bodies, Function.update_self]
          rw [block?, block?, isFn, still]
          rfl
        · rw [block?, block?, payload?, payload?, nodes b eq]
      constants := refit.constants
      threads := (hs.chains.of_same refit.links refit.ends).threads_eq }

/-- The empty blocks of a function go, then its registers, its arguments and the function
itself. -/
theorem DropsBody.alters (drops : p.DropsBody unlisted emptied vacated bare unreg torn f old d)
    (hs : p.Sound) (tears : unlisted.Tears emptied old.blocks)
    (run : (Step.dropHandle f).run torn = .ok ((), q)) :
    emptied.Alters q (old.holdings f) (old.holdings f) ∧
      ∀ b ∈ old.blocks, ∀ seat, q.seat? b = some seat → seat = none := by
  have hsEmptied := drops.soundEmptied hs
  have dw := tears.dwindles (drops.soundUnlisted hs)
  have hEmptied : emptied.function? f = some { old with body := none } := by
    rw [dw.bodies, drops.refitted.bodies, Function.update_self]
  have fits : emptied.Fits f old := (drops.fits hs).mono
    (fun v _ => by rw [dw.arguments, drops.refitted.arguments])
    (fun v _ => by rw [dw.registers, drops.refitted.registers])
    (fun b _ => by rw [dw.seats, drops.refitted.seats])
  obtain ⟨blocks, left⟩ := Step.dropBlocks_alters hsEmptied.stored fits.blocksNodup
    (fun b mem => hsEmptied.exists_ends_of_empty
      (by simp [isBlock_eq_seat?, fits.blocks b mem]) (by simp [tears.threads, mem]))
    drops.blocks
  obtain ⟨isGranted, isParams⟩ : d.granted = old.granted ∧ d.params = old.params := by
    rw [drops.data_eq hs]
    exact ⟨rfl, rfl⟩
  have runRegisters := drops.registers
  have runParams := drops.params
  rw [isGranted] at runRegisters
  rw [isParams] at runParams
  have others : ∀ v ∈ old.holdings f, vacated.isInst v = false := by
    intro v mem
    rw [blocks.isInst]
    exact (fits.sorts_of_mem hEmptied mem).2.1
  have strip := Step.modifyFunction_alters blocks.stored drops.strip
  have regs := Step.dropAll_alters strip.stored (fun v mem => by
    rw [strip.isInst]
    exact others v (mem_holdings_iff.mpr (.inr (.inl mem)))) runRegisters
  have params := Step.dropAll_alters regs.stored (fun v mem => by
    rw [regs.isInst, strip.isInst]
    exact others v (mem_holdings_iff.mpr (.inr (.inr (.inl mem))))) runParams
  have last := Step.dropHandle_alters params.stored (by
    rw [params.isInst, regs.isInst, strip.isInst]
    exact others f (mem_holdings_iff.mpr (.inr (.inr (.inr rfl))))) run
  have later := ((strip.trans regs).trans params).trans last
  constructor
  · have among : old.blocks ++ ([f] ++ old.granted ++ old.params ++ [f]) ⊆ old.holdings f := by
      intro v mem
      simp only [mem_append, mem_singleton] at mem
      rw [mem_holdings_iff]
      tauto
    have all := (blocks.trans later).mono among
    simpa only [Function.holdings, nil_append, append_assoc] using all
  · intro b mem seat seated
    have apart : b ∉ [f] ++ old.granted ++ old.params ++ [f] := by
      have nd := fits.nodup_holdings hEmptied
      rw [Function.holdings, append_assoc, append_assoc, nodup_append] at nd
      intro inside
      refine nd.2.2 b mem b ?_ rfl
      simp only [mem_append, mem_singleton] at inside ⊢
      tauto
    rw [seat?, block?, later.payload?_eq apart] at seated
    exact left b mem seat seated

end Program

theorem eraseFunction_stages (hs : p.Sound) (last : p.countOf f = 1)
    (erased : eraseFunction f p = .done () q) :
    ∃ unlisted emptied old, p.FunctionStages unlisted emptied q f old := by
  let pr : Promise := { (default : Promise) with razes := fun _ => True }
  obtain ⟨isFn, lab, strike, ⟨free, unnamed⟩, -, runRelease⟩ : _ ∧ _ ∧
      p.Shapes pr (p.strike f) ∧ _ := eraseFunction_struck hs erased
  have hsStruck := strike.sound hs
  obtain ⟨torn, runBody, runDrop⟩ := Step.releaseFunction_run
    (by rwa [lab.isFunction]) (by rwa [countOf, lab.counts]) runRelease
  obtain ⟨shrunkTorn, surr, -, ⟨bare, hBare, params, body, regs⟩, -⟩ :
      Shrunk pr (p.strike f) torn ∧ _ :=
    Step.dropBody_shrunk hsStruck trivial runBody
  obtain ⟨unlisted, emptied, vacated, stripped, unreg, old, d, drops⟩ := Step.dropBody_run runBody
  have hsUnlisted := drops.soundUnlisted hsStruck
  have tears := Step.dropInstructions_tears hsUnlisted (drops.fits hsStruck).blocksNodup drops.insts
  obtain ⟨alters, unseated⟩ := drops.alters hsStruck tears runDrop
  have drop := Step.dropHandle_spec (Shrunk.sound shrunkTorn hsStruck).stored runDrop
  have isBare : torn.Bare f := by
    refine bare_of_function hBare params body regs ?_ ?_
    · rw [functions_eq_of_surroundings surr]
      simp [Program.strike]
    · rwa [symbols_eq_of_surroundings surr]
  have shrunk : Shrunk pr unlisted q :=
    (drops.shrunk hsStruck trivial).tail (.drop f drop fun _ => isBare)
  have hUnlisted : unlisted.function? f = some { old with body := none } := by
    rw [drops.refitted.bodies, Function.update_self]
  have fits : unlisted.Fits f old := (drops.fits hsStruck).mono
    (fun v _ => by rw [drops.refitted.arguments])
    (fun v _ => by rw [drops.refitted.registers])
    (fun b _ => by rw [drops.refitted.seats])
  refine ⟨unlisted, emptied, old, drops.held, last, ?_, drops.unbinds hs,
    ⟨pr, .head strike (.single (drops.shapes hsStruck trivial))⟩, ?_, ?_, unseated⟩
  · exact hs.staffed f old drops.held
  · exact
      { tears := tears
        alters := alters
        shrunk := ⟨pr, shrunk⟩
        among := fun b mem => mem_holdings_iff.mpr (.inl mem)
        fewer := fun _ mem => mem
        insts := fun v mem => (fits.sorts_of_mem hUnlisted mem).2.1
        constants := fun v mem => (fits.sorts_of_mem hUnlisted mem).2.2.1
        others := fun v mem => (fits.sorts_of_mem hUnlisted mem).2.2.2 }
  · rw [alters.surroundings, (tears.dwindles hsUnlisted).surroundings, drops.refitted.surroundings]

namespace Program

theorem Demolished.size_edges {blocks : List BlockId} {touched given : List ValueId}
    (dem : p.Demolished emptied q blocks touched given) (hs : p.Sound) (flow : p.Flowing) :
    ∃ torn : List InstId, (∀ i, i ∈ torn ↔ p.Torn blocks i) ∧ torn.Nodup ∧
      p.edges.size = q.edges.size + (torn.map fun i => (p.operandsOf i).length).sum := by
  classical
  have isTorn : ∀ i, i ∈ p.values.handles.filter (p.Torn blocks ·) ↔ p.Torn blocks i := by
    intro i
    rw [mem_filter, Arena.mem_handles, decide_eq_true_iff]
    exact and_iff_right_of_imp fun torn => hs.isLive_of_torn torn
  have nd := (Arena.nodup_handles p.values).filter (p.Torn blocks ·)
  refine ⟨_, isTorn, nd, ?_⟩
  rw [← length_flatMap]
  refine Arena.WellFormed.size_eq_add hs.stored.edges (dem.soundAfter hs).stored.edges
    ?_ ?_ fun e => ?_
  · rw [nodup_flatMap]
    refine ⟨fun i _ => hs.wired.nodup i, nd.imp fun ne e first second => ?_⟩
    obtain ⟨d, h, rfl⟩ := hs.wired.edge_of_operand first
    obtain ⟨_, h', isUser⟩ := hs.wired.edge_of_operand second
    obtain rfl := mem_unique h h'
    exact ne isUser
  · intro e goes
    obtain ⟨i, -, listed⟩ := mem_flatMap.mp goes
    obtain ⟨d, h, -⟩ := hs.wired.edge_of_operand listed
    exact Arena.contains_iff_get?.mpr ⟨d, h⟩
  · rw [Arena.contains_iff_get?, Arena.contains_iff_get?]
    simp only [dem.edge_iff hs flow, mem_flatMap, isTorn]
    constructor
    · rintro ⟨d, h, stays⟩
      refine ⟨⟨d, h⟩, fun ⟨i, torn, listed⟩ => stays ?_⟩
      obtain ⟨_, h', rfl⟩ := hs.wired.edge_of_operand listed
      obtain rfl := mem_unique h h'
      exact torn
    · rintro ⟨⟨d, h⟩, stays⟩
      refine ⟨d, h, fun torn => stays ⟨d.user, torn, ?_⟩⟩
      exact flow.listed e d.outline (wire?_of_get? h) (hs.isLive_of_torn torn)

namespace FunctionStages

variable (stages : p.FunctionStages unlisted emptied q f old) (hs : p.Sound)

include stages

omit hs in
theorem countOf_unlisted : unlisted.countOf = p.countOf := by
  funext v
  rw [countOf, countOf, stages.unbinds.counts]

theorem neatUnlisted (neat : p.Neat) : unlisted.Neat := by
  refine neat.mono (fun u => by rw [stages.unbinds.operands]) (fun e d => ?_)
    fun inner l outer h _ => by rwa [← stages.unbinds.links]
  rw [wire?, wire?, stages.unbinds.edges]
  exact id

/-- What is taken apart is what stands in the blocks and what is nested under it. -/
theorem torn_iff (hs : p.Sound) (writes : p.Writes) (regs : p.WritesRegisters) :
    unlisted.Torn old.blocks i ↔ p.GoesWith (old.blocks.flatMap p.threads) i := by
  have carries : unlisted.Carries = p.Carries := by
    funext outer inner
    have holds : unlisted.Holds outer inner = p.Holds outer inner := by
      rw [Holds, Holds, stages.unbinds.links]
    have reads : unlisted.Reads outer inner = p.Reads outer inner := by
      simp only [Reads, wire?, stages.unbinds.operands, stages.unbinds.edges]
    exact propext ⟨fun carries => ⟨holds ▸ carries.1, reads ▸ carries.2⟩,
      fun carries => ⟨holds ▸ carries.1, reads ▸ carries.2⟩⟩
  have torn : unlisted.Torn old.blocks i ↔ p.Torn old.blocks i := by
    rw [Torn, Torn, carries, stages.unbinds.threads]
  rw [torn, Program.torn_iff hs writes regs]

include hs

theorem soundUnlisted : unlisted.Sound := by
  obtain ⟨pr, shrunk⟩ := stages.shrunk
  exact Shrunk.sound shrunk hs

theorem soundAfter : q.Sound :=
  stages.demolished.soundAfter (stages.soundUnlisted hs)

theorem flowingUnlisted (flow : p.Flowing) : unlisted.Flowing := by
  obtain ⟨pr, shrunk⟩ := stages.shrunk
  exact Shrunk.flowing shrunk hs flow

theorem countOf_eq (neat : p.Neat) (out : ¬ unlisted.Torn old.blocks v)
    (kept : v ∉ old.holdings f) (noConstant : p.isConstant v = false) :
    q.countOf v = p.countOf v := by
  rw [stages.demolished.countOf_eq (stages.soundUnlisted hs) (stages.neatUnlisted neat) out
    kept (by rw [stages.unbinds.constants, noConstant]), stages.countOf_unlisted]

theorem countOf_of_torn (neat : p.Neat) (torn : unlisted.Torn old.blocks i) :
    q.countOf i + 1 = p.countOf i := by
  rw [stages.demolished.countOf_of_torn (stages.soundUnlisted hs) (stages.neatUnlisted neat) torn,
    stages.countOf_unlisted]

theorem countOf_of_mem (neat : p.Neat) (mem : v ∈ old.holdings f) :
    q.countOf v + 1 = p.countOf v := by
  obtain ⟨live, notInst, notConstant, -⟩ := stages.fits.sorts_of_mem stages.held mem
  have out : ¬ unlisted.Torn old.blocks v := fun torn => by
    have hi := ((stages.soundUnlisted hs).ongoing_of_torn torn).isInst
    rw [isInst_eq, stages.unbinds.links, ← isInst_eq, notInst] at hi
    cases hi
  have once := count_eq_one_of_mem (stages.fits.nodup_holdings stages.held) mem
  have owned := hs.stored.isLive_iff.mp live
  rw [stages.demolished.alters.counts, once, stages.demolished.tears.countOf_eq
    (stages.soundUnlisted hs) (stages.neatUnlisted neat) out
    (by rw [stages.unbinds.constants, notConstant]), stages.countOf_unlisted]
  omega

theorem constant_gone (neat : p.Neat) (flow : p.Flowing) (ne : v ≠ f) (c : p.isConstant v = true)
    (live : p.isLive v = true) (gone : q.isLive v = false) :
    p.values.count? v = some (p.usesOf v).length ∧ ∀ e ∈ p.usesOf v, ∃ d, p.edges.get? e = some d ∧
        unlisted.Torn old.blocks d.user := by
  obtain ⟨owners, users⟩ := stages.demolished.constant_gone (stages.soundUnlisted hs)
    (stages.neatUnlisted neat) (stages.flowingUnlisted hs flow)
    (by rw [stages.unbinds.constants, c]) gone
  have uses : unlisted.usesOf v = p.usesOf v := by
    rw [usesOf, usesOf, stages.unbinds.nodes v ne]
  rw [uses, stages.countOf_unlisted] at owners
  rw [uses, stages.unbinds.edges] at users
  refine ⟨?_, users⟩
  rw [hs.stored.count?_eq, if_neg (hs.stored.isLive_iff.mp live), owners]

/-- A text that led to the function leads to nothing; all others lead where they led. -/
theorem symbol?_eq (text : String) : q.symbol? text = (p.symbol? text).filter (· != f) := by
  have symbols : q.symbols = p.symbols.filter (·.2 != f) := symbols_eq_of_surroundings stages.lists
  have names : q.names = p.names := by
    have eq := congrArg names stages.lists
    exact eq
  ext symbol
  rw [filter_eq_some_iff,
    (stages.soundAfter hs).catalogue.symbol?_eq_some_iff, hs.catalogue.symbol?_eq_some_iff,
    symbols, names]
  simp only [mem_filter]
  tauto

theorem erasesFunction (neat : p.Neat) (flowing : p.Flowing) (writes : p.Writes)
    (regs : p.WritesRegisters) :
    p.ErasesFunction q f (old.params ++ old.granted) old.blocks (old.blocks.flatMap p.threads) := by
  have hsUnlisted := stages.soundUnlisted hs
  have flowingUnlisted := stages.flowingUnlisted hs flowing
  have hsq := stages.soundAfter hs
  have goesWith : ∀ v, unlisted.Torn old.blocks v ↔ p.GoesWith (old.blocks.flatMap p.threads) v :=
    fun v => stages.torn_iff hs writes regs
  have mem_iff : ∀ v, v ∈ old.holdings f ↔ v = f ∨ v ∈ old.params ++ old.granted ++ old.blocks := by
    intro v
    rw [mem_holdings_iff, mem_append, mem_append]
    tauto
  have counts : ∀ v, v ≠ f → v ∉ old.params ++ old.granted ++ old.blocks →
      ¬ p.GoesWith (old.blocks.flatMap p.threads) v →
      p.isConstant v = false → q.countOf v = p.countOf v := by
    intro v ne unlisted out noConstant
    refine stages.countOf_eq hs neat (mt (goesWith v).mp out) ?_ noConstant
    rw [mem_iff]
    exact not_or.mpr ⟨ne, unlisted⟩
  have edges : ∀ e d, q.edges.get? e = some d ↔ p.edges.get? e = some d ∧
      ¬ p.GoesWith (old.blocks.flatMap p.threads) d.user := by
    intro e d
    rw [stages.demolished.edge_iff hsUnlisted flowingUnlisted, stages.unbinds.edges, goesWith]
  have gone : q.isLive f = false := by
    have given := stages.countOf_of_mem hs neat ((mem_iff f).mpr (.inl rfl))
    rw [stages.last] at given
    rw [Bool.eq_false_iff, ne_eq, hsq.stored.isLive_iff]
    omega
  exact
    { functions := functions_eq_of_surroundings stages.lists
      symbols := stages.symbol?_eq hs
      gone := gone
      givesUp := fun v mem => givesUp_of_countOf hs.stored hsq.stored
        (stages.countOf_of_mem hs neat ((mem_iff v).mpr (.inr mem)))
      emptied := by
        intro b d mem h
        have hBlock := block_eq_ok.mp h
        refine ⟨stages.unseated b mem d.parent (by rw [seat?, hBlock, map_some]),
          ?_⟩
        exact stages.demolished.instructions_eq_nil hsUnlisted mem
          (isBlock_iff.mpr ⟨d, hBlock⟩)
      goes := by
        intro i goes
        have torn := (goesWith i).mpr goes
        exact ⟨givesUp_of_countOf hs.stored hsq.stored
          (stages.countOf_of_torn hs neat torn),
          stages.demolished.remains_of_torn hsUnlisted torn⟩
      uses := by
        obtain ⟨torn, isTorn, nd, size⟩ :=
          stages.demolished.size_edges hsUnlisted flowingUnlisted
        rw [stages.unbinds.edges, stages.unbinds.operands] at size
        refine ⟨torn, torn.map p.operandsOf, fun i => (isTorn i).trans (goesWith i),
          nd, mapM_eq_ok.mpr ?_, by rw [size, List.map_map]; rfl⟩
        rw [forall₂_map_right_iff, forall₂_same]
        intro i mem
        refine operands_eq_ok_iff_of_live.mpr ⟨?_, rfl⟩
        have hi := (hsUnlisted.ongoing_of_torn ((isTorn i).mp mem)).isInst
        rw [isInst_eq, stages.unbinds.links, ← isInst_eq] at hi
        exact isLive_of_category hi
      edges := fun e d => by rw [edge_eq_ok, edge_eq_ok, edges]
      freed := by
        intro v live dead
        by_contra stays
        simp only [not_or] at stays
        obtain ⟨ne, unlisted, out, notConstant⟩ := stays
        have c : p.isConstant v = true := by
          by_contra noConstant
          have eq := counts v ne unlisted out (by simpa using noConstant)
          rw [isLive_eq_of_countOf hs.stored hsq.stored eq, live] at dead
          cases dead
        obtain ⟨owners, users⟩ :=
          stages.constant_gone hs neat flowing ne c live dead
        refine notConstant ⟨c, p.usesOf v,
          usedBy_eq_ok_iff_of_live.mpr ⟨live, rfl⟩, owners, fun e isUse => ?_⟩
        obtain ⟨d, h, torn⟩ := users e isUse
        exact ⟨d, edge_eq_ok.mpr h, (goesWith d.user).mp torn⟩
      operands := by
        intro u others out live read
        obtain ⟨-, rfl⟩ := operands_eq_ok_iff_of_live.mp read
        refine operands_eq_ok_iff_of_live.mpr ⟨live, ?_⟩
        rw [stages.demolished.operandsOf_eq (mt (goesWith u).mp out) live,
          stages.unbinds.operands]
      cores := by
        intro v out apart live
        have ne : v ≠ f := by
          rintro rfl
          simp [gone] at live
        have untouched : v ∉ old.holdings f := by
          rw [mem_iff]
          exact not_or.mpr ⟨ne, out⟩
        rw [stages.demolished.core?_eq hsUnlisted (mt (goesWith v).mp apart) untouched live,
          core?, core?, stages.unbinds.nodes v ne]
      flow := by
        intro b data stays h
        obtain ⟨new, hNew, loses⟩ := stages.demolished.block_loses hsUnlisted flowingUnlisted
          stays (by rw [stages.unbinds.blocks, block_eq_ok.mp h])
        exact ⟨new, block_eq_ok.mpr hNew, loses⟩
      instructions := by
        intro b members stays read
        refine stages.demolished.instructions_eq hsUnlisted flowingUnlisted stays ?_
        have hb := isBlock_of_instructions read
        rw [← read, hs.chains.instructions_eq_ok hb, hsUnlisted.chains.instructions_eq_ok,
          stages.unbinds.threads]
        rwa [isBlock_iff, stages.unbinds.blocks, ← isBlock_iff]
      counts := fun v ne unlisted out noConstant =>
        count?_eq_of_countOf hs.stored hsq.stored
          (counts v ne unlisted out noConstant) }

end FunctionStages

end Program

/-- A function that is erased by its last owner is found under no name and goes with its body.
Its arguments, registers and blocks, what stands in them and what is nested there lose one
owner, and go with their last one; what is left of them is empty.  As many uses go as these
instructions had operands.  Nothing else goes but constants that only they owned, and nothing
else changes. -/
theorem erased_function_goes_with_its_body {name : String} {settings : Settings}
    {operations : List Operation} {program after : Program} {function : FuncId}
    (run : (Program.initial name settings).runAll? operations = some program)
    (short : operations.length < 2 ^ 32) (registers : program.WritesRegisters)
    (last : program.values.count? function = some 1)
    (erased : eraseFunction function program = .done () after) :
    ∃ params granted blocks insts, program.params function = .ok params ∧
      program.registers function = .ok granted ∧ program.blocks function = .ok blocks ∧
      program.instructionsOf blocks = .ok insts ∧
      program.ErasesFunction after function (params ++ granted) blocks insts := by
  have sound := sound_of_runAll? run
  have writes := writes_of_runAll? run (.inl short)
  obtain ⟨unlisted, emptied, old, stages⟩ :=
    eraseFunction_stages sound (count?_eq_one_iff.mp last) erased
  have held := function_eq_ok.mpr stages.held
  refine ⟨old.params, old.granted, old.blocks, old.blocks.flatMap program.threads, ?_, ?_,
    blocks_eq_ok stages.held,
    sound.instructionsOf_eq_ok fun block => sound.isBlock_of_mem_blocks stages.held,
    stages.erasesFunction sound
      (writes.neat sound (registers.obeys sound)) (charted_of_runAll? run short).flowing
      writes registers⟩
  · simp only [Program.params, bind_eq_ok, pure_eq_ok]
    exact ⟨old, held, rfl⟩
  · simp only [Program.registers, bind_eq_ok, pure_eq_ok]
    refine ⟨old, held, ?_⟩
    cases file : old.registers <;> simp [Function.granted, file]

/-- A function with an argument and a register has a block that leads to itself, with a write
that a sum is nested under.  The client holds on to the block and to the sum. -/
def heldLoop : List Operation :=
  [.requestType (.function ⟨.void, [⟨5⟩], false⟩), .addFunction "f" ⟨13⟩, .enableRegisters ⟨0, 0⟩,
    .allocateRegister ⟨0, 0⟩ ⟨5⟩, .constSigned ⟨5⟩ 1, .buildBinary .add ⟨1, 0⟩ ⟨3, 0⟩,
    .retain ⟨4, 0⟩, .buildRegWrite ⟨2, 0⟩ ⟨4, 0⟩, .addBlock ⟨0, 0⟩, .retain ⟨6, 0⟩,
    .buildBr ⟨6, 0⟩, .pushBack ⟨6, 0⟩ ⟨7, 0⟩, .pushFront ⟨6, 0⟩ ⟨5, 0⟩]

/-- The function is erased; the block and the sum stay with the client, and five uses go. -/
theorem erased_loop_goes_with_its_body :
    ∃ program, (Program.initial "m" .standard).runAll? heldLoop = some program ∧
      program.WritesRegisters ∧ program.values.count? ⟨0, 0⟩ = some 1 ∧ program.edges.size = 5 ∧
      ∃ after, eraseFunction ⟨0, 0⟩ program = .done () after ∧
        ([⟨1, 0⟩, ⟨4, 0⟩, ⟨6, 0⟩].map after.values.count?, after.edges.size) =
          ([none, some 1, some 1], 0) ∧
        program.ErasesFunction after ⟨0, 0⟩ [⟨1, 0⟩, ⟨2, 0⟩] [⟨6, 0⟩] [⟨5, 0⟩, ⟨7, 0⟩] := by
  refine exists_runAll? fun program run => ?_
  have registers : program.WritesRegisters :=
    writesRegisters_of_checkNodes (read_of_runAll? (·.checkNodes _) run (by decide +kernel))
  obtain ⟨last, size, isParams, isGranted, isBlocks, isInsts⟩ :
      program.values.count? ⟨0, 0⟩ = some 1 ∧ program.edges.size = 5 ∧
      program.params ⟨0, 0⟩ = .ok [⟨1, 0⟩] ∧ program.registers ⟨0, 0⟩ = .ok [⟨2, 0⟩] ∧
      program.blocks ⟨0, 0⟩ = .ok [⟨6, 0⟩] ∧
      program.instructionsOf [⟨6, 0⟩] = .ok [⟨5, 0⟩, ⟨7, 0⟩] := by
    apply holds_of_runAll? run
  obtain ⟨after, erased, reads⟩ := done_of_runAll? (eraseFunction ⟨0, 0⟩) ()
    (fun after => ([⟨1, 0⟩, ⟨4, 0⟩, ⟨6, 0⟩].map after.values.count?, after.edges.size))
    ([none, some 1, some 1], 0) run
  obtain ⟨params, granted, blocks, insts, readParams, readGranted, readBlocks, readInsts, erases⟩ :=
    erased_function_goes_with_its_body run (by decide) registers last erased
  obtain rfl := Except.ok.inj (isParams.symm.trans readParams)
  obtain rfl := Except.ok.inj (isGranted.symm.trans readGranted)
  obtain rfl := Except.ok.inj (isBlocks.symm.trans readBlocks)
  obtain rfl := Except.ok.inj (isInsts.symm.trans readInsts)
  exact ⟨registers, last, size, after, erased, reads, erases⟩

/-- A sum was nested under a write in a function before the write got another value.  When the
function goes, the sum stays behind, although nobody else owns it. -/
theorem sum_left_behind_by_erased_function :
    ∃ program, (Program.initial "m" .standard).runAll?
        [.requestType (.function ⟨.void, [], false⟩), .addFunction "f" ⟨13⟩,
          .enableRegisters ⟨0, 0⟩, .allocateRegister ⟨0, 0⟩ ⟨5⟩, .constSigned ⟨5⟩ 1,
          .buildBinary .add ⟨2, 0⟩ ⟨2, 0⟩, .buildRegWrite ⟨1, 0⟩ ⟨3, 0⟩,
          .setUse ⟨3, 0⟩ (some ⟨2, 0⟩), .addBlock ⟨0, 0⟩, .buildRet none,
          .pushBack ⟨5, 0⟩ ⟨6, 0⟩, .pushFront ⟨5, 0⟩ ⟨4, 0⟩] = some program ∧
      program.WritesRegisters ∧
      program.values.count? ⟨0, 0⟩ = some 1 ∧
      program.instructionsOf [⟨5, 0⟩] = .ok [⟨4, 0⟩, ⟨6, 0⟩] ∧
      program.nestingParent? ⟨3, 0⟩ = .ok (some ⟨4, 0⟩) ∧
      program.values.count? ⟨3, 0⟩ = some 1 ∧
      ∃ after, eraseFunction ⟨0, 0⟩ program = .done () after ∧
        (after.isLive ⟨3, 0⟩, after.status ⟨3, 0⟩) = (true, .ok .reparent) := by
  refine exists_runAll? fun program run => ⟨?_, ?_, ?_, ?_, ?_, ?_⟩
  · exact writesRegisters_of_checkNodes (read_of_runAll? (·.checkNodes _) run (by decide +kernel))
  · apply holds_of_runAll? run
  · apply holds_of_runAll? run
  · apply holds_of_runAll? run
  · apply holds_of_runAll? run
  · exact done_of_runAll? (eraseFunction ⟨0, 0⟩) ()
      (fun after => (after.isLive ⟨3, 0⟩, after.status ⟨3, 0⟩)) (true, .ok .reparent) run

end ValueGraph

import Mathlib
import ValueGraph.Proofs.Flows

open Function

namespace ValueGraph

open Program Option

/-!
# Changes of the skeleton

Placing instructions, moving blocks in and out of functions and finalizing
exchange what single nodes are for something of the same sort.  Such changes
leave the wiring, the flow graph and the owning handles as they are.
-/

variable {oldBlock : Block} {i start : InstId} {b src : BlockId} {change : Inst → Inst}
  {prev tgt next : Option InstId} {v : ValueId} {old new : Payload} {p q r : Program}
  {answer : Unit}

/-! ### Exchanged payloads -/

namespace Program

variable {s : Program}

/-- Exchanging a payload for one of the same sort keeps the sort of every node. -/
theorem category_withPayload (h : s.payload? v = some old) (eq : new.category = old.category)
    (value : ValueId) :
    ((s.withPayload v new).payload? value).map (·.category) =
      (s.payload? value).map (·.category) := by
  rw [payload?_withPayload h]
  split
  next isValue => rw [isValue, h, map_some, map_some, eq]
  next => rfl

theorem link?_withInst {oldInst : Inst} (h : s.inst? v = some oldInst) (newInst : Inst) :
    (s.withPayload v (.inst newInst)).link? = update s.link? v (some newInst.link) := by
  funext other
  simp only [link?, inst?_withInst h, update_apply]
  split <;> rfl

theorem ends?_withBlock (h : s.block? v = some oldBlock) (newBlock : Block) :
    (s.withPayload v (.block newBlock)).ends? = update s.ends? v (some newBlock.ends) := by
  funext other
  simp only [ends?, block?_withBlock h, update_apply]
  split <;> rfl

theorem seat?_withBlock (h : s.block? v = some oldBlock) (newBlock : Block) :
    (s.withPayload v (.block newBlock)).seat? = update s.seat? v (some newBlock.parent) := by
  funext other
  simp only [seat?, block?_withBlock h, update_apply]
  split <;> rfl

theorem function?_withFunction {oldFunction : Function} (h : s.function? v = some oldFunction)
    (newFunction : Function) :
    (s.withPayload v (.function newFunction)).function? = update s.function? v (some newFunction) :=
  view_withPayload _ (function?_eq_some_iff.mp h) _

end Program

/-! ### The relation -/

/-- Nodes become others of the same sort; what they read, who reads them and who owns them stay
as they are. -/
structure Program.Reforms (before after : Program) : Prop extends SameWiring before after where
  surroundings : after.surroundings = before.surroundings
  insts : after.isInst = before.isInst
  kinds : after.kind? = before.kind?
  labels : after.label? = before.label?
  blocks : after.isBlock = before.isBlock
  globals : after.global? = before.global?

/-- Nodes become others of the same sort, and the flow graph leads where it led. -/
structure Program.Reshapes (before after : Program) : Prop extends Reforms before after where
  jumps : after.jumps = before.jumps
  arrivals : after.arrivals = before.arrivals
  functions : after.isFunction = before.isFunction

namespace Program.Reforms

theorem refl (s : Program) : s.Reforms s :=
  ⟨.refl s, rfl, rfl, rfl, rfl, rfl, rfl⟩

theorem trans (earlier : p.Reforms q) (later : q.Reforms r) : p.Reforms r where
  toSameWiring := earlier.toSameWiring.trans later.toSameWiring
  surroundings := later.surroundings.trans earlier.surroundings
  insts := later.insts.trans earlier.insts
  kinds := later.kinds.trans earlier.kinds
  labels := later.labels.trans earlier.labels
  blocks := later.blocks.trans earlier.blocks
  globals := later.globals.trans earlier.globals

section

variable (eq : p.Reforms q)
include eq

theorem types : q.type? = p.type? := by
  rw [type?_eq_label?, type?_eq_label?, eq.labels]

theorem names : q.name? = p.name? := by
  rw [name?_eq_label?, name?_eq_label?, eq.labels]

theorem shells : q.shell? = p.shell? := by
  rw [shell?_eq_kind?, shell?_eq_kind?, eq.kinds]

theorem targetsOf : q.targetsOf = p.targetsOf := by
  funext i
  have leads : q.leadsTo? = p.leadsTo? := by
    funext kind edge
    simp only [leadsTo?, eq.wire?, eq.blocks]
  simp only [Program.targetsOf, eq.shells, eq.operands, leads]

end

end Program.Reforms

namespace Program.Reshapes

variable {first second third : Program}

theorem refl (s : Program) : s.Reshapes s :=
  ⟨.refl s, rfl, rfl, rfl⟩

theorem trans (earlier : first.Reshapes second) (later : second.Reshapes third) :
    first.Reshapes third where
  toReforms := earlier.toReforms.trans later.toReforms
  jumps := later.jumps.trans earlier.jumps
  arrivals := later.arrivals.trans earlier.arrivals
  functions := later.functions.trans earlier.functions

/-- Exchanging a payload for one of the same sort with the same kind of instruction
and the same counts. -/
theorem ofPayload (h : first.payload? v = some old) (category : new.category = old.category)
    (kind : new.inst?.map (·.kind) = old.inst?.map (·.kind))
    (jumpsTo : new.block?.map (·.jumpsTo) = old.block?.map (·.jumpsTo))
    (comesFrom : new.block?.map (·.comesFrom) = old.block?.map (·.comesFrom))
    (g : new.global? = old.global?) (arg : new.argument? = old.argument?)
    (r : new.register? = old.register?) (c : new.constant? = old.constant?) :
    first.Reshapes (first.withPayload v new) where
  toSameWiring := .ofPayload h c arg r
  surroundings := rfl
  insts := by
    funext value
    simp only [isInst, category_withPayload h category]
  kinds := by
    have readOff := bind_withPayload (fun payload => payload.inst?.map (·.kind)) h kind
    funext inst
    simpa only [kind?, inst?, map_bind, comp_def] using congrFun readOff inst
  labels := label?_withPayload ..
  blocks := by
    funext value
    simp only [isBlock, category_withPayload h category]
  jumps := by
    have readOff := bind_withPayload (fun payload => payload.block?.map (·.jumpsTo)) h jumpsTo
    funext src tgt
    simpa only [jumps_eq_bind] using
      congrArg (·.elim 0 (·.count tgt)) (congrFun readOff src)
  arrivals := by
    have readOff := bind_withPayload (fun payload => payload.block?.map (·.comesFrom)) h comesFrom
    funext src tgt
    simpa only [arrivals_eq_bind] using
      congrArg (·.elim 0 (·.count src)) (congrFun readOff tgt)
  functions := by
    funext value
    simp only [isFunction, category_withPayload h category]
  globals := global?_withPayload h g

theorem ofInst {old new : Inst} (h : first.inst? i = some old) (sameKind : new.kind = old.kind) :
    first.Reshapes (first.withPayload i (.inst new)) :=
  ofPayload (inst?_eq_some_iff.mp h) rfl (by simp [Payload.inst?, sameKind]) rfl rfl rfl rfl rfl rfl

theorem ofBlock {old new : Block} (h : first.block? b = some old)
    (jumpsTo : new.jumpsTo = old.jumpsTo) (comesFrom : new.comesFrom = old.comesFrom) :
    first.Reshapes (first.withPayload b (.block new)) :=
  ofPayload (block?_eq_some_iff.mp h) rfl rfl (by simp [Payload.block?, jumpsTo])
    (by simp [Payload.block?, comesFrom]) rfl rfl rfl rfl

theorem ofFunction {f : FuncId} {old : Function} (h : first.function? f = some old)
    (new : Function) : first.Reshapes (first.withPayload f (.function new)) :=
  ofPayload (function?_eq_some_iff.mp h) rfl rfl rfl rfl rfl rfl rfl rfl

end Program.Reshapes

/-! ### Links and ends -/

/-- Links of instructions and ends of chains change and nothing else does. -/
structure Program.Restrings (before after : Program) : Prop
    extends Reshapes before after where
  seats : after.seat? = before.seat?
  bodies : after.function? = before.function?

namespace Program.Restrings

theorem refl (s : Program) : s.Restrings s :=
  ⟨.refl _, rfl, rfl⟩

theorem trans (earlier : p.Restrings q) (later : q.Restrings r) : p.Restrings r :=
  ⟨earlier.toReshapes.trans later.toReshapes, later.seats.trans earlier.seats,
    later.bodies.trans earlier.bodies⟩

end Program.Restrings

namespace Step

/-- A change of an instruction within its links. -/
theorem modifyInst_restrings (relink : Link → Link)
    (run : (modifyInst i change).run p = .ok (answer, q))
    (sameKind : ∀ d, (change d).kind = d.kind := by intro _; rfl)
    (seen : ∀ d, (change d).link = relink d.link := by intro _; rfl) :
    p.Restrings q ∧ p.isInst i = true ∧ (∀ inst, q.link? inst =
        if inst = i then (p.link? inst).map relink else p.link? inst) ∧
      q.ends? = p.ends? := by
  obtain ⟨d, h, rfl⟩ := modifyInst_run.mp run
  have hPayload := inst?_eq_some_iff.mp h
  have sameBlocks := block?_withInst h (change d)
  refine ⟨⟨.ofInst h (sameKind d), ?_, function?_withPayload hPayload rfl⟩, ?_, fun inst => ?_, ?_⟩
  · funext block
    simp only [seat?, sameBlocks]
  · rw [isInst_eq]
    simp [link?, h]
  · rw [link?_withInst h, update_apply]
    split
    next eq => simp [eq, link?, h, seen]
    next => rfl
  · funext block
    simp only [ends?, sameBlocks]

/-- A change of a block within the ends of its chain. -/
theorem modifyBlock_restrings {change : Block → Block} (reend : Ends → Ends)
    (run : (modifyBlock b change).run p = .ok (answer, q))
    (sameParent : ∀ d, (change d).parent = d.parent := by intro _; rfl)
    (sameJumps : ∀ d, (change d).jumpsTo = d.jumpsTo := by intro _; rfl)
    (sameArrivals : ∀ d, (change d).comesFrom = d.comesFrom := by intro _; rfl)
    (seen : ∀ d, (change d).ends = reend d.ends := by intro _; rfl) :
    p.Restrings q ∧ p.isBlock b = true ∧ q.link? = p.link? ∧ ∀ block, q.ends? block =
        if block = b then (p.ends? block).map reend else p.ends? block := by
  obtain ⟨d, h, rfl⟩ := modifyBlock_run.mp run
  have hPayload := block?_eq_some_iff.mp h
  refine ⟨⟨.ofBlock h (sameJumps d) (sameArrivals d), ?_,
    function?_withPayload hPayload rfl⟩, ?_, ?_, fun block => ?_⟩
  · rw [seat?_withBlock h, sameParent]
    funext block
    by_cases eq : block = b
    · simp [eq, seat?, h]
    · simp [eq]
  · rw [isBlock_eq_ends?]
    simp [ends?, h]
  · funext inst
    simp only [link?, inst?_withBlock h]
  · rw [ends?_withBlock h, update_apply]
    split
    next eq => simp [eq, ends?, h, seen]
    next => rfl

theorem setForward_spec (run : (setForward b prev tgt).run p = .ok (answer, q)) :
    p.Restrings q ∧ (∀ inst, q.link? inst =
        if prev = some inst then (p.link? inst).map ({ · with next := tgt })
        else p.link? inst) ∧
      ∀ block, q.ends? block =
        if prev = none ∧ block = b then (p.ends? block).map ({ · with first := tgt })
        else p.ends? block := by
  unfold setForward at run
  split at run
  next i =>
    obtain ⟨restr, -, links, ends⟩ :=
      modifyInst_restrings ({ · with next := tgt }) run
    refine ⟨restr, fun inst => ?_, fun block => by simp [ends]⟩
    simp only [links, some.injEq, eq_comm (a := inst)]
  next =>
    obtain ⟨restr, -, links, ends⟩ :=
      modifyBlock_restrings ({ · with first := tgt }) run
    exact ⟨restr, fun inst => by simp [links], fun block => by simp [ends]⟩

theorem setBackward_spec (run : (setBackward b next tgt).run p = .ok (answer, q)) :
    p.Restrings q ∧ (∀ inst, q.link? inst =
        if next = some inst then (p.link? inst).map ({ · with prev := tgt })
        else p.link? inst) ∧
      ∀ block, q.ends? block =
        if next = none ∧ block = b then (p.ends? block).map ({ · with last := tgt })
        else p.ends? block := by
  unfold setBackward at run
  split at run
  next i =>
    obtain ⟨restr, -, links, ends⟩ :=
      modifyInst_restrings ({ · with prev := tgt }) run
    refine ⟨restr, fun inst => ?_, fun block => by simp [ends]⟩
    simp only [links, some.injEq, eq_comm (a := inst)]
  next =>
    obtain ⟨restr, -, links, ends⟩ :=
      modifyBlock_restrings ({ · with last := tgt }) run
    exact ⟨restr, fun inst => by simp [links], fun block => by simp [ends]⟩

end Step

/-! ### Splicing -/

/-- A link whose neighbours are told about a change next to them. -/
def Link.spliced (link : Link) (self : InstId) (prev next forward backward : Option InstId) :
    Link :=
  { link with
    next := if prev = some self then forward else link.next
    prev := if next = some self then backward else link.prev }

/-- The ends of a chain after a change between two neighbours. -/
def Ends.spliced
    (ends : Ends)
    (prev next forward backward : Option InstId)
    (length : Nat) : Ends :=
  { first := if prev = none then forward else ends.first
    last := if next = none then backward else ends.last
    length }

namespace Program

/-- One instruction has another link, its neighbours point past or at it, and the
ends and the length of the chain follow. -/
structure Spliced
    (before after : Program)
    (block : BlockId)
    (inst : InstId)
    (relink : Link → Link)
    (prev next forward backward : Option InstId)
    (resize : Nat → Nat) : Prop where
  restrings : before.Restrings after
  isBlock : before.isBlock block = true
  links : ∀ other, after.link? other =
    ((if other = inst then (before.link? other).map relink else before.link? other).map
      (·.spliced other prev next forward backward))
  ends : ∀ other, after.ends? other =
    if other = block then
      (before.ends? other).map fun ends =>
        ends.spliced prev next forward backward (resize ends.length)
    else before.ends? other

end Program

namespace Step

theorem splice_spec {forward backward : Option InstId} {resize : Nat → Nat} (relink : Link → Link)
    (run : (do
      modifyInst i change
      setForward b prev forward
      setBackward b next backward
      modifyBlock b fun d => { d with length := resize d.length } : Step Unit).run
        p = .ok (answer, q)) (sameKind : ∀ d, (change d).kind = d.kind)
    (seen : ∀ d, (change d).link = relink d.link) :
    p.Spliced q b i relink prev next forward backward resize := by
  simp only [run_bind] at run
  obtain ⟨_, relinked, runInst, _, forwarded, runForward, _, backed, runBackward, runLength⟩ := run
  obtain ⟨restringsInst, -, linksInst, endsInst⟩ :=
    modifyInst_restrings relink runInst sameKind seen
  obtain ⟨restringsForward, linksForward, endsForward⟩ := setForward_spec runForward
  obtain ⟨restringsBackward, linksBackward, endsBackward⟩ := setBackward_spec runBackward
  obtain ⟨restringsLength, hb, linksLength, endsLength⟩ :=
    modifyBlock_restrings (fun ends => { ends with length := resize ends.length }) runLength
  have restringsBefore := (restringsInst.trans restringsForward).trans restringsBackward
  refine
    { restrings := restringsBefore.trans restringsLength
      isBlock := by rwa [restringsBefore.blocks] at hb
      links := fun inst => ?_
      ends := fun block => ?_ }
  · rw [linksLength, linksBackward, linksForward, linksInst]
    generalize (if inst = i then (p.link? inst).map relink else p.link? inst) = l
    cases l with
    | none => simp
    | some l =>
      by_cases isPrev : prev = some inst <;> by_cases isNext : next = some inst <;>
        simp [isPrev, isNext, Link.spliced]
  · rw [endsLength, endsBackward, endsForward, endsInst]
    by_cases eq : block = b
    · cases p.ends? block with
      | none => simp [eq]
      | some ends =>
        by_cases isFirst : prev = none <;> by_cases isLast : next = none <;>
          simp [eq, isFirst, isLast, Ends.spliced]
    · simp [eq]

theorem link_spec (run : (link b i prev next).run p = .ok (answer, q)) :
    p.Spliced q b i ({ · with prev, next, holder := some (.block b), status := .connected })
      prev next (some i) (some i) (· + 1) :=
  splice_spec _ run (fun _ => rfl) (fun _ => rfl)

theorem unlink_spec {old : Link} (h : p.link? i = some old)
    (atHome : old.holder = some (.block b)) (run : (unlink i).run p = .ok (answer, q)) :
    p.Spliced q b i ({ · with prev := none, next := none, holder := none, status := .disconnected })
      old.prev old.next old.next old.prev (· - 1) := by
  obtain ⟨d, hInst, rfl⟩ := map_eq_some_iff.mp h
  obtain ⟨_, read, run⟩ := run_look.mp run
  obtain rfl := mem_unique hInst (inst_eq_ok.mp read)
  have atBlock : d.holder = some (.block b) := atHome
  rw [atBlock] at run
  exact splice_spec _ run (fun _ => rfl) (fun _ => rfl)

end Step

/-! ### Moving the end of a chain -/

namespace Program

/-- What cutting a chain in front of an instruction does to the links. -/
def cutLink (start : InstId) (headLast : Option InstId) (self : InstId) (link : Link) : Link :=
  { link with
    prev := if self = start then none else link.prev
    next := if headLast = some self then none else link.next }

/-- The end of a chain, from an instruction on, has moved to another block. -/
structure ChainMoved
    (before after : Program)
    (source target : BlockId)
    (start : InstId)
    (startLink : Link)
    (sourceEnds : Ends)
    (moved : List InstId) : Prop where
  restrings : before.Restrings after
  heldStart : before.link? start = some startLink
  heldSource : before.ends? source = some sourceEnds
  readMoved : ∃ cut : Program,
    (∀ other, cut.link? other = (before.link? other).map
      (cutLink start startLink.prev other)) ∧
    cut.chainFrom (some start) = .ok moved
  links : ∀ other, after.link? other = (before.link? other).map fun link =>
    let link := cutLink start startLink.prev other link
    { link with holder := if other ∈ moved then some (.block target) else link.holder }
  ends : ∀ other, after.ends? other =
    if other = source then
      some
        { first := if startLink.prev = none then none else sourceEnds.first
          last := startLink.prev
          length := sourceEnds.length - moved.length }
    else if other = target then
      some { first := some start, last := sourceEnds.last, length := moved.length }
    else before.ends? other

end Program

namespace Step

theorem rehome_spec {tgt : BlockId} {moved : List InstId}
    (run : (moved.forM fun i =>
      modifyInst i fun d => { d with holder := some (.block tgt) }).run p = .ok (answer, q)) :
    p.Restrings q ∧ q.ends? = p.ends? ∧ ∀ inst, q.link? inst = (p.link? inst).map fun l =>
        { l with holder := if inst ∈ moved then some (.block tgt) else l.holder } := by
  induction moved generalizing p with
  | nil =>
    obtain rfl := run_forM_nil.mp run
    exact ⟨.refl _, rfl, fun inst => by simp⟩
  | cons i rest ih =>
    obtain ⟨m, run1, run'⟩ := run_forM_cons.mp run
    obtain ⟨restr, -, links, ends⟩ := modifyInst_restrings
      ({ · with holder := some (.block tgt) }) run1
    obtain ⟨restringsRest, endsRest, linksRest⟩ := ih run'
    refine ⟨restr.trans restringsRest, endsRest.trans ends, fun inst => ?_⟩
    rw [linksRest, links]
    cases p.link? inst with
    | none => simp
    | some l =>
      by_cases isFirst : inst = i <;> by_cases isRest : inst ∈ rest <;>
        simp [isFirst, isRest]

theorem cutChain_spec {headLast : Option InstId} {headless forwarded : Program}
    (runStart : (modifyInst start fun d => { d with prev := none }).run p = .ok (answer, headless))
    (runForward : (setForward src headLast none).run headless = .ok (answer, forwarded))
    (runLast : (modifyBlock src fun d => { d with last := headLast }).run forwarded =
      .ok (answer, q)) :
    p.Restrings q ∧ (∀ inst, q.link? inst = (p.link? inst).map (cutLink start headLast inst)) ∧
      ∀ block, q.ends? block =
        if block = src then
          (p.ends? block).map fun ends =>
            { ends with
              first := if headLast = none then none else ends.first
              last := headLast }
        else p.ends? block := by
  obtain ⟨restringsStart, -, linksStart, endsStart⟩ :=
    modifyInst_restrings ({ · with prev := none }) runStart
  obtain ⟨restringsForward, linksForward, endsForward⟩ := setForward_spec runForward
  obtain ⟨restringsLast, -, linksLast, endsLast⟩ :=
    modifyBlock_restrings ({ · with last := headLast }) runLast
  refine ⟨(restringsStart.trans restringsForward).trans restringsLast, fun inst => ?_,
    fun block => ?_⟩
  · rw [linksLast, linksForward, linksStart]
    cases p.link? inst with
    | none => simp
    | some l =>
      simp only [map_some, cutLink]
      split_ifs <;> rfl
  · rw [endsLast, endsForward, endsStart]
    by_cases isSource : block = src <;> by_cases isFirst : headLast = none <;>
      simp [isSource, isFirst, comp_def]

theorem moveChain_spec {tgt : BlockId} (ne : tgt ≠ src)
    (run : (moveChain src tgt start).run p = .ok (answer, q)) :
    ∃ startLink sourceEnds moved, p.ChainMoved q src tgt start startLink sourceEnds moved := by
  unfold moveChain at run
  simp only [run_bind, run_get, run_lift, block_eq_ok, inst_eq_ok] at run
  obtain ⟨_, _, ⟨rfl, rfl⟩, sourceData, _, ⟨hSource, rfl⟩, _, _, ⟨rfl, rfl⟩, startData, _,
    ⟨heldStart, rfl⟩, _, headless, runStart, _, cutForward, runForward, _, cut, runLast, _, _,
    ⟨rfl, rfl⟩, moved, _, ⟨readMoved, rfl⟩, _, rehomed, runMoved, _, filled, runTarget,
    runSource⟩ := run
  obtain ⟨restringsCut, linksCut, endsCut⟩ := cutChain_spec runStart runForward runLast
  obtain ⟨restringsMoved, endsMoved, linksMoved⟩ := rehome_spec runMoved
  obtain ⟨restringsTarget, ht, linksTarget, endsTarget⟩ :=
    modifyBlock_restrings
      (fun _ => { first := some start, last := sourceData.last, length := moved.length }) runTarget
  obtain ⟨restringsSource, -, linksSource, endsSource⟩ :=
    modifyBlock_restrings (fun ends => { ends with length := ends.length - moved.length })
      runSource
  have hb : p.isBlock tgt = true := by
    rwa [restringsMoved.blocks, restringsCut.blocks] at ht
  refine ⟨startData.link, sourceData.ends, moved,
    { restrings := (restringsCut.trans restringsMoved).trans
        (restringsTarget.trans restringsSource)
      heldStart := link?_of_inst? heldStart
      heldSource := by rw [ends?, hSource, map_some]
      readMoved := ⟨cut, linksCut, readMoved⟩
      links := fun inst => ?_
      ends := fun block => ?_ }⟩
  · rw [linksSource, linksTarget, linksMoved, linksCut, map_map]
    rfl
  · rw [endsSource, endsTarget, endsMoved, endsCut]
    by_cases isSource : block = src
    · have endsSource : p.ends? src = some sourceData.ends := by
        rw [ends?, hSource, map_some]
      have apart : src ≠ tgt := ne.symm
      by_cases isFirst : startData.prev = none <;>
        simp [isSource, apart, endsSource, isFirst, Inst.link]
    · by_cases atTarget : block = tgt
      · obtain ⟨ends, hTarget⟩ : ∃ ends, p.ends? tgt = some ends := by
          rw [isBlock_eq_ends?] at hb
          exact isSome_iff_exists.mp hb
        simp [atTarget, ne, hTarget, Block.ends]
      · simp [isSource, atTarget]

end Step

end ValueGraph

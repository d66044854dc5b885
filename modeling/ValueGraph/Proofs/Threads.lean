import Mathlib
import ValueGraph.Proofs.Chains

open Function

namespace ValueGraph

open Program List Option Or

/-!
# Threads

The instructions of every block as one view of a program, and what each edit of
the chains does to it: putting an instruction in, taking one out, exchanging the
terminator and cutting a block in two.  All of them leave the flow graph exact:
a block leads where its last instruction does.
-/

variable {insts front rest : List InstId} {b : BlockId} {d : Block} {term : Option InstId}
  {i : InstId} {chain : BlockId → List InstId} {loose tight : Option BlockId}
  {flow : BlockId → BlockId → Nat} {old l : Link} {s p q r : Program} {a : Unit}

/-! ### Reading a chain -/

namespace Program

/-- The instructions of a block, front to back; none where there is no block. -/
def threads (program : Program) (block : BlockId) : List InstId :=
  match program.instructions block with
  | .ok insts => insts
  | .error _ => []

theorem threads_eq (read : s.instructions b = .ok insts) : s.threads b = insts := by
  rw [threads, read]

namespace Chains

section

variable (chains : s.Chains chain loose)
include chains

/-- The instructions of a block can be read, and they are its chain. -/
theorem instructions_eq_ok (hb : s.isBlock b = true) : s.instructions b = .ok (chain b) := by
  rw [isBlock_eq_ends?, isSome_iff_exists] at hb
  obtain ⟨ends, h⟩ := hb
  have shape := chains.ends b ends h
  obtain ⟨d, hBlock, rfl⟩ := map_eq_some_iff.mp h
  have first : d.first = (chain b).head? := congrArg Ends.first shape
  have short : (chain b).length ≤ s.values.slots.size := by
    refine Arena.length_le_of_contains (chains.nodup b) fun i mem => ?_
    obtain ⟨l, hInst, -⟩ := chains.link_of_mem mem
    obtain ⟨instData, hData, -⟩ := map_eq_some_iff.mp hInst
    obtain ⟨n, found, -⟩ := payload?_eq_some_iff.mp (inst?_eq_some_iff.mp hData)
    exact Arena.contains_iff_get?.mpr ⟨n, found⟩
  simp only [instructions, bind_eq_ok, block_eq_ok]
  refine ⟨d, hBlock, ?_⟩
  rw [first, chainFrom]
  refine (chainWithin_eq_ok fun front i rest split => ?_).mpr ⟨Nat.le_succ_of_le short, rfl⟩
  exact ⟨_, chains.linked b front i rest split, rfl⟩

/-- The chains of a program are its threads. -/
theorem threads_eq : s.threads = chain := by
  funext b
  cases hb : s.isBlock b with
  | true => exact Program.threads_eq (chains.instructions_eq_ok hb)
  | false =>
    have out : s.ends? b = none := by
      simpa [isBlock_eq_ends?] using hb
    rw [chains.outside b out, threads]
    cases failed : s.instructions b with
    | error => rfl
    | ok insts =>
      simp only [instructions, bind_eq_ok, block_eq_ok] at failed
      obtain ⟨d, h, -⟩ := failed
      simp [ends?, h] at out

theorem connected_of_mem (mem : i ∈ chain b) : ∃ l, s.link? i = some l ∧ l.status = .connected :=
  (chains.link_of_mem mem).imp fun _ found => ⟨found.1, found.2.1⟩

theorem last_eq (h : s.block? b = some d) : d.last = (chain b).getLast? :=
  congrArg Ends.last (chains.ends b d.ends (by rw [ends?, h, map_some]))

/-- The terminator of a block that is not loose is its last instruction. -/
theorem terminator?_eq (tight : loose ≠ some b) (read : s.terminator? b = .ok term) :
    term = (chain b).getLast? := by
  unfold terminator? at read
  simp only [bind_eq_ok, block_eq_ok] at read
  obtain ⟨d, h, read⟩ := read
  rw [chains.last_eq h] at read
  cases last : (chain b).getLast? with
  | none =>
    rw [last] at read
    exact (pure_eq_ok.mp read).symm
  | some i =>
    rw [last] at read
    simp only [bind_eq_ok, pure_eq_ok, isTerminator_eq_ok] at read
    obtain ⟨ends, ⟨instData, hInst, rfl⟩, rfl⟩ := read
    obtain ⟨front, split⟩ := getLast?_eq_some_iff.mp last
    have hLink := chains.linked b front i [] split
    rw [link?, hInst, map_some, some.injEq] at hLink
    have isTerminator : instData.kind.isTerminator = true := by
      have shown := congrArg Link.isTerminator hLink
      simpa [Inst.link, tight] using shown
    rw [if_pos isTerminator]

end

end Chains

end Program

/-! ### Edits of the chains -/

/-- Links, ends of chains and counts of the flow graph change and nothing else does. -/
structure Program.Rearranges (before after : Program) : Prop extends Reforms before after where
  seats : after.seat? = before.seat?
  bodies : after.function? = before.function?

theorem Program.Rearranges.trans (earlier : p.Rearranges q) (later : q.Rearranges r) :
    p.Rearranges r where
  toReforms := earlier.toReforms.trans later.toReforms
  seats := later.seats.trans earlier.seats
  bodies := later.bodies.trans earlier.bodies

theorem Program.Restrings.rearranges (restr : p.Restrings q) : p.Rearranges q :=
  { restr with }

theorem Program.Reflows.rearranges (reflows : p.Reflows q) : p.Rearranges q :=
  { reflows with
    surroundings := reflows.rewires.surroundings
    insts := reflows.rewires.skeleton.isInst
    kinds := funext fun inst => by simp only [kind?, reflows.insts]
    blocks := reflows.rewires.skeleton.isBlock
    seats := reflows.rewires.skeleton.seat?
    bodies := reflows.rewires.skeleton.function?
    globals := reflows.rewires.skeleton.global? }

/-- A status that an instruction has in or between chains. -/
def Status.Floats (status : Status) : Prop :=
  status = .connected ∨ status = .disconnected

/-- Every instruction keeps its link unless it floats before and after. -/
def Program.Refloats (before after : Program) : Prop :=
  ∀ inst, after.link? inst = before.link? inst ∨
    ∃ old new, before.link? inst = some old ∧ after.link? inst = some new ∧
      old.status.Floats ∧ new.status.Floats

namespace Program.Refloats

theorem of_same (eq : q.link? = p.link?) : p.Refloats q :=
  fun i => inl (congrFun eq i)

theorem trans (earlier : p.Refloats q) (later : q.Refloats r) : p.Refloats r := by
  intro i
  rcases earlier i with kept | ⟨old, m, hOld, hMiddle, floatsOld, floatsMiddle⟩
  · rcases later i with keptAgain | ⟨old, new, hOld, hNew, floats⟩
    · exact inl (keptAgain.trans kept)
    · exact inr ⟨old, new, kept ▸ hOld, hNew, floats⟩
  · rcases later i with kept | ⟨_, new, h', hNew, -, floatsNew⟩
    · exact inr ⟨old, m, hOld, kept.trans hMiddle, floatsOld, floatsMiddle⟩
    · exact inr ⟨old, new, hOld, hNew, floatsOld, floatsNew⟩

end Program.Refloats

theorem Program.Spliced.refloats {relink : Link → Link}
    {prev next forward backward : Option InstId} {resize : Nat → Nat}
    (spliced : p.Spliced q b i relink prev next forward backward resize)
    (floats : ∀ old, p.link? i = some old → old.status.Floats)
    (relinked : ∀ old, (relink old).status.Floats)
    (neighbours : ∀ inst, prev = some inst ∨ next = some inst →
      ∃ l, p.link? inst = some l ∧ l.status = .connected) : p.Refloats q := by
  intro inst
  rw [spliced.links]
  by_cases eq : inst = i
  · subst eq
    rw [if_pos rfl]
    cases h : p.link? inst with
    | none => exact inl rfl
    | some old => exact inr ⟨old, _, rfl, rfl, floats old h, relinked old⟩
  · rw [if_neg eq]
    by_cases beside : prev = some inst ∨ next = some inst
    · obtain ⟨l, h, conn⟩ := neighbours inst beside
      rw [h]
      exact inr ⟨l, _, rfl, rfl, inl conn, inl conn⟩
    · simp only [not_or] at beside
      left
      cases p.link? inst with
      | none => rfl
      | some l => simp [Link.spliced, beside.1, beside.2]

/-- The chains after an edit, with the numbers of edges between blocks. -/
structure Program.Rechains
    (before after : Program)
    (chain : BlockId → List InstId)
    (loose : Option BlockId)
    (flow : BlockId → BlockId → Nat) : Prop
    extends Rearranges before after where
  chains : after.Chains chain loose
  refloats : before.Refloats after
  jumps : after.jumps = flow
  mirrored : before.FlowMirrored → after.FlowMirrored

theorem Program.Rechains.trans {first second : Program} {newChain : BlockId → List InstId}
    {newLoose : Option BlockId} {newFlow : BlockId → BlockId → Nat}
    (earlier : first.Rechains second chain loose flow)
    (later : second.Rechains r newChain newLoose newFlow) :
    first.Rechains r newChain newLoose newFlow where
  toRearranges := earlier.toRearranges.trans later.toRearranges
  chains := later.chains
  refloats := earlier.refloats.trans later.refloats
  jumps := later.jumps
  mirrored := later.mirrored ∘ earlier.mirrored

namespace Step

theorem rechains_of_shifts {shift : Nat → Nat → Nat} {count : BlockId → BlockId → Nat}
    (chains : p.Chains chain loose) (reflows : p.Reflows q) (shifts : p.Shifts q shift count) :
    p.Rechains q chain loose fun src tgt => shift (p.jumps src tgt) (count src tgt) where
  toRearranges := reflows.rearranges
  chains := chains.of_same reflows.rewires.skeleton.link? reflows.rewires.skeleton.ends?
  refloats := .of_same reflows.rewires.skeleton.link?
  jumps := funext fun src => funext fun tgt => (shifts src tgt).1
  mirrored mirrored src tgt := by rw [(shifts src tgt).1, (shifts src tgt).2, mirrored]

theorem attachFlow_rechains (chains : p.Chains chain loose)
    (run : (attachFlow b i).run p = .ok (a, q)) :
    p.Rechains q chain loose fun src tgt =>
      p.jumps src tgt +
        if src = b then (p.targetsOf i).count tgt else 0 :=
  rechains_of_shifts chains (attachFlow_reflows b i run) (attachFlow_counts run)

theorem detachFlow_rechains (chains : p.Chains chain loose)
    (run : (detachFlow b i).run p = .ok (a, q)) :
    p.Rechains q chain loose fun src tgt =>
      p.jumps src tgt -
        if src = b then (p.targetsOf i).count tgt else 0 :=
  rechains_of_shifts chains (detachFlow_reflows b i run) (detachFlow_counts run)

theorem rechains_of_restrings (chains : q.Chains chain loose) (restr : p.Restrings q)
    (refloats : p.Refloats q) : p.Rechains q chain loose p.jumps where
  toRearranges := restr.rearranges
  chains := chains
  refloats := refloats
  jumps := restr.jumps
  mirrored mirrored source target := by
    rw [restr.jumps, restr.arrivals, mirrored]

section

variable (chains : p.Chains chain loose) (h : p.link? i = some old)
  (st : old.status = .disconnected)
include chains h st

theorem link_rechains (split : chain b = front ++ rest)
    (here : ∀ block, loose = some block → block = b)
    (fits : GapFits front rest (loose = some b)) (ending : old.isTerminator = decide (rest = []))
    (run : (link b i front.getLast? rest.head?).run p = .ok (a, q)) :
    p.Rechains q (update chain b (front ++ i :: rest)) none p.jumps := by
  have spliced := link_spec run
  refine rechains_of_restrings (chains.spliceIn spliced h st split here fits ending)
    spliced.restrings (spliced.refloats ?_ (fun _ => inl rfl) ?_)
  · intro place h'
    obtain rfl := mem_unique h h'
    exact inr st
  · intro inst beside
    refine chains.connected_of_mem (b := b) ?_
    rw [split, mem_append]
    exact beside.imp mem_of_getLast? mem_of_head?

theorem place_rechains (split : chain b = front ++ rest)
    (here : ∀ block, loose = some block → block = b)
    (fits : GapFits front rest (loose = some b)) (ending : old.isTerminator = decide (rest = []))
    (run : (place b i front.getLast? rest.head?).run p = .ok (a, q)) :
    p.Rechains q (update chain b (front ++ i :: rest)) none fun src tgt => p.jumps src tgt +
        if src = b then (p.targetsOf i).count tgt else 0 := by
  obtain ⟨_, m, runLink, runFlow⟩ := run_bind.mp run
  have linked := link_rechains chains h st split here fits ending runLink
  have attached := attachFlow_rechains linked.chains runFlow
  rw [linked.jumps, linked.targetsOf] at attached
  exact linked.trans attached

end

theorem unlink_rechains (chains : p.Chains chain none) (split : chain b = front ++ i :: rest)
    (here : ∀ block, tight = some block → block = b) (fits : GapFits front rest (tight = some b))
    (run : (unlink i).run p = .ok (a, q)) :
    p.Rechains q (update chain b (front ++ rest)) tight p.jumps := by
  have h := chains.linked b front i rest split
  have spliced := unlink_spec h rfl run
  refine rechains_of_restrings (chains.spliceOut spliced split here fits) spliced.restrings
    (spliced.refloats ?_ (fun _ => inr rfl) ?_)
  · intro link h'
    obtain rfl := mem_unique h h'
    exact inl rfl
  · intro inst beside
    refine chains.connected_of_mem (b := b) ?_
    rw [split, mem_append, mem_cons]
    exact beside.imp mem_of_getLast? (fun first => inr (mem_of_head? first))

theorem detach_rechains (chains : p.Chains chain none) (split : chain b = front ++ i :: rest)
    (here : ∀ block, tight = some block → block = b) (fits : GapFits front rest (tight = some b))
    (run : (do detachFlow b i; unlink i : Step Unit).run p = .ok (a, q)) :
    p.Rechains q (update chain b (front ++ rest)) tight fun src tgt => p.jumps src tgt -
        if src = b then (p.targetsOf i).count tgt else 0 := by
  obtain ⟨_, m, runFlow, runUnlink⟩ := run_bind.mp run
  have det := detachFlow_rechains chains runFlow
  have unlinked := unlink_rechains det.chains split here fits runUnlink
  rw [det.jumps] at unlinked
  exact det.trans unlinked

theorem moveChain_rechains {tgt : BlockId} (chains : p.Chains chain none) (ne : tgt ≠ b)
    (split : chain b = front ++ i :: rest) (empty : chain tgt = [])
    (run : (moveChain b tgt i).run p = .ok (a, q)) :
    p.Rechains q (update (update chain b front) tgt (i :: rest)) (some b) p.jumps := by
  obtain ⟨startLink, sourceEnds, moved, shift⟩ := moveChain_spec ne run
  refine rechains_of_restrings (chains.moveEnd ne shift split empty) shift.restrings ?_
  intro inst
  by_cases mem : inst ∈ chain b
  · obtain ⟨l, h, conn, -⟩ := chains.link_of_mem mem
    right
    refine ⟨l, _, h, by rw [shift.links, h, map_some], inl conn, ?_⟩
    exact inl conn
  · exact inl (shift.link_away chains split mem)

end Step

/-! ### Exact flow -/

namespace Program

/-- Each block leads where its last instruction does. -/
def FlowExact (program : Program) : Prop :=
  ∀ source target, program.jumps source target =
    (program.threads source).getLast?.elim 0 fun last => (program.targetsOf last).count target

theorem targetsOf_eq_nil (h : s.link? i = some l) (plain : l.isTerminator = false) :
    s.targetsOf i = [] := by
  obtain ⟨d, hInst, rfl⟩ := map_eq_some_iff.mp h
  have noTargets : ∀ slot, d.kind.shell.isTargetSlot slot = false := by
    intro slot
    rw [InstKind.isTargetSlot_shell]
    simp only [Inst.link] at plain
    cases kind : d.kind <;> simp [kind, InstKind.isTerminator, InstKind.isTargetSlot] at plain ⊢
  have nowhere : s.leadsTo? d.kind.shell = fun _ => none := by
    funext edge
    simp [leadsTo?, noTargets]
  simp [targetsOf, shell?, hInst, nowhere]

/-- The instructions of the blocks become others; the flow graph stays exact. -/
structure Rethreads
    (before after : Program)
    (threads : BlockId → List InstId) : Prop
    extends Rearranges before after where
  chains : after.Chains threads none
  refloats : before.Refloats after
  mirrored : before.FlowMirrored → after.FlowMirrored
  exact : before.FlowExact → after.FlowExact

theorem Rechains.rethreads {threads : BlockId → List InstId}
    (rechains : p.Rechains q threads none flow)
    (exact : p.FlowExact → ∀ src tgt, flow src tgt =
      (threads src).getLast?.elim 0 fun last => (p.targetsOf last).count tgt) :
    p.Rethreads q threads where
  toRearranges := rechains.toRearranges
  chains := rechains.chains
  refloats := rechains.refloats
  mirrored := rechains.mirrored
  exact wasExact src tgt := by
    rw [rechains.jumps, rechains.chains.threads_eq, rechains.targetsOf]
    exact exact wasExact src tgt

end Program

namespace Step

/-- Putting an instruction into a gap: a terminator into an empty block, anything
else in front of another instruction. -/
theorem place_rethreads (chains : p.Chains p.threads none) (h : p.link? i = some old)
    (st : old.status = .disconnected) (split : p.threads b = front ++ rest)
    (ending : if old.isTerminator = true then front ++ rest = [] else rest ≠ [])
    (run : (place b i front.getLast? rest.head?).run p = .ok (a, q)) :
    p.Rethreads q (update p.threads b (front ++ i :: rest)) := by
  have fits : GapFits front rest (none = some b) := by
    split at ending
    · exact inl ending
    · exact inr (by simp [ending])
  have isLast : old.isTerminator = decide (rest = []) := by
    split at ending
    next ends => simp [ends, (append_eq_nil_iff.mp ending).2]
    next plain => simp [plain, ending]
  refine (place_rechains chains h st split (by simp) fits isLast run).rethreads
    fun exact src tgt => ?_
  by_cases eq : src = b
  · subst eq
    rw [if_pos rfl, update_self, exact src tgt, split]
    split at ending
    next =>
      obtain ⟨rfl, rfl⟩ := append_eq_nil_iff.mp ending
      simp
    next plain =>
      rw [targetsOf_eq_nil h (by simpa using plain), count_nil, add_zero,
        getLast?_insert, if_neg (by simpa using ending)]
  · rw [if_neg eq, update_of_ne eq, exact src tgt, add_zero]

/-- Taking out an instruction that is alone in its block or has another behind it. -/
theorem rethreads_of_taken (chains : p.Chains p.threads none)
    (split : p.threads b = front ++ i :: rest) (fits : front = [] ∨ rest ≠ [])
    (rechains : p.Rechains q (update p.threads b (front ++ rest)) none
      fun src tgt => p.jumps src tgt -
        if src = b then (p.targetsOf i).count tgt else 0) :
    p.Rethreads q (update p.threads b (front ++ rest)) := by
  refine rechains.rethreads fun exact src tgt => ?_
  by_cases eq : src = b
  · subst eq
    rw [if_pos rfl, update_self, exact src tgt, split]
    by_cases last : rest = []
    · subst last
      obtain rfl : front = [] := by simpa using fits
      simp
    · have plain := targetsOf_eq_nil (chains.linked src front i rest split) (by simp [last])
      rw [plain, count_nil, Nat.sub_zero, getLast?_insert, if_neg (by simpa using last)]
  · rw [if_neg eq, update_of_ne eq, exact src tgt, Nat.sub_zero]

theorem gapFits_of_taken (fits : front = [] ∨ rest ≠ []) : GapFits front rest (none = some b) := by
  by_cases last : rest = []
  · exact inl (by simp_all)
  · exact inr (by simp [last])

/-- Taking out an instruction that has another behind it needs no look at the flow
graph: it leads nowhere. -/
theorem unlink_rethreads (chains : p.Chains p.threads none)
    (split : p.threads b = front ++ i :: rest) (followed : rest ≠ [])
    (run : (unlink i).run p = .ok (a, q)) : p.Rethreads q (update p.threads b (front ++ rest)) := by
  refine rethreads_of_taken chains split (inr followed) ?_
  have plain := targetsOf_eq_nil (chains.linked b front i rest split) (by simp [followed])
  simpa [plain] using unlink_rechains chains split (by simp) (gapFits_of_taken (inr followed)) run

theorem disconnect_rethreads (chains : p.Chains p.threads none)
    (split : p.threads b = front ++ i :: rest) (fits : front = [] ∨ rest ≠ [])
    (run : (disconnect i).run p = .ok (a, q)) :
    p.Rethreads q (update p.threads b (front ++ rest)) := by
  refine rethreads_of_taken chains split fits ?_
  obtain ⟨home, readHome, run⟩ := run_look.mp run
  obtain ⟨-, atHome⟩ := parentBlock?_eq_ok.mp readHome
  have h := chains.linked b front i rest split
  have isHome : home = some b := by
    rw [← atHome, home?, h]
    rfl
  subst isHome
  exact detach_rechains chains split (by simp) (gapFits_of_taken fits) run

end Step

namespace Program

theorem isTerminator_eq_of_shell? {new : Link} (shells : q.shell? = p.shell?)
    (hOld : p.link? i = some old) (hNew : q.link? i = some new) :
    new.isTerminator = old.isTerminator := by
  obtain ⟨oldData, hOldData, rfl⟩ := map_eq_some_iff.mp hOld
  obtain ⟨newData, hNewData, rfl⟩ := map_eq_some_iff.mp hNew
  have eq := congrFun shells i
  simp only [shell?, hOldData, hNewData, map_some, some.injEq] at eq
  simp only [Inst.link]
  rw [← newData.kind.isTerminator_shell, eq, oldData.kind.isTerminator_shell]

theorem Rechains.link_of_disconnected (rechains : p.Rechains q chain loose flow)
    (h : p.link? i = some old) (st : old.status = .disconnected) (away : ∀ b, i ∉ chain b) :
    ∃ l, q.link? i = some l ∧ l.status = .disconnected ∧ l.isTerminator = old.isTerminator := by
  rcases rechains.refloats i with eq | ⟨_, new, -, hNew, -, floats⟩
  · exact ⟨old, eq.trans h, st, rfl⟩
  · refine ⟨new, hNew, ?_, isTerminator_eq_of_shell? rechains.shells h hNew⟩
    rcases floats with conn | disconnected
    · obtain ⟨b, -, mem⟩ := rechains.chains.attached i new hNew conn
      exact absurd mem (away b)
    · exact disconnected

end Program

namespace Step

theorem placeLast_rechains (chains : p.Chains chain (some b)) (h : p.link? i = some old)
    (st : old.status = .disconnected) (ending : old.isTerminator = true)
    (hBlock : p.block? b = some d) (run : (place b i d.last none).run p = .ok (a, q)) :
    p.Rechains q (update chain b (chain b ++ [i])) none fun src tgt => p.jumps src tgt +
        if src = b then (p.targetsOf i).count tgt else 0 := by
  rw [chains.last_eq hBlock] at run
  have split : chain b = chain b ++ [] := (append_nil _).symm
  exact place_rechains chains h st split (by simp) (inr (by simp)) (by simp [ending]) run

theorem exchangeTerminator_rethreads {new : InstId} {old : Option InstId}
    (chains : p.Chains p.threads none) (h : p.link? new = some l) (st : l.status = .disconnected)
    (ending : l.isTerminator = true) (run : (exchangeTerminator b new).run p = .ok (old, q)) :
    ∃ front, p.threads b = front ++ old.toList ∧ (old = none → front = []) ∧
      p.Rethreads q (update p.threads b (front ++ [new])) := by
  obtain ⟨neighbour, read, run⟩ := run_look.mp run
  have isLast := chains.terminator?_eq (by simp) read
  cases neighbour with
  | none =>
    have empty : p.threads b = [] := getLast?_eq_none_iff.mp isLast.symm
    simp only [run_bind, run_pure, run_get, run_lift, block_eq_ok] at run
    obtain ⟨_, _, ⟨rfl, rfl⟩, d, _, ⟨hBlock, rfl⟩, _, _, runPlace, rfl, rfl⟩ := run
    rw [chains.last_eq hBlock, empty, getLast?_nil] at runPlace
    have split : p.threads b = [] ++ [] := by simpa using empty
    exact ⟨[], by simpa using empty, fun _ => rfl,
      place_rethreads chains h st split (by simp [ending]) runPlace⟩
  | some term =>
    obtain ⟨front, split⟩ := getLast?_eq_some_iff.mp isLast.symm
    simp only [run_bind, run_pure, run_get, run_lift, block_eq_ok] at run
    obtain ⟨_, unflowed, runFlow, _, cut, runUnlink, _, _, ⟨rfl, rfl⟩, d, _,
      ⟨hBlock, rfl⟩, _, _, runPlace, rfl, rfl⟩ := run
    have here : ∀ block, some b = some block → block = b := by simp
    have taken := detach_rechains chains split here (inr (by simp))
      (run_bind.mpr ⟨_, _, runFlow, runUnlink⟩)
    rw [append_nil] at taken
    have apart := chains.not_mem_of_status h (by simp [st])
    obtain ⟨link', held', status', ending'⟩ := taken.link_of_disconnected h st (by
      intro block mem
      rw [update_apply] at mem
      split at mem
      · exact apart b (by simp [split, mem])
      · exact apart block mem)
    have placed := placeLast_rechains taken.chains held' status' (ending'.trans ending)
      hBlock runPlace
    rw [update_self, update_idem, taken.jumps, taken.targetsOf] at placed
    refine ⟨front, by simpa using split, by simp, (taken.trans placed).rethreads ?_⟩
    intro exact src tgt
    beta_reduce
    by_cases eq : src = b
    · subst eq
      rw [if_pos rfl, if_pos rfl, exact src tgt, split]
      simp
    · rw [if_neg eq, if_neg eq, exact src tgt, update_of_ne eq]
      simp

/-- Moving the end of a chain to a new block and ending the old one in a jump. -/
theorem cut_rethreads {tail jump start : InstId} (chains : p.Chains p.threads none)
    (h : p.link? jump = some l) (st : l.status = .disconnected) (ending : l.isTerminator = true)
    (ne : tail ≠ b) (split : p.threads b = front ++ start :: rest) (empty : p.threads tail = [])
    (run : (cut b tail start jump).run p = .ok (a, q)) :
    p.Rethreads q (update (update p.threads b (front ++ [jump])) tail (start :: rest)) := by
  simp only [cut, detachTerminator, attachTerminator, run_bind, run_get, run_lift,
    block_eq_ok] at run
  obtain ⟨_, detached, ⟨_, _, ⟨rfl, rfl⟩, _, _, ⟨read, rfl⟩, runDet⟩, _, moved, runMove, _, flowed,
    ⟨_, _, ⟨rfl, rfl⟩, _, _, ⟨readNew, rfl⟩, runAttach⟩, _, _, ⟨rfl, rfl⟩, d, _, ⟨hBlock, rfl⟩,
    runPlace⟩ := run
  obtain ⟨last, isLast⟩ : ∃ last, (start :: rest).getLast? = some last :=
    ⟨_, getLast?_eq_some_getLast (by simp)⟩
  have oldLast := chains.terminator?_eq (by simp) read
  rw [split, getLast?_append, isLast, some_or] at oldLast
  subst oldLast
  have det := detachFlow_rechains chains runDet
  have cut := moveChain_rechains det.chains ne split empty runMove
  have newLast := cut.chains.terminator?_eq (by simpa using ne.symm) readNew
  rw [update_self, isLast] at newLast
  subst newLast
  have attached := attachFlow_rechains cut.chains runAttach
  have apart := chains.not_mem_of_status h (by simp [st])
  have apartAfter :
      ∀ block, jump ∉ update (update p.threads b front) tail (start :: rest) block := by
    intro block mem
    have apartHere := apart b
    rw [split, mem_append, not_or] at apartHere
    simp only [update_apply] at mem
    split_ifs at mem
    · exact apartHere.2 mem
    · exact apartHere.1 mem
    · exact apart block mem
  have soFar := (det.trans cut).trans attached
  obtain ⟨link', held', status', ending'⟩ := soFar.link_of_disconnected h st apartAfter
  have placed := placeLast_rechains soFar.chains held' status' (ending'.trans ending)
    hBlock runPlace
  rw [update_of_ne ne.symm, update_self, update_comm ne, update_idem] at placed
  refine (soFar.trans placed).rethreads fun exact src tgt => ?_
  rw [soFar.targetsOf, soFar.jumps, cut.jumps, det.jumps, (det.trans cut).targetsOf]
  beta_reduce
  by_cases hb : src = b
  · subst hb
    rw [if_pos rfl, if_neg ne.symm, if_pos rfl, exact src tgt, split,
      update_of_ne ne.symm, update_self]
    simp [getLast?_append, isLast]
  · by_cases isTail : src = tail
    · subst isTail
      rw [if_neg hb, if_pos rfl, if_neg hb, exact src tgt, empty, update_self, isLast]
      simp
    · rw [if_neg hb, if_neg isTail, if_neg hb, exact src tgt, update_of_ne isTail, update_of_ne hb]
      simp

end Step

end ValueGraph

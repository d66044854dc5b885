import Mathlib
import ValueGraph.Proofs.Declaring

namespace ValueGraph

open Program List Option

/-!
# Edits of lifetimes

The client copies and gives up handles, finalizes instructions and erases what it
no longer needs.  Whoever owned an erased node, the client or a container, has one
handle less on it.
-/

open Step

variable {p q struck : Program} {pr : Promise} {a : Unit}
variable {v sym : ValueId} {count : Nat} {i : InstId} {b : BlockId} {f : FuncId} {owner : Function}
  {file : RegisterFile} {r : RegId} {d : Register} {g : GlobalId}

/-! ### Handles -/

theorem retain_leads (run : retain v p = .done count q) : p.Leads pr q (Pi.single v 1) := by
  obtain ⟨step, plan, run⟩ := Edit.plan_eq_done.mp run
  cases absent : p.values.retain? v with
  | none =>
    rw [absent] at plan
    exact absurd plan (refuse_ne_ok _ _)
  | some given =>
    rw [absent] at plan
    obtain rfl := pure_eq_ok.mp plan
    simp only [run_bind, run_modify, run_pure] at run
    obtain ⟨_, _, rfl, rfl, rfl⟩ := run
    have retained := retained_of_retain? absent
    exact .of_shapes (.retain v retained) retained.tally

/-- A handle is given up by the client only when no container has the last one. -/
theorem release_run (hs : p.Sound) (run : release v p = .done count q) :
    (p.countOf v = 1 → p.isOwned v = false ∧ ∀ name, (name, v) ∉ p.symbols) ∧
      ∃ a, (releaseNode v).run p = .ok (a, q) := by
  obtain ⟨step, plan, run⟩ := Edit.plan_eq_done.mp run
  cases absent : p.values.count? v with
  | none =>
    rw [absent] at plan
    exact absurd plan (refuse_ne_ok _ _)
  | some h =>
    have unowned : (h = 1 → p.isOwnedByContainer v = .ok false) ∧
        (do releaseNode v; return h - 1 : Step Nat) = step := by
      rw [absent] at plan
      simp only at plan
      split at plan
      next last =>
        simp only [bind_eq_ok, liftHalt_eq_ok] at plan
        obtain ⟨isOwned, read, plan⟩ := plan
        cases isOwned with
        | false => exact ⟨fun _ => read, pure_eq_ok.mp plan⟩
        | true =>
          simp only [if_true, bind_eq_ok] at plan
          obtain ⟨_, -, _, thrown, -⟩ := plan
          cases thrown
      next shared => exact ⟨fun last => absurd last shared, pure_eq_ok.mp plan⟩
    obtain ⟨unowned, rfl⟩ := unowned
    simp only [run_bind, run_pure] at run
    obtain ⟨a, _, runRelease, rfl, rfl⟩ := run
    refine ⟨fun last => ?_, a, runRelease⟩
    have free := unowned ((countOf_eq absent).symm.trans last)
    exact ⟨hs.isOwned_eq_false free, hs.not_mem_symbols free⟩

theorem release_leads (hs : p.Sound)
    (razes : p.isFunction v = true → p.countOf v = 1 → pr.razes v)
    (run : release v p = .done count q) : p.Leads pr q (Pi.single v (-1)) := by
  obtain ⟨unowned, a, runRelease⟩ := release_run hs run
  obtain ⟨shrunk, settles⟩ := releaseNode_shrunk hs unowned razes runRelease
  exact .of_shrunk shrunk settles

/-! ### Instructions -/

namespace Program

theorem Sound.removable_of_plain {l : Link} (hs : p.Sound) (h : p.link? i = some l)
    (plain : l.isTerminator = false) : p.Removable i := by
  intro b front rest split
  refine Or.inr ?_
  rintro rfl
  have linked := hs.chains.linked b front i [] split
  rw [h, some.injEq] at linked
  simp [linked] at plain

end Program

theorem finalize_leads (hs : p.Sound) (run : finalize i p = .done a q) : p.Leads pr q 0 := by
  obtain ⟨step, plan, run⟩ := Edit.plan_eq_done.mp run
  simp only [requireInst, requireStatus, bind_eq_ok, liftHalt_eq_ok,
    require_eq_ok, status_eq_ok, pure_eq_ok] at plan
  obtain ⟨_, -, _, ⟨_, ⟨d, h, rfl⟩, isStatus⟩, rfl⟩ := plan
  have st : d.link.status = .disconnected := beq_iff_eq.mp isStatus
  have hLink : p.link? i = some d.link := by
    exact link?_of_inst? h
  have out := hs.outside_of_status hLink (by simp [st])
  have fin := finalizeInst_finalized hs (removable_of_outside out)
    (hs.shielded_of_floats hLink (by simp [st])) run
  have free : p.owned i = 0 := by
    rw [owned, isOwned_of_link hLink]
    simp [Link.isOwned, st]
  refine ⟨.of_shrunk fin.razed.shrunk, fun neat => ?_⟩
  refine (fin.tally neat).of_eq ?_
  rw [free, Pi.single_zero]

theorem eraseInstruction_leads (hs : p.Sound) (run : eraseInstruction i p = .done a q) :
    p.Leads pr q (Pi.single i (p.owned i - 1)) := by
  obtain ⟨step, plan, run⟩ := Edit.plan_eq_done.mp run
  simp only [requireInst, bind_eq_ok, liftHalt_eq_ok, require_eq_ok, status_eq_ok] at plan
  obtain ⟨_, -, _, ⟨d, h, rfl⟩, plan⟩ := plan
  have hLink : p.link? i = some d.link := by
    exact link?_of_inst? h
  have planned : p.Removable i ∧ d.link.status ≠ .reparent ∧
      (do finalizeInst i; dropHandle i : Step Unit) = step := by
    cases st : d.status with
    | connected =>
      simp only [st, bind_eq_ok, liftHalt_eq_ok, require_eq_ok, pure_eq_ok,
        isTerminator_eq_ok] at plan
      obtain ⟨_, ⟨_, h', rfl⟩, _, plain, _, -, plan⟩ := plan
      obtain rfl := mem_unique h h'
      refine ⟨hs.removable_of_plain hLink ?_, ?_, plan⟩
      · simpa [Inst.link] using plain
      · simp [Inst.link, st]
    | reparent =>
      simp only [st, bind_eq_ok] at plan
      obtain ⟨_, refused, -⟩ := plan
      exact absurd refused (refuse_ne_ok _ _)
    | disconnected | finalized =>
      simp only [st, bind_eq_ok, liftHalt_eq_ok, pure_eq_ok] at plan
      obtain ⟨_, -, plan⟩ := plan
      exact ⟨removable_of_outside (hs.outside_of_status hLink (by simp [Inst.link, st])),
        by simp [Inst.link, st], plan⟩
  obtain ⟨removable, apart, rfl⟩ := planned
  obtain ⟨_, m, runFin, runDrop⟩ := run_bind.mp run
  have fin := finalizeInst_finalized hs removable (hs.shielded_of_floats hLink apart) runFin
  obtain ⟨l, hFinal, st⟩ := fin.finalized
  have drop := dropHandle_spec (fin.razed.sound hs).stored runDrop
  have bare := m.bare_of_finalized hFinal st
  refine ⟨.of_shrunk (fin.razed.shrunk.tail (.drop i drop fun _ => bare)), fun neat => ?_⟩
  refine ((fin.tally neat).trans (drop.tally fun _ => bare)).of_eq ?_
  rw [← Pi.single_add, sub_eq_add_neg]

/-! ### Blocks -/

theorem eraseBlock_eq_done :
    eraseBlock b p = .done a q ↔ p.isBlock b = true ∧ p.checkUsersWithin b (p.standsIn b) = .ok () ∧
      (eraseBlockNode b).run p = .ok (a, q) := by
  unfold eraseBlock
  simp only [Edit.plan_eq_done, requireBlock, bind_eq_ok, require_eq_ok, liftHalt_eq_ok, pure_eq_ok]
  constructor
  · rintro ⟨_, ⟨_, hb, _, checked, rfl⟩, run⟩
    exact ⟨hb, checked, run⟩
  · rintro ⟨hb, checked, run⟩
    exact ⟨_, ⟨(), hb, (), checked, rfl⟩, run⟩

theorem eraseBlock_leads (hs : p.Sound) (run : eraseBlock b p = .done a q) :
    p.Leads pr q (Pi.single b (p.owned b - 1)) := by
  obtain ⟨-, -, run⟩ := eraseBlock_eq_done.mp run
  obtain ⟨shrunk, settles⟩ := eraseBlockNode_shrunk hs run
  exact .of_shrunk shrunk settles

theorem collectGarbage_leads (hs : p.Sound) (run : collectGarbage f p = .done count q) :
    p.Leads pr q 0 := by
  obtain ⟨step, plan, run⟩ := Edit.plan_eq_done.mp run
  simp only [bind_eq_ok, liftHalt_eq_ok] at plan
  obtain ⟨reachable, -, blocks, readBlocks, plan⟩ := plan
  split at plan
  · obtain rfl := pure_eq_ok.mp plan
    obtain ⟨-, rfl⟩ := run_pure.mp run
    exact .refl p
  · obtain rfl := pure_eq_ok.mp plan
    simp only [run_bind, run_pure] at run
    obtain ⟨_, _, runCollect, rfl, rfl⟩ := run
    simp only [Program.blocks, bind_eq_ok, Program.function_eq_ok, pure_eq_ok] at readBlocks
    obtain ⟨d, h, rfl⟩ := readBlocks
    have fits := hs.staffed f d h
    obtain ⟨⟨planted, grown, shrunk⟩, settles⟩ := collectBlocks_reaches hs
      (fits.blocksNodup.filter _)
      (fun b mem => fits.blocks b (mem_of_mem_filter mem)) runCollect
    exact ⟨⟨planted, planted, grown, Or.inl rfl, shrunk⟩, settles.tally⟩

/-! ### Symbols -/

/-- A symbol that is struck from the names and lists of the program passes to the
client. -/
theorem Step.unlistSymbol_shapes (hs : p.Sound)
    (isSymbol : p.isFunction sym = true ∨ p.isGlobal sym = true)
    (runStrike : (unregisterSymbol sym).run p = .ok (a, struck)) (lab : struck.Relabels q)
    (labels : q.name? = struck.name?) (symbols : q.symbols = struck.symbols)
    (names : q.names = struck.names) (fns : q.functions = struck.functions.filter (· != sym))
    (globals : q.globals = struck.globals.filter (· != sym)) :
    p.Relabels q ∧ p.Shapes pr q ∧ (q.isOwned sym = false ∧ ∀ name, (name, sym) ∉ q.symbols) ∧
      p.Settles q (Pi.single sym (p.owned sym)) := by
  have cat := hs.catalogue
  obtain ⟨titled, sameNames, values⟩ := unregisterSymbol_titled cat runStrike
  have sameLabels : struck.name? = p.name? := by
    funext value
    simp only [name?, values]
  have all := titled.relabels.trans lab
  rw [titled.symbols] at symbols
  rw [sameNames] at names
  rw [titled.functions] at fns
  rw [titled.globals] at globals
  have catalogueAfter : q.Catalogue :=
    { functions := fun function mem => by
        rw [fns] at mem
        rw [all.isFunction]
        exact cat.functions function (mem_of_mem_filter mem)
      globals := fun global mem => by
        rw [globals] at mem
        rw [all.globals]
        exact cat.globals global (mem_of_mem_filter mem)
      named := fun function mem => by
        rw [fns, globals, mem_filter, mem_filter, ← or_and_right,
          bne_iff_ne] at mem
        obtain ⟨name, listed⟩ := cat.named function mem.1
        exact ⟨name, symbols ▸ mem_filter.mpr ⟨listed, bne_iff_ne.mpr mem.2⟩⟩
      functionsNodup := fns ▸ cat.functionsNodup.filter _
      globalsNodup := globals ▸ cat.globalsNodup.filter _
      namesNodup := symbols ▸ (filter_sublist.map _).nodup cat.namesNodup
      labels := by
        rw [names, labels, sameLabels]
        exact cat.labels
      entered := fun entry mem => by
        rw [symbols] at mem
        rw [all.isFunction, all.globals, labels, sameLabels]
        exact cat.entered entry (mem_of_mem_filter mem)
      texts := names ▸ cat.texts }
  have lists : ∀ value, q.Lists value ↔ p.Lists value ∧ value ≠ sym := by
    intro value
    simp only [Program.Lists, fns, globals, mem_filter, bne_iff_ne, or_and_right]
  have enrols : p.Enrols pr q :=
    { lists := fun value listed => Or.inl ((lists value).mp listed).1
      entries := fun _ enrolled entry mem => by
        rw [symbols, mem_filter, bne_iff_ne] at mem
        exact (lists entry.2).mpr ⟨enrolled entry mem.1, mem.2⟩ }
  have unlisted : q.listed sym = 0 := by
    simp [listed, fns, globals]
  refine ⟨all, .relabel all (fun _ => catalogueAfter) enrols, ⟨?_, ?_⟩, ?_⟩
  · have isOwned := catalogueAfter.owned_eq (by rwa [all.isFunction, all.globals])
    rw [unlisted, owned] at isOwned
    simpa using isOwned
  · simp [symbols]
  · refine .of_same ?_ all.operands all.wire? all.link?
    refine (all.tally cat catalogueAfter).of_eq ?_
    funext value
    by_cases eq : value = sym
    · subst eq
      rw [Pi.sub_apply, unlisted, sub_zero, Pi.single_eq_same, cat.owned_eq isSymbol]
    · simp [listed, fns, globals, eq]

theorem Program.not_isGlobal_of_isFunction (isFn : p.isFunction sym = true) :
    p.isGlobal sym ≠ true := by
  intro hg
  simp only [Program.isFunction, Program.isGlobal, beq_iff_eq] at isFn hg
  simp [isFn] at hg

theorem filter_ne_of_not_mem {values : List ValueId} (absent : v ∉ values) :
    values = values.filter (· != v) :=
  (filter_eq_self.mpr fun _ mem =>
    bne_iff_ne.mpr (ne_of_mem_of_not_mem mem absent)).symm

theorem Program.Allots.giveBack {s : Program} (allots : s.Allots owner)
    (hasFile : owner.registers = some file) (h : s.register? r = some d) (listed : r ∈ file.live)
    (nd : file.live.Nodup) :
    s.Allots
      { owner with
        registers := some
          { file with
            live := file.live.filter (· != r)
            free := d.slot :: file.free } } := by
  have perm := allots file hasFile
  rintro _ ⟨⟩
  have split := ((perm_cons_erase listed).filterMap
    (fun r => (s.register? r).map (·.slot))).append_right file.free
  rw [nd.erase_eq_filter, filterMap_cons, h] at split
  exact (perm_middle.trans split.symm).trans perm

/-- A function that is erased is struck from the names, then from the list of functions, then
given up. -/
theorem eraseFunction_eq_done :
    eraseFunction f p = .done a q ↔ p.isFunction f = true ∧
      p.checkUsersWithin f (p.standsInFunction f) = .ok () ∧
      ∃ struck, (unregisterSymbol f).run p = .ok ((), struck) ∧ (releaseNode f).run
          { struck with functions := struck.functions.filter (· != f) } = .ok (a, q) := by
  unfold eraseFunction
  simp only [Edit.plan_eq_done, bind_eq_ok, liftHalt_eq_ok, require_eq_ok, pure_eq_ok]
  constructor
  · rintro ⟨_, ⟨_, isFn, _, checked, rfl⟩, run⟩
    simp only [run_bind, run_modify] at run
    obtain ⟨_, struck, runStrike, _, _, rfl, runRelease⟩ := run
    exact ⟨isFn, checked, struck, runStrike, runRelease⟩
  · rintro ⟨isFn, checked, struck, runStrike, runRelease⟩
    refine ⟨_, ⟨(), isFn, (), checked, rfl⟩, ?_⟩
    simp only [run_bind, run_modify]
    exact ⟨(), struck, runStrike, (), _, rfl, runRelease⟩

/-- A program without the entry of a function and without its place in the list. -/
def Program.strike (program : Program) (function : FuncId) : Program :=
  { program with
    symbols := program.symbols.filter (·.2 != function)
    functions := program.functions.filter (· != function) }

section Symbols

variable (hs : p.Sound)
include hs

theorem Step.eraseListed_leads (shapes : p.Shapes pr struck)
    (unowned : struck.isOwned sym = false ∧ ∀ name, (name, sym) ∉ struck.symbols)
    (settles : p.Settles struck (Pi.single sym (p.owned sym)))
    (razes : struck.isFunction sym = true → struck.countOf sym = 1 → pr.razes sym)
    (run : (releaseNode sym).run struck = .ok (a, q)) :
    p.Leads pr q (Pi.single sym (p.owned sym - 1)) := by
  obtain ⟨shrunk, settlesLater⟩ := releaseNode_shrunk (shapes.sound hs) (fun _ => unowned) razes run
  refine .of_shrunk (.head shapes shrunk) ((settles.trans settlesLater).of_eq ?_)
  rw [← Pi.single_add, sub_eq_add_neg]

/-- A function that is erased is struck from all lists, then given up. -/
theorem eraseFunction_struck (run : eraseFunction f p = .done a q) :
    p.isFunction f = true ∧ p.Relabels (p.strike f) ∧ p.Shapes pr (p.strike f) ∧
      ((p.strike f).isOwned f = false ∧ ∀ name, (name, f) ∉ (p.strike f).symbols) ∧
      p.Settles (p.strike f) (Pi.single f (p.owned f)) ∧
      (releaseNode f).run (p.strike f) = .ok (a, q) := by
  obtain ⟨isFn, -, struck, runStrike, runRelease⟩ := eraseFunction_eq_done.mp run
  have noGlobal : f ∉ p.globals := fun mem =>
    not_isGlobal_of_isFunction isFn (hs.catalogue.globals f mem)
  obtain rfl := unregisterSymbol_eq hs.catalogue runStrike
  have lab : Relabels { p with symbols := p.symbols.filter (·.2 != f) } (p.strike f) :=
    .of_same rfl rfl (.refl _)
  obtain ⟨struckRelabels, shapes, unowned, settles⟩ := unlistSymbol_shapes hs
    (Or.inl isFn) runStrike lab rfl rfl rfl rfl (filter_ne_of_not_mem noGlobal)
  exact ⟨isFn, struckRelabels, shapes, unowned, settles, runRelease⟩

theorem eraseFunction_leads (razes : p.isFunction f = true → p.countOf f = 1 → pr.razes f)
    (run : eraseFunction f p = .done a q) : p.Leads pr q (Pi.single f (p.owned f - 1)) := by
  obtain ⟨isFn, lab, shapes, unowned, settles, runRelease⟩ := eraseFunction_struck hs run
  refine eraseListed_leads hs shapes unowned settles (fun _ last => ?_) runRelease
  exact razes isFn (by rwa [countOf, lab.counts] at last)

theorem eraseGlobal_struck (run : eraseGlobal g p = .done a q) :
    p.isGlobal g = true ∧ ∃ struck, p.Relabels struck ∧ p.Shapes pr struck ∧
      (struck.isOwned g = false ∧ ∀ name, (name, g) ∉ struck.symbols) ∧
      p.Settles struck (Pi.single g (p.owned g)) ∧
      (releaseNode g).run struck = .ok (a, q) := by
  obtain ⟨step, plan, run⟩ := Edit.plan_eq_done.mp run
  simp only [bind_eq_ok, liftHalt_eq_ok, require_eq_ok, pure_eq_ok] at plan
  obtain ⟨_, hg, _, -, rfl⟩ := plan
  simp only [run_bind, run_modify] at run
  obtain ⟨_, struck, runStrike, _, unlisted, rfl, runRelease⟩ := run
  obtain ⟨titled, -⟩ := unregisterSymbol_titled hs.catalogue runStrike
  have noFunction : g ∉ struck.functions := by
    rw [titled.functions]
    exact fun mem => not_isGlobal_of_isFunction (hs.catalogue.functions g mem) hg
  have lab : struck.Relabels
      { struck with globals := struck.globals.filter (· != g) } :=
    .of_same rfl rfl (.refl _)
  obtain ⟨struckRelabels, shapes, unowned, settles⟩ := unlistSymbol_shapes hs
    (Or.inr hg) runStrike lab rfl rfl rfl (filter_ne_of_not_mem noFunction) rfl
  exact ⟨hg, _, struckRelabels, shapes, unowned, settles, runRelease⟩

theorem eraseGlobal_leads (run : eraseGlobal g p = .done a q) :
    p.Leads pr q (Pi.single g (p.owned g - 1)) := by
  obtain ⟨hg, struck, lab, shapes, unowned, settles, runRelease⟩ := eraseGlobal_struck hs run
  refine eraseListed_leads hs shapes unowned settles (fun isFn => ?_) runRelease
  rw [lab.isFunction] at isFn
  exact absurd hg (not_isGlobal_of_isFunction isFn)

theorem Step.returnRegister_leads (h : p.register? r = some d)
    (hOwner : p.function? d.parent = some owner) (hasFile : owner.registers = some file)
    (owned : pr.returnsOwned → p.isOwned r = true)
    (run : (returnRegister r d file).run p = .ok (a, q)) :
    p.Leads pr q (Pi.single r (p.owned r - 1)) := by
  obtain ⟨_, m, runFit, runDrop⟩ := run_bind.mp run
  obtain ⟨old, refitted⟩ := modifyFunction_refitted runFit
  obtain rfl : owner = old := mem_unique hOwner refitted.held
  have fits := hs.staffed d.parent owner hOwner
  set file' : RegisterFile :=
    { file with live := file.live.filter (· != r), free := d.slot :: file.free }
    with isFile
  have granted : ({ owner with registers := some file' } : Function).granted =
      owner.granted.filter (· != r) := by
    simp [Function.granted, isFile, hasFile]
  have fitsNew : p.Fits d.parent { owner with registers := some file' } :=
    { params := fits.params
      granted := by
        rw [granted]
        exact fun register mem => fits.granted register (mem_of_mem_filter mem)
      blocks := fits.blocks
      paramsNodup := fits.paramsNodup
      grantedNodup := granted ▸ fits.grantedNodup.filter _
      blocksNodup := fits.blocksNodup }
  have allots : pr.returnsOwned → p.Allots owner →
      p.Allots { owner with registers := some file' } := by
    intro returns allots
    have listed := owned returns
    rw [isOwned, register?_eq_some_iff.mp h] at listed
    refine allots.giveBack hasFile h ?_ ?_
    · simpa [hOwner, Function.granted, hasFile] using listed
    · simpa [Function.granted, hasFile] using fits.grantedNodup
  have refit : p.Shapes pr m := .of_refitted refitted hs fitsNew rfl (fun _ => rfl) allots
  have hsm := refit.sound hs
  have drop := dropHandle_spec hsm.stored runDrop
  have bare : m.Bare r := by
    intro payload hPayload
    have hMiddle : m.register? r = some d := by rw [refitted.registers, h]
    rw [register?_eq_some_iff, hPayload, some.injEq] at hMiddle
    subst hMiddle
    intro f lists hLists mem
    obtain ⟨_, known, rfl⟩ := (hsm.staffed f lists hLists).granted r mem
    rw [refitted.registers, h, some.injEq] at known
    subst known
    rw [refitted.bodies, Function.update_self, some.injEq] at hLists
    subst hLists
    rw [granted] at mem
    simp at mem
  have settles := (refitted.settles hs fitsNew).trans (drop.settles fun _ => bare)
  refine .of_shrunk (.tail (.single refit) (.drop r drop fun _ => bare)) (settles.of_eq ?_)
  have isOwned : p.owned r = owner.granted.count r := by
    rw [Program.owned, Program.isOwned, Program.register?_eq_some_iff.mp h]
    simp [hOwner, fits.grantedNodup.count]
  rw [fits.lists_eq, fitsNew.lists_eq, granted, isOwned]
  funext value
  by_cases eq : value = r
  · subst eq
    have gone : (owner.granted.filter (· != value)).count value = 0 :=
      count_eq_zero_of_not_mem (by simp)
    simp [gone, sub_eq_add_neg]
  · simp [eq, count_filter]

theorem freeRegister_leads
    (owned : pr.returnsOwned → p.isRegister r = true → p.isOwned r = true)
    (run : freeRegister r p = .done a q) : p.Leads pr q (Pi.single r (p.owned r - 1)) := by
  obtain ⟨step, plan, run⟩ := Edit.plan_eq_done.mp run
  cases h : p.register? r with
  | none =>
    rw [h] at plan
    exact absurd plan (by simp [refuseRegister])
  | some d =>
    simp only [h, bind_eq_ok, liftHalt_eq_ok] at plan
    obtain ⟨uses, -, plan⟩ := plan
    split at plan
    next => exact absurd plan (by simp [refuseRegister])
    next =>
      simp only [bind_eq_ok, liftHalt_eq_ok, function_eq_ok] at plan
      obtain ⟨owner, hOwner, plan⟩ := plan
      cases noFile : owner.registers with
      | none =>
        rw [noFile] at plan
        exact absurd plan (by simp [refuseRegister])
      | some file =>
        rw [noFile] at plan
        obtain rfl := pure_eq_ok.mp plan
        have isRegister : p.isRegister r = true := by simp [isRegister_eq, h]
        exact returnRegister_leads hs h hOwner noFile (fun returns => owned returns isRegister) run

end Symbols

end ValueGraph

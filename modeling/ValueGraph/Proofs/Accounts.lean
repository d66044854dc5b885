import Mathlib
import ValueGraph.Proofs.Moves

open Function

namespace ValueGraph

open Program List Option Payload

/-!
# Accounts of owning handles

Every owning handle on a node is held by a container, by an edge that reads a
constant, or by the client.  The balance of a node is what is left for the
client.  Each move shifts the balances of a few nodes by a known amount.
-/

variable {seat old : Option FuncId} {pr : Promise} {i outer : InstId}
  {threads : BlockId → List InstId} {b : BlockId} {f : FuncId} {payload : Payload} {u v : ValueId}
  {p q r : Program} {shift more : ValueId → Int} {l : Link} {d new : Function} {ty : TypeId}

/-- Whether a container holds an owning handle on an instruction. -/
def Link.isOwned (link : Link) : Bool :=
  link.status == .connected || link.status == .reparent

namespace Program

/-- Whether a container holds an owning handle on a node: a block or a register write
on its instruction, a function on its block, argument or register, the program on a
symbol that it lists. -/
def isOwned (program : Program) (value : ValueId) : Bool :=
  match program.payload? value with
  | some (.inst data) => data.link.isOwned
  | some (.block data) => data.parent.isSome
  | some (.argument data) =>
    (program.function? data.parent).any (·.params.contains value)
  | some (.register data) =>
    (program.function? data.parent).any (·.granted.contains value)
  | some (.function _) => program.functions.contains value
  | some (.global _) => program.globals.contains value
  | _ => false

/-- The owning handles on a node that a container holds. -/
def owned (program : Program) (value : ValueId) : Int :=
  if program.isOwned value then 1 else 0

/-- The owning handles on a node that are left for the client. -/
def balance (program : Program) (value : ValueId) : Int :=
  program.spare value - program.owned value

/-- Balances shift by so much. -/
def Tally (before after : Program) (shift : ValueId → Int) : Prop :=
  ∀ value, after.balance value = before.balance value + shift value

namespace Tally

theorem refl (s : Program) : s.Tally s 0 := by
  intro v
  simp

theorem trans (earlier : p.Tally q shift) (later : q.Tally r more) : p.Tally r (shift + more) := by
  intro v
  rw [later v, earlier v, Pi.add_apply, add_assoc]

theorem of_eq (tally : p.Tally q shift) (eq : shift = more) : p.Tally q more :=
  eq ▸ tally

end Tally

/-! ### Containers -/

/-- Whether a node is owned shows in the views of it. -/
theorem isOwned_eq (s : Program) (v : ValueId) :
    s.isOwned v = ((s.link? v).any Link.isOwned || (s.seat? v).any Option.isSome ||
        (s.argument? v).any (fun d =>
          (s.function? d.parent).any (·.params.contains v)) ||
        (s.register? v).any (fun d =>
          (s.function? d.parent).any (·.granted.contains v)) ||
        (s.isFunction v && s.functions.contains v) ||
        (s.isGlobal v && s.globals.contains v)) := by
  simp only [link?_eq_bind, seat?_eq_bind, argument?_eq_bind, register?_eq_bind, isOwned,
    isFunction_eq, isGlobal_eq, function?, global?]
  rcases s.payload? v with _ | payload
  · simp
  · cases payload <;>
      simp [Payload.inst?, Payload.block?, Payload.argument?, Payload.register?,
        Payload.function?, Payload.global?]

theorem isOwned_of_link (h : p.link? v = some l) : p.isOwned v = l.isOwned := by
  obtain ⟨d, hInst, rfl⟩ := map_eq_some_iff.mp h
  rw [isOwned, inst?_eq_some_iff.mp hInst]

theorem isOwned_of_seat (h : p.seat? v = some seat) : p.isOwned v = seat.isSome := by
  obtain ⟨d, hBlock, rfl⟩ := map_eq_some_iff.mp h
  rw [isOwned, block?_eq_some_iff.mp hBlock]

theorem functions_eq_of_surroundings (eq : q.surroundings = p.surroundings) :
    q.functions = p.functions := by
  simpa [surroundings] using congrArg functions eq

theorem globals_eq_of_surroundings (eq : q.surroundings = p.surroundings) :
    q.globals = p.globals := by
  simpa [surroundings] using congrArg globals eq

theorem symbols_eq_of_surroundings (eq : q.surroundings = p.surroundings) :
    q.symbols = p.symbols := by
  simpa [surroundings] using congrArg symbols eq

/-- Nodes are owned alike when all their views agree. -/
theorem isOwned_congr (links : q.link? v = p.link? v) (seats : q.seat? v = p.seat? v)
    (args : q.argument? v = p.argument? v) (regs : q.register? v = p.register? v)
    (bodies : q.function? = p.function?) (globals : q.isGlobal v = p.isGlobal v)
    (surr : q.surroundings = p.surroundings) : q.isOwned v = p.isOwned v := by
  simp only [isOwned_eq, links, seats, args, regs, bodies, globals,
    functions_eq_of_surroundings surr, globals_eq_of_surroundings surr,
    isFunction_eq]

theorem owned_eq_of_payloads (pls : q.payload? = p.payload?)
    (surr : q.surroundings = p.surroundings) : q.owned = p.owned := by
  funext v
  rw [owned, owned, isOwned_congr ?_ ?_ ?_ ?_ ?_ ?_ surr]
  · simp only [link?_eq_bind, pls]
  · simp only [seat?_eq_bind, pls]
  · simp only [argument?_eq_bind, pls]
  · simp only [register?_eq_bind, pls]
  · funext parent
    simp only [function?, pls]
  · simp only [isGlobal, pls]

/-! ### Moves of edges -/

theorem Rewires.owned_eq (rew : p.Rewires q) : q.owned = p.owned := by
  funext v
  rw [owned, owned, isOwned_congr (congrFun rew.skeleton.link? v)
    (congrFun rew.skeleton.seat? v) (congrFun rew.skeleton.argument? v)
    (congrFun rew.skeleton.register? v) rew.skeleton.function?
    (congrFun rew.skeleton.isGlobal v) rew.surroundings]

theorem Tally.of_rewires (rew : p.Rewires q) (spare : q.spare = p.spare) : p.Tally q 0 := by
  intro v
  simp [balance, spare, rew.owned_eq]

/-- Edges that come, go or move take the handles on constants along. -/
theorem Redraws.tally (redraws : p.Redraws pr q) : p.Tally q 0 := by
  cases redraws with
  | connect e d joins => exact .of_rewires joins.added.rewires joins.added.spare
  | rebind e d new moved => exact .of_rewires moved.rewires moved.spare
  | unread u k e d mem h optional rem =>
    exact .of_rewires rem.rewires rem.spare
  | clear g hg rem => exact .of_rewires rem.rewires rem.spare

theorem Redrawn.tally (redrawn : Redrawn pr p q) : p.Tally q 0 := by
  induction redrawn with
  | refl => exact .refl _
  | tail _ last ih => exact (ih.trans last.tally).of_eq (by simp)

/-! ### Moves of containers -/

/-- Where handles are only passed between containers and the client, balances shift by
what containers give up. -/
theorem Tally.of_spare (spare : q.spare = p.spare) : p.Tally q (p.owned - q.owned) := by
  intro v
  simp only [balance, spare, Pi.sub_apply]
  ring

/-- Moving instructions changes the owner of those only whose link tells so. -/
theorem Rearranges.owned_eq (rea : p.Rearranges q)
    (eq : (q.link? v).any Link.isOwned = (p.link? v).any Link.isOwned) : q.owned v = p.owned v := by
  simp only [owned, isOwned_eq, eq, rea.seats, rea.arguments,
    rea.registers, rea.bodies, isFunction_eq, isGlobal_eq,
    rea.globals, functions_eq_of_surroundings rea.surroundings,
    globals_eq_of_surroundings rea.surroundings]

/-- One instruction outside the chains passes between owners. -/
theorem Relinked.tally {old new : Link} (relink : p.Relinked q i old new) :
    p.Tally q (Pi.single i ((if old.isOwned then 1 else 0) - if new.isOwned then 1 else 0)) := by
  have rea := relink.restrings.rearranges
  refine (Tally.of_spare rea.spare_eq).of_eq ?_
  funext v
  rw [Pi.sub_apply]
  by_cases eq : v = i
  · subst eq
    have hNew : q.link? v = some new := by
      rw [relink.links, update_self]
    rw [Pi.single_eq_same, owned, owned, isOwned_of_link relink.held, isOwned_of_link hNew]
  · rw [Pi.single_eq_of_ne eq, rea.owned_eq (by
      rw [relink.links, update_of_ne eq]), sub_self]

open Classical in
/-- Whether an instruction stands in one of some threads. -/
noncomputable def standing (threads : BlockId → List InstId) (inst : InstId) : Int :=
  if ∃ block, inst ∈ threads block then 1 else 0

theorem standing_congr {others : BlockId → List InstId}
    (alike : (∃ b, i ∈ threads b) ↔ ∃ b, i ∈ others b) :
    standing threads i = standing others i := by
  unfold standing
  by_cases stands : ∃ b, i ∈ others b
  · rw [if_pos stands, if_pos (alike.mpr stands)]
  · rw [if_neg stands, if_neg (alike.not.mpr stands)]

/-- A block owns exactly the instructions that stand in it. -/
theorem Chains.isOwned_iff {chain : BlockId → List InstId} (chains : p.Chains chain none)
    (h : p.link? i = some l) (floats : l.status.Floats) : l.isOwned = true ↔ ∃ b, i ∈ chain b := by
  have conn : l.isOwned = true ↔ l.status = .connected := by
    rcases floats with st | st <;> simp [Link.isOwned, st]
  rw [conn]
  constructor
  · intro st
    obtain ⟨b, -, mem⟩ := chains.attached i l h st
    exact ⟨b, mem⟩
  · rintro ⟨b, mem⟩
    obtain ⟨_, h', st, -⟩ := chains.link_of_mem mem
    obtain rfl := mem_unique h h'
    exact st

/-- Threading instructions otherwise passes handles between blocks and the client. -/
theorem Rethreads.tally (reth : p.Rethreads q threads) (chains : p.Chains p.threads none) :
    p.Tally q (standing p.threads - standing threads) := by
  refine (Tally.of_spare reth.spare_eq).of_eq ?_
  funext i
  rw [Pi.sub_apply, Pi.sub_apply]
  rcases reth.refloats i with eq | ⟨old, new, hOld, hNew, floatsOld, floatsNew⟩
  · rw [reth.toRearranges.owned_eq (by rw [eq])]
    rw [sub_self, eq_comm, sub_eq_zero]
    refine standing_congr ⟨?_, ?_⟩
    · rintro ⟨b, mem⟩
      obtain ⟨l, h, st, -⟩ := chains.link_of_mem mem
      rw [← eq] at h
      obtain ⟨home, -, inHome⟩ := reth.chains.attached i l h st
      exact ⟨home, inHome⟩
    · rintro ⟨b, mem⟩
      obtain ⟨l, h, st, -⟩ := reth.chains.link_of_mem mem
      rw [eq] at h
      obtain ⟨home, -, inHome⟩ := chains.attached i l h st
      exact ⟨home, inHome⟩
  · simp only [owned, isOwned_of_link hOld, isOwned_of_link hNew, standing,
      ← chains.isOwned_iff hOld floatsOld, ← reth.chains.isOwned_iff hNew floatsNew]

theorem standing_erase (chains : p.Chains p.threads none) (mem : i ∈ p.threads b) :
    (standing p.threads - standing fun b => (p.threads b).erase i) = Pi.single i 1 := by
  funext inst
  rw [Pi.sub_apply]
  by_cases eq : inst = i
  · subst eq
    have gone : ¬ ∃ b, inst ∈ (p.threads b).erase inst := by
      rintro ⟨home, still⟩
      exact (chains.nodup home).not_mem_erase still
    rw [Pi.single_eq_same, standing, standing, if_pos ⟨b, mem⟩, if_neg gone, sub_zero]
  · rw [Pi.single_eq_of_ne eq, sub_eq_zero]
    exact standing_congr (by simp only [mem_erase_of_ne eq])

/-! ### Seats, lists and symbols -/

/-- A block passes between a function and the client. -/
theorem Reseated.tally (reseat : p.Reseated q b seat) (seated : p.seat? b = some old) :
    p.Tally q (Pi.single b ((if old.isSome then 1 else 0) - if seat.isSome then 1 else 0)) := by
  refine (Tally.of_spare reseat.spare_eq).of_eq ?_
  funext v
  rw [Pi.sub_apply]
  by_cases eq : v = b
  · subst eq
    have seatedNew : q.seat? v = some seat := by
      rw [reseat.seats, update_self]
    rw [Pi.single_eq_same, owned, owned, isOwned_of_seat seated, isOwned_of_seat seatedNew]
  · rw [Pi.single_eq_of_ne eq, owned, owned, isOwned_congr (congrFun reseat.links v)
      (by rw [reseat.seats, update_of_ne eq]) (congrFun reseat.arguments v)
      (congrFun reseat.registers v) reseat.bodies
      (by rw [isGlobal_eq, isGlobal_eq, reseat.globals])
      reseat.surroundings, sub_self]

end Program

/-- Whether a function lists an argument or a register. -/
def Function.lists (data : Function) (value : ValueId) : Int :=
  if value ∈ data.params ∨ value ∈ data.granted then 1 else 0

namespace Program

/-- A function that fits owns exactly the arguments and registers that it lists. -/
theorem Fits.isOwned_iff (fits : p.Fits f d) (h : q.function? f = some d)
    (args : q.argument? = p.argument?) (regs : q.register? = p.register?)
    (mem : (∃ data, p.argument? v = some data ∧ data.parent = f) ∨
      ∃ data, p.register? v = some data ∧ data.parent = f) :
    q.isOwned v = true ↔ v ∈ d.params ∨ v ∈ d.granted := by
  rcases mem with ⟨data, again, rfl⟩ | ⟨data, again, rfl⟩
  · have notGranted : v ∉ d.granted := by
      intro granted
      obtain ⟨r, hReg, -⟩ := fits.granted v granted
      rw [register?_eq_some_iff] at hReg
      rw [argument?_eq_some_iff, hReg] at again
      simp at again
    rw [← args, argument?_eq_some_iff] at again
    simp [isOwned, again, h, notGranted]
  · have notParam : v ∉ d.params := by
      intro isParam
      obtain ⟨arg, hArg, -⟩ := fits.params v isParam
      rw [argument?_eq_some_iff] at hArg
      rw [register?_eq_some_iff, hArg] at again
      simp at again
    rw [← regs, register?_eq_some_iff] at again
    simp [isOwned, again, h, notParam]

/-- No node is listed twice by a function that fits. -/
theorem Fits.lists_eq (fits : p.Fits f d) :
    d.lists = fun v => (d.granted.count v : Int) + d.params.count v := by
  funext v
  rw [Function.lists, fits.grantedNodup.count, fits.paramsNodup.count]
  by_cases isParam : v ∈ d.params
  · have notGranted : v ∉ d.granted := by
      intro granted
      obtain ⟨arg, hArg, -⟩ := fits.params v isParam
      obtain ⟨r, hReg, -⟩ := fits.granted v granted
      rw [register?_eq_some_iff] at hReg
      rw [argument?_eq_some_iff, hReg] at hArg
      simp at hArg
    simp [isParam, notGranted]
  · simp [isParam]

/-- Arguments and registers pass between a function and the client. -/
theorem Refitted.tally {old : Function} (refit : p.Refitted q f old new) (hs : p.Sound)
    (fits : p.Fits f new) : p.Tally q (old.lists - new.lists) := by
  refine (Tally.of_spare refit.spare_eq).of_eq ?_
  have fitsOld := hs.staffed f old refit.held
  have hNew : q.function? f = some new := by
    rw [refit.bodies, update_self]
  funext v
  rw [Pi.sub_apply, Pi.sub_apply]
  by_cases mem : (∃ data, p.argument? v = some data ∧ data.parent = f) ∨
      ∃ data, p.register? v = some data ∧ data.parent = f
  · simp only [owned, Function.lists, fitsOld.isOwned_iff refit.held rfl rfl mem,
      fits.isOwned_iff hNew refit.arguments refit.registers mem]
  · -- a node of another function is on neither list and keeps its owner
    have unlisted : ∀ {d : Function}, p.Fits f d → ¬ (v ∈ d.params ∨ v ∈ d.granted) := by
      intro d fitsData
      rintro (isParam | isGranted)
      · exact mem (Or.inl (fitsData.params v isParam))
      · exact mem (Or.inr (fitsData.granted v isGranted))
    rw [Function.lists, Function.lists, if_neg (unlisted fitsOld), if_neg (unlisted fits), sub_self,
      sub_eq_zero]
    have elsewhere : ∀ parent, parent ≠ f →
        q.function? parent = p.function? parent := fun parent ne => by
      rw [refit.bodies, update_of_ne ne]
    have sameArguments : (q.argument? v).any (fun d =>
          (q.function? d.parent).any (·.params.contains v)) =
        (p.argument? v).any (fun d =>
          (p.function? d.parent).any (·.params.contains v)) := by
      rw [refit.arguments]
      cases h : p.argument? v with
      | none => rfl
      | some data =>
        simp only [any_some]
        rw [elsewhere data.parent fun eq => mem (Or.inl ⟨data, h, eq⟩)]
    have sameRegisters : (q.register? v).any (fun d =>
          (q.function? d.parent).any (·.granted.contains v)) =
        (p.register? v).any (fun d =>
          (p.function? d.parent).any (·.granted.contains v)) := by
      rw [refit.registers]
      cases h : p.register? v with
      | none => rfl
      | some data =>
        simp only [any_some]
        rw [elsewhere data.parent fun eq => mem (Or.inr ⟨data, h, eq⟩)]
    simp only [owned, isOwned_eq, sameArguments, sameRegisters, refit.links, refit.seats,
      refit.functions, isGlobal_eq, refit.globals,
      functions_eq_of_surroundings refit.surroundings,
      globals_eq_of_surroundings refit.surroundings]

/-- Whether the program lists a symbol. -/
def listed (program : Program) (value : ValueId) : Int :=
  if value ∈ program.functions ∨ value ∈ program.globals then 1 else 0

/-- The program owns exactly the symbols that it lists. -/
theorem Catalogue.owned_eq (cat : p.Catalogue) (sym : p.isFunction v = true ∨ p.isGlobal v = true) :
    p.owned v = p.listed v := by
  rw [isFunction_eq, isGlobal_eq, isSome_iff_exists, isSome_iff_exists] at sym
  rcases sym with ⟨d, h⟩ | ⟨d, h⟩
  · rw [function?_eq_some_iff] at h
    have notGlobal : v ∉ p.globals := by
      intro mem
      have hg := cat.globals v mem
      simp [isGlobal_eq, global?, h, Payload.global?] at hg
    simp [owned, isOwned, h, listed, notGlobal]
  · rw [global?_eq_some_iff] at h
    have notFunction : v ∉ p.functions := by
      intro mem
      have isFn := cat.functions v mem
      simp [isFunction_eq, function?, h, Payload.function?] at isFn
    simp [owned, isOwned, h, listed, notFunction]

theorem Catalogue.listed_eq_zero (cat : p.Catalogue)
    (noSymbol : ¬ (p.isFunction v = true ∨ p.isGlobal v = true)) : p.listed v = 0 := by
  refine if_neg ?_
  rintro (mem | mem)
  · exact noSymbol (Or.inl (cat.functions v mem))
  · exact noSymbol (Or.inr (cat.globals v mem))

/-- Symbols pass between the program and the client. -/
theorem Relabels.tally (lab : p.Relabels q) (cat : p.Catalogue) (catalogueAfter : q.Catalogue) :
    p.Tally q (p.listed - q.listed) := by
  refine (Tally.of_spare lab.spare_eq).of_eq ?_
  have fns : q.isFunction = p.isFunction := by
    rw [isFunction_eq, isFunction_eq, lab.functions]
  funext v
  rw [Pi.sub_apply, Pi.sub_apply]
  by_cases sym : p.isFunction v = true ∨ p.isGlobal v = true
  · rw [cat.owned_eq sym, catalogueAfter.owned_eq (by rwa [fns, lab.globals])]
  · rw [cat.listed_eq_zero sym,
      catalogueAfter.listed_eq_zero (by rwa [fns, lab.globals]), sub_self, sub_eq_zero]
    simp only [not_or, Bool.not_eq_true] at sym
    simp only [owned, isOwned_eq, lab.link?, lab.seat?, lab.arguments,
      lab.registers, lab.functions, fns, lab.globals, sym.1, sym.2,
      Bool.false_and]

/-! ### Nodes that come and go -/

theorem Exchanged.owned_of_ne {new : Option Payload} {value : ValueId} (exch : p.Exchanged q v new)
    (surr : q.surroundings = p.surroundings)
    (oldEmpty : ∀ d, p.function? v = some d → d.params = [] ∧ d.granted = [])
    (newEmpty : ∀ d, new.bind Payload.function? = some d → d.params = [] ∧ d.granted = [])
    (ne : value ≠ v) : q.owned value = p.owned value := by
  have lists : ∀ (mem : Function → Bool), (∀ d, d.params = [] ∧ d.granted = [] →
      mem d = false) → ∀ parent, (q.function? parent).any mem = (p.function? parent).any mem := by
    intro mem empty parent
    rw [exch.function?, update_apply]
    split
    next eq =>
      subst eq
      have emptyOld : (p.function? parent).any mem = false := by
        cases h : p.function? parent with
        | none => rfl
        | some d => exact empty d (oldEmpty d h)
      have emptyNew : (new.bind Payload.function?).any mem = false := by
        cases h : new.bind Payload.function? with
        | none => rfl
        | some d => exact empty d (newEmpty d h)
      rw [emptyOld, emptyNew]
    next => rfl
  have params := lists (·.params.contains value) (by simp +contextual)
  have granted := lists (·.granted.contains value) (by simp +contextual)
  have category := exch.category_of_ne ne
  simp only [owned, isOwned_eq, exch.link?, exch.seat?, exch.argument?,
    exch.register?, update_of_ne ne, params, granted, isFunction, isGlobal,
    category, functions_eq_of_surroundings surr, globals_eq_of_surroundings surr]

theorem countOf_eq_zero (absent : p.values.get? v = none) : p.countOf v = 0 := by
  simp only [Arena.get?, map_eq_none_iff] at absent
  simp [countOf, Arena.count?, absent]

/-- A node is there exactly if someone owns it. -/
theorem Stored.isLive_iff (stored : p.Stored) : p.isLive v = true ↔ p.countOf v ≠ 0 := by
  have owned := stored.owned v
  rw [isLive, Arena.contains, countOf]
  rw [Arena.count?] at owned ⊢
  cases absent : p.values.lookup? v with
  | none => simp
  | some entry => simpa [absent] using owned

theorem owned_eq_zero (absent : p.payload? v = none) : p.owned v = 0 := by
  simp [owned, isOwned, absent]

theorem spare_of_unread (unread : p.usesOf v = []) : p.spare v = p.countOf v := by
  simp [spare, unread]

theorem Sound.owned_of_added (hs : p.Sound) (added : p.Added q v ty payload)
    (blank : payload.Blank) :
    q.owned v = 0 := by
  have absent := added.payload?_eq_none
  have h : q.payload? v = some payload := by
    rw [show q.payload? = _ from added.exchanged, update_self]
  have bodies : payload.function? = none → q.function? = p.function? := by
    intro noFunction
    rw [added.exchanged.function?, bind_some, noFunction]
    exact update_eq_self_iff.mpr (by simp [function?, absent])
  refine if_neg ?_
  rw [isOwned, h]
  cases payload with
  | constant d => simp
  | inst d =>
    obtain ⟨kind, rfl⟩ := blank
    simp [Link.isOwned, Inst.link, Inst.fresh]
  | block d =>
    obtain rfl : d = Block.detached := blank
    simp [Block.detached]
  | argument d =>
    simp only [bodies rfl, Option.any_eq_true, List.contains_iff_mem, not_exists, not_and]
    intro f hFn mem
    obtain ⟨_, hArg, -⟩ := (hs.staffed _ f hFn).params v mem
    simp [argument?_eq_some_iff, absent] at hArg
  | register d =>
    simp only [bodies rfl, Option.any_eq_true, List.contains_iff_mem, not_exists, not_and]
    intro f hFn mem
    obtain ⟨_, hReg, -⟩ := (hs.staffed _ f hFn).granted v mem
    simp [register?_eq_some_iff, absent] at hReg
  | function d =>
    simp only [contains_iff_mem, functions_eq_of_surroundings added.surroundings]
    intro mem
    simpa [isFunction, absent] using hs.catalogue.functions v mem
  | global d =>
    simp only [contains_iff_mem, globals_eq_of_surroundings added.surroundings]
    intro mem
    simpa [isGlobal, absent] using hs.catalogue.globals v mem

/-- A new node belongs to the client. -/
theorem Added.tally (added : p.Added q v ty payload) (hs : p.Sound) (blank : payload.Blank) :
    p.Tally q (Pi.single v 1) := by
  have absent := added.payload?_eq_none
  intro value
  by_cases eq : value = v
  · subst eq
    have unread : p.usesOf value = [] := by simp [Program.usesOf, added.fresh]
    rw [balance, balance, spare_of_unread unread, spare_of_unread (by rw [added.usesOf, unread]),
      added.counts, update_self, countOf_eq_zero added.fresh, owned_eq_zero absent,
      hs.owned_of_added added blank, Pi.single_eq_same]
    simp
  · have owner := added.exchanged.owned_of_ne added.surroundings (by simp [function?, absent])
      (fun d h => by
        cases payload with
        | function data =>
          obtain rfl : data = d := by simpa [Payload.function?] using h
          exact ⟨blank.1, by simp [Function.granted, blank.2.2]⟩
        | _ => simp [Payload.function?] at h) eq
    have c : q.isConstant value = p.isConstant value := by
      simp only [isConstant, added.exchanged.category_of_ne eq]
    rw [balance, balance, owner, spare, spare, c, added.counts,
      update_of_ne eq, added.usesOf, Pi.single_eq_of_ne eq, add_zero]

/-- The operands of a new instruction take the handles on constants along. -/
theorem Joined.tally (joined : Joined u p q) : p.Tally q 0 := by
  induction joined with
  | refl => exact .refl _
  | tail _ last ih =>
    obtain ⟨_, _, joins, -⟩ := last
    exact (ih.trans (.of_rewires joins.added.rewires joins.added.spare)).of_eq (by simp)

/-- A new instruction belongs to the client. -/
theorem Built.tally {kind : InstKind} (built : p.Built q i ty kind) (hs : p.Sound) :
    p.Tally q (Pi.single i 1) := by
  obtain ⟨started, added, joined⟩ := built.added
  exact ((added.tally hs ⟨kind, rfl⟩).trans (Joined.tally joined)).of_eq (add_zero _)

/-- No container owns a node that is bare. -/
theorem Bare.owned_eq (bare : p.Bare v) : p.owned v = 0 := by
  refine if_neg ?_
  cases h : p.payload? v with
  | none => simp [isOwned, h]
  | some payload =>
    have bareHere := bare payload h
    cases payload with
    | constant d => simp [isOwned, h]
    | inst d =>
      simp [isOwned, h, Link.isOwned, Inst.link, show d.status = .finalized from bareHere]
    | block d => simp [isOwned, h, bareHere.2]
    | function d => simpa [isOwned, h] using bareHere.2.2.2.1
    | global d => simpa [isOwned, h] using bareHere.2.1
    | argument d =>
      simpa [isOwned, h, Option.any_eq_true] using bareHere d.parent
    | register d =>
      simpa [isOwned, h, Option.any_eq_true] using bareHere d.parent

/-- A handle that is given up was the client's. -/
theorem Dropped.tally (drop : p.Dropped q v) (bare : p.countOf v = 1 → p.Bare v) :
    p.Tally q (Pi.single v (-1)) := by
  have uses := drop.usesOf
  intro value
  rcases drop.exchanged_or with ⟨more, pls, -⟩ | ⟨last, live, exch, -⟩
  · have owner := congrFun (owned_eq_of_payloads pls drop.surroundings) value
    have c : q.isConstant value = p.isConstant value := by
      simp only [isConstant, pls]
    rw [balance, balance, owner, Program.spare, Program.spare, c, uses, drop.counts]
    by_cases eq : value = v
    · subst eq
      rw [update_self, Pi.single_eq_same, Nat.cast_sub (by omega)]
      push_cast
      ring
    · rw [update_of_ne eq, Pi.single_eq_of_ne eq, add_zero]
  · have unread : p.usesOf v = [] := by
      rcases drop.outcome with ⟨more, -⟩ | ⟨-, -, unread, -⟩
      · omega
      · exact unread
    by_cases eq : value = v
    · subst eq
      have gone : q.payload? value = none := by
        rw [show q.payload? = _ from exch, update_self]
      rw [balance, balance, spare_of_unread unread, spare_of_unread (by rw [uses, unread]),
        drop.counts, update_self, owned_eq_zero gone, (bare last).owned_eq,
        Pi.single_eq_same, last]
      simp
    · have owner := exch.owned_of_ne drop.surroundings (fun d h => by
          have bareHere := bare last _ (function?_eq_some_iff.mp h)
          exact ⟨bareHere.1, by simp [Function.granted, bareHere.2.2.1]⟩) (by simp) eq
      have c : q.isConstant value = p.isConstant value := by
        simp only [isConstant, exch.category_of_ne eq]
      rw [balance, balance, owner, Program.spare, Program.spare, c, uses, drop.counts,
        update_of_ne eq, Pi.single_eq_of_ne eq, add_zero]

/-- A handle that is copied is the client's. -/
theorem Retained.tally (retained : p.Retained q v) : p.Tally q (Pi.single v 1) := by
  have surr : q.surroundings = p.surroundings := by
    rw [retained.others]
    rfl
  have pls := retained.payload?
  intro value
  have owner := congrFun (owned_eq_of_payloads pls surr) value
  have c : q.isConstant value = p.isConstant value := by
    simp only [isConstant, pls]
  rw [balance, balance, owner, Program.spare, Program.spare, c, retained.usesOf, retained.counts]
  by_cases eq : value = v
  · subst eq
    rw [update_self, Pi.single_eq_same]
    push_cast
    ring
  · rw [update_of_ne eq, Pi.single_eq_of_ne eq, add_zero]

/-! ### Nested instructions -/

/-- Whether an edge reads an instruction that is nested under another. -/
def nests (program : Program) (outer : InstId) (edge : EdgeId) : Bool :=
  (program.wire? edge).any fun data =>
    (program.link? data.value).any (·.holder == some (.inst outer))

/-- No instruction reads what is nested under it more than once. -/
def Neat (program : Program) : Prop :=
  ∀ outer, (program.operandsOf outer).countP (program.nests outer) ≤ 1

theorem Neat.of_fewer (neat : p.Neat) (ops : ∀ u, (q.operandsOf u).Sublist (p.operandsOf u))
    (fewer : ∀ outer e, q.nests outer e = true → p.nests outer e = true) : q.Neat := by
  intro outer
  exact ((countP_mono_left fun e _ => fewer outer e).trans (ops outer).countP_le).trans (neat outer)

theorem nests_mono {e : EdgeId} (wires : ∀ e d, q.wire? e = some d → p.wire? e = some d)
    (nested : ∀ inner l outer, q.link? inner = some l →
      l.holder = some (.inst outer) → p.link? inner = some l) (reads : q.nests outer e = true) :
    p.nests outer e = true := by
  simp only [nests, Option.any_eq_true, beq_iff_eq] at reads ⊢
  obtain ⟨d, h, l, hLink, holder⟩ := reads
  exact ⟨d, wires e d h, l, nested d.value l outer hLink holder, holder⟩

/-- Removing edges and nestings keeps instructions neat. -/
theorem Neat.mono (neat : p.Neat) (ops : ∀ u, (q.operandsOf u).Sublist (p.operandsOf u))
    (wires : ∀ e d, q.wire? e = some d → p.wire? e = some d)
    (nested : ∀ inner l outer, q.link? inner = some l →
      l.holder = some (.inst outer) → p.link? inner = some l) : q.Neat :=
  neat.of_fewer ops fun _ _ => nests_mono wires nested

/-- Balances shift by so much where no instruction reads what is nested under it twice. -/
structure Settles (before after : Program) (shift : ValueId → Int) : Prop where
  neat : before.Neat → after.Neat
  tally : before.Neat → before.Tally after shift

namespace Settles

theorem refl (s : Program) : s.Settles s 0 :=
  ⟨id, fun _ => .refl s⟩

theorem trans (earlier : p.Settles q shift) (later : q.Settles r more) :
    p.Settles r (shift + more) :=
  ⟨later.neat ∘ earlier.neat, fun neat =>
    (earlier.tally neat).trans (later.tally (earlier.neat neat))⟩

theorem of_eq (settles : p.Settles q shift) (eq : shift = more) : p.Settles q more :=
  eq ▸ settles

theorem of_tally (tally : p.Tally q shift) (ops : ∀ u, (q.operandsOf u).Sublist (p.operandsOf u))
    (wires : ∀ e d, q.wire? e = some d → p.wire? e = some d)
    (nested : ∀ inner l outer, q.link? inner = some l →
      l.holder = some (.inst outer) → p.link? inner = some l) : p.Settles q shift :=
  ⟨fun neat => neat.mono ops wires nested, fun _ => tally⟩

/-- Moves that leave edges and links alone settle whatever they tally. -/
theorem of_same (tally : p.Tally q shift) (ops : q.operandsOf = p.operandsOf)
    (wires : q.wire? = p.wire?) (links : q.link? = p.link?) : p.Settles q shift := by
  refine of_tally tally ?_ ?_ ?_
  · intro u
    rw [ops]
  · intro e d h
    rwa [← wires]
  · intro inner l outer h _
    rwa [← links]

end Settles

/-- Threading instructions otherwise nests nothing. -/
theorem Rethreads.nested {inner : InstId} (reth : p.Rethreads q threads)
    (h : q.link? inner = some l) (holder : l.holder = some (.inst outer)) :
    p.link? inner = some l := by
  rcases reth.refloats inner with eq | ⟨-, new, -, hNew, -, floats⟩
  · exact eq ▸ h
  · obtain rfl := mem_unique h hNew
    rcases floats with conn | disconnected
    · obtain ⟨b, -, mem⟩ := reth.chains.attached inner l h conn
      obtain ⟨_, h', -, home⟩ := reth.chains.link_of_mem mem
      obtain rfl := mem_unique h h'
      simp [holder] at home
    · obtain ⟨-, -, shape⟩ := reth.chains.unchained inner l h (by simp [disconnected])
      simp [disconnected, holder] at shape

theorem OperandsRemoved.settles {kept gone : List EdgeId} {cut : Option (BlockId × BlockId)}
    (rem : p.OperandsRemoved q u kept gone cut) (fewer : kept.Sublist (p.operandsOf u)) :
    p.Settles q 0 := by
  refine .of_tally (.of_rewires rem.rewires rem.spare) ?_ ?_ ?_
  · intro value
    rw [rem.operands, update_apply]
    split
    next eq => exact eq ▸ fewer
    next => exact List.Sublist.refl _
  · intro e d h
    rw [rem.wires] at h
    split at h
    · simp at h
    · exact h
  · intro inner l outer h _
    rwa [← rem.rewires.skeleton.link?]

theorem Reseated.settles (reseat : p.Reseated q b seat) (seated : p.seat? b = some old) :
    p.Settles q (Pi.single b ((if old.isSome then 1 else 0) - if seat.isSome then 1 else 0)) :=
  .of_same (reseat.tally seated) reseat.operands
    (by funext edge; simp only [wire?, reseat.edges]) reseat.links

theorem Refitted.settles {old : Function} (refit : p.Refitted q f old new) (hs : p.Sound)
    (fits : p.Fits f new) : p.Settles q (old.lists - new.lists) :=
  .of_same (refit.tally hs fits) refit.operands
    (by funext edge; simp only [wire?, refit.edges]) refit.links

theorem Dropped.link?_before (drop : p.Dropped q v) (h : q.link? i = some l) :
    p.link? i = some l := by
  obtain ⟨d, hInst, rfl⟩ := map_eq_some_iff.mp h
  rw [link?, drop.inst?_before hInst, map_some]

theorem Dropped.settles (drop : p.Dropped q v) (bare : p.countOf v = 1 → p.Bare v) :
    p.Settles q (Pi.single v (-1)) := by
  refine .of_tally (drop.tally bare) ?_ (fun e d h => by rwa [← drop.wire?]) ?_
  · intro u
    rcases drop.exchanged_or with ⟨-, -, ops⟩ | ⟨-, -, -, ops⟩
    · rw [ops]
    · rw [ops, update_apply]
      split
      · exact nil_sublist _
      · exact List.Sublist.refl _
  · exact fun inner l outer h _ => drop.link?_before h

/-! ### Edits -/

/-- What an edit leads to, and by how much balances shift. -/
structure Leads (promise : Promise) (before after : Program) (shift : ValueId → Int) : Prop where
  reaches : before.Reaches promise after
  tally : before.Neat → before.Tally after shift

namespace Leads

theorem refl (s : Program) : s.Leads pr s 0 :=
  ⟨.refl _, fun _ => .refl _⟩

theorem of_grown (grown : Grown pr p q) (tally : p.Tally q shift) : p.Leads pr q shift :=
  ⟨.of_grown grown, fun _ => tally⟩

theorem of_shrunk (shrunk : Shrunk pr p q) (settles : p.Settles q shift) : p.Leads pr q shift :=
  ⟨.of_shrunk shrunk, settles.tally⟩

theorem of_shapes (shapes : p.Shapes pr q) (tally : p.Tally q shift) : p.Leads pr q shift :=
  ⟨.of_shrunk (.single shapes), fun _ => tally⟩

theorem of_eq (leads : p.Leads pr q shift) (eq : shift = more) : p.Leads pr q more :=
  eq ▸ leads

end Leads

end Program

end ValueGraph

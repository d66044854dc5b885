import Mathlib
import ValueGraph.Proofs.Naming

open Function

namespace ValueGraph

open Program List

/-!
# Edits of types, constants and symbols

Types and names are only ever added.  A constant belongs to the client; a function
or global belongs to the program that lists it, and a function owns its arguments
and registers.
-/

open Step

variable {p q made named : Program} {pr : Promise} {v sym : ValueId} {a : Unit} {text : String}
  {f : FuncId} {d : Function} {file : RegisterFile} {r : RegId} {ty content : TypeId}
variable {g : GlobalId} {initializer : Option ValueId} {bits : UInt64} {step : Step Unit}

/-! ### Types and constants -/

theorem Program.Leads.of_retyped (retyped : p.Retyped q) (hs : p.Sound) : p.Leads pr q 0 :=
  .of_shapes retyped.shapes (retyped.tally hs)

theorem requestType_leads {request : TypeRequest} (hs : p.Sound)
    (run : requestType request p = .done ty q) : p.Leads pr q 0 := by
  obtain ⟨retyped, -⟩ := requestType_spec hs (Edit.perform_eq_done.mp run)
  exact .of_retyped retyped hs

/-- A new constant belongs to the client. -/
theorem Step.addConstant_leads {c : Constant} (hs : p.Sound) (reg : p.types.Registered ty)
    (run : (addConstant ty c).run p = .ok (v, q)) : p.Leads pr q (Pi.single v 1) := by
  have added := addNode_spec hs.stored run
  exact .of_grown (.single (.grow v ty _ added trivial (by simp [Payload.category]) reg
    (by simp [Payload.category]))) (added.tally hs trivial)

section Constants

variable (hs : p.Sound)
include hs

theorem constUnsigned_leads (run : constUnsigned ty bits p = .done v q) :
    p.Leads pr q (Pi.single v 1) := by
  simp only [constUnsigned, Edit.plan_eq_done, bind_eq_ok, liftHalt_eq_ok] at run
  obtain ⟨step, ⟨width, read, plan⟩, run⟩ := run
  cases width with
  | none => exact absurd plan (refuse_ne_ok _ _)
  | some width =>
    simp only [bind_eq_ok, pure_eq_ok] at plan
    obtain ⟨low, -, rfl⟩ := plan
    exact addConstant_leads hs (TypeTable.registered_of_intBits? read) run

theorem constBool_leads {a : Bool} (run : constBool a p = .done v q) :
    p.Leads pr q (Pi.single v 1) :=
  addConstant_leads hs (hs.registry.builtin (by decide)) (Edit.perform_eq_done.mp run)

theorem constFloat_leads (run : constFloat ty bits p = .done v q) :
    p.Leads pr q (Pi.single v 1) := by
  simp only [constFloat, Edit.plan_eq_done, bind_eq_ok, liftHalt_eq_ok] at run
  obtain ⟨step, ⟨width, read, plan⟩, run⟩ := run
  cases width with
  | none => exact absurd plan (refuse_ne_ok _ _)
  | some width =>
    obtain rfl := pure_eq_ok.mp plan
    exact addConstant_leads hs (TypeTable.registered_of_floatBits? read) run

theorem constZero_leads (run : constZero ty p = .done v q) : p.Leads pr q (Pi.single v 1) := by
  simp only [constZero, Edit.plan_eq_done, bind_eq_ok, liftHalt_eq_ok, pure_eq_ok] at run
  obtain ⟨_, ⟨storable, read, _, -, rfl⟩, run⟩ := run
  exact addConstant_leads hs (TypeTable.registered_of_isStorable read) run

theorem constNull_leads (run : constNull ty p = .done v q) : p.Leads pr q (Pi.single v 1) := by
  simp only [constNull, Edit.plan_eq_done, bind_eq_ok, liftHalt_eq_ok, pure_eq_ok] at run
  obtain ⟨_, ⟨pointer, read, _, -, rfl⟩, run⟩ := run
  exact addConstant_leads hs (TypeTable.registered_of_isPointer read) run

theorem constUndefined_leads (run : constUndefined ty p = .done v q) :
    p.Leads pr q (Pi.single v 1) := by
  simp only [constUndefined, Edit.plan_eq_done, bind_eq_ok, liftHalt_eq_ok, pure_eq_ok] at run
  obtain ⟨_, ⟨storable, read, _, -, rfl⟩, run⟩ := run
  exact addConstant_leads hs (TypeTable.registered_of_isStorable read) run

end Constants

/-! ### Names -/

section Renaming

variable (hs : p.Sound)
include hs

/-- A symbol that comes under a free name gets another entry and another name. -/
theorem Step.moveSymbol_titled (isSymbol : p.isFunction sym = true ∨ p.isGlobal sym = true)
    (free : p.symbol? text = none)
    (run : (do unregisterSymbol sym; registerSymbol sym text : Step Unit).run p = .ok (a, q)) :
    ∃ name, p.Titled q (p.symbols.filter (·.2 != sym) ++ [(name, sym)]) ∧
      q.Catalogue ∧ p.names.Interns q.names text name := by
  obtain ⟨_, m, runStrike, runRegister⟩ := run_bind.mp run
  have cat := hs.catalogue
  obtain ⟨struck, names, values⟩ := unregisterSymbol_titled cat runStrike
  obtain ⟨name, entered, labels, interns⟩ := registerSymbol_titled runRegister
  have sameLabels : m.name? = p.name? := by
    funext other
    simp only [name?, values]
  rw [struck.symbols] at entered
  rw [sameLabels] at labels
  rw [names] at interns
  have titled := struck.trans entered
  have apart : ∀ entry ∈ p.symbols.filter (·.2 != sym), entry.2 ≠ sym :=
    fun entry mem => bne_iff_ne.mp (mem_filter.mp mem).2
  obtain ⟨nd, entries⟩ := cat.enter filter_sublist apart isSymbol free interns
  refine ⟨name, titled, titled.catalogue cat ?_ nd
    (fun v title h => cat.labels_of_update interns (labels ▸ h))
    (fun entry mem => labels ▸ entries entry mem), interns⟩
  intro listed mem
  by_cases eq : listed = sym
  · exact ⟨name, by simp [eq]⟩
  · obtain ⟨own, isOwn⟩ := cat.named listed mem
    exact ⟨own, mem_append_left _ (mem_filter.mpr ⟨isOwn, bne_iff_ne.mpr eq⟩)⟩

omit hs in
/-- A renaming that is planned leaves the program as it is or moves a symbol to a name
that is free. -/
theorem Program.planRename_cases (plan : p.planRename sym text = .ok step)
    (run : step.run p = .ok (a, q)) :
    (p.symbol? text = some sym ∧ p = q) ∨ (p.symbol? text = none ∧
        (p.isFunction sym = true ∨ p.isGlobal sym = true) ∧
        (do unregisterSymbol sym; registerSymbol sym text : Step Unit).run p = .ok (a, q)) := by
  unfold planRename at plan
  split at plan
  next isSymbol =>
    rw [Bool.or_eq_true] at isSymbol
    cases found : p.symbol? text with
    | some taken =>
      simp only [found] at plan
      split at plan
      next eq =>
        obtain rfl := pure_eq_ok.mp plan
        exact Or.inl ⟨by rw [eq], (run_pure.mp run).2⟩
      next => exact absurd plan (by simp [refuseSymbol])
    | none =>
      rw [found] at plan
      obtain rfl := pure_eq_ok.mp plan
      exact Or.inr ⟨rfl, isSymbol, run⟩
  next => exact absurd plan (by simp [refuseSymbol])

variable
  (listed : pr.renamesListed →
  p.isFunction sym = true ∨ p.isGlobal sym = true → p.Lists sym)
include listed

theorem Program.planRename_leads (plan : p.planRename sym text = .ok step)
    (run : step.run p = .ok (a, q)) : p.Leads pr q 0 := by
  rcases planRename_cases plan run with ⟨-, rfl⟩ | ⟨free, isSymbol, run⟩
  · exact .refl p
  · obtain ⟨name, titled, cat, -⟩ := moveSymbol_titled hs isSymbol free run
    refine titled.leads hs cat fun renames enrolled entry mem => ?_
    rcases mem_append.mp mem with old | isNew
    · exact enrolled entry (mem_of_mem_filter old)
    · rw [mem_singleton.mp isNew]
      exact listed renames isSymbol

theorem rename_leads (run : rename sym text p = .done a q) : p.Leads pr q 0 := by
  obtain ⟨step, plan, run⟩ := Edit.plan_eq_done.mp run
  exact planRename_leads hs listed plan run

theorem setName_leads (run : setName sym text p = .done a q) : p.Leads pr q 0 := by
  obtain ⟨step, plan, run⟩ := Edit.plan_eq_done.mp run
  simp only [bind_eq_ok, liftHalt_eq_ok, payload_eq_ok] at plan
  obtain ⟨payload, h, plan⟩ := plan
  have isSymbol : (p.isFunction sym = true ∨ p.isGlobal sym = true) ↔ payload.isSymbol = true := by
    cases payload <;> simp [isFunction, isGlobal, h, Payload.category, Payload.isSymbol]
  split at plan
  next => exact planRename_leads hs listed plan run
  next noSymbol =>
    obtain rfl := pure_eq_ok.mp plan
    obtain ⟨name, named, runName, runMark⟩ := run_bind.mp run
    obtain ⟨titled, values, interns⟩ := internName_titled runName
    obtain ⟨lab, labels⟩ := setNodeName_relabels runMark
    obtain ⟨-, rfl⟩ := modifyNode_run.mp runMark
    have marked : p.Titled _ p.symbols :=
      ⟨titled.relabels.trans lab, titled.symbols, titled.functions, titled.globals, titled.names⟩
    have cat := hs.catalogue
    have sameLabels : named.name? = p.name? := by
      funext value
      simp only [name?, values]
    refine marked.leads hs (marked.catalogue cat cat.named cat.namesNodup
      (fun v title h => cat.labels_of_update interns (sameLabels ▸ labels ▸ h))
      fun entry mem => ?_) fun _ enrolled => enrolled
    obtain ⟨entered, ownName⟩ := cat.entered entry mem
    have apart : entry.2 ≠ sym := by
      rintro rfl
      exact noSymbol (isSymbol.mp entered)
    refine ⟨entered, ?_⟩
    rwa [labels, update_of_ne apart, sameLabels]

end Renaming

/-! ### Globals -/

theorem setConstantGlobal_leads {isConstant : Bool} (hs : p.Sound)
    (run : setConstantGlobal g isConstant p = .done a q) : p.Leads pr q 0 := by
  obtain ⟨d, h, rfl⟩ := modifyGlobal_run.mp (Edit.perform_eq_done.mp run)
  have hPayload := global?_eq_some_iff.mp h
  have reshaped := category_withPayload hPayload
    (rfl : (Payload.global { d with isConstant }).category = _)
  have titled : p.Titled (p.withPayload g (.global { d with isConstant })) p.symbols :=
    { relabels :=
        { toSameWiring := .ofPayload hPayload rfl rfl rfl
          insts := inst?_withPayload hPayload rfl
          blocks := block?_withPayload hPayload rfl
          functions := function?_withPayload hPayload rfl
          globals := funext fun value => by simp only [isGlobal, reshaped]
          types := type?_withPayload ..
          table := .refl _ }
      symbols := rfl
      functions := rfl
      globals := rfl
      names := .refl _ }
  have cat := hs.catalogue
  have sameLabels : (p.withPayload g (.global { d with isConstant })).name? = p.name? := by
    funext value
    rw [name?_eq_label?, label?_withPayload, ← name?_eq_label?]
  refine titled.leads hs (titled.catalogue cat cat.named cat.namesNodup
    (fun v name h => cat.labels v name (sameLabels ▸ h))
    fun entry mem => ?_) fun _ enrolled => enrolled
  obtain ⟨entered, ownName⟩ := cat.entered entry mem
  exact ⟨entered, sameLabels ▸ ownName⟩

theorem Program.checkInitializer_eq_ok (checked : p.checkInitializer content v = .ok a) :
    p.isConstant v = true := by
  unfold checkInitializer at checked
  split at checked
  next c => exact c
  next => exact absurd checked (by simp [refuseSymbol])

theorem Step.addInitializer_redraws (hs : p.Sound) (hg : p.isGlobal g = true)
    (c : p.skeleton v = none) (run : (addOperand g (.fixed 0) v).run p = .ok (a, q)) :
    p.Redraws pr q ∧ p.values.Grows q.values := by
  obtain ⟨e, added, -⟩ := addOperand_spec hs.stored run
  obtain ⟨noShell, noLink, noKind⟩ := shell?_of_isGlobal hg
  have apart : p.flowSource? g (.fixed 0) = none := by
    rw [flowSource?, noShell]
    rfl
  have joins : p.Joins q e { user := g, value := v, slot := .fixed 0 } :=
    { added := by rw [apart]; exact added
      reads := Or.inr hg
      admits := fun kind h => absurd h (by simp [noShell])
      leads := fun leads => absurd apart leads
      keyed := by simp }
  refine ⟨.connect e _ joins ?_ (by simp [noShell]) ?_ (fun _ l h => ?_), added.grows hs.stored⟩
  · rintro ⟨kind, own, facets, h, -⟩
    exact absurd h (by simp [noKind])
  · intro rule asks
    rw [rule?, if_pos hg] at asks
    obtain rfl := Option.some.inj asks
    exact isConstant_iff.mpr ⟨added.value, c⟩
  · exact absurd h (by simp [noLink])

theorem setInitializer_leads (hs : p.Sound) (run : setInitializer g initializer p = .done a q) :
    p.Leads pr q 0 := by
  obtain ⟨step, plan, run⟩ := Edit.plan_eq_done.mp run
  simp only [bind_eq_ok, liftHalt_eq_ok, global_eq_ok] at plan
  obtain ⟨d, h, plan⟩ := plan
  have hg : p.isGlobal g = true := by
    rw [isGlobal_eq, Option.isSome_iff_exists]
    exact ⟨d, h⟩
  have cleared : ∀ {m}, (clearOperands g).run p = .ok ((), m) →
      p.Redraws pr m ∧ p.SameSkeleton m := by
    intro m runClear
    obtain ⟨rem, -⟩ := clearOperands_spec hs.stored hs.wired.placid hs.wired.uses runClear
    exact ⟨.clear g hg rem, rem.rewires.skeleton⟩
  cases initializer with
  | none =>
    simp only [bind_eq_ok, liftHalt_eq_ok] at plan
    obtain ⟨_, -, plan⟩ := plan
    split at plan
    next =>
      obtain rfl := pure_eq_ok.mp plan
      obtain ⟨-, rfl⟩ := run_pure.mp run
      exact .refl p
    next =>
      obtain rfl := pure_eq_ok.mp plan
      simp only [run_bind, run_pure] at run
      obtain ⟨_, _, runClear, -, rfl⟩ := run
      obtain ⟨clears, -⟩ := cleared runClear
      exact .of_shapes (.redraw clears) clears.tally
  | some v =>
    simp only [bind_eq_ok, liftHalt_eq_ok] at plan
    obtain ⟨_, checked, _, -, plan⟩ := plan
    split at plan
    next =>
      obtain rfl := pure_eq_ok.mp plan
      obtain ⟨-, rfl⟩ := run_pure.mp run
      exact .refl p
    next =>
      obtain rfl := pure_eq_ok.mp plan
      obtain ⟨_, m, runClear, runAdd⟩ := run_bind.mp run
      obtain ⟨clears, skeleton⟩ := cleared runClear
      have bare := (isConstant_iff.mp (checkInitializer_eq_ok checked)).2
      obtain ⟨joins, -⟩ : m.Redraws pr q ∧ _ :=
        addInitializer_redraws (clears.sound hs) (by rw [skeleton.isGlobal, hg])
          ((skeleton v).trans bare) runAdd
      exact .of_redrawn (.tail (.single clears) joins)

/-! ### New symbols -/

theorem Step.listSymbol_shapes (hs : made.Sound) (free : made.symbol? text = none)
    (unnamed : ∀ name, (name, sym) ∉ made.symbols) (isNew : pr.isNew sym)
    (runRegister : (registerSymbol sym text).run made = .ok (a, named)) (lab : named.Relabels q)
    (sameLabels : q.name? = named.name?) (symbols : q.symbols = named.symbols)
    (names : q.names = named.names)
    (lists : (made.isFunction sym = true ∧ q.functions = named.functions ++ [sym] ∧
        q.globals = named.globals) ∨
      (made.isGlobal sym = true ∧ q.functions = named.functions ∧
        q.globals = named.globals ++ [sym])) :
    made.Shapes pr q ∧ made.values.Grows q.values ∧ made.Tally q (Pi.single sym (-1)) := by
  obtain ⟨name, titled, labels, interns⟩ := registerSymbol_titled runRegister
  have cat := hs.catalogue
  have all := titled.relabels.trans lab
  rw [titled.symbols] at symbols
  rw [titled.functions, titled.globals] at lists
  have isSymbol : made.isFunction sym = true ∨ made.isGlobal sym = true := lists.imp (·.1) (·.1)
  have unlisted : sym ∉ made.functions ∧ sym ∉ made.globals := by
    rw [← not_or]
    intro listed
    obtain ⟨own, isOwn⟩ := cat.named sym listed
    exact unnamed own isOwn
  have apart : ∀ entry ∈ made.symbols, entry.2 ≠ sym := by
    rintro entry mem rfl
    exact unnamed entry.1 mem
  obtain ⟨nd, entries⟩ := cat.enter (List.Sublist.refl _) apart isSymbol free interns
  have listed : ∀ function, function ∈ q.functions ∨ function ∈ q.globals ↔
      (function ∈ made.functions ∨ function ∈ made.globals) ∨ function = sym := by
    intro function
    rcases lists with ⟨-, fns, globals⟩ | ⟨-, fns, globals⟩
    all_goals
      rw [fns, globals]
      simp only [mem_append, mem_singleton]
      tauto
  have catalogueAfter : q.Catalogue :=
    { functions := by
        rw [all.isFunction]
        rcases lists with ⟨isFn, fns, -⟩ | ⟨-, fns, -⟩
        all_goals
          intro function mem
          rw [fns] at mem
        · rcases mem_append.mp mem with old | isLast
          · exact cat.functions function old
          · rwa [mem_singleton.mp isLast]
        · exact cat.functions function mem
      globals := by
        rw [all.globals]
        rcases lists with ⟨-, -, globals⟩ | ⟨hg, -, globals⟩
        all_goals
          intro global mem
          rw [globals] at mem
        · exact cat.globals global mem
        · rcases mem_append.mp mem with old | isLast
          · exact cat.globals global old
          · rwa [mem_singleton.mp isLast]
      named := by
        intro function mem
        rw [symbols]
        rcases (listed function).mp mem with old | rfl
        · obtain ⟨own, isOwn⟩ := cat.named function old
          exact ⟨own, mem_append_left _ isOwn⟩
        · exact ⟨name, by simp⟩
      functionsNodup := by
        rcases lists with ⟨-, fns, -⟩ | ⟨-, fns, -⟩
        · rw [fns, nodup_append]
          exact ⟨cat.functionsNodup, by simp, fun function mem last isLast =>
            ne_of_mem_of_not_mem mem (mem_singleton.mp isLast ▸ unlisted.1)⟩
        · exact fns ▸ cat.functionsNodup
      globalsNodup := by
        rcases lists with ⟨-, -, globals⟩ | ⟨-, -, globals⟩
        · exact globals ▸ cat.globalsNodup
        · rw [globals, nodup_append]
          exact ⟨cat.globalsNodup, by simp, fun global mem last isLast =>
            ne_of_mem_of_not_mem mem (mem_singleton.mp isLast ▸ unlisted.2)⟩
      namesNodup := symbols ▸ nd
      labels := by
        rw [names, sameLabels, labels]
        exact fun v title => cat.labels_of_update interns
      entered := by
        rw [symbols, all.isFunction, all.globals, sameLabels, labels]
        exact entries
      texts := names ▸ titled.names.distinct cat.texts }
  have enrols : made.Enrols pr q :=
    { lists := fun value isListed => by
        rcases (listed value).mp isListed with old | rfl
        · exact Or.inl old
        · exact Or.inr isNew
      entries := fun _ enrolled entry mem => by
        rw [symbols] at mem
        refine (listed entry.2).mpr ?_
        rcases mem_append.mp mem with old | isLast
        · exact Or.inl (enrolled entry old)
        · exact Or.inr (congrArg Prod.snd (mem_singleton.mp isLast)) }
  refine ⟨.relabel all (fun _ => catalogueAfter) enrols,
    all.grows, ?_⟩
  refine (all.tally cat catalogueAfter).of_eq ?_
  funext value
  rw [Pi.sub_apply, Program.listed, Program.listed]
  simp only [listed]
  by_cases eq : value = sym
  · subst eq
    simp [unlisted]
  · simp [eq]

/-- A new symbol that belongs to the client: no text leads to it. -/
structure Program.Declares (promise : Promise) (before made : Program) (symbol : ValueId) :
    Prop where
  grown : Grown promise before made
  tally : before.Tally made (Pi.single symbol 1)
  names : made.names = before.names
  symbols : made.symbols = before.symbols
  fresh : before.isLive symbol = false

theorem Program.Declares.of_added {typed : Program} {payload : Payload} (hs : p.Sound)
    (retyped : p.Retyped typed) (added : typed.Added made sym ty payload) (blank : payload.Blank)
    (isSymbol : payload.category = .function ∨ payload.category = .global)
    (reg : typed.types.Registered ty) :
    p.Declares pr made sym := by
  have hsTyped := retyped.sound hs
  have retype : p.Raises pr typed := .shape retyped.shapes (by rw [retyped.values]; exact .refl _)
  have grow : typed.Raises pr made := by
    refine .grow sym ty payload added blank ?_ reg ?_
    · rcases isSymbol with isSymbol | isSymbol <;> simp [isSymbol]
    · rcases isSymbol with isSymbol | isSymbol <;> simp [isSymbol]
  exact
    { grown := .tail (.single retype) grow
      tally := ((retyped.tally hs).trans (added.tally hsTyped blank)).of_eq (zero_add _)
      names := by rw [added.others, retyped.others]
      symbols := by rw [added.others, retyped.others]
      fresh := by
        rw [isLive, ← retyped.values, Bool.eq_false_iff, ne_eq, Arena.contains_iff_get?]
        simp [added.fresh] }

theorem Program.Declares.tail {later : Program} (declares : p.Declares pr made sym)
    (grown : Grown pr made later) (tally : made.Tally later 0)
    (surr : later.surroundings = made.surroundings) : p.Declares pr later sym where
  grown := declares.grown.trans grown
  tally := (declares.tally.trans tally).of_eq (add_zero _)
  names := (congrArg Program.names surr).trans declares.names
  symbols := (congrArg Program.symbols surr).trans declares.symbols
  fresh := declares.fresh

/-- A new symbol belongs to the program, which lists it. -/
theorem Program.Declares.leads (declares : p.Declares pr made sym) (hs : p.Sound)
    (checked : p.requireNameFree text = .ok a)
    (runRegister : (registerSymbol sym text).run made = .ok (a, named)) (lab : named.Relabels q)
    (sameLabels : q.name? = named.name?) (symbols : q.symbols = named.symbols)
    (names : q.names = named.names)
    (lists : (made.isFunction sym = true ∧ q.functions = named.functions ++ [sym] ∧
        q.globals = named.globals) ∨
      (made.isGlobal sym = true ∧ q.functions = named.functions ∧
        q.globals = named.globals ++ [sym])) (isNew : ∀ v, p.isLive v = false → pr.isNew v) :
    p.Leads pr q 0 := by
  have free : made.symbol? text = none := by
    unfold requireNameFree at checked
    split at checked
    · exact absurd checked (by simp [refuseSymbol])
    · rename_i free
      rw [symbol?_eq_none_iff, declares.names, declares.symbols, ← symbol?_eq_none_iff]
      simpa using free
  have unnamed : ∀ name, (name, sym) ∉ made.symbols := by
    intro name entered
    rw [declares.symbols] at entered
    have live := isLive_of_isSymbol (hs.catalogue.entered _ entered).1
    simp [declares.fresh] at live
  obtain ⟨shapes, grows, tally⟩ := listSymbol_shapes (declares.grown.sound hs) free unnamed
    (isNew sym declares.fresh) runRegister lab sameLabels symbols names lists
  refine .of_grown (declares.grown.tail (.shape shapes grows)) ?_
  refine (declares.tally.trans tally).of_eq ?_
  rw [← Pi.single_add, add_neg_cancel, Pi.single_zero]

theorem Step.addGlobalNode_declares (hs : p.Sound)
    (c : ∀ v, initializer = some v → p.isConstant v = true)
    (run : (addGlobalNode content initializer).run p = .ok (g, q)) :
    p.Declares pr q g ∧ q.isGlobal g = true := by
  unfold addGlobalNode at run
  obtain ⟨pointer, typed, runType, run⟩ := run_bind.mp run
  obtain ⟨made, grown, runAdd, run⟩ := run_bind.mp run
  obtain ⟨retyped, reg, -⟩ := pointerTo_spec hs runType
  have added := addNode_spec (retyped.sound hs).stored runAdd
  have hg : grown.isGlobal made = true := by
    simp [isGlobal, show grown.payload? = _ from added.exchanged, Payload.category]
  have declares : p.Declares pr grown made := .of_added hs retyped added trivial (Or.inr rfl) reg
  cases initializer with
  | none =>
    obtain ⟨rfl, rfl⟩ := run_pure.mp run
    exact ⟨declares, hg⟩
  | some v =>
    simp only [run_bind, run_pure] at run
    obtain ⟨_, joined, runJoin, rfl, rfl⟩ := run
    have hsGrown := declares.grown.sound hs
    have stillConstant : typed.Meets v .constant :=
      (congrFun retyped.relabels.constants v).trans (c v rfl)
    obtain ⟨redraws, grows⟩ : grown.Redraws pr joined ∧ _ :=
      addInitializer_redraws hsGrown hg (isConstant_iff.mp (stillConstant.of_added added)).2 runJoin
    have rew := addOperand_rewires _ _ _ runJoin
    refine ⟨?_, by rw [rew.skeleton.isGlobal, hg]⟩
    exact declares.tail (.single (.shape (.redraw redraws) grows)) redraws.tally rew.surroundings

theorem addGlobal_leads (hs : p.Sound) (isNew : ∀ v, p.isLive v = false → pr.isNew v)
    (run : addGlobal text content initializer p = .done g q) : p.Leads pr q 0 := by
  obtain ⟨step, plan, run⟩ := Edit.plan_eq_done.mp run
  simp only [bind_eq_ok, liftHalt_eq_ok] at plan
  obtain ⟨_, free, storable, -, plan⟩ := plan
  split at plan
  next =>
    obtain ⟨c, rfl⟩ : (∀ v, initializer = some v → p.isConstant v = true) ∧ (do
          let g ← addGlobalNode content initializer
          registerSymbol g text
          modify fun s => { s with globals := s.globals ++ [g] }
          return g : Step GlobalId) = step := by
      cases initializer with
      | none => exact ⟨by simp, pure_eq_ok.mp plan⟩
      | some v =>
        obtain ⟨_, checked, plan⟩ := bind_eq_ok.mp plan
        exact ⟨by simpa using checkInitializer_eq_ok checked, pure_eq_ok.mp plan⟩
    simp only [run_bind, run_modify, run_pure] at run
    obtain ⟨_, made, runMake, _, named, runRegister, _, _, rfl, rfl, rfl⟩ := run
    obtain ⟨declares, hg⟩ : p.Declares pr made _ ∧ _ := addGlobalNode_declares hs c runMake
    exact declares.leads hs free runRegister (.of_same rfl rfl (.refl _)) rfl rfl rfl
      (Or.inr ⟨hg, rfl, rfl⟩) isNew
  next => exact absurd plan (by simp [refuseSymbol])

/-! ### Functions -/

/-- New arguments of a function, which does not list them yet. -/
structure Program.Endows
    (promise : Promise)
    (before after : Program)
    (function : FuncId)
    (arguments : List ValueId) : Prop where
  grown : Grown promise before after
  surroundings : after.surroundings = before.surroundings
  functions : after.function? = before.function?
  nodup : arguments.Nodup
  fresh : ∀ argument ∈ arguments, before.values.get? argument = none
  members : ∀ argument ∈ arguments, ∃ data,
    after.argument? argument = some data ∧ data.parent = function
  kept : ∀ argument data, before.argument? argument = some data →
    after.argument? argument = some data
  tally : before.Tally after fun value => arguments.count value

namespace Step

theorem addArguments_endows {k : Nat} {types : List TypeId} {args : List ValueId} (hs : p.Sound)
    (reg : ∀ ty ∈ types, p.types.Registered ty)
    (run : (addArguments f k types).run p = .ok (args, q)) : p.Endows pr q f args := by
  induction types generalizing p k args with
  | nil =>
    obtain ⟨rfl, rfl⟩ := run_pure.mp run
    exact ⟨.refl, rfl, rfl, .nil, by simp, by simp, fun _ _ h => h, .refl _⟩
  | cons ty rest ih =>
    unfold addArguments at run
    simp only [run_bind, run_pure] at run
    obtain ⟨arg, m, runAdd, others, _, run', rfl, rfl⟩ := run
    have added := addNode_spec hs.stored runAdd
    have raises : p.Raises pr m :=
      .grow arg ty _ added trivial (by simp [Payload.category])
        (reg ty mem_cons_self) (by simp [Payload.category])
    have endows := ih (raises.sound hs) (by
        rw [types_eq_of_surroundings added.surroundings]
        exact fun ty mem => reg ty (mem_cons_of_mem _ mem)) run'
    have h : m.argument? arg = some { parent := f, index := k } := by
      rw [added.exchanged.argument?, update_self]
      rfl
    have absent : p.payload? arg = none := added.payload?_eq_none
    constructor
    case grown => exact .head raises endows.grown
    case surroundings => exact endows.surroundings.trans added.surroundings
    case functions =>
      rw [endows.functions, added.exchanged.function?]
      simp [Payload.function?, function?, absent]
    case nodup =>
      refine nodup_cons.mpr ⟨fun mem => ?_, endows.nodup⟩
      have gone := endows.fresh arg mem
      simp [added.nodes] at gone
    case fresh =>
      intro value mem
      rcases mem_cons.mp mem with rfl | inRest
      · exact added.fresh
      · have gone := endows.fresh value inRest
        rw [added.nodes, update_apply] at gone
        split at gone
        · simp at gone
        · exact gone
    case members =>
      intro value mem
      rcases mem_cons.mp mem with rfl | inRest
      · exact ⟨_, endows.kept value _ h, rfl⟩
      · exact endows.members value inRest
    case kept =>
      intro value d known
      have ne : value ≠ arg := by
        rintro rfl
        simp [argument?_eq_bind, absent] at known
      exact endows.kept value d (by rw [added.exchanged.argument?_of_ne ne, known])
    case tally =>
      refine ((added.tally hs trivial).trans endows.tally).of_eq ?_
      funext value
      by_cases eq : value = arg
      · subst eq
        simp [add_comm]
      · simp [Pi.single_eq_of_ne eq, count_cons_of_ne (Ne.symm eq)]

theorem addFunctionNode_declares (hs : p.Sound) (run : (addFunctionNode ty).run p = .ok (f, q)) :
    p.Declares pr q f ∧ q.isFunction f = true := by
  unfold addFunctionNode at run
  simp only [run_bind, run_get, run_lift, run_pure] at run
  obtain ⟨pointer, typed, runType, made, grown, runAdd, _, _, ⟨rfl, rfl⟩, sig, _,
    ⟨reading, rfl⟩, args, endowed, runArguments, _, fitted, runFit, rfl, rfl⟩ := run
  obtain ⟨retyped, reg, -⟩ := pointerTo_spec hs runType
  have added := addNode_spec (retyped.sound hs).stored runAdd
  have declares : p.Declares pr grown made :=
    .of_added hs retyped added ⟨rfl, rfl, rfl⟩ (Or.inl rfl) reg
  have hsGrown := declares.grown.sound hs
  have params : ∀ param ∈ (sig.map (·.params)).getD [], grown.types.Registered param := by
    intro param mem
    obtain ⟨shape, read, -⟩ := bind_eq_ok.mp reading
    obtain ⟨a, hr', -, parts⟩ := TypeTable.signature?_eq hsGrown.registry.layered
      (TypeTable.registered_of_shape read) .plain
    obtain rfl := Except.ok.inj (reading.symm.trans hr')
    cases sig with
    | none => simp at mem
    | some sig => exact (parts sig rfl).2 param mem
  have endows : grown.Endows pr endowed made args := addArguments_endows hsGrown params runArguments
  -- the function lists its arguments
  obtain ⟨old, refit⟩ := modifyFunction_refitted runFit
  obtain rfl : old = { type := ty, params := [], body := none, registers := none } := by
    have h := refit.held
    rw [endows.functions, added.exchanged.function?, update_self] at h
    exact (Option.some.inj h).symm
  have hsEndowed := endows.grown.sound hsGrown
  have fits : endowed.Fits made { type := ty, params := args, body := none, registers := none } :=
    { params := endows.members
      granted := by simp [Function.granted]
      blocks := by simp [Function.blocks]
      paramsNodup := endows.nodup
      grantedNodup := by simp [Function.granted]
      blocksNodup := by simp [Function.blocks] }
  have shapes : endowed.Shapes pr fitted :=
    .of_refitted refit hsEndowed fits rfl (fun _ => rfl) fun _ _ => allots_of_none rfl
  have fit : endowed.Raises pr fitted :=
    .shape shapes refit.grows
  refine ⟨declares.tail (endows.grown.tail fit) ?_
    (refit.surroundings.trans endows.surroundings), ?_⟩
  · refine (endows.tally.trans (refit.tally hsEndowed fits)).of_eq ?_
    rw [fits.lists_eq]
    funext v
    simp [Function.lists, Function.granted]
  · rw [refit.functions, isFunction_eq, endows.functions, added.exchanged.function?]
    simp [Payload.function?]

end Step

theorem addFunction_leads (hs : p.Sound) (isNew : ∀ v, p.isLive v = false → pr.isNew v)
    (run : addFunction text ty p = .done f q) : p.Leads pr q 0 := by
  obtain ⟨step, plan, run⟩ := Edit.plan_eq_done.mp run
  simp only [bind_eq_ok, liftHalt_eq_ok] at plan
  obtain ⟨_, free, isFn, -, plan⟩ := plan
  split at plan
  next =>
    obtain rfl := pure_eq_ok.mp plan
    simp only [run_bind, run_modify, run_pure] at run
    obtain ⟨_, made, runMake, _, named, runRegister, _, _, rfl, rfl, rfl⟩ := run
    obtain ⟨declares, isFn⟩ : p.Declares pr made _ ∧ _ := addFunctionNode_declares hs runMake
    exact declares.leads hs free runRegister (.of_same rfl rfl (.refl _)) rfl rfl rfl
      (Or.inl ⟨isFn, rfl, rfl⟩) isNew
  next => exact absurd plan (by simp [refuseSymbol])

/-! ### Registers -/

theorem RegisterFile.takeSlot_live (file : RegisterFile) : file.takeSlot.2.live = file.live := by
  unfold takeSlot
  split <;> rfl

theorem Program.Allots.grant {s : Program} {owner : FuncId} (allots : s.Allots d)
    (hasFile : d.registers = some file)
    (h : s.register? r = some { parent := owner, slot := file.takeSlot.1 }) :
    s.Allots
      { d with
        registers := some { file.takeSlot.2 with live := file.takeSlot.2.live ++ [r] } } := by
  have perm := allots file hasFile
  rintro _ ⟨⟩
  unfold RegisterFile.takeSlot at h ⊢
  split at h
  next slot rest free =>
    rw [free] at perm
    simpa [h] using perm
  next free =>
    rw [free, append_nil] at perm
    simp only [filterMap_append, filterMap_cons, h, filterMap_nil, free,
      append_nil, Option.map_some, range_succ]
    exact perm.append_right _

section Registers

variable (hs : p.Sound)
include hs

theorem Step.setRegisters_leads {file : Option RegisterFile}
    (eq : ∀ d, p.function? f = some d → file.elim [] (·.live) = d.granted)
    (allots : ∀ d : Function, p.Allots { d with registers := file })
    (run : (setRegisters f file).run p = .ok (a, q)) : p.Leads pr q 0 := by
  obtain ⟨old, refit⟩ := modifyFunction_refitted run
  have fits := hs.staffed f old refit.held
  have granted : ({ old with registers := file } : Function).granted = old.granted :=
    eq old refit.held
  have fitsNew : p.Fits f { old with registers := file } :=
    { params := fits.params
      granted := granted ▸ fits.granted
      blocks := fits.blocks
      paramsNodup := fits.paramsNodup
      grantedNodup := granted ▸ fits.grantedNodup
      blocksNodup := fits.blocksNodup }
  refine .of_shapes (.of_refitted refit hs fitsNew rfl (fun _ => rfl) fun _ _ => allots old) ?_
  refine (refit.tally hs fitsNew).of_eq ?_
  rw [fits.lists_eq, fitsNew.lists_eq, granted, sub_self]

theorem enableRegisters_leads (run : enableRegisters f p = .done a q) : p.Leads pr q 0 := by
  obtain ⟨step, plan, run⟩ := Edit.plan_eq_done.mp run
  simp only [bind_eq_ok, liftHalt_eq_ok, function_eq_ok] at plan
  obtain ⟨d, h, plan⟩ := plan
  cases hasFile : d.registers with
  | some file =>
    rw [hasFile] at plan
    obtain rfl := pure_eq_ok.mp plan
    obtain ⟨-, rfl⟩ := run_pure.mp run
    exact .refl p
  | none =>
    rw [hasFile] at plan
    obtain rfl := pure_eq_ok.mp plan
    refine setRegisters_leads hs (fun data hOther => ?_) (fun data => ?_) run
    · obtain rfl := Option.mem_unique h hOther
      simp [Function.granted, hasFile, RegisterFile.initial]
    · simp [Allots, RegisterFile.initial]

theorem disableRegisters_leads (run : disableRegisters f p = .done a q) : p.Leads pr q 0 := by
  obtain ⟨step, plan, run⟩ := Edit.plan_eq_done.mp run
  simp only [bind_eq_ok, liftHalt_eq_ok, function_eq_ok] at plan
  obtain ⟨d, h, plan⟩ := plan
  cases noFile : d.registers with
  | none =>
    rw [noFile] at plan
    exact absurd plan (by simp [refuseRegister])
  | some file =>
    simp only [noFile] at plan
    split at plan
    next empty =>
      obtain rfl := pure_eq_ok.mp plan
      refine setRegisters_leads hs (fun data hOther => ?_) (fun _ => allots_of_none rfl) run
      obtain rfl := Option.mem_unique h hOther
      simp only [Function.granted, noFile, Option.elim_none, Option.elim_some]
      exact (isEmpty_iff.mp empty).symm
    next => exact absurd plan (by simp [refuseRegister])

theorem Step.grantRegister_leads (h : p.function? f = some d) (hasFile : d.registers = some file)
    (storable : p.types.isStorable ty = .ok true)
    (run : (grantRegister f file ty).run p = .ok (r, q)) : p.Leads pr q 0 := by
  simp only [grantRegister, run_bind, run_pure] at run
  obtain ⟨r, grown, runAdd, _, q, runFit, rfl, rfl⟩ := run
  have added := addNode_spec hs.stored runAdd
  have grow : p.Raises pr grown := .grow r ty _ added trivial
    (by simp [Payload.category]) (TypeTable.registered_of_isStorable storable)
    ⟨fun _ => storable, by simp [Payload.category]⟩
  have hsGrown := grow.sound hs
  obtain ⟨old, refit⟩ := modifyFunction_refitted runFit
  have absent : p.payload? r = none := added.payload?_eq_none
  obtain rfl : d = old := by
    have hGrown := refit.held
    have ne : f ≠ r := by
      rintro rfl
      simp [function?, absent] at h
    rw [added.exchanged.function?, update_of_ne ne, h] at hGrown
    exact Option.some.inj hGrown
  have fits := hs.staffed f d h
  have fitsGrown := hsGrown.staffed f d refit.held
  have isNew : r ∉ d.granted := by
    intro mem
    obtain ⟨_, known, -⟩ := fits.granted r mem
    simp [register?_eq_bind, absent] at known
  set file' : RegisterFile :=
    { file.takeSlot.2 with live := file.takeSlot.2.live ++ [r] } with isFile
  have granted : ({ d with registers := some file' } : Function).granted = d.granted ++ [r] := by
    simp [Function.granted, isFile, file.takeSlot_live, hasFile]
  have fitsNew : grown.Fits f { d with registers := some file' } :=
    { params := fitsGrown.params
      granted := by
        rw [granted]
        intro register mem
        rcases mem_append.mp mem with listed | isLast
        · exact fitsGrown.granted register listed
        · obtain rfl := mem_singleton.mp isLast
          rw [added.exchanged.register?, update_self]
          exact ⟨_, rfl, rfl⟩
      blocks := fitsGrown.blocks
      paramsNodup := fitsGrown.paramsNodup
      grantedNodup := by
        rw [granted, nodup_append]
        exact ⟨fits.grantedNodup, by simp, fun register mem last isLast =>
          ne_of_mem_of_not_mem mem (mem_singleton.mp isLast ▸ isNew)⟩
      blocksNodup := fitsGrown.blocksNodup }
  have isGranted : grown.register? r = some { parent := f, slot := file.takeSlot.1 } := by
    rw [added.exchanged.register?, update_self]
    rfl
  have shapes : grown.Shapes pr q :=
    .of_refitted refit hsGrown fitsNew rfl (fun _ => rfl) fun _ allots =>
      allots.grant hasFile isGranted
  have fit : grown.Raises pr q := .shape shapes refit.grows
  refine .of_grown (.tail (.single grow) fit) ?_
  refine ((added.tally hs trivial).trans (refit.tally hsGrown fitsNew)).of_eq ?_
  rw [fitsGrown.lists_eq, fitsNew.lists_eq, granted]
  funext value
  by_cases eq : value = r
  · subst eq
    simp
  · simp [count_singleton, Ne.symm eq, eq]

theorem allocateRegister_leads (run : allocateRegister f ty p = .done r q) : p.Leads pr q 0 := by
  obtain ⟨step, plan, run⟩ := Edit.plan_eq_done.mp run
  simp only [bind_eq_ok, liftHalt_eq_ok, function_eq_ok] at plan
  obtain ⟨d, h, plan⟩ := plan
  cases noFile : d.registers with
  | none =>
    rw [noFile] at plan
    exact absurd plan (by simp [refuseRegister])
  | some file =>
    simp only [noFile, bind_eq_ok, liftHalt_eq_ok] at plan
    obtain ⟨storable, read, plan⟩ := plan
    cases storable with
    | false => exact absurd plan (by simp [refuseRegister])
    | true =>
      obtain rfl := pure_eq_ok.mp plan
      exact grantRegister_leads hs h noFile read run

end Registers

end ValueGraph

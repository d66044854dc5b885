import Mathlib
import ValueGraph.Proofs.Generations

namespace ValueGraph

open Program List Option

/-!
# The symbol table

Entries, lists and names of symbols agree in every program that edits lead to: an entry
is that of a function or global under its own name, and what is listed has an entry.
The converse holds as long as no symbol that was erased is given a name: then only what
is listed has an entry, and a symbol that was erased is not found again.
-/

variable {name : String} {a : Unit} {op : Operation} {cfg : Settings}
  {ops rest : List Operation} {age : Nat}

namespace Program

variable {s p q : Program} {pr : Promise} {text : String} {sym : ValueId}

/-! ### Names in texts -/

theorem names_text_eq_ok {name : Name} :
    s.names.text name = .ok text ↔ s.names.texts[name.index]? = some text := by
  unfold NameTable.text
  cases s.names.texts[name.index]? <;> simp

namespace Catalogue

variable (cat : s.Catalogue)
include cat

end Catalogue

/-! ### Renaming -/

namespace Enrols

variable {r : Program}

theorem refl (s : Program) : s.Enrols pr s :=
  .of_same rfl rfl rfl

theorem trans (earlier : p.Enrols pr q) (later : q.Enrols pr r) : p.Enrols pr r where
  lists v listed := by
    rcases later.lists v listed with listed | isNew
    · exact earlier.lists v listed
    · exact Or.inr isNew
  entries renames enrolled := later.entries renames (earlier.entries renames enrolled)

theorem of_surroundings (eq : q.surroundings = p.surroundings) : p.Enrols pr q :=
  .of_same (symbols_eq_of_surroundings eq) (functions_eq_of_surroundings eq)
    (globals_eq_of_surroundings eq)

end Enrols

theorem Shapes.enrols (shapes : p.Shapes pr q) (hs : p.Sound) : p.Enrols pr q := by
  cases shapes with
  | raze razed => exact .of_surroundings (razed.dwindles hs).surroundings
  | relabel lab cat enrols => exact enrols
  | retain v retained => exact .of_surroundings (by rw [retained.others]; rfl)
  | drop v dropped => exact .of_surroundings dropped.surroundings
  | redraw redraws => exact .of_surroundings redraws.rewires.surroundings
  | thread threads reth => exact .of_surroundings reth.surroundings
  | resettle settle => exact .of_surroundings settle.surroundings

theorem kept_enrols (start : Program) : Kept pr (start.Enrols pr) where
  grow := fun _ _ added _ _ enrols => enrols.trans (.of_surroundings added.surroundings)
  build := by
    intro p q i ty kind hs built enrols
    obtain ⟨started, added, joined⟩ := built.added
    exact enrols.trans (.of_surroundings (joined.rewires.surroundings.trans added.surroundings))
  adopt := fun _ adopts enrols =>
    enrols.trans (.of_surroundings adopts.relinked.restrings.surroundings)
  shape := fun hs shapes enrols => enrols.trans (shapes.enrols hs)

theorem enrolled_of_leads (hs : p.Sound) (enrolled : p.Enrolled) (renames : op.RenamesListed p)
    (leads : p.Leads (op.promise p) q (op.ledger p)) : q.Enrolled :=
  ((kept_enrols p).reaches hs leads.reaches (.refl p)).entries renames enrolled

theorem enrolled_of_runAll? (run : (initial name cfg).runAll? ops = some s)
    (along : (initial name cfg).Along (fun p op _ => op.RenamesListed p) ops) : s.Enrolled :=
  (runAll?_invariant enrolled_of_leads (sound_initial name cfg) (by simp [Enrolled, initial])
    along run).2

/-! ### Symbols that were erased -/

/-- A symbol has been erased: it was there, and is on no list. -/
structure Struck (program : Program) (symbol : ValueId) : Prop where
  known : program.values.Known symbol
  unlisted : ¬ program.Lists symbol

theorem Reaches.known (reaches : p.Reaches pr q) (hs : p.Sound) (young : p.values.Young age)
    (room : age + 1 < 2 ^ 32) (known : p.values.Known sym) : q.values.Known sym := by
  obtain ⟨m, -, grows, -, shrunk⟩ :=
    reaches.between hs (fun _ => True) (fun _ => trivial) fun _ _ _ => trivial
  exact (known.of_grows grows).of_shrinks (young.of_grows grows) room (Shrunk.wanes shrunk).shrinks

theorem Reaches.isLive_of_known (reaches : p.Reaches pr q) (hs : p.Sound)
    (known : p.values.Known sym) (live : q.isLive sym = true) : p.isLive sym = true := by
  obtain ⟨m, -, grows, -, shrunk⟩ :=
    reaches.between hs (fun _ => True) (fun _ => trivial) fun _ _ _ => trivial
  exact known.contains_before grows ((Shrunk.wanes shrunk).shrinks.contains sym live)

theorem Struck.of_leads {shift : ValueId → Int} (struck : p.Struck sym) (hs : p.Sound)
    (young : p.values.Young age) (room : age + 1 < 2 ^ 32)
    (leads : p.Leads (op.promise p) q shift) : q.Struck sym := by
  refine ⟨leads.reaches.known hs young room struck.known, fun listed => ?_⟩
  have enrols := (kept_enrols p).reaches hs leads.reaches (.refl p)
  rcases enrols.lists sym listed with listed | isNew
  · exact struck.unlisted listed
  · -- a node that was not there before is none that was given out
    have cat := (leads.reaches.sound hs).catalogue
    have live := isLive_of_isSymbol (listed.imp (cat.functions sym) (cat.globals sym))
    have there := leads.reaches.isLive_of_known hs struck.known live
    rw [show p.isLive sym = false from isNew] at there
    cases there

theorem lists_of_releaseNode (hs : p.Sound)
    (unowned : p.isOwned sym = false ∧ ∀ name, (name, sym) ∉ p.symbols)
    (run : (Step.releaseNode sym).run p = .ok (a, q)) (v : ValueId) (listed : q.Lists v) :
    p.Lists v := by
  let pr : Promise :=
    { sparesFinalized := True
      keepsNested := True
      keepsRule := fun _ => True
      returnsOwned := True
      renamesListed := True
      isNew := fun _ => False
      razes := fun _ => True
      agrees := False }
  obtain ⟨shrunk, -⟩ : Shrunk pr p q ∧ _ :=
    Step.releaseNode_shrunk hs (fun _ => unowned) (fun _ _ => trivial) run
  exact (((kept_enrols p).shrunk hs shrunk (.refl p)).lists v listed).resolve_right id

theorem not_lists_of_erase (hs : p.Sound)
    (erased : eraseFunction sym p = .done a q ∨ eraseGlobal sym p = .done a q) :
    (p.isFunction sym = true ∨ p.isGlobal sym = true) ∧ ¬ q.Lists sym := by
  have unlisted : ∀ {struck : Program} {pr : Promise}, p.Shapes pr struck →
      (struck.isOwned sym = false ∧ ∀ name, (name, sym) ∉ struck.symbols) →
      (Step.releaseNode sym).run struck = .ok (a, q) → ¬ q.Lists sym := by
    intro struck pr shapes unowned runRelease listed
    have hsStruck := shapes.sound hs
    obtain ⟨name, entered⟩ := hsStruck.catalogue.named sym
      (lists_of_releaseNode hsStruck unowned runRelease sym listed)
    exact unowned.2 name entered
  rcases erased with erased | erased
  · obtain ⟨isFn, -, shapes, unowned, -, runRelease⟩ : _ ∧ _ ∧
        p.Shapes ((Operation.eraseFunction sym).promise p) _ ∧ _ :=
      eraseFunction_struck hs erased
    exact ⟨Or.inl isFn, unlisted shapes unowned runRelease⟩
  · obtain ⟨hg, struck, -, shapes, unowned, -, runRelease⟩ : _ ∧ ∃ struck, _ ∧
        p.Shapes ((Operation.eraseGlobal sym).promise p) struck ∧ _ :=
      eraseGlobal_struck hs erased
    exact ⟨Or.inr hg, unlisted shapes unowned runRelease⟩

theorem exists_operation_of_erase
    (erased : eraseFunction sym p = .done () q ∨ eraseGlobal sym p = .done () q) :
    ∃ op : Operation, (op.run p).after? = some q ∧ op.RenamesListed p := by
  rcases erased with erased | erased
  · refine ⟨.eraseFunction sym, ?_, trivial⟩
    simp [Operation.run, Operation.silent, Edit.map, Outcome.after?, erased]
  · refine ⟨.eraseGlobal sym, ?_, trivial⟩
    simp [Operation.run, Operation.silent, Edit.map, Outcome.after?, erased]

/-- Symbols that were erased stay off the lists for as long as no slot has come round to an
earlier generation. -/
theorem Struck.of_runAll? (struck : p.Struck sym) (hs : p.Sound) (young : p.values.Young age)
    (run : p.runAll? rest = some q) (short : age + rest.length < 2 ^ 32) : ¬ q.Lists sym := by
  have counted := (runAll?_counted (fun count reached => age + count < 2 ^ 32 →
      reached.values.Young (age + count) ∧ reached.Struck sym)
    (fun hs holds _ leads room => ?_) hs (fun _ => ⟨young, struck⟩)
    (along_true _ rest) run).2
  · exact (counted short).2.unlisted
  · obtain ⟨young, struck⟩ := holds (Nat.lt_of_succ_lt room)
    exact ⟨leads.reaches.young hs young room, struck.of_leads hs young room leads⟩

theorem young_of_runAll? (run : (initial name cfg).runAll? ops = some s)
    (short : ops.length < 2 ^ 32) : s.values.Young ops.length :=
  (runAll?_counted (fun count reached => count < 2 ^ 32 → reached.values.Young count)
    (fun hs young _ leads room =>
      leads.reaches.young hs (young (Nat.lt_of_succ_lt room)) room)
    (sound_initial name cfg) (fun _ => young_initial name cfg)
    (along_true _ ops) run).2 short

end Program

/-- In runs in which only symbols that are listed are given other names, every entry is that
of a symbol that is listed, and a function or global that was erased is not found under any
name again. -/
theorem erased_symbol_not_found {name : String} {settings : Settings}
    {first rest : List Operation} {before middle program : Program} {symbol : ValueId}
    (run : (Program.initial name settings).runAll? first = some before)
    (along : (Program.initial name settings).Along
      (fun before operation _ => operation.RenamesListed before) first)
    (erased : eraseFunction symbol before = .done () middle ∨
      eraseGlobal symbol before = .done () middle) (runRest : middle.runAll? rest = some program)
    (alongRest : middle.Along (fun before operation _ => operation.RenamesListed before) rest)
    (short : first.length + 1 + rest.length < 2 ^ 32) :
    (∀ entry ∈ program.symbols, entry.2 ∈ program.functions ∨ entry.2 ∈ program.globals) ∧
      ∀ text, program.symbol? text ≠ some symbol ∧ program.functionNamed? text ≠ some symbol ∧
        program.globalNamed? text ≠ some symbol := by
  have sound := sound_of_runAll? run
  obtain ⟨operation, runErase, renames⟩ := exists_operation_of_erase erased
  have leads := Operation.leads_of_run sound runErase
  have soundMiddle := leads.reaches.sound sound
  have enrolledMiddle := enrolled_of_leads sound (enrolled_of_runAll? run along)
    renames leads
  obtain ⟨soundProgram, enrolled⟩ := runAll?_invariant enrolled_of_leads soundMiddle
    enrolledMiddle alongRest runRest
  have young := young_of_runAll? run (by omega)
  obtain ⟨isSymbol, unlisted⟩ := not_lists_of_erase sound erased
  have struck : middle.Struck symbol :=
    { known := leads.reaches.known sound young (by omega)
        (Or.inl (isLive_of_isSymbol isSymbol))
      unlisted }
  have unlistedProgram := struck.of_runAll? soundMiddle (leads.reaches.young sound young (by omega))
    runRest short
  have notFound : ∀ text, program.symbol? text ≠ some symbol := by
    intro text found
    obtain ⟨own, -, entered⟩ := soundProgram.catalogue.symbol?_eq_some_iff.mp found
    exact unlistedProgram (enrolled _ entered)
  refine ⟨enrolled, fun text => ⟨notFound text, fun found => ?_, fun found => ?_⟩⟩
  · exact notFound text (Option.filter_eq_some_iff.mp found).1
  · exact notFound text (Option.filter_eq_some_iff.mp found).1

theorem Program.exists_erase_between {α : Type} {start : Program} {first : List Operation}
    {f : FuncId} {a : α} {holds : Program → Prop} (reading : Program → α)
    (reads : ((start.runAll? first).bind fun p =>
      match eraseFunction f p with
      | .done _ m => m.runAll? rest
      | _ => none).map reading = some a)
    (leads : ∀ {p m s}, start.runAll? first = some p →
      eraseFunction f p = .done () m → m.runAll? rest = some s →
      reading s = a → holds s) :
    ∃ p m s, start.runAll? first = some p ∧
      eraseFunction f p = .done () m ∧ m.runAll? rest = some s ∧
      holds s := by
  obtain ⟨s, reached, isAnswer⟩ := map_eq_some_iff.mp reads
  obtain ⟨p, run, reached⟩ := bind_eq_some_iff.mp reached
  split at reached
  next m erased =>
    exact ⟨p, m, s, run, erased, reached, leads run erased reached isAnswer⟩
  next => cases reached

/-- A function that the client holds on to is erased, and its name taken by another. -/
theorem erased_function_not_found :
    ∃ before middle program, (Program.initial "m" .standard).runAll?
        [.requestType (.function ⟨.void, [], false⟩), .addFunction "f" ⟨13⟩,
          .retain ⟨0, 0⟩] = some before ∧
      eraseFunction ⟨0, 0⟩ before = .done () middle ∧
      middle.runAll? [.addFunction "f" ⟨13⟩] = some program ∧
      (program.isLive ⟨0, 0⟩, program.functions) = (true, [⟨1, 0⟩]) ∧
      ∀ text, program.symbol? text ≠ some ⟨0, 0⟩ := by
  refine exists_erase_between
    (fun program => (program.isLive ⟨0, 0⟩, program.functions)) (by decide +kernel)
    fun run erased runRest reads => ⟨reads, fun text => ?_⟩
  have found := erased_symbol_not_found run
    (along_of_forall (by simp [Operation.RenamesListed]) _) (Or.inl erased) runRest
    (along_of_forall (by simp [Operation.RenamesListed]) _) (by decide)
  exact (found.2 text).1

/-- A function that was erased while the client holds on to it can be renamed, which enters
it again although no list has it. -/
theorem erased_function_found_after_rename :
    ∃ before middle program, (Program.initial "m" .standard).runAll?
        [.requestType (.function ⟨.void, [], false⟩), .addFunction "f" ⟨13⟩,
          .retain ⟨0, 0⟩] = some before ∧
      eraseFunction ⟨0, 0⟩ before = .done () middle ∧
      middle.runAll? [.rename ⟨0, 0⟩ "g"] = some program ∧
      (program.symbol? "g", program.functionNamed? "g", program.functions, program.globals) =
        (some ⟨0, 0⟩, some ⟨0, 0⟩, [], []) :=
  exists_erase_between (fun program =>
      (program.symbol? "g", program.functionNamed? "g", program.functions, program.globals))
    (by decide +kernel) fun _ _ _ reads => reads

end ValueGraph

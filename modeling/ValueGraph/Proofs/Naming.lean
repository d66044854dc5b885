import Mathlib
import ValueGraph.Proofs.Placing

open Function

namespace ValueGraph

open Program

/-!
# Names and entries

Every text is kept as one name, and names are only ever added.  A symbol is found
under a text exactly when it has an entry under the name of the text.  A symbol that
is entered gets the name of its entry, and a symbol that is struck loses the only
entry it has.
-/

open Step

variable {p q : Program} {pr : Promise} {name : Name} {sym : ValueId} {text : String}
variable {v : ValueId} {symbols : List (Name × ValueId)} {a : Unit}

/-! ### Kept names -/

namespace NameTable

variable {t : NameTable}

/-- Names are added behind those that are kept, each text once. -/
structure Extends (earlier later : NameTable) : Prop where
  grown : earlier.texts.toList <+: later.texts.toList
  distinct : earlier.texts.toList.Nodup → later.texts.toList.Nodup

namespace Extends

variable {first second r : NameTable}

theorem refl (t : NameTable) : t.Extends t :=
  ⟨List.prefix_refl _, id⟩

theorem trans (earlier : first.Extends second) (later : second.Extends r) : first.Extends r :=
  ⟨earlier.grown.trans later.grown, later.distinct ∘ earlier.distinct⟩

theorem size_le (grown : first.Extends second) : first.size ≤ second.size :=
  grown.grown.length_le

/-- Names keep their texts. -/
theorem texts (grown : first.Extends second) {k : Nat} (kept : k < first.size) :
    second.texts[k]? = first.texts[k]? := by
  obtain ⟨more, isMore⟩ := grown.grown
  rw [← Array.getElem?_toList, ← Array.getElem?_toList, ← isMore]
  exact List.getElem?_append_left kept

end Extends

/-- A text is kept under a name; other texts stay where they were. -/
structure Interns (earlier later : NameTable) (text : String) (name : Name) : Prop
    extends Extends earlier later where
  held : later.texts[name.index]? = some text
  others : ∀ (index : Nat) (other : String), later.texts[index]? = some other → other ≠ text →
    earlier.texts[index]? = some other

theorem find?_eq_some_iff (distinct : t.texts.toList.Nodup) :
    t.find? text = some name ↔ t.texts[name.index]? = some text := by
  unfold find?
  rw [← Array.idxOf?_toList, ← Array.getElem?_toList, Option.map_eq_some_iff]
  simp only [List.idxOf?_eq_some_iff, List.getElem?_eq_some_iff]
  constructor
  · rintro ⟨k, ⟨bound, isText, -⟩, rfl⟩
    exact ⟨bound, isText⟩
  · rintro ⟨bound, isText⟩
    refine ⟨name.index, ⟨bound, isText, fun earlier p eq => ?_⟩, rfl⟩
    exact p.ne ((distinct.getElem_inj_iff).mp (eq.trans isText.symm))

theorem intern_spec (t : NameTable) (text : String) :
    t.Interns (t.intern text).2 text (t.intern text).1 := by
  unfold intern
  cases found : t.find? text with
  | some name =>
    obtain ⟨k, isIndex, rfl⟩ := Option.map_eq_some_iff.mp found
    rw [← Array.idxOf?_toList, List.idxOf?_eq_some_iff] at isIndex
    obtain ⟨bound, isText, -⟩ := isIndex
    refine ⟨.refl _, ?_, fun _ _ h _ => h⟩
    rw [← Array.getElem?_toList, List.getElem?_eq_getElem bound, isText]
  | none =>
    have absent : text ∉ t.texts.toList := by
      simpa [find?] using found
    refine ⟨⟨by simp, fun distinct => ?_⟩, by simp, fun k other h ne => ?_⟩
    · rw [Array.toList_push, List.nodup_append]
      exact ⟨distinct, by simp, fun kept mem last isLast =>
        ne_of_mem_of_not_mem mem (List.mem_singleton.mp isLast ▸ absent)⟩
    · rw [Array.getElem?_push] at h
      split at h
      · exact absurd (Option.some.inj h).symm ne
      · exact h

end NameTable

/-! ### Entries -/

theorem lookup_eq_some_iff_mem {α β : Type} [BEq α] [LawfulBEq α] {entries : List (α × β)}
    (nd : (entries.map (·.1)).Nodup) {key : α} {v : β} :
    entries.lookup key = some v ↔ (key, v) ∈ entries := by
  rw [List.lookup_eq_some_iff]
  constructor
  · rintro ⟨front, rest, rfl, -⟩
    simp
  · intro mem
    obtain ⟨front, rest, rfl⟩ := List.append_of_mem mem
    refine ⟨front, rest, rfl, fun entry inFront => ?_⟩
    rw [List.map_append, List.nodup_append] at nd
    exact bne_iff_ne.mpr (nd.2.2 entry.1 (List.mem_map_of_mem inFront) key (by simp)).symm

namespace Program

variable {s : Program}

theorem symbol?_eq_none_iff :
    s.symbol? text = none ↔
      ∀ name, s.names.find? text = some name → ∀ entry ∈ s.symbols, entry.1 ≠ name := by
  unfold symbol?
  cases isNone : s.names.find? text with
  | none => simp
  | some name =>
    change s.symbols.lookup name = none ↔ _
    rw [List.lookup_eq_none_iff]
    constructor
    · rintro absent _ ⟨⟩ entry mem rfl
      simpa using absent entry mem
    · intro absent entry mem
      exact bne_iff_ne.mpr (absent name rfl entry mem).symm

/-- A symbol is found under a text exactly when it has an entry under the name of the text. -/
theorem Catalogue.symbol?_eq_some_iff (cat : s.Catalogue) :
    s.symbol? text = some sym ↔
      ∃ name, s.names.texts[name.index]? = some text ∧ (name, sym) ∈ s.symbols := by
  change (s.names.find? text).bind (fun name => s.symbols.lookup name) = _ ↔ _
  simp only [Option.bind_eq_some_iff, NameTable.find?_eq_some_iff cat.texts,
    lookup_eq_some_iff_mem cat.namesNodup]

/-! ### Changes of names and entries -/

/-- Names and symbols are other, and the program lists what it did. -/
structure Titled (before after : Program) (symbols : List (Name × ValueId)) : Prop where
  relabels : before.Relabels after
  symbols : after.symbols = symbols
  functions : after.functions = before.functions
  globals : after.globals = before.globals
  names : before.names.Extends after.names

theorem Titled.trans {first second r : Program} {more : List (Name × ValueId)}
    (earlier : first.Titled second symbols) (later : second.Titled r more) :
    first.Titled r more where
  relabels := earlier.relabels.trans later.relabels
  symbols := later.symbols
  functions := later.functions.trans earlier.functions
  globals := later.globals.trans earlier.globals
  names := earlier.names.trans later.names

theorem Relabels.isFunction (lab : p.Relabels q) : q.isFunction = p.isFunction := by
  rw [isFunction_eq, isFunction_eq, lab.functions]

/-- A program that lists what it did, and enters each symbol under its own name. -/
theorem Titled.catalogue (titled : p.Titled q symbols) (cat : p.Catalogue)
    (named : ∀ sym, sym ∈ p.functions ∨ sym ∈ p.globals → ∃ name, (name, sym) ∈ symbols)
    (nd : (symbols.map (·.1)).Nodup)
    (labels : ∀ v name, q.name? v = some name → name.index < q.names.size)
    (entered : ∀ entry ∈ symbols, (p.isFunction entry.2 = true ∨ p.isGlobal entry.2 = true) ∧
        q.name? entry.2 = some entry.1) : q.Catalogue where
  functions := by
    rw [titled.functions, titled.relabels.isFunction]
    exact cat.functions
  globals := by
    rw [titled.globals, titled.relabels.globals]
    exact cat.globals
  named := by
    rw [titled.functions, titled.globals, titled.symbols]
    exact named
  functionsNodup := titled.functions ▸ cat.functionsNodup
  globalsNodup := titled.globals ▸ cat.globalsNodup
  namesNodup := titled.symbols ▸ nd
  labels := labels
  entered := by
    rw [titled.symbols, titled.relabels.isFunction, titled.relabels.globals]
    exact entered
  texts := titled.names.distinct cat.texts

theorem Titled.leads (titled : p.Titled q symbols) (hs : p.Sound) (cat : q.Catalogue)
    (enrolled : pr.renamesListed → p.Enrolled → ∀ entry ∈ symbols, p.Lists entry.2) :
    p.Leads pr q 0 := by
  have lists : q.Lists = p.Lists := by
    funext v
    simp only [Lists, titled.functions, titled.globals]
  have enrols : p.Enrols pr q :=
    { lists := fun v listed => Or.inl (lists ▸ listed)
      entries := fun renames holds => by
        rw [Enrolled, titled.symbols, lists]
        exact enrolled renames holds }
  refine .of_shapes (.relabel titled.relabels (fun _ => cat) enrols) ?_
  refine (titled.relabels.tally hs.catalogue cat).of_eq ?_
  funext v
  simp [listed, titled.functions, titled.globals]

end Program

namespace Step

theorem setNodeName_relabels {name : Option Name}
    (run : (modifyNode v fun n => { n with name }).run p = .ok (a, q)) :
    p.Relabels q ∧ q.name? = update p.name? v name := by
  obtain ⟨live, rfl⟩ := modifyNode_run.mp run
  constructor
  · refine .of_payloads ?_ rfl ?_ ?_ ?_ ?_ ?_ ?_ (.refl _)
    case refine_4 => exact funext fun _ => Arena.count?_modify ..
    case refine_5 => exact funext fun _ => Arena.generation?_modify ..
    case refine_6 =>
      intro stored
      exact
        { values := stored.values.modify v fun n => { n with name }
          edges := stored.edges
          owned := fun value => by
            rw [Arena.count?_modify]
            exact stored.owned value }
    all_goals
      funext value
      simp only [payload?, operandsOf, usesOf, type?, Arena.get?_modify]
      split <;> cases p.values.get? value <;> rfl
  · funext value
    rw [update_apply]
    simp only [name?, Arena.get?_modify]
    split
    next eq =>
      obtain ⟨n, found⟩ := live
      simp [eq, found]
    next => rfl

theorem internName_titled (run : (internName text).run p = .ok (name, q)) :
    p.Titled q p.symbols ∧ q.values = p.values ∧ p.names.Interns q.names text name := by
  unfold internName at run
  simp only [run_bind, run_get, run_set, run_pure] at run
  obtain ⟨_, _, ⟨rfl, rfl⟩, _, _, rfl, rfl, rfl⟩ := run
  have interns := p.names.intern_spec text
  exact ⟨⟨.of_same rfl rfl (.refl _), rfl, rfl, rfl, interns.toExtends⟩, rfl, interns⟩

theorem registerSymbol_titled (run : (registerSymbol sym text).run p = .ok (a, q)) :
    ∃ name, p.Titled q (p.symbols ++ [(name, sym)]) ∧ q.name? = update p.name? sym (some name) ∧
      p.names.Interns q.names text name := by
  unfold registerSymbol at run
  simp only [run_bind, run_modify] at run
  obtain ⟨name, named, runName, _, marked, runMark, rfl⟩ := run
  obtain ⟨titled, values, interns⟩ := internName_titled runName
  obtain ⟨lab, labelled⟩ := setNodeName_relabels runMark
  obtain ⟨-, rfl⟩ := modifyNode_run.mp runMark
  refine ⟨name, ⟨titled.relabels.trans (lab.trans (.of_same rfl rfl (.refl _))), ?_,
    titled.functions, titled.globals, titled.names⟩, ?_, interns⟩
  · simp [titled.symbols]
  · have eq : named.name? = p.name? := by
      funext other
      simp only [name?, values]
    exact eq ▸ labelled

theorem unregisterSymbol_eq (cat : p.Catalogue) (run : (unregisterSymbol sym).run p = .ok (a, q)) :
    q = { p with symbols := p.symbols.filter (·.2 != sym) } := by
  unfold unregisterSymbol at run
  simp only [run_bind, run_get, run_lift, node_eq_ok] at run
  obtain ⟨_, _, ⟨rfl, rfl⟩, n, _, ⟨h, rfl⟩, run⟩ := run
  have ownName : ∀ entry ∈ p.symbols, entry.2 = sym → n.name = some entry.1 := by
    rintro entry mem rfl
    have labelled := (cat.entered entry mem).2
    simpa [name?, h] using labelled
  have none : (∀ entry ∈ p.symbols, entry.2 ≠ sym) →
      p = { p with symbols := p.symbols.filter (·.2 != sym) } := by
    intro apart
    rw [List.filter_eq_self.mpr fun entry mem => bne_iff_ne.mpr (apart entry mem)]
  cases nameless : n.name with
  | none =>
    rw [nameless] at run
    obtain ⟨-, rfl⟩ := run_pure.mp run
    exact none fun entry mem eq => by simpa [nameless] using ownName entry mem eq
  | some name =>
    simp only [nameless] at run ownName
    split at run
    next isOwn =>
      obtain rfl := run_set.mp run
      have listed := (lookup_eq_some_iff_mem cat.namesNodup).mp isOwn
      congr 1
      refine List.filter_congr fun entry mem => ?_
      have eq : entry.1 = name ↔ entry.2 = sym := by
        constructor
        · intro sameName
          exact congrArg Prod.snd (List.inj_on_of_nodup_map cat.namesNodup mem listed sameName)
        · exact fun sameSymbol => (Option.some.inj (ownName entry mem sameSymbol)).symm
      simp only [bne, beq_eq_decide, eq]
    next notOwn =>
      obtain ⟨-, rfl⟩ := run_pure.mp run
      refine none fun entry mem sameSymbol => notOwn ?_
      obtain rfl := Option.some.inj (ownName entry mem sameSymbol)
      exact (lookup_eq_some_iff_mem cat.namesNodup).mpr (sameSymbol ▸ mem)

theorem unregisterSymbol_titled (cat : p.Catalogue)
    (run : (unregisterSymbol sym).run p = .ok (a, q)) :
    p.Titled q (p.symbols.filter (·.2 != sym)) ∧ q.names = p.names ∧ q.values = p.values := by
  obtain rfl := unregisterSymbol_eq cat run
  exact ⟨⟨.of_same rfl rfl (.refl _), rfl, rfl, rfl, .refl _⟩, rfl, rfl⟩

end Step

namespace Program.Catalogue

variable {names : NameTable}

theorem ne_of_symbol?_eq_none (cat : p.Catalogue) (free : p.symbol? text = none)
    (interns : p.names.Interns names text name) : ∀ entry ∈ p.symbols, entry.1 ≠ name := by
  rintro entry mem rfl
  have h := interns.held
  rw [interns.texts (cat.kept entry mem), ← NameTable.find?_eq_some_iff cat.texts] at h
  exact symbol?_eq_none_iff.mp free entry.1 h entry mem rfl

theorem labels_of_update (cat : p.Catalogue) (interns : p.names.Interns names text name)
    {title : Name} (h : update p.name? sym (some name) v = some title) :
    title.index < names.size := by
  rw [update_apply] at h
  split at h
  next =>
    obtain rfl := Option.some.inj h
    exact (Array.getElem?_eq_some_iff.mp interns.held).1
  next => exact (cat.labels v title h).trans_le interns.size_le

/-- Entries stay in order when a symbol without one is entered under a new name. -/
theorem enter {entries : List (Name × ValueId)} (cat : p.Catalogue)
    (sublist : entries.Sublist p.symbols) (apart : ∀ entry ∈ entries, entry.2 ≠ sym)
    (isSymbol : p.isFunction sym = true ∨ p.isGlobal sym = true) (free : p.symbol? text = none)
    (interns : p.names.Interns names text name) :
    ((entries ++ [(name, sym)]).map (·.1)).Nodup ∧ ∀ entry ∈ entries ++ [(name, sym)],
        (p.isFunction entry.2 = true ∨ p.isGlobal entry.2 = true) ∧
        update p.name? sym (some name) entry.2 = some entry.1 := by
  have fresh := cat.ne_of_symbol?_eq_none free interns
  refine ⟨?_, fun entry mem => ?_⟩
  · rw [List.map_append, List.nodup_append]
    refine ⟨(sublist.map _).nodup cat.namesNodup, by simp, ?_⟩
    rintro _ inEntries _ isNew rfl
    obtain ⟨entry, mem, rfl⟩ := List.mem_map.mp inEntries
    exact fresh entry (sublist.subset mem) (by simpa using isNew)
  · rcases List.mem_append.mp mem with old | isNew
    · obtain ⟨wasSymbol, ownName⟩ := cat.entered entry (sublist.subset old)
      refine ⟨wasSymbol, ?_⟩
      rw [update_of_ne (apart entry old), ownName]
    · obtain rfl := List.mem_singleton.mp isNew
      exact ⟨isSymbol, update_self ..⟩

end Program.Catalogue

end ValueGraph

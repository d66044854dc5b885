import Mathlib
import ValueGraph.Proofs.Reshaping

open Function

namespace ValueGraph

open List

/-!
# Chains

The instructions of every block form a chain whose links point both ways.  While
a terminator is being exchanged one block is loose: its chain has no terminator.
-/

variable {b src tgt : BlockId} {i start : InstId} {tight loose : Option BlockId}
  {inner moved : List InstId} {α : Type} {front rest : List α} {p q : Program} {item : α}
  {l startLink : Link} {chain : BlockId → List InstId} {sourceEnds : Ends}

/-! ### Lists with one element put in -/

/-- A member of two joined lists stands in one of them. -/
theorem append_split_cases {p q : List α} (split : front ++ rest = p ++ item :: q) :
    (∃ between, front = p ++ item :: between ∧ q = between ++ rest) ∨
      ∃ between, p = front ++ between ∧ rest = between ++ item :: q := by
  rcases append_eq_append_iff.mp split with
    ⟨between, beforeShape, restShape⟩ | ⟨between, frontShape, afterShape⟩
  · exact Or.inr ⟨between, beforeShape, restShape⟩
  · cases between with
    | nil => exact Or.inr ⟨[], by simpa using frontShape.symm, by simpa using afterShape.symm⟩
    | cons first others =>
      simp only [cons_append, cons.injEq] at afterShape
      obtain ⟨rfl, rfl⟩ := afterShape
      exact Or.inl ⟨others, frontShape, rfl⟩

/-- A member of a list with one element put in is that element or stands on one
side of it. -/
theorem insert_split_cases {p q : List α} {inserted : α}
    (split : front ++ inserted :: rest = p ++ item :: q) :
    (∃ between, front = p ++ item :: between ∧ q = between ++ inserted :: rest) ∨
      (p = front ∧ item = inserted ∧ q = rest) ∨
        ∃ between, p = front ++ inserted :: between ∧ rest = between ++ item :: q := by
  rcases append_split_cases split with inFront | ⟨between, beforeShape, restShape⟩
  · exact Or.inl inFront
  · cases between with
    | nil =>
      simp only [nil_append, cons.injEq] at restShape
      exact Or.inr (Or.inl ⟨by simpa using beforeShape, restShape.1.symm, restShape.2.symm⟩)
    | cons first others =>
      simp only [cons_append, cons.injEq] at restShape
      obtain ⟨rfl, restShape⟩ := restShape
      exact Or.inr (Or.inr ⟨others, beforeShape, restShape⟩)

theorem getLast?_insert (front rest : List α) (item : α) :
    (front ++ item :: rest).getLast? =
      if rest.head? = none then some item else (front ++ rest).getLast? := by
  cases rest with
  | nil => simp
  | cons first others => simp [getLast?_append, getLast?_cons_cons]

theorem getLast?_eq_self_iff (alone : item ∉ rest) :
    (front ++ item :: rest).getLast? = some item ↔ rest.getLast? = none := by
  constructor
  · intro last
    cases shape : rest.getLast? with
    | none => rfl
    | some other =>
      rw [getLast?_append, getLast?_cons, shape] at last
      simp only [Option.getD_some, Option.some_or, Option.some.injEq] at last
      exact absurd (last ▸ mem_of_getLast? shape) alone
  · intro none
    simp [getLast?_eq_none_iff.mp none]

theorem head?_eq_self_iff (alone : item ∉ front) :
    (front ++ item :: rest).head? = some item ↔ front.head? = none := by
  cases front with
  | nil => simp
  | cons first others =>
    simp only [mem_cons, not_or] at alone
    simp [Ne.symm alone.1]

/-! ### The invariant -/

/-- A link of an instruction outside every chain.  Only a nested one is held, by the
instruction that it is nested under. -/
def Link.Unchained (link : Link) : Prop :=
  link.prev = none ∧ link.next = none ∧
    (((link.status = .disconnected ∨ link.status = .finalized) ∧ link.holder = none) ∨
      (link.status = .reparent ∧ ∃ outer, link.holder = some (.inst outer)))

theorem Link.Unchained.status (unchained : l.Unchained) : l.status ≠ .connected := by
  rcases unchained.2.2 with ⟨st | st, -⟩ | ⟨st, -⟩ <;> simp [st]

/-- The instructions of each block, and how every instruction is attached.  The
loose block, if there is one, has no terminator. -/
structure Program.Chains
    (program : Program)
    (chain : BlockId → List InstId)
    (loose : Option BlockId) : Prop where
  ends : ∀ block ends, program.ends? block = some ends →
    ends = ⟨(chain block).head?, (chain block).getLast?, (chain block).length⟩
  outside : ∀ block, program.ends? block = none → chain block = []
  nodup : ∀ block, (chain block).Nodup
  linked : ∀ block front inst rest, chain block = front ++ inst :: rest →
    program.link? inst = some
      { status := .connected
        holder := some (.block block)
        prev := front.getLast?
        next := rest.head?
        isTerminator := decide (rest = [] ∧ loose ≠ some block) }
  attached : ∀ inst link, program.link? inst = some link → link.status = .connected →
    ∃ block, link.holder = some (.block block) ∧ inst ∈ chain block
  unchained : ∀ inst link, program.link? inst = some link → link.status ≠ .connected →
    link.Unchained

namespace Program.Chains

section

variable (chains : p.Chains chain loose)
include chains

theorem of_same (links : q.link? = p.link?) (ends : q.ends? = p.ends?) : q.Chains chain loose := by
  constructor
  · rw [ends]
    exact chains.ends
  · rw [ends]
    exact chains.outside
  · exact chains.nodup
  · rw [links]
    exact chains.linked
  · rw [links]
    exact chains.attached
  · rw [links]
    exact chains.unchained

/-- A member of a chain is connected to its block. -/
theorem link_of_mem (mem : i ∈ chain b) :
    ∃ l, p.link? i = some l ∧ l.status = .connected ∧ l.holder = some (.block b) := by
  obtain ⟨front, rest, split⟩ := append_of_mem mem
  exact ⟨_, chains.linked b front i rest split, rfl, rfl⟩

/-- No instruction is in two chains. -/
theorem block_unique {first second : BlockId} (inFirst : i ∈ chain first)
    (inSecond : i ∈ chain second) : first = second := by
  obtain ⟨l, h, -, atFirst⟩ := chains.link_of_mem inFirst
  obtain ⟨_, h', -, atSecond⟩ := chains.link_of_mem inSecond
  obtain rfl := Option.mem_unique h h'
  simpa [atFirst] using atSecond

theorem isBlock_of_mem (mem : i ∈ chain b) : ∃ ends, p.ends? b = some ends := by
  cases h : p.ends? b with
  | none => simp [chains.outside b h] at mem
  | some ends => exact ⟨ends, rfl⟩

theorem not_mem_of_status (h : p.link? i = some l) (st : l.status ≠ .connected) (b : BlockId) :
    i ∉ chain b := by
  intro mem
  obtain ⟨_, h', conn, -⟩ := chains.link_of_mem mem
  obtain rfl := Option.mem_unique h h'
  exact st conn

/-- Some chains become other lists; all that is in neither stays as it was or is
detached. -/
theorem rechain {touched : List BlockId} {new : BlockId → List InstId}
    (endsHere : ∀ b ∈ touched, q.ends? b = some ⟨(new b).head?, (new b).getLast?, (new b).length⟩)
    (endsAway : ∀ block, block ∉ touched → q.ends? block = p.ends? block)
    (nd : ∀ b ∈ touched, (new b).Nodup)
    (linkedHere : ∀ b ∈ touched, ∀ front i rest, new b = front ++ i :: rest → q.link? i = some
        { status := .connected
          holder := some (.block b)
          prev := front.getLast?
          next := rest.head?
          isTerminator := decide (rest = [] ∧ tight ≠ some b) })
    (same : ∀ block, block ∉ touched → new block = chain block)
    (elsewhere : ∀ block, block ∉ touched → ∀ i ∈ chain block, q.link? i = p.link? i)
    (others : ∀ i l, (∀ b ∈ touched, i ∉ new b) → q.link? i = some l →
      (p.link? i = some l ∧ ∀ b ∈ touched, i ∉ chain b) ∨ l.Unchained)
    (looseAway : ∀ block, block ∉ touched → (tight = some block ↔ loose = some block)) :
    q.Chains new tight where
  ends block ends h := by
    by_cases mem : block ∈ touched
    · rw [endsHere block mem, Option.some.injEq] at h
      exact h.symm
    · rw [same block mem]
      exact chains.ends block ends (endsAway block mem ▸ h)
  outside block h := by
    by_cases mem : block ∈ touched
    · simp [endsHere block mem] at h
    · rw [same block mem]
      exact chains.outside block (endsAway block mem ▸ h)
  nodup block := by
    by_cases mem : block ∈ touched
    · exact nd block mem
    · rw [same block mem]
      exact chains.nodup block
  linked block front i rest split := by
    by_cases mem : block ∈ touched
    · exact linkedHere block mem front i rest split
    · rw [same block mem] at split
      rw [elsewhere block mem i (by simp [split]), chains.linked block front i rest split]
      simp only [ne_eq, looseAway block mem]
  attached i l h conn := by
    by_cases placed : ∃ b ∈ touched, i ∈ new b
    · obtain ⟨b, mem, inNew⟩ := placed
      obtain ⟨front, rest, split⟩ := append_of_mem inNew
      rw [linkedHere b mem front i rest split, Option.some.injEq] at h
      exact ⟨b, by rw [← h], inNew⟩
    · rcases others i l (by simpa using placed) h with ⟨unchanged, away⟩ | unchained
      · obtain ⟨home, atHome, inHome⟩ := chains.attached i l unchanged conn
        exact ⟨home, atHome, by rwa [same home fun mem => away home mem inHome]⟩
      · exact absurd conn unchained.status
  unchained i l h st := by
    by_cases placed : ∃ b ∈ touched, i ∈ new b
    · obtain ⟨b, mem, inNew⟩ := placed
      obtain ⟨front, rest, split⟩ := append_of_mem inNew
      rw [linkedHere b mem front i rest split, Option.some.injEq] at h
      exact absurd (by rw [← h]) st
    · rcases others i l (by simpa using placed) h with ⟨unchanged, -⟩ | unchained
      · exact chains.unchained i l unchanged st
      · exact unchained

/-- Instructions outside every chain are attached otherwise, or come and go. -/
theorem relink (ends : q.ends? = p.ends?)
    (links : ∀ i, q.link? i = p.link? i ∨ ((∀ l, p.link? i = some l → l.status ≠ .connected) ∧
        ∀ l, q.link? i = some l → l.Unchained)) : q.Chains chain loose where
  ends := by
    rw [ends]
    exact chains.ends
  outside := by
    rw [ends]
    exact chains.outside
  nodup := chains.nodup
  linked b front i rest split := by
    have h := chains.linked b front i rest split
    rcases links i with eq | ⟨wasOutside, -⟩
    · rw [eq, h]
    · exact absurd rfl (wasOutside _ h)
  attached i l h connected := by
    rcases links i with eq | ⟨-, out⟩
    · exact chains.attached i l (eq ▸ h) connected
    · exact absurd connected (out l h).status
  unchained i l h status := by
    rcases links i with eq | ⟨-, out⟩
    · exact chains.unchained i l (eq ▸ h) status
    · exact out l h

end

end Program.Chains

/-! ### Putting in and taking out -/

/-- A gap in a chain can be closed, or filled with what ends a block exactly when
nothing follows: the chain is loose when nothing stands behind the gap. -/
def GapFits (front rest : List InstId) (isLoose : Prop) : Prop :=
  front ++ rest = [] ∨ (rest = [] ↔ isLoose)

namespace Program.Chains

variable {front rest : List InstId}

/-- What stands between two parts of a chain, the one instruction that moves or nothing, is
exchanged; the neighbours point at what stands between them now. -/
theorem resplice {relink : Link → Link} {resize : Nat → Nat} {old new : List InstId}
    (chains : p.Chains chain loose)
    (spliced : p.Spliced q b i relink front.getLast? rest.head? (new ++ rest).head?
      (front ++ new).getLast? resize) (split : chain b = front ++ (old ++ rest))
    (nd : (front ++ (new ++ rest)).Nodup) (only : old = [i] ∧ new = [] ∨ old = [] ∧ new = [i])
    (away : i ∉ front ++ rest) (fresh : ∀ block, block ≠ b → i ∉ chain block)
    (sized : resize (front ++ (old ++ rest)).length = (front ++ (new ++ rest)).length)
    (moved : ∀ inst ∈ new, q.link? inst = some
      { status := .connected
        holder := some (.block b)
        prev := front.getLast?
        next := rest.head?
        isTerminator := decide (rest = [] ∧ tight ≠ some b) })
    (gone : i ∉ new → ∀ l, q.link? i = some l → l.Unchained)
    (ending : front ≠ [] → (old ++ rest = [] ∧ loose ≠ some b ↔ new ++ rest = [] ∧ tight ≠ some b))
    (looseHere : rest ≠ [] → (loose = some b ↔ tight = some b))
    (looseAway : ∀ block, block ≠ b → (tight = some block ↔ loose = some block)) :
    q.Chains (update chain b (front ++ (new ++ rest))) tight := by
  have linksHere : ∀ inst ∈ front ++ rest, q.link? inst =
    (p.link? inst).map (·.spliced inst front.getLast?
      rest.head? (new ++ rest).head? (front ++ new).getLast?) := by
    intro inst mem
    have ne : inst ≠ i := fun eq => away (eq ▸ mem)
    rw [spliced.links, if_neg ne]
  have linksAway : ∀ inst, inst ≠ i → inst ∉ front ++ rest → q.link? inst = p.link? inst := by
    intro inst ne out
    have notPrev : front.getLast? ≠ some inst := fun last =>
      out (mem_append_left _ (mem_of_getLast? last))
    have notNext : rest.head? ≠ some inst := fun first =>
      out (mem_append_right _ (mem_of_head? first))
    rw [spliced.links, if_neg ne]
    cases p.link? inst <;> simp [Link.spliced, notPrev, notNext]
  have nodup : (front ++ rest).Nodup := nd.sublist ((sublist_append_right new rest).append_left _)
  obtain ⟨ends, hEnds⟩ : ∃ ends, p.ends? b = some ends := by
    have hb := spliced.isBlock
    rw [isBlock_eq_ends?] at hb
    exact Option.isSome_iff_exists.mp hb
  refine @rechain tight loose p q chain chains [b] _ ?_ ?_ ?_ ?_ ?_ ?_ ?_ (by simpa using looseAway)
  all_goals simp only [mem_singleton, forall_eq, update_self]
  · rw [spliced.ends, if_pos rfl, hEnds, chains.ends b ends hEnds, split]
    simp only [Option.map_some, Ends.spliced, sized]
    cases front <;> cases rest using reverseRecOn <;> simp [getLast?_cons, getLast?_append]
  · exact fun block ne => by rw [spliced.ends, if_neg ne]
  · exact nd
  · intro front' inst rest' shape
    rcases append_split_cases shape with ⟨between, rfl, rfl⟩ | ⟨between, rfl, shapeRest⟩
    · rw [linksHere inst (by simp),
        chains.linked b front' inst (between ++ (old ++ rest)) (by simp [split])]
      have notNext : rest.head? ≠ some inst := fun first =>
        disjoint_of_nodup_append nodup (by simp) (mem_of_head? first)
      have alone : inst ∉ between := by
        have nodupFront := nodup.of_append_left
        rw [nodup_middle, nodup_cons] at nodupFront
        exact fun mem => nodupFront.1 (mem_append_right _ mem)
      simp only [Option.map_some, Link.spliced, if_neg notNext, getLast?_eq_self_iff alone]
      cases between with
      | nil =>
        simp only [nil_append, ending (by simp)]
        simp
      | cons => simp
    · rcases append_split_cases shapeRest with ⟨before, rfl, rfl⟩ | ⟨before, rfl, rfl⟩
      · have empty : before = [] ∧ between = [] := by
          rcases only with ⟨-, none⟩ | ⟨-, one⟩
          · simp at none
          · simp [append_eq_singleton_iff] at one
            simp [one]
        obtain ⟨rfl, rfl⟩ := empty
        simpa using moved inst (by simp)
      · rw [linksHere inst (by simp),
          chains.linked b (front ++ (old ++ before)) inst rest' (by simp [split])]
        have notPrev : front.getLast? ≠ some inst := fun last =>
          disjoint_of_nodup_append nodup (mem_of_getLast? last) (by simp)
        have alone : inst ∉ before := by
          have nd' := nodup.of_append_right
          rw [nodup_middle, nodup_cons] at nd'
          exact fun mem => nd'.1 (mem_append_left _ mem)
        simp only [Option.map_some, Link.spliced, if_neg notPrev, head?_eq_self_iff alone]
        have same := looseHere (by simp)
        cases before using reverseRecOn <;> simp [same]
  · exact fun block ne => update_of_ne ne ..
  · intro block ne elsewhere inElsewhere
    refine linksAway elsewhere ?_ ?_
    · rintro rfl
      exact fresh block ne inElsewhere
    · intro mem
      refine ne (chains.block_unique inElsewhere (split ▸ ?_))
      simp only [mem_append] at mem ⊢
      tauto
  · intro inst l out hOther
    by_cases eq : inst = i
    · subst eq
      exact .inr (gone (fun mem => out (by simp [mem])) l hOther)
    · have apart : inst ∉ front ++ rest := fun mem => out (by simp at mem ⊢; tauto)
      refine .inl ⟨linksAway inst eq apart ▸ hOther, ?_⟩
      rw [split]
      rcases only with ⟨rfl, rfl⟩ | ⟨rfl, rfl⟩ <;> simp_all

theorem spliceIn {old : Link} (chains : p.Chains chain loose)
    (spliced : p.Spliced q b i
      ({ · with prev := front.getLast?, next := rest.head?, holder := some (.block b),
                status := .connected })
      front.getLast? rest.head? (some i) (some i) (· + 1)) (h : p.link? i = some old)
    (st : old.status = .disconnected) (split : chain b = front ++ rest)
    (here : ∀ block, loose = some block → block = b) (fits : GapFits front rest (loose = some b))
    (ending : old.isTerminator = decide (rest = [])) :
    q.Chains (update chain b (front ++ i :: rest)) none := by
  have fresh : ∀ block, i ∉ chain block := chains.not_mem_of_status h (by simp [st])
  have nd := chains.nodup b
  have freshHere := fresh b
  rw [split] at nd freshHere
  have notPrev : front.getLast? ≠ some i := fun last =>
    freshHere (mem_append_left _ (mem_of_getLast? last))
  have notNext : rest.head? ≠ some i := fun first =>
    freshHere (mem_append_right _ (mem_of_head? first))
  refine @resplice b i none loose p q chain front rest _ _ [] [i] chains (by simpa using spliced)
    split (nodup_middle.mpr (nodup_cons.mpr ⟨freshHere, nd⟩)) (.inr ⟨rfl, rfl⟩) freshHere
    (fun block _ => fresh block) (by simp [add_assoc]) ?_ (by simp) ?_ ?_ ?_
  · intro inst mem
    rw [mem_singleton.mp mem, spliced.links, if_pos rfl, h]
    simp [Link.spliced, notPrev, notNext, ending]
  · intro filled
    rcases fits with empty | exact
    · simp_all
    · simpa using exact.mp
  · intro followed
    rcases fits with empty | exact
    · simp_all
    · simpa [followed] using exact
  · intro block ne
    simpa using fun isLoose => ne (here block isLoose)

theorem spliceOut (chains : p.Chains chain none)
    (spliced : p.Spliced q b i
      ({ · with prev := none, next := none, holder := none, status := .disconnected })
      front.getLast? rest.head? rest.head? front.getLast? (· - 1))
    (split : chain b = front ++ i :: rest) (here : ∀ block, tight = some block → block = b)
    (fits : GapFits front rest (tight = some b)) :
    q.Chains (update chain b (front ++ rest)) tight := by
  have h := chains.linked b front i rest split
  have nd := chains.nodup b
  rw [split] at nd
  obtain ⟨away, nd'⟩ := nodup_cons.mp (nodup_middle.mp nd)
  have mem : i ∈ chain b := by simp [split]
  refine @resplice b i tight none p q chain front rest _ _ [i] [] chains (by simpa using spliced)
    split nd' (.inl ⟨rfl, rfl⟩) away (fun block ne inOther => ne (chains.block_unique inOther mem))
    (by simp) (by simp) ?_ ?_ ?_ ?_
  · intro _ l hAfter
    have notPrev : front.getLast? ≠ some i := fun last =>
      away (mem_append_left _ (mem_of_getLast? last))
    have notNext : rest.head? ≠ some i := fun first =>
      away (mem_append_right _ (mem_of_head? first))
    rw [spliced.links, if_pos rfl, h, Option.map_some, Option.map_some, Option.some.injEq] at hAfter
    simp [← hAfter, Link.spliced, Link.Unchained, notPrev, notNext]
  · intro filled
    rcases fits with empty | exact
    · simp_all
    · simpa using exact.mp
  · intro followed
    rcases fits with empty | exact
    · simp_all
    · simpa [followed] using exact
  · intro block ne
    simpa using fun isLoose => ne (here block isLoose)

end Program.Chains

/-! ### Moving the end of a chain -/

theorem Program.chainWithin_eq_ok {s : Program} {fuel : Nat} {insts members : List InstId}
    (nexts : ∀ front i rest, insts = front ++ i :: rest →
      ∃ l, s.link? i = some l ∧ l.next = rest.head?) :
    s.chainWithin fuel insts.head? = .ok members ↔ insts.length ≤ fuel ∧ insts = members := by
  induction insts generalizing fuel members with
  | nil => cases fuel <;> simp [chainWithin, pure_eq_ok]
  | cons i rest ih =>
    cases fuel with
    | zero => simp [chainWithin, throw_ne_ok]
    | succ fuel =>
      obtain ⟨l, h, next⟩ := nexts [] i rest rfl
      obtain ⟨d, hInst, rfl⟩ := Option.map_eq_some_iff.mp h
      rw [head?_cons, chainWithin]
      simp only [bind_eq_ok, pure_eq_ok, inst_eq_ok, hInst, Option.some.injEq]
      rw [exists_eq_left', show d.next = rest.head? from next]
      simp [ih fun front inst behind shape => nexts (i :: front) inst behind (by simp [shape]),
        and_assoc]

namespace Program.ChainMoved

variable {front rest : List InstId}

section

variable (shift : p.ChainMoved q src tgt start startLink sourceEnds moved)
  (chains : p.Chains chain none) (split : chain src = front ++ start :: rest)
include shift chains split

theorem prev_eq : startLink.prev = front.getLast? := by
  have startShape := chains.linked src front start rest split
  rw [shift.heldStart, Option.some.injEq] at startShape
  rw [startShape]

theorem prev_ne (away : i ∉ front) : startLink.prev ≠ some i := by
  rw [shift.prev_eq chains split]
  exact fun last => away (mem_of_getLast? last)

end

theorem disjoint (chains : p.Chains chain none) (split : chain src = front ++ start :: rest) :
    Disjoint front (start :: rest) :=
  disjoint_of_nodup_append (split ▸ chains.nodup src)

section

variable (shift : p.ChainMoved q src tgt start startLink sourceEnds moved)
  (chains : p.Chains chain none) (split : chain src = front ++ start :: rest)
include shift chains split

/-- What moves is the instruction and all behind it. -/
theorem moved_eq : moved = start :: rest := by
  obtain ⟨cut, cutLinks, read⟩ := shift.readMoved
  have links : ∀ between i behind, start :: rest = between ++ i :: behind →
      ∃ l, cut.link? i = some l ∧ l.next = behind.head? := by
    intro between i behind shape
    have h := chains.linked src (front ++ between) i behind (by simp [split, shape])
    have away : i ∉ front := fun inFront => disjoint chains split inFront (by simp [shape])
    refine ⟨_, by rw [cutLinks, h, Option.map_some], ?_⟩
    simp [cutLink, shift.prev_ne chains split away]
  exact ((chainWithin_eq_ok links).mp read).2.symm

/-- Instructions outside the chain keep their links. -/
theorem link_away (away : i ∉ chain src) : q.link? i = p.link? i := by
  rw [split] at away
  simp only [mem_append, mem_cons, not_or] at away
  rw [shift.links]
  cases p.link? i with
  | none => rfl
  | some l =>
    simp [cutLink, shift.prev_ne chains split away.1, shift.moved_eq chains split, away.2.1,
      away.2.2]

theorem link_front {between : List InstId} (shape : front = inner ++ i :: between) :
    q.link? i = some
      { status := .connected, holder := some (.block src), prev := inner.getLast?,
        next := between.head?, isTerminator := false } := by
  have mem : i ∈ front := by simp [shape]
  have away : i ∉ start :: rest := fun inRest => disjoint chains split mem inRest
  have alone : i ∉ between := by
    have nodupFront := (split ▸ chains.nodup src).of_append_left
    rw [shape, nodup_middle, nodup_cons] at nodupFront
    exact fun inBetween => nodupFront.1 (mem_append_right _ inBetween)
  have isLast : startLink.prev = some i ↔ between.getLast? = none := by
    rw [shift.prev_eq chains split, shape]
    exact getLast?_eq_self_iff alone
  rw [shift.links, chains.linked src inner i (between ++ start :: rest) (by simp [split, shape])]
  simp only [mem_cons, not_or] at away
  simp only [Option.map_some, cutLink, isLast, shift.moved_eq chains split, mem_cons,
    away.1, away.2, or_self, if_false]
  cases between <;> simp

theorem link_rest {behind : List InstId} (shape : start :: rest = inner ++ i :: behind) :
    q.link? i = some
      { status := .connected, holder := some (.block tgt), prev := inner.getLast?,
        next := behind.head?, isTerminator := decide (behind = []) } := by
  have mem : i ∈ start :: rest := by simp [shape]
  have away : i ∉ front := fun inFront => disjoint chains split inFront mem
  rw [shift.links, chains.linked src (front ++ inner) i behind (by simp [split, shape])]
  simp only [Option.map_some, cutLink, shift.moved_eq chains split, mem, if_true,
    if_neg (shift.prev_ne chains split away)]
  cases inner with
  | nil =>
    simp only [nil_append, cons.injEq] at shape
    simp [shape.1]
  | cons first others =>
    simp only [cons_append, cons.injEq] at shape
    have nd' := (split ▸ chains.nodup src).of_append_right
    have notStart : i ≠ start := by
      rintro rfl
      rw [nodup_cons] at nd'
      exact nd'.1 (by simp [shape.2])
    simp [notStart, getLast?_append, getLast?_cons]

end

end Program.ChainMoved

namespace Program.Chains

theorem moveEnd {front rest : List InstId} (chains : p.Chains chain none) (ne : tgt ≠ src)
    (shift : p.ChainMoved q src tgt start startLink sourceEnds moved)
    (split : chain src = front ++ start :: rest) (empty : chain tgt = []) :
    q.Chains (update (update chain src front) tgt (start :: rest)) (some src) := by
  have nd := chains.nodup src
  rw [split] at nd
  have sourceShape := chains.ends src sourceEnds shift.heldSource
  rw [split] at sourceShape
  have apart : src ≠ tgt := ne.symm
  have chainSource : update (update chain src front) tgt (start :: rest) src = front := by
    rw [update_of_ne apart, update_self]
  have linksHere : ∀ b ∈ [src, tgt], ∀ inner i behind,
      update (update chain src front) tgt (start :: rest) b = inner ++ i :: behind →
      q.link? i = some
        { status := .connected
          holder := some (.block b)
          prev := inner.getLast?
          next := behind.head?
          isTerminator := decide (behind = [] ∧ some src ≠ some b) } := by
    rw [forall_mem_cons, forall_mem_singleton, chainSource, update_self]
    constructor
    · intro inner i behind shape
      rw [shift.link_front chains split shape]
      simp
    · intro inner i behind shape
      rw [shift.link_rest chains split shape]
      simp [apart]
  refine chains.rechain ?_ ?_ ?_ linksHere ?_ ?_ ?_ ?_
  all_goals simp only [mem_cons, not_mem_nil, or_false, forall_eq_or_imp, forall_eq, chainSource,
    update_self, not_or, and_imp]
  · rw [shift.ends, shift.ends, if_pos rfl, if_neg ne, if_pos rfl, shift.prev_eq chains split,
      sourceShape, shift.moved_eq chains split]
    cases front <;> simp [getLast?_append, getLast?_cons]
    omega
  · exact fun block notSource notTarget => by rw [shift.ends, if_neg notSource, if_neg notTarget]
  · exact ⟨nd.of_append_left, nd.of_append_right⟩
  · exact fun block notSource notTarget => by rw [update_of_ne notTarget, update_of_ne notSource]
  · exact fun block notSource _ i mem => shift.link_away chains split fun inSource =>
      notSource (chains.block_unique mem inSource)
  · intro i l outFront ne outRest h
    have away : i ∉ chain src := by simp [split, outFront, ne, outRest]
    exact .inl ⟨shift.link_away chains split away ▸ h, away, by simp [empty]⟩
  · exact fun block notSource _ => by simp [Ne.symm notSource]

end Program.Chains

end ValueGraph

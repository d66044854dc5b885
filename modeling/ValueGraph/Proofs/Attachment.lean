import Mathlib
import ValueGraph.Proofs.Runs

namespace ValueGraph

open Program Option Or

/-!
# How instructions are attached

The instructions of a block form a chain that ends in its only terminator.  An
instruction enters and leaves chains, is nested once, and is finalized for good.
-/

variable {i : InstId} {v : ValueId} {s : Program} {old new : Link}

/-! ### Changes of one attachment -/

/-- How an instruction can be attached after moves that nest nothing: as before, in
another place in or between chains, or no longer. -/
def Link.Drifts (old new : Link) : Prop :=
  new = old ∨ (old.status.Floats ∧ new.status.Floats) ∨ new.status = .finalized

namespace Link.Drifts

variable {first second third : Link}

theorem refl (l : Link) : l.Drifts l :=
  inl rfl

theorem trans (earlier : first.Drifts second) (later : second.Drifts third) :
    first.Drifts third := by
  rcases later with rfl | ⟨floatsSecond, floatsThird⟩ | fin
  · exact earlier
  · rcases earlier with rfl | ⟨floatsFirst, -⟩ | fin
    · exact inr (inl ⟨floatsSecond, floatsThird⟩)
    · exact inr (inl ⟨floatsFirst, floatsThird⟩)
    · simp [Status.Floats, fin] at floatsSecond
  · exact inr (inr fin)

end Link.Drifts

/-- How the status of an instruction changes under one operation. -/
inductive Status.Turns : Status → Status → Prop where
  | stay (status : Status) : Turns status status
  | connect : Turns .disconnected .connected
  | disconnect : Turns .connected .disconnected
  | nest : Turns .disconnected .reparent
  | finalize (status : Status) : Turns status .finalized

theorem Link.Drifts.turns (drifts : old.Drifts new) : old.status.Turns new.status := by
  rcases drifts with rfl | ⟨isOld | isOld, isNew | isNew⟩ | fin
  · exact .stay _
  · rw [isOld, isNew]
    exact .stay _
  · rw [isOld, isNew]
    exact .disconnect
  · rw [isOld, isNew]
    exact .connect
  · rw [isOld, isNew]
    exact .stay _
  · rw [fin]
    exact .finalize _

theorem Link.Drifts.of_reparent (drifts : old.Drifts new) (nested : old.status = .reparent) :
    new = old ∨ new.status = .finalized := by
  rcases drifts with eq | ⟨floats, -⟩ | fin
  · exact inl eq
  · simp [Status.Floats, nested] at floats
  · exact inr fin

/-- What is finalized stays so. -/
theorem Link.Drifts.ongoing (drifts : old.Drifts new) (ongoing : new.status ≠ .finalized) :
    old.status ≠ .finalized := by
  rcases drifts with rfl | ⟨floats, -⟩ | fin
  · exact ongoing
  · rintro fin
    simp [Status.Floats, fin] at floats
  · exact absurd fin ongoing

/-! ### Changes under moves -/

namespace Program

variable {p q : Program} {pr : Promise}

/-- Instructions that are there after some moves were there before and have drifted. -/
def Drifts (before after : Program) : Prop :=
  ∀ inst new, after.link? inst = some new → ∃ old, before.link? inst = some old ∧ old.Drifts new

namespace Drifts

variable {r : Program}

theorem of_same (links : q.link? = p.link?) : p.Drifts q :=
  fun _ new h => ⟨new, links ▸ h, .refl new⟩

theorem trans (earlier : p.Drifts q) (later : q.Drifts r) : p.Drifts r := by
  intro i new h
  obtain ⟨m, hMiddle, driftsLater⟩ := later i new h
  obtain ⟨old, hOld, driftsEarlier⟩ := earlier i m hMiddle
  exact ⟨old, hOld, driftsEarlier.trans driftsLater⟩

theorem ongoing (drifts : p.Drifts q) (ongoing : q.Ongoing i) : p.Ongoing i := by
  obtain ⟨new, h, st⟩ := ongoing
  obtain ⟨old, hOld, drift⟩ := drifts i new h
  exact ⟨old, hOld, drift.ongoing st⟩

end Drifts

theorem Refloats.drifts (refloats : p.Refloats q) : p.Drifts q := by
  intro i new h
  rcases refloats i with eq | ⟨old, again, hOld, h', floats⟩
  · exact ⟨new, eq ▸ h, .refl new⟩
  · obtain rfl := mem_unique h h'
    exact ⟨old, hOld, inr (inl floats)⟩

theorem Dropped.drifts (drop : p.Dropped q v) : p.Drifts q :=
  fun _ new h => ⟨new, drop.link?_before h, .refl new⟩

theorem Wrecks.drifts (wrecks : p.Wrecks q) : p.Drifts q := by
  cases wrecks with
  | detach i reth => exact reth.refloats.drifts
  | strip i l h st rem => exact .of_same rem.rewires.skeleton.link?
  | mark i l st stripped relink =>
    intro inst new h
    rw [relink.links, Function.update_apply] at h
    split at h
    next eq =>
      obtain rfl := some.inj h
      exact ⟨l, eq ▸ relink.held, inr (inr rfl)⟩
    next => exact ⟨new, h, .refl new⟩
  | drop i l h fin dropped => exact dropped.drifts

theorem Wrecked.drifts (wrecked : Wrecked p q) : p.Drifts q := by
  induction wrecked with
  | refl => exact .of_same rfl
  | tail _ last ih => exact ih.trans last.drifts

theorem Shapes.drifts (shapes : p.Shapes pr q) : p.Drifts q := by
  cases shapes with
  | raze razed => exact Wrecked.drifts razed.wrecked
  | relabel lab => exact .of_same lab.link?
  | retain v retained =>
    exact .of_same (by simp only [link?_eq_bind, retained.payload?])
  | drop v dropped => exact dropped.drifts
  | redraw redraws => exact .of_same redraws.rewires.skeleton.link?
  | thread threads reth => exact reth.refloats.drifts
  | resettle settle => exact .of_same settle.links

theorem Shrunk.drifts (shrunk : Shrunk pr p q) : p.Drifts q := by
  induction shrunk with
  | refl => exact .of_same rfl
  | tail _ last ih => exact ih.trans last.drifts

theorem Joined.link? {u : ValueId} (joined : Joined u p q) : q.link? = p.link? := by
  induction joined with
  | refl => rfl
  | tail _ last ih =>
    obtain ⟨_, _, joins, -⟩ := last
    rw [joins.added.rewires.skeleton.link?, ih]

theorem Added.link?_of_held {i : ValueId} {ty : TypeId} {payload : Payload} {l : Link}
    (added : p.Added q v ty payload) (h : p.link? i = some l) : q.link? i = some l := by
  have ne : i ≠ v := by
    rintro rfl
    simp [link?_eq_bind, added.payload?_eq_none] at h
  rw [added.exchanged.link?, Function.update_of_ne ne, h]

/-- Moves that take no node away keep instructions, which only drift. -/
theorem Raises.link? (raises : p.Raises pr q) (h : p.link? i = some old) :
    ∃ new, q.link? i = some new ∧ old.Drifts new := by
  cases raises with
  | grow v ty payload added => exact ⟨old, added.link?_of_held h, .refl old⟩
  | build new ty kind built =>
    obtain ⟨started, added, joined⟩ := built.added
    exact ⟨old, by rw [Joined.link? joined, added.link?_of_held h], .refl old⟩
  | shape shapes grows =>
    have hi : p.isInst i = true := isInst_of_link? h
    have sameShell := ((shapes.wanes.waxes grows).sorts i (isLive_of_category hi)).shells
    obtain ⟨d, hInst, rfl⟩ := map_eq_some_iff.mp h
    rw [shell?, shell?, hInst, map_some] at sameShell
    obtain ⟨dataAfter, hAfter, -⟩ := map_eq_some_iff.mp sameShell
    have hNew : q.link? i = some dataAfter.link := by
      exact link?_of_inst? hAfter
    obtain ⟨again, h', drifts⟩ := shapes.drifts i _ hNew
    obtain rfl := mem_unique h h'
    exact ⟨_, hNew, drifts⟩

theorem Grown.link? (grown : Grown pr p q) (h : p.link? i = some old) :
    ∃ new, q.link? i = some new ∧ old.Drifts new := by
  induction grown with
  | refl => exact ⟨old, h, .refl old⟩
  | tail _ last ih =>
    obtain ⟨m, hMiddle, driftsEarlier⟩ := ih
    obtain ⟨new, hNew, driftsLater⟩ := last.link? hMiddle
    exact ⟨new, hNew, driftsEarlier.trans driftsLater⟩

/-- Handles that come in an edit do not go in it, so an instruction that is there before
and after is the same one: it has drifted, or it was disconnected and has been nested. -/
theorem Reaches.drifts (reaches : p.Reaches pr q) (hOld : p.link? i = some old)
    (hNew : q.link? i = some new) :
    old.Drifts new ∨ (old.status = .disconnected ∧ new.status = .reparent) := by
  obtain ⟨grown, adopted, grow, adopt, shrink⟩ := reaches
  obtain ⟨m, hMiddle, driftsEarlier⟩ := Grown.link? grow hOld
  obtain ⟨later, hLater, driftsLater⟩ := Shrunk.drifts shrink i new hNew
  rcases adopt with rfl | ⟨nested, write, l, adopts, wasDisconnected⟩
  · obtain rfl := mem_unique hMiddle hLater
    exact inl (driftsEarlier.trans driftsLater)
  · rw [adopts.relinked.links, Function.update_apply] at hLater
    split at hLater
    next eq =>
      subst eq
      obtain rfl := some.inj hLater
      rw [status?, hOld, map_some, some.injEq] at wasDisconnected
      rcases driftsLater.of_reparent rfl with rfl | fin
      · exact inr ⟨wasDisconnected, rfl⟩
      · exact inl (inr (inr fin))
    next =>
      obtain rfl := mem_unique hMiddle hLater
      exact inl (driftsEarlier.trans driftsLater)

theorem Reaches.turns (reaches : p.Reaches pr q) (hOld : p.link? i = some old)
    (hNew : q.link? i = some new) : old.status.Turns new.status := by
  rcases reaches.drifts hOld hNew with drifts | ⟨wasDisconnected, isNested⟩
  · exact drifts.turns
  · rw [wasDisconnected, isNested]
    exact .nest

/-! ### Chains -/

end Program

end ValueGraph

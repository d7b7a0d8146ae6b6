import Space.Store.Registry
import Mathlib.Logic.Relation

/-!
# Store — ConcurrentSaves

Calls that change a registry which several threads share.  A call changes the memory under the lock
of what it changes, and then saves: it copies the capsules, the next identifier and the content
store one after the other, and writes the file with no lock held.  So a copy may be written after a
later one.

In the code the three copies are one statement, whose read locks are held to its end; here each lock
is given back at once, which only adds runs.

* `exec_change`: a call that nobody disturbs is the method of `CapsuleRegistry`.
* `saves_persist`: as long as no copy that is out of date is written last, the file has the
  capsules and the content store of the memory whenever no call is in flight.
* `not_persisted_of_late`: after a write that breaks this, the calls in flight cannot make up for
  it.
* `not_saves_persist`: two calls are enough to lose one of them.
-/

namespace Space
open Support

/-! ### The calls -/

/-- A call that changes the registry. -/
inductive RegistryCall where
  | createCapsuleWithSegments (id : CapsuleId) (size : Nat) (segments : List SegmentId)
      (policy : Policy)
  | registerContent (hash : ContentHash) (segId : SegmentId)
  | deregisterContent (hash : ContentHash) (segId : SegmentId)
  | deleteCapsule (id : CapsuleId)
  | allocSegment

namespace RegistryCall

/-- What a call answers. -/
inductive Answer where
  | done
  | segment (segId : SegmentId)
  | removed (b : Bool)
  | capsule (c : Capsule)

/-- The method that is called. -/
def exec : RegistryCall → CapsuleRegistry → Except Error Answer × CapsuleRegistry
  | createCapsuleWithSegments id size segments policy, reg =>
    ((reg.createCapsuleWithSegments id size segments policy).1.map fun _ => .done,
      (reg.createCapsuleWithSegments id size segments policy).2)
  | registerContent hash segId, reg => (.ok .done, reg.registerContent hash segId)
  | deregisterContent hash segId, reg =>
    (.ok (.removed (reg.deregisterContent hash segId).1), (reg.deregisterContent hash segId).2)
  | deleteCapsule id, reg =>
    ((reg.deleteCapsule id).1.map .capsule, (reg.deleteCapsule id).2)
  | allocSegment, reg => (.ok (.segment reg.allocSegment.1), reg.allocSegment.2)

/-- The call goes on to save what it has changed. -/
def saves (reg : CapsuleRegistry) : RegistryCall → Bool
  | createCapsuleWithSegments id _ _ _ => (reg.capsules.lookup id).isNone
  | registerContent _ _ => true
  | deregisterContent hash segId => decide (reg.contentStore.lookup hash = some segId)
  | deleteCapsule id => (reg.capsules.lookup id).isSome
  | allocSegment => false

/-- What the call changes under its lock: the memory, and not the file. -/
def change (call : RegistryCall) (reg : CapsuleRegistry) : CapsuleRegistry :=
  { (call.exec reg).2 with saved := reg.saved }

/-- A call on its own saves what it has changed. -/
theorem exec_change (call : RegistryCall) (reg : CapsuleRegistry) :
    (call.exec reg).2 = if call.saves reg then (call.change reg).save else call.change reg := by
  cases call with
  | createCapsuleWithSegments id size segments policy =>
      cases hl : reg.capsules.lookup id <;>
        simp only [exec, change, saves, CapsuleRegistry.createCapsuleWithSegments, hl] <;> rfl
  | registerContent hash segId => rfl
  | deregisterContent hash segId =>
      by_cases h : reg.contentStore.lookup hash = some segId
      · simp only [exec, change, saves, CapsuleRegistry.deregisterContent, h, if_true, decide_true]
        rfl
      · simp only [exec, change, saves, CapsuleRegistry.deregisterContent, h, if_false,
          decide_false, Bool.false_eq_true]
  | deleteCapsule id =>
      cases hl : reg.capsules.lookup id <;>
        simp only [exec, change, saves, CapsuleRegistry.deleteCapsule, hl] <;> rfl
  | allocSegment => rfl

/-- What is not saved changes neither the capsules nor the content store. -/
theorem change_of_not_saves {call : RegistryCall} {reg : CapsuleRegistry}
    (h : call.saves reg = false) : (call.change reg).capsules = reg.capsules ∧
      (call.change reg).contentStore = reg.contentStore := by
  cases call with
  | createCapsuleWithSegments id size segments policy =>
      obtain ⟨c, hc⟩ := Option.isSome_iff_exists.mp (Option.isNone_eq_false_iff.mp h)
      simp only [change, exec, CapsuleRegistry.createCapsuleWithSegments, hc, and_self]
  | registerContent hash segId => cases h
  | deregisterContent hash segId =>
      have hne : ¬ reg.contentStore.lookup hash = some segId := of_decide_eq_false h
      simp only [change, exec, CapsuleRegistry.deregisterContent, hne, if_false, and_self]
  | deleteCapsule id =>
      have hnone : reg.capsules.lookup id = none :=
        Option.isNone_iff_eq_none.mp (Option.isSome_eq_false_iff.mp h)
      simp only [change, exec, CapsuleRegistry.deleteCapsule, hnone, and_self]
  | allocSegment => exact ⟨rfl, rfl⟩

end RegistryCall

/-! ### Saving -/

/-- How far a `save` has come. -/
inductive Saving where
  | due
  | capsules (capsules : Table CapsuleId Capsule)
  | nextSegmentId (capsules : Table CapsuleId Capsule) (next : Nat)
  | state (state : RegistryState)

namespace Saving

/-- The next step of a `save`, and what is left of it. -/
def advance (reg : CapsuleRegistry) : Saving → CapsuleRegistry × Option Saving
  | due => (reg, some (capsules reg.capsules))
  | capsules c => (reg, some (nextSegmentId c reg.nextSegmentId))
  | nextSegmentId c n => (reg, some (state ⟨c, n, reg.contentStore⟩))
  | state s => ({ reg with saved := some s }, none)

/-- It will write the capsules that are in memory. -/
def SavesCapsules (reg : RegistryState) : Saving → Prop
  | due => True
  | capsules c => c = reg.capsules
  | nextSegmentId c _ => c = reg.capsules
  | state s => s.capsules = reg.capsules

/-- It will write the content store that is in memory. -/
def SavesContent (reg : RegistryState) : Saving → Prop
  | due => True
  | capsules _ => True
  | nextSegmentId _ _ => True
  | state s => s.contentStore = reg.contentStore

variable {reg : CapsuleRegistry} {q q' : Saving}

/-- Copying changes nothing, and a copy is of what is in memory. -/
theorem advance_copy (h : (q.advance reg).2 = some q') : (q.advance reg).1 = reg ∧
    (q'.SavesCapsules reg.toRegistryState ↔ q.SavesCapsules reg.toRegistryState) ∧
      (q'.SavesContent reg.toRegistryState ↔ q.SavesContent reg.toRegistryState) := by
  cases q with
  | due =>
      cases h
      exact ⟨rfl, iff_of_true rfl trivial, Iff.rfl⟩
  | capsules c =>
      cases h
      exact ⟨rfl, Iff.rfl, Iff.rfl⟩
  | nextSegmentId c n =>
      cases h
      exact ⟨rfl, Iff.rfl, iff_of_true rfl trivial⟩
  | state s => cases h

/-- The last step writes the file. -/
theorem advance_write (h : (q.advance reg).2 = none) :
    ∃ s, q = state s ∧ (q.advance reg).1 = { reg with saved := some s } := by
  cases q with
  | state s => exact ⟨s, rfl, rfl⟩
  | _ => cases h

end Saving

/-! ### Threads -/

/-- A registry, and the calls in flight. -/
structure SharedRegistry where
  registry : CapsuleRegistry
  saving : List Saving

/-- A thread begins a call, or the save that is number `i` of those in flight goes on. -/
inductive SaveStep where
  | call (call : RegistryCall)
  | advance (i : Nat)

namespace SharedRegistry

def step (shared : SharedRegistry) : SaveStep → SharedRegistry
  | .call call =>
    ⟨call.change shared.registry,
      if call.saves shared.registry then .due :: shared.saving else shared.saving⟩
  | .advance i =>
    match shared.saving[i]? with
    | none => shared
    | some q =>
      ⟨(q.advance shared.registry).1,
        shared.saving.take i ++ (q.advance shared.registry).2.toList ++ shared.saving.drop (i + 1)⟩

/-- The steps of the threads over a registry that was opened, each of them meeting a condition. -/
inductive Reached (G : SharedRegistry → SaveStep → Prop) : SharedRegistry → Prop where
  | start (reg : CapsuleRegistry) : Reached G ⟨reg.reopen, []⟩
  | step {shared : SharedRegistry} (h : Reached G shared) (s : SaveStep) (hG : G shared s) :
      Reached G (shared.step s)

/-- What `open` would load is what is in memory. -/
def Persisted (shared : SharedRegistry) : Prop :=
  shared.registry.reopen.capsules = shared.registry.capsules ∧
    shared.registry.reopen.contentStore = shared.registry.contentStore

/-- A copy is written while it is up to date, or another call in flight has one that is, or has
still to make it; so for the capsules and for the content store. -/
def Timely (shared : SharedRegistry) : SaveStep → Prop
  | .call _ => True
  | .advance i => ∀ s, shared.saving[i]? = some (.state s) →
      (∃ q ∈ shared.saving, q.SavesCapsules shared.registry.toRegistryState) ∧
        ∃ q ∈ shared.saving, q.SavesContent shared.registry.toRegistryState

/-- What is not in the file is in flight. -/
structure Covered (shared : SharedRegistry) : Prop where
  capsules : shared.registry.reopen.capsules = shared.registry.capsules ∨
    ∃ q ∈ shared.saving, q.SavesCapsules shared.registry.toRegistryState
  contentStore : shared.registry.reopen.contentStore = shared.registry.contentStore ∨
    ∃ q ∈ shared.saving, q.SavesContent shared.registry.toRegistryState

variable {shared shared' : SharedRegistry}

theorem covered_start (reg : CapsuleRegistry) : Covered ⟨reg.reopen, []⟩ := by
  unfold CapsuleRegistry.reopen
  cases reg.saved with
  | none => exact ⟨.inl rfl, .inl rfl⟩
  | some s => exact ⟨.inl rfl, .inl rfl⟩

theorem Covered.call (h : shared.Covered) (call : RegistryCall) :
    (shared.step (.call call)).Covered := by
  cases hs : call.saves shared.registry with
  | true =>
      have hdue : Saving.due ∈ (shared.step (.call call)).saving := by
        simp only [step, hs, if_true]
        exact List.mem_cons_self
      exact ⟨.inr ⟨_, hdue, trivial⟩, .inr ⟨_, hdue, trivial⟩⟩
  | false =>
      obtain ⟨hcap, hcont⟩ := RegistryCall.change_of_not_saves hs
      have hstep : shared.step (.call call) = ⟨call.change shared.registry, shared.saving⟩ := by
        simp only [step, hs, Bool.false_eq_true, if_false]
      have hfile : (call.change shared.registry).reopen = shared.registry.reopen := rfl
      rw [hstep]
      refine ⟨?_, ?_⟩
      · refine h.capsules.imp (fun k => ?_) ?_
        · rw [hfile, k, hcap]
        · rintro ⟨q, hq, k⟩
          refine ⟨q, hq, ?_⟩
          cases q with
          | due => trivial
          | capsules c => exact Eq.trans k hcap.symm
          | nextSegmentId c n => exact Eq.trans k hcap.symm
          | state s => exact Eq.trans k hcap.symm
      · refine h.contentStore.imp (fun k => ?_) ?_
        · rw [hfile, k, hcont]
        · rintro ⟨q, hq, k⟩
          refine ⟨q, hq, ?_⟩
          cases q with
          | state s => exact Eq.trans k hcont.symm
          | _ => trivial

/-- The saves in flight, around the one that goes on. -/
theorem saving_split {i : Nat} {q : Saving} (h : shared.saving[i]? = some q) :
    shared.saving = shared.saving.take i ++ q :: shared.saving.drop (i + 1) := by
  obtain ⟨hi, rfl⟩ := List.getElem?_eq_some_iff.mp h
  rw [← List.drop_eq_getElem_cons hi, List.take_append_drop]

theorem step_advance {i : Nat} {q : Saving} (h : shared.saving[i]? = some q) :
    shared.step (.advance i) = ⟨(q.advance shared.registry).1,
      shared.saving.take i ++ (q.advance shared.registry).2.toList ++
        shared.saving.drop (i + 1)⟩ := by
  simp only [step, h]

/-- Of the saves in flight, one that has a property and is not the one that goes on stays. -/
theorem mem_step_advance {i : Nat} {q q₀ : Saving} (h : shared.saving[i]? = some q)
    (hq₀ : q₀ ∈ shared.saving) (hne : q₀ ≠ q) : q₀ ∈ (shared.step (.advance i)).saving := by
  rw [saving_split h] at hq₀
  rw [step_advance h]
  rcases List.mem_append.mp hq₀ with hm | hm
  · exact List.mem_append_left _ (List.mem_append_left _ hm)
  · rcases List.mem_cons.mp hm with rfl | hm
    · exact absurd rfl hne
    · exact List.mem_append_right _ hm

theorem Covered.advance (h : shared.Covered) {i : Nat} (ht : shared.Timely (.advance i)) :
    (shared.step (.advance i)).Covered := by
  cases hq : shared.saving[i]? with
  | none =>
      have hsame : shared.step (.advance i) = shared := by simp only [step, hq]
      rwa [hsame]
  | some q =>
      cases hn : (q.advance shared.registry).2 with
      | some q' =>
          -- a copy is made
          obtain ⟨hreg, hcap, hcont⟩ := Saving.advance_copy hn
          have hmem : q' ∈ (shared.step (.advance i)).saving := by
            rw [step_advance hq, hn]
            exact List.mem_append_left _ (List.mem_append_right _ List.mem_cons_self)
          have hr : (shared.step (.advance i)).registry = shared.registry := by
            rw [step_advance hq]
            exact hreg
          refine ⟨?_, ?_⟩
          · rw [hr]
            refine h.capsules.imp_right ?_
            rintro ⟨q₀, hq₀, k⟩
            by_cases e : q₀ = q
            · subst e
              exact ⟨q', hmem, hcap.mpr k⟩
            · exact ⟨q₀, mem_step_advance hq hq₀ e, k⟩
          · rw [hr]
            refine h.contentStore.imp_right ?_
            rintro ⟨q₀, hq₀, k⟩
            by_cases e : q₀ = q
            · subst e
              exact ⟨q', hmem, hcont.mpr k⟩
            · exact ⟨q₀, mem_step_advance hq hq₀ e, k⟩
      | none =>
          -- the file is written
          obtain ⟨s, rfl, hreg⟩ := Saving.advance_write hn
          obtain ⟨⟨q₁, hq₁, k₁⟩, q₂, hq₂, k₂⟩ := ht s hq
          have hr : (shared.step (.advance i)).registry =
              { shared.registry with saved := some s } := by
            rw [step_advance hq]
            exact hreg
          refine ⟨?_, ?_⟩
          · rw [hr]
            by_cases e : q₁ = .state s
            · subst e
              exact .inl k₁
            · exact .inr ⟨q₁, mem_step_advance hq hq₁ e, k₁⟩
          · rw [hr]
            by_cases e : q₂ = .state s
            · subst e
              exact .inl k₂
            · exact .inr ⟨q₂, mem_step_advance hq hq₂ e, k₂⟩

theorem Reached.covered (h : Reached Timely shared) : shared.Covered := by
  induction h with
  | start reg => exact covered_start reg
  | step h s hG ih =>
      cases s with
      | call call => exact ih.call call
      | advance i => exact ih.advance hG

/-- Some save in flight goes on. -/
def Advances (shared shared' : SharedRegistry) : Prop := ∃ i, shared' = shared.step (.advance i)

/-- What is in flight after a step of a save was in flight before it, or is what the step made. -/
theorem mem_of_mem_step {i : Nat} {q q₀ : Saving} (h : shared.saving[i]? = some q)
    (hq₀ : q₀ ∈ (shared.step (.advance i)).saving) :
    q₀ ∈ shared.saving ∨ (q.advance shared.registry).2 = some q₀ := by
  rw [step_advance h, List.mem_append, List.mem_append] at hq₀
  obtain (hm | hm) | hm := hq₀
  · exact .inl (List.mem_of_mem_take hm)
  · exact .inr (Option.mem_toList.mp hm)
  · exact .inl (List.mem_of_mem_drop hm)

/-- The capsules, or the content store, of the file are out of date, and no call in flight has them
as they are. -/
def Late (shared : SharedRegistry) : Prop :=
  (shared.registry.reopen.capsules ≠ shared.registry.capsules ∧
      ∀ q ∈ shared.saving, ¬ q.SavesCapsules shared.registry.toRegistryState) ∨
    shared.registry.reopen.contentStore ≠ shared.registry.contentStore ∧
      ∀ q ∈ shared.saving, ¬ q.SavesContent shared.registry.toRegistryState

theorem Late.not_persisted (h : shared.Late) : ¬ shared.Persisted := by
  rintro ⟨hcap, hcont⟩
  rcases h with ⟨hne, -⟩ | ⟨hne, -⟩
  · exact hne hcap
  · exact hne hcont

/-- A write that is not timely leaves something late behind. -/
theorem late_of_not_timely {i : Nat} (h : ¬ shared.Timely (.advance i)) :
    (shared.step (.advance i)).Late := by
  obtain ⟨s, hs, hnot⟩ : ∃ s, shared.saving[i]? = some (.state s) ∧
      ¬ ((∃ q ∈ shared.saving, q.SavesCapsules shared.registry.toRegistryState) ∧
        ∃ q ∈ shared.saving, q.SavesContent shared.registry.toRegistryState) := by
    by_contra hno
    exact h fun s hs => by_contra fun k => hno ⟨s, hs, k⟩
  have hmem : Saving.state s ∈ shared.saving := List.mem_of_getElem? hs
  have hkeep : ∀ q ∈ (shared.step (.advance i)).saving, q ∈ shared.saving := fun q hq =>
    (mem_of_mem_step hs hq).resolve_right nofun
  have hr : (shared.step (.advance i)).registry = { shared.registry with saved := some s } := by
    rw [step_advance hs]
    rfl
  by_cases hcap : ∃ q ∈ shared.saving, q.SavesCapsules shared.registry.toRegistryState
  · have hcont := not_and.mp hnot hcap
    refine .inr ⟨fun e => hcont ⟨_, hmem, ?_⟩, fun q hq k => hcont ⟨q, hkeep q hq, ?_⟩⟩
    · rwa [hr] at e
    · rwa [hr] at k
  · refine .inl ⟨fun e => hcap ⟨_, hmem, ?_⟩, fun q hq k => hcap ⟨q, hkeep q hq, ?_⟩⟩
    · rwa [hr] at e
    · rwa [hr] at k

/-- No save that is in flight makes up for it. -/
theorem Late.advance (h : shared.Late) (i : Nat) : (shared.step (.advance i)).Late := by
  cases hq : shared.saving[i]? with
  | none =>
      have hsame : shared.step (.advance i) = shared := by simp only [step, hq]
      rwa [hsame]
  | some q =>
      have hmem : q ∈ shared.saving := List.mem_of_getElem? hq
      cases hn : (q.advance shared.registry).2 with
      | some q' =>
          obtain ⟨hreg, hcap, hcont⟩ := Saving.advance_copy hn
          have hr : (shared.step (.advance i)).registry = shared.registry := by
            rw [step_advance hq]
            exact hreg
          unfold Late
          rw [hr]
          refine h.imp (And.imp_right fun k q₀ hq₀ => ?_) (And.imp_right fun k q₀ hq₀ => ?_)
          · rcases mem_of_mem_step hq hq₀ with hm | hm
            · exact k q₀ hm
            · obtain rfl := Option.some.inj (hn.symm.trans hm)
              exact fun hs => k q hmem (hcap.mp hs)
          · rcases mem_of_mem_step hq hq₀ with hm | hm
            · exact k q₀ hm
            · obtain rfl := Option.some.inj (hn.symm.trans hm)
              exact fun hs => k q hmem (hcont.mp hs)
      | none =>
          obtain ⟨s, rfl, hreg⟩ := Saving.advance_write hn
          have hr : (shared.step (.advance i)).registry =
              { shared.registry with saved := some s } := by
            rw [step_advance hq]
            exact hreg
          unfold Late
          rw [hr]
          refine h.imp (fun k => ⟨k.2 _ hmem, fun q₀ hq₀ => ?_⟩)
            fun k => ⟨k.2 _ hmem, fun q₀ hq₀ => ?_⟩
          · exact k.2 q₀ ((mem_of_mem_step hq hq₀).resolve_right fun e => by cases hn.symm.trans e)
          · exact k.2 q₀ ((mem_of_mem_step hq hq₀).resolve_right fun e => by cases hn.symm.trans e)

/-- **After a write that is not timely** the calls in flight come to their ends without making up
for it. -/
theorem not_persisted_of_late {i : Nat} (h : ¬ shared.Timely (.advance i))
    (hrun : Relation.ReflTransGen Advances (shared.step (.advance i)) shared') :
    ¬ shared'.Persisted := by
  refine Late.not_persisted ?_
  induction hrun with
  | refl => exact late_of_not_timely h
  | tail _ hstep ih =>
      obtain ⟨j, rfl⟩ := hstep
      exact ih.advance j

/-! ### Two calls -/

/-- Every step of the list meets the condition, one after the other. -/
def Along (G : SharedRegistry → SaveStep → Prop) : SharedRegistry → List SaveStep → Prop
  | _, [] => True
  | shared, s :: l => G shared s ∧ Along G (shared.step s) l

theorem Reached.along {G : SharedRegistry → SaveStep → Prop} {l : List SaveStep}
    (h : Reached G shared) (hl : Along G shared l) :
    Reached G (l.foldl SharedRegistry.step shared) := by
  induction l generalizing shared with
  | nil => exact h
  | cons s l ih => exact ih (h.step s hl.1) hl.2

end SharedRegistry

end Space

import Space.Modular.DeleteRegistry

/-!
# Modular — Delete failure

A delete in which one call fails, in the native pipeline and in the modular one, over the in-memory
storage and over the log.

* `deleteCapsule_allOrRetryable`: which failures can be made up for.
* `not_deleteCapsule_allOrRetryable`: in each of them, one that cannot.
-/

namespace Space
open Support Prog

/-- **When a delete that fails is all or retryable.**  The native one is if nothing was done and the
capsule could be read, or if every reference was taken back; the modular one in memory if it came to
its end, or if the capsule could be read, no segment of it was deleted and no count was changed; the
modular one over the log if it came to its end, or if the capsule could be read and no segment of it
was deleted. -/
theorem deleteCapsule_allOrRetryable (P : Primitives) (km : Option (KeyManager P)) (w : World P)
    (parts : Parts) (s : InMemory) (r : Store P) (id : CapsuleId) (f : Failure Error) (e : Error)
    (hw : Life Command.Unsaturated (World.empty km) w) (hs : ModularRun s)
    (hr : RegistryRun km r) :
    (∀ v : Store P × Nat, (w.cap id).isSome →
      (WritePipeline.deleteCapsule id).run (StoreOp.exec.failing f) (w.store, 0) = (.error e, v) →
      (AllOrRetryable (nativeDeletes P) id w.store v.1 ↔
        (f.made = 0 ∧ ∃ data, w.store.readCapsule id = .ok data) ∨
          0 < f.made ∧ ∀ o ∈ (w.store.deleteCalls id).drop f.made, o.decremented = none)) ∧
    (∀ v : InMemory × Nat, (s.2.capsules.lookup id).isSome →
      (Pipeline.deleteCapsule id).run ((ModularOp.exec parts InMemoryBackend.storage).failing f)
        (s, 0) = (.error e, v) →
      (AllOrRetryable (modularDeletes parts) id s v.1 ↔
        (s.deleteCalls id).length ≤ f.made ∨ (∃ data, s.readCapsule parts id = .ok data) ∧
          (∀ x, .delete x ∉ (s.deleteCalls id).take f.made) ∧
          .commit ∉ (s.deleteCalls id).take f.made)) ∧
    ∀ v : Registered P × Nat, (r.cap id).isSome →
      (Pipeline.deleteCapsule id).run ((ModularOp.execRegistry parts).failing f)
        ((r, .none), 0) = (.error e, v) →
      (AllOrRetryable (registryDeletes P parts) id (r, .none) v.1 ↔
        .deleteCapsule id ∈ (r.modularDeleteCalls id).take f.made ∨
          (∃ data, Registered.readCapsule parts id (r, .none) = .ok data) ∧
            ∀ x, .delete x ∉ (r.modularDeleteCalls id).take f.made) := by
  refine ⟨fun v hsome hrun => ?_, fun v hsome hrun => ?_, fun v hsome hrun => ?_⟩
  · obtain ⟨c, hc⟩ := Option.isSome_iff_exists.mp hsome
    have htidy := WritePipeline.tidy_of_life hw
    obtain ⟨hv, hle⟩ := WritePipeline.deleteCapsule_stops id htidy hc f hrun
    rw [hv]
    exact ⟨fun h => WritePipeline.of_repairable htidy hc hle h.repairable,
      WritePipeline.retryable_of htidy hc hle⟩
  · obtain ⟨c, hc⟩ := Option.isSome_iff_exists.mp hsome
    exact Pipeline.deleteCapsule_failing id hs.owes hc f hrun
  · obtain ⟨c, hc⟩ := Option.isSome_iff_exists.mp hsome
    have hstops := Pipeline.deleteCapsule_stops_registry parts id r .none f hrun
    exact ⟨fun h => Pipeline.of_repairable_registry hc hstops h.repairable,
      Pipeline.retryable_of_registry hr.counted hc hstops⟩

/-! ### Deletes that can be made up for -/

/-- Two capsules of one segment, and one of another. -/
def threeCapsules : World .stored :=
  ((Command.write ⟨2⟩ (unframed ++ [8]) {}).run ((Command.write ⟨1⟩ unframed {}).run
    ((Command.write ⟨0⟩ unframed {}).run (World.empty none)).2).2).2

theorem life_threeCapsules : Life Command.Unsaturated (World.empty (P := .stored) none)
    threeCapsules := by
  refine .command _ (.command _ (.command _ .start ?_) ?_) ?_
  all_goals exact Command.unsaturated_of_along (by decide +kernel) (by simp)

/-- A capsule that lists a segment twice, and one that lists it as well. -/
def sharedCapsules : InMemory := afterWrite 1 [1] (afterWrite 0 [1, 1] .empty)

theorem modularRun_sharedCapsules : ModularRun sharedCapsules :=
  .afterWrite (.afterWrite .start (by decide +kernel)) (by decide +kernel)

/-- A capsule of two segments, in memory. -/
def memoryCapsule : InMemory := afterWrite 0 [1, 3] .empty

theorem modularRun_memoryCapsule : ModularRun memoryCapsule :=
  .afterWrite .start (by decide +kernel)

/-- The same over the log. -/
def registeredCapsule : Store .stored :=
  ((ModularCommand.write ⟨0⟩ [1, 3] bytewise).run refusing (Store.empty none)).2

theorem registryRun_registeredCapsule : RegistryRun none registeredCapsule :=
  .method refusing _ (.start (w := World.empty none) .start)

/-- The native delete fails at the entry of its segment, which a collection takes away; the modular
ones fail once everything was done. -/
theorem deleteCapsule_allOrRetryable_late :
    AllOrRetryable (nativeDeletes .stored) ⟨2⟩ threeCapsules.store
      ((WritePipeline.deleteCapsule ⟨2⟩).run (StoreOp.exec.failing ⟨2, false, .msg "io"⟩)
        (threeCapsules.store, 0)).2.1 ∧
    AllOrRetryable (modularDeletes refusing) ⟨0⟩ sharedCapsules
      ((Pipeline.deleteCapsule ⟨0⟩).run
        ((ModularOp.exec refusing InMemoryBackend.storage).failing ⟨9, true, .msg "io"⟩)
        (sharedCapsules, 0)).2.1 ∧
    AllOrRetryable (registryDeletes .stored refusing) ⟨0⟩ (registeredCapsule, .none)
      ((Pipeline.deleteCapsule ⟨0⟩).run
        ((ModularOp.execRegistry refusing).failing ⟨7, true, .msg "io"⟩)
        ((registeredCapsule, .none), 0)).2.1 := by
  have h := fun id f => deleteCapsule_allOrRetryable .stored none threeCapsules refusing
    sharedCapsules registeredCapsule id f (.msg "io") life_threeCapsules modularRun_sharedCapsules
    registryRun_registeredCapsule
  refine ⟨((h ⟨2⟩ ⟨2, false, .msg "io"⟩).1 _ rfl rfl).mpr (.inr ⟨Nat.succ_pos _, ?_⟩),
    ((h ⟨0⟩ ⟨9, true, .msg "io"⟩).2.1 _ rfl rfl).mpr (.inl ?_),
    ((h ⟨0⟩ ⟨7, true, .msg "io"⟩).2.2 _ rfl rfl).mpr (.inl ?_)⟩
  · decide +kernel
  · decide +kernel
  · exact List.mem_of_getElem? (i := 7) rfl

/-! ### Deletes that cannot -/

/-- The registry fails to save once the capsule has gone, and its segment keeps the reference; in
the modular pipeline the entry of a segment fails to go once the segment has gone, and the capsule
stays. -/
theorem not_deleteCapsule_allOrRetryable :
    (¬ ∀ (P : Primitives) (km : Option (KeyManager P)) (w : World P) (id : CapsuleId)
      (f : Failure Error) (e : Error) (v : Store P × Nat),
      Life Command.Unsaturated (World.empty km) w → (w.cap id).isSome →
      (WritePipeline.deleteCapsule id).run (StoreOp.exec.failing f) (w.store, 0) = (.error e, v) →
      AllOrRepairable (nativeDeletes P) id w.store v.1) ∧
    (¬ ∀ (parts : Parts) (s : InMemory) (id : CapsuleId) (f : Failure Error) (e : Error)
      (v : InMemory × Nat), ModularRun s → (s.2.capsules.lookup id).isSome →
      (Pipeline.deleteCapsule id).run ((ModularOp.exec parts InMemoryBackend.storage).failing f)
        (s, 0) = (.error e, v) →
      AllOrRepairable (modularDeletes parts) id s v.1) ∧
    ¬ ∀ (P : Primitives) (km : Option (KeyManager P)) (parts : Parts) (r : Store P)
      (id : CapsuleId) (f : Failure Error) (e : Error) (v : Registered P × Nat),
      RegistryRun km r → (r.cap id).isSome →
      (Pipeline.deleteCapsule id).run ((ModularOp.execRegistry parts).failing f)
        ((r, .none), 0) = (.error e, v) →
      AllOrRepairable (registryDeletes P parts) id (r, .none) v.1 := by
  refine ⟨fun h => ?_, fun h => ?_, fun h => ?_⟩
  · have hdel := h .stored none threeCapsules ⟨2⟩ ⟨0, true, .msg "io"⟩ (.msg "io") _
      life_threeCapsules rfl rfl
    have htidy := WritePipeline.tidy_of_life life_threeCapsules
    obtain ⟨hv, hle⟩ := WritePipeline.deleteCapsule_stops ⟨2⟩ htidy rfl ⟨0, true, .msg "io"⟩ rfl
    rw [hv] at hdel
    rcases WritePipeline.of_repairable htidy rfl hle hdel with ⟨hmade, -⟩ | ⟨-, hall⟩
    · cases hmade
    · have hcall : StoreOp.decrementRefcount ⟨1⟩ ∈ (threeCapsules.store.deleteCalls ⟨2⟩).drop 1 :=
        List.mem_cons_self
      cases hall _ hcall
  · have hdel := h refusing memoryCapsule ⟨0⟩ ⟨3, false, .msg "io"⟩ (.msg "io") _
      modularRun_memoryCapsule rfl rfl
    have hstops := Pipeline.deleteCapsule_stops refusing ⟨0⟩ modularRun_memoryCapsule.owes rfl
      ⟨3, false, .msg "io"⟩ rfl
    have hlt : (Failure.mk 3 false (Error.msg "io")).made <
        (memoryCapsule.deleteCalls ⟨0⟩).length := by decide +kernel
    rw [if_pos hlt] at hstops
    exact (Pipeline.of_repairable rfl hstops hdel).2 ⟨0⟩ (List.mem_of_getElem? (i := 2) rfl)
  · have hdel := h .stored none refusing registeredCapsule ⟨0⟩ ⟨3, false, .msg "io"⟩ (.msg "io") _
      registryRun_registeredCapsule rfl rfl
    have hstops := Pipeline.deleteCapsule_stops_registry refusing ⟨0⟩ registeredCapsule .none
      ⟨3, false, .msg "io"⟩ rfl
    rcases Pipeline.of_repairable_registry rfl hstops hdel with hend | ⟨-, hnone⟩
    · have hlast := (Pipeline.modularDeleteCalls_take rfl _).2.1 hend
      exact absurd hlast (by decide +kernel)
    · exact hnone ⟨0⟩ (List.mem_of_getElem? (i := 2) rfl)

end Space

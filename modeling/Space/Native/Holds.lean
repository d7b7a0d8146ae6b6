import Space.Native.CrashSafe
import Space.Native.Faithful

/-!
# Native — Holds

What the capsules hold: the data they were written from.

* `World.exec_holds`: an operation changes it by creating or deleting a capsule only.
* `World.readings`: what they read as, which is the data as far as their policies take it back.
* `Wrote`: a write that succeeds adds its capsule, and one that fails adds none.
* `World.run_adds`: a capsule that was not there before holds the data of the program that made it.
-/

namespace Space
open Support Prog

variable {P : Primitives} {w w' : World P} {data : Bytes} {policy : Policy}

/-- What the live capsules were written from. -/
def World.holds (w : World P) (id : CapsuleId) : Option Bytes :=
  (w.cap id).map fun _ => w.ledger.produced id

theorem World.holds_eq_some {id : CapsuleId} :
    w.holds id = some data ↔ (∃ c, w.cap id = some c) ∧ w.ledger.produced id = data := by
  unfold World.holds
  rw [Option.map_eq_some_iff]
  exact ⟨fun ⟨c, hc, e⟩ => ⟨⟨c, hc⟩, e⟩, fun ⟨⟨c, hc⟩, e⟩ => ⟨c, hc, e⟩⟩

theorem World.holds_congr (hc : w'.capsules = w.capsules)
    (hp : w'.ledger.produced = w.ledger.produced) : w'.holds = w.holds := by
  have h : ∀ w : World P,
      w.holds = fun id => (w.capsules id).map fun _ => w.ledger.produced id := by
    intro w
    funext id
    unfold World.holds World.capsules
    rw [Option.map_map]
    rfl
  rw [h, h, hc, hp]

theorem World.holds_created (w : World P) (data : Bytes) (c : Capsule) :
    (w.created data c).holds = Function.update w.holds c.id (some data) := by
  funext id
  unfold World.holds
  rw [World.cap_created]
  by_cases hid : id = c.id
  · subst hid
    rw [if_pos rfl, Function.update_self]
    exact congrArg some (Function.update_self ..)
  · rw [if_neg hid, Function.update_of_ne hid]
    exact congrArg (fun d => (w.cap id).map fun _ => d) (Function.update_of_ne hid ..)

theorem World.holds_deleted (w : World P) (id : CapsuleId) :
    (w.deleted id).holds = Function.update w.holds id none := by
  funext k
  show ((w.store.registry.capsules.erase id).lookup k).map _ = _
  rw [Table.lookup_erase]
  by_cases hk : k = id
  · subst hk
    rw [if_pos rfl, Function.update_self]
    rfl
  · rw [if_neg hk, Function.update_of_ne hk]
    rfl

theorem World.exec_produced (data : Bytes) (o : StoreOp) (w : World P) (h : o.Keeps) :
    (World.exec data o w).2.ledger.produced = w.ledger.produced := by
  show (w.ledger.record data o (o.exec w.store).1).produced = _
  cases o with
  | createCapsuleWithSegments => exact absurd trivial h
  | append x d => cases (StoreOp.append x d).exec w.store |>.1 <;> rfl
  | commit t =>
      cases (StoreOp.commit t).exec w.store |>.1 with
      | error e => rfl
      | ok t' =>
          show (if t.finalized = true then w.ledger else _).produced = _
          split <;> rfl
  | _ => rfl

theorem World.exec_holds (data : Bytes) (o : StoreOp) (w : World P) (h : o.Keeps) :
    (World.exec data o w).2.holds = w.holds :=
  World.holds_congr (World.exec_capsules data o w h) (World.exec_produced data o w h)

theorem run_keeps_holds {α : Type} {p : Native α} (hp : p.Uses StoreOp.Keeps) :
    (p.run (World.exec data) w).2.holds = w.holds :=
  run_uses (A := StoreOp.ChangesCapsules) (World.exec_holds data) hp

/-- What a reader is told of a capsule, by identifier. -/
def World.readings (w : World P) (id : CapsuleId) : Option Bytes :=
  (w.capsules id).map fun c => c.policy.readsBack P (w.ledger.produced id)

namespace World
variable {id : CapsuleId} {c : Capsule}

theorem readings_of_cap (h : w.cap id = some c) :
    w.readings id = some (c.policy.readsBack P (w.ledger.produced id)) := by
  rw [readings, capsules, h]
  rfl

theorem readings_of_none (h : w.cap id = none) : w.readings id = none := by
  rw [readings, capsules, h]
  rfl

theorem readings_created (w : World P) (data : Bytes) (c : Capsule) (id : CapsuleId) :
    (w.created data c).readings id =
      if id = c.id then some (c.policy.readsBack P data) else w.readings id := by
  have hcap := w.cap_created data c id
  split
  · next e =>
      subst e
      rw [readings_of_cap (hcap.trans (if_pos rfl))]
      exact congrArg (fun d => some (c.policy.readsBack P d)) (Function.update_self ..)
  · next e =>
      have hproduced : (w.created data c).ledger.produced id = w.ledger.produced id :=
        Function.update_of_ne e ..
      rw [readings, readings, capsules, capsules, hcap, if_neg e, hproduced]

theorem readings_deleted (w : World P) (id id' : CapsuleId) :
    (w.deleted id).readings id' = if id' = id then none else w.readings id' := by
  have hcap : (w.deleted id).cap id' = if id' = id then none else w.cap id' :=
    Table.lookup_erase _ _ _
  rw [readings, readings, capsules, capsules, hcap]
  split <;> rfl

theorem readings_congr (hc : w'.capsules = w.capsules)
    (hp : w'.ledger.produced = w.ledger.produced) : w'.readings = w.readings := by
  funext id
  rw [readings, readings, hc, hp]

theorem exec_readings (data : Bytes) (o : StoreOp) (w : World P) (h : o.Keeps) :
    (World.exec data o w).2.readings = w.readings :=
  readings_congr (World.exec_capsules data o w h) (World.exec_produced data o w h)

end World

/-- A write that succeeds adds its capsule; one that fails adds none. -/
def Wrote (w : World P) (id : CapsuleId) (data : Bytes) : Except Error CapsuleId × World P → Prop
  | (.ok id', w') => id' = id ∧ w.holds id = none ∧
      w'.holds = Function.update w.holds id (some data)
  | (.error _, w') => w'.holds = w.holds

/-- What changes no capsule may come first. -/
theorem wrote_bind {α : Type} {p : Native α} {f : α → Native CapsuleId} {id : CapsuleId}
    (h : w'.holds = w.holds) (hp : p.Uses StoreOp.Keeps)
    (hf : ∀ a w'', w''.holds = w.holds → Wrote w id data ((f a).run (World.exec data) w'')) :
    Wrote w id data ((p >>= f).run (World.exec data) w') := by
  have hk : (p.run (World.exec data) w').2.holds = w.holds := (run_keeps_holds hp).trans h
  rw [run_bind]
  generalize p.run (World.exec data) w' = r at hk
  obtain ⟨r | a, w''⟩ := r
  · exact hk
  · exact hf a w'' hk

theorem wrote_create {id : CapsuleId} {size : Nat} {segments : List SegmentId}
    (h : w'.holds = w.holds) :
    Wrote w id data ((do
      (Native.createCapsuleWithSegments id size segments policy).mapError
        (mapRegistryError "create_capsule_with_segments")
      return id : Native CapsuleId).run (World.exec data) w') := by
  have hrun : (Native.createCapsuleWithSegments id size segments policy).run
      (World.exec data) w' =
      World.exec data (.createCapsuleWithSegments id size segments policy) w' :=
    run_perform _ _ _
  rw [run_bind, run_mapError, hrun]
  cases hc : w'.cap id with
  | some c =>
      obtain ⟨e, he⟩ : ∃ e, World.exec data
          (.createCapsuleWithSegments id size segments policy) w' = (.error e, w') :=
        World.exec_create_some hc
      rw [he]
      exact h
  | none =>
      rw [World.exec_create hc]
      refine ⟨rfl, ?_, (World.holds_created ..).trans (by rw [h])⟩
      rw [← h, World.holds, hc]
      rfl

/-- A write of either profile, which leaves `note` in the ledger. -/
theorem wrote_writeCapsuleHybrid {mlkem : Option MlkemKeyManager} {coins : Nat → Bytes}
    (w : World P) (id : CapsuleId) (data note : Bytes) :
    Wrote w id note ((WritePipeline.writeCapsuleHybrid P mlkem coins id data policy).run
      (World.exec note) w) := by
  refine wrote_bind rfl (uses_foldlM (fun _ _ => uses_writeChunkHybrid) _ _) fun st w' h => ?_
  show Wrote w id note (Prog.run _ (if 0 < st.dedupStats.bytesSaved then _ else _) w')
  split
  · exact wrote_bind h (uses_mapError.mpr (uses_op not_false)) fun _ w'' h' => wrote_create h'
  · exact wrote_create h

theorem wrote_writeCapsule (w : World P) (id : CapsuleId) (data : Bytes) :
    Wrote w id data ((WritePipeline.writeCapsule P id data).run (World.exec data) w) := by
  have heq : WritePipeline.writeCapsuleHybrid P none (fun _ => []) id data {} =
      WritePipeline.writeCapsule P id data := by
    rw [WritePipeline.writeCapsuleHybrid_unwrapped WritePipeline.not_wrapsKeys_none]
    rfl
  rw [← heq]
  exact wrote_writeCapsuleHybrid w id data data

/-- What is left to a deletion, once the capsule has been taken away, changes no capsule. -/
theorem run_deleteCapsule_cases (w : World P) (id : CapsuleId) :
    w.cap id = none ∧ ((WritePipeline.deleteCapsule id).run (World.exec data) w).2 = w ∨
      ∃ p : Native Unit, p.Uses StoreOp.Keeps ∧
        (WritePipeline.deleteCapsule id).run (World.exec data) w =
          p.run (World.exec data) (w.deleted id) := by
  have hrun : (Native.registryDeleteCapsule id).run (World.exec data) w =
      World.exec data (.deleteCapsule id) w := run_perform _ _ _
  unfold WritePipeline.deleteCapsule
  rw [run_bind, hrun]
  cases hc : w.cap id with
  | none =>
      obtain ⟨e, he⟩ : ∃ e, World.exec data (.deleteCapsule id) w = (.error e, w) :=
        World.exec_delete_none hc
      rw [he]
      exact .inl ⟨rfl, rfl⟩
  | some c =>
      rw [World.exec_delete hc]
      exact .inr ⟨_, uses_foldlM (fun _ x =>
        uses_releaseSegment not_false (fun _ => not_false) not_false) _ _, rfl⟩

/-- Deleting a capsule takes it away, if it is there. -/
theorem run_deleteCapsule_holds (w : World P) (id : CapsuleId) :
    ((WritePipeline.deleteCapsule id).run (World.exec data) w).2.holds =
      Function.update w.holds id none := by
  rcases @run_deleteCapsule_cases P data w id with ⟨hc, he⟩ | ⟨p, hp, he⟩
  · rw [he]
    refine (Function.update_eq_self_iff.mpr ?_).symm
    rw [World.holds, hc]
    rfl
  · rw [he]
    exact (run_keeps_holds hp).trans (World.holds_deleted w id)

theorem run_deleteCapsule_readings (w : World P) (id k : CapsuleId) :
    ((WritePipeline.deleteCapsule id).run (World.exec data) w).2.readings k =
      if k = id then none else w.readings k := by
  rcases @run_deleteCapsule_cases P data w id with ⟨hc, he⟩ | ⟨p, hp, he⟩
  · rw [he]
    split
    · next e => exact e ▸ World.readings_of_none hc
    · rfl
  · have hkeep : (p.run (World.exec data) (w.deleted id)).2.readings = (w.deleted id).readings :=
      run_uses (A := StoreOp.ChangesCapsules) (World.exec_readings data) hp
    rw [he, hkeep]
    exact World.readings_deleted w id k

/-! ### What a program adds -/

/-- A capsule holds what it held in `w₀`, or `data`. -/
def World.Adds (w₀ : World P) (data : Bytes) (w : World P) : Prop :=
  ∀ id bytes, w.holds id = some bytes → w₀.holds id = some bytes ∨ bytes = data

theorem World.Adds.exec {w₀ : World P} (o : StoreOp) (h : w₀.Adds data w) :
    w₀.Adds data (World.exec data o w).2 := by
  intro id bytes hid
  by_cases hk : o.Keeps
  · rw [World.exec_holds data o w hk] at hid
    exact h id bytes hid
  · cases o with
    | createCapsuleWithSegments id' size segments policy =>
        cases hc : w.cap id' with
        | some capsule =>
            obtain ⟨e, he⟩ : ∃ e, World.exec data
                (.createCapsuleWithSegments id' size segments policy) w = (.error e, w) :=
              World.exec_create_some hc
            rw [he] at hid
            exact h id bytes hid
        | none =>
            rw [World.exec_create hc, World.holds_created] at hid
            by_cases e : id = id'
            · subst e
              rw [Function.update_self] at hid
              exact .inr (Option.some.inj hid).symm
            · rw [Function.update_of_ne e] at hid
              exact h id bytes hid
    | deleteCapsule id' =>
        cases hc : w.cap id' with
        | none =>
            obtain ⟨e, he⟩ : ∃ e, World.exec data (.deleteCapsule id') w = (.error e, w) :=
              World.exec_delete_none hc
            rw [he] at hid
            exact h id bytes hid
        | some capsule =>
            rw [World.exec_delete hc, World.holds_deleted] at hid
            by_cases e : id = id'
            · subst e
              rw [Function.update_self] at hid
              cases hid
            · rw [Function.update_of_ne e] at hid
              exact h id bytes hid
    | _ => exact absurd not_false hk

theorem World.Adds.run {α : Type} (p : Native α) (w : World P) :
    w.Adds data (p.run (World.exec data) w).2 :=
  Prog.run_keeps (I := w.Adds data) (fun o _ _ h => h.exec o) (uses_true p) fun _ _ h => .inl h

theorem World.Adds.visits {α : Type} {p : Native α} {o : StoreOp}
    (hv : Visits (World.exec data).moves p w o w') : w.Adds data w' :=
  visits_keeps (I := w.Adds data) (fun o _ _ h => h.exec o) (uses_true p) hv fun _ _ h => .inl h

/-- **A new capsule** holds the data of the program that made it. -/
theorem World.run_adds {α : Type} (p : Native α) (w : World P) {id : CapsuleId} {bytes : Bytes}
    (hnew : w.holds id = none) (hid : (p.run (World.exec data) w).2.holds id = some bytes) :
    bytes = data := by
  refine (World.Adds.run p w id bytes hid).resolve_left fun hold => ?_
  rw [hnew] at hold
  cases hold

end Space

import Space.Native.Holds

/-!
# Native — Sizes

A capsule is entered with the size of the data it is written from.

* `World.Sized.exec`: so it stays, whatever the store does, if capsules are entered so.
* `Command.sizes`: every command does.
-/

namespace Space
open Support Prog

variable {P : Primitives} {w w' : World P} {data : Bytes}

/-- Every capsule has the size of the data it was written from. -/
def World.Sized (w : World P) : Prop :=
  ∀ id c, w.capsules id = some c → c.size = (w.ledger.produced id).length

/-- A capsule is entered with the size of `data`. -/
def StoreOp.Sizes (data : Bytes) : StoreOp → Prop
  | .createCapsuleWithSegments _ size _ _ => size = data.length
  | _ => True

namespace World.Sized

theorem congr (h : w.Sized) (hc : w'.capsules = w.capsules)
    (hp : w'.ledger.produced = w.ledger.produced) : w'.Sized := by
  intro id c e
  rw [hp]
  exact h id c (hc ▸ e)

theorem cap (h : w.Sized) {id : CapsuleId} {c : Capsule} (hc : w.cap id = some c) :
    c.size = (w.ledger.produced id).length :=
  h id c.undeduped (by rw [World.capsules, hc]; rfl)

theorem created (h : w.Sized) {c : Capsule} (hs : c.size = data.length) :
    (w.created data c).Sized := by
  intro id c' e
  obtain ⟨c'', hc, rfl⟩ := Option.map_eq_some_iff.mp e
  rw [World.cap_created] at hc
  by_cases hid : id = c.id
  · subst hid
    rw [if_pos rfl] at hc
    cases hc
    have e : (w.created data c).ledger.produced c.id = data := Function.update_self ..
    rw [e]
    exact hs
  · rw [if_neg hid] at hc
    have e : (w.created data c).ledger.produced id = w.ledger.produced id :=
      Function.update_of_ne hid ..
    rw [e]
    exact (h.cap hc : c''.size = _)

theorem deleted (h : w.Sized) (id : CapsuleId) : (w.deleted id).Sized := by
  intro k c e
  obtain ⟨c', hc, rfl⟩ := Option.map_eq_some_iff.mp e
  have hc' : w.cap k = some c' := (World.cap_deleted_eq_some.mp hc).2
  exact (h.cap hc' : c'.size = _)

theorem exec {o : StoreOp} (ho : o.Sizes data) (h : w.Sized) : (World.exec data o w).2.Sized := by
  by_cases hk : o.Keeps
  · exact h.congr (World.exec_capsules data o w hk) (World.exec_produced data o w hk)
  · cases o with
    | createCapsuleWithSegments id size segments policy =>
        cases hc : w.cap id with
        | some c =>
            obtain ⟨e, he⟩ : ∃ e, World.exec data
                (.createCapsuleWithSegments id size segments policy) w = (.error e, w) :=
              World.exec_create_some hc
            rw [he]
            exact h
        | none =>
            rw [World.exec_create hc]
            exact h.created ho
    | deleteCapsule id =>
        cases hc : w.cap id with
        | some c =>
            rw [World.exec_delete hc]
            exact h.deleted id
        | none =>
            obtain ⟨e, he⟩ : ∃ e, World.exec data (.deleteCapsule id) w = (.error e, w) :=
              World.exec_delete_none hc
            rw [he]
            exact h
    | _ => exact absurd not_false hk

theorem run {α : Type} {p : Native α} (hp : p.Uses (StoreOp.Sizes data)) (h : w.Sized) :
    (p.run (World.exec data) w).2.Sized :=
  Prog.run_keeps (fun _ _ => exec) hp h

theorem visits {α : Type} {p : Native α} {o : StoreOp} (hp : p.Uses (StoreOp.Sizes data))
    (hv : Visits (World.exec data).moves p w o w') (h : w.Sized) : w'.Sized :=
  visits_keeps (fun _ _ => exec) hp hv h

theorem crash {o : StoreOp} {w'' : World P} (h : w.Sized) (hc : World.Crash o w w'') :
    w''.Sized := by
  cases hc <;> exact h

end World.Sized

theorem StoreOp.Keeps.sizes {o : StoreOp} (h : o.Keeps) : o.Sizes data := by
  cases o with
  | createCapsuleWithSegments => exact absurd trivial h
  | _ => trivial

/-! ### What the commands use

Beside operations that keep the capsules, a write creates one of the size of its data, and a delete
deletes one. -/

section
variable {A : StoreOp → Prop} {id : CapsuleId} {policy : Policy}

theorem uses_writeCapsuleWithPolicy (hk : ∀ o, StoreOp.Keeps o → A o)
    (hc : ∀ segments, A (.createCapsuleWithSegments id data.length segments policy)) :
    (WritePipeline.writeCapsuleWithPolicy P id data policy).Uses A := by
  have hcreate : ∀ segments, ((Native.createCapsuleWithSegments id data.length segments
      policy).mapError (mapRegistryError "create_capsule_with_segments")).Uses A :=
    fun segments => uses_mapError.mpr (uses_op (hc segments))
  refine uses_bind (uses_foldlM (fun _ _ => uses_mono hk uses_writeChunk) _ _) fun st => ?_
  show Prog.Uses _ (if 0 < st.dedupStats.bytesSaved then _ else _)
  split
  · refine uses_bind (uses_mapError.mpr (uses_op (hk _ not_false))) fun _ => ?_
    exact uses_bind (hcreate _) fun _ => trivial
  · exact uses_bind (hcreate _) fun _ => trivial

theorem uses_writeAsync (hk : ∀ o, StoreOp.Keeps o → A o)
    (hc : ∀ segments, A (.createCapsuleWithSegments id data.length segments policy)) {limit : Nat}
    {arrivals : Order (Bytes × Nat)} :
    (WritePipeline.writeCapsuleWithPolicyAsync P limit arrivals id data policy).Uses A := by
  show Prog.Uses _ (if (chunks SEGMENT_SIZE data).zipIdx.length = 0 then _ else _)
  split
  · next h0 =>
      have hdata : data = [] := by
        rw [← chunks_flatten SEGMENT_SIZE_pos data,
          List.zipIdx_eq_nil_iff.mp (List.length_eq_zero_iff.mp h0)]
        rfl
      subst hdata
      exact uses_bind (uses_mapError.mpr (uses_op (hc []))) fun _ => trivial
  · refine uses_bind (uses_op (hk _ not_false)) fun t => ?_
    split
    · exact uses_bind (uses_discard (uses_op (hk _ not_false))) fun _ => trivial
    · refine uses_bind (uses_foldlM (fun _ _ => uses_mono hk uses_arrive) _ _) fun st => ?_
      have hend : WritePipeline.Finishes A id data.length policy st :=
        ⟨fun _ _ => hk _ not_false, fun _ _ => hk _ not_false, fun _ _ => hk _ not_false,
          fun _ _ => hk _ not_false, hc _, hk _ not_false⟩
      exact hend.uses_finishAsync (hk _ not_false) (hk _ not_false)

theorem uses_delete (hk : ∀ o, StoreOp.Keeps o → A o) (hd : A (.deleteCapsule id)) :
    (WritePipeline.deleteCapsule id).Uses A :=
  uses_bind (uses_op hd) fun _ => uses_foldlM (fun _ _ =>
    uses_releaseSegment (hk _ not_false) (fun _ => hk _ not_false) (hk _ not_false)) _ _

end

theorem sizes_writeCapsule {id : CapsuleId} :
    (WritePipeline.writeCapsule P id data).Uses (StoreOp.Sizes data) :=
  uses_writeCapsuleWithPolicy (fun _ h => h.sizes) fun _ => rfl

theorem sizes_deleteCapsule {id : CapsuleId} :
    (WritePipeline.deleteCapsule id).Uses (StoreOp.Sizes data) :=
  uses_delete (fun _ h => h.sizes) trivial

/-- **A command enters a capsule with the size of its data.** -/
theorem Command.sizes (c : Command) : (c.program P).Uses (StoreOp.Sizes c.data) := by
  cases c with
  | write id data policy =>
      exact uses_discard (uses_writeCapsuleWithPolicy (fun _ h => h.sizes) fun _ => rfl)
  | writeAsync limit arrivals id data policy =>
      exact uses_discard (uses_writeAsync (fun _ h => h.sizes) fun _ => rfl)
  | delete id => exact sizes_deleteCapsule
  | collect ord =>
      exact uses_discard (uses_sweep (fun _ => trivial) (fun _ _ => trivial)
        (fun _ => trivial) ord)

end Space

import Space.Native.Tamper

/-!
# Native — Drawn

The content store names segments by identifiers that were drawn, in memory and in the metadata
file, whatever happens to a pipeline.  A thread owns the identifiers it has drawn, and a hash is
registered only for one of these.

* `drawing`: the protocol.
* `History.drawn`: its invariant holds in every state of a history.
-/

namespace Space
open Support Prog

variable {P : Primitives} {K : UInt32 → XtsKeyPair} {w w' : World P} {policy : Policy}
  {g : Multiset SegmentId}

/-! ### The invariant -/

/-- The content store names segments by identifiers that were drawn. -/
def RegistryState.Drawn (state : RegistryState) : Prop :=
  ∀ h x, state.contentStore.lookup h = some x → x.val < state.nextSegmentId

/-- The same, in memory and on file. -/
structure CapsuleRegistry.Drawn (reg : CapsuleRegistry) : Prop where
  memory : reg.toRegistryState.Drawn
  file : ∀ state, reg.saved = some state → state.Drawn

namespace CapsuleRegistry
variable {reg reg' : CapsuleRegistry}

theorem Drawn.save (h : reg.toRegistryState.Drawn) : reg.save.Drawn :=
  ⟨h, fun state hs => by cases hs; exact h⟩

/-- Fewer hashes. -/
theorem Drawn.deregister (h : reg.Drawn) (hash : ContentHash) (x : SegmentId) :
    (reg.deregisterContent hash x).2.Drawn := by
  unfold deregisterContent
  split
  · exact .save fun k y hy => h.memory k y (Table.lookup_erase_eq_some.mp hy).2
  · exact h

theorem Drawn.reopen (h : reg.Drawn) : reg.reopen.Drawn := by
  unfold CapsuleRegistry.reopen
  cases hs : reg.saved with
  | none =>
      refine ⟨fun k x hy => ?_, fun _ hy => by cases hy⟩
      have hy : (∅ : Table ContentHash SegmentId).lookup k = some x := hy
      cases hy
  | some state =>
      refine ⟨h.file state hs, fun state' hs' => ?_⟩
      cases hs'
      exact h.file state hs

end CapsuleRegistry

/-! ### The protocol -/

namespace Draws

/-- A hash is registered for an identifier that was drawn. -/
def may : StoreOp → Multiset SegmentId → Prop
  | .registerContent _ x, g => x ∈ g
  | _, _ => True

/-- A thread owns what it has drawn. -/
def moves : Moves StoreSig Error (Multiset SegmentId)
  | .allocSegment, g, r, g' => ∃ x, r = .ok x ∧ g' = x ::ₘ g
  | _, g, _, g' => g' = g

/-- What is owned was drawn. -/
structure Inv (w : World P) (g : Multiset SegmentId) : Prop where
  drawn : w.store.registry.Drawn
  owned : ∀ x ∈ g, x.val < w.next

end Draws

/-- The operation changes the content store, or draws an identifier. -/
def StoreOp.Registers : StoreOp → Prop
  | .allocSegment => True
  | .registerContent _ _ => True
  | .deregisterContent _ _ => True
  | .addDedupedBytes _ _ => True
  | .deleteCapsule _ => True
  | .createCapsuleWithSegments _ _ _ _ => True
  | _ => False

/-- No other operation changes the registry. -/
theorem World.exec_registry (data : Bytes) {o : StoreOp} (h : ¬ o.Registers) (w : World P) :
    (World.exec data o w).2.store.registry = w.store.registry := by
  cases o with
  | currentKey => exact (Store.currentKey_snd w.store).1
  | getKey v =>
      show (w.store.getKey v).2.registry = _
      unfold Store.getKey
      split
      · rfl
      · split <;> rfl
  | allocSegment => exact absurd trivial h
  | registerContent hash x => exact absurd trivial h
  | deregisterContent hash x => exact absurd trivial h
  | addDedupedBytes id n => exact absurd trivial h
  | deleteCapsule id => exact absurd trivial h
  | createCapsuleWithSegments id size l policy => exact absurd trivial h
  | _ => rfl

namespace Draws

theorem moves_same {o : StoreOp} {r : Except Error o.Res} (h : ¬ o.Registers) :
    moves o g r g := by
  cases o <;> first | rfl | exact absurd trivial h

/-- **One operation.** -/
theorem step {data : Bytes} {o : StoreOp} {f : Multiset SegmentId} (h : Inv w (g + f))
    (hm : may o g) : ∃ g', moves o g (World.exec data o w).1 g' ∧
      Inv (World.exec data o w).2 (g' + f) := by
  by_cases ho : o.Registers
  case neg =>
    have hreg := World.exec_registry data ho w
    refine ⟨g, moves_same ho, ?_, fun y hy => ?_⟩
    · rw [hreg]
      exact h.drawn
    · unfold World.next
      rw [hreg]
      exact h.owned y hy
  have hmem := h.drawn.memory
  cases o with
  | allocSegment =>
      refine ⟨⟨w.next⟩ ::ₘ g, ⟨_, rfl, rfl⟩, ⟨fun k x hx => ?_, h.drawn.file⟩, fun x hx => ?_⟩
      · exact (hmem k x hx).trans (Nat.lt_succ_self _)
      · rw [Multiset.cons_add] at hx
        rcases Multiset.mem_cons.mp hx with rfl | hx
        · exact Nat.lt_succ_self _
        · exact (h.owned x hx).trans (Nat.lt_succ_self _)
  | registerContent hash x =>
      refine ⟨g, rfl, .save fun k y hy => ?_, h.owned⟩
      rcases Table.lookup_insert_eq_some.mp hy with ⟨-, rfl⟩ | ⟨-, hy⟩
      · exact h.owned _ (Multiset.mem_add.mpr (.inl hm))
      · exact hmem k y hy
  | deregisterContent hash x =>
      refine ⟨g, rfl, h.drawn.deregister hash x, fun y hy => ?_⟩
      exact (h.owned y hy).trans_eq
        (w.store.registry.deregisterContent_nextSegmentId hash x).symm
  | addDedupedBytes id n =>
      have hsame : (w.store.registry.addDedupedBytes id n).contentStore =
            w.store.registry.contentStore ∧
          (w.store.registry.addDedupedBytes id n).nextSegmentId = w.next ∧
          (w.store.registry.addDedupedBytes id n).saved = w.store.registry.saved := by
        unfold CapsuleRegistry.addDedupedBytes
        split <;> exact ⟨rfl, rfl, rfl⟩
      obtain ⟨h₁, h₂, h₃⟩ := hsame
      refine ⟨g, rfl, ⟨fun k x hx => ?_, fun state hs => h.drawn.file state (h₃ ▸ hs)⟩,
        fun y hy => (h.owned y hy).trans_eq h₂.symm⟩
      refine (hmem k x ?_).trans_eq h₂.symm
      rw [← h₁]
      exact hx
  | deleteCapsule id =>
      refine ⟨g, rfl, ?_, fun y hy =>
        (h.owned y hy).trans_eq (w.store.registry.deleteCapsule_nextSegmentId id).symm⟩
      show (w.store.registry.deleteCapsule id).2.Drawn
      unfold CapsuleRegistry.deleteCapsule
      split
      · exact h.drawn
      · exact .save hmem
  | createCapsuleWithSegments id size l policy =>
      refine ⟨g, rfl, ?_, fun y hy => (h.owned y hy).trans_eq ?_⟩
      · show (w.store.registry.createCapsuleWithSegments id size l policy).2.Drawn
        unfold CapsuleRegistry.createCapsuleWithSegments
        split
        · exact h.drawn
        · exact .save hmem
      · show _ = (w.store.registry.createCapsuleWithSegments id size l policy).2.nextSegmentId
        unfold CapsuleRegistry.createCapsuleWithSegments
        split <;> rfl
  | _ => exact ho.elim

end Draws

/-- Threads that register hashes for what they have drawn. -/
def drawing (P : Primitives) (data : Bytes) :
    Protocol StoreSig Error (World P) (Multiset SegmentId) where
  exec := World.exec data
  ok := fun _ _ => True
  may := Draws.may
  moves := Draws.moves
  Inv := Draws.Inv
  frame := fun _ => True
  step := fun _ hI hm _ => Draws.step hI hm

/-! ### The programs -/

namespace Draws
open WritePipeline

/-- The operation registers no hash. -/
def Free : StoreOp → Prop
  | .registerContent _ _ => False
  | _ => True

theorem Free.may {o : StoreOp} (h : Free o) : may o g := by
  cases o <;> first | exact h.elim | trivial

theorem moves_le {o : StoreOp} {r : Except Error o.Res} {g' : Multiset SegmentId}
    (h : moves o g r g') : g ≤ g' := by
  cases o with
  | allocSegment =>
      obtain ⟨x, -, rfl⟩ := h
      exact Multiset.le_cons_self _ _
  | _ => exact le_of_eq (Eq.symm h)

/-- A program that registers no hash. -/
theorem wp_free {α : Type} {p : Native α} (hp : p.Uses Free) :
    p.wp moves may (fun _ g' => g ≤ g') g := by
  induction p generalizing g with
  | ret a => exact le_refl _
  | fail e => exact le_refl _
  | call o k ih =>
      refine ⟨hp.1.may, fun r g' hm => wp_mono (ih r (hp.2 r)) fun _ _ hle => ?_⟩
      exact (moves_le hm).trans hle

/-- One operation that registers no hash. -/
theorem wp_freeOp {o : StoreOp} (ho : Free o) {Q : Except Error o.Res → Multiset SegmentId → Prop}
    (h : ∀ r g', moves o g r g' → Q r g') :
    (perform (S := StoreSig) o).wp moves may Q g := wp_perform.mpr ⟨ho.may, h⟩

/-- A hash is registered for an identifier that was drawn. -/
theorem wp_register {hash : ContentHash} {x : SegmentId} (hx : x ∈ g) :
    (Native.registerContent hash x).wp moves may (fun _ g' => g' = g) g :=
  ⟨hx, fun r g' hm => by cases r <;> exact hm⟩

theorem wp_storeNew_drawn {payload : Bytes} {r : CompressionResult} {hash : Option ContentHash}
    {m : Option EncryptionMetadata} :
    (storeNew payload r hash m).wp moves may (fun r g' => ∀ x, r = .ok x → x ∈ g') g := by
  unfold storeNew
  refine wp_bind.mpr (wp_freeOp (o := .allocSegment) trivial fun r g₁ hm => ?_)
  obtain ⟨x, rfl, rfl⟩ := hm
  refine wp_bind.mpr (wp_mapError.mpr (wp_freeOp (o := .append x payload) trivial
    fun r g₂ hm => ?_))
  obtain rfl : g₂ = x ::ₘ g := hm
  cases r with
  | error e => exact fun _ h => by cases h
  | ok s =>
      refine wp_bind.mpr (wp_mapError.mpr (wp_freeOp (o := .updateSegmentMetadata x _) trivial
        fun r g₃ hm => ?_))
      obtain rfl : g₃ = x ::ₘ g := hm
      cases r with
      | error e => exact fun _ h => by cases h
      | ok u =>
          rintro y ⟨⟩
          exact Multiset.mem_cons_self x g

theorem wp_writeChunk_drawn {st : WriteState} {chunk : Bytes × Nat} :
    (writeChunk P policy st chunk).wp moves may (fun _ _ => True) g := by
  unfold writeChunk
  refine wp_bind.mpr (wp_mono (wp_free uses_lift) fun r g₁ _ => ?_)
  cases r with
  | error e => trivial
  | ok vr =>
  refine wp_bind.mpr (wp_mono (wp_free (uses_encryptionKey trivial)) fun r g₂ _ => ?_)
  cases r with
  | error e => trivial
  | ok key =>
  refine wp_bind.mpr (wp_mono (wp_free uses_lift) fun r g₃ _ => ?_)
  cases r with
  | error e => trivial
  | ok pm =>
  show Prog.wp _ _ _ (if policy.dedupe = true then _ else _) _
  split
  · refine wp_bind.mpr (wp_freeOp (o := .lookupContent _) trivial fun r g₄ _ => ?_)
    cases r with
    | error e => trivial
    | ok found =>
        cases found with
        | some x =>
            refine wp_mono (wp_free (uses_bind (uses_mapError.mpr (uses_op trivial)) fun _ => ?_))
              fun _ _ _ => trivial
            trivial
        | none =>
            refine wp_bind.mpr (wp_mono wp_storeNew_drawn fun r g₅ hr => ?_)
            cases r with
            | error e => trivial
            | ok x =>
                refine wp_bind.mpr (wp_mapError.mpr (wp_mono (wp_register (hr x rfl))
                  fun r _ _ => ?_))
                cases r <;> trivial
  · refine wp_bind.mpr (wp_mono wp_storeNew_drawn fun r g₄ _ => ?_)
    cases r <;> trivial

theorem wp_writeCapsule_drawn {id : CapsuleId} {data : Bytes} :
    (writeCapsuleWithPolicy P id data policy).wp moves may (fun _ _ => True) g := by
  unfold writeCapsuleWithPolicy
  refine wp_bind.mpr (wp_foldlM (fun _ _ _ => True) ?_ ?_ _ _ _ trivial)
  · intro chunk rest st g' _
    refine wp_mono wp_writeChunk_drawn fun r _ _ => ?_
    cases r <;> trivial
  · intro st g' _
    have hcreate : (do
        (Native.createCapsuleWithSegments id data.length st.segmentIds policy).mapError
          (mapRegistryError "create_capsule_with_segments")
        return id : Native CapsuleId).Uses Free :=
      uses_bind (uses_mapError.mpr (uses_op trivial)) fun _ => trivial
    have hrest : Prog.Uses Free (if 0 < st.dedupStats.bytesSaved then (do
        (Native.addDedupedBytes id st.dedupStats.bytesSaved).mapError
          (mapRegistryError "add_deduped_bytes")
        (Native.createCapsuleWithSegments id data.length st.segmentIds policy).mapError
          (mapRegistryError "create_capsule_with_segments")
        return id : Native CapsuleId)
        else (do
        (Native.createCapsuleWithSegments id data.length st.segmentIds policy).mapError
          (mapRegistryError "create_capsule_with_segments")
        return id : Native CapsuleId)) := by
      split
      · exact uses_bind (uses_mapError.mpr (uses_op trivial)) fun _ => hcreate
      · exact hcreate
    exact wp_mono (wp_free hrest) fun _ _ _ => trivial

/-! The coordinator owns what it is to register. -/

theorem wp_stageNew_drawn {prepared : SegmentPrepared} {t : NvramTransaction}
    {staged : Table ContentHash SegmentId} :
    (stageNew policy prepared t staged).wp moves may
      (fun r g' => g ≤ g' ∧ ∀ o, r = .ok o → o.1.segId ∈ g') g := by
  unfold stageNew
  refine wp_bind.mpr (wp_freeOp (o := .allocSegment) trivial fun r g₁ hm => ?_)
  obtain ⟨x, rfl, rfl⟩ := hm
  have hle := Multiset.le_cons_self g x
  refine wp_bind.mpr (wp_freeOp (o := .appendSegment t x _) trivial fun r g₂ hm => ?_)
  obtain rfl : g₂ = x ::ₘ g := hm
  cases r with
  | error e => exact ⟨hle, fun _ h => by cases h⟩
  | ok st =>
      refine wp_bind.mpr (wp_lift.mpr ?_)
      generalize st.2.setSegmentMetadata x _ = r
      cases r with
      | error e => exact ⟨hle, fun _ h => by cases h⟩
      | ok t' =>
          refine ⟨hle, ?_⟩
          rintro o ⟨⟩
          exact Multiset.mem_cons_self x g

theorem wp_commitSegment_drawn {prepared : SegmentPrepared} {t : NvramTransaction}
    {staged : Table ContentHash SegmentId} :
    (commitSegment policy prepared t staged).wp moves may (fun r g' => g ≤ g' ∧
      ∀ o, r = .ok o → o.1.disposition = .newSegment → o.1.segId ∈ g') g := by
  have hnew : (stageNew policy prepared t staged).wp moves may (fun r g' => g ≤ g' ∧
      ∀ o, r = .ok o → o.1.disposition = .newSegment → o.1.segId ∈ g') g :=
    wp_mono wp_stageNew_drawn fun _ _ h => ⟨h.1, fun o ho _ => h.2 o ho⟩
  unfold commitSegment
  split
  · split
    · split
      · exact ⟨le_refl _, fun _ h => by cases h⟩
      · refine wp_bind.mpr (wp_mono (wp_free uses_lift) fun r g₁ hle => ?_)
        cases r with
        | error e => exact ⟨hle, fun _ h => by cases h⟩
        | ok t' =>
            refine ⟨hle, ?_⟩
            rintro o ⟨⟩ k
            cases k
    · refine wp_bind.mpr (wp_freeOp (o := .lookupContent _) trivial fun r g₁ hm => ?_)
      obtain rfl : g₁ = g := hm
      cases r with
      | error e => exact ⟨le_refl _, fun _ h => by cases h⟩
      | ok found =>
          cases found with
          | none => exact hnew
          | some x =>
              refine wp_bind.mpr (wp_freeOp (o := .incrementRefcount x) trivial
                fun r g₂ hm => ?_)
              obtain rfl : g₂ = g₁ := hm
              cases r with
              | error e => exact ⟨le_refl _, fun _ h => by cases h⟩
              | ok s =>
                  refine ⟨le_refl _, ?_⟩
                  rintro o ⟨⟩ k
                  cases k
  · exact hnew

/-- The coordinator has drawn what it is to register. -/
def Coordinates (st : AsyncState) (g : Multiset SegmentId) : Prop :=
  ∀ r ∈ st.pendingRegistrations, r.2 ∈ g

theorem Coordinates.mono {st : AsyncState} {g' : Multiset SegmentId} (h : Coordinates st g)
    (hle : g ≤ g') : Coordinates st g' := fun r hr => Multiset.mem_of_le hle (h r hr)

theorem Coordinates.committed {st : AsyncState} {g' : Multiset SegmentId} {o : CommitOutcome}
    {t : NvramTransaction} {staged : Table ContentHash SegmentId} (h : Coordinates st g)
    (hle : g ≤ g') (ho : o.disposition = .newSegment → o.segId ∈ g') :
    Coordinates (st.committed o t staged) g' := by
  intro r hr
  unfold AsyncState.committed at hr
  dsimp only at hr
  split at hr
  · next hd _ =>
      rcases List.mem_append.mp hr with hr | hr
      · exact h.mono hle r hr
      · obtain rfl := List.mem_singleton.mp hr
        exact ho hd
  · exact h.mono hle r hr

theorem wp_drain_drawn : ∀ (n : Nat) (st : AsyncState) (g : Multiset SegmentId),
    Coordinates st g → (drain policy n st).wp moves may
      (fun r g' => ∀ st', r = .ok st' → Coordinates st' g') g
  | 0, st, g, h => by
      rintro st' ⟨⟩
      exact h
  | n + 1, st, g, h => by
      unfold drain
      split
      · rintro st' ⟨⟩
        exact h
      · refine wp_bind.mpr (wp_attempt.mpr (wp_mono wp_commitSegment_drawn fun r g' hr => ?_))
        cases r with
        | error e =>
            rintro st' ⟨⟩
            exact h.mono hr.1
        | ok o => exact wp_drain_drawn n _ g' (h.committed hr.1 (hr.2 o rfl))

theorem wp_arrive_drawn {total : Nat} {st : AsyncState} {chunk : Bytes × Nat}
    (h : Coordinates st g) : (arrive P policy total st chunk).wp moves may
      (fun r g' => ∀ st', r = .ok st' → Coordinates st' g') g := by
  unfold arrive
  refine wp_bind.mpr (wp_attempt.mpr (wp_mono (wp_free (uses_prepareSegment trivial))
    fun r g' hle => ?_))
  cases r with
  | error e =>
      rintro st' ⟨⟩
      exact h.mono hle
  | ok prepared =>
      show Prog.wp _ _ _ (if st.commitError.isSome = true then _ else _) g'
      split
      · rintro st' ⟨⟩
        exact h.mono hle
      · exact wp_drain_drawn _ _ _ (h.mono hle)

theorem wp_registerAll_drawn {all : List (ContentHash × SegmentId)}
    {increments : List SegmentId} : ∀ (l done : List (ContentHash × SegmentId)),
    (∀ r ∈ l, r.2 ∈ g) →
      (registerAll all increments l done).wp moves may (fun _ g' => g ≤ g') g
  | [], _, _ => le_refl _
  | r :: l, done, h => by
      refine wp_bind.mpr (wp_attempt.mpr (wp_mono (wp_register (h r List.mem_cons_self))
        fun res g' hg => ?_))
      rw [hg]
      cases res with
      | ok u => exact wp_registerAll_drawn l _ fun q hq => h q (List.mem_cons_of_mem _ hq)
      | error e =>
          refine wp_free (uses_bind (uses_foldlM (fun _ _ => uses_discard (uses_op trivial)) _ _)
            fun _ => uses_bind (uses_foldlM (fun _ _ => uses_discard (uses_op trivial)) _ _)
            fun _ => uses_bind (uses_releaseIncrements fun _ _ => trivial) fun _ => ?_)
          trivial

theorem wp_finishAsync_drawn {size total : Nat} {id : CapsuleId} {st : AsyncState}
    (h : Coordinates st g) :
    (finishAsync id size policy total st).wp moves may (fun _ _ => True) g := by
  unfold finishAsync
  split
  · refine wp_mono (wp_free (uses_bind (uses_discard (uses_op trivial)) fun _ =>
      uses_bind (uses_releaseIncrements fun _ _ => trivial) fun _ => ?_)) fun _ _ _ => trivial
    trivial
  · refine wp_bind.mpr (wp_attempt.mpr (wp_freeOp (o := .commit _) trivial fun r g' hm => ?_))
    obtain rfl : g' = g := hm
    cases r with
    | error e =>
        refine wp_mono (wp_free (uses_bind (uses_releaseIncrements fun _ _ => trivial)
          fun _ => ?_)) fun _ _ _ => trivial
        trivial
    | ok t =>
        refine wp_bind.mpr (wp_mono (wp_registerAll_drawn _ _ h) fun r g₂ hle => ?_)
        cases r with
        | error e => trivial
        | ok u =>
            refine wp_bind.mpr (wp_attempt.mpr (wp_freeOp
              (o := .createCapsuleWithSegments _ _ _ _) trivial fun r g₃ _ => ?_))
            cases r with
            | error e =>
                refine wp_mono (wp_free (uses_bind (uses_foldlM (fun _ _ => uses_unregister
                  trivial trivial) _ _) fun _ =>
                    uses_bind (uses_releaseIncrements fun _ _ => trivial) fun _ => ?_))
                  fun _ _ _ => trivial
                trivial
            | ok u =>
                show Prog.wp _ _ _ (if 0 < st.dedupStats.bytesSaved then _ else _) g₃
                split
                · refine wp_mono (wp_free (uses_bind (uses_mapError.mpr (uses_op trivial))
                    fun _ => ?_)) fun _ _ _ => trivial
                  trivial
                · trivial

theorem wp_writeAsync_drawn {limit : Nat} {arrivals : Order (Bytes × Nat)} {id : CapsuleId}
    {data : Bytes} :
    (writeCapsuleWithPolicyAsync P limit arrivals id data policy).wp moves may
      (fun _ _ => True) g := by
  show Prog.wp _ _ _ (if (chunks SEGMENT_SIZE data).zipIdx.length = 0 then _ else _) g
  split
  · refine wp_mono (wp_free (uses_bind (uses_mapError.mpr (uses_op trivial)) fun _ => ?_))
      fun _ _ _ => trivial
    trivial
  · refine wp_bind.mpr (wp_freeOp (o := .beginTransaction) trivial fun r g₁ _ => ?_)
    cases r with
    | error e => trivial
    | ok t =>
        refine andThen_ok.mpr ?_
        split
        · refine wp_mono (wp_free (uses_bind (uses_discard (uses_op trivial)) fun _ => ?_))
            fun _ _ _ => trivial
          trivial
        · refine wp_bind.mpr (wp_foldlM (fun _ st g' => Coordinates st g') ?_ ?_ _ _ _
            fun r hr => absurd hr List.not_mem_nil)
          · intro chunk rest st g' h
            refine wp_mono (wp_arrive_drawn h) fun r g'' hr => ?_
            cases r with
            | error e => trivial
            | ok st' => exact hr st' rfl
          · exact fun st g' h => wp_finishAsync_drawn h

/-- **A task registers only what it has drawn.** -/
theorem wp_task {t : Task} : (t.program P).wp moves may (fun _ _ => True) g := by
  have hfree {p : Native Unit} (hp : p.Uses Free) : p.wp moves may (fun _ _ => True) g :=
    wp_mono (wp_free hp) fun _ _ _ => trivial
  cases t with
  | command c =>
      cases c with
      | write id data policy => exact wp_discard.mpr wp_writeCapsule_drawn
      | writeAsync limit arrivals id data policy => exact wp_discard.mpr wp_writeAsync_drawn
      | delete id =>
          refine hfree (uses_bind (uses_op trivial) fun c => uses_foldlM (fun _ x => ?_) _ _)
          exact uses_releaseSegment trivial (fun _ => trivial) trivial
      | collect ord =>
          exact hfree (uses_discard (uses_sweep (fun _ => trivial) (fun _ _ => trivial)
            (fun _ => trivial) ord))
  | read id =>
      refine hfree (uses_discard (uses_mono (fun o ho => ?_) (uses_readCapsule id)))
      cases o <;> first | exact ho.elim | trivial
  | reconcile capsuleOrd segmentOrd sweepOrd =>
      exact hfree (uses_reconcileRefcounts (fun _ => trivial) (fun _ => trivial)
        (fun _ => trivial) (fun _ _ => trivial) (fun _ _ => trivial) (fun _ => trivial) _ _ _)

end Draws

/-- What a crash leaves of the registry is what was there. -/
theorem World.Crash.registry {o : StoreOp} (h : World.Crash o w w') :
    w'.store.registry = w.store.registry := by
  cases h <;> rfl

/-- **In every state of a history** the content store names segments by identifiers that were
drawn. -/
theorem History.drawn (h : History K w) : w.store.registry.Drawn := by
  have hinv {w : World P} (h : w.store.registry.Drawn) : Draws.Inv w 0 :=
    ⟨h, fun _ hx => absurd hx (Multiset.notMem_zero _)⟩
  induction h with
  | start km hk =>
      refine ⟨fun k x hx => ?_, fun _ hs => by cases hs⟩
      have hx : (∅ : Table ContentHash SegmentId).lookup k = some x := hx
      cases hx
  | run t _ ih =>
      obtain ⟨g, -, h⟩ := (drawing P t.data).run (g := 0) (f := 0) trivial (hinv ih)
        Draws.wp_task fun _ _ _ => trivial
      exact h.drawn
  | crash t km _ hv hc hk ih =>
      obtain ⟨g, -, h⟩ := (drawing P t.data).visits (g := 0) (f := 0) trivial (hinv ih)
        Draws.wp_task (fun _ _ _ => trivial) hv
      refine CapsuleRegistry.Drawn.reopen ?_
      rw [hc.registry]
      exact h.drawn
  | reopen km _ hk ih => exact ih.reopen
  | key c _ hkm hs ih => exact ih

end Space

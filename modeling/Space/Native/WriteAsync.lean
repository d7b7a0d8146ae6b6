import Space.Native.Write

/-!
# Native — WriteAsync

The asynchronous write.  Each chunk is prepared (compressed, hashed, encrypted) by a task of its
own; the coordinator commits the prepared chunks in the order of the chunks, as far as they have
arrived, into one log transaction.  When all tasks are done the transaction is committed, the new
hashes are registered and the capsule is created; an error on the way is compensated.

The order in which the tasks complete is an argument (`arrivals`).  Preparing a chunk touches the
key manager only.
-/

namespace Space
open Support

variable (P : Primitives)

structure SegmentPrepared where
  index : Nat
  contentHash : ContentHash
  finalData : Bytes
  compResult : CompressionResult
  encryptionMeta : Option EncryptionMetadata

inductive WriteDisposition where
  | newSegment
  | reusedPersistent
  | reusedStaged
  deriving DecidableEq, Repr

/-- What committing one prepared chunk answers. -/
structure CommitOutcome where
  segId : SegmentId
  disposition : WriteDisposition
  bytesTracked : Nat
  registeredHash : Option ContentHash

/-- The state of the coordinator. -/
structure AsyncState where
  transaction : NvramTransaction
  stagedContent : Table ContentHash SegmentId := ∅
  dedupeIncrements : List SegmentId := []
  pendingRegistrations : List (ContentHash × SegmentId) := []
  ordered : Table Nat SegmentPrepared := ∅
  nextIndex : Nat := 0
  segmentIds : List SegmentId := []
  dedupStats : DedupStats := {}
  commitError : Option Error := none
  taskErrors : Table Nat Error := ∅

/-- Record a committed chunk. -/
def AsyncState.committed (st : AsyncState) (outcome : CommitOutcome) (t : NvramTransaction)
    (staged : Table ContentHash SegmentId) : AsyncState :=
  { st with
    transaction := t
    stagedContent := staged
    dedupeIncrements := match outcome.disposition with
      | .reusedPersistent => st.dedupeIncrements ++ [outcome.segId]
      | _ => st.dedupeIncrements
    pendingRegistrations := match outcome.disposition, outcome.registeredHash with
      | .newSegment, some hash => st.pendingRegistrations ++ [(hash, outcome.segId)]
      | _, _ => st.pendingRegistrations
    segmentIds := st.segmentIds ++ [outcome.segId]
    dedupStats := st.dedupStats.addSegment outcome.bytesTracked
      (decide (outcome.disposition ≠ .newSegment))
    nextIndex := st.nextIndex + 1 }

/-- One more reference to a staged segment. -/
def Segment.reuse (segment : Segment) : Segment :=
  { segment with
    refCount := saturatingSucc segment.refCount
    deduplicated := decide (1 < saturatingSucc segment.refCount) }

namespace WritePipeline

/-- The error of a chunk that does not compress, in a task. -/
def prepareCompressionError (index : Nat) (err : Error) : Error :=
  match err.downcastCompression with
  | some source => .compression index source
  | none => .registry "compress_segment" err

/-- `prepare_segment`. -/
def prepareSegment (policy : Policy) (chunk : Bytes × Nat) : Native SegmentPrepared := do
  let (compressedData, compResult) ← Prog.lift
    ((compressSegment P chunk.1 policy.compression).mapError (prepareCompressionError chunk.2))
  let contentHash := hashContent P compressedData
  let key ← encryptionKey policy
  let (finalData, encryptionMeta) ← Prog.lift
    ((sealView P key compressedData contentHash).mapError .encryption)
  return ⟨chunk.2, contentHash, finalData, compResult, encryptionMeta⟩

/-- Stage a prepared chunk under a new identifier. -/
def stageNew (policy : Policy) (prepared : SegmentPrepared) (t : NvramTransaction)
    (staged : Table ContentHash SegmentId) :
    Native (CommitOutcome × NvramTransaction × Table ContentHash SegmentId) := do
  let segId ← Native.allocSegment
  let (segment, t) ← Native.appendSegment t segId prepared.finalData
  let registeredHash := if policy.dedupe then some prepared.contentHash else none
  let staged := if policy.dedupe then staged.insert prepared.contentHash segId else staged
  let segment := segment.describe prepared.compResult registeredHash prepared.encryptionMeta
  let t ← Prog.lift (t.setSegmentMetadata segId segment)
  return (⟨segId, .newSegment, prepared.finalData.length, registeredHash⟩, t, staged)

/-- `commit_segment`: reuse a staged segment, reuse a stored one, or stage a new one. -/
def commitSegment (policy : Policy) (prepared : SegmentPrepared) (t : NvramTransaction)
    (staged : Table ContentHash SegmentId) :
    Native (CommitOutcome × NvramTransaction × Table ContentHash SegmentId) := do
  if policy.dedupe then
    match staged.lookup prepared.contentHash with
    | some stagedSegId =>
      match t.pendingSegment stagedSegId with
      | none => .fail (.msg ("pending segment " ++ stagedSegId.debug ++ " not found"))
      | some pending =>
        let t ← Prog.lift (t.withSegmentMut stagedSegId Segment.reuse)
        return (⟨stagedSegId, .reusedStaged, pending.len, none⟩, t, staged)
    | none =>
      match ← Native.lookupContent prepared.contentHash with
      | some existingSegId =>
        let segment ← Native.incrementRefcount existingSegId
        return (⟨existingSegId, .reusedPersistent, segment.len, none⟩, t, staged)
      | none => stageNew policy prepared t staged
  else stageNew policy prepared t staged

/-- Commit the prepared chunks from `nextIndex` on, as far as they have arrived. -/
def drain (policy : Policy) : Nat → AsyncState → Native AsyncState
  | 0, st => pure st
  | n + 1, st =>
    match st.ordered.lookup st.nextIndex with
    | none => pure st
    | some prepared => do
      match ← (commitSegment policy prepared st.transaction st.stagedContent).attempt with
      | .error e => return { st with commitError := some e }
      | .ok (outcome, t, staged) => drain policy n (st.committed outcome t staged)

/-- One task completes: its error is kept, or its chunk is handed to the coordinator, which stops
listening once committing has failed. -/
def arrive (policy : Policy) (total : Nat) (st : AsyncState) (chunk : Bytes × Nat) :
    Native AsyncState := do
  match ← (prepareSegment P policy chunk).attempt with
  | .error e => return { st with taskErrors := st.taskErrors.insert chunk.2 e }
  | .ok prepared =>
    if st.commitError.isSome then return st
    else drain policy total { st with ordered := st.ordered.insert chunk.2 prepared }

/-- The error of the run: of committing, else of the first task that failed, else that not all
chunks came through. -/
def AsyncState.error (st : AsyncState) (total : Nat) : Option Error :=
  st.commitError <|> ((List.range total).findSome? fun i => st.taskErrors.lookup i) <|>
    if st.nextIndex ≠ total then
      some (.msg ("async pipeline exited early: processed " ++ toString st.nextIndex ++ " of " ++
        toString total ++ " segments"))
    else none

/-- Give back the references taken on stored segments, last first. -/
def releaseIncrements (increments : List SegmentId) : Native Unit :=
  increments.reverse.foldlM (fun _ segId => discard (Native.decrementRefcount segId)) ()

/-- Register the staged hashes; on an error take back what was registered. -/
def registerAll (all : List (ContentHash × SegmentId)) (increments : List SegmentId) :
    List (ContentHash × SegmentId) → List (ContentHash × SegmentId) → Native Unit
  | [], _ => pure ()
  | (hash, segId) :: rest, registered => do
    match ← (Native.registerContent hash segId).attempt with
    | .ok _ => registerAll all increments rest (registered ++ [(hash, segId)])
    | .error e =>
      registered.foldlM (fun _ r => discard (Native.deregisterContent r.1 r.2)) ()
      all.foldlM (fun _ r => discard (Native.removeSegment r.2)) ()
      releaseIncrements increments
      .fail e

/-- Take back a registered hash and its segment. -/
def unregister (r : ContentHash × SegmentId) : Native Unit := do
  discard (Native.deregisterContent r.1 r.2)
  discard (Native.removeSegment r.2)

/-- What `finishAsync` does once everything is registered. -/
def createWritten (capsuleId : CapsuleId) (size : Nat) (policy : Policy) (st : AsyncState) :
    Native CapsuleId := do
  match ← (Native.createCapsuleWithSegments capsuleId size st.segmentIds policy).attempt with
  | .error e =>
    st.pendingRegistrations.foldlM (fun _ r => unregister r) ()
    releaseIncrements st.dedupeIncrements
    .fail (mapRegistryError "create_capsule_with_segments" e)
  | .ok _ =>
    if 0 < st.dedupStats.bytesSaved then
      (Native.addDedupedBytes capsuleId st.dedupStats.bytesSaved).mapError
        (mapRegistryError "add_deduped_bytes")
    return capsuleId

/-- What follows the arrival of all tasks. -/
def finishAsync (capsuleId : CapsuleId) (size : Nat) (policy : Policy) (total : Nat)
    (st : AsyncState) : Native CapsuleId := do
  match AsyncState.error st total with
  | some e =>
    discard (Native.rollback st.transaction)
    releaseIncrements st.dedupeIncrements
    .fail e
  | none =>
    match ← (Native.commit st.transaction).attempt with
    | .error e =>
      releaseIncrements st.dedupeIncrements
      .fail e
    | .ok _ =>
      registerAll st.pendingRegistrations st.dedupeIncrements st.pendingRegistrations []
      createWritten capsuleId size policy st

/-- The error of a chunk larger than a task may hold. -/
def memoryLimitError (memoryLimit : Nat) (chunk : Bytes × Nat) : Error :=
  .msg ("Segment " ++ toString chunk.2 ++ " exceeds configured per-task memory limit (" ++
    toString chunk.1.length ++ " bytes > " ++ toString memoryLimit ++ " bytes)")

/-- `write_capsule_with_policy_async`, with the limit of its configuration. -/
def writeCapsuleWithPolicyAsync (memoryLimit : Nat) (arrivals : Order (Bytes × Nat))
    (capsuleId : CapsuleId) (data : Bytes) (policy : Policy) : Native CapsuleId := do
  let segments := (chunks SEGMENT_SIZE data).zipIdx
  if segments.length = 0 then
    (Native.createCapsuleWithSegments capsuleId 0 [] policy).mapError
      (mapRegistryError "create_capsule_with_segments")
    return capsuleId
  else
    let transaction ← Native.beginTransaction
    match segments.find? fun chunk => decide (memoryLimit < chunk.1.length) with
    | some chunk =>
      discard (Native.rollback transaction)
      .fail (memoryLimitError memoryLimit chunk)
    | none =>
      let st ← (arrivals.reorder segments).foldlM (arrive P policy segments.length)
        { transaction := transaction }
      finishAsync capsuleId data.length policy segments.length st

/-! ### What the end of a write uses -/

/-- `A` allows what follows the commit of the log. -/
structure Finishes (A : StoreOp → Prop) (id : CapsuleId) (size : Nat) (policy : Policy)
    (st : AsyncState) : Prop where
  register : ∀ r ∈ st.pendingRegistrations, A (.registerContent r.1 r.2)
  deregister : ∀ r ∈ st.pendingRegistrations, A (.deregisterContent r.1 r.2)
  remove : ∀ r ∈ st.pendingRegistrations, A (.removeSegment r.2)
  decrement : ∀ x ∈ st.dedupeIncrements, A (.decrementRefcount x)
  create : A (.createCapsuleWithSegments id size st.segmentIds policy)
  count : A (.addDedupedBytes id st.dedupStats.bytesSaved)

section
open Prog
variable {A : StoreOp → Prop} {id : CapsuleId} {size : Nat} {policy : Policy} {st : AsyncState}

theorem uses_releaseIncrements {increments : List SegmentId}
    (h : ∀ x ∈ increments, A (.decrementRefcount x)) : (releaseIncrements increments).Uses A :=
  uses_foldlM_mem _ _ fun _ x hx =>
    uses_discard (uses_perform.mpr (h x (List.mem_reverse.mp hx)))

theorem uses_unregister {r : ContentHash × SegmentId} (hd : A (.deregisterContent r.1 r.2))
    (hr : A (.removeSegment r.2)) : (unregister r).Uses A :=
  uses_bind (uses_discard (uses_perform.mpr hd)) fun _ => uses_discard (uses_perform.mpr hr)

theorem uses_registerAll {all : List (ContentHash × SegmentId)} {increments : List SegmentId}
    (h : ∀ r ∈ all, A (.registerContent r.1 r.2)) (h₁ : ∀ r ∈ all, A (.deregisterContent r.1 r.2))
    (h₂ : ∀ r ∈ all, A (.removeSegment r.2)) (h₃ : ∀ x ∈ increments, A (.decrementRefcount x)) :
    ∀ l done, l ⊆ all → done ⊆ all → (registerAll all increments l done).Uses A
  | [], _, _, _ => trivial
  | r :: l, done, hl, hdone => by
      obtain ⟨hr, hl⟩ := List.cons_subset.mp hl
      refine uses_bind (uses_attempt (uses_perform.mpr (h r hr))) fun res => ?_
      cases res with
      | ok u =>
          refine uses_registerAll h h₁ h₂ h₃ l _ hl (List.append_subset.mpr ⟨hdone, ?_⟩)
          exact List.cons_subset.mpr ⟨hr, List.nil_subset _⟩
      | error e =>
          refine uses_bind (uses_foldlM_mem _ _ fun _ q hq =>
            uses_discard (uses_perform.mpr (h₁ q (hdone hq)))) fun _ => ?_
          refine uses_bind (uses_foldlM_mem _ _ fun _ q hq =>
            uses_discard (uses_perform.mpr (h₂ q hq))) fun _ => ?_
          exact uses_bind (uses_releaseIncrements h₃) fun _ => trivial

namespace Finishes

theorem uses_createWritten (h : Finishes A id size policy st) :
    (createWritten id size policy st).Uses A := by
  refine uses_bind (uses_attempt (uses_perform.mpr h.create)) fun res => ?_
  cases res with
  | error e =>
      refine uses_bind (uses_foldlM_mem _ _ fun _ r hr =>
        uses_unregister (h.deregister r hr) (h.remove r hr)) fun _ => ?_
      exact uses_bind (uses_releaseIncrements h.decrement) fun _ => trivial
  | ok u =>
      show Prog.Uses _ (if 0 < st.dedupStats.bytesSaved then _ else _)
      split
      · exact uses_bind (uses_mapError.mpr (uses_perform.mpr h.count)) fun _ => trivial
      · trivial

/-- Once the log is committed. -/
theorem uses_registered (h : Finishes A id size policy st) :
    (registerAll st.pendingRegistrations st.dedupeIncrements st.pendingRegistrations [] >>=
      fun _ => createWritten id size policy st).Uses A :=
  uses_bind (uses_registerAll h.register h.deregister h.remove h.decrement _ _ (List.Subset.refl _)
    (List.nil_subset _)) fun _ => h.uses_createWritten

theorem uses_finishAsync (h : Finishes A id size policy st) (hr : A (.rollback st.transaction))
    (hc : A (.commit st.transaction)) {total : Nat} :
    (finishAsync id size policy total st).Uses A := by
  unfold finishAsync
  split
  · refine uses_bind (uses_discard (uses_perform.mpr hr)) fun _ => ?_
    exact uses_bind (uses_releaseIncrements h.decrement) fun _ => trivial
  · refine uses_bind (uses_attempt (uses_perform.mpr hc)) fun res => ?_
    cases res with
    | error e => exact uses_bind (uses_releaseIncrements h.decrement) fun _ => trivial
    | ok t => exact h.uses_registered

end Finishes

end

end WritePipeline

/-- The two native writes. -/
inductive WriteKind where
  | sync
  | async (memoryLimit : Nat) (arrivals : Order (Bytes × Nat))

def WriteKind.program (P : Primitives) (id : CapsuleId) (data : Bytes) (policy : Policy) :
    WriteKind → Native CapsuleId
  | sync => WritePipeline.writeCapsuleWithPolicy P id data policy
  | async memoryLimit arrivals =>
      WritePipeline.writeCapsuleWithPolicyAsync P memoryLimit arrivals id data policy

def WriteKind.isAsync : WriteKind → Bool
  | sync => false
  | async _ _ => true

end Space

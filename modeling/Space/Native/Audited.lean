import Space.Native.Hybrid
import Space.Native.Reclaim
import Space.Native.WriteAsync
import Space.Security.AuditLog
import Space.Support.Layers

/-!
# Native — Audited

The native pipeline with an audit log (the feature `advanced-security`).  The synchronous write
reports its dedup hits and, once the capsule is there, the capsule; the read and the delete report
what they did at their end.  The log of segments reports those that a commit installs, and one that
is given another reference; the asynchronous write reports nothing else.

* `AuditedCall.Causes`: what a call may report.
* `AuditedCall.unreported_audited`: without its reports a call is that of a pipeline without a log.
-/

namespace Space
open Support

variable (P : Primitives) (mlkem : Option MlkemKeyManager)

/-- `Event`: what is reported to the audit log. -/
inductive AuditEvent where
  | capsuleCreated (capsuleId : CapsuleId) (size segments : Nat) (policy : Policy)
  | capsuleRead (capsuleId : CapsuleId) (size : Nat)
  | capsuleDeleted (capsuleId : CapsuleId) (reclaimedBytes : Nat)
  | segmentAppended (segmentId : SegmentId) (len : Nat) (contentHash : Option ContentHash)
      (encrypted : Bool)
  | dedupHit (segmentId : SegmentId) (capsuleId : CapsuleId) (contentHash : ContentHash)
  | auditHeartbeat (timestamp : UInt64) (capsules segments : Nat)
  deriving DecidableEq

abbrev AuditSig : Signature := ⟨AuditEvent, fun _ => Unit⟩

/-- Programs of a pipeline with an audit log. -/
abbrev AuditedProg := Prog (StoreSig.sum AuditSig) Error

/-- `audit_event`: an error of the log is not one of the pipeline. -/
def auditEvent (event : AuditEvent) : AuditedProg Unit := Prog.performInr (T := AuditSig) event

/-- `log_segment`. -/
def logSegment (segment : Segment) : AuditedProg Unit :=
  auditEvent (.segmentAppended segment.id segment.len segment.contentHash segment.encrypted)

/-- What an operation reports once it has succeeded: a commit, the segments it installs; another
reference, the segment that has it. -/
def StoreOp.reports : (o : StoreOp) → Except Error o.Res → AuditedProg Unit
  | .commit t, .ok _ =>
    if t.finalized then pure () else t.pending.foldlM (fun _ entry => logSegment entry.segment) ()
  | .incrementRefcount _, .ok updated => logSegment updated
  | _, _ => pure ()

/-- A program over a log `with_audit`. -/
def withAudit {α : Type} : Native α → AuditedProg α
  | .ret a => .ret a
  | .fail e => .fail e
  | .call o k => .call (.inl o) fun r => o.reports r >>= fun _ => withAudit (k r)

/-- An operation that reports nothing. -/
def StoreOp.Silent : StoreOp → Prop
  | .commit _ => False
  | .incrementRefcount _ => False
  | _ => True

theorem StoreOp.Silent.reports {o : StoreOp} {r : Except Error o.Res} (h : o.Silent) :
    o.reports r = pure () := by
  cases o with
  | commit => exact h.elim
  | incrementRefcount => exact h.elim
  | _ => cases r <;> rfl

/-- A program that the log learns nothing of. -/
theorem withAudit_of_silent {α : Type} {p : Native α} (hp : p.Uses StoreOp.Silent) :
    withAudit p = p.inl := by
  induction p with
  | ret a => rfl
  | fail e => rfl
  | call o k ih =>
      refine congrArg (Prog.call (S := StoreSig.sum AuditSig) (.inl o)) (funext fun r => ?_)
      have hnone : o.reports r = pure () := hp.1.reports
      exact (congrArg (· >>= fun _ => withAudit (k r)) hnone).trans (ih r (hp.2 r))

namespace WritePipeline

/-- One chunk: a dedup hit, which is reported, or a new segment. -/
def writeChunkAudited (coins : Nat → Bytes) (capsuleId : CapsuleId) (policy : Policy)
    (st : WriteState) (chunk : Bytes × Nat) : AuditedProg WriteState := do
  let (compressedData, compResult) ← Prog.lift
    ((compressSegment P chunk.1 policy.compression).mapError (mapCompressionError chunk.2))
  let contentHash := hashContent P compressedData
  let key ← withAudit (encryptionKey policy)
  let (finalData, encryptionMeta, hybridState) ← Prog.lift
    ((sealHybrid P mlkem policy.cryptoProfile capsuleId chunk.2 (coins chunk.2) key compressedData
      contentHash).mapError .enc)
  if policy.dedupe then
    match ← withAudit (Native.lookupContent contentHash) with
    | some existingSegId =>
      let updated ← withAudit ((Native.incrementRefcount existingSegId).mapError
        (mapNvramError "increment_refcount"))
      auditEvent (.dedupHit existingSegId capsuleId contentHash)
      return st.push existingSegId updated.len true
    | none =>
      let newSegId ← withAudit
        (storeHybrid finalData compResult (some contentHash) encryptionMeta hybridState)
      withAudit ((Native.registerContent contentHash newSegId).mapError
        (mapRegistryError "register_content"))
      return st.push newSegId finalData.length false
  else
    let newSegId ← withAudit (storeHybrid finalData compResult none encryptionMeta hybridState)
    return st.push newSegId finalData.length false

/-- `write_capsule_with_policy`. -/
def writeCapsuleAudited (coins : Nat → Bytes) (capsuleId : CapsuleId) (data : Bytes)
    (policy : Policy) : AuditedProg CapsuleId := do
  let st ← (chunks SEGMENT_SIZE data).zipIdx.foldlM
    (writeChunkAudited P mlkem coins capsuleId policy) {}
  if 0 < st.dedupStats.bytesSaved then
    withAudit ((Native.addDedupedBytes capsuleId st.dedupStats.bytesSaved).mapError
      (mapRegistryError "add_deduped_bytes"))
  withAudit ((Native.createCapsuleWithSegments capsuleId data.length st.segmentIds policy).mapError
    (mapRegistryError "create_capsule_with_segments"))
  auditEvent (.capsuleCreated capsuleId data.length st.segmentIds.length policy)
  return capsuleId

/-- The loop of `read_capsule`. -/
def readSegments (capsule : Capsule) : Native Bytes :=
  capsule.segments.zipIdx.foldlM (fun result seg => do
    let data ← readSegmentHybrid P mlkem capsule seg.2 seg.1
    return result ++ data) []

/-- `read_capsule`. -/
def readCapsuleAudited (id : CapsuleId) : AuditedProg Bytes := do
  let capsule ← withAudit (Native.lookup id)
  let result ← withAudit (readSegments P mlkem capsule)
  auditEvent (.capsuleRead id capsule.size)
  return result

/-- `delete_capsule`. -/
def deleteCapsuleAudited (capsuleId : CapsuleId) : AuditedProg Unit := do
  let capsule ← withAudit (Native.registryDeleteCapsule capsuleId)
  withAudit (capsule.segments.foldlM (fun _ segId => releaseSegment segId) ())
  auditEvent (.capsuleDeleted capsuleId capsule.size)

end WritePipeline

/-! ### The calls -/

/-- What a pipeline with an audit log is called for. -/
inductive AuditedCall where
  | write (coins : Nat → Bytes) (id : CapsuleId) (data : Bytes) (policy : Policy)
  | writeAsync (memoryLimit : Nat) (arrivals : Order (Bytes × Nat)) (id : CapsuleId)
      (data : Bytes) (policy : Policy)
  | read (id : CapsuleId)
  | delete (id : CapsuleId)
  | collect (ord : Order Segment)

namespace AuditedCall

def Res : AuditedCall → Type
  | write _ _ _ _ => CapsuleId
  | writeAsync _ _ _ _ _ => CapsuleId
  | read _ => Bytes
  | delete _ => Unit
  | collect _ => Nat

/-- How the pipeline does it without a log. -/
def native : (c : AuditedCall) → Native c.Res
  | write coins id data policy => WritePipeline.writeCapsuleHybrid P mlkem coins id data policy
  | writeAsync memoryLimit arrivals id data policy =>
    WritePipeline.writeCapsuleWithPolicyAsync P memoryLimit arrivals id data policy
  | read id => WritePipeline.readCapsuleHybrid P mlkem id
  | delete id => WritePipeline.deleteCapsule id
  | collect ord => WritePipeline.garbageCollect ord

/-- How it does it with one. -/
def audited : (c : AuditedCall) → AuditedProg c.Res
  | write coins id data policy => WritePipeline.writeCapsuleAudited P mlkem coins id data policy
  | writeAsync memoryLimit arrivals id data policy =>
    withAudit (WritePipeline.writeCapsuleWithPolicyAsync P memoryLimit arrivals id data policy)
  | read id => WritePipeline.readCapsuleAudited P mlkem id
  | delete id => WritePipeline.deleteCapsuleAudited id
  | collect ord => withAudit (WritePipeline.garbageCollect ord)

/-- The call has segments reported. -/
def Appends : AuditedCall → Prop
  | write _ _ _ policy => policy.dedupe = true
  | writeAsync _ _ _ _ _ => True
  | _ => False

/-- What a call may report. -/
def Causes : AuditedCall → AuditEvent → Prop
  | write _ id data policy, .capsuleCreated id' size segments policy' =>
    id' = id ∧ size = data.length ∧ segments = (chunks SEGMENT_SIZE data).length ∧ policy' = policy
  | write _ id data policy, .dedupHit _ id' hash => id' = id ∧ policy.dedupe = true ∧
    ∃ chunk ∈ chunks SEGMENT_SIZE data, ∃ view r,
      compressSegment P chunk policy.compression = .ok (view, r) ∧ hash = hashContent P view
  | c, .segmentAppended _ _ _ _ => c.Appends
  | read id, .capsuleRead id' _ => id' = id
  | delete id, .capsuleDeleted id' _ => id' = id
  | _, _ => False

variable {P} in
theorem causes_segmentAppended {c : AuditedCall} {segmentId : SegmentId} {len : Nat}
    {contentHash : Option ContentHash} {encrypted : Bool} (h : c.Appends) :
    c.Causes P (.segmentAppended segmentId len contentHash encrypted) := by
  cases c <;> exact h

end AuditedCall

/-! ### Without the reports -/

/-- What a program does to the store, without what it reports. -/
abbrev unreported {α : Type} (p : AuditedProg α) : Native α := p.without fun _ => .ok ()

theorem unreported_reports {o : StoreOp} {r : Except Error o.Res} :
    unreported (o.reports r) = pure () := by
  have hlog : ∀ l : List PendingSegment,
      unreported (l.foldlM (fun _ entry => logSegment entry.segment) ()) = pure () := by
    intro l
    induction l with
    | nil => rfl
    | cons entry l ih => exact ih
  unfold StoreOp.reports
  split
  · split
    · rfl
    · exact hlog _
  · rfl
  · rfl

theorem unreported_withAudit {α : Type} (p : Native α) : unreported (withAudit p) = p := by
  induction p with
  | ret a => rfl
  | fail e => rfl
  | call o k ih =>
      refine congrArg (Prog.call o) (funext fun r => ?_)
      rw [Prog.without_bind]
      exact (congrArg (· >>= _) unreported_reports).trans (ih r)

/-- An audited program, and what follows. -/
theorem without_withAudit_bind {α β : Type} (p : Native α) (k : α → AuditedProg β) :
    (withAudit p >>= k).without (fun _ => .ok ()) =
      p >>= fun a => (k a).without fun _ => .ok () := by
  rw [Prog.without_bind]
  exact congrArg (· >>= _) (unreported_withAudit p)

namespace WritePipeline
open Prog
variable {P mlkem} {coins : Nat → Bytes} {capsuleId : CapsuleId} {policy : Policy}

theorem unreported_writeChunk (st : WriteState) (chunk : Bytes × Nat) :
    unreported (writeChunkAudited P mlkem coins capsuleId policy st chunk) =
      writeChunkHybrid P mlkem coins capsuleId policy st chunk := by
  rw [writeChunkAudited, writeChunkHybrid, unreported, without_bind, without_lift]
  refine bind_congr fun vr => ?_
  rw [without_withAudit_bind]
  refine bind_congr fun key => ?_
  rw [without_bind, without_lift]
  refine bind_congr fun sealing => ?_
  dsimp only
  split
  · rw [without_withAudit_bind]
    refine bind_congr fun found => ?_
    cases found with
    | some x =>
        exact without_withAudit_bind _ _
    | none =>
        refine (without_withAudit_bind _ _).trans ?_
        refine bind_congr fun newSegId => ?_
        rw [without_withAudit_bind]
        rfl
  · rw [without_withAudit_bind]
    rfl

theorem unreported_writeCapsule (data : Bytes) :
    unreported (writeCapsuleAudited P mlkem coins capsuleId data policy) =
      writeCapsuleHybrid P mlkem coins capsuleId data policy := by
  have hcreate (st : WriteState) : unreported (do
      withAudit ((Native.createCapsuleWithSegments capsuleId data.length st.segmentIds
        policy).mapError (mapRegistryError "create_capsule_with_segments"))
      auditEvent (.capsuleCreated capsuleId data.length st.segmentIds.length policy)
      return capsuleId) = (do
      (Native.createCapsuleWithSegments capsuleId data.length st.segmentIds policy).mapError
        (mapRegistryError "create_capsule_with_segments")
      return capsuleId) := by
    rw [unreported, without_withAudit_bind]
    rfl
  rw [writeCapsuleAudited, writeCapsuleHybrid, unreported, without_bind,
    without_foldlM unreported_writeChunk]
  refine bind_congr fun st => ?_
  dsimp only
  split
  · rw [without_withAudit_bind]
    exact bind_congr fun _ => hcreate st
  · exact hcreate st

theorem unreported_readCapsule (id : CapsuleId) :
    unreported (readCapsuleAudited P mlkem id) = readCapsuleHybrid P mlkem id := by
  rw [readCapsuleAudited, readCapsuleHybrid, unreported, without_withAudit_bind]
  refine bind_congr fun capsule => ?_
  rw [without_withAudit_bind]
  exact bind_pure _

theorem unreported_deleteCapsule (id : CapsuleId) :
    unreported (deleteCapsuleAudited id) = deleteCapsule id := by
  rw [deleteCapsuleAudited, deleteCapsule, unreported, without_withAudit_bind]
  refine bind_congr fun capsule => ?_
  rw [without_withAudit_bind]
  exact bind_pure _

end WritePipeline

variable {P mlkem}

/-- **Without its reports** a call is that of a pipeline without a log. -/
theorem AuditedCall.unreported_audited (c : AuditedCall) :
    unreported (c.audited P mlkem) = c.native P mlkem := by
  cases c with
  | write coins id data policy => exact WritePipeline.unreported_writeCapsule data
  | writeAsync memoryLimit arrivals id data policy => exact unreported_withAudit _
  | read id => exact WritePipeline.unreported_readCapsule id
  | delete id => exact WritePipeline.unreported_deleteCapsule id
  | collect ord => exact unreported_withAudit _

end Space

import Space.Modular.Interface
import Space.Native.Write

/-!
# Modular — Pipeline

The modular pipeline: a write goes through the segments of a zone plan, and a chunk whose view is in
the catalog adds a reference to the segment that has it; a delete takes the references back, and
the collector removes what no capsule lists.

The statistics of the deduper, which nothing else reads, are left out, and so is what the layout
engine puts into a plan beside the extents.  An overflow of a `u32` wraps, and a
panic ends a method like an error.
-/

namespace Space
open Support

/-! ### The layout engine -/

/-- An extent of the data. -/
structure SegmentRef where
  offset : Nat
  length : Nat
  deriving DecidableEq

structure Zone where
  id : Nat
  segments : List SegmentRef
  deriving DecidableEq

/-- What `build_plan` accumulates; the current zone has the next identifier. -/
structure PlanState where
  zones : List Zone := []
  currentZone : Zone := ⟨0, []⟩
  zoneUsage : Nat := 0

namespace CpuFixed

/-- A segment is put into the current zone, and a zone that is full is closed. -/
def place (segmentSize : Nat) (segment : SegmentRef) (st : PlanState) : PlanState :=
  let zone : Zone := ⟨st.currentZone.id, st.currentZone.segments ++ [segment]⟩
  let zoneUsage := st.zoneUsage + segment.length
  if segmentSize ≤ zoneUsage ∧ zone.segments ≠ [] then ⟨st.zones ++ [zone], ⟨zone.id + 1, []⟩, 0⟩
  else ⟨st.zones, zone, zoneUsage⟩

/-- `while start < slice.len()`; a round takes a byte at least. -/
def placeSlice (segmentSize cursor len : Nat) : Nat → Nat → PlanState → PlanState
  | 0, _, st => st
  | fuel + 1, start, st =>
    if start < len then
      let take := min (len - start) segmentSize
      placeSlice segmentSize cursor len fuel (start + take)
        (place segmentSize ⟨cursor + start, take⟩ st)
    else st

def buildPlan (segmentSize : Nat) (dataSlices : List Bytes) : List Zone :=
  let st := (dataSlices.foldl (fun acc slice =>
    (placeSlice segmentSize acc.2 slice.length slice.length 0 acc.1, acc.2 + slice.length))
    (({} : PlanState), 0)).1
  if st.currentZone.segments ≠ [] then st.zones ++ [st.currentZone] else st.zones

end CpuFixed

/-- `LayoutEngine::new` and `synthesize`, without the optional features. -/
def LayoutEngine.synthesize (policy : Policy) (dataSlices : List Bytes) :
    Except Error (List Zone) :=
  match policy.layout.strategy with
  | .znsGraph _ _ => .error (.msg "ZNS feature disabled")
  | .learned _ => .error (.msg "ML feature disabled")
  | strategy => .ok (CpuFixed.buildPlan strategy.defaultSegmentSize dataSlices)

/-- The chunks of the data, laid out; `chunks` panics at size zero. -/
def zonePlan (policy : Policy) (data : Bytes) : Except Error (List Zone) :=
  let chunkSize := policy.layout.strategy.defaultSegmentSize
  if chunkSize = 0 then .error (.msg "chunk size must be non-zero")
  else LayoutEngine.synthesize policy (chunks chunkSize data)

/-! ### The methods -/

/-- The metadata of a new segment. -/
def Segment.new (segId : SegmentId) (payload : Bytes) (summary : CompressionSummary)
    (hash : ContentHash) (encryptionSummary : EncryptionSummary) (encrypted : Bool) : Segment where
  id := segId
  offset := 0
  len := asU32 payload.length
  compressed := summary.compressed
  compressionAlgo := summary.algorithm
  contentHash := some hash
  refCount := 1
  deduplicated := false
  accessCount := 0
  encryptionVersion := encryptionSummary.encryptionVersion
  keyVersion := encryptionSummary.keyVersion
  tweakNonce := encryptionSummary.tweakNonce
  integrityTag := encryptionSummary.integrityTag
  encrypted := encrypted
  pqCiphertext := none
  pqNonce := none

/-- The metadata with another number of references. -/
def Segment.withRefCount (segment : Segment) (refCount : Nat) : Segment :=
  { segment with refCount := refCount, deduplicated := decide (1 < refCount) }

/-- `content_entries().map(|(hash, seg)| (seg, hash)).collect()`: of the entries of a segment, the
last one stays. -/
def contentMapOf (entries : List (ContentHash × SegmentId)) : Table SegmentId ContentHash :=
  entries.foldl (fun m e => m.insert e.2 e.1) ∅

namespace Pipeline
open Space.Modular

/-- Replace the metadata of a segment, in a transaction of its own. -/
def updateMetadata (segId : SegmentId) (segment : Segment) : Modular Unit :=
  inTxn do
    setSegmentMetadata segId segment
    commit

/-- The payload of a segment. -/
def encryptView (capsuleId : CapsuleId) (encryptionPolicy : EncryptionPolicy) (view : Bytes)
    (segId : SegmentId) : Modular (Bytes × EncryptionSummary) :=
  if encryptionPolicy.isEnabled then do
    Modular.deriveKey capsuleId segId
    encrypt view encryptionPolicy segId
  else pure (view, EncryptionSummary.new "none")

/-- Store a view under a new identifier. -/
def storeSegment (capsuleId : CapsuleId) (encryptionPolicy : EncryptionPolicy) (view : Bytes)
    (summary : CompressionSummary) (hash : ContentHash) : Modular SegmentId :=
  inTxn do
    let segId ← allocateSegment
    let (payload, encryptionSummary) ← encryptView capsuleId encryptionPolicy view segId
    append segId payload
    setSegmentMetadata segId
      (.new segId payload summary hash encryptionSummary encryptionPolicy.isEnabled)
    commit
    return segId

/-- One segment of the plan. -/
def writeSegment (capsuleId : CapsuleId) (data : Bytes) (compressionPolicy : CompressionPolicy)
    (encryptionPolicy : EncryptionPolicy) (st : WriteState) (seg : SegmentRef) :
    Modular WriteState := do
  let start := seg.offset
  let finish := min (start + seg.length) usizeMax
  if data.length < finish then
    .fail (.msg ("zone plan refers beyond input data: " ++ toString finish ++ " > " ++
      toString data.length))
  else
    let chunk := (data.drop start).take (finish - start)
    let (view, summary) ← compress chunk compressionPolicy
    let hash ← Modular.hashContent view
    match ← lookupContent hash with
    | some existing =>
      let segment ← metadata existing
      updateMetadata existing (segment.withRefCount (asU32 (segment.refCount + 1)))
      recordStats summary.outputSize true
      return st.push existing summary.outputSize true
    | none =>
      let segId ← storeSegment capsuleId encryptionPolicy view summary hash
      registerContent hash segId
      dedupRegister hash segId
      recordStats summary.outputSize false
      return st.push segId summary.outputSize false

/-- `write_capsule`; the pipeline draws the identifier `capsuleId`. -/
def writeCapsule (capsuleId : CapsuleId) (data : Bytes) (policy : Policy) : Modular CapsuleId := do
  let compressionPolicy ← evaluateCompression policy (data.take 1024)
  let zones ← Prog.lift (zonePlan policy data)
  let encryptionPolicy ← evaluateEncryption policy
  let st ← (zones.flatMap Zone.segments).foldlM
    (writeSegment capsuleId data compressionPolicy encryptionPolicy) {}
  createCapsule capsuleId data.length policy st.segmentIds st.dedupStats
  return capsuleId

/-- The data of one segment of a capsule. -/
def readSegment (policy : Policy) (segId : SegmentId) : Modular Bytes := do
  let segment ← metadata segId
  let raw ← read segId
  let decrypted ← if segment.encrypted then decrypt raw policy.encryption segId else pure raw
  if segment.compressed then decompress decrypted segment.compressionAlgo else pure decrypted

/-- `read_capsule`. -/
def readCapsule (id : CapsuleId) : Modular Bytes := do
  let capsule ← lookupCapsule id
  capsule.segments.foldlM (fun output segId => do
    let data ← readSegment capsule.policy segId
    return output ++ data) []

/-- Take one reference of a segment back; with the last one the segment goes. -/
def releaseSegment (segId : SegmentId) : Modular Unit := do
  let segment ← metadata segId
  if 1 < segment.refCount then
    updateMetadata segId (segment.withRefCount (segment.refCount - 1))
  else
    delete segId
    match segment.contentHash with
    | some hash => discard (deregisterContent hash segId)
    | none => pure ()

/-- `delete_capsule`. -/
def deleteCapsule (id : CapsuleId) : Modular Unit := do
  let capsule ← lookupCapsule id
  capsule.segments.foldlM (fun _ segId => releaseSegment segId) ()
  discard (Modular.deleteCapsule id)

/-- One segment of the storage: it goes, unless a capsule lists it and it has references. -/
def collectSegment (referenced : List SegmentId) (contentMap : Table SegmentId ContentHash)
    (reclaimed : Nat) (segId : SegmentId) : Modular Nat := do
  match ← (metadata segId).attempt with
  | .error _ => return reclaimed
  | .ok segment =>
    if segId ∈ referenced ∧ 0 < segment.refCount then return reclaimed
    else
      txnDelete segId
      match contentMap.lookup segId with
      | some hash => discard (deregisterContent hash segId)
      | none => pure ()
      return reclaimed + 1

/-- `garbage_collect`. -/
def garbageCollect (capsuleOrd : Order Capsule) (contentOrd : Order (ContentHash × SegmentId))
    (segmentOrd : Order SegmentId) : Modular Nat := do
  let capsules ← capsules capsuleOrd
  let referenced := capsules.flatMap Capsule.segments
  let entries ← contentEntries contentOrd
  let contentMap := contentMapOf entries
  let orphanSegments ← segmentIds segmentOrd
  inTxn do
    let reclaimed ← orphanSegments.foldlM (collectSegment referenced contentMap) 0
    commit
    return reclaimed

end Pipeline

end Space

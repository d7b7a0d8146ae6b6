import Space.Store.Interface

/-!
# Native — Reclaim

Deleting a capsule, the garbage collector, and the reconciliation of reference counts when a
pipeline is opened.  A delete removes the capsule from the registry first, and then gives back
one reference for each entry of its segment list; a segment whose count reaches zero is
deregistered and removed.
-/

namespace Space
open Support

namespace GarbageCollector

/-- What `reclaim_segment` does once the hash of the segment has gone. -/
def dropReclaimed (segment : Segment) : Native Unit := do
  match ← Native.removeSegment segment.id with
  | some _ => pure ()
  | none => .fail (.msg ("Segment " ++ segment.id.debug ++ " vanished during GC"))

/-- Deregister and remove a segment whose count was zero when it was listed. -/
def reclaimSegment (segment : Segment) : Native Unit := do
  match segment.contentHash with
  | some hash => discard (Native.deregisterContent hash segment.id)
  | none => pure ()
  dropReclaimed segment

theorem reclaimSegment_none {segment : Segment} (h : segment.contentHash = none) :
    reclaimSegment segment = dropReclaimed segment := by
  unfold reclaimSegment
  rw [h]

theorem reclaimSegment_some {segment : Segment} {hash : ContentHash}
    (h : segment.contentHash = some hash) : reclaimSegment segment =
      discard (Native.deregisterContent hash segment.id) >>= fun _ => dropReclaimed segment := by
  unfold reclaimSegment
  rw [h]

/-- Sweep the segments without references; the answer is how many there were. -/
def sweep (ord : Order Segment) : Native Nat := do
  let segments ← Native.listSegments ord
  segments.foldlM (fun reclaimed segment => do
    if segment.refCount = 0 then
      reclaimSegment segment
      return reclaimed + 1
    else return reclaimed) 0

end GarbageCollector

namespace WritePipeline

/-- Give back one reference to a segment. -/
def releaseSegment (segId : SegmentId) : Native Unit := do
  let segment ← Native.decrementRefcount segId
  if segment.refCount = 0 then
    match segment.contentHash with
    | some hash => discard (Native.deregisterContent hash segId)
    | none => pure ()
    discard (Native.removeSegment segId)

/-- `delete_capsule`. -/
def deleteCapsule (capsuleId : CapsuleId) : Native Unit := do
  let capsule ← Native.registryDeleteCapsule capsuleId
  capsule.segments.foldlM (fun _ segId => releaseSegment segId) ()

/-- `garbage_collect`. -/
def garbageCollect (ord : Order Segment) : Native Nat := GarbageCollector.sweep ord

/-! ### Reconciliation -/

/-- `counts.entry(seg_id).and_modify(|c| *c += 1).or_insert(1)`, on `u32` counts. -/
def bump (counts : Table SegmentId Nat) (segId : SegmentId) : Table SegmentId Nat :=
  match counts.lookup segId with
  | some c => counts.insert segId (asU32 (c + 1))
  | none => counts.insert segId 1

/-- Count the references of the listed capsules. -/
def countReferences (ids : List CapsuleId) : Native (Table SegmentId Nat) :=
  ids.foldlM (fun counts capsuleId => do
    match ← (Native.lookup capsuleId).attempt with
    | .ok capsule => return capsule.segments.foldl bump counts
    | .error _ => return counts) ∅

/-- Correct the reference count of one segment. -/
def reconcileSegment (counts : Table SegmentId Nat) (segment : Segment) : Native Unit :=
  let expected := (counts.lookup segment.id).getD 0
  if segment.refCount ≠ expected then
    Native.updateSegmentMetadata segment.id
      { segment with refCount := expected, deduplicated := decide (1 < expected) }
  else pure ()

/-- `reconcile_refcounts`: recount, correct, sweep. -/
def reconcileRefcounts (capsuleOrd : Order CapsuleId) (segmentOrd sweepOrd : Order Segment) :
    Native Unit := do
  let ids ← Native.listCapsules capsuleOrd
  let counts ← countReferences ids
  let segments ← Native.listSegments segmentOrd
  segments.foldlM (fun _ segment => reconcileSegment counts segment) ()
  discard (GarbageCollector.sweep sweepOrd)

end WritePipeline

end Space

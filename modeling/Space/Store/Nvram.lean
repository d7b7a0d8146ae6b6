import Space.Support.Extent
import Space.Common.Error

/-!
# Store — Nvram

The NVRAM log: a file of payloads, the segment map, the offset of the next append, and the saved
copy of the segment map.  Each method changes the shared state under its locks and then saves the
map; I/O does not fail here.  A read past the end of the file does.

A transaction is a value of its owner: the pending segments with their payloads, the offset it
began at, and its private offset.  Of the log it changes the shared `nextOffset` when it appends,
the file, the map and `nextOffset` when it commits, and `nextOffset` when it is rolled back.
-/

namespace Space
open Support

/-- The log and what is on disk of it. -/
structure NvramLog where
  file : Bytes
  segmentMap : Table SegmentId Segment
  nextOffset : Nat
  savedMap : Option (Table SegmentId Segment)

structure PendingSegment where
  segment : Segment
  data : Bytes
  deriving DecidableEq

structure NvramTransaction where
  pending : List PendingSegment
  baseOffset : Nat
  currentOffset : Nat
  finalized : Bool
  deriving DecidableEq

namespace NvramLog

/-- A log over new files. -/
def empty : NvramLog where
  file := []
  segmentMap := ∅
  nextOffset := 0
  savedMap := none

/-- `open`: the saved map, and the next append at the end of the file. -/
def reopen (log : NvramLog) : NvramLog where
  file := log.file
  segmentMap := log.savedMap.getD ∅
  nextOffset := log.file.length
  savedMap := log.savedMap

def saveSegmentMap (log : NvramLog) : NvramLog := { log with savedMap := some log.segmentMap }

/-- Replace the map and save it. -/
def withMap (log : NvramLog) (m : Table SegmentId Segment) : NvramLog :=
  saveSegmentMap { log with segmentMap := m }

/-- All known segments, in the order of one traversal. -/
def listSegments (log : NvramLog) (ord : Order Segment) : List Segment :=
  ord.reorder log.segmentMap.values

def listSegmentIds (log : NvramLog) (ord : Order SegmentId) : List SegmentId :=
  ord.reorder log.segmentMap.keys

def append (log : NvramLog) (segId : SegmentId) (data : Bytes) : Segment × NvramLog :=
  let segment := Segment.appended segId log.nextOffset (asU32 data.length)
  (segment,
    { log with
      file := writeAt 0 log.file log.nextOffset data
      nextOffset := log.nextOffset + data.length }.withMap (log.segmentMap.insert segId segment))

def incrementRefcount (log : NvramLog) (segId : SegmentId) : Except Error Segment × NvramLog :=
  match log.segmentMap.lookup segId with
  | none => (.error (.msg ("Segment not found: " ++ segId.debug)), log)
  | some segment =>
    let refCount := saturatingSucc segment.refCount
    let updated := { segment with
      refCount := refCount
      deduplicated := decide (1 < refCount)
      accessCount := saturatingSucc segment.accessCount }
    (.ok updated, log.withMap (log.segmentMap.insert segId updated))

def decrementRefcount (log : NvramLog) (segId : SegmentId) : Except Error Segment × NvramLog :=
  match log.segmentMap.lookup segId with
  | none => (.error (.msg ("Segment not found: " ++ segId.debug)), log)
  | some segment =>
    if segment.refCount = 0 then
      (.error (.msg ("Segment " ++ segId.debug ++ " already has ref_count=0")), log)
    else
      let updated := { segment with
        refCount := segment.refCount - 1
        deduplicated := decide (1 < segment.refCount - 1) }
      (.ok updated, log.withMap (log.segmentMap.insert segId updated))

/-- Remove a segment; the map is saved only if there was one. -/
def removeSegment (log : NvramLog) (segId : SegmentId) : Option Segment × NvramLog :=
  match log.segmentMap.lookup segId with
  | none => (none, log)
  | some segment => (some segment, log.withMap (log.segmentMap.erase segId))

theorem removeSegment_of_some {log : NvramLog} {segId : SegmentId} {segment : Segment}
    (h : log.segmentMap.lookup segId = some segment) :
    log.removeSegment segId = (some segment, log.withMap (log.segmentMap.erase segId)) := by
  rw [removeSegment, h]

theorem removeSegment_segmentMap (log : NvramLog) (segId : SegmentId) :
    (log.removeSegment segId).2.segmentMap = log.segmentMap.erase segId := by
  cases h : log.segmentMap.lookup segId with
  | none =>
      rw [removeSegment, h]
      exact (Table.erase_of_lookup_none h).symm
  | some segment =>
      rw [removeSegment_of_some h]
      rfl

theorem removeSegment_lookup (log : NvramLog) (x y : SegmentId) :
    (log.removeSegment x).2.segmentMap.lookup y =
      if y = x then none else log.segmentMap.lookup y := by
  rw [removeSegment_segmentMap]
  exact Table.lookup_erase ..

theorem removeSegment_lookup_eq_some {log : NvramLog} {x y : SegmentId} {segment : Segment} :
    (log.removeSegment x).2.segmentMap.lookup y = some segment ↔
      y ≠ x ∧ log.segmentMap.lookup y = some segment := by
  rw [removeSegment_segmentMap]
  exact Table.lookup_erase_eq_some

theorem removeSegment_file (log : NvramLog) (x : SegmentId) :
    (log.removeSegment x).2.file = log.file := by
  rw [removeSegment]
  split <;> rfl

/-- Segments are removed, one after the other. -/
theorem removeAll (gone : List SegmentId) (log : NvramLog) :
    (gone.foldl (fun log x => (log.removeSegment x).2) log).file = log.file ∧
      ∀ y, (gone.foldl (fun log x => (log.removeSegment x).2) log).segmentMap.lookup y =
        if y ∈ gone then none else log.segmentMap.lookup y := by
  induction gone generalizing log with
  | nil => exact ⟨rfl, fun _ => rfl⟩
  | cons x gone ih =>
      obtain ⟨hfile, hmap⟩ := ih (log.removeSegment x).2
      refine ⟨hfile.trans (removeSegment_file log x), fun y => (hmap y).trans ?_⟩
      rw [removeSegment_lookup]
      by_cases hy : y ∈ gone
      · rw [if_pos hy, if_pos (List.mem_cons_of_mem x hy)]
      · rw [if_neg hy]
        exact if_congr (List.mem_cons.trans (or_iff_left hy)).symm rfl rfl

/-- Read the extent of a segment; `read_exact` fails past the end of the file. -/
def read (log : NvramLog) (segId : SegmentId) : Except Error Bytes :=
  match log.segmentMap.lookup segId with
  | none => .error (.msg "Segment not found")
  | some segment =>
    if segment.offset + segment.len ≤ log.file.length ∨ segment.len = 0 then
      .ok (slice log.file segment.offset segment.len)
    else .error (.msg "failed to fill whole buffer")

def getSegmentMetadata (log : NvramLog) (segId : SegmentId) : Except Error Segment :=
  match log.segmentMap.lookup segId with
  | none => .error (.msg ("Segment not found: " ++ segId.debug))
  | some segment => .ok segment

def updateSegmentMetadata (log : NvramLog) (segId : SegmentId) (segment : Segment) : NvramLog :=
  log.withMap (log.segmentMap.insert segId segment)

def beginTransaction (log : NvramLog) : NvramTransaction where
  pending := []
  baseOffset := log.nextOffset
  currentOffset := log.nextOffset
  finalized := false

end NvramLog

/-! ### Transactions -/

namespace NvramTransaction

/-- Refuse a transaction that was committed or rolled back. -/
def ensureActive (t : NvramTransaction) : Except Error Unit :=
  if t.finalized then .error (.msg "transaction already finalized") else .ok ()

/-- Stage a segment at the private offset, and move the shared offset past it. -/
def appendSegment (t : NvramTransaction) (segId : SegmentId) (data : Bytes) (log : NvramLog) :
    Except Error (Segment × NvramTransaction) × NvramLog :=
  match t.ensureActive with
  | .error e => (.error e, log)
  | .ok () =>
    let segment := Segment.appended segId t.currentOffset (asU32 data.length)
    let currentOffset := t.currentOffset + data.length
    (.ok (segment, { t with
        pending := t.pending ++ [⟨segment, data⟩], currentOffset := currentOffset }),
      { log with nextOffset := currentOffset })

/-- Change the first pending segment of an identifier, if there is one. -/
def modifyPending (segId : SegmentId) (f : Segment → Segment) :
    List PendingSegment → Option (List PendingSegment)
  | [] => none
  | p :: ps =>
    if p.segment.id = segId then some ({ p with segment := f p.segment } :: ps)
    else (modifyPending segId f ps).map (p :: ·)

def withSegmentMut (t : NvramTransaction) (segId : SegmentId) (f : Segment → Segment) :
    Except Error NvramTransaction := do
  t.ensureActive
  match modifyPending segId f t.pending with
  | none => .error (.msg ("pending segment " ++ segId.debug ++ " not found"))
  | some pending => .ok { t with pending := pending }

def setSegmentMetadata (t : NvramTransaction) (segId : SegmentId) (segment : Segment) :
    Except Error NvramTransaction := t.withSegmentMut segId fun _ => segment

def pendingSegment (t : NvramTransaction) (segId : SegmentId) : Option Segment :=
  (t.pending.find? fun p => p.segment.id = segId).map PendingSegment.segment

/-- The file after the payloads of the pending segments are written, each at its offset. -/
def writePending (pending : List PendingSegment) (file : Bytes) : Bytes :=
  pending.foldl (fun file p => writeAt 0 file p.segment.offset p.data) file

/-- The map after the pending segments are installed, in order. -/
def installPending (pending : List PendingSegment) (m : Table SegmentId Segment) :
    Table SegmentId Segment :=
  pending.foldl (fun m p => m.insert p.segment.id p.segment) m

/-- Write the payloads, move the shared offset to the private one, install and save the map. -/
def commit (t : NvramTransaction) (log : NvramLog) : NvramTransaction × NvramLog :=
  if t.finalized then (t, log)
  else if t.pending = [] then ({ t with finalized := true }, log)
  else
    ({ t with pending := [], finalized := true },
      { log with
        file := writePending t.pending log.file
        nextOffset := t.currentOffset }.withMap (installPending t.pending log.segmentMap))

/-- Reset the shared offset to the one the transaction began at.  Dropping an active transaction
does this as well. -/
def rollback (t : NvramTransaction) (log : NvramLog) : NvramTransaction × NvramLog :=
  if t.finalized then (t, log)
  else
    ({ t with pending := [], currentOffset := t.baseOffset, finalized := true },
      { log with nextOffset := t.baseOffset })

/-! ### What a change of a transaction is -/

/-- A payload that is staged. -/
theorem appendSegment_eq {t t' : NvramTransaction} {segId : SegmentId} {data : Bytes}
    {segment : Segment} {log log' : NvramLog}
    (h : t.appendSegment segId data log = (.ok (segment, t'), log')) :
    segment = Segment.appended segId t.currentOffset (asU32 data.length) ∧
      t' = { t with
        pending := t.pending ++ [⟨segment, data⟩]
        currentOffset := t.currentOffset + data.length } ∧
      log' = { log with nextOffset := t.currentOffset + data.length } := by
  unfold appendSegment at h
  cases ha : t.ensureActive with
  | error e =>
      rw [ha] at h
      cases h
  | ok u =>
      rw [ha] at h
      cases h
      exact ⟨rfl, rfl, rfl⟩

/-- A pending segment that is changed. -/
theorem withSegmentMut_eq {t t' : NvramTransaction} {segId : SegmentId} {f : Segment → Segment}
    (h : t.withSegmentMut segId f = .ok t') :
    ∃ pending, modifyPending segId f t.pending = some pending ∧
      t' = { t with pending := pending } := by
  unfold withSegmentMut at h
  cases ha : t.ensureActive with
  | error e =>
      rw [ha] at h
      cases h
  | ok u =>
      rw [ha] at h
      cases hm : modifyPending segId f t.pending with
      | none =>
          simp only [hm] at h
          cases h
      | some pending =>
          simp only [hm] at h
          exact ⟨pending, rfl, (Except.ok.inj h).symm⟩

/-- Of the pending segments, it is the first with the identifier. -/
theorem modifyPending_mem {segId : SegmentId} {f : Segment → Segment}
    {pending pending' : List PendingSegment} {p : PendingSegment} (hp : p ∈ pending')
    (h : modifyPending segId f pending = some pending') :
    p ∈ pending ∨ ∃ old ∈ pending, p = { old with segment := f old.segment } ∧
      (pending.find? fun p => p.segment.id = segId) = some old := by
  induction pending generalizing pending' with
  | nil => cases h
  | cons q ps ih =>
      rw [modifyPending] at h
      by_cases e : q.segment.id = segId
      · rw [if_pos e] at h
        obtain rfl := Option.some.inj h
        rcases List.mem_cons.mp hp with rfl | hp
        · exact .inr ⟨q, List.mem_cons_self, rfl, List.find?_cons_of_pos (by simpa using e)⟩
        · exact .inl (List.mem_cons_of_mem _ hp)
      · rw [if_neg e] at h
        obtain ⟨rest, hrest, rfl⟩ := Option.map_eq_some_iff.mp h
        rcases List.mem_cons.mp hp with rfl | hp
        · exact .inl List.mem_cons_self
        · rcases ih hp hrest with hp | ⟨old, hold, rfl, hfind⟩
          · exact .inl (List.mem_cons_of_mem _ hp)
          · refine .inr ⟨old, List.mem_cons_of_mem _ hold, rfl, ?_⟩
            rw [List.find?_cons_of_neg (by simpa using e)]
            exact hfind

end NvramTransaction

end Space

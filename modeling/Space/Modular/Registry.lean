import Space.Modular.Pipeline

/-!
# Modular — Registry

The modular pipeline over the log and the registry of the native one (`RegistryPipelineHandle`): the
storage is `NvramBackend`, whose transaction is one of the log with the deletes it has collected,
and the catalog is `CapsuleRegistry`.  The two pipelines may share both.

A transaction of the log changes the metadata of the segments it has staged itself, and of no other.
-/

namespace Space
open Support

/-! ### The storage -/

structure NvramStorageTransaction where
  inner : NvramTransaction
  deleted : List SegmentId := []

/-- Between two methods there is no transaction that could be committed or rolled back. -/
def NvramStorageTransaction.none : NvramStorageTransaction := ⟨⟨[], 0, 0, true⟩, []⟩

structure NvramBackend where
  log : NvramLog
  transaction : NvramStorageTransaction

namespace NvramBackend
variable (b : NvramBackend)

def append (segment : SegmentId) (data : Bytes) : Except Error Unit × NvramBackend :=
  match b.transaction.inner.appendSegment segment data b.log with
  | (.error e, log) => (.error e, { b with log := log })
  | (.ok (_, inner), log) => (.ok (), ⟨log, { b.transaction with inner := inner }⟩)

def setSegmentMetadata (segment : SegmentId) (metadata : Segment) :
    Except Error Unit × NvramBackend :=
  match b.transaction.inner.setSegmentMetadata segment metadata with
  | .error e => (.error e, b)
  | .ok inner => (.ok (), { b with transaction := { b.transaction with inner := inner } })

/-- What is staged is committed, and then what is deleted is removed. -/
def commit : NvramBackend where
  log := b.transaction.deleted.foldl (fun log segment => (log.removeSegment segment).2)
    (b.transaction.inner.commit b.log).2
  transaction := ⟨(b.transaction.inner.commit b.log).1, []⟩

/-- `NvramBackend`, with `NvramStorageTransaction`. -/
def storage : StorageBackend NvramBackend where
  read := fun x b => b.log.read x
  metadata := fun x b => b.log.getSegmentMetadata x
  delete := fun x b => (.ok (), { b with log := (b.log.removeSegment x).2 })
  segmentIds := fun ord b => b.log.listSegmentIds ord
  beginTxn := fun b => { b with transaction := ⟨b.log.beginTransaction, []⟩ }
  append := fun x data b => b.append x data
  setSegmentMetadata := fun x segment b => b.setSegmentMetadata x segment
  txnDelete := fun x b => { b with transaction :=
    { b.transaction with deleted := b.transaction.deleted ++ [x] } }
  commit := fun b => (.ok (), b.commit)
  dropTxn := fun b =>
    ⟨(b.transaction.inner.rollback b.log).2, ⟨(b.transaction.inner.rollback b.log).1, []⟩⟩

end NvramBackend

/-! ### The catalog -/

namespace CapsuleRegistry

/-- `CapsuleCatalog::create_capsule`. -/
def createCapsule (reg : CapsuleRegistry) (id : CapsuleId) (size : Nat) (policy : Policy)
    (segments : List SegmentId) (stats : DedupStats) : Except Error Unit × CapsuleRegistry :=
  match reg.createCapsuleWithSegments id size segments policy with
  | (.error e, reg) => (.error e, reg)
  | (.ok (), reg) =>
    match reg.capsules.lookup id with
    | some capsule =>
      let capsule := { capsule with policy := policy, dedupedBytes := stats.bytesSaved }
      (.ok (), { reg with capsules := reg.capsules.insert id capsule }.save)
    | none => (.ok (), reg.save)

/-- `CapsuleCatalog::capsules`. -/
def listAll (reg : CapsuleRegistry) (ord : Order Capsule) : List Capsule :=
  ord.reorder reg.capsules.values

/-- `CapsuleCatalog::content_entries`. -/
def contentEntries (reg : CapsuleRegistry) (ord : Order (ContentHash × SegmentId)) :
    List (ContentHash × SegmentId) :=
  ord.reorder (reg.contentStore.entries.map fun e => (e.1, e.2))

end CapsuleRegistry

/-! ### The operations -/

variable {P : Primitives}

/-- What a method runs on: the store of the native pipeline, and its transaction. -/
abbrev Registered (P : Primitives) := Store P × NvramStorageTransaction

/-- The registry, after one of its methods. -/
def Registered.setRegistry (s : Registered P) (reg : CapsuleRegistry) : Registered P :=
  ({ s.1 with registry := reg }, s.2)

/-- The storage of the pipeline. -/
def Registered.backend (s : Registered P) : NvramBackend := ⟨s.1.nvram, s.2⟩

def Registered.setBackend (s : Registered P) (b : NvramBackend) : Registered P :=
  ({ s.1 with nvram := b.log }, b.transaction)

/-- What the operations do, over the log and the registry. -/
def ModularOp.execRegistry (parts : Parts) : Handler ModularSig Error (Registered P)
  | .allocateSegment, s =>
    (.ok s.1.registry.allocSegment.1, s.setRegistry s.1.registry.allocSegment.2)
  | .lookupCapsule id, s => (s.1.registry.lookup id, s)
  | .createCapsule id size policy segments stats, s =>
    ((s.1.registry.createCapsule id size policy segments stats).1,
      s.setRegistry (s.1.registry.createCapsule id size policy segments stats).2)
  | .deleteCapsule id, s =>
    ((s.1.registry.deleteCapsule id).1, s.setRegistry (s.1.registry.deleteCapsule id).2)
  | .lookupContent hash, s => (.ok (s.1.registry.lookupContent hash), s)
  | .registerContent hash x, s => (.ok (), s.setRegistry (s.1.registry.registerContent hash x))
  | .deregisterContent hash x, s =>
    (.ok (s.1.registry.deregisterContent hash x).1,
      s.setRegistry (s.1.registry.deregisterContent hash x).2)
  | .capsules ord, s => (.ok (s.1.registry.listAll ord), s)
  | .contentEntries ord, s => (.ok (s.1.registry.contentEntries ord), s)
  -- the parts and the storage; they do not see the catalog
  | o, s =>
    let r := o.exec parts NvramBackend.storage (s.backend, {})
    (r.1, s.setBackend r.2.1)

/-! ### The methods -/

/-- The methods of the pipeline that change something. -/
inductive ModularCommand where
  | write (id : CapsuleId) (data : Bytes) (policy : Policy)
  | delete (id : CapsuleId)
  | collect (capsuleOrd : Order Capsule) (contentOrd : Order (ContentHash × SegmentId))
      (segmentOrd : Order SegmentId)

namespace ModularCommand

def program : ModularCommand → Modular Unit
  | write id data policy => discard (Pipeline.writeCapsule id data policy)
  | delete id => Pipeline.deleteCapsule id
  | collect capsuleOrd contentOrd segmentOrd =>
      discard (Pipeline.garbageCollect capsuleOrd contentOrd segmentOrd)

/-- Run a method to its end, over parts. -/
def run (parts : Parts) (c : ModularCommand) (s : Store P) : Except Error Unit × Store P :=
  let r := c.program.run (ModularOp.execRegistry parts) (s, .none)
  (r.1, r.2.1)

end ModularCommand

end Space

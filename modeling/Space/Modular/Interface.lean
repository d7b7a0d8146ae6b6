import Space.Codec.Compression
import Space.Support.Program

/-!
# Modular — Interface

What the modular pipeline is composed of.  The traits that compute (`Compressor`, `Deduper`,
`Encryptor`, `PolicyEvaluator`, `Keyring`) are one record of functions, `Parts`; the storage is a
record of functions on its state, `StorageBackend`.  The catalog is the in-memory one.

A call of a trait is an operation (`ModularOp`), and the methods of the pipeline are programs over
these.  A transaction is a local variable of the method that began it; there is one at a time, and
it is kept beside the storage.
-/

namespace Space
open Support

/-! ### The parts that compute -/

/-- What an encryptor reports of a segment. -/
structure EncryptionSummary where
  algorithm : String
  keyVersion : Option UInt32
  encryptionVersion : Option UInt16
  mac : Option Bytes
  tweakNonce : Option (Block 16)
  integrityTag : Option (Block 16)
  deriving DecidableEq

def EncryptionSummary.new (algorithm : String) : EncryptionSummary where
  algorithm := algorithm
  keyVersion := none
  encryptionVersion := none
  mac := none
  tweakNonce := none
  integrityTag := none

/-- A compressor, a deduper, an encryptor, a policy evaluator and, if there is one, a keyring, of
which the pipeline drops the key. -/
structure Parts where
  compress : Bytes → CompressionPolicy → Except Error (Bytes × CompressionSummary)
  decompress : Bytes → String → Except Error Bytes
  hashContent : Bytes → ContentHash
  registerContent : ContentHash → SegmentId → Except Error Unit
  encrypt : Bytes → EncryptionPolicy → SegmentId → Except Error (Bytes × EncryptionSummary)
  decrypt : Bytes → EncryptionPolicy → SegmentId → Except Error Bytes
  evaluateCompression : Policy → Bytes → Except Error CompressionPolicy
  evaluateEncryption : Policy → Except Error EncryptionPolicy
  deriveKey : CapsuleId → SegmentId → Except Error Unit

/-! ### The storage -/

/-- A storage and its transactions, on states `β`. -/
structure StorageBackend (β : Type) where
  read : SegmentId → β → Except Error Bytes
  metadata : SegmentId → β → Except Error Segment
  delete : SegmentId → β → Except Error Unit × β
  segmentIds : Order SegmentId → β → List SegmentId
  beginTxn : β → β
  append : SegmentId → Bytes → β → Except Error Unit × β
  setSegmentMetadata : SegmentId → Segment → β → Except Error Unit × β
  txnDelete : SegmentId → β → β
  commit : β → Except Error Unit × β
  dropTxn : β → β

structure InMemoryTransaction where
  stagedSegments : Table SegmentId Bytes := ∅
  stagedMetadata : Table SegmentId Segment := ∅
  deleted : List SegmentId := []

structure InMemoryBackend where
  segments : Table SegmentId Bytes := ∅
  metadata : Table SegmentId Segment := ∅
  transaction : InMemoryTransaction := {}

namespace InMemoryBackend
variable (b : InMemoryBackend)

/-- Change the transaction. -/
def stage (f : InMemoryTransaction → InMemoryTransaction) : InMemoryBackend :=
  { b with transaction := f b.transaction }

/-- What is staged is entered, and then what is deleted is erased. -/
def commit : InMemoryBackend where
  segments := Table.eraseAll b.transaction.deleted (b.transaction.stagedSegments ∪ b.segments)
  metadata := Table.eraseAll b.transaction.deleted (b.transaction.stagedMetadata ∪ b.metadata)
  transaction := {}

/-- `InMemoryBackend`, with `InMemoryTransaction`. -/
def storage : StorageBackend InMemoryBackend where
  read := fun x b =>
    match b.segments.lookup x with
    | some data => .ok data
    | none => .error (.msg ("segment " ++ x.debug ++ " not found"))
  metadata := fun x b =>
    match b.metadata.lookup x with
    | some segment => .ok segment
    | none => .error (.msg ("segment " ++ x.debug ++ " metadata not found"))
  delete := fun x b =>
    (.ok (), { b with segments := b.segments.erase x, metadata := b.metadata.erase x })
  segmentIds := fun ord b => ord.reorder b.metadata.keys
  beginTxn := fun b => { b with transaction := {} }
  append := fun x data b => (.ok (), b.stage fun t =>
    { t with stagedSegments := t.stagedSegments.insert x data })
  setSegmentMetadata := fun x segment b => (.ok (), b.stage fun t =>
    { t with stagedMetadata := t.stagedMetadata.insert x segment })
  txnDelete := fun x b => b.stage fun t => { t with deleted := t.deleted ++ [x] }
  commit := fun b => (.ok (), b.commit)
  dropTxn := fun b => { b with transaction := {} }

end InMemoryBackend

/-! ### The catalog -/

structure InMemoryCatalog where
  nextSegment : Nat := 0
  capsules : Table CapsuleId Capsule := ∅
  content : Table ContentHash SegmentId := ∅

/-- `Debug` of a capsule identifier. -/
def CapsuleId.debug (id : CapsuleId) : String :=
  let digits := (List.range 32).reverse.map fun i => Nat.digitChar (id.val / 16 ^ i % 16)
  "CapsuleId(" ++ String.ofList (digits.take 8) ++ "-" ++
    String.ofList ((digits.drop 8).take 4) ++ "-" ++ String.ofList ((digits.drop 12).take 4) ++
    "-" ++ String.ofList ((digits.drop 16).take 4) ++ "-" ++ String.ofList (digits.drop 20) ++ ")"

namespace InMemoryCatalog
variable (c : InMemoryCatalog)

def allocateSegment : SegmentId × InMemoryCatalog :=
  (⟨c.nextSegment⟩, { c with nextSegment := c.nextSegment + 1 })

def lookupCapsule (id : CapsuleId) : Except Error Capsule :=
  match c.capsules.lookup id with
  | some capsule => .ok capsule
  | none => .error (.msg ("capsule " ++ id.debug ++ " not found"))

/-- An identifier that is there already gets the new capsule. -/
def createCapsule (id : CapsuleId) (size : Nat) (policy : Policy) (segments : List SegmentId)
    (stats : DedupStats) : InMemoryCatalog :=
  { c with capsules := c.capsules.insert id ⟨id, size, segments, policy, stats.bytesSaved⟩ }

def deleteCapsule (id : CapsuleId) : Except Error Capsule × InMemoryCatalog :=
  match c.capsules.lookup id with
  | some capsule => (.ok capsule, { c with capsules := c.capsules.erase id })
  | none => (.error (.msg ("capsule " ++ id.debug ++ " not found")), c)

def registerContent (hash : ContentHash) (segment : SegmentId) : InMemoryCatalog :=
  { c with content := c.content.insert hash segment }

/-- Remove an entry if it still names the segment. -/
def deregisterContent (hash : ContentHash) (segment : SegmentId) : Bool × InMemoryCatalog :=
  if c.content.lookup hash = some segment then
    (true, { c with content := c.content.erase hash })
  else (false, c)

def contentEntries (ord : Order (ContentHash × SegmentId)) : List (ContentHash × SegmentId) :=
  ord.reorder (c.content.entries.map fun e => (e.1, e.2))

end InMemoryCatalog

/-! ### The operations -/

inductive ModularOp where
  | compress (data : Bytes) (policy : CompressionPolicy)
  | decompress (data : Bytes) (algorithm : String)
  | hashContent (data : Bytes)
  | dedupRegister (hash : ContentHash) (segment : SegmentId)
  | encrypt (data : Bytes) (policy : EncryptionPolicy) (segment : SegmentId)
  | decrypt (data : Bytes) (policy : EncryptionPolicy) (segment : SegmentId)
  | evaluateCompression (policy : Policy) (sample : Bytes)
  | evaluateEncryption (policy : Policy)
  | deriveKey (capsule : CapsuleId) (segment : SegmentId)
  | read (segment : SegmentId)
  | metadata (segment : SegmentId)
  | delete (segment : SegmentId)
  | segmentIds (ord : Order SegmentId)
  | beginTxn
  | append (segment : SegmentId) (data : Bytes)
  | setSegmentMetadata (segment : SegmentId) (metadata : Segment)
  | txnDelete (segment : SegmentId)
  | commit
  | dropTxn
  | allocateSegment
  | lookupCapsule (id : CapsuleId)
  | createCapsule (id : CapsuleId) (size : Nat) (policy : Policy) (segments : List SegmentId)
      (stats : DedupStats)
  | deleteCapsule (id : CapsuleId)
  | lookupContent (hash : ContentHash)
  | registerContent (hash : ContentHash) (segment : SegmentId)
  | deregisterContent (hash : ContentHash) (segment : SegmentId)
  | capsules (ord : Order Capsule)
  | contentEntries (ord : Order (ContentHash × SegmentId))
  | recordStats (bytes : Nat) (wasDeduped : Bool)

def ModularOp.Res : ModularOp → Type
  | .compress _ _ => Bytes × CompressionSummary
  | .decompress _ _ => Bytes
  | .hashContent _ => ContentHash
  | .dedupRegister _ _ => Unit
  | .encrypt _ _ _ => Bytes × EncryptionSummary
  | .decrypt _ _ _ => Bytes
  | .evaluateCompression _ _ => CompressionPolicy
  | .evaluateEncryption _ => EncryptionPolicy
  | .deriveKey _ _ => Unit
  | .read _ => Bytes
  | .metadata _ => Segment
  | .delete _ => Unit
  | .segmentIds _ => List SegmentId
  | .beginTxn => Unit
  | .append _ _ => Unit
  | .setSegmentMetadata _ _ => Unit
  | .txnDelete _ => Unit
  | .commit => Unit
  | .dropTxn => Unit
  | .allocateSegment => SegmentId
  | .lookupCapsule _ => Capsule
  | .createCapsule _ _ _ _ _ => Unit
  | .deleteCapsule _ => Capsule
  | .lookupContent _ => Option SegmentId
  | .registerContent _ _ => Unit
  | .deregisterContent _ _ => Bool
  | .capsules _ => List Capsule
  | .contentEntries _ => List (ContentHash × SegmentId)
  | .recordStats _ _ => Unit

abbrev ModularSig : Signature := ⟨ModularOp, ModularOp.Res⟩

/-- Programs of the modular pipeline. -/
abbrev Modular := Prog ModularSig Error

/-- What the operations do, over a storage and the in-memory catalog; the statistics of the pipeline
are beside these. -/
def ModularOp.exec {β : Type} (parts : Parts) (storage : StorageBackend β) :
    Handler ModularSig Error (β × InMemoryCatalog)
  | .compress data policy, s => (parts.compress data policy, s)
  | .decompress data algorithm, s => (parts.decompress data algorithm, s)
  | .hashContent data, s => (.ok (parts.hashContent data), s)
  | .dedupRegister hash x, s => (parts.registerContent hash x, s)
  | .encrypt data policy x, s => (parts.encrypt data policy x, s)
  | .decrypt data policy x, s => (parts.decrypt data policy x, s)
  | .evaluateCompression policy sample, s => (parts.evaluateCompression policy sample, s)
  | .evaluateEncryption policy, s => (parts.evaluateEncryption policy, s)
  | .deriveKey id x, s => (parts.deriveKey id x, s)
  | .read x, s => (storage.read x s.1, s)
  | .metadata x, s => (storage.metadata x s.1, s)
  | .delete x, s => ((storage.delete x s.1).1, (storage.delete x s.1).2, s.2)
  | .segmentIds ord, s => (.ok (storage.segmentIds ord s.1), s)
  | .beginTxn, s => (.ok (), storage.beginTxn s.1, s.2)
  | .append x data, s => ((storage.append x data s.1).1, (storage.append x data s.1).2, s.2)
  | .setSegmentMetadata x segment, s =>
    ((storage.setSegmentMetadata x segment s.1).1,
      (storage.setSegmentMetadata x segment s.1).2, s.2)
  | .txnDelete x, s => (.ok (), storage.txnDelete x s.1, s.2)
  | .commit, s => ((storage.commit s.1).1, (storage.commit s.1).2, s.2)
  | .dropTxn, s => (.ok (), storage.dropTxn s.1, s.2)
  | .allocateSegment, s => (.ok s.2.allocateSegment.1, s.1, s.2.allocateSegment.2)
  | .lookupCapsule id, s => (s.2.lookupCapsule id, s)
  | .createCapsule id size policy segments stats, s =>
    (.ok (), s.1, s.2.createCapsule id size policy segments stats)
  | .deleteCapsule id, s => ((s.2.deleteCapsule id).1, s.1, (s.2.deleteCapsule id).2)
  | .lookupContent hash, s => (.ok (s.2.content.lookup hash), s)
  | .registerContent hash x, s => (.ok (), s.1, s.2.registerContent hash x)
  | .deregisterContent hash x, s =>
    (.ok (s.2.deregisterContent hash x).1, s.1, (s.2.deregisterContent hash x).2)
  | .capsules ord, s => (.ok (ord.reorder s.2.capsules.values), s)
  | .contentEntries ord, s => (.ok (s.2.contentEntries ord), s)
  | .recordStats _ _, s => (.ok (), s)

/-! ### The operations, as programs -/

namespace Modular

def compress (data : Bytes) (policy : CompressionPolicy) : Modular (Bytes × CompressionSummary) :=
  Prog.perform (S := ModularSig) (.compress data policy)

def decompress (data : Bytes) (algorithm : String) : Modular Bytes :=
  Prog.perform (S := ModularSig) (.decompress data algorithm)

def hashContent (data : Bytes) : Modular ContentHash :=
  Prog.perform (S := ModularSig) (.hashContent data)

def dedupRegister (hash : ContentHash) (segment : SegmentId) : Modular Unit :=
  Prog.perform (S := ModularSig) (.dedupRegister hash segment)

def encrypt (data : Bytes) (policy : EncryptionPolicy) (segment : SegmentId) :
    Modular (Bytes × EncryptionSummary) :=
  Prog.perform (S := ModularSig) (.encrypt data policy segment)

def decrypt (data : Bytes) (policy : EncryptionPolicy) (segment : SegmentId) : Modular Bytes :=
  Prog.perform (S := ModularSig) (.decrypt data policy segment)

def evaluateCompression (policy : Policy) (sample : Bytes) : Modular CompressionPolicy :=
  Prog.perform (S := ModularSig) (.evaluateCompression policy sample)

def evaluateEncryption (policy : Policy) : Modular EncryptionPolicy :=
  Prog.perform (S := ModularSig) (.evaluateEncryption policy)

def deriveKey (capsule : CapsuleId) (segment : SegmentId) : Modular Unit :=
  Prog.perform (S := ModularSig) (.deriveKey capsule segment)

def read (segment : SegmentId) : Modular Bytes :=
  Prog.perform (S := ModularSig) (.read segment)

def metadata (segment : SegmentId) : Modular Segment :=
  Prog.perform (S := ModularSig) (.metadata segment)

def delete (segment : SegmentId) : Modular Unit :=
  Prog.perform (S := ModularSig) (.delete segment)

def segmentIds (ord : Order SegmentId) : Modular (List SegmentId) :=
  Prog.perform (S := ModularSig) (.segmentIds ord)

def beginTxn : Modular Unit := Prog.perform (S := ModularSig) .beginTxn

def append (segment : SegmentId) (data : Bytes) : Modular Unit :=
  Prog.perform (S := ModularSig) (.append segment data)

def setSegmentMetadata (segment : SegmentId) (metadata : Segment) : Modular Unit :=
  Prog.perform (S := ModularSig) (.setSegmentMetadata segment metadata)

def txnDelete (segment : SegmentId) : Modular Unit :=
  Prog.perform (S := ModularSig) (.txnDelete segment)

def commit : Modular Unit := Prog.perform (S := ModularSig) .commit

def dropTxn : Modular Unit := Prog.perform (S := ModularSig) .dropTxn

def allocateSegment : Modular SegmentId := Prog.perform (S := ModularSig) .allocateSegment

def lookupCapsule (id : CapsuleId) : Modular Capsule :=
  Prog.perform (S := ModularSig) (.lookupCapsule id)

def createCapsule (id : CapsuleId) (size : Nat) (policy : Policy) (segments : List SegmentId)
    (stats : DedupStats) : Modular Unit :=
  Prog.perform (S := ModularSig) (.createCapsule id size policy segments stats)

def deleteCapsule (id : CapsuleId) : Modular Capsule :=
  Prog.perform (S := ModularSig) (.deleteCapsule id)

def lookupContent (hash : ContentHash) : Modular (Option SegmentId) :=
  Prog.perform (S := ModularSig) (.lookupContent hash)

def registerContent (hash : ContentHash) (segment : SegmentId) : Modular Unit :=
  Prog.perform (S := ModularSig) (.registerContent hash segment)

def deregisterContent (hash : ContentHash) (segment : SegmentId) : Modular Bool :=
  Prog.perform (S := ModularSig) (.deregisterContent hash segment)

def capsules (ord : Order Capsule) : Modular (List Capsule) :=
  Prog.perform (S := ModularSig) (.capsules ord)

def contentEntries (ord : Order (ContentHash × SegmentId)) :
    Modular (List (ContentHash × SegmentId)) :=
  Prog.perform (S := ModularSig) (.contentEntries ord)

def recordStats (bytes : Nat) (wasDeduped : Bool) : Modular Unit :=
  Prog.perform (S := ModularSig) (.recordStats bytes wasDeduped)

/-- What a method does in a transaction; the transaction is dropped if it fails. -/
def inTxn {α : Type} (p : Modular α) : Modular α := do
  beginTxn
  p.onError dropTxn

end Modular

end Space

import Space.Support.Program
import Space.Codec.Encryption
import Space.Store.Nvram
import Space.Store.Registry

/-!
# Store — Interface

What a pipeline shares: the registry, the log, and the key manager.  `StoreOp` is the interface
its programs are written against, one operation for each method they call; each is one step under
the locks the method takes.  `StoreOp.exec` says what the operations do.
-/

namespace Space
open Support

/-- The shared state of a pipeline. -/
structure Store (P : Primitives) where
  registry : CapsuleRegistry
  nvram : NvramLog
  keyManager : Option (KeyManager P)

/-- The methods of the registry, the log, its transactions and the key manager. -/
inductive StoreOp where
  | listCapsules (ord : Order CapsuleId)
  | lookup (id : CapsuleId)
  | allocSegment
  | lookupContent (hash : ContentHash)
  | registerContent (hash : ContentHash) (segId : SegmentId)
  | deregisterContent (hash : ContentHash) (segId : SegmentId)
  | addDedupedBytes (id : CapsuleId) (bytes : Nat)
  | deleteCapsule (id : CapsuleId)
  | createCapsuleWithSegments (id : CapsuleId) (size : Nat) (segments : List SegmentId)
      (policy : Policy)
  | listSegments (ord : Order Segment)
  | append (segId : SegmentId) (data : Bytes)
  | incrementRefcount (segId : SegmentId)
  | decrementRefcount (segId : SegmentId)
  | removeSegment (segId : SegmentId)
  | read (segId : SegmentId)
  | getSegmentMetadata (segId : SegmentId)
  | updateSegmentMetadata (segId : SegmentId) (segment : Segment)
  | beginTransaction
  | appendSegment (t : NvramTransaction) (segId : SegmentId) (data : Bytes)
  | commit (t : NvramTransaction)
  | rollback (t : NvramTransaction)
  | currentKey
  | getKey (keyVersion : Option UInt32)

/-- What each method answers. -/
def StoreOp.Res : StoreOp → Type
  | .listCapsules _ => List CapsuleId
  | .lookup _ => Capsule
  | .allocSegment => SegmentId
  | .lookupContent _ => Option SegmentId
  | .registerContent _ _ => Unit
  | .deregisterContent _ _ => Bool
  | .addDedupedBytes _ _ => Unit
  | .deleteCapsule _ => Capsule
  | .createCapsuleWithSegments _ _ _ _ => Unit
  | .listSegments _ => List Segment
  | .append _ _ => Segment
  | .incrementRefcount _ => Segment
  | .decrementRefcount _ => Segment
  | .removeSegment _ => Option Segment
  | .read _ => Bytes
  | .getSegmentMetadata _ => Segment
  | .updateSegmentMetadata _ _ => Unit
  | .beginTransaction => NvramTransaction
  | .appendSegment _ _ _ => Segment × NvramTransaction
  | .commit _ => NvramTransaction
  | .rollback _ => NvramTransaction
  | .currentKey => Option (UInt32 × XtsKeyPair)
  | .getKey _ => XtsKeyPair

/-- The interface of the native pipeline. -/
abbrev StoreSig : Signature := ⟨StoreOp, StoreOp.Res⟩

/-- Programs of the native pipeline. -/
abbrev Native := Prog StoreSig Error

namespace Store
variable {P : Primitives}

def seg (s : Store P) (x : SegmentId) : Option Segment := s.nvram.segmentMap.lookup x

def content (s : Store P) (h : ContentHash) : Option SegmentId := s.registry.contentStore.lookup h

/-- Nothing stored, over new files. -/
def empty (keyManager : Option (KeyManager P)) : Store P := ⟨.empty, .empty, keyManager⟩

/-- What a new process finds on disk. -/
def reopen (s : Store P) : Store P :=
  { s with registry := s.registry.reopen, nvram := s.nvram.reopen }

/-- An operation of the registry that cannot fail. -/
def onRegistry {α : Type} (s : Store P) (r : α × CapsuleRegistry) : Except Error α × Store P :=
  (.ok r.1, { s with registry := r.2 })

/-- An operation of the log that cannot fail. -/
def onNvram {α : Type} (s : Store P) (r : α × NvramLog) : Except Error α × Store P :=
  (.ok r.1, { s with nvram := r.2 })

/-- The manager's current version and its key, under one lock; `none` without a manager. -/
def currentKey (s : Store P) : Option (UInt32 × XtsKeyPair) × Store P :=
  match s.keyManager with
  | none => (none, s)
  | some km =>
    (some (km.currentVersion, (km.getKey km.currentVersion).1),
      { s with keyManager := some (km.getKey km.currentVersion).2 })

/-- The key a write under the policy encrypts with. -/
def keyFor (s : Store P) (policy : Policy) : Option (UInt32 × XtsKeyPair) :=
  if policy.encryption.isEnabled then s.currentKey.1 else none

/-- The key a stored segment asks for. -/
def getKey (s : Store P) (keyVersion : Option UInt32) : Except Error XtsKeyPair × Store P :=
  match s.keyManager with
  | none => (.error (.msg "Cannot decrypt: key manager not initialized"), s)
  | some km =>
    match keyVersion with
    | none => (.error (.msg "Missing key version in encrypted segment"), s)
    | some v => (.ok (km.getKey v).1, { s with keyManager := some (km.getKey v).2 })

/-- Drawing the current key changes the cache at most, and not the key. -/
theorem currentKey_snd (s : Store P) : s.currentKey.2.registry = s.registry ∧
    s.currentKey.2.nvram = s.nvram ∧ s.currentKey.2.currentKey.1 = s.currentKey.1 := by
  unfold Store.currentKey
  cases hk : s.keyManager with
  | none => simp [hk]
  | some km => simp

theorem currentKey_congr {s s' : Store P} (h : s'.keyManager = s.keyManager) :
    s'.currentKey.1 = s.currentKey.1 := by
  unfold Store.currentKey
  rw [h]
  cases s.keyManager <;> rfl

end Store

/-- What the methods do. -/
def StoreOp.exec {P : Primitives} : Handler StoreSig Error (Store P)
  | .listCapsules ord, s => (.ok (s.registry.listCapsules ord), s)
  | .lookup id, s => (s.registry.lookup id, s)
  | .allocSegment, s => s.onRegistry s.registry.allocSegment
  | .lookupContent hash, s => (.ok (s.registry.lookupContent hash), s)
  | .registerContent hash segId, s => s.onRegistry ((), s.registry.registerContent hash segId)
  | .deregisterContent hash segId, s => s.onRegistry (s.registry.deregisterContent hash segId)
  | .addDedupedBytes id bytes, s => s.onRegistry ((), s.registry.addDedupedBytes id bytes)
  | .deleteCapsule id, s =>
    ((s.registry.deleteCapsule id).1, { s with registry := (s.registry.deleteCapsule id).2 })
  | .createCapsuleWithSegments id size segments policy, s =>
    ((s.registry.createCapsuleWithSegments id size segments policy).1,
      { s with registry := (s.registry.createCapsuleWithSegments id size segments policy).2 })
  | .listSegments ord, s => (.ok (s.nvram.listSegments ord), s)
  | .append segId data, s => s.onNvram (s.nvram.append segId data)
  | .incrementRefcount segId, s =>
    ((s.nvram.incrementRefcount segId).1, { s with nvram := (s.nvram.incrementRefcount segId).2 })
  | .decrementRefcount segId, s =>
    ((s.nvram.decrementRefcount segId).1, { s with nvram := (s.nvram.decrementRefcount segId).2 })
  | .removeSegment segId, s => s.onNvram (s.nvram.removeSegment segId)
  | .read segId, s => (s.nvram.read segId, s)
  | .getSegmentMetadata segId, s => (s.nvram.getSegmentMetadata segId, s)
  | .updateSegmentMetadata segId segment, s =>
    s.onNvram ((), s.nvram.updateSegmentMetadata segId segment)
  | .beginTransaction, s => (.ok s.nvram.beginTransaction, s)
  | .appendSegment t segId data, s =>
    ((t.appendSegment segId data s.nvram).1,
      { s with nvram := (t.appendSegment segId data s.nvram).2 })
  | .commit t, s => s.onNvram (t.commit s.nvram)
  | .rollback t, s => s.onNvram (t.rollback s.nvram)
  | .currentKey, s => (.ok s.currentKey.1, s.currentKey.2)
  | .getKey keyVersion, s => s.getKey keyVersion

/-- One operation, under the handler. -/
theorem wp_storeOp {P : Primitives} {s : Store P} (o : StoreOp)
    {Q : Except Error o.Res → Store P → Prop} (h : Q (o.exec s).1 (o.exec s).2) :
    (Prog.perform (S := StoreSig) o : Native o.Res).wp (StoreOp.exec (P := P)).moves
      (fun _ _ => True) Q s := Prog.wp_perform_moves.mpr ⟨trivial, h⟩

/-! ### The methods, as programs -/

namespace Native

def listCapsules (ord : Order CapsuleId) : Native (List CapsuleId) :=
  Prog.perform (S := StoreSig) (.listCapsules ord)

def lookup (id : CapsuleId) : Native Capsule :=
  Prog.perform (S := StoreSig) (.lookup id)

def allocSegment : Native SegmentId :=
  Prog.perform (S := StoreSig) .allocSegment

def lookupContent (hash : ContentHash) : Native (Option SegmentId) :=
  Prog.perform (S := StoreSig) (.lookupContent hash)

def registerContent (hash : ContentHash) (segId : SegmentId) : Native Unit :=
  Prog.perform (S := StoreSig) (.registerContent hash segId)

def deregisterContent (hash : ContentHash) (segId : SegmentId) : Native Bool :=
  Prog.perform (S := StoreSig) (.deregisterContent hash segId)

def addDedupedBytes (id : CapsuleId) (bytes : Nat) : Native Unit :=
  Prog.perform (S := StoreSig) (.addDedupedBytes id bytes)

def registryDeleteCapsule (id : CapsuleId) : Native Capsule :=
  Prog.perform (S := StoreSig) (.deleteCapsule id)

def createCapsuleWithSegments (id : CapsuleId) (size : Nat) (segments : List SegmentId)
    (policy : Policy) : Native Unit :=
  Prog.perform (S := StoreSig) (.createCapsuleWithSegments id size segments policy)

def listSegments (ord : Order Segment) : Native (List Segment) :=
  Prog.perform (S := StoreSig) (.listSegments ord)

def append (segId : SegmentId) (data : Bytes) : Native Segment :=
  Prog.perform (S := StoreSig) (.append segId data)

def incrementRefcount (segId : SegmentId) : Native Segment :=
  Prog.perform (S := StoreSig) (.incrementRefcount segId)

def decrementRefcount (segId : SegmentId) : Native Segment :=
  Prog.perform (S := StoreSig) (.decrementRefcount segId)

def removeSegment (segId : SegmentId) : Native (Option Segment) :=
  Prog.perform (S := StoreSig) (.removeSegment segId)

def read (segId : SegmentId) : Native Bytes :=
  Prog.perform (S := StoreSig) (.read segId)

def getSegmentMetadata (segId : SegmentId) : Native Segment :=
  Prog.perform (S := StoreSig) (.getSegmentMetadata segId)

def updateSegmentMetadata (segId : SegmentId) (segment : Segment) : Native Unit :=
  Prog.perform (S := StoreSig) (.updateSegmentMetadata segId segment)

def beginTransaction : Native NvramTransaction :=
  Prog.perform (S := StoreSig) .beginTransaction

def appendSegment (t : NvramTransaction) (segId : SegmentId) (data : Bytes) :
    Native (Segment × NvramTransaction) :=
  Prog.perform (S := StoreSig) (.appendSegment t segId data)

def commit (t : NvramTransaction) : Native NvramTransaction :=
  Prog.perform (S := StoreSig) (.commit t)

def rollback (t : NvramTransaction) : Native NvramTransaction :=
  Prog.perform (S := StoreSig) (.rollback t)

def currentKey : Native (Option (UInt32 × XtsKeyPair)) :=
  Prog.perform (S := StoreSig) .currentKey

def getKey (keyVersion : Option UInt32) : Native XtsKeyPair :=
  Prog.perform (S := StoreSig) (.getKey keyVersion)

end Native

end Space

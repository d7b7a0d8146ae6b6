import Space.Common.Error

/-!
# Store — Registry

The capsule registry: the capsules, the next segment identifier, the content store, and the
metadata file.  `save` writes the three of them; `alloc_segment` and `add_deduped_bytes` change
memory only.
-/

namespace Space
open Support

/-- What the metadata file holds. -/
structure RegistryState where
  capsules : Table CapsuleId Capsule
  nextSegmentId : Nat
  contentStore : Table ContentHash SegmentId

structure CapsuleRegistry extends RegistryState where
  saved : Option RegistryState

namespace CapsuleRegistry

/-- A registry over no file. -/
def empty : CapsuleRegistry where
  capsules := ∅
  nextSegmentId := 0
  contentStore := ∅
  saved := none

/-- `open`: what the file holds, if it exists. -/
def reopen (reg : CapsuleRegistry) : CapsuleRegistry :=
  match reg.saved with
  | none => empty
  | some state => { state with saved := some state }

def save (reg : CapsuleRegistry) : CapsuleRegistry := { reg with saved := some reg.toRegistryState }

def createCapsuleWithSegments (reg : CapsuleRegistry) (id : CapsuleId) (size : Nat)
    (segments : List SegmentId) (policy : Policy) : Except Error Unit × CapsuleRegistry :=
  match reg.capsules.lookup id with
  | some _ => (.error (.msg "Capsule collision (extremely unlikely)"), reg)
  | none =>
    let capsule : Capsule := ⟨id, size, segments, policy, 0⟩
    (.ok (), { reg with capsules := reg.capsules.insert id capsule }.save)

def lookup (reg : CapsuleRegistry) (id : CapsuleId) : Except Error Capsule :=
  match reg.capsules.lookup id with
  | none => .error (.msg "Capsule not found")
  | some capsule => .ok capsule

def allocSegment (reg : CapsuleRegistry) : SegmentId × CapsuleRegistry :=
  (⟨reg.nextSegmentId⟩, { reg with nextSegmentId := reg.nextSegmentId + 1 })

def lookupContent (reg : CapsuleRegistry) (hash : ContentHash) : Option SegmentId :=
  reg.contentStore.lookup hash

def registerContent (reg : CapsuleRegistry) (hash : ContentHash) (segId : SegmentId) :
    CapsuleRegistry := { reg with contentStore := reg.contentStore.insert hash segId }.save

/-- Remove an entry if it still names the segment. -/
def deregisterContent (reg : CapsuleRegistry) (hash : ContentHash) (segId : SegmentId) :
    Bool × CapsuleRegistry :=
  if reg.contentStore.lookup hash = some segId then
    (true, { reg with contentStore := reg.contentStore.erase hash }.save)
  else (false, reg)

theorem deregisterContent_capsules (reg : CapsuleRegistry) (hash : ContentHash)
    (segId : SegmentId) : (reg.deregisterContent hash segId).2.capsules = reg.capsules := by
  unfold deregisterContent
  split <;> rfl

theorem deregisterContent_nextSegmentId (reg : CapsuleRegistry) (hash : ContentHash)
    (segId : SegmentId) :
    (reg.deregisterContent hash segId).2.nextSegmentId = reg.nextSegmentId := by
  unfold deregisterContent
  split <;> rfl

/-- Raise the dedup counter of a capsule that exists. -/
def addDedupedBytes (reg : CapsuleRegistry) (id : CapsuleId) (bytes : Nat) : CapsuleRegistry :=
  match reg.capsules.lookup id with
  | none => reg
  | some capsule =>
    { reg with capsules :=
        reg.capsules.insert id { capsule with dedupedBytes := capsule.dedupedBytes + bytes } }

def listCapsules (reg : CapsuleRegistry) (ord : Order CapsuleId) : List CapsuleId :=
  ord.reorder reg.capsules.keys

def deleteCapsule (reg : CapsuleRegistry) (id : CapsuleId) :
    Except Error Capsule × CapsuleRegistry :=
  match reg.capsules.lookup id with
  | none => (.error (.msg "Capsule not found"), reg)
  | some capsule => (.ok capsule, { reg with capsules := reg.capsules.erase id }.save)

theorem deleteCapsule_of_some {reg : CapsuleRegistry} {id : CapsuleId} {capsule : Capsule}
    (h : reg.capsules.lookup id = some capsule) : reg.deleteCapsule id =
      (.ok capsule, ({ reg with capsules := reg.capsules.erase id } : CapsuleRegistry).save) := by
  rw [deleteCapsule, h]

theorem deleteCapsule_of_none {reg : CapsuleRegistry} {id : CapsuleId}
    (h : reg.capsules.lookup id = none) :
    reg.deleteCapsule id = (.error (.msg "Capsule not found"), reg) := by
  rw [deleteCapsule, h]

theorem deleteCapsule_capsules (reg : CapsuleRegistry) (id : CapsuleId) :
    (reg.deleteCapsule id).2.capsules = reg.capsules.erase id := by
  cases h : reg.capsules.lookup id with
  | none =>
      rw [deleteCapsule_of_none h]
      exact (Table.erase_of_lookup_none h).symm
  | some capsule =>
      rw [deleteCapsule_of_some h]
      rfl

theorem deleteCapsule_contentStore (reg : CapsuleRegistry) (id : CapsuleId) :
    (reg.deleteCapsule id).2.contentStore = reg.contentStore := by
  unfold deleteCapsule
  split <;> rfl

theorem deleteCapsule_nextSegmentId (reg : CapsuleRegistry) (id : CapsuleId) :
    (reg.deleteCapsule id).2.nextSegmentId = reg.nextSegmentId := by
  unfold deleteCapsule
  split <;> rfl

end CapsuleRegistry

end Space

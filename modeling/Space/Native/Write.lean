import Space.Store.Interface
import Space.Codec.Compression

/-!
# Native — Write

The synchronous write of the native pipeline.  A chunk is compressed, hashed, encrypted if the
policy says so and there is a key manager, and then either found in the content store, in which
case the segment it names gains a reference, or stored under a new identifier and registered.
The capsule is created last.

The fresh identifier the source draws for the capsule (`Uuid::new_v4`) is an argument.
-/

namespace Space
open Support

variable (P : Primitives)

/-- What the loop over the chunks accumulates. -/
structure WriteState where
  segmentIds : List SegmentId := []
  dedupStats : DedupStats := {}

def WriteState.push (st : WriteState) (segId : SegmentId) (bytes : Nat) (wasDeduped : Bool) :
    WriteState where
  segmentIds := st.segmentIds ++ [segId]
  dedupStats := st.dedupStats.addSegment bytes wasDeduped

/-- The payload of a view under a key: the view itself without one, else its ciphertext, with the
metadata that goes on the segment. -/
def sealView (key : Option (UInt32 × XtsKeyPair)) (view : Bytes) (hash : ContentHash) :
    Except EncryptionError (Bytes × Option EncryptionMetadata) :=
  match key with
  | none => .ok (view, none)
  | some (keyVersion, keyPair) => do
    let tweak := deriveTweakFromHash hash.str
    let (ciphertext, encMeta) ← encryptSegment P view keyPair keyVersion tweak
    let macTag := computeMac P ciphertext encMeta keyPair.key1 keyPair.key2
    return (ciphertext, some (encMeta.setIntegrityTag macTag))

/-- The metadata of a stored view, over that of the appended segment. -/
def Segment.describe (segment : Segment) (r : CompressionResult) (hash : Option ContentHash)
    (encMeta : Option EncryptionMetadata) : Segment :=
  let segment := { segment with
    compressed := r.compressed
    compressionAlgo := r.algorithm
    contentHash := hash
    refCount := 1
    deduplicated := false }
  match encMeta with
  | none => segment
  | some m => { segment with
      encrypted := true
      encryptionVersion := m.encryptionVersion
      keyVersion := m.keyVersion
      tweakNonce := m.tweakNonce
      integrityTag := m.integrityTag }

namespace WritePipeline

/-- The key to encrypt with, if the policy asks for encryption and there is a key manager. -/
def encryptionKey (policy : Policy) : Native (Option (UInt32 × XtsKeyPair)) :=
  if policy.encryption.isEnabled then Native.currentKey else pure none

/-- Store a payload under a new identifier. -/
def storeNew (payload : Bytes) (r : CompressionResult) (hash : Option ContentHash)
    (encMeta : Option EncryptionMetadata) : Native SegmentId := do
  let newSegId ← Native.allocSegment
  let segment ← (Native.append newSegId payload).mapError (mapNvramError "append")
  (Native.updateSegmentMetadata newSegId (segment.describe r hash encMeta)).mapError
    (mapNvramError "update_segment_metadata")
  return newSegId

/-- One chunk: a dedup hit, or a new segment. -/
def writeChunk (policy : Policy) (st : WriteState) (chunk : Bytes × Nat) : Native WriteState := do
  let (compressedData, compResult) ← Prog.lift
    ((compressSegment P chunk.1 policy.compression).mapError (mapCompressionError chunk.2))
  let contentHash := hashContent P compressedData
  let key ← encryptionKey policy
  let (finalData, encryptionMeta) ← Prog.lift
    ((sealView P key compressedData contentHash).mapError .enc)
  if policy.dedupe then
    match ← Native.lookupContent contentHash with
    | some existingSegId =>
      let updated ← (Native.incrementRefcount existingSegId).mapError
        (mapNvramError "increment_refcount")
      return st.push existingSegId updated.len true
    | none =>
      let newSegId ← storeNew finalData compResult (some contentHash) encryptionMeta
      (Native.registerContent contentHash newSegId).mapError (mapRegistryError "register_content")
      return st.push newSegId finalData.length false
  else
    let newSegId ← storeNew finalData compResult none encryptionMeta
    return st.push newSegId finalData.length false

/-- `write_capsule_with_policy`. -/
def writeCapsuleWithPolicy (capsuleId : CapsuleId) (data : Bytes) (policy : Policy) :
    Native CapsuleId := do
  let st ← (chunks SEGMENT_SIZE data).zipIdx.foldlM (writeChunk P policy) {}
  if 0 < st.dedupStats.bytesSaved then
    (Native.addDedupedBytes capsuleId st.dedupStats.bytesSaved).mapError
      (mapRegistryError "add_deduped_bytes")
  (Native.createCapsuleWithSegments capsuleId data.length st.segmentIds policy).mapError
    (mapRegistryError "create_capsule_with_segments")
  return capsuleId

/-- `write_capsule`. -/
def writeCapsule (capsuleId : CapsuleId) (data : Bytes) : Native CapsuleId :=
  writeCapsuleWithPolicy P capsuleId data {}

end WritePipeline

end Space

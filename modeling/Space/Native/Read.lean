import Space.Store.Interface
import Space.Codec.Compression

/-!
# Native — Read

The read of the native pipeline.  A segment marked as encrypted is authenticated and decrypted.
What results is decompressed by the algorithm of the *capsule's* policy, and taken as it is when
that algorithm does not decode it; the recorded algorithm of the segment is not looked at.
-/

namespace Space
open Support

variable (P : Primitives)

/-- The encryption metadata of a stored segment, with the length of what was read. -/
def Segment.encryptionMetadata (segment : Segment) (rawData : Bytes) : EncryptionMetadata where
  encryptionVersion := segment.encryptionVersion
  keyVersion := segment.keyVersion
  tweakNonce := segment.tweakNonce
  integrityTag := segment.integrityTag
  ciphertextLen := some (UInt32.ofNat rawData.length)

/-- Decompress by the policy; what does not decode was not compressed. -/
def decompressByPolicy (policy : CompressionPolicy) (data : Bytes) : Bytes :=
  match policy.decompressor P with
  | none => data
  | some (_, decompress) =>
    match decompress data with
    | .ok decompressed => decompressed
    | .error _ => data

namespace WritePipeline

/-- The data of one segment of a capsule. -/
def readSegment (policy : Policy) (segId : SegmentId) : Native Bytes := do
  let rawData ← Native.read segId
  let segment ← Native.getSegmentMetadata segId
  let decryptedData ← if segment.encrypted then do
      let keyPair ← Native.getKey segment.keyVersion
      let encMeta := segment.encryptionMetadata rawData
      Prog.lift ((verifyMac P rawData encMeta keyPair.key1 keyPair.key2).mapError .enc)
      Prog.lift ((decryptSegment P rawData keyPair encMeta).mapError .enc)
    else pure rawData
  return decompressByPolicy P policy.compression decryptedData

/-- `read_capsule`. -/
def readCapsule (id : CapsuleId) : Native Bytes := do
  let capsule ← Native.lookup id
  capsule.segments.foldlM (fun result segId => do
    let data ← readSegment P capsule.policy segId
    return result ++ data) []

end WritePipeline

end Space

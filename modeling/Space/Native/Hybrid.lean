import Space.Codec.Hybrid
import Space.Native.Write
import Space.Native.Read

/-!
# Native — Hybrid

The synchronous write and the read of the native pipeline with the hybrid profile (the feature
`advanced-security`).  Where the policy asks for it and there is a manager, the key of a chunk is
wrapped for the capsule and the position of the chunk, and the segment records the ciphertext; a
reader that finds it unwraps the key for its own capsule and position.

The bytes that an encapsulation draws for a chunk are an argument.  Under the classical profile, or
without a manager, the write is that of `Write` (`writeCapsuleHybrid_unwrapped`).
-/

namespace Space
open Support

variable (P : Primitives) (mlkem : Option MlkemKeyManager)

/-- The payload of a view, under the key of the manager or one that is wrapped. -/
def sealHybrid (profile : CryptoProfile) (capsuleId : CapsuleId) (index : Nat) (coins : Bytes)
    (key : Option (UInt32 × XtsKeyPair)) (view : Bytes) (hash : ContentHash) :
    Except EncryptionError (Bytes × Option EncryptionMetadata × Option HybridKeyMaterial) :=
  match key with
  | none => .ok (view, none, none)
  | some (keyVersion, keyPair) => do
    let hybridState := mlkem.bind fun manager => (manager.wrapXtsKey profile
      (collectBaseMaterial keyPair) capsuleId ⟨index⟩ hash coins).map fun material =>
        (material, manager.mixWith material.nonce (deriveTweakFromHash hash.str))
    let tweak := hybridState.elim (deriveTweakFromHash hash.str) Prod.snd
    let pairForUse := hybridState.elim keyPair fun h => .fromBytes h.1.wrappedKey.toList
    let (ciphertext, encMeta) ← encryptSegment P view pairForUse keyVersion tweak
    let macTag := computeMac P ciphertext encMeta pairForUse.key1 pairForUse.key2
    return (ciphertext, some (encMeta.setIntegrityTag macTag), hybridState.map Prod.fst)

/-- What a segment records of a wrapped key. -/
def Segment.wrap (segment : Segment) (material : Option HybridKeyMaterial) : Segment :=
  match material with
  | none => segment
  | some material => { segment with
      pqCiphertext := some (serializeCiphertext material.ciphertext)
      pqNonce := some material.nonce }

/-- The key that a reader takes for a segment. -/
def pairForUse (policy : Policy) (capsuleId : CapsuleId) (segIndex : Nat) (segment : Segment)
    (keyPair : XtsKeyPair) : XtsKeyPair :=
  if policy.cryptoProfile = .hybridKyber then
    match mlkem, segment.pqCiphertext, segment.contentHash with
    | some manager, some cipherHex, some hash =>
      match manager.unwrapXtsKey policy.cryptoProfile (collectBaseMaterial keyPair) capsuleId
          ⟨segIndex⟩ hash cipherHex with
      | some (some material) => .fromBytes material.wrappedKey.toList
      | _ => keyPair
    | _, _, _ => keyPair
  else keyPair

namespace WritePipeline

/-- Store a payload under a new identifier. -/
def storeHybrid (payload : Bytes) (r : CompressionResult) (hash : Option ContentHash)
    (encMeta : Option EncryptionMetadata) (material : Option HybridKeyMaterial) :
    Native SegmentId := do
  let newSegId ← Native.allocSegment
  let segment ← (Native.append newSegId payload).mapError (mapNvramError "append")
  (Native.updateSegmentMetadata newSegId ((segment.describe r hash encMeta).wrap material)).mapError
    (mapNvramError "update_segment_metadata")
  return newSegId

/-- One chunk: a dedup hit, or a new segment. -/
def writeChunkHybrid (coins : Nat → Bytes) (capsuleId : CapsuleId) (policy : Policy)
    (st : WriteState) (chunk : Bytes × Nat) : Native WriteState := do
  let (compressedData, compResult) ← Prog.lift
    ((compressSegment P chunk.1 policy.compression).mapError (mapCompressionError chunk.2))
  let contentHash := hashContent P compressedData
  let key ← encryptionKey policy
  let (finalData, encryptionMeta, hybridState) ← Prog.lift
    ((sealHybrid P mlkem policy.cryptoProfile capsuleId chunk.2 (coins chunk.2) key compressedData
      contentHash).mapError .enc)
  if policy.dedupe then
    match ← Native.lookupContent contentHash with
    | some existingSegId =>
      let updated ← (Native.incrementRefcount existingSegId).mapError
        (mapNvramError "increment_refcount")
      return st.push existingSegId updated.len true
    | none =>
      let newSegId ← storeHybrid finalData compResult (some contentHash) encryptionMeta hybridState
      (Native.registerContent contentHash newSegId).mapError (mapRegistryError "register_content")
      return st.push newSegId finalData.length false
  else
    let newSegId ← storeHybrid finalData compResult none encryptionMeta hybridState
    return st.push newSegId finalData.length false

/-- `write_capsule_with_policy`, with the hybrid profile. -/
def writeCapsuleHybrid (coins : Nat → Bytes) (capsuleId : CapsuleId) (data : Bytes)
    (policy : Policy) : Native CapsuleId := do
  let st ← (chunks SEGMENT_SIZE data).zipIdx.foldlM
    (writeChunkHybrid P mlkem coins capsuleId policy) {}
  if 0 < st.dedupStats.bytesSaved then
    (Native.addDedupedBytes capsuleId st.dedupStats.bytesSaved).mapError
      (mapRegistryError "add_deduped_bytes")
  (Native.createCapsuleWithSegments capsuleId data.length st.segmentIds policy).mapError
    (mapRegistryError "create_capsule_with_segments")
  return capsuleId

/-- The data of one segment of a capsule. -/
def readSegmentHybrid (capsule : Capsule) (segIndex : Nat) (segId : SegmentId) : Native Bytes := do
  let rawData ← Native.read segId
  let segment ← Native.getSegmentMetadata segId
  let decryptedData ← if segment.encrypted then do
      let keyPair ← Native.getKey segment.keyVersion
      let pair := pairForUse mlkem capsule.policy capsule.id segIndex segment keyPair
      let encMeta := segment.encryptionMetadata rawData
      Prog.lift ((verifyMac P rawData encMeta pair.key1 pair.key2).mapError .enc)
      Prog.lift ((decryptSegment P rawData pair encMeta).mapError .enc)
    else pure rawData
  return decompressByPolicy P capsule.policy.compression decryptedData

/-- `read_capsule`, with the hybrid profile. -/
def readCapsuleHybrid (id : CapsuleId) : Native Bytes := do
  let capsule ← Native.lookup id
  capsule.segments.zipIdx.foldlM (fun result seg => do
    let data ← readSegmentHybrid P mlkem capsule seg.2 seg.1
    return result ++ data) []

/-! ### Where no key is wrapped -/

variable {P mlkem} {coins : Nat → Bytes} {capsuleId : CapsuleId} {data : Bytes}
  {policy : Policy}

/-- A write under the policy wraps a key for each chunk that it encrypts. -/
def wrapsKeys (mlkem : Option MlkemKeyManager) (policy : Policy) : Prop :=
  mlkem ≠ none ∧ policy.cryptoProfile = .hybridKyber ∧ policy.encryption.isEnabled = true

theorem not_wrapsKeys_none : ¬ wrapsKeys none policy := fun h => h.1 rfl

theorem sealHybrid_unwrapped {profile : CryptoProfile} {index : Nat} {coins : Bytes}
    {key : Option (UInt32 × XtsKeyPair)} {view : Bytes} {hash : ContentHash}
    (h : mlkem = none ∨ profile ≠ .hybridKyber ∨ key = none) :
    sealHybrid P mlkem profile capsuleId index coins key view hash =
      (sealView P key view hash).map fun s => (s.1, s.2, none) := by
  rcases key with _ | ⟨version, pair⟩
  · rfl
  · have hwrap : (mlkem.bind fun manager => (manager.wrapXtsKey profile (collectBaseMaterial pair)
        capsuleId ⟨index⟩ hash coins).map fun material =>
          (material, manager.mixWith material.nonce (deriveTweakFromHash hash.str))) = none := by
      rcases h with rfl | hp | hk
      · rfl
      · cases mlkem with
        | none => rfl
        | some manager =>
            rw [Option.bind_some, MlkemKeyManager.wrapXtsKey, if_pos hp]
            rfl
      · cases hk
    simp only [sealHybrid, sealView, hwrap, Option.elim_none, Option.map_none]
    cases encryptSegment P view pair version (deriveTweakFromHash hash.str) with
    | error e => rfl
    | ok cm => rfl

/-- There is a key only where the policy asks for encryption. -/
theorem encryptionKey_bind_congr {α : Type} {f g : Option (UInt32 × XtsKeyPair) → Native α}
    (h : ∀ key, policy.encryption.isEnabled = true ∨ key = none → f key = g key) :
    encryptionKey policy >>= f = encryptionKey policy >>= g := by
  unfold encryptionKey
  split
  · next he => exact bind_congr fun key => h key (.inl he)
  · rw [pure_bind, pure_bind]
    exact h none (.inr rfl)

theorem writeChunkHybrid_unwrapped (h : ¬ wrapsKeys mlkem policy) :
    writeChunkHybrid P mlkem coins capsuleId policy = writeChunk P policy := by
  funext st chunk
  rw [writeChunkHybrid, writeChunk]
  refine bind_congr fun vr => encryptionKey_bind_congr fun key hkey => ?_
  rw [sealHybrid_unwrapped]
  · cases sealView P key vr.1 (hashContent P vr.1) with
    | error e => rfl
    | ok s => rfl
  · by_contra hno
    push Not at hno
    exact h ⟨hno.1, hno.2.1, hkey.resolve_right hno.2.2⟩

/-- **Where no key is wrapped** the write is that of the classical profile. -/
theorem writeCapsuleHybrid_unwrapped (h : ¬ wrapsKeys mlkem policy) :
    writeCapsuleHybrid P mlkem coins capsuleId data policy =
      writeCapsuleWithPolicy P capsuleId data policy := by
  rw [writeCapsuleHybrid, writeCapsuleWithPolicy, writeChunkHybrid_unwrapped h]

end WritePipeline

end Space

import Space.Codec.Encryption

/-!
# Codec — Hybrid

The keys of the hybrid profile.  A segment is encrypted under a key that is derived from the key of
the manager, from a secret encapsulated for the keypair of the node, and from the capsule, the
position and the content hash of the segment.

* `MlkemKeyManager`: the keypair of the node, as the two functions it is used for.
* `unwrapXtsKey_wrapXtsKey`: what was wrapped is unwrapped for the same capsule, position and hash.
-/

namespace Space

/-- A manager over the keypair of the node, with what the derivation hashes with. -/
structure MlkemKeyManager where
  /-- `mlkem768::encapsulate` with the bytes it draws: the shared secret and the ciphertext. -/
  encapsulate : Bytes → Bytes × Bytes
  /-- `Ciphertext::from_bytes`, and then `mlkem768::decapsulate`. -/
  decapsulate : Bytes → Option Bytes
  /-- `blake3::Hasher::finalize_xof`, the first 80 bytes. -/
  xof : Bytes → Block 80

/-- Decapsulation undoes encapsulation. -/
def MlkemKeyManager.Decapsulates (M : MlkemKeyManager) : Prop :=
  ∀ coins, M.decapsulate (M.encapsulate coins).2 = some (M.encapsulate coins).1

structure HybridKeyMaterial where
  wrappedKey : Block 64
  nonce : Block 16
  ciphertext : Bytes

/-- `Uuid::as_bytes`. -/
def CapsuleId.bytes (id : CapsuleId) : Bytes :=
  (List.range 16).reverse.map fun i => UInt8.ofNat (id.val / 256 ^ i)

def collectBaseMaterial (pair : XtsKeyPair) : Bytes := pair.key1.toList ++ pair.key2.toList

/-- The bytes of a string. -/
def stringBytes (s : String) : Bytes := s.toList.flatMap String.utf8EncodeChar

/-- `serialize_ciphertext`: the hexadecimal digits, as a string. -/
def serializeCiphertext (bytes : Bytes) : String :=
  String.ofList ((hexEncode bytes).map fun d => Char.ofNat d.toNat)

namespace MlkemKeyManager
variable (M : MlkemKeyManager)

def deriveMaterial (baseKey : Bytes) (capsule : CapsuleId) (segment : SegmentId)
    (hash : ContentHash) (shared ciphertext : Bytes) : HybridKeyMaterial :=
  let stream := (M.xof (baseKey ++ shared ++ capsule.bytes ++ le64 (UInt64.ofNat segment.val) ++
    hash.str ++ ciphertext)).toList
  { wrappedKey := .ofPrefix 64 stream
    nonce := .ofPrefix 16 (stream.drop 64)
    ciphertext := ciphertext }

/-- `MlkemNonceExt::mix_with`. -/
def mixWith (nonce base : Block 16) : Block 16 :=
  .ofPrefix 16 (M.xof (base.toList ++ nonce.toList)).toList

def wrapXtsKey (profile : CryptoProfile) (baseKey : Bytes) (capsule : CapsuleId)
    (segment : SegmentId) (hash : ContentHash) (coins : Bytes) : Option HybridKeyMaterial :=
  if profile ≠ .hybridKyber then none
  else
    let (shared, ciphertext) := M.encapsulate coins
    some (M.deriveMaterial baseKey capsule segment hash shared ciphertext)

/-- The outer `none` is an error, of which the reader only takes note. -/
def unwrapXtsKey (profile : CryptoProfile) (baseKey : Bytes) (capsule : CapsuleId)
    (segment : SegmentId) (hash : ContentHash) (ciphertextHex : String) :
    Option (Option HybridKeyMaterial) :=
  if profile ≠ .hybridKyber then some none
  else do
    let bytes ← hexDecode (stringBytes ciphertextHex)
    let shared ← M.decapsulate bytes
    return some (M.deriveMaterial baseKey capsule segment hash shared bytes)

end MlkemKeyManager

/-! ### Round trips -/

theorem stringBytes_serializeCiphertext (bytes : Bytes) :
    stringBytes (serializeCiphertext bytes) = hexEncode bytes := by
  have hdigit : ∀ n : Fin 256,
      String.utf8EncodeChar (Char.ofNat (hexDigit (UInt8.ofFin n >>> 4)).toNat) =
        [hexDigit (UInt8.ofFin n >>> 4)] ∧
      String.utf8EncodeChar (Char.ofNat (hexDigit (UInt8.ofFin n &&& 15)).toNat) =
        [hexDigit (UInt8.ofFin n &&& 15)] := by decide +kernel
  rw [stringBytes, serializeCiphertext, String.toList_ofList, List.flatMap_map]
  induction bytes with
  | nil => rfl
  | cons b bytes ih =>
      obtain ⟨hhigh, hlow⟩ := hdigit b.toFin
      rw [hexEncode, List.flatMap_cons, List.flatMap_cons, ih]
      exact congrArg₂ (fun high low => high ++ (low ++ hexEncode bytes)) hhigh hlow

variable {M : MlkemKeyManager} {profile : CryptoProfile} {baseKey coins : Bytes}
  {capsule : CapsuleId} {segment : SegmentId} {hash : ContentHash} {material : HybridKeyMaterial}

/-- **What was wrapped is unwrapped**, for the same capsule, position and hash. -/
theorem unwrapXtsKey_wrapXtsKey (hM : M.Decapsulates)
    (h : M.wrapXtsKey profile baseKey capsule segment hash coins = some material) :
    profile = .hybridKyber ∧
      M.unwrapXtsKey profile baseKey capsule segment hash
        (serializeCiphertext material.ciphertext) = some (some material) := by
  unfold MlkemKeyManager.wrapXtsKey at h
  split at h
  · cases h
  · rename_i hp
    cases h
    refine ⟨not_not.mp hp, ?_⟩
    rw [MlkemKeyManager.unwrapXtsKey, if_neg hp, stringBytes_serializeCiphertext]
    show (do
      let bytes ← hexDecode (hexEncode (M.encapsulate coins).2)
      let shared ← M.decapsulate bytes
      return some (M.deriveMaterial baseKey capsule segment hash shared bytes)) = _
    rw [hexDecode_hexEncode]
    show (do
      let shared ← M.decapsulate (M.encapsulate coins).2
      return some (M.deriveMaterial baseKey capsule segment hash shared
        (M.encapsulate coins).2)) = _
    rw [hM]
    rfl

end Space

import Space.Common.Primitives

/-!
# Codec — Encryption

Content hashes, XTS encryption of a segment with its metadata, the BLAKE3 MAC, and the key
manager.

* `decryptSegment_encryptSegment`: what was encrypted decrypts under the same key pair, as long
  as its length fits in a `u32`.
* `verifyMac_computeMac`: a tag verifies on the input it was computed over.  The serialised
  metadata leaves the tag out, so setting it does not change what is authenticated.
* `hashContent_inj`: without collisions of BLAKE3, a content hash determines what was hashed.
* `KeyManager` carries the invariant of its cache, so a key it returns is the derived one
  (`KeyManager.getKey_fst`), whichever constructor built it and however it was rotated since.
-/

namespace Space
open Support

/-! ### Content hashes -/

/-- The ASCII code of a hexadecimal digit. -/
def hexDigit (n : UInt8) : UInt8 := if n < 10 then 48 + n else 87 + n

/-- `hex::encode`. -/
def hexEncode : Bytes → Bytes
  | [] => []
  | b :: l => hexDigit (b >>> 4) :: hexDigit (b &&& 15) :: hexEncode l

/-- The value of a hexadecimal digit, in either case. -/
def hexDigitValue (d : UInt8) : Option UInt8 :=
  if 48 ≤ d ∧ d ≤ 57 then some (d - 48)
  else if 97 ≤ d ∧ d ≤ 102 then some (d - 87)
  else if 65 ≤ d ∧ d ≤ 70 then some (d - 55)
  else none

/-- `hex::decode`. -/
def hexDecode : Bytes → Option Bytes
  | [] => some []
  | [_] => none
  | high :: low :: rest =>
    match hexDigitValue high, hexDigitValue low, hexDecode rest with
    | some x, some y, some tail => some ((x <<< 4 ||| y) :: tail)
    | _, _, _ => none

theorem hexDigitValue_hexDigit (b : UInt8) :
    hexDigitValue (hexDigit (b >>> 4)) = some (b >>> 4) ∧
      hexDigitValue (hexDigit (b &&& 15)) = some (b &&& 15) ∧
      (b >>> 4) <<< 4 ||| (b &&& 15) = b := by
  have h : ∀ n : Fin 256, hexDigitValue (hexDigit (UInt8.ofFin n >>> 4)) =
      some (UInt8.ofFin n >>> 4) ∧ hexDigitValue (hexDigit (UInt8.ofFin n &&& 15)) =
      some (UInt8.ofFin n &&& 15) ∧
      (UInt8.ofFin n >>> 4) <<< 4 ||| (UInt8.ofFin n &&& 15) = UInt8.ofFin n := by decide +kernel
  exact h b.toFin

theorem hexDecode_hexEncode : ∀ bytes : Bytes, hexDecode (hexEncode bytes) = some bytes
  | [] => rfl
  | b :: bytes => by
      obtain ⟨hhigh, hlow, hboth⟩ := hexDigitValue_hexDigit b
      rw [hexEncode, hexDecode, hhigh, hlow, hexDecode_hexEncode bytes]
      exact congrArg (fun x => some (x :: bytes)) hboth

def ContentHash.fromBytes (hash : Bytes) : ContentHash := ⟨hexEncode hash⟩

/-- `u16::to_le_bytes`. -/
def le16 (n : UInt16) : Bytes := [n.toUInt8, (n >>> 8).toUInt8]

/-- `u32::to_le_bytes`. -/
def le32 (n : UInt32) : Bytes :=
  [n.toUInt8, (n >>> 8).toUInt8, (n >>> 16).toUInt8, (n >>> 24).toUInt8]

/-- `u64::to_le_bytes`. -/
def le64 (n : UInt64) : Bytes := (List.range 8).map fun i => (n >>> UInt64.ofNat (8 * i)).toUInt8

/-- `u32::to_be_bytes`. -/
def be32 (n : UInt32) : Bytes := (le32 n).reverse

/-- The bytes of an ASCII string. -/
def ascii (s : String) : Bytes := s.toList.map fun c => UInt8.ofNat c.toNat

variable (P : Primitives)

/-- BLAKE3 hash of data for deduplication. -/
def hashContent (data : Bytes) : ContentHash := .fromBytes (P.blake3 data).toList

/-! ### Keys and metadata -/

structure XtsKeyPair where
  key1 : Block 32
  key2 : Block 32
  deriving DecidableEq

def XtsKeyPair.fromBytes (bytes : Bytes) : XtsKeyPair where
  key1 := .ofPrefix 32 bytes
  key2 := .ofPrefix 32 (bytes.drop 32)

structure EncryptionMetadata where
  encryptionVersion : Option UInt16
  keyVersion : Option UInt32
  tweakNonce : Option (Block 16)
  integrityTag : Option (Block 16)
  ciphertextLen : Option UInt32
  deriving DecidableEq

namespace EncryptionMetadata

/-- Version 1 is XTS-AES-256; the tag is set after the MAC computation. -/
def newXts (keyVersion : UInt32) (tweak : Block 16) (ciphertextLen : UInt32) :
    EncryptionMetadata where
  encryptionVersion := some 1
  keyVersion := some keyVersion
  tweakNonce := some tweak
  integrityTag := none
  ciphertextLen := some ciphertextLen

def isEncrypted (m : EncryptionMetadata) : Bool := m.encryptionVersion.isSome

def setIntegrityTag (m : EncryptionMetadata) (tag : Block 16) : EncryptionMetadata :=
  { m with integrityTag := some tag }

end EncryptionMetadata

/-! ### XTS -/

namespace Xts

/-- Encrypt at least one block. -/
def encrypt (plaintext : Bytes) (keyPair : XtsKeyPair) (tweak : Block 16) :
    Except EncryptionError Bytes :=
  if plaintext.length < 16 then .error (.invalidCiphertextLength plaintext.length)
  else .ok (P.encryptSector keyPair.key1 keyPair.key2 plaintext tweak)

def decrypt (ciphertext : Bytes) (keyPair : XtsKeyPair) (tweak : Block 16) :
    Except EncryptionError Bytes :=
  if ciphertext.length < 16 then .error (.invalidCiphertextLength ciphertext.length)
  else .ok (P.decryptSector keyPair.key1 keyPair.key2 ciphertext tweak)

end Xts

def encryptSegment (plaintext : Bytes) (keyPair : XtsKeyPair) (keyVersion : UInt32)
    (tweak : Block 16) : Except EncryptionError (Bytes × EncryptionMetadata) := do
  let ciphertext ← Xts.encrypt P plaintext keyPair tweak
  return (ciphertext, .newXts keyVersion tweak (UInt32.ofNat ciphertext.length))

def decryptSegment (ciphertext : Bytes) (keyPair : XtsKeyPair) (metadata : EncryptionMetadata) :
    Except EncryptionError Bytes :=
  if metadata.isEncrypted = false then .error .missingMetadata
  else
    match metadata.tweakNonce with
    | none => .error (.corruptedMetadata "Missing tweak nonce")
    | some tweak =>
      match metadata.ciphertextLen with
      | none => .error .missingMetadata
      | some expectedLen =>
        if ciphertext.length ≠ expectedLen.toNat then
          .error (.invalidCiphertextLength ciphertext.length)
        else Xts.decrypt P ciphertext keyPair tweak

/-- The first 16 bytes of the content hash, padded with zeros. -/
def deriveTweakFromHash (contentHash : Bytes) : Block 16 := .ofPrefix 16 contentHash

/-! ### The MAC -/

def deriveMacKey (key1 key2 : Block 32) : Block 32 :=
  P.blake3 (ascii "SPACE-BLAKE3-MAC-KEY-V1" ++ key1.toList ++ key2.toList)

/-- The fields that are present, one after the other; the tag is not among them. -/
def serializeMetadataForMac (m : EncryptionMetadata) : Bytes :=
  (m.encryptionVersion.elim [] le16) ++ (m.keyVersion.elim [] le32) ++
    (m.tweakNonce.elim [] List.Vector.toList) ++ (m.ciphertextLen.elim [] le32)

def computeMac (ciphertext : Bytes) (metadata : EncryptionMetadata) (key1 key2 : Block 32) :
    Block 16 :=
  .ofPrefix 16
    (P.blake3Keyed (deriveMacKey P key1 key2)
      (ciphertext ++ serializeMetadataForMac metadata)).toList

def verifyMac (ciphertext : Bytes) (metadata : EncryptionMetadata) (key1 key2 : Block 32) :
    Except EncryptionError Unit :=
  match metadata.integrityTag with
  | none => .error .missingIntegrityTag
  | some storedTag =>
    if storedTag = computeMac P ciphertext { metadata with integrityTag := none } key1 key2 then
      .ok ()
    else .error .integrityFailure

/-! ### The key manager -/

/-- HKDF-SHA-256: extract with the salt, expand to two blocks. -/
def hkdfExtract (salt masterKey : Block 32) : Block 32 :=
  P.hmacSha256 salt.toList masterKey.toList

/-- The two rounds that produce 64 bytes. -/
def hkdfExpand (prk : Block 32) (info : Bytes) : Bytes :=
  let block₁ := P.hmacSha256 prk.toList (info ++ [1])
  let block₂ := P.hmacSha256 prk.toList (block₁.toList ++ info ++ [2])
  block₁.toList ++ block₂.toList

def hkdfInfo (version : UInt32) : Bytes := ascii "SPACE-XTS-AES-256-KEY-V1" ++ be32 version

/-- The key pair of a version, from the master key and the salt. -/
def deriveKey (masterKey salt : Block 32) (version : UInt32) : XtsKeyPair :=
  .fromBytes (hkdfExpand P (hkdfExtract P salt masterKey) (hkdfInfo version))

def deriveHkdfSalt (masterKey : Block 32) : Block 32 :=
  P.blake3 (ascii "SPACE-HKDF-SALT-V1" ++ masterKey.toList)

/-- The key manager.  Whatever its cache holds under a version is that version's derived key. -/
structure KeyManager where
  masterKey : Block 32
  hkdfSalt : Block 32
  keyCache : Table UInt32 XtsKeyPair
  currentVersion : UInt32
  rotating : Bool
  cached : ∀ v k, keyCache.lookup v = some k → k = deriveKey P masterKey hkdfSalt v

namespace KeyManager
variable {P}

/-- The derived key of a version. -/
def derive (km : KeyManager P) (version : UInt32) : XtsKeyPair :=
  deriveKey P km.masterKey km.hkdfSalt version

theorem cached_insert (km : KeyManager P) (v : UInt32) :
    ∀ v' k, (km.keyCache.insert v (km.derive v)).lookup v' = some k →
      k = deriveKey P km.masterKey km.hkdfSalt v' := by
  intro v' k h
  rcases Table.lookup_insert_eq_some.mp h with ⟨rfl, rfl⟩ | ⟨-, h⟩
  · rfl
  · exact km.cached v' k h

variable (P) in
/-- A manager over a master key, at version 1, whose key is derived in advance. -/
def new (masterKey : Block 32) : KeyManager P where
  masterKey := masterKey
  hkdfSalt := deriveHkdfSalt P masterKey
  keyCache := (∅ : Table UInt32 XtsKeyPair).insert 1
    (deriveKey P masterKey (deriveHkdfSalt P masterKey) 1)
  currentVersion := 1
  rotating := false
  cached := by
    intro v k h
    rcases Table.lookup_insert_eq_some.mp h with ⟨rfl, rfl⟩ | ⟨-, h⟩
    · rfl
    · cases h

/-- Look the key up, deriving and caching it first if it is not there. -/
def getKey (km : KeyManager P) (version : UInt32) : XtsKeyPair × KeyManager P :=
  match km.keyCache.lookup version with
  | some key => (key, km)
  | none => (km.derive version,
      { km with
        keyCache := km.keyCache.insert version (km.derive version)
        cached := km.cached_insert version })

/-- **The key returned is the derived one**, whatever was cached. -/
@[simp] theorem getKey_fst (km : KeyManager P) (version : UInt32) :
    (km.getKey version).1 = km.derive version := by
  unfold getKey
  cases h : km.keyCache.lookup version with
  | none => rfl
  | some key => exact km.cached version key h

@[simp] theorem getKey_currentVersion (km : KeyManager P) (version : UInt32) :
    (km.getKey version).2.currentVersion = km.currentVersion := by
  unfold getKey; split <;> rfl

@[simp] theorem getKey_derive (km : KeyManager P) (version : UInt32) :
    (km.getKey version).2.derive = km.derive := by
  unfold getKey; split <;> rfl

/-! ### Constructors -/

/-- The same manager over another salt: the cache is cleared, and the current key derived again. -/
def withSalt (km : KeyManager P) (salt : Block 32) : KeyManager P :=
  { km with
    hkdfSalt := salt
    keyCache := (∅ : Table UInt32 XtsKeyPair).insert km.currentVersion
      (deriveKey P km.masterKey salt km.currentVersion)
    cached := by
      intro v k h
      rcases Table.lookup_insert_eq_some.mp h with ⟨rfl, rfl⟩ | ⟨-, h⟩
      · rfl
      · cases h }

/-- `from_env`, over the contents of `SPACE_MASTER_KEY` and what `hex::decode` makes of them. -/
def fromEnv (decode : Bytes → Except String Bytes) (hexKey : Option Bytes) :
    Except EncryptionError (KeyManager P) :=
  match hexKey with
  | none => .error (.invalidConfiguration "SPACE_MASTER_KEY environment variable not set")
  | some hexKey =>
    match decode hexKey with
    | .error e => .error (.invalidConfiguration ("Invalid hex in SPACE_MASTER_KEY: " ++ e))
    | .ok bytes =>
      if bytes.length ≠ 32 then .error (.invalidKeyLength 32 bytes.length)
      else .ok (new P (.ofPrefix 32 bytes))

/-- `from_tpm`, over what the provider answers. -/
def fromTpm (readMasterKey : Except EncryptionError (Block 32))
    (readKdfSalt : Except EncryptionError (Option (Block 32))) :
    Except EncryptionError (KeyManager P) := do
  let manager := new P (← readMasterKey)
  match ← readKdfSalt with
  | some salt => return manager.withSalt salt
  | none => return manager

/-- What the constructors return. -/
inductive Built : KeyManager P → Prop
  | new (masterKey : Block 32) : Built (.new P masterKey)
  | fromEnv {decode : Bytes → Except String Bytes} {hexKey : Option Bytes} {km : KeyManager P}
      (h : KeyManager.fromEnv decode hexKey = .ok km) : Built km
  | fromTpm {readMasterKey : Except EncryptionError (Block 32)}
      {readKdfSalt : Except EncryptionError (Option (Block 32))} {km : KeyManager P}
      (h : KeyManager.fromTpm readMasterKey readKdfSalt = .ok km) : Built km

/-- **Every constructor starts at version 1**, with no rotation under way. -/
theorem Built.fresh {km : KeyManager P} (h : Built km) :
    km.currentVersion = 1 ∧ km.rotating = false := by
  cases h with
  | new masterKey => exact ⟨rfl, rfl⟩
  | fromEnv h =>
      unfold KeyManager.fromEnv at h
      split at h
      · cases h
      split at h
      · cases h
      split at h
      · cases h
      · cases h
        exact ⟨rfl, rfl⟩
  | @fromTpm readMasterKey readKdfSalt _ h =>
      unfold KeyManager.fromTpm at h
      cases readMasterKey with
      | error e => cases h
      | ok masterKey =>
          cases readKdfSalt with
          | error e => cases h
          | ok salt =>
              cases salt with
              | none => cases h; exact ⟨rfl, rfl⟩
              | some salt => cases h; exact ⟨rfl, rfl⟩

/-! ### Rotation -/

/-- `rotate`: the next version becomes current and its key is derived in advance.  The version is
a `u32` and wraps. -/
def rotate (km : KeyManager P) : Except EncryptionError UInt32 × KeyManager P :=
  if km.rotating then (.error .keyRotationInProgress, km)
  else (.ok (km.currentVersion + 1),
    { km with
      rotating := true
      currentVersion := km.currentVersion + 1
      keyCache := km.keyCache.insert (km.currentVersion + 1) (km.derive (km.currentVersion + 1))
      cached := km.cached_insert (km.currentVersion + 1) })

def completeRotation (km : KeyManager P) : KeyManager P := { km with rotating := false }

def clearCache (km : KeyManager P) : KeyManager P :=
  { km with
    keyCache := ∅
    cached := fun _ _ h => by cases h }

@[simp] theorem rotate_derive (km : KeyManager P) : km.rotate.2.derive = km.derive := by
  unfold rotate
  split <;> rfl

@[simp] theorem completeRotation_derive (km : KeyManager P) :
    km.completeRotation.derive = km.derive := rfl

@[simp] theorem clearCache_derive (km : KeyManager P) : km.clearCache.derive = km.derive := rfl

/-- A rotation that succeeds makes the version it returns the current one. -/
theorem rotate_ok {km : KeyManager P} {version : UInt32} (h : km.rotate.1 = .ok version) :
    version = km.currentVersion + 1 ∧ km.rotate.2.currentVersion = version := by
  unfold rotate at h ⊢
  split at h
  · cases h
  · next hr =>
      cases h
      exact ⟨rfl, by rw [if_neg hr]⟩

theorem rotate_error {km : KeyManager P} {e : EncryptionError} (h : km.rotate.1 = .error e) :
    km.rotate.2 = km := by
  unfold rotate at h ⊢
  split at h
  · next hr => rw [if_pos hr]
  · cases h

end KeyManager

/-! ### Hashes -/

variable {P}

/-- The value of a hexadecimal digit. -/
def hexValue (d : UInt8) : UInt8 := if d < 58 then d - 48 else d - 87

theorem hexValue_hexDigit (b : UInt8) :
    hexValue (hexDigit (b >>> 4)) <<< 4 ||| hexValue (hexDigit (b &&& 15)) = b := by
  have h : ∀ n : Fin 256, hexValue (hexDigit (UInt8.ofFin n >>> 4)) <<< 4 |||
      hexValue (hexDigit (UInt8.ofFin n &&& 15)) = UInt8.ofFin n := by decide +kernel
  exact h b.toFin

theorem hexEncode_injective : Function.Injective hexEncode
  | [], [], _ => rfl
  | [], _ :: _, h => by cases h
  | _ :: _, [], h => by cases h
  | b :: l, b' :: l', h => by
      simp only [hexEncode, List.cons.injEq] at h
      obtain ⟨h₁, h₂, h₃⟩ := h
      rw [hexEncode_injective h₃, ← hexValue_hexDigit b, h₁, h₂, hexValue_hexDigit]

/-- Without collisions, a content hash determines the view. -/
theorem hashContent_inj {U : Set Bytes} (hU : P.NoCollision U) {x y : Bytes} (hx : x ∈ U)
    (hy : y ∈ U) (h : hashContent P x = hashContent P y) : x = y :=
  hU hx hy (List.Vector.eq _ _ (hexEncode_injective (ContentHash.mk.inj h)))

/-! ### Round trips -/

theorem encryptSegment_ok {plaintext : Bytes} {keyPair : XtsKeyPair} {keyVersion : UInt32}
    {tweak : Block 16} {ciphertext : Bytes} {m : EncryptionMetadata}
    (h : encryptSegment P plaintext keyPair keyVersion tweak = .ok (ciphertext, m)) :
    16 ≤ plaintext.length ∧
      ciphertext = P.encryptSector keyPair.key1 keyPair.key2 plaintext tweak ∧
      m = .newXts keyVersion tweak (UInt32.ofNat ciphertext.length) := by
  simp only [encryptSegment, Xts.encrypt, bind, Except.bind] at h
  split at h
  · cases h
  · next hs =>
      split at hs
      · cases hs
      · cases hs; cases h; exact ⟨by omega, rfl, rfl⟩

/-- **Decryption inverts encryption.** -/
theorem decryptSegment_encryptSegment (hx : P.XtsInverse) {plaintext ciphertext : Bytes}
    {keyPair : XtsKeyPair} {keyVersion : UInt32} {tweak : Block 16} {m m' : EncryptionMetadata}
    (h : encryptSegment P plaintext keyPair keyVersion tweak = .ok (ciphertext, m))
    (hlen : plaintext.length < 4294967296) (hv : m'.encryptionVersion = m.encryptionVersion)
    (ht : m'.tweakNonce = m.tweakNonce)
    (hl : m'.ciphertextLen = some (UInt32.ofNat ciphertext.length)) :
    decryptSegment P ciphertext keyPair m' = .ok plaintext := by
  obtain ⟨h16, rfl, rfl⟩ := encryptSegment_ok h
  have hc := hx.length_encrypt keyPair.key1 keyPair.key2 tweak plaintext h16
  have hd := hx.decrypt_encrypt keyPair.key1 keyPair.key2 tweak plaintext h16
  have hn : (UInt32.ofNat plaintext.length).toNat = plaintext.length :=
    Nat.mod_eq_of_lt hlen
  simp only [EncryptionMetadata.newXts] at hv ht
  simp [decryptSegment, EncryptionMetadata.isEncrypted, hv, ht, hl, hc, hn, Xts.decrypt, hd,
    Nat.not_lt.mpr h16]

/-- **A tag verifies on the input it was computed over.** -/
theorem verifyMac_computeMac {ciphertext : Bytes} {m m' : EncryptionMetadata}
    {key1 key2 : Block 32}
    (hs : serializeMetadataForMac m' = serializeMetadataForMac m)
    (ht : m'.integrityTag = some (computeMac P ciphertext m key1 key2)) :
    verifyMac P ciphertext m' key1 key2 = .ok () := by
  have hc : computeMac P ciphertext { m' with integrityTag := none } key1 key2 =
      computeMac P ciphertext m key1 key2 := by
    unfold computeMac
    rw [show serializeMetadataForMac { m' with integrityTag := none } =
      serializeMetadataForMac m' from rfl, hs]
  simp [verifyMac, ht, hc]

end Space

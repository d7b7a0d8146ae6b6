import Space.Modular.Interface
import Space.Native.WriteAsync
import Space.Codec.Stored

/-!
# Modular — Encryptors

The encryptors of the modular pipeline: one that leaves the data as it is, and one over a key
manager, which seals a segment as the native writers do, from another spelling of the hash.

* `hexEncode_take_eq_iff`: a text of hexadecimal digits begins with what it spells only if that is a
  row of the digit `3`.
* `sealAlike_iff`: the native writers take the tweak from the hexadecimal text of the digest, and so
  the two seal a payload alike only where the digest is its own spelling.
-/

namespace Space
open Support

/-! ### The encryptors -/

namespace NoopEncryptor

def encrypt (data : Bytes) (_policy : EncryptionPolicy) (_segment : SegmentId) :
    Except Error (Bytes × EncryptionSummary) :=
  .ok (data, .new "noop")

def decrypt (data : Bytes) (_policy : EncryptionPolicy) (_segment : SegmentId) :
    Except Error Bytes :=
  .ok data

end NoopEncryptor

/-- The encryptor over a key manager; what the manager caches does not show. -/
structure XtsEncryptor (P : Primitives) where
  keyManager : KeyManager P

namespace XtsEncryptor
variable {P : Primitives} (e : XtsEncryptor P)

/-- The version asked for, or the current one, and its key. -/
def acquireKey (requested : Option UInt32) : UInt32 × XtsKeyPair :=
  let keyVersion := requested.getD e.keyManager.currentVersion
  (keyVersion, (e.keyManager.getKey keyVersion).1)

variable (P) in
/-- The payload of data under a key, with its metadata. -/
def sealData (key : UInt32 × XtsKeyPair) (data : Bytes) :
    Except Error (Bytes × EncryptionMetadata) := do
  let tweak := deriveTweakFromHash (P.blake3 data).toList
  let (ciphertext, metadata) ← (encryptSegment P data key.2 key.1 tweak).mapError fun e =>
    .context "segment encryption failed" (.enc e)
  let mac := computeMac P ciphertext metadata key.2.key1 key.2.key2
  return (ciphertext, metadata.setIntegrityTag mac)

def encrypt (data : Bytes) (policy : EncryptionPolicy) (_segment : SegmentId) :
    Except Error (Bytes × EncryptionSummary) :=
  if policy.isEnabled then do
    let (ciphertext, metadata) ← sealData P (e.acquireKey policy.keyVersion) data
    return (ciphertext,
      { algorithm := "xts-aes-256"
        keyVersion := metadata.keyVersion
        encryptionVersion := metadata.encryptionVersion
        mac := metadata.integrityTag.map List.Vector.toList
        tweakNonce := metadata.tweakNonce
        integrityTag := metadata.integrityTag })
  else .ok (data, .new "none")

/-- The source has a placeholder here: the metadata is not at hand. -/
def decrypt (data : Bytes) (_policy : EncryptionPolicy) (_segment : SegmentId) :
    Except Error Bytes :=
  .ok data

end XtsEncryptor

/-! ### The spelling of a digest -/

/-- A text of hexadecimal digits is longer than what it spells. -/
theorem getElem?_hexEncode (l : Bytes) (i : Nat) :
    (hexEncode l)[i]? =
      l[i / 2]?.map fun b : UInt8 => hexDigit (if i % 2 = 0 then b >>> 4 else b &&& 15) := by
  induction l generalizing i with
  | nil => simp [hexEncode]
  | cons b l ih =>
      obtain _ | _ | i := i
      · simp [hexEncode]
      · simp [hexEncode]
      · have hdiv : (i + 2) / 2 = i / 2 + 1 := Nat.add_div_right i (by decide)
        have hmod : (i + 2) % 2 = i % 2 := Nat.add_mod_right i 2
        rw [hdiv, hmod]
        exact ih i

/-- `3` is the one byte that is the digit of its own upper half. -/
theorem hexDigit_shiftRight_eq_iff (b : UInt8) : hexDigit (b >>> 4) = b ↔ b = 0x33 := by
  have h : ∀ n : Fin 256,
      hexDigit (UInt8.ofFin n >>> 4) = UInt8.ofFin n ↔ UInt8.ofFin n = 0x33 := by
    decide +kernel
  exact h b.toFin

/-- The upper half of a byte, or the lower one, as a digit. -/
theorem hexDigit_half (i : Nat) :
    hexDigit (if i % 2 = 0 then (0x33 : UInt8) >>> 4 else (0x33 : UInt8) &&& 15) = 0x33 := by
  split <;> decide

/-- A text begins with what it spells only if that is a row of the digit `3`: the first byte is a
digit of itself, and every other byte is one of a byte further left. -/
theorem hexEncode_take_eq_iff {l : Bytes} {n : Nat} (hn : n ≤ l.length) :
    (hexEncode l).take n = l.take n ↔ l.take n = List.replicate n 0x33 := by
  have hhalf : ∀ i, i / 2 ≤ i := fun i => Nat.div_le_self i 2
  constructor
  · intro h
    have hrow : ∀ i, i < n → l[i]? = some 0x33 := by
      intro i
      induction i using Nat.strong_induction_on with
      | _ i ih =>
          intro hi
          have hi' : l[i]? = (hexEncode l)[i]? := by
            have hget := congrArg (fun k => k[i]?) h
            simpa only [List.getElem?_take_of_lt hi] using hget.symm
          rw [getElem?_hexEncode] at hi'
          rcases Nat.eq_zero_or_pos i with rfl | hpos
          · obtain ⟨b, hb⟩ : ∃ b, l[0]? = some b := ⟨_, List.getElem?_eq_getElem (by omega)⟩
            have hdigit : hexDigit (b >>> 4) = b := by simpa [hb] using hi'.symm
            rw [hb, (hexDigit_shiftRight_eq_iff b).mp hdigit]
          · rw [ih (i / 2) (Nat.div_lt_self hpos (by decide)) ((hhalf i).trans_lt hi)] at hi'
            rw [hi', Option.map_some, hexDigit_half]
    refine List.ext_getElem? fun i => ?_
    rcases Nat.lt_or_ge i n with hi | hi
    · rw [List.getElem?_take_of_lt hi, hrow i hi, List.getElem?_replicate_of_lt hi]
    · rw [List.getElem?_take_eq_none hi, List.getElem?_eq_none (by simpa using hi)]
  · intro h
    have hrow : ∀ i, i < n → l[i]? = some 0x33 := by
      intro i hi
      have hget := congrArg (fun k => k[i]?) h
      simpa only [List.getElem?_take_of_lt hi, List.getElem?_replicate_of_lt hi] using hget
    refine List.ext_getElem? fun i => ?_
    rcases Nat.lt_or_ge i n with hi | hi
    · rw [List.getElem?_take_of_lt hi, List.getElem?_take_of_lt hi, getElem?_hexEncode,
        hrow (i / 2) ((hhalf i).trans_lt hi), hrow i hi, Option.map_some, hexDigit_half]
    · rw [List.getElem?_take_eq_none hi, List.getElem?_take_eq_none hi]

/-! ### The two sealings -/

section
variable {P : Primitives} {key : UInt32 × XtsKeyPair} {view : Bytes}

/-- What both native writers seal a payload with does the same as the encryptor: the tweak is the
first half of the digest, and so both answer the same bytes, metadata and tag. -/
structure SealAlike (P : Primitives) (key : UInt32 × XtsKeyPair) (view : Bytes) : Prop where
  native : (deriveTweakFromHash (hashContent P view).str).toList = (P.blake3 view).toList.take 16
  modular : (deriveTweakFromHash (P.blake3 view).toList).toList = (P.blake3 view).toList.take 16
  sealed : (sealView P (some key) view (hashContent P view)).toOption =
    (XtsEncryptor.sealData P key view).toOption.map fun r => (r.1, some r.2)

theorem toList_deriveTweakFromHash (hash : Bytes) (h : 16 ≤ hash.length) :
    (deriveTweakFromHash hash).toList = hash.take 16 :=
  List.take_append_of_le_length h

theorem length_hexEncode (l : Bytes) : (hexEncode l).length = 2 * l.length := by
  induction l with
  | nil => rfl
  | cons b l ih => simp [hexEncode, ih]; omega

/-- From one tweak both make the same of a payload. -/
theorem sealView_eq_sealData
    (h : deriveTweakFromHash (hashContent P view).str =
      deriveTweakFromHash (P.blake3 view).toList) :
    (sealView P (some key) view (hashContent P view)).toOption =
      (XtsEncryptor.sealData P key view).toOption.map fun r => (r.1, some r.2) := by
  unfold sealView XtsEncryptor.sealData
  simp only [h, Bind.bind, Except.bind]
  cases encryptSegment P view key.2 key.1 (deriveTweakFromHash (P.blake3 view).toList) <;> rfl

/-- **Two spellings of a digest.**  The writers agree on a payload iff its digest begins with
sixteen times the byte `0x33`. -/
theorem sealAlike_iff (P : Primitives) (key : UInt32 × XtsKeyPair) (view : Bytes) :
    SealAlike P key view ↔ (P.blake3 view).toList.take 16 = List.replicate 16 0x33 := by
  have hlen : (P.blake3 view).toList.length = 32 := (P.blake3 view).toList_length
  have hmodular := toList_deriveTweakFromHash (P.blake3 view).toList (by omega)
  have hnative : (deriveTweakFromHash (hashContent P view).str).toList =
      (hexEncode (P.blake3 view).toList).take 16 :=
    toList_deriveTweakFromHash (hexEncode (P.blake3 view).toList) (by rw [length_hexEncode]; omega)
  rw [← hexEncode_take_eq_iff (by omega)]
  constructor
  · intro h
    exact hnative.symm.trans h.native
  · intro h
    have htweak : deriveTweakFromHash (hashContent P view).str =
        deriveTweakFromHash (P.blake3 view).toList :=
      List.Vector.eq _ _ (hnative.trans (h.trans hmodular.symm))
    exact ⟨hnative.trans h, hmodular, sealView_eq_sealData htweak⟩

/-- The BLAKE3 digest of 32 zero bytes. -/
def digestOfZeros : Bytes :=
  [0x2a, 0xda, 0x83, 0xc1, 0x81, 0x9a, 0x53, 0x72, 0xda, 0xe1, 0x23, 0x8f, 0xc1, 0xde, 0xd1, 0x23,
    0xc8, 0x10, 0x4f, 0xda, 0xa1, 0x58, 0x62, 0xaa, 0xee, 0x69, 0x42, 0x8a, 0x18, 0x20, 0xfc, 0xda]

/-- The primitives that store, with the digest of 32 zero bytes. -/
def Primitives.zeroDigest : Primitives :=
  { Primitives.stored with blake3 := fun _ => .ofPrefix 32 digestOfZeros }

/-- The writers do not agree on 32 zero bytes. -/
theorem not_sealAlike :
    ¬ ∀ (P : Primitives) (key : UInt32 × XtsKeyPair) (view : Bytes), SealAlike P key view := by
  intro h
  have halike := h .zeroDigest (1, ⟨.ofPrefix 32 [], .ofPrefix 32 []⟩) (List.replicate 32 0)
  exact absurd halike.native (by decide)

end

end Space

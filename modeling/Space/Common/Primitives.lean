import Space.Common.Error
import Mathlib.Data.Set.Function

/-!
# Common — Primitives

The functions of third-party crates the code calls: BLAKE3, HMAC-SHA-256, the LZ4 and Zstd
codecs, AES-XTS.  They are parameters of the model; what the code relies on is stated, where a
result needs it, as a property of the parameter (`CodecsInverse`, `XtsInverse`, `NoCollision`).
The floating-point entropy test of the compressor is a parameter as well.
-/

namespace Space

/-- The third-party functions. -/
structure Primitives where
  /-- `blake3::hash`. -/
  blake3 : Bytes → Block 32
  /-- `blake3::Hasher::new_keyed`, finalised on one input. -/
  blake3Keyed : Block 32 → Bytes → Block 32
  /-- HMAC-SHA-256 under a key. -/
  hmacSha256 : Bytes → Bytes → Block 32
  /-- `compress_lz4` at a level. -/
  compressLz4 : Int → Bytes → Except CompressionError Bytes
  /-- `decompress_lz4`. -/
  decompressLz4 : Bytes → Except CompressionError Bytes
  /-- `compress_zstd` at a level. -/
  compressZstd : Int → Bytes → Except CompressionError Bytes
  /-- `decompress_zstd`. -/
  decompressZstd : Bytes → Except CompressionError Bytes
  /-- `Xts128::encrypt_sector` with the AES-256 ciphers of two keys, at a tweak. -/
  encryptSector : Block 32 → Block 32 → Bytes → Block 16 → Bytes
  /-- `Xts128::decrypt_sector`. -/
  decryptSector : Block 32 → Block 32 → Bytes → Block 16 → Bytes
  /-- `estimate_entropy(sample) >= 7.5`, in bits per byte. -/
  highEntropy : Bytes → Bool

/-- Decompression undoes compression. -/
structure Primitives.CodecsInverse (P : Primitives) : Prop where
  lz4 : ∀ (level : Int) (x y : Bytes), P.compressLz4 level x = .ok y → P.decompressLz4 y = .ok x
  zstd : ∀ (level : Int) (x y : Bytes), P.compressZstd level x = .ok y → P.decompressZstd y = .ok x

/-- XTS on a sector of at least one block keeps its length, and decryption under the same keys
and tweak undoes encryption. -/
structure Primitives.XtsInverse (P : Primitives) : Prop where
  length_encrypt : ∀ (k₁ k₂ : Block 32) (t : Block 16) (x : Bytes), 16 ≤ x.length →
    (P.encryptSector k₁ k₂ x t).length = x.length
  decrypt_encrypt : ∀ (k₁ k₂ : Block 32) (t : Block 16) (x : Bytes), 16 ≤ x.length →
    P.decryptSector k₁ k₂ (P.encryptSector k₁ k₂ x t) t = x

/-- BLAKE3 has no collisions among the inputs of `U`. -/
def Primitives.NoCollision (P : Primitives) (U : Set Bytes) : Prop := Set.InjOn P.blake3 U

end Space

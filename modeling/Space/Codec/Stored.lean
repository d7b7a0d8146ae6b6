import Space.Codec.Compression
import Space.Codec.Encryption

/-!
# Codec — Stored

Primitives that satisfy everything the development assumes of the third-party crates.  The codecs
put a chunk into a frame without compressing it, LZ4 into the frame of one uncompressed block; the
digests pad their input; the cipher complements every bit.  `Primitives.shrinking` differs in one
chunk, which its LZ4 codec makes shorter.

* `Primitives.stored_codecs`: decompression undoes compression.
* `Primitives.stored_xts`: decryption undoes encryption.
-/

namespace Space

/-- Magic number, flags, and header checksum of an LZ4 frame with blocks of 64 KiB. -/
def lz4Header : Bytes := [0x04, 0x22, 0x4D, 0x18, 0x60, 0x40, 0x82]

/-- The end mark of an LZ4 frame. -/
def lz4EndMark : Bytes := [0, 0, 0, 0]

/-- The frame of one uncompressed block, without checksums; of none, for the empty input. -/
def lz4Frame (data : Bytes) : Bytes :=
  lz4Header ++
    (if data = [] then [] else le32 (UInt32.ofNat data.length ||| 0x80000000) ++ data) ++ lz4EndMark

/-- The decoder of such frames.  Of less than a header it has decoded nothing when the input ends,
and that is no error. -/
def lz4Unframe (frame : Bytes) : Except CompressionError Bytes :=
  if frame.length < 7 then .ok []
  else if 11 ≤ frame.length ∧ frame.take 7 = lz4Header ∧
      frame.drop (frame.length - 4) = lz4EndMark then
    .ok (((frame.drop 7).take (frame.length - 11)).drop 4)
  else .error (.codec "lz4" "LZ4 error: ERROR_frameType_unknown")

def zstdMagic : Bytes := [0x28, 0xB5, 0x2F, 0xFD]

def zstdFrame (data : Bytes) : Bytes := zstdMagic ++ data

def zstdUnframe (frame : Bytes) : Except CompressionError Bytes :=
  if frame.take 4 = zstdMagic then .ok (frame.drop 4)
  else .error (.io "zstd" "Unknown frame descriptor")

/-- Seven bytes, which no decoder takes for a frame. -/
def unframed : Bytes := [1, 2, 3, 4, 5, 6, 7]

/-- Flip every bit. -/
def complement (data : Bytes) : Bytes := data.map (~~~ ·)

/-- The primitives that store. -/
def Primitives.stored : Primitives where
  blake3 := .ofPrefix 32
  blake3Keyed := fun key data => .ofPrefix 32 (data ++ key.toList)
  hmacSha256 := fun key data => .ofPrefix 32 (data ++ key)
  compressLz4 := fun _ data => .ok (lz4Frame data)
  decompressLz4 := lz4Unframe
  compressZstd := fun _ data => .ok (zstdFrame data)
  decompressZstd := zstdUnframe
  encryptSector := fun _ _ data _ => complement data
  decryptSector := fun _ _ data _ => complement data
  highEntropy := fun _ => false

namespace Primitives

theorem lz4Unframe_lz4Frame (data : Bytes) : lz4Unframe (lz4Frame data) = .ok data := by
  by_cases hd : data = []
  · subst hd; rfl
  · have hlen : 11 ≤ (lz4Frame data).length := by
      simp only [lz4Frame, List.length_append]
      exact Nat.add_le_add_right (Nat.le_add_right 7 _) 4
    rw [lz4Unframe, if_neg (by omega)]
    simp only [lz4Frame, hd, if_false]
    rw [if_pos]
    · simp [lz4Header, lz4EndMark, le32]
    · simp [lz4Header, lz4EndMark, le32]

theorem zstdUnframe_zstdFrame (data : Bytes) : zstdUnframe (zstdFrame data) = .ok data := by
  simp [zstdFrame, zstdUnframe, zstdMagic]

theorem stored_codecs : stored.CodecsInverse where
  lz4 := fun _ data frame h => by cases h; exact lz4Unframe_lz4Frame data
  zstd := fun _ data frame h => by cases h; exact zstdUnframe_zstdFrame data

theorem complement_complement (data : Bytes) : complement (complement data) = data := by
  simp [complement, Function.comp_def]

theorem stored_xts : stored.XtsInverse where
  length_encrypt := fun _ _ _ _ _ => List.length_map _
  decrypt_encrypt := fun _ _ _ x _ => complement_complement x

end Primitives

/-! ### A codec that compresses -/

/-- The LZ4 frame of 64 zero bytes, with its checksums: one literal, a match, five literals. -/
def zeroFrame : Bytes :=
  [0x04, 0x22, 0x4D, 0x18, 0x54, 0x40, 0xAE] ++ [11, 0, 0, 0] ++
    [0x1F, 0, 1, 0, 0x27, 0x50, 0, 0, 0, 0, 0] ++ [0x92, 0x53, 0x71, 0xC8] ++ lz4EndMark ++
    [0x90, 0x87, 0x32, 0x56]

/-- The primitives that store, but for a compressor that knows what 64 zero bytes shrink to. -/
def Primitives.shrinking : Primitives :=
  { Primitives.stored with
    compressLz4 := fun _ data =>
      if data = List.replicate 64 0 then .ok zeroFrame else .ok (lz4Frame data)
    decompressLz4 := fun frame =>
      if frame = zeroFrame then .ok (List.replicate 64 0) else lz4Unframe frame }

/-- The flags of the two frames differ. -/
theorem lz4Frame_ne_zeroFrame (data : Bytes) : lz4Frame data ≠ zeroFrame := by
  intro h
  have hflags : (lz4Frame data)[4]? = zeroFrame[4]? := congrArg (fun frame => frame[4]?) h
  rw [lz4Frame, List.append_assoc, List.getElem?_append_left (by decide)] at hflags
  exact absurd hflags (by decide)

theorem Primitives.shrinking_codecs : Primitives.shrinking.CodecsInverse where
  lz4 := by
    intro level data frame h
    simp only [shrinking] at h ⊢
    split at h
    · next e =>
        cases h
        rw [if_pos rfl, e]
    · cases h
      rw [if_neg (lz4Frame_ne_zeroFrame data), lz4Unframe_lz4Frame]
  zstd := Primitives.stored_codecs.zstd

end Space

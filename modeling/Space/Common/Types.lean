import Space.Support.Table
import Mathlib.Data.Vector.Defs

/-!
# Common — Types

The data the two pipelines store and exchange: bytes, identifiers, policies, segments, capsules,
deduplication statistics.

The machine integers of the source are natural numbers where the code only counts or compares,
with the cast, wrap or saturation written out where the source has one (`asU32`,
`saturatingSucc`); version numbers, which are serialised, are `UInt16` and `UInt32`.  A
`HashMap` is a `Table`; where the order of a traversal could be observed, the traversal takes an
`Order`.
-/

namespace Space
open Support

/-- A byte string. -/
abbrev Bytes := List UInt8

/-- A string, as its characters. -/
abbrev Text := List Char

/-- `[u8; n]`. -/
abbrev Block (n : Nat) := List.Vector UInt8 n

/-- The first `n` bytes of `l`, in an array of zeros. -/
def Block.ofPrefix (n : Nat) (l : Bytes) : Block n :=
  ⟨(l ++ List.replicate n 0).take n, by simp⟩

theorem Block.ofPrefix_toList {n : Nat} (b : Block n) : Block.ofPrefix n b.toList = b := by
  refine List.Vector.eq _ _ ?_
  exact (List.take_append_of_le_length b.2.ge).trans (List.take_of_length_le b.2.le)

/-- `u32::MAX`. -/
def u32Max : Nat := 4294967295

/-- `n as u32`. -/
def asU32 (n : Nat) : Nat := n % 4294967296

/-- `n.saturating_add(1)` at `u32`. -/
def saturatingSucc (n : Nat) : Nat := min (n + 1) u32Max

theorem asU32_of_lt {n : Nat} (h : n < 4294967296) : asU32 n = n := Nat.mod_eq_of_lt h

theorem saturatingSucc_of_lt {n : Nat} (h : n < u32Max) : saturatingSucc n = n + 1 := by
  unfold saturatingSucc; omega

/-- `SEGMENT_SIZE`: 4 MiB. -/
def SEGMENT_SIZE : Nat := 4 * 1024 * 1024

theorem SEGMENT_SIZE_pos : 0 < SEGMENT_SIZE := by decide

structure SegmentId where
  val : Nat
  deriving DecidableEq, Repr

structure CapsuleId where
  val : Nat
  deriving DecidableEq, Repr

/-- A content hash: the hexadecimal spelling of a digest, as the bytes of the string. -/
structure ContentHash where
  str : Bytes
  deriving DecidableEq, Repr

/-! ### Policies -/

inductive CompressionPolicy where
  | none
  | lz4 (level : Int)
  | zstd (level : Int)
  deriving DecidableEq, Repr

/-- LZ4 level 1 for speed. -/
instance : Inhabited CompressionPolicy := ⟨.lz4 1⟩

inductive EncryptionPolicy where
  | disabled
  | xtsAes256 (keyVersion : Option UInt32)
  deriving DecidableEq, Repr

namespace EncryptionPolicy

def isEnabled : EncryptionPolicy → Bool
  | .disabled => false
  | .xtsAes256 _ => true

/-- The key version to use; `none` is the current one. -/
def keyVersion : EncryptionPolicy → Option UInt32
  | .disabled => Option.none
  | .xtsAes256 v => v

end EncryptionPolicy

inductive MerkleAlgo where
  | blake3
  | sphincsPlus
  deriving DecidableEq, Repr

inductive LayoutStrategy where
  | fixed (segmentSize : Nat)
  | adaptiveEntropy
  | znsGraph (zoneSizeMib graphRadius : Nat)
  | learned (modelPath : String)
  | quantumReady (merkleAlgo : MerkleAlgo)
  deriving DecidableEq, Repr

/-- `usize::MAX`, on a 64-bit machine. -/
def usizeMax : Nat := 18446744073709551615

def LayoutStrategy.defaultSegmentSize : LayoutStrategy → Nat
  | .fixed segmentSize => segmentSize
  | .adaptiveEntropy => 4 * 1024 * 1024
  | .znsGraph zoneSizeMib _ => min (zoneSizeMib * (1024 * 1024)) usizeMax
  | .learned _ => 4 * 1024 * 1024
  | .quantumReady _ => 4 * 1024 * 1024

structure LayoutPolicy where
  strategy : LayoutStrategy := .fixed (4 * 1024 * 1024)
  deriving DecidableEq, Repr

/-- Cryptography profile of the write pipeline. -/
inductive CryptoProfile where
  | classical
  | hybridKyber
  deriving DecidableEq, Repr

/-- Data sovereignty: the node only, the zone only, or everywhere. -/
inductive SovereigntyLevel where
  | localOnly
  | zone
  | global
  deriving DecidableEq, Repr

/-- `Duration::from_secs`, in nanoseconds. -/
def fromSecs (n : Nat) : Nat := n * 1000000000

/-- `Duration::from_millis`, in nanoseconds. -/
def fromMillis (n : Nat) : Nat := n * 1000000

/-- The storage policy of a capsule, with the source's defaults. -/
structure Policy where
  compression : CompressionPolicy := .lz4 1
  dedupe : Bool := true
  encryption : EncryptionPolicy := .disabled
  layout : LayoutPolicy := {}
  cryptoProfile : CryptoProfile := .classical
  rpo : Nat := fromSecs 60
  latencyTarget : Nat := fromMillis 10
  sovereignty : SovereigntyLevel := .localOnly
  deriving DecidableEq, Repr

/-- `Policy::metro_sync`. -/
def Policy.metroSync : Policy where
  encryption := .xtsAes256 none
  rpo := 0
  latencyTarget := fromMillis 2
  sovereignty := .zone

/-! ### Segments and capsules -/

/-- The metadata of a stored segment. -/
structure Segment where
  id : SegmentId
  offset : Nat
  len : Nat
  compressed : Bool
  compressionAlgo : String
  contentHash : Option ContentHash
  refCount : Nat
  deduplicated : Bool
  accessCount : Nat
  encryptionVersion : Option UInt16
  keyVersion : Option UInt32
  tweakNonce : Option (Block 16)
  integrityTag : Option (Block 16)
  encrypted : Bool
  pqCiphertext : Option String
  pqNonce : Option (Block 16)
  deriving DecidableEq

/-- The metadata of a segment that was just appended: one reference, nothing else known. -/
def Segment.appended (id : SegmentId) (offset len : Nat) : Segment where
  id := id
  offset := offset
  len := len
  compressed := false
  compressionAlgo := "none"
  contentHash := none
  refCount := 1
  deduplicated := false
  accessCount := 0
  encryptionVersion := none
  keyVersion := none
  tweakNonce := none
  integrityTag := none
  encrypted := false
  pqCiphertext := none
  pqNonce := none

structure Capsule where
  id : CapsuleId
  size : Nat
  segments : List SegmentId
  policy : Policy
  dedupedBytes : Nat
  deriving DecidableEq

/-! ### Deduplication statistics -/

structure DedupStats where
  totalSegments : Nat := 0
  dedupedSegments : Nat := 0
  bytesSaved : Nat := 0
  deriving DecidableEq, Repr

namespace DedupStats

def record (st : DedupStats) (segmentLen : Nat) (wasDeduped : Bool) : DedupStats where
  totalSegments := st.totalSegments + 1
  dedupedSegments := if wasDeduped then st.dedupedSegments + 1 else st.dedupedSegments
  bytesSaved := if wasDeduped then st.bytesSaved + segmentLen else st.bytesSaved

def addSegment (st : DedupStats) (segmentLen : Nat) (wasDeduped : Bool) : DedupStats :=
  st.record segmentLen wasDeduped

end DedupStats

end Space

import Space.Common.Primitives

/-!
# Codec — Compression

`adaptive_compress`: a chunk is stored raw when the policy says so, when its first bytes look
random, or when compressing it gains nothing; otherwise it is stored compressed, after the
compressed form was decompressed again and compared.

* `adaptiveCompress_cases`: the two forms a stored view takes.  A raw view is the chunk itself; a
  compressed one is shorter than the chunk and the policy's decompressor returns the chunk.
-/

namespace Space

inductive CompressionSkipReason where
  | entropy
  | ineffective
  deriving DecidableEq, Repr

structure CompressionResult where
  originalSize : Nat
  compressedSize : Nat
  compressed : Bool
  reusedOriginal : Bool
  algorithm : String
  reason : Option CompressionSkipReason
  deriving DecidableEq, Repr

/-- Summary of a compression, as the modular pipeline sees it. -/
structure CompressionSummary where
  originalSize : Nat
  outputSize : Nat
  algorithm : String
  compressed : Bool
  reusedInput : Bool
  reason : Option CompressionSkipReason
  deriving DecidableEq, Repr

def CompressionSummary.new (originalSize outputSize : Nat) (algorithm : String) :
    CompressionSummary where
  originalSize := originalSize
  outputSize := outputSize
  algorithm := algorithm
  compressed := decide (outputSize < originalSize)
  reusedInput := false
  reason := none

variable (P : Primitives)

/-- The entropy test looks at the first 1024 bytes, of inputs that have them. -/
def entropySkipReason (data : Bytes) : Option CompressionSkipReason :=
  if data.length < 1024 then none
  else if P.highEntropy (data.take 1024) then some .entropy
  else none

/-- `level.clamp(lo, hi)`. -/
def clamp (level lo hi : Int) : Int := max lo (min level hi)

/-- Adjust the compression level to the range of the algorithm. -/
def adjustedLevel (level : Int) (algorithm : String) : Int :=
  if algorithm = "lz4" then clamp level 1 16
  else if algorithm = "zstd" then clamp level (-5) 22
  else level

/-- The result of an attempt; `compressed_size` is the input's length, as the source has it. -/
def CompressionResult.attempted (data : Bytes) (algorithm : String) : CompressionResult where
  originalSize := data.length
  compressedSize := data.length
  compressed := true
  reusedOriginal := false
  algorithm := algorithm
  reason := none

/-- The result of storing the input as it is. -/
def CompressionResult.identity (data : Bytes) (reason : Option CompressionSkipReason) :
    CompressionResult where
  originalSize := data.length
  compressedSize := data.length
  compressed := false
  reusedOriginal := true
  algorithm := "identity"
  reason := reason

def attemptCompress (data : Bytes) :
    CompressionPolicy → Except CompressionError (Bytes × CompressionResult)
  | .none => .ok (data, .identity data none)
  | .lz4 level => do
      let level := adjustedLevel level "lz4"
      let compressed ← P.compressLz4 level data
      return (compressed, .attempted data ("lz4:" ++ toString level))
  | .zstd level => do
      let level := adjustedLevel level "zstd"
      let compressed ← P.compressZstd level data
      return (compressed, .attempted data ("zstd:" ++ toString level))

/-- The decompressor of a policy, if it has one, and its name. -/
def CompressionPolicy.decompressor :
    CompressionPolicy → Option (String × (Bytes → Except CompressionError Bytes))
  | .none => Option.none
  | .lz4 _ => some ("lz4", P.decompressLz4)
  | .zstd _ => some ("zstd", P.decompressZstd)

/-- Decompress again and compare. -/
def verifyIntegrity (policy : CompressionPolicy) (compressed original : Bytes) :
    Except CompressionError Unit :=
  match policy.decompressor P with
  | none => .ok ()
  | some (name, decompress) => do
      let decompressed ← decompress compressed
      if decompressed = original then .ok () else .error (.integrityFailure name)

/-- Compress unless the policy is `none`, the input looks random, or nothing is gained. -/
def adaptiveCompress (data : Bytes) (policy : CompressionPolicy) :
    Except Error (Bytes × CompressionResult) :=
  if policy = .none then .ok (data, .identity data (some .ineffective))
  else
    match entropySkipReason P data with
    | some reason => .ok (data, .identity data (some reason))
    | none =>
      match attemptCompress P data policy with
      | .error e => .error (.context "compression backend failure" (.comp e))
      | .ok (compressed, result) =>
        if data.length ≤ compressed.length then
          .ok (data, { result with
            compressed := false, compressedSize := data.length, reusedOriginal := true,
            algorithm := "identity", reason := some .ineffective })
        else
          match verifyIntegrity P policy compressed data with
          | .error e => .error (.context "integrity verification failed" (.comp e))
          | .ok () => .ok (compressed, result)

/-- Primary entry point used by the native pipeline. -/
def compressSegment (data : Bytes) (policy : CompressionPolicy) :
    Except Error (Bytes × CompressionResult) := adaptiveCompress P data policy

/-! ### `Lz4ZstdCompressor` -/

def hasPrefix (s algorithm : String) : Bool := s.toList.isPrefixOf algorithm.toList

namespace Lz4ZstdCompressor

def compress (data : Bytes) (policy : CompressionPolicy) :
    Except Error (Bytes × CompressionSummary) := do
  let (view, result) ← compressSegment P data policy
  return (view, { CompressionSummary.new result.originalSize result.compressedSize
      result.algorithm with
    compressed := result.compressed, reusedInput := result.reusedOriginal,
    reason := result.reason })

def decompress (data : Bytes) (algorithm : String) : Except Error Bytes :=
  if algorithm = "identity" then .ok data
  else if hasPrefix "lz4" algorithm then (P.decompressLz4 data).mapError .comp
  else if hasPrefix "zstd" algorithm then (P.decompressZstd data).mapError .comp
  else .error (.comp (.invalidPolicy ("unsupported algorithm " ++ algorithm)))

end Lz4ZstdCompressor

/-! ### What a stored view is -/

variable {P}

theorem attemptCompress_result {data : Bytes} {policy : CompressionPolicy} {view : Bytes}
    {r : CompressionResult} (hp : policy ≠ .none)
    (h : attemptCompress P data policy = .ok (view, r)) :
    r.compressed = true ∧ r.originalSize = data.length ∧
      ∃ l, (policy = .lz4 l ∧ r.algorithm = "lz4:" ++ toString (adjustedLevel l "lz4")) ∨
        (policy = .zstd l ∧ r.algorithm = "zstd:" ++ toString (adjustedLevel l "zstd")) := by
  cases policy with
  | none => exact absurd rfl hp
  | lz4 l =>
      simp only [attemptCompress, bind, Except.bind] at h
      split at h
      · cases h
      · cases h; exact ⟨rfl, rfl, l, .inl ⟨rfl, rfl⟩⟩
  | zstd l =>
      simp only [attemptCompress, bind, Except.bind] at h
      split at h
      · cases h
      · cases h; exact ⟨rfl, rfl, l, .inr ⟨rfl, rfl⟩⟩

theorem verifyIntegrity_ok {policy : CompressionPolicy} {view data : Bytes} {name : String}
    {decompress : Bytes → Except CompressionError Bytes}
    (hd : policy.decompressor P = some (name, decompress))
    (h : verifyIntegrity P policy view data = .ok ()) : decompress view = .ok data := by
  simp only [verifyIntegrity, hd, bind, Except.bind] at h
  split at h
  · cases h
  · next d hv =>
      split at h
      · next e => rw [hv, e]
      · cases h

/-- **The stored forms of a chunk.**  Either the chunk itself, recorded as `identity` and not
compressed; or, under a policy with a decompressor, a shorter view that this decompressor takes
back to the chunk, recorded as compressed under the policy's algorithm. -/
theorem adaptiveCompress_cases {data : Bytes} {policy : CompressionPolicy} {view : Bytes}
    {r : CompressionResult} (h : adaptiveCompress P data policy = .ok (view, r)) :
    (view = data ∧ r.compressed = false ∧ r.algorithm = "identity") ∨
    (r.compressed = true ∧ view.length < data.length ∧
      ∃ l, (policy = .lz4 l ∧ P.decompressLz4 view = .ok data ∧
          r.algorithm = "lz4:" ++ toString (adjustedLevel l "lz4")) ∨
        (policy = .zstd l ∧ P.decompressZstd view = .ok data ∧
          r.algorithm = "zstd:" ++ toString (adjustedLevel l "zstd"))) := by
  unfold adaptiveCompress at h
  by_cases hp : policy = .none
  · rw [if_pos hp] at h
    cases h
    exact .inl ⟨rfl, rfl, rfl⟩
  rw [if_neg hp] at h
  split at h
  · cases h; exact .inl ⟨rfl, rfl, rfl⟩
  split at h
  · cases h
  · next compressed result hc =>
      split at h
      · cases h; exact .inl ⟨rfl, rfl, rfl⟩
      · next hlen =>
          split at h
          · cases h
          · next hv =>
              cases h
              obtain ⟨h₁, -, l, ⟨rfl, ha⟩ | ⟨rfl, ha⟩⟩ := attemptCompress_result hp hc
              · exact .inr ⟨h₁, by omega, l, .inl ⟨rfl, verifyIntegrity_ok rfl hv, ha⟩⟩
              · exact .inr ⟨h₁, by omega, l, .inr ⟨rfl, verifyIntegrity_ok rfl hv, ha⟩⟩

end Space

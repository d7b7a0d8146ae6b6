import Space.Codec.Stored

/-!
# Codec — StoredForm

What `adaptive_compress` returns beside the view, for codecs that may do anything: the view decodes
under the algorithm that is recorded (`adaptiveCompress_law`), since what a codec returns is decoded
again before it is used.  The recorded size is not that of the view: an attempt records the size of
its input, and only the exits that store the input agree with that (`compressedSize_exact`).
-/

namespace Space

/-- `Cow<[u8]>`. -/
inductive Cow where
  | borrowed (data : Bytes)
  | owned (data : Bytes)
  deriving DecidableEq

def Cow.view : Cow → Bytes
  | .borrowed data => data
  | .owned data => data

variable (P : Primitives)

/-- `adaptive_compress`, with the view as it is returned. -/
def adaptiveCompressCow (data : Bytes) (policy : CompressionPolicy) :
    Except Error (Cow × CompressionResult) :=
  if policy = .none then .ok (.borrowed data, .identity data (some .ineffective))
  else
    match entropySkipReason P data with
    | some reason => .ok (.borrowed data, .identity data (some reason))
    | none =>
      match attemptCompress P data policy with
      | .error e => .error (.context "compression backend failure" (.comp e))
      | .ok (compressed, result) =>
        if data.length ≤ compressed.length then
          .ok (.borrowed data, { result with
            compressed := false, compressedSize := data.length, reusedOriginal := true,
            algorithm := "identity", reason := some .ineffective })
        else
          match verifyIntegrity P policy compressed data with
          | .error e => .error (.context "integrity verification failed" (.comp e))
          | .ok () => .ok (.owned compressed, result)

/-- `supports_algorithm`. -/
def Lz4ZstdCompressor.supportsAlgorithm (algorithm : String) : Bool :=
  algorithm == "identity" || hasPrefix "lz4" algorithm || hasPrefix "zstd" algorithm

variable {P} {data : Bytes} {policy : CompressionPolicy} {view : Cow} {r : CompressionResult}

/-- The view is that of `adaptiveCompress`. -/
theorem adaptiveCompressCow_view :
    (adaptiveCompressCow P data policy).map (fun r => (r.1.view, r.2)) =
      adaptiveCompress P data policy := by
  unfold adaptiveCompressCow adaptiveCompress
  by_cases hp : policy = .none
  · rw [if_pos hp, if_pos hp]
    rfl
  rw [if_neg hp, if_neg hp]
  cases entropySkipReason P data with
  | some reason => rfl
  | none =>
      cases attemptCompress P data policy with
      | error e => rfl
      | ok a =>
          dsimp only
          by_cases hlen : data.length ≤ a.1.length
          · rw [if_pos hlen, if_pos hlen]
            rfl
          rw [if_neg hlen, if_neg hlen]
          cases verifyIntegrity P policy a.1 data <;> rfl

theorem attemptCompress_sizes {compressed : Bytes} (hp : policy ≠ .none)
    (h : attemptCompress P data policy = .ok (compressed, r)) :
    r.compressedSize = data.length ∧ r.reusedOriginal = false := by
  cases policy with
  | none => exact absurd rfl hp
  | lz4 l =>
      simp only [attemptCompress, bind, Except.bind] at h
      split at h
      · cases h
      · cases h; exact ⟨rfl, rfl⟩
  | zstd l =>
      simp only [attemptCompress, bind, Except.bind] at h
      split at h
      · cases h
      · cases h; exact ⟨rfl, rfl⟩

/-- The names of the algorithms, which a level follows. -/
theorem lz4_algorithm (level : String) : "lz4:" ++ level ≠ "identity" ∧
    hasPrefix "lz4" ("lz4:" ++ level) = true := by
  have hlist : ("lz4:" ++ level).toList = ['l', 'z', '4', ':'] ++ level.toList :=
    String.toList_append
  refine ⟨fun h => ?_, ?_⟩
  · rw [h] at hlist
    exact absurd (show some 'i' = some 'l' from congrArg List.head? hlist) (by decide)
  · rw [hasPrefix, hlist]
    rfl

theorem zstd_algorithm (level : String) : "zstd:" ++ level ≠ "identity" ∧
    hasPrefix "lz4" ("zstd:" ++ level) = false ∧ hasPrefix "zstd" ("zstd:" ++ level) = true := by
  have hlist : ("zstd:" ++ level).toList = ['z', 's', 't', 'd', ':'] ++ level.toList :=
    String.toList_append
  refine ⟨fun h => ?_, ?_, ?_⟩
  · rw [h] at hlist
    exact absurd (show some 'i' = some 'z' from congrArg List.head? hlist) (by decide)
  · rw [hasPrefix, hlist]
    rfl
  · rw [hasPrefix, hlist]
    rfl

variable (P) in
/-- The chunk is stored as it is: the policy says so, it looks random, or the codec does not make it
shorter. -/
def StoredRaw (data : Bytes) (policy : CompressionPolicy) : Prop :=
  policy = .none ∨ (entropySkipReason P data).isSome ∨
    ∀ compressed r, attemptCompress P data policy = .ok (compressed, r) →
      data.length ≤ compressed.length

/-- **The two forms.** -/
theorem adaptiveCompressCow_cases (h : adaptiveCompressCow P data policy = .ok (view, r)) :
    (StoredRaw P data policy ∧ view = .borrowed data ∧ r.compressed = false ∧
      r.reusedOriginal = true ∧ r.compressedSize = data.length ∧ r.algorithm = "identity") ∨
    ∃ compressed, ¬ StoredRaw P data policy ∧ view = .owned compressed ∧
      compressed.length < data.length ∧ r.compressed = true ∧ r.reusedOriginal = false ∧
      r.compressedSize = data.length ∧
      Lz4ZstdCompressor.decompress P compressed r.algorithm = .ok data ∧
      Lz4ZstdCompressor.supportsAlgorithm r.algorithm = true := by
  unfold adaptiveCompressCow at h
  by_cases hp : policy = .none
  · rw [if_pos hp] at h
    cases h
    exact .inl ⟨.inl hp, rfl, rfl, rfl, rfl, rfl⟩
  rw [if_neg hp] at h
  cases he : entropySkipReason P data with
  | some reason =>
      rw [he] at h
      cases h
      exact .inl ⟨.inr (.inl (by rw [he]; rfl)), rfl, rfl, rfl, rfl, rfl⟩
  | none =>
      rw [he] at h
      cases ha : attemptCompress P data policy with
      | error e => rw [ha] at h; cases h
      | ok a =>
          obtain ⟨compressed, result⟩ := a
          rw [ha] at h
          dsimp only at h
          by_cases hlen : data.length ≤ compressed.length
          · rw [if_pos hlen] at h
            cases h
            refine .inl ⟨.inr (.inr fun c r' hc => ?_), rfl, rfl, rfl, rfl, rfl⟩
            rw [ha] at hc
            cases hc
            exact hlen
          rw [if_neg hlen] at h
          cases hv : verifyIntegrity P policy compressed data with
          | error e => rw [hv] at h; cases h
          | ok u =>
              rw [hv] at h
              cases h
              obtain ⟨hcomp, -, l, hl⟩ := attemptCompress_result hp ha
              obtain ⟨hsize, hreused⟩ := attemptCompress_sizes hp ha
              refine .inr ⟨compressed, ?_, rfl, Nat.lt_of_not_le hlen, hcomp, hreused, hsize, ?_⟩
              · rintro (hnone | hsome | hall)
                · exact hp hnone
                · rw [he] at hsome
                  cases hsome
                · exact hlen (hall _ _ ha)
              · rcases hl with ⟨rfl, halgo⟩ | ⟨rfl, halgo⟩
                · obtain ⟨hid, hlz4⟩ := lz4_algorithm (toString (adjustedLevel l "lz4"))
                  have hd := verifyIntegrity_ok rfl hv
                  rw [halgo, Lz4ZstdCompressor.decompress, if_neg hid, if_pos hlz4, hd,
                    Lz4ZstdCompressor.supportsAlgorithm, hlz4]
                  exact ⟨rfl, by rw [Bool.or_true, Bool.true_or]⟩
                · obtain ⟨hid, hlz4, hzstd⟩ := zstd_algorithm (toString (adjustedLevel l "zstd"))
                  have hd := verifyIntegrity_ok rfl hv
                  rw [halgo, Lz4ZstdCompressor.decompress, if_neg hid, hlz4,
                    if_neg Bool.false_ne_true, if_pos hzstd, hd,
                    Lz4ZstdCompressor.supportsAlgorithm, hzstd]
                  exact ⟨rfl, Bool.or_true _⟩

/-- The summary of the compressor has the recorded size. -/
theorem Lz4ZstdCompressor.compress_ok {view : Bytes} {summary : CompressionSummary}
    (h : Lz4ZstdCompressor.compress P data policy = .ok (view, summary)) :
    ∃ c r, adaptiveCompressCow P data policy = .ok (c, r) ∧ c.view = view ∧
      summary.outputSize = r.compressedSize ∧ summary.compressed = r.compressed ∧
      summary.algorithm = r.algorithm := by
  rw [Lz4ZstdCompressor.compress, compressSegment, ← adaptiveCompressCow_view] at h
  cases ha : adaptiveCompressCow P data policy with
  | error e => rw [ha] at h; cases h
  | ok a =>
      rw [ha] at h
      cases h
      exact ⟨a.1, a.2, rfl, rfl, rfl, rfl, rfl⟩

/-- **The stored form decodes**, whatever the codecs do: under the algorithm that is recorded, which
is one the compressor knows, to the chunk.  It is not longer than the chunk, and the record says
whether it is shorter and whether it is the chunk itself. -/
theorem adaptiveCompress_law (h : adaptiveCompressCow P data policy = .ok (view, r)) :
    Lz4ZstdCompressor.decompress P view.view r.algorithm = .ok data ∧
      view.view.length ≤ data.length ∧
      (r.compressed = true ↔ view.view.length < data.length) ∧
      (r.reusedOriginal = true ↔ view = .borrowed data) ∧
      Lz4ZstdCompressor.supportsAlgorithm r.algorithm = true := by
  rcases adaptiveCompressCow_cases h with ⟨-, rfl, hc, hr, -, ha⟩ |
    ⟨compressed, -, rfl, hlen, hc, hr, -, hd, hs⟩
  · rw [hc, hr, ha]
    refine ⟨rfl, Nat.le_refl _, ⟨nofun, fun hlt => absurd hlt (Nat.lt_irrefl _)⟩,
      ⟨fun _ => rfl, fun _ => rfl⟩, rfl⟩
  · rw [hc, hr]
    exact ⟨hd, Nat.le_of_lt hlen, ⟨fun _ => hlen, fun _ => rfl⟩, ⟨nofun, nofun⟩, hs⟩

theorem adaptiveCompress_law_zeros :
    Lz4ZstdCompressor.decompress .shrinking zeroFrame "lz4:1" = .ok (List.replicate 64 0) ∧
      Lz4ZstdCompressor.supportsAlgorithm "lz4:1" = true := by
  have h : adaptiveCompressCow .shrinking (List.replicate 64 0) (.lz4 1) =
      .ok (.owned zeroFrame, .attempted (List.replicate 64 0) "lz4:1") := by decide +kernel
  obtain ⟨hd, -, -, -, hs⟩ := adaptiveCompress_law h
  exact ⟨hd, hs⟩

/-- **The recorded size** is that of the view exactly where the chunk is stored as it is. -/
theorem compressedSize_exact (h : adaptiveCompressCow P data policy = .ok (view, r)) :
    r.compressedSize = view.view.length ↔ StoredRaw P data policy := by
  rcases adaptiveCompressCow_cases h with ⟨hraw, rfl, -, -, hsize, -⟩ |
    ⟨compressed, hraw, rfl, hlen, -, -, hsize, -, -⟩
  · exact ⟨fun _ => hraw, fun _ => hsize⟩
  · exact ⟨fun he => absurd (hsize.symm.trans he) (Nat.ne_of_gt hlen), fun hr => absurd hr hraw⟩

end Space

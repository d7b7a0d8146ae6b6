import Space.Codec.StoredForm
import Space.Modular.Counts

/-!
# Modular — Accounting

The bytes that the modular pipeline says it saved.  A dedup hit is recorded with the size that the
compressor reports, which is that of the chunk and not that of the stored view.  So the statistics
are exact where chunks are stored as they are (`size_accounting`), and nowhere else.

`PipelineState` is the pipeline with its statistics.  Beside them it keeps what they are about: the
segments that a transaction gave other metadata and no data.
-/

namespace Space
open Support Prog

/-- `InMemoryPipeline`: `Lz4ZstdCompressor`, `Blake3Deduper`, `NoopEncryptor`,
`DefaultPolicyEvaluator` and no keyring. -/
def Parts.inMemory (P : Primitives) : Parts where
  compress := Lz4ZstdCompressor.compress P
  decompress := Lz4ZstdCompressor.decompress P
  hashContent := Space.hashContent P
  registerContent := fun _ _ => .ok ()
  encrypt := fun data _ _ => .ok (data, EncryptionSummary.new "noop")
  decrypt := fun data _ _ => .ok data
  evaluateCompression := fun policy _ => .ok policy.compression
  evaluateEncryption := fun policy => .ok policy.encryption
  deriveKey := fun _ _ => .ok ()

/-- The pipeline: its store, its statistics, and the segments that were reused. -/
structure PipelineState where
  store : InMemory := .empty
  stats : DedupStats := {}
  reused : List SegmentId := []

namespace ModularOp

/-- What an operation does to the statistics. -/
def record : ModularOp → DedupStats → DedupStats
  | .recordStats bytes wasDeduped, stats => stats.record bytes wasDeduped
  | _, stats => stats

/-- The segments to which a commit gives metadata and no data are reused. -/
def reuse : ModularOp → InMemory → List SegmentId → List SegmentId
  | .commit, s, reused => reused ++ s.1.transaction.stagedMetadata.keys.filter
      (· ∉ s.1.transaction.stagedSegments.keys)
  | _, _, reused => reused

/-- What the operations do, with the statistics. -/
def execPipeline (parts : Parts) : Handler ModularSig Error PipelineState := fun o s =>
  ((o.exec parts InMemoryBackend.storage s.store).1,
    { store := (o.exec parts InMemoryBackend.storage s.store).2
      stats := o.record s.stats
      reused := o.reuse s.store s.reused })

end ModularOp

/-- The length of the data stored for a segment. -/
def InMemory.storedLen (s : InMemory) (x : SegmentId) : Nat := (s.seg x).elim 0 List.length

/-- The stored bytes of the segments in a list, with multiplicity. -/
def InMemory.storedBytes (s : InMemory) (l : List SegmentId) : Nat := (l.map s.storedLen).sum

/-- One extent of the data. -/
def SegmentRef.chunk (seg : SegmentRef) (data : Bytes) : Bytes :=
  (data.drop seg.offset).take (min (seg.offset + seg.length) usizeMax - seg.offset)

/-- The chunks of the data, in the order of the plan. -/
def plannedChunks (policy : Policy) (data : Bytes) : List Bytes :=
  match zonePlan policy data with
  | .ok zones => (zones.flatMap Zone.segments).map fun seg => seg.chunk data
  | .error _ => []

theorem plannedChunks_ok {policy : Policy} {data : Bytes} {zones : List Zone}
    (hz : zonePlan policy data = .ok zones) : plannedChunks policy data =
      (zones.flatMap Zone.segments).map fun seg => seg.chunk data := by
  rw [plannedChunks, hz]

/-- The payload of a view, with what is reported of it. -/
def Parts.payload (parts : Parts) (policy : EncryptionPolicy) (view : Bytes) (x : SegmentId) :
    Except Error (Bytes × EncryptionSummary) :=
  if policy.isEnabled then parts.encrypt view policy x else .ok (view, .new "none")

/-- Every chunk of the data that the plan comes to satisfies `A`. -/
def PlannedChunks (policy : Policy) (data : Bytes) (A : Bytes → Prop) : Prop :=
  ∀ zones, zonePlan policy data = .ok zones →
    ∀ seg ∈ zones.flatMap Zone.segments, A (seg.chunk data)

variable {P : Primitives} {U : Set Bytes} {s s' : PipelineState} {x : SegmentId}

theorem InMemory.storedBytes_congr {s s' : InMemory} {l : List SegmentId}
    (h : ∀ x ∈ l, s'.seg x = s.seg x) : s'.storedBytes l = s.storedBytes l := by
  refine congrArg List.sum (List.map_congr_left fun x hx => ?_)
  rw [InMemory.storedLen, InMemory.storedLen, h x hx]

theorem InMemory.storedBytes_append (s : InMemory) (l l' : List SegmentId) :
    s.storedBytes (l ++ l') = s.storedBytes l + s.storedBytes l' := by
  rw [storedBytes, List.map_append, List.sum_append]
  rfl

/-- The entries of the catalog name data with their hash, new identifiers are new, and the
statistics are those of the segments that were reused. -/
structure Accounted (P : Primitives) (U : Set Bytes) (s : PipelineState) : Prop where
  content : ∀ hash x, s.store.content hash = some x →
    ∃ data ∈ U, s.store.seg x = some data ∧ Space.hashContent P data = hash
  fresh : ∀ x data, s.store.seg x = some data → x.val < s.store.2.nextSegment
  present : ∀ x ∈ s.reused, ∃ data, s.store.seg x = some data
  saved : s.stats.bytesSaved = s.store.storedBytes s.reused

/-- A write between two of its chunks: `hits` are the segments it has reused so far. -/
structure Writing (P : Primitives) (U : Set Bytes) (s₀ : PipelineState) (st : WriteState)
    (s : PipelineState) : Prop extends Accounted P U s where
  hits : ∃ hits, s.reused = s₀.reused ++ hits ∧
    st.dedupStats.bytesSaved = s.store.storedBytes hits
  kept : ∀ x, (s₀.store.seg x).isSome → s.store.seg x = s₀.store.seg x
  capsules : s.store.2.capsules = s₀.store.2.capsules

namespace Writing
variable {s₀ : PipelineState} {st : WriteState} {chunk : Bytes}

theorem begin (h : Accounted P U s) : Writing P U s {} s :=
  { h with
    hits := ⟨[], (List.append_nil _).symm, rfl⟩
    kept := fun _ _ => rfl
    capsules := rfl }

/-- **A dedup hit**, recorded with the length of the data that is stored. -/
theorem hit (h : Writing P U s₀ st s) (hx : s.store.seg x = some chunk)
    (hseg : s'.store.seg = s.store.seg) (hcat : s'.store.2 = s.store.2)
    (hstats : s'.stats = s.stats.record chunk.length true) (hreused : s'.reused = s.reused ++ [x]) :
    Writing P U s₀ (st.push x chunk.length true) s' := by
  have hbytes : ∀ l, s'.store.storedBytes l = s.store.storedBytes l := fun l =>
    InMemory.storedBytes_congr fun y _ => congrFun hseg y
  have hlen : s.store.storedBytes [x] = chunk.length := by
    rw [InMemory.storedBytes, List.map_singleton, List.sum_singleton, InMemory.storedLen, hx]
    rfl
  refine ⟨⟨?_, ?_, ?_, ?_⟩, ?_, ?_, by rw [hcat, h.capsules]⟩
  · unfold InMemory.content
    rw [hcat, hseg]
    exact h.content
  · rw [hcat, hseg]
    exact h.fresh
  · rw [hreused, hseg]
    intro y hy
    rcases List.mem_append.mp hy with hy | hy
    · exact h.present y hy
    · exact List.mem_singleton.mp hy ▸ ⟨chunk, hx⟩
  · rw [hstats, hreused, hbytes, InMemory.storedBytes_append, hlen, ← h.saved]
    rfl
  · obtain ⟨hits, hr, hsaved⟩ := h.hits
    refine ⟨hits ++ [x], by rw [hreused, hr, List.append_assoc], ?_⟩
    rw [hbytes, InMemory.storedBytes_append, hlen, ← hsaved]
    rfl
  · rw [hseg]
    exact h.kept

/-- **A new segment**, under the hash of its data. -/
theorem stored (h : Writing P U s₀ st s) {hash : ContentHash} {n : Nat} (hc : chunk ∈ U)
    (hhash : Space.hashContent P chunk = hash)
    (hseg : s'.store.seg =
      Function.update s.store.seg ⟨s.store.2.nextSegment⟩ (some chunk))
    (hcat : s'.store.2 =
      s.store.2.allocateSegment.2.registerContent hash ⟨s.store.2.nextSegment⟩)
    (hstats : s'.stats = s.stats.record n false) (hreused : s'.reused = s.reused) :
    Writing P U s₀ (st.push ⟨s.store.2.nextSegment⟩ n false) s' := by
  have hold : ∀ y data, s.store.seg y = some data → s'.store.seg y = some data := by
    intro y data hy
    have hne : y ≠ ⟨s.store.2.nextSegment⟩ := by
      rintro rfl
      exact Nat.lt_irrefl _ (h.fresh _ data hy)
    rw [hseg, Function.update_of_ne hne]
    exact hy
  have hbytes : ∀ l, (∀ y ∈ l, ∃ data, s.store.seg y = some data) →
      s'.store.storedBytes l = s.store.storedBytes l := by
    intro l hl
    refine InMemory.storedBytes_congr fun y hy => ?_
    obtain ⟨data, hd⟩ := hl y hy
    rw [hd, hold y data hd]
  refine ⟨⟨?_, ?_, ?_, ?_⟩, ?_, ?_, by rw [hcat]; exact h.capsules⟩
  · intro hash' y hy
    rw [InMemory.content, hcat] at hy
    rcases Table.lookup_insert_eq_some.mp hy with ⟨rfl, rfl⟩ | ⟨-, hy⟩
    · exact ⟨chunk, hc, by rw [hseg]; exact Function.update_self .., hhash⟩
    · obtain ⟨data, hd, hx, hh⟩ := h.content hash' y hy
      exact ⟨data, hd, hold y data hx, hh⟩
  · intro y data hy
    rw [hcat]
    by_cases hyx : y = ⟨s.store.2.nextSegment⟩
    · subst hyx
      exact Nat.lt_succ_self _
    · rw [hseg, Function.update_of_ne hyx] at hy
      exact Nat.lt_succ_of_lt (h.fresh y data hy)
  · rw [hreused]
    intro y hy
    obtain ⟨data, hd⟩ := h.present y hy
    exact ⟨data, hold y data hd⟩
  · rw [hstats, hreused, hbytes _ h.present, ← h.saved]
    rfl
  · obtain ⟨hits, hr, hsaved⟩ := h.hits
    refine ⟨hits, by rw [hreused, hr], ?_⟩
    rw [hbytes hits fun y hy => h.present y (by rw [hr]; exact List.mem_append_right _ hy),
      ← hsaved]
    rfl
  · intro y hy
    obtain ⟨data, hd⟩ := Option.isSome_iff_exists.mp hy
    have hmid : s.store.seg y = some data := (h.kept y hy).trans hd
    rw [hold y data hmid, hd]

end Writing

namespace Pipeline
open Space.Modular

/-- An operation of the pipeline with its statistics. -/
theorem wp_pipelineOp {parts : Parts} (o : ModularOp)
    {Q : Except Error o.Res → PipelineState → Prop}
    (h : Q (o.execPipeline parts s).1 (o.execPipeline parts s).2) :
    (Prog.perform (S := ModularSig) o : Modular o.Res).wp (ModularOp.execPipeline parts).moves
      (fun _ _ => True) Q s := wp_perform_moves.mpr ⟨trivial, h⟩

/-- A chunk that is stored as it is. -/
theorem wp_writeSegment_raw {capsuleId : CapsuleId} {data : Bytes} {policy : Policy}
    {st : WriteState} {seg : SegmentRef} {s₀ : PipelineState} (hU : P.NoCollision U)
    (hraw : StoredRaw P (seg.chunk data) policy.compression) (hc : seg.chunk data ∈ U)
    (he : policy.encryption.isEnabled = false) (h : Writing P U s₀ st s) :
    (writeSegment capsuleId data policy.compression policy.encryption st seg).wp
      (ModularOp.execPipeline (.inMemory P)).moves (fun _ _ => True)
      (fun r s' => match r with
        | .ok st' => Writing P U s₀ st' s'
        | .error _ => Writing P U s₀ st s') s := by
  unfold writeSegment
  dsimp only
  split
  · exact h
  refine wp_bind.mpr (wp_pipelineOp (.compress (seg.chunk data) policy.compression) ?_)
  show andThen _ _ _ _ (Lz4ZstdCompressor.compress P (seg.chunk data) policy.compression) s
  cases hcomp : Lz4ZstdCompressor.compress P (seg.chunk data) policy.compression with
  | error e => exact h
  | ok a =>
      obtain ⟨view, summary⟩ := a
      obtain ⟨c, r, hcow, rfl, hsize, -, -⟩ := Lz4ZstdCompressor.compress_ok hcomp
      obtain ⟨-, rfl, -, -, hlen, -⟩ := (adaptiveCompressCow_cases hcow).resolve_right
        (fun ⟨_, hnot, _⟩ => hnot hraw)
      have hsize : summary.outputSize = (seg.chunk data).length := hsize.trans hlen
      refine wp_bind.mpr (wp_pipelineOp (.hashContent (seg.chunk data)) ?_)
      refine wp_bind.mpr (wp_pipelineOp
        (.lookupContent (Space.hashContent P (seg.chunk data))) ?_)
      show andThen _ _ _ _ (.ok (s.store.content (Space.hashContent P (seg.chunk data)))) s
      cases hl : s.store.content (Space.hashContent P (seg.chunk data)) with
      | some existing =>
          obtain ⟨stored, hst, hx, hhash⟩ := h.content _ existing hl
          have hx : s.store.seg existing = some (seg.chunk data) := by
            rw [hx, hashContent_inj hU hst hc hhash]
          refine wp_bind.mpr (wp_pipelineOp (.metadata existing) ?_)
          show andThen _ _ _ _ (InMemoryBackend.storage.metadata existing s.store.1) s
          cases InMemoryBackend.storage.metadata existing s.store.1 with
          | error e => exact h
          | ok m =>
              refine wp_bind.mpr (wp_bind.mpr (wp_pipelineOp .beginTxn (wp_onError ?_)))
              refine wp_bind.mpr (wp_pipelineOp (.setSegmentMetadata existing _)
                (wp_pipelineOp .commit ?_))
              refine wp_bind.mpr (wp_pipelineOp (.recordStats summary.outputSize true) ?_)
              rw [hsize]
              refine h.hit hx ?_ rfl rfl ?_
              · funext y
                exact InMemoryBackend.lookup_commit_segments _ y
              · rfl
      | none =>
          refine wp_bind.mpr (wp_bind.mpr (wp_pipelineOp .beginTxn (wp_onError ?_)))
          refine wp_bind.mpr (wp_pipelineOp .allocateSegment ?_)
          refine wp_bind.mpr ?_
          rw [encryptView, he, if_neg Bool.false_ne_true]
          refine wp_bind.mpr (wp_pipelineOp
            (.append ⟨s.store.2.nextSegment⟩ (seg.chunk data)) ?_)
          refine wp_bind.mpr (wp_pipelineOp (.setSegmentMetadata ⟨s.store.2.nextSegment⟩ _) ?_)
          refine wp_bind.mpr (wp_pipelineOp .commit ?_)
          refine wp_bind.mpr (wp_pipelineOp
            (.registerContent (Space.hashContent P (seg.chunk data)) _) ?_)
          refine wp_bind.mpr (wp_pipelineOp (.dedupRegister _ _) ?_)
          refine wp_bind.mpr (wp_pipelineOp (.recordStats summary.outputSize false) ?_)
          have hnone : ∀ y : SegmentId, [y].filter (· ∉ [y]) = [] := fun y => by simp
          refine h.stored hc rfl (InMemoryBackend.commit_segments_one _) rfl rfl ?_
          exact (congrArg (s.reused ++ ·) (hnone _)).trans (List.append_nil _)

/-- **A write** of chunks that are stored as they are: of the segments it reuses, the capsule has
the bytes. -/
theorem wp_writeCapsule_raw {capsuleId : CapsuleId} {data : Bytes} {policy : Policy}
    (hU : P.NoCollision U)
    (hraw : PlannedChunks policy data fun chunk => StoredRaw P chunk policy.compression ∧ chunk ∈ U)
    (he : policy.encryption.isEnabled = false) (h : Accounted P U s) :
    (writeCapsule capsuleId data policy).wp (ModularOp.execPipeline (.inMemory P)).moves
      (fun _ _ => True)
      (fun r s' => ∃ st s₁, Writing P U s st s₁ ∧ match r with
        | .ok _ => s' = { s₁ with store := (s₁.store.1,
            s₁.store.2.createCapsule capsuleId data.length policy st.segmentIds st.dedupStats) }
        | .error _ => s' = s₁) s := by
  refine wp_bind.mpr (wp_pipelineOp (.evaluateCompression policy _) ?_)
  refine wp_bind.mpr (wp_lift.mpr ?_)
  cases hz : zonePlan policy data with
  | error e => exact ⟨{}, s, .begin h, rfl⟩
  | ok zones =>
      refine wp_bind.mpr (wp_pipelineOp (.evaluateEncryption policy) ?_)
      refine wp_bind.mpr (wp_foldlM (fun rest st s₁ => Writing P U s st s₁ ∧
        ∀ seg ∈ rest, seg ∈ zones.flatMap Zone.segments) ?_ ?_ _ _ _ ⟨.begin h, fun _ => id⟩)
      · rintro seg rest st s₁ ⟨hw, hmem⟩
        obtain ⟨hr, hc⟩ := hraw zones hz seg (hmem seg List.mem_cons_self)
        refine wp_mono (wp_writeSegment_raw hU hr hc he hw) fun r s₂ h₂ => ?_
        cases r with
        | ok st' => exact ⟨h₂, fun seg' h' => hmem seg' (List.mem_cons_of_mem _ h')⟩
        | error e => exact ⟨st, s₂, h₂, rfl⟩
      · rintro st s₁ ⟨hw, -⟩
        refine wp_bind.mpr (wp_pipelineOp (.createCapsule capsuleId data.length policy
          st.segmentIds st.dedupStats) ?_)
        exact ⟨st, s₁, hw, rfl⟩

end Pipeline

/-! ### Runs -/

/-- Run a write over the parts of the in-memory pipeline. -/
def PipelineState.write (P : Primitives) (s : PipelineState) (id : CapsuleId) (data : Bytes)
    (policy : Policy) : Except Error CapsuleId × PipelineState :=
  (Pipeline.writeCapsule id data policy).run (ModularOp.execPipeline (.inMemory P)) s

/-- The pipeline after writes that meet `A`, and for each capsule the segments that its write
reused. -/
inductive PipelineRun (P : Primitives) (A : Bytes → Policy → Prop) :
    (CapsuleId → List SegmentId) → PipelineState → Prop
  | start : PipelineRun P A (fun _ => []) {}
  | write {hits : CapsuleId → List SegmentId} {s : PipelineState} (id : CapsuleId) (data : Bytes)
      (policy : Policy) (h : PipelineRun P A hits s) (hA : A data policy) :
      PipelineRun P A
        (match (s.write P id data policy).1 with
          | .ok _ => Function.update hits id
              ((s.write P id data policy).2.reused.drop s.reused.length)
          | .error _ => hits)
        (s.write P id data policy).2

/-- What is asked of a write: it does not encrypt, and it stores its chunks, which are hashed in
`U`, as they are. -/
def WritesRaw (P : Primitives) (U : Set Bytes) (data : Bytes) (policy : Policy) : Prop :=
  policy.encryption.isEnabled = false ∧
    PlannedChunks policy data fun chunk => StoredRaw P chunk policy.compression ∧ chunk ∈ U

/-- What the statistics say is what was saved, for the pipeline and for each capsule. -/
def ExactStats (hits : CapsuleId → List SegmentId) (s : PipelineState) : Prop :=
  s.stats.bytesSaved = s.store.storedBytes s.reused ∧
    ∀ id c, s.store.2.capsules.lookup id = some c →
      c.dedupedBytes = s.store.storedBytes (hits id)

theorem accounted_start : Accounted P U {} where
  content := fun _ _ h => by cases h
  fresh := fun _ _ h => by cases h
  present := fun _ h => absurd h List.not_mem_nil
  saved := rfl

theorem PipelineRun.exact {hits : CapsuleId → List SegmentId} (hU : P.NoCollision U)
    (h : PipelineRun P (WritesRaw P U) hits s) :
    Accounted P U s ∧ ExactStats hits s ∧ ∀ id x, x ∈ hits id → x ∈ s.reused := by
  induction h with
  | start =>
      exact ⟨accounted_start, ⟨rfl, fun _ _ h => by cases h⟩,
        fun _ _ h => absurd h List.not_mem_nil⟩
  | @write hits s id data policy _ hA ih =>
      obtain ⟨hacc, ⟨-, hcap⟩, hsub⟩ := ih
      obtain ⟨st, s₁, hw, hr⟩ := wp_run
        (@Pipeline.wp_writeCapsule_raw _ _ _ id _ _ hU hA.2 hA.1 hacc)
      obtain ⟨new, hreused, hsaved⟩ := hw.hits
      have hold : ∀ id', s₁.store.storedBytes (hits id') = s.store.storedBytes (hits id') := by
        intro id'
        refine InMemory.storedBytes_congr fun x hx => hw.kept x ?_
        obtain ⟨payload, hp⟩ := hacc.present x (hsub id' x hx)
        exact Option.isSome_iff_exists.mpr ⟨payload, hp⟩
      have hsub₁ : ∀ id' x, x ∈ hits id' → x ∈ s₁.reused := by
        intro id' x hx
        rw [hreused]
        exact List.mem_append_left _ (hsub id' x hx)
      change (match (s.write P id data policy).1 with
        | .ok _ => (s.write P id data policy).2 = _
        | .error _ => (s.write P id data policy).2 = s₁) at hr
      rcases hres : s.write P id data policy with ⟨r, s'⟩
      rw [hres] at hr
      cases r with
      | error e =>
          obtain rfl : s' = s₁ := hr
          refine ⟨hw.toAccounted, ⟨hw.saved, fun id' c hc => ?_⟩, hsub₁⟩
          rw [hw.capsules] at hc
          exact (hcap id' c hc).trans (hold id').symm
      | ok id₁ =>
          obtain rfl := hr
          have hdrop : s₁.reused.drop s.reused.length = new := by
            rw [hreused, List.drop_left]
          refine ⟨⟨hw.content, hw.fresh, hw.present, hw.saved⟩, ⟨hw.saved, fun id' c hc => ?_⟩, ?_⟩
          · show c.dedupedBytes = s₁.store.storedBytes
              (Function.update hits id (s₁.reused.drop s.reused.length) id')
            rcases Table.lookup_insert_eq_some.mp hc with ⟨rfl, rfl⟩ | ⟨hne, hc⟩
            · rw [Function.update_self, hdrop]
              exact hsaved
            · rw [Function.update_of_ne hne, hold]
              exact hcap id' c (hw.capsules ▸ hc)
          · intro id' x hx
            show x ∈ s₁.reused
            change x ∈ Function.update hits id (s₁.reused.drop s.reused.length) id' at hx
            by_cases hne : id' = id
            · subst hne
              rw [Function.update_self] at hx
              exact List.mem_of_mem_drop hx
            · rw [Function.update_of_ne hne] at hx
              exact hsub₁ id' x hx

/-- **The sizes are exact where chunks are stored as they are.**  The recorded size is that of the
view if and only if the chunk is stored as it is; and in every run of writes that store their chunks
so, the bytes that the pipeline and each capsule are said to have saved are those of the segments
that were reused. -/
theorem size_accounting (P : Primitives) :
    (∀ data policy c r, adaptiveCompressCow P data policy = .ok (c, r) →
      (r.compressedSize = c.view.length ↔ StoredRaw P data policy)) ∧
    (∀ data policy view summary, Lz4ZstdCompressor.compress P data policy = .ok (view, summary) →
      (summary.outputSize = view.length ↔ StoredRaw P data policy)) ∧
    ∀ U hits s, P.NoCollision U → PipelineRun P (WritesRaw P U) hits s → ExactStats hits s := by
  refine ⟨fun data policy c r h => compressedSize_exact h, fun data policy view summary h => ?_,
    fun U hits s hU h => (h.exact hU).2.1⟩
  obtain ⟨c, r, hcow, rfl, hsize, -, -⟩ := Lz4ZstdCompressor.compress_ok h
  rw [hsize]
  exact compressedSize_exact hcow

/-- Bytes by themselves, not compressed. -/
def rawBytewise : Policy := { compression := .none, layout := { strategy := .fixed 1 } }

/-- Of two equal chunks the second is saved. -/
theorem size_accounting_repeated : ∃ hits s,
    PipelineRun .stored (WritesRaw .stored {[7]}) hits s ∧ ExactStats hits s ∧
      s.stats.bytesSaved = 1 ∧ s.store.storedBytes s.reused = 1 := by
  have hplan : zonePlan rawBytewise [7, 7] = .ok [⟨0, [⟨0, 1⟩]⟩, ⟨1, [⟨1, 1⟩]⟩] := by
    decide +kernel
  have hraw : WritesRaw .stored {[7]} [7, 7] rawBytewise := by
    refine ⟨rfl, fun zones hz seg hseg => ?_⟩
    rw [hplan] at hz
    cases hz
    have hchunk : ∀ seg ∈ [(⟨0, 1⟩ : SegmentRef), ⟨1, 1⟩], seg.chunk [7, 7] = [7] := by decide
    exact ⟨.inl rfl, hchunk seg hseg⟩
  have hrun : PipelineRun .stored (WritesRaw .stored {[7]}) _ _ :=
    .write ⟨0⟩ [7, 7] rawBytewise .start hraw
  refine ⟨_, _, hrun, (size_accounting .stored).2.2 _ _ _ (Set.injOn_singleton _ _) hrun, ?_, ?_⟩
  · decide +kernel
  · decide +kernel

/-- The frame of 64 zero bytes is recorded with their size. -/
theorem not_size_accounting : ¬ ∀ (P : Primitives) data policy c r, P.CodecsInverse →
    adaptiveCompressCow P data policy = .ok (c, r) → r.compressedSize = c.view.length := by
  intro h
  have he : adaptiveCompressCow .shrinking (List.replicate 64 0) (.lz4 1) =
      .ok (.owned zeroFrame, .attempted (List.replicate 64 0) "lz4:1") := by decide +kernel
  have hsize := h .shrinking _ _ _ _ Primitives.shrinking_codecs he
  exact absurd hsize (by decide)

end Space

import Space.Native.DedupBytes
import Space.Native.Service

/-!
# Native — EncryptedWrite

When an encrypted write succeeds.  XTS encrypts no less than one block of 16 bytes, and what is
encrypted of a chunk is its view, after compression; so a write whose policy asks for encryption
succeeds if and only if every view has a block, and what it has written is read back.  The last
chunk of the data may be short, and a compressor may make any chunk short.

* `sealedChunk_ne_none_iff`: one chunk.
* `Store.Yields.congr`: what a segment yields does not depend on how often it was read.
* `encryptedWrite_ok_iff`: both writes, from any state of a service.
-/

namespace Space
open Support Prog WritePipeline

variable {P : Primitives} {w : World P} {s s' s₀ sₙ : Store P} {policy : Policy} {data : Bytes}
  {id : CapsuleId} {U : Set Bytes} {K : UInt32 → XtsKeyPair} {kind : WriteKind}
  {keys : Option (UInt32 → XtsKeyPair)}

/-- The compressors do not fail, at any level. -/
structure Primitives.Compresses (P : Primitives) : Prop where
  lz4 : ∀ level x, ∃ y, P.compressLz4 level x = .ok y
  zstd : ∀ level x, ∃ y, P.compressZstd level x = .ok y

/-- Every view has a block. -/
def Policy.Sealable (P : Primitives) (policy : Policy) (data : Bytes) : Prop :=
  ∀ chunk ∈ chunks SEGMENT_SIZE data, ∀ view r,
    compressSegment P chunk policy.compression = .ok (view, r) → 16 ≤ view.length

/-- No chunk is larger than a task of the write may hold. -/
def WriteKind.Fits (data : Bytes) : WriteKind → Prop
  | sync => True
  | async memoryLimit _ => ∀ chunk ∈ chunks SEGMENT_SIZE data, chunk.length ≤ memoryLimit

/-! ### One chunk -/

theorem attemptCompress_total (h : P.Compresses) (data : Bytes) (policy : CompressionPolicy) :
    ∃ view r, attemptCompress P data policy = .ok (view, r) := by
  cases policy with
  | none => exact ⟨_, _, rfl⟩
  | lz4 level =>
      obtain ⟨y, hy⟩ := h.lz4 (adjustedLevel level "lz4") data
      exact ⟨y, _, by simp only [attemptCompress, hy, Bind.bind, Except.bind]; rfl⟩
  | zstd level =>
      obtain ⟨y, hy⟩ := h.zstd (adjustedLevel level "zstd") data
      exact ⟨y, _, by simp only [attemptCompress, hy, Bind.bind, Except.bind]; rfl⟩

theorem verifyIntegrity_attempt (hd : P.CodecsInverse) {view : Bytes} {r : CompressionResult}
    {policy : CompressionPolicy} (h : attemptCompress P data policy = .ok (view, r)) :
    verifyIntegrity P policy view data = .ok () := by
  cases policy with
  | none => rfl
  | lz4 level =>
      simp only [attemptCompress, Bind.bind, Except.bind] at h
      split at h
      · cases h
      · next y hy =>
          cases h
          simp only [verifyIntegrity, CompressionPolicy.decompressor, hd.lz4 _ _ _ hy, Bind.bind,
            Except.bind, if_true]
  | zstd level =>
      simp only [attemptCompress, Bind.bind, Except.bind] at h
      split at h
      · cases h
      · next y hy =>
          cases h
          simp only [verifyIntegrity, CompressionPolicy.decompressor, hd.zstd _ _ _ hy, Bind.bind,
            Except.bind, if_true]

/-- **Every chunk has a view**, under every policy. -/
theorem compressSegment_total (hd : P.CodecsInverse) (hc : P.Compresses) (data : Bytes)
    (policy : CompressionPolicy) : ∃ view r, compressSegment P data policy = .ok (view, r) := by
  unfold compressSegment adaptiveCompress
  split
  · exact ⟨_, _, rfl⟩
  split
  · exact ⟨_, _, rfl⟩
  obtain ⟨view, r, h⟩ := attemptCompress_total hc data policy
  rw [h]
  dsimp only
  split
  · exact ⟨_, _, rfl⟩
  · rw [verifyIntegrity_attempt hd h]
    exact ⟨_, _, rfl⟩

section
variable {view : Bytes} {chunk : Bytes × Nat}

theorem sealView_of_lt (P : Primitives) (key : UInt32 × XtsKeyPair) (hash : ContentHash)
    (h : view.length < 16) :
    ∃ e, sealView P (some key) view hash = .error e := by
  refine ⟨.invalidCiphertextLength view.length, ?_⟩
  simp only [sealView, encryptSegment, Xts.encrypt, if_pos h, Bind.bind, Except.bind]

theorem sealView_of_le (P : Primitives) (key : UInt32 × XtsKeyPair) (hash : ContentHash)
    (h : 16 ≤ view.length) :
    ∃ payload m, sealView P (some key) view hash = .ok (payload, m) := by
  simp only [sealView, encryptSegment, Xts.encrypt, if_neg (Nat.not_lt.mpr h), Bind.bind,
    Except.bind]
  exact ⟨_, _, rfl⟩

/-- **A chunk can be prepared** under a key if and only if its view has a block. -/
theorem sealedChunk_ne_none_iff {key : UInt32 × XtsKeyPair} (hd : P.CodecsInverse)
    (hc : P.Compresses) :
    sealedChunk P (some key) policy chunk ≠ none ↔
      ∀ view r, compressSegment P chunk.1 policy.compression = .ok (view, r) →
        16 ≤ view.length := by
  obtain ⟨view, r, hview⟩ := compressSegment_total hd hc chunk.1 policy.compression
  simp only [sealedChunk, hview]
  constructor
  · intro h view' r' e
    cases e
    by_contra hlt
    obtain ⟨e, he⟩ := sealView_of_lt P key (hashContent P view)
      (Nat.not_le.mp hlt)
    rw [he] at h
    exact h rfl
  · intro h
    obtain ⟨payload, m, hok⟩ := sealView_of_le P key (hashContent P view)
      (h view r rfl)
    rw [hok]
    exact Option.some_ne_none _

end

/-! ### When a write succeeds -/

/-- The key of an encrypting write, where there is a manager. -/
theorem Store.keyFor_eq_some (he : policy.encryption.isEnabled = true)
    (hk : s.keyManager.map KeyManager.derive = some K) : ∃ key, s.keyFor policy = some key := by
  obtain ⟨km, hkm, -⟩ := Option.map_eq_some_iff.mp hk
  simp only [Store.keyFor, he, if_true, Store.currentKey, hkm]
  exact ⟨_, rfl⟩

/-- **The chunks can be stored** if and only if they can be sealed. -/
theorem chunks_stored_iff (data : Bytes) (hd : P.CodecsInverse) (hc : P.Compresses)
    (he : policy.encryption.isEnabled = true)
    (hk : s.keyManager.map KeyManager.derive = some K)
    (hlive : ∀ h x, s.content h = some x → s.seg x ≠ none) :
    (∃ stₙ sₙ, ((chunks SEGMENT_SIZE data).zipIdx.foldlM (writeChunk P policy) {}).run
      StoreOp.exec s = (.ok stₙ, sₙ)) ↔ policy.Sealable P data := by
  obtain ⟨key, hkey⟩ := Store.keyFor_eq_some he hk
  constructor
  · rintro ⟨stₙ, sₙ, hall⟩ chunk hmem
    obtain ⟨i, hi⟩ := List.mem_iff_getElem?.mp hmem
    have hz : (chunk, i) ∈ (chunks SEGMENT_SIZE data).zipIdx := List.mem_zipIdx_iff_getElem?.mpr hi
    have hp := prepared_of_chunks hall _ hz
    rw [hkey] at hp
    exact (sealedChunk_ne_none_iff hd hc).mp hp
  · intro hseal
    refine chunks_stored _ _ _ _ hlive fun chunk hmem => ?_
    rw [hkey]
    exact (sealedChunk_ne_none_iff hd hc).mpr (hseal _ (List.fst_mem_of_mem_zipIdx hmem))

/-- A write that finds a chunk too large fails. -/
theorem fits_of_writeAsync {memoryLimit : Nat} {arrivals : Order (Bytes × Nat)}
    (h : ((writeCapsuleWithPolicyAsync P memoryLimit arrivals id data policy).run StoreOp.exec
      s₀).1 = .ok id) : ∀ chunk ∈ chunks SEGMENT_SIZE data, chunk.length ≤ memoryLimit := by
  by_contra hno
  push Not at hno
  obtain ⟨chunk, hmem, hlarge⟩ := hno
  obtain ⟨i, hi⟩ := List.mem_iff_getElem?.mp hmem
  have hz : (chunk, i) ∈ (chunks SEGMENT_SIZE data).zipIdx := List.mem_zipIdx_iff_getElem?.mpr hi
  have hw : (writeCapsuleWithPolicyAsync P memoryLimit arrivals id data policy).wp (Direct P)
      (fun _ _ => True) (fun r _ => r ≠ .ok id) s₀ := by
    unfold writeCapsuleWithPolicyAsync
    show Prog.wp _ _ _ (if _ then _ else _) s₀
    rw [if_neg fun h0 => by rw [List.length_eq_zero_iff.mp h0] at hz; cases hz]
    refine wp_bind.mpr (wp_storeOp .beginTransaction ?_)
    refine andThen_ok.mpr ?_
    dsimp only
    split
    · refine wp_bind_any (fun e s₁ k => ?_) (fun _ s₁ => ?_) s₀
      · cases k
      · intro k
        cases k
    · next hfind =>
        exact absurd (decide_eq_true hlarge) (List.find?_eq_none.mp hfind _ hz)
  exact wp_run hw h

/-- **When a write succeeds**: if its capsule is new, its chunks can be sealed, and no chunk is
larger than a task may hold. -/
theorem WriteKind.run_ok_iff (hd : P.CodecsInverse) (hc : P.Compresses) (hn : s₀.NamesDrawn)
    (he : policy.encryption.isEnabled = true)
    (hk : s₀.keyManager.map KeyManager.derive = some K)
    (hlive : ∀ h x, s₀.content h = some x → s₀.seg x ≠ none)
    (hnew : s₀.registry.capsules.lookup id = none) :
    ((kind.program P id data policy).run StoreOp.exec s₀).1 = .ok id ↔
      policy.Sealable P data ∧ kind.Fits data := by
  have hstored := chunks_stored_iff data hd hc he hk hlive
  constructor
  · intro hok
    cases kind with
    | sync =>
        refine ⟨?_, trivial⟩
        have hw : (writeCapsuleWithPolicy P id data policy).wp (Direct P) (fun _ _ => True)
            (fun r _ => r = .ok id → policy.Sealable P data) s₀ :=
          wp_writeCapsule_store (fun _ e _ h => by cases h) fun stₙ sₙ _ hall _ _ _ _ =>
            hstored.mp ⟨stₙ, sₙ, hall⟩
        exact wp_run hw hok
    | async memoryLimit arrivals =>
        have hw : (writeCapsuleWithPolicyAsync P memoryLimit arrivals id data policy).wp (Direct P)
            (fun _ _ => True) (fun r _ => r = .ok id → policy.Sealable P data) s₀ :=
          wp_writeCapsuleAsync_store hn (fun _ e _ h => by cases h) fun stₙ sₙ _ hall _ _ _ _ =>
            hstored.mp ⟨stₙ, sₙ, hall⟩
        exact ⟨wp_run hw hok, fits_of_writeAsync hok⟩
  · rintro ⟨hseal, hfits⟩
    obtain ⟨stₙ, sₙ, hall⟩ := hstored.mpr hseal
    cases kind with
    | sync =>
        obtain ⟨s', hrun, -⟩ := writeCapsule_ok hall hnew
        exact congrArg Prod.fst hrun
    | async memoryLimit arrivals =>
        have hwritable : Writable P policy data id s₀ := ⟨hnew, hlive, prepared_of_chunks hall⟩
        have hw : (writeCapsuleWithPolicyAsync P memoryLimit arrivals id data policy).wp (Direct P)
            (fun _ _ => True) (fun r _ => r = .ok id) s₀ :=
          wp_writeCapsuleAsync_store hn (fun hno _ _ => absurd ⟨hwritable, fun chunk hmem =>
            hfits _ (List.fst_mem_of_mem_zipIdx hmem)⟩ hno) fun _ _ _ _ _ _ _ => rfl
        exact wp_run hw

/-! ### What was written is read -/

/-- What a segment yields does not depend on how often it was read. -/
theorem Store.Yields.congr {x : SegmentId} {chunk : Bytes} (h : s.Yields policy x chunk)
    (hseg : (s'.seg x).map Segment.unread = (s.seg x).map Segment.unread)
    (hfile : s'.nvram.file = s.nvram.file)
    (hkeys : s'.keyManager.map KeyManager.derive = s.keyManager.map KeyManager.derive) :
    s'.Yields policy x chunk := by
  obtain ⟨t, payload, view, ht, hread, hview, hdec⟩ := h
  have hread' : s'.nvram.read x = .ok payload := (read_congr hseg hfile).trans hread
  rw [show s.seg x = some t from ht, Option.map_some, Option.map_eq_some_iff] at hseg
  obtain ⟨t', ht', hunread⟩ := hseg
  have hform : t'.unread.form = t.unread.form := congrArg Segment.form hunread
  exact ⟨t', payload, view, ht', hread', by
    rw [hkeys, show t'.form = t.form from hform]; exact hview, hdec⟩

/-- How a write ends that succeeds. -/
theorem WriteKind.ends (hn : s₀.NamesDrawn)
    (h : (kind.program P id data policy).run StoreOp.exec s₀ = (.ok id, s)) :
    ∃ stₙ sₙ, ((chunks SEGMENT_SIZE data).zipIdx.foldlM (writeChunk P policy) {}).run
      StoreOp.exec s₀ = (.ok stₙ, sₙ) ∧ Ends s₀ sₙ data.length stₙ.segmentIds policy id s ∧
      s.registry.nextSegmentId = sₙ.registry.nextSegmentId := by
  have hw : (kind.program P id data policy).wp (Direct P) (fun _ _ => True)
      (fun r s => r = .ok id → ∃ stₙ sₙ, ((chunks SEGMENT_SIZE data).zipIdx.foldlM
        (writeChunk P policy) {}).run StoreOp.exec s₀ = (.ok stₙ, sₙ) ∧
          Ends s₀ sₙ data.length stₙ.segmentIds policy id s ∧
          s.registry.nextSegmentId = sₙ.registry.nextSegmentId) s₀ := by
    cases kind with
    | sync =>
        exact wp_writeCapsule_store (fun _ e s => nofun) fun stₙ sₙ s hall he _ hnext _ =>
          ⟨stₙ, sₙ, hall, he, hnext⟩
    | async memoryLimit arrivals =>
        exact wp_writeCapsuleAsync_store hn (fun _ e s => nofun) fun stₙ sₙ s hall he _ hnext _ =>
          ⟨stₙ, sₙ, hall, he, hnext⟩
  have hrun := wp_run hw
  rw [h] at hrun
  exact hrun rfl

/-- What the synchronous write leaves yields what is read of the chunks. -/
theorem writeCapsule_yields (hx : P.XtsInverse) (hU : P.NoCollision U)
    (hB : Between (.reading P U keys True) w) (hin : policy.HashesIn P U data)
    (hnew : w.cap id = none) {bytes size : Nat} {segments : List SegmentId}
    (hrun : (writeCapsuleWithPolicy P id data policy).run StoreOp.exec w.store = (.ok id, s))
    (hcap : s.registry.capsules.lookup id = some ⟨id, size, segments, policy, bytes⟩) :
    List.Forall₂ (s.Yields policy) segments
      ((chunks SEGMENT_SIZE data).map (policy.readBack P)) := by
  obtain ⟨g, hg, hI⟩ := hB
  have hI₀ : World.Inv (.reading P U keys False) w (g + 0) := by
    rw [add_zero]
    exact hI.retune hg (fun _ h => h) (fun _ _ _ h => h) rfl (fun h => h) fun h => h.elim
  have hw : (writeCapsuleWithPolicy P id data policy).wp (Token.moves (.reading P U keys False))
      (Token.may (.reading P U keys False) data) (fun _ _ => True) g :=
    wp_writeCapsule (hin.acceptsAsync hx hU).toAccepts hg.quiet (fun _ _ _ => trivial) fun _ _ _ =>
      trivial
  obtain ⟨g', -, hI'⟩ := (World.protocol P (.reading P U keys False) data).run (f := 0)
    (fun _ => rfl) hI₀ hw fun o w' _ => by
      cases o with
      | incrementRefcount x => exact fun s _ => ⟨fun h => h.elim, fun h => absurd trivial h⟩
      | lookupContent hash => exact fun _ _ _ _ => trivial
      | _ => trivial
  set w' := ((writeCapsuleWithPolicy P id data policy).run (World.exec data) w).2 with hw'
  have hstore : w'.store = s := by
    rw [hw', (World.run_store _ _ _).2, hrun]
  have hc : w'.cap id = some ⟨id, size, segments, policy, bytes⟩ := by
    rw [World.cap, hstore]
    exact hcap
  have hproduced : w'.ledger.produced id = data := by
    have hnone : w.holds id = none := by
      rw [World.holds, hnew]
      rfl
    exact World.run_adds (writeCapsuleWithPolicy P id data policy) w hnone
      (World.holds_eq_some.mpr ⟨⟨_, hc⟩, rfl⟩)
  have hy : List.Forall₂ (w'.store.Yields policy) segments
      ((chunks SEGMENT_SIZE (w'.ledger.produced id)).map (policy.readBack P)) :=
    hI'.yields (fun _ hl => hl.1)
      (f := fun policy data => (chunks SEGMENT_SIZE data).map (policy.readBack P))
      (fun _ _ _ h => List.forall₂_map_left_iff.mpr h) hc
  rwa [hproduced, hstore] at hy

/-- **What a write has written is read**, as far as its policy takes it back. -/
theorem WriteKind.reads (hx : P.XtsInverse) (hU : P.NoCollision U)
    (hB : Between (.reading P U keys True) w) (hin : policy.HashesIn P U data)
    (hnew : w.cap id = none)
    (hok : ((kind.program P id data policy).run (World.exec data) w).1 = .ok id) :
    ((readCapsule P id).run (World.exec [])
      ((kind.program P id data policy).run (World.exec data) w).2).1 =
        .ok (policy.readsBack P data) := by
  have hn : w.store.NamesDrawn := by
    obtain ⟨g, -, hI⟩ := hB
    exact hI.namesDrawn
  set w' := ((kind.program P id data policy).run (World.exec data) w).2 with hw'
  have hrun : (kind.program P id data policy).run StoreOp.exec w.store = (.ok id, w'.store) := by
    refine Prod.ext ?_ (World.run_store _ _ _).2.symm
    rw [← (World.run_store _ _ _).1]
    exact hok
  obtain ⟨stₙ, sₙ, hall, hends, -⟩ := WriteKind.ends hn hrun
  obtain ⟨s, hsync, hends'⟩ := writeCapsule_ok hall hnew
  obtain ⟨bytes, hcap⟩ := hends.cap
  obtain ⟨bytes', hcap'⟩ := hends'.cap
  have hkeys : ∀ {s' : Store P} {p : Native CapsuleId},
      p.run StoreOp.exec w.store = (.ok id, s') →
        s'.keyManager.map KeyManager.derive = w.store.keyManager.map KeyManager.derive :=
    fun {s'} {p} h => by
      have k := run_derive p w.store
      rwa [h] at k
  have hy : List.Forall₂ (w'.store.Yields policy) stₙ.segmentIds
      ((chunks SEGMENT_SIZE data).map (policy.readBack P)) :=
    (writeCapsule_yields hx hU hB hin hnew hsync hcap').imp fun x chunk h =>
      h.congr ((hends.segments x).trans (hends'.segments x).symm)
        (hends.file.trans hends'.file.symm) ((hkeys hrun).trans (hkeys hsync).symm)
  exact readCapsule_yields [] (show w'.cap id = _ from hcap) hy

/-- **Encrypted writes.**  From any state of a service with a key manager, under compressors that
do not fail, a write of a new capsule under a policy that asks for encryption succeeds if and only
if every view has a block, and no chunk is larger than a task of the write may hold.  What it has
written is read back, if no chunk that is stored raw decodes to something else. -/
theorem encryptedWrite_ok_iff (hx : P.XtsInverse) (hd : P.CodecsInverse) (hc : P.Compresses)
    (hU : P.NoCollision U) (h : Service (Command.Serves U) (some K) w) (hnew : w.cap id = none)
    (he : policy.encryption.isEnabled = true) :
    (((kind.program P id data policy).run (World.exec data) w).1 = .ok id ↔
      policy.Sealable P data ∧ kind.Fits data) ∧
    (policy.Sealable P data → kind.Fits data → policy.Lossless P U data →
      ((readCapsule P id).run (World.exec [])
        ((kind.program P id data policy).run (World.exec data) w).2).1 = .ok data) := by
  have hB := service_between hx hU h
  have hiff : ((kind.program P id data policy).run (World.exec data) w).1 = .ok id ↔
      policy.Sealable P data ∧ kind.Fits data := by
    obtain ⟨g, -, hI⟩ := hB
    rw [(World.run_store _ _ _).1]
    refine WriteKind.run_ok_iff hd hc hI.namesDrawn he hI.keys (fun hash x hx => ?_) hnew
    obtain ⟨segment, hseg, -⟩ := hI.lookup_some hx
    exact Option.ne_none_iff_exists'.mpr ⟨segment, hseg⟩
  refine ⟨hiff, fun hseal hfits hl => ?_⟩
  rw [WriteKind.reads hx hU hB hl.hashed hnew (hiff.mpr ⟨hseal, hfits⟩),
    Policy.readsBack_of_readsRaw hl.readsRaw]

/-! ### One block, and less -/

theorem Primitives.stored_compresses : Primitives.stored.Compresses :=
  ⟨fun _ _ => ⟨_, rfl⟩, fun _ _ => ⟨_, rfl⟩⟩

/-- A service that begins. -/
theorem sampleService : Service (P := .stored) (Command.Serves {List.replicate 16 7})
    (some sampleKeys.derive) (World.empty (some sampleKeys)) := .start (some sampleKeys) rfl

/-- Sixteen bytes, written asynchronously. -/
theorem encryptedWrite_ok_iff_block :
    (((WriteKind.async 16 .asGiven).program .stored ⟨0⟩ (List.replicate 16 7) sampleSealing).run
      (World.exec (List.replicate 16 7)) (World.empty (some sampleKeys))).1 = .ok ⟨0⟩ ∧
    ((readCapsule .stored ⟨0⟩).run (World.exec []) (((WriteKind.async 16 .asGiven).program .stored
      ⟨0⟩ (List.replicate 16 7) sampleSealing).run (World.exec (List.replicate 16 7))
        (World.empty (some sampleKeys))).2).1 = .ok (List.replicate 16 7) := by
  have hview : ∀ chunk ∈ chunks SEGMENT_SIZE (List.replicate 16 (7 : UInt8)), ∀ view r,
      compressSegment .stored chunk sampleSealing.compression = .ok (view, r) →
        view = List.replicate 16 7 := by
    refine forall_chunk_of_length_le (by decide) fun view r h => ?_
    rw [show compressSegment .stored (List.replicate 16 (7 : UInt8)) sampleSealing.compression =
      .ok (List.replicate 16 7, _) from rfl] at h
    cases h
    rfl
  have hseal : sampleSealing.Sealable .stored (List.replicate 16 7) := fun chunk hc view r h => by
    rw [hview chunk hc view r h]
    decide
  have hfits : (WriteKind.async 16 .asGiven).Fits (List.replicate 16 (7 : UInt8)) :=
    forall_chunk_of_length_le (by decide) (by decide)
  have hl : sampleSealing.Lossless .stored {List.replicate 16 7} (List.replicate 16 7) :=
    ⟨hview, forall_chunk_of_length_le (by decide) fun _ _ _ _ => by decide +kernel⟩
  obtain ⟨hiff, hread⟩ := @encryptedWrite_ok_iff _ _ sampleSealing (List.replicate 16 7)
    ⟨0⟩ _ _ (.async 16 .asGiven) Primitives.stored_xts
    Primitives.stored_codecs Primitives.stored_compresses (Set.injOn_singleton _ _) sampleService
    rfl rfl
  exact ⟨hiff.mpr ⟨hseal, hfits⟩, hread hseal hfits hl⟩

/-- **One byte is not encrypted.** -/
theorem not_encryptedWrite_ok :
    ¬ ∀ (P : Primitives) (U : Set Bytes) (K : UInt32 → XtsKeyPair) (w : World P) (id : CapsuleId)
      (policy : Policy) (data : Bytes) (kind : WriteKind), P.XtsInverse → P.CodecsInverse →
      P.Compresses → P.NoCollision U → Service (Command.Serves U) (some K) w → w.cap id = none →
      policy.encryption.isEnabled = true → kind.Fits data →
      ((kind.program P id data policy).run (World.exec data) w).1 = .ok id := by
  intro h
  have hone := h _ _ _ _ ⟨0⟩ sampleSealing [7] .sync Primitives.stored_xts Primitives.stored_codecs
    Primitives.stored_compresses (Set.injOn_singleton _ _) sampleService rfl rfl trivial
  revert hone
  decide +kernel

end Space

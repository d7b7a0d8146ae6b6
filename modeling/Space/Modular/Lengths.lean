import Space.Modular.EncryptedFlag
import Space.Modular.ReadBack
import Space.Store.Lengths

/-!
# Modular — Lengths

The lengths that a modular write records.  A chunk has no bound but the policy's, and the length of
its payload is cast to a `u32`; over the log, the next append moves by the length itself.

* `storedSegments`: what a write that succeeds stores under new identifiers.
* `Bookkeeping.writeCapsule`: it does, over any storage and catalog that keep such books; the
  in-memory ones do (`bookkeeping_inMemory`), and so do the log and the registry
  (`bookkeeping_log`).
* `lengths_true_iff`: appends, transactions, modular writes and the MAC have the true lengths
  exactly where what is stored is shorter than 2^32 bytes.
* `not_lengths_true`: an append of 2^32 bytes records none.
-/

namespace Space
open Support Prog

variable {P : Primitives} {parts : Parts} {policy : Policy} {data : Bytes} {id : CapsuleId}

/-! ### What a write stores -/

/-- The payloads that the chunks have stored, each under the next identifier.  A chunk whose view is
known has none stored. -/
def newSegments (parts : Parts) (compression : CompressionPolicy) (encryption : EncryptionPolicy) :
    (ContentHash → Bool) → Nat → List Bytes → List (SegmentId × Bytes)
  | _, _, [] => []
  | known, next, chunk :: rest =>
    match parts.compress chunk compression with
    | .error _ => []
    | .ok (view, _) =>
      if known (parts.hashContent view) then
        newSegments parts compression encryption known next rest
      else match parts.payload encryption view ⟨next⟩ with
        | .error _ => []
        | .ok (payload, _) => (⟨next⟩, payload) :: newSegments parts compression encryption
            (Function.update known (parts.hashContent view) true) (next + 1) rest

/-- What a write that succeeds stores, where some hashes are known and some identifier is next. -/
def storedSegments (parts : Parts) (policy : Policy) (data : Bytes) (known : ContentHash → Bool)
    (next : Nat) : List (SegmentId × Bytes) :=
  match parts.evaluateCompression policy (data.take 1024), parts.evaluateEncryption policy with
  | .ok compression, .ok encryption =>
    newSegments parts compression encryption known next (plannedChunks policy data)
  | _, _ => []

section
variable {compression : CompressionPolicy} {encryption : EncryptionPolicy}
  {known : ContentHash → Bool} {next : Nat} {chunk view payload : Bytes}
  {summary : CompressionSummary} {report : EncryptionSummary}

theorem newSegments_known (rest : List Bytes)
    (hc : parts.compress chunk compression = .ok (view, summary))
    (hk : known (parts.hashContent view) = true) :
    newSegments parts compression encryption known next (chunk :: rest) =
      newSegments parts compression encryption known next rest := by
  rw [newSegments, hc]
  exact if_pos hk

theorem newSegments_new (rest : List Bytes)
    (hc : parts.compress chunk compression = .ok (view, summary))
    (hk : known (parts.hashContent view) = false)
    (hp : parts.payload encryption view ⟨next⟩ = .ok (payload, report)) :
    newSegments parts compression encryption known next (chunk :: rest) =
      (⟨next⟩, payload) :: newSegments parts compression encryption
        (Function.update known (parts.hashContent view) true) (next + 1) rest := by
  rw [newSegments, hc]
  dsimp only
  rw [hk, if_neg Bool.false_ne_true, hp]

end

/-! ### Over any storage -/

/-- A storage and a catalog that keep books of what has been stored, which hashes are known and
which identifier is next. -/
structure Bookkeeping {σ : Type} (parts : Parts) (exec : Handler ModularSig Error σ)
    (At : List (SegmentId × Bytes) → (ContentHash → Bool) → Nat → σ → Prop) : Prop where
  compress : ∀ s data policy, exec (.compress data policy) s = (parts.compress data policy, s)
  hashContent : ∀ s data, exec (.hashContent data) s = (.ok (parts.hashContent data), s)
  evaluateCompression : ∀ s policy sample,
    exec (.evaluateCompression policy sample) s = (parts.evaluateCompression policy sample, s)
  evaluateEncryption : ∀ s policy,
    exec (.evaluateEncryption policy) s = (parts.evaluateEncryption policy, s)
  dedupRegister : ∀ s hash x, (exec (.dedupRegister hash x) s).2 = s
  recordStats : ∀ s bytes wasDeduped, (exec (.recordStats bytes wasDeduped) s).2 = s
  lookupContent : ∀ {stored known next s} hash, At stored known next s →
    ∃ found, exec (.lookupContent hash) s = (.ok found, s) ∧ known hash = found.isSome
  reuse : ∀ {stored known next s} x, At stored known next s →
    (Modular.metadata x).Ensures exec (fun segment s₁ => ∀ refCount,
      (Pipeline.updateMetadata x (segment.withRefCount refCount)).Ensures exec
        (fun _ => At stored known next) s₁) s
  store : ∀ {stored known next s} id encryption view summary hash, At stored known next s →
    (Pipeline.storeSegment id encryption view summary hash).Ensures exec (fun x s' =>
      ∃ payload report, parts.payload encryption view ⟨next⟩ = .ok (payload, report) ∧ x = ⟨next⟩ ∧
        At (stored ++ [(x, payload)]) known (next + 1) s') s
  registerContent : ∀ {stored known next s} hash x, At stored known next s →
    At stored (Function.update known hash true) next (exec (.registerContent hash x) s).2
  createCapsule : ∀ {stored known next s} id size policy segments stats, At stored known next s →
    ∃ known' next', At stored known' next' (exec (.createCapsule id size policy segments stats) s).2

namespace Bookkeeping
variable {σ : Type} {exec : Handler ModularSig Error σ}
  {At : List (SegmentId × Bytes) → (ContentHash → Bool) → Nat → σ → Prop} {s : σ}
  {stored all : List (SegmentId × Bytes)} {known : ContentHash → Bool} {next : Nat}
  {compression : CompressionPolicy} {encryption : EncryptionPolicy}

/-- The books of a write, which has some chunks left and is to store `all`. -/
def Left (parts : Parts) (At : List (SegmentId × Bytes) → (ContentHash → Bool) → Nat → σ → Prop)
    (compression : CompressionPolicy) (encryption : EncryptionPolicy)
    (all : List (SegmentId × Bytes)) (rest : List Bytes) (s : σ) : Prop :=
  ∃ stored known next, At stored known next s ∧
    stored ++ newSegments parts compression encryption known next rest = all

/-- **One segment of the plan.** -/
theorem writeSegment (hb : Bookkeeping parts exec At) {rest : List Bytes} {seg : SegmentRef}
    {st : WriteState} (h : Left parts At compression encryption all (seg.chunk data :: rest) s) :
    (Pipeline.writeSegment id data compression encryption st seg).Ensures exec
      (fun _ => Left parts At compression encryption all rest) s := by
  obtain ⟨stored, known, next, hat, hall⟩ := h
  rw [Pipeline.writeSegment]
  dsimp only
  split
  · exact ensures_fail
  refine ensures_bind (ensures_perform fun vs s₁ he => ?_)
  rw [hb.compress] at he
  obtain ⟨hc, rfl⟩ := Prod.mk.inj he
  obtain ⟨view, summary⟩ := vs
  refine ensures_bind (ensures_perform fun hash s₁ he => ?_)
  rw [hb.hashContent] at he
  obtain ⟨hhash, rfl⟩ := Prod.mk.inj he
  obtain rfl := Except.ok.inj hhash
  refine ensures_bind (ensures_perform fun found s₁ he => ?_)
  obtain ⟨found', he', hk⟩ := hb.lookupContent (parts.hashContent view) hat
  rw [he'] at he
  cases he
  cases found with
  | some existing =>
      refine ensures_bind (ensures_mono (hb.reuse existing hat) fun segment s₁ hr => ?_)
      refine ensures_bind (ensures_mono (hr _) fun _ s₂ hat => ?_)
      refine ensures_bind (ensures_perform fun _ s₃ he => ?_)
      obtain rfl : s₂ = s₃ := (hb.recordStats s₂ _ _).symm.trans (congrArg Prod.snd he)
      refine ensures_pure ⟨stored, known, next, hat, ?_⟩
      rw [← newSegments_known rest hc hk]
      exact hall
  | none =>
      refine ensures_bind (ensures_mono (hb.store id encryption view summary _ hat) ?_)
      rintro x s₁ ⟨payload, report, hp, rfl, hat⟩
      refine ensures_bind (ensures_perform fun _ s₂ he => ?_)
      have hat := hb.registerContent (parts.hashContent view) ⟨next⟩ hat
      obtain rfl : _ = s₂ := congrArg Prod.snd he
      refine ensures_bind (ensures_perform fun _ s₃ he => ?_)
      obtain rfl : _ = s₃ := (hb.dedupRegister ..).symm.trans (congrArg Prod.snd he)
      refine ensures_bind (ensures_perform fun _ s₄ he => ?_)
      obtain rfl : _ = s₄ := (hb.recordStats ..).symm.trans (congrArg Prod.snd he)
      refine ensures_pure ⟨_, _, _, hat, ?_⟩
      rw [List.append_assoc, List.singleton_append, ← newSegments_new rest hc hk hp]
      exact hall

/-- **A write that succeeds.** -/
theorem writeCapsule (hb : Bookkeeping parts exec At) (h : At [] known next s) :
    (Pipeline.writeCapsule id data policy).Ensures exec (fun _ s' => ∃ known' next',
      At (storedSegments parts policy data known next) known' next' s') s := by
  refine ensures_bind (ensures_perform fun compression s₁ he => ?_)
  rw [hb.evaluateCompression] at he
  obtain ⟨hc, rfl⟩ := Prod.mk.inj he
  refine ensures_bind (ensures_lift fun zones hz => ?_)
  refine ensures_bind (ensures_perform fun encryption s₁ he => ?_)
  rw [hb.evaluateEncryption] at he
  obtain ⟨hen, rfl⟩ := Prod.mk.inj he
  have hall : storedSegments parts policy data known next =
      newSegments parts compression encryption known next
        ((zones.flatMap Zone.segments).map fun seg => seg.chunk data) := by
    rw [storedSegments, hc, hen, plannedChunks_ok hz]
  have hstart : Left parts At compression encryption (storedSegments parts policy data known next)
      ((zones.flatMap Zone.segments).map fun seg => seg.chunk data) s :=
    ⟨[], known, next, h, hall.symm⟩
  refine ensures_bind (ensures_mono (ensures_foldlM (I := fun rest _ => Left parts At compression
    encryption (storedSegments parts policy data known next)
      (rest.map fun seg => seg.chunk data)) (fun seg rest st s hleft => hb.writeSegment hleft)
        _ _ _ hstart) ?_)
  rintro st s₁ ⟨stored, known', next', hat, hstored⟩
  refine ensures_bind (ensures_perform fun _ s₂ he => ensures_pure ?_)
  obtain rfl : _ = s₂ := congrArg Prod.snd he
  obtain rfl : stored = _ := (List.append_nil stored).symm.trans hstored
  exact hb.createCapsule _ _ _ _ _ hat

end Bookkeeping

/-! ### In memory -/

namespace InMemory
variable {s s' : InMemory}

def known (s : InMemory) (hash : ContentHash) : Bool := (s.content hash).isSome

/-- The segments are there, with their true lengths. -/
structure Records (s : InMemory) (stored : List (SegmentId × Bytes)) : Prop where
  bytes : ∀ x data, (storedUnder stored).lookup x = some data → s.seg x = some data
  lengths : TrueLengths s.info (storedUnder stored)

/-- The books: the segments are there, with the cast lengths. -/
structure Keeps (stored : List (SegmentId × Bytes)) (known : ContentHash → Bool) (next : Nat)
    (s : InMemory) : Prop where
  known : s.known = known
  next : s.2.nextSegment = next
  bytes : ∀ x data, (storedUnder stored).lookup x = some data → s.seg x = some data
  recorded : Recorded s.info (storedUnder stored)

variable {stored : List (SegmentId × Bytes)} {known : ContentHash → Bool} {next : Nat}

theorem Keeps.records_iff (h : Keeps stored known next s) :
    s.Records stored ↔ Short (storedUnder stored) :=
  ⟨fun hr => h.recorded.trueLengths_iff.mp hr.lengths,
    fun hs => ⟨h.bytes, h.recorded.trueLengths_iff.mpr hs⟩⟩

/-- **A segment is stored.** -/
theorem Keeps.store {payload : Bytes} {m : Segment} (h : Keeps stored known next s)
    (he : s.Entered payload m s') (hl : m.len = asU32 payload.length) :
    Keeps (stored ++ [(⟨next⟩, payload)]) known (next + 1) s' := by
  obtain ⟨rfl, rfl, hbytes, hrecorded⟩ := h
  refine ⟨?_, ?_, ?_, ?_⟩
  · funext hash
    rw [InMemory.known, InMemory.content, he.cat]
    rfl
  · rw [he.cat]
  · intro x data hx
    rw [storedUnder_snoc] at hx
    rw [he.seg]
    rcases Table.lookup_insert_eq_some.mp hx with ⟨rfl, rfl⟩ | ⟨hne, hx⟩
    · exact Function.update_self ..
    · exact (Function.update_of_ne hne ..).trans (hbytes x data hx)
  · rw [storedUnder_snoc, he.info]
    exact hrecorded.store hl

/-- Other metadata for a segment that is there. -/
theorem Keeps.updated {x : SegmentId} {m m' : Segment} (h : Keeps stored known next s)
    (hm : s.info x = some m) (hu : s.Updated x m' s') (hl : m'.len = m.len) :
    Keeps stored known next s' := by
  obtain ⟨rfl, rfl, hbytes, hrecorded⟩ := h
  refine ⟨?_, ?_, ?_, ?_⟩
  · funext hash
    rw [InMemory.known, InMemory.content, hu.cat]
    rfl
  · rw [hu.cat]
  · rw [hu.seg]
    exact hbytes
  · rw [hu.info]
    exact hrecorded.relabel hm hl

/-- **The storage and the catalog in memory.** -/
theorem bookkeeping_inMemory (parts : Parts) :
    Bookkeeping parts (ModularOp.exec parts InMemoryBackend.storage) Keeps where
  compress := fun _ _ _ => rfl
  hashContent := fun _ _ => rfl
  evaluateCompression := fun _ _ _ => rfl
  evaluateEncryption := fun _ _ => rfl
  dedupRegister := fun _ _ _ => rfl
  recordStats := fun _ _ _ => rfl
  lookupContent := fun hash h => ⟨InMemory.content _ hash, rfl, h.known ▸ rfl⟩
  reuse := by
    intro stored known next s x h
    refine ensures_perform fun m s₁ he => ?_
    cases hm : InMemory.info s x with
    | none =>
        rw [Modular.exec_metadata_none hm] at he
        cases he
    | some old =>
        rw [Modular.exec_metadata hm] at he
        cases he
        intro refCount _ s' hr
        have hw : Modular.Settles (Pipeline.updateMetadata x (m.withRefCount refCount))
            (fun _ => Keeps stored known next) s :=
          Pipeline.wp_updateMetadata (fun s' hu => h.updated hm hu rfl)
            fun h => h.elim fun _ hF => hF.elim
        have hs := hw.run parts
        rw [hr] at hs
        exact hs
  store := by
    intro stored known next s id encryption view summary hash h
    obtain rfl := h.next
    refine ensures_of_wp (Pipeline.wp_storeSegment_inMemory ?_ ?_)
    · intro e s' x hx
      cases hx
    · intro payload report s' hp he x hx
      cases hx
      exact ⟨payload, report, hp, rfl, h.store he rfl⟩
  registerContent := by
    intro stored known next s hash x h
    obtain ⟨rfl, rfl, hbytes, hrecorded⟩ := h
    refine ⟨?_, rfl, hbytes, hrecorded⟩
    funext hash'
    show ((s.2.content.insert hash x).lookup hash').isSome = _
    rw [Table.lookup_insert, Function.update_apply]
    split <;> rfl
  createCapsule := fun {_ known next _} _ _ _ _ _ h => ⟨known, next, h.known, h.next, h.bytes,
    h.recorded⟩

end InMemory

/-! ### Over the log -/

namespace Registered
variable {r : Registered P} {log : NvramLog} {stored : List (SegmentId × Bytes)}
  {known : ContentHash → Bool} {next : Nat}

/-- The books of a write that found `log`. -/
structure Keeps (log : NvramLog) (stored : List (SegmentId × Bytes))
    (known : ContentHash → Bool) (next : Nat) (r : Registered P) : Prop where
  known : r.1.known = known
  next : r.1.next = next
  takes : log.Takes r.1.nvram stored

/-- **The log and the registry.**  No transaction of the storage changes a segment of the log, so
nothing is reused. -/
theorem bookkeeping_log (parts : Parts) (log : NvramLog) :
    Bookkeeping parts (ModularOp.execRegistry (P := P) parts) (Keeps log) where
  compress := fun _ _ _ => rfl
  hashContent := fun _ _ => rfl
  evaluateCompression := fun _ _ _ => rfl
  evaluateEncryption := fun _ _ => rfl
  dedupRegister := fun _ _ _ => rfl
  recordStats := fun _ _ _ => rfl
  lookupContent := by
    intro stored known next r hash h
    exact ⟨r.1.content hash, rfl, h.known ▸ rfl⟩
  reuse := by
    intro stored known next r x h
    refine ensures_perform fun m r₁ he refCount => ?_
    refine ensures_of_wp (Pipeline.wp_updateMetadata_log fun e t _ ha => ?_)
    cases ha
  store := by
    intro stored known next r id encryption view summary hash h
    obtain rfl := h.next
    refine ensures_of_wp (Pipeline.wp_storeSegment_log ?_ ?_)
    · intro e t x hx
      cases hx
    · intro payload report t hp x hx
      cases hx
      exact ⟨payload, report, hp, rfl, h.known, rfl, h.takes.store rfl rfl rfl⟩
  registerContent := by
    intro stored known next r hash x h
    refine ⟨?_, h.next, h.takes⟩
    obtain rfl := h.known
    funext hash'
    show ((r.1.registry.contentStore.insert hash x).lookup hash').isSome = _
    rw [Table.lookup_insert, Function.update_apply]
    split <;> rfl
  createCapsule := fun _ _ _ _ _ h => ⟨_, _, rfl, rfl, h.takes⟩

end Registered

/-! ### The lengths -/

/-- **The lengths are true** exactly where what is stored is shorter than 2^32 bytes. -/
theorem lengths_true_iff (hx : P.XtsInverse) :
    (∀ (log : NvramLog) (x : SegmentId) (data : Bytes),
      (log.append x data).1.len = data.length ∧ log.Records (log.append x data).2 [(x, data)] ↔
        data.length < 4294967296) ∧
    (∀ (log₀ log : NvramLog) (stored : List (SegmentId × Bytes)) (t : NvramTransaction),
      NvramTransaction.StagedSince log₀ stored t log →
      (log₀.Records (t.commit log).2 stored ↔ Short (storedUnder stored))) ∧
    (∀ (parts : Parts) (id : CapsuleId) (data : Bytes) (policy : Policy) (s s' : InMemory),
      (Pipeline.writeCapsule id data policy).run
        (ModularOp.exec parts InMemoryBackend.storage) s = (.ok id, s') →
      (s'.Records (storedSegments parts policy data s.known s.2.nextSegment) ↔
        Short (storedUnder (storedSegments parts policy data s.known s.2.nextSegment)))) ∧
    (∀ (parts : Parts) (id : CapsuleId) (data : Bytes) (policy : Policy) (r r' : Registered P),
      (Pipeline.writeCapsule id data policy).run (ModularOp.execRegistry parts) r = (.ok id, r') →
      (r.1.nvram.Records r'.1.nvram (storedSegments parts policy data r.1.known r.1.next) ↔
        Short (storedUnder (storedSegments parts policy data r.1.known r.1.next)))) ∧
    (∀ (plaintext ciphertext : Bytes) (keyPair : XtsKeyPair) (keyVersion : UInt32)
      (tweak : Block 16) (m : EncryptionMetadata),
      encryptSegment P plaintext keyPair keyVersion tweak = .ok (ciphertext, m) →
      (CoversLength ciphertext m ↔ plaintext.length < 4294967296)) := by
  refine ⟨fun log x data => ?_, fun log₀ log stored t h => h.commit.records_iff,
    fun parts id data policy s s' hw => ?_, fun parts id data policy r r' hw => ?_,
    fun plaintext ciphertext keyPair keyVersion tweak m h => coversLength_iff hx h⟩
  · rw [(NvramLog.takes_append log x data).records_iff]
    refine ⟨fun h => asU32_eq_iff.mp h.1, fun h => ⟨asU32_of_lt h, ?_⟩⟩
    intro y payload hy
    rcases Table.lookup_insert_eq_some.mp hy with ⟨-, rfl⟩ | ⟨-, hy⟩
    · exact h
    · cases hy
  · have hstart : InMemory.Keeps [] s.known s.2.nextSegment s :=
      ⟨rfl, rfl, fun _ _ h => (by cases h), .empty⟩
    obtain ⟨_, _, hk⟩ := (InMemory.bookkeeping_inMemory parts).writeCapsule hstart id s' hw
    exact hk.records_iff
  · have hstart : Registered.Keeps r.1.nvram [] r.1.known r.1.next r := ⟨rfl, rfl, .start _⟩
    obtain ⟨_, _, hk⟩ := (Registered.bookkeeping_log parts r.1.nvram).writeCapsule hstart id r' hw
    exact hk.takes.records_iff

/-- A byte that is staged and committed, zeros that are compressed, and a block that is
encrypted. -/
theorem lengths_true_zeros :
    NvramLog.empty.Records (NvramTransaction.commit
      ⟨[⟨.appended ⟨0⟩ 0 1, [7]⟩], 0, 1, false⟩ { NvramLog.empty with nextOffset := 1 }).2
      [(⟨0⟩, [7])] ∧
    (afterWriting 1 zeros (.lz4 1) .empty).Records [(⟨0⟩, zeroFrame)] ∧
    ∃ ciphertext m, encryptSegment .stored (List.replicate 16 0) ⟨.ofPrefix 32 [], .ofPrefix 32 []⟩
      1 (.ofPrefix 16 []) = .ok (ciphertext, m) ∧ CoversLength ciphertext m := by
  obtain ⟨-, htransaction, hwrite, -, hmac⟩ := lengths_true_iff Primitives.stored_xts
  have hshort : ∀ data : Bytes, data.length < 4294967296 → Short (storedUnder [(⟨0⟩, data)]) := by
    intro data hlen y payload hy
    rcases Table.lookup_insert_eq_some.mp hy with ⟨-, rfl⟩ | ⟨-, hy⟩
    · exact hlen
    · cases hy
  have hstored : storedSegments (.inMemory .shrinking) (oneChunk (.lz4 1)) zeros
      InMemory.empty.known InMemory.empty.2.nextSegment = [(⟨0⟩, zeroFrame)] := by decide +kernel
  refine ⟨?_, ?_, _, _, rfl, ?_⟩
  · exact (htransaction _ _ _ _ (.append .start rfl)).mpr (hshort [7] (by decide))
  · have hrun := hwrite (.inMemory .shrinking) ⟨1⟩ zeros (oneChunk (.lz4 1)) .empty _ rfl
    rw [hstored] at hrun
    exact hrun.mpr (hshort zeroFrame (by decide))
  · exact (hmac (List.replicate 16 0) _ ⟨.ofPrefix 32 [], .ofPrefix 32 []⟩ 1 (.ofPrefix 16 []) _
      rfl).mpr (by decide)

/-- **2^32 bytes** are recorded as none. -/
theorem not_lengths_true : ¬ ∀ (log : NvramLog) (x : SegmentId) (data : Bytes),
    (log.append x data).1.len = data.length ∧
      log.Records (log.append x data).2 [(x, data)] := by
  intro h
  have hlen := (h .empty ⟨0⟩ (List.replicate 4294967296 0)).1
  have hcast : asU32 (List.replicate 4294967296 (0 : UInt8)).length =
      (List.replicate 4294967296 (0 : UInt8)).length := hlen
  rw [List.length_replicate] at hcast
  exact absurd hcast (by decide)

end Space

import Space.Codec.Stored
import Space.Native.AsyncSpec
import Space.Store.Faults

/-!
# Native — Staging

What the coordinator of an asynchronous write does with one chunk, on a disk that may fail: the
chunk is prepared, and then a staged segment is reused, a stored one is, or one is staged.  Only
reusing a stored segment comes to the disk.

* `wp_prepareSegment_undo`, `wp_commitSegment_undo`: the two rules.
* `Store.Rekeyed`, `Store.Took`, `Store.Drew`: all that may have happened to the store.
-/

namespace Space
open Support Prog

variable {P : Primitives} {policy : Policy}

/-! ### Pending segments over a map -/

namespace NvramTransaction

/-- The first pending segment of an identifier, else what is in the map. -/
theorem lookup_installPending : ∀ {l : List PendingSegment} {m : Table SegmentId Segment}
    (_ : (l.map fun p => p.segment.id).Nodup) (x : SegmentId),
    (installPending l m).lookup x =
      ((l.find? fun p => p.segment.id = x).map PendingSegment.segment).or (m.lookup x)
  | [], m, _, x => rfl
  | p :: l, m, h, x => by
      rw [List.map_cons, List.nodup_cons] at h
      show (installPending l (m.insert p.segment.id p.segment)).lookup x = _
      rw [lookup_installPending h.2, Table.lookup_insert, List.find?_cons]
      by_cases e : p.segment.id = x
      · subst e
        have hnone : l.find? (fun q => q.segment.id = p.segment.id) = none := by
          refine List.find?_eq_none.mpr fun q hq k => h.1 ?_
          exact List.mem_map.mpr ⟨q, hq, of_decide_eq_true k⟩
        rw [hnone, if_pos rfl]
        simp
      · rw [if_neg (Ne.symm e)]
        simp [e]

theorem lookup_installPending_of_not_mem : ∀ {l : List PendingSegment}
    {m : Table SegmentId Segment} {x : SegmentId}, (∀ p ∈ l, p.segment.id ≠ x) →
    (installPending l m).lookup x = m.lookup x
  | [], m, x, _ => rfl
  | p :: l, m, x, hx => by
      show (installPending l (m.insert p.segment.id p.segment)).lookup x = _
      rw [lookup_installPending_of_not_mem fun q hq => hx q (List.mem_cons_of_mem _ hq),
        Table.lookup_insert, if_neg (Ne.symm (hx p List.mem_cons_self))]

theorem lookup_installPending_ne_none : ∀ {l : List PendingSegment}
    {m : Table SegmentId Segment} {x : SegmentId}, (∃ p ∈ l, p.segment.id = x) ∨ m.lookup x ≠ none →
    (installPending l m).lookup x ≠ none
  | [], m, x, h => h.resolve_left (by simp)
  | p :: l, m, x, h => by
      refine lookup_installPending_ne_none (m := m.insert p.segment.id p.segment) ?_
      rw [Table.lookup_insert]
      by_cases e : x = p.segment.id
      · rw [if_pos e]
        exact .inr nofun
      · rw [if_neg e]
        refine h.imp_left fun ⟨q, hq, he⟩ => ⟨q, ?_, he⟩
        rcases List.mem_cons.mp hq with rfl | hq
        · exact absurd he.symm e
        · exact hq

theorem lookup_installPending_mem {a b : List PendingSegment} {p : PendingSegment}
    {m : Table SegmentId Segment} (h : ((a ++ p :: b).map fun q => q.segment.id).Nodup) :
    (installPending (a ++ p :: b) m).lookup p.segment.id = some p.segment := by
  have ha : ∀ q ∈ a, q.segment.id ≠ p.segment.id := by
    intro q hq e
    rw [List.map_append, List.map_cons, List.nodup_append] at h
    exact h.2.2 _ (List.mem_map_of_mem hq) _ List.mem_cons_self e
  rw [lookup_installPending h, List.find?_append,
    List.find?_eq_none.mpr fun q hq => by simpa using ha q hq]
  simp

theorem installPending_snoc {l : List PendingSegment} {p : PendingSegment}
    {m : Table SegmentId Segment} :
    installPending (l ++ [p]) m = (installPending l m).insert p.segment.id p.segment :=
  List.foldl_append

theorem writePending_snoc {l : List PendingSegment} {p : PendingSegment} {file : Bytes} :
    writePending (l ++ [p]) file = writeAt 0 (writePending l file) p.segment.offset p.data :=
  List.foldl_append

/-- Changing the metadata of a pending segment does not move its payload. -/
theorem writePending_modify {a b : List PendingSegment} {p : PendingSegment} {file : Bytes}
    {t : Segment} (ho : t.offset = p.segment.offset) :
    writePending (a ++ { p with segment := t } :: b) file = writePending (a ++ p :: b) file := by
  unfold writePending
  rw [List.foldl_append, List.foldl_append, List.foldl_cons, List.foldl_cons, ho]

end NvramTransaction

/-! ### What a chunk is stored as -/

/-- A chunk, prepared under a key, if it can be. -/
def sealedChunk (P : Primitives) (key : Option (UInt32 × XtsKeyPair)) (policy : Policy)
    (chunk : Bytes × Nat) : Option SegmentPrepared :=
  match compressSegment P chunk.1 policy.compression with
  | .error _ => none
  | .ok (view, r) =>
    match sealView P key view (hashContent P view) with
    | .error _ => none
    | .ok (payload, m) => some ⟨chunk.2, hashContent P view, payload, r, m⟩

/-- The segment a prepared chunk is stored as. -/
def SegmentPrepared.segment (policy : Policy) (p : SegmentPrepared) (x : SegmentId)
    (offset : Nat) : Segment :=
  (Segment.appended x offset (asU32 p.finalData.length)).describe p.compResult
    (if policy.dedupe then some p.contentHash else none) p.encryptionMeta

theorem describe_id {t : Segment} {r : CompressionResult} {hash : Option ContentHash}
    {m : Option EncryptionMetadata} : (t.describe r hash m).id = t.id := by
  cases m <;> rfl

theorem describe_refCount {t : Segment} {r : CompressionResult} {hash : Option ContentHash}
    {m : Option EncryptionMetadata} : (t.describe r hash m).refCount = 1 := by
  cases m <;> rfl

theorem describe_offset {t : Segment} {r : CompressionResult} {hash : Option ContentHash}
    {m : Option EncryptionMetadata} : (t.describe r hash m).offset = t.offset := by
  cases m <;> rfl

theorem describe_len {t : Segment} {r : CompressionResult} {hash : Option ContentHash}
    {m : Option EncryptionMetadata} : (t.describe r hash m).len = t.len := by
  cases m <;> rfl

/-- A segment without its access counter. -/
def Segment.unread (t : Segment) : Segment := { t with accessCount := 0 }

/-- A segment after one more reference was taken on it. -/
def Segment.taken (t : Segment) : Segment :=
  { t with
    refCount := saturatingSucc t.refCount
    deduplicated := decide (1 < saturatingSucc t.refCount)
    accessCount := saturatingSucc t.accessCount }

theorem Segment.unread_taken (t : Segment) : t.taken.unread = t.reuse.unread := rfl

theorem Segment.unread_reuse {t t' : Segment} (h : t.unread = t'.unread) :
    t.reuse.unread = t'.reuse.unread := by
  obtain ⟨⟩ := t
  obtain ⟨⟩ := t'
  simp only [unread, reuse, Segment.mk.injEq] at h ⊢
  simp_all

/-! ### What happens to the store -/

namespace Store
variable {s s' s'' : Store P}

/-- The key manager may have cached a key. -/
structure Rekeyed (s s' : Store P) : Prop where
  registry : s'.registry = s.registry
  nvram : s'.nvram = s.nvram
  key : s'.currentKey.1 = s.currentKey.1

theorem Rekeyed.refl (s : Store P) : s.Rekeyed s := ⟨rfl, rfl, rfl⟩

theorem rekeyed_currentKey (s : Store P) : s.Rekeyed s.currentKey.2 :=
  ⟨(currentKey_snd s).1, (currentKey_snd s).2.1, (currentKey_snd s).2.2⟩

/-- A reference was taken on a stored segment. -/
structure Took (s s' : Store P) (x : SegmentId) (t : Segment) : Prop where
  capsules : s'.registry.capsules = s.registry.capsules
  next : s'.registry.nextSegmentId = s.registry.nextSegmentId
  contentStore : s'.registry.contentStore = s.registry.contentStore
  file : s'.nvram.file = s.nvram.file
  offset : s'.nvram.nextOffset = s.nvram.nextOffset
  key : s'.currentKey.1 = s.currentKey.1
  old : s.seg x = some t
  seg : ∀ y, s'.seg y = if y = x then some t.taken else s.seg y

/-- An identifier was drawn for a staged segment. -/
structure Drew (s s' : Store P) : Prop where
  capsules : s'.registry.capsules = s.registry.capsules
  next : s'.registry.nextSegmentId = s.registry.nextSegmentId + 1
  contentStore : s'.registry.contentStore = s.registry.contentStore
  file : s'.nvram.file = s.nvram.file
  map : s'.nvram.segmentMap = s.nvram.segmentMap
  key : s'.currentKey.1 = s.currentKey.1

end Store

namespace WritePipeline
variable {faults : Nat → Option Fault} {s s' : Store P} {n : Nat}

/-- What the programs of this module run on. -/
abbrev Undo (faults : Nat → Option Fault) : Moves StoreSig Error (Store P × Nat) :=
  (StoreOp.execUndo (P := P) faults).moves

/-- Without an error, all chunks were committed. -/
theorem AsyncState.error_eq_none {st : AsyncState} {total : Nat}
    (h : AsyncState.error st total = none) : st.commitError = none ∧ st.nextIndex = total := by
  have hcommit : st.commitError = none := by
    unfold AsyncState.error at h
    cases hc : st.commitError with
    | none => rfl
    | some e => rw [hc] at h; cases h
  refine ⟨hcommit, ?_⟩
  by_contra hne
  unfold AsyncState.error at h
  rw [if_pos hne, hcommit] at h
  simp at h

theorem wp_encryptionKey_undo
    {Q : Except Error (Option (UInt32 × XtsKeyPair)) → Store P × Nat → Prop}
    (h : ∀ s', s.Rekeyed s' → Q (.ok (s.keyFor policy)) (s', n)) :
    (encryptionKey policy).wp (Undo faults) (fun _ _ => True) Q (s, n) := by
  unfold encryptionKey
  unfold Store.keyFor at h
  split
  · next he =>
      rw [if_pos he] at h
      exact wp_memoryUndo (o := .currentKey) rfl (h _ (Store.rekeyed_currentKey s))
  · next he =>
      rw [if_neg he] at h
      exact h s (.refl s)

/-- **Preparing a chunk** draws a key at most. -/
theorem wp_prepareSegment_undo {chunk : Bytes × Nat}
    {Q : Except Error SegmentPrepared → Store P × Nat → Prop}
    (herr : ∀ e s', sealedChunk P (s.keyFor policy) policy chunk = none → s.Rekeyed s' →
      Q (.error e) (s', n))
    (hok : ∀ p s', sealedChunk P (s.keyFor policy) policy chunk = some p → s.Rekeyed s' →
      Q (.ok p) (s', n)) :
    (prepareSegment P policy chunk).wp (Undo faults) (fun _ _ => True) Q (s, n) := by
  unfold prepareSegment
  refine wp_bind.mpr (wp_lift.mpr ?_)
  cases hc : compressSegment P chunk.1 policy.compression with
  | error e => exact herr _ s (by simp only [sealedChunk, hc]) (.refl s)
  | ok viewed =>
      obtain ⟨view, r⟩ := viewed
      refine wp_bind.mpr (wp_encryptionKey_undo fun s' hr => wp_bind.mpr (wp_lift.mpr ?_))
      cases hs : sealView P (s.keyFor policy) view (hashContent P view) with
      | error e => exact herr _ s' (by simp only [sealedChunk, hc, hs]) hr
      | ok final =>
          obtain ⟨payload, m⟩ := final
          exact hok _ s' (by simp only [sealedChunk, hc, hs]) hr

/-- A reference is taken on a segment, if it is there; also where that is not saved. -/
theorem wp_incrementRefcount_undo {x : SegmentId}
    {Q : Except Error Segment → Store P × Nat → Prop}
    (herr : ∀ e, s.seg x = none → Q (.error e) (s, n))
    (hok : ∀ t s', ¬ LateAt faults n → s.Took s' x t → Q (.ok t.taken) (s', n + 1))
    (hlate : ∀ e t s', LateAt faults n → s.Took s' x t → Q (.error e) (s', n + 1)) :
    (Prog.perform (S := StoreSig) (.incrementRefcount x) : Native Segment).wp (Undo faults)
      (fun _ _ => True) Q (s, n) := by
  cases hl : s.nvram.segmentMap.lookup x with
  | none =>
      refine wp_memoryUndo (by simp only [StoreOp.touchesDisk, hl]; rfl) ?_
      simp only [StoreOp.exec, NvramLog.incrementRefcount, hl]
      exact herr _ hl
  | some t =>
      have hexec : StoreOp.exec (.incrementRefcount x) s =
          (.ok t.taken,
            { s with nvram := s.nvram.withMap (s.nvram.segmentMap.insert x t.taken) }) := by
        simp only [StoreOp.exec, NvramLog.incrementRefcount, hl]
        rfl
      refine wp_doing rfl (wp_diskOp (by simp only [StoreOp.touchesDisk, hl]; rfl) ?_ ?_)
      · intro fault s' hf hs
        cases fault with
        | early written text => cases hs
        | late text =>
            refine hlate _ t s' ⟨text, hf⟩ ?_
            cases hs
            rw [hexec]
            exact ⟨rfl, rfl, rfl, rfl, rfl, Store.currentKey_congr rfl, hl,
              fun y => Table.lookup_insert _ _ _ _⟩
      · intro hf
        rw [hexec]
        refine hok t _ ?_ ⟨rfl, rfl, rfl, rfl, rfl, Store.currentKey_congr rfl, hl,
          fun y => Table.lookup_insert _ _ _ _⟩
        rintro ⟨text, ht⟩
        cases hf _ ht

/-! ### What committing a chunk does -/

/-- The transaction after a prepared chunk was staged under an identifier. -/
def staging (policy : Policy) (p : SegmentPrepared) (x : SegmentId) (t : NvramTransaction) :
    NvramTransaction :=
  { t with
    pending := t.pending ++ [⟨p.segment policy x t.currentOffset, p.finalData⟩]
    currentOffset := t.currentOffset + p.finalData.length }

/-- The staged hashes after that. -/
def stagedHash (policy : Policy) (p : SegmentPrepared) (x : SegmentId)
    (staged : Table ContentHash SegmentId) : Table ContentHash SegmentId :=
  if policy.dedupe then staged.insert p.contentHash x else staged

variable {p : SegmentPrepared} {t : NvramTransaction} {staged : Table ContentHash SegmentId}

theorem wp_stageNew_undo
    {Q : Except Error (CommitOutcome × NvramTransaction × Table ContentHash SegmentId) →
      Store P × Nat → Prop}
    (hf : t.finalized = false) (hnew : ∀ q ∈ t.pending, q.segment.id ≠ ⟨s.registry.nextSegmentId⟩)
    (h : ∀ s', s.Drew s' → Q (.ok (⟨⟨s.registry.nextSegmentId⟩, .newSegment, p.finalData.length,
      if policy.dedupe then some p.contentHash else none⟩,
      staging policy p ⟨s.registry.nextSegmentId⟩ t,
      stagedHash policy p ⟨s.registry.nextSegmentId⟩ staged)) (s', n)) :
    (stageNew policy p t staged).wp (Undo faults) (fun _ _ => True) Q (s, n) := by
  unfold stageNew
  refine wp_bind.mpr (wp_memoryUndo (o := .allocSegment) rfl ?_)
  set x : SegmentId := ⟨s.registry.nextSegmentId⟩
  set q : PendingSegment :=
    ⟨Segment.appended x t.currentOffset (asU32 p.finalData.length), p.finalData⟩
  set t₁ : NvramTransaction :=
    { t with
      pending := t.pending ++ [q]
      currentOffset := t.currentOffset + p.finalData.length }
  set s₁ : Store P := (StoreOp.exec .allocSegment s).2
  have happend : StoreOp.exec (.appendSegment t x p.finalData) s₁ = (.ok (q.segment, t₁),
      { s₁ with nvram := { s₁.nvram with nextOffset := t₁.currentOffset } }) := by
    have ha : t.ensureActive = .ok () := by
      rw [NvramTransaction.ensureActive, hf]
      rfl
    simp only [StoreOp.exec, NvramTransaction.appendSegment, ha]
    rfl
  -- the appended segment is the only one under its identifier
  have hset : t₁.setSegmentMetadata x (p.segment policy x t.currentOffset) =
      .ok (staging policy p x t) :=
    withSegmentMut_first (t := t₁) (p := q) (a := t.pending) (b := []) hf rfl rfl hnew
  refine wp_bind.mpr (wp_memoryUndo (o := .appendSegment t x p.finalData) rfl ?_)
  rw [happend]
  refine wp_bind.mpr (wp_lift.mpr ?_)
  show Prog.andThen (Undo faults) _ _ Q
    (t₁.setSegmentMetadata x (p.segment policy x t.currentOffset)) _
  rw [hset]
  exact h _ ⟨rfl, rfl, rfl, rfl, rfl, Store.currentKey_congr rfl⟩

/-- The hash of a prepared chunk names a segment that is not there: neither pending, if it is
staged, nor stored. -/
def Dangling (s : Store P) (p : SegmentPrepared) (t : NvramTransaction)
    (staged : Table ContentHash SegmentId) : Prop :=
  (∃ x, staged.lookup p.contentHash = some x ∧ t.pendingSegment x = none) ∨
    (staged.lookup p.contentHash = none ∧
      ∃ x, s.content p.contentHash = some x ∧ s.seg x = none)

/-- **Committing a chunk**: a staged segment is reused, a stored one is, or one is staged. -/
theorem wp_commitSegment_undo
    {Q : Except Error (CommitOutcome × NvramTransaction × Table ContentHash SegmentId) →
      Store P × Nat → Prop}
    (hf : t.finalized = false) (hnew : ∀ q ∈ t.pending, q.segment.id ≠ ⟨s.registry.nextSegmentId⟩)
    (herr : ∀ e, Dangling s p t staged → Q (.error e) (s, n))
    (hreuse : ∀ a q b, policy.dedupe = true → staged.lookup p.contentHash = some q.segment.id →
      t.pending = a ++ q :: b → Q (.ok (⟨q.segment.id, .reusedStaged, q.segment.len, none⟩,
        { t with pending := a ++ { q with segment := q.segment.reuse } :: b }, staged)) (s, n))
    (htook : ∀ x u s', policy.dedupe = true → staged.lookup p.contentHash = none →
      s.content p.contentHash = some x → ¬ LateAt faults n → s.Took s' x u →
      Q (.ok (⟨x, .reusedPersistent, u.len, none⟩, t, staged)) (s', n + 1))
    (hlate : ∀ e x u s', policy.dedupe = true → staged.lookup p.contentHash = none →
      s.content p.contentHash = some x → LateAt faults n → s.Took s' x u →
      Q (.error e) (s', n + 1))
    (hstaged : ∀ s', (policy.dedupe = true → staged.lookup p.contentHash = none ∧
        s.content p.contentHash = none) → s.Drew s' →
      Q (.ok (⟨⟨s.registry.nextSegmentId⟩, .newSegment, p.finalData.length,
        if policy.dedupe then some p.contentHash else none⟩,
        staging policy p ⟨s.registry.nextSegmentId⟩ t,
        stagedHash policy p ⟨s.registry.nextSegmentId⟩ staged)) (s', n)) :
    (commitSegment policy p t staged).wp (Undo faults) (fun _ _ => True) Q (s, n) := by
  unfold commitSegment
  by_cases hd : policy.dedupe = true
  · rw [if_pos hd]
    cases hs : staged.lookup p.contentHash with
    | some x =>
        simp only
        cases hp : t.pendingSegment x with
        | none => exact herr _ (.inl ⟨x, hs, hp⟩)
        | some u =>
            simp only
            obtain ⟨r, hr, rfl⟩ := Option.map_eq_some_iff.mp hp
            obtain ⟨a, q, b, hpend, hid, ha⟩ := exists_first (l := t.pending) (x := x)
              ⟨r, List.mem_of_find?_eq_some hr, by simpa using List.find?_some hr⟩
            -- the one found is the first one
            have hrq : r = q := by
              have hnone : a.find? (fun q => q.segment.id = x) = none :=
                List.find?_eq_none.mpr fun q hq => by simpa using ha q hq
              rw [hpend, List.find?_append, hnone] at hr
              simpa [hid] using hr.symm
            subst hrq
            subst hid
            refine wp_bind.mpr (wp_lift.mpr ?_)
            rw [withSegmentMut_first hf hpend rfl ha]
            exact hreuse a r b hd hs hpend
    | none =>
        simp only
        refine wp_bind.mpr (wp_memoryUndo (o := .lookupContent p.contentHash) rfl ?_)
        show andThen _ _ _ Q (.ok (s.content p.contentHash)) (s, n)
        refine andThen_ok.mpr ?_
        cases hl : s.content p.contentHash with
        | some x =>
            exact wp_bind.mpr (wp_incrementRefcount_undo
              (fun e hx => herr e (.inr ⟨hs, x, hl, hx⟩))
              (fun u s' hn hu => htook x u s' hd hs hl hn hu)
              fun e u s' hn hu => hlate e x u s' hd hs hl hn hu)
        | none => exact wp_stageNew_undo hf hnew fun s' h => hstaged s' (fun _ => ⟨hs, hl⟩) h
  · rw [if_neg hd]
    exact wp_stageNew_undo hf hnew fun s' h => hstaged s' (fun k => absurd k hd) h

end WritePipeline

end Space

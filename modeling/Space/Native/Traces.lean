import Space.Codec.Stored
import Space.Native.Invariant
import Space.Native.Write
import Space.Store.Faults

/-!
# Native — Traces

What a synchronous write that fails leaves behind, on a disk that may fail: the references its
chunks took before the failure, and the segments they stored.  Nothing takes them back.

* `wp_writeChunk_io`: a chunk stops the write before it touches anything, passes without a trace,
  or leaves one.
* `writeCapsuleWithPolicy_traceless_iff`: a write that fails leaves no trace if and only if no
  chunk it comes to leaves one.  A chunk passes without a trace only as a dedup hit on a segment
  whose count is saturated.
-/

namespace Space
open Support Prog

variable {P : Primitives}

namespace Store

/-- The reference count of a segment, if it is there. -/
def refs (s : Store P) (x : SegmentId) : Option Nat := (s.seg x).map Segment.refCount

/-- No segment has an identifier that was not drawn. -/
def Fresh (s : Store P) : Prop :=
  ∀ x segment, s.seg x = some segment → x.val < s.registry.nextSegmentId

/-- The same segments with the same counts, and the same content store. -/
structure Traceless (s s' : Store P) : Prop where
  refs : ∀ x, s'.refs x = s.refs x
  content : ∀ h, s'.content h = s.content h

/-- The segment a view with the hash is a dedup hit on. -/
def hit (s : Store P) (policy : Policy) (hash : ContentHash) : Option SegmentId :=
  if policy.dedupe then s.content hash else none

end Store

/-- The hash of a chunk's view, if the chunk can be compressed and sealed. -/
def preparedHash (P : Primitives) (key : Option (UInt32 × XtsKeyPair)) (policy : Policy)
    (chunk : Bytes) : Option ContentHash :=
  match compressSegment P chunk policy.compression with
  | .error _ => none
  | .ok (view, _) =>
    match sealView P key view (hashContent P view) with
    | .error _ => none
    | .ok _ => some (hashContent P view)

section
variable (faults : Nat → Option Fault) (s : Store P) (policy : Policy)

/-- Chunk number `i` is a hit on a saturated segment, and its save succeeds. -/
def Passes (i : Nat) (chunk : Bytes) : Prop :=
  ∃ hash x v, preparedHash P (s.keyFor policy) policy chunk = some hash ∧
    s.hit policy hash = some x ∧ s.refs x = some v ∧ saturatingSucc v = v ∧
    ∀ text, faults i ≠ some (.late text)

/-- Chunk number `i` is a hit on a segment whose count is not saturated, or is no hit and its
payload is written. -/
def Marks (i : Nat) (chunk : Bytes) : Prop :=
  ∃ hash, preparedHash P (s.keyFor policy) policy chunk = some hash ∧
    match s.hit policy hash with
    | some x => ∃ v, s.refs x = some v ∧ saturatingSucc v ≠ v
    | none => ∀ written text, faults i ≠ some (.early written text)

/-- No chunk that is reached leaves a trace. -/
def Calm : Nat → List Bytes → Prop
  | _, [] => True
  | i, chunk :: rest => ¬ Marks faults s policy i chunk ∧
      (Passes faults s policy i chunk → Calm (i + 1) rest)

end

/-- No segment of a reachable state does. -/
theorem World.Inv.fresh {D : Discipline} {w : World P} {g : Ghost} (h : World.Inv D w g) :
    w.store.Fresh := fun x segment hx => (h.keyed x segment hx).2

/-! ### Before, and after -/

namespace Store
variable {s s' s'' s₀ : Store P}

/-- Identifiers are not drawn twice, and the key in use stays. -/
structure Onward (s s' : Store P) : Prop where
  next : s.registry.nextSegmentId ≤ s'.registry.nextSegmentId
  key : s'.currentKey.1 = s.currentKey.1

theorem Onward.refl (s : Store P) : s.Onward s := ⟨Nat.le_refl _, rfl⟩

theorem Onward.trans (h : s.Onward s') (h' : s'.Onward s'') : s.Onward s'' :=
  ⟨h.next.trans h'.next, h'.key.trans h.key⟩

theorem Onward.keyFor (h : s.Onward s') (policy : Policy) : s'.keyFor policy = s.keyFor policy := by
  unfold Store.keyFor
  rw [h.key]

theorem Traceless.refl (s : Store P) : s.Traceless s := ⟨fun _ => rfl, fun _ => rfl⟩

theorem Traceless.trans (h : s.Traceless s') (h' : s'.Traceless s'') : s.Traceless s'' :=
  ⟨fun x => (h'.refs x).trans (h.refs x), fun k => (h'.content k).trans (h.content k)⟩

theorem refs_eq_none {x : SegmentId} : s.refs x = none ↔ s.seg x = none := Option.map_eq_none_iff

theorem Fresh.mono (h : s.Fresh) (hr : ∀ x, s'.refs x = s.refs x) (ho : s.Onward s') :
    s'.Fresh := by
  intro x segment hx
  have hs : s.refs x ≠ none := by
    rw [← hr x]
    exact fun k => by rw [refs_eq_none.mp k] at hx; cases hx
  obtain ⟨t, ht⟩ := Option.ne_none_iff_exists'.mp fun k => hs (refs_eq_none.mpr k)
  exact (h x t ht).trans_le ho.next

/-- One segment was stored under a new identifier, or one count was raised. -/
inductive Changed (s s' : Store P) : Prop where
  | stored (x : SegmentId) (hx : s.registry.nextSegmentId ≤ x.val) (h : s'.refs x ≠ none)
      (others : ∀ y, y ≠ x → s'.refs y = s.refs y)
  | raised (x : SegmentId) (v : Nat) (h : s.refs x = some v) (hv : saturatingSucc v ≠ v)
      (h' : s'.refs x = some (saturatingSucc v)) (others : ∀ y, y ≠ x → s'.refs y = s.refs y)

/-- A count shows a trace: there was none, or it was raised. -/
def Marked : Option Nat → Option Nat → Prop
  | none, some _ => True
  | some v, some v' => v < v' ∧ v < u32Max ∨ u32Max < v ∧ v' = u32Max
  | _, none => False

theorem Marked.ne {v v' : Option Nat} (h : Marked v v') : v' ≠ v := by
  rintro rfl
  cases v' with
  | none => exact h
  | some n => rcases h with h | h <;> omega

theorem marked_saturatingSucc {v : Nat} (h : saturatingSucc v ≠ v) :
    Marked (some v) (some (saturatingSucc v)) := by
  unfold Marked
  unfold saturatingSucc at h ⊢
  omega

theorem Marked.saturatingSucc {v : Option Nat} {v' : Nat} (h : Marked v (some v')) :
    Marked v (some (saturatingSucc v')) := by
  cases v with
  | none => trivial
  | some n =>
      unfold Marked at h ⊢
      unfold Space.saturatingSucc
      omega

/-- Some segment shows a trace. -/
def Traced (s s' : Store P) : Prop := ∃ x, Marked (s.refs x) (s'.refs x)

theorem Traced.not_traceless (h : s.Traced s') : ¬ s.Traceless s' := by
  intro k
  obtain ⟨x, hx⟩ := h
  exact hx.ne (k.refs x)

theorem Traced.quiet (h : s₀.Traced s) (hq : s.Traceless s') : s₀.Traced s' := by
  obtain ⟨x, hx⟩ := h
  exact ⟨x, (hq.refs x).symm ▸ hx⟩

/-- A trace stays, whatever is changed. -/
theorem Traced.changed (h : s₀.Traced s) (hc : s.Changed s') (hf : s₀.Fresh) (ho : s₀.Onward s) :
    s₀.Traced s' := by
  obtain ⟨x, hx⟩ := h
  cases hc with
  | stored y hy hs others =>
      by_cases e : x = y
      · subst e
        obtain ⟨v, hv⟩ := Option.ne_none_iff_exists'.mp hs
        have hnone : s₀.refs x = none := by
          refine refs_eq_none.mpr (Option.eq_none_iff_forall_ne_some.mpr fun t ht => ?_)
          exact absurd ((hf x t ht).trans_le ho.next) (Nat.not_lt.mpr hy)
        exact ⟨x, by rw [hnone, hv]; trivial⟩
      · exact ⟨x, (others x e).symm ▸ hx⟩
  | raised y v hv hne hv' others =>
      by_cases e : x = y
      · subst e
        rw [hv] at hx
        exact ⟨x, hv'.symm ▸ hx.saturatingSucc⟩
      · exact ⟨x, (others x e).symm ▸ hx⟩

/-- A change leaves a trace. -/
theorem Changed.traced (hc : s.Changed s') (hq : s₀.Traceless s) (hf : s.Fresh) :
    s₀.Traced s' := by
  cases hc with
  | stored x hx hs _ =>
      obtain ⟨v, hv⟩ := Option.ne_none_iff_exists'.mp hs
      have hnone : s.refs x = none := by
        refine refs_eq_none.mpr (Option.eq_none_iff_forall_ne_some.mpr fun t ht => ?_)
        exact absurd (hf x t ht) (Nat.not_lt.mpr hx)
      exact ⟨x, by rw [← hq.refs, hnone, hv]; trivial⟩
  | raised x v hv hne hv' _ =>
      refine ⟨x, ?_⟩
      rw [← hq.refs, hv, hv']
      exact marked_saturatingSucc hne

end Store

namespace WritePipeline
variable {faults : Nat → Option Fault} {s s' s₀ : Store P} {n : Nat} {policy : Policy}

/-! ### One operation -/

/-- What the programs of this module run on. -/
abbrev Io (faults : Nat → Option Fault) : Moves StoreSig Error (Store P × Nat) :=
  (StoreOp.execIo (P := P) faults).moves

/-- Drawing the key of the chunk changes the cache at most. -/
theorem wp_encryptionKey_io
    {Q : Except Error (Option (UInt32 × XtsKeyPair)) → Store P × Nat → Prop}
    (h : ∀ s', s'.registry = s.registry → s'.nvram = s.nvram →
      s'.currentKey.1 = s.currentKey.1 → Q (.ok (s.keyFor policy)) (s', n)) :
    (encryptionKey policy).wp (Io faults) (fun _ _ => True) Q (s, n) := by
  unfold encryptionKey
  unfold Store.keyFor at h
  split
  · next he =>
      refine wp_memoryOp (o := .currentKey) rfl ?_
      rw [if_pos he] at h
      obtain ⟨hr, hn, hk⟩ := Store.currentKey_snd s
      exact h _ hr hn hk
  · next he =>
      rw [if_neg he] at h
      exact h s rfl rfl rfl

/-- What happened concerns one segment only, and no hash. -/
structure Elsewhere (s s' : Store P) (x : SegmentId) : Prop where
  content : s'.registry.contentStore = s.registry.contentStore
  next : s.registry.nextSegmentId ≤ s'.registry.nextSegmentId
  keyManager : s'.keyManager = s.keyManager
  refs : ∀ y, y ≠ x → s'.refs y = s.refs y

namespace Elsewhere
variable {s₁ : Store P} {x : SegmentId}

theorem onward (h : Elsewhere s s' x) : s.Onward s' := ⟨h.next, Store.currentKey_congr h.keyManager⟩

/-- A segment is put in its place. -/
theorem insert {t : Segment} (h : Elsewhere s s₁ x) (s₂ : Store P)
    (hc : s₂.registry = s₁.registry) (hk : s₂.keyManager = s₁.keyManager)
    (hm : s₂.nvram.segmentMap = s₁.nvram.segmentMap.insert x t) :
    Elsewhere s s₂ x ∧ s₂.refs x ≠ none := by
  refine ⟨⟨by rw [hc]; exact h.content, by rw [hc]; exact h.next, hk.trans h.keyManager,
    fun y hy => ?_⟩, ?_⟩
  · rw [← h.refs y hy]
    unfold Store.refs Store.seg
    rw [hm, Table.lookup_insert, if_neg hy]
  · unfold Store.refs Store.seg
    rw [hm, Table.lookup_insert, if_pos rfl]
    exact nofun

end Elsewhere

/-- **Storing a payload.**  If it cannot be written nothing is left; else there is a segment. -/
theorem wp_storeNew_io {payload : Bytes} {r : CompressionResult} {hash : Option ContentHash}
    {m : Option EncryptionMetadata} {Q : Except Error SegmentId → Store P × Nat → Prop}
    (hearly : ∀ e s', (∃ written text, faults n = some (.early written text)) →
      s.Traceless s' → s.Onward s' → Q (.error e) (s', n + 1))
    (hstored : ∀ r s' n', (∀ written text, faults n ≠ some (.early written text)) →
      Elsewhere s s' ⟨s.registry.nextSegmentId⟩ → s'.refs ⟨s.registry.nextSegmentId⟩ ≠ none →
      Q r (s', n')) :
    (storeNew payload r hash m).wp (Io faults) (fun _ _ => True) Q (s, n) := by
  unfold storeNew
  refine wp_bind.mpr (wp_memoryOp (o := .allocSegment) rfl ?_)
  set x : SegmentId := ⟨s.registry.nextSegmentId⟩
  set s₁ : Store P := (StoreOp.allocSegment.exec s).2
  have h₁ : Elsewhere s s₁ x := ⟨rfl, Nat.le_succ _, rfl, fun _ _ => rfl⟩
  -- the metadata goes over the appended segment
  have hupdate : ∀ (t : Segment) (s₂ : Store P), (∀ written text,
      faults n ≠ some (.early written text)) → Elsewhere s s₂ x → s₂.refs x ≠ none →
      Prog.wp (Io faults) (fun _ _ => True) Q (do
        (Native.updateSegmentMetadata x t).mapError (mapNvramError "update_segment_metadata")
        return x) (s₂, n + 1) := by
    intro t s₂ hn h₂ hr₂
    refine wp_bind.mpr (wp_mapError.mpr (wp_diskOp (o := .updateSegmentMetadata x t) rfl ?_ ?_))
    · intro fault s' hf hs
      cases fault with
      | early written text => cases hs
      | late text =>
          cases hs
          obtain ⟨h₃, hr₃⟩ := h₂.insert
            (s₂.unsaved (StoreOp.exec (.updateSegmentMetadata x t) s₂).2) rfl rfl rfl
          exact hstored _ _ _ hn h₃ hr₃
    · intro _
      obtain ⟨h₃, hr₃⟩ := h₂.insert (StoreOp.exec (.updateSegmentMetadata x t) s₂).2 rfl rfl rfl
      exact hstored _ _ _ hn h₃ hr₃
  refine wp_bind.mpr (wp_mapError.mpr (wp_diskOp (o := .append x payload) rfl ?_ ?_))
  · intro fault s' hf hs
    cases fault with
    | early written text =>
        cases hs
        exact hearly _ _ ⟨_, _, hf⟩ ⟨fun _ => rfl, fun _ => rfl⟩
          ⟨h₁.next, Store.currentKey_congr h₁.keyManager⟩
    | late text =>
        cases hs
        obtain ⟨h₂, hr₂⟩ := h₁.insert
          (s₁.unsaved (StoreOp.exec (.append x payload) s₁).2) rfl rfl rfl
        refine hstored _ _ _ (fun written text' k => ?_) h₂ hr₂
        rw [hf] at k
        cases k
  · intro hf
    obtain ⟨h₂, hr₂⟩ := h₁.insert (StoreOp.exec (.append x payload) s₁).2 rfl rfl rfl
    refine hupdate _ _ (fun written text k => ?_) h₂ hr₂
    cases hf _ k

/-! ### One chunk -/

/-- A dedup hit on a segment that is there: the count is raised, unless it is saturated. -/
theorem wp_incrementRefcount_io {x : SegmentId} {t : Segment} (ht : s.seg x = some t)
    {Q : Except Error Segment → Store P × Nat → Prop}
    (hraised : ∀ r s', saturatingSucc t.refCount ≠ t.refCount → s.Changed s' → s.Onward s' →
      Q r (s', n + 1))
    (hfail : ∀ e s', saturatingSucc t.refCount = t.refCount → s.Traceless s' → s.Onward s' →
      (∃ text, faults n = some (.late text)) → Q (.error e) (s', n + 1))
    (hsame : ∀ t' s', saturatingSucc t.refCount = t.refCount → s.Traceless s' → s.Onward s' →
      (∀ text, faults n ≠ some (.late text)) → Q (.ok t') (s', n + 1)) :
    (Prog.perform (S := StoreSig) (.incrementRefcount x) : Native Segment).wp (Io faults)
      (fun _ _ => True) Q (s, n) := by
  have hl : s.nvram.segmentMap.lookup x = some t := ht
  set u : Segment := { t with
    refCount := saturatingSucc t.refCount
    deduplicated := decide (1 < saturatingSucc t.refCount)
    accessCount := saturatingSucc t.accessCount }
  have hexec : StoreOp.exec (.incrementRefcount x) s =
      (.ok u, { s with nvram := s.nvram.withMap (s.nvram.segmentMap.insert x u) }) := by
    simp only [StoreOp.exec, NvramLog.incrementRefcount, hl]
    rfl
  -- what the raised segment means for the counts
  have hx : ∀ s' : Store P, s'.nvram.segmentMap = s.nvram.segmentMap.insert x u →
      s'.refs x = some (saturatingSucc t.refCount) ∧ ∀ y, y ≠ x → s'.refs y = s.refs y := by
    intro s' hm
    unfold Store.refs Store.seg
    rw [hm]
    refine ⟨by rw [Table.lookup_insert, if_pos rfl, Option.map_some], fun y hy => ?_⟩
    rw [Table.lookup_insert, if_neg hy]
  have hold : s.refs x = some t.refCount := congrArg (Option.map Segment.refCount) ht
  have hany : ∀ (r : Except Error Segment) (s' : Store P),
      s'.nvram.segmentMap = s.nvram.segmentMap.insert x u →
      s'.registry.contentStore = s.registry.contentStore → s.Onward s' →
      (saturatingSucc t.refCount = t.refCount → s.Traceless s' → Q r (s', n + 1)) →
      Q r (s', n + 1) := by
    intro r s' hm hc ho hsat
    obtain ⟨hself, hothers⟩ := hx s' hm
    by_cases he : saturatingSucc t.refCount = t.refCount
    · refine hsat he ⟨fun y => ?_, fun h => congrArg (fun m => m.lookup h) hc⟩
      by_cases hy : y = x
      · subst hy
        rw [hself, hold, he]
      · exact hothers y hy
    · exact hraised _ _ he (.raised x t.refCount hold he hself hothers) ho
  refine wp_diskOp (o := .incrementRefcount x) ?_ ?_ ?_
  · simp only [StoreOp.touchesDisk, hl, Option.isSome_some]
  · intro fault s' hf hs
    cases fault with
    | early written text => cases hs
    | late text =>
        simp only [StoreOp.strike, hexec, Option.some.injEq] at hs
        subst hs
        exact hany _ _ rfl rfl ⟨Nat.le_refl _, Store.currentKey_congr rfl⟩ fun he hq =>
          hfail _ _ he hq ⟨Nat.le_refl _, Store.currentKey_congr rfl⟩ ⟨text, hf⟩
  · intro hf
    rw [hexec]
    refine hany _ _ rfl rfl ⟨Nat.le_refl _, Store.currentKey_congr rfl⟩ fun he hq =>
      hsame _ _ he hq ⟨Nat.le_refl _, Store.currentKey_congr rfl⟩ fun text k => ?_
    cases hf _ k

section
variable {i : Nat} {chunk : Bytes} {hash : ContentHash} {x : SegmentId}

theorem not_marks_of_none (hp : preparedHash P (s.keyFor policy) policy chunk = none) :
    ¬ Marks faults s policy i chunk ∧ ¬ Passes faults s policy i chunk := by
  refine ⟨?_, ?_⟩
  · rintro ⟨hash, h, -⟩
    rw [hp] at h
    cases h
  · rintro ⟨hash, x, t, h, -⟩
    rw [hp] at h
    cases h

variable (hp : preparedHash P (s.keyFor policy) policy chunk = some hash)
include hp

theorem marks_miss (hm : s.hit policy hash = none) :
    (Marks faults s policy i chunk ↔ ∀ written text, faults i ≠ some (.early written text)) ∧
      ¬ Passes faults s policy i chunk := by
  refine ⟨⟨?_, fun h => ⟨hash, hp, by rw [hm]; exact h⟩⟩, ?_⟩
  · rintro ⟨hash', h, hk⟩
    rw [hp] at h
    cases h
    rw [hm] at hk
    exact hk
  · rintro ⟨hash', x, t, h, hx, -⟩
    rw [hp] at h
    cases h
    rw [hm] at hx
    cases hx

theorem marks_hit (hm : s.hit policy hash = some x) :
    (Marks faults s policy i chunk ↔ ∃ v, s.refs x = some v ∧ saturatingSucc v ≠ v) ∧
    (Passes faults s policy i chunk ↔ (∃ v, s.refs x = some v ∧ saturatingSucc v = v) ∧
      ∀ text, faults i ≠ some (.late text)) := by
  refine ⟨⟨?_, fun h => ⟨hash, hp, by rw [hm]; exact h⟩⟩, ?_, ?_⟩
  · rintro ⟨hash', h, hk⟩
    rw [hp] at h
    cases h
    rw [hm] at hk
    exact hk
  · rintro ⟨hash', x', t, h, hx, ht, he, hf⟩
    rw [hp] at h
    cases h
    rw [hm] at hx
    cases hx
    exact ⟨⟨t, ht, he⟩, hf⟩
  · rintro ⟨⟨t, ht, he⟩, hf⟩
    exact ⟨hash, x, t, hp, hm, ht, he, hf⟩

end

/-- What a trace is does not depend on anything but the counts. -/
theorem changed_congr (h : s.Changed s') {s'' : Store P} (hr : ∀ x, s''.refs x = s'.refs x) :
    s.Changed s'' := by
  cases h with
  | stored x hx hs others =>
      exact .stored x hx (hr x ▸ hs) fun y hy => (hr y).trans (others y hy)
  | raised x v hv hne hv' others =>
      exact .raised x v hv hne ((hr x).trans hv') fun y hy => (hr y).trans (others y hy)

theorem changed_of_quiet {s₁ : Store P} (hq : s.Traceless s₁)
    (hn : s₁.registry.nextSegmentId = s.registry.nextSegmentId) (h : s₁.Changed s') :
    s.Changed s' := by
  cases h with
  | stored x hx hs others =>
      exact .stored x (hn ▸ hx) hs fun y hy => (others y hy).trans (hq.refs y)
  | raised x v hv hne hv' others =>
      exact .raised x v ((hq.refs x).symm.trans hv) hne hv' fun y hy =>
        (others y hy).trans (hq.refs y)

theorem Elsewhere.changed {s₁ : Store P} (h : Elsewhere s₁ s' ⟨s₁.registry.nextSegmentId⟩)
    (hx : s'.refs ⟨s₁.registry.nextSegmentId⟩ ≠ none) (hq : s.Traceless s₁)
    (hr : s₁.registry = s.registry) : s.Changed s' :=
  .stored _ (Nat.le_of_eq (congrArg (·.nextSegmentId) hr).symm) hx fun y hy =>
    (h.refs y hy).trans (hq.refs y)

/-- What is stored under a new identifier leaves a trace, once its payload is written. -/
theorem wp_storeNew_marks {s₁ : Store P} {chunk : Bytes} {view : ContentHash} {payload : Bytes}
    {r : CompressionResult} {hash : Option ContentHash} {m : Option EncryptionMetadata}
    {Q : Except Error SegmentId → Store P × Nat → Prop} (hq₁ : s.Traceless s₁) (ho₁ : s.Onward s₁)
    (hr : s₁.registry = s.registry)
    (hp : preparedHash P (s.keyFor policy) policy chunk = some view)
    (hm : s.hit policy view = none)
    (hstop : ∀ e s', s.Traceless s' → s.Onward s' → ¬ Marks faults s policy n chunk →
      ¬ Passes faults s policy n chunk → Q (.error e) (s', n + 1))
    (hmark : ∀ a s' n', Marks faults s policy n chunk → s.Changed s' → s.Onward s' →
      Q a (s', n')) :
    (storeNew payload r hash m).wp (Io faults) (fun _ _ => True) Q (s₁, n) := by
  refine wp_storeNew_io (fun e s' hf hq ho => ?_) fun a s' n' hf h hx => ?_
  · obtain ⟨written, text, hf⟩ := hf
    exact hstop _ _ (hq₁.trans hq) (ho₁.trans ho) (fun k => (marks_miss hp hm).1.mp k _ _ hf)
      (marks_miss hp hm).2
  · exact hmark _ _ _ ((marks_miss hp hm).1.mpr hf) (h.changed hx hq₁ hr) (ho₁.trans h.onward)

/-- **One chunk** stops the write without a trace, passes without a trace, or leaves one. -/
theorem wp_writeChunk_io {st : WriteState} {chunk : Bytes × Nat}
    {Q : Except Error WriteState → Store P × Nat → Prop}
    (hstop : ∀ e s' n', s.Traceless s' → s.Onward s' → ¬ Marks faults s policy n chunk.1 →
      ¬ Passes faults s policy n chunk.1 → Q (.error e) (s', n'))
    (hpass : ∀ st' s', s.Traceless s' → s.Onward s' → ¬ Marks faults s policy n chunk.1 →
      Passes faults s policy n chunk.1 → Q (.ok st') (s', n + 1))
    (hmark : ∀ r s' n', Marks faults s policy n chunk.1 → s.Changed s' → s.Onward s' →
      Q r (s', n')) :
    (writeChunk P policy st chunk).wp (Io faults) (fun _ _ => True) Q (s, n) := by
  unfold writeChunk
  refine wp_bind.mpr (wp_lift.mpr ?_)
  cases hc : compressSegment P chunk.1 policy.compression with
  | error e =>
      have hp : preparedHash P (s.keyFor policy) policy chunk.1 = none := by
        simp only [preparedHash, hc]
      exact hstop _ _ _ (.refl s) (.refl s) (not_marks_of_none hp).1 (not_marks_of_none hp).2
  | ok viewed =>
      obtain ⟨view, r⟩ := viewed
      refine wp_bind.mpr (wp_encryptionKey_io fun s₁ hr hn hk => wp_bind.mpr (wp_lift.mpr ?_))
      have hq₁ : s.Traceless s₁ :=
        ⟨fun x => by unfold Store.refs Store.seg; rw [hn],
          fun h => by unfold Store.content; rw [hr]⟩
      have ho₁ : s.Onward s₁ := ⟨by rw [hr], hk⟩
      cases hs : sealView P (s.keyFor policy) view (hashContent P view) with
      | error e =>
          have hp : preparedHash P (s.keyFor policy) policy chunk.1 = none := by
            simp only [preparedHash, hc, hs]
          exact hstop _ _ _ hq₁ ho₁ (not_marks_of_none hp).1 (not_marks_of_none hp).2
      | ok final =>
          have hp : preparedHash P (s.keyFor policy) policy chunk.1 =
              some (hashContent P view) := by
            simp only [preparedHash, hc, hs]
          show Prog.wp (Io faults) (fun _ _ => True) Q (if policy.dedupe then _ else _) (s₁, n)
          by_cases hd : policy.dedupe
          · -- with deduplication
            rw [if_pos hd]
            have hhit : s.hit policy (hashContent P view) = s.content (hashContent P view) :=
              if_pos hd
            refine wp_bind.mpr (wp_memoryOp (o := .lookupContent _) rfl ?_)
            have hlookup : s₁.registry.lookupContent (hashContent P view) =
                s.content (hashContent P view) := by rw [hr]; rfl
            simp only [StoreOp.exec, hlookup]
            cases hl : s.content (hashContent P view) with
            | none =>
                refine wp_bind.mpr (wp_storeNew_marks hq₁ ho₁ hr hp (hhit.trans hl) ?_ ?_)
                · exact fun e s' hq ho hm hnp => hstop _ _ _ hq ho hm hnp
                · intro a s' n' hm hchanged ho
                  cases a with
                  | error e => exact hmark _ _ _ hm hchanged ho
                  | ok x =>
                      refine wp_bind.mpr (wp_mapError.mpr (wp_diskOp (o := .registerContent _ x)
                        rfl ?_ fun _ => ?_))
                      · intro fault s'' hf hs
                        cases fault with
                        | early written text => cases hs
                        | late text =>
                            cases hs
                            exact hmark _ _ _ hm (changed_congr hchanged fun _ => rfl)
                              (ho.trans ⟨Nat.le_refl _, Store.currentKey_congr rfl⟩)
                      · exact hmark _ _ _ hm (changed_congr hchanged fun _ => rfl)
                          (ho.trans ⟨Nat.le_refl _, Store.currentKey_congr rfl⟩)
            | some x =>
                have hm := hhit.trans hl
                have hseg : s₁.seg x = s.seg x := by unfold Store.seg; rw [hn]
                refine wp_bind.mpr (wp_mapError.mpr ?_)
                cases ht : s.seg x with
                | none =>
                    -- the segment it names is missing
                    have hnone : s₁.nvram.segmentMap.lookup x = none := hseg.trans ht
                    have hrefs : s.refs x = none := Store.refs_eq_none.mpr ht
                    refine wp_memoryOp (o := .incrementRefcount x) ?_ ?_
                    · simp only [StoreOp.touchesDisk, hnone, Option.isSome_none]
                    · simp only [StoreOp.exec, NvramLog.incrementRefcount, hnone]
                      refine hstop _ _ _ hq₁ ho₁ (fun k => ?_) fun k => ?_
                      · obtain ⟨v, h, -⟩ := (marks_hit hp hm).1.mp k
                        rw [hrefs] at h
                        cases h
                      · obtain ⟨⟨v, h, -⟩, -⟩ := (marks_hit hp hm).2.mp k
                        rw [hrefs] at h
                        cases h
                | some t =>
                    have hrefs : s.refs x = some t.refCount :=
                      congrArg (Option.map Segment.refCount) ht
                    have unmarked : saturatingSucc t.refCount = t.refCount →
                        ¬ Marks faults s policy n chunk.1 := fun he k => by
                      obtain ⟨v, h, hne⟩ := (marks_hit hp hm).1.mp k
                      rw [hrefs] at h
                      cases h
                      exact hne he
                    refine wp_incrementRefcount_io (hseg.trans ht) ?_ ?_ ?_
                    · intro a s' hne hc ho
                      have hmarks : Marks faults s policy n chunk.1 :=
                        (marks_hit hp hm).1.mpr ⟨_, hrefs, hne⟩
                      have hc' := changed_of_quiet hq₁ (congrArg (·.nextSegmentId) hr) hc
                      cases a with
                      | error e => exact hmark _ _ _ hmarks hc' (ho₁.trans ho)
                      | ok u => exact hmark _ _ _ hmarks hc' (ho₁.trans ho)
                    · intro e s' he hq ho hf
                      refine hstop _ _ _ (hq₁.trans hq) (ho₁.trans ho) (unmarked he) fun k => ?_
                      obtain ⟨text, hf⟩ := hf
                      exact ((marks_hit hp hm).2.mp k).2 text hf
                    · intro u s' he hq ho hf
                      exact hpass _ _ (hq₁.trans hq) (ho₁.trans ho) (unmarked he)
                        ((marks_hit hp hm).2.mpr ⟨⟨_, hrefs, he⟩, hf⟩)
          · -- without
            rw [if_neg hd]
            refine wp_bind.mpr (wp_storeNew_marks hq₁ ho₁ hr hp (if_neg hd) ?_ ?_)
            · exact fun e s' hq ho hm hnp => hstop _ _ _ hq ho hm hnp
            · intro a s' n' hm hchanged ho
              cases a with
              | error e => exact hmark _ _ _ hm hchanged ho
              | ok x => exact hmark _ _ _ hm hchanged ho

/-! ### All chunks -/

theorem marks_congr {i : Nat} {chunk : Bytes} (hq : s₀.Traceless s) (ho : s₀.Onward s) :
    (Marks faults s policy i chunk ↔ Marks faults s₀ policy i chunk) ∧
      (Passes faults s policy i chunk ↔ Passes faults s₀ policy i chunk) := by
  have hhit : ∀ hash, s.hit policy hash = s₀.hit policy hash := fun hash => by
    unfold Store.hit
    rw [hq.content]
  unfold Marks Passes
  simp only [ho.keyFor policy, hhit, hq.refs, and_self]

/-- The chunks of a list can be prepared. -/
def Prepares (s : Store P) (policy : Policy) (l : List Bytes) : Prop :=
  ∀ chunk ∈ l, preparedHash P (s.keyFor policy) policy chunk ≠ none

theorem prepared_of_marks {i : Nat} {chunk : Bytes} (h : Marks faults s policy i chunk) :
    preparedHash P (s.keyFor policy) policy chunk ≠ none := by
  obtain ⟨hash, h, -⟩ := h
  exact Option.ne_none_iff_exists'.mpr ⟨hash, h⟩

theorem prepared_of_passes {i : Nat} {chunk : Bytes} (h : Passes faults s policy i chunk) :
    preparedHash P (s.keyFor policy) policy chunk ≠ none := by
  obtain ⟨hash, _, _, h, -⟩ := h
  exact Option.ne_none_iff_exists'.mpr ⟨hash, h⟩

variable {Q : Except Error WriteState → Store P × Nat → Prop}

/-- Once there is a trace, it stays. -/
theorem wp_writeChunks_traced (hf : s₀.Fresh) {l : List (Bytes × Nat)} {st : WriteState}
    (ht : s₀.Traced s) (ho : s₀.Onward s)
    (hq : ∀ r s' n', s₀.Traced s' → s₀.Onward s' →
      (∀ st', r = .ok st' → Prepares s₀ policy (l.map Prod.fst)) → Q r (s', n')) :
    (l.foldlM (writeChunk P policy) st).wp (Io faults) (fun _ _ => True) Q (s, n) := by
  refine wp_foldlM (fun rest _ S => s₀.Traced S.1 ∧ s₀.Onward S.1 ∧
    (Prepares s₀ policy (rest.map Prod.fst) → Prepares s₀ policy (l.map Prod.fst)))
    ?_ ?_ _ _ _ ⟨ht, ho, id⟩
  · rintro chunk rest st ⟨s, n⟩ ⟨ht, ho, hl⟩
    -- the rest of the list, once this chunk could be prepared
    have hrest : preparedHash P (s.keyFor policy) policy chunk.1 ≠ none →
        Prepares s₀ policy (rest.map Prod.fst) → Prepares s₀ policy (l.map Prod.fst) := by
      intro hp h
      refine hl fun c hc => ?_
      rcases List.mem_cons.mp hc with rfl | hc
      · rwa [ho.keyFor policy] at hp
      · exact h c hc
    refine wp_writeChunk_io ?_ ?_ ?_
    · intro e s' n' hq' ho' _ _
      exact hq _ _ _ (ht.quiet hq') (ho.trans ho') nofun
    · intro st' s' hq' ho' _ hp
      exact ⟨ht.quiet hq', ho.trans ho', hrest (prepared_of_passes hp)⟩
    · intro r s' n' hm hc ho'
      have ht' := ht.changed hc hf ho
      cases r with
      | error e => exact hq _ _ _ ht' (ho.trans ho') nofun
      | ok st' => exact ⟨ht', ho.trans ho', hrest (prepared_of_marks hm)⟩
  · rintro st ⟨s, n⟩ ⟨ht, ho, hl⟩
    exact hq _ _ _ ht ho fun _ _ => hl nofun

/-- **The chunks**, from the first one on: there is a trace if and only if one that is reached
leaves one. -/
theorem wp_writeChunks_io (hf : s₀.Fresh) :
    ∀ (l : List Bytes) (i : Nat) (st : WriteState) (s : Store P) {Q : Except Error WriteState →
        Store P × Nat → Prop}, s₀.Traceless s → s₀.Onward s →
      (∀ r s' n', s₀.Traceless s' ∧ Calm faults s₀ policy i l ∨
          s₀.Traced s' ∧ ¬ Calm faults s₀ policy i l →
        (∀ st', r = .ok st' → Prepares s₀ policy l) → Q r (s', n')) →
      ((l.zipIdx i).foldlM (writeChunk P policy) st).wp (Io faults) (fun _ _ => True) Q (s, i)
  | [], i, st, s, Q, hq, ho, hQ => hQ _ _ _ (.inl ⟨hq, trivial⟩) fun _ _ => nofun
  | chunk :: l, i, st, s, Q, hq, ho, hQ => by
      have hmarks : Marks faults s policy i chunk ↔ Marks faults s₀ policy i chunk :=
        (marks_congr hq ho).1
      have hpasses : Passes faults s policy i chunk ↔ Passes faults s₀ policy i chunk :=
        (marks_congr hq ho).2
      rw [List.zipIdx_cons, List.foldlM_cons]
      refine wp_bind.mpr (wp_writeChunk_io ?_ ?_ ?_)
      · -- it stops the write
        intro e s' n' hq' _ hm hp
        refine hQ _ _ _ (.inl ⟨hq.trans hq', mt hmarks.mpr hm, fun k => ?_⟩) nofun
        exact absurd (hpasses.mpr k) hp
      · -- it passes
        intro st' s' hq' ho' hm hp
        refine wp_writeChunks_io hf l (i + 1) st' s' (hq.trans hq') (ho.trans ho') ?_
        intro r s'' n'' hor hprep
        refine hQ _ _ _ (hor.imp (And.imp_right fun hc => ⟨mt hmarks.mpr hm, fun _ => hc⟩)
          (And.imp_right fun hc k => hc (k.2 (hpasses.mp hp)))) fun u hu c hc => ?_
        rcases List.mem_cons.mp hc with rfl | hc
        · exact ho.keyFor policy ▸ prepared_of_passes hp
        · exact hprep u hu c hc
      · -- it leaves a trace
        intro r s' n' hm hc ho'
        have ht := hc.traced hq (hf.mono hq.refs ho)
        have hnot : ¬ Calm faults s₀ policy i (chunk :: l) := fun k => k.1 (hmarks.mp hm)
        cases r with
        | error e => exact hQ _ _ _ (.inr ⟨ht, hnot⟩) nofun
        | ok st' =>
            refine wp_writeChunks_traced hf ht (ho.trans ho') fun r s'' n'' ht' _ hprep => ?_
            refine hQ _ _ _ (.inr ⟨ht', hnot⟩) fun u hu c hmem => ?_
            rcases List.mem_cons.mp hmem with rfl | hmem
            · exact ho.keyFor policy ▸ prepared_of_marks hm
            · exact hprep u hu c (by rwa [List.zipIdx_map_fst])

/-! ### The write -/

variable {capsuleId : CapsuleId} {data : Bytes}

/-- **The write**: there is a trace if and only if a chunk that is reached leaves one; and a write
that succeeds could prepare every chunk. -/
theorem wp_writeCapsuleWithPolicy_io (hf : s.Fresh)
    {Q : Except Error CapsuleId → Store P × Nat → Prop}
    (hQ : ∀ r s' n', s.Traceless s' ∧ Calm faults s policy 0 (chunks SEGMENT_SIZE data) ∨
        s.Traced s' ∧ ¬ Calm faults s policy 0 (chunks SEGMENT_SIZE data) →
      (∀ id, r = .ok id → Prepares s policy (chunks SEGMENT_SIZE data)) → Q r (s', n')) :
    (writeCapsuleWithPolicy P capsuleId data policy).wp (Io faults) (fun _ _ => True) Q (s, 0) := by
  unfold writeCapsuleWithPolicy
  refine wp_bind.mpr (wp_writeChunks_io hf _ 0 _ s (.refl s) (.refl s) ?_)
  intro r s₁ n₁ hor hprep
  -- what follows changes the capsules only
  have hQ' : ∀ r' s' n', s₁.Traceless s' →
      (∀ id, r' = .ok id → Prepares s policy (chunks SEGMENT_SIZE data)) → Q r' (s', n') :=
    fun r' s' n' hq => hQ r' s' n' (hor.imp (And.imp_left fun k => k.trans hq)
      (And.imp_left fun k => k.quiet hq))
  cases r with
  | error e => exact hQ' _ _ _ (.refl s₁) nofun
  | ok st =>
      have hp := hprep st rfl
      have hcreate : ∀ s₂ : Store P, s₁.Traceless s₂ → Prog.wp (Io faults) (fun _ _ => True) Q (do
          (Native.createCapsuleWithSegments capsuleId data.length st.segmentIds policy).mapError
            (mapRegistryError "create_capsule_with_segments")
          return capsuleId) (s₂, n₁) := by
        intro s₂ hq
        have hrest : ∀ r s', s₂.Traceless s' → ∀ n', Q r (s', n') := fun r s' hq' n' =>
          hQ' r s' n' (hq.trans hq') fun _ _ => hp
        refine wp_bind.mpr (wp_mapError.mpr ?_)
        cases hl : s₂.registry.capsules.lookup capsuleId with
        | some c =>
            refine wp_memoryOp (o := .createCapsuleWithSegments _ _ _ _) ?_ ?_
            · simp only [StoreOp.touchesDisk, hl, Option.isNone_some]
            · simp only [StoreOp.exec, CapsuleRegistry.createCapsuleWithSegments, hl]
              exact hrest _ _ (.refl s₂) _
        | none =>
            have hexec : s₂.Traceless (StoreOp.exec
                (.createCapsuleWithSegments capsuleId data.length st.segmentIds policy) s₂).2 := by
              simp only [StoreOp.exec, CapsuleRegistry.createCapsuleWithSegments, hl]
              exact ⟨fun _ => rfl, fun _ => rfl⟩
            refine wp_diskOp (o := .createCapsuleWithSegments _ _ _ _) ?_ ?_ fun _ => ?_
            · simp only [StoreOp.touchesDisk, hl, Option.isNone_none]
            · intro fault s' _ hs
              cases fault with
              | early written text =>
                  cases hs
                  exact hrest _ _ (.refl s₂) _
              | late text =>
                  cases hs
                  exact hrest (.error _) (s₂.unsaved (StoreOp.exec (.createCapsuleWithSegments
                    capsuleId data.length st.segmentIds policy) s₂).2)
                    ⟨hexec.refs, hexec.content⟩ _
            · have hok : (StoreOp.exec (.createCapsuleWithSegments capsuleId data.length
                  st.segmentIds policy) s₂).1 = .ok () := by
                simp only [StoreOp.exec, CapsuleRegistry.createCapsuleWithSegments, hl]
                rfl
              rw [hok]
              exact hrest (.ok _) _ hexec _
      show Prog.wp (Io faults) (fun _ _ => True) Q (do
        if 0 < st.dedupStats.bytesSaved then _
        _) (s₁, n₁)
      split
      · refine wp_bind.mpr (wp_mapError.mpr (wp_memoryOp (o := .addDedupedBytes _ _) rfl ?_))
        refine hcreate _ ⟨fun _ => rfl, fun h => ?_⟩
        simp only [StoreOp.exec, Store.onRegistry, CapsuleRegistry.addDedupedBytes]
        unfold Store.content
        split <;> rfl
      · exact hcreate _ (.refl s₁)

/-- **A failed write leaves no trace** if and only if no chunk that it reaches leaves one. -/
theorem writeCapsuleWithPolicy_traceless_iff {e : Error} {n' : Nat} (hf : s.Fresh)
    (hr : (writeCapsuleWithPolicy P capsuleId data policy).run (StoreOp.execIo faults) (s, 0) =
      (.error e, (s', n'))) :
    s.Traceless s' ↔ Calm faults s policy 0 (chunks SEGMENT_SIZE data) := by
  have hw : (writeCapsuleWithPolicy P capsuleId data policy).wp (Io faults) (fun _ _ => True)
      (fun _ S => s.Traceless S.1 ↔ Calm faults s policy 0 (chunks SEGMENT_SIZE data)) (s, 0) :=
    wp_writeCapsuleWithPolicy_io hf fun r s' n' hor _ => by
      rcases hor with ⟨hq, hc⟩ | ⟨ht, hc⟩
      · exact ⟨fun _ => hc, fun _ => hq⟩
      · exact ⟨fun k => absurd k ht.not_traceless, fun k => absurd k hc⟩
  have hrun := wp_run hw
  rwa [hr] at hrun

/-- A chunk that is not compressed can be sealed if it has a block, or if there is no key. -/
theorem preparedHash_uncompressed {key : Option (UInt32 × XtsKeyPair)} {chunk : Bytes}
    (hc : policy.compression = .none) :
    preparedHash P key policy chunk =
      if key.isSome ∧ chunk.length < 16 then none else some (hashContent P chunk) := by
  have hv : compressSegment P chunk policy.compression =
      .ok (chunk, .identity chunk (some .ineffective)) := if_pos hc
  simp only [preparedHash, hv]
  cases key with
  | none => simp [sealView]
  | some k =>
      by_cases hl : chunk.length < 16
      · simp [sealView, encryptSegment, Xts.encrypt, hl, Bind.bind, Except.bind]
      · simp [sealView, encryptSegment, Xts.encrypt, hl, Bind.bind, Except.bind, Pure.pure,
          Except.pure]

theorem writeCapsuleWithPolicy_traceless_iff_full :
    (Store.empty (P := .stored) none).Traceless
      ((writeCapsuleWithPolicy .stored ⟨0⟩ [1] {}).run
        (StoreOp.execIo fun _ => some (.early 0 "No space left on device"))
        (Store.empty none, 0)).2.1 := by
  have hr : ((writeCapsuleWithPolicy .stored ⟨0⟩ [1] {}).run
      (StoreOp.execIo fun _ => some (.early 0 "No space left on device"))
      (Store.empty (P := .stored) none, 0)).1 =
        .error (.nvram "append" (.msg "No space left on device")) := rfl
  refine (writeCapsuleWithPolicy_traceless_iff (fun _ _ h => by cases h)
    (Prod.ext hr rfl)).mpr ?_
  refine ⟨?_, fun _ => trivial⟩
  rintro ⟨hash, -, h⟩
  exact h 0 _ rfl

/-- The policy of the failing write: encryption, and nothing else. -/
def plainEncrypted : Policy where
  compression := .none
  encryption := .xtsAes256 none

/-- **A failed write leaves a trace**: the last chunk of 4 MiB and one byte is too short to be
encrypted, and the first one is stored. -/
theorem not_writeCapsuleWithPolicy_traceless :
    ¬ ∀ (P : Primitives) (faults : Nat → Option Fault) (s s' : Store P) (capsuleId : CapsuleId)
      (data : Bytes) (policy : Policy) (e : Error) (n' : Nat), s.Fresh →
      (writeCapsuleWithPolicy P capsuleId data policy).run (StoreOp.execIo faults) (s, 0) =
        (.error e, (s', n')) → s.Traceless s' := by
  intro h
  have hc := h .stored (fun _ => none)
  set s : Store .stored := .empty (some (.new .stored (.ofPrefix 32 [])))
  have hf : s.Fresh := fun _ _ k => by cases k
  have hkey : (s.keyFor plainEncrypted).isSome = true := rfl
  -- two chunks
  have hfull : ∃ full : Bytes, full.length = SEGMENT_SIZE :=
    ⟨List.replicate SEGMENT_SIZE 0, List.length_replicate⟩
  obtain ⟨full, hfull⟩ := hfull
  have hne : full ≠ [] := fun k => by
    rw [k] at hfull
    cases hfull
  have hchunks : chunks SEGMENT_SIZE (full ++ [0]) = [full, [0]] := by
    rw [chunks_append hne hfull, chunks_of_length_le (l := [0]) (by simp) (by decide)]
  have hw : (writeCapsuleWithPolicy .stored ⟨0⟩ (full ++ [0]) plainEncrypted).wp
      (Io fun _ => none) (fun _ _ => True)
      (fun r S => s.Traced S.1 ∧ ∀ id, r ≠ .ok id) (s, 0) := by
    refine wp_writeCapsuleWithPolicy_io hf fun r s' n' hor hok => ⟨?_, fun id hr => ?_⟩
    · -- the first leaves a trace
      refine (hor.resolve_left fun k => ?_).1
      rw [hchunks] at k
      refine k.2.1 ⟨hashContent .stored full, ?_, fun _ _ => nofun⟩
      rw [preparedHash_uncompressed rfl, if_neg]
      rw [hfull]
      exact fun k => absurd k.2 (by decide)
    · -- the second cannot be encrypted
      have hprep := hok id hr [0] (by rw [hchunks]; simp)
      rw [preparedHash_uncompressed rfl, if_pos ⟨hkey, by decide⟩] at hprep
      exact hprep rfl
  have hrun := wp_run hw
  generalize hr : (writeCapsuleWithPolicy .stored ⟨0⟩ (full ++ [0]) plainEncrypted).run
    (StoreOp.execIo fun _ => none) (s, 0) = run at hrun
  obtain ⟨r, s', n'⟩ := run
  cases r with
  | ok id => exact hrun.2 id rfl
  | error e => exact hrun.1.not_traceless (hc s s' ⟨0⟩ (full ++ [0]) plainEncrypted e n' hf hr)

end WritePipeline

end Space

import Space.Scaling.Replication
import Space.Codec.Stored

/-!
# Scaling — Sovereignty

When data under local sovereignty leaves its node.

* `Numbered`: the segments that are listed or registered were numbered by the registry.
* `wp_collect`, `wp_finishAsync`: a write lists segments it numbered itself and segments the content
  store named when it began, and it creates one capsule.
* `Keeps`: the calls that let nothing local leave.  A zero-RPO write with peers does, when its own
  policy is local or a chunk of it is a segment of a local capsule; so does a heat spike.
* `meshRun_sovereign`: a run of calls that keep lets nothing local leave.
-/

namespace Space
open Support Prog

variable {P : Primitives}

/-- Every segment a capsule lists or a hash names was numbered by the registry. -/
structure Store.Numbered (s : Store P) : Prop where
  capsules : ∀ id c, s.registry.capsules.lookup id = some c →
    ∀ x ∈ c.segments, x.val < s.registry.nextSegmentId
  content : ∀ h x, s.registry.contentStore.lookup h = some x → x.val < s.registry.nextSegmentId

theorem Store.numbered_empty (km : Option (KeyManager P)) : (Store.empty km).Numbered where
  capsules := fun id _ h => by cases (AList.lookup_empty id).symm.trans h
  content := fun hash _ h => by cases (AList.lookup_empty hash).symm.trans h

/-- What a write hashes: the compressed form of one of its chunks. -/
def ViewHash (P : Primitives) (policy : Policy) (data : Bytes) (hash : ContentHash) : Prop :=
  ∃ chunk ∈ chunks SEGMENT_SIZE data, ∃ view r,
    compressSegment P chunk policy.compression = .ok (view, r) ∧ hash = hashContent P view

/-- A segment a deduplicating write finds for one of its chunks. -/
def Hit (policy : Policy) (data : Bytes) (s : Store P) (x : SegmentId) : Prop :=
  policy.dedupe = true ∧ ∃ hash, ViewHash P policy data hash ∧
    s.registry.contentStore.lookup hash = some x

/-! ### The segments of a write -/

section
variable {policy : Policy} {data : Bytes} {s₀ s : Store P} {st : AsyncState}

/-- Nothing but the segment counter has changed in the registry. -/
structure Still (s₀ s : Store P) : Prop where
  capsules : s.registry.capsules = s₀.registry.capsules
  content : s.registry.contentStore = s₀.registry.contentStore
  next : s₀.registry.nextSegmentId ≤ s.registry.nextSegmentId

/-- A segment that was numbered since `s₀`. -/
def Drawn (s₀ s : Store P) (x : SegmentId) : Prop :=
  s₀.registry.nextSegmentId ≤ x.val ∧ x.val < s.registry.nextSegmentId

/-- What the coordinator has collected. -/
structure Collected (policy : Policy) (data : Bytes) (s₀ : Store P) (st : AsyncState)
    (s : Store P) : Prop where
  still : Still s₀ s
  staged : ∀ hash x, st.stagedContent.lookup hash = some x → Drawn s₀ s x
  pending : ∀ r ∈ st.pendingRegistrations, Drawn s₀ s r.2
  ordered : ∀ i p, st.ordered.lookup i = some p → ViewHash P policy data p.contentHash
  listed : ∀ x ∈ st.segmentIds, Drawn s₀ s x ∨ Hit policy data s₀ x

/-- An operation that keeps the registry keeps what was collected. -/
theorem Collected.sameRegistry (h : Collected policy data s₀ st s) {s' : Store P}
    (e : s'.registry = s.registry) : Collected policy data s₀ st s' where
  still := ⟨e ▸ h.still.capsules, e ▸ h.still.content, e ▸ h.still.next⟩
  staged := fun hash x hx => by unfold Drawn; rw [e]; exact h.staged hash x hx
  pending := fun r hr => by unfold Drawn; rw [e]; exact h.pending r hr
  ordered := h.ordered
  listed := fun x hx => by unfold Drawn; rw [e]; exact h.listed x hx

/-- So does one that numbers a segment. -/
theorem Collected.alloc (h : Collected policy data s₀ st s) :
    Collected policy data s₀ st (StoreOp.exec .allocSegment s).2 := by
  have more : ∀ x, Drawn s₀ s x → Drawn s₀ (StoreOp.exec .allocSegment s).2 x :=
    fun x hx => ⟨hx.1, Nat.lt_succ_of_lt hx.2⟩
  exact {
    still := ⟨h.still.capsules, h.still.content, Nat.le_succ_of_le h.still.next⟩
    staged := fun hash x hx => more x (h.staged hash x hx)
    pending := fun r hr => more r.2 (h.pending r hr)
    ordered := h.ordered
    listed := fun x hx => (h.listed x hx).imp_left (more x) }

/-- What committing one chunk answers. -/
def CommittedChunk (policy : Policy) (data : Bytes) (s₀ : Store P) (st : AsyncState) :
    Except Error (CommitOutcome × NvramTransaction × Table ContentHash SegmentId) → Store P → Prop
  | .ok (outcome, t, staged), s => Collected policy data s₀ (st.committed outcome t staged) s
  | .error _, s => Collected policy data s₀ st s

theorem wp_stageNew_collected {prepared : SegmentPrepared} (h : Collected policy data s₀ st s)
    {t : NvramTransaction} :
    (WritePipeline.stageNew policy prepared t st.stagedContent).wp (StoreOp.exec (P := P)).moves
      (fun _ _ => True) (CommittedChunk policy data s₀ st) s := by
  have hs : Drawn s₀ (StoreOp.exec .allocSegment s).2 ⟨s.registry.nextSegmentId⟩ :=
    ⟨h.still.next, Nat.lt_succ_self _⟩
  refine wp_bind.mpr (wp_storeOp .allocSegment ?_)
  refine wp_bind.mpr
    (wp_storeOp (.appendSegment t ⟨s.registry.nextSegmentId⟩ prepared.finalData) ?_)
  generalize hr : StoreOp.exec (.appendSegment t ⟨s.registry.nextSegmentId⟩ prepared.finalData)
    (StoreOp.exec .allocSegment s).2 = r
  have hreg : r.2.registry = (StoreOp.exec .allocSegment s).2.registry := hr ▸ rfl
  have h' : Collected policy data s₀ st r.2 := h.alloc.sameRegistry hreg
  have hx : Drawn s₀ r.2 ⟨s.registry.nextSegmentId⟩ := by unfold Drawn; rw [hreg]; exact hs
  obtain ⟨e | ⟨segment, t'⟩, s'⟩ := r
  · exact h'
  refine wp_bind.mpr (wp_lift.mpr ?_)
  generalize t'.setSegmentMetadata _ _ = u
  cases u with
  | error e => exact h'
  | ok t'' =>
      exact {
        still := h'.still
        staged := fun hash x hl => by
          by_cases hd : policy.dedupe = true
          · simp only [AsyncState.committed, if_pos hd] at hl
            rcases Table.lookup_insert_eq_some.mp hl with ⟨_, rfl⟩ | ⟨_, hl⟩
            · exact hx
            · exact h'.staged hash x hl
          · simp only [AsyncState.committed, if_neg hd] at hl
            exact h'.staged hash x hl
        pending := fun q hq => by
          by_cases hd : policy.dedupe = true
          · simp only [AsyncState.committed, if_pos hd] at hq
            rcases List.mem_append.mp hq with hq | hq
            · exact h'.pending q hq
            · obtain rfl := List.mem_singleton.mp hq
              exact hx
          · simp only [AsyncState.committed, if_neg hd] at hq
            exact h'.pending q hq
        ordered := h'.ordered
        listed := fun x hl => by
          rcases List.mem_append.mp hl with hl | hl
          · exact h'.listed x hl
          · obtain rfl := List.mem_singleton.mp hl
            exact .inl hx }

/-- A reused segment, staged or stored. -/
theorem Collected.reuse (h : Collected policy data s₀ st s) {x : SegmentId} {d : WriteDisposition}
    {n : Nat} {t : NvramTransaction} (hd : d ≠ .newSegment)
    (hx : Drawn s₀ s x ∨ Hit policy data s₀ x) :
    Collected policy data s₀ (st.committed ⟨x, d, n, none⟩ t st.stagedContent) s where
  still := h.still
  staged := h.staged
  pending := fun q hq => by
    cases d with
    | newSegment => exact absurd rfl hd
    | reusedPersistent => exact h.pending q hq
    | reusedStaged => exact h.pending q hq
  ordered := h.ordered
  listed := fun y hl => by
    rcases List.mem_append.mp hl with hl | hl
    · exact h.listed y hl
    · obtain rfl := List.mem_singleton.mp hl
      exact hx

theorem wp_commitSegment_collected {prepared : SegmentPrepared}
    (hp : ViewHash P policy data prepared.contentHash) (h : Collected policy data s₀ st s) :
    (WritePipeline.commitSegment policy prepared st.transaction st.stagedContent).wp
      (StoreOp.exec (P := P)).moves (fun _ _ => True) (CommittedChunk policy data s₀ st) s := by
  unfold WritePipeline.commitSegment
  by_cases hd : policy.dedupe = true
  · rw [if_pos hd]
    cases hst : st.stagedContent.lookup prepared.contentHash with
    | some x =>
        simp only
        cases st.transaction.pendingSegment x with
        | none => exact h
        | some pending =>
            simp only
            refine wp_bind.mpr (wp_lift.mpr ?_)
            generalize st.transaction.withSegmentMut x Segment.reuse = u
            cases u with
            | error e => exact h
            | ok t => exact h.reuse nofun (.inl (h.staged _ _ hst))
    | none =>
        refine wp_bind.mpr (wp_storeOp (.lookupContent prepared.contentHash) ?_)
        show andThen _ _ _ _ (.ok (s.registry.contentStore.lookup prepared.contentHash)) s
        refine andThen_ok.mpr ?_
        dsimp only
        cases hl : s.registry.contentStore.lookup prepared.contentHash with
        | none => exact wp_stageNew_collected h
        | some x =>
            have hit : Hit policy data s₀ x :=
              ⟨hd, prepared.contentHash, hp, h.still.content ▸ hl⟩
            refine wp_bind.mpr (wp_storeOp (.incrementRefcount x) ?_)
            generalize hr : StoreOp.exec (.incrementRefcount x) s = r
            have h' : Collected policy data s₀ st r.2 := h.sameRegistry (hr ▸ rfl)
            obtain ⟨e | segment, s'⟩ := r
            · exact h'
            · exact h'.reuse nofun (.inr hit)
  · rw [if_neg hd]
    exact wp_stageNew_collected h

theorem wp_drain_collected :
    ∀ (n : Nat) {st : AsyncState} {s : Store P}, Collected policy data s₀ st s →
      (WritePipeline.drain policy n st).wp (StoreOp.exec (P := P)).moves (fun _ _ => True)
        (fun r s' => ∃ st', r = .ok st' ∧ Collected policy data s₀ st' s') s
  | 0, st, _, h => ⟨st, rfl, h⟩
  | n + 1, st, _, h => by
      unfold WritePipeline.drain
      cases hp : st.ordered.lookup st.nextIndex with
      | none => exact ⟨st, rfl, h⟩
      | some prepared =>
          refine wp_bind.mpr (wp_attempt.mpr (wp_mono
            (wp_commitSegment_collected (h.ordered _ _ hp) h) fun r s' hr => ?_))
          cases r with
          | error e => exact ⟨_, rfl, { hr with }⟩
          | ok o => exact wp_drain_collected n hr

/-- Asking for the key keeps the registry. -/
theorem wp_encryptionKey_same
    {Q : Except Error (Option (UInt32 × XtsKeyPair)) → Store P → Prop}
    (h : ∀ key s', s'.registry = s.registry → Q (.ok key) s') :
    (WritePipeline.encryptionKey policy).wp (StoreOp.exec (P := P)).moves
      (fun _ _ => True) Q s := by
  unfold WritePipeline.encryptionKey
  split
  · refine wp_storeOp .currentKey (h _ _ ?_)
    show s.currentKey.2.registry = _
    unfold Store.currentKey
    split <;> rfl
  · exact h none s rfl

/-- Preparing a chunk keeps the registry and hashes the chunk's view. -/
theorem wp_prepareSegment_collected {chunk : Bytes × Nat} (hc : chunk.1 ∈ chunks SEGMENT_SIZE data)
    (h : Collected policy data s₀ st s) :
    (WritePipeline.prepareSegment P policy chunk).wp (StoreOp.exec (P := P)).moves
      (fun _ _ => True) (fun r s' => Collected policy data s₀ st s' ∧
        ∀ p, r = .ok p → ViewHash P policy data p.contentHash) s := by
  have herr : ∀ (e : Error) (p : SegmentPrepared),
      (.error e : Except Error SegmentPrepared) = .ok p → ViewHash P policy data p.contentHash :=
    nofun
  unfold WritePipeline.prepareSegment
  refine wp_bind.mpr (wp_lift.mpr ?_)
  cases hcomp : compressSegment P chunk.1 policy.compression with
  | error e => exact ⟨h, herr _⟩
  | ok vr =>
      obtain ⟨view, r⟩ := vr
      have hv : ViewHash P policy data (hashContent P view) :=
        ⟨chunk.1, hc, view, r, hcomp, rfl⟩
      refine wp_bind.mpr (wp_encryptionKey_same fun key s' e => wp_bind.mpr (wp_lift.mpr ?_))
      generalize (sealView P key view (hashContent P view)).mapError Error.encryption = u
      cases u with
      | error e' => exact ⟨h.sameRegistry e, herr e'⟩
      | ok pm => exact ⟨h.sameRegistry e, fun p hp => by cases hp; exact hv⟩

theorem wp_arrive_collected {total : Nat} {chunk : Bytes × Nat}
    (hc : chunk.1 ∈ chunks SEGMENT_SIZE data) (h : Collected policy data s₀ st s) :
    (WritePipeline.arrive P policy total st chunk).wp (StoreOp.exec (P := P)).moves
      (fun _ _ => True) (fun r s' => ∃ st', r = .ok st' ∧ Collected policy data s₀ st' s') s := by
  unfold WritePipeline.arrive
  refine wp_bind.mpr (wp_attempt.mpr (wp_mono (wp_prepareSegment_collected hc h) ?_))
  rintro r s' ⟨h', hv⟩
  cases r with
  | error e => exact ⟨_, rfl, { h' with }⟩
  | ok prepared =>
      show Prog.wp _ _ _ (if st.commitError.isSome = true then _ else _) s'
      split
      · exact ⟨st, rfl, h'⟩
      · refine wp_drain_collected total { h' with ordered := fun i p hp => ?_ }
        rcases Table.lookup_insert_eq_some.mp hp with ⟨rfl, rfl⟩ | ⟨-, hp⟩
        · exact hv _ rfl
        · exact h'.ordered i p hp

/-- **The loop over the arriving chunks.** -/
theorem wp_collect {arrivals : Order (Bytes × Nat)} {t : NvramTransaction} (h : Still s₀ s) :
    (WritePipeline.collect P arrivals (chunks SEGMENT_SIZE data).zipIdx policy t).wp
      (StoreOp.exec (P := P)).moves (fun _ _ => True)
      (fun r s' => ∃ st', r = .ok st' ∧ Collected policy data s₀ st' s') s := by
  unfold WritePipeline.collect
  refine wp_foldlM (fun rest st s => (∀ c ∈ rest, c.1 ∈ chunks SEGMENT_SIZE data) ∧
    Collected policy data s₀ st s) ?_ (fun st s hs => ⟨st, rfl, hs.2⟩) _ _ _ ⟨fun c hc => ?_, ?_⟩
  · rintro c rest st s ⟨hrest, hst⟩
    refine wp_mono (wp_arrive_collected (hrest c List.mem_cons_self) hst) ?_
    rintro r s' ⟨st', rfl, h'⟩
    exact ⟨fun d hd => hrest d (List.mem_cons_of_mem _ hd), h'⟩
  · exact List.fst_mem_of_mem_zipIdx (arrivals.mem_reorder.mp hc)
  · exact {
      still := h
      staged := fun hash x hx => by cases (AList.lookup_empty hash).symm.trans hx
      pending := fun r hr => absurd hr (List.not_mem_nil)
      ordered := fun i p hp => by cases (AList.lookup_empty i).symm.trans hp
      listed := fun x hx => absurd hx (List.not_mem_nil) }

/-- The store after a write that created a capsule: the others are those of `s₀`. -/
structure CreatedUnder (policy : Policy) (segments : List SegmentId) (s₀ s : Store P) : Prop where
  numbered : s.Numbered
  capsules : ∀ id c, s.registry.capsules.lookup id = some c →
    c.policy = policy ∧ c.segments = segments ∨ s₀.registry.capsules.lookup id = some c

/-- Registering the new hashes: nothing else changes. -/
theorem wp_registerAll_drawn {all : List (ContentHash × SegmentId)} {increments : List SegmentId}
    {Q : Except Error Unit → Store P → Prop} :
    ∀ {l registered : List (ContentHash × SegmentId)} {s : Store P},
      (∀ h x, s.registry.contentStore.lookup h = some x → x.val < s.registry.nextSegmentId) →
      (∀ r ∈ l, r.2.val < s.registry.nextSegmentId) →
      (∀ s', s'.registry.capsules = s.registry.capsules →
        s'.registry.nextSegmentId = s.registry.nextSegmentId →
        (∀ h x, s'.registry.contentStore.lookup h = some x → x.val < s'.registry.nextSegmentId) →
        Q (.ok ()) s') →
      (WritePipeline.registerAll all increments l registered).wp (StoreOp.exec (P := P)).moves
        (fun _ _ => True) Q s
  | [], _, s, hc, _, hq => hq s rfl rfl hc
  | (hash, x) :: l, registered, s, hc, hl, hq => by
      unfold WritePipeline.registerAll
      refine wp_bind.mpr (wp_attempt.mpr (wp_storeOp (.registerContent hash x) ?_))
      refine wp_registerAll_drawn (fun h y hy => ?_)
        (fun r hr => hl r (List.mem_cons_of_mem _ hr)) fun s' e₁ e₂ hc' => hq s' e₁ e₂ hc'
      rcases Table.lookup_insert_eq_some.mp hy with ⟨_, rfl⟩ | ⟨_, hy⟩
      · exact hl _ List.mem_cons_self
      · exact hc h y hy

/-- One more capsule, over segments that are numbered. -/
theorem Store.Numbered.create {capsuleId : CapsuleId} {c : Capsule} (h : s.Numbered)
    (hc : ∀ x ∈ c.segments, x.val < s.registry.nextSegmentId) :
    ∀ id c', (s.registry.capsules.insert capsuleId c).lookup id = some c' →
      ∀ x ∈ c'.segments, x.val < s.registry.nextSegmentId := by
  intro id c' hl
  rcases Table.lookup_insert_eq_some.mp hl with ⟨_, rfl⟩ | ⟨_, hl⟩
  · exact hc
  · exact h.capsules id c' hl

/-- **The end of a write.** -/
theorem wp_finishAsync_created {capsuleId : CapsuleId} {size total : Nat} (hs : s₀.Numbered)
    (h : Collected policy data s₀ st s) :
    (WritePipeline.finishAsync capsuleId size policy total st).wp (StoreOp.exec (P := P)).moves
      (fun _ _ => True)
      (fun r s' => ∀ id, r = .ok id → CreatedUnder policy st.segmentIds s₀ s') s := by
  have herr : ∀ (e : Error) (s' : Store P) (id : CapsuleId),
      (.error e : Except Error CapsuleId) = .ok id →
        CreatedUnder policy st.segmentIds s₀ s' := nofun
  unfold WritePipeline.finishAsync
  cases WritePipeline.AsyncState.error st total with
  | some e =>
      refine wp_bind_any herr (fun _ s₁ => ?_) s
      refine wp_bind_any herr (fun _ s₂ => ?_) s₁
      exact herr e s₂
  | none =>
    refine wp_bind.mpr (wp_attempt.mpr (wp_storeOp (.commit st.transaction) ?_))
    generalize hr : StoreOp.exec (.commit st.transaction) s = r
    have h₁ : Collected policy data s₀ st r.2 := h.sameRegistry (hr ▸ rfl)
    obtain ⟨e | t, s₁⟩ := r
    · refine wp_bind_any herr (fun _ s₂ => ?_) s₁
      exact herr e s₂
    have hcontent : ∀ hash x, s₁.registry.contentStore.lookup hash = some x →
        x.val < s₁.registry.nextSegmentId := fun hash x hx =>
      Nat.lt_of_lt_of_le (hs.content hash x (h₁.still.content ▸ hx)) h₁.still.next
    refine wp_bind.mpr (wp_registerAll_drawn hcontent (fun r hr => (h₁.pending r hr).2)
      fun s₂ ecap enext hcontent₂ => ?_)
    -- what is listed is numbered, be it new or found
    have hlisted : ∀ x ∈ st.segmentIds, x.val < s₂.registry.nextSegmentId := fun x hx => by
      rw [enext]
      rcases h₁.listed x hx with hd | ⟨_, hash, _, hl⟩
      · exact hd.2
      · exact Nat.lt_of_lt_of_le (hs.content hash x hl) h₁.still.next
    have hnum : s₂.Numbered := ⟨fun id c hc x hx => by
      rw [ecap, h₁.still.capsules] at hc
      rw [enext]
      exact Nat.lt_of_lt_of_le (hs.capsules id c hc x hx) h₁.still.next, hcontent₂⟩
    have hcaps : s₂.registry.capsules = s₀.registry.capsules := ecap.trans h₁.still.capsules
    refine wp_bind.mpr (wp_attempt.mpr (wp_storeOp
      (.createCapsuleWithSegments capsuleId size st.segmentIds policy) ?_))
    simp only [StoreOp.exec, CapsuleRegistry.createCapsuleWithSegments]
    cases s₂.registry.capsules.lookup capsuleId with
    | some c =>
      refine wp_bind_any herr (fun _ s₃ => ?_) s₂
      refine wp_bind_any herr (fun _ s₄ => ?_) s₃
      exact herr _ s₄
    | none =>
      -- the new capsule, whatever its dedup counter
      have hcreated : ∀ bytes (r : CapsuleRegistry),
          r.capsules = s₂.registry.capsules.insert capsuleId
            ⟨capsuleId, size, st.segmentIds, policy, bytes⟩ →
          r.nextSegmentId = s₂.registry.nextSegmentId →
          r.contentStore = s₂.registry.contentStore →
          CreatedUnder policy st.segmentIds s₀ { s₂ with registry := r } := by
        intro bytes r e₁ e₂ e₃
        refine ⟨⟨fun id c hc => ?_, fun hash x hx => ?_⟩, fun id c hc => ?_⟩
        · show ∀ x ∈ c.segments, x.val < r.nextSegmentId
          rw [e₂]
          exact hnum.create (c := ⟨capsuleId, size, st.segmentIds, policy, bytes⟩) hlisted id c
            (e₁ ▸ hc)
        · show x.val < r.nextSegmentId
          rw [e₂]
          exact hcontent₂ hash x (e₃ ▸ hx)
        · have hc' : (s₂.registry.capsules.insert capsuleId
              ⟨capsuleId, size, st.segmentIds, policy, bytes⟩).lookup id = some c := e₁ ▸ hc
          rcases Table.lookup_insert_eq_some.mp hc' with ⟨_, rfl⟩ | ⟨_, hc'⟩
          · exact .inl ⟨rfl, rfl⟩
          · exact .inr (hcaps ▸ hc')
      split
      · refine wp_bind.mpr (wp_mapError.mpr (wp_storeOp
          (.addDedupedBytes capsuleId st.dedupStats.bytesSaved) fun id _ => ?_))
        refine hcreated (0 + st.dedupStats.bytesSaved) _ ?_ ?_ ?_ <;>
          simp [CapsuleRegistry.addDedupedBytes, CapsuleRegistry.save, AList.insert_insert]
      · exact fun id _ => hcreated 0 _ rfl rfl rfl

end

/-! ### Mirroring -/

section
variable {policy : Policy} {data : Bytes} {s : Store P} {m : MeshLink} {segments : List SegmentId}

/-- A program of the store, beside the mesh. -/
theorem wp_store {α : Type} {p : Native α} {Q : Except Error α → Store P × MeshLink → Prop}
    (h : p.wp (StoreOp.exec (P := P)).moves (fun _ _ => True) (fun r s' => Q r (s', m)) s) :
    (p.inl : MeshProg α).wp (StoreOp.exec.sum MeshLink.exec).moves (fun _ _ => True) Q (s, m) :=
  wp_inl (fun _ _ _ => trivial) (wp_run h)

/-- One operation of the mesh. -/
theorem wp_meshOp (o : MeshOp) {Q : Except Error o.Res → Store P × MeshLink → Prop}
    (h : Q (MeshLink.exec o m).1 (s, (MeshLink.exec o m).2)) :
    (performInr (T := MeshSig) o : MeshProg o.Res).wp (StoreOp.exec.sum MeshLink.exec).moves
      (fun _ _ => True) Q (s, m) :=
  (wp_perform_moves (S := StoreSig.sum MeshSig) (o := .inr o)).mpr ⟨trivial, h⟩

/-- Since `m`, only segments of the list were mirrored, in the store `s`. -/
def Sent (s : Store P) (m : MeshLink) (segments : List SegmentId) (c : Store P × MeshLink) : Prop :=
  c.1 = s ∧ ∀ e ∈ c.2.mirrored, e ∈ m.mirrored ∨ e.1 ∈ segments

theorem wp_mirrorTo {segId : SegmentId} {segmentData : Bytes} {n : Nat} {target : NodeId}
    {c : Store P × MeshLink} (hx : segId ∈ segments) (h : Sent s m segments c) :
    (WritePipeline.mirrorTo segId segmentData n target).wp
      (StoreOp.exec.sum MeshLink.exec).moves (fun _ _ => True)
      (fun _ c' => Sent s m segments c') c := by
  have hsent : Sent s m segments
      (c.1, { c.2 with mirrored := c.2.mirrored ++ [(segId, target)] }) := by
    refine ⟨h.1, fun e he => ?_⟩
    rcases List.mem_append.mp he with he | he
    · exact h.2 e he
    · obtain rfl := List.mem_singleton.mp he
      exact .inr hx
  obtain ⟨s₁, m₁⟩ := c
  refine wp_bind.mpr (wp_attempt.mpr (wp_meshOp (.mirrorSegment segId segmentData target) ?_))
  refine andThen_ok.mpr ?_
  dsimp only [MeshLink.exec]
  cases m₁.deliver segmentData target with
  | ok u => exact hsent
  | error e => exact hsent

theorem wp_mirrorToAll {segId : SegmentId} {targets : List NodeId} {n : Nat}
    {c : Store P × MeshLink} (hx : segId ∈ segments) (h : Sent s m segments c) :
    (WritePipeline.mirrorToAll targets n segId).wp (StoreOp.exec.sum MeshLink.exec).moves
      (fun _ _ => True) (fun _ c' => Sent s m segments c') c := by
  obtain ⟨s₁, m₁⟩ := c
  refine wp_bind.mpr (wp_store (wp_storeOp (.read segId) ?_))
  show andThen _ _ _ _ (s₁.nvram.read segId) (s₁, m₁)
  cases s₁.nvram.read segId with
  | error e => exact h
  | ok segmentData =>
    refine wp_bind.mpr (wp_store (wp_storeOp (.getSegmentMetadata segId) ?_))
    show andThen _ _ _ _ (s₁.nvram.getSegmentMetadata segId) (s₁, m₁)
    cases s₁.nvram.getSegmentMetadata segId with
    | error e => exact h
    | ok segment =>
      refine wp_foldlM (fun _ _ c' => Sent s m segments c') (fun target _ n' c' h' => ?_)
        (fun _ _ h' => h') _ _ _ h
      refine wp_mono (wp_mirrorTo hx h') fun r c'' h'' => ?_
      cases r <;> exact h''

/-- **What is mirrored**: segments of the capsule, if the RPO is zero and there are peers. -/
theorem wp_replicate {Q : Except Error Unit → Store P × MeshLink → Prop}
    (hq : ∀ c, c.1 = s → (∀ e ∈ c.2.mirrored, e ∈ m.mirrored ∨
      e.1 ∈ segments ∧ policy.rpo = 0 ∧ m.peers ≠ []) → Q (.ok ()) c) :
    (WritePipeline.replicate policy segments).wp (StoreOp.exec.sum MeshLink.exec).moves
      (fun _ _ => True) Q (s, m) := by
  unfold WritePipeline.replicate
  split
  · next hr =>
      refine wp_bind.mpr (wp_attempt.mpr (wp_bind.mpr (wp_meshOp .discoverPeers ?_)))
      show Prog.wp _ _ _ (if m.peers = [] then _ else _) (s, m)
      split
      · exact hq (s, m) rfl fun e he => .inl he
      · next hp =>
          have hall : (segments.foldlM (WritePipeline.mirrorToAll (m.peers.take 2)) 0).wp
              (StoreOp.exec.sum MeshLink.exec).moves (fun _ _ => True)
              (fun _ c => Sent s m segments c) (s, m) := by
            refine wp_foldlM (fun rest _ c => (∀ x ∈ rest, x ∈ segments) ∧ Sent s m segments c)
              ?_ (fun _ _ h => h.2) _ _ _ ⟨fun x hx => hx, rfl, fun e he => .inl he⟩
            rintro x rest n c ⟨hrest, h⟩
            refine wp_mono (wp_mirrorToAll (hrest x List.mem_cons_self) h) fun r c' h' => ?_
            cases r with
            | error e => exact h'
            | ok n' => exact ⟨fun y hy => hrest y (List.mem_cons_of_mem _ hy), h'⟩
          refine wp_mono hall fun r c h => hq c h.1 fun e he => ?_
          exact (h.2 e he).imp_right fun hx => ⟨hx, hr, hp⟩
  · exact hq (s, m) rfl fun e he => .inl he

/-- **A write that succeeds.** -/
theorem wp_writeAsyncMesh (memoryLimit : Nat) (arrivals : Order (Bytes × Nat))
    (capsuleId : CapsuleId) (data : Bytes) (policy : Policy) (hs : s.Numbered)
    (hm : m.mirrored = []) :
    (WritePipeline.writeCapsuleWithPolicyAsyncMesh P memoryLimit arrivals capsuleId data policy).wp
      (StoreOp.exec.sum MeshLink.exec).moves (fun _ _ => True)
      (fun r c => ∀ id, r = .ok id → ∃ segments, CreatedUnder policy segments s c.1 ∧
        (∀ x ∈ segments, s.registry.nextSegmentId ≤ x.val ∨ Hit policy data s x) ∧
        ∀ e ∈ c.2.mirrored, e.1 ∈ segments ∧ policy.rpo = 0 ∧ m.peers ≠ [] ∧ data ≠ [])
      (s, m) := by
  unfold WritePipeline.writeCapsuleWithPolicyAsyncMesh
  simp only
  split
  · -- nothing to store
    refine wp_bind.mpr (wp_store (wp_mapError.mpr (wp_storeOp
      (.createCapsuleWithSegments capsuleId 0 [] policy) ?_)))
    simp only [StoreOp.exec, CapsuleRegistry.createCapsuleWithSegments]
    cases s.registry.capsules.lookup capsuleId with
    | some c => exact nofun
    | none =>
        refine fun id _ => ⟨[], ⟨⟨?_, hs.content⟩, ?_⟩, nofun, fun e he => ?_⟩
        · exact hs.create (c := ⟨capsuleId, 0, [], policy, 0⟩) nofun
        · intro id c hl
          rcases Table.lookup_insert_eq_some.mp hl with ⟨_, rfl⟩ | ⟨_, hl⟩
          · exact .inl ⟨rfl, rfl⟩
          · exact .inr hl
        · rw [hm] at he
          cases he
  · next hlen =>
      have hdata : data ≠ [] := fun e => hlen (by rw [e]; rfl)
      refine wp_bind.mpr (wp_store (wp_storeOp .beginTransaction ?_))
      show Prog.wp _ _ _ (match List.find?
        (fun chunk : Bytes × Nat => decide (memoryLimit < chunk.1.length))
        (chunks SEGMENT_SIZE data).zipIdx with | some chunk => _ | none => _) _
      split
      · refine wp_bind.mpr (wp_store ?_)
        exact wp_storeOp (.rollback _) nofun
      · refine wp_bind.mpr (wp_store (wp_mono (wp_collect ⟨rfl, rfl, Nat.le_refl _⟩) ?_))
        rintro r s₁ ⟨st, rfl, hcol⟩
        refine wp_bind.mpr (wp_store (wp_mono (wp_finishAsync_created hs hcol) ?_))
        intro r s₂ hc
        cases r with
        | error e => exact nofun
        | ok id =>
            refine wp_bind.mpr (wp_replicate ?_)
            rintro ⟨_, m'⟩ rfl hsent _ _
            refine ⟨st.segmentIds, hc id rfl, fun x hx => ?_, fun e he => ?_⟩
            · exact (hcol.listed x hx).imp_left And.left
            · rcases hsent e he with he | ⟨hx, hr, hp⟩
              · rw [hm] at he
                cases he
              · exact ⟨hx, hr, hp, hdata⟩

end

/-! ### What may leave -/

/-- A capsule under local sovereignty. -/
def Store.LocalCapsule (s : Store P) (id : CapsuleId) : Prop :=
  ∃ c, s.registry.capsules.lookup id = some c ∧ c.policy.sovereignty = .localOnly

/-- A segment of such a capsule. -/
def Store.Local (s : Store P) (x : SegmentId) : Prop :=
  ∃ id c, s.registry.capsules.lookup id = some c ∧ c.policy.sovereignty = .localOnly ∧
    x ∈ c.segments

/-- The capsule an action replicates or migrates. -/
def ScalingAction.capsule : ScalingAction → Option CapsuleId
  | .replicate id _ _ => some id
  | .migrate id _ _ _ => some id
  | _ => none

/-- Local data leaves: a segment of a local capsule is mirrored, or such a capsule is to be
replicated or migrated to another node. -/
def Leaves (node : MeshNode) (s : Store P) : MeshEffect → Prop
  | .mirror x _ => s.Local x
  | .action a => ∃ id, a.capsule = some id ∧ s.LocalCapsule id ∧ ∃ n ∈ a.nodes, n ≠ node.id

/-- The steps that let nothing local leave, by what is known before them. -/
def Keeps {F : Type} (node : MeshNode) (s : Store P) (peers : List NodeId) : MeshCall F → Prop
  | .write _ _ _ data policy =>
    policy.rpo = 0 → peers ≠ [] → data ≠ [] →
      policy.sovereignty ≠ .localOnly ∧ ∀ x, Hit policy data s x → ¬ s.Local x
  | .telemetry (.heatSpike id accesses _) =>
    s.LocalCapsule id → 100 < accesses → ∀ n ∈ peers.head?, n = node.id
  | .telemetry (.newCapsule id policy _) =>
    s.LocalCapsule id → policy.rpo < fromSecs 60 → policy.sovereignty ≠ .localOnly →
      ScalingAgent.latencyAdmits policy.latencyTarget node.zone → ∀ n ∈ peers.take 2, n = node.id
  | .telemetry _ => True

section
variable {F : Type} {T : CapacityTests F} {node : MeshNode} {s s' : Store P} {peers : List NodeId}

/-- The actions of an event. -/
theorem telemetry_keeps {event : Telemetry F} (hok : Keeps node s peers (.telemetry event)) :
    ∀ a ∈ ScalingAgent.handleTelemetryEvent T node peers event, ¬ Leaves node s (.action a) := by
  rintro a ha ⟨id, hid, hlocal, n, hn, hne⟩
  by_cases h₁ : ∃ id policy nodeId, event = .newCapsule id policy nodeId
  · obtain ⟨id', policy, nodeId, rfl⟩ := h₁
    rw [ScalingAgent.handle_newCapsule] at ha
    split at ha
    · next h =>
        obtain rfl := List.mem_singleton.mp ha
        cases hid
        exact hne (hok hlocal h.1 h.2.1 h.2.2.1 n hn)
    · cases ha
  · by_cases h₂ : ∃ id accesses nodeId, event = .heatSpike id accesses nodeId
    · obtain ⟨id', accesses, nodeId, rfl⟩ := h₂
      rw [ScalingAgent.handle_heatSpike] at ha
      split at ha
      · cases ha
      · next h =>
          obtain ⟨destination, hd, rfl⟩ := List.mem_map.mp ha
          cases hid
          obtain rfl := List.mem_singleton.mp hn
          exact hne (hok hlocal (Nat.not_le.mp h) _ (Option.mem_toList.mp hd))
    · push Not at h₁ h₂
      rw [ScalingAgent.nodes_handle h₁ h₂ a ha] at hn
      cases hn

/-- The segments a write mirrors. -/
theorem mirrored_keeps {m m' : MeshLink} {memoryLimit : Nat} {arrivals : Order (Bytes × Nat)}
    {capsuleId id : CapsuleId} {data : Bytes} {policy : Policy} (hs : s.Numbered)
    (hm : m.mirrored = [])
    (hok : Keeps (F := F) node s m.peers (.write memoryLimit arrivals capsuleId data policy))
    (hr : (WritePipeline.writeCapsuleWithPolicyAsyncMesh P memoryLimit arrivals capsuleId data
      policy).run (StoreOp.exec.sum MeshLink.exec) (s, m) = (.ok id, s', m')) :
    s'.Numbered ∧ ∀ e ∈ m'.mirrored, ¬ s'.Local e.1 := by
  have hw := wp_run (wp_writeAsyncMesh memoryLimit arrivals capsuleId data policy hs hm)
  rw [hr] at hw
  obtain ⟨segments, hcreated, hsegments, hmirrored⟩ := hw id rfl
  refine ⟨hcreated.numbered, fun e he => ?_⟩
  obtain ⟨hx, hrpo, hpeers, hdata⟩ := hmirrored e he
  obtain ⟨hpolicy, hhit⟩ := hok hrpo hpeers hdata
  rintro ⟨id', c, hc, hlocal, hxc⟩
  rcases hcreated.capsules id' c hc with ⟨hp, _⟩ | hold
  · exact hpolicy (hp ▸ hlocal)
  · -- an older capsule lists it, so it was not numbered by this write
    rcases hsegments e.1 hx with hnew | hfound
    · exact absurd (hs.capsules id' c hold e.1 hxc) (Nat.not_lt.mpr hnew)
    · exact hhit e.1 hfound ⟨id', c, hold, hlocal, hxc⟩

/-- **When local data stays.**  In a run whose steps all keep, no segment of a local capsule is
mirrored, and no local capsule is to be replicated or migrated to another node. -/
theorem meshRun_sovereign {s₀ : Store P} {t : List (Store P × MeshEffect)} (hs : s₀.Numbered)
    (h : MeshRun T node (Keeps node) s₀ t s) : ∀ e ∈ t, ¬ Leaves node e.1 e.2 := by
  have run : s.Numbered ∧ ∀ e ∈ t, ¬ Leaves node e.1 e.2 := by
    induction h with
    | start => exact ⟨hs, nofun⟩
    | write _ hm hok hr ih =>
        obtain ⟨hs', hkeeps⟩ := mirrored_keeps ih.1 hm hok hr
        refine ⟨hs', fun e he => ?_⟩
        rcases List.mem_append.mp he with he | he
        · exact ih.2 e he
        · obtain ⟨e', he', rfl⟩ := List.mem_map.mp he
          exact hkeeps e' he'
    | telemetry peers _ hok ih =>
        refine ⟨ih.1, fun e he => ?_⟩
        rcases List.mem_append.mp he with he | he
        · exact ih.2 e he
        · obtain ⟨a, ha, rfl⟩ := List.mem_map.mp he
          exact telemetry_keeps hok a ha
  exact run.2

end

/-! ### A run -/

/-- A write of a node with one peer, from `s`. -/
def sampleWriteMesh (capsuleId : CapsuleId) (data : Bytes) (policy : Policy)
    (s : Store .stored) : Except Error CapsuleId × Store .stored × MeshLink :=
  (WritePipeline.writeCapsuleWithPolicyAsyncMesh .stored 16 .asGiven capsuleId data policy).run
    (StoreOp.exec.sum MeshLink.exec) (s, ⟨[⟨1⟩], fun _ _ => .ok (), []⟩)

/-- The mirrored segments of such a write, in the store it leaves. -/
def sampleEffects (c : Except Error CapsuleId × Store .stored × MeshLink) :
    List (Store .stored × MeshEffect) :=
  c.2.2.mirrored.map fun e => (c.2.1, .mirror e.1 e.2)

theorem meshRun_sample {F : Type} {T : CapacityTests F} (node : MeshNode) {s₀ s : Store .stored}
    {ok : Store .stored → List NodeId → MeshCall F → Prop} {t : List (Store .stored × MeshEffect)}
    {capsuleId : CapsuleId} {data : Bytes} {policy : Policy} (h : MeshRun T node ok s₀ t s)
    (hok : ok s [⟨1⟩] (.write 16 .asGiven capsuleId data policy))
    (hr : (sampleWriteMesh capsuleId data policy s).1 = .ok capsuleId) :
    MeshRun T node ok s₀ (t ++ sampleEffects (sampleWriteMesh capsuleId data policy s))
      (sampleWriteMesh capsuleId data policy s).2.1 :=
  .write h rfl hok (Prod.ext hr rfl)

/-- A local capsule, and then one of the zone, which is mirrored. -/
theorem meshRun_sovereign_sample : ∃ t s,
    MeshRun (F := Unit) ⟨fun _ _ _ => false, fun _ _ => false, fun _ _ => false⟩
      ⟨⟨0⟩, .metro "us"⟩ (Keeps ⟨⟨0⟩, .metro "us"⟩) (Store.empty (P := .stored) none) t s ∧
    (s, .mirror ⟨1⟩ ⟨1⟩) ∈ t ∧ ∀ e ∈ t, ¬ Leaves ⟨⟨0⟩, .metro "us"⟩ e.1 e.2 := by
  have keeps₁ : ∀ s, Keeps (P := .stored) (F := Unit) ⟨⟨0⟩, .metro "us"⟩ s [⟨1⟩]
      (.write 16 .asGiven ⟨0⟩ [1] {}) := fun s h => absurd h (by decide)
  have keeps₂ : ∀ s, Keeps (P := .stored) (F := Unit) ⟨⟨0⟩, .metro "us"⟩ s [⟨1⟩]
      (.write 16 .asGiven ⟨1⟩ [2] { rpo := 0, sovereignty := .zone, dedupe := false }) :=
    fun s _ _ _ => ⟨by decide, fun x hx => absurd hx.1 (by decide)⟩
  have h₁ : (sampleWriteMesh ⟨0⟩ [1] {} (Store.empty none)).1 = .ok ⟨0⟩ := by decide +kernel
  have h₂ : (sampleWriteMesh ⟨1⟩ [2] { rpo := 0, sovereignty := .zone, dedupe := false }
      (sampleWriteMesh ⟨0⟩ [1] {} (Store.empty none)).2.1).1 = .ok ⟨1⟩ := by decide +kernel
  have hm : (sampleWriteMesh ⟨1⟩ [2] { rpo := 0, sovereignty := .zone, dedupe := false }
      (sampleWriteMesh ⟨0⟩ [1] {} (Store.empty none)).2.1).2.2.mirrored = [(⟨1⟩, ⟨1⟩)] := by
    decide +kernel
  have hrun := meshRun_sample (T := ⟨fun _ _ _ => false, fun _ _ => false, fun _ _ => false⟩)
    ⟨⟨0⟩, .metro "us"⟩ .start (keeps₁ _) h₁
  generalize sampleWriteMesh ⟨0⟩ [1] {} (Store.empty none) = c at h₁ h₂ hm hrun
  have hrun₂ := meshRun_sample _ hrun (keeps₂ _) h₂
  refine ⟨_, _, hrun₂, ?_, meshRun_sovereign (Store.numbered_empty none) hrun₂⟩
  refine List.mem_append_right _ ?_
  unfold sampleEffects
  rw [hm]
  exact List.mem_singleton_self _

/-- A local capsule under a zero RPO is mirrored. -/
theorem not_meshRun_sovereign :
    ¬ ∀ (P : Primitives) (km : Option (KeyManager P)) (F : Type) (T : CapacityTests F)
      (node : MeshNode) (t : List (Store P × MeshEffect)) (s : Store P),
      MeshRun T node (fun _ _ _ => True) (Store.empty km) t s →
      ∀ e ∈ t, ¬ Leaves node e.1 e.2 := by
  intro h
  let T : CapacityTests Unit := ⟨fun _ _ _ => false, fun _ _ => false, fun _ _ => false⟩
  have h₁ : (sampleWriteMesh ⟨0⟩ [1] { rpo := 0 } (Store.empty none)).1 = .ok ⟨0⟩ := by
    decide +kernel
  have hm : (sampleWriteMesh ⟨0⟩ [1] { rpo := 0 } (Store.empty none)).2.2.mirrored =
      [(⟨0⟩, ⟨1⟩)] := by decide +kernel
  have hl : (sampleWriteMesh ⟨0⟩ [1] { rpo := 0 } (Store.empty none)).2.1.registry.capsules.lookup
      ⟨0⟩ = some ⟨⟨0⟩, 1, [⟨0⟩], { rpo := 0 }, 0⟩ := by decide +kernel
  have hrun : MeshRun T ⟨⟨0⟩, .metro "us"⟩ (fun _ _ _ => True) (Store.empty none)
      ([] ++ sampleEffects (sampleWriteMesh ⟨0⟩ [1] { rpo := 0 } (Store.empty none)))
      (sampleWriteMesh ⟨0⟩ [1] { rpo := 0 } (Store.empty none)).2.1 :=
    meshRun_sample _ .start trivial h₁
  generalize sampleWriteMesh ⟨0⟩ [1] { rpo := 0 } (Store.empty none) = c at h₁ hm hl hrun
  have hin : (c.2.1, MeshEffect.mirror ⟨0⟩ ⟨1⟩) ∈ [] ++ sampleEffects c := by
    unfold sampleEffects
    rw [hm]
    exact List.mem_singleton_self _
  exact h .stored none Unit T ⟨⟨0⟩, .metro "us"⟩ _ _ hrun _ hin
    ⟨⟨0⟩, _, hl, rfl, List.mem_singleton_self _⟩

end Space

import Space.Native.Integrity

/-!
# Native — Labels

What the metadata of a segment says of its encryption is said in full or not at all: an encrypted
segment has a version, a key version, a tweak and a tag, and one in the clear has no tag.

* `StoreOp.Labels`: the operations that enter nothing else, and `labels_keeps`: they keep it so.
* `run_write_labelled`, `run_writeAsync_labelled`: the two writes call no other operation, whatever
  is answered in between.
* `Segment.truthful`: together with the tag of the stored bytes this makes the flag true.
-/

namespace Space
open Support Prog

variable {P : Primitives} {K : UInt32 → XtsKeyPair} {s : Store P} {segment segment' : Segment}
  {policy : Policy} {data : Bytes}

/-! ### Labels -/

/-- An encrypted segment has all four fields, one in the clear no tag. -/
structure Segment.Labelled (segment : Segment) : Prop where
  encrypted : segment.encrypted = true → segment.encryptionVersion.isSome ∧
    segment.keyVersion.isSome ∧ segment.tweakNonce.isSome ∧ segment.integrityTag.isSome
  clear : segment.encrypted = false → segment.integrityTag = none

/-- The metadata of a ciphertext. -/
def FullMeta (m : Option EncryptionMetadata) : Prop :=
  ∀ em, m = some em → em.encryptionVersion.isSome ∧ em.keyVersion.isSome ∧
    em.tweakNonce.isSome ∧ em.integrityTag.isSome

theorem Segment.Labelled.congr (h : segment.Labelled) (hf : segment'.form = segment.form) :
    segment'.Labelled := by
  have field : ∀ {β : Type} (g : Segment → β), (∀ t : Segment, g t.form = g t) →
      g segment' = g segment := fun g hg => by rw [← hg segment', hf, hg]
  have he := field Segment.encrypted fun _ => rfl
  refine ⟨fun k => ?_, fun k => ?_⟩
  · rw [field Segment.encryptionVersion fun _ => rfl, field Segment.keyVersion fun _ => rfl,
      field Segment.tweakNonce fun _ => rfl, field Segment.integrityTag fun _ => rfl]
    exact h.encrypted (he ▸ k)
  · rw [field Segment.integrityTag fun _ => rfl]
    exact h.clear (he ▸ k)

theorem labelled_appended (x : SegmentId) (off n : Nat) : (Segment.appended x off n).Labelled :=
  ⟨nofun, fun _ => rfl⟩

/-- A segment in the clear, described. -/
theorem labelled_describe {m : Option EncryptionMetadata} (hm : FullMeta m) (x : SegmentId)
    (off n : Nat) (r : CompressionResult) (hash : Option ContentHash) :
    ((Segment.appended x off n).describe r hash m).Labelled := by
  cases m with
  | none => exact ⟨nofun, fun _ => rfl⟩
  | some em => exact ⟨fun _ => hm em rfl, nofun⟩

theorem sealView_fullMeta {key : Option (UInt32 × XtsKeyPair)} {view payload : Bytes}
    {hash : ContentHash} {m : Option EncryptionMetadata}
    (h : sealView P key view hash = .ok (payload, m)) : FullMeta m := by
  rintro em rfl
  cases key with
  | none => cases h
  | some key =>
      simp only [sealView, Bind.bind, Except.bind] at h
      split at h
      · cases h
      · next cm henc =>
          obtain ⟨c, m⟩ := cm
          obtain ⟨-, -, hm⟩ := encryptSegment_ok henc
          cases h
          rw [hm]
          exact ⟨rfl, rfl, rfl, rfl⟩

/-- **The flag is true** where the labels are complete and the tag is that of the stored bytes. -/
def Segment.Truthful (P : Primitives) (K : UInt32 → XtsKeyPair) (segment : Segment)
    (raw : Bytes) : Prop :=
  segment.encrypted = true ↔ segment.encryptionVersion.isSome ∧ segment.tweakNonce.isSome ∧
    segment.integrityTag.isSome ∧ ∃ v, segment.keyVersion = some v ∧
      verifyMac P raw (segment.encryptionMetadata raw) (K v).key1 (K v).key2 = .ok ()

theorem Segment.truthful {raw : Bytes} (h : segment.Labelled) (ha : segment.Authentic P K raw) :
    segment.Truthful P K raw := by
  constructor
  · intro he
    obtain ⟨hv, -, hw, ht⟩ := h.encrypted he
    obtain ⟨v, hk, htag⟩ := ha he
    exact ⟨hv, hw, ht, v, hk, verifyMac_computeMac rfl htag⟩
  · rintro ⟨-, -, ht, -⟩
    by_contra he
    rw [h.clear (Bool.eq_false_iff.mpr he)] at ht
    cases ht

/-! ### What the operations enter -/

def Store.Labelled (s : Store P) : Prop := ∀ x segment, s.seg x = some segment → segment.Labelled

namespace StoreOp

/-- What is entered is labelled. -/
def Labels : StoreOp → Prop
  | .updateSegmentMetadata _ segment => segment.Labelled
  | .commit t => ∀ p ∈ t.pending, p.segment.Labelled
  | _ => True

/-- What is answered: a new segment is one in the clear, and a transaction begins empty. -/
def Answers : Moves StoreSig Error Unit
  | .append x _, _, .ok (segment : Segment), _ =>
    ∃ off n, segment = Segment.appended x off n
  | .appendSegment t x d, _, .ok ((segment, t') : Segment × NvramTransaction), _ =>
    ∃ off n, segment = Segment.appended x off n ∧ t'.pending = t.pending ++ [⟨segment, d⟩]
  | .beginTransaction, _, .ok (t : NvramTransaction), _ => t.pending = []
  | _, _, _, _ => True

theorem answers_exec (o : StoreOp) (s : Store P) : o.Answers () (o.exec s).1 () := by
  cases o with
  | append x d => exact ⟨_, _, rfl⟩
  | appendSegment t x d =>
      simp only [StoreOp.exec, NvramTransaction.appendSegment]
      cases t.ensureActive with
      | error e => trivial
      | ok u => exact ⟨_, _, rfl, rfl⟩
  | beginTransaction => rfl
  | _ => simp only [Answers]

theorem labels_keeps (o : StoreOp) (s : Store P) (ho : o.Labels) (h : s.Labelled) :
    (o.exec s).2.Labelled := by
  have hinsert : ∀ {x : SegmentId} {t : Segment} {y : SegmentId} {u : Segment}, t.Labelled →
      (s.nvram.segmentMap.insert x t).lookup y = some u → u.Labelled := fun ht hu => by
    rcases Table.lookup_insert_eq_some.mp hu with ⟨-, rfl⟩ | ⟨-, hu⟩
    · exact ht
    · exact h _ _ hu
  cases o with
  | append x d => exact fun y u hu => hinsert (labelled_appended _ _ _) hu
  | incrementRefcount x =>
      intro y u hu
      simp only [StoreOp.exec, NvramLog.incrementRefcount, Store.seg] at hu
      split at hu
      · exact h y u hu
      · next t ht => exact hinsert ((h x t ht).congr (by rfl)) hu
  | decrementRefcount x =>
      intro y u hu
      simp only [StoreOp.exec, NvramLog.decrementRefcount, Store.seg] at hu
      split at hu
      · exact h y u hu
      · next t ht =>
          split at hu
          · exact h y u hu
          · exact hinsert ((h x t ht).congr (by rfl)) hu
  | removeSegment x =>
      intro y u hu
      exact h y u (NvramLog.removeSegment_lookup_eq_some.mp hu).2
  | updateSegmentMetadata x t => exact fun y u hu => hinsert ho hu
  | commit t =>
      intro y u hu
      simp only [StoreOp.exec, Store.onNvram, NvramTransaction.commit, Store.seg] at hu
      split at hu
      · exact h y u hu
      · split at hu
        · exact h y u hu
        · rcases lookup_installPending_cases hu with ⟨p, hp, rfl⟩ | hu
          · exact ho p hp
          · exact h y u hu
  | appendSegment t x d =>
      intro y u hu
      simp only [StoreOp.exec, NvramTransaction.appendSegment, Store.seg] at hu
      split at hu <;> exact h y u hu
  | rollback t =>
      intro y u hu
      simp only [StoreOp.exec, Store.onNvram, NvramTransaction.rollback, Store.seg] at hu
      split at hu <;> exact h y u hu
  | currentKey =>
      intro y u hu
      have hn := s.currentKey_snd.2.1
      refine h y u (Eq.trans ?_ hu)
      show s.nvram.segmentMap.lookup y = s.currentKey.2.nvram.segmentMap.lookup y
      rw [hn]
  | getKey v =>
      intro y u hu
      refine h y u (Eq.trans ?_ hu)
      show s.nvram.segmentMap.lookup y = (s.getKey v).2.nvram.segmentMap.lookup y
      unfold Store.getKey
      split
      · rfl
      · split <;> rfl
  | _ => exact h

end StoreOp

/-! ### The writes -/

namespace WritePipeline

/-- The rule of one operation. -/
theorem wp_answer (o : StoreOp) {Q : Except Error o.Res → Unit → Prop} (ho : o.Labels)
    (hq : ∀ r, o.Answers () r () → Q r ()) :
    (Prog.perform (S := StoreSig) o : Native o.Res).wp StoreOp.Answers (fun o _ => o.Labels) Q () :=
  wp_perform.mpr ⟨ho, fun r _ hr => hq r hr⟩

theorem wp_storeNew_labels {payload : Bytes} {r : CompressionResult} {hash : Option ContentHash}
    {m : Option EncryptionMetadata} (hm : FullMeta m) :
    (storeNew payload r hash m).wp StoreOp.Answers (fun o _ => o.Labels) (fun _ _ => True) () := by
  unfold storeNew
  refine wp_bind.mpr (wp_answer .allocSegment trivial fun x _ => ?_)
  cases x with
  | error e => trivial
  | ok x =>
      refine wp_bind.mpr (wp_mapError.mpr (wp_answer (.append x payload) trivial fun t ht => ?_))
      cases t with
      | error e => trivial
      | ok t =>
          obtain ⟨off, n, rfl⟩ := ht
          refine wp_of_uses (uses_bind (uses_mapError.mpr (uses_op ?_)) fun _ => trivial)
            fun _ => trivial
          exact labelled_describe hm x off n r hash

theorem wp_writeChunk_labels {st : WriteState} {chunk : Bytes × Nat} :
    (writeChunk P policy st chunk).wp StoreOp.Answers (fun o _ => o.Labels)
      (fun _ _ => True) () := by
  unfold writeChunk
  refine wp_bind.mpr (wp_lift.mpr ?_)
  cases compressSegment P chunk.1 policy.compression with
  | error e => trivial
  | ok vr =>
  obtain ⟨view, r⟩ := vr
  refine wp_bind.mpr (wp_of_uses (uses_encryptionKey trivial) fun key => ?_)
  cases key with
  | error e => trivial
  | ok key =>
  refine wp_bind.mpr (wp_lift.mpr ?_)
  cases hseal : sealView P key view (hashContent P view) with
  | error e => trivial
  | ok pm =>
  obtain ⟨payload, m⟩ := pm
  have hm := sealView_fullMeta hseal
  show Prog.wp _ _ _ (if policy.dedupe = true then _ else _) _
  split
  · refine wp_bind.mpr (wp_answer (.lookupContent _) trivial fun x _ => ?_)
    cases x with
    | error e => trivial
    | ok x =>
        cases (x : Option SegmentId) with
        | some x =>
            exact wp_of_uses (uses_bind (uses_mapError.mpr (uses_op trivial)) fun _ => trivial)
              fun _ => trivial
        | none =>
            refine wp_bind.mpr (wp_mono (wp_storeNew_labels hm) fun x _ _ => ?_)
            cases x with
            | error e => trivial
            | ok x =>
                exact wp_of_uses (uses_bind (uses_mapError.mpr (uses_op trivial))
                  fun _ => trivial) fun _ => trivial
  · refine wp_bind.mpr (wp_mono (wp_storeNew_labels hm) fun x _ _ => ?_)
    cases x <;> trivial

/-- **The write labels what it stores.** -/
theorem run_write_labelled (id : CapsuleId) (h : s.Labelled) :
    ((writeCapsuleWithPolicy P id data policy).run StoreOp.exec s).2.Labelled := by
  refine (wp_answers (Q := fun _ _ => True) (I := fun s : Store P => s.Labelled)
    StoreOp.answers_exec StoreOp.labels_keeps ?_ h).1
  unfold writeCapsuleWithPolicy
  refine wp_bind.mpr (wp_foldlM (fun _ _ _ => True) ?_ ?_ _ _ _ trivial)
  · rintro chunk rest st ⟨⟩ -
    refine wp_mono wp_writeChunk_labels fun r _ _ => ?_
    cases r <;> trivial
  · rintro st ⟨⟩ -
    refine wp_of_uses ?_ fun _ => trivial
    show Prog.Uses _ (if 0 < st.dedupStats.bytesSaved then _ else _)
    split
    · exact uses_bind (uses_mapError.mpr (uses_op trivial)) fun _ =>
        uses_bind (uses_mapError.mpr (uses_op trivial)) fun _ => trivial
    · exact uses_bind (uses_mapError.mpr (uses_op trivial)) fun _ => trivial

/-! ### The asynchronous write -/

/-- What is pending is labelled. -/
def LabelsPending (t : NvramTransaction) : Prop := ∀ p ∈ t.pending, p.segment.Labelled

/-- A pending segment gets other metadata. -/
theorem labelsPending_modify {t t' : NvramTransaction} {x : SegmentId} {f : Segment → Segment}
    (h : LabelsPending t) (hf : ∀ p ∈ t.pending, (f p.segment).Labelled)
    (ht : t.withSegmentMut x f = .ok t') : LabelsPending t' := by
  obtain ⟨pending, hm, rfl⟩ := NvramTransaction.withSegmentMut_eq ht
  intro p hp
  rcases NvramTransaction.modifyPending_mem hp hm with hp | ⟨old, hold, rfl, -⟩
  · exact h p hp
  · exact hf old hold

/-- What committing a chunk leaves. -/
def ChunkLabels
    (r : Except Error (CommitOutcome × NvramTransaction × Table ContentHash SegmentId)) : Prop :=
  ∀ o t staged, r = .ok (o, t, staged) → LabelsPending t

theorem wp_stageNew_labels {p : SegmentPrepared} {t : NvramTransaction}
    {staged : Table ContentHash SegmentId} (ht : LabelsPending t) (hm : FullMeta p.encryptionMeta) :
    (stageNew policy p t staged).wp StoreOp.Answers (fun o _ => o.Labels)
      (fun r _ => ChunkLabels r) () := by
  unfold stageNew
  refine wp_bind.mpr (wp_answer .allocSegment trivial fun x _ => ?_)
  cases x with
  | error e => exact nofun
  | ok x =>
      refine wp_bind.mpr (wp_answer (.appendSegment t x p.finalData) trivial fun a ha => ?_)
      cases a with
      | error e => exact nofun
      | ok a =>
          obtain ⟨segment, t₁⟩ := (a : Segment × NvramTransaction)
          obtain ⟨off, n, rfl, hpending⟩ := ha
          refine wp_bind.mpr (wp_lift.mpr ?_)
          have h₁ : LabelsPending t₁ := by
            intro q hq
            rw [hpending] at hq
            rcases List.mem_append.mp hq with hq | hq
            · exact ht q hq
            · obtain rfl := List.mem_singleton.mp hq
              exact labelled_appended x off n
          cases hset : t₁.setSegmentMetadata x ((Segment.appended x off n).describe p.compResult
              (if policy.dedupe = true then some p.contentHash else none) p.encryptionMeta) with
          | error e => exact nofun
          | ok t₂ =>
              rintro o t' staged' hr
              cases hr
              exact labelsPending_modify h₁ (fun _ _ => labelled_describe hm x off n _ _) hset

theorem wp_commitSegment_labels {p : SegmentPrepared} {t : NvramTransaction}
    {staged : Table ContentHash SegmentId} (ht : LabelsPending t) (hm : FullMeta p.encryptionMeta) :
    (commitSegment policy p t staged).wp StoreOp.Answers (fun o _ => o.Labels)
      (fun r _ => ChunkLabels r) () := by
  unfold commitSegment
  split
  · cases staged.lookup p.contentHash with
    | some x =>
        dsimp only
        cases t.pendingSegment x with
        | none => exact nofun
        | some pending =>
            refine wp_bind.mpr (wp_lift.mpr ?_)
            cases hset : t.withSegmentMut x Segment.reuse with
            | error e => exact nofun
            | ok t₂ =>
                rintro o t' staged' hr
                cases hr
                exact labelsPending_modify ht (fun q hq => (ht q hq).congr rfl) hset
    | none =>
        refine wp_bind.mpr (wp_answer (.lookupContent _) trivial fun x _ => ?_)
        cases x with
        | error e => exact nofun
        | ok x =>
            cases (x : Option SegmentId) with
            | none => exact wp_stageNew_labels ht hm
            | some x =>
                refine wp_bind.mpr (wp_answer (.incrementRefcount x) trivial fun u _ => ?_)
                cases u with
                | error e => exact nofun
                | ok u =>
                    rintro o t' staged' hr
                    cases hr
                    exact ht
  · exact wp_stageNew_labels ht hm

/-- Between two arrivals. -/
structure LabelsAsync (st : AsyncState) : Prop where
  pending : LabelsPending st.transaction
  ordered : ∀ i p, st.ordered.lookup i = some p → FullMeta p.encryptionMeta

theorem wp_drain_labels : ∀ (n : Nat) {st : AsyncState}, LabelsAsync st →
    (drain policy n st).wp StoreOp.Answers (fun o _ => o.Labels)
      (fun r _ => ∃ st', r = .ok st' ∧ LabelsAsync st') ()
  | 0, st, h => ⟨st, rfl, h⟩
  | n + 1, st, h => by
      unfold drain
      cases hp : st.ordered.lookup st.nextIndex with
      | none => exact ⟨st, rfl, h⟩
      | some p =>
          refine wp_bind.mpr (wp_attempt.mpr (wp_mono
            (wp_commitSegment_labels h.pending (h.ordered _ p hp)) fun r _ hr => ?_))
          cases r with
          | error e => exact ⟨_, rfl, h.pending, h.ordered⟩
          | ok o =>
              obtain ⟨outcome, t, staged⟩ := o
              exact wp_drain_labels n ⟨hr _ _ _ rfl, h.ordered⟩

theorem wp_arrive_labels {total : Nat} {st : AsyncState} {chunk : Bytes × Nat}
    (h : LabelsAsync st) :
    (arrive P policy total st chunk).wp StoreOp.Answers (fun o _ => o.Labels)
      (fun r _ => ∃ st', r = .ok st' ∧ LabelsAsync st') () := by
  have hprepare : (prepareSegment P policy chunk).wp StoreOp.Answers (fun o _ => o.Labels)
      (fun r _ => ∀ p, r = .ok p → FullMeta p.encryptionMeta) () := by
    unfold prepareSegment
    refine wp_bind.mpr (wp_lift.mpr ?_)
    cases compressSegment P chunk.1 policy.compression with
    | error e => exact fun p hp => by cases hp
    | ok vr =>
    obtain ⟨view, r⟩ := vr
    refine wp_bind.mpr (wp_of_uses (uses_encryptionKey trivial) fun key => ?_)
    cases key with
    | error e => exact fun p hp => by cases hp
    | ok key =>
    refine wp_bind.mpr (wp_lift.mpr ?_)
    cases hseal : sealView P key view (hashContent P view) with
    | error e => exact fun p hp => by cases hp
    | ok pm =>
        intro p hp
        cases hp
        exact sealView_fullMeta hseal
  unfold arrive
  refine wp_bind.mpr (wp_attempt.mpr (wp_mono hprepare fun r _ hr => ?_))
  cases r with
  | error e => exact ⟨_, rfl, h.pending, h.ordered⟩
  | ok p =>
      show Prog.wp _ _ _ (if st.commitError.isSome = true then _ else _) _
      split
      · exact ⟨_, rfl, h.pending, h.ordered⟩
      · refine wp_drain_labels total ⟨h.pending, fun i q hq => ?_⟩
        rcases Table.lookup_insert_eq_some.mp hq with ⟨-, rfl⟩ | ⟨-, hq⟩
        · exact hr _ rfl
        · exact h.ordered i q hq

/-- **The asynchronous write labels what it stores.** -/
theorem run_writeAsync_labelled {limit : Nat} {arrivals : Order (Bytes × Nat)} (id : CapsuleId)
    (h : s.Labelled) :
    ((writeCapsuleWithPolicyAsync P limit arrivals id data policy).run StoreOp.exec s).2.Labelled
      := by
  refine (wp_answers (Q := fun _ _ => True) (I := fun s : Store P => s.Labelled)
    StoreOp.answers_exec StoreOp.labels_keeps ?_ h).1
  show Prog.wp _ _ _ (if (chunks SEGMENT_SIZE data).zipIdx.length = 0 then _ else _) _
  split
  · exact wp_of_uses (uses_bind (uses_mapError.mpr (uses_op trivial)) fun _ => trivial)
      fun _ => trivial
  · refine wp_bind.mpr (wp_answer .beginTransaction trivial fun t ht => ?_)
    cases t with
    | error e => trivial
    | ok t =>
        have hpending : (t : NvramTransaction).pending = [] := ht
        have hst : LabelsAsync { transaction := t } :=
          ⟨fun p hp => absurd (hpending ▸ hp) List.not_mem_nil, fun _ _ hp => by cases hp⟩
        refine andThen_ok.mpr ?_
        split
        · exact wp_of_uses (uses_bind (uses_discard (uses_op trivial)) fun _ => trivial)
            fun _ => trivial
        · refine wp_bind.mpr (wp_foldlM (fun _ st _ => LabelsAsync st) ?_ ?_ _ _ _ hst)
          · rintro chunk rest st ⟨⟩ hst
            refine wp_mono (wp_arrive_labels hst) fun r _ hr => ?_
            obtain ⟨st', rfl, hst'⟩ := hr
            exact hst'
          · rintro st ⟨⟩ hst
            have hend : Finishes StoreOp.Labels id data.length policy st :=
              ⟨fun _ _ => trivial, fun _ _ => trivial, fun _ _ => trivial, fun _ _ => trivial,
                trivial, trivial⟩
            exact wp_of_uses (hend.uses_finishAsync trivial hst.pending) fun _ => trivial

end WritePipeline

end Space

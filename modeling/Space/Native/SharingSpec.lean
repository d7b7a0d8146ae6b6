import Space.Native.Sharing
import Space.Native.CrashSafe

/-!
# Native — SharingSpec

The commands of the native pipeline, but for a write that opts out, touch only the segments they
came by.

* `Shares.wp_writeCapsule`, `Shares.wp_writeAsync`, `Shares.wp_deleteCapsule`, `Shares.wp_sweep`:
  the programs under the protocol.
* `Command.apart`: so they keep the capsules that opt out to themselves.
-/

namespace Space
open Support Prog WritePipeline

variable {P : Primitives} {s : Store P} {policy : Policy} {g g' : Multiset SegmentId}
  {x : SegmentId} {α : Type}

namespace Shares

theorem may_mono {o : StoreOp} (hle : g ≤ g') (hm : may o g) : may o g' := by
  have hmem {y : SegmentId} (hy : y ∈ g) : y ∈ g' := Multiset.mem_of_le hle hy
  cases o with
  | updateSegmentMetadata x segment => exact ⟨hmem hm.1, hm.2⟩
  | commit t => exact fun p hp => hmem (hm p hp)
  | createCapsuleWithSegments id size l policy => exact ⟨hm.1, fun x hx => hmem (hm.2 x hx)⟩
  | _ => first | exact trivial | exact hmem hm

/-- One operation. -/
theorem wp_op (o : StoreOp) {Q : Except Error o.Res → Multiset SegmentId → Prop} (hm : may o g)
    (hQ : ∀ r, tells o r → Q r (gains o r + g)) :
    (perform (S := StoreSig) o).wp moves may Q g :=
  wp_perform.mpr ⟨hm, fun r _ h => h.2 ▸ hQ r h.1⟩

/-- A program that only touches what was touchable before it. -/
theorem wp_uses {p : Native α} (hp : p.Uses fun o => may o g) (hle : g ≤ g') :
    p.wp moves may (fun _ g'' => g' ≤ g'') g' := by
  induction p generalizing g' with
  | ret a => exact le_refl _
  | fail e => exact le_refl _
  | call o k ih =>
      refine ⟨may_mono hle hp.1, fun r g'' hm => ?_⟩
      have hle' : g' ≤ g'' := hm.2 ▸ Multiset.le_add_left _ _
      exact wp_mono (ih r (hp.2 r) (hle.trans hle')) fun _ _ k => hle'.trans k

/-- A program that touches nothing. -/
theorem wp_idle {p : Native α} {A : StoreOp → Prop} (hA : ∀ o, A o → ∀ g, may o g) (hp : p.Uses A) :
    p.wp moves may (fun _ g' => g ≤ g') g :=
  wp_uses (uses_mono (fun o ho => hA o ho g) hp) (le_refl _)

/-- An operation that gives nothing. -/
theorem wp_call (o : StoreOp) {Q : Except Error o.Res → Multiset SegmentId → Prop} (hm : may o g)
    (hg : ∀ r, gains o r = 0) (hQ : ∀ r, tells o r → Q r g) :
    (perform (S := StoreSig) o).wp moves may Q g :=
  wp_op o hm fun r ht => by
    rw [hg, zero_add]
    exact hQ r ht

/-! ### The synchronous write -/

theorem wp_storeNew {payload : Bytes} {r : CompressionResult} {hash : Option ContentHash}
    {m : Option EncryptionMetadata} :
    (storeNew payload r hash m).wp moves may
      (fun r g' => g ≤ g' ∧ ∀ x, r = .ok x → x ∈ g') g := by
  refine wp_bind.mpr (wp_op .allocSegment trivial fun r _ => ?_)
  cases r with
  | error e => exact ⟨Multiset.le_add_left _ _, fun _ h => by cases h⟩
  | ok x =>
  have hle : g ≤ gains .allocSegment (.ok x) + g := Multiset.le_add_left _ _
  have hx : x ∈ gains .allocSegment (.ok x) + g :=
    Multiset.mem_add.mpr (.inl (Multiset.mem_singleton_self x))
  refine wp_bind.mpr (wp_mapError.mpr (wp_call (.append x payload) hx (fun _ => rfl)
    fun r ht => ?_))
  cases r with
  | error e => exact ⟨hle, fun _ h => by cases h⟩
  | ok segment =>
  refine wp_bind.mpr (wp_mapError.mpr (wp_call (.updateSegmentMetadata x _)
    ⟨hx, describe_id.trans ht⟩ (fun _ => rfl) fun r _ => ?_))
  cases r with
  | error e => exact ⟨hle, fun _ h => by cases h⟩
  | ok u =>
      refine ⟨hle, ?_⟩
      rintro y ⟨⟩
      exact hx

/-- What the loop over the chunks has listed may be touched. -/
def Lists (l : List SegmentId) (g : Multiset SegmentId) : Prop := ∀ x ∈ l, x ∈ g

theorem Lists.mono {l : List SegmentId} (h : Lists l g) (hle : g ≤ g') : Lists l g' :=
  fun x hx => Multiset.mem_of_le hle (h x hx)

theorem Lists.push {l : List SegmentId} (h : Lists l g) (hle : g ≤ g') (hx : x ∈ g') :
    Lists (l ++ [x]) g' := by
  intro y hy
  rcases List.mem_append.mp hy with hy | hy
  · exact h.mono hle y hy
  · exact List.mem_singleton.mp hy ▸ hx

theorem wp_writeChunk (hd : policy.dedupe = true) {st : WriteState} {chunk : Bytes × Nat}
    (h : Lists st.segmentIds g) : (writeChunk P policy st chunk).wp moves may
      (fun r g' => ∀ st', r = .ok st' → Lists st'.segmentIds g') g := by
  refine wp_bind.mpr (wp_lift.mpr ?_)
  rcases (compressSegment P chunk.1 policy.compression).mapError _ with e | ⟨view, r⟩
  · exact fun _ k => by cases k
  refine wp_bind.mpr (wp_mono (wp_idle (A := fun o => o = .currentKey) (fun o ho g => ho ▸ trivial)
    (uses_encryptionKey rfl)) fun key g₁ hle => ?_)
  cases key with
  | error e => exact fun _ k => by cases k
  | ok key =>
  refine wp_bind.mpr (wp_lift.mpr ?_)
  rcases (sealView P key view (hashContent P view)).mapError _ with e | ⟨payload, m⟩
  · exact fun _ k => by cases k
  show Prog.wp _ _ _ (if policy.dedupe = true then _ else _) g₁
  rw [if_pos hd]
  refine wp_bind.mpr (wp_op (.lookupContent _) trivial fun found _ => ?_)
  rcases found with e | _ | y
  · exact fun _ k => by cases k
  · refine wp_bind.mpr (wp_mono wp_storeNew fun r g₂ hr => ?_)
    cases r with
    | error e => exact fun _ k => by cases k
    | ok y =>
        refine wp_bind.mpr (wp_mapError.mpr (wp_call (.registerContent _ y) (hr.2 y rfl)
          (fun _ => rfl) fun r _ => ?_))
        cases r with
        | error e => exact fun _ k => by cases k
        | ok u =>
            rintro st' ⟨⟩
            exact (h.mono hle).push ((Multiset.le_add_left _ _).trans hr.1) (hr.2 y rfl)
  · have hy : y ∈ gains (.lookupContent (hashContent P view)) (.ok (some y)) + g₁ :=
      Multiset.mem_add.mpr (.inl (Multiset.mem_singleton_self y))
    refine wp_bind.mpr (wp_mapError.mpr (wp_call (.incrementRefcount y) hy (fun _ => rfl)
      fun r _ => ?_))
    cases r with
    | error e => exact fun _ k => by cases k
    | ok segment =>
        rintro st' ⟨⟩
        exact (h.mono hle).push (Multiset.le_add_left _ _) hy

theorem wp_writeCapsule (hd : policy.dedupe = true) {id : CapsuleId} {data : Bytes} :
    (writeCapsuleWithPolicy P id data policy).wp moves may (fun _ _ => True) g := by
  refine wp_bind.mpr (wp_foldlM (fun _ st g => Lists st.segmentIds g) ?_ ?_ _ _ _
    fun x hx => absurd hx List.not_mem_nil)
  · intro chunk rest st g h
    refine wp_mono (wp_writeChunk hd h) fun r g' hr => ?_
    cases r with
    | error e => trivial
    | ok st' => exact hr st' rfl
  · intro st g h
    have hcreate : Prog.Uses (fun o => may o g) (do
        (Native.createCapsuleWithSegments id data.length st.segmentIds policy).mapError
          (mapRegistryError "create_capsule_with_segments")
        return id : Native CapsuleId) :=
      uses_bind (uses_mapError.mpr (uses_op ⟨hd, h⟩)) fun _ => trivial
    refine wp_mono (wp_uses (g := g) ?_ (le_refl _)) fun _ _ _ => trivial
    show Prog.Uses _ (if 0 < st.dedupStats.bytesSaved then _ else _)
    split
    · exact uses_bind (uses_mapError.mpr (uses_op trivial)) fun _ => hcreate
    · exact hcreate

/-! ### The asynchronous write -/

/-- The pending segments of a transaction. -/
def Stages (t : NvramTransaction) (g : Multiset SegmentId) : Prop :=
  Lists (t.pending.map fun p => p.segment.id) g

theorem Stages.congr {t t' : NvramTransaction} (h : Stages t g)
    (he : (t'.pending.map fun p => p.segment.id) = t.pending.map fun p => p.segment.id) :
    Stages t' g := by
  unfold Stages
  rw [he]
  exact h

/-- The transaction stages what may be touched, and so is what was committed. -/
def Commits (g : Multiset SegmentId)
    (r : Except Error (CommitOutcome × NvramTransaction × Table ContentHash SegmentId))
    (g' : Multiset SegmentId) : Prop :=
  g ≤ g' ∧ ∀ o, r = .ok o → o.1.segId ∈ g' ∧ Stages o.2.1 g'

theorem Commits.error {e : Error} (hle : g ≤ g') : Commits g (.error e) g' :=
  ⟨hle, fun _ h => by cases h⟩

theorem wp_stageNew {prepared : SegmentPrepared} {t : NvramTransaction}
    {staged : Table ContentHash SegmentId} (h : Stages t g) :
    (stageNew policy prepared t staged).wp moves may (Commits g) g := by
  refine wp_bind.mpr (wp_op .allocSegment trivial fun r _ => ?_)
  cases r with
  | error e => exact .error (Multiset.le_add_left _ _)
  | ok x =>
  have hle : g ≤ gains .allocSegment (.ok x) + g := Multiset.le_add_left _ _
  have hx : x ∈ gains .allocSegment (.ok x) + g :=
    Multiset.mem_add.mpr (.inl (Multiset.mem_singleton_self x))
  refine wp_bind.mpr (wp_call (.appendSegment t x _) trivial (fun _ => rfl) fun r ht => ?_)
  rcases r with e | ⟨segment, t'⟩
  · exact .error hle
  obtain ⟨hid, hids⟩ := ht
  have hstages : Stages t' (gains .allocSegment (.ok x) + g) := by
    unfold Stages
    rw [hids]
    exact Lists.push h hle hx
  refine wp_bind.mpr (wp_lift.mpr ?_)
  cases hset : t'.setSegmentMetadata x (segment.describe prepared.compResult
    (if policy.dedupe then some prepared.contentHash else none) prepared.encryptionMeta) with
  | error e => exact .error hle
  | ok t'' =>
      refine ⟨hle, ?_⟩
      rintro o ⟨⟩
      exact ⟨hx, hstages.congr (NvramTransaction.withSegmentMut_ids
        (fun _ _ => describe_id.trans hid) hset)⟩

theorem wp_commitSegment {prepared : SegmentPrepared} {t : NvramTransaction}
    {staged : Table ContentHash SegmentId} (h : Stages t g) :
    (commitSegment policy prepared t staged).wp moves may (Commits g) g := by
  unfold commitSegment
  split
  · split
    · next y _ =>
      split
      · exact .error (le_refl _)
      · next pending hp =>
          -- a pending segment is reused
          refine wp_bind.mpr (wp_lift.mpr ?_)
          cases hmut : t.withSegmentMut y Segment.reuse with
          | error e => exact .error (le_refl _)
          | ok t' =>
              refine ⟨le_refl _, ?_⟩
              rintro o ⟨⟩
              refine ⟨?_, h.congr (NvramTransaction.withSegmentMut_ids
                (f := Segment.reuse) (fun _ e => e) hmut)⟩
              obtain ⟨q, hq, -⟩ := Option.map_eq_some_iff.mp hp
              have hid : q.segment.id = y := of_decide_eq_true
                (List.find?_some (p := fun p : PendingSegment => decide (p.segment.id = y)) hq)
              exact hid ▸ h q.segment.id (List.mem_map_of_mem (List.mem_of_find?_eq_some hq))
    · refine wp_bind.mpr (wp_op (.lookupContent _) trivial fun found _ => ?_)
      rcases found with e | _ | y
      · exact .error (Multiset.le_add_left _ _)
      · exact wp_mono (wp_stageNew (h.mono (Multiset.le_add_left _ _))) fun _ _ k =>
          ⟨(Multiset.le_add_left _ _).trans k.1, k.2⟩
      · have hle : g ≤ gains (.lookupContent prepared.contentHash) (.ok (some y)) + g :=
          Multiset.le_add_left _ _
        have hy : y ∈ gains (.lookupContent prepared.contentHash) (.ok (some y)) + g :=
          Multiset.mem_add.mpr (.inl (Multiset.mem_singleton_self y))
        refine wp_bind.mpr (wp_call (.incrementRefcount y) hy (fun _ => rfl) fun r _ => ?_)
        cases r with
        | error e => exact .error hle
        | ok segment =>
            refine ⟨hle, ?_⟩
            rintro o ⟨⟩
            exact ⟨hy, h.mono hle⟩
  · exact wp_stageNew h

/-- The coordinator may touch all it has to do with. -/
structure Coordinates (st : AsyncState) (g : Multiset SegmentId) : Prop where
  pending : Stages st.transaction g
  increments : Lists st.dedupeIncrements g
  registrations : ∀ r ∈ st.pendingRegistrations, r.2 ∈ g
  listed : Lists st.segmentIds g

theorem Coordinates.mono {st : AsyncState} (h : Coordinates st g) (hle : g ≤ g') :
    Coordinates st g' :=
  ⟨Lists.mono h.pending hle, h.increments.mono hle,
    fun r hr => Multiset.mem_of_le hle (h.registrations r hr), h.listed.mono hle⟩

theorem Coordinates.committed {st : AsyncState} {o : CommitOutcome} {t : NvramTransaction}
    {staged : Table ContentHash SegmentId} (h : Coordinates st g) (hle : g ≤ g')
    (ho : o.segId ∈ g') (ht : Stages t g') : Coordinates (st.committed o t staged) g' where
  pending := ht
  increments := by
    unfold AsyncState.committed
    dsimp only
    split
    · exact h.increments.push hle ho
    · exact h.increments.mono hle
  registrations := by
    intro r hr
    unfold AsyncState.committed at hr
    dsimp only at hr
    split at hr
    · rcases List.mem_append.mp hr with hr | hr
      · exact Multiset.mem_of_le hle (h.registrations r hr)
      · obtain rfl := List.mem_singleton.mp hr
        exact ho
    · exact Multiset.mem_of_le hle (h.registrations r hr)
  listed := h.listed.push hle ho

theorem wp_drain : ∀ (n : Nat) (st : AsyncState) (g : Multiset SegmentId), Coordinates st g →
    (drain policy n st).wp moves may (fun r g' => ∀ st', r = .ok st' → Coordinates st' g') g
  | 0, st, g, h => by
      rintro st' ⟨⟩
      exact h
  | n + 1, st, g, h => by
      unfold drain
      split
      · rintro st' ⟨⟩
        exact h
      · refine wp_bind.mpr (wp_attempt.mpr (wp_mono (wp_commitSegment h.pending)
          fun r g' hr => ?_))
        cases r with
        | error e =>
            rintro st' ⟨⟩
            obtain ⟨h₁, h₂, h₃, h₄⟩ := h.mono hr.1
            exact ⟨h₁, h₂, h₃, h₄⟩
        | ok o =>
            obtain ⟨ho, ht⟩ := hr.2 o rfl
            exact wp_drain n _ g' (h.committed hr.1 ho ht)

theorem wp_arrive {total : Nat} {st : AsyncState} {chunk : Bytes × Nat} (h : Coordinates st g) :
    (arrive P policy total st chunk).wp moves may
      (fun r g' => ∀ st', r = .ok st' → Coordinates st' g') g := by
  refine wp_bind.mpr (wp_attempt.mpr (wp_mono (wp_idle (A := fun o => o = .currentKey)
    (fun o ho g => ho ▸ trivial) (uses_prepareSegment (A := fun o => o = .currentKey) rfl))
    fun r g' hle => ?_))
  obtain ⟨h₁, h₂, h₃, h₄⟩ := h.mono hle
  cases r with
  | error e =>
      rintro st' ⟨⟩
      exact ⟨h₁, h₂, h₃, h₄⟩
  | ok prepared =>
      show Prog.wp _ _ _ (if st.commitError.isSome = true then _ else _) g'
      split
      · rintro st' ⟨⟩
        exact ⟨h₁, h₂, h₃, h₄⟩
      · exact wp_drain _ _ _ ⟨h₁, h₂, h₃, h₄⟩

theorem wp_writeAsync (hd : policy.dedupe = true) {limit : Nat} {arrivals : Order (Bytes × Nat)}
    {id : CapsuleId} {data : Bytes} :
    (writeCapsuleWithPolicyAsync P limit arrivals id data policy).wp moves may
      (fun _ _ => True) g := by
  have hdone {α : Type} {p : Native α} {g : Multiset SegmentId} (hp : p.Uses fun o => may o g) :
      p.wp moves may (fun _ _ => True) g :=
    wp_mono (wp_uses hp (le_refl _)) fun _ _ _ => trivial
  show Prog.wp _ _ _ (if (chunks SEGMENT_SIZE data).zipIdx.length = 0 then _ else _) g
  split
  · exact hdone (uses_bind (uses_mapError.mpr (uses_op ⟨hd, fun _ hx => absurd hx
      List.not_mem_nil⟩)) fun _ => trivial)
  · refine wp_bind.mpr (wp_call .beginTransaction trivial (fun _ => rfl) fun r ht => ?_)
    cases r with
    | error e => trivial
    | ok t =>
        refine andThen_ok.mpr ?_
        split
        · exact hdone (uses_bind (uses_discard (uses_op trivial)) fun _ => trivial)
        · have hstart : Coordinates { transaction := t } g := by
            refine ⟨fun x hx => ?_, fun _ hx => absurd hx List.not_mem_nil,
              fun _ hr => absurd hr List.not_mem_nil, fun _ hx => absurd hx List.not_mem_nil⟩
            rw [show t.pending = [] from ht] at hx
            exact absurd hx List.not_mem_nil
          refine wp_bind.mpr (wp_foldlM (fun _ st g => Coordinates st g) ?_ ?_ _ _ _ hstart)
          · intro chunk rest st g h
            refine wp_mono (wp_arrive h) fun r g' hr => ?_
            cases r with
            | error e => trivial
            | ok st' => exact hr st' rfl
          · intro st g h
            have hend : Finishes (fun o => may o g) id data.length policy st :=
              ⟨fun r hr => h.registrations r hr, fun _ _ => trivial,
                fun r hr => h.registrations r hr, fun x hx => h.increments x hx, ⟨hd, h.listed⟩,
                trivial⟩
            exact hdone (hend.uses_finishAsync trivial fun p hp =>
              h.pending p.segment.id (List.mem_map_of_mem hp))

/-! ### Deletes and collections -/

theorem wp_deleteCapsule {id : CapsuleId} :
    (WritePipeline.deleteCapsule id).wp moves may (fun _ _ => True) g := by
  refine wp_bind.mpr (wp_op (.deleteCapsule id) trivial fun r _ => ?_)
  cases r with
  | error e => trivial
  | ok c =>
      refine wp_mono (wp_uses (uses_foldlM_mem _ _ fun _ x hx => ?_) (le_refl _))
        fun _ _ _ => trivial
      have hx : x ∈ gains (.deleteCapsule id) (.ok c) + g := Multiset.mem_add.mpr (.inl hx)
      exact uses_releaseSegment hx (fun _ => trivial) hx

theorem wp_sweep {ord : Order Segment} :
    (GarbageCollector.sweep ord).wp moves may (fun _ _ => True) g := by
  refine wp_bind.mpr (wp_op (.listSegments ord) trivial fun r _ => ?_)
  cases r with
  | error e => trivial
  | ok l =>
      refine wp_mono (wp_uses (uses_foldlM_mem l 0 fun n segment hs => ?_) (le_refl _))
        fun _ _ _ => trivial
      show Prog.Uses _ (if segment.refCount = 0 then _ else _)
      split
      · next hzero =>
          have hx : segment.id ∈ gains (.listSegments ord) (.ok l) + g := by
            refine Multiset.mem_add.mpr (.inl (List.mem_map_of_mem ?_))
            exact List.mem_filter.mpr ⟨hs, decide_eq_true hzero⟩
          exact uses_bind (uses_reclaimSegment (fun _ => trivial) hx) fun _ => trivial
      · trivial

end Shares

/-! ### Commands -/

/-- The command is a write that opts out. -/
def Command.OptsOut : Command → Prop
  | write _ _ policy => policy.dedupe = false
  | writeAsync _ _ _ _ policy => policy.dedupe = false
  | _ => False

/-- **Every other command touches only what it came by.** -/
theorem Command.shares {c : Command} (h : ¬ c.OptsOut) :
    (c.program P).wp Shares.moves Shares.may (fun _ _ => True) g := by
  cases c with
  | write id data policy =>
      exact wp_discard.mpr (Shares.wp_writeCapsule (Bool.eq_true_of_not_eq_false h))
  | writeAsync limit arrivals id data policy =>
      exact wp_discard.mpr (Shares.wp_writeAsync (Bool.eq_true_of_not_eq_false h))
  | delete id => exact Shares.wp_deleteCapsule
  | collect ord => exact wp_discard.mpr Shares.wp_sweep

/-- **And so the capsules that opt out stay alone.** -/
theorem Command.apart {c : Command} (h : ¬ c.OptsOut) (hs : s.Apart) :
    ((c.program P).run StoreOp.exec s).2.Apart := by
  obtain ⟨g, -, h'⟩ := (sharing P).run (g := 0) (f := 0) trivial (.start hs) (Command.shares h)
    fun _ _ _ => trivial
  exact h'.apart

end Space

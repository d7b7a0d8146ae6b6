import Space.Modular.Counts

/-!
# Modular — Collect

The collector of the modular pipeline is exact: a segment that a capsule lists is kept, since its
count is not below the number of times it is listed, and the others go, whatever their counts say.

* `Does`: what the operations may do, over parts that answer as they like, some operations
  failing before or after they take effect.
* `wp_writeCapsule`, `wp_deleteCapsule`, `wp_garbageCollect`: what each method makes of the store.
* `garbageCollect_exact`: after a collection, in every run of writes that succeed or fail, deletes
  and collections.
-/

namespace Space
open Support Prog

variable {s s' : InMemory} {x : SegmentId} {demand : SegmentId → Nat}

/-! ### What the operations may do -/

/-- What the operations may do: the parts answer as they like, and an operation of `F` may fail,
before or after it has taken effect.  Nothing is called where `A` forbids it. -/
def Does (F : ModularOp → Prop) (A : ModularOp → InMemory → Prop) :
    Moves ModularSig Error InMemory := fun o s r s' =>
  A o s ∧ ((∃ parts, o.exec parts InMemoryBackend.storage s = (r, s')) ∨
    F o ∧ ∃ e, r = .error e ∧
      (s' = s ∨ ∃ parts, s' = (o.exec parts InMemoryBackend.storage s).2))

/-- The steps of a write that may fail. -/
def ModularOp.MayFail : ModularOp → Prop
  | .metadata _ => True
  | .beginTxn => True
  | .append _ _ => True
  | .setSegmentMetadata _ _ => True
  | .commit => True
  | .createCapsule _ _ _ _ _ => True
  | _ => False

/-- No reference is added to a segment that has `u32::MAX`. -/
def ModularOp.Countable : ModularOp → InMemory → Prop
  | .metadata x, s => ∀ m, s.info x = some m → m.refCount < u32Max
  | _, _ => True

/-- The steps of a write. -/
abbrev WriteDoes : Moves ModularSig Error InMemory := Does ModularOp.MayFail ModularOp.Countable

namespace Modular
variable {F : ModularOp → Prop} {A : ModularOp → InMemory → Prop} {α β : Type}

/-- Every run of the program ends in `Q`. -/
abbrev Ends (F : ModularOp → Prop) (A : ModularOp → InMemory → Prop) (p : Modular α)
    (Q : Except Error α → InMemory → Prop) (s : InMemory) : Prop :=
  p.wp (Does F A) (fun _ _ => True) Q s

/-- Every run of the program, no operation of which fails, ends in `Q`. -/
abbrev Settles (p : Modular α) (Q : Except Error α → InMemory → Prop) (s : InMemory) : Prop :=
  Ends (fun _ => False) (fun _ _ => True) p Q s

/-- An operation: what it does over any parts, and how it may fail. -/
theorem ends_perform (o : ModularOp) {Q : Except Error o.Res → InMemory → Prop}
    (hok : ∀ parts, A o s → Q (o.exec parts InMemoryBackend.storage s).1
      (o.exec parts InMemoryBackend.storage s).2)
    (herr : F o → ∀ e, Q (.error e) s ∧
      ∀ parts, Q (.error e) (o.exec parts InMemoryBackend.storage s).2) :
    Ends F A (Prog.perform (S := ModularSig) o) Q s := by
  refine wp_perform.mpr ⟨trivial, fun r s' h => ?_⟩
  obtain ⟨hA, ⟨parts, h⟩ | ⟨hF, e, rfl, rfl | ⟨parts, rfl⟩⟩⟩ := h
  · have h' := hok parts hA
    rwa [h] at h'
  · exact (herr hF e).1
  · exact (herr hF e).2 parts

/-- An operation of the parts alone. -/
theorem ends_parts (o : ModularOp) {Q : Except Error o.Res → InMemory → Prop}
    (ho : ∀ parts, (o.exec parts InMemoryBackend.storage s).2 = s) (hQ : ∀ r, Q r s) :
    Ends F A (Prog.perform (S := ModularSig) o) Q s := by
  refine ends_perform o ?_ ?_
  · intro parts _
    rw [ho]
    exact hQ _
  · intro _ e
    refine ⟨hQ _, fun parts => ?_⟩
    rw [ho]
    exact hQ _

/-- An operation that only answers. -/
theorem ends_answer (o : ModularOp) {r : Except Error o.Res}
    {Q : Except Error o.Res → InMemory → Prop}
    (ho : ∀ parts, o.exec parts InMemoryBackend.storage s = (r, s)) (hQ : A o s → Q r s)
    (herr : F o → ∀ e, Q (.error e) s) : Ends F A (Prog.perform (S := ModularSig) o) Q s := by
  refine ends_perform o ?_ ?_
  · intro parts hA
    rw [ho]
    exact hQ hA
  · intro hF e
    refine ⟨herr hF e, fun parts => ?_⟩
    rw [ho]
    exact herr hF e

theorem exec_metadata {m : Segment} (hm : s.info x = some m) (parts : Parts) :
    (ModularOp.metadata x).exec parts InMemoryBackend.storage s = (.ok m, s) := by
  show (InMemoryBackend.storage.metadata x s.1, s) = _
  rw [InMemory.storage_metadata hm]
  rfl

theorem exec_metadata_none (hm : s.info x = none) (parts : Parts) :
    (ModularOp.metadata x).exec parts InMemoryBackend.storage s =
      (.error (.msg ("segment " ++ x.debug ++ " metadata not found")), s) := by
  show (InMemoryBackend.storage.metadata x s.1, s) = _
  rw [InMemory.storage_metadata_none hm]
  rfl

/-- **Transactions.**  Whatever fails, the reader sees what the failed step left. -/
theorem ends_inTxn {p : Modular α} {Q : Except Error α → InMemory → Prop}
    (hbegin : (∃ o, F o) → ∀ e s', s.Alike s' → Q (.error e) s')
    (hp : Ends F A p (fun r s' => match r with
      | .ok a => Q (.ok a) s'
      | .error e => ∀ s'', s'.Alike s'' → Q (.error e) s'') ({ s.1 with transaction := {} }, s.2)) :
    Ends F A (inTxn p) Q s := by
  refine wp_bind.mpr (ends_perform .beginTxn ?_ ?_)
  · intro parts _
    refine wp_onError (wp_mono hp fun r s' hr => ?_)
    cases r with
    | ok a => exact hr
    | error e =>
        refine ends_perform .dropTxn ?_ ?_
        · intro parts _
          exact hr _ ⟨rfl, rfl, rfl, rfl, Nat.le_refl _⟩
        · intro _ e'
          exact ⟨hr _ (.refl _), fun parts => hr _ ⟨rfl, rfl, rfl, rfl, Nat.le_refl _⟩⟩
  · intro hF e
    exact ⟨hbegin ⟨_, hF⟩ e _ (.refl _), fun parts =>
      hbegin ⟨_, hF⟩ e _ ⟨rfl, rfl, rfl, rfl, Nat.le_refl _⟩⟩

end Modular

/-! ### Transactions of the pipeline -/

namespace Pipeline
open Space.Modular
variable {F : ModularOp → Prop} {A : ModularOp → InMemory → Prop}

theorem wp_updateMetadata {m : Segment} {Q : Except Error Unit → InMemory → Prop}
    (hok : ∀ s', s.Updated x m s' → Q (.ok ()) s')
    (herr : (∃ o, F o) → ∀ e s₁ s', s.Alike s₁ ∨ s.Updated x m s₁ → s₁.Alike s' →
      Q (.error e) s') : Ends F A (updateMetadata x m) Q s := by
  have hcommit : s.Updated x m (InMemoryBackend.commit
      { s.1 with transaction := { stagedMetadata := (∅ : Table SegmentId Segment).insert x m } },
      s.2) := by
    refine ⟨funext fun y => ?_, InMemoryBackend.commit_metadata_one _, rfl⟩
    exact InMemoryBackend.lookup_commit_segments _ y
  have hkeep : (∃ o, F o) → ∀ e t s', InMemory.Alike ({ s.1 with transaction := t }, s.2) s' →
      Q (.error e) s' := fun hF e t s' ha => herr hF e _ s' (.inl (.staged s t)) ha
  refine ends_inTxn (fun hF e s' ha => herr hF e s s' (.inl (.refl _)) ha) ?_
  refine wp_bind.mpr (ends_perform (.setSegmentMetadata x m) ?_ ?_)
  · intro parts _
    refine ends_perform .commit ?_ ?_
    · intro parts _
      exact hok _ hcommit
    · intro hF e
      exact ⟨hkeep ⟨_, hF⟩ e _, fun parts s' ha => herr ⟨_, hF⟩ e _ s' (.inr hcommit) ha⟩
  · intro hF e
    exact ⟨hkeep ⟨_, hF⟩ e _, fun parts => hkeep ⟨_, hF⟩ e _⟩

theorem wp_encryptView {capsuleId : CapsuleId} {encryptionPolicy : EncryptionPolicy}
    {view : Bytes} {Q : Except Error (Bytes × EncryptionSummary) → InMemory → Prop}
    (hQ : ∀ r, Q r s) : Ends F A (encryptView capsuleId encryptionPolicy view x) Q s := by
  unfold encryptView
  split
  · refine wp_bind.mpr (ends_parts (.deriveKey capsuleId x) (fun _ => rfl) fun r => ?_)
    cases r with
    | ok u => exact ends_parts (.encrypt view encryptionPolicy x) (fun _ => rfl) hQ
    | error e => exact hQ _
  · exact hQ _

/-- What a step that stores a view may leave behind. -/
def Stores (hash : ContentHash) (s s' : InMemory) : Prop :=
  s.Alike s' ∨ ∃ payload m s₁, m.refCount = 1 ∧ m.contentHash = some hash ∧
    s.Entered payload m s₁ ∧ s₁.Alike s'

theorem wp_storeSegment {capsuleId : CapsuleId} {encryptionPolicy : EncryptionPolicy}
    {view : Bytes} {summary : CompressionSummary} {hash : ContentHash}
    {Q : Except Error SegmentId → InMemory → Prop}
    (hok : ∀ payload m s', m.refCount = 1 → m.contentHash = some hash →
      s.Entered payload m s' → Q (.ok ⟨s.2.nextSegment⟩) s')
    (herr : ∀ e s', Stores hash s s' → Q (.error e) s') :
    Ends F A (storeSegment capsuleId encryptionPolicy view summary hash) Q s := by
  have hbefore : ∀ e t s', InMemory.Alike ({ s.1 with transaction := t }, s.2) s' →
      Q (.error e) s' := fun e t s' ha => herr e s' (.inl (.trans (.staged s t) ha))
  have hafter : ∀ e t s', InMemory.Alike
      ({ s.1 with transaction := t }, s.2.allocateSegment.2) s' → Q (.error e) s' :=
    fun e t s' ha => herr e s' (.inl (.trans (.allocated s t) ha))
  refine ends_inTxn (fun _ e s' ha => herr e s' (.inl ha)) ?_
  refine wp_bind.mpr (ends_perform .allocateSegment ?_ ?_)
  · intro parts _
    refine wp_bind.mpr (wp_encryptView fun r => ?_)
    rcases r with e | ⟨payload, encryptionSummary⟩
    · exact hafter e _
    · let m := Segment.new ⟨s.2.nextSegment⟩ payload summary hash encryptionSummary
        encryptionPolicy.isEnabled
      have hcommit : s.Entered payload m (InMemoryBackend.commit
          { s.1 with transaction :=
            { stagedSegments := (∅ : Table SegmentId Bytes).insert ⟨s.2.nextSegment⟩ payload
              stagedMetadata := (∅ : Table SegmentId Segment).insert ⟨s.2.nextSegment⟩ m } },
          s.2.allocateSegment.2) :=
        ⟨InMemoryBackend.commit_segments_one _, InMemoryBackend.commit_metadata_one _, rfl⟩
      refine wp_bind.mpr (ends_perform (.append ⟨s.2.nextSegment⟩ payload) ?_ ?_)
      · intro parts _
        refine wp_bind.mpr (ends_perform (.setSegmentMetadata ⟨s.2.nextSegment⟩ m) ?_ ?_)
        · intro parts _
          refine wp_bind.mpr (ends_perform .commit ?_ ?_)
          · intro parts _
            exact hok payload m _ rfl rfl hcommit
          · intro _ e
            exact ⟨hafter e _, fun parts s' ha =>
              herr e s' (.inr ⟨payload, m, _, rfl, rfl, hcommit, ha⟩)⟩
        · intro _ e
          exact ⟨hafter e _, fun parts => hafter e _⟩
      · intro _ e
        exact ⟨hafter e _, fun parts => hafter e _⟩
  · intro _ e
    exact ⟨hbefore e _, fun parts => hafter e _⟩

/-! ### Writes -/

/-- A segment is written: the references that are held are those of the new list. -/
theorem wp_writeSegment {capsuleId : CapsuleId} {data : Bytes}
    {compressionPolicy : CompressionPolicy} {encryptionPolicy : EncryptionPolicy}
    {st : WriteState} {seg : SegmentRef} (h : Owes st.segmentIds s) :
    Ends ModularOp.MayFail ModularOp.Countable
      (writeSegment capsuleId data compressionPolicy encryptionPolicy st seg)
      (fun r s' => match r with
        | .ok st' => Owes st'.segmentIds s'
        | .error _ => Owes [] s') s := by
  unfold writeSegment
  dsimp only
  split
  · exact h.drop
  refine wp_bind.mpr (ends_parts (.compress _ _) (fun _ => rfl) fun r => ?_)
  rcases r with e | ⟨view, summary⟩
  · exact h.drop
  refine wp_bind.mpr (ends_parts (.hashContent view) (fun _ => rfl) fun r => ?_)
  rcases r with e | hash
  · exact h.drop
  refine wp_bind.mpr (ends_answer (.lookupContent hash) (r := .ok (s.content hash)) (fun _ => rfl)
    (fun _ => ?_) fun hF => hF.elim)
  cases hc : s.content hash with
  | some existing =>
      -- a reference is added to the segment that has the view
      obtain ⟨m, hm, -⟩ := Covered.content h hash existing hc
      refine wp_bind.mpr (ends_answer (.metadata existing) (exec_metadata hm) (fun hcount => ?_)
        fun _ e => h.drop)
      have hlt : m.refCount < u32Max := hcount m hm
      have hcast : asU32 (m.refCount + 1) = m.refCount + 1 :=
        Nat.mod_eq_of_lt (Nat.succ_lt_succ hlt)
      refine wp_bind.mpr (wp_updateMetadata ?_ ?_)
      · intro s' hu
        rw [hcast] at hu
        exact wp_bind.mpr (ends_answer (.recordStats _ _) (fun _ => rfl)
          (fun _ => h.share hm hu) fun hF => hF.elim)
      · rintro - e s₁ s' (ha | hu) ha'
        · exact (h.alike (ha.trans ha')).drop
        · rw [hcast] at hu
          exact ((h.share hm hu).alike ha').drop
  | none =>
      -- the view is stored, and registered under its hash
      refine wp_bind.mpr (wp_storeSegment ?_ ?_)
      · intro payload m s' hcount hhash he
        refine wp_bind.mpr (ends_perform (.registerContent hash _) ?_ fun hF => hF.elim)
        intro parts _
        have h' := Covered.register (h.enter he hcount)
          (by rw [he.info]; exact Function.update_self ..) hhash
        refine wp_bind.mpr (ends_parts (.dedupRegister hash _) (fun _ => rfl) fun r => ?_)
        cases r with
        | ok u =>
            exact wp_bind.mpr (ends_answer (.recordStats _ _) (fun _ => rfl) (fun _ => h')
              fun hF => hF.elim)
        | error e => exact Owes.drop h'
      · rintro e s' (ha | ⟨payload, m, s₁, hcount, -, he, ha⟩)
        · exact (h.alike ha).drop
        · exact ((h.enter he hcount).alike ha).drop

/-- **A write**, whether it succeeds or fails. -/
theorem wp_writeCapsule {capsuleId : CapsuleId} {data : Bytes} {policy : Policy} (h : Owes [] s) :
    Ends ModularOp.MayFail ModularOp.Countable (writeCapsule capsuleId data policy)
      (fun _ s' => Owes [] s') s := by
  refine wp_bind.mpr (ends_parts (.evaluateCompression policy _) (fun _ => rfl) fun r => ?_)
  rcases r with e | compressionPolicy
  · exact h
  refine wp_bind.mpr (wp_lift.mpr ?_)
  cases zonePlan policy data with
  | error e => exact h
  | ok zones =>
      refine wp_bind.mpr (ends_parts (.evaluateEncryption policy) (fun _ => rfl) fun r => ?_)
      rcases r with e | encryptionPolicy
      · exact h
      refine wp_bind.mpr (wp_foldlM (fun _ st s => Owes st.segmentIds s) ?_ ?_ _ _ _ h)
      · intro seg rest st s h
        refine wp_mono (wp_writeSegment h) fun r s' hr => ?_
        cases r with
        | ok st' => exact hr
        | error e => exact hr
      · intro st s h
        refine wp_bind.mpr (ends_perform (.createCapsule capsuleId data.length policy
          st.segmentIds st.dedupStats) ?_ ?_)
        · intro parts _
          exact h.create
        · intro _ e
          exact ⟨h.drop, fun parts => h.create⟩

/-! ### Deletes -/

/-- What `deregisterContent` leaves of the entries. -/
theorem content_deregister (c : InMemoryCatalog) (hash hash' : ContentHash) (y : SegmentId) :
    (c.deregisterContent hash x).2.content.lookup hash' = some y ↔
      c.content.lookup hash' = some y ∧ ¬ (hash' = hash ∧ y = x) := by
  unfold InMemoryCatalog.deregisterContent
  split
  · rename_i hx
    rw [Table.lookup_erase_eq_some]
    constructor
    · rintro ⟨hne, hy⟩
      exact ⟨hy, fun e => hne e.1⟩
    · rintro ⟨hy, hne⟩
      refine ⟨?_, hy⟩
      rintro rfl
      rw [hx] at hy
      exact hne ⟨rfl, (Option.some.inj hy).symm⟩
  · rename_i hx
    refine ⟨fun hy => ⟨hy, ?_⟩, And.left⟩
    rintro ⟨rfl, rfl⟩
    exact hx hy

theorem capsules_deregister (c : InMemoryCatalog) (hash : ContentHash) :
    (c.deregisterContent hash x).2.capsules = c.capsules ∧
      (c.deregisterContent hash x).2.nextSegment = c.nextSegment := by
  unfold InMemoryCatalog.deregisterContent
  split <;> exact ⟨rfl, rfl⟩

/-- **A reference is taken back**, of those that are asked for. -/
theorem wp_releaseSegment (h : Covered (fun y => demand y + [x].count y) s) :
    Settles (releaseSegment x)
      (fun r s' => r = .ok () ∧ Covered demand s' ∧ s'.2.capsules = s.2.capsules) s := by
  have hpos : 0 < demand x + [x].count x := by
    rw [List.count_singleton_self]
    exact Nat.succ_pos _
  obtain ⟨m, hm, hle⟩ := h.counted x hpos
  rw [List.count_singleton_self] at hle
  have hless : ∀ y, demand y ≤ demand y + [x].count y := fun _ => Nat.le_add_right _ _
  refine wp_bind.mpr (ends_answer (.metadata x) (exec_metadata hm) (fun _ => ?_) fun hF => hF.elim)
  refine andThen_ok.mpr ?_
  split
  · refine wp_updateMetadata ?_ fun ⟨_, hF⟩ => hF.elim
    intro s' hu
    refine ⟨rfl, h.recount hm hu (Nat.le_sub_of_add_le hle) fun y _ => hless y, ?_⟩
    rw [hu.cat]
  · rename_i hone
    have hzero : demand x = 0 := by omega
    have herased : ∀ c : InMemoryCatalog, c.nextSegment = s.2.nextSegment →
        (∀ hash y, c.content.lookup hash = some y → s.content hash = some y ∧ y ≠ x) →
        Covered demand ({ s.1 with
          segments := s.1.segments.erase x, metadata := s.1.metadata.erase x }, c) := by
      intro c hnext hcontent
      refine h.forget ?_ ?_ hcontent hnext hzero hless
      · funext y
        rw [Function.update_apply]
        exact Table.lookup_erase ..
      · funext y
        rw [Function.update_apply]
        exact Table.lookup_erase ..
    have hname : ∀ hash, s.content hash = some x → m.contentHash = some hash := by
      intro hash hx
      obtain ⟨m', hm', hc⟩ := h.content hash x hx
      rw [hm] at hm'
      cases hm'
      exact hc
    refine wp_bind.mpr (ends_perform (.delete x) ?_ fun hF => hF.elim)
    intro parts _
    refine andThen_ok.mpr ?_
    cases hc : m.contentHash with
    | none =>
        refine ⟨rfl, herased s.2 rfl fun hash y hy => ⟨hy, ?_⟩, rfl⟩
        rintro rfl
        exact Option.some_ne_none _ ((hname hash hy).symm.trans hc)
    | some hash =>
        refine wp_discard.mpr (ends_perform (.deregisterContent hash x) ?_ fun hF => hF.elim)
        intro parts _
        have hcat := capsules_deregister (x := x) s.2 hash
        refine ⟨rfl, herased _ hcat.2 fun hash' y hy => ?_, hcat.1⟩
        obtain ⟨hy', hne⟩ := (content_deregister s.2 hash hash' y).mp hy
        refine ⟨hy', ?_⟩
        rintro rfl
        exact hne ⟨Option.some.inj ((hname hash' hy').symm.trans hc), rfl⟩

/-- **A delete** takes the references of the capsule back. -/
theorem wp_deleteCapsule {id : CapsuleId} (h : Owes [] s) :
    Settles (deleteCapsule id) (fun _ s' => Owes [] s') s := by
  refine wp_bind.mpr (ends_answer (.lookupCapsule id) (r := s.2.lookupCapsule id) (fun _ => rfl)
    (fun _ => ?_) fun hF => hF.elim)
  cases hc : s.2.capsules.lookup id with
  | none =>
      rw [show s.2.lookupCapsule id = .error _ by rw [InMemoryCatalog.lookupCapsule, hc]]
      exact h
  | some capsule =>
      rw [show s.2.lookupCapsule id = .ok capsule by rw [InMemoryCatalog.lookupCapsule, hc]]
      let kept (y : SegmentId) :=
        Table.total (fun c : Capsule => c.segments.count y) (s.2.capsules.erase id)
      have hinit : Covered (fun y => kept y + capsule.segments.count y) s :=
        Covered.mono h fun y => by
          show _ ≤ Table.total _ s.2.capsules + 0
          rw [Table.total_erase _ hc, Nat.add_comm]
          exact Nat.le_refl _
      refine wp_bind.mpr (wp_foldlM (fun rest _ s' =>
        Covered (fun y => kept y + rest.count y) s' ∧ s'.2.capsules = s.2.capsules)
        ?_ ?_ _ _ _ ⟨hinit, rfl⟩)
      · rintro x rest - s₁ ⟨h₁, hcap⟩
        have h₁ : Covered (fun y => kept y + rest.count y + [x].count y) s₁ :=
          h₁.mono fun y => by
            have hcons : ([x] ++ rest).count y = [x].count y + rest.count y := List.count_append
            show kept y + rest.count y + [x].count y ≤ kept y + ([x] ++ rest).count y
            omega
        refine wp_mono (wp_releaseSegment h₁) ?_
        rintro r s₂ ⟨rfl, h₂, hcap₂⟩
        exact ⟨h₂, hcap₂.trans hcap⟩
      · rintro - s₁ ⟨h₁, hcap⟩
        refine wp_discard.mpr (ends_perform (.deleteCapsule id) ?_ fun hF => hF.elim)
        intro parts _
        have herase : (s₁.2.deleteCapsule id).2 =
            { s₁.2 with capsules := s.2.capsules.erase id } := by
          rw [InMemoryCatalog.deleteCapsule, hcap, hc]
        show Covered (fun y => Table.total _ (s₁.2.deleteCapsule id).2.capsules + 0)
          (s₁.1, (s₁.2.deleteCapsule id).2)
        rw [herase]
        exact ⟨h₁.counted, h₁.content, h₁.fresh, h₁.stored⟩

/-! ### Collections -/

/-- Each entry of the inverted map is one of the entries, and every segment of an entry has one. -/
theorem lookup_contentMapOf (entries : List (ContentHash × SegmentId)) (x : SegmentId) :
    (∀ hash, (contentMapOf entries).lookup x = some hash → (hash, x) ∈ entries) ∧
      ((contentMapOf entries).lookup x = none → ∀ hash, (hash, x) ∉ entries) := by
  have hfold : ∀ (l : List (ContentHash × SegmentId)) (m : Table SegmentId ContentHash),
      (∀ hash, (l.foldl (fun m e => m.insert e.2 e.1) m).lookup x = some hash →
        (hash, x) ∈ l ∨ m.lookup x = some hash) ∧
      ((l.foldl (fun m e => m.insert e.2 e.1) m).lookup x = none →
        m.lookup x = none ∧ ∀ hash, (hash, x) ∉ l) := by
    intro l
    induction l with
    | nil => exact fun m => ⟨fun hash h => .inr h, fun h => ⟨h, fun _ => List.not_mem_nil⟩⟩
    | cons e l ih =>
        intro m
        refine ⟨fun hash h => ?_, fun h => ?_⟩
        · rcases (ih _).1 hash h with h | h
          · exact .inl (List.mem_cons_of_mem _ h)
          · rcases Table.lookup_insert_eq_some.mp h with ⟨rfl, rfl⟩ | ⟨-, h⟩
            · exact .inl List.mem_cons_self
            · exact .inr h
        · obtain ⟨hm, hl⟩ := (ih _).2 h
          rw [Table.lookup_insert] at hm
          split at hm
          · cases hm
          · rename_i hne
            refine ⟨hm, fun hash hmem => ?_⟩
            rcases List.mem_cons.mp hmem with rfl | hmem
            · exact hne rfl
            · exact hl hash hmem
  obtain ⟨h₁, h₂⟩ := hfold entries ∅
  refine ⟨fun hash h => ?_, fun h => (h₂ h).2⟩
  rcases h₁ hash h with h | h
  · exact h
  · rw [AList.lookup_empty] at h
    cases h

theorem mem_contentEntries {c : InMemoryCatalog} {ord : Order (ContentHash × SegmentId)}
    {hash : ContentHash} : (hash, x) ∈ c.contentEntries ord ↔ c.content.lookup hash = some x := by
  rw [InMemoryCatalog.contentEntries, Order.mem_reorder, List.mem_map]
  constructor
  · rintro ⟨⟨k, v⟩, he, h⟩
    cases h
    exact AList.mem_lookup_iff.mpr he
  · intro h
    exact ⟨⟨hash, x⟩, AList.mem_lookup_iff.mp h, rfl⟩

theorem mem_referenced {ord : Order Capsule} :
    x ∈ (ord.reorder s.2.capsules.values).flatMap Capsule.segments ↔ s.Lists x := by
  simp only [List.mem_flatMap, Order.mem_reorder, Table.mem_values]
  constructor
  · rintro ⟨capsule, ⟨id, hc⟩, hx⟩
    exact ⟨id, capsule, hc, hx⟩
  · rintro ⟨id, capsule, hc, hx⟩
    exact ⟨capsule, ⟨id, hc⟩, hx⟩

/-- A collection that has the segments in `rest` still to see. -/
structure Collecting (s : InMemory) (rest : List SegmentId) (s' : InMemory) : Prop where
  segments : s'.1.segments = s.1.segments
  metadata : s'.1.metadata = s.1.metadata
  staged : s'.1.transaction.stagedSegments = ∅ ∧ s'.1.transaction.stagedMetadata = ∅
  capsules : s'.2.capsules = s.2.capsules
  next : s'.2.nextSegment = s.2.nextSegment
  kept : ∀ x ∈ s'.1.transaction.deleted, ¬ s.Lists x
  seen : ∀ x m, s.info x = some m → s.Lists x ∨ x ∈ s'.1.transaction.deleted ∨ x ∈ rest
  content : ∀ hash x, s'.content hash = some x ↔
    s.content hash = some x ∧ x ∉ s'.1.transaction.deleted

/-- The store after a collection: what the capsules list, and nothing else. -/
structure Collected (s s' : InMemory) : Prop where
  seg : ∀ x, s.Lists x → s'.seg x = s.seg x
  info : ∀ x, s.Lists x → s'.info x = s.info x
  gone : ∀ x, ¬ s.Lists x → s'.seg x = none ∧ s'.info x = none
  capsules : s'.2.capsules = s.2.capsules
  next : s'.2.nextSegment = s.2.nextSegment
  content : ∀ hash x, s'.content hash = some x ↔ s.content hash = some x ∧ s.Lists x

namespace Collecting
variable {s₁ : InMemory} {rest : List SegmentId}

/-- A segment that is kept. -/
theorem skip (h : Collecting s (x :: rest) s₁) (hx : ∀ m, s.info x = some m → s.Lists x) :
    Collecting s rest s₁ :=
  { h with
    seen := by
      intro y m hm
      rcases h.seen y m hm with hl | hd | hr
      · exact .inl hl
      · exact .inr (.inl hd)
      · rcases List.mem_cons.mp hr with rfl | hr
        · exact .inl (hx m hm)
        · exact .inr (.inr hr) }

/-- A segment that goes. -/
theorem delete (h : Collecting s (x :: rest) s₁) (hx : ¬ s.Lists x) {c : InMemoryCatalog}
    (hcap : c.capsules = s₁.2.capsules ∧ c.nextSegment = s₁.2.nextSegment)
    (hcontent : ∀ hash y, c.content.lookup hash = some y ↔ s₁.content hash = some y ∧ y ≠ x) :
    Collecting s rest ((InMemoryBackend.storage.txnDelete x s₁.1), c) where
  segments := h.segments
  metadata := h.metadata
  staged := h.staged
  capsules := hcap.1.trans h.capsules
  next := hcap.2.trans h.next
  kept := by
    intro y hy
    rcases List.mem_append.mp hy with hy | hy
    · exact h.kept y hy
    · exact List.mem_singleton.mp hy ▸ hx
  seen := by
    intro y m hm
    rcases h.seen y m hm with hl | hd | hr
    · exact .inl hl
    · exact .inr (.inl (List.mem_append_left _ hd))
    · rcases List.mem_cons.mp hr with rfl | hr
      · exact .inr (.inl (List.mem_append_right _ (List.mem_singleton.mpr rfl)))
      · exact .inr (.inr hr)
  content := by
    intro hash y
    refine (hcontent hash y).trans ?_
    rw [h.content, and_assoc]
    refine and_congr_right fun _ => ?_
    rw [← not_or]
    refine not_congr (Iff.trans ?_ List.mem_append.symm)
    rw [List.mem_singleton]

/-- **The commit** of a collection that has seen every segment. -/
theorem commit (h : Collecting s [] s₁) {demand : SegmentId → Nat} (hs : Covered demand s) :
    Collected s (s₁.1.commit, s₁.2) := by
  have hseg : ∀ y, InMemory.seg (s₁.1.commit, s₁.2) y =
      if y ∈ s₁.1.transaction.deleted then none else s.seg y := by
    intro y
    refine (InMemoryBackend.lookup_commit_segments _ y).trans ?_
    rw [h.staged.1, h.segments]
    rfl
  have hinfo : ∀ y, InMemory.info (s₁.1.commit, s₁.2) y =
      if y ∈ s₁.1.transaction.deleted then none else s.info y := by
    intro y
    refine (InMemoryBackend.lookup_commit_metadata _ y).trans ?_
    rw [h.staged.2, h.metadata]
    rfl
  have hlisted : ∀ y, s.Lists y → y ∉ s₁.1.transaction.deleted := fun y hy hd => h.kept y hd hy
  refine ⟨fun y hy => ?_, fun y hy => ?_, fun y hy => ?_, h.capsules, h.next, fun hash y => ?_⟩
  · rw [hseg, if_neg (hlisted y hy)]
  · rw [hinfo, if_neg (hlisted y hy)]
  · rw [hseg, hinfo]
    by_cases hd : y ∈ s₁.1.transaction.deleted
    · rw [if_pos hd, if_pos hd]
      exact ⟨rfl, rfl⟩
    · rw [if_neg hd, if_neg hd]
      have hnone : s.info y = none := by
        cases hm : s.info y with
        | none => rfl
        | some m =>
            rcases h.seen y m hm with hl | hd' | hr
            · exact absurd hl hy
            · exact absurd hd' hd
            · exact absurd hr List.not_mem_nil
      have hstored := hs.stored y
      rw [hnone] at hstored
      exact ⟨Option.not_isSome_iff_eq_none.mp (by rw [hstored]; exact Bool.false_ne_true), hnone⟩
  · refine (h.content hash y).trans (and_congr_right fun hc => ⟨fun hd => ?_, hlisted y⟩)
    obtain ⟨m, hm, -⟩ := hs.content hash y hc
    rcases h.seen y m hm with hl | hd' | hr
    · exact hl
    · exact absurd hd' hd
    · exact absurd hr List.not_mem_nil

end Collecting

/-- One segment is seen. -/
theorem wp_collectSegment {referenced : List SegmentId} {contentMap : Table SegmentId ContentHash}
    {s₁ : InMemory} {rest : List SegmentId} {n : Nat} (hs : Owes [] s)
    (hmem : ∀ y, y ∈ referenced ↔ s.Lists y)
    (hmap : ∀ y hash, contentMap.lookup y = some hash ↔ s.content hash = some y)
    (h : Collecting s (x :: rest) s₁) :
    Settles (collectSegment referenced contentMap n x)
      (fun r s₂ => ∃ n', r = .ok n' ∧ Collecting s rest s₂) s₁ := by
  have hinfo : s₁.info x = s.info x := by
    unfold InMemory.info
    rw [h.metadata]
  refine wp_bind.mpr (wp_attempt.mpr ?_)
  cases hm : s.info x with
  | none =>
      refine ends_answer (.metadata x) (exec_metadata_none (hinfo.trans hm)) (fun _ => ?_)
        fun hF => hF.elim
      exact ⟨n, rfl, h.skip fun m hm' => absurd (hm.symm.trans hm') (Option.some_ne_none m).symm⟩
  | some m =>
      refine ends_answer (.metadata x) (exec_metadata (hinfo.trans hm)) (fun _ => ?_)
        fun hF => hF.elim
      refine andThen_ok.mpr ?_
      dsimp only
      split
      · rename_i hkeep
        exact ⟨n, rfl, h.skip fun _ _ => (hmem x).mp hkeep.1⟩
      · rename_i hdrop
        have hx : ¬ s.Lists x := by
          intro hx
          have hpos : 0 < s.occ x + [].count x := InMemory.occ_pos.mpr hx
          exact hdrop ⟨(hmem x).mpr hx, hpos.trans_le (Covered.le_refCount hs hm)⟩
        refine wp_bind.mpr (ends_perform (.txnDelete x) ?_ fun hF => hF.elim)
        intro parts _
        refine andThen_ok.mpr ?_
        cases hc : contentMap.lookup x with
        | none =>
            refine ⟨n + 1, rfl, h.delete hx ⟨rfl, rfl⟩ fun hash y => ⟨fun hy => ⟨hy, ?_⟩, And.left⟩⟩
            rintro rfl
            have hold := (hmap y hash).mpr ((h.content hash y).mp hy).1
            exact absurd (hc.symm.trans hold) (Option.some_ne_none _).symm
        | some hash =>
            refine wp_bind.mpr (wp_discard.mpr
              (ends_perform (.deregisterContent hash x) ?_ fun hF => hF.elim))
            intro parts _
            refine ⟨n + 1, rfl, h.delete hx (capsules_deregister s₁.2 hash) fun hash' y => ?_⟩
            refine (content_deregister s₁.2 hash hash' y).trans (and_congr_right fun hy => ?_)
            refine ⟨?_, fun hne hand => hne hand.2⟩
            rintro hne rfl
            have hold := (hmap y hash').mpr ((h.content hash' y).mp hy).1
            exact hne ⟨Option.some.inj (hold.symm.trans hc), rfl⟩

/-- **A collection** succeeds, and what stays is what the capsules list. -/
theorem wp_garbageCollect {capsuleOrd : Order Capsule}
    {contentOrd : Order (ContentHash × SegmentId)} {segmentOrd : Order SegmentId} (hs : Owes [] s) :
    Settles (garbageCollect capsuleOrd contentOrd segmentOrd)
      (fun r s' => ∃ n, r = .ok n ∧ Collected s s') s := by
  refine wp_bind.mpr (ends_answer (.capsules capsuleOrd)
    (r := .ok (capsuleOrd.reorder s.2.capsules.values)) (fun _ => rfl) (fun _ => ?_)
    fun hF => hF.elim)
  refine wp_bind.mpr (ends_answer (.contentEntries contentOrd)
    (r := .ok (s.2.contentEntries contentOrd)) (fun _ => rfl) (fun _ => ?_) fun hF => hF.elim)
  refine wp_bind.mpr (ends_answer (.segmentIds segmentOrd)
    (r := .ok (segmentOrd.reorder s.1.metadata.keys)) (fun _ => rfl) (fun _ => ?_)
    fun hF => hF.elim)
  have hmap : ∀ y hash, (contentMapOf (s.2.contentEntries contentOrd)).lookup y = some hash ↔
      s.content hash = some y := by
    intro y hash
    obtain ⟨hsound, hall⟩ := lookup_contentMapOf (s.2.contentEntries contentOrd) y
    refine ⟨fun h => mem_contentEntries.mp (hsound hash h), fun h => ?_⟩
    cases hc : (contentMapOf (s.2.contentEntries contentOrd)).lookup y with
    | none => exact absurd (mem_contentEntries.mpr h) (hall hc hash)
    | some hash' =>
        have h' := mem_contentEntries.mp (hsound hash' hc)
        rw [Covered.content_inj hs h' h]
  have hinit : Collecting s (segmentOrd.reorder s.1.metadata.keys)
      ({ s.1 with transaction := {} }, s.2) := by
    refine ⟨rfl, rfl, ⟨rfl, rfl⟩, rfl, rfl, fun y hy => absurd hy List.not_mem_nil, ?_, ?_⟩
    · intro y m hm
      exact .inr (.inr ((Order.mem_reorder _).mpr (AList.mem_keys.mp (Table.mem_iff.mpr ⟨m, hm⟩))))
    · exact fun hash y => (and_iff_left List.not_mem_nil).symm
  refine ends_inTxn (fun ⟨_, hF⟩ => hF.elim) (wp_bind.mpr ?_)
  refine wp_foldlM (fun rest _ s' => Collecting s rest s') ?_ ?_ _ _ _ hinit
  · intro y rest n s₁ h
    refine wp_mono (wp_collectSegment hs (fun _ => mem_referenced) hmap h) ?_
    rintro r s₂ ⟨n', rfl, h'⟩
    exact h'
  · intro n s₁ h
    refine wp_bind.mpr (ends_perform .commit ?_ fun hF => hF.elim)
    intro parts _
    exact ⟨n, rfl, h.commit hs⟩

theorem Collected.lists (h : Collected s s') : s'.Lists x ↔ s.Lists x := by
  unfold InMemory.Lists
  rw [h.capsules]

/-- Nobody is owed more than before. -/
theorem Collected.owes (hs : Owes [] s) (h : Collected s s') : Owes [] s' where
  counted := by
    intro x hx
    rw [InMemory.occ_congr h.capsules] at hx ⊢
    rw [h.info x (InMemory.occ_pos.mp hx)]
    exact hs.counted x hx
  content := by
    intro hash x hx
    obtain ⟨hc, hl⟩ := (h.content hash x).mp hx
    rw [h.info x hl]
    exact hs.content hash x hc
  fresh := by
    intro x m hm
    rw [h.next]
    by_cases hl : s.Lists x
    · exact hs.fresh x m ((h.info x hl).symm.trans hm)
    · exact absurd ((h.gone x hl).2.symm.trans hm) (Option.some_ne_none m).symm
  stored := by
    intro x
    by_cases hl : s.Lists x
    · rw [h.seg x hl, h.info x hl]
      exact hs.stored x
    · rw [(h.gone x hl).1, (h.gone x hl).2]
      rfl

end Pipeline

/-! ### Runs -/

/-- The states of the store between calls.  Each call may have other parts, and so may each step of
a write. -/
inductive ModularRun : InMemory → Prop
  | start : ModularRun .empty
  | write {s s' : InMemory} {r : Except Error CapsuleId} (id : CapsuleId) (data : Bytes)
      (policy : Policy) (h : ModularRun s)
      (hw : Runs WriteDoes (Pipeline.writeCapsule id data policy) s r s') : ModularRun s'
  | delete {s : InMemory} (parts : Parts) (id : CapsuleId) (h : ModularRun s) :
      ModularRun ((Pipeline.deleteCapsule id).run
        (ModularOp.exec parts InMemoryBackend.storage) s).2
  | collect {s : InMemory} (parts : Parts) (capsuleOrd : Order Capsule)
      (contentOrd : Order (ContentHash × SegmentId)) (segmentOrd : Order SegmentId)
      (h : ModularRun s) :
      ModularRun ((Pipeline.garbageCollect capsuleOrd contentOrd segmentOrd).run
        (ModularOp.exec parts InMemoryBackend.storage) s).2

/-- What every run without a failing operation ends in, the run over some parts does. -/
theorem Modular.Settles.run {α : Type} {p : Modular α} {Q : Except Error α → InMemory → Prop}
    (h : Modular.Settles p Q s) (parts : Parts) :
    Q (p.run (ModularOp.exec parts InMemoryBackend.storage) s).1
      (p.run (ModularOp.exec parts InMemoryBackend.storage) s).2 :=
  wp_runs h (runs_run (fun _ _ => ⟨trivial, .inl ⟨parts, rfl⟩⟩) p s)

theorem ModularRun.owes (h : ModularRun s) : Owes [] s := by
  induction h with
  | start =>
      refine ⟨fun x hx => absurd hx (Nat.lt_irrefl 0), fun hash x hx => ?_, fun x m hm => ?_,
        fun x => rfl⟩
      · cases hx
      · cases hm
  | write id data policy _ hw ih => exact wp_runs (Pipeline.wp_writeCapsule ih) hw
  | delete parts id _ ih => exact (Pipeline.wp_deleteCapsule ih).run parts
  | collect parts capsuleOrd contentOrd segmentOrd _ ih =>
      obtain ⟨n, -, hc⟩ := Modular.Settles.run (Pipeline.wp_garbageCollect ih) parts
      exact hc.owes ih

/-- **The collector is exact.**  In every run of writes, which may fail at any step, deletes and
collections, a collection succeeds and changes no capsule; after it the storage has the segments
that the capsules list, every entry of the catalog names one of them, and each of them has the data
and the metadata it had. -/
theorem garbageCollect_exact (h : ModularRun s) (parts : Parts) (capsuleOrd : Order Capsule)
    (contentOrd : Order (ContentHash × SegmentId)) (segmentOrd : Order SegmentId) :
    ∃ n, ∃ s' : InMemory, (Pipeline.garbageCollect capsuleOrd contentOrd segmentOrd).run
        (ModularOp.exec parts InMemoryBackend.storage) s = (.ok n, s') ∧
      s'.2.capsules = s.2.capsules ∧
      (∀ ord x, x ∈ InMemoryBackend.storage.segmentIds ord s'.1 ↔ s'.Lists x) ∧
      (∀ hash x, s'.content hash = some x → s'.Lists x) ∧
      ∀ x, s.Lists x → s'.seg x = s.seg x ∧ s'.info x = s.info x := by
  obtain ⟨n, hr, hc⟩ := Modular.Settles.run
    (@Pipeline.wp_garbageCollect _ capsuleOrd contentOrd segmentOrd h.owes) parts
  refine ⟨n, _, Prod.ext hr rfl, hc.capsules, fun ord x => ?_, fun hash x hx => ?_,
    fun x hx => ⟨hc.seg x hx, hc.info x hx⟩⟩
  · rw [hc.lists]
    refine (Order.mem_reorder _).trans (AList.mem_keys.symm.trans (Table.mem_iff.trans ?_))
    constructor
    · rintro ⟨m, hm⟩
      by_contra hl
      exact absurd ((hc.gone x hl).2.symm.trans hm) (Option.some_ne_none m).symm
    · intro hl
      obtain ⟨m, hm, -⟩ := h.owes.counted x (InMemory.occ_pos.mpr hl)
      exact ⟨m, (hc.info x hl).trans hm⟩
  · rw [hc.lists]
    exact ((hc.content hash x).mp hx).2

/-! ### A run -/

/-- Parts that store a chunk as it is, under itself, and refuse the chunk `[2]`. -/
def refusing : Parts where
  compress := fun data _ =>
    if data = [2] then .error (.msg "refused")
    else .ok (data, ⟨data.length, data.length, "none", false, true, none⟩)
  decompress := fun data _ => .ok data
  hashContent := fun data => ⟨data⟩
  registerContent := fun _ _ => .ok ()
  encrypt := fun data _ _ => .ok (data, EncryptionSummary.new "none")
  decrypt := fun data _ _ => .ok data
  evaluateCompression := fun policy _ => .ok policy.compression
  evaluateEncryption := fun policy => .ok policy.encryption
  deriveKey := fun _ _ => .ok ()

/-- A byte for each segment. -/
def bytewise : Policy := { layout := { strategy := .fixed 1 } }

/-- A test for what a write may call. -/
def ModularOp.countable : ModularOp → InMemory → Bool
  | .metadata x, s => (s.info x).all fun m => decide (m.refCount < u32Max)
  | _, _ => true

theorem ModularOp.countable_sound {o : ModularOp} (h : o.countable s = true) : o.Countable s := by
  cases o with
  | metadata x =>
      intro m hm
      have h' : (s.info x).all (fun m => decide (m.refCount < u32Max)) = true := h
      rw [hm] at h'
      exact of_decide_eq_true h'
  | _ => trivial

/-- The state after a write over these parts. -/
def afterWrite (id : Nat) (data : Bytes) (s : InMemory) : InMemory :=
  ((Pipeline.writeCapsule ⟨id⟩ data bytewise).run
    (ModularOp.exec refusing InMemoryBackend.storage) s).2

theorem ModularRun.afterWrite {id : Nat} {data : Bytes} (h : ModularRun s)
    (hc : (Pipeline.writeCapsule ⟨id⟩ data bytewise).along
      (ModularOp.exec refusing InMemoryBackend.storage) ModularOp.countable s = true) :
    ModularRun (Space.afterWrite id data s) :=
  .write ⟨id⟩ data bytewise h
    (runs_along (fun _ _ ho => ⟨ModularOp.countable_sound ho, .inl ⟨refusing, rfl⟩⟩) hc)

/-- A write that fails at its second chunk, one that shares its first segment, and one that fails
after it has stored another. -/
def afterFailures : InMemory :=
  afterWrite 2 [3, 2] (afterWrite 1 [1] (afterWrite 0 [1, 2] .empty))

/-- Of the two segments the first, which a capsule lists, is kept. -/
theorem garbageCollect_exact_afterFailures : ∃ n, ∃ s' : InMemory,
    (Pipeline.garbageCollect .asGiven .asGiven .asGiven).run
        (ModularOp.exec refusing InMemoryBackend.storage) afterFailures = (.ok n, s') ∧
      afterFailures.1.metadata.keys = [⟨1⟩, ⟨0⟩] ∧ s'.Lists ⟨0⟩ ∧ ¬ s'.Lists ⟨1⟩ ∧
      (∀ ord x, x ∈ InMemoryBackend.storage.segmentIds ord s'.1 ↔ s'.Lists x) ∧
      s'.info ⟨0⟩ = afterFailures.info ⟨0⟩ := by
  have hrun : ModularRun afterFailures :=
    .afterWrite (.afterWrite (.afterWrite .start (by decide +kernel)) (by decide +kernel))
      (by decide +kernel)
  obtain ⟨n, s', hr, hcap, hids, -, hkept⟩ :=
    garbageCollect_exact hrun refusing .asGiven .asGiven .asGiven
  have hlists : ∀ x, s'.Lists x ↔ 0 < afterFailures.occ x := fun x => by
    rw [← InMemory.occ_pos, InMemory.occ_congr hcap]
  have h₀ : afterFailures.Lists ⟨0⟩ := InMemory.occ_pos.mp (by decide +kernel)
  refine ⟨n, s', hr, by decide +kernel, ?_, ?_, hids, (hkept _ h₀).2⟩
  · rw [hlists]
    decide +kernel
  · rw [hlists]
    decide +kernel

end Space

import Space.Modular.Registry
import Space.Native.OptOut

/-!
# Modular — Sharing

The methods of the modular pipeline, over the log and the registry of the native one.  Its
transactions stage and delete only segments that the method came by, and so the methods keep the
capsules that opt out of deduplication to themselves.

* `Registered.Handles`: what holds in a method, and `Registered.Handles.exec`: each operation keeps
  it.
* `Pipeline.wp_writeCapsule_sharing`, `Pipeline.wp_deleteCapsule_sharing`,
  `Pipeline.wp_garbageCollect_sharing`: a write that deduplicates, the delete and the collector.
* `Emptying`: the delete of a capsule that opts out; it does not fail.
-/

namespace Space
open Support Prog Space.Modular

variable {P : Primitives} {parts : Parts} {s s' : Registered P} {id : CapsuleId}
  {policy : Policy} {g g' : Multiset SegmentId} {x : SegmentId}

/-! ### The operations -/

/-- What the programs of this module run on. -/
abbrev Registering (parts : Parts) : Moves ModularSig Error (Registered P) :=
  (ModularOp.execRegistry parts).moves

/-- No capsule that opts out lists what the method may touch, and so it is with what the
transaction has staged and deleted. -/
structure Registered.Handles (s : Registered P) (g : Multiset SegmentId) : Prop where
  inv : Shares.Inv s.1 g
  pending : ∀ p ∈ s.2.inner.pending, p.segment.id ∈ g
  deleted : ∀ x ∈ s.2.deleted, x ∈ g

/-- What an operation is called on, the method may touch. -/
def ModularOp.May : ModularOp → Multiset SegmentId → Prop
  | .delete x, g => x ∈ g
  | .append x _, g => x ∈ g
  | .setSegmentMetadata x segment, _ => segment.id = x
  | .txnDelete x, g => x ∈ g
  | .registerContent _ x, g => x ∈ g
  | .createCapsule _ _ policy segments _, g => policy.dedupe = true ∧ ∀ x ∈ segments, x ∈ g
  | _, _ => True

namespace CapsuleRegistry
variable {reg : CapsuleRegistry} {size : Nat} {l : List SegmentId} {stats : DedupStats}

theorem createCapsule_some {c : Capsule} (h : reg.capsules.lookup id = some c) (size : Nat)
    (policy : Policy) (l : List SegmentId) (stats : DedupStats) :
    ∃ e, reg.createCapsule id size policy l stats = (.error e, reg) := by
  simp only [createCapsule, createCapsuleWithSegments, h]
  exact ⟨_, rfl⟩

/-- The capsule is entered twice, the second time with what deduplication has saved. -/
theorem createCapsule_none (h : reg.capsules.lookup id = none) :
    reg.createCapsule id size policy l stats = (.ok (), { reg with
      capsules := (reg.capsules.insert id (Capsule.mk id size l policy 0)).insert id
        ⟨id, size, l, policy, stats.bytesSaved⟩ }.save) := by
  have hl : (reg.capsules.insert id ⟨id, size, l, policy, 0⟩).lookup id =
      some ⟨id, size, l, policy, 0⟩ := (Table.lookup_insert _ _ _ _).trans (if_pos rfl)
  simp only [createCapsule, createCapsuleWithSegments, h, save, hl]

/-- Every other capsule stays as it is. -/
theorem lookup_createCapsule {id' : CapsuleId} {c' : Capsule}
    (h : (reg.createCapsule id size policy l stats).2.capsules.lookup id' = some c') :
    reg.capsules.lookup id' = some c' ∨
      id' = id ∧ c' = ⟨id, size, l, policy, stats.bytesSaved⟩ := by
  cases hc : reg.capsules.lookup id with
  | some c =>
      obtain ⟨e, he⟩ := createCapsule_some hc size policy l stats
      rw [he] at h
      exact .inl h
  | none =>
      rw [createCapsule_none hc] at h
      rcases Table.lookup_insert_eq_some.mp h with ⟨rfl, rfl⟩ | ⟨hne, h⟩
      · exact .inr ⟨rfl, rfl⟩
      · rcases Table.lookup_insert_eq_some.mp h with ⟨e, -⟩ | ⟨-, h⟩
        · exact absurd e hne
        · exact .inl h

end CapsuleRegistry

namespace Shares

/-- The catalog adds a capsule that does not opt out. -/
theorem Touches.createCapsule {s : Store P} {size : Nat} {l : List SegmentId} {stats : DedupStats}
    (hd : policy.dedupe = true) (hl : ∀ x ∈ l, x ∈ g) : Touches g s
      { s with registry := (s.registry.createCapsule id size policy l stats).2 } := by
  have hcap : ∀ id' c', (s.registry.createCapsule id size policy l stats).2.capsules.lookup id' =
      some c' → (∃ c, s.cap id' = some c ∧ c'.segments = c.segments ∧ c'.policy = c.policy) ∨
        c'.policy.dedupe = true ∧ ∀ x ∈ c'.segments, x ∈ g := by
    intro id' c' h
    rcases CapsuleRegistry.lookup_createCapsule h with h | ⟨-, rfl⟩
    · exact .inl ⟨c', h, rfl, rfl⟩
    · exact .inr ⟨hd, hl⟩
  cases hc : s.registry.capsules.lookup id with
  | some c =>
      obtain ⟨e, he⟩ := CapsuleRegistry.createCapsule_some hc size policy l stats
      rw [he]
      exact .same rfl rfl
  | none =>
      refine .registry ?_ (fun hash y h => ?_) hcap
      · rw [CapsuleRegistry.createCapsule_none hc]
        exact le_refl _
      · rw [CapsuleRegistry.createCapsule_none hc] at h
        exact .inl h

/-- Segments are removed, one after the other. -/
theorem Inv.removeAll : ∀ {l : List SegmentId} {s : Store P}, Inv s g → (∀ x ∈ l, x ∈ g) →
    Inv { s with nvram := l.foldl (fun log x => (log.removeSegment x).2) s.nvram } g
  | [], _, h, _ => h
  | x :: _, _, h, hl =>
      (h.touch (.remove (hl x List.mem_cons_self))).removeAll fun y hy =>
        hl y (List.mem_cons_of_mem _ hy)

end Shares

namespace Registered.Handles

theorem start {s : Store P} (h : s.Apart) : Registered.Handles (s, .none) 0 :=
  ⟨.start h, fun _ hp => absurd hp List.not_mem_nil, fun _ hx => absurd hx List.not_mem_nil⟩

/-- The method came by more segments. -/
theorem add {k : Multiset SegmentId} (h : s.Handles g)
    (hk : ∀ x ∈ k, x.val < s.1.next ∧ s.1.Common x) : s.Handles (k + g) :=
  ⟨h.inv.add hk, fun p hp => Multiset.mem_add.mpr (.inr (h.pending p hp)),
    fun x hx => Multiset.mem_add.mpr (.inr (h.deleted x hx))⟩

/-- What is appended is staged, if the transaction is active. -/
theorem append {data : Bytes} (h : s.Handles g) (hx : x ∈ g) :
    (s.setBackend (s.backend.append x data).2).Handles g := by
  unfold NvramBackend.append
  split
  · next log he =>
      have hlog : log = s.1.nvram := by
        unfold NvramTransaction.appendSegment at he
        split at he <;> cases he
        rfl
      exact hlog ▸ h
  · next r inner log he =>
      obtain ⟨rfl, rfl, rfl⟩ := NvramTransaction.appendSegment_eq he
      refine ⟨h.inv.touch (.log fun _ => .inl rfl), fun p hp => ?_, h.deleted⟩
      rcases List.mem_append.mp hp with hp | hp
      · exact h.pending p hp
      · obtain rfl := List.mem_singleton.mp hp
        exact hx

/-- Of a segment it has not staged, the transaction does not change the metadata. -/
theorem setSegmentMetadata {segment : Segment} (h : s.Handles g) (hid : segment.id = x) :
    (s.setBackend (s.backend.setSegmentMetadata x segment).2).Handles g := by
  unfold NvramBackend.setSegmentMetadata
  split
  · exact h
  · next inner he =>
      refine ⟨h.inv, fun p hp => ?_, h.deleted⟩
      have hids := NvramTransaction.withSegmentMut_ids (fun _ _ => hid) he
      have hp : p.segment.id ∈ s.2.inner.pending.map fun p => p.segment.id :=
        hids ▸ List.mem_map_of_mem hp
      obtain ⟨q, hq, e⟩ := List.mem_map.mp hp
      exact e ▸ h.pending q hq

theorem commit (h : s.Handles g) : (s.setBackend s.backend.commit).Handles g := by
  have hkeyed : ∀ x segment, s.1.seg x = some segment → segment.id = x := fun x segment hx =>
    (h.inv.apart.keyed x segment hx).1
  refine ⟨(h.inv.touch (.commit hkeyed h.pending)).removeAll h.deleted, fun p hp => ?_,
    fun _ hx => absurd hx List.not_mem_nil⟩
  have hp : p ∈ (s.2.inner.commit s.1.nvram).1.pending := hp
  unfold NvramTransaction.commit at hp
  split at hp
  · exact h.pending p hp
  · split at hp
    · exact h.pending p hp
    · exact absurd hp List.not_mem_nil

theorem dropTxn (h : s.Handles g) :
    (s.setBackend (NvramBackend.storage.dropTxn s.backend)).Handles g := by
  refine ⟨h.inv.touch (Shares.touches (o := .rollback s.2.inner) h.inv trivial), fun p hp => ?_,
    fun _ hx => absurd hx List.not_mem_nil⟩
  have hp : p ∈ (s.2.inner.rollback s.1.nvram).1.pending := hp
  unfold NvramTransaction.rollback at hp
  split at hp
  · exact h.pending p hp
  · exact absurd hp List.not_mem_nil

/-- **Each operation** on what the method may touch. -/
theorem exec {o : ModularOp} (h : s.Handles g) (hm : o.May g) :
    (o.execRegistry parts s).2.Handles g := by
  cases o with
  | allocateSegment => exact ⟨h.inv.touch (Shares.touches (o := .allocSegment) h.inv trivial),
      h.pending, h.deleted⟩
  | createCapsule id size policy segments stats =>
      exact ⟨h.inv.touch (.createCapsule hm.1 hm.2), h.pending, h.deleted⟩
  | deleteCapsule id => exact ⟨h.inv.touch (Shares.touches (o := .deleteCapsule id) h.inv trivial),
      h.pending, h.deleted⟩
  | registerContent hash x => exact ⟨h.inv.touch (.register hm), h.pending, h.deleted⟩
  | deregisterContent hash x => exact ⟨h.inv.touch (.deregister hash x), h.pending, h.deleted⟩
  | delete x => exact ⟨h.inv.touch (.remove hm), h.pending, h.deleted⟩
  | beginTxn => exact ⟨h.inv, fun _ hp => absurd hp List.not_mem_nil,
      fun _ hx => absurd hx List.not_mem_nil⟩
  | append x data => exact h.append hm
  | setSegmentMetadata x segment => exact h.setSegmentMetadata hm
  | txnDelete x =>
      refine ⟨h.inv, h.pending, fun y hy => ?_⟩
      rcases List.mem_append.mp hy with hy | hy
      · exact h.deleted y hy
      · exact List.mem_singleton.mp hy ▸ hm
  | commit => exact h.commit
  | dropTxn => exact h.dropTxn
  | _ => exact h

end Registered.Handles

/-! ### The programs -/

/-- The next identifier, once drawn, is listed nowhere. -/
theorem Registered.Handles.draw (h : s.Handles g) :
    (ModularOp.allocateSegment.execRegistry parts s).2.Handles (⟨s.1.next⟩ ::ₘ g) :=
  (h.exec (o := .allocateSegment) trivial).add
    (Shares.gained (o := .allocSegment) h.inv.apart)

/-- What the catalog names under a hash may be touched. -/
theorem Registered.Handles.found (h : s.Handles g) {hash : ContentHash}
    (hx : s.1.content hash = some x) : s.Handles (x ::ₘ g) := by
  refine h.add (k := {x}) fun y hy => ?_
  refine Shares.gained (o := .lookupContent hash) h.inv.apart y ?_
  show y ∈ Shares.gains (.lookupContent hash) (.ok (s.1.content hash))
  rw [hx]
  exact hy

section
variable {α : Type}

/-- One operation. -/
theorem wp_modularOp (o : ModularOp) {Q : Except Error o.Res → Registered P → Prop}
    (h : Q (o.execRegistry parts s).1 (o.execRegistry parts s).2) :
    (perform (S := ModularSig) o).wp (Registering parts) (fun _ _ => True) Q s :=
  wp_perform_moves.mpr ⟨trivial, h⟩

/-- One operation, whatever it answers. -/
theorem wp_handled (o : ModularOp) {Q : Except Error o.Res → Registered P → Prop}
    (h : s.Handles g) (hm : o.May g) (hQ : ∀ r s', s'.Handles g → Q r s') :
    (perform (S := ModularSig) o).wp (Registering parts) (fun _ _ => True) Q s :=
  wp_modularOp o (hQ _ _ (h.exec hm))

/-- In a transaction: if it fails, the transaction is dropped. -/
theorem wp_inTxn {p : Modular α} {Q : Except Error α → Registered P → Prop} (h : s.Handles g)
    (herr : ∀ e s' g', s'.Handles g' → Q (.error e) s')
    (hp : ∀ s', s'.Handles g → s'.1 = s.1 →
      p.wp (Registering parts) (fun _ _ => True) (fun r s' => match r with
        | .ok a => Q (.ok a) s'
        | .error _ => ∃ g', s'.Handles g') s') :
    (inTxn p).wp (Registering parts) (fun _ _ => True) Q s := by
  refine wp_bind.mpr (wp_modularOp .beginTxn ?_)
  refine wp_onError (wp_mono (hp _ (h.exec (o := .beginTxn) trivial) rfl) fun r s' hr => ?_)
  cases r with
  | ok a => exact hr
  | error e =>
      obtain ⟨g', h'⟩ := hr
      exact wp_handled .dropTxn h' trivial fun _ s'' h'' => herr e s'' g' h''

end

namespace Pipeline

/-- The metadata of a segment is replaced, or it is not; the pipeline goes on or fails. -/
theorem wp_updateMetadata_sharing {segment : Segment}
    {Q : Except Error Unit → Registered P → Prop} (h : s.Handles g) (hid : segment.id = x)
    (herr : ∀ e s' g', s'.Handles g' → Q (.error e) s')
    (hok : ∀ s', s'.Handles g → Q (.ok ()) s') :
    (updateMetadata x segment).wp (Registering parts) (fun _ _ => True) Q s := by
  refine wp_inTxn h herr fun s₁ h₁ _ => ?_
  refine wp_bind.mpr (wp_handled (.setSegmentMetadata x segment) h₁ hid fun r s₂ h₂ => ?_)
  cases r with
  | error e => exact ⟨g, h₂⟩
  | ok u =>
  refine wp_handled .commit h₂ trivial fun r s₃ h₃ => ?_
  cases r with
  | error e => exact ⟨g, h₃⟩
  | ok u => exact hok s₃ h₃

theorem wp_encryptView_sharing {encryptionPolicy : EncryptionPolicy} {view : Bytes}
    {Q : Except Error (Bytes × EncryptionSummary) → Registered P → Prop} (h : s.Handles g)
    (hQ : ∀ r s', s'.Handles g → Q r s') :
    (encryptView id encryptionPolicy view x).wp (Registering parts) (fun _ _ => True) Q s := by
  unfold encryptView
  split
  · refine wp_bind.mpr (wp_handled (.deriveKey id x) h trivial fun r s₁ h₁ => ?_)
    cases r with
    | error e => exact hQ _ s₁ h₁
    | ok u => exact wp_handled (.encrypt view encryptionPolicy x) h₁ trivial hQ
  · exact hQ _ s h

/-- A view is stored under a new identifier. -/
theorem wp_storeSegment_sharing {encryptionPolicy : EncryptionPolicy} {view : Bytes}
    {summary : CompressionSummary} {hash : ContentHash}
    {Q : Except Error SegmentId → Registered P → Prop} (h : s.Handles g)
    (herr : ∀ e s' g', s'.Handles g' → Q (.error e) s')
    (hok : ∀ x s', s'.Handles (x ::ₘ g) → Q (.ok x) s') :
    (storeSegment id encryptionPolicy view summary hash).wp (Registering parts)
      (fun _ _ => True) Q s := by
  refine wp_inTxn h herr fun s₁ h₁ _ => ?_
  refine wp_bind.mpr (wp_modularOp .allocateSegment ?_)
  have h₂ : (ModularOp.allocateSegment.execRegistry parts s₁).2.Handles (⟨s₁.1.next⟩ ::ₘ g) :=
    h₁.draw
  have hx : (⟨s₁.1.next⟩ : SegmentId) ∈ (⟨s₁.1.next⟩ : SegmentId) ::ₘ g :=
    Multiset.mem_cons_self _ _
  refine wp_bind.mpr (wp_encryptView_sharing h₂ fun r s₃ h₃ => ?_)
  rcases r with e | ⟨payload, encryptionSummary⟩
  · exact ⟨_, h₃⟩
  refine wp_bind.mpr (wp_handled (.append _ payload) h₃ hx fun r s₄ h₄ => ?_)
  cases r with
  | error e => exact ⟨_, h₄⟩
  | ok u =>
  refine wp_bind.mpr (wp_handled (.setSegmentMetadata _ _) h₄ rfl fun r s₅ h₅ => ?_)
  cases r with
  | error e => exact ⟨_, h₅⟩
  | ok u =>
  refine wp_bind.mpr (wp_handled .commit h₅ trivial fun r s₆ h₆ => ?_)
  cases r with
  | error e => exact ⟨_, h₆⟩
  | ok u => exact hok _ s₆ h₆

/-- Of a segment that is there, the metadata has its identifier. -/
theorem wp_metadata_sharing {Q : Except Error Segment → Registered P → Prop} (h : s.Handles g)
    (herr : ∀ e, Q (.error e) s)
    (hok : ∀ segment, s.1.seg x = some segment → segment.id = x → Q (.ok segment) s) :
    (metadata x).wp (Registering parts) (fun _ _ => True) Q s := by
  refine wp_modularOp (.metadata x) ?_
  show Q (s.1.nvram.getSegmentMetadata x) s
  unfold NvramLog.getSegmentMetadata
  split
  · exact herr _
  · next segment hx => exact hok segment hx (h.inv.apart.keyed x segment hx).1

/-- What the loop over the plan has listed may be touched. -/
def Listing (r : Except Error WriteState) (s : Registered P) : Prop :=
  ∃ g, s.Handles g ∧ ∀ st, r = .ok st → Shares.Lists st.segmentIds g

/-- **One segment of the plan.** -/
theorem wp_writeSegment_sharing {data : Bytes} {compressionPolicy : CompressionPolicy}
    {encryptionPolicy : EncryptionPolicy} {st : WriteState} {seg : SegmentRef}
    (h : s.Handles g) (hl : Shares.Lists st.segmentIds g) :
    (writeSegment id data compressionPolicy encryptionPolicy st seg).wp (Registering parts)
      (fun _ _ => True) Listing s := by
  have herr : ∀ e (s' : Registered P) g', s'.Handles g' → Listing (.error e) s' :=
    fun _ _ g' h' => ⟨g', h', fun _ k => by cases k⟩
  show Prog.wp _ _ _ (if data.length < min (seg.offset + seg.length) usizeMax then _ else _) s
  split
  · exact herr _ s g h
  refine wp_bind.mpr (wp_handled (.compress _ _) h trivial fun r s₁ h₁ => ?_)
  rcases r with e | ⟨view, summary⟩
  · exact herr e s₁ g h₁
  refine wp_bind.mpr (wp_handled (.hashContent view) h₁ trivial fun r s₂ h₂ => ?_)
  rcases r with e | hash
  · exact herr e s₂ g h₂
  refine wp_bind.mpr (wp_modularOp (.lookupContent hash) ?_)
  show andThen _ _ _ _ (.ok (s₂.1.content hash)) s₂
  refine andThen_ok.mpr ?_
  dsimp only
  cases hc : s₂.1.content hash with
  | some existing =>
      have h₃ := h₂.found hc
      refine wp_bind.mpr (wp_metadata_sharing h₃ (fun e => herr e s₂ _ h₃) fun segment _ hid => ?_)
      refine wp_bind.mpr (wp_updateMetadata_sharing h₃ hid herr fun s₄ h₄ => ?_)
      refine wp_bind.mpr (wp_handled (.recordStats _ _) h₄ trivial fun r s₅ h₅ => ?_)
      rcases r with e | u
      · exact herr e s₅ _ h₅
      refine ⟨_, h₅, ?_⟩
      rintro st' ⟨⟩
      exact hl.push (Multiset.le_cons_self _ _) (Multiset.mem_cons_self _ _)
  | none =>
      refine wp_bind.mpr (wp_storeSegment_sharing h₂ herr fun x s₃ h₃ => ?_)
      refine wp_bind.mpr (wp_handled (.registerContent hash x) h₃ (Multiset.mem_cons_self _ _)
        fun r s₄ h₄ => ?_)
      rcases r with e | u
      · exact herr e s₄ _ h₄
      refine wp_bind.mpr (wp_handled (.dedupRegister hash x) h₄ trivial fun r s₅ h₅ => ?_)
      rcases r with e | u
      · exact herr e s₅ _ h₅
      refine wp_bind.mpr (wp_handled (.recordStats _ _) h₅ trivial fun r s₆ h₆ => ?_)
      rcases r with e | u
      · exact herr e s₆ _ h₆
      refine ⟨_, h₆, ?_⟩
      rintro st' ⟨⟩
      exact hl.push (Multiset.le_cons_self _ _) (Multiset.mem_cons_self _ _)

/-- **A write that deduplicates.** -/
theorem wp_writeCapsule_sharing {data : Bytes} (hd : policy.dedupe = true) (h : s.Handles g) :
    (writeCapsule id data policy).wp (Registering parts) (fun _ _ => True)
      (fun _ s' => ∃ g', s'.Handles g') s := by
  refine wp_bind.mpr (wp_handled (.evaluateCompression policy _) h trivial fun r s₁ h₁ => ?_)
  rcases r with e | compressionPolicy
  · exact ⟨g, h₁⟩
  refine wp_bind.mpr (wp_lift.mpr ?_)
  rcases zonePlan policy data with e | zones
  · exact ⟨g, h₁⟩
  refine wp_bind.mpr (wp_handled (.evaluateEncryption policy) h₁ trivial fun r s₂ h₂ => ?_)
  rcases r with e | encryptionPolicy
  · exact ⟨g, h₂⟩
  refine wp_bind.mpr (wp_foldlM (fun _ st s => ∃ g, s.Handles g ∧ Shares.Lists st.segmentIds g)
    ?_ ?_ _ _ _ ⟨g, h₂, fun _ hx => absurd hx List.not_mem_nil⟩)
  · rintro seg rest st s ⟨g, h, hl⟩
    refine wp_mono (wp_writeSegment_sharing h hl) ?_
    rintro (e | st') s' ⟨g', h', hl'⟩
    · exact ⟨g', h'⟩
    · exact ⟨g', h', hl' st' rfl⟩
  · rintro st s ⟨g, h, hl⟩
    refine wp_bind.mpr (wp_handled (.createCapsule id _ policy _ _) h ⟨hd, hl⟩ fun r s' h' => ?_)
    cases r <;> exact ⟨g, h'⟩

/-! ### Deletes -/

/-- One segment of a capsule that does not opt out. -/
theorem wp_releaseSegment_sharing (h : s.Handles g) (hx : x ∈ g) :
    (releaseSegment x).wp (Registering parts) (fun _ _ => True) (fun r s' => match r with
      | .ok _ => s'.Handles g
      | .error _ => ∃ g', s'.Handles g') s := by
  refine wp_bind.mpr (wp_metadata_sharing h (fun e => ⟨g, h⟩) fun segment _ hid => ?_)
  show Prog.wp _ _ _ (if 1 < segment.refCount then _ else _) s
  split
  · exact wp_updateMetadata_sharing h hid (fun _ _ g' h' => ⟨g', h'⟩) fun _ h' => h'
  · refine wp_bind.mpr (wp_handled (.delete x) h hx fun r s₁ h₁ => ?_)
    rcases r with e | u
    · exact ⟨g, h₁⟩
    refine andThen_ok.mpr ?_
    dsimp only
    split
    · refine wp_discard.mpr (wp_handled (.deregisterContent _ x) h₁ trivial fun r s₂ h₂ => ?_)
      cases r with
      | error e => exact ⟨g, h₂⟩
      | ok b => exact h₂
    · exact h₁

end Pipeline

/-- The store, if a capsule were not in its registry. -/
def Store.without (s : Store P) (id : CapsuleId) : Store P :=
  { s with registry := (s.registry.deleteCapsule id).2 }

section
variable {s s' : Store P}

theorem Store.without_next : (s.without id).next = s.next := by
  unfold Store.without CapsuleRegistry.deleteCapsule
  split <;> rfl

theorem Store.without_content (hash : ContentHash) :
    (s.without id).content hash = s.content hash := by
  unfold Store.without CapsuleRegistry.deleteCapsule
  split <;> rfl

theorem Store.without_cap (k : CapsuleId) :
    (s.without id).cap k = if k = id then none else s.cap k := by
  unfold Store.without CapsuleRegistry.deleteCapsule
  split
  · next h =>
      split
      · next e => exact e ▸ h
      · rfl
  · exact Table.lookup_erase _ _ _

theorem Shares.Touches.without (h : Touches g s s')
    (hc : s'.registry.capsules = s.registry.capsules) :
    Touches g (s.without id) (s'.without id) where
  next := by
    rw [Store.without_next, Store.without_next]
    exact h.next
  seg := h.seg
  content := fun hash x k => by
    rw [Store.without_content] at k ⊢
    exact h.content hash x k
  cap := fun k c' hk => by
    rw [Store.without_cap] at hk ⊢
    rw [Store.cap, hc] at hk
    exact .inl ⟨c', hk, rfl, rfl⟩

end

/-- The segments `l` of a capsule that opts out are still there, each with one reference. -/
structure Emptying (id : CapsuleId) (c : Capsule) (l : List SegmentId) (s : Registered P) :
    Prop where
  inv : Shares.Inv (s.1.without id) (c.segments : Multiset SegmentId)
  once : l.Nodup
  mem : ∀ x ∈ l, x ∈ c.segments
  single : s.1.Single l

theorem Emptying.start {s : Registered P} {c : Capsule} (h : s.1.Apart) (hc : s.1.cap id = some c)
    (hd : c.policy.dedupe = false) : Emptying id c c.segments s := by
  refine ⟨?_, (h.alone id c hc hd).once, fun _ hx => hx, (h.alone id c hc hd).counted⟩
  have hI := ((Shares.Inv.start h).touch (Shares.touches (o := .deleteCapsule id) (.start h)
    trivial)).add (Shares.gained (o := .deleteCapsule id) h)
  have hg : Shares.gains (.deleteCapsule id) (StoreOp.exec (.deleteCapsule id) s.1).1 =
      (c.segments : Multiset SegmentId) := by
    show Shares.gains (.deleteCapsule id) (s.1.registry.deleteCapsule id).1 = _
    have hc : s.1.registry.capsules.lookup id = some c := hc
    simp only [CapsuleRegistry.deleteCapsule, hc]
    rfl
  rw [hg, add_zero] at hI
  exact hI

/-- A segment is removed. -/
theorem Emptying.remove {c : Capsule} {l : List SegmentId} (h : Emptying id c (x :: l) s) :
    Emptying id c l ({ s.1 with nvram := (s.1.nvram.removeSegment x).2 }, s.2) := by
  obtain ⟨hx, hl⟩ := List.nodup_cons.mp h.once
  refine ⟨h.inv.touch (.remove (h.mem x List.mem_cons_self)), hl,
    fun y hy => h.mem y (List.mem_cons_of_mem _ hy), fun y hy => ?_⟩
  obtain ⟨segment, hs, hone⟩ := h.single y (List.mem_cons_of_mem _ hy)
  refine ⟨segment, ?_, hone⟩
  refine NvramLog.removeSegment_lookup_eq_some.mpr ⟨?_, hs⟩
  rintro rfl
  exact hx hy

/-- An entry of the content store is removed. -/
theorem Emptying.deregister {c : Capsule} {l : List SegmentId} (h : Emptying id c l s)
    (hash : ContentHash) (x : SegmentId) :
    Emptying id c l (s.setRegistry (s.1.registry.deregisterContent hash x).2) := by
  have hcap := s.1.registry.deregisterContent_capsules hash x
  exact ⟨h.inv.touch (Shares.Touches.without (.deregister hash x) hcap), h.once, h.mem, h.single⟩

namespace Pipeline

/-- One segment of a capsule that opts out: it goes. -/
theorem wp_releaseSegment_alone {c : Capsule} {l : List SegmentId}
    (h : Emptying id c (x :: l) s) : (releaseSegment x).wp (Registering parts) (fun _ _ => True)
      (fun r s' => r = .ok () ∧ Emptying id c l s') s := by
  obtain ⟨segment, hx, hone⟩ := h.single x List.mem_cons_self
  have e : s.1.nvram.getSegmentMetadata x = .ok segment := by
    have hx : s.1.nvram.segmentMap.lookup x = some segment := hx
    simp only [NvramLog.getSegmentMetadata, hx]
  refine wp_bind.mpr (wp_modularOp (.metadata x) ?_)
  show andThen _ _ _ _ (s.1.nvram.getSegmentMetadata x) s
  rw [e, andThen_ok]
  show Prog.wp _ _ _ (if 1 < segment.refCount then _ else _) s
  rw [if_neg (by rw [hone]; exact Nat.lt_irrefl 1)]
  refine wp_bind.mpr (wp_modularOp (.delete x) ?_)
  refine andThen_ok.mpr ?_
  dsimp only
  split
  · next hash _ =>
      exact wp_discard.mpr (wp_modularOp (.deregisterContent hash x)
        ⟨rfl, h.remove.deregister hash x⟩)
  · exact ⟨rfl, h.remove⟩

/-- **The delete.**  A capsule that opts out goes with all its segments; of another one, only the
segments it lists are touched. -/
theorem wp_deleteCapsule_sharing (h : s.Handles g) :
    (deleteCapsule id).wp (Registering parts) (fun _ _ => True)
      (fun _ s' => s'.1.Apart) s := by
  have hA : ∀ (s' : Registered P) g', s'.Handles g' → s'.1.Apart := fun _ _ h' => h'.inv.apart
  refine wp_bind.mpr (wp_modularOp (.lookupCapsule id) ?_)
  show andThen _ _ _ _ (s.1.registry.lookup id) s
  unfold CapsuleRegistry.lookup
  split
  · exact h.inv.apart
  next c hc =>
  have hc : s.1.cap id = some c := hc
  cases hd : c.policy.dedupe with
  | true =>
      have hk : s.Handles ((c.segments : Multiset SegmentId) + g) := h.add fun y hy =>
        ⟨h.inv.apart.listed id c hc y hy, fun id' c' hc' hd' hm => by
          obtain rfl := (h.inv.apart.alone id' c' hc' hd').only id c hc y hm hy
          rw [hc, Option.some.injEq] at hc'
          rw [← hc', hd] at hd'
          cases hd'⟩
      refine wp_bind.mpr (wp_foldlM (fun l _ s => s.Handles ((c.segments : Multiset SegmentId) + g)
        ∧ ∀ y ∈ l, y ∈ c.segments) ?_ ?_ _ _ _ ⟨hk, fun _ hy => hy⟩)
      · rintro y l ⟨⟩ s ⟨h, hl⟩
        refine wp_mono (wp_releaseSegment_sharing h (Multiset.mem_add.mpr
          (.inl (hl y List.mem_cons_self)))) fun r s' hr => ?_
        cases r with
        | error e =>
            obtain ⟨g', h'⟩ := hr
            exact hA s' g' h'
        | ok u => exact ⟨hr, fun z hz => hl z (List.mem_cons_of_mem _ hz)⟩
      · rintro ⟨⟩ s ⟨h, -⟩
        exact wp_discard.mpr (wp_handled (.deleteCapsule id) h trivial fun _ s' h' => hA s' _ h')
  | false =>
      refine wp_bind.mpr (wp_foldlM (fun l _ s => Emptying id c l s) ?_ ?_ _ _ _
        (.start h.inv.apart hc hd))
      · rintro y l ⟨⟩ s h
        refine wp_mono (wp_releaseSegment_alone h) ?_
        rintro r s' ⟨rfl, h'⟩
        exact h'
      · rintro ⟨⟩ s h
        exact wp_discard.mpr (wp_modularOp (.deleteCapsule id) h.inv.apart)

/-! ### Collections -/

/-- What the collector removes, no capsule that opts out lists. -/
theorem wp_collectSegment_sharing {referenced : List SegmentId}
    {contentMap : Table SegmentId ContentHash} {n : Nat} {caps : Table CapsuleId Capsule}
    (h : s.Handles g) (hc : s.1.registry.capsules = caps)
    (href : ∀ id c, caps.lookup id = some c → ∀ y ∈ c.segments, y ∈ referenced) :
    (collectSegment referenced contentMap n x).wp (Registering parts) (fun _ _ => True)
      (fun r s' => match r with
        | .ok _ => (∃ g', s'.Handles g') ∧ s'.1.registry.capsules = caps
        | .error _ => ∃ g', s'.Handles g') s := by
  refine wp_bind.mpr (wp_attempt.mpr (wp_metadata_sharing h (fun e => ?_) fun segment hx _ => ?_))
  · exact ⟨⟨g, h⟩, hc⟩
  show Prog.wp _ _ _ (if x ∈ referenced ∧ 0 < segment.refCount then _ else _) s
  split
  · exact ⟨⟨g, h⟩, hc⟩
  next hnot =>
  have h₁ : s.Handles (x ::ₘ g) := by
    refine h.add (k := {x}) fun y hy => ?_
    obtain rfl := Multiset.mem_singleton.mp hy
    refine ⟨(h.inv.apart.keyed y segment hx).2, fun id c hcap hd hm => hnot ⟨?_, ?_⟩⟩
    · exact href id c (hc ▸ hcap) y hm
    · obtain ⟨segment', hs, hone⟩ := (h.inv.apart.alone id c hcap hd).counted y hm
      rw [hx, Option.some.injEq] at hs
      rw [hs, hone]
      exact Nat.zero_lt_one
  refine wp_bind.mpr (wp_modularOp (.txnDelete x) ?_)
  have h₂ : (ModularOp.execRegistry parts (.txnDelete x) s).2.Handles (x ::ₘ g) :=
    h₁.exec (Multiset.mem_cons_self _ _)
  refine andThen_ok.mpr ?_
  dsimp only
  cases contentMap.lookup x with
  | none => exact ⟨⟨_, h₂⟩, hc⟩
  | some hash =>
      exact wp_bind.mpr (wp_discard.mpr (wp_modularOp (.deregisterContent hash x)
        ⟨⟨_, h₂.exec trivial⟩, (s.1.registry.deregisterContent_capsules hash x).trans hc⟩))

/-- **The collector.** -/
theorem wp_garbageCollect_sharing {capsuleOrd : Order Capsule}
    {contentOrd : Order (ContentHash × SegmentId)} {segmentOrd : Order SegmentId}
    (h : s.Handles g) : (garbageCollect capsuleOrd contentOrd segmentOrd).wp (Registering parts)
      (fun _ _ => True) (fun _ s' => ∃ g', s'.Handles g') s := by
  refine wp_bind.mpr (wp_modularOp (.capsules capsuleOrd) ?_)
  have href : ∀ id c, s.1.registry.capsules.lookup id = some c → ∀ y ∈ c.segments,
      y ∈ (s.1.registry.listAll capsuleOrd).flatMap Capsule.segments := fun id c hc y hy =>
    List.mem_flatMap.mpr ⟨c, (Order.mem_reorder capsuleOrd).mpr (Table.mem_values.mpr ⟨id, hc⟩), hy⟩
  refine wp_bind.mpr (wp_modularOp (.contentEntries contentOrd) ?_)
  refine wp_bind.mpr (wp_modularOp (.segmentIds segmentOrd) ?_)
  refine wp_inTxn h (fun _ _ g' h' => ⟨g', h'⟩) fun s₁ h₁ e => ?_
  refine wp_bind.mpr (wp_foldlM (fun _ _ s₂ => (∃ g', s₂.Handles g') ∧
    s₂.1.registry.capsules = s.1.registry.capsules) ?_ ?_ _ _ _ ⟨⟨g, h₁⟩, by rw [e]; rfl⟩)
  · rintro y l n s₂ ⟨⟨g', h₂⟩, hc⟩
    refine wp_mono (wp_collectSegment_sharing h₂ hc href) fun r s₃ hr => ?_
    cases r <;> exact hr
  · rintro n s₂ ⟨⟨g', h₂⟩, -⟩
    refine wp_bind.mpr (wp_handled .commit h₂ trivial fun r s₃ h₃ => ?_)
    cases r <;> exact ⟨g', h₃⟩

end Pipeline

end Space

import Space.Native.Integrity

/-!
# Native — Tamper

Tampering with a stored segment is detected when its capsule is read.  The tag is the MAC of the
stored bytes and of the metadata behind them, without marks between the fields; but the stored
bytes keep their number, and a reader without a key version stops before the MAC, so an input that
verifies has the same fields as the one that was sealed.

* `History.settled`: in every state of a pipeline's history the encrypted segments are authentic.
* `Envelope.rejected`: other bytes, other metadata or another tag do not verify.
* `tampering_detected`: the read of the capsule fails.
-/

namespace Space
open Support Prog

variable {P : Primitives} {K : UInt32 → XtsKeyPair} {w w' w'' : World P}

/-! ### Histories -/

/-- What a pipeline runs: a command, a read, or the reconciliation it begins with. -/
inductive Task where
  | command (c : Command)
  | read (id : CapsuleId)
  | reconcile (capsuleOrd : Order CapsuleId) (segmentOrd sweepOrd : Order Segment)

namespace Task

def data : Task → Bytes
  | command c => c.data
  | _ => []

def program (P : Primitives) : Task → Native Unit
  | command c => c.program P
  | read id => discard (WritePipeline.readCapsule P id)
  | reconcile capsuleOrd segmentOrd sweepOrd =>
      WritePipeline.reconcileRefcounts capsuleOrd segmentOrd sweepOrd

def run (t : Task) (w : World P) : Except Error Unit × World P :=
  (t.program P).run (World.exec t.data) w

end Task

/-- The states of a pipeline, through tasks that succeed or fail, crashes in the middle of one,
restarts and commands to the key manager.  All managers have the keys `K`. -/
inductive History (K : UInt32 → XtsKeyPair) : World P → Prop
  | start (km : Option (KeyManager P)) (hk : ∀ km', km = some km' → km'.derive = K) :
      History K (World.empty km)
  | run {w : World P} (t : Task) (h : History K w) : History K (t.run w).2
  | crash {w w' w'' : World P} {o : StoreOp} (t : Task) (km : Option (KeyManager P))
      (h : History K w) (hv : Visits (World.exec t.data).moves (t.program P) w o w')
      (hc : World.Crash o w' w'') (hk : ∀ km', km = some km' → km'.derive = K) :
      History K (w''.reopen km)
  | reopen {w : World P} (km : Option (KeyManager P)) (h : History K w)
      (hk : ∀ km', km = some km' → km'.derive = K) : History K (w.reopen km)
  | key {w : World P} {km : KeyManager P} (c : KeyCommand P) (h : History K w)
      (hkm : w.store.keyManager = some km) (hs : c.SameSecrets km) :
      History K (w.withManager (c.exec km))

/-- The operations of a read. -/
def StoreOp.Reads : StoreOp → Prop
  | .lookup _ => True
  | .read _ => True
  | .getSegmentMetadata _ => True
  | .getKey _ => True
  | _ => False

theorem StoreOp.Reads.storesNothing {o : StoreOp} (h : o.Reads) : o.StoresNothing := by
  cases o <;> first | exact h.elim | trivial

theorem uses_readSegment (policy : Policy) (x : SegmentId) :
    (WritePipeline.readSegment P policy x).Uses StoreOp.Reads := by
  refine uses_bind (uses_op trivial) fun raw => uses_bind (uses_op trivial) fun (s : Segment) => ?_
  show Prog.Uses _ (if s.encrypted = true then _ else _)
  split
  · refine uses_bind (uses_op trivial) fun key => ?_
    exact uses_bind uses_lift fun _ => uses_bind uses_lift fun _ => uses_ret
  · exact uses_ret

theorem uses_readCapsule (id : CapsuleId) :
    (WritePipeline.readCapsule P id).Uses StoreOp.Reads :=
  uses_bind (uses_op trivial) fun (c : Capsule) => uses_foldlM (fun _ x =>
    uses_bind (uses_readSegment c.policy x) fun _ => uses_ret) _ _

/-- **A task keeps what is stored**, and leaves it readable wherever it is cut. -/
theorem Task.wp_guarded (hx : P.XtsInverse) {t : Task} (h : w.Settled K) :
    (t.program P).wp (World.exec t.data).moves (fun o w => w.Cuttable K o)
      (fun _ w' => w'.Settled K) w := by
  cases t with
  | command c => exact Command.wp_guarded hx h
  | read id =>
      obtain ⟨n, h⟩ := h
      have huses := uses_mono (fun _ => StoreOp.Reads.storesNothing) (uses_readCapsule (P := P) id)
      exact wp_mono (wp_storesNothing (uses_discard huses) h) fun _ _ k => ⟨n, k⟩
  | reconcile capsuleOrd segmentOrd sweepOrd => exact wp_reconcile_guarded h

/-- **Every state of a history is settled.** -/
theorem History.settled (hx : P.XtsInverse) (h : History K w) : w.Settled K := by
  induction h with
  | start km hk =>
      refine ⟨0, fun x s hs => ?_, rfl, rfl, hk⟩
      have hs : (∅ : Table SegmentId Segment).lookup x = some s := hs
      cases hs
  | run t _ ih => exact wp_run (Task.wp_guarded hx ih)
  | crash t km _ hv hc hk ih =>
      have hd : World.Durable K _ := wp_visits (Task.wp_guarded hx ih) hv _ hc
      exact ⟨_, hd.reopen hk⟩
  | reopen km _ hk ih =>
      obtain ⟨n, h⟩ := ih
      exact ⟨_, World.Durable.reopen ⟨n, n, h⟩ hk⟩
  | key c _ hkm hs ih =>
      obtain ⟨n, h⟩ := ih
      refine ⟨n, h.same rfl fun km' hk => ?_⟩
      cases hk
      exact hs.derive.trans (h.keys _ hkm)

/-! ### Envelopes -/

/-- What is stored of an encrypted segment: its bytes, the metadata the tag is for, and the tag. -/
structure Envelope where
  rawData : Bytes
  encryptionVersion : Option UInt16
  keyVersion : Option UInt32
  tweakNonce : Option (Block 16)
  integrityTag : Option (Block 16)
  deriving DecidableEq

namespace Envelope

/-- The metadata a reader makes of it. -/
def metadata (e : Envelope) : EncryptionMetadata where
  encryptionVersion := e.encryptionVersion
  keyVersion := e.keyVersion
  tweakNonce := e.tweakNonce
  integrityTag := e.integrityTag
  ciphertextLen := some (UInt32.ofNat e.rawData.length)

/-- A segment with this metadata. -/
def segment (e : Envelope) (s : Segment) : Segment :=
  { s with
    encryptionVersion := e.encryptionVersion
    keyVersion := e.keyVersion
    tweakNonce := e.tweakNonce
    integrityTag := e.integrityTag }

/-- Anything but the tag was changed, or the tag alone. -/
def Changed (e e' : Envelope) : Prop :=
  e'.integrityTag = e.integrityTag ∧ e' ≠ e ∨
    e'.integrityTag ≠ e.integrityTag ∧ e' = { e with integrityTag := e'.integrityTag }

/-- The inputs of the MAC, under the key of the version. -/
def inputs (K : UInt32 → XtsKeyPair) (e : Envelope) : Set (XtsKeyPair × Bytes) :=
  {i | ∃ v, e.keyVersion = some v ∧ i = (K v, authenticated e.rawData e.metadata)}

end Envelope

/-- The tag of an input under a key. -/
def Primitives.tag (P : Primitives) (i : XtsKeyPair × Bytes) : Block 16 :=
  .ofPrefix 16 (P.blake3Keyed (deriveMacKey P i.1.key1 i.1.key2) i.2).toList

/-- Tags of different inputs or under different keys never coincide, among those of `T`. -/
def Primitives.IdealMac (P : Primitives) (T : Set (XtsKeyPair × Bytes)) : Prop :=
  Set.InjOn P.tag T

namespace Envelope
variable {e e' : Envelope}

/-- Inputs of the same length that both have a version have the same fields. -/
theorem fields_eq {v v' : UInt32} (hv : e.keyVersion = some v) (hv' : e'.keyVersion = some v')
    (hlen : e'.rawData.length = e.rawData.length)
    (h : authenticated e.rawData e.metadata = authenticated e'.rawData e'.metadata) :
    e.metadata.fields = e'.metadata.fields := by
  have hl := congrArg List.length h
  rw [authenticated, authenticated, List.length_append, List.length_append,
    length_serializeMetadataForMac, length_serializeMetadataForMac, hlen] at hl
  have hw : e.metadata.fields.width = e'.metadata.fields.width := Nat.add_left_cancel hl
  unfold EncryptionMetadata.fields Fields.width at hw
  unfold EncryptionMetadata.fields
  simp only [metadata, hv, hv', Option.isSome_some] at hw ⊢
  -- two bytes for one field and sixteen for the other: the sum tells which are there
  cases hev : e.encryptionVersion.isSome <;> cases hev' : e'.encryptionVersion.isSome <;>
    cases ht : e.tweakNonce.isSome <;> cases ht' : e'.tweakNonce.isSome <;>
    simp_all

/-- **What was changed does not verify.** -/
theorem rejected {v v' : UInt32} {T : Set (XtsKeyPair × Bytes)} (hT : P.IdealMac T)
    (hv : e.keyVersion = some v)
    (hv' : e'.keyVersion = some v') (htag : e.integrityTag =
      some (P.tag (K v, authenticated e.rawData e.metadata)))
    (his : e.inputs K ∪ e'.inputs K ⊆ T)
    (hlen : e'.rawData.length = e.rawData.length) (hc : e.Changed e') :
    ∃ err, verifyMac P e'.rawData e'.metadata (K v').key1 (K v').key2 = .error err := by
  unfold verifyMac
  cases ht : e'.metadata.integrityTag with
  | none => exact ⟨_, rfl⟩
  | some t =>
      dsimp only
      split
      · next heq =>
          exfalso
          have ht' : e'.integrityTag = some (P.tag (K v', authenticated e'.rawData e'.metadata)) :=
            ht.trans (congrArg some heq)
          rcases hc with ⟨hsame, hne⟩ | ⟨hdiff, honly⟩
          · -- the same tag, so the same key and the same input
            have hmac : P.tag (K v, authenticated e.rawData e.metadata) =
                P.tag (K v', authenticated e'.rawData e'.metadata) :=
              Option.some.inj (htag.symm.trans (hsame.symm.trans ht'))
            have hin := hT (his (.inl ⟨v, hv, rfl⟩)) (his (.inr ⟨v', hv', rfl⟩)) hmac
            obtain ⟨-, hauth⟩ := Prod.mk.inj hin
            obtain ⟨hraw, hm⟩ := authenticated_inj (fields_eq hv hv' hlen hauth) hauth
            refine hne ?_
            obtain ⟨raw, ev, kv, tn, tag⟩ := e
            obtain ⟨raw', ev', kv', tn', tag'⟩ := e'
            obtain ⟨h₁, h₂, h₃, -⟩ := hm
            simp only [metadata] at h₁ h₂ h₃ hraw hsame
            rw [hraw, h₁, h₂, h₃, hsame]
          · -- only the tag, and the input says what it must be
            refine hdiff ?_
            rw [ht', htag]
            have hvv : v = v' := by
              rw [honly] at hv'
              exact Option.some.inj (hv.symm.trans hv')
            rw [hvv, honly]
            rfl
      · exact ⟨_, rfl⟩

end Envelope

/-! ### Tampering -/

namespace World

/-- What is stored of a segment. -/
def envelope (w : World P) (s : Segment) : Envelope where
  rawData := slice w.file s.offset s.len
  encryptionVersion := s.encryptionVersion
  keyVersion := s.keyVersion
  tweakNonce := s.tweakNonce
  integrityTag := s.integrityTag

/-- Change what is stored of a segment, in the log and on disk. -/
def tamper (w : World P) (x : SegmentId) (s : Segment) (e : Envelope) : World P :=
  (w.withFile (writeAt 0 w.file s.offset e.rawData)).putSegment x (e.segment s)

end World

variable {data : Bytes}

theorem exec_reads {o : StoreOp} {w₀ : World P} (ho : o.Reads) (h : w₀.Unchanged w) :
    w₀.Unchanged (World.exec data o w).2 := by
  cases o with
  | lookup id => exact ⟨h.registry, h.nvram, h.keys⟩
  | read x => exact ⟨h.registry, h.nvram, h.keys⟩
  | getSegmentMetadata x => exact ⟨h.registry, h.nvram, h.keys⟩
  | getKey keyVersion =>
      cases hkm : w.store.keyManager with
      | none =>
          simp only [World.exec, StoreOp.exec, Store.getKey, hkm]
          exact h
      | some km =>
          cases keyVersion with
          | none =>
              simp only [World.exec, StoreOp.exec, Store.getKey, hkm]
              exact h
          | some v =>
              simp only [World.exec, StoreOp.exec, Store.getKey, hkm]
              refine ⟨h.registry, h.nvram, ?_⟩
              rw [← h.keys, hkm]
              exact congrArg some (km.getKey_derive v)
  | _ => exact ho.elim

/-- **Reading a segment that was tampered with fails.** -/
theorem wp_readSegment_rejected {w₀ : World P} {policy : Policy} {x : SegmentId} {s : Segment}
    {e : Envelope} (h : w₀.Unchanged w) (hs : w₀.seg x = some (e.segment s))
    (he : s.encrypted = true) (hfile : slice w₀.file s.offset s.len = e.rawData)
    (hk : ∀ km, w₀.store.keyManager = some km → km.derive = K)
    (hrej : ∀ v, e.keyVersion = some v →
      ∃ err, verifyMac P e.rawData e.metadata (K v).key1 (K v).key2 = .error err) :
    (WritePipeline.readSegment P policy x).wp (World.exec data).moves (fun _ _ => True)
      (fun r _ => ∃ err, r = .error err) w := by
  have hlook : w.store.nvram.segmentMap.lookup x = some (e.segment s) := by
    rw [h.nvram]
    exact hs
  have hkm : ∀ km, w.store.keyManager = some km → km.derive = K := by
    intro km hkm
    have hkeys := h.keys
    rw [hkm] at hkeys
    obtain ⟨km₀, h₀, e₀⟩ := Option.map_eq_some_iff.mp hkeys.symm
    rw [← e₀]
    exact hk km₀ h₀
  unfold WritePipeline.readSegment
  refine wp_bind.mpr (World.wp_exec (.read x) trivial ?_)
  have hread : w.store.nvram.read x = .ok e.rawData ∨ ∃ err, w.store.nvram.read x = .error err := by
    unfold NvramLog.read
    rw [hlook]
    dsimp only
    split
    · refine .inl (congrArg Except.ok ?_)
      rw [h.nvram]
      exact hfile
    · exact .inr ⟨_, rfl⟩
  rcases hread with hread | ⟨err, hread⟩
  swap
  · rw [World.exec_read, hread]
    exact ⟨err, rfl⟩
  rw [World.exec_read, hread]
  refine wp_bind.mpr (World.wp_exec (.getSegmentMetadata x) trivial ?_)
  rw [World.exec_getSegmentMetadata, World.getSegmentMetadata_of_seg hlook]
  show Prog.wp _ _ _ (if s.encrypted = true then _ else _) w
  rw [if_pos he]
  refine wp_bind.mpr (World.wp_exec (.getKey e.keyVersion) trivial ?_)
  -- without a manager or a version the reader stops here
  cases hm : w.store.keyManager with
  | none =>
      simp only [World.exec, StoreOp.exec, Store.getKey, hm]
      exact ⟨_, rfl⟩
  | some km =>
      cases hv : e.keyVersion with
      | none =>
          simp only [World.exec, StoreOp.exec, Store.getKey, hm]
          exact ⟨_, rfl⟩
      | some v =>
          simp only [World.exec, StoreOp.exec, Store.getKey, hm, KeyManager.getKey_fst,
            hkm km hm, andThen_ok]
          obtain ⟨err, hmac⟩ := hrej v hv
          refine wp_bind.mpr (wp_lift.mpr ?_)
          rw [show verifyMac P e.rawData ((e.segment s).encryptionMetadata e.rawData) (K v).key1
            (K v).key2 = .error err from hmac]
          exact ⟨_, rfl⟩

/-- **Tampering is detected.**  Where tags of different inputs or under different keys never
coincide: with other bytes of the recorded length, another encryption version, key version or tweak
under the same tag, or with another tag, in an encrypted segment, its capsule is not read. -/
theorem tampering_detected (hx : P.XtsInverse) (h : History K w) {id : CapsuleId} {c : Capsule}
    (hc : w.cap id = some c) {x : SegmentId} (hm : x ∈ c.segments) {s : Segment}
    (hs : w.seg x = some s) (he : s.encrypted = true) {e : Envelope}
    (hlen : e.rawData.length = s.len) (hch : (w.envelope s).Changed e)
    {T : Set (XtsKeyPair × Bytes)} (hT : P.IdealMac T)
    (hi : (w.envelope s).inputs K ∪ e.inputs K ⊆ T) :
    ∃ err, ((WritePipeline.readCapsule P id).run (World.exec data) (w.tamper x s e)).1 =
      .error err := by
  obtain ⟨n, hw⟩ := h.settled hx
  have hsits := hw.sits x s hs
  obtain ⟨v, hv, htag⟩ := hsits.authentic he
  have hraw : (slice w.file s.offset s.len).length = s.len := by
    by_cases hz : s.len = 0
    · rw [hz, slice_zero]
      rfl
    · exact length_slice (hsits.inside hz).2
  have hrej : ∀ v', e.keyVersion = some v' →
      ∃ err, verifyMac P e.rawData e.metadata (K v').key1 (K v').key2 = .error err := fun v' hv' =>
    Envelope.rejected (e := w.envelope s) hT hv hv' htag hi (hlen.trans hraw.symm) hch
  set w₀ := w.tamper x s e with hw₀
  have hseg : w₀.seg x = some (e.segment s) := World.seg_putSegment_self _ _ _
  have hfile : slice w₀.file s.offset s.len = e.rawData := by
    rw [← hlen]
    exact slice_writeAt_self _ _ _ _
  refine wp_run (J := fun _ _ => True) (Q := fun r _ => ∃ err, r = .error err) ?_
  unfold WritePipeline.readCapsule
  refine wp_bind.mpr (World.wp_exec (.lookup id) trivial ?_)
  have hc₀ : w₀.cap id = some c := hc
  rw [World.exec_lookup, World.lookup_of_cap hc₀]
  show Prog.wp _ _ _ (c.segments.foldlM _ _) w₀
  -- the segments before the one that was changed may be read, or not
  refine wp_foldlM (fun rest _ w' => w₀.Unchanged w' ∧ x ∈ rest) ?_ ?_ _ _ _ ⟨⟨rfl, rfl, rfl⟩, hm⟩
  · rintro y rest acc w' ⟨hun, hrest⟩
    by_cases hy : y = x
    · subst hy
      refine wp_bind.mpr (wp_mono (wp_readSegment_rejected hun hseg he hfile hw.keys hrej) ?_)
      rintro r w'' ⟨err, rfl⟩
      exact ⟨err, rfl⟩
    · have hkeep : w₀.Unchanged ((WritePipeline.readSegment P c.policy y).run
          (World.exec data) w').2 :=
        Prog.run_keeps (fun _ _ ho h => exec_reads ho h) (uses_readSegment c.policy y) hun
      have hwp : (WritePipeline.readSegment P c.policy y).wp (World.exec data).moves
          (fun _ _ => True) (fun _ w'' => w₀.Unchanged w'') w' := wp_of_run hkeep
      refine wp_bind.mpr (wp_mono hwp fun r w'' hun' => ?_)
      cases r with
      | error err => exact ⟨err, rfl⟩
      | ok bytes => exact ⟨hun', (List.mem_cons.mp hrest).resolve_left (Ne.symm hy)⟩
  · rintro acc w' ⟨-, hrest⟩
    cases hrest

/-- One encrypted capsule. -/
def sampleSealed : World .stored :=
  ((Task.command (.write ⟨0⟩ (List.replicate 16 7) sampleSealing)).run
    (World.empty (some sampleKeys))).2

/-- Its bytes are overwritten with zeros. -/
theorem tampering_detected_zeros : ∃ s e, sampleSealed.seg ⟨0⟩ = some s ∧
    (sampleSealed.envelope s).Changed e ∧
    ∃ err, ((WritePipeline.readCapsule .stored ⟨0⟩).run (World.exec [])
      (sampleSealed.tamper ⟨0⟩ s e)).1 = .error err := by
  set e₀ : Envelope := ⟨List.replicate 16 248, some 1, some 1, some (deriveTweakFromHash
    (hashContent .stored (List.replicate 16 7)).str), some (.replicate 16 248)⟩ with he₀
  set e₁ : Envelope := { e₀ with rawData := List.replicate 16 0 } with he₁
  have hseg : (sampleSealed.seg ⟨0⟩).map (fun s => (s.encrypted, s.len, sampleSealed.envelope s)) =
      some (true, 16, e₀) := by decide +kernel
  obtain ⟨s, hs, hp⟩ := Option.map_eq_some_iff.mp hseg
  obtain ⟨henc, hp⟩ := Prod.mk.inj hp
  obtain ⟨hlen, henv⟩ := Prod.mk.inj hp
  have hch : (sampleSealed.envelope s).Changed e₁ := by
    rw [henv]
    exact .inl ⟨rfl, by decide⟩
  have hrun : History sampleKeys.derive sampleSealed :=
    .run _ (.start (some sampleKeys) fun km' hk => by cases hk; rfl)
  have htags : Primitives.stored.tag (sampleKeys.derive 1, authenticated e₀.rawData e₀.metadata) ≠
      Primitives.stored.tag (sampleKeys.derive 1, authenticated e₁.rawData e₁.metadata) := by
    decide +kernel
  refine ⟨s, e₁, hs, hch, tampering_detected Primitives.stored_xts hrun
    (show sampleSealed.cap ⟨0⟩ = some ⟨⟨0⟩, 16, [⟨0⟩], sampleSealing, 0⟩ by decide +kernel)
    (List.mem_singleton_self _) hs henc hlen.symm hch
    (T := {(sampleKeys.derive 1, authenticated e₀.rawData e₀.metadata),
      (sampleKeys.derive 1, authenticated e₁.rawData e₁.metadata)})
    (Set.injOn_pair.mpr fun k => absurd k htags) ?_⟩
  rw [henv]
  rintro i (⟨v, hv, rfl⟩ | ⟨v, hv, rfl⟩)
  · cases hv
    exact .inl rfl
  · cases hv
    exact .inr rfl

end Space

import Space.Modular.Accounting
import Space.Modular.Encryptors
import Space.Modular.Sharing
import Space.Native.Labels

/-!
# Modular — Encrypted flag

The handle over the log and the registry (`registryPipelineFromBackend`) has a key manager or
leaves the data as it is, as the environment says; it labels a segment by the policy alone, and a
segment it stores lies at the beginning of the log.

* `wp_storeSegment_log`, `wp_writeSegment_fits`: what a chunk leaves of the log.  A view that is
  known ends the write, since no transaction has staged its segment.
* `Fits`: what a write has to store gets a true label, and takes no other label its bytes.
* `writeRun_flagsTrue`: where every modular write fits and no native one wraps keys, the flags of
  all segments are true, in any run of writes through either pipeline.
* `not_writeRun_flagsTrue`: not in every run.
-/

namespace Space
open Support Prog Space.Modular

variable {P : Primitives} {K : UInt32 → XtsKeyPair} {s : Store P} {policy : Policy}

/-! ### The handle -/

/-- The parts of the encrypted pipeline. -/
def Parts.encrypted (e : XtsEncryptor P) : Parts :=
  { Parts.inMemory P with encrypt := e.encrypt, decrypt := XtsEncryptor.decrypt }

/-- The handle, over what `KeyManager::from_env` answers. -/
def registryPipelineFromBackend (env : Except EncryptionError (KeyManager P)) : Parts :=
  match env with
  | .ok manager => .encrypted ⟨manager⟩
  | .error _ => { Parts.inMemory P with
      encrypt := NoopEncryptor.encrypt, decrypt := NoopEncryptor.decrypt }

/-- What is sealed is authentic, and labelled. -/
theorem XtsEncryptor.encrypt_sealed {e : XtsEncryptor P} {encryption : EncryptionPolicy}
    {view payload : Bytes} {x : SegmentId} {report : EncryptionSummary}
    (hk : e.keyManager.derive = K) (he : encryption.isEnabled = true)
    (h : e.encrypt view encryption x = .ok (payload, report)) (y : SegmentId)
    (summary : CompressionSummary) (hash : ContentHash) :
    (Segment.new y payload summary hash report true).Authentic P K payload ∧
      (Segment.new y payload summary hash report true).Labelled := by
  rw [XtsEncryptor.encrypt, if_pos he] at h
  simp only [XtsEncryptor.sealData, Bind.bind, Except.bind] at h
  cases hseal : encryptSegment P view (e.acquireKey encryption.keyVersion).2
      (e.acquireKey encryption.keyVersion).1 (deriveTweakFromHash (P.blake3 view).toList) with
  | error err =>
      rw [hseal] at h
      cases h
  | ok cm =>
      obtain ⟨c, m⟩ := cm
      obtain ⟨-, -, hm⟩ := encryptSegment_ok hseal
      rw [hseal] at h
      cases h
      subst hm
      have hkey : (e.acquireKey encryption.keyVersion).2 =
          K (e.acquireKey encryption.keyVersion).1 := by
        rw [← hk]
        exact KeyManager.getKey_fst _ _
      refine ⟨fun _ => ⟨_, rfl, ?_⟩, fun _ => ⟨rfl, rfl, rfl, rfl⟩, nofun⟩
      rw [hkey]
      rfl

/-! ### What a write stores -/

/-- The payloads a write stores under new identifiers.  It ends with a chunk that cannot be
compressed or encrypted, and with one whose view is known. -/
def storedPayloads (parts : Parts) (policy : Policy) :
    (ContentHash → Bool) → List Bytes → List Bytes
  | _, [] => []
  | known, chunk :: rest =>
    match parts.compress chunk policy.compression with
    | .error _ => []
    | .ok (view, _) =>
      if known (parts.hashContent view) then []
      else match parts.payload policy.encryption view ⟨0⟩ with
        | .error _ => []
        | .ok (payload, _) => payload ::
            storedPayloads parts policy (Function.update known (parts.hashContent view) true) rest

/-- The hashes in the catalog. -/
def Store.known (s : Store P) (hash : ContentHash) : Bool := (s.content hash).isSome

/-- What the chunks of a write have to have stored gets a true label, and takes no other label its
bytes: a policy that encrypts has a key manager and at most one payload to store, of a length that
a `u32` can tell; and what is written at the beginning of the log ends before the encrypted
segments. -/
structure Fits (env : Except EncryptionError (KeyManager P)) (policy : Policy) (l : List Bytes)
    (s : Store P) : Prop where
  keys : policy.encryption.isEnabled = true →
    storedPayloads (registryPipelineFromBackend env) policy s.known l ≠ [] → ∃ km, env = .ok km
  once : policy.encryption.isEnabled = true →
    (storedPayloads (registryPipelineFromBackend env) policy s.known l).length ≤ 1
  short : policy.encryption.isEnabled = true →
    ∀ p ∈ storedPayloads (registryPipelineFromBackend env) policy s.known l, p.length < 4294967296
  clear : ∀ p ∈ storedPayloads (registryPipelineFromBackend env) policy s.known l,
    ∀ x segment, s.seg x = some segment → segment.encrypted = true → p.length ≤ segment.offset

section
variable {env : Except EncryptionError (KeyManager P)}

theorem handle_compress (chunk : Bytes) (policy : CompressionPolicy) :
    (registryPipelineFromBackend env).compress chunk policy =
      Lz4ZstdCompressor.compress P chunk policy := by cases env <;> rfl

theorem handle_hashContent (view : Bytes) :
    (registryPipelineFromBackend env).hashContent view = hashContent P view := by
  cases env <;> rfl

theorem handle_registerContent (hash : ContentHash) (x : SegmentId) :
    (registryPipelineFromBackend env).registerContent hash x = .ok () := by cases env <;> rfl

/-- A payload does not depend on its segment. -/
theorem handle_payload (encryption : EncryptionPolicy) (view : Bytes) (x : SegmentId) :
    (registryPipelineFromBackend env).payload encryption view x =
      (registryPipelineFromBackend env).payload encryption view ⟨0⟩ := by cases env <;> rfl

/-- **The label of what is stored is true**, if there is a key manager where the policy asks for
one. -/
theorem handle_sealed (hk : ∀ km, env = .ok km → km.derive = K) {encryption : EncryptionPolicy}
    (he : encryption.isEnabled = true → ∃ km, env = .ok km) {view payload : Bytes} {x y : SegmentId}
    {report : EncryptionSummary} (summary : CompressionSummary) (hash : ContentHash)
    (h : (registryPipelineFromBackend env).payload encryption view x = .ok (payload, report)) :
    (Segment.new y payload summary hash report encryption.isEnabled).Authentic P K payload ∧
      (Segment.new y payload summary hash report encryption.isEnabled).Labelled := by
  unfold Parts.payload at h
  cases hen : encryption.isEnabled with
  | false =>
      rw [hen] at h
      cases h
      exact ⟨.of_clear rfl, nofun, fun _ => rfl⟩
  | true =>
      rw [hen] at h
      obtain ⟨km, rfl⟩ := he hen
      exact XtsEncryptor.encrypt_sealed (e := ⟨km⟩) (x := x) (hk km rfl) hen h y summary hash

/-- What a chunk that is stored leaves for the rest. -/
theorem storedPayloads_cons {parts : Parts} {known : ContentHash → Bool}
    {chunk view payload : Bytes} {summary : CompressionSummary} {report : EncryptionSummary}
    (rest : List Bytes)
    (hc : parts.compress chunk policy.compression = .ok (view, summary))
    (hk : known (parts.hashContent view) = false)
    (hp : parts.payload policy.encryption view ⟨0⟩ = .ok (payload, report)) :
    storedPayloads parts policy known (chunk :: rest) = payload ::
      storedPayloads parts policy (Function.update known (parts.hashContent view) true) rest := by
  rw [storedPayloads, hc]
  dsimp only
  rw [hk, if_neg Bool.false_ne_true, hp]

end

/-! ### The invariant -/

/-- Between writes: the tags are those of what is stored, and the labels are complete. -/
structure Store.Flagged (K : UInt32 → XtsKeyPair) (s : Store P) : Prop where
  settled : (⟨s, .empty⟩ : World P).Settled K
  labelled : s.Labelled

/-- A segment with its payload, as a transaction of the modular pipeline commits it. -/
def Store.entered (s : Store P) (segment : Segment) (payload : Bytes) : Store P :=
  { s with
    registry := s.registry.allocSegment.2
    nvram := { s.nvram with
      file := writeAt 0 s.nvram.file segment.offset payload
      nextOffset := s.nvram.nextOffset + payload.length }.withMap
        (s.nvram.segmentMap.insert segment.id segment) }

/-- The catalog takes a hash. -/
def Store.registered (s : Store P) (hash : ContentHash) (x : SegmentId) : Store P :=
  { s with registry := s.registry.registerContent hash x }

/-- **The rest of a write** fits what its first chunk leaves: where the policy encrypts there is
nothing left to store, and elsewhere no other segment is encrypted than before. -/
theorem Fits.tail {env : Except EncryptionError (KeyManager P)} {chunk : Bytes}
    {rest : List Bytes} {s' : Store P} (payload : Bytes) (segment : Segment)
    (hf : Fits env policy (chunk :: rest) s)
    (htodo : storedPayloads (registryPipelineFromBackend env) policy s.known (chunk :: rest) =
      payload :: storedPayloads (registryPipelineFromBackend env) policy s'.known rest)
    (he : segment.encrypted = policy.encryption.isEnabled)
    (hseg : ∀ x t, s'.seg x = some t → t = segment ∨ s.seg x = some t) :
    Fits env policy rest s' := by
  set todo := storedPayloads (registryPipelineFromBackend env) policy s'.known rest with htodo'
  have hdone : policy.encryption.isEnabled = true → todo = [] := by
    intro hen
    have hlen := hf.once hen
    rw [htodo, List.length_cons] at hlen
    exact List.eq_nil_of_length_eq_zero (by omega)
  refine ⟨fun hen hne => absurd (hdone hen) hne, fun hen => ?_, fun hen p hp => ?_,
    fun p hp x t ht het => ?_⟩
  · rw [← htodo', hdone hen]
    exact Nat.zero_le 1
  · rw [← htodo', hdone hen] at hp
    exact absurd hp List.not_mem_nil
  · rcases hseg x t ht with rfl | ht
    · rw [← htodo', hdone (he ▸ het)] at hp
      exact absurd hp List.not_mem_nil
    · exact hf.clear p (htodo ▸ List.mem_cons_of_mem _ hp) x t ht het

/-- An identifier that was drawn, and an entry of the catalog, are not seen. -/
theorem Store.Flagged.registry (h : s.Flagged K) (reg : CapsuleRegistry) :
    Store.Flagged K { s with registry := reg } := by
  obtain ⟨⟨n, hg⟩, hl⟩ := h
  exact ⟨⟨n, hg.same rfl hg.keys⟩, hl⟩

/-- **A segment is stored at the beginning**, before every other one that is encrypted. -/
theorem Store.Flagged.enter {segment : Segment} {payload : Bytes} (h : s.Flagged K)
    (ho : segment.offset = 0) (hl : segment.len = asU32 payload.length)
    (hlab : segment.Labelled)
    (hnew : segment.encrypted = true → payload.length < 4294967296 ∧
      segment.Authentic P K payload)
    (hold : ∀ x t, s.seg x = some t → t.encrypted = true → payload.length ≤ t.offset) :
    (s.entered segment payload).Flagged K := by
  obtain ⟨⟨n, hg⟩, hlabels⟩ := h
  have hoff : s.nvram.nextOffset = n := hg.offset
  have hlen : segment.len ≤ payload.length := hl ▸ Nat.mod_le _ _
  have hwritten : segment.Sits P K (writeAt 0 s.nvram.file segment.offset payload)
      (n + payload.length) := by
    refine ⟨fun hne => ?_, fun he => ?_⟩
    · have hp : payload ≠ [] := by
        rintro rfl
        exact hne (Nat.le_zero.mp hlen)
      have hend := end_le_writeAt (z := 0) (l := s.nvram.file) (o := segment.offset) hp
      omega
    · obtain ⟨hshort, ha⟩ := hnew he
      rw [hl, asU32_of_lt hshort, slice_writeAt_self]
      exact ha he
  have hkept : ∀ x t, s.seg x = some t →
      t.Sits P K (writeAt 0 s.nvram.file segment.offset payload) (n + payload.length) := by
    intro x t ht
    obtain ⟨hin, ha⟩ := hg.sits x t ht
    refine ⟨fun hne => ?_, fun he => ?_⟩
    · obtain ⟨hb, hf⟩ := hin hne
      exact ⟨hb.trans (Nat.le_add_right _ _), hf.trans (length_le_writeAt _ _ _ _)⟩
    · by_cases hne : t.len = 0
      · have ha' := ha he
        rw [hne, slice_zero] at ha' ⊢
        exact ha'
      · have hbehind : segment.offset + payload.length ≤ t.offset := by
          rw [ho, Nat.zero_add]
          exact hold x t ht he
        have hslice : slice (writeAt 0 s.nvram.file segment.offset payload) t.offset t.len =
            slice s.nvram.file t.offset t.len :=
          slice_writeAt_disjoint (hin hne).2 (.inr hbehind)
        rw [hslice]
        exact ha he
  refine ⟨⟨n + payload.length, fun x t ht => ?_, rfl, ?_, hg.keys⟩, fun x t ht => ?_⟩
  · rcases Table.lookup_insert_eq_some.mp ht with ⟨-, rfl⟩ | ⟨-, ht⟩
    · exact hwritten
    · exact hkept x t ht
  · show s.nvram.nextOffset + payload.length = _
    rw [hoff]
  · rcases Table.lookup_insert_eq_some.mp ht with ⟨-, rfl⟩ | ⟨-, ht⟩
    · exact hlab
    · exact hlabels x t ht

/-! ### The programs -/

namespace Pipeline

variable {parts : Parts} {r : Registered P} {id : CapsuleId}

/-- A transaction that fails leaves the log as it found it. -/
theorem wp_inTxn_log {α : Type} {p : Modular α} {Q : Except Error α → Registered P → Prop}
    (h : p.wp (Registering parts) (fun _ _ => True) (fun res r' => match res with
      | .ok a => Q (.ok a) r'
      | .error e => Q (.error e) (r'.setBackend (NvramBackend.storage.dropTxn r'.backend)))
      (r.1, ⟨r.1.nvram.beginTransaction, []⟩)) :
    (inTxn p).wp (Registering parts) (fun _ _ => True) Q r := by
  refine wp_bind.mpr (wp_modularOp .beginTxn ?_)
  refine wp_onError (wp_mono h fun res r' hr => ?_)
  cases res with
  | ok a => exact hr
  | error e => exact wp_modularOp .dropTxn hr

/-- **No transaction can give a segment of the log other metadata**: it has not staged it. -/
theorem wp_updateMetadata_log {x : SegmentId} {segment : Segment}
    {Q : Except Error Unit → Registered P → Prop} (h : ∀ e t, Q (.error e) (r.1, t)) :
    (updateMetadata x segment).wp (Registering parts) (fun _ _ => True) Q r := by
  refine wp_inTxn_log (wp_bind.mpr (wp_modularOp (.setSegmentMetadata x segment) ?_))
  exact h _ _

/-- The payload of a segment, if the keyring answers. -/
theorem wp_encryptView_log {encryption : EncryptionPolicy} {view : Bytes} {x : SegmentId}
    {Q : Except Error (Bytes × EncryptionSummary) → Registered P → Prop}
    (herr : ∀ e, Q (.error e) r) (h : Q (parts.payload encryption view x) r) :
    (encryptView id encryption view x).wp (Registering parts) (fun _ _ => True) Q r := by
  unfold encryptView
  unfold Parts.payload at h
  cases he : encryption.isEnabled with
  | false =>
      rw [he] at h
      exact h
  | true =>
      rw [he] at h
      refine wp_bind.mpr (wp_modularOp (.deriveKey id x) ?_)
      show andThen _ _ _ _ (parts.deriveKey id x) r
      cases parts.deriveKey id x with
      | error e => exact herr e
      | ok u => exact wp_modularOp (.encrypt view encryption x) h

/-- **A chunk that is new**: its payload is entered, or nothing is. -/
theorem wp_storeSegment_log {encryption : EncryptionPolicy} {view : Bytes}
    {summary : CompressionSummary} {hash : ContentHash}
    {Q : Except Error SegmentId → Registered P → Prop}
    (herr : ∀ e t, Q (.error e) ({ r.1 with registry := r.1.registry.allocSegment.2 }, t))
    (hok : ∀ payload report t, parts.payload encryption view ⟨r.1.next⟩ = .ok (payload, report) →
      Q (.ok ⟨r.1.next⟩) (r.1.entered
        (.new ⟨r.1.next⟩ payload summary hash report encryption.isEnabled) payload, t)) :
    (storeSegment id encryption view summary hash).wp (Registering parts) (fun _ _ => True)
      Q r := by
  refine wp_inTxn_log (wp_bind.mpr (wp_modularOp .allocateSegment ?_))
  set x : SegmentId := ⟨r.1.next⟩ with hx
  set r₁ : Registered P := ({ r.1 with registry := r.1.registry.allocSegment.2 },
    ⟨r.1.nvram.beginTransaction, []⟩) with hr₁
  refine wp_bind.mpr (wp_encryptView_log (fun e => herr e _) ?_)
  show andThen _ _ _ _ (parts.payload encryption view x) r₁
  cases hp : parts.payload encryption view x with
  | error e => exact herr e _
  | ok pr =>
      obtain ⟨payload, report⟩ := pr
      set segment : Segment := .new x payload summary hash report encryption.isEnabled with hseg
      set q : PendingSegment :=
        ⟨Segment.appended x r.1.nvram.nextOffset (asU32 payload.length), payload⟩ with hq
      set t : NvramTransaction :=
        { pending := [q]
          baseOffset := r.1.nvram.nextOffset
          currentOffset := r.1.nvram.nextOffset + payload.length
          finalized := false } with ht
      refine wp_bind.mpr (wp_modularOp (.append x payload) ?_)
      refine wp_bind.mpr (wp_modularOp (.setSegmentMetadata x segment) ?_)
      have hset : t.setSegmentMetadata x segment = .ok { t with pending := [⟨segment, payload⟩] } :=
        withSegmentMut_first (t := t) (f := fun _ => segment) (p := q)
          (a := []) (b := []) rfl rfl rfl fun _ h => absurd h List.not_mem_nil
      show andThen _ _ _ _ (NvramBackend.setSegmentMetadata ⟨_, ⟨t, []⟩⟩ x segment).1
        (r₁.setBackend (NvramBackend.setSegmentMetadata ⟨_, ⟨t, []⟩⟩ x segment).2)
      rw [NvramBackend.setSegmentMetadata, hset]
      exact wp_bind.mpr (wp_modularOp .commit (hok payload report _ hp))

/-- **One segment of the plan**: its chunk is stored and its hash registered, or the write ends. -/
theorem wp_writeSegment_log {env : Except EncryptionError (KeyManager P)} {data : Bytes}
    {st : WriteState} {seg : SegmentRef} {Q : Except Error WriteState → Registered P → Prop}
    (herr : ∀ e reg t, Q (.error e) ({ r.1 with registry := reg }, t))
    (hok : ∀ view summary payload report t,
      Lz4ZstdCompressor.compress P (seg.chunk data) policy.compression = .ok (view, summary) →
      r.1.content (hashContent P view) = none →
      (registryPipelineFromBackend env).payload policy.encryption view ⟨0⟩ =
        .ok (payload, report) →
      Q (.ok (st.push ⟨r.1.next⟩ summary.outputSize false))
        ((r.1.entered (.new ⟨r.1.next⟩ payload summary (hashContent P view) report
          policy.encryption.isEnabled) payload).registered (hashContent P view) ⟨r.1.next⟩, t)) :
    (writeSegment id data policy.compression policy.encryption st seg).wp
      (Registering (registryPipelineFromBackend env)) (fun _ _ => True) Q r := by
  show Prog.wp _ _ _ (if data.length < min (seg.offset + seg.length) usizeMax then _ else _) r
  split
  · exact herr _ _ _
  refine wp_bind.mpr (wp_modularOp (.compress (seg.chunk data) policy.compression) ?_)
  show andThen _ _ _ _
    ((registryPipelineFromBackend env).compress (seg.chunk data) policy.compression) r
  rw [handle_compress]
  cases hc : Lz4ZstdCompressor.compress P (seg.chunk data) policy.compression with
  | error e => exact herr _ _ _
  | ok vs =>
  obtain ⟨view, summary⟩ := vs
  refine wp_bind.mpr (wp_modularOp (.hashContent view) ?_)
  show andThen _ _ _ _ (.ok ((registryPipelineFromBackend env).hashContent view)) r
  rw [handle_hashContent]
  refine wp_bind.mpr (wp_modularOp (.lookupContent (hashContent P view)) ?_)
  show andThen _ _ _ _ (.ok (r.1.content (hashContent P view))) r
  refine andThen_ok.mpr ?_
  dsimp only
  cases hx : r.1.content (hashContent P view) with
  | some existing =>
      refine wp_bind.mpr (wp_modularOp (.metadata existing) ?_)
      show andThen _ _ _ _ (r.1.nvram.getSegmentMetadata existing) r
      cases r.1.nvram.getSegmentMetadata existing with
      | error e => exact herr _ _ _
      | ok segment => exact wp_bind.mpr (wp_updateMetadata_log fun e t => herr e _ t)
  | none =>
      refine wp_bind.mpr (wp_storeSegment_log (fun e t => herr e _ t)
        fun payload report t hp => ?_)
      rw [handle_payload] at hp
      refine wp_bind.mpr (wp_modularOp (.registerContent (hashContent P view) ⟨r.1.next⟩) ?_)
      refine wp_bind.mpr (wp_modularOp (.dedupRegister (hashContent P view) ⟨r.1.next⟩) ?_)
      show andThen _ _ _ _
        ((registryPipelineFromBackend env).registerContent (hashContent P view) ⟨r.1.next⟩) _
      rw [handle_registerContent]
      exact wp_bind.mpr (wp_modularOp (.recordStats _ _) (hok view summary payload report t hc hx
        hp))

/-- What a segment leaves for the rest of its write. -/
theorem wp_writeSegment_fits {env : Except EncryptionError (KeyManager P)} {data : Bytes}
    {st : WriteState} {seg : SegmentRef} {rest : List Bytes}
    (hk : ∀ km, env = .ok km → km.derive = K) (h : r.1.Flagged K)
    (hf : Fits env policy (seg.chunk data :: rest) r.1) :
    (writeSegment id data policy.compression policy.encryption st seg).wp
      (Registering (registryPipelineFromBackend env)) (fun _ _ => True)
      (fun res r' => r'.1.Flagged K ∧ ∀ st', res = .ok st' → Fits env policy rest r'.1) r := by
  refine wp_writeSegment_log (fun e reg t => ⟨h.registry reg, nofun⟩)
    fun view summary payload report t hc hx hp => ?_
  set parts := registryPipelineFromBackend env with hparts
  set segment : Segment := .new ⟨r.1.next⟩ payload summary (hashContent P view) report
    policy.encryption.isEnabled with hseg
  have hknown : r.1.known (parts.hashContent view) = false := by
    rw [hparts, handle_hashContent, Store.known, hx]
    rfl
  have htodo := storedPayloads_cons rest ((handle_compress _ _).trans hc) hknown hp
  have hmem : payload ∈ storedPayloads parts policy r.1.known (seg.chunk data :: rest) := by
    rw [htodo]
    exact List.mem_cons_self
  obtain ⟨ha, hlab⟩ := handle_sealed (y := ⟨r.1.next⟩) hk
    (fun he => hf.keys he (List.ne_nil_of_mem hmem)) summary (hashContent P view) hp
  have hentered : (r.1.entered segment payload).Flagged K :=
    h.enter rfl rfl hlab (fun he => ⟨hf.short he payload hmem, ha⟩) (hf.clear payload hmem)
  refine ⟨hentered.registry _, fun st' _ => hf.tail payload segment ?_ rfl fun y u hu => ?_⟩
  · rw [htodo]
    refine congrArg (fun known => payload :: storedPayloads parts policy known rest) ?_
    funext hash'
    rw [handle_hashContent]
    show _ = ((r.1.registry.contentStore.insert (hashContent P view) ⟨r.1.next⟩).lookup
      hash').isSome
    rw [Table.lookup_insert, Function.update_apply]
    split <;> rfl
  · rcases Table.lookup_insert_eq_some.mp hu with ⟨-, rfl⟩ | ⟨-, hu⟩
    · exact .inl rfl
    · exact .inr hu

/-- **A write over the log**: the segments of the plan, and the capsule. -/
theorem wp_writeCapsule_log {env : Except EncryptionError (KeyManager P)} {data : Bytes}
    {Q : Except Error CapsuleId → Registered P → Prop} (herr : ∀ e, Q (.error e) r)
    (hok : ∀ zones, zonePlan policy data = .ok zones →
      ((zones.flatMap Zone.segments).foldlM
        (writeSegment id data policy.compression policy.encryption) {}).wp
        (Registering (registryPipelineFromBackend env)) (fun _ _ => True)
        (fun res r' => match res with
          | .error e => Q (.error e) r'
          | .ok st => ∀ res reg, r'.1.registry.createCapsule id data.length policy st.segmentIds
              st.dedupStats = (res, reg) →
              Q (res.map fun _ => id) ({ r'.1 with registry := reg }, r'.2)) r) :
    (writeCapsule id data policy).wp (Registering (registryPipelineFromBackend env))
      (fun _ _ => True) Q r := by
  refine wp_bind.mpr (wp_modularOp (.evaluateCompression policy _) ?_)
  have hcomp : (registryPipelineFromBackend env).evaluateCompression policy (data.take 1024) =
      .ok policy.compression := by cases env <;> rfl
  show andThen _ _ _ _ ((registryPipelineFromBackend env).evaluateCompression policy _) r
  rw [hcomp]
  refine wp_bind.mpr (wp_lift.mpr ?_)
  cases hz : zonePlan policy data with
  | error e => exact herr e
  | ok zones =>
  refine wp_bind.mpr (wp_modularOp (.evaluateEncryption policy) ?_)
  have henc : (registryPipelineFromBackend env).evaluateEncryption policy =
      .ok policy.encryption := by cases env <;> rfl
  show andThen _ _ _ _ ((registryPipelineFromBackend env).evaluateEncryption policy) r
  rw [henc]
  refine wp_bind.mpr (wp_mono (hok zones hz) fun res r' hr => ?_)
  cases res with
  | error e => exact hr
  | ok st =>
      refine wp_bind.mpr (wp_modularOp (.createCapsule id _ policy _ _) ?_)
      set created := r'.1.registry.createCapsule id data.length policy st.segmentIds
        st.dedupStats with hcreated
      have hcreate := hr created.1 created.2 hcreated
      show andThen _ _ _ _ created.1 _
      cases hc : created.1 with
      | error e =>
          rw [hc] at hcreate
          exact hcreate
      | ok u =>
          rw [hc] at hcreate
          exact hcreate

/-- **A write that fits.** -/
theorem wp_writeCapsule_fits {env : Except EncryptionError (KeyManager P)} {data : Bytes}
    (hk : ∀ km, env = .ok km → km.derive = K) (h : r.1.Flagged K)
    (hf : Fits env policy (plannedChunks policy data) r.1) :
    (writeCapsule id data policy).wp (Registering (registryPipelineFromBackend env))
      (fun _ _ => True) (fun _ r' => r'.1.Flagged K) r := by
  refine wp_writeCapsule_log (fun _ => h) fun zones hz => ?_
  rw [plannedChunks_ok hz] at hf
  refine wp_foldlM (fun rest _ r => r.1.Flagged K ∧
    Fits env policy (rest.map fun seg => seg.chunk data) r.1) ?_ ?_ _ _ _ ⟨h, hf⟩
  · rintro seg rest st r ⟨h, hf⟩
    refine wp_mono (wp_writeSegment_fits hk h hf) fun res r' hr => ?_
    cases res with
    | error e => exact hr.1
    | ok st' => exact ⟨hr.1, hr.2 st' rfl⟩
  · rintro st r ⟨h, -⟩ res reg -
    exact h.registry reg

end Pipeline

/-! ### Runs -/

/-- **The flags are true**: the bytes of every segment can be read, and the flag says whether all
four fields are there and the tag verifies on the bytes, under the key of the version. -/
def Store.FlagsTrue (K : UInt32 → XtsKeyPair) (s : Store P) : Prop :=
  ∀ x segment, s.seg x = some segment →
    ∃ raw, s.nvram.read x = .ok raw ∧ segment.Truthful P K raw

theorem Store.Flagged.flagsTrue (h : s.Flagged K) : s.FlagsTrue K := by
  obtain ⟨⟨n, hg⟩, hl⟩ := h
  intro x segment hx
  obtain ⟨hin, ha⟩ := hg.sits x segment hx
  refine ⟨_, ?_, Segment.truthful (hl x segment hx) ha⟩
  have hx : s.nvram.segmentMap.lookup x = some segment := hx
  rw [NvramLog.read, hx]
  refine if_pos ?_
  by_cases hne : segment.len = 0
  · exact .inr hne
  · exact .inl (hin hne).2

/-- A write through the native pipeline or through the handle, and the key manager of the native
pipeline. -/
inductive WriteStep (P : Primitives) where
  | write (mlkem : Option MlkemKeyManager) (coins : Nat → Bytes) (id : CapsuleId) (data : Bytes)
      (policy : Policy)
  | writeAsync (limit : Nat) (arrivals : Order (Bytes × Nat)) (id : CapsuleId) (data : Bytes)
      (policy : Policy)
  | modular (env : Except EncryptionError (KeyManager P)) (id : CapsuleId) (data : Bytes)
      (policy : Policy)
  | manager (km : Option (KeyManager P))

namespace WriteStep

def exec : WriteStep P → Store P → Store P
  | write mlkem coins id data policy, s =>
    ((WritePipeline.writeCapsuleHybrid P mlkem coins id data policy).run StoreOp.exec s).2
  | writeAsync limit arrivals id data policy, s =>
    ((WritePipeline.writeCapsuleWithPolicyAsync P limit arrivals id data policy).run
      StoreOp.exec s).2
  | modular env id data policy, s =>
    (ModularCommand.run (registryPipelineFromBackend env) (.write id data policy) s).2
  | manager km, s => { s with keyManager := km }

/-- The key managers of the step have the keys `K`. -/
def Keyed (K : UInt32 → XtsKeyPair) : WriteStep P → Prop
  | modular env _ _ _ => ∀ km, env = .ok km → km.derive = K
  | manager km => ∀ km', km = some km' → km'.derive = K
  | _ => True

/-- A modular write fits; a native one does, unless it wraps keys. -/
def FitsIn : WriteStep P → Store P → Prop
  | write mlkem _ _ _ policy, _ => ¬ WritePipeline.wrapsKeys mlkem policy
  | modular env _ data policy, s => Fits env policy (plannedChunks policy data) s
  | _, _ => True

end WriteStep

/-- The states that are reached from an empty log by steps that meet `A`, with one key for each
version. -/
inductive WriteRun (K : UInt32 → XtsKeyPair) (A : WriteStep P → Store P → Prop) : Store P → Prop
  | start (km : Option (KeyManager P)) (hk : ∀ km', km = some km' → km'.derive = K) :
      WriteRun K A (.empty km)
  | step {s : Store P} (o : WriteStep P) (h : WriteRun K A s) (hk : o.Keyed K) (ha : A o s) :
      WriteRun K A (o.exec s)

/-- A native write, from the store alone. -/
theorem Store.Settled.run {α : Type} {p : Native α} {data : Bytes}
    (h : p.wp (World.exec data).moves (fun o w => w.Cuttable K o) (fun _ w' => w'.Settled K)
      ⟨s, .empty⟩) : (⟨(p.run StoreOp.exec s).2, .empty⟩ : World P).Settled K := by
  obtain ⟨n, hg⟩ := wp_run (Q := fun _ (w' : World P) => w'.Settled K) h
  have hstore := (World.run_store data p (⟨s, .empty⟩ : World P)).2
  refine ⟨n, hg.same ?_ ?_⟩
  · exact congrArg Store.nvram hstore.symm
  · intro km hkm
    refine hg.keys km ?_
    rw [hstore]
    exact hkm

/-- **A step keeps the flags.** -/
theorem WriteStep.exec_flagged (hx : P.XtsInverse) {o : WriteStep P} (h : s.Flagged K)
    (hk : o.Keyed K) (hf : o.FitsIn s) : (o.exec s).Flagged K := by
  cases o with
  | write mlkem coins id data policy =>
      unfold WriteStep.exec
      dsimp only
      rw [WritePipeline.writeCapsuleHybrid_unwrapped hf]
      exact ⟨Store.Settled.run (wp_writeCapsule_guarded hx h.settled),
        WritePipeline.run_write_labelled id h.labelled⟩
  | writeAsync limit arrivals id data policy =>
      exact ⟨Store.Settled.run (wp_writeAsync_guarded hx h.settled),
        WritePipeline.run_writeAsync_labelled id h.labelled⟩
  | modular env id data policy =>
      have hw : (Pipeline.writeCapsule id data policy).wp
          (Registering (registryPipelineFromBackend env)) (fun _ _ => True)
          (fun _ r' => r'.1.Flagged K) (s, .none) := Pipeline.wp_writeCapsule_fits hk h hf
      have hw' : (ModularCommand.program (.write id data policy)).wp
          (Registering (registryPipelineFromBackend env)) (fun _ _ => True)
          (fun _ r' => r'.1.Flagged K) (s, .none) := wp_discard.mpr hw
      exact wp_run (Q := fun _ (r' : Registered P) => r'.1.Flagged K) hw'
  | manager km =>
      obtain ⟨⟨n, hg⟩, hl⟩ := h
      exact ⟨⟨n, hg.same rfl hk⟩, hl⟩

/-- **Every run of writes that fit.** -/
theorem writeRun_flagged (hx : P.XtsInverse) (h : WriteRun K WriteStep.FitsIn s) :
    s.Flagged K := by
  induction h with
  | start km hk =>
      refine ⟨⟨0, fun x t ht => ?_, rfl, rfl, hk⟩, fun x t ht => ?_⟩ <;> cases ht
  | step o _ hk ha ih => exact o.exec_flagged hx ih hk ha

/-- **The encrypted flag tells the truth** where every modular write fits. -/
theorem writeRun_flagsTrue (hx : P.XtsInverse) (h : WriteRun K WriteStep.FitsIn s) :
    s.FlagsTrue K :=
  (writeRun_flagged hx h).flagsTrue

/-- The keys of the primitives that store. -/
def storedKeys : KeyManager .stored := KeyManager.new .stored (.ofPrefix 32 [])

/-- Sixteen bytes under a policy that encrypts, through a handle with a key manager, and sixteen
others through the native pipeline. -/
theorem writeRun_flagsTrue_encrypted :
    (WriteStep.exec (.write none (fun _ => []) ⟨2⟩ (List.replicate 16 8)
        { encryption := .xtsAes256 none })
      (WriteStep.exec (.modular (.ok storedKeys) ⟨1⟩ (List.replicate 16 7)
        { encryption := .xtsAes256 none }) (.empty (some storedKeys)))).FlagsTrue
      storedKeys.derive := by
  refine writeRun_flagsTrue Primitives.stored_xts
    (.step _ (.step _ (.start (some storedKeys) fun km h => by cases h; rfl)
      (fun km h => by cases h; rfl) ?_) trivial WritePipeline.not_wrapsKeys_none)
  refine ⟨fun _ _ => ⟨_, rfl⟩, fun _ => ?_, fun _ => ?_, fun _ _ x t ht => by cases ht⟩
  · decide +kernel
  · decide +kernel

/-- **Plaintext that is labelled encrypted**: a policy that encrypts, and a handle without a key
manager. -/
theorem not_writeRun_flagsTrue :
    ¬ ∀ (P : Primitives) (K : UInt32 → XtsKeyPair) (s : Store P), P.XtsInverse →
      WriteRun K (fun _ _ => True) s → s.FlagsTrue K := by
  intro h
  have hrun := h .stored storedKeys.derive _ Primitives.stored_xts
    (.step (.modular (.error (.invalidConfiguration
      "SPACE_MASTER_KEY environment variable not set")) ⟨1⟩ [7] { encryption := .xtsAes256 none })
      (.start none nofun) nofun trivial)
  obtain ⟨raw, -, htrue⟩ := hrun ⟨0⟩ _ rfl
  have hnone := (htrue.mp rfl).1
  cases hnone

end Space

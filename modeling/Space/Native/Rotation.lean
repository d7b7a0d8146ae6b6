import Space.Native.Faithful
import Space.Native.Sealed
import Space.Native.Writing

/-!
# Native — Rotation

Key rotation.  The manager that encrypts is rotated, cleared and built again between the writes,
synchronous or asynchronous, and every segment keeps the version it was encrypted under.

* `rotation_readable`: whatever was rotated since, an encrypted segment is authenticated and
  decrypted to the view that was hashed by the write that stored it.
* `not_rotation_monotone`: every constructor starts at version 1 again, and nothing on disk says
  which version was current.  `rotation_monotone`: where no process is restarted after a rotation
  and the version does not wrap, versions never go back.
-/

namespace Space
open Support Prog

variable {P : Primitives} {policy : Policy} {data : Bytes} {w w₀ w' : World P}

/-- **What a write stores**, whether it succeeds or fails. -/
theorem World.writing_run {id : CapsuleId} (kind : WriteKind) {w : World P} :
    w.Writing policy data [] ((Command.ofWrite id data policy kind).run w).2 := by
  cases kind with
  | sync =>
      refine wp_run (J := fun _ _ => True) (Q := fun _ w' => w.Writing policy data [] w') ?_
      exact wp_discard.mpr WritePipeline.wp_writeCapsule_writing
  | async memoryLimit arrivals =>
      refine wp_run (J := fun _ _ => True) (Q := fun _ w' => w.Writing policy data [] w') ?_
      exact wp_discard.mpr WritePipeline.wp_writeAsync_writing

/-! ### Rotation between writes -/

namespace World

/-- The same store under another manager. -/
def withManager (km : KeyManager P) (w : World P) : World P :=
  { w with store := { w.store with keyManager := some km } }

/-- Another manager with the same keys. -/
theorem Inv.withManager {D : Discipline} {T : Ghost} (h : Inv D w T) {km km' : KeyManager P}
    (hk : w.store.keyManager = some km) (hd : km'.derive = km.derive) :
    Inv D (w.withManager km') T :=
  h.congr rfl rfl rfl rfl rfl (fun _ => rfl) (fun _ => rfl) (by
    rw [hk]
    exact congrArg some hd)

end World

/-- What is done to a manager between writes. -/
inductive KeyCommand (P : Primitives) where
  | rotate
  | completeRotation
  | clearCache
  | getKey (version : UInt32)
  | recreate (km : KeyManager P)

namespace KeyCommand

/-- The manager after the command. -/
def exec (km : KeyManager P) : KeyCommand P → KeyManager P
  | rotate => km.rotate.2
  | completeRotation => km.completeRotation
  | clearCache => km.clearCache
  | getKey version => (km.getKey version).2
  | recreate km' => km'

/-- A manager is built again by a constructor, from the same master key and salt. -/
def SameSecrets (km : KeyManager P) : KeyCommand P → Prop
  | recreate km' => km'.Built ∧ km'.masterKey = km.masterKey ∧ km'.hkdfSalt = km.hkdfSalt
  | _ => True

/-- **No command changes a key.** -/
theorem SameSecrets.derive {km : KeyManager P} {c : KeyCommand P} (h : c.SameSecrets km) :
    (c.exec km).derive = km.derive := by
  cases c with
  | rotate => exact km.rotate_derive
  | completeRotation => rfl
  | clearCache => rfl
  | getKey version => exact km.getKey_derive version
  | recreate km' =>
      obtain ⟨-, h₁, h₂⟩ := h
      funext v
      unfold KeyManager.derive
      show deriveKey P km'.masterKey km'.hkdfSalt v = _
      rw [h₁, h₂]

end KeyCommand

/-- A write, and the state it was called in. -/
structure WriteCall (P : Primitives) where
  before : World P
  kind : WriteKind
  id : CapsuleId
  data : Bytes
  policy : Policy

/-- What it answered, and the state it left. -/
def WriteCall.run (c : WriteCall P) : Except Error Unit × World P :=
  (Command.ofWrite c.id c.data c.policy c.kind).run c.before

def WriteCall.after (c : WriteCall P) : World P := c.run.2

/-- The states reached by writes that succeed and by commands to the manager, with the writes that
led there, last first. -/
inductive Rotating (km₀ : KeyManager P) : List (WriteCall P) → World P → Prop
  | start : Rotating km₀ [] (World.empty (some km₀))
  | write {calls : List (WriteCall P)} (c : WriteCall P) (h : Rotating km₀ calls c.before)
      (hp : c.policy.cryptoProfile = .classical) (hr : c.run.1 = .ok ()) :
      Rotating km₀ (c :: calls) c.after
  | key {calls : List (WriteCall P)} {w : World P} {km : KeyManager P} (c : KeyCommand P)
      (h : Rotating km₀ calls w) (hk : w.store.keyManager = some km) (hs : c.SameSecrets km) :
      Rotating km₀ calls (w.withManager (c.exec km))

/-- The write stored the segment, and hashed `view` for it. -/
structure WriteCall.Stores (c : WriteCall P) (x : SegmentId) (s : Segment) (payload view : Bytes) :
    Prop where
  before : ¬ ∃ s₀, c.before.seg x = some s₀ ∧ s₀.form = s.form ∧ c.before.payload x = payload
  after : ∃ s₁, c.after.seg x = some s₁ ∧ s₁.form = s.form ∧ c.after.payload x = payload
  sealed : ∃ s₁, s₁.form = s.form ∧
    SealedFrom P (c.before.store.keyFor c.policy) c.policy c.data view s₁ payload

/-- What holds of a run: the keys are those of the first manager, nothing that was stored is
overwritten, and every segment was stored by a write of the run. -/
structure Rotating.Holds (km₀ : KeyManager P) (calls : List (WriteCall P)) (w : World P) :
    Prop where
  keys : w.store.keyManager.map KeyManager.derive = some km₀.derive
  laid : w.Laid []
  stored : ∀ x s, w.seg x = some s → ∃ c ∈ calls, ∃ view,
    c.Stores x s (w.payload x) view ∧
      KeyFor (.plain (some km₀.derive) True False) c.policy (c.before.store.keyFor c.policy)

/-- The key of a write is one of the manager's. -/
theorem Store.keyFor_of_keys {D : Discipline} {s : Store P}
    (hk : s.keyManager.map KeyManager.derive = D.keys) : KeyFor D policy (s.keyFor policy) := by
  unfold KeyFor Store.keyFor Store.currentKey
  split
  · cases hm : s.keyManager with
    | none =>
        rw [hm] at hk
        rw [← hk]
        rfl
    | some km =>
        rw [hm] at hk
        rw [← hk]
        exact ⟨km.currentVersion, congrArg (fun k => some (km.currentVersion, k)) (km.getKey_fst _)⟩
  · rfl

/-- **Every run keeps what holds of it.** -/
theorem Rotating.holds {km₀ : KeyManager P} {calls : List (WriteCall P)}
    (h : Rotating km₀ calls w) : Rotating.Holds km₀ calls w := by
  induction h with
  | start => exact ⟨rfl, .empty _, fun _ _ e => by cases e⟩
  | write c _ _ _ ih =>
      have hw : c.before.Writing c.policy c.data [] c.after := World.writing_run c.kind
      refine ⟨hw.keys.trans ih.keys, hw.laid ih.laid, fun x s e => ?_⟩
      by_cases hold : ∃ s₀, c.before.seg x = some s₀ ∧ s₀.form = s.form ∧
          c.before.payload x = c.after.payload x
      · -- stored by an earlier write
        obtain ⟨s₀, e₀, hf, hp⟩ := hold
        obtain ⟨c', hc', view, hst, hkey⟩ := ih.stored x s₀ e₀
        rw [← hp]
        refine ⟨c', List.mem_cons_of_mem _ hc', view, ⟨?_, ?_, ?_⟩, hkey⟩
        · rw [← hf]
          exact hst.before
        · rw [← hf]
          exact hst.after
        · rw [← hf]
          exact hst.sealed
      · obtain ⟨view, s₁, hf, hsealed⟩ := (hw.stored x s e).resolve_left hold
        exact ⟨c, List.mem_cons_self, view, ⟨hold, ⟨s, e, rfl, rfl⟩, s₁, hf, hsealed⟩,
          Store.keyFor_of_keys ih.keys⟩
  | @key calls w km c _ hk hs ih =>
      refine ⟨?_, ⟨fun x s e => ?_, ih.laid.tiles⟩, ih.stored⟩
      · have hkeys := ih.keys
        rw [hk] at hkeys
        exact (congrArg some hs.derive).trans hkeys
      · obtain ⟨h₁, h₂, h₃⟩ := ih.laid.extent x s e
        exact ⟨h₁, h₂, h₃⟩

theorem compressSegment_length {chunk view : Bytes} {r : CompressionResult}
    (h : compressSegment P chunk policy.compression = .ok (view, r)) :
    view.length ≤ chunk.length := by
  rcases adaptiveCompress_cases h with ⟨rfl, -⟩ | ⟨-, hlt, -⟩
  · exact Nat.le_refl _
  · exact hlt.le

/-- What a write sealed unseals to the view. -/
theorem SealedFrom.unseals {D : Discipline} {key : Option (UInt32 × XtsKeyPair)} {view : Bytes}
    {s : Segment} {payload : Bytes} (hx : P.XtsInverse) (hk : KeyFor D policy key)
    (h : SealedFrom P key policy data view s payload) :
    Info.Unseals P D.keys ⟨s.form, payload⟩ view ∧ payload.length < 4294967296 := by
  obtain ⟨chunk, hc, r, m, x, off, hcomp, hseal, rfl⟩ := h
  have hshort : view.length < 4294967296 :=
    Nat.lt_of_le_of_lt ((compressSegment_length hcomp).trans (chunks_mem SEGMENT_SIZE_pos hc).2)
      (by decide)
  have hprep : Prepared P D policy chunk view r payload m := ⟨hcomp, key, hk, hseal⟩
  obtain ⟨hun, hl⟩ := hprep.unseals hx hshort x off (asU32 payload.length)
    (policy.registeredHash P view)
  exact ⟨hun, hl ▸ hshort⟩

/-- **Key rotation never makes data unreadable.**  Whatever was rotated, cleared or built again,
the manager returns the derived keys; and an encrypted segment is authenticated and decrypted,
under the key of its recorded version, to the view hashed by the write that stored it. -/
theorem rotation_readable {km₀ : KeyManager P} {calls : List (WriteCall P)} (hx : P.XtsInverse)
    (h : Rotating km₀ calls w) :
    ∃ km, w.store.keyManager = some km ∧
      (∀ v, (km.getKey v).1 = deriveKey P km₀.masterKey km₀.hkdfSalt v) ∧
      ∀ x s, w.seg x = some s → s.encrypted = true → ∃ v raw, s.keyVersion = some v ∧
        w.store.nvram.read x = .ok raw ∧ ∃ c ∈ calls, ∃ view, c.Stores x s raw view ∧
          verifyMac P raw (s.encryptionMetadata raw) (km.getKey v).1.key1
            (km.getKey v).1.key2 = .ok () ∧
          decryptSegment P raw (km.getKey v).1 (s.encryptionMetadata raw) = .ok view := by
  obtain ⟨hkeys, hlaid, hst⟩ := h.holds
  obtain ⟨km, hkm, hd⟩ := Option.map_eq_some_iff.mp hkeys
  refine ⟨km, hkm, fun v => ?_, fun x s hs he => ?_⟩
  · rw [KeyManager.getKey_fst, hd]
    rfl
  obtain ⟨c, hc, view, hstores, hkey⟩ := hst x s hs
  obtain ⟨s₁, hf, hsealed⟩ := hstores.sealed
  obtain ⟨hun, hlen⟩ := hsealed.unseals hx hkey
  rw [hf] at hun
  rcases hun with ⟨hclear, -⟩ | ⟨-, K, v, hK, hv, hmac, hdec⟩
  · have hclear : s.encrypted = false := hclear
    rw [he] at hclear
    cases hclear
  · cases hK
    have hgk : (km.getKey v).1 = km₀.derive v := by rw [KeyManager.getKey_fst, hd]
    refine ⟨v, w.payload x, hv, (hlaid.extent x s hs).read hs hlen, c, hc, view, hstores, ?_, ?_⟩
    · rw [hgk]
      exact hmac
    · rw [hgk]
      exact hdec

/-- Written, rotated, cleared and written again, by the asynchronous path: the first segment is read
under its old key. -/
theorem rotation_readable_rotated : ∃ (w : World .stored) (km : KeyManager .stored) (s : Segment)
    (raw view : Bytes), w.store.keyManager = some km ∧ km.currentVersion = 2 ∧
      w.seg ⟨0⟩ = some s ∧ s.keyVersion = some 1 ∧ w.store.nvram.read ⟨0⟩ = .ok raw ∧
      decryptSegment .stored raw (km.getKey 1).1 (s.encryptionMetadata raw) = .ok view := by
  let c₁ : WriteCall .stored :=
    ⟨World.empty (some sampleKeys), .sync, ⟨0⟩, List.replicate 16 7, sampleSealing⟩
  let c₂ : WriteCall .stored :=
    ⟨(c₁.after.withManager sampleKeys.rotate.2).withManager sampleKeys.rotate.2.clearCache,
      .async 16 .asGiven, ⟨1⟩, List.replicate 16 9, sampleSealing⟩
  have h₁ : Rotating sampleKeys [c₁] c₁.after := .write c₁ .start rfl (by decide +kernel)
  have h₂ :=
    (h₁.key .rotate (show _ = some sampleKeys from rfl) trivial).key .clearCache rfl trivial
  have h₃ : Rotating sampleKeys [c₂, c₁] c₂.after := .write c₂ h₂ rfl (by decide +kernel)
  obtain ⟨km, hkm, -, hread⟩ := rotation_readable Primitives.stored_xts h₃
  set w : World .stored := c₂.after with hw
  have hcur : w.store.keyManager.map (fun km => km.currentVersion) = some 2 := by decide +kernel
  have hseg : (w.seg ⟨0⟩).map (fun s => (s.encrypted, s.keyVersion)) = some (true, some 1) := by
    decide +kernel
  obtain ⟨s, hs, hsv⟩ := Option.map_eq_some_iff.mp hseg
  obtain ⟨he, hv⟩ := Prod.mk.inj hsv
  obtain ⟨v, raw, hv', hraw, c, -, view, -, -, hdec⟩ := hread ⟨0⟩ s hs he
  rw [hkm] at hcur
  cases hv.symm.trans hv'
  exact ⟨w, km, s, raw, view, hkm, Option.some.inj hcur, hs, hv, hraw, hdec⟩

/-! ### Rotation over restarts -/

/-- What is done to a manager over the lives of its processes. -/
inductive KeyStep where
  | rotate
  | completeRotation
  | restart

/-- A rotation has a next version, and a restart finds the first one. -/
def KeyStep.Monotone {P : Primitives} (km : KeyManager P) : KeyStep → Prop
  | rotate => km.rotating = false → km.currentVersion < 4294967295
  | completeRotation => True
  | restart => km.currentVersion = 1

/-- The write stored this segment. -/
def WriteCall.New (c : WriteCall P) (x : SegmentId) (s : Segment) : Prop :=
  c.after.seg x = some s ∧ ¬ ∃ s₀, c.before.seg x = some s₀ ∧ s₀.form = s.form

/-- The versions of the encrypted segments it stored. -/
def WriteCall.versions (c : WriteCall P) : Set UInt32 :=
  {v | ∃ x s, c.New x s ∧ s.encrypted = true ∧ s.keyVersion = some v}

/-- The states reached by writes, rotations where `A` allows them, and restarts with a manager
built from the master key; with the versions that were returned or recorded on the way. -/
inductive KeyLife (A : KeyManager P → KeyStep → Prop) (masterKey : Block 32) :
    Set UInt32 → World P → Prop
  | start (km : KeyManager P) (hb : km.Built) (hm : km.masterKey = masterKey) :
      KeyLife A masterKey ∅ (World.empty (some km))
  | write {used : Set UInt32} (c : WriteCall P) (h : KeyLife A masterKey used c.before) :
      KeyLife A masterKey (used ∪ c.versions) c.after
  | rotate {used : Set UInt32} {w : World P} {km : KeyManager P} (h : KeyLife A masterKey used w)
      (hk : w.store.keyManager = some km) (hA : A km .rotate) :
      KeyLife A masterKey (used ∪ {v | km.rotate.1 = .ok v}) (w.withManager km.rotate.2)
  | completeRotation {used : Set UInt32} {w : World P} {km : KeyManager P}
      (h : KeyLife A masterKey used w) (hk : w.store.keyManager = some km)
      (hA : A km .completeRotation) : KeyLife A masterKey used (w.withManager km.completeRotation)
  | restart {used : Set UInt32} {w : World P} {km : KeyManager P} (km' : KeyManager P)
      (capsuleOrd : Order CapsuleId) (segmentOrd sweepOrd : Order Segment)
      (h : KeyLife A masterKey used w) (hk : w.store.keyManager = some km) (hA : A km .restart)
      (hb : km'.Built) (hm : km'.masterKey = masterKey) :
      KeyLife A masterKey used (w.restart (some km') capsuleOrd segmentOrd sweepOrd).2

/-- The operations that may change the manager. -/
def StoreOp.UsesKeys : StoreOp → Prop
  | .currentKey => True
  | .getKey _ => True
  | _ => False

theorem World.exec_keyManager (data : Bytes) (o : StoreOp) (w : World P) (h : ¬ o.UsesKeys) :
    (World.exec data o w).2.store.keyManager = w.store.keyManager := by
  cases o with
  | currentKey => exact absurd trivial h
  | getKey => exact absurd trivial h
  | _ => rfl

theorem uses_reconcileRefcounts {A : StoreOp → Prop} (h₁ : ∀ ord, A (.listCapsules ord))
    (h₂ : ∀ id, A (.lookup id)) (h₃ : ∀ ord, A (.listSegments ord))
    (h₄ : ∀ x s, A (.updateSegmentMetadata x s)) (h₅ : ∀ hash x, A (.deregisterContent hash x))
    (h₆ : ∀ x, A (.removeSegment x)) (capsuleOrd : Order CapsuleId)
    (segmentOrd sweepOrd : Order Segment) :
    (WritePipeline.reconcileRefcounts capsuleOrd segmentOrd sweepOrd).Uses A := by
  refine uses_bind (uses_op (h₁ _)) fun ids => uses_bind ?_ fun counts =>
    uses_bind (uses_op (h₃ _)) fun segments => uses_bind ?_ fun _ =>
      uses_discard (uses_sweep h₃ h₅ h₆ sweepOrd)
  · refine uses_foldlM (fun counts id => uses_bind (uses_attempt (uses_op (h₂ id))) fun r => ?_) _ _
    cases r <;> trivial
  · refine uses_foldlM (fun _ s => ?_) _ _
    unfold WritePipeline.reconcileSegment
    dsimp only
    split
    · exact uses_op (h₄ _ _)
    · trivial

/-- A restart leaves the manager it was given. -/
theorem World.restart_keyManager {km : Option (KeyManager P)} {capsuleOrd : Order CapsuleId}
    {segmentOrd sweepOrd : Order Segment} :
    (w.restart km capsuleOrd segmentOrd sweepOrd).2.store.keyManager = km :=
  run_uses (f := fun w : World P => w.store.keyManager) (A := StoreOp.UsesKeys)
    (World.exec_keyManager _) (uses_reconcileRefcounts (fun _ => not_false) (fun _ => not_false)
      (fun _ => not_false) (fun _ _ => not_false) (fun _ _ => not_false) (fun _ => not_false) _ _ _)

/-- An encrypted segment has the version of the key it was sealed under. -/
theorem SealedFrom.version {key : Option (UInt32 × XtsKeyPair)} {view : Bytes} {s : Segment}
    {payload : Bytes} (h : SealedFrom P key policy data view s payload)
    (he : s.encrypted = true) : ∃ k, key = some k ∧ s.keyVersion = some k.1 := by
  obtain ⟨chunk, -, r, m, x, off, -, hseal, rfl⟩ := h
  cases key with
  | none =>
      cases hseal
      cases he
  | some vk =>
      obtain ⟨v, k⟩ := vk
      refine ⟨(v, k), rfl, ?_⟩
      simp only [sealView, Bind.bind, Except.bind] at hseal
      split at hseal
      · cases hseal
      · next cm henc =>
          obtain ⟨ciphertext, m'⟩ := cm
          cases hseal
          obtain ⟨-, -, rfl⟩ := encryptSegment_ok henc
          rfl

/-- A segment that a write stored and encrypted has the version that was current. -/
theorem WriteCall.New.version {c : WriteCall P} {x : SegmentId} {s : Segment} {km : KeyManager P}
    (hk : c.before.store.keyManager = some km) (h : c.New x s) (he : s.encrypted = true) :
    s.keyVersion = some km.currentVersion := by
  obtain ⟨hs, hnew⟩ := h
  rcases (World.writing_run c.kind).stored x s hs with ⟨s₀, h₀, hf, -⟩ | ⟨view, s₁, hf, hsealed⟩
  · exact absurd ⟨s₀, h₀, hf⟩ hnew
  · have he₁ : s₁.encrypted = true := by
      rw [show s₁.encrypted = s₁.form.encrypted from rfl, hf]
      exact he
    obtain ⟨k, hkey, hv⟩ := hsealed.version he₁
    have hcur : k.1 = km.currentVersion := by
      unfold Store.keyFor Store.currentKey at hkey
      rw [hk] at hkey
      split at hkey
      · cases hkey
        rfl
      · cases hkey
    rw [← hcur, ← hv, show s₁.keyVersion = s₁.form.keyVersion from rfl, hf]
    rfl

/-- A write leaves the version as it was. -/
theorem WriteCall.manager_after (c : WriteCall P) {km : KeyManager P}
    (hk : c.before.store.keyManager = some km) :
    ∃ km', c.after.store.keyManager = some km' ∧ km'.currentVersion = km.currentVersion := by
  have h := (@World.writing_run P c.policy c.data c.id c.kind c.before).manager
  rw [hk] at h
  obtain ⟨km', e, hs⟩ := Option.map_eq_some_iff.mp h
  exact ⟨km', e, KeyManager.version_settings hs⟩

/-- **The current version is the largest one**, where rotations and restarts keep to
`KeyStep.Monotone`. -/
theorem KeyLife.le_current {masterKey : Block 32} {used : Set UInt32}
    (h : KeyLife (P := P) KeyStep.Monotone masterKey used w) :
    ∃ km, w.store.keyManager = some km ∧ ∀ v ∈ used, v ≤ km.currentVersion := by
  induction h with
  | start km hb hm =>
      exact ⟨km, rfl, fun v hv => absurd hv (Set.notMem_empty v)⟩
  | write c _ ih =>
      obtain ⟨km, hk, hle⟩ := ih
      obtain ⟨km', hk', hv'⟩ := c.manager_after hk
      refine ⟨km', hk', fun v hv => ?_⟩
      rw [hv']
      rcases hv with hv | ⟨x, s, hnew, he, hv⟩
      · exact hle v hv
      · rw [hnew.version hk he] at hv
        cases hv
        exact UInt32.le_refl _
  | @rotate used w km _ hk hA ih =>
      obtain ⟨km', hk', hle⟩ := ih
      rw [hk] at hk'
      cases hk'
      refine ⟨km.rotate.2, rfl, ?_⟩
      cases hr : km.rotate.1 with
      | error e =>
          rw [KeyManager.rotate_error hr]
          intro v hv
          rcases hv with hv | hv
          · exact hle v hv
          · have hv : (Except.error e : Except EncryptionError UInt32) = .ok v := hv
            cases hv
      | ok version =>
          obtain ⟨hver, hcur⟩ := KeyManager.rotate_ok hr
          have hnot : km.rotating = false := by
            unfold KeyManager.rotate at hr
            split at hr
            · cases hr
            · next hn => exact Bool.eq_false_iff.mpr hn
          have hlt : km.currentVersion < km.currentVersion + 1 := by
            have hmax : km.currentVersion < 4294967295 := hA hnot
            rw [UInt32.lt_iff_toNat_lt] at hmax ⊢
            rw [UInt32.toNat_add]
            have : (4294967295 : UInt32).toNat = 4294967295 := rfl
            have : (1 : UInt32).toNat = 1 := rfl
            omega
          rw [hcur, hver]
          intro v hv
          rcases hv with hv | hv
          · exact UInt32.le_trans (hle v hv) (UInt32.le_of_lt hlt)
          · have hv : (Except.ok version : Except EncryptionError UInt32) = .ok v := hver ▸ hv
            cases hv
            rw [hver]
            exact UInt32.le_refl _
  | @completeRotation used w km _ hk _ ih =>
      obtain ⟨km', hk', hle⟩ := ih
      rw [hk] at hk'
      cases hk'
      exact ⟨km.completeRotation, rfl, hle⟩
  | @restart used w km km' _ _ _ _ hk hA hb _ ih =>
      obtain ⟨km₁, hk₁, hle⟩ := ih
      rw [hk] at hk₁
      cases hk₁
      have hone : km.currentVersion = 1 := hA
      rw [hone] at hle
      refine ⟨km', World.restart_keyManager, ?_⟩
      rw [hb.fresh.1]
      exact hle

/-- **Rotation is monotone** where no rotation wraps the version and no process is restarted after
one: what a write records is at least everything that was returned or recorded before. -/
theorem rotation_monotone {masterKey : Block 32} {used : Set UInt32} {c : WriteCall P}
    (h : KeyLife KeyStep.Monotone masterKey used c.before) {x : SegmentId} {s : Segment}
    (hnew : c.New x s) (he : s.encrypted = true) :
    ∃ v, s.keyVersion = some v ∧ ∀ u ∈ used, u ≤ v := by
  obtain ⟨km, hk, hle⟩ := h.le_current
  exact ⟨km.currentVersion, hnew.version hk he, hle⟩

/-- After a rotation the next segment has version 2. -/
theorem rotation_monotone_rotated : ∃ (c : WriteCall .stored) (s : Segment) (v : UInt32),
    c.New ⟨0⟩ s ∧ s.keyVersion = some v ∧ 2 ≤ v := by
  have h₁ : KeyLife KeyStep.Monotone (sampleKeys.masterKey) ∅ (World.empty (some sampleKeys)) :=
    .start sampleKeys (.new _) rfl
  have h₂ := h₁.rotate rfl fun _ => by decide
  set c : WriteCall .stored :=
    ⟨(World.empty (some sampleKeys)).withManager sampleKeys.rotate.2, .async 16 .asGiven, ⟨0⟩,
      List.replicate 16 7, sampleSealing⟩ with hc
  have hseg : (c.after.seg ⟨0⟩).map Segment.encrypted = some true := by decide +kernel
  obtain ⟨s, hs, he⟩ := Option.map_eq_some_iff.mp hseg
  have hnew : c.New ⟨0⟩ s := ⟨hs, fun ⟨s₀, h₀, _⟩ => by cases h₀⟩
  obtain ⟨v, hv, hle⟩ := rotation_monotone (c := c) h₂ hnew he
  exact ⟨c, s, v, hnew, hv, hle 2 (.inr rfl)⟩

/-- A process that is restarted after a rotation encrypts under version 1 again. -/
theorem not_rotation_monotone :
    ¬ ∀ (P : Primitives) (masterKey : Block 32) (used : Set UInt32) (c : WriteCall P)
      (x : SegmentId) (s : Segment), KeyLife (fun _ _ => True) masterKey used c.before →
      c.New x s → s.encrypted = true → ∃ v, s.keyVersion = some v ∧ ∀ u ∈ used, u ≤ v := by
  intro h
  have h₁ : KeyLife (fun _ _ => True) sampleKeys.masterKey ∅ (World.empty (some sampleKeys)) :=
    .start sampleKeys (.new _) rfl
  have h₂ := h₁.rotate rfl trivial
  have h₃ := h₂.restart sampleKeys .asGiven .asGiven .asGiven rfl trivial (.new _) rfl
  set c : WriteCall .stored :=
    ⟨(((World.empty (some sampleKeys)).withManager sampleKeys.rotate.2).restart (some sampleKeys)
      .asGiven .asGiven .asGiven).2, .sync, ⟨0⟩, List.replicate 16 7, sampleSealing⟩ with hc
  have hseg : (c.after.seg ⟨0⟩).map (fun s => (s.encrypted, s.keyVersion)) =
      some (true, some 1) := by decide +kernel
  obtain ⟨s, hs, hsv⟩ := Option.map_eq_some_iff.mp hseg
  obtain ⟨he, hv⟩ := Prod.mk.inj hsv
  have hbefore : (c.before.seg ⟨0⟩).isNone = true := by decide +kernel
  have hnew : c.New ⟨0⟩ s := ⟨hs, fun ⟨s₀, h₀, _⟩ => by
    rw [h₀] at hbefore
    cases hbefore⟩
  obtain ⟨v, hv', hle⟩ := h _ _ _ c ⟨0⟩ s h₃ hnew he
  cases hv.symm.trans hv'
  exact absurd (hle 2 (.inr rfl)) (by decide)

end Space

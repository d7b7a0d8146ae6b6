import Space.Native.WriteSpec
import Space.Native.Read

/-!
# Native — ReadSpec

What a reader makes of a stored segment.  It unseals the payload to a view (`Info.Unseals`), and
then decompresses the view by the policy of the capsule.

* `Prepared.unseals`: what a write stores is unsealed to the view it sealed.
* `readCapsule_yields`: a capsule reads as the chunks its segments yield.
* `World.Inv.read`: when the segments of a capsule unseal to views that its policy takes back to
  the chunks of its data, reading the capsule returns the data.
-/

namespace Space
open Support Prog

variable {P : Primitives} {D : Discipline} {policy : Policy} {data : Bytes} {w w₀ : World P}

/-- A reader with the keys `keys` takes the payload to `view`. -/
def Info.Unseals (P : Primitives) (keys : Option (UInt32 → XtsKeyPair)) (i : Info)
    (view : Bytes) : Prop :=
  i.form.encrypted = false ∧ i.payload = view ∨
  i.form.encrypted = true ∧ ∃ K v, keys = some K ∧ i.form.keyVersion = some v ∧
    verifyMac P i.payload (i.form.encryptionMetadata i.payload) (K v).key1 (K v).key2 = .ok () ∧
    decryptSegment P i.payload (K v) (i.form.encryptionMetadata i.payload) = .ok view

/-- The key of an encrypting write is one of the manager. -/
theorem KeyFor.some_iff {v : UInt32} {k : XtsKeyPair} (h : KeyFor D policy (some (v, k))) :
    policy.encryption.isEnabled = true ∧ ∃ K, D.keys = some K ∧ k = K v := by
  unfold KeyFor at h
  split at h
  · next he =>
      split at h
      · cases h
      · next K hK =>
          obtain ⟨v', e⟩ := h
          cases e
          exact ⟨he, K, hK, rfl⟩
  · cases h

/-- **What is encrypted is opened** under the same pair, by what a segment records of it. -/
theorem opened_of_encrypted {view ciphertext : Bytes} {pair : XtsKeyPair} {v : UInt32}
    {tweak : Block 16} {m : EncryptionMetadata} {s : Segment} (hx : P.XtsInverse)
    (henc : encryptSegment P view pair v tweak = .ok (ciphertext, m))
    (hlen : view.length < 4294967296) (hv : s.encryptionVersion = m.encryptionVersion)
    (hk : s.keyVersion = m.keyVersion) (ht : s.tweakNonce = m.tweakNonce)
    (hi : s.integrityTag = some (computeMac P ciphertext m pair.key1 pair.key2)) :
    verifyMac P ciphertext (s.encryptionMetadata ciphertext) pair.key1 pair.key2 = .ok () ∧
      decryptSegment P ciphertext pair (s.encryptionMetadata ciphertext) = .ok view ∧
      ciphertext.length = view.length := by
  obtain ⟨h16, hc, hm⟩ := encryptSegment_ok henc
  refine ⟨verifyMac_computeMac (m := m) ?_ hi,
    decryptSegment_encryptSegment hx henc hlen hv ht rfl, ?_⟩
  · rw [Segment.encryptionMetadata, hv, hk, ht, hm]
    rfl
  · rw [hc, hx.length_encrypt _ _ _ _ h16]

/-- **What is sealed is unsealed.** -/
theorem Prepared.unseals {chunk view payload : Bytes} {r : CompressionResult}
    {encMeta : Option EncryptionMetadata} (hx : P.XtsInverse)
    (h : Prepared P D policy chunk view r payload encMeta) (hlen : view.length < 4294967296)
    (x : SegmentId) (off n : Nat) (hash : Option ContentHash) :
    Info.Unseals P D.keys
        ⟨((Segment.appended x off n).describe r hash encMeta).form, payload⟩ view ∧
      payload.length = view.length := by
  obtain ⟨key, hkey, hseal⟩ := h.sealed
  cases key with
  | none =>
      cases hseal
      exact ⟨.inl ⟨rfl, rfl⟩, rfl⟩
  | some vk =>
      obtain ⟨v, k⟩ := vk
      obtain ⟨-, K, hK, rfl⟩ := hkey.some_iff
      simp only [sealView, Bind.bind, Except.bind] at hseal
      split at hseal
      · cases hseal
      · next cm henc =>
          obtain ⟨c, m⟩ := cm
          cases hseal
          set s := (Segment.appended x off n).describe r hash
            (some (m.setIntegrityTag (computeMac P c m (K v).key1 (K v).key2)))
          obtain ⟨hmac, hdec, hl⟩ := @opened_of_encrypted _ _ _ _ _ _ _ s.form hx henc hlen rfl rfl
            rfl rfl
          have hkv : s.form.keyVersion = some v := congrArg EncryptionMetadata.keyVersion
            (encryptSegment_ok henc).2.2
          exact ⟨.inr ⟨rfl, K, v, hK, hkv, hmac, hdec⟩, hl⟩

/-! ### Reading -/

/-- Nothing changed but what the key manager has cached. -/
structure World.Unchanged (w₀ w : World P) : Prop where
  registry : w.store.registry = w₀.store.registry
  nvram : w.store.nvram = w₀.store.nvram
  keys : w.store.keyManager.map KeyManager.derive = w₀.store.keyManager.map KeyManager.derive

/-- The key of a version is the one it was before. -/
theorem World.Unchanged.exec_getKey (h : w₀.Unchanged w) {K : UInt32 → XtsKeyPair}
    (hK : w₀.store.keyManager.map KeyManager.derive = some K) (data : Bytes) (v : UInt32) :
    ∃ w', w₀.Unchanged w' ∧ World.exec data (.getKey (some v)) w = (.ok (K v), w') := by
  obtain ⟨km, hkm, rfl⟩ := Option.map_eq_some_iff.mp (h.keys.trans hK)
  refine ⟨⟨{ w.store with keyManager := some (km.getKey v).2 }, w.ledger⟩,
    ⟨h.registry, h.nvram, ?_⟩, ?_⟩
  · rw [← h.keys, hkm]
    exact congrArg some (km.getKey_derive v)
  · simp only [World.exec, StoreOp.exec, Store.getKey, hkm, KeyManager.getKey_fst]
    rfl

/-- A segment's extent is read as its payload. -/
theorem World.Extent.read {x : SegmentId} {s : Segment} (hs : w.seg x = some s)
    (h : w.Extent x s) (hlen : (w.payload x).length < 4294967296) :
    w.store.nvram.read x = .ok (w.payload x) := by
  have hl : s.len = (w.payload x).length := by rw [h.len, asU32_of_lt hlen]
  have hin : s.offset + s.len ≤ w.store.nvram.file.length := by
    rw [hl]
    exact h.inside
  have hst : slice w.store.nvram.file s.offset s.len = w.payload x := by
    rw [hl]
    exact h.stored
  unfold NvramLog.read
  rw [show w.store.nvram.segmentMap.lookup x = some s from hs]
  dsimp only
  rw [if_pos (.inl hin), hst]

/-- Reading the segment under the policy yields the chunk. -/
def Store.Yields (s : Store P) (policy : Policy) (x : SegmentId) (chunk : Bytes) : Prop :=
  ∃ segment payload view, s.nvram.segmentMap.lookup x = some segment ∧
    s.nvram.read x = .ok payload ∧
    Info.Unseals P (s.keyManager.map KeyManager.derive) ⟨segment.form, payload⟩ view ∧
    decompressByPolicy P policy.compression view = chunk

/-- The segments of a capsule yield what is read of its data, chunk by chunk, if they unseal to
views that its policy takes to that. -/
theorem World.Inv.yields {T : Ghost} {id : CapsuleId} {c : Capsule} (h : World.Inv D w T)
    (hl : ∀ i, D.legit i → i.payload.length < 4294967296) {f : Policy → Bytes → List Bytes}
    (hsound : ∀ data policy infos, D.sound data policy infos →
      List.Forall₂ (fun chunk i => ∃ view, Info.Unseals P D.keys i view ∧
        decompressByPolicy P policy.compression view = chunk) (f policy data) infos)
    (hc : w.cap id = some c) :
    List.Forall₂ (w.store.Yields c.policy) c.segments (f c.policy (w.ledger.produced id)) := by
  obtain ⟨infos, hknown, hs, -⟩ := h.capsules id c hc
  refine forall₂_comp hknown (hsound _ _ _ hs).flip fun x hx i chunk hi hch => ?_
  obtain ⟨segment, hseg⟩ := h.listed_seg hc hx
  have hinfo : (⟨segment.form, w.payload x⟩ : Info) = i := by rw [hi.form segment hseg, hi.payload]
  obtain ⟨view, hview, hdec⟩ := hch
  have hlen := hl _ (h.legit x segment hseg hi.free)
  exact ⟨segment, w.payload x, view, hseg, World.Extent.read hseg (h.extent x segment hseg) hlen,
    by rw [hinfo, h.keys]; exact hview, hdec⟩

namespace WritePipeline

/-- Reading a segment. -/
theorem wp_readSegment {x : SegmentId} {chunk : Bytes} {Q : Except Error Bytes → World P → Prop}
    (h : w₀.Unchanged w) (hy : w₀.store.Yields policy x chunk)
    (hQ : ∀ w', w₀.Unchanged w' → Q (.ok chunk) w') :
    (readSegment P policy x).wp (World.exec data).moves (fun _ _ => True) Q w := by
  obtain ⟨s, payload, view, hlook, hread, hu, rfl⟩ := hy
  rw [← h.nvram] at hlook hread
  unfold readSegment
  refine wp_bind.mpr (World.wp_exec (.read x) trivial ?_)
  rw [World.exec_read, hread]
  refine wp_bind.mpr (World.wp_exec (.getSegmentMetadata x) trivial ?_)
  rw [World.exec_getSegmentMetadata, World.getSegmentMetadata_of_seg hlook]
  show Prog.wp _ _ Q (if s.encrypted = true then _ else _) w
  rcases hu with ⟨he, hv⟩ | ⟨he, K, v, hK, hkv, hmac, hdec⟩
  · have he' : s.encrypted = false := he
    rw [if_neg (by simp [he'])]
    subst hv
    exact hQ w h
  · have he' : s.encrypted = true := he
    rw [if_pos he']
    have hkv' : s.keyVersion = some v := hkv
    obtain ⟨w', h', hkey⟩ := h.exec_getKey hK data v
    refine wp_bind.mpr (World.wp_exec (.getKey s.keyVersion) trivial ?_)
    rw [hkv', hkey]
    refine wp_bind.mpr (wp_lift.mpr ?_)
    rw [show verifyMac P payload (s.encryptionMetadata payload) (K v).key1 (K v).key2
      = .ok () from hmac]
    refine wp_bind.mpr (wp_lift.mpr ?_)
    rw [show decryptSegment P payload (K v) (s.encryptionMetadata payload) = .ok view from hdec]
    exact hQ w' h'

/-- **Reading a capsule** whose segments yield chunks. -/
theorem readCapsule_yields (data : Bytes) {id : CapsuleId} {c : Capsule} {chs : List Bytes}
    (hc : w.cap id = some c) (hy : List.Forall₂ (w.store.Yields c.policy) c.segments chs) :
    ((readCapsule P id).run (World.exec data) w).1 = .ok chs.flatten := by
  refine wp_run (J := fun _ _ => True) (Q := fun r _ => r = .ok chs.flatten) ?_
  unfold readCapsule
  refine wp_bind.mpr (World.wp_exec (.lookup id) trivial ?_)
  rw [World.exec_lookup, World.lookup_of_cap hc]
  show Prog.wp _ _ _ (c.segments.foldlM _ _) w
  refine wp_foldlM (fun rest acc w' => w.Unchanged w' ∧ ∃ rest',
    List.Forall₂ (w.store.Yields c.policy) rest rest' ∧ acc ++ rest'.flatten = chs.flatten)
    ?_ ?_ _ _ _ ⟨⟨rfl, rfl, rfl⟩, chs, hy, List.nil_append _⟩
  · rintro x rest acc w' ⟨hun, rest', hrest, hacc⟩
    obtain ⟨chunk, rest'', hx, hrest', rfl⟩ := List.forall₂_cons_left_iff.mp hrest
    refine wp_bind.mpr (wp_readSegment hun hx fun w'' hun' => ?_)
    refine ⟨hun', rest'', hrest', ?_⟩
    rw [← hacc, List.flatten_cons, List.append_assoc]
  · rintro acc w' ⟨-, rest', hrest, hacc⟩
    cases hrest
    rw [← hacc, List.flatten_nil, List.append_nil]

end WritePipeline

/-- **Reading a capsule** returns the data it was written from, if its segments unseal to views
that its policy takes back to the chunks. -/
theorem World.Inv.read {T : Ghost} {id : CapsuleId} {c : Capsule} (h : World.Inv D w T)
    (hl : ∀ i, D.legit i → i.payload.length < 4294967296)
    (hsound : ∀ data policy infos, D.sound data policy infos →
      List.Forall₂ (fun chunk i => ∃ view, Info.Unseals P D.keys i view ∧
        decompressByPolicy P policy.compression view = chunk) (chunks SEGMENT_SIZE data) infos)
    (hc : w.cap id = some c) :
    ((WritePipeline.readCapsule P id).run (World.exec data) w).1 = .ok (w.ledger.produced id) := by
  have hread := WritePipeline.readCapsule_yields data hc
    (h.yields hl (f := fun _ data => chunks SEGMENT_SIZE data) hsound hc)
  rwa [chunks_flatten SEGMENT_SIZE_pos] at hread

end Space

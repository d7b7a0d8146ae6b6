import Space.Native.Rotation

/-!
# Native — Contents

The state of a deduplicating store as a function of what is live.  Under one policy and one key,
what the store holds under a content hash is determined by the capsules that are there: how often
their chunks have the hash, and what the view of such a chunk is sealed to
(`storedUnder_of_contents`).  Which write stored a segment, and what was deleted meanwhile, does
not matter.

The one thing the hash does not say is how the view was made.  A chunk may be stored as it is and
be the compressed form of another chunk; whichever comes first decides what is recorded
(`not_storedUnder_of_contents`).
-/

namespace Space
open Support Prog

variable {P : Primitives} {policy : Policy} {data : Bytes} {w w₀ w' : World P}
  {km : Option (KeyManager P)} {hash : ContentHash} {C U : Set Bytes}

/-! ### What is compared -/

/-- What a segment records of its compression and its encryption. -/
structure StoredFields where
  compressed : Bool
  compressionAlgo : String
  encrypted : Bool
  encryptionVersion : Option UInt16
  keyVersion : Option UInt32
  tweakNonce : Option (Block 16)
  integrityTag : Option (Block 16)
  pqCiphertext : Option String
  pqNonce : Option (Block 16)
  deriving DecidableEq

def Segment.fields (s : Segment) : StoredFields where
  compressed := s.compressed
  compressionAlgo := s.compressionAlgo
  encrypted := s.encrypted
  encryptionVersion := s.encryptionVersion
  keyVersion := s.keyVersion
  tweakNonce := s.tweakNonce
  integrityTag := s.integrityTag
  pqCiphertext := s.pqCiphertext
  pqNonce := s.pqNonce

/-- What is stored under a hash, without identifiers, offsets and access counts. -/
structure StoredContent where
  refCount : Nat
  deduplicated : Bool
  bytes : Except Error Bytes
  fields : StoredFields

/-- The content hashes, and what is stored under each. -/
def World.storedUnder (w : World P) (hash : ContentHash) : Option StoredContent :=
  (w.content hash).bind fun x => (w.seg x).map fun s =>
    ⟨s.refCount, s.deduplicated, w.store.nvram.read x, s.fields⟩

/-- The data of the live capsules, as often as they are there. -/
def World.liveContents (w : World P) : Multiset Bytes :=
  w.store.registry.capsules.keys.map w.ledger.produced

/-- The hash of a chunk under a policy. -/
def Policy.chunkHash (P : Primitives) (policy : Policy) (chunk : Bytes) : Option ContentHash :=
  match compressSegment P chunk policy.compression with
  | .ok (view, _) => some (hashContent P view)
  | .error _ => none

/-- How often the chunks of some data have a hash. -/
def Policy.occurrences (P : Primitives) (policy : Policy) (hash : ContentHash) (data : Bytes) :
    Nat := ((chunks SEGMENT_SIZE data).map (policy.chunkHash P)).count (some hash)

/-! ### What a delete keeps -/

/-- Segments may be gone; those that are left are what they were. -/
structure World.Thinned (w₀ w : World P) : Prop where
  manager : w.store.keyManager = w₀.store.keyManager
  payload : w.payload = w₀.payload
  stored : ∀ x s, w.seg x = some s → ∃ s₀, w₀.seg x = some s₀ ∧ s₀.form = s.form

/-- The operations of a delete. -/
def StoreOp.Thins : StoreOp → Prop
  | .deleteCapsule _ => True
  | .decrementRefcount _ => True
  | .deregisterContent _ _ => True
  | .removeSegment _ => True
  | _ => False

theorem World.Thinned.exec {o : StoreOp} (ho : o.Thins) (h : w₀.Thinned w) :
    w₀.Thinned (World.exec data o w).2 := by
  obtain ⟨hm, hp, hs⟩ := h
  cases o with
  | deleteCapsule id => exact ⟨hm, hp, hs⟩
  | deregisterContent hash x => exact ⟨hm, hp, hs⟩
  | decrementRefcount x =>
      cases e : w.seg x with
      | none =>
          refine ⟨hm, hp, fun y s k => hs y s ?_⟩
          have hsame :
              (World.exec data (.decrementRefcount x) w).2.store.nvram = w.store.nvram := by
            show (w.store.nvram.decrementRefcount x).2 = _
            unfold NvramLog.decrementRefcount
            rw [show w.store.nvram.segmentMap.lookup x = none from e]
          rw [World.seg, hsame] at k
          exact k
      | some s =>
          by_cases h0 : s.refCount = 0
          · refine ⟨hm, hp, fun y s' k => hs y s' ?_⟩
            have hsame : (World.exec data (.decrementRefcount x) w).2.store.nvram =
                w.store.nvram := by
              show (w.store.nvram.decrementRefcount x).2 = _
              unfold NvramLog.decrementRefcount
              rw [show w.store.nvram.segmentMap.lookup x = some s from e]
              simp only [h0, if_true]
            rw [World.seg, hsame] at k
            exact k
          · rw [World.exec_decrement e h0]
            refine ⟨hm, hp, fun y s' k => ?_⟩
            rw [World.seg_putSegment] at k
            split at k
            · next hy =>
                cases k
                rw [hy]
                exact hs x s e
            · exact hs y s' k
  | removeSegment x =>
      refine ⟨hm, hp, fun y s k => hs y s ?_⟩
      exact (NvramLog.removeSegment_lookup_eq_some.mp k).2
  | _ => exact ho.elim

/-- A delete finds no segment that is listed more often than can be counted. -/
def Command.Countable : Command → World P → Prop
  | .delete _, w => ∀ x, w.occ x ≤ u32Max
  | _, _ => True

/-- Chunks of `C` with the same view were made into it in the same way. -/
def Policy.Alike (P : Primitives) (policy : Policy) (C : Set Bytes) : Prop :=
  ∀ a ∈ C, ∀ b ∈ C, ∀ view r r', compressSegment P a policy.compression = .ok (view, r) →
    compressSegment P b policy.compression = .ok (view, r') → r.compressed = r'.compressed

/-- A segment registered under the hash of a chunk. -/
def HashedAs (P : Primitives) (policy : Policy) (chunk : Bytes) (i : Info) : Prop :=
  ∃ hash, policy.chunkHash P chunk = some hash ∧ i.form.contentHash = some hash

/-- The segments of a capsule have the hashes of its chunks. -/
def Discipline.hashed (P : Primitives) (policy : Policy) (keys : Option (UInt32 → XtsKeyPair)) :
    Discipline where
  keys := keys
  legit := fun _ => True
  hit := fun _ _ => True
  sound := fun data _ infos => List.Forall₂ (HashedAs P policy) (chunks SEGMENT_SIZE data) infos
  solo := True
  tight := False

/-- What holds of a run under one policy. -/
structure Filed (P : Primitives) (km : Option (KeyManager P)) (policy : Policy) (C : Set Bytes)
    (w : World P) : Prop where
  inv : World.Inv (.hashed P policy (km.map KeyManager.derive)) w 0
  manager : w.store.keyManager.map KeyManager.settings = km.map KeyManager.settings
  sealed : ∀ x s, w.seg x = some s → ∃ data view s₁, s₁.form = s.form ∧
    (∀ chunk ∈ chunks SEGMENT_SIZE data, chunk ∈ C) ∧
    SealedFrom P ((Store.empty km).keyFor policy) policy data view s₁ (w.payload x)

namespace Filed

/-- A registered segment is sealed from a chunk with its hash. -/
theorem stored (h : Filed P km policy C w) {x : SegmentId} {s : Segment}
    (hd : policy.dedupe = true) (hs : w.seg x = some s) (hh : s.contentHash = some hash) :
    ∃ chunk ∈ C, ∃ view r m, compressSegment P chunk policy.compression = .ok (view, r) ∧
      hashContent P view = hash ∧
      sealView P ((Store.empty km).keyFor policy) view hash = .ok (w.payload x, m) ∧
      s.fields = ((Segment.appended ⟨0⟩ 0 0).describe r none m).fields := by
  obtain ⟨d, view, s₁, hf, hC, chunk, hc, r, m, y, off, hcomp, hseal, rfl⟩ := h.sealed x s hs
  have hreg : policy.registeredHash P view = some (hashContent P view) := if_pos hd
  rw [hreg] at hf
  have hview : hashContent P view = hash := by
    have e := World.contentHash_of_form hf
    rw [hh] at e
    cases m <;> exact Option.some.inj e
  rw [hview] at hseal hf
  refine ⟨chunk, hC chunk hc, view, r, m, hcomp, hview, hseal, ?_⟩
  rw [show s.fields = s.form.fields from rfl, ← hf]
  cases m <;> rfl

/-- A chunk of a live capsule is registered, and by the segment that is listed for it. -/
theorem listed (h : Filed P km policy C w) {id : CapsuleId} {c : Capsule} (hc : w.cap id = some c) :
    List.Forall₂ (fun x chunk => ∃ hash, policy.chunkHash P chunk = some hash ∧
      w.content hash = some x) c.segments (chunks SEGMENT_SIZE (w.ledger.produced id)) := by
  obtain ⟨infos, hk, hs, -⟩ := h.inv.capsules id c hc
  refine List.forall₂_iff_get.mpr ⟨hk.length_eq.trans hs.length_eq.symm, fun i hi hi' => ?_⟩
  have hl : i < infos.length := hk.length_eq ▸ hi
  have hknown := (List.forall₂_iff_get.mp hk).2 i hi hl
  obtain ⟨hash, hch, hih⟩ := (List.forall₂_iff_get.mp hs).2 i hi' hl
  obtain ⟨s, hseg⟩ := h.inv.listed_seg hc (List.get_mem c.segments ⟨i, hi⟩)
  refine ⟨hash, hch, ?_⟩
  have hsh : s.contentHash = some hash := by
    rw [show s.contentHash = s.form.contentHash from rfl, hknown.form s hseg]
    exact hih
  obtain k | k | k | k := h.inv.indexed trivial _ s hash hseg hsh
  · exact k
  all_goals exact absurd k (Multiset.notMem_zero _)

/-- A chunk of a live capsule with a hash that is registered is listed by the segment it is
registered under, and by no other. -/
theorem count_segments (h : Filed P km policy C w) {x : SegmentId}
    (hx : w.content hash = some x) {id : CapsuleId} {c : Capsule} (hc : w.cap id = some c) :
    c.segments.count x = policy.occurrences P hash (w.ledger.produced id) := by
  have hl : List.Forall₂ (fun y o => ∃ hash', o = some hash' ∧ w.content hash' = some y) c.segments
      ((chunks SEGMENT_SIZE (w.ledger.produced id)).map (policy.chunkHash P)) :=
    List.forall₂_map_right_iff.mpr (h.listed hc)
  refine count_eq_of_forall₂ hl ?_
  rintro y - o ⟨hash', rfl, hy⟩
  constructor
  · rintro rfl
    obtain ⟨-, s, hs, hh⟩ := h.inv.content hash y hx
    obtain ⟨-, s', hs', hh'⟩ := h.inv.content hash' y hy
    rw [hs] at hs'
    cases hs'
    rw [← hh, hh']
  · intro e
    cases e
    exact Option.some.inj (hy.symm.trans hx)

/-- **How often a segment is listed** is how often the live chunks have its hash. -/
theorem occ (h : Filed P km policy C w) {x : SegmentId} (hx : w.content hash = some x) :
    w.occ x = (w.liveContents.map (policy.occurrences P hash)).sum := by
  unfold World.occ World.liveContents
  rw [Table.total_eq_sum_keys, Multiset.map_coe, Multiset.sum_coe, List.map_map]
  refine congrArg List.sum (List.map_congr_left fun id hid => ?_)
  obtain ⟨c, hc⟩ := Table.mem_iff.mp (AList.mem_keys.mpr hid)
  rw [hc]
  exact h.count_segments hx hc

/-- A registered segment is there, and is referred to as often as the live chunks have its hash. -/
theorem registered (h : Filed P km policy C w) {x : SegmentId} (hx : w.content hash = some x) :
    ∃ s, w.seg x = some s ∧ s.contentHash = some hash ∧
      s.refCount = min u32Max (w.liveContents.map (policy.occurrences P hash)).sum ∧
      0 < s.refCount := by
  obtain ⟨-, s, hs, hh⟩ := h.inv.content hash x hx
  have hr := h.inv.refs x
  rw [World.refs_of_seg hs, h.occ hx, Ghost.weight_zero, Nat.add_zero] at hr
  refine ⟨s, hs, hh, hr, Nat.pos_of_ne_zero fun h0 => ?_⟩
  rcases h.inv.zero x s hs h0 with ⟨hash, k⟩ | k
  · exact Multiset.notMem_zero _ k
  · exact Multiset.notMem_zero _ k

/-- A hash that is not registered is that of no live chunk. -/
theorem unregistered (h : Filed P km policy C w) (hx : w.content hash = none) :
    (w.liveContents.map (policy.occurrences P hash)).sum = 0 := by
  refine Multiset.sum_eq_zero fun n hn => ?_
  obtain ⟨data, hdata, rfl⟩ := Multiset.mem_map.mp hn
  obtain ⟨id, hid, rfl⟩ := List.mem_map.mp (Multiset.mem_coe.mp hdata)
  obtain ⟨c, hc⟩ := Table.mem_iff.mp (AList.mem_keys.mpr hid)
  refine List.count_eq_zero.mpr fun k => ?_
  obtain ⟨chunk, hchunk, e⟩ := List.mem_map.mp k
  obtain ⟨x, -, hash', hch, hcont⟩ := forall₂_mem_left (h.listed hc).flip hchunk
  rw [e] at hch
  cases hch
  rw [hx] at hcont
  cases hcont

end Filed

end Space

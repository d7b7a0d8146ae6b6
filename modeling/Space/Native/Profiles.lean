import Space.Native.Faithful
import Space.Native.Holds

/-!
# Native — Profiles

What a capsule reads back where writes of both profiles go on.  The reader looks for the wrapped
key of a segment by its own capsule and position, and by the content hash of the segment; so a
segment with a wrapped key is read by the capsule that stored it and by no other, and not at all if
it has no hash.

* `Info.Opens`: what a reader makes of a segment of a capsule, at a position.
* `PreparedHybrid.opens`: what a write stores is opened by its capsule.
* `readCapsuleHybrid_written`: in every run of writes that share no wrapped segment, and deletes, a
  live capsule reads back.
* `not_readCapsuleHybrid_written`: a hybrid write that does not deduplicate does not.
-/

namespace Space
open Support Prog WritePipeline

variable {P : Primitives} {mlkem : Option MlkemKeyManager} {M : MlkemKeyManager} {U : Set Bytes}
  {D : Discipline} {keys : Option (UInt32 → XtsKeyPair)} {policy : Policy}
  {id : CapsuleId} {coins : Nat → Bytes} {data view payload : Bytes} {index : Nat}

/-! ### Opening a segment -/

/-- A reader with the keys `keys` takes the payload to `view`, for a capsule and a position. -/
def Info.Opens (P : Primitives) (mlkem : Option MlkemKeyManager)
    (keys : Option (UInt32 → XtsKeyPair)) (policy : Policy) (id : CapsuleId) (index : Nat)
    (i : Info) (view : Bytes) : Prop :=
  i.form.encrypted = false ∧ i.payload = view ∨
  i.form.encrypted = true ∧ ∃ K v pair, keys = some K ∧ i.form.keyVersion = some v ∧
    pairForUse mlkem policy id index i.form (K v) = pair ∧
    verifyMac P i.payload (i.form.encryptionMetadata i.payload) pair.key1 pair.key2 = .ok () ∧
    decryptSegment P i.payload pair (i.form.encryptionMetadata i.payload) = .ok view

/-- A segment that records no ciphertext is read under the key of the manager. -/
theorem pairForUse_of_none {segment : Segment} {pair : XtsKeyPair}
    (h : segment.pqCiphertext = none) :
    pairForUse mlkem policy id index segment pair = pair := by
  unfold pairForUse
  rw [h]
  split
  · split
    · next hcipher _ => cases hcipher
    · rfl
  · rfl

theorem Info.Unseals.opens {i : Info} (h : i.Unseals P keys view)
    (hp : i.form.pqCiphertext = none) : i.Opens P mlkem keys policy id index view := by
  rcases h with hraw | ⟨he, K, v, hK, hv, hmac, hdec⟩
  · exact .inl hraw
  · exact .inr ⟨he, K, v, K v, hK, hv, pairForUse_of_none hp, hmac, hdec⟩

/-- **A wrapped key is found again** by the capsule and at the position it was wrapped for. -/
theorem pairForUse_of_wrapped {segment : Segment} {base : XtsKeyPair} {hash : ContentHash}
    {coins : Bytes} {material : HybridKeyMaterial} (hM : M.Decapsulates)
    (hw : M.wrapXtsKey policy.cryptoProfile (collectBaseMaterial base) id ⟨index⟩ hash coins =
      some material)
    (hc : segment.pqCiphertext = some (serializeCiphertext material.ciphertext))
    (hh : segment.contentHash = some hash) :
    pairForUse (some M) policy id index segment base =
      .fromBytes material.wrappedKey.toList := by
  obtain ⟨hp, hun⟩ := unwrapXtsKey_wrapXtsKey hM hw
  unfold pairForUse
  rw [if_pos hp, hc, hh]
  dsimp only
  rw [hun]

/-! ### Sealing -/

/-- What is sealed: the view itself, or its ciphertext under the key of the manager or a wrapped
one. -/
theorem sealHybrid_ok {profile : CryptoProfile} {coins : Bytes}
    {key : Option (UInt32 × XtsKeyPair)} {hash : ContentHash} {encMeta : Option EncryptionMetadata}
    {material : Option HybridKeyMaterial}
    (h : sealHybrid P (some M) profile id index coins key view hash =
      .ok (payload, encMeta, material)) :
    (key = none ∧ payload = view ∧ encMeta = none ∧ material = none) ∨
    ∃ v base pair tweak m, key = some (v, base) ∧
      encryptSegment P view pair v tweak = .ok (payload, m) ∧
      encMeta = some (m.setIntegrityTag (computeMac P payload m pair.key1 pair.key2)) ∧
      (material = none ∧ pair = base ∨ ∃ wrapped, material = some wrapped ∧
        M.wrapXtsKey profile (collectBaseMaterial base) id ⟨index⟩ hash coins = some wrapped ∧
        pair = .fromBytes wrapped.wrappedKey.toList) := by
  rcases key with _ | ⟨v, base⟩
  · cases h
    exact .inl ⟨rfl, rfl, rfl, rfl⟩
  · refine .inr ⟨v, base, ?_⟩
    unfold sealHybrid at h
    simp only [Option.bind_some, Bind.bind, Except.bind] at h
    split at h
    · cases h
    · next cm henc =>
        obtain ⟨c, m⟩ := cm
        cases h
        refine ⟨_, _, m, rfl, henc, rfl, ?_⟩
        cases hw : M.wrapXtsKey profile (collectBaseMaterial base) id ⟨index⟩ hash coins with
        | none => exact .inl ⟨rfl, rfl⟩
        | some wrapped => exact .inr ⟨wrapped, rfl, rfl, rfl⟩

/-- A wrapped key leaves a segment that can be found by its hash. -/
def Policy.Findable (policy : Policy) : Prop :=
  policy.encryption.isEnabled = true → policy.cryptoProfile = .hybridKyber → policy.dedupe = true

/-- **What a write stores is opened** by its capsule, at its position; and under the key of the
manager alone, if the segment records no ciphertext. -/
theorem PreparedHybrid.opens {chunk : Bytes × Nat} {r : CompressionResult}
    {encMeta : Option EncryptionMetadata} {material : Option HybridKeyMaterial} {s : Segment}
    (hx : P.XtsInverse) (hM : M.Decapsulates) (hf : policy.Findable)
    (h : PreparedHybrid P D (some M) coins id policy chunk view r payload encMeta material)
    (hlen : view.length < 4294967296) (x : SegmentId) (off n : Nat)
    (hs : s = ((Segment.appended x off n).describe r (policy.registeredHash P view) encMeta).wrap
      material) :
    Info.Opens P (some M) D.keys policy id chunk.2 ⟨s.form, payload⟩ view ∧
      (s.form.pqCiphertext = none → Info.Unseals P D.keys ⟨s.form, payload⟩ view) ∧
      payload.length = view.length := by
  subst hs
  obtain ⟨key, hkey, hseal⟩ := h.sealed
  rcases sealHybrid_ok hseal with
    ⟨rfl, rfl, rfl, rfl⟩ | ⟨v, base, pair, tweak, m, rfl, henc, rfl, hpair⟩
  · exact ⟨.inl ⟨rfl, rfl⟩, fun _ => .inl ⟨rfl, rfl⟩, rfl⟩
  · obtain ⟨he, K, hK, rfl⟩ := hkey.some_iff
    have hversion : m.keyVersion = some v :=
      congrArg EncryptionMetadata.keyVersion (encryptSegment_ok henc).2.2
    rcases hpair with ⟨rfl, rfl⟩ | ⟨wrapped, rfl, hwrap, rfl⟩
    · set s := (((Segment.appended x off n).describe r (policy.registeredHash P view)
        (some (m.setIntegrityTag (computeMac P payload m (K v).key1 (K v).key2)))).wrap none)
      obtain ⟨hmac, hdec, hl⟩ :=
        @opened_of_encrypted _ _ _ _ _ _ _ s.form hx henc hlen rfl rfl rfl rfl
      have hun : Info.Unseals P D.keys ⟨s.form, payload⟩ view :=
        .inr ⟨rfl, K, v, hK, hversion, hmac, hdec⟩
      exact ⟨hun.opens rfl, fun _ => hun, hl⟩
    · set s := (((Segment.appended x off n).describe r (policy.registeredHash P view)
        (some (m.setIntegrityTag (computeMac P payload m
          (XtsKeyPair.fromBytes wrapped.wrappedKey.toList).key1
          (XtsKeyPair.fromBytes wrapped.wrappedKey.toList).key2)))).wrap (some wrapped))
      obtain ⟨hmac, hdec, hl⟩ :=
        @opened_of_encrypted _ _ _ _ _ _ _ s.form hx henc hlen rfl rfl rfl rfl
      have hhash : s.form.contentHash = some (hashContent P view) := by
        show policy.registeredHash P view = _
        exact if_pos (hf he (unwrapXtsKey_wrapXtsKey hM hwrap).1)
      refine ⟨.inr ⟨rfl, K, v, _, hK, hversion, pairForUse_of_wrapped hM hwrap rfl hhash, hmac,
        hdec⟩, fun hnone => ?_, hl⟩
      cases hnone

/-! ### The discipline -/

/-- What a write leaves in the ledger: its data, behind the capsule it is for. -/
def noteFor (id : CapsuleId) (data : Bytes) : Bytes := List.replicate id.val 0 ++ 1 :: data

theorem noteFor_inj {id' : CapsuleId} {data' : Bytes} (h : noteFor id data = noteFor id' data') :
    id = id' ∧ data = data' := by
  obtain ⟨n⟩ := id
  obtain ⟨m⟩ := id'
  induction n generalizing m with
  | zero =>
      cases m with
      | zero => exact ⟨rfl, (List.cons.inj h).2⟩
      | succ m => cases (List.cons.inj h).1
  | succ n ih =>
      cases m with
      | zero => cases (List.cons.inj h).1
      | succ m =>
          obtain ⟨hid, hdata⟩ := ih m (List.cons.inj h).2
          exact ⟨congrArg (fun id : CapsuleId => CapsuleId.mk (id.val + 1)) hid, hdata⟩

/-- A segment that reads as a chunk at its position in a capsule. -/
def ReadsAt (P : Primitives) (mlkem : Option MlkemKeyManager) (keys : Option (UInt32 → XtsKeyPair))
    (policy : Policy) (id : CapsuleId) (chunk : Bytes × Nat) (i : Info) : Prop :=
  ∃ view, i.Opens P mlkem keys policy id chunk.2 view ∧
    decompressByPolicy P policy.compression view = chunk.1

/-- Segments without a ciphertext unseal to views that were hashed, and are registered under the
hash of these; no other is found; every capsule reads as its data. -/
def Discipline.profiles (P : Primitives) (U : Set Bytes) (M : MlkemKeyManager)
    (keys : Option (UInt32 → XtsKeyPair)) : Discipline where
  keys := keys
  legit := fun i => i.payload.length < 4294967296 ∧ (i.form.pqCiphertext = none →
    ∃ view ∈ U, i.Unseals P keys view ∧ ∀ h, i.form.contentHash = some h → h = hashContent P view)
  hit := fun _ i => i.form.pqCiphertext = none
  sound := fun note policy infos => ∃ id data, note = noteFor id data ∧
    List.Forall₂ (ReadsAt P (some M) keys policy id) (chunks SEGMENT_SIZE data).zipIdx infos
  solo := True
  tight := False

/-- **A write keeps the discipline.** -/
theorem accepts_profiles (hx : P.XtsInverse) (hM : M.Decapsulates) (hU : P.NoCollision U)
    (hf : data ≠ [] → policy.Findable)
    (hin : ∀ chunk ∈ chunks SEGMENT_SIZE data, ∀ view r,
      compressSegment P chunk policy.compression = .ok (view, r) → view ∈ U)
    (hraw : ∀ chunk ∈ chunks SEGMENT_SIZE data, policy.ReadsRaw P chunk) :
    (Discipline.profiles P U M keys).AcceptsHybrid P (some M) coins id policy data
      (noteFor id data) (ReadsAt P (some M) keys policy id) where
  fresh := by
    intro chunk hc view r payload encMeta material hp x off
    have hmem := List.fst_mem_of_mem_zipIdx hc
    obtain ⟨hdec, hlen⟩ := decompressByPolicy_view (hraw chunk.1 hmem) hp.compressed
    have hshort : view.length < 4294967296 :=
      Nat.lt_of_le_of_lt (hlen.trans (chunks_mem SEGMENT_SIZE_pos hmem).2) (by decide)
    have hne : data ≠ [] := by
      rintro rfl
      cases hc
    obtain ⟨hopens, hun, hl⟩ := hp.opens hx hM (hf hne) hshort x off (asU32 payload.length) rfl
    refine ⟨⟨?_, fun hnone => ⟨view, hin chunk.1 hmem view r hp.compressed, hun hnone,
      fun h hh => ?_⟩⟩, view, hopens, hdec⟩
    · show payload.length < _
      omega
    · have e : policy.registeredHash P view = some h := by
        rw [← hh]
        cases encMeta <;> cases material <;> rfl
      unfold Policy.registeredHash at e
      split at e
      · exact (Option.some.inj e).symm
      · cases e
  hit := by
    rintro chunk hc view r payload encMeta material hp - i ⟨-, hlegit⟩ hnone hh
    have hmem := List.fst_mem_of_mem_zipIdx hc
    obtain ⟨view', hin', hun, hhash⟩ := hlegit hnone
    obtain rfl := hashContent_inj hU (hin chunk.1 hmem view r hp.compressed) hin' (hhash _ hh)
    exact ⟨view, hun.opens hnone, (decompressByPolicy_view (hraw chunk.1 hmem) hp.compressed).1⟩
  sound := fun infos h => ⟨id, data, rfl, h⟩

/-! ### Reading -/

/-- Reading the segment of the capsule at the position of the chunk yields the chunk. -/
def Store.YieldsAt (s : Store P) (mlkem : Option MlkemKeyManager) (capsule : Capsule)
    (x : SegmentId) (chunk : Bytes × Nat) : Prop :=
  ∃ segment payload, s.nvram.segmentMap.lookup x = some segment ∧ s.nvram.read x = .ok payload ∧
    ReadsAt P mlkem (s.keyManager.map KeyManager.derive) capsule.policy capsule.id chunk
      ⟨segment.form, payload⟩

namespace WritePipeline
variable {w w₀ : World P} {capsule : Capsule}

theorem wp_readSegmentHybrid {x : SegmentId} {chunk : Bytes × Nat}
    {Q : Except Error Bytes → World P → Prop} (h : w₀.Unchanged w)
    (hy : w₀.store.YieldsAt mlkem capsule x chunk)
    (hQ : ∀ w', w₀.Unchanged w' → Q (.ok chunk.1) w') :
    (readSegmentHybrid P mlkem capsule chunk.2 x).wp (World.exec data).moves (fun _ _ => True)
      Q w := by
  obtain ⟨s, payload, hlook, hread, view, hu, hview⟩ := hy
  rw [← hview] at hQ
  rw [← h.nvram] at hlook hread
  unfold readSegmentHybrid
  refine wp_bind.mpr (World.wp_exec (.read x) trivial ?_)
  rw [World.exec_read, hread]
  refine wp_bind.mpr (World.wp_exec (.getSegmentMetadata x) trivial ?_)
  rw [World.exec_getSegmentMetadata, World.getSegmentMetadata_of_seg hlook]
  show Prog.wp _ _ Q (if s.encrypted = true then _ else _) w
  rcases hu with ⟨he, hv⟩ | ⟨he, K, v, pair, hK, hkv, hpair, hmac, hdec⟩
  · have he' : s.encrypted = false := he
    rw [if_neg (by simp [he'])]
    subst hv
    exact hQ w h
  · have he' : s.encrypted = true := he
    rw [if_pos he']
    have hkv' : s.keyVersion = some v := hkv
    obtain ⟨w', h', hkey⟩ := h.exec_getKey hK data v
    refine wp_bind.mpr (World.wp_exec (.getKey s.keyVersion) trivial ?_)
    rw [hkv', hkey]
    have hpair' : pairForUse mlkem capsule.policy capsule.id chunk.2 s (K v) = pair := hpair
    refine wp_bind.mpr (wp_lift.mpr ?_)
    rw [hpair', show verifyMac P payload (s.encryptionMetadata payload) pair.key1 pair.key2
      = .ok () from hmac]
    refine wp_bind.mpr (wp_lift.mpr ?_)
    rw [show decryptSegment P payload pair (s.encryptionMetadata payload) = .ok view from hdec]
    exact hQ w' h'

/-- **Reading a capsule** whose segments yield chunks. -/
theorem readCapsuleHybrid_yields (data : Bytes) {chs : List Bytes} (hc : w.cap id = some capsule)
    (hy : List.Forall₂ (w.store.YieldsAt mlkem capsule) capsule.segments chs.zipIdx) :
    ((readCapsuleHybrid P mlkem id).run (World.exec data) w).1 = .ok chs.flatten := by
  refine wp_run (J := fun _ _ => True) (Q := fun r _ => r = .ok chs.flatten) ?_
  unfold readCapsuleHybrid
  refine wp_bind.mpr (World.wp_exec (.lookup id) trivial ?_)
  rw [World.exec_lookup, World.lookup_of_cap hc]
  show Prog.wp _ _ _ (capsule.segments.zipIdx.foldlM _ _) w
  refine wp_foldlM (fun rest acc w' => w.Unchanged w' ∧ ∃ rest',
    List.Forall₂ (fun seg chunk => seg.2 = chunk.2 ∧ w.store.YieldsAt mlkem capsule seg.1 chunk)
      rest rest' ∧ acc ++ (rest'.map Prod.fst).flatten = chs.flatten)
    ?_ ?_ _ _ _ ⟨⟨rfl, rfl, rfl⟩, chs.zipIdx, forall₂_zipIdx hy, ?_⟩
  · rintro ⟨x, k⟩ rest acc w' ⟨hun, rest', hrest, hacc⟩
    obtain ⟨chunk, rest'', ⟨hk, hx⟩, hrest', rfl⟩ := List.forall₂_cons_left_iff.mp hrest
    obtain rfl : k = chunk.2 := hk
    refine wp_bind.mpr (wp_readSegmentHybrid hun hx fun w'' hun' => ?_)
    refine ⟨hun', rest'', hrest', ?_⟩
    rw [← hacc, List.map_cons, List.flatten_cons, List.append_assoc]
  · rintro acc w' ⟨-, rest', hrest, hacc⟩
    cases hrest
    rw [← hacc, List.map_nil, List.flatten_nil, List.append_nil]
  · rw [List.nil_append, List.zipIdx_map_fst]

end WritePipeline

/-- **A capsule reads back** what is behind its name in the ledger. -/
theorem World.Inv.readHybrid {w : World P} {T : Ghost} {c : Capsule}
    (h : World.Inv (.profiles P U M keys) w T) (hc : w.cap id = some c) (hid : c.id = id)
    (hnote : w.ledger.produced id = noteFor id data) :
    ((readCapsuleHybrid P (some M) id).run (World.exec []) w).1 = .ok data := by
  obtain ⟨infos, hknown, ⟨id', data', hnote', hs⟩, -⟩ := h.capsules id c hc
  obtain ⟨rfl, rfl⟩ := noteFor_inj (hnote.symm.trans hnote')
  have hy : List.Forall₂ (w.store.YieldsAt (some M) c) c.segments
      (chunks SEGMENT_SIZE data).zipIdx := by
    refine forall₂_comp hknown hs.flip fun x hx i chunk hi hch => ?_
    obtain ⟨segment, hseg⟩ := h.listed_seg hc hx
    have hinfo : (⟨segment.form, w.payload x⟩ : Info) = i := by
      rw [hi.form segment hseg, hi.payload]
    have hlen := (h.legit x segment hseg hi.free).1
    refine ⟨segment, w.payload x, hseg, World.Extent.read hseg (h.extent x segment hseg) hlen, ?_⟩
    rw [hinfo, h.keys, hid]
    exact hch
  have hread := readCapsuleHybrid_yields [] hc hy
  rwa [chunks_flatten SEGMENT_SIZE_pos] at hread

/-! ### Capsules under their own names -/

/-- Every capsule is stored under its identifier. -/
def World.Named (w : World P) : Prop := ∀ id c, w.capsules id = some c → c.id = id

namespace World.Named
variable {w : World P} {note : Bytes}

theorem cap (h : w.Named) {c : Capsule} (hc : w.cap id = some c) : c.id = id :=
  h id c.undeduped (by rw [World.capsules, hc]; rfl)

theorem exec (o : StoreOp) (h : w.Named) : (World.exec note o w).2.Named := by
  intro id c hc
  by_cases hk : o.Keeps
  · rw [World.exec_capsules note o w hk] at hc
    exact h id c hc
  · cases o with
    | createCapsuleWithSegments id' size segments policy =>
        cases hcap : w.cap id' with
        | some c' =>
            obtain ⟨e, he⟩ : ∃ e, World.exec note
                (.createCapsuleWithSegments id' size segments policy) w = (.error e, w) :=
              World.exec_create_some hcap
            rw [he] at hc
            exact h id c hc
        | none =>
            rw [World.exec_create hcap] at hc
            obtain ⟨c', hc', rfl⟩ := Option.map_eq_some_iff.mp hc
            rw [World.cap_created] at hc'
            split at hc'
            · next e =>
                cases hc'
                exact e.symm
            · exact (h.cap hc' : c'.id = _)
    | deleteCapsule id' =>
        cases hcap : w.cap id' with
        | none =>
            obtain ⟨e, he⟩ : ∃ e, World.exec note (.deleteCapsule id') w = (.error e, w) :=
              World.exec_delete_none hcap
            rw [he] at hc
            exact h id c hc
        | some c' =>
            rw [World.exec_delete hcap] at hc
            obtain ⟨c'', hc', rfl⟩ := Option.map_eq_some_iff.mp hc
            exact (h.cap (World.cap_deleted_eq_some.mp hc').2 : c''.id = _)
    | _ => exact absurd not_false hk

theorem run {α : Type} (p : Native α) (h : w.Named) : (p.run (World.exec note) w).2.Named :=
  run_keeps (fun o _ _ => exec o) (uses_true p) h

end World.Named

/-! ### Runs -/

/-- A call to the pipeline; a write comes with what its encapsulations draw. -/
inductive ProfileCall where
  | write (coins : Nat → Bytes) (id : CapsuleId) (data : Bytes) (policy : Policy)
  | delete (id : CapsuleId)

namespace ProfileCall

def program (P : Primitives) (mlkem : Option MlkemKeyManager) : ProfileCall → Native Unit
  | write coins id data policy => discard (writeCapsuleHybrid P mlkem coins id data policy)
  | delete id => deleteCapsule id

/-- Run a call to its end. -/
def run (mlkem : Option MlkemKeyManager) (c : ProfileCall) (s : Store P) :
    Except Error Unit × Store P :=
  (c.program P mlkem).run StoreOp.exec s

/-- What has been written, after a call that succeeded. -/
def written : ProfileCall → (CapsuleId → Option Bytes) → CapsuleId → Option Bytes
  | write _ id data _, f => Function.update f id (some data)
  | delete id, f => Function.update f id none

/-- What a call leaves in the ledger. -/
def note : ProfileCall → Bytes
  | write _ id data _ => noteFor id data
  | delete _ => []

end ProfileCall

/-- The states reached by calls that succeed, each where `A` allows it, and what has been written
and not deleted. -/
inductive ProfileRun (mlkem : Option MlkemKeyManager) (A : ProfileCall → Store P → Prop)
    (s₀ : Store P) : Store P → (CapsuleId → Option Bytes) → Prop
  | start : ProfileRun mlkem A s₀ s₀ fun _ => none
  | next {s : Store P} {f : CapsuleId → Option Bytes} (c : ProfileCall)
      (h : ProfileRun mlkem A s₀ s f) (hA : A c s) (hr : (c.run mlkem s).1 = .ok ()) :
      ProfileRun mlkem A s₀ (c.run mlkem s).2 (c.written f)

/-- Every view a call hashes is in `U`. -/
def ProfileCall.HashesIn (P : Primitives) (U : Set Bytes) : ProfileCall → Prop
  | write _ _ data policy => ∀ chunk ∈ chunks SEGMENT_SIZE data, ∀ view r,
      compressSegment P chunk policy.compression = .ok (view, r) → view ∈ U
  | delete _ => True

/-- A write, if it is one, encrypts. -/
def ProfileCall.Encrypts : ProfileCall → Prop
  | write _ _ _ policy => policy.encryption.isEnabled = true
  | delete _ => True

/-- How often the capsules list a segment. -/
def Store.occ (s : Store P) (x : SegmentId) : Nat :=
  Table.total (fun c : Capsule => c.segments.count x) s.registry.capsules

/-- What keeps a call from the defects.  A write with the hybrid profile deduplicates, finds no
segment with a wrapped key, and stores nothing as it is that would decode; a delete comes while no
reference count has saturated. -/
def ProfileCall.Separate (P : Primitives) (M : MlkemKeyManager) : ProfileCall → Store P → Prop
  | write coins id data policy, s =>
      (data ≠ [] → policy.Findable) ∧
      (∀ hash s', Visits StoreOp.exec.moves
          ((write coins id data policy).program P (some M)) s (.lookupContent hash) s' →
        ∀ x segment, s'.registry.contentStore.lookup hash = some x →
          s'.nvram.segmentMap.lookup x = some segment → segment.pqCiphertext = none) ∧
      ∀ chunk ∈ chunks SEGMENT_SIZE data, policy.ReadsRaw P chunk
  | delete _, s => ∀ x, s.occ x ≤ u32Max

/-- The state of a run, with a ledger. -/
structure Profiled (P : Primitives) (U : Set Bytes) (M : MlkemKeyManager)
    (keys : Option (UInt32 → XtsKeyPair)) (s : Store P) (f : CapsuleId → Option Bytes)
    (w : World P) : Prop where
  store : w.store = s
  inv : World.Inv (.profiles P U M keys) w 0
  named : w.Named
  holds : ∀ id, w.holds id = (f id).map (noteFor id)

section
variable {s : Store P} {f : CapsuleId → Option Bytes} {w : World P}

theorem Profiled.empty (km : Option (KeyManager P)) :
    Profiled P U M (km.map KeyManager.derive) (.empty km) (fun _ => none) (.empty km) where
  store := rfl
  inv := .empty km rfl
  named := fun _ _ h => by cases h
  holds := fun _ => rfl

/-- **A write** that is kept from the defects. -/
theorem Profiled.write (hx : P.XtsInverse) (hM : M.Decapsulates) (hU : P.NoCollision U)
    (h : Profiled P U M keys s f w)
    (hin : (ProfileCall.write coins id data policy).HashesIn P U)
    (hs : (ProfileCall.write coins id data policy).Separate P M s)
    (hr : ((ProfileCall.write coins id data policy).run (some M) s).1 = .ok ()) :
    ∃ w', Profiled P U M keys ((ProfileCall.write coins id data policy).run (some M) s).2
      (Function.update f id (some data)) w' := by
  obtain ⟨rfl, hinv, hnamed, hholds⟩ := h
  obtain ⟨hfind, hshare, hraw⟩ := hs
  set p := (ProfileCall.write coins id data policy).program P (some M) with hp
  have hstore := World.run_store (noteFor id data) p w
  refine ⟨(p.run (World.exec (noteFor id data)) w).2, hstore.2, ?_, hnamed.run p, ?_⟩
  · refine owning_nothing hinv (a := ()) ?_ (fun o w' hv => ?_) (hstore.1.trans hr)
    · exact wp_bind.mpr (wp_writeCapsuleHybrid (accepts_profiles hx hM hU hfind hin hraw)
        (fun τ hτ => absurd hτ (Multiset.notMem_zero τ)) (fun g' hq hc _ => ⟨hq, hc⟩)
        fun e g' hq k => by cases k)
    · cases o with
      | incrementRefcount x =>
          exact fun s _ => ⟨fun k => absurd k not_false, fun k => absurd trivial k⟩
      | lookupContent hash => exact hshare hash w'.store (World.visits_store hv)
      | _ => trivial
  · have hwrote : Wrote w id (noteFor id data)
        ((writeCapsuleHybrid P (some M) coins id data policy).run
          (World.exec (noteFor id data)) w) := wrote_writeCapsuleHybrid w id data _
    have hok := hstore.1.trans hr
    rw [hp] at hok ⊢
    rw [ProfileCall.program, run_discard_fst] at hok
    rw [ProfileCall.program, run_discard]
    generalize (writeCapsuleHybrid P (some M) coins id data policy).run
      (World.exec (noteFor id data)) w = r at hok hwrote
    obtain ⟨e | id', w'⟩ := r
    · cases hok
    · obtain ⟨-, -, hheld⟩ := hwrote
      intro k
      rw [hheld]
      by_cases hk : k = id
      · subst hk
        rw [Function.update_self, Function.update_self]
        rfl
      · rw [Function.update_of_ne hk, Function.update_of_ne hk]
        exact hholds k

/-- **A delete**, while no reference count has saturated. -/
theorem Profiled.delete (h : Profiled P U M keys s f w)
    (hs : (ProfileCall.delete id).Separate P M s) :
    ∃ w', Profiled P U M keys ((ProfileCall.delete id).run (some M) s).2
      (Function.update f id none) w' := by
  obtain ⟨rfl, hinv, hnamed, hholds⟩ := h
  refine ⟨((Command.delete id).run w).2, (World.run_store [] _ w).2,
    reclaim_keeps (.inl ⟨id, rfl⟩) hinv hs, hnamed.run _, fun k => ?_⟩
  have hheld : ((Command.delete id).run w).2.holds = Function.update w.holds id none :=
    run_deleteCapsule_holds w id
  rw [hheld]
  by_cases hk : k = id
  · subst hk
    rw [Function.update_self, Function.update_self]
    rfl
  · rw [Function.update_of_ne hk, Function.update_of_ne hk]
    exact hholds k

end

theorem profiled_run {km : Option (KeyManager P)} {s : Store P} {f : CapsuleId → Option Bytes}
    (hx : P.XtsInverse) (hM : M.Decapsulates) (hU : P.NoCollision U)
    (h : ProfileRun (some M) (fun c s => c.HashesIn P U ∧ c.Separate P M s) (.empty km) s f) :
    ∃ w, Profiled P U M (km.map KeyManager.derive) s f w := by
  induction h with
  | start => exact ⟨.empty km, .empty km⟩
  | next c _ hA hr ih =>
      obtain ⟨w, hw⟩ := ih
      cases c with
      | write coins id data policy => exact hw.write hx hM hU hA.1 hA.2 hr
      | delete id => exact hw.delete hA.2

/-- **Every live capsule reads back** what was written, whichever profile each write asks for. -/
theorem readCapsuleHybrid_written {km : Option (KeyManager P)} {s : Store P}
    {f : CapsuleId → Option Bytes} {c : Capsule} (hx : P.XtsInverse) (hM : M.Decapsulates)
    (hU : P.NoCollision U)
    (h : ProfileRun (some M) (fun c s => c.HashesIn P U ∧ c.Separate P M s) (.empty km) s f)
    (hc : s.registry.capsules.lookup id = some c) :
    ∃ data, f id = some data ∧
      ((readCapsuleHybrid P (some M) id).run StoreOp.exec s).1 = .ok data := by
  obtain ⟨w, rfl, hinv, hnamed, hholds⟩ := profiled_run hx hM hU h
  have hheld : w.holds id = some (w.ledger.produced id) := World.holds_eq_some.mpr ⟨⟨c, hc⟩, rfl⟩
  rw [hholds] at hheld
  obtain ⟨data, hdata, hnote⟩ := Option.map_eq_some_iff.mp hheld
  refine ⟨data, hdata, ?_⟩
  rw [← (World.run_store [] _ w).1]
  exact hinv.readHybrid hc (hnamed.cap hc) hnote.symm

/-! ### Samples -/

/-- Primitives whose tag shows the key it is made with. -/
def tellingTags : Primitives :=
  { Primitives.stored with
    blake3Keyed := fun key data => .ofPrefix 32 (key.toList.reverse ++ data) }

theorem tellingTags_codecs : tellingTags.CodecsInverse :=
  ⟨Primitives.stored_codecs.lz4, Primitives.stored_codecs.zstd⟩

theorem tellingTags_xts : tellingTags.XtsInverse :=
  ⟨Primitives.stored_xts.length_encrypt, Primitives.stored_xts.decrypt_encrypt⟩

/-- A manager whose secrets are the bytes that were drawn. -/
def sampleMlkem : MlkemKeyManager where
  encapsulate := fun coins => (coins, coins)
  decapsulate := some
  xof := fun input => .ofPrefix 80 (complement input)

theorem sampleMlkem_decapsulates : sampleMlkem.Decapsulates := fun _ => rfl

def tellingKeys : KeyManager tellingTags := .new _ (.ofPrefix 32 [1])

/-- A policy of the hybrid profile. -/
def sampleHybrid (dedupe : Bool) : Policy where
  compression := .none
  dedupe := dedupe
  encryption := .xtsAes256 none
  cryptoProfile := .hybridKyber

def sampleClassical : Policy := { compression := .none, encryption := .xtsAes256 none }

/-- What a lookup finds has no wrapped key, as a test of the run. -/
def StoreOp.findsUnwrapped (o : StoreOp) (s : Store P) : Bool :=
  match o with
  | .lookupContent hash => (s.registry.contentStore.lookup hash).all fun x =>
      (s.nvram.segmentMap.lookup x).all fun segment => segment.pqCiphertext.isNone
  | _ => true

/-- A write of one chunk that is stored as it is, under a policy without compression. -/
theorem ProfileCall.separate_of_along {s : Store P} (hn : policy.compression = .none)
    (hl : data.length ≤ SEGMENT_SIZE) (hf : data ≠ [] → policy.Findable)
    (h : ((write coins id data policy).program P (some M)).along StoreOp.exec
      StoreOp.findsUnwrapped s = true) :
    (write coins id data policy).Separate P M s := by
  refine ⟨hf, fun hash s' hv x segment hx hs => ?_, forall_chunk_of_length_le hl
    fun _ _ _ _ => ?_⟩
  · have k : (s'.registry.contentStore.lookup hash).all (fun x =>
        (s'.nvram.segmentMap.lookup x).all fun segment => segment.pqCiphertext.isNone) = true :=
      along_visits h hv
    rw [hx, Option.all_some, hs] at k
    exact Option.isNone_iff_eq_none.mp k
  · rw [hn]
    rfl

theorem ProfileCall.hashesIn_raw (hn : policy.compression = .none)
    (hl : data.length ≤ SEGMENT_SIZE) (hU : data ∈ U) :
    (write coins id data policy).HashesIn P U := by
  refine forall_chunk_of_length_le hl fun view r hv => ?_
  rw [hn] at hv
  cases hv
  exact hU

/-- A hybrid and a classical capsule; the classical one is deleted again, and the hybrid one reads
back. -/
theorem readCapsuleHybrid_written_two :
    ((readCapsuleHybrid tellingTags (some sampleMlkem) ⟨0⟩).run StoreOp.exec
      ((ProfileCall.delete ⟨1⟩).run (some sampleMlkem)
        ((ProfileCall.write (fun _ => [7]) ⟨1⟩ (List.replicate 16 6) sampleClassical).run
          (some sampleMlkem)
          ((ProfileCall.write (fun _ => [7]) ⟨0⟩ (List.replicate 16 5) (sampleHybrid true)).run
            (some sampleMlkem) (.empty (some tellingKeys))).2).2).2).1 =
      .ok (List.replicate 16 5) := by
  have hU : tellingTags.NoCollision {List.replicate 16 5, List.replicate 16 6} := by
    rintro x (rfl | rfl) y (rfl | rfl) h <;> first | rfl | exact absurd h (by decide)
  have h₀ : ProfileRun (some sampleMlkem)
      (fun c s => c.HashesIn tellingTags {List.replicate 16 5, List.replicate 16 6} ∧
        c.Separate tellingTags sampleMlkem s)
      (.empty (some tellingKeys)) (.empty (some tellingKeys)) fun _ => none := .start
  have h₁ := h₀.next (.write (fun _ => [7]) ⟨0⟩ (List.replicate 16 5) (sampleHybrid true))
    ⟨ProfileCall.hashesIn_raw rfl (by decide) (.inl rfl),
      ProfileCall.separate_of_along rfl (by decide) (fun _ _ _ => rfl) (by decide +kernel)⟩
    (by decide +kernel)
  have h₂ := h₁.next (.write (fun _ => [7]) ⟨1⟩ (List.replicate 16 6) sampleClassical)
    ⟨ProfileCall.hashesIn_raw rfl (by decide) (.inr rfl),
      ProfileCall.separate_of_along rfl (by decide) (fun _ _ h => by cases h)
        (by decide +kernel)⟩ (by decide +kernel)
  have h₃ := h₂.next (.delete ⟨1⟩) ⟨trivial, fun x => (Table.total_le_total (fun _ =>
    List.count_le_length) _).trans (by decide +kernel)⟩ (by decide +kernel)
  obtain ⟨data, hdata, hread⟩ := @readCapsuleHybrid_written _ _ _ ⟨0⟩ _ _ _
    ⟨⟨0⟩, 16, [⟨0⟩], sampleHybrid true, 0⟩ tellingTags_xts sampleMlkem_decapsulates hU h₃
    (by decide +kernel)
  cases hdata
  exact hread

/-- **Without deduplication** the wrapped segment has no hash: the reader takes the key of the
manager for it, and the tag does not agree. -/
theorem not_readCapsuleHybrid_written :
    ¬ ∀ (P : Primitives) (M : MlkemKeyManager) (U : Set Bytes) (km : KeyManager P) (s : Store P)
      (f : CapsuleId → Option Bytes) (id : CapsuleId) (c : Capsule), P.CodecsInverse →
      P.XtsInverse → M.Decapsulates → P.NoCollision U →
      ProfileRun (some M) (fun c _ => c.HashesIn P U ∧ c.Encrypts) (.empty (some km)) s f →
      s.registry.capsules.lookup id = some c →
      ∃ data, f id = some data ∧
        ((readCapsuleHybrid P (some M) id).run StoreOp.exec s).1 = .ok data := by
  intro h
  have hstart : ProfileRun (some sampleMlkem)
      (fun c _ => c.HashesIn tellingTags {List.replicate 16 5} ∧ c.Encrypts)
      (.empty (some tellingKeys)) (.empty (some tellingKeys)) fun _ => none := .start
  have hrun := hstart.next
    (.write (fun _ => [7]) ⟨0⟩ (List.replicate 16 5) (sampleHybrid false))
    ⟨ProfileCall.hashesIn_raw rfl (by decide) rfl, rfl⟩ (by decide +kernel)
  obtain ⟨data, -, hread⟩ := h tellingTags sampleMlkem {List.replicate 16 5} tellingKeys _ _ ⟨0⟩
    ⟨⟨0⟩, 16, [⟨0⟩], sampleHybrid false, 0⟩ tellingTags_codecs tellingTags_xts
    sampleMlkem_decapsulates (Set.injOn_singleton _ _) hrun (by decide +kernel)
  have herr : ((readCapsuleHybrid tellingTags (some sampleMlkem) ⟨0⟩).run StoreOp.exec
      ((ProfileCall.write (fun _ => [7]) ⟨0⟩ (List.replicate 16 5) (sampleHybrid false)).run
        (some sampleMlkem) (.empty (some tellingKeys))).2).1 = .error (.enc .integrityFailure) := by
    decide +kernel
  rw [herr] at hread
  cases hread

end Space

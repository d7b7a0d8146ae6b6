import Space.Native.Session
import Space.Native.ReadSpec
import Space.Codec.Stored

/-!
# Native — Faithful

What a capsule reads back.  The reader decompresses by the policy of the capsule, whatever the
segment says, and takes what does not decode for the chunk itself.  A chunk that the writer stored
as it is, and that happens to decode, is read back as something else
(`not_readCapsule_written`).  Where no chunk is of this kind, a live capsule reads back the data it
was written from, after any history of writes, deletes and collections that succeeded
(`readCapsule_written`).

BLAKE3 is assumed to have no collisions among the views `U` that the writes hash.
-/

namespace Space
open Support Prog

variable {P : Primitives} {policy : Policy} {data : Bytes} {U : Set Bytes}
  {keys : Option (UInt32 → XtsKeyPair)} {km : Option (KeyManager P)} {w : World P}

/-- Every view the command hashes is in `U`. -/
def Command.HashesIn (P : Primitives) (U : Set Bytes) : Command → Prop
  | .write _ data policy => ∀ chunk ∈ chunks SEGMENT_SIZE data, ∀ view r,
      compressSegment P chunk policy.compression = .ok (view, r) → view ∈ U
  | _ => True

/-- A chunk stored as it is under the policy is not decoded to something else by it. -/
def Policy.ReadsRaw (P : Primitives) (policy : Policy) (chunk : Bytes) : Prop :=
  ∀ view r, compressSegment P chunk policy.compression = .ok (view, r) → r.compressed = false →
    decompressByPolicy P policy.compression chunk = chunk

/-- What the reader needs of a command. -/
def Command.Readable (P : Primitives) : Command → World P → Prop
  | .write _ data policy, _ => ∀ chunk ∈ chunks SEGMENT_SIZE data, policy.ReadsRaw P chunk
  | _, w => ∀ x, w.occ x ≤ u32Max

/-- A segment that reads as a chunk under a policy. -/
def ReadsAs (P : Primitives) (keys : Option (UInt32 → XtsKeyPair)) (policy : Policy)
    (chunk : Bytes) (i : Info) : Prop :=
  ∃ view, i.Unseals P keys view ∧ decompressByPolicy P policy.compression view = chunk

/-- Every segment unseals to a view that was hashed, and is registered under the hash of it; every
capsule reads as its data. -/
def Discipline.faithful (P : Primitives) (U : Set Bytes)
    (keys : Option (UInt32 → XtsKeyPair)) : Discipline where
  keys := keys
  legit := fun i => i.payload.length < 4294967296 ∧
    ∃ view ∈ U, i.Unseals P keys view ∧
      ∀ h, i.form.contentHash = some h → h = hashContent P view
  hit := fun _ _ => True
  sound := fun data policy infos =>
    List.Forall₂ (ReadsAs P keys policy) (chunks SEGMENT_SIZE data) infos
  solo := True
  tight := False

/-- The same, of a pipeline in which reference counts may be known not to saturate. -/
def Discipline.lasting (P : Primitives) (U : Set Bytes)
    (keys : Option (UInt32 → XtsKeyPair)) (tight : Prop) : Discipline :=
  { Discipline.faithful P U keys with tight := tight }

/-- A view is no longer than its chunk. -/
theorem length_view_le {chunk view : Bytes} {r : CompressionResult}
    (h : compressSegment P chunk policy.compression = .ok (view, r)) :
    view.length ≤ chunk.length := by
  rcases adaptiveCompress_cases h with ⟨rfl, -, -⟩ | ⟨-, hlen, -⟩
  · exact Nat.le_refl _
  · exact hlen.le

/-- What is read of a chunk that was written under the policy. -/
def Policy.readBack (P : Primitives) (policy : Policy) (chunk : Bytes) : Bytes :=
  match compressSegment P chunk policy.compression with
  | .ok (view, _) => decompressByPolicy P policy.compression view
  | .error _ => chunk

/-- What is read of data that was written under the policy. -/
def Policy.readsBack (P : Primitives) (policy : Policy) (data : Bytes) : Bytes :=
  ((chunks SEGMENT_SIZE data).map (policy.readBack P)).flatten

/-- The view of a chunk is taken back to the chunk. -/
theorem decompressByPolicy_view {chunk view : Bytes} {r : CompressionResult}
    (hraw : policy.ReadsRaw P chunk)
    (h : compressSegment P chunk policy.compression = .ok (view, r)) :
    decompressByPolicy P policy.compression view = chunk ∧ view.length ≤ chunk.length := by
  refine ⟨?_, length_view_le h⟩
  rcases adaptiveCompress_cases h with ⟨rfl, hc, -⟩ | ⟨-, -, l, ⟨hp, hd, -⟩ | ⟨hp, hd, -⟩⟩
  · exact hraw view r h hc
  · simp only [decompressByPolicy, hp, CompressionPolicy.decompressor, hd]
  · simp only [decompressByPolicy, hp, CompressionPolicy.decompressor, hd]

/-- What is read is the data, if no chunk that is stored as it is decodes to something else. -/
theorem Policy.readsBack_of_readsRaw
    (h : ∀ chunk ∈ chunks SEGMENT_SIZE data, policy.ReadsRaw P chunk) :
    policy.readsBack P data = data := by
  have hmap : (chunks SEGMENT_SIZE data).map (policy.readBack P) = chunks SEGMENT_SIZE data := by
    refine (List.map_congr_left fun chunk hc => ?_).trans (List.map_id _)
    unfold Policy.readBack
    cases hcomp : compressSegment P chunk policy.compression with
    | error e => rfl
    | ok vr => exact (decompressByPolicy_view (h chunk hc) hcomp).1
  rw [Policy.readsBack, hmap, chunks_flatten SEGMENT_SIZE_pos]

/-- The views a write hashes are in `U`. -/
def Policy.HashesIn (P : Primitives) (U : Set Bytes) (policy : Policy) (data : Bytes) : Prop :=
  ∀ chunk ∈ chunks SEGMENT_SIZE data, ∀ view r,
    compressSegment P chunk policy.compression = .ok (view, r) → view ∈ U

/-- **A write stores segments that unseal to the views of its chunks**, whatever a discipline asks
of them beyond that. -/
theorem Policy.HashesIn.accepts (hin : policy.HashesIn P U data) (hx : P.XtsInverse)
    (hU : P.NoCollision U) {sound : Bytes → Policy → List Info → Prop} {solo tight : Prop}
    {fits : Bytes → Info → Prop}
    (hfits : ∀ chunk ∈ chunks SEGMENT_SIZE data, ∀ view r i,
      compressSegment P chunk policy.compression = .ok (view, r) → i.Unseals P keys view →
        fits chunk i)
    (hsound : ∀ infos, List.Forall₂ fits (chunks SEGMENT_SIZE data) infos →
      sound data policy infos) :
    { Discipline.faithful P U keys with sound := sound, solo := solo, tight := tight }.Accepts P
      policy data fits where
  fresh := by
    intro chunk hc view r payload encMeta hp x off
    have hlen := length_view_le hp.compressed
    have hshort : view.length < 4294967296 :=
      Nat.lt_of_le_of_lt (hlen.trans (chunks_mem SEGMENT_SIZE_pos hc).2) (by decide)
    obtain ⟨hun, hl⟩ := hp.unseals hx hshort x off (asU32 payload.length)
      (policy.registeredHash P view)
    refine ⟨⟨?_, view, hin chunk hc view r hp.compressed, hun, fun h hh => ?_⟩,
      hfits chunk hc view r _ hp.compressed hun⟩
    · show payload.length < _
      omega
    · have e : policy.registeredHash P view = some h := by
        rw [← hh]
        unfold Segment.describe
        cases encMeta <;> rfl
      unfold Policy.registeredHash at e
      split at e
      · exact (Option.some.inj e).symm
      · cases e
  hit := by
    rintro chunk hc view r payload encMeta hp - i ⟨-, view', hin', hun, hhash⟩ - hh
    obtain rfl := hashContent_inj hU (hin chunk hc view r hp.compressed) hin' (hhash _ hh)
    exact hfits chunk hc view r i hp.compressed hun
  sound := hsound

/-- A chunk that is not stored raw, or reads raw, reads as itself. -/
theorem readsAs_of_unseals {chunk view : Bytes} {r : CompressionResult} {i : Info}
    (hraw : policy.ReadsRaw P chunk)
    (h : compressSegment P chunk policy.compression = .ok (view, r))
    (hun : i.Unseals P keys view) : ReadsAs P keys policy chunk i :=
  ⟨view, hun, (decompressByPolicy_view hraw h).1⟩

/-- **A write keeps the faithful discipline.** -/
theorem accepts_lasting (tight : Prop) (hx : P.XtsInverse) (hU : P.NoCollision U)
    (hin : policy.HashesIn P U data)
    (hraw : ∀ chunk ∈ chunks SEGMENT_SIZE data, policy.ReadsRaw P chunk) :
    (Discipline.lasting P U keys tight).Accepts P policy data (ReadsAs P keys policy) :=
  hin.accepts hx hU (fun chunk hc _ _ _ => readsAs_of_unseals (hraw chunk hc)) fun _ h => h

/-- Every segment unseals to a view that was hashed, and every capsule reads as its data, as far as
its policy takes it back. -/
def Discipline.reading (P : Primitives) (U : Set Bytes) (keys : Option (UInt32 → XtsKeyPair))
    (tight : Prop) : Discipline :=
  { Discipline.faithful P U keys with
    sound := fun data policy infos => List.Forall₂
      (fun chunk i => ReadsAs P keys policy (policy.readBack P chunk) i) (chunks SEGMENT_SIZE data)
      infos
    tight := tight }

/-- A segment that unseals to the view of a chunk reads as far as the policy takes it back. -/
theorem readsAs_readBack {chunk view : Bytes} {r : CompressionResult} {i : Info}
    (h : compressSegment P chunk policy.compression = .ok (view, r))
    (hun : i.Unseals P keys view) : ReadsAs P keys policy (policy.readBack P chunk) i :=
  ⟨view, hun, by rw [Policy.readBack, h]⟩

/-- **A live capsule reads back** what its policy takes the views of its chunks to. -/
theorem World.Inv.reads_back {D : Discipline} {g : Ghost} {id : CapsuleId} {c : Capsule}
    (hI : World.Inv D w g) (hl : ∀ i, D.legit i → i.payload.length < 4294967296)
    (hsound : ∀ data policy infos, D.sound data policy infos → List.Forall₂
      (fun chunk i => ReadsAs P D.keys policy (policy.readBack P chunk) i)
      (chunks SEGMENT_SIZE data) infos) (hc : w.cap id = some c) :
    ((WritePipeline.readCapsule P id).run (World.exec []) w).1 =
      .ok (c.policy.readsBack P (w.ledger.produced id)) :=
  WritePipeline.readCapsule_yields [] hc (hI.yields hl
    (f := fun policy data => (chunks SEGMENT_SIZE data).map (policy.readBack P))
    (fun _ _ _ h => List.forall₂_map_left_iff.mpr (hsound _ _ _ h)) hc)

/-- Between the commands of a session nothing is owned. -/
theorem faithful_session (hx : P.XtsInverse) (hU : P.NoCollision U)
    (h : Session (fun c w => c.HashesIn P U ∧ c.Readable P w) (World.empty km) w) :
    World.Inv (.faithful P U (km.map KeyManager.derive)) w 0 := by
  induction h with
  | start => exact .empty km rfl
  | next c _ hs hA hr ih =>
      cases c with
      | write id data policy =>
          exact write_keeps trivial not_false (fun _ _ => trivial)
            (accepts_lasting False hx hU hA.1 hA.2) ih hr
      | writeAsync => exact hs.elim
      | delete id => exact reclaim_keeps (.inl ⟨id, rfl⟩) ih hA.2
      | collect ord => exact reclaim_keeps (.inr ⟨ord, rfl⟩) ih hA.2

/-- **A live capsule reads back what it was written from.** -/
theorem readCapsule_written (hx : P.XtsInverse) (hU : P.NoCollision U) {id : CapsuleId}
    {c : Capsule} (h : Session (fun c w => c.HashesIn P U ∧ c.Readable P w) (World.empty km) w)
    (hc : w.cap id = some c) :
    ((WritePipeline.readCapsule P id).run (World.exec []) w).1 = .ok (w.ledger.produced id) :=
  (faithful_session hx hU h).read (fun _ hl => hl.1) (fun _ _ _ hs => hs) hc

/-! ### Runs -/

/-- A chunk that fits in one segment and is stored as it is. -/
theorem hashesIn_raw {id : CapsuleId} {res : CompressionResult} (hl : data.length ≤ SEGMENT_SIZE)
    (h : compressSegment P data policy.compression = .ok (data, res)) :
    (Command.write id data policy).HashesIn P {data} :=
  forall_chunk_of_length_le hl fun view r hv => by
    rw [h] at hv
    cases hv
    rfl

/-- Two capsules share a segment; the first is deleted, and the second still reads back. -/
theorem readCapsule_written_shared :
    ((WritePipeline.readCapsule .stored ⟨1⟩).run (World.exec [])
      (Command.runAll [.write ⟨0⟩ unframed {}, .write ⟨1⟩ unframed { compression := .zstd 3 },
        .delete ⟨0⟩, .collect .asGiven] (World.empty (P := .stored) none))).1 = .ok unframed := by
  have hraw : ∀ policy : Policy,
      decompressByPolicy .stored policy.compression unframed = unframed →
      ∀ chunk ∈ chunks SEGMENT_SIZE unframed, policy.ReadsRaw .stored chunk :=
    fun policy h => forall_chunk_of_length_le (by decide) fun _ _ _ _ => h
  have h₀ : Session (fun c w => c.HashesIn .stored {unframed} ∧ c.Readable .stored w)
      (World.empty (P := .stored) none) (World.empty none) := .start
  have h₁ := h₀.next (.write ⟨0⟩ unframed {}) trivial
    ⟨hashesIn_raw (by decide) rfl, hraw _ (by decide +kernel)⟩ (by decide +kernel)
  have h₂ := h₁.next (.write ⟨1⟩ unframed { compression := .zstd 3 }) trivial
    ⟨hashesIn_raw (by decide) rfl, hraw _ (by decide +kernel)⟩ (by decide +kernel)
  have h₃ := h₂.next (.delete ⟨0⟩) trivial
    ⟨trivial, fun x => (World.occ_le_length _ x).trans (by decide +kernel)⟩ (by decide +kernel)
  have h₄ := h₃.next (.collect .asGiven) trivial
    ⟨trivial, fun x => (World.occ_le_length _ x).trans (by decide +kernel)⟩ (by decide +kernel)
  refine (readCapsule_written Primitives.stored_xts (Set.injOn_singleton _ _)
    (c := ⟨⟨1⟩, 7, [⟨0⟩], { compression := .zstd 3 }, 0⟩) h₄ (by decide +kernel)).trans ?_
  decide +kernel

/-- The empty LZ4 frame under the default policy: compressing it gains nothing, so it is stored as
it is, and it is read back as the empty string. -/
theorem not_readCapsule_written :
    ¬ ∀ (P : Primitives) (U : Set Bytes) (km : Option (KeyManager P)) (w : World P)
      (id : CapsuleId) (c : Capsule), P.CodecsInverse → P.XtsInverse → P.NoCollision U →
      Session (fun c _ => c.HashesIn P U) (World.empty km) w → w.cap id = some c →
      ((WritePipeline.readCapsule P id).run (World.exec []) w).1 = .ok (w.ledger.produced id) := by
  intro h
  have hs : Session (fun c _ => c.HashesIn .stored {lz4Frame []}) (World.empty none)
      ((Command.write ⟨0⟩ (lz4Frame []) {}).run (World.empty (P := .stored) none)).2 :=
    .next _ .start trivial (hashesIn_raw (by decide) rfl) (by decide +kernel)
  have := h .stored {lz4Frame []} none _ ⟨0⟩ ⟨⟨0⟩, 11, [⟨0⟩], {}, 0⟩ Primitives.stored_codecs
    Primitives.stored_xts (Set.injOn_singleton _ _) hs (by decide +kernel)
  revert this
  decide +kernel

end Space

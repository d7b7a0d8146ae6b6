import Space.Modular.EncryptedFlag
import Space.Modular.ReadBack
import Space.Native.EncryptedWrite

/-!
# Modular — Interchange

The native pipeline and the handle, over one log, one registry and one master key.  They share the
segments and the content store; but the native reader decompresses by the policy of the capsule and
the handle by what the segment records, the handle does not decrypt, and it stores every segment at
the beginning of the log.

* `Store.ReadsBack`: both readers read a segment as a chunk.  `Stocking` is a write between two of
  its chunks, of either pipeline.
* `NativeFits`, `ModularFits`: what a write leaves for both readers, and takes from no capsule.
* `interchange_read`: in every run of such writes both pipelines read every capsule.
* `not_interchange_read`: not in every run.
-/

namespace Space
open Support Prog

variable {P : Primitives} {U : Set Bytes} {K : UInt32 → XtsKeyPair} {s s' u s₀ : Store P}
  {policy : Policy} {x : SegmentId} {segment t : Segment} {raw raw' chunk view : Bytes}
  {l : List SegmentId} {done : List Bytes}

/-! ### What both read -/

namespace Store

/-- A segment that is stored as it is, and its bytes. -/
structure InClear (s : Store P) (x : SegmentId) (segment : Segment) (raw : Bytes) : Prop where
  stored : s.seg x = some segment
  read : s.nvram.read x = .ok raw
  clear : segment.encrypted = false

/-- Both pipelines read the segment as the chunk: one by the policy, the other by what the segment
records. -/
def ReadsBack (s : Store P) (policy : Policy) (x : SegmentId) (chunk : Bytes) : Prop :=
  ∃ segment raw, s.InClear x segment raw ∧
    decompressByPolicy P policy.compression raw = chunk ∧ segment.decoded P raw = .ok chunk

/-- What is stored in clear stays, but for its place and its references. -/
def Preserves (s s' : Store P) : Prop :=
  ∀ x segment raw, s.InClear x segment raw →
    ∃ segment', s'.InClear x segment' raw ∧ segment'.form = segment.form

theorem Preserves.refl (s : Store P) : s.Preserves s := fun _ segment _ h => ⟨segment, h, rfl⟩

theorem Preserves.trans (h : s.Preserves s') (h' : s'.Preserves u) : s.Preserves u := by
  intro x segment raw hx
  obtain ⟨segment', hx', hform'⟩ := h x segment raw hx
  obtain ⟨segment'', hx'', hform''⟩ := h' x segment' raw hx'
  exact ⟨segment'', hx'', hform''.trans hform'⟩

end Store

/-- What a payload reads as does not depend on the place or the references. -/
theorem Segment.decoded_congr (h : t.form = segment.form) :
    t.decoded P raw = segment.decoded P raw := by
  have hc : t.form.compressed = segment.form.compressed := congrArg Segment.compressed h
  have ha : t.form.compressionAlgo = segment.form.compressionAlgo :=
    congrArg Segment.compressionAlgo h
  change t.compressed = segment.compressed at hc
  change t.compressionAlgo = segment.compressionAlgo at ha
  rw [Segment.decoded, Segment.decoded, hc, ha]

namespace Store

theorem InClear.raw_eq (h : s.InClear x segment raw) (h' : s.InClear x t raw') : raw = raw' :=
  Except.ok.inj (h.read.symm.trans h'.read)

theorem ReadsBack.preserve (h : s.ReadsBack policy x chunk) (hp : s.Preserves s') :
    s'.ReadsBack policy x chunk := by
  obtain ⟨segment, raw, hx, hdec, hd⟩ := h
  obtain ⟨segment', hx', hform⟩ := hp x segment raw hx
  exact ⟨segment', raw, hx', hdec, (Segment.decoded_congr hform).trans hd⟩

theorem ReadsBack.yields (h : s.ReadsBack policy x chunk) : s.Yields policy x chunk := by
  obtain ⟨segment, raw, hx, hdec, -⟩ := h
  exact ⟨segment, raw, raw, hx.stored, hx.read, .inl ⟨hx.clear, rfl⟩, hdec⟩

/-! ### The extents -/

/-- The bytes of a segment are those of its extent. -/
theorem read_eq_ok_iff (ht : s.seg x = some t) : s.nvram.read x = .ok raw ↔
    (t.offset + t.len ≤ s.nvram.file.length ∨ t.len = 0) ∧
      slice s.nvram.file t.offset t.len = raw := by
  have ht : s.nvram.segmentMap.lookup x = some t := ht
  rw [NvramLog.read, ht]
  dsimp only
  split
  · next hin => exact ⟨fun h => ⟨hin, Except.ok.inj h⟩, fun h => congrArg Except.ok h.2⟩
  · next hout => exact ⟨(fun h => by cases h), fun h => absurd h.1 hout⟩

/-- A segment is read as before if its extent is what it was. -/
theorem InClear.reread (h : s.InClear x segment raw) (hseg : s'.seg x = some t)
    (hform : t.form = segment.form) (hoff : t.offset = segment.offset)
    (hlen : s.nvram.file.length ≤ s'.nvram.file.length)
    (hslice : slice s'.nvram.file segment.offset segment.len =
      slice s.nvram.file segment.offset segment.len) : s'.InClear x t raw := by
  have hl : t.form.len = segment.form.len := congrArg Segment.len hform
  change t.len = segment.len at hl
  have he : t.form.encrypted = segment.form.encrypted := congrArg Segment.encrypted hform
  change t.encrypted = segment.encrypted at he
  obtain ⟨hin, hraw⟩ := (read_eq_ok_iff h.stored).mp h.read
  refine ⟨hseg, (read_eq_ok_iff hseg).mpr ⟨?_, ?_⟩, he.trans h.clear⟩
  · rw [hl, hoff]
    exact hin.imp_left fun hin => hin.trans hlen
  · rw [hl, hoff, hslice, hraw]

/-- A view that was written is read. -/
theorem inClear_written (hseg : s'.seg x = some segment) {file : Bytes}
    (hfile : s'.nvram.file = writeAt 0 file segment.offset view)
    (hlen : segment.len = view.length) (he : segment.encrypted = false) :
    s'.InClear x segment view := by
  refine ⟨hseg, (read_eq_ok_iff hseg).mpr ⟨?_, ?_⟩, he⟩
  · rw [hlen, hfile]
    by_cases hne : view = []
    · exact .inr (List.length_eq_zero_iff.mpr hne)
    · exact .inl (end_le_writeAt hne)
  · rw [hlen, hfile]
    exact slice_writeAt_self _ _ _ _

end Store

/-! ### The two catalogs -/

/-- Between two chunks: every segment is in clear and was drawn, and the content store names views
of `U` by their hash. -/
structure Store.Stock (U : Set Bytes) (s : Store P) : Prop where
  drawn : ∀ x segment, s.seg x = some segment → x.val < s.next
  clear : ∀ x segment, s.seg x = some segment → ∃ raw, s.InClear x segment raw
  named : ∀ hash x, s.content hash = some x → ∃ segment, ∃ raw ∈ U,
    s.InClear x segment raw ∧ hashContent P raw = hash

namespace Store.Stock

/-- Segments that stay, and no others. -/
theorem keep (h : s.Stock U) (hp : s.Preserves s') (hnext : s'.next = s.next)
    (hseg : ∀ x, (s'.seg x).isSome → (s.seg x).isSome)
    (hcontent : ∀ hash, s'.content hash = s.content hash) : s'.Stock U := by
  have hold : ∀ x t, s'.seg x = some t → ∃ segment, s.seg x = some segment := fun x t ht =>
    Option.isSome_iff_exists.mp (hseg x (Option.isSome_of_eq_some ht))
  refine ⟨fun x t ht => ?_, fun x t ht => ?_, fun hash x hx => ?_⟩
  · obtain ⟨segment, hx⟩ := hold x t ht
    rw [hnext]
    exact h.drawn x segment hx
  · obtain ⟨segment, hx⟩ := hold x t ht
    obtain ⟨raw, hclear⟩ := h.clear x segment hx
    obtain ⟨t', ht', -⟩ := hp x segment raw hclear
    obtain rfl : t' = t := Option.some.inj (ht'.stored.symm.trans ht)
    exact ⟨raw, ht'⟩
  · rw [hcontent] at hx
    obtain ⟨segment, raw, hU, hclear, hhash⟩ := h.named hash x hx
    obtain ⟨segment', hclear', -⟩ := hp x segment raw hclear
    exact ⟨segment', raw, hU, hclear', hhash⟩

/-- **A view is stored** under a new identifier, and may be named by its hash. -/
theorem enter (h : s.Stock U) (hv : view ∈ U) (hnew : s'.InClear ⟨s.next⟩ segment view)
    (hnext : s'.next = s.next + 1)
    (hseg : ∀ y, s'.seg y = if y = ⟨s.next⟩ then some segment else s.seg y)
    (hread : ∀ y t raw, s.InClear y t raw → s'.seg y = some t → s'.InClear y t raw)
    (hcontent : ∀ hash y, s'.content hash = some y →
      s.content hash = some y ∨ hash = hashContent P view ∧ y = ⟨s.next⟩) :
    s'.Stock U ∧ s.Preserves s' := by
  have hold : ∀ y t raw, s.InClear y t raw → s'.InClear y t raw := by
    intro y t raw ht
    refine hread y t raw ht ?_
    rw [hseg, if_neg, ht.stored]
    rintro rfl
    exact Nat.lt_irrefl _ (h.drawn _ t ht.stored)
  refine ⟨⟨fun y t ht => ?_, fun y t ht => ?_, fun hash y hy => ?_⟩,
    fun y t raw ht => ⟨t, hold y t raw ht, rfl⟩⟩
  · rw [hnext]
    rw [hseg] at ht
    split at ht
    · next hy => exact hy ▸ Nat.lt_succ_self _
    · exact (h.drawn y t ht).trans (Nat.lt_succ_self _)
  · rw [hseg] at ht
    split at ht
    · next hy =>
        cases ht
        exact ⟨view, hy ▸ hnew⟩
    · obtain ⟨raw, hraw⟩ := h.clear y t ht
      exact ⟨raw, hold y t raw hraw⟩
  · rcases hcontent hash y hy with hy | ⟨rfl, rfl⟩
    · obtain ⟨t, raw, hU, ht, hhash⟩ := h.named hash y hy
      exact ⟨t, raw, hU, hold y t raw ht, hhash⟩
    · exact ⟨segment, view, hv, hnew, rfl⟩

end Store.Stock

/-- A write that has stored the chunks in `done`. -/
structure Stocking (U : Set Bytes) (policy : Policy) (s₀ : Store P) (l : List SegmentId)
    (done : List Bytes) (s : Store P) : Prop where
  stock : s.Stock U
  preserves : s₀.Preserves s
  reads : List.Forall₂ (s.ReadsBack policy) l done
  known : ∀ hash y, s₀.content hash = some y → s.content hash = some y
  source : ∀ hash y, s.content hash = some y →
    s₀.content hash = some y ∨ ∃ chunk, s.ReadsBack policy y chunk

namespace Stocking

theorem start (h : s.Stock U) : Stocking U policy s [] [] s where
  stock := h
  preserves := .refl s
  reads := .nil
  known := fun _ _ hy => hy
  source := fun _ _ hy => .inl hy

/-- **One chunk more**, in a segment that was there or in a new one. -/
theorem push (h : Stocking U policy s₀ l done s) (hstock : s'.Stock U) (hp : s.Preserves s')
    (hx : s'.ReadsBack policy x chunk)
    (hknown : ∀ hash y, s.content hash = some y → s'.content hash = some y)
    (hsource : ∀ hash y, s'.content hash = some y → s.content hash = some y ∨ y = x) :
    Stocking U policy s₀ (l ++ [x]) (done ++ [chunk]) s' where
  stock := hstock
  preserves := h.preserves.trans hp
  reads := forall₂_snoc (h.reads.imp fun _ _ hy => hy.preserve hp) hx
  known := fun hash y hy => hknown hash y (h.known hash y hy)
  source := fun hash y hy => by
    rcases hsource hash y hy with hy | rfl
    · exact (h.source hash y hy).imp_right fun ⟨c, hc⟩ => ⟨c, hc.preserve hp⟩
    · exact .inr ⟨chunk, hx⟩

/-- **What a view is named by reads as its chunk**: it is a segment that the write has stored or
taken itself, or one that decodes to the chunk by its record. -/
theorem reads_named (hU : P.NoCollision U) (h : Stocking U policy s₀ l done s)
    (hv : view ∈ U) (hdec : decompressByPolicy P policy.compression view = chunk)
    (hknown : ∀ segment, s₀.content (hashContent P view) = some x → s₀.seg x = some segment →
      segment.decoded P view = .ok chunk)
    (hs₀ : s₀.Stock U) (hx : s.content (hashContent P view) = some x) :
    s.ReadsBack policy x chunk := by
  obtain ⟨segment, raw, hraw, hclear, hhash⟩ := h.stock.named _ x hx
  obtain rfl := hashContent_inj hU hraw hv hhash
  rcases h.source _ x hx with hx₀ | ⟨chunk', segment', raw', hclear', hdec', hd'⟩
  · obtain ⟨segment₀, raw₀, -, hclear₀, -⟩ := hs₀.named _ x hx₀
    obtain ⟨segment', hclear', hform⟩ := h.preserves x segment₀ raw₀ hclear₀
    obtain rfl := hclear'.raw_eq hclear
    exact ⟨segment', _, hclear', hdec,
      (Segment.decoded_congr hform).trans (hknown segment₀ hx₀ hclear₀.stored)⟩
  · obtain rfl := hclear'.raw_eq hclear
    obtain rfl := hdec'.symm.trans hdec
    exact ⟨segment', _, hclear', hdec, hd'⟩

end Stocking

/-! ### What a write leaves -/

/-- Only the registry changes, and of it not what is stored. -/
theorem Store.preserves_of_nvram (h : s'.nvram = s.nvram) : s.Preserves s' := by
  intro x segment raw hx
  refine ⟨segment, ⟨?_, ?_, hx.clear⟩, rfl⟩
  · have hx := hx.stored
    rw [Store.seg] at hx ⊢
    rw [h]
    exact hx
  · rw [h]
    exact hx.read

/-- A write that succeeds leaves what it has stored, and its capsule. -/
structure Stocked (U : Set Bytes) (policy : Policy) (s₀ : Store P) (id : CapsuleId)
    (all : List Bytes) (s : Store P) : Prop where
  stock : s.Stock U
  stocked : ∃ l sₙ, Stocking U policy s₀ l all sₙ ∧ sₙ.Preserves s ∧
    ∃ c, s.cap id = some c ∧ c.segments = l ∧ c.policy = policy
  others : ∀ id', id' ≠ id → s.cap id' = s₀.cap id'

/-- The catalog takes the capsule. -/
theorem Stocking.create {id : CapsuleId} {size : Nat} {stats : DedupStats} {all : List Bytes}
    {reg : CapsuleRegistry} (h : Stocking U policy s₀ l all s)
    (hcap : s.registry.capsules = s₀.registry.capsules)
    (hc : s.registry.createCapsule id size policy l stats = (.ok (), reg)) :
    Stocked U policy s₀ id all { s with registry := reg } := by
  cases hl : s.registry.capsules.lookup id with
  | some c =>
      obtain ⟨e, he⟩ := CapsuleRegistry.createCapsule_some hl size policy l stats
      rw [he] at hc
      cases hc
  | none =>
      rw [CapsuleRegistry.createCapsule_none hl] at hc
      cases hc
      have hpres : ∀ reg : CapsuleRegistry, s.Preserves { s with registry := reg } :=
        fun _ => Store.preserves_of_nvram rfl
      refine ⟨h.stock.keep (hpres _) rfl (fun _ hx => hx) fun _ => rfl,
        ⟨l, s, h, hpres _, _, (Table.lookup_insert _ _ _ _).trans (if_pos rfl), rfl, rfl⟩,
        fun id' hne => ?_⟩
      refine (Table.lookup_insert _ _ _ _).trans ((if_neg hne).trans ?_)
      refine (Table.lookup_insert _ _ _ _).trans ((if_neg hne).trans ?_)
      rw [hcap]
      rfl

/-- What the end of a native write leaves. -/
theorem Stocking.ends {id : CapsuleId} {size : Nat} {all : List Bytes} {sₙ : Store P}
    (h : Stocking U policy s₀ l all sₙ) (he : WritePipeline.Ends s₀ sₙ size l policy id s)
    (hnext : s.next = sₙ.next) : Stocked U policy s₀ id all s := by
  have hpres : sₙ.Preserves s := by
    intro x segment raw hx
    have hseg := he.segments x
    rw [hx.stored, Option.map_some, Option.map_eq_some_iff] at hseg
    obtain ⟨t, ht, hunread⟩ := hseg
    have hform : t.unread.form = segment.unread.form := congrArg Segment.form hunread
    have hoff : t.unread.offset = segment.unread.offset := congrArg Segment.offset hunread
    exact ⟨t, hx.reread ht hform hoff (by rw [he.file]) (by rw [he.file]), hform⟩
  have hold : ∀ x, (s.seg x).isSome → (sₙ.seg x).isSome := by
    intro x hx
    have hseg := congrArg Option.isSome (he.segments x)
    rw [Option.isSome_map, Option.isSome_map] at hseg
    exact hseg ▸ hx
  obtain ⟨bytes, hcap⟩ := he.cap
  exact ⟨h.stock.keep hpres hnext hold he.content, ⟨l, sₙ, h, hpres, _, hcap, rfl, rfl⟩, he.others⟩

/-! ### The native writer -/

/-- Every segment ends before the next one begins. -/
def Store.Packed (s : Store P) : Prop :=
  ∀ x t, s.seg x = some t → t.len ≠ 0 → t.offset + t.len ≤ s.nvram.nextOffset

theorem Store.Flagged.packed (h : s.Flagged K) : s.Packed := by
  obtain ⟨⟨n, hg⟩, -⟩ := h
  intro x t ht hne
  rw [show s.nvram.nextOffset = n from hg.offset]
  exact ((hg.sits x t ht).1 hne).1

/-- What a native write leaves for both readers: a chunk that is stored as it is does not decode
under the policy; one that is stored is stored in clear; and one whose view is known is what the
segment that has this view decodes to, by its own record. -/
structure NativeFits (policy : Policy) (l : List Bytes) (s : Store P) : Prop where
  raw : ∀ chunk ∈ l, policy.ReadsRaw P chunk
  clear : ∀ chunk ∈ l, s.keyFor policy ≠ none → policy.dedupe = true ∧
    ∀ view, viewOf P policy.compression chunk = some view →
      s.known (hashContent P view) = true
  known : policy.dedupe = true → ∀ chunk ∈ l, ∀ view,
    viewOf P policy.compression chunk = some view → ∀ x segment,
      s.content (hashContent P view) = some x → s.seg x = some segment →
        segment.decoded P view = .ok chunk

section
variable {r : CompressionResult}

theorem viewOf_of_segment {policy : CompressionPolicy}
    (h : compressSegment P chunk policy = .ok (view, r)) : viewOf P policy chunk = some view := by
  rw [viewOf, Lz4ZstdCompressor.compress, h]
  rfl

/-- What is recorded of a view decodes it. -/
theorem decoded_view {policy : CompressionPolicy}
    (h : compressSegment P chunk policy = .ok (view, r)) (hc : t.compressed = r.compressed)
    (ha : t.compressionAlgo = r.algorithm) : t.decoded P view = .ok chunk := by
  have hcomp : Lz4ZstdCompressor.compress P chunk policy = .ok (view,
      { CompressionSummary.new r.originalSize r.compressedSize r.algorithm with
        compressed := r.compressed, reusedInput := r.reusedOriginal, reason := r.reason }) := by
    rw [Lz4ZstdCompressor.compress, h]
    rfl
  have hd := decoded_new hcomp ⟨0⟩ ⟨[]⟩ (.new "none") false
  rw [Segment.decoded] at hd ⊢
  rw [hc, ha]
  exact hd

/-- A chunk is prepared by its view, and without a key in clear. -/
theorem sealedChunk_view {key : Option (UInt32 × XtsKeyPair)} {chunk : Bytes × Nat}
    {p : SegmentPrepared} (h : sealedChunk P key policy chunk = some p) :
    ∃ view r, compressSegment P chunk.1 policy.compression = .ok (view, r) ∧
      p.contentHash = hashContent P view ∧
      (key = none → p = ⟨chunk.2, hashContent P view, view, r, none⟩) := by
  rw [sealedChunk] at h
  cases hc : compressSegment P chunk.1 policy.compression with
  | error e =>
      rw [hc] at h
      cases h
  | ok a =>
      obtain ⟨view, r⟩ := a
      rw [hc] at h
      dsimp only at h
      refine ⟨view, r, rfl, ?_⟩
      cases hs : sealView P key view (hashContent P view) with
      | error e =>
          rw [hs] at h
          cases h
      | ok b =>
          rw [hs] at h
          cases h
          refine ⟨rfl, ?_⟩
          rintro rfl
          cases hs
          rfl

end

/-- Taking a reference leaves what is stored. -/
theorem Store.preserves_took (h : s.Took s' x t) : s.Preserves s' := by
  intro y segment raw hy
  have hfile : slice s'.nvram.file segment.offset segment.len =
      slice s.nvram.file segment.offset segment.len := by rw [h.file]
  have hlen : s.nvram.file.length ≤ s'.nvram.file.length := by rw [h.file]
  by_cases hyx : y = x
  · subst hyx
    obtain rfl : t = segment := Option.some.inj (h.old.symm.trans hy.stored)
    exact ⟨t.taken, hy.reread ((h.seg y).trans (if_pos rfl)) rfl rfl hlen hfile, rfl⟩
  · exact ⟨segment, hy.reread ((h.seg y).trans ((if_neg hyx).trans hy.stored)) rfl rfl hlen hfile,
      rfl⟩

/-- A native write between two of its chunks. -/
structure NativeStocking (U : Set Bytes) (policy : Policy) (s₀ : Store P) (l : List SegmentId)
    (done : List Bytes) (s : Store P) : Prop where
  stocking : Stocking U policy s₀ l done s
  packed : s.Packed
  key : s.keyFor policy = s₀.keyFor policy

namespace NativeStocking
open WritePipeline
variable {p : SegmentPrepared}

theorem keyFor_congr (h : s'.currentKey.1 = s.currentKey.1) :
    s'.keyFor policy = s.keyFor policy := by
  unfold Store.keyFor
  rw [h]

/-- **A hit.** -/
theorem took (h : NativeStocking U policy s₀ l done s) (ht : s.Took s' x t)
    (hx : s.ReadsBack policy x chunk) :
    NativeStocking U policy s₀ (l ++ [x]) (done ++ [chunk]) s' := by
  have hp := Store.preserves_took ht
  have hcontent : ∀ hash, s'.content hash = s.content hash := fun hash =>
    congrArg (fun m : Table ContentHash SegmentId => m.lookup hash) ht.contentStore
  have hstock : s'.Stock U := by
    refine h.stocking.stock.keep hp ht.next (fun y hy => ?_) hcontent
    rw [ht.seg] at hy
    split at hy
    · next hyx => rw [hyx, ht.old]; rfl
    · exact hy
  refine ⟨h.stocking.push hstock hp (hx.preserve hp) (fun hash y hy => ?_) (fun hash y hy => ?_),
    fun y u hu hne => ?_, (keyFor_congr ht.key).trans h.key⟩
  · exact (hcontent hash).trans hy
  · exact .inl ((hcontent hash).symm.trans hy)
  · rw [ht.offset]
    rw [ht.seg] at hu
    split at hu
    · next hyx =>
        cases hu
        exact h.packed x t ht.old hne
    · exact h.packed y u hu hne

/-- **A chunk that is stored.** -/
theorem stored {c : Bytes × Nat} {r : CompressionResult}
    (h : NativeStocking U policy s₀ l done s) (hv : view ∈ U) (hshort : view.length < 4294967296)
    (hcomp : compressSegment P c.1 policy.compression = .ok (view, r))
    (hdec : decompressByPolicy P policy.compression view = c.1)
    (hnone : policy.dedupe = true → s.content (hashContent P view) = none)
    (hs : s.Stored policy ⟨c.2, hashContent P view, view, r, none⟩ s') :
    NativeStocking U policy s₀ (l ++ [⟨s.next⟩]) (done ++ [c.1]) s' := by
  set p : SegmentPrepared := ⟨c.2, hashContent P view, view, r, none⟩ with hp
  set segment : Segment := p.segment policy ⟨s.next⟩ s.nvram.nextOffset with hsegment
  have hlen : segment.len = view.length := asU32_of_lt hshort
  have hlonger : s.nvram.file.length ≤ s'.nvram.file.length := by
    rw [hs.file]
    exact length_le_writeAt _ _ _ _
  have hnew : s'.InClear ⟨s.next⟩ segment view :=
    Store.inClear_written ((hs.seg _).trans (if_pos rfl)) hs.file hlen rfl
  have hread : ∀ y u raw, s.InClear y u raw → s'.seg y = some u → s'.InClear y u raw := by
    intro y u raw hy hu
    refine hy.reread hu rfl rfl hlonger ?_
    by_cases hne : u.len = 0
    · rw [hne, slice_zero, slice_zero]
    · rw [hs.file]
      obtain ⟨hin, -⟩ := (Store.read_eq_ok_iff hy.stored).mp hy.read
      exact slice_writeAt_disjoint (hin.resolve_right hne) (.inl (h.packed y u hy.stored hne))
  have hcontent : ∀ hash y, s'.content hash = some y →
      s.content hash = some y ∨ hash = hashContent P view ∧ y = ⟨s.next⟩ := by
    intro hash y hy
    rw [hs.content] at hy
    split at hy
    · next hk => exact .inr ⟨hk.2, (Option.some.inj hy).symm⟩
    · exact .inl hy
  obtain ⟨hstock, hpres⟩ := h.stocking.stock.enter hv hnew hs.next hs.seg hread hcontent
  have hback : s'.ReadsBack policy ⟨s.next⟩ c.1 :=
    ⟨segment, view, hnew, hdec, decoded_view hcomp rfl rfl⟩
  refine ⟨h.stocking.push hstock hpres hback (fun hash y hy => ?_) (fun hash y hy => ?_),
    fun y u hu hne => ?_, (keyFor_congr hs.key).trans h.key⟩
  · rw [hs.content, if_neg, hy]
    rintro ⟨hd, rfl⟩
    rw [hnone hd] at hy
    cases hy
  · exact (hcontent hash y hy).imp_right And.right
  · rw [hs.offset]
    rw [hs.seg] at hu
    split at hu
    · cases hu
      exact Nat.add_le_add_left (Nat.mod_le _ _) _
    · exact (h.packed y u hu hne).trans (Nat.le_add_right _ _)

/-- **One chunk of the write.** -/
theorem step {c : Bytes × Nat} {st st' : WriteState} {all : List Bytes} (hU : P.NoCollision U)
    (hs₀ : s₀.Stock U) (hin : ViewsIn P U policy.compression all)
    (hf : NativeFits policy all s₀) (hmem : c.1 ∈ all) (hlen : c.1.length ≤ SEGMENT_SIZE)
    (h : NativeStocking U policy s₀ st.segmentIds done s)
    (hrun : (writeChunk P policy st c).run StoreOp.exec s = (.ok st', s')) :
    NativeStocking U policy s₀ st'.segmentIds (done ++ [c.1]) s' := by
  obtain ⟨p, hp, hcases⟩ := writeChunk_cases hrun
  rw [h.key] at hp
  obtain ⟨view, r, hcomp, hhash, hplain⟩ := sealedChunk_view hp
  have hview := viewOf_of_segment hcomp
  have hv : view ∈ U := hin c.1 hmem view hview
  obtain ⟨hdec, hshort⟩ := decompressByPolicy_view (hf.raw c.1 hmem) hcomp
  rcases hcases with ⟨x, t, hd, hx, ht, rfl⟩ | ⟨hnone, hs, rfl⟩
  · rw [hhash] at hx
    exact h.took ht (h.stocking.reads_named hU hv hdec
      (fun segment => hf.known hd c.1 hmem view hview x segment) hs₀ hx)
  · rw [hhash] at hnone
    -- a policy that encrypts finds the view
    have hclear : s₀.keyFor policy = none := by
      by_contra hne
      obtain ⟨hd, hknown⟩ := hf.clear c.1 hmem hne
      obtain ⟨y, hy⟩ := Option.isSome_iff_exists.mp (hknown view hview)
      rw [h.stocking.known _ y hy] at hnone
      cases hnone hd
    obtain rfl := hplain hclear
    have hsize : SEGMENT_SIZE < 4294967296 := by decide
    exact h.stored hv (by omega) hcomp hdec hnone hs

/-- **The chunks of a native write.** -/
theorem chunks_stored {data : Bytes} {stₙ : WriteState} {sₙ : Store P} (hU : P.NoCollision U)
    (hs₀ : s₀.Stock U) (hp : s₀.Packed)
    (hin : ViewsIn P U policy.compression (chunks SEGMENT_SIZE data))
    (hf : NativeFits policy (chunks SEGMENT_SIZE data) s₀)
    (hrun : ((chunks SEGMENT_SIZE data).zipIdx.foldlM (writeChunk P policy) {}).run
      StoreOp.exec s₀ = (.ok stₙ, sₙ)) :
    Stocking U policy s₀ stₙ.segmentIds (chunks SEGMENT_SIZE data) sₙ := by
  have hall : ((chunks SEGMENT_SIZE data).zipIdx.foldlM (writeChunk P policy) {}).Ensures
      StoreOp.exec (fun st s => ∃ done, NativeStocking U policy s₀ st.segmentIds done s ∧
        done ++ ([] : List (Bytes × Nat)).map Prod.fst = chunks SEGMENT_SIZE data) s₀ := by
    refine ensures_foldlM (I := fun rest (st : WriteState) s => ∃ done,
      NativeStocking U policy s₀ st.segmentIds done s ∧
        done ++ rest.map Prod.fst = chunks SEGMENT_SIZE data) ?_ _ _ _
      ⟨[], ⟨.start hs₀, hp, rfl⟩, List.zipIdx_map_fst _ _⟩
    rintro c rest st s ⟨done, h, hdone⟩ st' s' hc
    have hmem : c.1 ∈ chunks SEGMENT_SIZE data := by
      rw [← hdone]
      exact List.mem_append_right _ List.mem_cons_self
    refine ⟨done ++ [c.1], h.step hU hs₀ hin hf hmem (chunks_mem SEGMENT_SIZE_pos hmem).2 hc, ?_⟩
    rw [List.append_assoc]
    exact hdone
  obtain ⟨done, h, hdone⟩ := hall stₙ sₙ hrun
  rw [List.map_nil, List.append_nil] at hdone
  exact hdone ▸ h.stocking

end NativeStocking

/-- **A native write**, if it succeeds. -/
theorem WriteKind.stocks {kind : WriteKind} {id : CapsuleId} {data : Bytes}
    (hU : P.NoCollision U) (h : s₀.Stock U) (hp : s₀.Packed)
    (hin : ViewsIn P U policy.compression (chunks SEGMENT_SIZE data))
    (hf : NativeFits policy (chunks SEGMENT_SIZE data) s₀)
    (hw : (kind.program P id data policy).run StoreOp.exec s₀ = (.ok id, s)) :
    Stocked U policy s₀ id (chunks SEGMENT_SIZE data) s := by
  have hn : s₀.NamesDrawn := fun _ x segment _ hx => h.drawn x segment hx
  obtain ⟨stₙ, sₙ, hall, hends, hnext⟩ := WriteKind.ends hn hw
  exact (NativeStocking.chunks_stored hU h hp hin hf hall).ends hends hnext

/-! ### The handle as writer -/

/-- What a write through the handle leaves for both readers: it encrypts nothing; a chunk that is
stored as it is does not decode under the policy; a view has a length that a `u32` can tell, and
where it meets the extent of a segment or another view, at the beginning of the log, it has the same
bytes. -/
structure ModularFits (policy : Policy) (l : List Bytes) (s : Store P) : Prop where
  clear : policy.encryption.isEnabled = true → l = []
  raw : ∀ chunk ∈ l, policy.ReadsRaw P chunk
  short : ∀ chunk ∈ l, ∀ view, viewOf P policy.compression chunk = some view →
    view.length < 4294967296
  overlays : ∀ chunk ∈ l, ∀ view, viewOf P policy.compression chunk = some view →
    ∀ x segment, s.seg x = some segment →
      Overlays view s.nvram.file segment.offset segment.len
  alike : ∀ chunk ∈ l, ∀ chunk' ∈ l, ∀ view view', viewOf P policy.compression chunk = some view →
    viewOf P policy.compression chunk' = some view' → Overlays view' view 0 view.length

section
variable {env : Except EncryptionError (KeyManager P)} {summary : CompressionSummary}
  {report : EncryptionSummary} {rest : List Bytes}

theorem compressSegment_of_compress {policy : CompressionPolicy}
    (h : Lz4ZstdCompressor.compress P chunk policy = .ok (view, summary)) :
    ∃ r, compressSegment P chunk policy = .ok (view, r) := by
  rw [Lz4ZstdCompressor.compress] at h
  cases hs : compressSegment P chunk policy with
  | error e =>
      rw [hs] at h
      cases h
  | ok a =>
      rw [hs] at h
      cases h
      exact ⟨a.2, rfl⟩

/-- **The other chunks** fit what the first one leaves. -/
theorem ModularFits.tail (hf : ModularFits policy (chunk :: rest) s)
    (hview : viewOf P policy.compression chunk = some view)
    (hfile : s'.nvram.file = writeAt 0 s.nvram.file 0 view) (hoff : segment.offset = 0)
    (hlen : segment.len = view.length)
    (hseg : ∀ x t, s'.seg x = some t → t = segment ∨ s.seg x = some t) :
    ModularFits policy rest s' where
  clear := fun he => absurd (hf.clear he) (List.cons_ne_nil _ _)
  raw := fun c hc => hf.raw c (List.mem_cons_of_mem _ hc)
  short := fun c hc => hf.short c (List.mem_cons_of_mem _ hc)
  overlays := fun c hc view' hview' x t ht => by
    have hc' := List.mem_cons_of_mem chunk hc
    rw [hfile]
    rcases hseg x t ht with rfl | ht
    · rw [hoff, hlen]
      exact (hf.alike chunk List.mem_cons_self c hc' view view' hview hview').written
    · exact (hf.overlays chunk List.mem_cons_self view hview x t ht).after
        (hf.overlays c hc' view' hview' x t ht)
  alike := fun c hc c' hc' =>
    hf.alike c (List.mem_cons_of_mem _ hc) c' (List.mem_cons_of_mem _ hc')

/-- Nothing is labelled. -/
theorem ModularFits.fits {all : List Bytes} (hf : ModularFits policy all s) (h : s.Stock U) :
    Fits env policy all s where
  keys := fun he hne => absurd (by rw [hf.clear he, storedPayloads]) hne
  once := fun he => by
    rw [hf.clear he, storedPayloads]
    exact Nat.zero_le 1
  short := fun he p hp => by
    rw [hf.clear he, storedPayloads] at hp
    exact absurd hp List.not_mem_nil
  clear := fun p _ x t ht he => by
    obtain ⟨raw, hclear⟩ := h.clear x t ht
    exact absurd (he.symm.trans hclear.clear) (by decide)

/-- **A chunk that is stored** by the handle, and registered. -/
theorem Stocking.entered {hash : ContentHash} (h : Stocking U policy s₀ l done s) (hv : view ∈ U)
    (hf : ModularFits policy (chunk :: rest) s)
    (hcomp : Lz4ZstdCompressor.compress P chunk policy.compression = .ok (view, summary))
    (hnone : s.content (hashContent P view) = none)
    (hnew : segment = .new ⟨s.next⟩ view summary hash report false)
    (hs' : s' = (s.entered segment view).registered (hashContent P view) ⟨s.next⟩) :
    Stocking U policy s₀ (l ++ [⟨s.next⟩]) (done ++ [chunk]) s' ∧ ModularFits policy rest s' := by
  have hview := viewOf_eq hcomp
  obtain ⟨r, hcs⟩ := compressSegment_of_compress hcomp
  obtain ⟨hdec, -⟩ := decompressByPolicy_view (hf.raw chunk List.mem_cons_self) hcs
  have hoff : segment.offset = 0 := by rw [hnew]; rfl
  have hid : segment.id = ⟨s.next⟩ := by rw [hnew]; rfl
  have hlen : segment.len = view.length := by
    rw [hnew]
    exact asU32_of_lt (hf.short chunk List.mem_cons_self view hview)
  have hfile : s'.nvram.file = writeAt 0 s.nvram.file 0 view := by
    rw [hs', ← hoff]
    rfl
  have hseg : ∀ y, s'.seg y = if y = ⟨s.next⟩ then some segment else s.seg y := by
    intro y
    rw [hs', ← hid]
    exact Table.lookup_insert _ _ _ _
  have hcontent : ∀ hash, s'.content hash =
      if hash = hashContent P view then some ⟨s.next⟩ else s.content hash := by
    intro hash
    rw [hs']
    exact Table.lookup_insert _ _ _ _
  have hlonger : s.nvram.file.length ≤ s'.nvram.file.length := by
    rw [hfile]
    exact length_le_writeAt _ _ _ _
  have hclear : s'.InClear ⟨s.next⟩ segment view :=
    Store.inClear_written ((hseg _).trans (if_pos rfl)) (hoff ▸ hfile) hlen (by rw [hnew]; rfl)
  obtain ⟨hstock, hpres⟩ := h.stock.enter hv hclear (by rw [hs']; rfl) hseg
    (fun y u raw hy hu => hy.reread hu rfl rfl hlonger (by
      rw [hfile]
      exact (hf.overlays chunk List.mem_cons_self view hview y u hy.stored).slice_writeAt))
    (fun hash y hy => by
      rw [hcontent] at hy
      split at hy
      · next hk => exact .inr ⟨hk, (Option.some.inj hy).symm⟩
      · exact .inl hy)
  have hback : s'.ReadsBack policy ⟨s.next⟩ chunk :=
    ⟨segment, view, hclear, hdec, hnew ▸ decoded_new hcomp _ _ _ _⟩
  refine ⟨h.push hstock hpres hback (fun hash y hy => ?_) (fun hash y hy => ?_),
    hf.tail hview hfile hoff hlen fun y u hu => ?_⟩
  · rw [hcontent, if_neg, hy]
    rintro rfl
    rw [hnone] at hy
    cases hy
  · rw [hcontent] at hy
    split at hy
    · exact .inr (Option.some.inj hy).symm
    · exact .inl hy
  · rw [hseg] at hu
    split at hu
    · exact .inl (Option.some.inj hu).symm
    · exact .inr hu

end

namespace Pipeline
open Space.Modular
variable {env : Except EncryptionError (KeyManager P)} {r : Registered P} {id : CapsuleId}
  {data : Bytes}

/-- **One segment of the plan**, if it can be stored: a view that is known ends the write. -/
theorem wp_writeSegment_stocks {st : WriteState} {seg : SegmentRef} {rest : List Bytes}
    (hin : ViewsIn P U policy.compression (seg.chunk data :: rest))
    (h : Stocking U policy s₀ st.segmentIds done r.1)
    (hf : ModularFits policy (seg.chunk data :: rest) r.1) :
    (writeSegment id data policy.compression policy.encryption st seg).wp
      (Registering (registryPipelineFromBackend env)) (fun _ _ => True)
      (fun res r' => ∀ st', res = .ok st' →
        Stocking U policy s₀ st'.segmentIds (done ++ [seg.chunk data]) r'.1 ∧
          ModularFits policy rest r'.1 ∧ r'.1.registry.capsules = r.1.registry.capsules) r := by
  refine wp_writeSegment_log (fun e reg t => fun st' k => by cases k)
    fun view summary payload report t hc hx hp st' hst => ?_
  have he : policy.encryption.isEnabled = false :=
    Bool.eq_false_iff.mpr fun he => List.cons_ne_nil _ _ (hf.clear he)
  rw [Parts.payload, he] at hp
  cases hp
  cases hst
  rw [he]
  obtain ⟨hs, hrest⟩ := h.entered (hin _ List.mem_cons_self view (viewOf_eq hc)) hf hc hx rfl rfl
  exact ⟨hs, hrest, rfl⟩

/-- **A write through the handle**, if it succeeds. -/
theorem wp_writeCapsule_stocks (hs₀ : s₀.Stock U)
    (hin : ViewsIn P U policy.compression (plannedChunks policy data))
    (hf : ModularFits policy (plannedChunks policy data) s₀) :
    (writeCapsule id data policy).wp (Registering (registryPipelineFromBackend env))
      (fun _ _ => True) (fun res r => ∀ i, res = .ok i →
        (∃ zones, zonePlan policy data = .ok zones) ∧
          Stocked U policy s₀ id (plannedChunks policy data) r.1) (s₀, .none) := by
  refine wp_writeCapsule_log (fun e i k => by cases k) fun zones hz => ?_
  rw [plannedChunks_ok hz] at hin hf ⊢
  refine wp_foldlM (fun rest st r => ∃ done,
    Stocking U policy s₀ st.segmentIds done r.1 ∧
    ModularFits policy (rest.map fun seg => seg.chunk data) r.1 ∧
    r.1.registry.capsules = s₀.registry.capsules ∧
    done ++ (rest.map fun seg => seg.chunk data) =
      (zones.flatMap Zone.segments).map fun seg => seg.chunk data) ?_ ?_ _ _ _
    ⟨[], .start hs₀, hf, rfl, rfl⟩
  · rintro seg rest st r ⟨done, h, hf, hcap, hdone⟩
    have hin' : ViewsIn P U policy.compression
        (seg.chunk data :: rest.map fun seg => seg.chunk data) := fun chunk hmem =>
      hin chunk (hdone ▸ List.mem_append_right _ hmem)
    refine wp_mono (wp_writeSegment_stocks hin' h hf) fun res r' hr => ?_
    cases res with
    | error e => exact fun i k => by cases k
    | ok st' =>
        obtain ⟨h', hf', hcap'⟩ := hr st' rfl
        exact ⟨_, h', hf', hcap'.trans hcap, by rw [← hdone, List.append_assoc]; rfl⟩
  · rintro st r ⟨done, h, -, hcap, hdone⟩ res reg hc i hi
    rw [List.map_nil, List.append_nil] at hdone
    cases res with
    | error e => cases hi
    | ok u => exact ⟨⟨zones, hz⟩, (hdone ▸ h).create hcap hc⟩

/-- Reading a segment. -/
theorem wp_readSegment_back {Q : Except Error Bytes → Registered P → Prop}
    (h : r.1.ReadsBack policy x chunk) (hQ : Q (.ok chunk) r) :
    (readSegment policy x).wp (Registering (registryPipelineFromBackend env)) (fun _ _ => True)
      Q r := by
  obtain ⟨segment, raw, hx, -, hd⟩ := h
  have hmeta : r.1.nvram.getSegmentMetadata x = .ok segment := by
    have hseg : r.1.nvram.segmentMap.lookup x = some segment := hx.stored
    rw [NvramLog.getSegmentMetadata, hseg]
  refine wp_bind.mpr (wp_modularOp (.metadata x) ?_)
  show andThen _ _ _ _ (r.1.nvram.getSegmentMetadata x) r
  rw [hmeta]
  refine wp_bind.mpr (wp_modularOp (.read x) ?_)
  show andThen _ _ _ _ (r.1.nvram.read x) r
  rw [hx.read]
  refine andThen_ok.mpr ?_
  show Prog.wp _ _ _ (if segment.encrypted = true then _ else _) r
  rw [hx.clear, if_neg Bool.false_ne_true]
  show Prog.wp _ _ _ (if segment.compressed = true then _ else _) r
  rw [Segment.decoded] at hd
  split at hd
  · next hc =>
      rw [if_pos hc]
      refine wp_modularOp (.decompress raw segment.compressionAlgo) ?_
      have hdec : (registryPipelineFromBackend env).decompress raw segment.compressionAlgo =
          Lz4ZstdCompressor.decompress P raw segment.compressionAlgo := by cases env <;> rfl
      show Q ((registryPipelineFromBackend env).decompress raw segment.compressionAlgo) r
      rw [hdec, hd]
      exact hQ
  · next hc =>
      rw [if_neg hc]
      cases hd
      exact hQ

/-- **Reading a capsule** through the handle. -/
theorem readCapsule_back {c : Capsule} {chs : List Bytes} (hc : s.cap id = some c)
    (hb : List.Forall₂ (s.ReadsBack c.policy) c.segments chs) :
    ((readCapsule id).run (ModularOp.execRegistry (registryPipelineFromBackend env))
      (s, .none)).1 = .ok chs.flatten := by
  refine wp_run (J := fun _ _ => True) (Q := fun r _ => r = .ok chs.flatten) ?_
  have hlookup : s.registry.lookup id = .ok c := by
    have hc : s.registry.capsules.lookup id = some c := hc
    rw [CapsuleRegistry.lookup, hc]
  refine wp_bind.mpr (wp_modularOp (.lookupCapsule id) ?_)
  show andThen _ _ _ _ (s.registry.lookup id) _
  rw [hlookup]
  refine andThen_ok.mpr ?_
  refine wp_foldlM (fun rest acc r => r.1 = s ∧ ∃ rest',
    List.Forall₂ (s.ReadsBack c.policy) rest rest' ∧ acc ++ rest'.flatten = chs.flatten)
    ?_ ?_ _ _ _ ⟨rfl, chs, hb, List.nil_append _⟩
  · rintro y rest acc ⟨_, t⟩ ⟨rfl, rest', hrest, hacc⟩
    obtain ⟨chunk, rest'', hy, hrest', rfl⟩ := List.forall₂_cons_left_iff.mp hrest
    refine wp_bind.mpr (wp_readSegment_back hy ?_)
    refine ⟨rfl, rest'', hrest', ?_⟩
    rw [← hacc, List.flatten_cons, List.append_assoc]
  · rintro acc r ⟨-, rest', hrest, hacc⟩
    cases hrest
    rw [← hacc, List.flatten_nil, List.append_nil]

end Pipeline

/-! ### Runs -/

/-- Who writes: the native pipeline, in one of its two ways, or the handle. -/
inductive Writer where
  | native (kind : WriteKind)
  | modular

namespace Writer
variable (env : Except EncryptionError (KeyManager P)) (id : CapsuleId) (data : Bytes)
  (policy : Policy)

def write : Writer → Store P → Except Error CapsuleId × Store P
  | native kind, s => (kind.program P id data policy).run StoreOp.exec s
  | modular, s =>
    let r := (Pipeline.writeCapsule id data policy).run
      (ModularOp.execRegistry (registryPipelineFromBackend env)) (s, .none)
    (r.1, r.2.1)

/-- The same write as a step of the log; no key is wrapped. -/
def step : Writer → WriteStep P
  | native .sync => .write none (fun _ => []) id data policy
  | native (.async limit arrivals) => .writeAsync limit arrivals id data policy
  | modular => .modular env id data policy

theorem write_snd (w : Writer) (s : Store P) :
    (w.write env id data policy s).2 = (w.step env id data policy).exec s := by
  rcases w with ⟨_ | _⟩ | _
  · show _ = ((WritePipeline.writeCapsuleHybrid P none _ id data policy).run _ s).2
    rw [WritePipeline.writeCapsuleHybrid_unwrapped WritePipeline.not_wrapsKeys_none]
    rfl
  · rfl
  · exact (congrArg Prod.fst (run_discard _ _)).symm

/-- The chunks it takes. -/
def chunks (data : Bytes) (policy : Policy) : Writer → List Bytes
  | native _ => Support.chunks SEGMENT_SIZE data
  | modular => plannedChunks policy data

/-- What it writes is a slice, and its views are in `U`. -/
def Hashes (P : Primitives) (U : Set Bytes) (data : Bytes) (policy : Policy) (w : Writer) : Prop :=
  data.length ≤ usizeMax ∧ ViewsIn P U policy.compression (w.chunks data policy)

/-- What it leaves suits both readers. -/
def Fits (data : Bytes) (policy : Policy) : Writer → Store P → Prop
  | native kind, s => NativeFits policy ((native kind).chunks data policy) s
  | modular, s => ModularFits policy (modular.chunks data policy) s

/-- Both. -/
def Suits (U : Set Bytes) (w : Writer) (data : Bytes) (policy : Policy) (s : Store P) : Prop :=
  w.Hashes P U data policy ∧ w.Fits data policy s

end Writer

/-- The store after writes that succeed and meet `A`, and what was written under each
identifier. -/
inductive WriterRun (env : Except EncryptionError (KeyManager P)) (km : Option (KeyManager P))
    (A : Writer → Bytes → Policy → Store P → Prop) : (CapsuleId → Bytes) → Store P → Prop
  | start : WriterRun env km A (fun _ => []) (.empty km)
  | write {contents : CapsuleId → Bytes} {s s' : Store P} (w : Writer) (id : CapsuleId)
      (data : Bytes) (policy : Policy) (h : WriterRun env km A contents s)
      (ha : A w data policy s) (hw : w.write env id data policy s = (.ok id, s')) :
      WriterRun env km A (Function.update contents id data) s'

/-- Between two writes. -/
structure Interchanged (U : Set Bytes) (K : UInt32 → XtsKeyPair) (contents : CapsuleId → Bytes)
    (s : Store P) : Prop where
  flagged : s.Flagged K
  stock : s.Stock U
  kept : ∀ id c, s.cap id = some c → ∃ chs,
    List.Forall₂ (s.ReadsBack c.policy) c.segments chs ∧ chs.flatten = contents id

namespace Interchanged
variable {contents : CapsuleId → Bytes} {env : Except EncryptionError (KeyManager P)}
  {id : CapsuleId} {data : Bytes}

/-- **What a write leaves** keeps every capsule, and has one more. -/
theorem stocked {all : List Bytes} (h : Interchanged U K contents s₀)
    (hw : Stocked U policy s₀ id all s) (hflag : s.Flagged K) (hall : all.flatten = data) :
    Interchanged U K (Function.update contents id data) s := by
  obtain ⟨l, sₙ, hs, hpres, c, hc, hl, hp⟩ := hw.stocked
  refine ⟨hflag, hw.stock, fun id' c' hc' => ?_⟩
  by_cases hid : id' = id
  · subst hid
    obtain rfl : c = c' := Option.some.inj (hc.symm.trans hc')
    refine ⟨all, ?_, by rw [hall, Function.update_self]⟩
    rw [hl, hp]
    exact hs.reads.imp fun _ _ hx => hx.preserve hpres
  · rw [hw.others id' hid] at hc'
    obtain ⟨chs, hread, hflat⟩ := h.kept id' c' hc'
    refine ⟨chs, hread.imp fun _ _ hx => hx.preserve (hs.preserves.trans hpres), ?_⟩
    rw [Function.update_of_ne hid]
    exact hflat

/-- **One write**, through either pipeline. -/
theorem write {w : Writer} (hx : P.XtsInverse) (hU : P.NoCollision U)
    (henv : ∀ km, env = .ok km → km.derive = K) (h : Interchanged U K contents s)
    (hin : w.Hashes P U data policy) (hf : w.Fits data policy s)
    (hw : w.write env id data policy s = (.ok id, s')) :
    Interchanged U K (Function.update contents id data) s' := by
  have hstep : s' = (w.step env id data policy).exec s := by
    rw [← Writer.write_snd, hw]
  cases w with
  | native kind =>
      have hflag : s'.Flagged K := by
        rw [hstep]
        cases kind with
        | sync => exact WriteStep.exec_flagged hx h.flagged trivial WritePipeline.not_wrapsKeys_none
        | async => exact WriteStep.exec_flagged hx h.flagged trivial trivial
      exact h.stocked (WriteKind.stocks hU h.stock h.flagged.packed hin.2 hf hw) hflag
        (chunks_flatten SEGMENT_SIZE_pos data)
  | modular =>
      have hflag : s'.Flagged K := by
        rw [hstep]
        exact WriteStep.exec_flagged hx h.flagged henv (hf.fits h.stock)
      obtain ⟨hres, hstate⟩ := Prod.mk.inj hw
      obtain ⟨⟨zones, hz⟩, hs⟩ := wp_run
        (@Pipeline.wp_writeCapsule_stocks _ _ _ _ env id data h.stock hin.2 hf) id hres
      rw [hstate] at hs
      exact h.stocked hs hflag (plannedChunks_flatten hz hin.1)

theorem run {km : Option (KeyManager P)} (hx : P.XtsInverse) (hU : P.NoCollision U)
    (hkm : ∀ km', km = some km' → km'.derive = K) (henv : ∀ km', env = .ok km' → km'.derive = K)
    (h : WriterRun env km (Writer.Suits U) contents s) : Interchanged U K contents s := by
  induction h with
  | start =>
      refine ⟨writeRun_flagged hx (.start km hkm), ⟨fun x t ht => ?_, fun x t ht => ?_,
        fun hash x hc => ?_⟩, fun id c hc => ?_⟩
      · cases ht
      · cases ht
      · cases hc
      · cases hc
  | write w id data policy _ ha hw ih => exact ih.write hx hU henv ha.1 ha.2 hw

end Interchanged

/-- Both pipelines read the data. -/
def Store.BothRead (env : Except EncryptionError (KeyManager P)) (s : Store P) (id : CapsuleId)
    (data : Bytes) : Prop :=
  ((WritePipeline.readCapsule P id).run StoreOp.exec s).1 = .ok data ∧
    ((Pipeline.readCapsule id).run (ModularOp.execRegistry (registryPipelineFromBackend env))
      (s, .none)).1 = .ok data

/-- **Either pipeline reads what either has written**, where every write suits both readers. -/
theorem interchange_read {env : Except EncryptionError (KeyManager P)} {km : Option (KeyManager P)}
    {contents : CapsuleId → Bytes} (hx : P.XtsInverse) (hU : P.NoCollision U)
    (hkm : ∀ km', km = some km' → km'.derive = K) (henv : ∀ km', env = .ok km' → km'.derive = K)
    (h : WriterRun env km (Writer.Suits U) contents s) {id : CapsuleId} {c : Capsule}
    (hc : s.cap id = some c) :
    s.BothRead env id (contents id) := by
  obtain ⟨chs, hback, hflat⟩ := (Interchanged.run hx hU hkm henv h).kept id c hc
  rw [← hflat]
  refine ⟨?_, Pipeline.readCapsule_back hc hback⟩
  have hread := WritePipeline.readCapsule_yields [] (w := (⟨s, .empty⟩ : World P)) hc
    (hback.imp fun _ _ hx => hx.yields)
  rw [(World.run_store [] (WritePipeline.readCapsule P id) (⟨s, .empty⟩ : World P)).1] at hread
  exact hread

/-! ### Three writes -/

/-- The store after a write of the default policy. -/
def interchangeSample (w : Writer) (id : Nat) (data : Bytes) (s : Store .stored) :
    Store .stored := (w.write (.ok storedKeys) ⟨id⟩ data {} s).2

/-- Eight bytes, which no decoder takes for a frame. -/
def eightBytes : Bytes := unframed ++ [8]

/-- Eight bytes through the native pipeline. -/
def interchangeNative : Store .stored :=
  interchangeSample (.native .sync) 0 eightBytes (.empty (some storedKeys))

/-- Seven of them through the handle. -/
def interchangeHandle : Store .stored := interchangeSample .modular 1 unframed interchangeNative

/-- The same seven, asynchronously: their segment is known. -/
def interchangeAsync : Store .stored :=
  interchangeSample (.native (.async 8 .asGiven)) 2 unframed interchangeHandle

theorem writerHashes {w : Writer} {data : Bytes} {U : Set Bytes} (hlen : data.length ≤ usizeMax)
    (hchunks : w.chunks data {} = [data]) (hmem : data ∈ U)
    (hview : viewOf .stored ({} : Policy).compression data = some data) :
    w.Hashes .stored U data {} := by
  refine ⟨hlen, fun chunk hc view hv => ?_⟩
  rw [hchunks] at hc
  obtain rfl := List.mem_singleton.mp hc
  exact Option.some.inj (hview.symm.trans hv) ▸ hmem

theorem viewOf_unframed : viewOf .stored ({} : Policy).compression unframed = some unframed := by
  decide +kernel

theorem readsRaw_unframed : ({} : Policy).ReadsRaw .stored unframed := fun _ _ _ _ => by
  decide +kernel

/-- Nothing is stored yet. -/
theorem fits_interchangeNative :
    (Writer.native .sync).Fits eightBytes {} (.empty (P := .stored) (some storedKeys)) := by
  have hraw : ({} : Policy).ReadsRaw .stored eightBytes := fun _ _ _ _ => by decide +kernel
  have hchunks : (Writer.native .sync).chunks eightBytes {} = [eightBytes] := by decide +kernel
  show NativeFits _ _ _
  rw [hchunks]
  refine ⟨fun chunk hc => List.mem_singleton.mp hc ▸ hraw, fun _ _ hkey => absurd rfl hkey,
    fun _ _ _ _ _ _ _ hx => by cases hx⟩

/-- The seven bytes go where the eight are. -/
theorem fits_interchangeHandle : Writer.modular.Fits unframed {} interchangeNative := by
  have hplanned : Writer.modular.chunks unframed {} = [unframed] := by decide +kernel
  have hkeys : interchangeNative.nvram.segmentMap.keys = [⟨0⟩] := by decide +kernel
  have hext : (interchangeNative.seg ⟨0⟩).map (fun t => (t.offset, t.len)) = some (0, 8) := by
    decide +kernel
  have hfile : interchangeNative.nvram.file = eightBytes := by decide +kernel
  have hview : ∀ chunk ∈ [unframed], ∀ view, viewOf .stored ({} : Policy).compression chunk =
      some view → view = unframed := fun chunk hc view hv => by
    obtain rfl := List.mem_singleton.mp hc
    exact Option.some.inj (hv.symm.trans viewOf_unframed)
  show ModularFits _ _ _
  rw [hplanned]
  refine ⟨fun he => absurd he (by decide),
    fun chunk hc => List.mem_singleton.mp hc ▸ readsRaw_unframed,
    fun chunk hc view hv => ?_, fun chunk hc view hv x t hx => ?_,
    fun chunk hc chunk' hc' view view' hv hv' => ?_⟩
  · rw [hview chunk hc view hv]
    decide
  · have hmem : x ∈ interchangeNative.nvram.segmentMap.keys :=
      AList.lookup_isSome.mp (Option.isSome_of_eq_some hx)
    rw [hkeys] at hmem
    obtain rfl := List.mem_singleton.mp hmem
    rw [hx, Option.map_some, Option.some.injEq, Prod.mk.injEq] at hext
    rw [hview chunk hc view hv, hfile, hext.1, hext.2]
    decide
  · rw [hview chunk hc view hv, hview chunk' hc' view' hv']
    decide

/-- The segment of the handle has the seven bytes, and says so. -/
theorem fits_interchangeAsync :
    (Writer.native (.async 8 .asGiven)).Fits unframed {} interchangeHandle := by
  have hchunks : (Writer.native (.async 8 .asGiven)).chunks unframed {} = [unframed] := by
    decide +kernel
  have hknown : interchangeHandle.content (hashContent .stored unframed) = some ⟨1⟩ := by
    decide +kernel
  have hdecoded : (interchangeHandle.seg ⟨1⟩).map (fun t => t.decoded .stored unframed) =
      some (.ok unframed) := by decide +kernel
  show NativeFits _ _ _
  rw [hchunks]
  refine ⟨fun chunk hc => List.mem_singleton.mp hc ▸ readsRaw_unframed,
    fun _ _ hkey => absurd rfl hkey,
    fun _ chunk hc view hv x t hx ht => ?_⟩
  obtain rfl := List.mem_singleton.mp hc
  obtain rfl := Option.some.inj (viewOf_unframed.symm.trans hv)
  obtain rfl := Option.some.inj (hknown.symm.trans hx)
  rw [ht, Option.map_some] at hdecoded
  exact Option.some.inj hdecoded

/-- Three writes that suit both readers, one after the other. -/
theorem interchange_run : WriterRun (.ok storedKeys) (some storedKeys)
    (Writer.Suits {eightBytes, unframed})
    (Function.update (Function.update (Function.update (fun _ => []) ⟨0⟩ eightBytes) ⟨1⟩ unframed)
      ⟨2⟩ unframed) interchangeAsync := by
  have h₀ : WriterRun (.ok storedKeys) (some storedKeys) (Writer.Suits {eightBytes, unframed})
      (fun _ => []) (.empty (some storedKeys)) := .start
  have h₁ : WriterRun _ _ _ _ interchangeNative := h₀.write (.native .sync) ⟨0⟩ eightBytes {}
    ⟨writerHashes (by decide) (by decide +kernel) (.inl rfl) (by decide +kernel),
      fits_interchangeNative⟩ (Prod.ext (by decide +kernel) rfl)
  have h₂ : WriterRun _ _ _ _ interchangeHandle := h₁.write .modular ⟨1⟩ unframed {}
    ⟨writerHashes (by decide) (by decide +kernel) (.inr rfl) viewOf_unframed,
      fits_interchangeHandle⟩ (Prod.ext (by decide +kernel) rfl)
  exact h₂.write (.native (.async 8 .asGiven)) ⟨2⟩ unframed {}
    ⟨writerHashes (by decide) (by decide +kernel) (.inr rfl) viewOf_unframed, fits_interchangeAsync⟩
    (Prod.ext (by decide +kernel) rfl)

/-- All three capsules, of which the last two share a segment. -/
theorem interchange_read_sample :
    interchangeAsync.BothRead (.ok storedKeys) ⟨0⟩ eightBytes ∧
      interchangeAsync.BothRead (.ok storedKeys) ⟨1⟩ unframed ∧
      interchangeAsync.BothRead (.ok storedKeys) ⟨2⟩ unframed := by
  have hU : Primitives.stored.NoCollision {eightBytes, unframed} := by
    rintro x (rfl | rfl) y (rfl | rfl) h
    · rfl
    · exact absurd h (by decide +kernel)
    · exact absurd h (by decide +kernel)
    · rfl
  have hread : ∀ id c, interchangeAsync.cap id = some c →
      interchangeAsync.BothRead (.ok storedKeys) id
        (Function.update (Function.update (Function.update (fun _ => []) ⟨0⟩ eightBytes) ⟨1⟩
          unframed) ⟨2⟩ unframed id) := fun id c hc =>
    interchange_read (K := storedKeys.derive) Primitives.stored_xts hU
      (fun km h => by cases h; rfl) (fun km h => by cases h; rfl) interchange_run hc
  exact ⟨hread ⟨0⟩ _ rfl, hread ⟨1⟩ _ rfl, hread ⟨2⟩ _ rfl⟩

/-- **The handle writes over what the native pipeline has stored**: seven bytes each. -/
theorem not_interchange_read :
    ¬ ∀ (P : Primitives) (U : Set Bytes) (K : UInt32 → XtsKeyPair)
      (env : Except EncryptionError (KeyManager P)) (km : Option (KeyManager P))
      (contents : CapsuleId → Bytes) (s : Store P), P.CodecsInverse → P.XtsInverse →
      P.NoCollision U → (∀ km', km = some km' → km'.derive = K) →
      (∀ km', env = .ok km' → km'.derive = K) →
      WriterRun env km (fun w data policy _ => w.Hashes P U data policy) contents s →
      ∀ id c, s.cap id = some c → s.BothRead env id (contents id) := by
  intro h
  have hchunks : (Writer.native .sync).chunks unframed {} = [unframed] := by decide +kernel
  have hplanned : Writer.modular.chunks [2, 3, 4, 5, 6, 7, 8] {} = [[2, 3, 4, 5, 6, 7, 8]] := by
    decide +kernel
  have hU : Primitives.stored.NoCollision {unframed, [2, 3, 4, 5, 6, 7, 8]} := by
    rintro x (rfl | rfl) y (rfl | rfl) h
    · rfl
    · exact absurd h (by decide +kernel)
    · exact absurd h (by decide +kernel)
    · rfl
  have h₀ : WriterRun (.ok storedKeys) (some storedKeys)
      (fun w data policy _ => w.Hashes .stored {unframed, [2, 3, 4, 5, 6, 7, 8]} data policy)
      (fun _ => []) (.empty (some storedKeys)) := .start
  have h₁ := h₀.write (.native .sync) ⟨0⟩ unframed {}
    (writerHashes (by decide) hchunks (.inl rfl) (by decide +kernel))
    (Prod.ext (by decide +kernel) rfl)
  have h₂ := h₁.write .modular ⟨1⟩ [2, 3, 4, 5, 6, 7, 8] {}
    (writerHashes (by decide) hplanned (.inr rfl) (by decide +kernel))
    (Prod.ext (by decide +kernel) rfl)
  have hread := h .stored {unframed, [2, 3, 4, 5, 6, 7, 8]} storedKeys.derive (.ok storedKeys)
    (some storedKeys) _ _
    Primitives.stored_codecs Primitives.stored_xts hU (fun km h => by cases h; rfl)
    (fun km h => by cases h; rfl) h₂ ⟨0⟩ _ rfl
  have hbytes := hread.1
  revert hbytes
  decide +kernel

end Space

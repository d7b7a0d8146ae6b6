import Space.Layout.Partition
import Space.Modular.Accounting
import Space.Modular.Collect
import Space.Modular.Reading
import Space.Support.Lists

/-!
# Modular — ReadBack

What the in-memory pipeline gives back.  A segment is found by the hash of its view, and read as the
first chunk that had this view was compressed; so a chunk with the same view that was compressed in
another way, or not at all, reads back as that first chunk.

* `Gives`: a segment and the chunk it reads back as.  `Shrinks` is what deletes and collections do,
  and keeps it.
* `wp_writeCapsule_gives`: a write, if each of its chunks is what the segment with its view gives
  (`Recoverable`).
* `readBack`: in every run of such writes, deletes and collections, a live capsule reads back.
* `not_readBack`: the frame of a compressed capsule, written as it is, does not.
-/

namespace Space
open Support Prog

variable {P : Primitives} {U : Set Bytes} {demand : SegmentId → Nat} {s s' u : InMemory}
  {x y : SegmentId} {chunk : Bytes} {contents : CapsuleId → Bytes}

/-! ### What a segment gives -/

/-- What the payload of a segment reads as, where it is not encrypted. -/
def Segment.decoded (P : Primitives) (segment : Segment) (raw : Bytes) : Except Error Bytes :=
  if segment.compressed then Lz4ZstdCompressor.decompress P raw segment.compressionAlgo
  else .ok raw

/-- The segment reads back as the chunk. -/
def InMemory.Gives (P : Primitives) (s : InMemory) (x : SegmentId) (chunk : Bytes) : Prop :=
  ∃ raw segment, s.seg x = some raw ∧ s.info x = some segment ∧
    segment.decoded P raw = .ok chunk

namespace InMemory

/-- Decrypting does nothing here. -/
theorem segmentData_inMemory (policy : Policy) (x : SegmentId) (segment : Segment) (raw : Bytes) :
    (Parts.inMemory P).segmentData policy x segment raw = segment.decoded P raw := by
  rw [Parts.segmentData]
  cases segment.encrypted <;> rfl

theorem Gives.readSegment (h : s.Gives P x chunk) (policy : Policy) :
    shelf.readSegment (.inMemory P) policy x s = .ok chunk := by
  obtain ⟨raw, segment, hraw, hm, hd⟩ := h
  have hraw : s.1.segments.lookup x = some raw := hraw
  have hread : shelf.raw x s = .ok raw := by
    simp only [shelf, InMemoryBackend.storage, hraw]
  have hinfo : shelf.info x s = .ok segment := storage_metadata hm
  rw [Shelf.readSegment, hinfo, hread]
  exact (segmentData_inMemory policy x segment raw).trans hd

/-- **The segments of a capsule**, one after the other. -/
theorem readSegments_gives {l : List SegmentId} {chunks : List Bytes}
    (h : List.Forall₂ (s.Gives P) l chunks) (policy : Policy) (output : Bytes) :
    shelf.readSegments (.inMemory P) policy l output s = .ok (output ++ chunks.flatten) := by
  induction h generalizing output with
  | nil => rw [List.flatten_nil, List.append_nil]; rfl
  | @cons x chunk l chunks hx _ ih =>
      rw [Shelf.readSegments, List.foldlM_cons, hx.readSegment, List.flatten_cons,
        ← List.append_assoc]
      exact ih (output ++ chunk)

/-- To a reader that cannot tell the segment from what it was. -/
theorem Reads.gives (h : s.Reads x u) (hg : s.Gives P x chunk) : u.Gives P x chunk := by
  obtain ⟨hseg, segment, n, b, hs, hu⟩ := h
  obtain ⟨raw, m, hraw, hm, hd⟩ := hg
  rw [hs] at hm
  cases hm
  exact ⟨raw, _, hseg.trans hraw, hu, hd⟩

/-- The segment gives one chunk. -/
theorem Gives.decoded {raw : Bytes} {segment : Segment} (h : s.Gives P x chunk)
    (hraw : s.seg x = some raw) (hm : s.info x = some segment) :
    segment.decoded P raw = .ok chunk := by
  obtain ⟨raw', segment', hraw', hm', hd⟩ := h
  rw [hraw] at hraw'
  rw [hm] at hm'
  cases hraw'
  cases hm'
  exact hd

/-- A segment whose count alone may have changed. -/
theorem Updated.reads {m : Segment} {n : Nat} (hu : s.Updated x (m.withRefCount n) s')
    (hm : s.info x = some m) (hy : (s.info y).isSome) : s.Reads y s' := by
  refine ⟨congrFun hu.seg y, ?_⟩
  rw [hu.info]
  by_cases hyx : y = x
  · subst hyx
    exact ⟨m, n, decide (1 < n), hm, Function.update_self ..⟩
  · rw [Function.update_of_ne hyx]
    obtain ⟨m', hm'⟩ := Option.isSome_iff_exists.mp hy
    exact ⟨m', m'.refCount, m'.deduplicated, hm', hm'⟩

/-- Every other segment is as it was when one is stored under a new identifier. -/
theorem Entered.gives {payload : Bytes} {m : Segment} (he : s.Entered payload m s')
    (hx : x.val < s.2.nextSegment) (hg : s.Gives P x chunk) : s'.Gives P x chunk := by
  have hne : x ≠ ⟨s.2.nextSegment⟩ := by
    rintro rfl
    exact Nat.lt_irrefl _ hx
  rw [Gives, he.seg, he.info, Function.update_of_ne hne, Function.update_of_ne hne]
  exact hg

theorem Gives.isSome (h : s.Gives P x chunk) : (s.info x).isSome := by
  obtain ⟨-, m, -, hm, -⟩ := h
  exact Option.isSome_of_eq_some hm

/-! ### Less than before -/

/-- What is still there is the same to a reader. -/
structure Shrinks (s s' : InMemory) : Prop where
  reads : ∀ x, (s'.info x).isSome → s.Reads x s'
  content : ∀ hash x, s'.content hash = some x → s.content hash = some x
  capsules : ∀ id c, s'.2.capsules.lookup id = some c → s.2.capsules.lookup id = some c

namespace Shrinks

theorem refl (s : InMemory) : s.Shrinks s where
  reads := fun x hx => by
    obtain ⟨m, hm⟩ := Option.isSome_iff_exists.mp hx
    exact ⟨rfl, m, m.refCount, m.deduplicated, hm, hm⟩
  content := fun _ _ h => h
  capsules := fun _ _ h => h

theorem trans (h : s.Shrinks s') (h' : s'.Shrinks u) : s.Shrinks u where
  reads := fun x hx => by
    obtain ⟨hseg', m', n', b', hm', hu⟩ := h'.reads x hx
    obtain ⟨hseg, m, n, b, hm, hs'⟩ := h.reads x (Option.isSome_of_eq_some hm')
    rw [hs'] at hm'
    cases hm'
    exact ⟨hseg'.trans hseg, m, n', b', hm, hu⟩
  content := fun hash x hx => h.content hash x (h'.content hash x hx)
  capsules := fun id c hc => h.capsules id c (h'.capsules id c hc)

/-- The same segments, under fewer capsules and entries. -/
theorem of_catalog (hseg : s'.seg = s.seg) (hinfo : s'.info = s.info)
    (hcontent : ∀ hash x, s'.content hash = some x → s.content hash = some x)
    (hcap : ∀ id c, s'.2.capsules.lookup id = some c → s.2.capsules.lookup id = some c) :
    s.Shrinks s' where
  reads := fun x hx => by
    have hr := (refl s).reads x (hinfo ▸ hx)
    rw [Reads] at hr ⊢
    rw [hseg, hinfo]
    exact hr
  content := hcontent
  capsules := hcap

/-- A segment gets another count. -/
theorem updated {m : Segment} {n : Nat} (hm : s.info x = some m)
    (hu : s.Updated x (m.withRefCount n) s') : s.Shrinks s' where
  reads := fun y hy => by
    refine hu.reads hm ?_
    by_cases hyx : y = x
    · rw [hyx, hm]
      rfl
    · rwa [hu.info, Function.update_of_ne hyx] at hy
  content := fun hash y hy => by
    rw [InMemory.content, hu.cat] at hy
    exact hy
  capsules := fun id c hc => by
    rw [hu.cat] at hc
    exact hc

/-- A segment goes. -/
theorem deleted (hseg : s'.seg = Function.update s.seg x none)
    (hinfo : s'.info = Function.update s.info x none) (hcat : s'.2 = s.2) : s.Shrinks s' where
  reads := fun y hy => by
    rw [hinfo] at hy
    by_cases hyx : y = x
    · subst hyx
      rw [Function.update_self] at hy
      cases hy
    · rw [Function.update_of_ne hyx] at hy
      rw [Reads, hseg, hinfo, Function.update_of_ne hyx, Function.update_of_ne hyx]
      exact (refl s).reads y hy
  content := fun hash y hy => by
    rw [InMemory.content, hcat] at hy
    exact hy
  capsules := fun id c hc => by
    rw [hcat] at hc
    exact hc

end Shrinks

end InMemory

namespace Pipeline
open Space.Modular

/-- **A reference is taken back**, or the segment goes. -/
theorem wp_releaseSegment_shrinks (x : SegmentId) :
    Settles (releaseSegment x) (fun _ s' => s.Shrinks s') s := by
  cases hm : s.info x with
  | none =>
      refine wp_bind.mpr (ends_answer (.metadata x) (exec_metadata_none hm) (fun _ => ?_)
        fun hF => hF.elim)
      exact .refl s
  | some m =>
      refine wp_bind.mpr (ends_answer (.metadata x) (exec_metadata hm) (fun _ => ?_)
        fun hF => hF.elim)
      refine andThen_ok.mpr ?_
      split
      · exact wp_updateMetadata (fun s' hu => .updated hm hu) fun h => h.elim fun _ hF => hF.elim
      · refine wp_bind.mpr (ends_perform (.delete x) ?_ fun hF => hF.elim)
        intro parts _
        set backend : InMemoryBackend :=
          { s.1 with segments := s.1.segments.erase x, metadata := s.1.metadata.erase x }
        have hdeleted : s.Shrinks (backend, s.2) := by
          refine .deleted (x := x) (funext fun y => ?_) (funext fun y => ?_) rfl
          · rw [Function.update_apply]
            exact Table.lookup_erase ..
          · rw [Function.update_apply]
            exact Table.lookup_erase ..
        refine andThen_ok.mpr ?_
        cases m.contentHash with
        | none => exact hdeleted
        | some hash =>
            refine wp_discard.mpr (ends_perform (.deregisterContent hash x) ?_ fun hF => hF.elim)
            intro parts _
            refine hdeleted.trans (.of_catalog rfl rfl (fun hash' y hy => ?_) fun id c hc => ?_)
            · exact ((content_deregister s.2 hash hash' y).mp hy).1
            · exact (capsules_deregister (x := x) s.2 hash).1 ▸ hc

/-- A delete that is at its end takes the capsule out, and leaves the entries. -/
theorem catalog_deleteCapsule (cat : InMemoryCatalog) (id : CapsuleId) :
    (cat.deleteCapsule id).2.content = cat.content ∧
      ∀ id' c, (cat.deleteCapsule id).2.capsules.lookup id' = some c →
        cat.capsules.lookup id' = some c := by
  rw [InMemoryCatalog.deleteCapsule]
  cases cat.capsules.lookup id with
  | none => exact ⟨rfl, fun _ _ h => h⟩
  | some capsule => exact ⟨rfl, fun _ _ h => (Table.lookup_erase_eq_some.mp h).2⟩

theorem wp_deleteCapsule_shrinks (id : CapsuleId) :
    Settles (deleteCapsule id) (fun _ s' => s.Shrinks s') s := by
  refine wp_bind.mpr (ends_answer (.lookupCapsule id) (r := s.2.lookupCapsule id) (fun _ => rfl)
    (fun _ => ?_) fun hF => hF.elim)
  cases s.2.lookupCapsule id with
  | error e => exact .refl s
  | ok capsule =>
      refine wp_bind.mpr (wp_foldlM (fun _ _ s₁ => s.Shrinks s₁) ?_ ?_ _ _ _ (.refl s))
      · intro x rest _ s₁ h
        refine wp_mono (wp_releaseSegment_shrinks x) fun r s₂ h₂ => ?_
        cases r <;> exact h.trans h₂
      · intro _ s₁ h
        refine wp_discard.mpr (ends_perform (.deleteCapsule id) ?_ fun hF => hF.elim)
        intro parts _
        obtain ⟨hcontent, hcap⟩ := catalog_deleteCapsule s₁.2 id
        refine h.trans (.of_catalog rfl rfl (fun hash y hy => ?_) hcap)
        exact (congrArg (fun m => AList.lookup hash m) hcontent).symm.trans hy

/-- What a collection leaves. -/
theorem Collected.shrinks (hc : Collected s s') : s.Shrinks s' where
  reads := fun x hx => by
    have hlists : s.Lists x := by
      by_contra hno
      rw [(hc.gone x hno).2] at hx
      cases hx
    have hr := (InMemory.Shrinks.refl s).reads x (hc.info x hlists ▸ hx)
    rw [InMemory.Reads] at hr ⊢
    rw [hc.seg x hlists, hc.info x hlists]
    exact hr
  content := fun hash x hx => ((hc.content hash x).mp hx).1
  capsules := fun id c h => hc.capsules ▸ h

end Pipeline

/-! ### What is asked of a write -/

/-- The view of a chunk, if it can be compressed. -/
def viewOf (P : Primitives) (policy : CompressionPolicy) (chunk : Bytes) : Option Bytes :=
  (Lz4ZstdCompressor.compress P chunk policy).toOption.map Prod.fst

/-- The chunks can be stored so that each reads back: a chunk that has the view of a segment is what
this segment gives, or of another chunk the same chunk; and the references can be counted. -/
structure Recoverable (P : Primitives) (policy : CompressionPolicy) (l : List Bytes)
    (s : InMemory) : Prop where
  known : ∀ chunk ∈ l, ∀ view, viewOf P policy chunk = some view →
    ∀ x, s.content (hashContent P view) = some x → s.Gives P x chunk
  same : ∀ chunk ∈ l, ∀ chunk' ∈ l, ∀ view, viewOf P policy chunk = some view →
    viewOf P policy chunk' = some view → chunk = chunk'
  counted : ∀ chunk ∈ l, ∀ view, viewOf P policy chunk = some view →
    (s.content (hashContent P view)).elim 0 s.refs + l.count chunk ≤ u32Max

/-- Every view of the chunks is in `U`. -/
def ViewsIn (P : Primitives) (U : Set Bytes) (policy : CompressionPolicy) (l : List Bytes) : Prop :=
  ∀ chunk ∈ l, ∀ view, viewOf P policy chunk = some view → view ∈ U

theorem viewOf_eq {policy : CompressionPolicy} {view : Bytes} {summary : CompressionSummary}
    (h : Lz4ZstdCompressor.compress P chunk policy = .ok (view, summary)) :
    viewOf P policy chunk = some view := by
  rw [viewOf, h]
  rfl

/-- **The recipe of a new segment** is the one its chunk was compressed by. -/
theorem decoded_new {policy : CompressionPolicy} {view : Bytes} {summary : CompressionSummary}
    (h : Lz4ZstdCompressor.compress P chunk policy = .ok (view, summary)) (x : SegmentId)
    (hash : ContentHash) (report : EncryptionSummary) (encrypted : Bool) :
    (Segment.new x view summary hash report encrypted).decoded P view = .ok chunk := by
  obtain ⟨c, r, hcow, rfl, -, hcomp, halgo⟩ := Lz4ZstdCompressor.compress_ok h
  show (if summary.compressed then Lz4ZstdCompressor.decompress P c.view summary.algorithm
    else .ok c.view) = .ok chunk
  rw [hcomp, halgo]
  rcases adaptiveCompressCow_cases hcow with ⟨-, rfl, hraw, -⟩ |
    ⟨compressed, -, rfl, -, hyes, -, -, hd, -⟩
  · rw [hraw, if_neg Bool.false_ne_true]
    rfl
  · rw [hyes, if_pos rfl]
    exact hd

/-! ### A write between two of its chunks -/

/-- The entries of the catalog name payloads of `U` with their hash. -/
def Catalogued (P : Primitives) (U : Set Bytes) (s : InMemory) : Prop :=
  ∀ hash x, s.content hash = some x → ∃ raw ∈ U, s.seg x = some raw ∧ hashContent P raw = hash

/-- A write that has stored the chunks in `done`. -/
structure Filling (P : Primitives) (U : Set Bytes) (s₀ : InMemory) (l : List SegmentId)
    (done : List Bytes) (s : InMemory) : Prop where
  owes : Owes l s
  catalogued : Catalogued P U s
  gives : List.Forall₂ (s.Gives P) l done
  keeps : ∀ x chunk, s₀.Gives P x chunk → s.Gives P x chunk
  capsules : s.2.capsules = s₀.2.capsules

namespace Filling
variable {s₀ : InMemory} {l : List SegmentId} {done rest : List Bytes} {view : Bytes}
  {policy : CompressionPolicy}

theorem start (ho : Owes [] s) (hc : Catalogued P U s) : Filling P U s [] [] s where
  owes := ho
  catalogued := hc
  gives := .nil
  keeps := fun _ _ h => h
  capsules := rfl

/-- **A dedup hit** on a segment that gives the chunk. -/
theorem hit {m : Segment} (h : Filling P U s₀ l done s) (hg : s.Gives P x chunk)
    (hm : s.info x = some m) (hu : s.Updated x (m.withRefCount (m.refCount + 1)) s') :
    Filling P U s₀ (l ++ [x]) (done ++ [chunk]) s' := by
  have hread : ∀ y chunk', s.Gives P y chunk' → s'.Gives P y chunk' := fun _ _ hy =>
    (hu.reads hm hy.isSome).gives hy
  refine ⟨h.owes.share hm hu, fun hash y hy => ?_, ?_, fun y chunk' hy => ?_, ?_⟩
  · rw [InMemory.content, hu.cat] at hy
    rw [hu.seg]
    exact h.catalogued hash y hy
  · exact forall₂_snoc (h.gives.imp fun _ _ => hread _ _) (hread x chunk hg)
  · exact hread y chunk' (h.keeps y chunk' hy)
  · rw [hu.cat]
    exact h.capsules

/-- **A new segment**, registered under the hash of its view. -/
theorem stored {m : Segment} {s₁ : InMemory} (h : Filling P U s₀ l done s) (hv : view ∈ U)
    (he : s.Entered view m s₁) (hcount : m.refCount = 1)
    (hhash : m.contentHash = some (hashContent P view)) (hd : m.decoded P view = .ok chunk)
    (hs' : s' = (s₁.1, s₁.2.registerContent (hashContent P view) ⟨s.2.nextSegment⟩)) :
    Filling P U s₀ (l ++ [⟨s.2.nextSegment⟩]) (done ++ [chunk]) s' := by
  subst hs'
  have hinfo : s₁.info ⟨s.2.nextSegment⟩ = some m := by
    rw [he.info]
    exact Function.update_self ..
  have hseg : s₁.seg ⟨s.2.nextSegment⟩ = some view := by
    rw [he.seg]
    exact Function.update_self ..
  have hread : ∀ y chunk', s.Gives P y chunk' → s₁.Gives P y chunk' := by
    intro y chunk' hy
    obtain ⟨m', hm'⟩ := Option.isSome_iff_exists.mp hy.isSome
    exact he.gives (h.owes.fresh y m' hm') hy
  have hnew : s₁.Gives P ⟨s.2.nextSegment⟩ chunk := ⟨view, m, hseg, hinfo, hd⟩
  refine ⟨Covered.register (h.owes.enter he hcount) hinfo hhash, fun hash y hy => ?_, ?_,
    fun y chunk' hy => ?_, ?_⟩
  · rcases Table.lookup_insert_eq_some.mp hy with ⟨rfl, rfl⟩ | ⟨-, hy⟩
    · exact ⟨view, hv, hseg, rfl⟩
    · rw [he.cat] at hy
      obtain ⟨raw, hraw, hy', hh⟩ := h.catalogued hash y hy
      obtain ⟨m', hm', -⟩ := h.owes.content hash y hy
      have hne : y ≠ ⟨s.2.nextSegment⟩ := by
        rintro rfl
        exact Nat.lt_irrefl _ (h.owes.fresh _ m' hm')
      refine ⟨raw, hraw, ?_, hh⟩
      show s₁.seg y = some raw
      rw [he.seg, Function.update_of_ne hne, hy']
  · exact forall₂_snoc (h.gives.imp fun _ _ => hread _ _) hnew
  · exact hread y chunk' (h.keeps y chunk' hy)
  · show s₁.2.capsules = _
    rw [he.cat]
    exact h.capsules

end Filling

namespace Recoverable
variable {policy : CompressionPolicy} {rest : List Bytes} {view : Bytes} {m : Segment}

/-- **The rest of a write**, after a chunk whose segment has one reference more. -/
theorem tail (h : Recoverable P policy (chunk :: rest) s) (hU : P.NoCollision U)
    (hin : ViewsIn P U policy (chunk :: rest)) (hv : viewOf P policy chunk = some view)
    (hx : s'.content (hashContent P view) = some x) (hg : s'.Gives P x chunk)
    (hrefs : s'.refs x = (s.content (hashContent P view)).elim 0 s.refs + 1)
    (hother : ∀ hash, hash ≠ hashContent P view → s'.content hash = s.content hash ∧
      ∀ y, s.content hash = some y →
        (∀ chunk', s.Gives P y chunk' → s'.Gives P y chunk') ∧ s'.refs y = s.refs y) :
    Recoverable P policy rest s' := by
  have hsame : ∀ chunk' ∈ rest, ∀ view', viewOf P policy chunk' = some view' →
      hashContent P view' = hashContent P view → chunk' = chunk := by
    intro chunk' hc view' hv' he
    have hmem := List.mem_cons_of_mem chunk hc
    obtain rfl := hashContent_inj hU (hin chunk' hmem view' hv')
      (hin chunk List.mem_cons_self view hv) he
    exact h.same chunk' hmem chunk List.mem_cons_self view' hv' hv
  refine ⟨fun chunk' hc view' hv' y hy => ?_, fun c₁ h₁ c₂ h₂ => ?_, fun chunk' hc view' hv' => ?_⟩
  · by_cases he : hashContent P view' = hashContent P view
    · rw [he, hx] at hy
      cases hy
      exact hsame chunk' hc view' hv' he ▸ hg
    · obtain ⟨hcontent, hkeep⟩ := hother _ he
      rw [hcontent] at hy
      exact (hkeep y hy).1 chunk' (h.known chunk' (List.mem_cons_of_mem _ hc) view' hv' y hy)
  · exact h.same c₁ (List.mem_cons_of_mem _ h₁) c₂ (List.mem_cons_of_mem _ h₂)
  · have hle := h.counted chunk' (List.mem_cons_of_mem _ hc) view' hv'
    by_cases he : hashContent P view' = hashContent P view
    · obtain rfl := hsame chunk' hc view' hv' he
      rw [he, List.count_cons_self] at hle
      rw [he, hx]
      show s'.refs x + _ ≤ _
      omega
    · obtain ⟨hcontent, hkeep⟩ := hother _ he
      have hcount : rest.count chunk' ≤ (chunk :: rest).count chunk' := List.count_le_count_cons
      have helim : (s.content (hashContent P view')).elim 0 s'.refs =
          (s.content (hashContent P view')).elim 0 s.refs := by
        cases hy : s.content (hashContent P view') with
        | none => rfl
        | some y => exact (hkeep y hy).2
      rw [hcontent, helim]
      exact (Nat.add_le_add_left hcount _).trans hle

/-- After a dedup hit. -/
theorem hit (h : Recoverable P policy (chunk :: rest) s) (hU : P.NoCollision U)
    (hin : ViewsIn P U policy (chunk :: rest)) (hv : viewOf P policy chunk = some view)
    (ho : Covered demand s) (hx : s.content (hashContent P view) = some x)
    (hm : s.info x = some m) (hu : s.Updated x (m.withRefCount (m.refCount + 1)) s') :
    Recoverable P policy rest s' := by
  have hcontent : ∀ hash, s'.content hash = s.content hash := by
    intro hash
    rw [InMemory.content, hu.cat]
    rfl
  have hkeep : ∀ y chunk', s.Gives P y chunk' → s'.Gives P y chunk' := fun _ _ hy =>
    (hu.reads hm hy.isSome).gives hy
  refine h.tail hU hin hv ((hcontent _).trans hx) (hkeep x chunk
    (h.known chunk List.mem_cons_self view hv x hx)) ?_ fun hash hne => ⟨hcontent hash, ?_⟩
  · rw [hx, InMemory.refs, hu.info, Function.update_self]
    show m.refCount + 1 = s.refs x + 1
    rw [InMemory.refs, hm]
    rfl
  · intro y hy
    have hyx : y ≠ x := by
      rintro rfl
      exact hne (ho.content_inj hy hx)
    refine ⟨hkeep y, ?_⟩
    rw [InMemory.refs, InMemory.refs, hu.info, Function.update_of_ne hyx]

/-- After a new segment. -/
theorem stored {s₁ : InMemory} (h : Recoverable P policy (chunk :: rest) s)
    (hU : P.NoCollision U) (hin : ViewsIn P U policy (chunk :: rest))
    (hv : viewOf P policy chunk = some view) (ho : Covered demand s)
    (hx : s.content (hashContent P view) = none) (he : s.Entered view m s₁)
    (hcount : m.refCount = 1) (hd : m.decoded P view = .ok chunk)
    (hs' : s' = (s₁.1, s₁.2.registerContent (hashContent P view) ⟨s.2.nextSegment⟩)) :
    Recoverable P policy rest s' := by
  subst hs'
  have hinfo : s₁.info ⟨s.2.nextSegment⟩ = some m := by
    rw [he.info]
    exact Function.update_self ..
  have hseg : s₁.seg ⟨s.2.nextSegment⟩ = some view := by
    rw [he.seg]
    exact Function.update_self ..
  refine h.tail hU hin hv (AList.lookup_insert _) ⟨view, m, hseg, hinfo, hd⟩ ?_ fun hash hne => ?_
  · rw [hx]
    show (s₁.info _).elim 0 Segment.refCount = 0 + 1
    rw [hinfo]
    exact hcount
  · have hcontent : AList.lookup hash (s₁.2.content.insert (hashContent P view)
        ⟨s.2.nextSegment⟩) = s.content hash := by
      rw [AList.lookup_insert_ne hne, he.cat]
      rfl
    refine ⟨hcontent, fun y hy => ?_⟩
    obtain ⟨m', hm', -⟩ := ho.content hash y hy
    have hlt := ho.fresh y m' hm'
    have hne : y ≠ ⟨s.2.nextSegment⟩ := by
      rintro rfl
      exact Nat.lt_irrefl _ hlt
    refine ⟨fun _ hg => he.gives hlt hg, ?_⟩
    show (s₁.info y).elim 0 Segment.refCount = s.refs y
    rw [he.info, Function.update_of_ne hne]
    rfl

end Recoverable

/-! ### The programs -/

namespace Pipeline
open Space.Modular

/-- An operation over the parts of the in-memory pipeline. -/
theorem wp_execOp {parts : Parts} (o : ModularOp) {Q : Except Error o.Res → InMemory → Prop}
    (h : Q (o.exec parts InMemoryBackend.storage s).1
      (o.exec parts InMemoryBackend.storage s).2) :
    (Prog.perform (S := ModularSig) o : Modular o.Res).wp
      (ModularOp.exec parts InMemoryBackend.storage).moves (fun _ _ => True) Q s :=
  wp_perform_moves.mpr ⟨trivial, h⟩

/-- The payload of a view, if the keyring answers. -/
theorem wp_encryptView_inMemory {parts : Parts} {capsuleId : CapsuleId}
    {encryption : EncryptionPolicy} {view : Bytes}
    {Q : Except Error (Bytes × EncryptionSummary) → InMemory → Prop}
    (herr : ∀ e, Q (.error e) s) (h : Q (parts.payload encryption view x) s) :
    (encryptView capsuleId encryption view x).wp
      (ModularOp.exec parts InMemoryBackend.storage).moves (fun _ _ => True) Q s := by
  unfold encryptView
  unfold Parts.payload at h
  split at h
  · next he =>
      rw [if_pos he]
      refine wp_bind.mpr (wp_execOp (.deriveKey capsuleId x) ?_)
      show andThen _ _ _ _ (parts.deriveKey capsuleId x) s
      cases parts.deriveKey capsuleId x with
      | error e => exact herr e
      | ok u => exact wp_execOp (.encrypt view encryption x) h
  · next he =>
      rw [if_neg he]
      exact h

/-- **A view is stored**, or nothing is. -/
theorem wp_storeSegment_inMemory {parts : Parts} {capsuleId : CapsuleId}
    {encryption : EncryptionPolicy} {view : Bytes} {summary : CompressionSummary}
    {hash : ContentHash} {Q : Except Error SegmentId → InMemory → Prop}
    (herr : ∀ e s', Q (.error e) s')
    (hok : ∀ payload report s',
      parts.payload encryption view ⟨s.2.nextSegment⟩ = .ok (payload, report) →
      s.Entered payload
        (.new ⟨s.2.nextSegment⟩ payload summary hash report encryption.isEnabled) s' →
      Q (.ok ⟨s.2.nextSegment⟩) s') :
    (storeSegment capsuleId encryption view summary hash).wp
      (ModularOp.exec parts InMemoryBackend.storage).moves (fun _ _ => True) Q s := by
  refine wp_bind.mpr (wp_execOp .beginTxn (wp_onError ?_))
  refine wp_bind.mpr (wp_execOp .allocateSegment ?_)
  have hdrop : ∀ (e : Error) (s' : InMemory), dropTxn.wp
      (ModularOp.exec parts InMemoryBackend.storage).moves (fun _ _ => True)
      (fun _ s'' => Q (.error e) s'') s' := fun e _ => wp_execOp .dropTxn (herr e _)
  refine wp_bind.mpr (wp_encryptView_inMemory (fun e => hdrop e _) ?_)
  cases hp : parts.payload encryption view ⟨s.2.nextSegment⟩ with
  | error e =>
      show andThen _ _ _ _ (parts.payload encryption view ⟨s.2.nextSegment⟩) _
      rw [hp]
      exact hdrop e _
  | ok pr =>
      obtain ⟨payload, report⟩ := pr
      show andThen _ _ _ _ (parts.payload encryption view ⟨s.2.nextSegment⟩) _
      rw [hp]
      refine wp_bind.mpr (wp_execOp (.append ⟨s.2.nextSegment⟩ payload) ?_)
      refine wp_bind.mpr (wp_execOp (.setSegmentMetadata ⟨s.2.nextSegment⟩
        (.new ⟨s.2.nextSegment⟩ payload summary hash report encryption.isEnabled)) ?_)
      refine wp_bind.mpr (wp_execOp .commit ?_)
      exact hok payload report _ hp ⟨InMemoryBackend.commit_segments_one _,
        InMemoryBackend.commit_metadata_one _, rfl⟩

/-- Nothing is encrypted here. -/
theorem payload_inMemory {encryption : EncryptionPolicy} {view payload : Bytes}
    {report : EncryptionSummary}
    (h : (Parts.inMemory P).payload encryption view x = .ok (payload, report)) :
    payload = view := by
  rw [Parts.payload] at h
  split at h <;> cases h <;> rfl

/-- **One chunk.** -/
theorem wp_writeSegment_gives {capsuleId : CapsuleId} {data : Bytes} {policy : CompressionPolicy}
    {encryption : EncryptionPolicy} {st : WriteState} {seg : SegmentRef} {s₀ : InMemory}
    {done rest : List Bytes} (hU : P.NoCollision U)
    (hin : ViewsIn P U policy (seg.chunk data :: rest))
    (h : Filling P U s₀ st.segmentIds done s)
    (hr : Recoverable P policy (seg.chunk data :: rest) s) :
    (writeSegment capsuleId data policy encryption st seg).wp
      (ModularOp.exec (.inMemory P) InMemoryBackend.storage).moves (fun _ _ => True)
      (fun r s' => match r with
        | .ok st' => Filling P U s₀ st'.segmentIds (done ++ [seg.chunk data]) s' ∧
            Recoverable P policy rest s'
        | .error _ => True) s := by
  unfold writeSegment
  dsimp only
  split
  · trivial
  refine wp_bind.mpr (wp_execOp (.compress (seg.chunk data) policy) ?_)
  show andThen _ _ _ _ (Lz4ZstdCompressor.compress P (seg.chunk data) policy) s
  cases hcomp : Lz4ZstdCompressor.compress P (seg.chunk data) policy with
  | error e => trivial
  | ok a =>
      obtain ⟨view, summary⟩ := a
      have hv := viewOf_eq hcomp
      refine wp_bind.mpr (wp_execOp (.hashContent view) ?_)
      refine wp_bind.mpr (wp_execOp (.lookupContent (hashContent P view)) ?_)
      show andThen _ _ _ _ (.ok (s.content (hashContent P view))) s
      cases hl : s.content (hashContent P view) with
      | some x =>
          obtain ⟨m, hm, -⟩ := Covered.content h.owes _ x hl
          have hle := hr.counted _ List.mem_cons_self view hv
          rw [hl, List.count_cons_self] at hle
          have hcast : asU32 (m.refCount + 1) = m.refCount + 1 := by
            refine asU32_of_lt ?_
            have hrefs : s.refs x = m.refCount := by
              rw [InMemory.refs, hm]
              rfl
            have hle : s.refs x + (rest.count _ + 1) ≤ u32Max := hle
            rw [hrefs] at hle
            unfold u32Max at hle
            omega
          refine wp_bind.mpr (wp_execOp (.metadata x) ?_)
          rw [exec_metadata hm]
          refine andThen_ok.mpr ?_
          rw [hcast]
          refine wp_bind.mpr (wp_of_run (Settles.run (wp_updateMetadata (fun s' hu => ?_)
            fun h => h.elim fun _ hF => hF.elim) _))
          refine wp_bind.mpr (wp_execOp (.recordStats summary.outputSize true) ?_)
          exact ⟨h.hit (hr.known _ List.mem_cons_self view hv x hl) hm hu,
            hr.hit hU hin hv h.owes hl hm hu⟩
      | none =>
          refine wp_bind.mpr (wp_storeSegment_inMemory (fun _ _ => trivial)
            fun payload report s₁ hp he => ?_)
          rw [payload_inMemory hp] at he
          refine wp_bind.mpr (wp_execOp (.registerContent (hashContent P view) _) ?_)
          refine wp_bind.mpr (wp_execOp (.dedupRegister (hashContent P view) _) ?_)
          refine wp_bind.mpr (wp_execOp (.recordStats summary.outputSize false) ?_)
          have hd := decoded_new hcomp ⟨s.2.nextSegment⟩ (hashContent P view) report
            encryption.isEnabled
          exact ⟨h.stored (hin _ List.mem_cons_self view hv) he rfl rfl hd rfl,
            hr.stored hU hin hv h.owes hl he rfl hd rfl⟩

/-- **A write** stores its chunks so that each reads back. -/
theorem wp_writeCapsule_gives {capsuleId : CapsuleId} {data : Bytes} {policy : Policy}
    (hU : P.NoCollision U) (hin : ViewsIn P U policy.compression (plannedChunks policy data))
    (hr : Recoverable P policy.compression (plannedChunks policy data) s) (ho : Owes [] s)
    (hc : Catalogued P U s) :
    (writeCapsule capsuleId data policy).wp
      (ModularOp.exec (.inMemory P) InMemoryBackend.storage).moves (fun _ _ => True)
      (fun r s' => ∀ id, r = .ok id → ∃ st : WriteState, ∃ s₁ : InMemory,
        (∃ zones, zonePlan policy data = .ok zones) ∧
        Filling P U s st.segmentIds (plannedChunks policy data) s₁ ∧
        s' = (s₁.1, s₁.2.createCapsule capsuleId data.length policy st.segmentIds st.dedupStats))
      s := by
  refine wp_bind.mpr (wp_execOp (.evaluateCompression policy _) ?_)
  refine wp_bind.mpr (wp_lift.mpr ?_)
  cases hz : zonePlan policy data with
  | error e => exact fun id hid => by cases hid
  | ok zones =>
      rw [plannedChunks_ok hz] at hin hr ⊢
      refine wp_bind.mpr (wp_execOp (.evaluateEncryption policy) ?_)
      refine wp_bind.mpr (wp_foldlM (fun rest st s₁ => ∃ done,
        Filling P U s st.segmentIds done s₁ ∧
        Recoverable P policy.compression (rest.map fun seg => seg.chunk data) s₁ ∧
        done ++ (rest.map fun seg => seg.chunk data) =
          (zones.flatMap Zone.segments).map fun seg => seg.chunk data) ?_ ?_ _ _ _
        ⟨[], .start ho hc, hr, rfl⟩)
      · rintro seg rest st s₁ ⟨done, hf, hr₁, hdone⟩
        have hin₁ : ViewsIn P U policy.compression
            (seg.chunk data :: rest.map fun seg => seg.chunk data) := fun chunk hmem =>
          hin chunk (hdone ▸ List.mem_append_right _ hmem)
        refine wp_mono (wp_writeSegment_gives hU hin₁ hf hr₁) fun r s₂ h₂ => ?_
        cases r with
        | ok st' => exact ⟨_, h₂.1, h₂.2, by rw [← hdone, List.append_assoc]; rfl⟩
        | error e => exact fun id hid => by cases hid
      · rintro st s₁ ⟨done, hf, -, hdone⟩
        refine wp_bind.mpr (wp_execOp (.createCapsule capsuleId data.length policy
          st.segmentIds st.dedupStats) ?_)
        intro id _
        rw [List.map_nil, List.append_nil] at hdone
        exact ⟨st, s₁, ⟨zones, rfl⟩, hdone ▸ hf, rfl⟩

end Pipeline

/-! ### Runs -/

/-- The chunks that a write takes, in their order, are the data. -/
theorem plannedChunks_flatten {policy : Policy} {data : Bytes} {zones : List Zone}
    (hz : zonePlan policy data = .ok zones) (hlen : data.length ≤ usizeMax) :
    (plannedChunks policy data).flatten = data := by
  have hn : policy.layout.strategy.defaultSegmentSize ≠ 0 := by
    intro h0
    unfold zonePlan at hz
    simp only [if_pos h0] at hz
    cases hz
  set n := policy.layout.strategy.defaultSegmentSize with hsize
  have hzones : zones = CpuFixed.buildPlan n (chunks n data) := by
    unfold zonePlan LayoutEngine.synthesize at hz
    simp only [← hsize, if_neg hn] at hz
    generalize policy.layout.strategy = strategy at hz hsize
    cases strategy with
    | znsGraph => cases hz
    | learned => cases hz
    | _ =>
        cases hz
        rw [hsize]
  obtain ⟨fuel, plan, hp⟩ :=
    (Layout.CpuFixed.buildPlan_returns_iff .stored n ⟨0⟩ (chunks n data)).mpr (.inl hn)
  have hpart := Layout.CpuFixed.partition_of_buildPlan (Nat.pos_of_ne_zero hn) hp
  have hflat : (chunks n data).flatten = data := chunks_flatten (Nat.pos_of_ne_zero hn) data
  have hsegments : zones.flatMap Zone.segments = plan.segments.map Layout.SegmentRef.erase := by
    rw [hzones, ← Layout.CpuFixed.erase_buildPlan hn hp, List.flatMap_map,
      Layout.ZonePlan.segments, List.map_flatMap]
    rfl
  have hchunk : ∀ segment ∈ plan.segments, segment.erase.chunk data = segment.chunk data := by
    intro segment hs
    obtain ⟨front, slice, rear, he, -, hend⟩ := hpart.within segment hs
    have hle : segment.offset + segment.length ≤ usizeMax := by
      refine hend.trans (le_trans ?_ hlen)
      rw [← hflat, he, List.flatten_append, List.flatten_cons, List.length_append,
        List.length_append]
      omega
    show (data.drop segment.offset).take
      (min (segment.offset + segment.length) usizeMax - segment.offset) = _
    rw [Nat.min_eq_left hle, Nat.add_sub_cancel_left]
    rfl
  have hcovers := hpart.covers
  rw [hflat, List.flatMap_def] at hcovers
  rw [plannedChunks_ok hz, hsegments, List.map_map]
  refine (congrArg List.flatten (List.map_congr_left fun segment hs => ?_)).trans hcovers
  exact hchunk segment hs

/-- Between calls: every capsule lists segments that give what was written under it. -/
structure Holding (P : Primitives) (U : Set Bytes) (contents : CapsuleId → Bytes)
    (s : InMemory) : Prop where
  owes : Owes [] s
  catalogued : Catalogued P U s
  kept : ∀ id c, s.2.capsules.lookup id = some c →
    ∃ chunks, List.Forall₂ (s.Gives P) c.segments chunks ∧ chunks.flatten = contents id

namespace Holding

theorem start : Holding P U contents .empty := by
  refine ⟨⟨fun x hx => absurd hx (Nat.lt_irrefl 0), fun hash x hx => ?_, fun x m hm => ?_,
    fun x => rfl⟩, fun hash x hx => ?_, fun id c hc => ?_⟩
  · cases hx
  · cases hm
  · cases hx
  · cases hc

/-- Less than before is still enough for the capsules that are left. -/
theorem shrink (h : Holding P U contents s) (hs : s.Shrinks s') (ho : Owes [] s') :
    Holding P U contents s' := by
  refine ⟨ho, fun hash x hx => ?_, fun id c hc => ?_⟩
  · obtain ⟨m, hm, -⟩ := ho.content hash x hx
    obtain ⟨raw, hraw, hseg, hh⟩ := h.catalogued hash x (hs.content hash x hx)
    exact ⟨raw, hraw, (hs.reads x (Option.isSome_of_eq_some hm)).1.trans hseg, hh⟩
  · obtain ⟨chunks, hg, hflat⟩ := h.kept id c (hs.capsules id c hc)
    refine ⟨chunks, ?_, hflat⟩
    have hlisted : ∀ x ∈ c.segments, s.Reads x s' := by
      intro x hx
      obtain ⟨m, hm, -⟩ := ho.counted x (InMemory.occ_pos.mpr ⟨id, c, hc, hx⟩)
      exact hs.reads x (Option.isSome_of_eq_some hm)
    refine forall₂_comp hg (List.forall₂_same.mpr fun _ _ => rfl) ?_
    rintro x hx chunk _ hxc rfl
    exact (hlisted x hx).gives hxc

/-- **A capsule is entered**, and the others give what they gave. -/
theorem create {st : WriteState} {s₁ : InMemory} {id : CapsuleId} {data : Bytes} {policy : Policy}
    {chunks : List Bytes} (h : Holding P U contents s)
    (hf : Filling P U s st.segmentIds chunks s₁) (hflat : chunks.flatten = data) :
    Holding P U (Function.update contents id data)
      (s₁.1, s₁.2.createCapsule id data.length policy st.segmentIds st.dedupStats) := by
  refine ⟨hf.owes.create, hf.catalogued, fun id' c hc => ?_⟩
  rcases Table.lookup_insert_eq_some.mp hc with ⟨rfl, rfl⟩ | ⟨hne, hc⟩
  · rw [Function.update_self]
    exact ⟨chunks, hf.gives, hflat⟩
  · rw [Function.update_of_ne hne]
    rw [hf.capsules] at hc
    obtain ⟨chunks', hg, hflat'⟩ := h.kept id' c hc
    exact ⟨chunks', hg.imp fun _ _ => hf.keeps _ _, hflat'⟩

end Holding

/-- The pipeline after writes that succeed and meet `A`, deletes and collections, and what was
written under each identifier. -/
inductive InMemoryRun (P : Primitives) (A : InMemory → Bytes → Policy → Prop) :
    (CapsuleId → Bytes) → InMemory → Prop
  | start : InMemoryRun P A (fun _ => []) .empty
  | write {contents : CapsuleId → Bytes} {s s' : InMemory} (id : CapsuleId) (data : Bytes)
      (policy : Policy) (h : InMemoryRun P A contents s) (hA : A s data policy)
      (hw : (Pipeline.writeCapsule id data policy).run
        (ModularOp.exec (.inMemory P) InMemoryBackend.storage) s = (.ok id, s')) :
      InMemoryRun P A (Function.update contents id data) s'
  | delete {contents : CapsuleId → Bytes} {s : InMemory} (id : CapsuleId)
      (h : InMemoryRun P A contents s) : InMemoryRun P A contents
        ((Pipeline.deleteCapsule id).run
          (ModularOp.exec (.inMemory P) InMemoryBackend.storage) s).2
  | collect {contents : CapsuleId → Bytes} {s : InMemory} (capsuleOrd : Order Capsule)
      (contentOrd : Order (ContentHash × SegmentId)) (segmentOrd : Order SegmentId)
      (h : InMemoryRun P A contents s) : InMemoryRun P A contents
        ((Pipeline.garbageCollect capsuleOrd contentOrd segmentOrd).run
          (ModularOp.exec (.inMemory P) InMemoryBackend.storage) s).2

/-- What is written is a slice, and its views are in `U`. -/
def WritesIn (P : Primitives) (U : Set Bytes) (data : Bytes) (policy : Policy) : Prop :=
  data.length ≤ usizeMax ∧ ViewsIn P U policy.compression (plannedChunks policy data)

theorem InMemoryRun.holding {A : InMemory → Bytes → Policy → Prop} (hU : P.NoCollision U)
    (hA : ∀ s data policy, A s data policy → WritesIn P U data policy ∧
      Recoverable P policy.compression (plannedChunks policy data) s)
    (h : InMemoryRun P A contents s) : Holding P U contents s := by
  induction h with
  | start => exact .start
  | @write contents s s' id data policy _ ha hw ih =>
      obtain ⟨⟨hlen, hin⟩, hr⟩ := hA s data policy ha
      have hpost := wp_run (@Pipeline.wp_writeCapsule_gives _ _ _ id _ _ hU hin hr ih.owes
        ih.catalogued)
      rw [hw] at hpost
      obtain ⟨st, s₁, ⟨zones, hz⟩, hf, rfl⟩ := hpost id rfl
      exact ih.create hf (plannedChunks_flatten hz hlen)
  | delete id _ ih =>
      exact ih.shrink ((Pipeline.wp_deleteCapsule_shrinks id).run _)
        ((Pipeline.wp_deleteCapsule ih.owes).run _)
  | collect capsuleOrd contentOrd segmentOrd _ ih =>
      obtain ⟨n, -, hc⟩ := Modular.Settles.run (Pipeline.wp_garbageCollect ih.owes) _
      exact ih.shrink hc.shrinks (hc.owes ih.owes)

/-- **What is written can be read**, if each chunk of a write whose view is in the catalog is what
the segment with this view gives. -/
theorem readBack (hU : P.NoCollision U)
    (h : InMemoryRun P (fun s data policy => WritesIn P U data policy ∧
      Recoverable P policy.compression (plannedChunks policy data) s) contents s)
    {id : CapsuleId} {c : Capsule} (hc : s.2.capsules.lookup id = some c) :
    s.readCapsule (.inMemory P) id = .ok (contents id) := by
  obtain ⟨chunks, hg, hflat⟩ := (h.holding hU fun _ _ _ ha => ha).kept id c hc
  have hlookup : InMemory.shelf.capsule id s = .ok c := by
    show InMemoryCatalog.lookupCapsule _ id = _
    rw [InMemoryCatalog.lookupCapsule, hc]
  rw [InMemory.readCapsule_eq, Shelf.readCapsule, hlookup, ← hflat,
    ← List.nil_append chunks.flatten]
  exact InMemory.readSegments_gives hg c.policy []

/-! ### A view that is a chunk -/

/-- Sixty-four zero bytes, in one chunk. -/
def zeros : Bytes := List.replicate 64 0

/-- One chunk, compressed or as it is. -/
def oneChunk (compression : CompressionPolicy) : Policy :=
  { compression := compression, layout := { strategy := .fixed 64 } }

/-- The state after a write that succeeds. -/
def afterWriting (id : Nat) (data : Bytes) (compression : CompressionPolicy) (s : InMemory) :
    InMemory :=
  ((Pipeline.writeCapsule ⟨id⟩ data (oneChunk compression)).run
    (ModularOp.exec (.inMemory .shrinking) InMemoryBackend.storage) s).2

theorem writesIn_zeros : WritesIn .shrinking {zeroFrame} zeros (oneChunk (.lz4 1)) := by
  have hplan : plannedChunks (oneChunk (.lz4 1)) zeros = [zeros] := by decide +kernel
  have hview : viewOf .shrinking (.lz4 1) zeros = some zeroFrame := by decide +kernel
  refine ⟨by decide, fun chunk hc view hv => ?_⟩
  rw [hplan] at hc
  obtain rfl := List.mem_singleton.mp hc
  exact Option.some.inj (hv.symm.trans hview)

/-- The same data twice, of which the first is deleted. -/
theorem readBack_zeros : InMemory.readCapsule (.inMemory .shrinking) ⟨2⟩
    ((Pipeline.deleteCapsule ⟨1⟩).run (ModularOp.exec (.inMemory .shrinking)
      InMemoryBackend.storage) (afterWriting 2 zeros (.lz4 1)
        (afterWriting 1 zeros (.lz4 1) .empty))).2 = .ok zeros := by
  have hplan : plannedChunks (oneChunk (.lz4 1)) zeros = [zeros] := by decide +kernel
  have hview : viewOf .shrinking (.lz4 1) zeros = some zeroFrame := by decide +kernel
  have hfit : ∀ s : InMemory,
      (∀ x, s.content (hashContent .shrinking zeroFrame) = some x → s.Gives .shrinking x zeros) →
      (s.content (hashContent .shrinking zeroFrame)).elim 0 s.refs + 1 ≤ u32Max →
      Recoverable .shrinking (.lz4 1) (plannedChunks (oneChunk (.lz4 1)) zeros) s := by
    intro s hg hn
    rw [hplan]
    refine ⟨fun chunk hc view hv => ?_, fun c₁ h₁ c₂ h₂ _ _ _ => ?_, fun chunk hc view hv => ?_⟩
    · obtain rfl := List.mem_singleton.mp hc
      obtain rfl := Option.some.inj (hv.symm.trans hview)
      exact hg
    · exact (List.mem_singleton.mp h₁).trans (List.mem_singleton.mp h₂).symm
    · obtain rfl := List.mem_singleton.mp hc
      obtain rfl := Option.some.inj (hv.symm.trans hview)
      rwa [List.count_singleton_self]
  have hgives : (afterWriting 1 zeros (.lz4 1) .empty).Gives .shrinking ⟨0⟩ zeros :=
    ⟨zeroFrame, _, rfl, rfl, by decide +kernel⟩
  have hfirst : InMemoryRun .shrinking (fun s data policy =>
      WritesIn .shrinking {zeroFrame} data policy ∧
        Recoverable .shrinking policy.compression (plannedChunks policy data) s)
      (Function.update (fun _ => []) ⟨1⟩ zeros) (afterWriting 1 zeros (.lz4 1) .empty) :=
    .write ⟨1⟩ zeros (oneChunk (.lz4 1)) .start
      ⟨writesIn_zeros, hfit _ (fun x hx => by cases hx) (by decide +kernel)⟩ rfl
  have hsecond := InMemoryRun.write ⟨2⟩ zeros (oneChunk (.lz4 1)) hfirst
    ⟨writesIn_zeros, hfit _ (fun x hx => by cases hx; exact hgives) (by decide +kernel)⟩ rfl
  have hrun := hsecond.delete ⟨1⟩
  exact @readBack _ _ _ _ (Set.injOn_singleton _ _) hrun ⟨2⟩ _ rfl

/-- **The frame of the zeros**, written as it is, reads as the zeros. -/
theorem not_readBack : ¬ ∀ (P : Primitives) (U : Set Bytes) (contents : CapsuleId → Bytes)
    (s : InMemory), P.CodecsInverse → P.NoCollision U →
    InMemoryRun P (fun _ data policy => WritesIn P U data policy ∧
      ∃ n, 0 < n ∧ policy.layout.strategy = .fixed n) contents s →
    ∀ id c, s.2.capsules.lookup id = some c →
      s.readCapsule (.inMemory P) id = .ok (contents id) := by
  intro h
  have hplan : plannedChunks (oneChunk .none) zeroFrame = [zeroFrame] := by decide +kernel
  have hview : viewOf .shrinking .none zeroFrame = some zeroFrame := by decide +kernel
  have hframe : WritesIn .shrinking {zeroFrame} zeroFrame (oneChunk .none) := by
    refine ⟨by decide, fun chunk hc view hv => ?_⟩
    rw [hplan] at hc
    obtain rfl := List.mem_singleton.mp hc
    exact Option.some.inj (hv.symm.trans hview)
  have hfirst : InMemoryRun .shrinking (fun _ data policy =>
      WritesIn .shrinking {zeroFrame} data policy ∧
        ∃ n, 0 < n ∧ policy.layout.strategy = .fixed n)
      (Function.update (fun _ => []) ⟨1⟩ zeros) (afterWriting 1 zeros (.lz4 1) .empty) :=
    .write ⟨1⟩ zeros (oneChunk (.lz4 1)) .start ⟨writesIn_zeros, 64, by decide, rfl⟩ rfl
  have hsecond := InMemoryRun.write ⟨2⟩ zeroFrame (oneChunk .none) hfirst
    ⟨hframe, 64, by decide, rfl⟩ rfl
  have hread := h .shrinking {zeroFrame} _ _ Primitives.shrinking_codecs
    (Set.injOn_singleton _ _) hsecond ⟨2⟩ _ rfl
  have hzeros : InMemory.readCapsule (.inMemory .shrinking) ⟨2⟩ (afterWriting 2 zeroFrame .none
      (afterWriting 1 zeros (.lz4 1) .empty)) = .ok zeros := by decide +kernel
  have hbytes : zeros = zeroFrame := Except.ok.inj (hzeros.symm.trans hread)
  exact absurd hbytes (by decide)

end Space

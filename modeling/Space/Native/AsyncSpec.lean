import Space.Native.WriteSpec
import Space.Native.WriteAsync

/-!
# Native — AsyncSpec

The asynchronous write against the discipline, for a thread on its own.  Between two chunks the
coordinator owns its transaction and what `Staging` says: one reference for each reuse of a stored
segment, a hash known to be absent for each segment to be registered, and staged segments whose
reference counts are the number of their entries in the segment list.

* `wp_commitSegment`: the three ways a chunk is committed keep `Staging`.
* `wp_finishAsync`: a run that ends well gives its references to the capsule; one that fails gives
  them back, and never the last one.
-/

namespace Space
open Support Prog

variable {P : Primitives} {D : Discipline} {policy : Policy} {data : Bytes} {g g₀ g₁ : Ghost}
  {fits : Bytes → Info → Prop}

/-! ### Pending segments -/

/-- The first pending segment of an identifier. -/
theorem exists_first {x : SegmentId} : ∀ {l : List PendingSegment},
    (∃ p ∈ l, p.segment.id = x) → ∃ a p b, l = a ++ p :: b ∧ p.segment.id = x ∧
      ∀ q ∈ a, q.segment.id ≠ x
  | [], h => by simp at h
  | p :: l, h => by
      by_cases e : p.segment.id = x
      · exact ⟨[], p, l, rfl, e, by simp⟩
      · obtain ⟨q, hq, hx⟩ := h
        rcases List.mem_cons.mp hq with rfl | hq
        · exact absurd hx e
        · obtain ⟨a, q, b, rfl, hq, ha⟩ := exists_first ⟨q, hq, hx⟩
          refine ⟨p :: a, q, b, rfl, hq, fun r hr => ?_⟩
          rcases List.mem_cons.mp hr with rfl | hr
          · exact e
          · exact ha r hr

theorem modifyPending_first {x : SegmentId} {f : Segment → Segment} {p : PendingSegment}
    {b : List PendingSegment} (hp : p.segment.id = x) :
    ∀ {a : List PendingSegment}, (∀ q ∈ a, q.segment.id ≠ x) →
      NvramTransaction.modifyPending x f (a ++ p :: b) =
        some (a ++ { p with segment := f p.segment } :: b)
  | [], _ => by simp [NvramTransaction.modifyPending, hp]
  | q :: a, h => by
      rw [List.cons_append, NvramTransaction.modifyPending, if_neg (h q List.mem_cons_self),
        modifyPending_first hp fun r hr => h r (List.mem_cons_of_mem _ hr)]
      rfl

theorem withSegmentMut_first {t : NvramTransaction} {x : SegmentId} {f : Segment → Segment}
    {p : PendingSegment} {a b : List PendingSegment} (hf : t.finalized = false)
    (ht : t.pending = a ++ p :: b) (hp : p.segment.id = x) (ha : ∀ q ∈ a, q.segment.id ≠ x) :
    t.withSegmentMut x f =
      .ok { t with pending := a ++ { p with segment := f p.segment } :: b } := by
  simp only [NvramTransaction.withSegmentMut, NvramTransaction.ensureActive, hf, ht,
    modifyPending_first hp ha, Bind.bind, Except.bind]
  rfl

/-- The token of a transaction says nothing of the metadata. -/
theorem token_modify {t : NvramTransaction} {p : PendingSegment} {a b : List PendingSegment}
    {s : Segment} (ht : t.pending = a ++ p :: b) (hid : s.id = p.segment.id)
    (ho : s.offset = p.segment.offset) :
    NvramTransaction.token { t with pending := a ++ { p with segment := s } :: b } = t.token := by
  simp [NvramTransaction.token, NvramTransaction.staged, ht, hid, ho]

/-! ### Between two chunks -/

/-- A pending segment is the stored form of a chunk, with a reference for each of its entries. -/
structure Pending (P : Primitives) (D : Discipline) (policy : Policy) (data : Bytes)
    (ids : List SegmentId) (p : PendingSegment) : Prop where
  origin : ∃ chunk ∈ chunks SEGMENT_SIZE data, ∃ view r m x off,
    Prepared P D policy chunk view r p.data m ∧ p.segment.form =
      ((Segment.appended x off (asU32 p.data.length)).describe r
        (policy.registeredHash P view) m).form
  refs : p.segment.refCount = ids.count p.segment.id
  pos : 1 ≤ p.segment.refCount
  dedup : p.segment.deduplicated = decide (1 < p.segment.refCount)

/-- What an entry of the segment list is. -/
def Entry (g : Ghost) (pending : List PendingSegment) (x : SegmentId) (i : Info) : Prop :=
  .knows x i ∈ g ∨ ∃ p ∈ pending, p.segment.id = x ∧ i = ⟨p.segment.form, p.data⟩

/-- What a pending segment is to be registered under. -/
def PendingSegment.registration (p : PendingSegment) : Option (ContentHash × SegmentId) :=
  p.segment.contentHash.map fun hash => (hash, p.segment.id)

/-- What the coordinator owns besides its transaction, if it began with `g₀`. -/
structure Staging (P : Primitives) (D : Discipline) (policy : Policy) (data : Bytes)
    (fits : Bytes → Info → Prop) (g₀ : Ghost) (st : AsyncState) (g₁ : Ghost) : Prop where
  active : st.transaction.finalized = false
  quiet : Ghost.Quiet g₁
  refs : ∀ x, g₁.count (.ref x) = g₀.count (.ref x) + st.dedupeIncrements.count x
  known : ∀ x ∈ st.dedupeIncrements,
    (∃ i, .knows x i ∈ g₁) ∧ (.listed x ∈ g₁ ∨ 0 < g₀.count (.ref x))
  ids : (st.transaction.pending.map fun p => p.segment.id).Nodup
  apart : ∀ p ∈ st.transaction.pending, p.segment.id ∉ st.dedupeIncrements
  pending : ∀ p ∈ st.transaction.pending, Pending P D policy data st.segmentIds p
  entries : ∀ x, (∀ p ∈ st.transaction.pending, p.segment.id ≠ x) →
    st.segmentIds.count x = st.dedupeIncrements.count x
  next : st.segmentIds.length = st.nextIndex
  fit : ∃ infos, List.Forall₂ (Entry g₁ st.transaction.pending) st.segmentIds infos ∧
    List.Forall₂ fits ((chunks SEGMENT_SIZE data).take st.nextIndex) infos
  registrations : st.pendingRegistrations =
    st.transaction.pending.filterMap PendingSegment.registration
  hashes : (st.pendingRegistrations.map Prod.fst).Nodup
  absent : ∀ r ∈ st.pendingRegistrations, .absent r.1 ∈ g₁
  staged : ∀ hash x, st.stagedContent.lookup hash = some x ↔ (hash, x) ∈ st.pendingRegistrations
  ordered : ∀ i prepared, st.ordered.lookup i = some prepared → ∃ chunk view,
    (chunks SEGMENT_SIZE data)[i]? = some chunk ∧ prepared.contentHash = hashContent P view ∧
      Prepared P D policy chunk view prepared.compResult prepared.finalData prepared.encryptionMeta

/-- What a discipline says of an asynchronous write: also that a chunk fits a segment the same
write stored under its hash. -/
structure Discipline.AcceptsAsync (P : Primitives) (D : Discipline) (policy : Policy)
    (data : Bytes) (fits : Bytes → Info → Prop) : Prop extends D.Accepts P policy data fits where
  again : ∀ chunk ∈ chunks SEGMENT_SIZE data, ∀ view r payload m,
    Prepared P D policy chunk view r payload m →
    ∀ chunk' ∈ chunks SEGMENT_SIZE data, ∀ view' r' payload' m',
      Prepared P D policy chunk' view' r' payload' m' → policy.dedupe = true →
      hashContent P view = hashContent P view' → ∀ x off,
      fits chunk ⟨((Segment.appended x off (asU32 payload'.length)).describe r'
        (policy.registeredHash P view') m').form, payload'⟩

theorem Entry.mono {g g' : Ghost} {l l' : List PendingSegment} {x : SegmentId} {i : Info}
    (h : Entry g l x i) (hg : ∀ x i, .knows x i ∈ g → .knows x i ∈ g')
    (hl : ∀ p ∈ l, ∃ p' ∈ l', p'.segment.id = p.segment.id ∧
      p'.segment.form = p.segment.form ∧ p'.data = p.data) : Entry g' l' x i := by
  rcases h with h | ⟨p, hp, rfl, rfl⟩
  · exact .inl (hg _ _ h)
  · obtain ⟨p', hp', h₁, h₂, h₃⟩ := hl p hp
    exact .inr ⟨p', hp', h₁, by rw [h₂, h₃]⟩

namespace Staging
variable {st : AsyncState}

/-- One more thing known. -/
theorem learn {τ : Token} (h : Staging P D policy data fits g₀ st g₁) (hτ : τ.Harmless) :
    Staging P D policy data fits g₀ st (τ ::ₘ g₁) :=
  { h with
    quiet := h.quiet.cons (.inl hτ)
    refs := fun x => by
      rw [Multiset.count_cons_of_ne, h.refs]
      rintro rfl
      exact hτ
    known := fun x hx => by
      obtain ⟨⟨i, hi⟩, hl⟩ := h.known x hx
      exact ⟨⟨i, Multiset.mem_cons_of_mem hi⟩, hl.imp_left Multiset.mem_cons_of_mem⟩
    fit := by
      obtain ⟨infos, h₁, h₂⟩ := h.fit
      exact ⟨infos, h₁.imp fun x i k => k.mono (fun _ _ => Multiset.mem_cons_of_mem)
        fun p hp => ⟨p, hp, rfl, rfl, rfl⟩, h₂⟩
    absent := fun r hr => Multiset.mem_cons_of_mem (h.absent r hr) }

/-- The next chunk, when it has arrived. -/
theorem nextChunk (h : Staging P D policy data fits g₀ st g₁) {prepared : SegmentPrepared}
    (hp : st.ordered.lookup st.nextIndex = some prepared) :
    ∃ chunk view, chunk ∈ chunks SEGMENT_SIZE data ∧
      (chunks SEGMENT_SIZE data).take (st.nextIndex + 1) =
        (chunks SEGMENT_SIZE data).take st.nextIndex ++ [chunk] ∧
      st.nextIndex < (chunks SEGMENT_SIZE data).length ∧
      prepared.contentHash = hashContent P view ∧
      Prepared P D policy chunk view prepared.compResult prepared.finalData
        prepared.encryptionMeta := by
  obtain ⟨chunk, view, hc, hh, hprep⟩ := h.ordered _ _ hp
  obtain ⟨hlt, rfl⟩ := List.getElem?_eq_some_iff.mp hc
  exact ⟨_, view, List.getElem_mem hlt, List.take_succ_eq_append_getElem hlt, hlt, hh, hprep⟩

/-- Entries never exceed the chunks. -/
theorem count_le (h : Staging P D policy data fits g₀ st g₁) (x : SegmentId) :
    st.segmentIds.count x ≤ st.nextIndex := h.next ▸ List.count_le_length

/-- **A staged segment reused.** -/
theorem reuse (A : D.AcceptsAsync P policy data fits)
    (h : Staging P D policy data fits g₀ st g₁) {prepared : SegmentPrepared} {p : PendingSegment}
    {a b : List PendingSegment} {n : Nat}
    (hmax : (chunks SEGMENT_SIZE data).length ≤ u32Max)
    (hp : st.ordered.lookup st.nextIndex = some prepared) (hd : policy.dedupe = true)
    (ht : st.transaction.pending = a ++ p :: b)
    (hh : p.segment.contentHash = some prepared.contentHash) :
    Staging P D policy data fits g₀
      (st.committed ⟨p.segment.id, .reusedStaged, n, none⟩
        { st.transaction with pending := a ++ { p with segment := p.segment.reuse } :: b }
        st.stagedContent) g₁ := by
  obtain ⟨chunk, view, hc, htake, hlt, hhash, hprep⟩ := h.nextChunk hp
  have hpm : p ∈ st.transaction.pending := by rw [ht]; simp
  have hpend := h.pending p hpm
  have hnd := h.ids
  rw [ht, List.map_append, List.map_cons, List.nodup_middle, List.nodup_cons] at hnd
  -- the other pending segments are other segments
  have hother : ∀ q ∈ a ++ b, q.segment.id ≠ p.segment.id := fun q hq e => by
    rw [← List.map_append] at hnd
    exact hnd.1 (e ▸ List.mem_map_of_mem hq)
  have hmem : ∀ q, q ∈ a ++ { p with segment := p.segment.reuse } :: b ↔
      q ∈ a ++ b ∨ q = { p with segment := p.segment.reuse } := fun q => by
    simp only [List.mem_append, List.mem_cons]; tauto
  have hcount := h.count_le p.segment.id
  have hsucc : saturatingSucc p.segment.refCount = p.segment.refCount + 1 := by
    refine saturatingSucc_of_lt ?_
    rw [hpend.refs]; omega
  obtain ⟨infos, hent, hfit⟩ := h.fit
  refine {
    active := h.active, quiet := h.quiet, refs := h.refs, known := h.known
    ids := ?_, apart := fun q hq => ?_, pending := fun q hq => ?_, entries := fun x hx => ?_
    next := ?_, fit := ⟨infos ++ [⟨p.segment.form, p.data⟩], ?_, ?_⟩
    registrations := ?_, hashes := h.hashes, absent := h.absent, staged := h.staged
    ordered := h.ordered }
  · have := h.ids
    rw [ht] at this
    simpa [AsyncState.committed, Segment.reuse] using this
  · rcases (hmem q).mp hq with hq | rfl
    · exact h.apart q (by rw [ht]; simp only [List.mem_append, List.mem_cons] at hq ⊢; tauto)
    · exact h.apart p hpm
  · rcases (hmem q).mp hq with hq | rfl
    · have k := h.pending q (by rw [ht]; simp only [List.mem_append, List.mem_cons] at hq ⊢; tauto)
      refine ⟨k.origin, ?_, k.pos, k.dedup⟩
      rw [k.refs]
      simp [AsyncState.committed, List.count_append, (hother q hq).symm]
    · refine ⟨hpend.origin, ?_, ?_, rfl⟩
      · show saturatingSucc p.segment.refCount = _
        rw [hsucc, hpend.refs]
        simp [AsyncState.committed, Segment.reuse, List.count_append]
      · show 1 ≤ saturatingSucc p.segment.refCount
        rw [hsucc]; omega
  · have hx' : p.segment.id ≠ x :=
      hx { p with segment := p.segment.reuse } ((hmem _).mpr (.inr rfl))
    have hold : ∀ q ∈ st.transaction.pending, q.segment.id ≠ x := fun q hq => by
      rw [ht] at hq
      rcases List.mem_append.mp hq with hq | hq
      · exact hx q ((hmem q).mpr (.inl (by simp [hq])))
      · rcases List.mem_cons.mp hq with rfl | hq
        · exact hx'
        · exact hx q ((hmem q).mpr (.inl (by simp [hq])))
    have := h.entries x hold
    simp [AsyncState.committed, List.count_append, hx', this]
  · simp [AsyncState.committed, h.next]
  · have hkeep : ∀ q ∈ st.transaction.pending,
        ∃ q' ∈ a ++ { p with segment := p.segment.reuse } :: b, q'.segment.id = q.segment.id ∧
          q'.segment.form = q.segment.form ∧ q'.data = q.data := fun q hq => by
      rw [ht] at hq
      rcases List.mem_append.mp hq with hq | hq
      · exact ⟨q, (hmem q).mpr (.inl (by simp [hq])), rfl, rfl, rfl⟩
      · rcases List.mem_cons.mp hq with rfl | hq
        · exact ⟨_, (hmem _).mpr (.inr rfl), rfl, rfl, rfl⟩
        · exact ⟨q, (hmem q).mpr (.inl (by simp [hq])), rfl, rfl, rfl⟩
    exact forall₂_snoc (hent.imp fun x i k => k.mono (fun _ _ k => k) hkeep)
      (.inr ⟨_, (hmem _).mpr (.inr rfl), rfl, rfl⟩)
  · show List.Forall₂ fits ((chunks SEGMENT_SIZE data).take (st.nextIndex + 1)) _
    rw [htake]
    refine forall₂_snoc hfit ?_
    obtain ⟨chunk', hc', view', r', m', x, off, hprep', hform⟩ := hpend.origin
    have hreg : p.segment.contentHash = policy.registeredHash P view' := by
      have e : p.segment.form.contentHash = _ := congrArg Segment.contentHash hform
      refine e.trans ?_
      unfold Segment.describe
      cases m' <;> rfl
    rw [hform]
    refine A.again chunk hc view _ _ _ hprep chunk' hc' view' _ _ _ hprep' hd ?_ x off
    rw [hh, Policy.registeredHash, if_pos hd] at hreg
    rw [← hhash]
    exact Option.some.inj hreg
  · show st.pendingRegistrations = (a ++ { p with segment := p.segment.reuse } :: b).filterMap _
    rw [h.registrations, ht, List.filterMap_append, List.filterMap_append, List.filterMap_cons,
      List.filterMap_cons]
    rfl

/-- **A stored segment reused.** -/
theorem hit {x : SegmentId} {i : Info} {n : Nat} {chunk : Bytes}
    (h : Staging P D policy data fits g₀ st g₁)
    (htake : (chunks SEGMENT_SIZE data).take (st.nextIndex + 1) =
      (chunks SEGMENT_SIZE data).take st.nextIndex ++ [chunk])
    (hi : .knows x i ∈ g₁) (hfit : fits chunk i)
    (hsafe : .listed x ∈ g₁ ∨ .ref x ∈ g₁)
    (hx : ∀ p ∈ st.transaction.pending, p.segment.id ≠ x) :
    Staging P D policy data fits g₀
      (st.committed ⟨x, .reusedPersistent, n, none⟩ st.transaction st.stagedContent)
      (.ref x ::ₘ g₁) := by
  have hsafe' : .listed x ∈ g₁ ∨ 0 < g₀.count (.ref x) := by
    refine hsafe.elim .inl fun k => ?_
    have hc := h.refs x
    have hpos := Multiset.count_pos.mpr k
    by_cases hm : x ∈ st.dedupeIncrements
    · exact (h.known x hm).2
    · rw [List.count_eq_zero.mpr hm] at hc
      exact .inr (by omega)
  obtain ⟨infos, hent, hfits⟩ := h.fit
  refine { h with
    active := h.active
    quiet := h.quiet.cons (.inr ⟨x, rfl⟩), refs := fun y => ?_, known := fun y hy => ?_
    apart := fun p hp k => ?_, pending := fun p hp => ?_, entries := fun y hy => ?_, next := ?_
    fit := ⟨infos ++ [i], ?_, ?_⟩, absent := fun r hr => Multiset.mem_cons_of_mem (h.absent r hr) }
  · rw [Multiset.count_cons, h.refs]
    simp only [AsyncState.committed, List.count_append, List.count_singleton, Token.ref.injEq,
      beq_iff_eq, eq_comm (a := y)]
    omega
  · have hcase : y ∈ st.dedupeIncrements ∨ y = x := by
      simpa [AsyncState.committed] using hy
    rcases hcase with hy | rfl
    · obtain ⟨⟨j, hj⟩, hl⟩ := h.known y hy
      exact ⟨⟨j, Multiset.mem_cons_of_mem hj⟩, hl.imp_left Multiset.mem_cons_of_mem⟩
    · exact ⟨⟨i, Multiset.mem_cons_of_mem hi⟩, hsafe'.imp_left Multiset.mem_cons_of_mem⟩
  · have hcase : p.segment.id ∈ st.dedupeIncrements ∨ p.segment.id = x := by
      simpa [AsyncState.committed] using k
    exact hcase.elim (h.apart p hp) (hx p hp)
  · have k := h.pending p hp
    refine ⟨k.origin, ?_, k.pos, k.dedup⟩
    rw [k.refs]
    simp [AsyncState.committed, List.count_append, (hx p hp).symm]
  · have := h.entries y hy
    simp [AsyncState.committed, List.count_append, this]
  · simp [AsyncState.committed, h.next]
  · refine forall₂_snoc (hent.imp fun y j k => k.mono (fun _ _ => Multiset.mem_cons_of_mem)
      fun p hp => ⟨p, hp, rfl, rfl, rfl⟩) (.inl (Multiset.mem_cons_of_mem hi))
  · show List.Forall₂ fits ((chunks SEGMENT_SIZE data).take (st.nextIndex + 1)) _
    rw [htake]
    exact forall₂_snoc hfits hfit

/-- **A new segment staged.** -/
theorem stage (A : D.AcceptsAsync P policy data fits)
    (h : Staging P D policy data fits g₀ st g₁) {prepared : SegmentPrepared} {x : SegmentId}
    {off n current : Nat} {s : Segment}
    (hp : st.ordered.lookup st.nextIndex = some prepared)
    (hs : s = (Segment.appended x off (asU32 prepared.finalData.length)).describe
      prepared.compResult (if policy.dedupe = true then some prepared.contentHash else none)
      prepared.encryptionMeta)
    (hx : ∀ p ∈ st.transaction.pending, p.segment.id ≠ x) (hk : ∀ i, .knows x i ∉ g₁)
    (ha : policy.dedupe = true → .absent prepared.contentHash ∈ g₁ ∧
      st.stagedContent.lookup prepared.contentHash = none) :
    Staging P D policy data fits g₀
      (st.committed ⟨x, .newSegment, n,
          if policy.dedupe = true then some prepared.contentHash else none⟩
        { st.transaction with
          pending := st.transaction.pending ++ [⟨s, prepared.finalData⟩]
          currentOffset := current }
        (if policy.dedupe = true then st.stagedContent.insert prepared.contentHash x
          else st.stagedContent)) g₁ := by
  obtain ⟨chunk, view, hc, htake, hlt, hhash, hprep⟩ := h.nextChunk hp
  have hreg : (if policy.dedupe = true then some prepared.contentHash else none) =
      policy.registeredHash P view := by
    unfold Policy.registeredHash; rw [hhash]
  have hdesc : s.id = x ∧ s.refCount = 1 ∧ s.deduplicated = false ∧
      s.contentHash = if policy.dedupe = true then some prepared.contentHash else none := by
    rw [hs]; unfold Segment.describe
    cases prepared.encryptionMeta <;> exact ⟨rfl, rfl, rfl, rfl⟩
  obtain ⟨hid, href, hded, hch⟩ := hdesc
  have hxi : x ∉ st.segmentIds := fun hm => by
    obtain ⟨infos, hent, -⟩ := h.fit
    obtain ⟨i, -, k⟩ := forall₂_mem_left hent hm
    rcases k with k | ⟨p, hp, e, -⟩
    · exact hk i k
    · exact hx p hp e
  have hxd : x ∉ st.dedupeIncrements := fun hm => by
    obtain ⟨⟨i, hi⟩, -⟩ := h.known x hm
    exact hk i hi
  have hpend : (st.committed ⟨x, .newSegment, n,
      if policy.dedupe = true then some prepared.contentHash else none⟩
      { st.transaction with
        pending := st.transaction.pending ++ [⟨s, prepared.finalData⟩]
        currentOffset := current }
      (if policy.dedupe = true then st.stagedContent.insert prepared.contentHash x
        else st.stagedContent)).pendingRegistrations = st.pendingRegistrations ++
      (if policy.dedupe = true then [(prepared.contentHash, x)] else []) := by
    unfold AsyncState.committed
    split <;> simp
  obtain ⟨infos, hent, hfits⟩ := h.fit
  refine { h with
    active := h.active
    ids := ?_, apart := fun p hm => ?_, pending := fun p hm => ?_, entries := fun y hy => ?_
    next := ?_, fit := ⟨infos ++ [⟨s.form, prepared.finalData⟩], ?_, ?_⟩
    registrations := ?_, hashes := ?_, absent := fun r hr => ?_, staged := fun hash y => ?_ }
  · simp only [AsyncState.committed, List.map_append, List.map_cons, List.map_nil, hid]
    refine List.nodup_append.mpr ⟨h.ids, List.nodup_singleton x, fun y hy z hz => ?_⟩
    obtain ⟨p, hp, rfl⟩ := List.mem_map.mp hy
    rw [List.mem_singleton.mp hz]
    exact hx p hp
  · rcases List.mem_append.mp hm with hm | hm
    · exact h.apart p hm
    · cases List.mem_singleton.mp hm
      rw [hid]; exact hxd
  · rcases List.mem_append.mp hm with hm | hm
    · have k := h.pending p hm
      refine ⟨k.origin, ?_, k.pos, k.dedup⟩
      rw [k.refs]
      simp [AsyncState.committed, List.count_append, (hx p hm).symm]
    · cases List.mem_singleton.mp hm
      refine ⟨⟨chunk, hc, view, prepared.compResult, prepared.encryptionMeta, x, off, hprep, ?_⟩,
        ?_, ?_, ?_⟩
      · rw [hs, hreg]
      · simp [AsyncState.committed, List.count_append, hid, href, List.count_eq_zero.mpr hxi]
      · exact Nat.le_of_eq href.symm
      · rw [hded, href]; rfl
  · have hyx : x ≠ y := by
      have := hy ⟨s, prepared.finalData⟩ (by simp [AsyncState.committed])
      rwa [hid] at this
    have := h.entries y fun p hp => hy p (by simp [AsyncState.committed, hp])
    simp [AsyncState.committed, List.count_append, this, hyx]
  · simp [AsyncState.committed, h.next]
  · exact forall₂_snoc (hent.imp fun y j k => k.mono (fun _ _ k => k) fun p hp =>
      ⟨p, by simp [AsyncState.committed, hp], rfl, rfl, rfl⟩)
      (.inr ⟨⟨s, prepared.finalData⟩, by simp [AsyncState.committed], hid, rfl⟩)
  · show List.Forall₂ fits ((chunks SEGMENT_SIZE data).take (st.nextIndex + 1)) _
    rw [htake]
    refine forall₂_snoc hfits ?_
    rw [hs, hreg]
    exact (A.fresh chunk hc view _ _ _ hprep x off).2
  · rw [hpend, h.registrations]
    simp only [AsyncState.committed, List.filterMap_append, List.filterMap_cons,
      List.filterMap_nil, PendingSegment.registration, hch, hid]
    split <;> simp
  · rw [hpend, List.map_append]
    split
    · next hd =>
        refine List.nodup_append.mpr ⟨h.hashes, List.nodup_singleton _, fun y hy z hz => ?_⟩
        obtain ⟨r, hr, rfl⟩ := List.mem_map.mp hy
        cases List.mem_singleton.mp hz
        intro e
        have := (h.staged r.1 r.2).mpr hr
        rw [e, (ha hd).2] at this
        cases this
    · simpa using h.hashes
  · rw [hpend] at hr
    rcases List.mem_append.mp hr with hr | hr
    · exact h.absent r hr
    · split at hr
      · next hd => cases List.mem_singleton.mp hr; exact (ha hd).1
      · simp at hr
  · rw [hpend, List.mem_append]
    show (if policy.dedupe = true then _ else _ : Table ContentHash SegmentId).lookup hash = _ ↔ _
    split
    · next hd =>
        rw [Table.lookup_insert]
        split
        · next e =>
            subst e
            simp only [Option.some.injEq, List.mem_singleton, Prod.mk.injEq, true_and]
            refine ⟨fun e => .inr e.symm, fun e => e.elim (fun k => ?_) fun e => e.symm⟩
            have := (h.staged prepared.contentHash y).mpr k
            rw [(ha hd).2] at this
            cases this
        · next e =>
            rw [h.staged]
            simp [e]
    · rw [h.staged]; simp

end Staging

/-- A staged segment may be committed. -/
theorem Pending.ready (A : D.AcceptsAsync P policy data fits) {ids : List SegmentId}
    {p : PendingSegment} (hids : ids.length ≤ u32Max) (h : Pending P D policy data ids p) :
    p.Ready D := by
  obtain ⟨chunk, hc, view, r, m, x, off, hprep, hform⟩ := h.origin
  refine ⟨?_, ?_, h.pos, ?_, h.dedup⟩
  · rw [hform]; exact (A.fresh chunk hc view r p.data m hprep x off).1
  · refine (congrArg Segment.len hform).trans ?_
    unfold Segment.describe
    cases m <;> rfl
  · rw [h.refs]
    exact List.count_le_length.trans hids

/-- A staged segment has a hash exactly if the policy deduplicates. -/
theorem Pending.contentHash {ids : List SegmentId} {p : PendingSegment}
    (h : Pending P D policy data ids p) :
    p.segment.contentHash = none ↔ policy.dedupe = false := by
  obtain ⟨chunk, hc, view, r, m, x, off, hprep, hform⟩ := h.origin
  have e : p.segment.contentHash = policy.registeredHash P view := by
    refine (congrArg Segment.contentHash hform).trans ?_
    unfold Segment.describe
    cases m <;> rfl
  rw [e, Policy.registeredHash]
  cases policy.dedupe <;> simp

end Space

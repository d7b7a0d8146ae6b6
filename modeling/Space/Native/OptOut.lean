import Space.Native.SharingSpec
import Space.Native.Agreement

/-!
# Native — OptOut

A write whose policy opts out of deduplication stores every chunk anew.  It registers no hash, it
changes no segment that was there, and its capsule is alone from the start.

* `Lays`: what such a write has done so far, whichever of the two it is.
* `WritePipeline.wp_writeCapsule_optOut`, `WritePipeline.wp_writeAsync_optOut`: the two writes.
* `OptedOut.apart`: the capsules that opt out stay alone, and the new one is.
-/

namespace Space
open Support Prog WritePipeline

variable {P : Primitives} {policy : Policy} {s₀ s s' : Store P} {l : List SegmentId}
  {id : CapsuleId}

/-- What a write that opts out has done to the store: it has drawn the identifiers `l`. -/
structure Lays (s₀ s : Store P) (l : List SegmentId) : Prop where
  content : ∀ hash, s.content hash = s₀.content hash
  capsules : s.registry.capsules = s₀.registry.capsules
  next : s₀.next ≤ s.next
  seg : ∀ x, x.val < s₀.next → s.seg x = s₀.seg x
  keyed : ∀ x segment, s.seg x = some segment → segment.id = x ∧ x.val < s.next
  once : l.Nodup
  drawn : ∀ x ∈ l, s₀.next ≤ x.val ∧ x.val < s.next

/-- Each of the segments is there, with one reference. -/
def Store.Single (s : Store P) (l : List SegmentId) : Prop :=
  ∀ x ∈ l, ∃ segment, s.seg x = some segment ∧ segment.refCount = 1

namespace Lays

theorem start (h : s₀.Apart) : Lays s₀ s₀ [] :=
  ⟨fun _ => rfl, rfl, le_refl _, fun _ _ => rfl, h.keyed, List.nodup_nil,
    fun _ hx => absurd hx List.not_mem_nil⟩

/-- The registry and the segment map are as they were. -/
theorem congr (h : Lays s₀ s l) (hr : s'.registry = s.registry)
    (hm : s'.nvram.segmentMap = s.nvram.segmentMap) : Lays s₀ s' l := by
  have hseg : ∀ x, s'.seg x = s.seg x := fun x => by
    unfold Store.seg
    rw [hm]
  have hnext : s'.next = s.next := congrArg (fun reg : CapsuleRegistry => reg.nextSegmentId) hr
  refine ⟨fun hash => ?_, hr ▸ h.capsules, hnext ▸ h.next, fun x hx => (hseg x).trans (h.seg x hx),
    fun x segment hx => ?_, h.once, hnext ▸ h.drawn⟩
  · exact (congrArg (fun reg : CapsuleRegistry => reg.contentStore.lookup hash) hr).trans
      (h.content hash)
  · rw [hnext]
    exact h.keyed x segment (hseg x ▸ hx)

theorem rekeyed (h : Lays s₀ s l) (hr : s.Rekeyed s') : Lays s₀ s' l :=
  h.congr hr.registry (by rw [hr.nvram])

/-- The next identifier is new. -/
theorem next_notMem (h : Lays s₀ s l) : (⟨s.next⟩ : SegmentId) ∉ l := fun hm =>
  Nat.lt_irrefl _ (h.drawn _ hm).2

theorem draw (h : Lays s₀ s l) (hnext : s'.next = s.next + 1)
    (hcontent : ∀ hash, s'.content hash = s.content hash)
    (hcaps : s'.registry.capsules = s.registry.capsules)
    (hseg : ∀ x, x.val < s.next → s'.seg x = s.seg x)
    (hkeyed : ∀ x segment, s'.seg x = some segment → segment.id = x ∧ x.val < s'.next) :
    Lays s₀ s' (l ++ [⟨s.next⟩]) where
  content := fun hash => (hcontent hash).trans (h.content hash)
  capsules := hcaps.trans h.capsules
  next := h.next.trans (hnext ▸ Nat.le_succ _)
  seg := fun x hx => (hseg x (hx.trans_le h.next)).trans (h.seg x hx)
  keyed := hkeyed
  once := by
    refine List.nodup_append.mpr ⟨h.once, List.nodup_singleton _, fun x hx y hy => ?_⟩
    rintro rfl
    exact h.next_notMem (List.mem_singleton.mp hy ▸ hx)
  drawn := by
    intro x hx
    rw [hnext]
    rcases List.mem_append.mp hx with hx | hx
    · exact ⟨(h.drawn x hx).1, (h.drawn x hx).2.trans (Nat.lt_succ_self _)⟩
    · obtain rfl := List.mem_singleton.mp hx
      exact ⟨h.next, Nat.lt_succ_self _⟩

/-- A chunk is stored under the next identifier. -/
theorem stored {p : SegmentPrepared} (h : Lays s₀ s l) (hs : s.Single l)
    (hd : policy.dedupe = false) (hst : s.Stored policy p s') :
    Lays s₀ s' (l ++ [⟨s.next⟩]) ∧ s'.Single (l ++ [⟨s.next⟩]) := by
  have hself : s'.seg ⟨s.next⟩ =
      some (p.segment policy ⟨s.next⟩ s.nvram.nextOffset) := by
    rw [hst.seg]
    exact if_pos rfl
  have hother : ∀ x, x ≠ ⟨s.next⟩ → s'.seg x = s.seg x := fun x hx => by
    rw [hst.seg]
    exact if_neg hx
  refine ⟨h.draw hst.next (fun hash => ?_) hst.capsules (fun x hx => ?_) (fun x segment hx => ?_),
    fun x hx => ?_⟩
  · rw [hst.content, hd]
    exact if_neg fun k => Bool.false_ne_true k.1
  · refine hother x ?_
    rintro rfl
    exact Nat.lt_irrefl _ hx
  · rw [show s'.next = s.next + 1 from hst.next]
    by_cases e : x = ⟨s.next⟩
    · subst e
      rw [hself, Option.some.injEq] at hx
      subst hx
      exact ⟨describe_id, Nat.lt_succ_self _⟩
    · rw [hother x e] at hx
      exact ⟨(h.keyed x segment hx).1, (h.keyed x segment hx).2.trans (Nat.lt_succ_self _)⟩
  · rcases List.mem_append.mp hx with hx | hx
    · rw [hother x fun e => h.next_notMem (e ▸ hx)]
      exact hs x hx
    · obtain rfl := List.mem_singleton.mp hx
      exact ⟨_, hself, describe_refCount⟩

/-- An identifier is drawn for a staged chunk. -/
theorem drew (h : Lays s₀ s l) (hdr : s.Drew s') : Lays s₀ s' (l ++ [⟨s.next⟩]) := by
  have hseg : ∀ x, s'.seg x = s.seg x := fun x => by
    unfold Store.seg
    rw [hdr.map]
  refine h.draw hdr.next (fun hash => ?_) hdr.capsules (fun x _ => hseg x) fun x segment hx => ?_
  · unfold Store.content
    rw [hdr.contentStore]
  · rw [show s'.next = s.next + 1 from hdr.next]
    rw [hseg] at hx
    exact ⟨(h.keyed x segment hx).1, (h.keyed x segment hx).2.trans (Nat.lt_succ_self _)⟩

end Lays

/-! ### What the write leaves -/

/-- What a write that opts out leaves: the segments and the hashes that were there are as they were,
and a write that succeeds has added its capsule, with new segments of one reference each. -/
structure OptedOut (s₀ : Store P) (id : CapsuleId) (policy : Policy) (r : Except Error CapsuleId)
    (s : Store P) : Prop where
  content : ∀ hash, s.content hash = s₀.content hash
  next : s₀.next ≤ s.next
  seg : ∀ x, x.val < s₀.next → s.seg x = s₀.seg x
  keyed : ∀ x segment, s.seg x = some segment → segment.id = x ∧ x.val < s.next
  cap : match r with
    | .error _ => ∀ id', s.cap id' = s₀.cap id'
    | .ok id' => id' = id ∧ s₀.cap id = none ∧ ∃ c, c.policy = policy ∧ c.segments.Nodup ∧
      (∀ x ∈ c.segments, s₀.next ≤ x.val ∧ x.val < s.next) ∧ s.Single c.segments ∧
      ∀ id', s.cap id' = if id' = id then some c else s₀.cap id'

theorem Lays.failed (h : Lays s₀ s l) (e : Error) : OptedOut s₀ id policy (.error e) s :=
  ⟨h.content, h.next, h.seg, h.keyed, fun id' =>
    congrArg (fun m : Table CapsuleId Capsule => m.lookup id') h.capsules⟩

theorem Lays.created (h : Lays s₀ s l) (hs : s.Single l) {size : Nat}
    (hnew : s.registry.capsules.lookup id = none)
    (hc : Created s s' id ⟨id, size, l, policy, 0⟩) (hn : s'.next = s.next) :
    OptedOut s₀ id policy (.ok id) s' := by
  have hseg : ∀ x, s'.seg x = s.seg x := fun x => by
    unfold Store.seg
    rw [hc.nvram]
  refine ⟨fun hash => ?_, hn ▸ h.next, fun x hx => (hseg x).trans (h.seg x hx),
    fun x segment hx => ?_, rfl, ?_, ⟨id, size, l, policy, 0⟩, rfl, h.once, hn ▸ h.drawn,
    fun x hx => (hseg x).symm ▸ hs x hx, fun id' => ?_⟩
  · refine Eq.trans ?_ (h.content hash)
    unfold Store.content
    rw [hc.contentStore]
  · rw [hn]
    exact h.keyed x segment (hseg x ▸ hx)
  · rw [Store.cap, ← h.capsules]
    exact hnew
  · unfold Store.cap
    rw [hc.cap, h.capsules]

/-- **The capsules that opt out stay alone, and the new one is.** -/
theorem OptedOut.apart {r : Except Error CapsuleId} (h : OptedOut s₀ id policy r s)
    (h₀ : s₀.Apart) : s.Apart := by
  -- a capsule that was there is alone among those that were
  have hold : ∀ id₁ c₁, s₀.cap id₁ = some c₁ → c₁.policy.dedupe = false →
      (∀ id' c', s.cap id' = some c' → s₀.cap id' = some c' ∨
        ∀ x ∈ c'.segments, s₀.next ≤ x.val) → s.Alone id₁ c₁ := by
    intro id₁ c₁ hc₁ hd hcaps
    have ha := h₀.alone id₁ c₁ hc₁ hd
    refine ⟨ha.once, fun id' c' hc' x hx hx' => ?_, fun x hx => ?_, fun hash x hx => ?_⟩
    · rcases hcaps id' c' hc' with hc' | hnew
      · exact ha.only id' c' hc' x hx hx'
      · exact absurd (h₀.listed id₁ c₁ hc₁ x hx) (Nat.not_lt.mpr (hnew x hx'))
    · rw [h.seg x (h₀.listed id₁ c₁ hc₁ x hx)]
      exact ha.counted x hx
    · exact ha.hidden hash x (h.content hash ▸ hx)
  have hcontent : ∀ hash x, s.content hash = some x → x.val < s.next := fun hash x hx =>
    (h₀.content hash x (h.content hash ▸ hx)).trans_le h.next
  have hcap := h.cap
  cases r with
  | error e =>
      have hcap : ∀ id', s.cap id' = s₀.cap id' := hcap
      refine ⟨h.keyed, hcontent, fun id₁ c hc x hx => ?_, fun id₁ c hc hd => ?_⟩
      · exact (h₀.listed id₁ c (hcap id₁ ▸ hc) x hx).trans_le h.next
      · exact hold id₁ c (hcap id₁ ▸ hc) hd fun id' c' hc' => .inl (hcap id' ▸ hc')
  | ok id' =>
      obtain ⟨-, hnone, c, -, honce, hdrawn, hsingle, hcap⟩ := hcap
      have hcases : ∀ id' c', s.cap id' = some c' →
          id' = id ∧ c' = c ∨ id' ≠ id ∧ s₀.cap id' = some c' := by
        intro id' c' hc'
        rw [hcap] at hc'
        by_cases e : id' = id
        · rw [if_pos e, Option.some.injEq] at hc'
          exact .inl ⟨e, hc'.symm⟩
        · rw [if_neg e] at hc'
          exact .inr ⟨e, hc'⟩
      refine ⟨h.keyed, hcontent, fun id₁ c₁ hc x hx => ?_, fun id₁ c₁ hc hd => ?_⟩
      · rcases hcases id₁ c₁ hc with ⟨rfl, rfl⟩ | ⟨-, hc⟩
        · exact (hdrawn x hx).2
        · exact (h₀.listed id₁ c₁ hc x hx).trans_le h.next
      · rcases hcases id₁ c₁ hc with ⟨rfl, rfl⟩ | ⟨-, hc⟩
        · refine ⟨honce, fun id' c' hc' x hx hx' => ?_, hsingle, fun hash x hx hm => ?_⟩
          · rcases hcases id' c' hc' with ⟨e, -⟩ | ⟨-, hc'⟩
            · exact e
            · exact absurd (h₀.listed id' c' hc' x hx') (Nat.not_lt.mpr (hdrawn x hx).1)
          · exact absurd (h₀.content hash x (h.content hash ▸ hx))
              (Nat.not_lt.mpr (hdrawn x hm).1)
        · refine hold id₁ c₁ hc hd fun id' c' hc' => ?_
          rcases hcases id' c' hc' with ⟨-, rfl⟩ | ⟨-, hc'⟩
          · exact .inr fun x hx => (hdrawn x hx).1
          · exact .inl hc'

/-! ### The synchronous write -/

namespace WritePipeline
variable {data : Bytes}

theorem wp_writeChunk_optOut (hd : policy.dedupe = false) {st : WriteState} {chunk : Bytes × Nat}
    (h : Lays s₀ s st.segmentIds) (hs : s.Single st.segmentIds)
    (hb : st.dedupStats.bytesSaved = 0) :
    (writeChunk P policy st chunk).wp (Direct P) (fun _ _ => True) (fun r s' => match r with
      | .ok st' => Lays s₀ s' st'.segmentIds ∧ s'.Single st'.segmentIds ∧
        st'.dedupStats.bytesSaved = 0
      | .error _ => ∃ l, Lays s₀ s' l) s := by
  refine wp_writeChunk_store (fun e s' _ hr => ⟨_, h.rekeyed hr⟩) ?_ ?_
  · intro p x t s' _ hd'
    rw [hd] at hd'
    cases hd'
  · intro p s' _ _ hst
    obtain ⟨h', hs'⟩ := h.stored hs hd hst
    exact ⟨h', hs', hb⟩

/-- The capsule is created, if there is none. -/
theorem wp_create_optOut {size : Nat} (h : Lays s₀ s l) (hs : s.Single l)
    {Q : Except Error Unit → Store P → Prop} (herr : ∀ e, Q (.error e) s)
    (hok : ∀ s', OptedOut s₀ id policy (.ok id) s' → Q (.ok ()) s') :
    (Native.createCapsuleWithSegments id size l policy).wp (Direct P) (fun _ _ => True) Q s := by
  refine wp_storeOp (.createCapsuleWithSegments id size l policy) ?_
  cases hl : s.registry.capsules.lookup id with
  | some c =>
      simp only [StoreOp.exec, CapsuleRegistry.createCapsuleWithSegments, hl]
      exact herr _
  | none =>
      simp only [StoreOp.exec, CapsuleRegistry.createCapsuleWithSegments, hl]
      exact hok _ (h.created hs hl ⟨rfl, rfl, rfl, fun _ => Table.lookup_insert _ _ _ _⟩ rfl)

theorem wp_writeCapsule_optOut (hd : policy.dedupe = false) (h₀ : s₀.Apart) :
    (writeCapsuleWithPolicy P id data policy).wp (Direct P) (fun _ _ => True)
      (OptedOut s₀ id policy) s₀ := by
  refine wp_bind.mpr (wp_foldlM (fun _ st s => Lays s₀ s st.segmentIds ∧ s.Single st.segmentIds ∧
    st.dedupStats.bytesSaved = 0) ?_ ?_ _ _ _
    ⟨.start h₀, fun _ hx => absurd hx List.not_mem_nil, rfl⟩)
  · rintro chunk rest st s ⟨h, hs, hb⟩
    refine wp_mono (wp_writeChunk_optOut hd h hs hb) fun r s' hr => ?_
    cases r with
    | ok st' => exact hr
    | error e =>
        obtain ⟨l, h'⟩ := hr
        exact h'.failed e
  · rintro st s ⟨h, hs, hb⟩
    show Prog.wp _ _ _ (if 0 < st.dedupStats.bytesSaved then _ else _) s
    rw [if_neg (by rw [hb]; exact Nat.lt_irrefl 0)]
    exact wp_bind.mpr (wp_mapError.mpr (wp_create_optOut h hs (fun e => h.failed _) fun _ k => k))

/-! ### The asynchronous write -/

/-- The coordinator has staged what it has drawn, and has taken no reference. -/
structure Staged (s₀ : Store P) (st : AsyncState) (s : Store P) : Prop where
  lays : Lays s₀ s st.segmentIds
  active : st.transaction.finalized = false
  pending : (st.transaction.pending.map fun p => p.segment.id) = st.segmentIds
  single : ∀ p ∈ st.transaction.pending, p.segment.refCount = 1
  stats : st.dedupStats.bytesSaved = 0
  increments : st.dedupeIncrements = []
  registrations : st.pendingRegistrations = []

theorem Staged.rekeyed {st : AsyncState} (h : Staged s₀ st s) (hr : s.Rekeyed s') :
    Staged s₀ st s' := { h with lays := h.lays.rekeyed hr }

theorem wp_drain_optOut (hd : policy.dedupe = false) : ∀ (n : Nat) (st : AsyncState) (s : Store P),
    Staged s₀ st s → (drain policy n st).wp (Direct P) (fun _ _ => True)
      (fun r s' => ∃ st', r = .ok st' ∧ Staged s₀ st' s') s
  | 0, st, s, h => ⟨st, rfl, h⟩
  | n + 1, st, s, h => by
      have hnot : ¬ policy.dedupe = true := by
        rw [hd]
        exact Bool.false_ne_true
      have hnew : ∀ q ∈ st.transaction.pending, q.segment.id ≠ ⟨s.registry.nextSegmentId⟩ := by
        intro q hq e
        have hm : q.segment.id ∈ st.segmentIds := h.pending ▸ List.mem_map_of_mem hq
        exact h.lays.next_notMem (e ▸ hm)
      unfold drain
      split
      · exact ⟨st, rfl, h⟩
      · refine wp_bind.mpr (wp_attempt.mpr (wp_commitSegment_store h.active hnew ?_ ?_ ?_ ?_))
        · exact fun e _ => ⟨_, rfl, { h with }⟩
        · exact fun _ _ _ hd' => absurd hd' hnot
        · exact fun _ _ _ hd' => absurd hd' hnot
        · intro s' _ hdr
          refine wp_drain_optOut hd n _ s' ⟨h.lays.drew hdr, h.active, ?_, fun q hq => ?_, h.stats,
            h.increments, ?_⟩
          · show List.map _ (st.transaction.pending ++ [_]) = st.segmentIds ++ [_]
            rw [List.map_append, h.pending]
            exact congrArg (fun x => st.segmentIds ++ [x]) describe_id
          · rcases List.mem_append.mp hq with hq | hq
            · exact h.single q hq
            · obtain rfl := List.mem_singleton.mp hq
              exact describe_refCount
          · unfold AsyncState.committed
            dsimp only
            rw [if_neg hnot]
            exact h.registrations

theorem wp_arrive_optOut (hd : policy.dedupe = false) {total : Nat} {st : AsyncState}
    {chunk : Bytes × Nat} (h : Staged s₀ st s) :
    (arrive P policy total st chunk).wp (Direct P) (fun _ _ => True)
      (fun r s' => ∃ st', r = .ok st' ∧ Staged s₀ st' s') s := by
  refine wp_bind.mpr (wp_attempt.mpr (wp_prepareSegment_store (fun e u _ hr => ?_)
    fun p u _ hr => ?_))
  · exact ⟨_, rfl, { h.rekeyed hr with }⟩
  · show Prog.wp _ _ _ (if st.commitError.isSome = true then _ else _) u
    split
    · exact ⟨st, rfl, h.rekeyed hr⟩
    · exact wp_drain_optOut hd _ _ _ { h.rekeyed hr with }

/-- **The transaction is committed**: what was staged is there. -/
theorem Staged.commit {st : AsyncState} (h : Staged s₀ st s) :
    Lays s₀ { s with nvram := (st.transaction.commit s.nvram).2 } st.segmentIds ∧
      Store.Single { s with nvram := (st.transaction.commit s.nvram).2 } st.segmentIds := by
  unfold NvramTransaction.commit
  rw [if_neg (by rw [h.active]; exact Bool.false_ne_true)]
  split
  · next hp =>
      have hnil : st.segmentIds = [] := by
        rw [← h.pending, hp]
        rfl
      exact ⟨h.lays.congr rfl rfl, hnil ▸ fun _ hx => absurd hx List.not_mem_nil⟩
  · have hids : (st.transaction.pending.map fun p => p.segment.id).Nodup := h.pending ▸ h.lays.once
    have hmem : ∀ p ∈ st.transaction.pending, p.segment.id ∈ st.segmentIds := fun p hp =>
      h.pending ▸ List.mem_map_of_mem hp
    have hother : ∀ x, x ∉ st.segmentIds → (NvramTransaction.installPending st.transaction.pending
        s.nvram.segmentMap).lookup x = s.seg x := fun x hx =>
      NvramTransaction.lookup_installPending_of_not_mem fun p hp e => hx (e ▸ hmem p hp)
    refine ⟨⟨h.lays.content, h.lays.capsules, h.lays.next, fun x hx => ?_, fun x segment hx => ?_,
      h.lays.once, h.lays.drawn⟩, fun x hx => ?_⟩
    · rw [← h.lays.seg x hx]
      exact hother x fun hm => Nat.not_lt.mpr (h.lays.drawn x hm).1 hx
    · have hx : (NvramTransaction.installPending st.transaction.pending
          s.nvram.segmentMap).lookup x = some segment := hx
      refine ⟨NvramTransaction.installPending_keyed (fun y t hy => (h.lays.keyed y t hy).1) hx, ?_⟩
      by_cases hm : x ∈ st.segmentIds
      · exact (h.lays.drawn x hm).2
      · rw [hother x hm] at hx
        exact (h.lays.keyed x segment hx).2
    · rw [← h.pending] at hx
      obtain ⟨p, hp, rfl⟩ := List.mem_map.mp hx
      obtain ⟨a, b, hab⟩ := List.append_of_mem hp
      rw [hab] at hids ⊢
      exact ⟨_, NvramTransaction.lookup_installPending_mem hids, h.single p hp⟩

theorem wp_finishAsync_optOut {size total : Nat} {st : AsyncState} (h : Staged s₀ st s) :
    (finishAsync id size policy total st).wp (Direct P) (fun _ _ => True)
      (OptedOut s₀ id policy) s := by
  unfold finishAsync createWritten
  split
  · next e _ =>
      refine wp_bind.mpr (wp_discard.mpr (wp_storeOp (.rollback st.transaction) ?_))
      rw [h.increments]
      have hlays : Lays s₀ { s with nvram := (st.transaction.rollback s.nvram).2 }
          st.segmentIds := h.lays.congr rfl ?_
      · exact hlays.failed e
      show (st.transaction.rollback s.nvram).2.segmentMap = s.nvram.segmentMap
      unfold NvramTransaction.rollback
      split <;> rfl
  · refine wp_bind.mpr (wp_attempt.mpr (wp_storeOp (.commit st.transaction) ?_))
    obtain ⟨hl, hs⟩ := h.commit
    rw [h.registrations, h.increments]
    refine wp_bind.mpr (wp_pure.mpr (wp_bind.mpr (wp_attempt.mpr (wp_create_optOut hl hs
      (fun e => ?_) fun s' k => ?_))))
    · exact hl.failed _
    · show Prog.wp _ _ _ (if 0 < st.dedupStats.bytesSaved then _ else _) s'
      rw [if_neg (by rw [h.stats]; exact Nat.lt_irrefl 0)]
      exact k

theorem wp_writeAsync_optOut (hd : policy.dedupe = false) (h₀ : s₀.Apart) {limit : Nat}
    {arrivals : Order (Bytes × Nat)} :
    (writeCapsuleWithPolicyAsync P limit arrivals id data policy).wp (Direct P) (fun _ _ => True)
      (OptedOut s₀ id policy) s₀ := by
  have hstart : Lays s₀ s₀ [] := .start h₀
  show Prog.wp _ _ _ (if (chunks SEGMENT_SIZE data).zipIdx.length = 0 then _ else _) s₀
  split
  · exact wp_bind.mpr (wp_mapError.mpr (wp_create_optOut hstart
      (fun _ hx => absurd hx List.not_mem_nil) (fun e => hstart.failed _) fun _ k => k))
  · refine wp_bind.mpr (wp_storeOp .beginTransaction ?_)
    refine andThen_ok.mpr ?_
    dsimp only
    split
    · refine wp_bind.mpr (wp_discard.mpr (wp_storeOp (.rollback s₀.nvram.beginTransaction) ?_))
      exact (hstart.congr rfl rfl).failed _
    · refine wp_bind.mpr (wp_foldlM (fun _ st s => Staged s₀ st s) ?_ ?_ _ _ _
        ⟨hstart, rfl, rfl, fun _ hp => absurd hp List.not_mem_nil, rfl, rfl, rfl⟩)
      · intro chunk rest st s h
        refine wp_mono (wp_arrive_optOut hd h) ?_
        rintro r s' ⟨st', rfl, h'⟩
        exact h'
      · exact fun st s h => wp_finishAsync_optOut h

end WritePipeline

end Space

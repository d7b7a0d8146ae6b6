import Space.Native.Repair
import Space.Native.Sharing

/-!
# Native — Limits

Reference counts at the limit of a `u32`.  A count saturates where a reference is taken, in the map
or in a transaction, and wraps where references are recounted; a reference that is dropped always
takes one off.

* `StagedRefs`, `StoredRefs`: what happens to a segment to which references are held, at most
  `limit` at once and one at least, whatever else happens in the store.
* `storedRefs_retained_iff`: the segment stays as long as references are held if and only if the
  limit is that of the count.  With one reference more, dropping all but one brings it to zero.
-/

namespace Space
open Support Prog

variable {P : Primitives} {s s' : Store P} {x y : SegmentId} {n limit : Nat}

/-! ### The references to a segment -/

/-- A segment is staged in an active transaction, and `n` references to it are held. -/
inductive StagedRefs (limit : Nat) (x : SegmentId) : NvramTransaction → Nat → Prop
  /-- It is staged with one reference. -/
  | new {t : NvramTransaction} {segment : Segment} (ha : t.finalized = false)
      (hids : (t.pending.map fun p => p.segment.id).Nodup) (hx : t.pendingSegment x = some segment)
      (h1 : segment.refCount = 1) : StagedRefs limit x t 1
  /-- A chunk of the same write reuses it. -/
  | reuse {t t' : NvramTransaction} {n : Nat} (h : StagedRefs limit x t n) (hn : n + 1 ≤ limit)
      (ht : t.withSegmentMut x Segment.reuse = .ok t') : StagedRefs limit x t' (n + 1)
  /-- Something else is staged. -/
  | other {t t' : NvramTransaction} {n : Nat} (h : StagedRefs limit x t n)
      (ha : t'.finalized = false) (hids : (t'.pending.map fun p => p.segment.id).Nodup)
      (hx : t'.pendingSegment x = t.pendingSegment x) : StagedRefs limit x t' n

/-- A segment is stored, and `n` references to it are held. -/
inductive StoredRefs (limit : Nat) (x : SegmentId) : Store P → Nat → Prop
  /-- It is stored with one reference. -/
  | new {s : Store P} {segment : Segment} (hk : s.Keyed) (hx : s.seg x = some segment)
      (h1 : segment.refCount = 1) : StoredRefs limit x s 1
  /-- The transaction it is staged in is committed. -/
  | commit {s : Store P} {t : NvramTransaction} {n : Nat} (hk : s.Keyed)
      (h : StagedRefs limit x t n) : StoredRefs limit x ((Native.commit t).run StoreOp.exec s).2 n
  /-- A dedup hit takes a reference. -/
  | increment {s : Store P} {n : Nat} (h : StoredRefs limit x s n) (hn : n + 1 ≤ limit) :
      StoredRefs limit x ((Native.incrementRefcount x).run StoreOp.exec s).2 (n + 1)
  /-- The references that the capsules hold are counted again. -/
  | recount {s : Store P} (capsuleOrd : Order CapsuleId) (segmentOrd sweepOrd : Order Segment)
      (hk : s.Keyed) (hx : s.seg x ≠ none) (h1 : 1 ≤ s.occurrences x)
      (hn : s.occurrences x ≤ limit) :
      StoredRefs limit x ((WritePipeline.reconcileRefcounts capsuleOrd segmentOrd sweepOrd).run
        StoreOp.exec s).2 (s.occurrences x)
  /-- A reference is dropped. -/
  | decrement {s : Store P} {n : Nat} (h : StoredRefs limit x s (n + 1)) (h1 : 1 ≤ n) :
      StoredRefs limit x ((Native.decrementRefcount x).run StoreOp.exec s).2 n
  /-- A capsule is deleted, and with it the references it holds. -/
  | delete {s : Store P} {n : Nat} {id : CapsuleId} {c : Capsule} (hc : s.cap id = some c)
      (h : StoredRefs limit x s (n + c.segments.count x)) (h1 : 1 ≤ n) :
      StoredRefs limit x ((WritePipeline.deleteCapsule id).run StoreOp.exec s).2 n
  /-- Segments without references are swept. -/
  | sweep {s : Store P} {n : Nat} (ord : Order Segment) (h : StoredRefs limit x s n) :
      StoredRefs limit x ((GarbageCollector.sweep ord).run StoreOp.exec s).2 n
  /-- Something else happens. -/
  | other {s s' : Store P} {n : Nat} (h : StoredRefs limit x s n) (hk : s'.Keyed)
      (hx : s'.seg x = s.seg x) : StoredRefs limit x s' n

/-- The segment is there, with a count above zero. -/
def Store.Retained (s : Store P) (x : SegmentId) : Prop :=
  ∃ segment, s.seg x = some segment ∧ segment.refCount ≠ 0

/-- The segment is there, and counts `n` references or more. -/
structure Store.Covers (s : Store P) (x : SegmentId) (n : Nat) : Prop where
  keyed : s.Keyed
  counts : ∃ segment, s.seg x = some segment ∧ n ≤ segment.refCount

namespace Store.Covers

theorem retained (h : s.Covers x n) (hn : 1 ≤ n) : s.Retained x := by
  obtain ⟨segment, hx, hc⟩ := h.counts
  exact ⟨segment, hx, fun e => by omega⟩

theorem mono {m : Nat} (h : s.Covers x n) (hm : m ≤ n) : s.Covers x m where
  keyed := h.keyed
  counts := h.counts.imp fun _ k => ⟨k.1, hm.trans k.2⟩

/-- What leaves the entry of the segment alone. -/
theorem congr (h : s.Covers x n) (hk : s'.Keyed) (hx : s'.seg x = s.seg x) : s'.Covers x n where
  keyed := hk
  counts := hx ▸ h.counts

end Store.Covers

/-! ### What is done to a segment -/

/-- The map after a reference is taken. -/
theorem seg_increment (s : Store P) (y : SegmentId) :
    ∃ f : Segment → Segment, (∀ t, (f t).id = t.id ∧ (f t).refCount = saturatingSucc t.refCount) ∧
      ∀ x, (StoreOp.exec (.incrementRefcount y) s).2.seg x =
        if x = y then (s.seg y).map f else s.seg x := by
  refine ⟨fun t => { t with
    refCount := saturatingSucc t.refCount
    deduplicated := decide (1 < saturatingSucc t.refCount)
    accessCount := saturatingSucc t.accessCount }, fun t => ⟨rfl, rfl⟩, fun x => ?_⟩
  show (s.nvram.incrementRefcount y).2.segmentMap.lookup x = _
  unfold NvramLog.incrementRefcount Store.seg
  cases hy : s.nvram.segmentMap.lookup y with
  | none =>
      by_cases e : x = y
      · rw [if_pos e, e, hy]
        rfl
      · rw [if_neg e]
  | some t => exact Table.lookup_insert _ y x _

/-- The map after a reference is dropped. -/
theorem seg_decrement (s : Store P) (y : SegmentId) :
    ∃ f : Segment → Segment, (∀ t, (f t).id = t.id ∧ (f t).refCount = t.refCount - 1) ∧
      ∀ x, (StoreOp.exec (.decrementRefcount y) s).2.seg x =
        if x = y then (s.seg y).map f else s.seg x := by
  refine ⟨fun t => if t.refCount = 0 then t else { t with
    refCount := t.refCount - 1
    deduplicated := decide (1 < t.refCount - 1) }, fun t => ?_, fun x => ?_⟩
  · dsimp only
    split
    · next h0 => exact ⟨rfl, by omega⟩
    · exact ⟨rfl, rfl⟩
  · show (s.nvram.decrementRefcount y).2.segmentMap.lookup x = _
    unfold NvramLog.decrementRefcount Store.seg
    cases hy : s.nvram.segmentMap.lookup y with
    | none =>
        by_cases e : x = y
        · rw [if_pos e, e, hy]
          rfl
        · rw [if_neg e]
    | some t =>
        dsimp only
        by_cases h0 : t.refCount = 0
        · rw [if_pos h0, Option.map_some, if_pos h0]
          by_cases e : x = y
          · rw [if_pos e, e, hy]
          · rw [if_neg e]
        · rw [if_neg h0, Option.map_some, if_neg h0]
          exact Table.lookup_insert _ y x _

/-- The map after a segment is removed. -/
theorem seg_removeSegment (s : Store P) (y x : SegmentId) :
    (StoreOp.exec (.removeSegment y) s).2.seg x = if x = y then none else s.seg x :=
  NvramLog.removeSegment_lookup s.nvram y x

/-- A segment changed under its own identifier. -/
theorem Store.Keyed.update (hk : s.Keyed) {f : Segment → Segment} (hf : ∀ t, (f t).id = t.id)
    (hs : ∀ x, s'.seg x = if x = y then (s.seg y).map f else s.seg x) : s'.Keyed := by
  intro z t hz
  rw [hs] at hz
  split at hz
  · next e =>
      obtain ⟨u, hu, rfl⟩ := Option.map_eq_some_iff.mp hz
      rw [hf, hk y u hu, e]
  · exact hk z t hz

namespace Store.Covers

theorem increment (h : s.Covers x n) (hn : n + 1 ≤ u32Max) :
    ((StoreOp.exec (.incrementRefcount x) s).2).Covers x (n + 1) := by
  obtain ⟨f, hf, hs⟩ := seg_increment s x
  obtain ⟨t, ht, hc⟩ := h.counts
  refine ⟨h.keyed.update (fun t => (hf t).1) hs, f t, by rw [hs, if_pos rfl, ht]; rfl, ?_⟩
  rw [(hf t).2]
  exact Nat.le_min.mpr ⟨Nat.succ_le_succ hc, hn⟩

theorem decrement (h : s.Covers x (n + 1)) :
    ((StoreOp.exec (.decrementRefcount x) s).2).Covers x n := by
  obtain ⟨f, hf, hs⟩ := seg_decrement s x
  obtain ⟨t, ht, hc⟩ := h.counts
  refine ⟨h.keyed.update (fun t => (hf t).1) hs, f t, by rw [hs, if_pos rfl, ht]; rfl, ?_⟩
  rw [(hf t).2]
  exact Nat.le_sub_of_add_le hc

theorem decrement_other (h : s.Covers x n) (hy : y ≠ x) :
    ((StoreOp.exec (.decrementRefcount y) s).2).Covers x n := by
  obtain ⟨f, hf, hs⟩ := seg_decrement s y
  exact h.congr (h.keyed.update (fun t => (hf t).1) hs) (by rw [hs, if_neg (Ne.symm hy)])

theorem remove_other (h : s.Covers x n) (hy : y ≠ x) :
    ((StoreOp.exec (.removeSegment y) s).2).Covers x n := by
  refine h.congr (fun z t hz => ?_) (by rw [seg_removeSegment, if_neg (Ne.symm hy)])
  rw [seg_removeSegment] at hz
  split at hz
  · cases hz
  · exact h.keyed z t hz

end Store.Covers

/-! ### The methods -/

namespace WritePipeline

/-- Dropping a reference of any segment, as a delete does.  The last one is never that of the
segment in question. -/
theorem wp_releaseSegment_covers (hn : 1 ≤ n) (h : s.Covers x (n + if y = x then 1 else 0)) :
    (releaseSegment y).wp (StoreOp.exec (P := P)).moves (fun _ _ => True)
      (fun _ s' => s'.Covers x n) s := by
  unfold releaseSegment
  refine wp_bind.mpr (wp_storeOp (.decrementRefcount y) ?_)
  by_cases hy : y = x
  · subst hy
    rw [if_pos rfl] at h
    have hd := h.decrement
    cases he : (StoreOp.exec (.decrementRefcount y) s).1 with
    | error e => exact hd
    | ok t =>
        -- what the operation answers is what it has entered
        have ht : (StoreOp.exec (.decrementRefcount y) s).2.seg y = some t := by
          obtain ⟨u, hu, -⟩ := h.counts
          simp only [StoreOp.exec, NvramLog.decrementRefcount] at he ⊢
          rw [show s.nvram.segmentMap.lookup y = some u from hu] at he ⊢
          dsimp only at he ⊢
          split at he
          · cases he
          · next h0 =>
              cases he
              rw [if_neg h0]
              exact (Table.lookup_insert _ y y _).trans (if_pos rfl)
        obtain ⟨u, hu, hc⟩ := hd.counts
        obtain rfl : t = u := Option.some.inj (ht.symm.trans hu)
        show Prog.wp _ _ _ (if t.refCount = 0 then _ else _) _
        rw [if_neg (by omega)]
        exact hd
  · rw [if_neg hy, Nat.add_zero] at h
    have hd := h.decrement_other hy
    have hremove : ∀ {s'' : Store P}, s''.Covers x n →
        (discard (Native.removeSegment y) : Native Unit).wp (StoreOp.exec (P := P)).moves
          (fun _ _ => True) (fun _ s' => s'.Covers x n) s'' := fun h' =>
      wp_bind.mpr (wp_storeOp (.removeSegment y) (h'.remove_other hy))
    cases (StoreOp.exec (.decrementRefcount y) s).1 with
    | error e => exact hd
    | ok t =>
        show Prog.wp _ _ _ (if t.refCount = 0 then _ else _) _
        split
        · cases t.contentHash with
          | none => exact hremove hd
          | some hash =>
              refine wp_bind.mpr (wp_bind.mpr (wp_storeOp (.deregisterContent hash y) ?_))
              exact hremove (hd.congr (fun z u hz => hd.keyed z u hz) rfl)
        · exact hd

/-- **A delete** drops a reference for each time the capsule lists the segment. -/
theorem deleteCapsule_covers {id : CapsuleId} {c : Capsule} (hc : s.cap id = some c)
    (hn : 1 ≤ n) (h : s.Covers x (n + c.segments.count x)) :
    ((deleteCapsule id).run StoreOp.exec s).2.Covers x n := by
  refine wp_run (Q := fun _ (s' : Store P) => s'.Covers x n) (J := fun _ _ => True) ?_
  unfold deleteCapsule
  refine wp_bind.mpr (wp_storeOp (.deleteCapsule id) ?_)
  simp only [StoreOp.exec, CapsuleRegistry.deleteCapsule]
  rw [show s.registry.capsules.lookup id = some c from hc]
  dsimp only
  refine wp_foldlM (fun rest _ s' => s'.Covers x (n + rest.count x)) ?_ (fun _ _ k => k) _ _ _
    ⟨h.keyed, h.counts⟩
  rintro y rest - s' hs'
  rw [List.count_cons] at hs'
  refine wp_mono (wp_releaseSegment_covers (n := n + rest.count x) (by omega) (hs'.mono ?_)) ?_
  · simp only [beq_iff_eq]
    omega
  · rintro (e | u) s'' h''
    · exact h''.mono (Nat.le_add_right _ _)
    · exact h''

/-- **A sweep** finds no segment with references without any. -/
theorem sweep_covers (ord : Order Segment) (hn : 1 ≤ n) (h : s.Covers x n) :
    ((GarbageCollector.sweep ord).run StoreOp.exec s).2.Covers x n := by
  refine wp_run (Q := fun _ (s' : Store P) => s'.Covers x n) (J := fun _ _ => True) ?_
  refine wp_sweep h.keyed fun _ s' _ hseg _ => ⟨fun z t hz => ?_, ?_⟩
  · exact h.keyed z t ((hseg z t).mp hz).1
  · obtain ⟨t, ht, hc⟩ := h.counts
    exact ⟨t, (hseg x t).mpr ⟨ht, by omega⟩, hc⟩

/-- **A recount** enters the number of references, if it fits. -/
theorem reconcileRefcounts_covers {capsuleOrd : Order CapsuleId}
    {segmentOrd sweepOrd : Order Segment} (hk : s.Keyed) (hx : s.seg x ≠ none)
    (h1 : 1 ≤ s.occurrences x) (hn : s.occurrences x ≤ u32Max) :
    ((reconcileRefcounts capsuleOrd segmentOrd sweepOrd).run StoreOp.exec s).2.Covers x
      (s.occurrences x) := by
  have hfit : asU32 (s.occurrences x) = s.occurrences x :=
    asU32_of_lt (Nat.lt_succ_of_le hn)
  refine wp_run (Q := fun _ (s' : Store P) => s'.Covers x (s.occurrences x))
    (J := fun _ _ => True) ?_
  refine wp_reconcileRefcounts hk fun s' _ hseg _ => ⟨fun z t hz => ?_, ?_⟩
  · obtain ⟨-, u, hu, rfl⟩ := (hseg z t).mp hz
    rw [recount_id]
    exact hk z u hu
  · obtain ⟨u, hu⟩ := Option.ne_none_iff_exists'.mp hx
    refine ⟨recount (asU32 (s.occurrences x)) u, (hseg x _).mpr ⟨by omega, u, hu, rfl⟩, ?_⟩
    rw [recount_refCount, hfit]

end WritePipeline

/-! ### Runs -/

theorem run_incrementRefcount (s : Store P) (x : SegmentId) :
    ((Native.incrementRefcount x).run StoreOp.exec s).2 =
      (StoreOp.exec (.incrementRefcount x) s).2 :=
  congrArg Prod.snd (run_perform (S := StoreSig) StoreOp.exec (.incrementRefcount x) s)

theorem run_decrementRefcount (s : Store P) (x : SegmentId) :
    ((Native.decrementRefcount x).run StoreOp.exec s).2 =
      (StoreOp.exec (.decrementRefcount x) s).2 :=
  congrArg Prod.snd (run_perform (S := StoreSig) StoreOp.exec (.decrementRefcount x) s)

/-- A staged segment counts the references that are held to it. -/
theorem StagedRefs.covers {t : NvramTransaction} (hl : limit ≤ u32Max)
    (h : StagedRefs limit x t n) : t.finalized = false ∧ 1 ≤ n ∧
      (t.pending.map fun p => p.segment.id).Nodup ∧
      ∃ segment, t.pendingSegment x = some segment ∧ n ≤ segment.refCount := by
  induction h with
  | new ha hids hx h1 => exact ⟨ha, le_rfl, hids, _, hx, h1.ge⟩
  | other _ ha hids hx ih => exact ⟨ha, ih.2.1, hids, hx ▸ ih.2.2.2⟩
  | @reuse t t' n _ hn ht ih =>
      obtain ⟨ha, h1, hids, segment, hx, hc⟩ := ih
      obtain ⟨q, hq, rfl⟩ := Option.map_eq_some_iff.mp hx
      have hqx : q.segment.id = x := by simpa using List.find?_some hq
      obtain ⟨a, p, b, hab, hp, hfirst⟩ := exists_first ⟨q, List.mem_of_find?_eq_some hq, hqx⟩
      have hfind : ∀ (l : List PendingSegment) (r : PendingSegment), r.segment.id = x →
          (a ++ r :: l).find? (fun p => p.segment.id = x) = some r := fun l r hr => by
        rw [List.find?_append, List.find?_eq_none.mpr fun u hu => by simpa using hfirst u hu]
        simp [hr]
      obtain rfl : p = q := by
        rw [hab, hfind b p hp] at hq
        exact Option.some.inj hq
      have ht' := (withSegmentMut_first ha hab hp hfirst).symm.trans ht
      cases ht'
      refine ⟨ha, Nat.succ_le_succ (Nat.zero_le n),
        (NvramTransaction.withSegmentMut_ids (f := Segment.reuse) (fun _ k => k) ht) ▸ hids,
        p.segment.reuse, ?_, ?_⟩
      · exact congrArg _ (hfind b ⟨p.segment.reuse, p.data⟩ hp)
      · exact Nat.le_min.mpr ⟨Nat.succ_le_succ hc, hn.trans hl⟩

/-- **A stored segment counts the references that are held to it.** -/
theorem StoredRefs.covers (hl : limit ≤ u32Max) (h : StoredRefs limit x s n) :
    1 ≤ n ∧ s.Covers x n := by
  induction h with
  | new hk hx h1 => exact ⟨le_rfl, hk, _, hx, h1.ge⟩
  | @commit s t n hk h =>
      obtain ⟨ha, h1, hids, segment, hx, hc⟩ := h.covers hl
      have hne : t.pending ≠ [] := by
        intro e
        rw [NvramTransaction.pendingSegment, e] at hx
        cases hx
      have hmap : ((Native.commit t).run StoreOp.exec s).2.nvram.segmentMap =
          NvramTransaction.installPending t.pending s.nvram.segmentMap := by
        show (t.commit s.nvram).2.segmentMap = _
        unfold NvramTransaction.commit
        rw [ha, if_neg Bool.false_ne_true, if_neg hne]
        rfl
      refine ⟨h1, fun z u hz => ?_, segment, ?_, hc⟩
      · have hz' : ((Native.commit t).run StoreOp.exec s).2.nvram.segmentMap.lookup z = some u := hz
        rw [hmap] at hz'
        exact NvramTransaction.installPending_keyed (fun y v hy => hk y v hy) hz'
      · show ((Native.commit t).run StoreOp.exec s).2.nvram.segmentMap.lookup x = _
        rw [hmap, NvramTransaction.lookup_installPending hids]
        show (t.pendingSegment x).or _ = _
        rw [hx]
        rfl
  | increment _ hn ih =>
      refine ⟨Nat.succ_le_succ (Nat.zero_le _), ?_⟩
      rw [run_incrementRefcount]
      exact ih.2.increment (hn.trans hl)
  | recount _ _ _ hk hx h1 hn =>
      exact ⟨h1, WritePipeline.reconcileRefcounts_covers hk hx h1 (hn.trans hl)⟩
  | decrement _ h1 ih =>
      refine ⟨h1, ?_⟩
      rw [run_decrementRefcount]
      exact ih.2.decrement
  | delete hc _ h1 ih => exact ⟨h1, WritePipeline.deleteCapsule_covers hc h1 ih.2⟩
  | sweep ord _ ih => exact ⟨ih.1, WritePipeline.sweep_covers ord ih.1 ih.2⟩
  | other _ hk hx ih => exact ⟨ih.1, ih.2.congr hk hx⟩

/-! ### Beyond the limit -/

/-- A segment that counts exactly `c` references. -/
def Store.Counted (s : Store P) (x : SegmentId) (c : Nat) : Prop :=
  ∃ segment, s.seg x = some segment ∧ segment.refCount = c

/-- References taken one after the other: the count stays at the last number there is. -/
theorem StoredRefs.increments (h : StoredRefs limit x s 1) (hc : s.Counted x 1) :
    ∀ k, k + 1 ≤ limit → ∃ s' : Store P, StoredRefs limit x s' (k + 1) ∧
      s'.Counted x (min (k + 1) u32Max)
  | 0, _ => ⟨s, h, hc⟩
  | k + 1, hk => by
      obtain ⟨s', h', t, ht, hct⟩ := StoredRefs.increments h hc k (Nat.le_of_succ_le hk)
      obtain ⟨f, hf, hs⟩ := seg_increment s' x
      refine ⟨_, h'.increment hk, f t, ?_, ?_⟩
      · rw [run_incrementRefcount, hs, if_pos rfl, ht]
        rfl
      · rw [(hf t).2, hct, saturatingSucc]
        omega

/-- References dropped one after the other. -/
theorem StoredRefs.decrements {c : Nat} :
    ∀ (k : Nat) {s : Store P}, StoredRefs limit x s (n + 1 + k) → s.Counted x (c + k) →
      ∃ s' : Store P, StoredRefs limit x s' (n + 1) ∧ s'.Counted x c
  | 0, s, h, hc => ⟨s, h, hc⟩
  | k + 1, s, h, hc => by
      obtain ⟨t, ht, hct⟩ := hc
      obtain ⟨f, hf, hs⟩ := seg_decrement s x
      refine StoredRefs.decrements k (h.decrement (Nat.le_add_right_of_le (Nat.le_add_left _ _)))
        ⟨f t, ?_, ?_⟩
      · rw [run_decrementRefcount, hs, if_pos rfl, ht]
        rfl
      · rw [(hf t).2, hct]
        rfl

/-- A store with one segment, of one reference. -/
def singleSegment (P : Primitives) (x : SegmentId) : Store P :=
  { Store.empty none with
    nvram := { NvramLog.empty with
      segmentMap := (∅ : Table SegmentId Segment).insert x (Segment.appended x 0 0) } }

theorem singleSegment_refs (P : Primitives) (x : SegmentId) (limit : Nat) :
    StoredRefs limit x (singleSegment P x) 1 ∧ (singleSegment P x).Counted x 1 := by
  have hx : (singleSegment P x).seg x = some (Segment.appended x 0 0) :=
    (Table.lookup_insert _ x x _).trans (if_pos rfl)
  refine ⟨.new (fun z t hz => ?_) hx rfl, _, hx, rfl⟩
  rcases Table.lookup_insert_eq_some.mp hz with ⟨rfl, rfl⟩ | ⟨-, hz⟩
  · rfl
  · cases hz

/-- **One reference too many**: from the limit on, a count reaches zero while the last reference is
held. -/
theorem exists_storedRefs_counted_zero (P : Primitives) (x : SegmentId) {limit : Nat}
    (hl : u32Max < limit) :
    ∃ s : Store P, StoredRefs limit x s 1 ∧ s.Counted x 0 := by
  obtain ⟨h, hc⟩ := singleSegment_refs P x limit
  obtain ⟨s, hs, hcs⟩ := h.increments hc u32Max hl
  refine StoredRefs.decrements (n := 0) u32Max (s := s) ?_ ?_
  · rwa [Nat.zero_add, Nat.add_comm]
  · rwa [Nat.zero_add, Nat.min_eq_right (Nat.le_succ _)] at *

theorem Store.Counted.not_retained (h : s.Counted x 0) : ¬ s.Retained x := by
  obtain ⟨t, ht, h0⟩ := h
  rintro ⟨u, hu, hne⟩
  rw [ht] at hu
  exact hne (Option.some.inj hu ▸ h0)

/-- **References at the limit.**  A segment is kept in every run that holds at most `limit`
references to it at once if and only if that number fits its count. -/
theorem storedRefs_retained_iff (P : Primitives) (x : SegmentId) (limit : Nat) :
    (∀ (s : Store P) n, StoredRefs limit x s n → s.Retained x) ↔ limit ≤ u32Max := by
  constructor
  · intro h
    by_contra hl
    obtain ⟨s, hs, h0⟩ := exists_storedRefs_counted_zero P x (Nat.not_le.mp hl)
    exact h0.not_retained (h s 1 hs)
  · intro hl s n h
    exact (h.covers hl).2.retained (h.covers hl).1

/-- With 2 ^ 32 references, a segment is lost while one of them is held. -/
theorem not_storedRefs_retained :
    ¬ ∀ (limit : Nat) (P : Primitives) (x : SegmentId) (s : Store P) (n : Nat),
      StoredRefs limit x s n → s.Retained x := by
  intro h
  obtain ⟨s, hs, h0⟩ := exists_storedRefs_counted_zero .stored ⟨0⟩ (Nat.lt_succ_self u32Max)
  exact h0.not_retained (h _ _ _ s 1 hs)

end Space

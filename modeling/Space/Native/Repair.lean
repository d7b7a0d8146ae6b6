import Space.Codec.Stored
import Space.Native.ReconcileSpec

/-!
# Native — Repair

What reconciliation makes of an arbitrary state: any capsules, any content store, any segment map
that files each segment under its own identifier.

* `wp_reconcileRefcounts`: it succeeds; each segment gets the number of its occurrences, as a
  `u32`; those that get zero go, and with them the hashes that named them.
* `reconcileRefcounts_repairs_iff`: when the result is consistent.  A count that was right already
  is left alone together with its `deduplicated` flag; and no entry of the content store is looked
  at but those of the segments that go.
-/

namespace Space
open Support Prog

variable {P : Primitives}

namespace Store

/-- How often the capsules list a segment. -/
def occurrences (s : Store P) (x : SegmentId) : Nat :=
  Table.total (fun c : Capsule => c.segments.count x) s.registry.capsules

/-- Each segment is filed under its own identifier. -/
def Keyed (s : Store P) : Prop := ∀ x segment, s.seg x = some segment → segment.id = x

/-- What reconciliation is for. -/
structure Consistent (s : Store P) : Prop where
  refCount : ∀ x segment, s.seg x = some segment → segment.refCount = s.occurrences x
  deduplicated : ∀ x segment, s.seg x = some segment →
    (segment.deduplicated = true ↔ 1 < segment.refCount)
  referenced : ∀ x segment, s.seg x = some segment → segment.refCount ≠ 0
  content : ∀ h x, s.content h = some x →
    ∃ segment, s.seg x = some segment ∧ segment.contentHash = some h

/-- The drift that is repaired. -/
structure Repairable (s : Store P) : Prop where
  /-- No count is truncated, unless to zero. -/
  counts : ∀ x segment, s.seg x = some segment →
    asU32 (s.occurrences x) = s.occurrences x ∨ asU32 (s.occurrences x) = 0
  /-- Where the count is right, so is the flag. -/
  flags : ∀ x segment, s.seg x = some segment → asU32 (s.occurrences x) ≠ 0 →
    segment.refCount = asU32 (s.occurrences x) →
    (segment.deduplicated = true ↔ 1 < segment.refCount)
  /-- The content store names segments of its hashes. -/
  content : ∀ h x, s.content h = some x →
    ∃ segment, s.seg x = some segment ∧ segment.contentHash = some h

end Store

theorem World.Inv.storeKeyed {D : Discipline} {w : World P} {g : Ghost} (h : World.Inv D w g) :
    w.store.Keyed := fun x segment hx => (h.keyed x segment hx).1

namespace WritePipeline
variable {s s₁ : Store P}

/-! ### Counting, as a `u32` -/

theorem asU32_lt (n : Nat) : asU32 n < 4294967296 := Nat.mod_lt _ (by decide)

theorem asU32_add_asU32 (m n : Nat) : asU32 (asU32 m + n) = asU32 (m + n) := by
  unfold asU32
  rw [Nat.mod_add_mod]

theorem counted_bump_asU32 {counts : Table SegmentId Nat} {x y : SegmentId}
    (h : counted counts x < 4294967296) :
    counted (bump counts y) x = asU32 (counted counts x + if y = x then 1 else 0) := by
  by_cases e : y = x
  · subst e
    rw [if_pos rfl]
    unfold counted bump
    cases hl : counts.lookup y with
    | none => simp [asU32]
    | some c => simp
  · rw [if_neg e, Nat.add_zero, asU32_of_lt h]
    unfold counted bump
    split <;> rw [Table.lookup_insert, if_neg (Ne.symm e)]

theorem counted_foldl_bump_asU32 {x : SegmentId} :
    ∀ (l : List SegmentId) (counts : Table SegmentId Nat), counted counts x < 4294967296 →
      counted (l.foldl bump counts) x = asU32 (counted counts x + l.count x)
  | [], _, h => (asU32_of_lt h).symm
  | y :: l, counts, h => by
      have hb := counted_bump_asU32 (y := y) h
      rw [List.foldl_cons, counted_foldl_bump_asU32 l _ (hb ▸ asU32_lt _), hb, asU32_add_asU32,
        List.count_cons, Nat.add_assoc, Nat.add_comm (if y = x then 1 else 0)]
      simp only [beq_iff_eq]

/-- How often a capsule, if it is there, lists a segment. -/
def listedBy (s : Store P) (x : SegmentId) (id : CapsuleId) : Nat :=
  (s.registry.capsules.lookup id).elim 0 fun c => c.segments.count x

/-- **Counting** the references of any capsules. -/
theorem wp_countReferences_asU32 {ids : List CapsuleId}
    {Q : Except Error (Table SegmentId Nat) → Store P → Prop}
    (hq : ∀ counts, (∀ x, counted counts x = asU32 (ids.map (listedBy s x)).sum) →
      Q (.ok counts) s) :
    (countReferences ids).wp (StoreOp.exec (P := P)).moves (fun _ _ => True) Q s := by
  unfold countReferences
  refine wp_foldlM (fun rest counts s' => s' = s ∧ ∀ x, counted counts x < 4294967296 ∧
    asU32 (counted counts x + (rest.map (listedBy s x)).sum) =
      asU32 (ids.map (listedBy s x)).sum) ?_ ?_ _ _ _
    ⟨rfl, fun x => ⟨(by decide : 0 < 4294967296), ?_⟩⟩
  · rintro id rest counts s' ⟨rfl, hc⟩
    refine wp_bind.mpr (wp_attempt.mpr (wp_storeOp (.lookup id) ?_))
    simp only [StoreOp.exec, CapsuleRegistry.lookup]
    cases hcap : s'.registry.capsules.lookup id with
    | none =>
        refine ⟨rfl, fun x => ⟨(hc x).1, ?_⟩⟩
        rw [← (hc x).2, List.map_cons, List.sum_cons, listedBy, hcap, Option.elim_none,
          Nat.zero_add]
    | some c =>
        refine ⟨rfl, fun x => ?_⟩
        have hf := counted_foldl_bump_asU32 c.segments counts (hc x).1
        refine ⟨hf ▸ asU32_lt _, ?_⟩
        rw [← (hc x).2, hf, asU32_add_asU32, List.map_cons, List.sum_cons, listedBy, hcap,
          Option.elim_some, Nat.add_assoc]
  · rintro counts s' ⟨rfl, hc⟩
    refine hq counts fun x => ?_
    rw [← (hc x).2, List.map_nil, List.sum_nil, Nat.add_zero, asU32_of_lt (hc x).1]
  · exact congrArg asU32 (Nat.zero_add _)

/-! ### Correcting -/

/-- The segment after correction to `n`. -/
def recount (n : Nat) (segment : Segment) : Segment :=
  if segment.refCount ≠ n then corrected n segment else segment

@[simp] theorem recount_refCount {n : Nat} {segment : Segment} :
    (recount n segment).refCount = n := by
  unfold recount
  split
  · rfl
  · next h => exact not_not.mp h

@[simp] theorem recount_id {n : Nat} {segment : Segment} :
    (recount n segment).id = segment.id := by
  unfold recount
  split <;> rfl

@[simp] theorem recount_contentHash {n : Nat} {segment : Segment} :
    (recount n segment).contentHash = segment.contentHash := by
  unfold recount
  split <;> rfl

/-- The identifiers of the segments of a map are different. -/
theorem nodup_ids (hk : s.Keyed) (ord : Order Segment) :
    ((s.nvram.listSegments ord).map Segment.id).Nodup :=
  (((ord.perm _).map _).nodup_iff).mpr (ids_nodup hk)

theorem mem_listSegments {ord : Order Segment} {segment : Segment} :
    segment ∈ s.nvram.listSegments ord ↔ ∃ x, s.seg x = some segment :=
  (Order.mem_reorder ord).trans Table.mem_values

/-- **Correcting** every segment. -/
theorem wp_recount {counts : Table SegmentId Nat} {ord : Order Segment}
    {Q : Except Error Unit → Store P → Prop} (hk : s.Keyed)
    (hq : ∀ s', s'.registry = s.registry →
      (∀ x, s'.seg x = (s.seg x).map (recount (counted counts x))) → Q (.ok ()) s') :
    ((s.nvram.listSegments ord).foldlM (fun _ segment => reconcileSegment counts segment) ()).wp
      (StoreOp.exec (P := P)).moves (fun _ _ => True) Q s := by
  classical
  refine wp_foldlM (fun (rest : List Segment) _ s' => s'.registry = s.registry ∧
    (rest.map Segment.id).Nodup ∧ (∀ t ∈ rest, s.seg t.id = some t) ∧
    ∀ x, s'.seg x = (s.seg x).map fun t => if t ∈ rest then t else recount (counted counts x) t)
    ?_ ?_ _ _ _ ⟨rfl, nodup_ids hk ord, fun t ht => ?_, fun x => ?_⟩
  · rintro t rest - s' ⟨hreg, hnd, hmem, hmap⟩
    rw [List.map_cons, List.nodup_cons] at hnd
    have ht := hmem t List.mem_cons_self
    have hnot : t ∉ rest := fun h => hnd.1 (List.mem_map_of_mem h)
    -- another segment is left to correct as it was
    have other : ∀ x, x ≠ t.id → ((s.seg x).map fun u =>
        if u ∈ t :: rest then u else recount (counted counts x) u) =
        (s.seg x).map fun u => if u ∈ rest then u else recount (counted counts x) u := by
      intro x hx
      cases hu : s.seg x with
      | none => rfl
      | some u =>
          have hut : u ≠ t := fun e => hx ((hk x u hu).symm.trans (e ▸ rfl))
          simp only [Option.map_some, List.mem_cons, hut, false_or]
    have hself : s'.seg t.id = some t := by
      rw [hmap, ht, Option.map_some, if_pos List.mem_cons_self]
    unfold reconcileSegment
    simp only
    split
    · next hne =>
        refine wp_storeOp (.updateSegmentMetadata t.id _)
          ⟨hreg, hnd.2, fun u hu => hmem u (List.mem_cons_of_mem _ hu), fun x => ?_⟩
        refine (Table.lookup_insert _ t.id x _).trans ?_
        by_cases hx : x = t.id
        · subst hx
          rw [if_pos rfl, ht, Option.map_some, if_neg hnot]
          exact congrArg some (if_pos hne).symm
        · rw [if_neg hx, ← other x hx]
          exact hmap x
    · next he =>
        refine ⟨hreg, hnd.2, fun u hu => hmem u (List.mem_cons_of_mem _ hu), fun x => ?_⟩
        by_cases hx : x = t.id
        · subst hx
          rw [hself, ht, Option.map_some, if_neg hnot]
          exact congrArg some (if_neg he).symm
        · rw [← other x hx]
          exact hmap x
  · rintro - s' ⟨hreg, -, -, hmap⟩
    exact hq s' hreg fun x => (hmap x).trans (by simp)
  · obtain ⟨x, hx⟩ := mem_listSegments.mp ht
    rw [hk x t hx]
    exact hx
  · cases hu : s.seg x with
    | none => rfl
    | some u => rw [Option.map_some, if_pos (mem_listSegments.mpr ⟨x, hu⟩)]

/-! ### Sweeping -/

/-- The content store after an entry is removed. -/
theorem content_deregister {h h' : ContentHash} {x y : SegmentId} :
    (s.registry.deregisterContent h x).2.contentStore.lookup h' = some y ↔
      s.content h' = some y ∧ ¬ (h' = h ∧ y = x) := by
  unfold CapsuleRegistry.deregisterContent Store.content
  split
  · next e =>
      show (s.registry.contentStore.erase h).lookup h' = some y ↔ _
      rw [Table.lookup_erase_eq_some]
      constructor
      · rintro ⟨hne, hl⟩
        exact ⟨hl, fun k => hne k.1⟩
      · rintro ⟨hl, hn⟩
        refine ⟨fun k => hn ⟨k, ?_⟩, hl⟩
        subst k
        rw [e] at hl
        exact (Option.some.inj hl).symm
  · next e =>
      constructor
      · intro hl
        refine ⟨hl, ?_⟩
        rintro ⟨rfl, rfl⟩
        exact e hl
      · exact fun hl => hl.1

/-- The capsules are as they were. -/
def SameCapsules (s s' : Store P) : Prop := s'.registry.capsules = s.registry.capsules

/-- **Reclaiming** a segment that is there. -/
theorem wp_reclaimSegment {t : Segment} {Q : Except Error Unit → Store P → Prop}
    (ht : s.seg t.id = some t)
    (hq : ∀ s', SameCapsules s s' →
      (∀ x, s'.seg x = if x = t.id then none else s.seg x) →
      (∀ h x, s'.content h = some x ↔
        s.content h = some x ∧ ¬ (t.contentHash = some h ∧ x = t.id)) → Q (.ok ()) s') :
    (GarbageCollector.reclaimSegment t).wp (StoreOp.exec (P := P)).moves (fun _ _ => True) Q s := by
  -- the segment goes once its hash has gone
  have hrest : ∀ r : CapsuleRegistry, r.capsules = s.registry.capsules →
      (∀ h x, r.contentStore.lookup h = some x ↔
        s.content h = some x ∧ ¬ (t.contentHash = some h ∧ x = t.id)) →
      (GarbageCollector.dropReclaimed t).wp (StoreOp.exec (P := P)).moves (fun _ _ => True) Q
        { s with registry := r } := by
    intro r hcap hcont
    have hl : s.nvram.segmentMap.lookup t.id = some t := ht
    refine wp_bind.mpr (wp_storeOp (.removeSegment t.id) ?_)
    simp only [StoreOp.exec, Store.onNvram, NvramLog.removeSegment, hl]
    exact hq _ hcap (fun x => Table.lookup_erase _ _ _) hcont
  cases hh : t.contentHash with
  | none =>
      rw [GarbageCollector.reclaimSegment_none hh]
      refine hrest s.registry rfl fun h x => ?_
      rw [hh]
      exact ⟨fun hl => ⟨hl, fun k => by cases k.1⟩, And.left⟩
  | some hash =>
      rw [GarbageCollector.reclaimSegment_some hh]
      refine wp_bind.mpr (wp_discard.mpr (wp_storeOp (.deregisterContent hash t.id) ?_))
      refine hrest _ (s.registry.deregisterContent_capsules hash t.id) fun h x => ?_
      rw [hh, content_deregister, Option.some.injEq, eq_comm (a := h)]

/-- **Sweeping** removes the segments without references, and the hashes that name them. -/
theorem wp_sweep {ord : Order Segment} {Q : Except Error Nat → Store P → Prop} (hk : s.Keyed)
    (hq : ∀ n s', SameCapsules s s' →
      (∀ x t, s'.seg x = some t ↔ s.seg x = some t ∧ t.refCount ≠ 0) →
      (∀ h x, s'.content h = some x ↔ s.content h = some x ∧
        ¬ ∃ t, s.seg x = some t ∧ t.refCount = 0 ∧ t.contentHash = some h) → Q (.ok n) s') :
    (GarbageCollector.sweep ord).wp (StoreOp.exec (P := P)).moves (fun _ _ => True) Q s := by
  unfold GarbageCollector.sweep
  refine wp_bind.mpr (wp_storeOp (.listSegments ord) ?_)
  refine wp_foldlM (fun (rest : List Segment) _ s' => SameCapsules s s' ∧
    (rest.map Segment.id).Nodup ∧ (∀ t ∈ rest, s.seg t.id = some t) ∧
    (∀ x t, s'.seg x = some t ↔ s.seg x = some t ∧ (t ∈ rest ∨ t.refCount ≠ 0)) ∧
    ∀ h x, s'.content h = some x ↔ s.content h = some x ∧
      ¬ ∃ t, s.seg x = some t ∧ t ∉ rest ∧ t.refCount = 0 ∧ t.contentHash = some h)
    ?_ ?_ _ _ _ ⟨rfl, nodup_ids hk ord, fun t ht => ?_, fun x t => ?_, fun h x => ?_⟩
  · rintro t rest n s' ⟨hcap, hnd, hmem, hmap, hcont⟩
    rw [List.map_cons, List.nodup_cons] at hnd
    have ht := hmem t List.mem_cons_self
    have hnot : t ∉ rest := fun h => hnd.1 (List.mem_map_of_mem h)
    have hself : s'.seg t.id = some t := (hmap t.id t).mpr ⟨ht, .inl List.mem_cons_self⟩
    have hmem' : ∀ u ∈ rest, s.seg u.id = some u := fun u hu => hmem u (List.mem_cons_of_mem _ hu)
    simp only
    split
    · next h0 =>
        refine wp_bind.mpr (wp_reclaimSegment hself fun s'' hcap' hmap' hcont' =>
          ⟨hcap'.trans hcap, hnd.2, hmem', fun x u => ?_, fun h x => ?_⟩)
        · rw [hmap']
          by_cases hx : x = t.id
          · subst hx
            rw [if_pos rfl, ht]
            refine ⟨nofun, ?_⟩
            rintro ⟨e, hor⟩
            obtain rfl := Option.some.inj e
            exact absurd hor (by simp [hnot, h0])
          · rw [if_neg hx, hmap]
            refine and_congr_right fun hu => ?_
            have hut : u ≠ t := fun e => hx ((hk x u hu).symm.trans (e ▸ rfl))
            simp only [List.mem_cons, hut, false_or]
        · rw [hcont', hcont, and_assoc]
          refine and_congr_right fun _ => ?_
          constructor
          · rintro ⟨hold, hnew⟩ ⟨u, hu, hur, hu0, huh⟩
            by_cases hut : u = t
            · subst hut
              exact hnew ⟨huh, (hk x u hu).symm⟩
            · exact hold ⟨u, hu, by simp [hut, hur], hu0, huh⟩
          · refine fun hall => ⟨?_, ?_⟩
            · rintro ⟨u, hu, hur, hu0, huh⟩
              exact hall ⟨u, hu, fun k => hur (List.mem_cons_of_mem _ k), hu0, huh⟩
            · rintro ⟨hh, rfl⟩
              exact hall ⟨t, ht, hnot, h0, hh⟩
    · next h0 =>
        refine ⟨hcap, hnd.2, hmem', fun x u => ?_, fun h x => ?_⟩
        · rw [hmap]
          refine and_congr_right fun _ => ⟨?_, .imp_left (List.mem_cons_of_mem _)⟩
          rintro (hu | hu)
          · rcases List.mem_cons.mp hu with rfl | hu
            · exact .inr h0
            · exact .inl hu
          · exact .inr hu
        · rw [hcont]
          refine and_congr_right fun _ => not_congr (exists_congr fun u => and_congr_right
            fun _ => ⟨fun k => ⟨fun m => k.1 (List.mem_cons_of_mem _ m), k.2⟩,
              fun k => ⟨fun m => ?_, k.2⟩⟩)
          rcases List.mem_cons.mp m with rfl | m
          · exact h0 k.2.1
          · exact k.1 m
  · rintro n s' ⟨hcap, -, -, hmap, hcont⟩
    refine hq n s' hcap (fun x t => (hmap x t).trans (by simp)) fun h x =>
      (hcont h x).trans (by simp)
  · obtain ⟨x, hx⟩ := mem_listSegments.mp ht
    rw [hk x t hx]
    exact hx
  · exact ⟨fun h => ⟨h, .inl (mem_listSegments.mpr ⟨x, h⟩)⟩, And.left⟩
  · refine ⟨fun hl => ⟨hl, ?_⟩, And.left⟩
    rintro ⟨t, ht, hn, -⟩
    exact hn (mem_listSegments.mpr ⟨x, ht⟩)

/-! ### Reconciliation -/

/-- The references of the listed capsules. -/
theorem sum_listedBy (ord : Order CapsuleId) (x : SegmentId) :
    ((s.registry.listCapsules ord).map (listedBy s x)).sum = s.occurrences x := by
  unfold CapsuleRegistry.listCapsules
  rw [((ord.perm _).map _).sum_eq]
  exact (Table.total_eq_sum_keys _ _).symm

variable {capsuleOrd : Order CapsuleId} {segmentOrd sweepOrd : Order Segment}

/-- **Reconciliation of any state**: what is in the map and in the content store afterwards. -/
theorem wp_reconcileRefcounts {Q : Except Error Unit → Store P → Prop} (hk : s.Keyed)
    (hq : ∀ s', SameCapsules s s' →
      (∀ x t, s'.seg x = some t ↔ asU32 (s.occurrences x) ≠ 0 ∧
        ∃ u, s.seg x = some u ∧ recount (asU32 (s.occurrences x)) u = t) →
      (∀ h x, s'.content h = some x ↔ s.content h = some x ∧
        ¬ (asU32 (s.occurrences x) = 0 ∧ ∃ u, s.seg x = some u ∧ u.contentHash = some h)) →
      Q (.ok ()) s') :
    (reconcileRefcounts capsuleOrd segmentOrd sweepOrd).wp (StoreOp.exec (P := P)).moves
      (fun _ _ => True) Q s := by
  unfold reconcileRefcounts
  refine wp_bind.mpr (wp_storeOp (.listCapsules capsuleOrd) ?_)
  show Prog.wp (StoreOp.exec (P := P)).moves (fun _ _ => True) Q _ s
  refine wp_bind.mpr (wp_countReferences_asU32 fun counts hcounts => ?_)
  refine wp_bind.mpr (wp_storeOp (.listSegments segmentOrd) ?_)
  refine wp_bind.mpr (wp_recount hk fun s₁ hreg hmap => ?_)
  have hc : ∀ x, counted counts x = asU32 (s.occurrences x) := fun x =>
    (hcounts x).trans (congrArg asU32 (sum_listedBy capsuleOrd x))
  have hk₁ : s₁.Keyed := fun x t ht => by
    obtain ⟨u, hu, rfl⟩ := Option.map_eq_some_iff.mp ((hmap x).symm.trans ht)
    rw [recount_id]
    exact hk x u hu
  refine wp_bind.mpr (wp_sweep hk₁ fun n s₂ hcap hmap₂ hcont₂ => ?_)
  refine hq s₂ (hcap.trans (by rw [hreg])) (fun x t => ?_) fun h x => ?_
  · rw [hmap₂, hmap, hc, Option.map_eq_some_iff]
    constructor
    · rintro ⟨⟨u, hu, rfl⟩, h0⟩
      exact ⟨by rwa [recount_refCount] at h0, u, hu, rfl⟩
    · rintro ⟨h0, u, hu, rfl⟩
      exact ⟨⟨u, hu, rfl⟩, by rwa [recount_refCount]⟩
  · rw [hcont₂, show s₁.content h = s.content h from by unfold Store.content; rw [hreg]]
    refine and_congr_right fun _ => not_congr ?_
    simp only [hmap, hc, Option.map_eq_some_iff]
    constructor
    · rintro ⟨_, ⟨u, hu, rfl⟩, h0, hh⟩
      rw [recount_refCount] at h0
      rw [recount_contentHash] at hh
      exact ⟨h0, u, hu, hh⟩
    · rintro ⟨h0, u, hu, hh⟩
      exact ⟨_, ⟨u, hu, rfl⟩, recount_refCount.trans h0, recount_contentHash.trans hh⟩

/-- **A second run changes nothing**, once the counts are what the first makes of them. -/
theorem run_reconcileRefcounts_done
    (h : ∀ x t, s.seg x = some t → t.refCount = asU32 (s.occurrences x) ∧ t.refCount ≠ 0)
    (hk : s.Keyed) :
    (reconcileRefcounts capsuleOrd segmentOrd sweepOrd).run StoreOp.exec s = (.ok (), s) := by
  have hw : (reconcileRefcounts capsuleOrd segmentOrd sweepOrd).wp (StoreOp.exec (P := P)).moves
      (fun _ _ => True) (fun r s' => r = .ok () ∧ s' = s) s := by
    unfold reconcileRefcounts
    refine wp_bind.mpr (wp_storeOp (.listCapsules capsuleOrd) ?_)
    show Prog.wp (StoreOp.exec (P := P)).moves (fun _ _ => True) _ _ s
    refine wp_bind.mpr (wp_countReferences_asU32 fun counts hcounts => ?_)
    refine wp_bind.mpr (wp_storeOp (.listSegments segmentOrd) ?_)
    have hlisted : ∀ (ord : Order Segment) (t : Segment), t ∈ s.nvram.listSegments ord →
        t.refCount = counted counts t.id ∧ t.refCount ≠ 0 := fun ord t ht => by
      obtain ⟨x, hx⟩ := mem_listSegments.mp ht
      rw [hk x t hx, hcounts, sum_listedBy]
      exact h x t hx
    refine wp_bind.mpr (wp_foldlM (fun (rest : List Segment) _ s' => s' = s ∧
      ∀ t ∈ rest, t ∈ s.nvram.listSegments segmentOrd) ?_ ?_ _ _ _ ⟨rfl, fun t ht => ht⟩)
    · rintro t rest - s' ⟨rfl, hrest⟩
      have ht := (hlisted segmentOrd t (hrest t List.mem_cons_self)).1
      unfold reconcileSegment
      simp only
      rw [if_neg (show ¬ t.refCount ≠ (counts.lookup t.id).getD 0 from not_not_intro ht)]
      exact ⟨rfl, fun u hu => hrest u (List.mem_cons_of_mem _ hu)⟩
    · rintro - s' ⟨rfl, -⟩
      refine wp_bind.mpr (wp_bind.mpr (wp_storeOp (.listSegments sweepOrd) ?_))
      refine wp_foldlM (fun (rest : List Segment) _ s'' => s'' = s' ∧
        ∀ t ∈ rest, t ∈ s'.nvram.listSegments sweepOrd) ?_ ?_ _ _ _ ⟨rfl, fun t ht => ht⟩
      · rintro t rest n s'' ⟨rfl, hrest⟩
        have ht := (hlisted sweepOrd t (hrest t List.mem_cons_self)).2
        simp only
        rw [if_neg ht]
        exact ⟨rfl, fun u hu => hrest u (List.mem_cons_of_mem _ hu)⟩
      · rintro n s'' ⟨rfl, -⟩
        exact ⟨rfl, rfl⟩
  exact Prod.ext (wp_run hw).1 (wp_run hw).2

/-- **When reconciliation repairs.**  Whatever the capsules, the content store and the segments:
the state it leaves is consistent, and a second run changes nothing, if and only if the drift was
repairable. -/
theorem reconcileRefcounts_repairs_iff {s' : Store P} (hk : s.Keyed)
    (hr : (reconcileRefcounts capsuleOrd segmentOrd sweepOrd).run StoreOp.exec s = (.ok (), s')) :
    (s'.Consistent ∧ ∀ capsuleOrd segmentOrd sweepOrd,
      (reconcileRefcounts capsuleOrd segmentOrd sweepOrd).run StoreOp.exec s' = (.ok (), s')) ↔
      s.Repairable := by
  have hwp : (reconcileRefcounts capsuleOrd segmentOrd sweepOrd).wp (StoreOp.exec (P := P)).moves
      (fun _ _ => True) (fun _ s' => SameCapsules s s' ∧
        (∀ x t, s'.seg x = some t ↔ asU32 (s.occurrences x) ≠ 0 ∧
          ∃ u, s.seg x = some u ∧ recount (asU32 (s.occurrences x)) u = t) ∧
        ∀ h x, s'.content h = some x ↔ s.content h = some x ∧
          ¬ (asU32 (s.occurrences x) = 0 ∧ ∃ u, s.seg x = some u ∧ u.contentHash = some h)) s :=
    wp_reconcileRefcounts hk fun s' h₁ h₂ h₃ => ⟨h₁, h₂, h₃⟩
  have hw := wp_run hwp
  rw [hr] at hw
  obtain ⟨hcap, hmap, hcont⟩ := hw
  have hocc : ∀ x, s'.occurrences x = s.occurrences x := fun x => by
    unfold Store.occurrences
    rw [hcap]
  constructor
  · rintro ⟨hc, -⟩
    refine ⟨fun x u hu => ?_, fun x u hu h0 he => ?_, fun h x hx => ?_⟩
    · by_cases h0 : asU32 (s.occurrences x) = 0
      · exact .inr h0
      · refine .inl ?_
        have ht := hc.refCount x _ ((hmap x _).mpr ⟨h0, u, hu, rfl⟩)
        rwa [recount_refCount, hocc] at ht
    · have hf := hc.deduplicated x _ ((hmap x _).mpr ⟨h0, u, hu, rfl⟩)
      rwa [show recount (asU32 (s.occurrences x)) u = u from if_neg (not_not_intro he)] at hf
    · by_cases hgone : asU32 (s.occurrences x) = 0 ∧ ∃ u, s.seg x = some u ∧ u.contentHash = some h
      · exact hgone.2
      · obtain ⟨t, ht, hh⟩ := hc.content h x ((hcont h x).mpr ⟨hx, hgone⟩)
        obtain ⟨-, u, hu, rfl⟩ := (hmap x t).mp ht
        exact ⟨u, hu, recount_contentHash ▸ hh⟩
  · intro hrep
    refine ⟨⟨fun x t ht => ?_, fun x t ht => ?_, fun x t ht => ?_, fun h x hx => ?_⟩, ?_⟩
    · obtain ⟨h0, u, hu, rfl⟩ := (hmap x t).mp ht
      rw [recount_refCount, hocc]
      exact (hrep.counts x u hu).resolve_right h0
    · obtain ⟨h0, u, hu, rfl⟩ := (hmap x t).mp ht
      by_cases he : u.refCount = asU32 (s.occurrences x)
      · rw [show recount (asU32 (s.occurrences x)) u = u from if_neg (not_not_intro he)]
        exact hrep.flags x u hu h0 he
      · rw [show recount (asU32 (s.occurrences x)) u = corrected (asU32 (s.occurrences x)) u from
          if_pos he]
        exact decide_eq_true_iff
    · obtain ⟨h0, u, hu, rfl⟩ := (hmap x t).mp ht
      rwa [recount_refCount]
    · obtain ⟨hold, hkept⟩ := (hcont h x).mp hx
      obtain ⟨u, hu, hh⟩ := hrep.content h x hold
      have h0 : asU32 (s.occurrences x) ≠ 0 := fun e => hkept ⟨e, u, hu, hh⟩
      exact ⟨_, (hmap x _).mpr ⟨h0, u, hu, rfl⟩, recount_contentHash.trans hh⟩
    · intro _ _ _
      refine run_reconcileRefcounts_done (fun x t ht => ?_) fun x t ht => ?_
      · obtain ⟨h0, u, hu, rfl⟩ := (hmap x t).mp ht
        rw [recount_refCount, hocc]
        exact ⟨rfl, h0⟩
      · obtain ⟨-, u, hu, rfl⟩ := (hmap x t).mp ht
        rw [recount_id]
        exact hk x u hu

/-- One capsule that lists one segment, whose count has drifted. -/
def drifted : Store .stored where
  registry := { CapsuleRegistry.empty with
    capsules := (∅ : Table CapsuleId Capsule).insert ⟨0⟩ ⟨⟨0⟩, 1, [⟨0⟩], {}, 0⟩
    nextSegmentId := 1 }
  nvram := { NvramLog.empty with
    file := [7]
    segmentMap := (∅ : Table SegmentId Segment).insert ⟨0⟩
      { Segment.appended ⟨0⟩ 0 1 with refCount := 5, deduplicated := true }
    nextOffset := 1 }
  keyManager := none

theorem drifted_seg {x : SegmentId} {t : Segment} (h : drifted.seg x = some t) :
    x = ⟨0⟩ ∧ t = { Segment.appended ⟨0⟩ 0 1 with refCount := 5, deduplicated := true } := by
  rcases Table.lookup_insert_eq_some.mp h with ⟨hx, ht⟩ | ⟨-, ht⟩
  · exact ⟨hx, ht.symm⟩
  · cases ht

theorem reconcileRefcounts_repairs_iff_drifted :
    ((reconcileRefcounts .asGiven .asGiven .asGiven).run StoreOp.exec drifted).2.Consistent := by
  have hk : drifted.Keyed := fun x t ht => by
    obtain ⟨rfl, rfl⟩ := drifted_seg ht
    rfl
  have hocc : asU32 (drifted.occurrences ⟨0⟩) = 1 := by decide +kernel
  have hok : ((reconcileRefcounts .asGiven .asGiven .asGiven).run StoreOp.exec drifted).1 =
      .ok () := by decide +kernel
  refine ((reconcileRefcounts_repairs_iff hk (Prod.ext hok rfl)).mpr
    ⟨fun x t ht => ?_, fun x t ht _ he => ?_, fun h x hx => ?_⟩).1
  · obtain ⟨rfl, rfl⟩ := drifted_seg ht
    exact .inl (by decide +kernel)
  · obtain ⟨rfl, rfl⟩ := drifted_seg ht
    rw [hocc] at he
    cases he
  · cases hx

/-- A hash that names a segment which is not there, as the only drift. -/
def dangling : Store .stored where
  registry := { CapsuleRegistry.empty with
    contentStore := (∅ : Table ContentHash SegmentId).insert ⟨[]⟩ ⟨0⟩
    nextSegmentId := 1 }
  nvram := .empty
  keyManager := none

/-- **Not every drift is repaired**: the hash still names the segment. -/
theorem not_reconcileRefcounts_repairs :
    ¬ ∀ (P : Primitives) (capsuleOrd : Order CapsuleId) (segmentOrd sweepOrd : Order Segment)
      (s s' : Store P), s.Keyed →
      (reconcileRefcounts capsuleOrd segmentOrd sweepOrd).run StoreOp.exec s = (.ok (), s') →
      s'.Consistent := by
  intro h
  obtain ⟨t, ht, -⟩ := (h .stored .asGiven .asGiven .asGiven dangling dangling
    (fun x t ht => by cases ht) rfl).content ⟨[]⟩ ⟨0⟩ rfl
  cases ht

end WritePipeline

end Space

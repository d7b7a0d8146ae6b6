import Space.Native.Recovery

/-!
# Native — ReconcileSpec

Opening a pipeline over what a crash left.  The references are counted over the capsules, each
segment gets its count, and the segments without references are swept.  Wherever it is cut, what is
on disk can be repaired again; when it is done, the invariant holds and no thread owns anything
(`wp_reconcile`).
-/

namespace Space
open Support Prog

variable {P : Primitives} {D : Discipline} {w w' : World P} {data : Bytes}

namespace WritePipeline

/-! ### Counting -/

/-- The count of a segment, zero if there is none. -/
def counted (counts : Table SegmentId Nat) (x : SegmentId) : Nat := (counts.lookup x).getD 0

theorem counted_bump {counts : Table SegmentId Nat} {x y : SegmentId}
    (h : counted counts x < u32Max) :
    counted (bump counts y) x = counted counts x + if y = x then 1 else 0 := by
  unfold counted bump at *
  split
  · next c hc =>
      rw [Table.lookup_insert]
      by_cases e : x = y
      · subst e
        rw [hc] at h ⊢
        simp only [Option.getD_some, u32Max] at h
        simp only [if_true, Option.getD_some]
        exact asU32_of_lt (by omega)
      · rw [if_neg e, if_neg (Ne.symm e)]; rfl
  · next hc =>
      rw [Table.lookup_insert]
      by_cases e : x = y
      · subst e; rw [hc, if_pos rfl, if_pos rfl]; rfl
      · rw [if_neg e, if_neg (Ne.symm e)]; rfl

theorem counted_foldl_bump {x : SegmentId} : ∀ (l : List SegmentId) (counts : Table SegmentId Nat),
    counted counts x + l.count x ≤ u32Max →
      counted (l.foldl bump counts) x = counted counts x + l.count x
  | [], _, _ => rfl
  | y :: l, counts, h => by
      rw [List.count_cons] at h
      rw [List.foldl_cons, List.count_cons]
      by_cases e : y = x
      · subst e
        simp only [beq_self_eq_true, if_true] at h ⊢
        have hb := @counted_bump counts y y (by omega)
        rw [if_pos rfl] at hb
        rw [counted_foldl_bump l _ (by omega), hb]
        omega
      · rw [if_neg (by simpa using e)] at h ⊢
        by_cases hlt : counted counts x < u32Max
        · have hb := @counted_bump counts x y hlt
          rw [if_neg e] at hb
          rw [counted_foldl_bump l _ (by omega), hb]
          omega
        · have hb : counted (bump counts y) x = counted counts x := by
            unfold counted bump
            split <;> rw [Table.lookup_insert, if_neg (Ne.symm e)]
          rw [counted_foldl_bump l _ (by omega), hb]
          omega

/-- How often a capsule, if it is there, lists a segment. -/
def lists (w : World P) (x : SegmentId) (id : CapsuleId) : Nat :=
  (w.cap id).elim 0 fun c => c.segments.count x

/-- **Counting** is exact, as long as no count exceeds a `u32`. -/
theorem wp_countReferences {J : StoreOp → World P → Prop} {ids : List CapsuleId}
    {Q : Except Error (Table SegmentId Nat) → World P → Prop} (hJ : ∀ o, J o w)
    (hids : ∀ x, (ids.map (lists w x)).sum ≤ u32Max)
    (hq : ∀ counts, (∀ x, counted counts x = (ids.map (lists w x)).sum) → Q (.ok counts) w) :
    (countReferences ids).wp (World.exec data).moves J Q w := by
  unfold countReferences
  refine wp_foldlM (fun rest counts w' => w' = w ∧ ∀ x,
    counted counts x + (rest.map (lists w x)).sum = (ids.map (lists w x)).sum) ?_ ?_ _ _ _
    ⟨rfl, fun x => Nat.zero_add _⟩
  · rintro id rest counts w' ⟨rfl, hc⟩
    refine wp_bind.mpr (wp_attempt.mpr (World.wp_exec (.lookup id) (hJ _) ?_))
    cases hcap : w'.cap id with
    | none =>
        have e : ∃ e, (World.exec data (.lookup id) w').1 = .error e := by
          simp only [World.exec, StoreOp.exec, CapsuleRegistry.lookup]
          rw [show w'.store.registry.capsules.lookup id = none from hcap]
          exact ⟨_, rfl⟩
        obtain ⟨e, he⟩ := e
        rw [he]
        refine ⟨rfl, fun x => ?_⟩
        have := hc x
        rwa [List.map_cons, List.sum_cons, lists, hcap, Option.elim_none, Nat.zero_add] at this
    | some c =>
        rw [World.exec_lookup, World.lookup_of_cap hcap]
        refine ⟨rfl, fun x => ?_⟩
        have h₁ := hc x
        have h₂ := hids x
        rw [List.map_cons, List.sum_cons, lists, hcap, Option.elim_some] at h₁
        rw [counted_foldl_bump c.segments counts (by omega)]
        omega
  · rintro counts w' ⟨rfl, hc⟩
    refine hq counts fun x => ?_
    have := hc x
    rwa [List.map_nil, List.sum_nil, Nat.add_zero] at this

/-! ### Correcting -/

/-- The capsules and the ledger are as they were. -/
structure Kept (w w' : World P) : Prop where
  capsules : w'.store.registry.capsules = w.store.registry.capsules
  ledger : w'.ledger = w.ledger

theorem Kept.occ (h : Kept w w') (x : SegmentId) : w'.occ x = w.occ x := by
  unfold World.occ; rw [h.capsules]

/-- What correcting makes of a segment. -/
def corrected (n : Nat) (s : Segment) : Segment :=
  { s with refCount := n, deduplicated := decide (1 < n) }

/-- **Correcting** each segment's count. -/
theorem wp_correct {counts : Table SegmentId Nat} {l : List Segment}
    {Q : Except Error Unit → World P → Prop} (h : World.Recoverable D w)
    (hcount : ∀ x, counted counts x = w.occ x) (hnd : (l.map Segment.id).Nodup)
    (hl : ∀ s, s ∈ l ↔ ∃ x, w.seg x = some s)
    (hq : ∀ w', World.Recoverable D w' → Kept w w' →
      (∀ x s, w'.seg x = some s → s.refCount = w'.occ x) → Q (.ok ()) w') :
    (l.foldlM (fun _ s => reconcileSegment counts s) ()).wp (World.exec data).moves
      (fun _ w => World.Recoverable D w) Q w := by
  refine wp_foldlM (fun (rest : List Segment) _ w' => World.Recoverable D w' ∧ Kept w w' ∧
    (rest.map Segment.id).Nodup ∧ (∀ s ∈ rest, w'.seg s.id = some s) ∧
    ∀ x s, w'.seg x = some s → s ∈ rest ∨ s.refCount = w'.occ x) ?_ ?_ _ _ _ ?_
  · rintro s rest - w' ⟨hR, hK, hnd, hmem, hdone⟩
    rw [List.map_cons, List.nodup_cons] at hnd
    have hs := hmem s List.mem_cons_self
    have hne : ∀ s' ∈ rest, s'.id ≠ s.id := fun s' h' e =>
      hnd.1 (e ▸ List.mem_map_of_mem h')
    have hc : (counts.lookup s.id).getD 0 = w'.occ s.id := by
      rw [hK.occ]; exact hcount s.id
    show Prog.wp _ _ _ (if s.refCount ≠ (counts.lookup s.id).getD 0 then _ else _) _
    rw [hc]
    split
    · refine World.wp_exec (.updateSegmentMetadata s.id (corrected (w'.occ s.id) s)) hR ?_
      refine ⟨hR.put hs rfl rfl rfl, ⟨hK.capsules, hK.ledger⟩, hnd.2, fun s' h' => ?_,
        fun x s₁ k => ?_⟩
      · exact (World.seg_putSegment_ne _ _ (hne s' h')).trans
          (hmem s' (List.mem_cons_of_mem _ h'))
      · replace k := (World.seg_putSegment w' s.id x (corrected (w'.occ s.id) s)).symm.trans k
        split at k
        · next e => cases k; subst e; exact .inr rfl
        · next e =>
            refine (hdone x s₁ k).imp (fun m => ?_) id
            rcases List.mem_cons.mp m with rfl | m
            · exact absurd (hR.keyed x s₁ k).symm e
            · exact m
    · next e =>
        refine ⟨hR, hK, hnd.2, fun s' h' => hmem s' (List.mem_cons_of_mem _ h'), fun x s₁ k => ?_⟩
        rcases hdone x s₁ k with m | m
        · rcases List.mem_cons.mp m with rfl | m
          · refine .inr ?_
            rw [hR.keyed x s₁ k] at e
            exact not_not.mp e
          · exact .inl m
        · exact .inr m
  · rintro - w' ⟨hR, hK, -, -, hdone⟩
    refine hq w' hR hK fun x s k => (hdone x s k).resolve_left (by simp)
  · refine ⟨h, ⟨rfl, rfl⟩, hnd, fun s hs => ?_, fun x s k => .inl ((hl s).mpr ⟨x, k⟩)⟩
    obtain ⟨x, hx⟩ := (hl s).mp hs
    rw [h.keyed x s hx]; exact hx

/-! ### Sweeping -/

/-- Reclaiming a segment no capsule lists. -/
theorem wp_reclaim_recoverable {s : Segment} {Q : Except Error Unit → World P → Prop}
    (h : World.Recoverable D w) (hs : w.seg s.id = some s) (ho : w.occ s.id = 0)
    (hq : ∀ w', World.Recoverable D w' → Kept w w' →
      (∀ y, w'.seg y = if y = s.id then none else w.seg y) → Q (.ok ()) w') :
    (GarbageCollector.reclaimSegment s).wp (World.exec data).moves
      (fun _ w => World.Recoverable D w) Q w := by
  have hrest : ∀ w' : World P, World.Recoverable D w' → Kept w w' → (∀ y, w'.seg y = w.seg y) →
      (∀ hash, w'.content hash ≠ some s.id) →
      (GarbageCollector.dropReclaimed s).wp (World.exec data).moves
        (fun _ w => World.Recoverable D w) Q w' :=
    fun w' hR hK hseg hc => by
      have e : World.exec data (.removeSegment s.id) w' = _ := exec_remove ((hseg s.id).trans hs)
      refine wp_bind.mpr (World.wp_exec (.removeSegment s.id) hR ?_)
      rw [e]
      refine hq _ (hR.drop ((hK.occ _).trans ho) hc) ⟨hK.capsules, hK.ledger⟩ fun y => ?_
      rw [World.seg_dropSegment, hseg]
  cases hh : s.contentHash with
  | none =>
      rw [GarbageCollector.reclaimSegment_none hh]
      refine hrest w h ⟨rfl, rfl⟩ (fun _ => rfl) fun hash k => ?_
      obtain ⟨-, s', hs', h'⟩ := h.content hash _ k
      rw [hs] at hs'; cases hs'
      rw [hh] at h'; cases h'
  | some hash =>
      rw [GarbageCollector.reclaimSegment_some hh]
      refine wp_bind.mpr (wp_discard.mpr (World.wp_exec (.deregisterContent hash s.id) h ?_))
      refine hrest _ (h.deregister ho) ⟨?_, rfl⟩ (fun _ => rfl) fun hsh k => ?_
      · show (w.deregistered hash s.id).store.registry.capsules = _
        by_cases e : w.content hash = some s.id
        · rw [World.deregistered_of_eq e]; rfl
        · rw [World.deregistered_of_ne e]
      · replace k : (w.deregistered hash s.id).content hsh = some s.id := k
        by_cases e : w.content hash = some s.id
        · rw [World.deregistered_of_eq e, World.content_contentErased] at k
          split at k
          · cases k
          · next e' =>
              obtain ⟨-, s', hs', h'⟩ := h.content hsh _ k
              rw [hs] at hs'; cases hs'
              rw [hh] at h'; cases h'
              exact e' rfl
        · rw [World.deregistered_of_ne e] at k
          obtain ⟨-, s', hs', h'⟩ := h.content hsh _ k
          rw [hs] at hs'; cases hs'
          rw [hh] at h'; cases h'
          exact e k

/-- **Sweeping** a state whose counts are exact leaves nothing unreferenced. -/
theorem wp_sweep_recoverable {ord : Order Segment} {Q : Except Error Nat → World P → Prop}
    (h : World.Recoverable D w) (hr : ∀ x s, w.seg x = some s → s.refCount = w.occ x)
    (hq : ∀ n w', World.Inv D w' 0 → Kept w w' → Q (.ok n) w') :
    (GarbageCollector.sweep ord).wp (World.exec data).moves
      (fun _ w => World.Recoverable D w) Q w := by
  unfold GarbageCollector.sweep
  refine wp_bind.mpr (World.wp_exec (.listSegments ord) h ?_)
  refine wp_foldlM (fun (rest : List Segment) (_ : Nat) (w' : World P) =>
    World.Recoverable D w' ∧ Kept w w' ∧ (rest.map Segment.id).Nodup ∧
    (∀ s ∈ rest, w'.seg s.id = some s) ∧
    ∀ x s, w'.seg x = some s → s.refCount = w'.occ x ∧ (s ∈ rest ∨ s.refCount ≠ 0)) ?_ ?_ _ _ _
    ⟨h, ⟨rfl, rfl⟩, ?_, fun s hs => ?_, fun x s hs => ⟨hr x s hs, .inl ?_⟩⟩
  · rintro s rest n w' ⟨hR, hK, hnd, hmem, hdone⟩
    rw [List.map_cons, List.nodup_cons] at hnd
    have hs := hmem s List.mem_cons_self
    have hne : ∀ s' ∈ rest, s'.id ≠ s.id := fun s' h' e =>
      hnd.1 (e ▸ List.mem_map_of_mem h')
    show Prog.wp _ _ _ (if s.refCount = 0 then _ else _) _
    split
    · next h0 =>
        refine wp_bind.mpr (wp_reclaim_recoverable hR hs ((hdone _ s hs).1.symm.trans h0)
          fun w'' hR' hK' hseg => ?_)
        refine ⟨hR', ⟨hK'.capsules.trans hK.capsules, hK'.ledger.trans hK.ledger⟩, hnd.2,
          fun s' h' => ?_, fun x s₁ k => ?_⟩
        · rw [hseg, if_neg (hne s' h')]
          exact hmem s' (List.mem_cons_of_mem _ h')
        · rw [hseg] at k
          split at k
          · cases k
          · next e =>
              obtain ⟨h₁, h₂⟩ := hdone x s₁ k
              refine ⟨h₁.trans (hK'.occ x).symm, h₂.imp_left fun m => ?_⟩
              rcases List.mem_cons.mp m with rfl | m
              · exact absurd (hR.keyed x s₁ k).symm e
              · exact m
    · next h0 =>
        refine ⟨hR, hK, hnd.2, fun s' h' => hmem s' (List.mem_cons_of_mem _ h'), fun x s₁ k => ?_⟩
        obtain ⟨h₁, h₂⟩ := hdone x s₁ k
        refine ⟨h₁, h₂.elim (fun m => ?_) .inr⟩
        rcases List.mem_cons.mp m with rfl | m
        · exact .inr h0
        · exact .inl m
  · rintro n w' ⟨hR, hK, -, -, hdone⟩
    refine hq n w' (hR.inv fun x s k => ?_) hK
    exact ⟨(hdone x s k).1, (hdone x s k).2.resolve_left (by simp)⟩
  · exact (((ord.perm _).map _).nodup_iff).mpr (ids_nodup h.keyed)
  · obtain ⟨x, hx⟩ := Table.mem_values.mp ((Order.mem_reorder ord).mp hs)
    rw [h.keyed x s hx]; exact hx
  · exact (Order.mem_reorder ord).mpr (Table.mem_values.mpr ⟨x, hs⟩)

/-- **Reconciliation** of what a crash left: it succeeds, the capsules are as they were, and the
invariant holds with nothing owned; and wherever it is cut, it can be done again. -/
theorem wp_reconcile {capsuleOrd : Order CapsuleId} {segmentOrd sweepOrd : Order Segment}
    {Q : Except Error Unit → World P → Prop} (h : World.Recoverable D w)
    (hq : ∀ w', World.Inv D w' 0 → Kept w w' → Q (.ok ()) w') :
    (reconcileRefcounts capsuleOrd segmentOrd sweepOrd).wp (World.exec data).moves
      (fun _ w => World.Recoverable D w) Q w := by
  unfold reconcileRefcounts
  refine wp_bind.mpr (World.wp_exec (.listCapsules capsuleOrd) h ?_)
  have hocc : ∀ x, ((capsuleOrd.reorder w.store.registry.capsules.keys).map (lists w x)).sum =
      w.occ x := fun x => by
    rw [((capsuleOrd.perm _).map _).sum_eq]
    exact (Table.total_eq_sum_keys _ _).symm
  refine wp_bind.mpr (wp_countReferences (w := w) (fun _ => h)
    (fun x => (hocc x).trans_le (h.bounded x)) fun counts hcounts => ?_)
  refine wp_bind.mpr (World.wp_exec (.listSegments segmentOrd) h ?_)
  refine wp_bind.mpr (wp_correct h (fun x => (hcounts x).trans (hocc x)) ?_ (fun s => ?_)
    fun w₁ hR hK hr => ?_)
  · exact (((segmentOrd.perm _).map _).nodup_iff).mpr (ids_nodup h.keyed)
  · exact (Order.mem_reorder segmentOrd).trans Table.mem_values
  · refine wp_bind.mpr (wp_sweep_recoverable hR hr fun n w₂ hI hK' => ?_)
    exact hq w₂ hI ⟨hK'.capsules.trans hK.capsules, hK'.ledger.trans hK.ledger⟩

end WritePipeline

end Space

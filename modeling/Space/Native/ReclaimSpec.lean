import Space.Native.WriteSpec
import Space.Native.Reclaim

/-!
# Native — ReclaimSpec

Deleting and sweeping, against the discipline: a delete takes the references of its capsule back
and gives each of them up again (`wp_deleteCapsule`), and a sweep that succeeds has reclaimed what
it found dead (`wp_sweep`).

A thread on its own never sees a segment vanish in front of its sweep (`sweep_ok`).
-/

namespace Space
open Support Prog

variable {P : Primitives} {D : Discipline} {data : Bytes} {g : Ghost}

/-! ### Reclaiming -/

/-- Deregistering a dead segment, if it has a hash. -/
theorem wp_deregister {α : Type} {x : SegmentId} {hash : Option ContentHash} {p : Native α}
    {Q : Except Error α → Ghost → Prop}
    (h : ∀ τ, τ = .bare x ∨ τ = .dead x none →
      p.wp (Token.moves D) (Token.may D data) Q (τ ::ₘ g)) :
    (do
      match hash with
      | some hash => discard (Native.deregisterContent hash x)
      | none => pure ()
      p : Native α).wp (Token.moves D) (Token.may D data) Q (.dead x hash ::ₘ g) := by
  cases hash with
  | none => exact h _ (.inr rfl)
  | some hash =>
      refine wp_bind.mpr (wp_bind.mpr (wp_op (.deregisterContent hash x)
        (.inl (Multiset.mem_cons_self _ _)) fun _ g' hm => ?_))
      obtain ⟨b, rfl, rfl⟩ := hm
      rw [if_pos (Multiset.mem_cons_self _ _), Multiset.erase_cons_head]
      exact h _ (.inl rfl)

/-- Removing a segment that is not in the content store. -/
theorem wp_removeSegment {x : SegmentId} {τ : Token}
    {Q : Except Error (Option Segment) → Ghost → Prop}
    (hτ : τ = .bare x ∨ τ = .dead x none) (hq : ∀ s, Q (.ok s) g) (hb : .bare x ∉ g) :
    (Native.removeSegment x).wp (Token.moves D) (Token.may D data) Q (τ ::ₘ g) := by
  refine wp_op (.removeSegment x) ?_ fun _ g' hm => ?_
  · rcases hτ with rfl | rfl
    · exact .inl (Multiset.mem_cons_self _ _)
    · exact .inr (.inl (Multiset.mem_cons_self _ _))
  · obtain ⟨s, rfl, rfl⟩ := hm
    rcases hτ with rfl | rfl
    · rw [if_pos (Multiset.mem_cons_self _ _), Multiset.erase_cons_head]
      exact hq s
    · rw [if_neg (by simpa using hb), if_pos (Multiset.mem_cons_self _ _),
        Multiset.erase_cons_head]
      exact hq s

namespace WritePipeline

/-- Giving up a reference. -/
theorem wp_releaseSegment {x : SegmentId} {Q : Except Error Unit → Ghost → Prop} (ht : D.tight)
    (hb : .bare x ∉ g) (hq : Q (.ok ()) g) :
    (releaseSegment x).wp (Token.moves D) (Token.may D data) Q (.ref x ::ₘ g) := by
  unfold releaseSegment
  refine wp_bind.mpr (wp_op (.decrementRefcount x) ⟨Multiset.mem_cons_self _ _, ht⟩
    fun _ g' hm => ?_)
  obtain ⟨(s : Segment), rfl, -, rfl⟩ := hm
  rw [Multiset.erase_cons_head]
  show Prog.wp _ _ Q (if s.refCount = 0 then _ else _) (if s.refCount = 0 then _ else _)
  split
  · exact wp_deregister fun τ hτ => wp_bind.mpr (wp_removeSegment hτ (fun _ => hq) hb)
  · exact hq

/-- **A delete** leaves the references as they were. -/
theorem wp_deleteCapsule {id : CapsuleId} {Q : Except Error Unit → Ghost → Prop} (ht : D.tight)
    (hb : ∀ x, .bare x ∉ g) (hl : ∀ x, .listed x ∉ g) (hq : ∀ r, Q r g) :
    (deleteCapsule id).wp (Token.moves D) (Token.may D data) Q g := by
  unfold deleteCapsule
  refine wp_bind.mpr (wp_op (.deleteCapsule id) (fun _ => hl) fun _ g' hm => ?_)
  rcases hm with ⟨(c : Capsule), rfl, rfl⟩ | ⟨e, rfl, rfl⟩
  · refine wp_foldlM (fun rest _ g' => g' = (rest.map Token.ref : Multiset Token) + g) ?_ ?_ _ _ _
      rfl
    · rintro x rest - g' rfl
      rw [List.map_cons, ← Multiset.cons_coe, Multiset.cons_add]
      refine wp_releaseSegment ht (fun k => ?_) rfl
      rcases Multiset.mem_add.mp k with k | k
      · simp at k
      · exact hb x k
    · rintro - g' rfl
      simpa using hq (.ok ())
  · exact hq _

end WritePipeline

namespace GarbageCollector

/-- Reclaiming a dead segment. -/
theorem wp_reclaimSegment {s : Segment} {Q : Except Error Unit → Ghost → Prop}
    (hb : .bare s.id ∉ g) (hok : Q (.ok ()) g) (herr : ∀ e, Q (.error e) g) :
    (reclaimSegment s).wp (Token.moves D) (Token.may D data) Q
      (.dead s.id s.contentHash ::ₘ g) := by
  unfold reclaimSegment
  refine wp_deregister fun τ hτ => wp_bind.mpr (wp_removeSegment hτ (fun s' => ?_) hb)
  cases s' with
  | some s' => exact hok
  | none => exact herr _

/-- **A sweep** that succeeds leaves what was there before it. -/
theorem wp_sweep {ord : Order Segment} {Q : Except Error Nat → Ghost → Prop}
    (hb : ∀ x, .bare x ∉ g) (hok : ∀ n, Q (.ok n) g) (herr : ∀ e g', Q (.error e) g') :
    (sweep ord).wp (Token.moves D) (Token.may D data) Q g := by
  unfold sweep
  refine wp_bind.mpr (wp_op (.listSegments ord) trivial fun _ g' hm => ?_)
  obtain ⟨(l : List Segment), rfl, rfl⟩ := hm
  refine wp_foldlM (fun (rest : List Segment) (_ : Nat) g' => g' =
    ((rest.filter fun s => s.refCount = 0).map fun s => Token.dead s.id s.contentHash :
      Multiset Token) + g) ?_ ?_ _ _ _ rfl
  · rintro s rest n g' rfl
    show Prog.wp _ _ _ (if s.refCount = 0 then _ else _) _
    by_cases h0 : s.refCount = 0
    · rw [if_pos h0, List.filter_cons_of_pos (by simpa using h0), List.map_cons,
        ← Multiset.cons_coe, Multiset.cons_add]
      refine wp_bind.mpr (wp_reclaimSegment (fun k => ?_) rfl fun e => herr e _)
      rcases Multiset.mem_add.mp k with k | k
      · simp at k
      · exact hb _ k
    · rw [if_neg h0, List.filter_cons_of_neg (by simpa using h0)]
      rfl
  · rintro n g' rfl
    simpa using hok n

end GarbageCollector

/-! ### No segment vanishes -/

section
variable {w : World P} {T : Ghost}

theorem exec_remove {x : SegmentId} {s : Segment} (h : w.seg x = some s) :
    World.exec data (.removeSegment x) w = (.ok (some s), w.dropSegment x) := by
  simp only [World.exec, StoreOp.exec, NvramLog.removeSegment_of_some h]
  rfl

/-- Reclaiming a segment that is in the map. -/
theorem wp_reclaim_exec {s s' : Segment} {Q : Except Error Unit → World P → Prop}
    (h : w.seg s.id = some s')
    (hq : ∀ w', (∀ y, y ≠ s.id → w'.seg y = w.seg y) → Q (.ok ()) w') :
    (GarbageCollector.reclaimSegment s).wp (World.exec data).moves (fun _ _ => True) Q w := by
  have hrest : ∀ w' : World P, (∀ y, w'.seg y = w.seg y) →
      (GarbageCollector.dropReclaimed s).wp (World.exec data).moves (fun _ _ => True) Q w' :=
    fun w' hs => by
      have e : World.exec data (.removeSegment s.id) w' = _ := exec_remove ((hs s.id).trans h)
      refine wp_bind.mpr (World.wp_exec (.removeSegment s.id) trivial ?_)
      rw [e]
      refine hq _ fun y hy => ?_
      exact ((World.seg_dropSegment ..).trans (if_neg hy)).trans (hs y)
  cases hh : s.contentHash with
  | none =>
      rw [GarbageCollector.reclaimSegment_none hh]
      exact hrest w fun _ => rfl
  | some hash =>
      rw [GarbageCollector.reclaimSegment_some hh]
      exact wp_bind.mpr (wp_discard.mpr (World.wp_exec (.deregisterContent hash s.id) trivial
        (hrest _ fun y => rfl)))

/-- Distinct keys, distinct identifiers. -/
theorem ids_nodup {m : Table SegmentId Segment} (h : ∀ x s, m.lookup x = some s → s.id = x) :
    (m.values.map Segment.id).Nodup := by
  have e : m.values.map Segment.id = m.keys := by
    simp only [Table.values, List.map_map, AList.keys, List.keys]
    refine List.map_congr_left fun e he => ?_
    exact h e.1 e.2 (AList.mem_lookup_iff.mpr he)
  rw [e]
  exact m.keys_nodup

/-- **No segment vanishes** in front of the sweep of a thread on its own. -/
theorem sweep_ok {ord : Order Segment} (hk : ∀ x s, w.seg x = some s → s.id = x) :
    ∃ n, ((GarbageCollector.sweep ord).run (World.exec data) w).1 = .ok n := by
  refine wp_run (Q := fun r (_ : World P) => ∃ n, r = .ok n) (J := fun _ _ => True) ?_
  unfold GarbageCollector.sweep
  refine wp_bind.mpr (World.wp_exec (.listSegments ord) trivial ?_)
  have hnd : ((ord.reorder w.store.nvram.segmentMap.values).map Segment.id).Nodup :=
    (((ord.perm _).map _).nodup_iff).mpr (ids_nodup hk)
  refine wp_foldlM (fun (rest : List Segment) (_ : Nat) (w : World P) =>
    (rest.map Segment.id).Nodup ∧ ∀ s ∈ rest, ∃ s', w.seg s.id = some s') ?_ ?_ _ _ _
    ⟨hnd, fun s hs => ?_⟩
  · rintro s rest n w ⟨hnd, hmem⟩
    rw [List.map_cons, List.nodup_cons] at hnd
    show Prog.wp _ _ _ (if s.refCount = 0 then _ else _) _
    split
    · obtain ⟨s', hs'⟩ := hmem s List.mem_cons_self
      refine wp_bind.mpr (wp_reclaim_exec hs' fun w' hw => ⟨hnd.2, fun s₁ h₁ => ?_⟩)
      rw [hw s₁.id fun e => hnd.1 (e ▸ List.mem_map_of_mem h₁)]
      exact hmem s₁ (List.mem_cons_of_mem _ h₁)
    · exact ⟨hnd.2, fun s₁ h₁ => hmem s₁ (List.mem_cons_of_mem _ h₁)⟩
  · exact fun n _ _ => ⟨n, rfl⟩
  · obtain ⟨x, hx⟩ := Table.mem_values.mp ((Order.mem_reorder ord).mp hs)
    exact ⟨s, by rw [hk x s hx]; exact hx⟩

end

end Space

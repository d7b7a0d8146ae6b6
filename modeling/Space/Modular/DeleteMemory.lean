import Space.Modular.Collect
import Space.Modular.Reading
import Space.Native.DeleteFailure

/-!
# Modular — Deletes in memory

A delete of the modular pipeline in which one call fails, over the in-memory storage and catalog.
The capsule stays in the catalog until the last call, and can be read until the first of its
segments has gone; but a count that was taken back is taken back again by the delete that follows.

* `Halted`: what a delete leaves between any two of its calls.
* `releaseSegments_counts`: a delete that comes to its end takes one reference back for each entry
  of the list.
* `releaseSegment_unstaged`, `deleteCapsule_unstaged`: it does not see what was staged.
* `deleteCapsule_failing`: which failures the capsule outlives.
-/

namespace Space
open Support Prog

/-! ### The pipeline, as far as deletes go -/

/-- The modular pipeline over the in-memory storage and catalog. -/
def modularDeletes (parts : Parts) : DeleteView InMemory where
  has := fun id s => (s.2.capsules.lookup id).isSome
  read := InMemory.readCapsule parts
  delete := fun id s =>
    ((Pipeline.deleteCapsule id).run (ModularOp.exec parts InMemoryBackend.storage) s).2
  Orders := Order Capsule × Order (ContentHash × SegmentId) × Order SegmentId
  collect := fun ord s => ((Pipeline.garbageCollect ord.1 ord.2.1 ord.2.2).run
    (ModularOp.exec parts InMemoryBackend.storage) s).2
  Same := fun u s => s.Alike u

variable {parts : Parts} {s u v : InMemory} {id : CapsuleId} {x : SegmentId}
  {H : List ModularOp}

/-! ### The delete -/

/-- The calls that drop a reference of a segment, which is `segment` then. -/
def Segment.dropping (segment : Segment) (x : SegmentId) : List ModularOp :=
  .metadata x :: if 1 < segment.refCount then
      [.beginTxn, .setSegmentMetadata x (segment.withRefCount (segment.refCount - 1)), .commit]
    else .delete x :: segment.contentHash.elim [] fun hash => [.deregisterContent hash x]

namespace InMemory

/-- The calls for a list of segments, after those in `dropped`. -/
def dropCalls (s : InMemory) : List SegmentId → List SegmentId → List ModularOp
  | _, [] => []
  | dropped, x :: rest =>
    ((s.info x).elim [] fun segment =>
      (segment.withRefCount (segment.refCount - dropped.count x)).dropping x) ++
      s.dropCalls (x :: dropped) rest

/-- The calls a delete has to make. -/
def deleteCalls (s : InMemory) (id : CapsuleId) : List ModularOp :=
  (s.2.capsules.lookup id).elim [] fun capsule =>
    .lookupCapsule id :: s.dropCalls [] capsule.segments ++ [.deleteCapsule id]

end InMemory

/-- Another capsule than `id` lists the segment. -/
def InMemory.Shared (s : InMemory) (id : CapsuleId) (x : SegmentId) : Prop :=
  ∃ id' c, id' ≠ id ∧ s.2.capsules.lookup id' = some c ∧ x ∈ c.segments

/-- All but the transaction. -/
def InMemory.unstaged (s : InMemory) : InMemory := ({ s.1 with transaction := {} }, s.2)

theorem InMemory.of_unstaged (h : v.unstaged = u.unstaged) :
    v.2 = u.2 ∧ v.seg = u.seg ∧ v.info = u.info := by
  have hcat : v.unstaged.2 = u.unstaged.2 := by rw [h]
  have hseg : v.unstaged.seg = u.unstaged.seg := by rw [h]
  have hinfo : v.unstaged.info = u.unstaged.info := by rw [h]
  exact ⟨hcat, hseg, hinfo⟩

theorem InMemory.Alike.of_unstaged (h : v.unstaged = u.unstaged) : u.Alike v := by
  obtain ⟨hcat, hseg, hinfo⟩ := InMemory.of_unstaged h
  exact ⟨hseg, hinfo, by rw [hcat], by rw [hcat], by rw [hcat]⟩

/-- Between any two calls of a delete: the segments that were deleted have gone, and the others are
as they were to a reader.  Counts only go down, with every commit one does, and until then nothing
has changed. -/
structure Halted (s : InMemory) (id : CapsuleId) (c : Capsule) (caps : Table CapsuleId Capsule)
    (H : List ModularOp) (v : InMemory) : Prop where
  capsules : v.2.capsules = caps
  reads : ∀ x, s.Lists x → .delete x ∉ H → s.Reads x v
  gone : ∀ x, .delete x ∈ H → v.info x = none ∧ x ∈ c.segments ∧ ¬ s.Shared id x
  positive : ∀ x ∈ c.segments, ∀ m, v.info x = some m → 0 < m.refCount
  le : ∀ x, v.refs x ≤ s.refs x
  spent : .commit ∈ H → ∃ x, v.refs x < s.refs x
  kept : (∀ x, .delete x ∉ H) → .commit ∉ H →
    v.unstaged = (s.unstaged.1, { s.2 with capsules := caps })

namespace Halted
variable {c : Capsule} {caps caps' : Table CapsuleId Capsule} {o : ModularOp} {m : Segment}

theorem refs_of_info (h : v.info = u.info) : v.refs = u.refs := by
  funext x
  rw [InMemory.refs, InMemory.refs, h]

/-- A call that changes no segment. -/
theorem call (h : Halted s id c caps H u) (ho : ∀ x, o ≠ .delete x) (hcommit : o ≠ .commit)
    (hcap : v.2.capsules = caps') (hseg : v.seg = u.seg) (hinfo : v.info = u.info)
    (hkept : (∀ x, .delete x ∉ H) →
      v.unstaged = (u.unstaged.1, { u.2 with capsules := caps' })) :
    Halted s id c caps' (H ++ [o]) v := by
  have hmem : ∀ {x}, .delete x ∈ H ++ [o] ↔ .delete x ∈ H := by
    intro x
    rw [List.mem_append, List.mem_singleton]
    exact or_iff_left (Ne.symm (ho x))
  have hmem' : .commit ∈ H ++ [o] ↔ .commit ∈ H := by
    rw [List.mem_append, List.mem_singleton]
    exact or_iff_left (Ne.symm hcommit)
  have hrefs : v.refs = u.refs := refs_of_info hinfo
  refine ⟨hcap, fun x hx hn => ?_, fun x hx => ?_, fun x hx m hm => h.positive x hx m (hinfo ▸ hm),
    fun x => hrefs ▸ h.le x, fun k => hrefs ▸ h.spent (hmem'.mp k), fun hd hk => ?_⟩
  · rw [InMemory.Reads, hseg, hinfo]
    exact h.reads x hx fun k => hn (hmem.mpr k)
  · rw [hinfo]
    exact h.gone x (hmem.mp hx)
  · have hd : ∀ x, .delete x ∉ H := fun x k => hd x (hmem.mpr k)
    have hu := h.kept hd fun k => hk (hmem'.mpr k)
    rw [hkept hd, hu]
    have hcat : u.2 = { s.2 with capsules := caps } := congrArg Prod.snd hu
    rw [hcat]

/-- The transaction does not matter. -/
theorem unstaged (h : Halted s id c caps H u) (hv : v.unstaged = u.unstaged) :
    Halted s id c caps H v := by
  obtain ⟨hcat, hseg, hinfo⟩ := InMemory.of_unstaged hv
  have hrefs : v.refs = u.refs := refs_of_info hinfo
  refine ⟨by rw [hcat, h.capsules], fun x hx hn => ?_, fun x hx => ?_,
    fun x hx m hm => h.positive x hx m (hinfo ▸ hm), fun x => hrefs ▸ h.le x,
    fun k => hrefs ▸ h.spent k, fun hd hk => hv.trans (h.kept hd hk)⟩
  · rw [InMemory.Reads, hseg, hinfo]
    exact h.reads x hx hn
  · rw [hinfo]
    exact h.gone x hx

/-- A segment that was not deleted loses a reference, and keeps another. -/
theorem recount (h : Halted s id c caps H u) (hx : s.Lists x) (hm : u.info x = some m) {n : Nat}
    (hn : n < m.refCount) (hpos : 0 < n) (hu : u.Updated x (m.withRefCount n) v) :
    Halted s id c caps (H ++ [.commit]) v := by
  have hmem : ∀ {y}, .delete y ∈ H ++ [.commit] ↔ .delete y ∈ H := by
    intro y
    rw [List.mem_append, List.mem_singleton]
    exact or_iff_left fun k => by cases k
  have hrefs : ∀ y, v.refs y = if y = x then n else u.refs y := by
    intro y
    rw [InMemory.refs, InMemory.refs, hu.info, Function.update_apply]
    split <;> rfl
  have hless : n < u.refs x := by
    rw [InMemory.refs, hm]
    exact hn
  refine ⟨by rw [hu.cat, h.capsules], fun y hy hnot => ?_, fun y hy => ?_, fun y hy m' hm' => ?_,
    fun y => ?_, fun _ => ⟨x, ?_⟩, fun _ k => absurd (List.mem_append_right _ List.mem_cons_self) k⟩
  · obtain ⟨hseg, segment, k, b, hs, hinfo⟩ := h.reads y hy fun k => hnot (hmem.mpr k)
    refine ⟨by rw [hu.seg, hseg], ?_⟩
    rw [hu.info]
    by_cases hyx : y = x
    · subst hyx
      rw [Function.update_self]
      rw [hm, Option.some.injEq] at hinfo
      exact ⟨segment, n, decide (1 < n), hs, by rw [hinfo]; rfl⟩
    · rw [Function.update_of_ne hyx]
      exact ⟨segment, k, b, hs, hinfo⟩
  · obtain ⟨hnone, hrest⟩ := h.gone y (hmem.mp hy)
    refine ⟨?_, hrest⟩
    rw [hu.info, Function.update_of_ne]
    · exact hnone
    · rintro rfl
      rw [hm] at hnone
      cases hnone
  · rw [hu.info] at hm'
    by_cases hyx : y = x
    · subst hyx
      rw [Function.update_self, Option.some.injEq] at hm'
      rw [← hm']
      exact hpos
    · rw [Function.update_of_ne hyx] at hm'
      exact h.positive y hy m' hm'
  · rw [hrefs]
    split
    · next e => exact (e ▸ hless.le).trans (e ▸ h.le x)
    · exact h.le y
  · rw [hrefs, if_pos rfl]
    exact hless.trans_le (h.le x)

/-- **A segment goes** that only this capsule lists. -/
theorem delete (h : Halted s id c caps H u) (hx : x ∈ c.segments) (hshared : ¬ s.Shared id x)
    (hcap : v.2.capsules = u.2.capsules) (hseg : v.seg = Function.update u.seg x none)
    (hinfo : v.info = Function.update u.info x none) :
    Halted s id c caps (H ++ [.delete x]) v := by
  have hold : ∀ y m, v.info y = some m → u.info y = some m := by
    intro y m hm
    rw [hinfo, Function.update_apply] at hm
    split at hm
    · cases hm
    · exact hm
  have hrefs : ∀ y, v.refs y ≤ u.refs y := by
    intro y
    rw [InMemory.refs]
    cases hv : v.info y with
    | none => exact Nat.zero_le _
    | some m =>
        rw [InMemory.refs, hold y m hv]
  refine ⟨hcap.trans h.capsules, fun y hy hn => ?_, fun y hy => ?_,
    fun y hy m hm => h.positive y hy m (hold y m hm), fun y => (hrefs y).trans (h.le y),
    fun k => ?_, fun k => absurd (List.mem_append_right _ List.mem_cons_self) (k x)⟩
  · have hyx : y ≠ x := by
      rintro rfl
      exact hn (List.mem_append_right _ List.mem_cons_self)
    rw [InMemory.Reads, hseg, hinfo, Function.update_of_ne hyx, Function.update_of_ne hyx]
    exact h.reads y hy fun k => hn (List.mem_append_left _ k)
  · rw [hinfo]
    rcases List.mem_append.mp hy with hy | hy
    · obtain ⟨hnone, hrest⟩ := h.gone y hy
      refine ⟨?_, hrest⟩
      by_cases hyx : y = x
      · rw [hyx, Function.update_self]
      · rw [Function.update_of_ne hyx, hnone]
    · obtain rfl : y = x := by
        have := List.mem_singleton.mp hy
        injection this
      exact ⟨Function.update_self .., hx, hshared⟩
  · have k : .commit ∈ H := (List.mem_append.mp k).resolve_right fun k => by
      cases List.mem_singleton.mp k
    obtain ⟨y, hy⟩ := h.spent k
    exact ⟨y, (hrefs y).trans_lt hy⟩

end Halted

namespace Pipeline
open Space.Modular
variable {c : Capsule}

/-- How often the other capsules list a segment. -/
def keptBy (s : InMemory) (id : CapsuleId) (y : SegmentId) : Nat :=
  Table.total (fun c : Capsule => c.segments.count y) (s.2.capsules.erase id)

theorem not_shared (h : keptBy s id x = 0) : ¬ s.Shared id x := by
  rintro ⟨id', c', hne, hc', hx⟩
  refine List.count_eq_zero.mp (Table.total_eq_zero.mp h id' c' ?_) hx
  rw [Table.lookup_erase, if_neg hne]
  exact hc'

/-- The capsule is still there, and the other segments are as they were. -/
abbrev Deleting (s : InMemory) (id : CapsuleId) (c : Capsule) :
    ModularOp → InMemory × List ModularOp → Prop :=
  fun _ v => Halted s id c s.2.capsules v.2 v.1

/-- **A segment loses a reference**, in a transaction. -/
theorem wp_updateMetadata_halted {m : Segment} {n : Nat}
    {Q : Except Error Unit → InMemory × List ModularOp → Prop}
    (h : Halted s id c s.2.capsules H u) (hx : s.Lists x) (hm : u.info x = some m)
    (hn : n < m.refCount) (hpos : 0 < n)
    (hq : ∀ u', Halted s id c s.2.capsules (H ++ [.beginTxn] ++
        [.setSegmentMetadata x (m.withRefCount n)] ++ [.commit]) u' →
      u.Updated x (m.withRefCount n) u' → Q (.ok ()) (u', H ++ [.beginTxn] ++
        [.setSegmentMetadata x (m.withRefCount n)] ++ [.commit])) :
    (updateMetadata x (m.withRefCount n)).wp
      (ModularOp.exec parts InMemoryBackend.storage).traced.moves (Deleting s id c) Q (u, H) := by
  have hsame : u.2 = { u.2 with capsules := s.2.capsules } := by rw [← h.capsules]
  have hbegin : Halted s id c s.2.capsules (H ++ [.beginTxn])
      ({ u.1 with transaction := {} }, u.2) :=
    h.call (fun _ k => by cases k) (fun k => by cases k) h.capsules rfl rfl fun _ =>
      congrArg (Prod.mk _) hsame
  have hset : Halted s id c s.2.capsules
      (H ++ [.beginTxn] ++ [.setSegmentMetadata x (m.withRefCount n)])
      ({ u.1 with transaction :=
        { stagedMetadata := (∅ : Table SegmentId Segment).insert x (m.withRefCount n) } }, u.2) :=
    hbegin.call (fun _ k => by cases k) (fun k => by cases k) h.capsules rfl rfl fun _ =>
      congrArg (Prod.mk _) hsame
  have hcommit : u.Updated x (m.withRefCount n) (InMemoryBackend.commit { u.1 with transaction :=
      { stagedMetadata := (∅ : Table SegmentId Segment).insert x (m.withRefCount n) } }, u.2) := by
    refine ⟨funext fun y => ?_, InMemoryBackend.commit_metadata_one _, rfl⟩
    exact InMemoryBackend.lookup_commit_segments _ y
  refine wp_bind.mpr (wp_tracedOp (S := ModularSig) .beginTxn h ?_)
  refine wp_onError ?_
  refine wp_bind.mpr (wp_tracedOp (S := ModularSig)
    (.setSegmentMetadata x (m.withRefCount n)) hbegin ?_)
  refine wp_tracedOp (S := ModularSig) .commit hset ?_
  refine hq _ ?_ hcommit
  exact hset.recount hx hm hn hpos ⟨hcommit.seg, hcommit.info, hcommit.cat⟩

/-- **One segment of the list.** -/
theorem wp_releaseSegment_halted {demand : SegmentId → Nat}
    {Q : Except Error Unit → InMemory × List ModularOp → Prop}
    (h : Halted s id c s.2.capsules H u) (hcov : Covered (fun y => demand y + [x].count y) u)
    (hlists : s.Lists x) (hx : x ∈ c.segments) (hdemand : ∀ y, keptBy s id y ≤ demand y)
    (hq : ∀ u' H', Halted s id c s.2.capsules H' u' → Covered demand u' →
      (∀ m, u.info x = some m → H' = H ++ m.dropping x) →
      (∀ y, 0 < demand y → u'.refs y + [x].count y = u.refs y) → Q (.ok ()) (u', H')) :
    (releaseSegment x).wp (ModularOp.exec parts InMemoryBackend.storage).traced.moves
      (Deleting s id c) Q (u, H) := by
  have hpos : 0 < demand x + [x].count x := by
    rw [List.count_singleton_self]
    exact Nat.succ_pos _
  obtain ⟨m, hm, hle⟩ := hcov.counted x hpos
  rw [List.count_singleton_self] at hle
  have hless : ∀ y, demand y ≤ demand y + [x].count y := fun _ => Nat.le_add_right _ _
  have hsame : u.2 = { u.2 with capsules := s.2.capsules } := by rw [← h.capsules]
  have h₁ : Halted s id c s.2.capsules (H ++ [.metadata x]) u :=
    h.call (fun _ k => by cases k) (fun k => by cases k) h.capsules rfl rfl fun _ =>
      congrArg (Prod.mk _) hsame
  refine wp_bind.mpr (wp_tracedOp (S := ModularSig) (.metadata x) h ?_)
  rw [exec_metadata hm]
  refine andThen_ok.mpr ?_
  split
  · rename_i hmore
    -- another reference stays: the count is lowered and committed, the segment is kept
    refine wp_updateMetadata_halted h₁ hlists hm (Nat.sub_lt (Nat.zero_lt_of_lt hmore) Nat.one_pos)
      (Nat.sub_pos_of_lt hmore) fun u' h' hu =>
      hq u' _ h' (hcov.recount hm hu (Nat.le_sub_of_add_le hle) fun y _ => hless y) ?_ fun y _ => ?_
    · intro m' hm'
      rw [hm, Option.some.injEq] at hm'
      rw [← hm', Segment.dropping, if_pos hmore]
      simp only [List.append_assoc, List.cons_append, List.nil_append]
    · rw [InMemory.refs, InMemory.refs, hu.info]
      by_cases hyx : y = x
      · subst hyx
        rw [Function.update_self, hm, List.count_singleton_self]
        exact Nat.sub_add_cancel (Nat.le_of_lt hmore)
      · rw [Function.update_of_ne hyx, List.count_singleton, beq_false_of_ne (Ne.symm hyx)]
        rfl
  · rename_i hone
    -- the last reference goes, and with it the segment and then its entry in the catalog
    have hother : ∀ u' : InMemory, u'.info = Function.update u.info x none → ∀ y, 0 < demand y →
        u'.refs y + [x].count y = u.refs y := by
      intro u' hu' y hy
      have hyx : y ≠ x := by
        rintro rfl
        omega
      rw [InMemory.refs, InMemory.refs, hu', Function.update_of_ne hyx, List.count_singleton,
        beq_false_of_ne (Ne.symm hyx)]
      rfl
    have hzero : demand x = 0 := by omega
    have hkept : keptBy s id x = 0 := Nat.le_zero.mp (hzero ▸ hdemand x)
    let backend : InMemoryBackend :=
      { u.1 with segments := u.1.segments.erase x, metadata := u.1.metadata.erase x }
    have hseg : ∀ cat, InMemory.seg (backend, cat) = Function.update u.seg x none := by
      intro cat
      funext y
      rw [Function.update_apply]
      exact Table.lookup_erase ..
    have hinfo : ∀ cat, InMemory.info (backend, cat) = Function.update u.info x none := by
      intro cat
      funext y
      rw [Function.update_apply]
      exact Table.lookup_erase ..
    -- the catalog names the segment under its own hash only, so one entry is all there is to remove
    have hname : ∀ hash, u.content hash = some x → m.contentHash = some hash := by
      intro hash hx
      obtain ⟨m', hm', hc⟩ := hcov.content hash x hx
      rw [hm] at hm'
      cases hm'
      exact hc
    have h₂ : Halted s id c s.2.capsules (H ++ [.metadata x] ++ [.delete x]) (backend, u.2) :=
      h₁.delete hx (not_shared hkept) rfl (hseg u.2) (hinfo u.2)
    refine wp_bind.mpr (wp_tracedOp (S := ModularSig) (.delete x) h₁ ?_)
    refine andThen_ok.mpr ?_
    cases hc : m.contentHash with
    | none =>
        refine hq _ _ h₂ (hcov.forget (hseg u.2) (hinfo u.2) (fun hash y hy => ⟨hy, ?_⟩) rfl hzero
          hless) (fun m' hm' => ?_) (hother _ (hinfo u.2))
        · rintro rfl
          exact Option.some_ne_none _ ((hname hash hy).symm.trans hc)
        · rw [hm, Option.some.injEq] at hm'
          rw [← hm', Segment.dropping, if_neg hone, hc, List.append_assoc]
          rfl
    | some hash =>
        refine wp_discard.mpr (wp_tracedOp (S := ModularSig) (.deregisterContent hash x) h₂ ?_)
        have hcat := capsules_deregister (x := x) u.2 hash
        refine hq _ _ (h₂.call (fun _ k => by cases k) (fun k => by cases k)
            (hcat.1.trans h.capsules) rfl rfl fun hd =>
              absurd (List.mem_append_right _ List.mem_cons_self) (hd x))
          (hcov.forget (hseg _) (hinfo _) (fun hash' y hy => ?_) hcat.2 hzero hless)
          (fun m' hm' => ?_) (hother _ (hinfo _))
        · obtain ⟨hy', hne⟩ := (content_deregister u.2 hash hash' y).mp hy
          refine ⟨hy', ?_⟩
          rintro rfl
          exact hne ⟨Option.some.inj ((hname hash' hy').symm.trans hc), rfl⟩
        · rw [hm, Option.some.injEq] at hm'
          rw [← hm', Segment.dropping, if_neg hone, hc, List.append_assoc, List.append_assoc]
          rfl

/-- Before the first call. -/
theorem halted_start (hs : Owes [] s) (hc : s.2.capsules.lookup id = some c) :
    Halted s id c s.2.capsules [] s := by
  have hcounted : ∀ x, s.Lists x → ∃ m, s.info x = some m ∧ 0 < m.refCount := by
    intro x hx
    have hocc : 0 < s.occ x + ([] : List SegmentId).count x :=
      Nat.lt_of_lt_of_le (InMemory.occ_pos.mpr hx) (Nat.le_add_right _ _)
    obtain ⟨m, hm, hle⟩ := hs.counted x hocc
    exact ⟨m, hm, hocc.trans_le hle⟩
  refine ⟨rfl, fun x hx _ => ⟨rfl, ?_⟩, fun x hx => absurd hx List.not_mem_nil,
    fun x hx m hm => ?_, fun _ => le_refl _, fun k => absurd k List.not_mem_nil, fun _ _ => rfl⟩
  · obtain ⟨m, hm, -⟩ := hcounted x hx
    exact ⟨m, m.refCount, m.deduplicated, hm, hm⟩
  · obtain ⟨m', hm', hpos⟩ := hcounted x ⟨id, c, hc, hx⟩
    rw [hm, Option.some.injEq] at hm'
    exact hm' ▸ hpos

/-- **The delete, between any two of its calls.** -/
theorem wp_deleteCapsule_halted (parts : Parts) (hs : Owes [] s)
    (hc : s.2.capsules.lookup id = some c) :
    (deleteCapsule id).wp (ModularOp.exec parts InMemoryBackend.storage).traced.moves
      (Deleting s id c)
      (fun r v => r = .ok () ∧ v.2 = s.deleteCalls id ∧
        Halted s id c (s.2.capsules.erase id) v.2 v.1) (s, []) := by
  have hstart : Halted s id c s.2.capsules [] s := halted_start hs hc
  have hlookup : s.2.lookupCapsule id = .ok c := by rw [InMemoryCatalog.lookupCapsule, hc]
  have h₁ : Halted s id c s.2.capsules [.lookupCapsule id] s :=
    hstart.call (fun _ k => by cases k) (fun k => by cases k) rfl rfl rfl fun _ => rfl
  refine wp_bind.mpr (wp_tracedOp (S := ModularSig) (.lookupCapsule id) hstart ?_)
  show andThen _ _ _ _ (s.2.lookupCapsule id) (s, [ModularOp.lookupCapsule id])
  rw [hlookup]
  have hinit : Covered (fun y => keptBy s id y + c.segments.count y) s :=
    Covered.mono hs fun y => by
      show _ ≤ Table.total _ s.2.capsules + 0
      rw [Table.total_erase _ hc, Nat.add_comm]
      exact Nat.le_refl _
  refine wp_bind.mpr (wp_foldlM (fun rest _ v => Halted s id c s.2.capsules v.2 v.1 ∧
    Covered (fun y => keptBy s id y + rest.count y) v.1 ∧ (∀ y ∈ rest, y ∈ c.segments) ∧
    ∃ dropped : List SegmentId, (∀ y ∈ rest, v.1.refs y + dropped.count y = s.refs y) ∧
      v.2 ++ s.dropCalls dropped rest = .lookupCapsule id :: s.dropCalls [] c.segments)
    ?_ ?_ _ _ _ ⟨h₁, hinit, fun _ hy => hy, [], fun _ _ => rfl, rfl⟩)
  · rintro x rest - ⟨u, H⟩ ⟨h, hcov, hmem, dropped, hrefs, hcalls⟩
    have hx : x ∈ c.segments := hmem x List.mem_cons_self
    have hcov : Covered (fun y => keptBy s id y + rest.count y + [x].count y) u :=
      hcov.mono fun y => by
        have hcons : ([x] ++ rest).count y = [x].count y + rest.count y := List.count_append
        show keptBy s id y + rest.count y + [x].count y ≤ keptBy s id y + ([x] ++ rest).count y
        omega
    refine wp_releaseSegment_halted h hcov ⟨id, c, hc, hx⟩ hx (fun _ => Nat.le_add_right _ _)
      fun u' H' h' hcov' hH' hrefs' => ⟨h', hcov', fun y hy => hmem y (List.mem_cons_of_mem _ hy),
        x :: dropped, fun y hy => ?_, ?_⟩
    · have hpos : 0 < rest.count y := List.count_pos_iff.mpr hy
      have hone := hrefs' y (Nat.lt_of_lt_of_le hpos (Nat.le_add_left _ _))
      have hall : u.refs y + dropped.count y = s.refs y := hrefs y (List.mem_cons_of_mem _ hy)
      have hcons : ([x] ++ dropped).count y = [x].count y + dropped.count y := List.count_append
      show u'.refs y + ([x] ++ dropped).count y = s.refs y
      omega
    · -- what is called depends on the count of the segment, and on nothing that was changed
      obtain ⟨-, segment, n, b, hs, hu⟩ := h.reads x ⟨id, c, hc, hx⟩ fun hdel => by
        obtain ⟨m, hm, -⟩ := hcov.counted x (by
          rw [List.count_singleton_self]
          exact Nat.succ_pos _)
        rw [(h.gone x hdel).1] at hm
        cases hm
      have hall : u.refs x + dropped.count x = s.refs x := hrefs x List.mem_cons_self
      rw [InMemory.refs, InMemory.refs, hs, hu] at hall
      have hn : segment.refCount - dropped.count x = n := Nat.sub_eq_of_eq_add hall.symm
      rw [hH' _ hu, List.append_assoc, ← hcalls, InMemory.dropCalls, hs]
      show _ = H ++ ((segment.withRefCount (segment.refCount - dropped.count x)).dropping x ++ _)
      rw [hn]
      rfl
  · rintro - ⟨u, H⟩ ⟨h, -, -, dropped, -, hcalls⟩
    rw [InMemory.dropCalls, List.append_nil] at hcalls
    dsimp only at hcalls
    refine wp_discard.mpr (wp_tracedOp (S := ModularSig) (.deleteCapsule id) h ?_)
    have herase : u.2.deleteCapsule id =
        (.ok c, { u.2 with capsules := s.2.capsules.erase id }) := by
      rw [InMemoryCatalog.deleteCapsule, h.capsules, hc]
    refine ⟨?_, ?_, h.call (fun _ k => by cases k) (fun k => by cases k) ?_ rfl rfl fun _ => ?_⟩
    · show Except.map _ (u.2.deleteCapsule id).1 = _
      rw [herase]
      rfl
    · show H ++ _ = _
      rw [hcalls, InMemory.deleteCalls, hc]
      rfl
    · show (u.2.deleteCapsule id).2.capsules = _
      rw [herase]
    · show (u.unstaged.1, (u.2.deleteCapsule id).2) = _
      rw [herase]

/-! ### The delete that fails -/

/-- A delete gives up at an error, and drops the transaction. -/
theorem givesUp_deleteCapsule (id : CapsuleId) :
    (deleteCapsule id).GivesUp fun o => o = ModularOp.dropTxn := by
  refine givesUp_bind givesUp_perform fun c =>
    givesUp_bind (givesUp_foldlM (fun _ x => ?_) _ _) fun _ => givesUp_discard givesUp_perform
  refine givesUp_bind givesUp_perform fun (m : Segment) => ?_
  show GivesUp _ (if 1 < m.refCount then _ else _)
  split
  · refine givesUp_bind givesUp_perform fun _ => givesUp_onError ?_ (uses_perform.mpr rfl)
    exact givesUp_bind givesUp_perform fun _ => givesUp_perform
  · refine givesUp_bind givesUp_perform fun _ => ?_
    dsimp only
    cases m.contentHash with
    | none => trivial
    | some hash => exact givesUp_discard givesUp_perform

/-- The other capsules are as they were. -/
theorem others_kept {caps : Table CapsuleId Capsule} (h : Halted s id c caps H u)
    (hcaps : ∀ id', id' ≠ id → caps.lookup id' = s.2.capsules.lookup id') :
    (modularDeletes parts).Kept id s u := by
  intro id' hne hsome
  obtain ⟨c', hc'⟩ := Option.isSome_iff_exists.mp hsome
  have hu : u.2.capsules.lookup id' = some c' := by rw [h.capsules, hcaps id' hne, hc']
  refine ⟨Option.isSome_of_eq_some hu, ?_⟩
  show u.readCapsule parts id' = s.readCapsule parts id'
  have hlookup : ∀ {v : InMemory}, v.2.capsules.lookup id' = some c' →
      InMemory.shelf.capsule id' v = .ok c' := fun hv => by
    show InMemoryCatalog.lookupCapsule _ id' = _
    rw [InMemoryCatalog.lookupCapsule, hv]
  rw [InMemory.readCapsule_eq, InMemory.readCapsule_eq]
  refine Shelf.readCapsule_congr ((hlookup hu).trans (hlookup hc').symm) fun c₁ hc₁ x hx => ?_
  obtain rfl := Except.ok.inj ((hlookup hc').symm.trans hc₁)
  refine (h.reads x ⟨id', c', hc', hx⟩ fun hdel => ?_).alike
  exact (h.gone x hdel).2.2 ⟨id', c', hne, hc', hx⟩

/-- A capsule that is not there is not deleted. -/
theorem delete_absent (hu : u.2.capsules.lookup id = none) :
    ((deleteCapsule id).run (ModularOp.exec parts InMemoryBackend.storage) u).2 = u := by
  have hlookup : (Modular.lookupCapsule id).run (ModularOp.exec parts InMemoryBackend.storage) u =
      (u.2.lookupCapsule id, u) := run_perform (S := ModularSig) _ _ u
  rw [deleteCapsule, run_bind, hlookup, InMemoryCatalog.lookupCapsule, hu]

/-! ### The delete that follows -/

/-- Other metadata for a segment, all at once. -/
theorem updateMetadata_run (parts : Parts) (x : SegmentId) (m : Segment) (v : InMemory) : ∃ v',
    (updateMetadata x m).run (ModularOp.exec parts InMemoryBackend.storage) v = (.ok (), v') ∧
      v.Updated x m v' ∧
      (updateMetadata x m).run (ModularOp.exec parts InMemoryBackend.storage) v.unstaged =
        (.ok (), v') :=
  ⟨_, rfl, ⟨funext fun y => InMemoryBackend.lookup_commit_segments _ y,
    InMemoryBackend.commit_metadata_one _, rfl⟩, rfl⟩

/-- **One reference is taken back**, or the segment is not there. -/
theorem releaseSegment_counts (hpos : ∀ m, v.info x = some m → 0 < m.refCount)
    {r : Except Error Unit} {v' : InMemory}
    (hr : (releaseSegment x).run (ModularOp.exec parts InMemoryBackend.storage) v = (r, v')) :
    v'.2.capsules = v.2.capsules ∧
      (∀ y m, v'.info y = some m → v.info y = some m ∨ 0 < m.refCount) ∧
      (r = .ok () → ∀ y, v'.refs y + [x].count y = v.refs y) := by
  have hmeta : (Modular.metadata x).run (ModularOp.exec parts InMemoryBackend.storage) v =
      (InMemoryBackend.storage.metadata x v.1, v) := run_perform (S := ModularSig) _ _ v
  rw [releaseSegment, run_bind, hmeta] at hr
  cases hm : v.info x with
  | none =>
      rw [InMemory.storage_metadata_none hm] at hr
      cases hr
      exact ⟨rfl, fun y m hy => .inl hy, fun k => by cases k⟩
  | some m =>
      rw [InMemory.storage_metadata hm] at hr
      have hcount : ∀ y, y ≠ x → ([x] : List SegmentId).count y = 0 := fun y hy => by
        rw [List.count_singleton, beq_false_of_ne (Ne.symm hy)]
        rfl
      have hrefs : v.refs x = m.refCount := by rw [InMemory.refs, hm]; rfl
      dsimp only at hr
      split at hr
      · next hmore =>
          obtain ⟨w, hw, hup, -⟩ := updateMetadata_run parts x
            (m.withRefCount (m.refCount - 1)) v
          rw [hw] at hr
          cases hr
          refine ⟨by rw [hup.cat], fun y m' hy => ?_, fun _ y => ?_⟩
          · rw [hup.info, Function.update_apply] at hy
            split at hy
            · rw [Option.some.injEq] at hy
              exact .inr (hy ▸ Nat.sub_pos_of_lt hmore)
            · exact .inl hy
          · rw [InMemory.refs, hup.info, Function.update_apply]
            by_cases hy : y = x
            · subst hy
              rw [if_pos rfl, List.count_singleton_self, hrefs]
              exact Nat.sub_add_cancel hmore.le
            · rw [if_neg hy, hcount y hy]
              rfl
      · next hone =>
          -- whether the entry goes as well does not matter to the counts
          obtain ⟨cat, hcat, hrun⟩ : ∃ cat, cat.capsules = v.2.capsules ∧ (r, v') = (.ok (),
              { v.1 with segments := v.1.segments.erase x, metadata := v.1.metadata.erase x },
              cat) := by
            cases hc : m.contentHash with
            | none =>
                rw [hc] at hr
                exact ⟨v.2, rfl, hr.symm⟩
            | some hash =>
                rw [hc] at hr
                exact ⟨_, (capsules_deregister (x := x) v.2 hash).1, hr.symm⟩
          cases hrun
          have hinfo : ∀ y, InMemory.info ({ v.1 with
              segments := v.1.segments.erase x, metadata := v.1.metadata.erase x }, cat) y =
              if y = x then none else v.info y := fun y => Table.lookup_erase ..
          refine ⟨hcat, fun y m' hy => ?_, fun _ y => ?_⟩
          · rw [hinfo] at hy
            split at hy
            · cases hy
            · exact .inl hy
          · rw [InMemory.refs, hinfo]
            by_cases hy : y = x
            · subst hy
              have := hpos m hm
              rw [if_pos rfl, List.count_singleton_self, hrefs]
              show 0 + 1 = m.refCount
              omega
            · rw [if_neg hy, hcount y hy]
              rfl

/-- **A reference for each entry** of the list, if the loop comes to its end. -/
theorem releaseSegments_counts : ∀ (l : List SegmentId) {v : InMemory}
    (_ : ∀ y ∈ l, ∀ m, v.info y = some m → 0 < m.refCount) {r : Except Error Unit} {v' : InMemory},
    (l.foldlM (fun _ segId => releaseSegment segId) ()).run
      (ModularOp.exec parts InMemoryBackend.storage) v = (r, v') →
    v'.2.capsules = v.2.capsules ∧ (r = .ok () → ∀ y, v'.refs y + l.count y = v.refs y)
  | [], v, _, r, v', hr => by
      cases hr
      exact ⟨rfl, fun _ _ => rfl⟩
  | x :: l, v, hpos, r, v', hr => by
      rw [List.foldlM_cons, run_bind] at hr
      rcases h₁ : (releaseSegment x).run (ModularOp.exec parts InMemoryBackend.storage) v with
        ⟨_ | _, v₁⟩
      all_goals rw [h₁] at hr
      all_goals obtain ⟨hcap₁, hpos₁, hrefs₁⟩ :=
        releaseSegment_counts (hpos x List.mem_cons_self) h₁
      · cases hr
        exact ⟨hcap₁, fun k => by cases k⟩
      · obtain ⟨hcap, hrefs⟩ := releaseSegments_counts l (v := v₁) (fun y hy m hm =>
          (hpos₁ y m hm).elim (hpos y (List.mem_cons_of_mem _ hy) m) fun k => k) hr
        refine ⟨hcap.trans hcap₁, fun k y => ?_⟩
        have hcons : ([x] ++ l).count y = [x].count y + l.count y := List.count_append
        have htail := hrefs k y
        have hhead := hrefs₁ rfl y
        show v'.refs y + ([x] ++ l).count y = v.refs y
        omega

/-- **A delete that ends** has taken a reference back for each entry. -/
theorem deleteCapsule_counts (hv : v.2.capsules.lookup id = some c)
    (hpos : ∀ y ∈ c.segments, ∀ m, v.info y = some m → 0 < m.refCount)
    (hgone : ((deleteCapsule id).run
      (ModularOp.exec parts InMemoryBackend.storage) v).2.2.capsules.lookup id = none)
    (y : SegmentId) : InMemory.refs ((deleteCapsule id).run
      (ModularOp.exec parts InMemoryBackend.storage) v).2 y + c.segments.count y = v.refs y := by
  have hlookup : (Modular.lookupCapsule id).run (ModularOp.exec parts InMemoryBackend.storage) v =
      (.ok c, v) := by
    refine (run_perform (S := ModularSig) _ _ v).trans (congrArg (fun r => (r, v)) ?_)
    rw [InMemoryCatalog.lookupCapsule, hv]
  rw [deleteCapsule, run_bind, hlookup] at hgone ⊢
  dsimp only at hgone ⊢
  rw [run_bind] at hgone ⊢
  rcases h₁ : (c.segments.foldlM (fun _ segId => releaseSegment segId) ()).run
    (ModularOp.exec parts InMemoryBackend.storage) v with ⟨e | _, v₁⟩
  all_goals rw [h₁] at hgone
  all_goals obtain ⟨hcap, hrefs⟩ := releaseSegments_counts c.segments hpos h₁
  · dsimp only at hgone
    rw [hcap, hv] at hgone
    cases hgone
  · dsimp only
    rw [run_discard]
    have hlast : (Modular.deleteCapsule id).run (ModularOp.exec parts InMemoryBackend.storage) v₁ =
        ((v₁.2.deleteCapsule id).1, v₁.1, (v₁.2.deleteCapsule id).2) :=
      run_perform (S := ModularSig) _ _ v₁
    rw [hlast]
    exact hrefs rfl y

/-- Two runs that end alike, but for what is staged. -/
def SameRun {α : Type} (p q : Except Error α × InMemory) : Prop :=
  p.1 = q.1 ∧ p.2.unstaged = q.2.unstaged

/-- **What was staged is not seen** by a release. -/
theorem releaseSegment_unstaged (parts : Parts) (h : v.unstaged = u.unstaged) (x : SegmentId) :
    SameRun ((releaseSegment x).run (ModularOp.exec parts InMemoryBackend.storage) v)
      ((releaseSegment x).run (ModularOp.exec parts InMemoryBackend.storage) u) := by
  suffices hself : ∀ v : InMemory,
      SameRun ((releaseSegment x).run (ModularOp.exec parts InMemoryBackend.storage) v)
        ((releaseSegment x).run (ModularOp.exec parts InMemoryBackend.storage) v.unstaged) by
    have hu := hself u
    rw [← h] at hu
    exact ⟨(hself v).1.trans hu.1.symm, (hself v).2.trans hu.2.symm⟩
  intro v
  have hmeta : ∀ w : InMemory,
      (Modular.metadata x).run (ModularOp.exec parts InMemoryBackend.storage) w =
        (InMemoryBackend.storage.metadata x w.1, w) := run_perform (S := ModularSig) _ _
  have hsame : InMemoryBackend.storage.metadata x v.unstaged.1 =
      InMemoryBackend.storage.metadata x v.1 := rfl
  rw [releaseSegment, run_bind, run_bind, hmeta, hmeta, hsame]
  cases InMemoryBackend.storage.metadata x v.1 with
  | error e => exact ⟨rfl, rfl⟩
  | ok m =>
      dsimp only
      split
      · obtain ⟨w, hw, -, hw'⟩ := updateMetadata_run parts x
          (m.withRefCount (m.refCount - 1)) v
        rw [hw, hw']
        exact ⟨rfl, rfl⟩
      · cases m.contentHash <;> exact ⟨rfl, rfl⟩

theorem releaseSegments_unstaged (parts : Parts) : ∀ (l : List SegmentId) {v u : InMemory},
    v.unstaged = u.unstaged →
    SameRun ((l.foldlM (fun _ segId => releaseSegment segId) ()).run
        (ModularOp.exec parts InMemoryBackend.storage) v)
      ((l.foldlM (fun _ segId => releaseSegment segId) ()).run
        (ModularOp.exec parts InMemoryBackend.storage) u)
  | [], _, _, h => ⟨rfl, h⟩
  | x :: l, v, u, h => by
      obtain ⟨hr, hs⟩ := releaseSegment_unstaged parts h x
      rw [List.foldlM_cons, run_bind, run_bind]
      rcases h₁ : (releaseSegment x).run (ModularOp.exec parts InMemoryBackend.storage) v with
        ⟨r, v₁⟩
      rcases h₂ : (releaseSegment x).run (ModularOp.exec parts InMemoryBackend.storage) u with
        ⟨r', u₁⟩
      rw [h₁, h₂] at hr hs
      obtain rfl : r = r' := hr
      cases r with
      | error e => exact ⟨rfl, hs⟩
      | ok _ => exact releaseSegments_unstaged parts l hs

/-- **What was staged is not seen** by a delete. -/
theorem deleteCapsule_unstaged (parts : Parts) (h : v.unstaged = u.unstaged) (id : CapsuleId) :
    InMemory.unstaged
        ((deleteCapsule id).run (ModularOp.exec parts InMemoryBackend.storage) v).2 =
      InMemory.unstaged
        ((deleteCapsule id).run (ModularOp.exec parts InMemoryBackend.storage) u).2 := by
  have hlookup : ∀ w : InMemory,
      (Modular.lookupCapsule id).run (ModularOp.exec parts InMemoryBackend.storage) w =
        (w.2.lookupCapsule id, w) := run_perform (S := ModularSig) _ _
  have hcat : v.2 = u.2 := (InMemory.of_unstaged h).1
  rw [deleteCapsule, run_bind, run_bind, hlookup, hlookup, hcat]
  cases u.2.lookupCapsule id with
  | error e => exact h
  | ok c =>
      dsimp only
      obtain ⟨hr, hs⟩ := releaseSegments_unstaged parts c.segments h
      rw [run_bind, run_bind]
      rcases h₁ : (c.segments.foldlM (fun _ segId => releaseSegment segId) ()).run
        (ModularOp.exec parts InMemoryBackend.storage) v with ⟨r, v₁⟩
      rcases h₂ : (c.segments.foldlM (fun _ segId => releaseSegment segId) ()).run
        (ModularOp.exec parts InMemoryBackend.storage) u with ⟨r', u₁⟩
      rw [h₁, h₂] at hr hs
      obtain rfl : r = r' := hr
      cases r with
      | error e => exact hs
      | ok _ =>
          have hlast : ∀ w : InMemory,
              (Modular.deleteCapsule id).run (ModularOp.exec parts InMemoryBackend.storage) w =
                ((w.2.deleteCapsule id).1, w.1, (w.2.deleteCapsule id).2) :=
            run_perform (S := ModularSig) _ _
          have hcat : v₁.2 = u₁.2 := (InMemory.of_unstaged hs).1
          dsimp only
          rw [run_discard, run_discard, hlast, hlast, hcat]
          exact congrArg (fun b => (b, (u₁.2.deleteCapsule id).2)) (congrArg Prod.fst hs)

/-! ### When it can be tried again -/

/-- **Before the last call** the capsule is there, and cannot be read once a segment of it went. -/
theorem of_repairable (hc : s.2.capsules.lookup id = some c)
    (h : Halted s id c s.2.capsules H u) (hr : AllOrRepairable (modularDeletes parts) id s u) :
    (∃ data, s.readCapsule parts id = .ok data) ∧ ∀ x, .delete x ∉ H := by
  have hu : u.2.capsules.lookup id = some c := by rw [h.capsules, hc]
  rcases hr.settled with ⟨data, hs, hread⟩ | ⟨hgone, -⟩
  · refine ⟨⟨data, hs⟩, fun x hx => ?_⟩
    have hread : u.readCapsule parts id = .ok data := hread
    rw [InMemory.readCapsule_eq] at hread
    refine Shelf.readCapsule_gone (L := InMemory.shelf) ?_ (InMemory.storage_metadata_none
      (h.gone x hx).1) (h.gone x hx).2.1 data hread
    show InMemoryCatalog.lookupCapsule _ id = _
    rw [InMemoryCatalog.lookupCapsule, hu]
  · exact absurd (Option.isSome_of_eq_some hu) hgone

/-- **A count that was taken back** is taken back again. -/
theorem not_committed (hs : Owes [] s) (hc : s.2.capsules.lookup id = some c)
    (h : Halted s id c s.2.capsules H u) (hr : AllOrRetryable (modularDeletes parts) id s u) :
    .commit ∉ H := by
  have hu : u.2.capsules.lookup id = some c := by rw [h.capsules, hc]
  obtain ⟨hsame, -⟩ | ⟨hgone, -⟩ := hr.retried
  · intro hcommit
    obtain ⟨x, hless⟩ := h.spent hcommit
    -- both deletes come to their end, and leave the same counts
    obtain ⟨-, -, hfull⟩ := wp_trace (wp_deleteCapsule_halted parts hs hc)
    have hsame : InMemory.Alike
      ((deleteCapsule id).run (ModularOp.exec parts InMemoryBackend.storage) s).2
      ((deleteCapsule id).run (ModularOp.exec parts InMemoryBackend.storage) u).2 := hsame
    have hgone : ((deleteCapsule id).run
        (ModularOp.exec parts InMemoryBackend.storage) s).2.2.capsules.lookup id = none := by
      rw [hfull.capsules, Table.lookup_erase, if_pos rfl]
    have hstart : Halted s id c s.2.capsules [] s := halted_start hs hc
    have hall := deleteCapsule_counts hc hstart.positive hgone x
    have hagain := deleteCapsule_counts hu h.positive (hsame.capsules ▸ hgone) x
    rw [Halted.refs_of_info hsame.info] at hagain
    omega
  · exact absurd (Option.isSome_of_eq_some hu) hgone

/-- **Before the first commit** nothing has changed. -/
theorem retryable_of (hs : Owes [] s) (hc : s.2.capsules.lookup id = some c)
    (h : Halted s id c s.2.capsules H u) {data : Bytes} (hread : s.readCapsule parts id = .ok data)
    (hdelete : ∀ x, .delete x ∉ H) (hcommit : .commit ∉ H) :
    AllOrRetryable (modularDeletes parts) id s u := by
  have hu : u.unstaged = s.unstaged := h.kept hdelete hcommit
  obtain ⟨-, -, hfull⟩ := wp_trace (wp_deleteCapsule_halted parts hs hc)
  have hagain := deleteCapsule_unstaged parts hu id
  have hcat : u.2 = s.2 := (InMemory.of_unstaged hu).1
  have hlisted : ∀ x ∈ c.segments, s.Reads x u := fun x hx =>
    h.reads x ⟨id, c, hc, hx⟩ (hdelete x)
  refine ⟨.inl ⟨data, hread, ?_⟩, .inl ⟨.of_unstaged hagain, others_kept (hfull.unstaged hagain)
    fun id' hne => ?_⟩, others_kept h fun _ _ => rfl⟩
  · show u.readCapsule parts id = .ok data
    rw [← hread, InMemory.readCapsule_eq, InMemory.readCapsule_eq]
    refine Shelf.readCapsule_congr ?_ fun c₁ hc₁ x hx => (hlisted x ?_).alike
    · show InMemoryCatalog.lookupCapsule _ id = InMemoryCatalog.lookupCapsule _ id
      rw [hcat]
    · have hc₁ : s.2.lookupCapsule id = .ok c₁ := hc₁
      rw [InMemoryCatalog.lookupCapsule, hc] at hc₁
      obtain rfl := Except.ok.inj hc₁
      exact hx
  · rw [Table.lookup_erase, if_neg hne]

/-- **After the last call** nothing is left to do. -/
theorem ended {w : InMemory}
    (hw : ((deleteCapsule id).run (ModularOp.exec parts InMemoryBackend.storage) s).2 = w)
    (h : Halted s id c (s.2.capsules.erase id) H w) (hu : u.unstaged = w.unstaged) :
    AllOrRetryable (modularDeletes parts) id s u := by
  have hhalted := h.unstaged hu
  have hgone : u.2.capsules.lookup id = none := by
    rw [hhalted.capsules, Table.lookup_erase, if_pos rfl]
  have hkept : (modularDeletes parts).Kept id s u := others_kept hhalted fun y hy => by
    rw [Table.lookup_erase, if_neg hy]
  have hagain : (modularDeletes parts).delete id u = u := delete_absent hgone
  refine ⟨.inr ?_, .inl ⟨?_, hagain.symm ▸ hkept⟩, hkept⟩
  · show ¬ (u.2.capsules.lookup id).isSome
    rw [hgone]
    exact Bool.false_ne_true
  · rw [hagain]
    show InMemory.Alike ((deleteCapsule id).run _ s).2 u
    rw [hw]
    exact .of_unstaged hu

/-- **A delete in which one call fails** stops where that call was made, but for what was staged. -/
theorem deleteCapsule_stops (parts : Parts) (id : CapsuleId) (hs : Owes [] s)
    (hc : s.2.capsules.lookup id = some c) (f : Failure Error) {e : Error} {v : InMemory × Nat}
    (hr : (deleteCapsule id).run ((ModularOp.exec parts InMemoryBackend.storage).failing f) (s, 0) =
      (.error e, v)) :
    if f.made < (s.deleteCalls id).length then
      Halted s id c s.2.capsules ((s.deleteCalls id).take f.made) v.1
    else v.1.unstaged = InMemory.unstaged
      ((deleteCapsule id).run (ModularOp.exec parts InMemoryBackend.storage) s).2 := by
  obtain ⟨hok, hcalls, hfull⟩ := wp_trace (wp_deleteCapsule_halted parts hs hc)
  dsimp only at hcalls
  rw [List.nil_append] at hcalls
  by_cases hn : f.index < (s.deleteCalls id).length
  · rw [← hcalls] at hn
    obtain ⟨e', -, hstate⟩ := run_failing (h := ModularOp.exec parts InMemoryBackend.storage)
      (g := InMemory.unstaged) (m := 0) (n := f.index) (fun o v ho => by subst ho; rfl)
      (givesUp_deleteCapsule id) (Nat.zero_add _).symm hn
    rw [hr] at hstate
    have hv : InMemory.unstaged v.1 = InMemory.unstaged ((deleteCapsule id).after
      (ModularOp.exec parts InMemoryBackend.storage) f.made s) := hstate
    rw [← hcalls]
    split
    · next hlt =>
        have hafter := wp_after (I := fun H v => Halted s id c s.2.capsules H v)
          (wp_deleteCapsule_halted parts hs hc) hlt
        exact hafter.unstaged hv
    · next hge =>
        rw [after_of_length_le (Nat.le_of_not_lt hge)] at hv
        exact hv
  · -- the failure is not reached, and then the delete succeeds
    have hrun := run_failing_unreached (h := ModularOp.exec parts InMemoryBackend.storage) (f := f)
      (p := deleteCapsule id) (s := s) (m := 0)
      (by rw [Nat.zero_add, hcalls]; exact Nat.le_of_not_lt hn)
    rw [hr, hok] at hrun
    cases hrun

/-- **When a delete that fails can be tried again**: if it came to its end, or if no count and no
segment was changed. -/
theorem deleteCapsule_failing (id : CapsuleId) (hs : Owes [] s)
    (hc : s.2.capsules.lookup id = some c)
    (f : Failure Error) {e : Error} {v : InMemory × Nat}
    (hr : (deleteCapsule id).run ((ModularOp.exec parts InMemoryBackend.storage).failing f) (s, 0) =
      (.error e, v)) :
    AllOrRetryable (modularDeletes parts) id s v.1 ↔
      (s.deleteCalls id).length ≤ f.made ∨ (∃ data, s.readCapsule parts id = .ok data) ∧
        (∀ x, .delete x ∉ (s.deleteCalls id).take f.made) ∧
        .commit ∉ (s.deleteCalls id).take f.made := by
  have hstops := deleteCapsule_stops parts id hs hc f hr
  split at hstops
  · next hlt =>
      constructor
      · intro h
        obtain ⟨hread, hdelete⟩ := of_repairable hc hstops h.repairable
        exact .inr ⟨hread, hdelete, not_committed hs hc hstops h⟩
      · rintro (hle | ⟨⟨data, hread⟩, hdelete, hcommit⟩)
        · exact absurd hlt (Nat.not_lt_of_le hle)
        · exact retryable_of hs hc hstops hread hdelete hcommit
  · next hge =>
      obtain ⟨-, -, hfull⟩ := wp_trace (wp_deleteCapsule_halted parts hs hc)
      exact iff_of_true (ended rfl hfull hstops) (.inl (Nat.le_of_not_lt hge))

end Pipeline

end Space

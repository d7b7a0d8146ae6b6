import Space.Native.Staging
import Space.Native.Traces

/-!
# Native — Atomic

What an asynchronous write that fails leaves behind, on a disk that may fail an operation before
it changes memory or while it saves the change.  The operations that take back do not fail.

The coordinator takes its references in the order of the chunks, and gives back those whose
operation succeeded; likewise the hashes it registered and the segments it committed.  An
operation that fails while saving has changed memory already, and is not taken back.

* `Counts`: the reference counts of the segments that were there, on the way.
* `writeCapsuleWithPolicyAsync_untouched_iff`: what was there is as it was if and only if no
  operation failed while saving, other than on a count that was full, no count was full
  otherwise, and no segments were committed that have no hash to be found by.
-/

namespace Space
open Support Prog

variable {P : Primitives}

namespace Store

/-- What is stored is as it was, up to access counts and skipped identifiers. -/
structure Untouched (s s' : Store P) : Prop where
  capsules : ∀ id, s'.registry.capsules.lookup id = s.registry.capsules.lookup id
  content : ∀ h, s'.content h = s.content h
  segments : ∀ x, (s'.seg x).map Segment.unread = (s.seg x).map Segment.unread
  bytes : ∀ x, s'.nvram.read x = s.nvram.read x

/-- What the reference counts and the log are like between two operations. -/
structure Balanced (s : Store P) : Prop where
  fresh : s.Fresh
  counted : ∀ x t, s.seg x = some t →
    1 ≤ t.refCount ∧ t.refCount ≤ u32Max ∧ t.deduplicated = decide (1 < t.refCount)
  extent : ∀ x t, s.seg x = some t →
    t.offset + t.len ≤ s.nvram.nextOffset ∧ t.offset + t.len ≤ s.nvram.file.length

/-- The stored segments that chunks are hits on, in order, up to the first chunk that cannot be
prepared.  A chunk whose hash is `staged` is no such hit. -/
def hits (s : Store P) (policy : Policy) : List ContentHash → List Bytes → List SegmentId
  | _, [] => []
  | staged, chunk :: rest =>
    match preparedHash P (s.keyFor policy) policy chunk with
    | none => []
    | some hash =>
      if hash ∈ staged then hits s policy staged rest
      else match s.hit policy hash with
        | some x => x :: hits s policy staged rest
        | none => hits s policy (staged ++ [hash]) rest

/-- Hit number `k` of the list finds the count of its segment full. -/
def Full (s : Store P) (hits : List SegmentId) (k : Nat) : Prop :=
  ∃ x v, hits[k]? = some x ∧ s.refs x = some v ∧ u32Max ≤ v + (hits.take k).count x

end Store

/-- A write from `s` that comes to the disk `n` times takes back all it did: of these operations
those fail while saving that are hits on a full count, and no others; and with deduplication off
the log is not committed. -/
structure TakenBack (faults : Nat → Option Fault) (s : Store P) (data : Bytes) (policy : Policy)
    (n : Nat) : Prop where
  late : ∀ k < n, LateAt faults k ↔ s.Full (s.hits policy [] (chunks SEGMENT_SIZE data)) k
  uncommitted : policy.dedupe = false → data ≠ [] → 0 < n → faults 0 ≠ none

/-- The states between two operations are such states. -/
theorem World.Inv.balanced {D : Discipline} {w : World P} (h : World.Inv D w 0) :
    w.store.Balanced where
  fresh := h.fresh
  counted := by
    intro x t ht
    refine ⟨Nat.one_le_iff_ne_zero.mpr fun h0 => ?_, ?_, h.dedup x t ht⟩
    · rcases h.zero x t ht h0 with ⟨hash, k⟩ | k
      · exact Multiset.notMem_zero _ k
      · exact Multiset.notMem_zero _ k
    · rw [← World.refs_of_seg ht, h.refs x]
      exact Nat.min_le_left _ _
  extent := by
    intro x t ht
    have he := h.extent x t ht
    have hlen : t.len ≤ (w.payload x).length := he.len ▸ Nat.mod_le _ _
    have hfile : w.store.nvram.nextOffset = w.file.length := h.fileEnd rfl
    have hin : t.offset + t.len ≤ w.file.length :=
      (Nat.add_le_add_left hlen _).trans he.inside
    exact ⟨hfile ▸ hin, hin⟩

/-! ### Counts on the way -/

/-- A segment with another count, and without its access counter. -/
def Segment.atCount (n : Nat) (t : Segment) : Segment :=
  { t with refCount := n, deduplicated := decide (1 < n), accessCount := 0 }

namespace Segment
variable {t u : Segment} {n : Nat}

theorem unread_taken_of (h : u.unread = t.atCount n) :
    u.taken.unread = t.atCount (saturatingSucc n) := by
  obtain ⟨⟩ := t
  obtain ⟨⟩ := u
  simp only [unread, atCount, taken, Segment.mk.injEq] at h ⊢
  simp_all

/-- A segment after a reference to it was given back. -/
def dropped (t : Segment) : Segment :=
  { t with refCount := t.refCount - 1, deduplicated := decide (1 < t.refCount - 1) }

theorem unread_dropped_of (h : u.unread = t.atCount n) :
    u.dropped.unread = t.atCount (n - 1) := by
  obtain ⟨⟩ := t
  obtain ⟨⟩ := u
  simp only [unread, atCount, dropped, Segment.mk.injEq] at h ⊢
  simp_all

theorem unread_atCount_eq (h : t.deduplicated = decide (1 < t.refCount)) :
    t.atCount n = t.unread ↔ n = t.refCount := by
  constructor
  · exact fun k => congrArg Segment.refCount k
  · rintro rfl
    unfold atCount unread
    rw [← h]

end Segment

namespace Store
variable {s s' s'' s₀ : Store P} {c : SegmentId → Nat}

/-- The segments of `s₀` are in `s`, with the counts `c`. -/
def Counts (s₀ s : Store P) (c : SegmentId → Nat) : Prop := ∀ y t, s₀.seg y = some t →
  (s.seg y).map Segment.unread = some (t.atCount (c y))

/-- The bytes of the log up to its end are as they were. -/
structure Kept (s₀ s : Store P) : Prop where
  length : s₀.nvram.file.length ≤ s.nvram.file.length
  slice : ∀ o l, o + l ≤ s₀.nvram.nextOffset → o + l ≤ s₀.nvram.file.length →
    slice s.nvram.file o l = slice s₀.nvram.file o l

theorem Kept.of_file (h : s.nvram.file = s₀.nvram.file) : s₀.Kept s := by
  constructor
  · rw [h]
  · intro o l _ _
    rw [h]

/-- Writing behind the end keeps the bytes. -/
theorem Kept.writeAt {o : Nat} {d : Bytes} (h : s₀.Kept s) (ho : s₀.nvram.nextOffset ≤ o)
    (hf : s'.nvram.file = writeAt 0 s.nvram.file o d) : s₀.Kept s' := by
  constructor
  · rw [hf]
    exact h.length.trans (length_le_writeAt _ _ _ _)
  · intro o' l h₁ h₂
    rw [hf, slice_writeAt_disjoint (h₂.trans h.length) (.inl (h₁.trans ho)), h.slice o' l h₁ h₂]

theorem Kept.congr (h : s₀.Kept s) (hf : s'.nvram.file = s.nvram.file) : s₀.Kept s' := by
  constructor
  · rw [hf]
    exact h.length
  · intro o l h₁ h₂
    rw [hf]
    exact h.slice o l h₁ h₂

/-- Writing pending payloads, all or some of their bytes, keeps the bytes. -/
theorem Kept.writePending : ∀ {l : List PendingSegment} {s : Store P}, s₀.Kept s →
    (∀ q ∈ l, s₀.nvram.nextOffset ≤ q.segment.offset) → ∀ {s' : Store P},
    s'.nvram.file = NvramTransaction.writePending l s.nvram.file → s₀.Kept s'
  | [], _, h, _, _, hf => h.congr hf
  | q :: l, s, h, ho, s', hf => by
      refine Kept.writePending (l := l)
        (s := { s with nvram := { s.nvram with
          file := Support.writeAt 0 s.nvram.file q.segment.offset q.data } })
        (h.writeAt (ho q List.mem_cons_self) rfl) (fun r hr => ho r (List.mem_cons_of_mem _ hr)) ?_
      exact hf

theorem Kept.writeSome : ∀ {l : List PendingSegment} {k : Nat} {s : Store P}, s₀.Kept s →
    (∀ q ∈ l, s₀.nvram.nextOffset ≤ q.segment.offset) → ∀ {s' : Store P},
    s'.nvram.file = NvramTransaction.writeSome k l s.nvram.file → s₀.Kept s'
  | [], _, _, h, _, _, hf => h.congr hf
  | q :: l, k, s, h, ho, s', hf => by
      refine Kept.writeSome (l := l) (k := k - q.data.length)
        (s := { s with nvram := { s.nvram with
          file := Support.writeAt 0 s.nvram.file q.segment.offset (q.data.take k) } })
        (h.writeAt (ho q List.mem_cons_self) rfl) (fun r hr => ho r (List.mem_cons_of_mem _ hr)) ?_
      exact hf

/-- **What is untouched.**  If there is no other capsule, hash or segment, that is a matter of the
counts. -/
theorem untouched_iff (hs : s₀.Balanced)
    (hcap : ∀ id, s.registry.capsules.lookup id = s₀.registry.capsules.lookup id)
    (hcont : ∀ h, s.content h = s₀.content h) (hnew : ∀ y, s₀.seg y = none → s.seg y = none)
    (hk : s₀.Kept s) (hc : s₀.Counts s c) :
    s₀.Untouched s ↔ ∀ y t, s₀.seg y = some t → c y = t.refCount := by
  constructor
  · intro h y t ht
    have e := h.segments y
    rw [hc y t ht, ht, Option.map_some, Option.some.injEq] at e
    exact (Segment.unread_atCount_eq (hs.counted y t ht).2.2).mp e
  · intro h
    refine ⟨hcap, hcont, fun y => ?_, fun y => ?_⟩
    · cases ht : s₀.seg y with
      | none => rw [hnew y ht]
      | some t =>
          rw [hc y t ht, Option.map_some,
            (Segment.unread_atCount_eq (hs.counted y t ht).2.2).mpr (h y t ht)]
    · cases ht : s₀.seg y with
      | none =>
          have h₁ : s₀.nvram.segmentMap.lookup y = none := ht
          have h₂ : s.nvram.segmentMap.lookup y = none := hnew y ht
          simp only [NvramLog.read, h₁, h₂]
      | some t =>
          obtain ⟨u, hu, hut⟩ := Option.map_eq_some_iff.mp (hc y t ht)
          have h₁ : s₀.nvram.segmentMap.lookup y = some t := ht
          have h₂ : s.nvram.segmentMap.lookup y = some u := hu
          have hoff : u.offset = t.offset := (congrArg Segment.offset hut :)
          have hlen : u.len = t.len := (congrArg Segment.len hut :)
          obtain ⟨he, he'⟩ := hs.extent y t ht
          simp only [NvramLog.read, h₁, h₂, hoff, hlen]
          rw [if_pos (.inl (he'.trans hk.length)), if_pos (.inl he'), hk.slice _ _ he he']

/-- The count of a segment of `s` after the hits of a list. -/
def raised (s : Store P) (taken : List SegmentId) (y : SegmentId) : Nat :=
  min ((s.refs y).getD 0 + taken.count y) u32Max

theorem refs_of_seg {x : SegmentId} {t : Segment} (h : s.seg x = some t) :
    s.refs x = some t.refCount := congrArg (Option.map Segment.refCount) h

theorem Counts.refl (hs : s₀.Balanced) : s₀.Counts s₀ (s₀.raised []) := by
  intro y t ht
  obtain ⟨-, hle, hd⟩ := hs.counted y t ht
  rw [ht, Option.map_some, Option.some.injEq, eq_comm, Segment.unread_atCount_eq hd, raised,
    refs_of_seg ht]
  exact Nat.min_eq_left hle

theorem Counts.congr (h : s₀.Counts s c) (hm : ∀ y, s'.seg y = s.seg y) : s₀.Counts s' c :=
  fun y t ht => by rw [hm, h y t ht]

/-- One more hit. -/
theorem Counts.took {taken : List SegmentId} {x : SegmentId} {u : Segment}
    (h : s₀.Counts s (s₀.raised taken)) (ht : s.Took s' x u) :
    s₀.Counts s' (s₀.raised (taken ++ [x])) := by
  intro y t hy
  rw [ht.seg]
  by_cases e : y = x
  · subst e
    have hu := h y t hy
    rw [ht.old, Option.map_some, Option.some.injEq] at hu
    rw [if_pos rfl, Option.map_some, Segment.unread_taken_of hu]
    have hr : saturatingSucc (s₀.raised taken y) = s₀.raised (taken ++ [y]) y := by
      unfold raised saturatingSucc
      rw [List.count_append, List.count_singleton_self]
      omega
    rw [hr]
  · rw [if_neg e, h y t hy]
    have hr : s₀.raised (taken ++ [x]) y = s₀.raised taken y := by
      unfold raised
      rw [List.count_append, List.count_singleton, if_neg (by simpa using Ne.symm e), Nat.add_zero]
    rw [hr]

/-! ### Full counts -/

section
variable {l l' : List SegmentId} {k : Nat}

theorem full_iff_initial (h : l <+: l') (hk : k < l.length) : s.Full l' k ↔ s.Full l k := by
  obtain ⟨r, rfl⟩ := h
  unfold Full
  rw [List.getElem?_append_left hk, List.take_append_of_le_length (Nat.le_of_lt hk)]

theorem not_full_of_le (hk : l.length ≤ k) : ¬ s.Full l k := by
  rintro ⟨x, v, hx, -⟩
  rw [List.getElem?_eq_none hk] at hx
  cases hx

/-- No hit finds a full count: then no count is exceeded. -/
theorem never_full_iff (hs : s.Balanced) : (∀ k < l.length, ¬ s.Full l k) ↔
    ∀ y v, s.refs y = some v → v + l.count y ≤ u32Max := by
  constructor
  · induction l using List.reverseRecOn with
    | nil =>
        intro _ y v hv
        obtain ⟨t, ht, rfl⟩ := Option.map_eq_some_iff.mp hv
        exact (hs.counted y t ht).2.1
    | append_singleton l x ih =>
        intro h y v hv
        have hlen : (l ++ [x]).length = l.length + 1 := List.length_append
        have hold := ih (fun k hk hf =>
          h k (by omega) ((full_iff_initial (List.prefix_append l [x]) hk).mpr hf)) y v hv
        rw [List.count_append, List.count_singleton]
        split
        · next e =>
            obtain rfl : x = y := by simpa using e
            -- the last hit is on this segment
            refine Nat.lt_of_not_le fun hge => h l.length (by omega) ⟨x, v, ?_, hv, ?_⟩
            · rw [List.getElem?_append_right (Nat.le_refl _), Nat.sub_self]
              rfl
            · rwa [List.take_left]
        · exact hold
  · rintro h k hk ⟨x, v, hx, hv, hge⟩
    obtain ⟨hk', hget⟩ := List.getElem?_eq_some_iff.mp hx
    have hcount : (l.take (k + 1)).count x ≤ l.count x := (List.take_sublist _ _).count_le x
    rw [List.take_add_one, hx, List.count_append] at hcount
    have := h x v hv
    simp at hcount
    omega

end

/-- Giving back what was taken restores a count that was not exceeded. -/
theorem raised_sub_eq_iff (hs : s.Balanced) {l : List SegmentId} {y : SegmentId} {t : Segment}
    (ht : s.seg y = some t) :
    s.raised l y - l.count y = t.refCount ↔ t.refCount + l.count y ≤ u32Max := by
  obtain ⟨h₁, h₂, -⟩ := hs.counted y t ht
  unfold raised
  rw [refs_of_seg ht, Option.getD_some]
  omega

/-- Without an operation that fails while saving, what was taken is given back exactly where no
count was full. -/
theorem late_iff_of_never {faults : Nat → Option Fault} {n : Nat} {taken l : List SegmentId}
    (hs : s.Balanced) (ht : taken <+: l) (hn : taken.length ≤ n)
    (hall : taken.length < n → taken = l) (hnever : ∀ k < n, ¬ LateAt faults k) :
    (∀ k < n, LateAt faults k ↔ s.Full l k) ↔
      ∀ y t, s.seg y = some t → s.raised taken y - taken.count y = t.refCount := by
  have hfull : (∀ k < n, LateAt faults k ↔ s.Full l k) ↔ ∀ k < taken.length, ¬ s.Full taken k := by
    constructor
    · intro h k hk hf
      exact hnever k (hk.trans_le hn) ((h k (hk.trans_le hn)).mpr ((full_iff_initial ht hk).mpr hf))
    · intro h k hk
      refine iff_of_false (hnever k hk) fun hf => ?_
      rcases Nat.lt_or_ge k taken.length with hlt | hge
      · exact h k hlt ((full_iff_initial ht hlt).mp hf)
      · rw [← hall (hge.trans_lt hk)] at hf
        exact not_full_of_le hge hf
  rw [hfull, never_full_iff hs]
  constructor
  · intro h y t hy
    exact (raised_sub_eq_iff hs hy).mpr (h y _ (refs_of_seg hy))
  · intro h y v hv
    obtain ⟨t, hy, rfl⟩ := Option.map_eq_some_iff.mp hv
    exact (raised_sub_eq_iff hs hy).mp (h y t hy)

/-- Where the last hit failed while saving, its count must have been full, and no other. -/
theorem late_iff_of_leak {faults : Nat → Option Fault} {taken l : List SegmentId} {x : SegmentId}
    (hs : s.Balanced) (hx : s.seg x ≠ none) (ht : taken ++ [x] <+: l)
    (hnever : ∀ k < taken.length, ¬ LateAt faults k) (hlate : LateAt faults taken.length) :
    (∀ k < taken.length + 1, LateAt faults k ↔ s.Full l k) ↔
      ∀ y t, s.seg y = some t → s.raised (taken ++ [x]) y - taken.count y = t.refCount := by
  obtain ⟨u, hu⟩ := Option.ne_none_iff_exists'.mp hx
  have hlast : s.Full l taken.length ↔ u32Max ≤ u.refCount + taken.count x := by
    rw [full_iff_initial ht (by simp)]
    unfold Full
    rw [List.getElem?_append_right (Nat.le_refl _), Nat.sub_self, List.take_left]
    constructor
    · rintro ⟨x', v, ⟨⟩, hv, hge⟩
      rw [refs_of_seg hu] at hv
      cases hv
      exact hge
    · exact fun h => ⟨x, _, rfl, refs_of_seg hu, h⟩
  have hfull : (∀ k < taken.length + 1, LateAt faults k ↔ s.Full l k) ↔
      (∀ k < taken.length, LateAt faults k ↔ s.Full l k) ∧
        u32Max ≤ u.refCount + taken.count x := by
    constructor
    · exact fun h => ⟨fun k hk => h k (Nat.lt_succ_of_lt hk),
        hlast.mp ((h _ (Nat.lt_succ_self _)).mp hlate)⟩
    · rintro ⟨h, hge⟩ k hk
      rcases Nat.lt_succ_iff_lt_or_eq.mp hk with hlt | rfl
      · exact h k hlt
      · exact iff_of_true hlate (hlast.mpr hge)
  have ht' : taken <+: l := (List.prefix_append taken [x]).trans ht
  rw [hfull, late_iff_of_never hs ht' (Nat.le_refl _) (fun h => absurd h (Nat.lt_irrefl _)) hnever]
  have hother : ∀ y, y ≠ x → s.raised (taken ++ [x]) y = s.raised taken y := by
    intro y hy
    unfold raised
    rw [List.count_append, List.count_singleton, if_neg (by simpa using Ne.symm hy), Nat.add_zero]
  have hself : s.raised (taken ++ [x]) x = min (u.refCount + taken.count x + 1) u32Max := by
    unfold raised
    rw [List.count_append, List.count_singleton_self, refs_of_seg hu, Option.getD_some,
      Nat.add_assoc]
  constructor
  · rintro ⟨h, hge⟩ y t hy
    by_cases e : y = x
    · subst e
      cases hu.symm.trans hy
      have := (raised_sub_eq_iff hs hu).mp (h _ _ hu)
      rw [hself]
      omega
    · rw [hother y e]
      exact h y t hy
  · intro h
    have hx' := h x u hu
    rw [hself] at hx'
    obtain ⟨h₁, h₂, -⟩ := hs.counted x u hu
    refine ⟨fun y t hy => ?_, by omega⟩
    by_cases e : y = x
    · subst e
      cases hu.symm.trans hy
      rw [raised_sub_eq_iff hs hu]
      omega
    · rw [← hother y e]
      exact h y t hy

end Store

/-! ### The coordinator -/

theorem preparedHash_of_sealedChunk {key : Option (UInt32 × XtsKeyPair)} {policy : Policy}
    {chunk : Bytes × Nat} {p : SegmentPrepared} (h : sealedChunk P key policy chunk = some p) :
    preparedHash P key policy chunk.1 = some p.contentHash := by
  unfold sealedChunk at h
  unfold preparedHash
  cases hc : compressSegment P chunk.1 policy.compression with
  | error e =>
      simp only [hc] at h
      cases h
  | ok compressed =>
      obtain ⟨view, r⟩ := compressed
      simp only [hc] at h ⊢
      cases hs : sealView P key view (hashContent P view) with
      | error e =>
          simp only [hs] at h
          cases h
      | ok sealed =>
          obtain ⟨payload, m⟩ := sealed
          simp only [hs] at h ⊢
          cases h
          rfl

namespace Store
variable {s : Store P} {policy : Policy}

theorem hit_of_dedupe (hd : policy.dedupe = true) (hash : ContentHash) :
    s.hit policy hash = s.content hash := if_pos hd

theorem hits_of_not_dedupe (hd : policy.dedupe = false) :
    ∀ (l : List Bytes) (staged : List ContentHash), s.hits policy staged l = []
  | [], _ => rfl
  | chunk :: l, staged => by
      have hnone : ∀ hash, s.hit policy hash = none := fun hash => if_neg (by simp [hd])
      simp only [hits, hnone, hits_of_not_dedupe hd l, ite_self]
      cases preparedHash P (s.keyFor policy) policy chunk <;> rfl

end Store

namespace WritePipeline
variable {faults : Nat → Option Fault} {s₀ s s' : Store P} {n : Nat} {policy : Policy}
  {data : Bytes} {a : AsyncState}

/-- The coordinator, in `a` over `s`, has staged what it staged; of the rest only the counts have
changed since `s₀`. -/
structure Stages (policy : Policy) (s₀ : Store P) (a : AsyncState) (s : Store P) : Prop where
  capsules : s.registry.capsules = s₀.registry.capsules
  contentStore : s.registry.contentStore = s₀.registry.contentStore
  file : s.nvram.file = s₀.nvram.file
  nextLe : s₀.registry.nextSegmentId ≤ s.registry.nextSegmentId
  key : s.currentKey.1 = s₀.currentKey.1
  absent : ∀ y, s₀.seg y = none → s.seg y = none
  active : a.transaction.finalized = false
  current : s₀.nvram.nextOffset ≤ a.transaction.currentOffset
  pendingOffset : ∀ q ∈ a.transaction.pending, s₀.nvram.nextOffset ≤ q.segment.offset
  pendingNew : ∀ q ∈ a.transaction.pending, s₀.registry.nextSegmentId ≤ q.segment.id.val ∧
    q.segment.id.val < s.registry.nextSegmentId
  registrations : policy.dedupe = true → a.pendingRegistrations.map Prod.snd =
    a.transaction.pending.map fun q => q.segment.id
  unregistered : policy.dedupe = false → a.pendingRegistrations = [] ∧
    a.transaction.pending.length = a.nextIndex
  hashes : (a.pendingRegistrations.map Prod.fst).Nodup
  unknown : ∀ r ∈ a.pendingRegistrations, s₀.content r.1 = none
  staged : ∀ h, a.stagedContent.lookup h ≠ none ↔ h ∈ a.pendingRegistrations.map Prod.fst
  stored : ∀ x ∈ a.dedupeIncrements, s₀.seg x ≠ none

/-- The references were taken on the first of `hits`; at the last operation on the disk that may
have failed while it was saved. -/
inductive Halted (faults : Nat → Option Fault) (s₀ : Store P) (hits taken : List SegmentId)
    (s : Store P) (n : Nat) : Prop where
  | whole (hn : n = taken.length) (ht : taken <+: hits) (hc : s₀.Counts s (s₀.raised taken))
  | leaked (x : SegmentId) (hn : n = taken.length + 1) (hl : LateAt faults taken.length)
      (ht : taken ++ [x] <+: hits) (hx : s₀.seg x ≠ none)
      (hc : s₀.Counts s (s₀.raised (taken ++ [x])))

/-- The coordinator has committed the chunks up to `nextIndex`, and has stopped if committing the
next one failed. -/
structure Conducts (faults : Nat → Option Fault) (data : Bytes) (policy : Policy)
    (s₀ : Store P) (a : AsyncState) (s : Store P) (n : Nat) : Prop extends
    Stages policy s₀ a s where
  never : ∀ k < a.dedupeIncrements.length, ¬ LateAt faults k
  halted : Halted faults s₀ (s₀.hits policy [] (chunks SEGMENT_SIZE data)) a.dedupeIncrements s n
  inStep : a.commitError = none → n = a.dedupeIncrements.length ∧
    a.dedupeIncrements ++ s₀.hits policy (a.pendingRegistrations.map Prod.fst)
      ((chunks SEGMENT_SIZE data).drop a.nextIndex) =
      s₀.hits policy [] (chunks SEGMENT_SIZE data)
  ordered : ∀ i p, a.ordered.lookup i = some p → ∃ chunk,
    (chunks SEGMENT_SIZE data).zipIdx[i]? = some chunk ∧
      sealedChunk P (s₀.keyFor policy) policy chunk = some p

theorem Stages.content (h : Stages policy s₀ a s) (hash : ContentHash) :
    s.content hash = s₀.content hash := by
  unfold Store.content
  rw [h.contentStore]

theorem Halted.counts {hits taken : List SegmentId}
    (h : Halted faults s₀ hits taken s n) (hn : n = taken.length) :
    s₀.Counts s (s₀.raised taken) := by
  cases h with
  | whole _ _ hc => exact hc
  | leaked x hn' => omega

theorem Halted.congr {hits taken : List SegmentId} (h : Halted faults s₀ hits taken s n)
    (hm : ∀ y, s'.seg y = s.seg y) : Halted faults s₀ hits taken s' n := by
  cases h with
  | whole hn ht hc => exact .whole hn ht (hc.congr hm)
  | leaked x hn hl ht hx hc => exact .leaked x hn hl ht hx (hc.congr hm)

theorem Conducts.rekeyed (h : Conducts faults data policy s₀ a s n) (hr : s.Rekeyed s') :
    Conducts faults data policy s₀ a s' n := by
  obtain ⟨hreg, hnv, hk⟩ := hr
  have hseg : ∀ y, s'.seg y = s.seg y := fun y => by unfold Store.seg; rw [hnv]
  exact { h with
    capsules := by rw [hreg]; exact h.capsules
    contentStore := by rw [hreg]; exact h.contentStore
    file := by rw [hnv]; exact h.file
    nextLe := by rw [hreg]; exact h.nextLe
    key := hk.trans h.key
    absent := fun y hy => (hseg y).trans (h.absent y hy)
    pendingNew := by rw [hreg]; exact h.pendingNew
    halted := h.halted.congr hseg }

/-- Committing a chunk failed before it changed anything. -/
theorem Conducts.failed (h : Conducts faults data policy s₀ a s n) (e : Error) :
    Conducts faults data policy s₀ { a with commitError := some e } s n :=
  { h with inStep := nofun }

section
variable {p : SegmentPrepared} {chunk : Bytes × Nat}

/-- The hits from a prepared chunk on. -/
theorem hits_drop (hc : (chunks SEGMENT_SIZE data).zipIdx[a.nextIndex]? = some chunk)
    (hp : sealedChunk P (s₀.keyFor policy) policy chunk = some p) (staged : List ContentHash) :
    s₀.hits policy staged ((chunks SEGMENT_SIZE data).drop a.nextIndex) =
      if p.contentHash ∈ staged then
        s₀.hits policy staged ((chunks SEGMENT_SIZE data).drop (a.nextIndex + 1))
      else match s₀.hit policy p.contentHash with
        | some x => x :: s₀.hits policy staged ((chunks SEGMENT_SIZE data).drop (a.nextIndex + 1))
        | none => s₀.hits policy (staged ++ [p.contentHash])
            ((chunks SEGMENT_SIZE data).drop (a.nextIndex + 1)) := by
  rw [List.getElem?_zipIdx, Option.map_eq_some_iff] at hc
  obtain ⟨c, hc, rfl⟩ := hc
  obtain ⟨hi, hget⟩ := List.getElem?_eq_some_iff.mp hc
  rw [List.drop_eq_getElem_cons hi, hget]
  have hhash : preparedHash P (s₀.keyFor policy) policy c = some p.contentHash :=
    preparedHash_of_sealedChunk hp
  simp only [Store.hits, hhash]

namespace Conducts

/-- **A staged segment is reused.** -/
theorem reuse (h : Conducts faults data policy s₀ a s n) (he : a.commitError = none)
    (hc : (chunks SEGMENT_SIZE data).zipIdx[a.nextIndex]? = some chunk)
    (hp : sealedChunk P (s₀.keyFor policy) policy chunk = some p) {l r : List PendingSegment}
    {q : PendingSegment} (hd : policy.dedupe = true)
    (hl : a.stagedContent.lookup p.contentHash = some q.segment.id)
    (hpend : a.transaction.pending = l ++ q :: r) {bytes : Nat} :
    Conducts faults data policy s₀
      (a.committed ⟨q.segment.id, .reusedStaged, bytes, none⟩ { a.transaction with
        pending := l ++ { q with segment := q.segment.reuse } :: r } a.stagedContent) s n := by
  have hmem : p.contentHash ∈ a.pendingRegistrations.map Prod.fst :=
    (h.staged _).mp (by rw [hl]; exact nofun)
  -- each pending segment is the old one, up to its count
  have hold : ∀ q' ∈ l ++ { q with segment := q.segment.reuse } :: r,
      ∃ q₀ ∈ a.transaction.pending, q₀.segment.id = q'.segment.id ∧
        q₀.segment.offset = q'.segment.offset := by
    intro q' hq'
    rw [hpend]
    rcases List.mem_append.mp hq' with hq' | hq'
    · exact ⟨q', List.mem_append_left _ hq', rfl, rfl⟩
    · rcases List.mem_cons.mp hq' with rfl | hq'
      · exact ⟨q, List.mem_append_right _ List.mem_cons_self, rfl, rfl⟩
      · exact ⟨q', List.mem_append_right _ (List.mem_cons_of_mem _ hq'), rfl, rfl⟩
  exact { h with
    current := h.current
    pendingOffset := fun q' hq' => by
      obtain ⟨q₀, hq₀, -, ho⟩ := hold q' hq'
      exact ho ▸ h.pendingOffset q₀ hq₀
    pendingNew := fun q' hq' => by
      obtain ⟨q₀, hq₀, hid, -⟩ := hold q' hq'
      exact hid ▸ h.pendingNew q₀ hq₀
    registrations := fun _ => by
      have hr := h.registrations hd
      rw [hpend, List.map_append, List.map_cons] at hr
      refine hr.trans ?_
      rw [show (a.committed ⟨q.segment.id, .reusedStaged, bytes, none⟩ { a.transaction with
        pending := l ++ { q with segment := q.segment.reuse } :: r }
        a.stagedContent).transaction.pending = l ++ { q with segment := q.segment.reuse } :: r
        from rfl, List.map_append, List.map_cons]
      rfl
    unregistered := fun k => absurd (hd.symm.trans k) nofun
    inStep := fun _ => by
      obtain ⟨hn, hh⟩ := h.inStep he
      refine ⟨hn, ?_⟩
      rw [hits_drop hc hp, if_pos hmem] at hh
      exact hh }

/-- What a hit on a stored segment is: the next one of the hits. -/
theorem hits_took (h : Conducts faults data policy s₀ a s n) (he : a.commitError = none)
    (hc : (chunks SEGMENT_SIZE data).zipIdx[a.nextIndex]? = some chunk)
    (hp : sealedChunk P (s₀.keyFor policy) policy chunk = some p) {x : SegmentId}
    (hd : policy.dedupe = true) (hl : a.stagedContent.lookup p.contentHash = none)
    (hx : s.content p.contentHash = some x) :
    (a.dedupeIncrements ++ [x]) ++ s₀.hits policy (a.pendingRegistrations.map Prod.fst)
        ((chunks SEGMENT_SIZE data).drop (a.nextIndex + 1)) =
      s₀.hits policy [] (chunks SEGMENT_SIZE data) := by
  have hmem : p.contentHash ∉ a.pendingRegistrations.map Prod.fst := fun k =>
    (h.staged _).mpr k hl
  have hhit : s₀.hit policy p.contentHash = some x := by
    rw [Store.hit_of_dedupe hd, ← h.content, hx]
  rw [← (h.inStep he).2, hits_drop hc hp, if_neg hmem, hhit, List.append_assoc]
  rfl

/-- A segment that was there. -/
theorem seg_took (h : Conducts faults data policy s₀ a s n) {x : SegmentId} {u : Segment}
    (ht : s.Took s' x u) : s₀.seg x ≠ none := by
  intro k
  have hnone := h.absent x k
  rw [ht.old] at hnone
  cases hnone

/-- The store after a reference was taken. -/
theorem stages_took (h : Conducts faults data policy s₀ a s n) {x : SegmentId} {u : Segment}
    (ht : s.Took s' x u) : Stages policy s₀ a s' :=
  { h with
    capsules := ht.capsules.trans h.capsules
    contentStore := ht.contentStore.trans h.contentStore
    file := ht.file.trans h.file
    nextLe := ht.next ▸ h.nextLe
    key := ht.key.trans h.key
    absent := fun y hy => by
      have hne : y ≠ x := by
        rintro rfl
        exact h.seg_took ht hy
      rw [ht.seg, if_neg hne]
      exact h.absent y hy
    pendingNew := ht.next ▸ h.pendingNew }

/-- **A stored segment is reused.** -/
theorem took (h : Conducts faults data policy s₀ a s n) (he : a.commitError = none)
    (hc : (chunks SEGMENT_SIZE data).zipIdx[a.nextIndex]? = some chunk)
    (hp : sealedChunk P (s₀.keyFor policy) policy chunk = some p) {x : SegmentId} {u : Segment}
    (hd : policy.dedupe = true) (hl : a.stagedContent.lookup p.contentHash = none)
    (hx : s.content p.contentHash = some x) (hn : ¬ LateAt faults n) (ht : s.Took s' x u)
    {bytes : Nat} :
    Conducts faults data policy s₀
      (a.committed ⟨x, .reusedPersistent, bytes, none⟩ a.transaction a.stagedContent) s'
      (n + 1) := by
  have hlen := (h.inStep he).1
  have hh := h.hits_took he hc hp hd hl hx
  have hlen' : (a.dedupeIncrements ++ [x]).length = n + 1 := by
    rw [List.length_append, hlen, List.length_singleton]
  exact { h.stages_took ht with
    unregistered := fun k => absurd (hd.symm.trans k) nofun
    stored := fun y hy => by
      rcases List.mem_append.mp hy with hy | hy
      · exact h.stored y hy
      · obtain rfl := List.mem_singleton.mp hy
        exact h.seg_took ht
    never := fun k hk => by
      rw [show (a.committed ⟨x, .reusedPersistent, bytes, none⟩ a.transaction
        a.stagedContent).dedupeIncrements = a.dedupeIncrements ++ [x] from rfl, hlen'] at hk
      rcases Nat.lt_succ_iff_lt_or_eq.mp hk with hk | rfl
      · exact h.never k (hlen ▸ hk)
      · exact hn
    halted := .whole hlen'.symm ⟨_, hh⟩ ((h.halted.counts hlen).took ht)
    inStep := fun _ => ⟨hlen'.symm, hh⟩
    ordered := h.ordered }

/-- **A stored segment is reused, and that is not saved.** -/
theorem leaked (h : Conducts faults data policy s₀ a s n) (he : a.commitError = none)
    (hc : (chunks SEGMENT_SIZE data).zipIdx[a.nextIndex]? = some chunk)
    (hp : sealedChunk P (s₀.keyFor policy) policy chunk = some p) {x : SegmentId} {u : Segment}
    (hd : policy.dedupe = true) (hl : a.stagedContent.lookup p.contentHash = none)
    (hx : s.content p.contentHash = some x) (hn : LateAt faults n) (ht : s.Took s' x u)
    (e : Error) :
    Conducts faults data policy s₀ { a with commitError := some e } s' (n + 1) := by
  have hlen := (h.inStep he).1
  exact { h.stages_took ht with
    never := h.never
    halted := .leaked x (hlen ▸ rfl) (hlen ▸ hn) ⟨_, h.hits_took he hc hp hd hl hx⟩ (h.seg_took ht)
      ((h.halted.counts hlen).took ht)
    inStep := nofun
    ordered := h.ordered }

/-- **A segment is staged.** -/
theorem stage (h : Conducts faults data policy s₀ a s n) (he : a.commitError = none)
    (hc : (chunks SEGMENT_SIZE data).zipIdx[a.nextIndex]? = some chunk)
    (hp : sealedChunk P (s₀.keyFor policy) policy chunk = some p)
    (hnone : policy.dedupe = true → a.stagedContent.lookup p.contentHash = none ∧
      s.content p.contentHash = none) (hs : s.Drew s') :
    Conducts faults data policy s₀
      (a.committed ⟨⟨s.registry.nextSegmentId⟩, .newSegment, p.finalData.length,
          if policy.dedupe then some p.contentHash else none⟩
        (staging policy p ⟨s.registry.nextSegmentId⟩ a.transaction)
        (stagedHash policy p ⟨s.registry.nextSegmentId⟩ a.stagedContent)) s' n := by
  set x : SegmentId := ⟨s.registry.nextSegmentId⟩ with hx
  have hseg : ∀ y, s'.seg y = s.seg y := fun y => by unfold Store.seg; rw [hs.map]
  set a' : AsyncState := a.committed ⟨x, .newSegment, p.finalData.length,
    if policy.dedupe then some p.contentHash else none⟩ (staging policy p x a.transaction)
    (stagedHash policy p x a.stagedContent) with ha'
  have hon : policy.dedupe = true → a'.pendingRegistrations =
      a.pendingRegistrations ++ [(p.contentHash, x)] := by
    intro hd
    rw [ha']
    unfold AsyncState.committed
    simp [hd]
  have hoff : policy.dedupe = false → a'.pendingRegistrations = a.pendingRegistrations := by
    intro hd
    rw [ha']
    unfold AsyncState.committed
    simp [hd]
  set q : PendingSegment :=
    ⟨p.segment policy x a.transaction.currentOffset, p.finalData⟩ with hq
  have hqid : q.segment.id = x := describe_id
  have hqoff : q.segment.offset = a.transaction.currentOffset := describe_offset
  have hpend : a'.transaction.pending = a.transaction.pending ++ [q] := rfl
  have hunknown : policy.dedupe = true → p.contentHash ∉ a.pendingRegistrations.map Prod.fst :=
    fun hd k => (h.staged _).mpr k (hnone hd).1
  have habsent : policy.dedupe = true → s₀.content p.contentHash = none := fun hd => by
    rw [← h.content, (hnone hd).2]
  have hstages : Stages policy s₀ a' s' := {
    capsules := hs.capsules.trans h.capsules
    contentStore := hs.contentStore.trans h.contentStore
    file := hs.file.trans h.file
    nextLe := hs.next ▸ h.nextLe.trans (Nat.le_succ _)
    key := hs.key.trans h.key
    absent := fun y hy => (hseg y).trans (h.absent y hy)
    active := h.active
    current := h.current.trans (Nat.le_add_right _ _)
    pendingOffset := fun r hr => by
      rw [hpend] at hr
      rcases List.mem_append.mp hr with hr | hr
      · exact h.pendingOffset r hr
      · obtain rfl := List.mem_singleton.mp hr
        exact hqoff ▸ h.current
    pendingNew := fun r hr => by
      rw [hs.next]
      rw [hpend] at hr
      rcases List.mem_append.mp hr with hr | hr
      · exact ⟨(h.pendingNew r hr).1, Nat.lt_succ_of_lt (h.pendingNew r hr).2⟩
      · obtain rfl := List.mem_singleton.mp hr
        rw [hqid]
        exact ⟨h.nextLe, Nat.lt_succ_self _⟩
    registrations := fun hd => by
      rw [hon hd, hpend, List.map_append, List.map_append, h.registrations hd, List.map_singleton,
        List.map_singleton, hqid]
    unregistered := fun hd => by
      obtain ⟨h₁, h₂⟩ := h.unregistered hd
      refine ⟨(hoff hd).trans h₁, ?_⟩
      rw [hpend, List.length_append, h₂]
      rfl
    hashes := by
      by_cases hd : policy.dedupe = true
      · rw [hon hd, List.map_append, List.nodup_append]
        refine ⟨h.hashes, List.nodup_singleton _, fun k hk k' hk' e => hunknown hd ?_⟩
        rw [List.map_singleton, List.mem_singleton] at hk'
        have hk₀ : k = p.contentHash := e.trans hk'
        exact hk₀ ▸ hk
      · rw [hoff (by simpa using hd)]
        exact h.hashes
    unknown := fun r hr => by
      by_cases hd : policy.dedupe = true
      · rw [hon hd] at hr
        rcases List.mem_append.mp hr with hr | hr
        · exact h.unknown r hr
        · obtain rfl := List.mem_singleton.mp hr
          exact habsent hd
      · rw [hoff (by simpa using hd)] at hr
        exact h.unknown r hr
    staged := fun k => by
      have hst : a'.stagedContent = stagedHash policy p x a.stagedContent := rfl
      rw [hst, stagedHash]
      by_cases hd : policy.dedupe = true
      · rw [if_pos hd, hon hd, Table.lookup_insert, List.map_append, List.mem_append, ← h.staged k,
          List.map_singleton, List.mem_singleton]
        by_cases e : k = p.contentHash
        · simp [e]
        · simp [e]
      · rw [if_neg hd, hoff (by simpa using hd)]
        exact h.staged k
    stored := h.stored }
  exact { hstages with
    never := h.never
    halted := h.halted.congr hseg
    inStep := fun _ => by
      obtain ⟨hn, hh⟩ := h.inStep he
      refine ⟨hn, ?_⟩
      by_cases hd : policy.dedupe = true
      · have hhit : s₀.hit policy p.contentHash = none := by
          rw [Store.hit_of_dedupe hd, habsent hd]
        rw [hits_drop hc hp, if_neg (hunknown hd), hhit] at hh
        rw [hon hd, List.map_append]
        exact hh
      · have hd' : policy.dedupe = false := by simpa using hd
        rw [Store.hits_of_not_dedupe hd'] at hh ⊢
        exact hh
    ordered := h.ordered }

/-- **One chunk.**  Committing it keeps the coordinator what it is, or stops it. -/
theorem commit (h : Conducts faults data policy s₀ a s n) (he : a.commitError = none)
    (hc : (chunks SEGMENT_SIZE data).zipIdx[a.nextIndex]? = some chunk)
    (hp : sealedChunk P (s₀.keyFor policy) policy chunk = some p)
    {Q : Except Error (CommitOutcome × NvramTransaction × Table ContentHash SegmentId) →
      Store P × Nat → Prop}
    (hstop : ∀ e s' n', Conducts faults data policy s₀ { a with commitError := some e } s' n' →
      Q (.error e) (s', n'))
    (hok : ∀ o t staged s' n', Conducts faults data policy s₀ (a.committed o t staged) s' n' →
      Q (.ok (o, t, staged)) (s', n')) :
    (commitSegment policy p a.transaction a.stagedContent).wp (Undo faults) (fun _ _ => True) Q
      (s, n) := by
  have hnew : ∀ q ∈ a.transaction.pending, q.segment.id ≠ ⟨s.registry.nextSegmentId⟩ := by
    intro q hq e
    have hlt := (h.pendingNew q hq).2
    rw [e] at hlt
    exact Nat.lt_irrefl _ hlt
  refine wp_commitSegment_undo h.active hnew ?_ ?_ ?_ ?_ ?_
  · exact fun e _ => hstop e s n (h.failed e)
  · exact fun l q r hd hl hpend => hok _ _ _ s n (h.reuse he hc hp hd hl hpend)
  · exact fun x u s' hd hl hx hn ht => hok _ _ _ s' _ (h.took he hc hp hd hl hx hn ht)
  · exact fun e x u s' hd hl hx hn ht => hstop e s' _ (h.leaked he hc hp hd hl hx hn ht e)
  · exact fun s' hnone hs => hok _ _ _ s' n (h.stage he hc hp hnone hs)

end Conducts

end

/-- What the coordinator is, before any chunk has arrived. -/
theorem conducts_start (hs : s₀.Balanced) :
    Conducts faults data policy s₀ { transaction := s₀.nvram.beginTransaction } s₀ 0 where
  capsules := rfl
  contentStore := rfl
  file := rfl
  nextLe := Nat.le_refl _
  key := rfl
  absent := fun _ h => h
  active := rfl
  current := Nat.le_refl _
  pendingOffset := fun _ hq => absurd hq List.not_mem_nil
  pendingNew := fun _ hq => absurd hq List.not_mem_nil
  registrations := fun _ => rfl
  unregistered := fun _ => ⟨rfl, rfl⟩
  hashes := List.nodup_nil
  unknown := nofun
  staged := fun h => ⟨fun k => absurd rfl k, nofun⟩
  stored := nofun
  never := nofun
  halted := .whole rfl List.nil_prefix (.refl hs)
  inStep := fun _ => ⟨rfl, rfl⟩
  ordered := fun i p hp => by cases hp

theorem wp_drain_undo {Q : Except Error AsyncState → Store P × Nat → Prop}
    (hok : ∀ a s n, Conducts faults data policy s₀ a s n → Q (.ok a) (s, n)) :
    ∀ (fuel : Nat) (a : AsyncState) (s : Store P) (n : Nat),
      Conducts faults data policy s₀ a s n → a.commitError = none →
      (drain policy fuel a).wp (Undo faults) (fun _ _ => True) Q (s, n)
  | 0, a, s, n, h, _ => hok a s n h
  | fuel + 1, a, s, n, h, he => by
      unfold drain
      cases hp : a.ordered.lookup a.nextIndex with
      | none => exact hok a s n h
      | some p =>
          obtain ⟨chunk, hc, hsealed⟩ := h.ordered _ p hp
          refine wp_bind.mpr (wp_attempt.mpr (h.commit he hc hsealed ?_ ?_))
          · exact fun e s' n' h' => hok _ s' n' h'
          · exact fun o t staged s' n' h' => wp_drain_undo hok fuel _ s' n' h' he

/-- **A task completes.** -/
theorem wp_arrive_undo {Q : Except Error AsyncState → Store P × Nat → Prop} {total : Nat}
    {chunk : Bytes × Nat} (hc : (chunks SEGMENT_SIZE data).zipIdx[chunk.2]? = some chunk)
    (h : Conducts faults data policy s₀ a s n)
    (hok : ∀ a s n, Conducts faults data policy s₀ a s n → Q (.ok a) (s, n)) :
    (arrive P policy total a chunk).wp (Undo faults) (fun _ _ => True) Q (s, n) := by
  unfold arrive
  refine wp_bind.mpr (wp_attempt.mpr (wp_prepareSegment_undo (fun e s' _ hr => ?_)
    fun p s' hp hr => ?_))
  · exact hok _ s' n { h.rekeyed hr with }
  · show Prog.wp (Undo faults) _ Q (if a.commitError.isSome = true then _ else _) (s', n)
    split
    · exact hok _ s' n (h.rekeyed hr)
    · next he =>
        have hkey : s.keyFor policy = s₀.keyFor policy := by
          unfold Store.keyFor
          rw [h.key]
        refine wp_drain_undo hok total _ s' n { h.rekeyed hr with ordered := fun i q hq => ?_ }
          (by simpa using he)
        rcases Table.lookup_insert_eq_some.mp hq with ⟨rfl, rfl⟩ | ⟨-, hq⟩
        · exact ⟨chunk, hc, hkey ▸ hp⟩
        · exact h.ordered i q hq

/-! ### Giving back -/

/-- Only the segments of `s₀` have changed. -/
structure Beside (s₀ s s' : Store P) : Prop where
  registry : s'.registry = s.registry
  file : s'.nvram.file = s.nvram.file
  others : ∀ y, s₀.seg y = none → s'.seg y = s.seg y

/-- **References are given back**, until there is none left to give. -/
theorem wp_release {Q : Except Error Unit → Store P × Nat → Prop} :
    ∀ (l : List SegmentId) (c : SegmentId → Nat) (s : Store P), s₀.Counts s c →
      (∀ x ∈ l, s₀.seg x ≠ none) →
      (∀ s', s₀.Counts s' (fun y => c y - l.count y) → Beside s₀ s s' → Q (.ok ()) (s', n)) →
      (∀ e s' x u, c x < l.count x → s₀.seg x ≠ none → s'.seg x = some u → u.refCount = 0 →
        Q (.error e) (s', n)) →
      (l.foldlM (fun _ x => discard (Native.decrementRefcount x)) ()).wp (Undo faults)
        (fun _ _ => True) Q (s, n)
  | [], c, s, hc, _, hok, _ => hok s hc ⟨rfl, rfl, fun _ _ => rfl⟩
  | x :: l, c, s, hc, hl, hok, herr => by
      obtain ⟨t, ht⟩ := Option.ne_none_iff_exists'.mp (hl x List.mem_cons_self)
      obtain ⟨u, hu, hut⟩ := Option.map_eq_some_iff.mp (hc x t ht)
      have hcount : u.refCount = c x := (congrArg Segment.refCount hut :)
      have hu' : s.nvram.segmentMap.lookup x = some u := hu
      rw [List.foldlM_cons]
      refine wp_bind.mpr (wp_bind.mpr (wp_undoing (o := .decrementRefcount x) rfl ?_))
      simp only [StoreOp.exec, NvramLog.decrementRefcount, hu']
      by_cases h0 : u.refCount = 0
      · rw [if_pos h0]
        exact herr _ s x u (by rw [List.count_cons_self, ← hcount, h0]; exact Nat.succ_pos _)
          (hl x List.mem_cons_self) hu h0
      · rw [if_neg h0]
        set m : Table SegmentId Segment := s.nvram.segmentMap.insert x u.dropped
        set s₁ : Store P := { s with nvram := s.nvram.withMap m }
        have hseg : ∀ y, s₁.seg y = if y = x then some u.dropped else s.seg y :=
          fun y => Table.lookup_insert _ _ _ _
        set c₁ : SegmentId → Nat := fun y => if y = x then c x - 1 else c y
        have hself : c₁ x = c x - 1 := if_pos rfl
        have hother : ∀ y, y ≠ x → c₁ y = c y := fun y hy => if_neg hy
        refine wp_release l c₁ s₁ ?_ (fun y hy => hl y (List.mem_cons_of_mem _ hy)) ?_ ?_
        · intro y t' hy
          by_cases e : y = x
          · subst e
            cases ht.symm.trans hy
            rw [hseg, if_pos rfl, Option.map_some, hself, Segment.unread_dropped_of hut]
          · rw [hseg, if_neg e, hother y e]
            exact hc y t' hy
        · intro s' hc' hb
          refine hok s' (fun y t' hy => ?_) ⟨hb.registry, hb.file, fun y hy => ?_⟩
          · have hleft : c₁ y - l.count y = c y - (x :: l).count y := by
              by_cases e : y = x
              · subst e
                rw [hself, List.count_cons_self, Nat.sub_sub, Nat.add_comm 1]
              · rw [hother y e, List.count_cons_of_ne (Ne.symm e)]
            exact (hc' y t' hy).trans (congrArg (fun k => some (t'.atCount k)) hleft)
          · have hne : y ≠ x := by
              rintro rfl
              exact hl y List.mem_cons_self hy
            exact (hb.others y hy).trans ((hseg y).trans (if_neg hne))
        · intro e s' y u' hlt hy hu'' h0'
          refine herr e s' y u' ?_ hy hu'' h0'
          by_cases e' : y = x
          · subst e'
            rw [hself] at hlt
            rw [List.count_cons_self]
            omega
          · rw [hother y e'] at hlt
            rwa [List.count_cons_of_ne (Ne.symm e')]

/-- Whether giving back leaves what was there untouched, is a matter of the counts. -/
theorem wp_releaseIncrements_undo {α : Type} {Q : Except Error α → Store P × Nat → Prop}
    {taken raised : List SegmentId} {C : Prop} (hs : s₀.Balanced)
    (hc : s₀.Counts s (s₀.raised raised))
    (hcap : ∀ id, s.registry.capsules.lookup id = s₀.registry.capsules.lookup id)
    (hcont : ∀ h, s.content h = s₀.content h) (hnew : ∀ y, s₀.seg y = none → s.seg y = none)
    (hk : s₀.Kept s) (hstored : ∀ x ∈ taken, s₀.seg x ≠ none)
    (hC : C ↔ ∀ y t, s₀.seg y = some t → s₀.raised raised y - taken.count y = t.refCount)
    (hQ : ∀ e s', (s₀.Untouched s' ↔ C) → Q (.error e) (s', n)) (e : Error) :
    (releaseIncrements taken >>= fun _ => (.fail e : Native α)).wp (Undo faults)
      (fun _ _ => True) Q (s, n) := by
  refine wp_bind.mpr (wp_release taken.reverse (s₀.raised raised) s hc
    (fun x hx => hstored x (List.mem_reverse.mp hx)) ?_ ?_)
  · intro s' hc' hb
    refine hQ _ s' ?_
    rw [hC, Store.untouched_iff hs (fun id => by rw [hb.registry, hcap])
      (fun h => by unfold Store.content; rw [hb.registry]; exact hcont h)
      (fun y hy => (hb.others y hy).trans (hnew y hy)) (hk.congr hb.file) hc']
    simp only [List.count_reverse]
  · intro e' s' x u hlt hx hu h0
    obtain ⟨t, ht⟩ := Option.ne_none_iff_exists'.mp hx
    have hpos := (hs.counted x t ht).1
    rw [List.count_reverse] at hlt
    refine hQ e' s' (iff_of_false (fun k => ?_) fun k => ?_)
    · have hseg := k.segments x
      rw [hu, ht, Option.map_some, Option.map_some, Option.some.injEq] at hseg
      have hcount : u.refCount = t.refCount := (congrArg Segment.refCount hseg :)
      omega
    · have hcount := hC.mp k x t ht
      omega

/-! ### The end of the write -/

/-- What is to be shown of an outcome: if it is an error, what was there is as it was just where
`TakenBack` says. -/
def Judged {α : Type} (faults : Nat → Option Fault) (s₀ : Store P) (data : Bytes)
    (policy : Policy) (r : Except Error α) (u : Store P × Nat) : Prop :=
  ∀ e, r = .error e → (s₀.Untouched u.1 ↔ TakenBack faults s₀ data policy u.2)

/-- The references taken are all hits, and no operation has failed while saving. -/
structure Calmly (faults : Nat → Option Fault) (s₀ : Store P) (data : Bytes) (policy : Policy)
    (taken : List SegmentId) (n : Nat) : Prop where
  all : taken = s₀.hits policy [] (chunks SEGMENT_SIZE data)
  le : taken.length ≤ n
  never : ∀ k < n, ¬ LateAt faults k

theorem Calmly.succ {taken : List SegmentId} (h : Calmly faults s₀ data policy taken n)
    (hn : ¬ LateAt faults n) : Calmly faults s₀ data policy taken (n + 1) where
  all := h.all
  le := Nat.le_succ_of_le h.le
  never := fun k hk => by
    rcases Nat.lt_succ_iff_lt_or_eq.mp hk with hk | rfl
    · exact h.never k hk
    · exact hn

/-- An operation that fails while saving, after the references, is not taken back. -/
theorem Calmly.not_takenBack {taken : List SegmentId} (h : Calmly faults s₀ data policy taken n)
    (hn : LateAt faults n) : ¬ TakenBack faults s₀ data policy (n + 1) := fun k =>
  Store.not_full_of_le (h.all ▸ h.le) ((k.late n (Nat.lt_succ_self n)).mp hn)

/-- Else it is a matter of the counts. -/
theorem Calmly.takenBack_iff {taken : List SegmentId} (h : Calmly faults s₀ data policy taken n)
    (hs : s₀.Balanced) (hu : policy.dedupe = false → data ≠ [] → 0 < n → faults 0 ≠ none) :
    TakenBack faults s₀ data policy n ↔ ∀ y t, s₀.seg y = some t →
      s₀.raised taken y - taken.count y = t.refCount := by
  have hpre : taken <+: s₀.hits policy [] (chunks SEGMENT_SIZE data) := h.all ▸ List.prefix_rfl
  rw [← Store.late_iff_of_never hs hpre h.le (fun _ => h.all) h.never]
  exact ⟨TakenBack.late, fun k => ⟨k, hu⟩⟩

/-- **Before the log is committed**, too. -/
theorem Conducts.takenBack_iff (h : Conducts faults data policy s₀ a s n)
    (hs : s₀.Balanced) : ∃ raised, s₀.Counts s (s₀.raised raised) ∧
      (TakenBack faults s₀ data policy n ↔ ∀ y t, s₀.seg y = some t →
        s₀.raised raised y - a.dedupeIncrements.count y = t.refCount) := by
  -- without deduplication nothing has come to the disk
  have hoff : policy.dedupe = false → n = 0 := by
    intro hd
    have hhits := Store.hits_of_not_dedupe (s := s₀) hd (chunks SEGMENT_SIZE data) []
    cases h.halted with
    | whole hn ht _ =>
        rw [hhits, List.prefix_nil] at ht
        rw [hn, ht]
        rfl
    | leaked x _ _ ht =>
        rw [hhits, List.prefix_nil] at ht
        simp at ht
  have hsplit : TakenBack faults s₀ data policy n ↔ ∀ k < n, LateAt faults k ↔
      s₀.Full (s₀.hits policy [] (chunks SEGMENT_SIZE data)) k :=
    ⟨TakenBack.late, fun k => ⟨k, fun hd _ hpos => absurd (hoff hd) (Nat.ne_of_gt hpos)⟩⟩
  rw [hsplit]
  cases h.halted with
  | whole hn ht hc =>
      subst hn
      exact ⟨_, hc, Store.late_iff_of_never hs ht (Nat.le_refl _)
        (fun k => absurd k (Nat.lt_irrefl _)) h.never⟩
  | leaked x hn hl ht hx hc =>
      subst hn
      exact ⟨_, hc, Store.late_iff_of_leak hs hx ht h.never hl⟩

/-- The log was committed, and of the staged hashes `done` were registered. -/
structure Logged (faults : Nat → Option Fault) (data : Bytes) (policy : Policy)
    (s₀ : Store P) (a : AsyncState) (done : List (ContentHash × SegmentId)) (s : Store P)
    (n : Nat) : Prop extends Calmly faults s₀ data policy a.dedupeIncrements n where
  capsules : s.registry.capsules = s₀.registry.capsules
  named : ∀ r ∈ done, s.content r.1 = some r.2
  content : ∀ h, h ∉ done.map Prod.fst → s.content h = s₀.content h
  kept : s₀.Kept s
  counts : s₀.Counts s (s₀.raised a.dedupeIncrements)
  added : ∀ y, s₀.seg y = none → s.seg y ≠ none →
    ∃ q ∈ a.transaction.pending, q.segment.id = y
  there : ∀ q ∈ a.transaction.pending, s.seg q.segment.id ≠ none
  uncommitted : policy.dedupe = false → a.transaction.pending ≠ [] ∧ 0 < n ∧ faults 0 = none

/-- All chunks were committed. -/
theorem Conducts.calmly (h : Conducts faults data policy s₀ a s n)
    (he : a.commitError = none)
    (hi : a.nextIndex = (chunks SEGMENT_SIZE data).zipIdx.length) :
    n = a.dedupeIncrements.length ∧ Calmly faults s₀ data policy a.dedupeIncrements n := by
  obtain ⟨hn, hh⟩ := h.inStep he
  rw [List.length_zipIdx] at hi
  rw [hi, List.drop_length] at hh
  exact ⟨hn, (List.append_nil _).symm.trans hh, Nat.le_of_eq hn.symm, hn ▸ h.never⟩

/-- **The log is committed**, if the disk lets it be. -/
theorem wp_commit_undo (hs : s₀.Balanced) (h : Conducts faults data policy s₀ a s n)
    (he : a.commitError = none) (hi : a.nextIndex = (chunks SEGMENT_SIZE data).zipIdx.length)
    (hpos : (chunks SEGMENT_SIZE data).zipIdx.length ≠ 0)
    {Q : Except Error NvramTransaction → Store P × Nat → Prop}
    (hearly : ∀ e s', Calmly faults s₀ data policy a.dedupeIncrements (n + 1) →
      (policy.dedupe = false → faults 0 ≠ none) → s'.registry = s.registry →
      (∀ y, s'.seg y = s.seg y) → s₀.Kept s' → Q (.error e) (s', n + 1))
    (hlate : ∀ e s' q, Calmly faults s₀ data policy a.dedupeIncrements n → LateAt faults n →
      q ∈ a.transaction.pending → s'.seg q.segment.id ≠ none → Q (.error e) (s', n + 1))
    (hok : ∀ t s' n', Logged faults data policy s₀ a [] s' n' → Q (.ok t) (s', n')) :
    (Native.commit a.transaction).wp (Undo faults) (fun _ _ => True) Q (s, n) := by
  obtain ⟨hn, hcalm⟩ := h.calmly he hi
  have hcounts := h.halted.counts hn
  have hoff : policy.dedupe = false → a.transaction.pending ≠ [] ∧ n = 0 := by
    intro hd
    refine ⟨fun k => hpos ?_, ?_⟩
    · rw [← hi, ← (h.unregistered hd).2, k]
      rfl
    · rw [hn, hcalm.all, Store.hits_of_not_dedupe hd]
      rfl
  by_cases hp : a.transaction.pending = []
  · -- nothing to commit
    have hexec : StoreOp.exec (.commit a.transaction) s =
        (.ok { a.transaction with finalized := true }, s) := by
      simp only [StoreOp.exec, NvramTransaction.commit, h.active, hp]
      rfl
    refine wp_memoryUndo (o := .commit a.transaction) (by simp [StoreOp.touchesDisk, hp]) ?_
    rw [hexec]
    exact hok _ s n { hcalm with
      capsules := h.capsules
      named := fun _ hr => absurd hr List.not_mem_nil
      content := fun k _ => h.content k
      kept := .of_file h.file
      counts := hcounts
      added := fun y hy k => absurd (h.absent y hy) k
      there := fun q hq => by
        rw [hp] at hq
        exact absurd hq List.not_mem_nil
      uncommitted := fun hd => absurd hp (hoff hd).1 }
  · set s₁ : Store P := (StoreOp.exec (.commit a.transaction) s).2 with hs₁
    have hexec : StoreOp.exec (.commit a.transaction) s = (.ok { a.transaction with
        pending := [], finalized := true }, s₁) := by
      rw [hs₁]
      simp only [StoreOp.exec, NvramTransaction.commit, h.active, hp]
      rfl
    have hmap : s₁.nvram.segmentMap =
        NvramTransaction.installPending a.transaction.pending s.nvram.segmentMap := by
      rw [hs₁]
      simp only [StoreOp.exec, NvramTransaction.commit, h.active, hp]
      rfl
    have hfile : s₁.nvram.file =
        NvramTransaction.writePending a.transaction.pending s.nvram.file := by
      rw [hs₁]
      simp only [StoreOp.exec, NvramTransaction.commit, h.active, hp]
      rfl
    have hreg : s₁.registry = s.registry := by
      rw [hs₁]
      rfl
    have hthere : ∀ q ∈ a.transaction.pending, s₁.seg q.segment.id ≠ none := by
      intro q hq
      unfold Store.seg
      rw [hmap]
      exact NvramTransaction.lookup_installPending_ne_none (.inl ⟨q, hq, rfl⟩)
    refine wp_doing rfl (wp_diskOp (by simp [StoreOp.touchesDisk, h.active, hp]) ?_ ?_)
    · intro fault s' hf hstrike
      cases fault with
      | early written text =>
          cases hstrike
          refine hearly _ _ (hcalm.succ ?_) (fun hd => ?_) rfl (fun _ => rfl)
            (Store.Kept.writeSome (.of_file h.file) h.pendingOffset rfl)
          · rintro ⟨text', k⟩
            rw [hf] at k
            cases k
          · rw [← (hoff hd).2, hf]
            exact Option.some_ne_none _
      | late text =>
          obtain ⟨q, hq⟩ := List.exists_mem_of_ne_nil _ hp
          refine hlate _ s' q hcalm ⟨text, hf⟩ hq ?_
          cases hstrike
          exact hthere q hq
    · intro hf
      have hnone : faults n = none := by
        cases hk : faults n with
        | none => rfl
        | some fault => cases fault <;> cases hf _ hk
      have hnot : ¬ LateAt faults n := by
        rintro ⟨text, k⟩
        rw [hnone] at k
        cases k
      rw [hexec]
      refine hok _ s₁ (n + 1) { hcalm.succ hnot with
        capsules := by rw [hreg, h.capsules]
        named := fun _ hr => absurd hr List.not_mem_nil
        content := fun k _ => by
          unfold Store.content
          rw [hreg]
          exact h.content k
        kept := Store.Kept.writePending (.of_file h.file) h.pendingOffset hfile
        counts := fun y t hy => ?_
        added := fun y hy hne => ?_
        there := hthere
        uncommitted := fun hd => ⟨hp, Nat.succ_pos n, by rw [← (hoff hd).2, hnone]⟩ }
      · have hnot : ∀ q ∈ a.transaction.pending, q.segment.id ≠ y := by
          rintro q hq rfl
          exact absurd (hs.fresh _ t hy) (Nat.not_lt.mpr (h.pendingNew q hq).1)
        unfold Store.seg
        rw [hmap, NvramTransaction.lookup_installPending_of_not_mem hnot]
        exact hcounts y t hy
      · by_contra hno
        refine hne ?_
        unfold Store.seg
        rw [hmap, NvramTransaction.lookup_installPending_of_not_mem fun q hq e => hno ⟨q, hq, e⟩]
        exact h.absent y hy

/-- What takes back hashes other than `hash`. -/
def Sparing (hash : ContentHash) : StoreOp → Prop
  | .deregisterContent hash' _ => hash' ≠ hash
  | .removeSegment _ => True
  | .decrementRefcount _ => True
  | _ => False

theorem Sparing.exec {hash : ContentHash} {o : StoreOp} (u : Store P × Nat)
    (h : ¬ ¬ Sparing hash o) :
    ((o.execUndo faults u).2.1.content hash, (o.execUndo faults u).2.2) =
      (u.1.content hash, u.2) := by
  have h := not_not.mp h
  obtain ⟨s, n⟩ := u
  cases o with
  | deregisterContent hash' x =>
      refine Prod.ext ?_ rfl
      show (s.registry.deregisterContent hash' x).2.contentStore.lookup hash = _
      unfold CapsuleRegistry.deregisterContent
      split
      · exact (Table.lookup_erase _ _ _).trans (if_neg (Ne.symm h))
      · rfl
  | removeSegment x => rfl
  | decrementRefcount x => rfl
  | _ => exact h.elim

/-- **Taking back other hashes** leaves one that was registered. -/
theorem wp_takeBack_spares {Q : Except Error Unit → Store P × Nat → Prop}
    {all done : List (ContentHash × SegmentId)} {increments : List SegmentId} {hash : ContentHash}
    (hfresh : ∀ r ∈ done, r.1 ≠ hash) (e : Error)
    (hQ : ∀ e s', s'.content hash = s.content hash → Q (.error e) (s', n)) :
    (do
      done.foldlM (fun _ r => discard (Native.deregisterContent r.1 r.2)) ()
      all.foldlM (fun _ r => discard (Native.removeSegment r.2)) ()
      releaseIncrements increments
      Prog.fail e : Native Unit).wp (Undo faults) (fun _ _ => True) Q (s, n) := by
  have herr : ∀ (u : Store P × Nat), (u.1.content hash, u.2) = (s.content hash, n) →
      ∀ e, Q (.error e) u := by
    rintro ⟨s', n'⟩ hu e
    obtain ⟨h₁, rfl⟩ := Prod.mk.inj hu
    exact hQ e s' h₁
  refine wp_bind_uses (A := fun o => ¬ Sparing hash o) (fun o u => Sparing.exec u) ?_ ?_
    fun e u hu => herr u hu e
  · exact uses_foldlM_mem _ _ fun _ r hr =>
      uses_discard (uses_perform.mpr (not_not.mpr (hfresh r hr)))
  · intro _ u hu
    refine wp_bind_uses (A := fun o => ¬ Sparing hash o) (fun o u => Sparing.exec u) ?_ ?_
      fun e u' hu' => herr u' (hu'.trans hu) e
    · exact uses_foldlM (fun _ r => uses_discard (uses_perform.mpr (not_not.mpr trivial))) _ _
    · intro _ u' hu'
      refine wp_bind_uses (A := fun o => ¬ Sparing hash o) (fun o u => Sparing.exec u) ?_ ?_
        fun e u'' hu'' => herr u'' (hu''.trans (hu'.trans hu)) e
      · exact uses_releaseIncrements fun _ _ => not_not.mpr trivial
      · exact fun _ u'' hu'' => herr u'' (hu''.trans (hu'.trans hu)) e

/-- **The hashes are registered**, until the disk fails. -/
theorem wp_registerAll_undo {Q : Except Error Unit → Store P × Nat → Prop}
    (hnodup : (a.pendingRegistrations.map Prod.fst).Nodup)
    (hok : ∀ s n, Logged faults data policy s₀ a a.pendingRegistrations s n → Q (.ok ()) (s, n))
    (hlate : ∀ e s n r, Calmly faults s₀ data policy a.dedupeIncrements n → LateAt faults n →
      r ∈ a.pendingRegistrations → s.content r.1 ≠ none → Q (.error e) (s, n + 1)) :
    ∀ (l done : List (ContentHash × SegmentId)) (s : Store P) (n : Nat),
      a.pendingRegistrations = done ++ l → Logged faults data policy s₀ a done s n →
      (registerAll a.pendingRegistrations a.dedupeIncrements l done).wp (Undo faults)
        (fun _ _ => True) Q (s, n)
  | [], done, s, n, hl, h => hok s n (by rw [hl, List.append_nil]; exact h)
  | r :: l, done, s, n, hl, h => by
      have hl' : a.pendingRegistrations = (done ++ [r]) ++ l := by rw [hl, List.append_assoc]; rfl
      -- a hash that is not registered yet
      have hfresh : ∀ r' ∈ done, r'.1 ≠ r.1 := by
        intro r' hr' e
        rw [hl, List.map_append, List.nodup_append] at hnodup
        exact hnodup.2.2 _ (List.mem_map_of_mem hr') _ List.mem_cons_self e
      have hself : ∀ s' : Store P, s'.registry.contentStore =
          s.registry.contentStore.insert r.1 r.2 → s'.content r.1 = some r.2 := by
        intro s' hs'
        unfold Store.content
        rw [hs', Table.lookup_insert, if_pos rfl]
      unfold registerAll
      refine wp_bind.mpr (wp_attempt.mpr (wp_doing rfl (wp_diskOp
        (o := .registerContent r.1 r.2) rfl ?_ ?_)))
      · intro fault s' hf hstrike
        cases fault with
        | early written text => cases hstrike
        | late text =>
            have hc : s'.content r.1 = some r.2 := by
              cases hstrike
              exact hself _ rfl
            refine wp_takeBack_spares hfresh _ fun e s'' hs'' =>
              hlate e s'' n r h.toCalmly ⟨text, hf⟩ ?_ ?_
            · rw [hl]
              exact List.mem_append_right _ List.mem_cons_self
            · rw [hs'', hc]
              exact nofun
      · intro hf
        have hn : ¬ LateAt faults n := fun ⟨text, k⟩ => by cases hf _ k
        refine wp_registerAll_undo hnodup hok hlate l (done ++ [r]) _ (n + 1) hl'
          { h.toCalmly.succ hn with
            capsules := h.capsules
            named := fun r' hr' => ?_
            content := fun k hk => ?_
            kept := h.kept.congr rfl
            counts := h.counts.congr fun _ => rfl
            added := h.added
            there := h.there
            uncommitted := fun hd => ⟨(h.uncommitted hd).1, Nat.succ_pos n,
              (h.uncommitted hd).2.2⟩ }
        · rcases List.mem_append.mp hr' with hr' | hr'
          · refine (Table.lookup_insert _ _ _ _).trans ?_
            rw [if_neg (hfresh r' hr')]
            exact h.named r' hr'
          · obtain rfl := List.mem_singleton.mp hr'
            exact hself _ rfl
        · rw [List.map_append, List.mem_append, not_or] at hk
          refine (Table.lookup_insert _ _ _ _).trans ?_
          rw [if_neg (by simpa using hk.2)]
          exact h.content k hk.1

/-- Only what a list of registered segments put there is left of the write, and the references. -/
structure Leftover (s₀ : Store P) (taken : List SegmentId) (l : List (ContentHash × SegmentId))
    (s : Store P) : Prop where
  capsules : s.registry.capsules = s₀.registry.capsules
  named : ∀ r ∈ l, s.content r.1 = some r.2
  content : ∀ h, h ∉ l.map Prod.fst → s.content h = s₀.content h
  kept : s₀.Kept s
  counts : s₀.Counts s (s₀.raised taken)
  added : ∀ y, s₀.seg y = none → s.seg y ≠ none → y ∈ l.map Prod.snd

/-- **The registered segments are taken back.** -/
theorem wp_unregister_undo {Q : Except Error Unit → Store P × Nat → Prop} {taken : List SegmentId}
    (hok : ∀ s, Leftover s₀ taken [] s → Q (.ok ()) (s, n)) :
    ∀ (l : List (ContentHash × SegmentId)) (s : Store P), (l.map Prod.fst).Nodup →
      (∀ r ∈ l, s₀.content r.1 = none ∧ s₀.seg r.2 = none) → Leftover s₀ taken l s →
      (l.foldlM (fun _ r => unregister r) ()).wp (Undo faults) (fun _ _ => True) Q (s, n)
  | [], s, _, _, h => hok s h
  | r :: l, s, hnodup, hnew, h => by
      rw [List.map_cons, List.nodup_cons] at hnodup
      obtain ⟨hcr, hsr⟩ := hnew r List.mem_cons_self
      rw [List.foldlM_cons]
      refine wp_bind.mpr (wp_bind.mpr (wp_bind.mpr (wp_undoing
        (o := .deregisterContent r.1 r.2) rfl ?_)))
      have hnamed : s.registry.contentStore.lookup r.1 = some r.2 := h.named r List.mem_cons_self
      simp only [StoreOp.exec, Store.onRegistry, CapsuleRegistry.deregisterContent, if_pos hnamed]
      set s₁ : Store P := { s with registry :=
        { s.registry with contentStore := s.registry.contentStore.erase r.1 }.save }
      refine wp_bind.mpr (wp_undoing (s := s₁) (o := .removeSegment r.2) rfl ?_)
      set s₂ : Store P := (StoreOp.exec (.removeSegment r.2) s₁).2 with hs₂
      have hreg : s₂.registry = s₁.registry := rfl
      have hfile : s₂.nvram.file = s.nvram.file := by
        rw [hs₂]
        exact NvramLog.removeSegment_file _ _
      have hseg : ∀ y, s₂.seg y = if y = r.2 then none else s.seg y := by
        intro y
        rw [hs₂]
        exact NvramLog.removeSegment_lookup _ _ _
      have hcont : ∀ k, s₂.content k = if k = r.1 then none else s.content k := fun k =>
        Table.lookup_erase _ _ _
      refine wp_unregister_undo hok l s₂ hnodup.2
        (fun r' hr' => hnew r' (List.mem_cons_of_mem _ hr')) {
        capsules := h.capsules
        named := fun r' hr' => ?_
        content := fun k hk => ?_
        kept := h.kept.congr hfile
        counts := fun y t hy => ?_
        added := fun y hy hne => ?_ }
      · have hne : r'.1 ≠ r.1 := fun e => hnodup.1 (e ▸ List.mem_map_of_mem hr')
        rw [hcont, if_neg hne]
        exact h.named r' (List.mem_cons_of_mem _ hr')
      · rw [hcont]
        split
        · next e => rw [e, hcr]
        · next e => exact h.content k (by rw [List.map_cons, List.mem_cons, not_or]; exact ⟨e, hk⟩)
      · have hne : y ≠ r.2 := by
          rintro rfl
          rw [hsr] at hy
          cases hy
        rw [hseg, if_neg hne]
        exact h.counts y t hy
      · rw [hseg] at hne
        split at hne
        · exact absurd rfl hne
        · next e =>
            have hmem := h.added y hy hne
            rw [List.map_cons, List.mem_cons] at hmem
            exact hmem.resolve_left e

/-- What takes back, and keeps the capsules. -/
def TakesBack (o : StoreOp) : Prop := o.compensates = true

theorem TakesBack.exec {o : StoreOp} {id : CapsuleId} (u : Store P × Nat) (h : ¬ ¬ TakesBack o) :
    ((o.execUndo faults u).2.1.registry.capsules.lookup id, (o.execUndo faults u).2.2) =
      (u.1.registry.capsules.lookup id, u.2) := by
  have h := not_not.mp h
  obtain ⟨s, n⟩ := u
  cases o with
  | deregisterContent hash x =>
      refine Prod.ext ?_ rfl
      exact congrArg (AList.lookup id) (s.registry.deregisterContent_capsules hash x)
  | removeSegment x => rfl
  | decrementRefcount x => rfl
  | _ => cases h

/-- Giving back references keeps the segments. -/
def GivesBack : StoreOp → Prop
  | .decrementRefcount _ => True
  | _ => False

theorem GivesBack.exec {o : StoreOp} {x : SegmentId} (u : Store P × Nat) (h : ¬ ¬ GivesBack o) :
    (((o.execUndo faults u).2.1.seg x).isSome, (o.execUndo faults u).2.2) =
      ((u.1.seg x).isSome, u.2) := by
  have h := not_not.mp h
  obtain ⟨s, n⟩ := u
  cases o with
  | decrementRefcount y =>
      refine Prod.ext ?_ rfl
      show ((s.nvram.decrementRefcount y).2.segmentMap.lookup x).isSome = _
      unfold NvramLog.decrementRefcount
      split
      · rfl
      · next t ht =>
          split
          · rfl
          · refine (congrArg Option.isSome (Table.lookup_insert _ _ _ _)).trans ?_
            split
            · next e =>
                subst e
                exact (congrArg Option.isSome ht).symm
            · rfl
  | _ => exact h.elim

/-- **The capsule is created**, unless it is there or the disk fails. -/
theorem wp_createCapsule_undo {id : CapsuleId} {size : Nat} {l : List SegmentId}
    {Q : Except Error Unit → Store P × Nat → Prop}
    (hcollision : ∀ e, Q (.error e) (s, n))
    (hearly : ∀ e, ¬ LateAt faults n → Q (.error e) (s, n + 1))
    (hlate : ∀ e s', LateAt faults n → s.registry.capsules.lookup id = none →
      s'.registry.capsules.lookup id ≠ none → Q (.error e) (s', n + 1))
    (hok : ∀ s', Q (.ok ()) (s', n + 1)) :
    (Native.createCapsuleWithSegments id size l policy).wp (Undo faults) (fun _ _ => True) Q
      (s, n) := by
  cases hl : s.registry.capsules.lookup id with
  | some c =>
      have hexec : (StoreOp.exec (.createCapsuleWithSegments id size l policy) s).1 =
          .error (.msg "Capsule collision (extremely unlikely)") ∧
            (StoreOp.exec (.createCapsuleWithSegments id size l policy) s).2 = s := by
        simp only [StoreOp.exec, CapsuleRegistry.createCapsuleWithSegments, hl]
        exact ⟨rfl, trivial⟩
      refine wp_memoryUndo (o := .createCapsuleWithSegments id size l policy)
        (by simp only [StoreOp.touchesDisk, hl]; rfl) ?_
      rw [hexec.1, hexec.2]
      exact hcollision _
  | none =>
      refine wp_doing rfl (wp_diskOp (o := .createCapsuleWithSegments id size l policy)
        (by simp only [StoreOp.touchesDisk, hl]; rfl) ?_ ?_)
      · intro fault s' hf hstrike
        cases fault with
        | early written text =>
            cases hstrike
            refine hearly _ ?_
            rintro ⟨text', k⟩
            rw [hf] at k
            cases k
        | late text =>
            refine hlate _ s' ⟨text, hf⟩ hl ?_
            cases hstrike
            simp only [Store.unsaved, StoreOp.exec, CapsuleRegistry.createCapsuleWithSegments, hl,
              CapsuleRegistry.save, Table.lookup_insert, if_true]
            exact Option.some_ne_none _
      · intro _
        simp only [StoreOp.exec, CapsuleRegistry.createCapsuleWithSegments, hl]
        exact hok _

/-- The capsule of a write that was taken back is not there. -/
theorem wp_uncreate {Q : Except Error CapsuleId → Store P × Nat → Prop} (id : CapsuleId)
    (l : List (ContentHash × SegmentId)) (taken : List SegmentId) (e : Error)
    (hQ : ∀ e s', s'.registry.capsules.lookup id = s.registry.capsules.lookup id →
      Q (.error e) (s', n)) :
    (do
      l.foldlM (fun _ r => unregister r) ()
      releaseIncrements taken
      Prog.fail e : Native CapsuleId).wp (Undo faults) (fun _ _ => True) Q (s, n) := by
  have herr : ∀ (u : Store P × Nat),
      (u.1.registry.capsules.lookup id, u.2) = (s.registry.capsules.lookup id, n) →
      ∀ e, Q (.error e) u := by
    rintro ⟨s', n'⟩ hu e
    obtain ⟨h₁, rfl⟩ := Prod.mk.inj hu
    exact hQ e s' h₁
  refine wp_bind_uses (A := fun o => ¬ TakesBack o) (fun o u => TakesBack.exec u) ?_ ?_
    fun e u hu => herr u hu e
  · exact uses_foldlM (fun _ r => uses_bind (uses_discard (uses_perform.mpr (not_not.mpr rfl)))
      fun _ => uses_discard (uses_perform.mpr (not_not.mpr rfl))) _ _
  · intro _ u hu
    refine wp_bind_uses (A := fun o => ¬ TakesBack o) (fun o u => TakesBack.exec u) ?_ ?_
      fun e u' hu' => herr u' (hu'.trans hu) e
    · exact uses_releaseIncrements fun _ _ => not_not.mpr rfl
    · exact fun _ u' hu' => herr u' (hu'.trans hu) e

/-- A segment that is not taken back stays. -/
theorem wp_release_keeps {α : Type} {Q : Except Error α → Store P × Nat → Prop} {x : SegmentId}
    (hx : s.seg x ≠ none) (taken : List SegmentId) (e : Error)
    (hQ : ∀ e s', s'.seg x ≠ none → Q (.error e) (s', n)) :
    (releaseIncrements taken >>= fun _ => (.fail e : Native α)).wp (Undo faults)
      (fun _ _ => True) Q (s, n) := by
  have herr : ∀ (u : Store P × Nat), ((u.1.seg x).isSome, u.2) = ((s.seg x).isSome, n) →
      ∀ e, Q (.error e) u := by
    rintro ⟨s', n'⟩ hu e
    obtain ⟨h₁, rfl⟩ := Prod.mk.inj hu
    refine hQ e s' ?_
    rw [Ne, ← Option.not_isSome_iff_eq_none, not_not] at hx ⊢
    exact h₁.trans hx
  refine wp_bind_uses (A := fun o => ¬ GivesBack o) (fun o u => GivesBack.exec u) ?_ ?_
    fun e u hu => herr u hu e
  · exact uses_releaseIncrements fun _ _ => not_not.mpr trivial
  · exact fun _ u hu => herr u hu e

/-- **Once all hashes are registered**: the capsule is created, or all is taken back. -/
theorem wp_create_judged (hs : s₀.Balanced) {id : CapsuleId}
    (hdata : data ≠ []) (h : Logged faults data policy s₀ a a.pendingRegistrations s n)
    (hnodup : (a.pendingRegistrations.map Prod.fst).Nodup)
    (hunknown : ∀ r ∈ a.pendingRegistrations, s₀.content r.1 = none)
    (hids : policy.dedupe = true → a.pendingRegistrations.map Prod.snd =
      a.transaction.pending.map fun q => q.segment.id)
    (hoff : policy.dedupe = false → a.pendingRegistrations = [])
    (hnew : ∀ q ∈ a.transaction.pending, s₀.seg q.segment.id = none)
    (hstored : ∀ x ∈ a.dedupeIncrements, s₀.seg x ≠ none) :
    (do
      match ← (Native.createCapsuleWithSegments id data.length a.segmentIds policy).attempt with
      | .error e =>
        a.pendingRegistrations.foldlM (fun _ r => unregister r) ()
        releaseIncrements a.dedupeIncrements
        .fail (mapRegistryError "create_capsule_with_segments" e)
      | .ok _ =>
        if 0 < a.dedupStats.bytesSaved then
          (Native.addDedupedBytes id a.dedupStats.bytesSaved).mapError
            (mapRegistryError "add_deduped_bytes")
        return id : Native CapsuleId).wp (Undo faults) (fun _ _ => True)
      (Judged faults s₀ data policy) (s, n) := by
  -- what follows an error that left the store as it was
  have htake : ∀ m, n ≤ m → Calmly faults s₀ data policy a.dedupeIncrements m →
      ∀ e, (do
        a.pendingRegistrations.foldlM (fun _ r => unregister r) ()
        releaseIncrements a.dedupeIncrements
        Prog.fail (mapRegistryError "create_capsule_with_segments" e) : Native CapsuleId).wp
        (Undo faults) (fun _ _ => True) (Judged faults s₀ data policy) (s, m) := by
    intro m hm hcalm e
    by_cases hd : policy.dedupe = true
    · refine wp_bind.mpr (wp_unregister_undo (fun s' hl => ?_) _ s hnodup (fun r hr => ?_) {
        capsules := h.capsules
        named := h.named
        content := h.content
        kept := h.kept
        counts := h.counts
        added := fun y hy hne => ?_ })
      · refine wp_releaseIncrements_undo hs hl.counts (fun k => by rw [hl.capsules])
          (fun k => hl.content k nofun) (fun y hy => ?_) hl.kept hstored
          (hcalm.takenBack_iff hs fun k => absurd (hd.symm.trans k) nofun) ?_ _
        · by_contra hne
          exact absurd (hl.added y hy hne) nofun
        · rintro e s'' hiff _ -
          exact hiff
      · have hmem : r.2 ∈ a.transaction.pending.map fun q => q.segment.id :=
          hids hd ▸ List.mem_map_of_mem hr
        obtain ⟨q, hq, hqr⟩ := List.mem_map.mp hmem
        exact ⟨hunknown r hr, hqr ▸ hnew q hq⟩
      · obtain ⟨q, hq, rfl⟩ := h.added y hy hne
        rw [hids hd]
        exact List.mem_map_of_mem hq
    · -- the segments have no hashes to be found by
      have hd' : policy.dedupe = false := by simpa using hd
      obtain ⟨hp, hpos, h0⟩ := h.uncommitted hd'
      obtain ⟨q, hq⟩ := List.exists_mem_of_ne_nil _ hp
      rw [hoff hd']
      refine wp_release_keeps (h.there q hq) _ _ fun e s' hs' _ _ => ?_
      refine iff_of_false (fun k => hs' ?_) fun k =>
        k.uncommitted hd' hdata (hpos.trans_le hm) h0
      have hseg := k.segments q.segment.id
      rw [hnew q hq, Option.map_none, Option.map_eq_none_iff] at hseg
      exact hseg
  refine wp_bind.mpr (wp_attempt.mpr (wp_createCapsule_undo ?_ ?_ ?_ ?_))
  · exact htake n (Nat.le_refl _) h.toCalmly
  · exact fun e hn => htake (n + 1) (Nat.le_succ _) (h.toCalmly.succ hn) e
  · intro e s' hn hnone hsome
    refine wp_uncreate id _ _ _ fun e s'' hs'' _ _ => ?_
    refine iff_of_false (fun k => hsome ?_) (h.toCalmly.not_takenBack hn)
    rw [← hs'', k.capsules, ← h.capsules, hnone]
  · intro s'
    show Prog.wp (Undo faults) (fun _ _ => True) _ (do
      if 0 < a.dedupStats.bytesSaved then _
      _) (s', n + 1)
    split
    · exact wp_bind.mpr (wp_mapError.mpr (wp_memoryUndo (o := .addDedupedBytes id _) rfl nofun))
    · exact nofun

/-- **Once all tasks are done.** -/
theorem wp_finishAsync_judged (hs : s₀.Balanced) {id : CapsuleId}
    (hpos : (chunks SEGMENT_SIZE data).zipIdx.length ≠ 0)
    (h : Conducts faults data policy s₀ a s n) :
    (finishAsync id data.length policy (chunks SEGMENT_SIZE data).zipIdx.length a).wp
      (Undo faults) (fun _ _ => True) (Judged faults s₀ data policy) (s, n) := by
  have hdata : data ≠ [] := by
    rintro rfl
    exact hpos rfl
  have hnew : ∀ q ∈ a.transaction.pending, s₀.seg q.segment.id = none := by
    intro q hq
    refine Option.eq_none_iff_forall_ne_some.mpr fun t ht => ?_
    exact absurd (hs.fresh _ t ht) (Nat.not_lt.mpr (h.pendingNew q hq).1)
  unfold finishAsync
  cases he : AsyncState.error a (chunks SEGMENT_SIZE data).zipIdx.length with
  | some e =>
      obtain ⟨raised, hc, hiff⟩ := h.takenBack_iff hs
      have hroll : (StoreOp.exec (.rollback a.transaction) s).2.registry = s.registry := rfl
      have hnv : (StoreOp.exec (.rollback a.transaction) s).2.nvram.file = s.nvram.file ∧
          ∀ y, (StoreOp.exec (.rollback a.transaction) s).2.seg y = s.seg y := by
        simp only [Store.seg, StoreOp.exec, Store.onNvram, NvramTransaction.rollback, h.active]
        exact ⟨rfl, fun _ => rfl⟩
      refine wp_bind.mpr (wp_bind.mpr (wp_memoryUndo (o := .rollback a.transaction) rfl ?_))
      refine wp_releaseIncrements_undo hs (hc.congr hnv.2) (fun k => by rw [hroll, h.capsules])
        h.content (fun y hy => (hnv.2 y).trans (h.absent y hy)) (.of_file (hnv.1.trans h.file))
        h.stored hiff ?_ _
      rintro e s' hres _ -
      exact hres
  | none =>
      obtain ⟨hcommit, hindex⟩ := AsyncState.error_eq_none he
      refine wp_bind.mpr (wp_attempt.mpr (wp_commit_undo hs h hcommit hindex hpos ?_ ?_ ?_))
      · intro e s' hcalm hfault hreg hseg hkept
        refine wp_releaseIncrements_undo hs ((h.halted.counts (h.inStep hcommit).1).congr hseg)
          (fun k => by rw [hreg, h.capsules])
          (fun k => by unfold Store.content; rw [hreg]; exact h.content k)
          (fun y hy => (hseg y).trans (h.absent y hy)) hkept h.stored
          (hcalm.takenBack_iff hs fun hd _ _ => hfault hd) ?_ _
        rintro e s' hres _ -
        exact hres
      · intro e s' q hcalm hlate hq hsome
        refine wp_release_keeps hsome _ _ fun e s'' hs'' _ _ => ?_
        refine iff_of_false (fun k => hs'' ?_) (hcalm.not_takenBack hlate)
        have hseg := k.segments q.segment.id
        rw [hnew q hq, Option.map_none, Option.map_eq_none_iff] at hseg
        exact hseg
      · intro t s' n' hlog
        refine wp_bind.mpr (wp_registerAll_undo h.hashes ?_ ?_ _ [] s' n' rfl hlog)
        · exact fun s'' n'' hl => wp_create_judged hs hdata hl h.hashes h.unknown h.registrations
            (fun hd => (h.unregistered hd).1) hnew h.stored
        · rintro e s'' n'' r hcalm hlate hr hsome _ -
          refine iff_of_false (fun k => hsome ?_) (hcalm.not_takenBack hlate)
          exact (k.content r.1).trans (h.unknown r hr)

/-- A write of nothing. -/
theorem wp_createEmpty_judged {id : CapsuleId} {f : Error → Error}
    (hnil : chunks SEGMENT_SIZE data = []) (hdata : data = []) :
    (do
      (Native.createCapsuleWithSegments id 0 [] policy).mapError f
      return id : Native CapsuleId).wp (Undo faults) (fun _ _ => True)
      (Judged faults s data policy) (s, 0) := by
  have hfull : ∀ k, ¬ s.Full (s.hits policy [] (chunks SEGMENT_SIZE data)) k := fun k => by
    rw [hnil]
    exact Store.not_full_of_le (Nat.zero_le k)
  have hsame : s.Untouched s := ⟨fun _ => rfl, fun _ => rfl, fun _ => rfl, fun _ => rfl⟩
  refine wp_bind.mpr (wp_mapError.mpr (wp_createCapsule_undo ?_ ?_ ?_ ?_))
  · rintro e _ -
    exact iff_of_true hsame ⟨nofun, nofun⟩
  · rintro e hn _ -
    refine iff_of_true hsame ⟨fun k hk => ?_, fun _ k => absurd hdata k⟩
    obtain rfl : k = 0 := Nat.lt_one_iff.mp hk
    exact iff_of_false hn (hfull 0)
  · rintro e s' hn hnone hsome _ -
    refine iff_of_false (fun k => hsome ?_) fun k => hfull 0 ((k.late 0 Nat.one_pos).mp hn)
    rw [k.capsules, hnone]
  · exact fun s' => nofun

theorem wp_writeCapsuleAsync_judged (hs : s.Balanced) {memoryLimit : Nat}
    {arrivals : Order (Bytes × Nat)} {id : CapsuleId} :
    (writeCapsuleWithPolicyAsync P memoryLimit arrivals id data policy).wp (Undo faults)
      (fun _ _ => True) (Judged faults s data policy) (s, 0) := by
  unfold writeCapsuleWithPolicyAsync
  show Prog.wp (Undo faults) (fun _ _ => True) _ (if _ then _ else _) (s, 0)
  split
  · next h0 =>
      have hnil : chunks SEGMENT_SIZE data = [] :=
        List.zipIdx_eq_nil_iff.mp (List.length_eq_zero_iff.mp h0)
      have hdata : data = [] := by
        rw [← chunks_flatten SEGMENT_SIZE_pos data, hnil]
        rfl
      exact wp_createEmpty_judged hnil hdata
  · next hpos =>
      refine wp_bind.mpr (wp_memoryUndo (o := .beginTransaction) rfl ?_)
      refine andThen_ok.mpr ?_
      dsimp only
      split
      · -- a chunk too large for a task
        refine wp_bind.mpr (wp_bind.mpr (wp_memoryUndo (o := .rollback _) rfl ?_))
        rintro _ -
        exact iff_of_true ⟨fun _ => rfl, fun _ => rfl, fun _ => rfl, fun _ => rfl⟩ ⟨nofun, nofun⟩
      · refine wp_bind.mpr (wp_foldlM (fun rest a u => Conducts faults data policy s a u.1 u.2 ∧
          ∀ chunk ∈ rest, (chunks SEGMENT_SIZE data).zipIdx[chunk.2]? = some chunk) ?_ ?_ _ _ _
          ⟨conducts_start hs, fun chunk hc => ?_⟩)
        · rintro chunk rest a ⟨u, m⟩ ⟨hc, hrest⟩
          exact wp_arrive_undo (hrest chunk List.mem_cons_self) hc fun a' s' n' h' =>
            ⟨h', fun c hc => hrest c (List.mem_cons_of_mem _ hc)⟩
        · rintro a ⟨u, m⟩ ⟨hc, -⟩
          exact wp_finishAsync_judged hs hpos hc
        · rw [List.getElem?_zipIdx,
            List.mem_zipIdx_iff_getElem?.mp ((Order.mem_reorder arrivals).mp hc), Option.map_some,
            Nat.zero_add]

/-- **An asynchronous write that fails** leaves what was there as it was, if and only if what it
did was taken back: no operation failed while saving except a hit on a full count, no other hit
found a full count, and with deduplication off the log was not committed. -/
theorem writeCapsuleWithPolicyAsync_untouched_iff (hs : s.Balanced) {memoryLimit : Nat}
    {arrivals : Order (Bytes × Nat)} {id : CapsuleId} {e : Error} {n' : Nat}
    (hrun : (writeCapsuleWithPolicyAsync P memoryLimit arrivals id data policy).run
      (StoreOp.execUndo faults) (s, 0) = (.error e, s', n')) :
    s.Untouched s' ↔ TakenBack faults s data policy n' := by
  have hw : (writeCapsuleWithPolicyAsync P memoryLimit arrivals id data policy).wp (Undo faults)
    (fun _ _ => True) (Judged faults s data policy) (s, 0) := wp_writeCapsuleAsync_judged hs
  have h := wp_run hw
  rw [hrun] at h
  exact h e rfl

theorem balanced_empty (km : Option (KeyManager P)) : (Store.empty km).Balanced where
  fresh := fun _ _ h => by cases h
  counted := fun _ _ h => by cases h
  extent := fun _ _ h => by cases h

/-- The commit fails before it changes anything. -/
theorem writeCapsuleWithPolicyAsync_untouched_iff_early :
    (Store.empty (P := .stored) none).Untouched
      ((writeCapsuleWithPolicyAsync .stored 64 .asGiven ⟨0⟩ [1] {}).run
        (StoreOp.execUndo fun _ => some (.early 0 "No space left on device"))
        (Store.empty none, 0)).2.1 := by
  have hr : ((writeCapsuleWithPolicyAsync .stored 64 .asGiven ⟨0⟩ [1] {}).run
      (StoreOp.execUndo fun _ => some (.early 0 "No space left on device"))
      (Store.empty (P := .stored) none, 0)).1 =
        .error (.msg "No space left on device") := rfl
  refine (writeCapsuleWithPolicyAsync_untouched_iff (balanced_empty none)
    (Prod.ext hr rfl)).mpr ⟨fun k _ => iff_of_false nofun ?_, nofun⟩
  exact Store.not_full_of_le (Nat.zero_le k)

/-- **A failed write is not atomic**: where the disk fails while a hash is registered, the hash
stays, and names a segment that was removed. -/
theorem not_writeCapsuleWithPolicyAsync_untouched :
    ¬ ∀ (P : Primitives) (faults : Nat → Option Fault) (s s' : Store P) (memoryLimit : Nat)
      (arrivals : Order (Bytes × Nat)) (capsuleId : CapsuleId) (data : Bytes) (policy : Policy)
      (e : Error) (n' : Nat), s.Balanced →
      (writeCapsuleWithPolicyAsync P memoryLimit arrivals capsuleId data policy).run
        (StoreOp.execUndo faults) (s, 0) = (.error e, (s', n')) → s.Untouched s' := by
  intro h
  set faults : Nat → Option Fault := fun n => if n = 1 then some (.late "Input/output error")
    else none
  have hr : ((writeCapsuleWithPolicyAsync .stored 64 .asGiven ⟨0⟩ [1] {}).run
      (StoreOp.execUndo faults) (Store.empty (P := .stored) none, 0)).1 =
        .error (.msg "Input/output error") := rfl
  have hu := h .stored faults (.empty none) _ 64 .asGiven ⟨0⟩ [1] {} _ _ (balanced_empty none)
    (Prod.ext hr rfl)
  have hc := hu.content (hashContent .stored [1])
  cases hc

end WritePipeline

end Space

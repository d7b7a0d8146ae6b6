import Space.Layout.Engine
import Space.Support.Tiling

/-!
# Layout — Partition

A plan cuts the data into segments without gap or overlap, and the segments into zones
(`ZonePlan.Partition`).  The invariant of the two loops is `Building.Covers`: what is placed so far
covers the data up to the position.

* `CpuFixed.Building.Covers.place`: one pass of the inner loop keeps it.
* `buildPlan_partition`: so a plan that is returned is a partition, and for a segment size that is
  not zero one is returned.
-/

namespace Space.Layout
open Support

variable {P : Primitives} {n cursor start fuel : Nat} {capsule : CapsuleId} {data : Bytes}
  {slices : List Bytes} {segment : SegmentRef}

/-! ### What is asked of a plan -/

/-- The bytes a zone holds. -/
def Zone.bytes (zone : Zone) : Nat := (zone.segments.map SegmentRef.length).sum

/-- The segments, zone by zone. -/
def ZonePlan.segments (plan : ZonePlan) : List SegmentRef := plan.zones.flatMap Zone.segments

def SegmentRef.extent (segment : SegmentRef) : Nat × Nat := (segment.offset, segment.length)

/-- The bytes of a segment of the data. -/
def SegmentRef.chunk (segment : SegmentRef) (data : Bytes) : Bytes :=
  slice data segment.offset segment.length

/-- The segment lies in one of the slices. -/
def SegmentRef.Within (segment : SegmentRef) (slices : List Bytes) : Prop :=
  ∃ front data rear, slices = front ++ data :: rear ∧
    front.flatten.length ≤ segment.offset ∧
    segment.offset + segment.length ≤ front.flatten.length + data.length

/-- The plan is a partition of the slices into segments of at most `n` bytes, and of these into
zones of at least `n`. -/
structure ZonePlan.Partition (P : Primitives) (n : Nat) (slices : List Bytes) (plan : ZonePlan) :
    Prop where
  contiguous : Tiles 0 slices.flatten.length (plan.segments.map SegmentRef.extent)
  covers : plan.segments.flatMap (SegmentRef.chunk · slices.flatten) = slices.flatten
  length : ∀ segment ∈ plan.segments, 1 ≤ segment.length ∧ segment.length ≤ n
  within : ∀ segment ∈ plan.segments, segment.Within slices
  hash : ∀ segment ∈ plan.segments,
    segment.compressedHash = hashContent P (segment.chunk slices.flatten)
  nonempty : ∀ zone ∈ plan.zones, zone.segments ≠ []
  ids : plan.zones.map Zone.id = List.range plan.zones.length
  full : ∀ zone ∈ plan.zones.dropLast, n ≤ zone.bytes ∧ zone.bytes < 2 * n

/-! ### The loops -/

/-- A segment as a plan for the slices has it. -/
structure SegmentRef.Fits (P : Primitives) (n : Nat) (slices : List Bytes) (segment : SegmentRef) :
    Prop where
  length : 1 ≤ segment.length ∧ segment.length ≤ n
  within : segment.Within slices
  hash : segment.compressedHash = hashContent P (segment.chunk slices.flatten)

namespace CpuFixed.Building
variable {b : Building}

/-- The segments placed so far. -/
def segments (b : Building) : List SegmentRef :=
  b.zones.flatMap Zone.segments ++ b.currentZone.segments

/-- The segments placed so far cover the slices up to a position, and the zones that are closed are
full. -/
structure Covers (P : Primitives) (n : Nat) (slices : List Bytes) (position : Nat) (b : Building) :
    Prop where
  tiles : Tiles 0 position (b.segments.map SegmentRef.extent)
  fits : ∀ segment ∈ b.segments, segment.Fits P n slices
  ids : b.zones.map Zone.id = List.range b.zones.length
  current : b.currentZone.id = b.zones.length ∧ b.zoneId = b.zones.length
  usage : b.zoneUsage = b.currentZone.bytes ∧ b.zoneUsage < n
  full : ∀ zone ∈ b.zones, n ≤ zone.bytes ∧ zone.bytes < 2 * n

theorem Covers.init (hn : n ≠ 0) : Covers P n slices 0 .init where
  tiles := rfl
  fits := fun _ h => absurd h List.not_mem_nil
  ids := rfl
  current := ⟨rfl, rfl⟩
  usage := ⟨rfl, Nat.pos_of_ne_zero hn⟩
  full := fun _ h => absurd h List.not_mem_nil

/-- The current zone, with one segment more. -/
def extended (b : Building) (segment : SegmentRef) : Zone :=
  { b.currentZone with segments := b.currentZone.segments ++ [segment] }

theorem place_full (h : n ≤ b.zoneUsage + segment.length) : b.place n segment =
    ⟨b.zones ++ [b.extended segment], b.zoneId + 1, ⟨b.zoneId + 1, b.zoneId + 1, []⟩, 0⟩ :=
  if_pos ⟨h, by simp⟩

theorem place_open (h : ¬ n ≤ b.zoneUsage + segment.length) : b.place n segment =
    ⟨b.zones, b.zoneId, b.extended segment, b.zoneUsage + segment.length⟩ :=
  if_neg fun k => h k.1

theorem segments_place : (b.place n segment).segments = b.segments ++ [segment] := by
  by_cases h : n ≤ b.zoneUsage + segment.length
  · simp [place_full h, segments, extended]
  · simp [place_open h, segments, extended]

/-- **One more segment**, at the position. -/
theorem Covers.place {position : Nat} (h : b.Covers P n slices position)
    (hs : segment.Fits P n slices) (ho : segment.offset = position) :
    (b.place n segment).Covers P n slices (position + segment.length) := by
  have htiles : Tiles 0 (position + segment.length)
      ((b.place n segment).segments.map SegmentRef.extent) := by
    rw [segments_place, List.map_append]
    have e : [segment].map SegmentRef.extent = [(position, segment.length)] := by
      rw [← ho]
      rfl
    rw [e]
    exact h.tiles.snoc _
  have hfits : ∀ s ∈ (b.place n segment).segments, s.Fits P n slices := by
    intro s hs'
    rw [segments_place] at hs'
    rcases List.mem_append.mp hs' with hs' | hs'
    · exact h.fits s hs'
    · exact List.mem_singleton.mp hs' ▸ hs
  have hbytes : (b.extended segment).bytes = b.zoneUsage + segment.length := by
    rw [h.usage.1]
    simp [Zone.bytes, extended]
  obtain ⟨hid, hzid⟩ := h.current
  obtain ⟨hpos, hle⟩ := hs.length
  have husage := h.usage.2
  by_cases hfull : n ≤ b.zoneUsage + segment.length
  · -- the zone is closed: it was not full before the segment
    refine ⟨htiles, hfits, ?_, ?_, ?_, ?_⟩
    all_goals rw [place_full hfull]
    · rw [List.map_append, h.ids, List.length_append, List.length_singleton, List.range_succ]
      exact congrArg (List.range b.zones.length ++ [·]) hid
    · rw [List.length_append, List.length_singleton, hzid]
      exact ⟨rfl, rfl⟩
    · exact ⟨rfl, Nat.zero_lt_of_lt husage⟩
    · intro zone hz
      rcases List.mem_append.mp hz with hz | hz
      · exact h.full zone hz
      · rw [List.mem_singleton.mp hz, hbytes]
        omega
  · refine ⟨htiles, hfits, ?_, ?_, ?_, ?_⟩
    all_goals rw [place_open hfull]
    · exact h.ids
    · exact ⟨hid, hzid⟩
    · exact ⟨hbytes.symm, Nat.not_le.mp hfull⟩
    · exact h.full

end CpuFixed.Building

namespace CpuFixed
variable {b b' : Building} {front rear : List Bytes}

theorem take_le (h : start ≤ data.length) : start + take n start data ≤ data.length := by
  unfold take
  omega

/-- What a pass takes fits into a plan for the slices. -/
theorem fits_taken (hn : n ≠ 0) (h : start < data.length) :
    SegmentRef.Fits P n (front ++ data :: rear) ⟨capsule, front.flatten.length + start,
      take n start data, hashContent P (slice data start (take n start data))⟩ := by
  have hle : start + take n start data ≤ data.length := take_le h.le
  refine ⟨⟨(take_pos_iff h).mpr hn, Nat.min_le_right _ _⟩, ⟨front, data, rear, rfl,
    Nat.le_add_right _ _, ?_⟩, ?_⟩
  · show front.flatten.length + start + take n start data ≤ _
    omega
  · have hchunk : slice (front ++ data :: rear).flatten (front.flatten.length + start)
        (take n start data) = slice data start (take n start data) := by
      rw [List.flatten_append, List.flatten_cons]
      unfold slice
      rw [List.drop_length_add_append]
      exact slice_append_left hle
    exact congrArg (hashContent P) hchunk.symm

/-- **The inner loop.** -/
theorem covers_fillSlice (hn : n ≠ 0) (hs : start ≤ data.length)
    (hb : b.Covers P n (front ++ data :: rear) (front.flatten.length + start))
    (h : fillSlice P n capsule data front.flatten.length fuel start b = some b') :
    b'.Covers P n (front ++ data :: rear) (front.flatten.length + data.length) := by
  induction fuel generalizing start b with
  | zero =>
      rw [fillSlice] at h
      split at h
      · cases h
      · next hlt =>
          cases h
          obtain rfl : start = data.length := by omega
          exact hb
  | succ fuel ih =>
      by_cases hlt : start < data.length
      · rw [fillSlice_pass hlt] at h
        have hfits : SegmentRef.Fits P n (front ++ data :: rear) ⟨capsule, _, _, _⟩ :=
          fits_taken hn hlt
        have hb₁ := hb.place hfits rfl
        rw [Nat.add_assoc] at hb₁
        exact ih (take_le hs) hb₁ h
      · rw [fillSlice_done (Nat.not_lt.mp hlt)] at h
        cases h
        obtain rfl : start = data.length := by omega
        exact hb

/-- **The outer loop.** -/
theorem covers_fillSlices (hn : n ≠ 0)
    (hb : b.Covers P n (front ++ slices) front.flatten.length)
    (h : fillSlices P n capsule fuel slices front.flatten.length b = some b') :
    b'.Covers P n (front ++ slices) (front ++ slices).flatten.length := by
  induction slices generalizing front b with
  | nil =>
      cases h
      rwa [List.append_nil] at hb ⊢
  | cons data slices ih =>
      obtain ⟨b₁, h₁, h₂⟩ := Option.bind_eq_some_iff.mp h
      have hb₁ := covers_fillSlice hn (Nat.zero_le _) hb h₁
      have e : (front ++ [data]).flatten.length = front.flatten.length + data.length := by simp
      rw [← e] at hb₁ h₂
      rw [List.append_cons] at hb₁ ⊢
      exact ih hb₁ h₂

end CpuFixed

/-- A zone that holds something is not empty. -/
theorem Zone.ne_nil_of_bytes {zone : Zone} (h : 0 < zone.bytes) : zone.segments ≠ [] := by
  intro e
  rw [Zone.bytes, e] at h
  exact Nat.lt_irrefl 0 h

/-- What the loops have covered, with the last zone, is the plan. -/
theorem CpuFixed.Building.Covers.partition {b : Building} (hn : 0 < n)
    (h : b.Covers P n slices slices.flatten.length) {plan : ZonePlan}
    (hp : plan = ⟨if b.currentZone.segments ≠ [] then b.zones ++ [b.currentZone] else b.zones,
      none⟩) : plan.Partition P n slices := by
  have hsegments : plan.segments = b.segments := by
    rw [hp, ZonePlan.segments, Building.segments]
    by_cases hnil : b.currentZone.segments = []
    · rw [if_neg (not_not.mpr hnil), hnil, List.append_nil]
    · rw [if_pos hnil, List.flatMap_append, List.flatMap_singleton]
  have hcontig : Tiles 0 slices.flatten.length (plan.segments.map SegmentRef.extent) :=
    hsegments ▸ h.tiles
  have hfull : ∀ zone ∈ b.zones, zone.segments ≠ [] := fun zone hz =>
    Zone.ne_nil_of_bytes (hn.trans_le (h.full zone hz).1)
  have hfits : ∀ segment ∈ plan.segments, segment.Fits P n slices := hsegments ▸ h.fits
  refine ⟨hcontig, ?_, fun s hs => (hfits s hs).length, fun s hs => (hfits s hs).within,
    fun s hs => (hfits s hs).hash, ?_, ?_, ?_⟩
  · have hall := hcontig.flatMap_slice_all
    rw [List.flatMap_map] at hall
    exact hall
  all_goals
    rw [hp]
    dsimp only
    by_cases hnil : b.currentZone.segments = []
  · rw [if_neg (not_not.mpr hnil)]
    exact hfull
  · rw [if_pos hnil]
    intro zone hz
    rcases List.mem_append.mp hz with hz | hz
    · exact hfull zone hz
    · rwa [List.mem_singleton.mp hz]
  · rw [if_neg (not_not.mpr hnil)]
    exact h.ids
  · rw [if_pos hnil, List.map_append, h.ids, List.length_append, List.length_singleton,
      List.range_succ]
    exact congrArg (List.range b.zones.length ++ [·]) h.current.1
  · rw [if_neg (not_not.mpr hnil)]
    exact fun zone hz => h.full zone (List.dropLast_subset _ hz)
  · rw [if_pos hnil, List.dropLast_concat]
    exact h.full

theorem CpuFixed.partition_of_buildPlan (hn : 0 < n) {plan : ZonePlan}
    (h : CpuFixed.buildPlan P n capsule slices fuel = some plan) : plan.Partition P n slices := by
  have hn' : n ≠ 0 := Nat.pos_iff_ne_zero.mp hn
  obtain ⟨b, hb, h⟩ := Option.bind_eq_some_iff.mp h
  have hcov : b.Covers P n ([] ++ slices) ([] ++ slices).flatten.length :=
    CpuFixed.covers_fillSlices hn' (.init hn') hb
  exact hcov.partition hn (Option.some.inj h).symm

/-- **The layout plan is an exact partition**, and there is one. -/
theorem buildPlan_partition (P : Primitives) (n : Nat) (hn : 0 < n) (capsule : CapsuleId)
    (slices : List Bytes) :
    (∃ fuel plan, CpuFixed.buildPlan P n capsule slices fuel = some plan) ∧
      ∀ fuel plan, CpuFixed.buildPlan P n capsule slices fuel = some plan →
        plan.Partition P n slices :=
  ⟨(CpuFixed.buildPlan_returns_iff P n capsule slices).mpr (.inl (Nat.pos_iff_ne_zero.mp hn)),
    fun _ _ h => CpuFixed.partition_of_buildPlan hn h⟩

/-- Two slices, the second longer than a segment, over two zones. -/
theorem buildPlan_partition_slices :
    (∃ fuel plan, CpuFixed.buildPlan .stored 2 ⟨0⟩ [[1], [], [2, 3, 4]] fuel = some plan) ∧
      ∀ fuel plan, CpuFixed.buildPlan .stored 2 ⟨0⟩ [[1], [], [2, 3, 4]] fuel = some plan →
        plan.Partition .stored 2 [[1], [], [2, 3, 4]] :=
  buildPlan_partition .stored 2 (by decide) ⟨0⟩ [[1], [], [2, 3, 4]]

/-- A plan of the engine has the zones of its planner. -/
theorem synthesize_ok {policy : Policy} {capsules : List CapsuleId} {fresh : CapsuleId}
    {plan : ZonePlan} (h : synthesize P policy capsules fresh slices fuel = some (.ok plan)) :
    ∃ plan', CpuFixed.buildPlan P policy.layout.strategy.defaultSegmentSize
      (capsuleIdFor capsules fresh) slices fuel = some plan' ∧ plan.zones = plan'.zones := by
  unfold synthesize at h
  generalize policy.layout.strategy = strategy at h ⊢
  cases strategy with
  | znsGraph => cases h
  | learned => cases h
  | _ =>
    obtain ⟨plan', hp, e⟩ := Option.map_eq_some_iff.mp h
    refine ⟨plan', hp, ?_⟩
    cases e
    rfl

/-- **The chunks that the writer takes** from the data, in the order of the plan, are the data. -/
theorem planWrite_covers {policy : Policy} {fresh : CapsuleId} {plan : ZonePlan}
    (h : planWrite P policy capsule fresh data fuel = some (.ok plan)) :
    plan.segments.flatMap (SegmentRef.chunk · data) = data := by
  unfold planWrite at h
  by_cases hn : policy.layout.strategy.defaultSegmentSize = 0
  · simp only [if_pos hn] at h
    cases h
  · simp only [if_neg hn] at h
    have hpos := Nat.pos_of_ne_zero hn
    obtain ⟨plan', hp, hz⟩ := synthesize_ok h
    have hcov := (CpuFixed.partition_of_buildPlan hpos hp).covers
    rw [chunks_flatten hpos] at hcov
    rw [ZonePlan.segments, hz]
    exact hcov

end Space.Layout

import Space.Codec.Stored
import Space.Modular.Pipeline

/-!
# Layout — Engine

The layout engine with the CPU planners, and its two entry points: `synthesize` on any slices, and
the chunks of the modular write.  The inner loop of `build_plan` goes on while there is something
left of a slice; here it is cut off after a number of passes (`fuel`), and a plan is *returned* when
some number is enough.

The segment size comes from the policy and may be zero.  Then a pass takes nothing, the loop does
not end, and the chunks of a write panic (`planning_returns_iff`).

* `CpuFixed.passes_iff`: when the inner loop ends.
* `CpuFixed.erase_buildPlan`: the extents are those of the plan that the modular write goes through.
-/

namespace Space.Layout
open Support

variable (P : Primitives)

/-! ### Plans -/

structure SegmentRef where
  capsuleId : CapsuleId
  offset : Nat
  length : Nat
  compressedHash : ContentHash
  deriving DecidableEq

structure Zone where
  id : Nat
  ivSeed : Nat
  segments : List SegmentRef
  deriving DecidableEq

structure ZonePlan where
  zones : List Zone
  merkleRoot : Option ContentHash
  deriving DecidableEq

/-! ### The planner -/

namespace CpuFixed

/-- The variables of `build_plan`, but for `start` and `cursor`. -/
structure Building where
  zones : List Zone
  zoneId : Nat
  currentZone : Zone
  zoneUsage : Nat

def Building.init : Building := ⟨[], 0, ⟨0, 0, []⟩, 0⟩

/-- A segment is put into the current zone, and a zone that is full is closed. -/
def Building.place (segmentSize : Nat) (segment : SegmentRef) (b : Building) : Building :=
  let zone : Zone := { b.currentZone with segments := b.currentZone.segments ++ [segment] }
  let zoneUsage := b.zoneUsage + segment.length
  if segmentSize ≤ zoneUsage ∧ zone.segments ≠ [] then
    ⟨b.zones ++ [zone], b.zoneId + 1, ⟨b.zoneId + 1, b.zoneId + 1, []⟩, 0⟩
  else ⟨b.zones, b.zoneId, zone, zoneUsage⟩

/-- What one pass of the inner loop takes. -/
def take (segmentSize start : Nat) (data : Bytes) : Nat := min (data.length - start) segmentSize

/-- `while start < slice.len()`, for so many passes. -/
def fillSlice (segmentSize : Nat) (capsule : CapsuleId) (data : Bytes) (cursor : Nat) :
    Nat → Nat → Building → Option Building
  | fuel, start, b =>
    if start < data.length then
      match fuel with
      | 0 => none
      | fuel + 1 =>
        let n := take segmentSize start data
        let segment : SegmentRef :=
          ⟨capsule, cursor + start, n, hashContent P (slice data start n)⟩
        fillSlice segmentSize capsule data cursor fuel (start + n) (b.place segmentSize segment)
    else some b

/-- `for slice in data_slices`; the cursor stands at the first byte of the slice. -/
def fillSlices (segmentSize : Nat) (capsule : CapsuleId) (fuel : Nat) :
    List Bytes → Nat → Building → Option Building
  | [], _, b => some b
  | data :: slices, cursor, b => do
    let b ← fillSlice P segmentSize capsule data cursor fuel 0 b
    fillSlices segmentSize capsule fuel slices (cursor + data.length) b

def buildPlan (segmentSize : Nat) (capsule : CapsuleId) (slices : List Bytes) (fuel : Nat) :
    Option ZonePlan := do
  let b ← fillSlices P segmentSize capsule fuel slices 0 .init
  return ⟨if b.currentZone.segments ≠ [] then b.zones ++ [b.currentZone] else b.zones, none⟩

end CpuFixed

/-! ### The engine -/

/-- The first capsule, or a fresh one. -/
def capsuleIdFor (capsules : List CapsuleId) (fresh : CapsuleId) : CapsuleId :=
  capsules.head?.getD fresh

/-- The root of both algorithms: BLAKE3 of the concatenation, as without the feature `pq`. -/
def computeMerkleRoot (slices : List Bytes) : MerkleAlgo → ContentHash
  | .blake3 => hashContent P slices.flatten
  | .sphincsPlus => hashContent P slices.flatten

/-- The strategies that a CPU planner is compiled for. -/
def IsCpu : LayoutStrategy → Prop
  | .fixed _ => True
  | .adaptiveEntropy => True
  | .quantumReady _ => True
  | _ => False

/-- `LayoutEngine::new` and `synthesize`, without the optional features; a strategy whose planner
is not compiled in panics. -/
def synthesize (policy : Policy) (capsules : List CapsuleId) (fresh : CapsuleId)
    (slices : List Bytes) (fuel : Nat) : Option (Except Error ZonePlan) :=
  let size := policy.layout.strategy.defaultSegmentSize
  let plan := CpuFixed.buildPlan P size (capsuleIdFor capsules fresh) slices fuel
  match policy.layout.strategy with
  | .znsGraph _ _ => some (.error (.msg "ZNS feature disabled"))
  | .learned _ => some (.error (.msg "ML feature disabled"))
  | .quantumReady algo =>
    plan.map fun plan => .ok { plan with merkleRoot := some (computeMerkleRoot P slices algo) }
  | _ => plan.map .ok

/-- The planning of `write_capsule`: its chunks, laid out; `chunks` panics at size zero. -/
def planWrite (policy : Policy) (capsule fresh : CapsuleId) (data : Bytes) (fuel : Nat) :
    Option (Except Error ZonePlan) :=
  let chunkSize := policy.layout.strategy.defaultSegmentSize
  if chunkSize = 0 then some (.error (.msg "chunk size must be non-zero"))
  else synthesize P policy [capsule] fresh (chunks chunkSize data) fuel

/-! ### Termination -/

variable {P} {n cursor start fuel : Nat} {capsule : CapsuleId} {data : Bytes}
  {slices : List Bytes}

namespace CpuFixed
variable {b : Building}

theorem fillSlice_done (h : data.length ≤ start) :
    fillSlice P n capsule data cursor fuel start b = some b := by
  unfold fillSlice
  exact if_neg (Nat.not_lt.mpr h)

/-- One pass. -/
theorem fillSlice_pass (h : start < data.length) :
    fillSlice P n capsule data cursor (fuel + 1) start b =
      fillSlice P n capsule data cursor fuel (start + take n start data)
        (b.place n ⟨capsule, cursor + start, take n start data,
          hashContent P (slice data start (take n start data))⟩) := by
  rw [fillSlice]
  exact if_pos h

/-- **A pass takes a byte at least**, if the segment size is not zero. -/
theorem take_pos_iff (h : start < data.length) : 0 < take n start data ↔ n ≠ 0 := by
  unfold take
  omega

/-- The measure is what is left of the slice. -/
theorem fillSlice_returns (hn : n ≠ 0) (h : data.length - start ≤ fuel) :
    ∃ b', fillSlice P n capsule data cursor fuel start b = some b' := by
  induction fuel generalizing start b with
  | zero => exact ⟨b, fillSlice_done (by omega)⟩
  | succ fuel ih =>
      by_cases hs : start < data.length
      · have hpos := (take_pos_iff hs).mpr hn
        rw [fillSlice_pass hs]
        exact ih (by omega)
      · exact ⟨b, fillSlice_done (Nat.not_lt.mp hs)⟩

/-- Of size zero, a segment takes nothing. -/
theorem fillSlice_zero (h : start < data.length) :
    fillSlice P 0 capsule data cursor fuel start b = none := by
  induction fuel generalizing b with
  | zero =>
      rw [fillSlice]
      exact if_pos h
  | succ fuel ih =>
      rw [fillSlice_pass h, show take 0 start data = 0 from Nat.min_zero _]
      exact ih

theorem fillSlices_returns (h : n ≠ 0 ∨ ∀ data ∈ slices, data = [])
    (hfuel : ∀ data ∈ slices, data.length ≤ fuel) :
    ∃ b', fillSlices P n capsule fuel slices cursor b = some b' := by
  induction slices generalizing cursor b with
  | nil => exact ⟨b, rfl⟩
  | cons data slices ih =>
      have hfirst : ∃ b', fillSlice P n capsule data cursor fuel 0 b = some b' := by
        rcases h with hn | hnil
        · exact fillSlice_returns hn (hfuel data List.mem_cons_self)
        · rw [hnil data List.mem_cons_self]
          exact ⟨b, fillSlice_done (Nat.le_refl _)⟩
      obtain ⟨b', hb'⟩ := hfirst
      have hrest : ∃ b'', fillSlices P n capsule fuel slices (cursor + data.length) b' = some b'' :=
        ih (h.imp_right fun hnil data hd => hnil data (List.mem_cons_of_mem _ hd))
          fun data hd => hfuel data (List.mem_cons_of_mem _ hd)
      rw [fillSlices, hb']
      exact hrest

theorem fillSlices_zero (hd : data ∈ slices) (hne : data ≠ []) :
    fillSlices P 0 capsule fuel slices cursor b = none := by
  induction slices generalizing cursor b with
  | nil => exact absurd hd List.not_mem_nil
  | cons data' slices ih =>
      rw [fillSlices]
      by_cases h' : data' = []
      · subst h'
        have hdone : fillSlice P 0 capsule [] cursor fuel 0 b = some b :=
          fillSlice_done (Nat.le_refl 0)
        rw [hdone]
        exact ih ((List.mem_cons.mp hd).resolve_left hne)
      · rw [fillSlice_zero (List.length_pos_iff.mpr h')]
        rfl

/-- **When the planner returns.** -/
theorem buildPlan_returns_iff (P : Primitives) (n : Nat) (capsule : CapsuleId)
    (slices : List Bytes) : (∃ fuel plan, buildPlan P n capsule slices fuel = some plan) ↔
      n ≠ 0 ∨ ∀ data ∈ slices, data = [] := by
  constructor
  · rintro ⟨fuel, plan, h⟩
    by_contra hnot
    obtain ⟨hn, hne⟩ := not_or.mp hnot
    obtain rfl := not_not.mp hn
    obtain ⟨data, hd, hne⟩ : ∃ data ∈ slices, data ≠ [] := by
      by_contra hall
      exact hne fun data hd => not_not.mp fun k => hall ⟨data, hd, k⟩
    rw [buildPlan, fillSlices_zero hd hne] at h
    cases h
  · intro h
    obtain ⟨b, hb⟩ : ∃ b, fillSlices P n capsule slices.flatten.length slices 0 .init = some b :=
      fillSlices_returns h fun data hd => (List.sublist_flatten_of_mem hd).length_le
    refine ⟨slices.flatten.length, ?_⟩
    rw [buildPlan, hb]
    exact ⟨_, rfl⟩

end CpuFixed

variable (P) (policy : Policy) (capsules : List CapsuleId) (fresh : CapsuleId)

/-- The engine returns a plan when its planner does. -/
theorem synthesize_returns_iff (hcpu : IsCpu policy.layout.strategy) (slices : List Bytes) :
    (∃ fuel plan, synthesize P policy capsules fresh slices fuel = some (.ok plan)) ↔
      policy.layout.strategy.defaultSegmentSize ≠ 0 ∨ ∀ data ∈ slices, data = [] := by
  refine Iff.trans ?_ (CpuFixed.buildPlan_returns_iff P _ (capsuleIdFor capsules fresh) slices)
  have hmap : ∀ (o : Option ZonePlan) (f : ZonePlan → ZonePlan),
      (∃ plan, (o.map fun p => (Except.ok (f p) : Except Error ZonePlan)) = some (.ok plan)) ↔
        ∃ plan, o = some plan := by
    intro o f
    constructor
    · rintro ⟨plan, h⟩
      obtain ⟨plan', h', -⟩ := Option.map_eq_some_iff.mp h
      exact ⟨plan', h'⟩
    · rintro ⟨plan, rfl⟩
      exact ⟨f plan, rfl⟩
  refine exists_congr fun fuel => ?_
  unfold synthesize
  generalize policy.layout.strategy = strategy at hcpu ⊢
  cases strategy with
  | znsGraph => exact hcpu.elim
  | learned => exact hcpu.elim
  | fixed => exact hmap _ id
  | adaptiveEntropy => exact hmap _ id
  | quantumReady algo =>
      exact hmap _ fun plan => { plan with merkleRoot := some (computeMerkleRoot P slices algo) }

/-- **When planning returns.**  A write is planned if and only if the segment size of its policy is
not zero; direct calls return for size zero only if there is nothing to lay out; and a pass of the
inner loop takes a byte if and only if the size is not zero. -/
theorem planning_returns_iff (hcpu : IsCpu policy.layout.strategy) :
    (∀ capsule data, (∃ fuel plan, planWrite P policy capsule fresh data fuel = some (.ok plan)) ↔
      policy.layout.strategy.defaultSegmentSize ≠ 0) ∧
    (∀ slices, (∃ fuel plan, synthesize P policy capsules fresh slices fuel = some (.ok plan)) ↔
      policy.layout.strategy.defaultSegmentSize ≠ 0 ∨ ∀ data ∈ slices, data = []) ∧
    (∀ start (data : Bytes), start < data.length →
      (0 < CpuFixed.take policy.layout.strategy.defaultSegmentSize start data ↔
        policy.layout.strategy.defaultSegmentSize ≠ 0)) := by
  refine ⟨fun capsule data => ⟨?_, fun hn => ?_⟩,
    synthesize_returns_iff P policy capsules fresh hcpu,
    fun start data h => CpuFixed.take_pos_iff h⟩
  · rintro ⟨fuel, plan, h⟩ hn
    rw [planWrite, if_pos hn] at h
    cases h
  · obtain ⟨fuel, plan, h⟩ := (synthesize_returns_iff P policy [capsule] fresh hcpu
      (chunks policy.layout.strategy.defaultSegmentSize data)).mpr (.inl hn)
    exact ⟨fuel, plan, (if_neg hn).trans h⟩

/-- The default policy. -/
theorem planning_returns_default :
    (∀ capsule data, (∃ fuel plan, planWrite .stored {} capsule ⟨0⟩ data fuel = some (.ok plan)) ↔
      4 * 1024 * 1024 ≠ 0) ∧
    (∀ slices, (∃ fuel plan, synthesize .stored {} [] ⟨0⟩ slices fuel = some (.ok plan)) ↔
      4 * 1024 * 1024 ≠ 0 ∨ ∀ data ∈ slices, data = []) ∧
    (∀ start (data : Bytes), start < data.length →
      (0 < CpuFixed.take (4 * 1024 * 1024) start data ↔ 4 * 1024 * 1024 ≠ 0)) :=
  planning_returns_iff .stored {} [] ⟨0⟩ trivial

/-- A segment size of zero, which a policy may ask for. -/
def zeroSized : Policy := { layout := { strategy := .fixed 0 } }

/-- One byte is never laid out. -/
theorem not_planning_returns : ¬ ∀ (P : Primitives) (policy : Policy) (fresh : CapsuleId),
    IsCpu policy.layout.strategy →
    (∀ capsule data, ∃ fuel plan, planWrite P policy capsule fresh data fuel = some (.ok plan)) ∧
    ∀ capsules slices, ∃ fuel plan,
      synthesize P policy capsules fresh slices fuel = some (.ok plan) := by
  intro h
  obtain ⟨fuel, plan, h⟩ := (h .stored zeroSized ⟨0⟩ trivial).2 [] [[7]]
  rcases (synthesize_returns_iff .stored zeroSized [] ⟨0⟩ trivial [[7]]).mp ⟨fuel, plan, h⟩ with
    h | h
  · exact h rfl
  · exact List.cons_ne_nil _ _ (h [7] (List.mem_singleton_self _))

/-! ### The plan of the modular write

It has the extents alone. -/

variable {P policy}

def SegmentRef.erase (segment : SegmentRef) : Space.SegmentRef := ⟨segment.offset, segment.length⟩

def Zone.erase (zone : Zone) : Space.Zone := ⟨zone.id, zone.segments.map SegmentRef.erase⟩

namespace CpuFixed

def Building.erase (b : Building) : PlanState :=
  ⟨b.zones.map Zone.erase, b.currentZone.erase, b.zoneUsage⟩

/-- The current zone has the identifier that is kept beside it. -/
def Building.Counted (b : Building) : Prop := b.currentZone.id = b.zoneId

theorem Building.erase_place {b : Building} (h : b.Counted) (segment : SegmentRef) :
    (b.place n segment).erase = Space.CpuFixed.place n segment.erase b.erase ∧
      (b.place n segment).Counted := by
  have h : b.currentZone.id = b.zoneId := h
  have hne : b.currentZone.segments.map SegmentRef.erase ++ [segment.erase] ≠ [] := by simp
  have hne' : b.currentZone.segments ++ [segment] ≠ [] := by simp
  unfold place Space.CpuFixed.place
  by_cases hfull : n ≤ b.zoneUsage + segment.length
  · rw [if_pos ⟨hfull, hne'⟩]
    refine ⟨?_, rfl⟩
    refine Eq.trans ?_ (if_pos ⟨hfull, hne⟩).symm
    simp [erase, Zone.erase, h]
  · rw [if_neg fun k => hfull k.1]
    refine ⟨?_, h⟩
    refine Eq.trans ?_ (if_neg fun k => hfull k.1).symm
    simp [erase, Zone.erase, SegmentRef.erase]

/-- With passes enough, and a segment size that is not zero, the cut-off of the modular plan does
not matter. -/
theorem erase_fillSlice {b b' : Building} {fuel' : Nat} (hn : n ≠ 0)
    (hf : data.length - start ≤ fuel') (hb : b.Counted)
    (h : fillSlice P n capsule data cursor fuel start b = some b') :
    Space.CpuFixed.placeSlice n cursor data.length fuel' start b.erase = b'.erase ∧
      b'.Counted := by
  induction fuel generalizing fuel' start b with
  | zero =>
      rw [fillSlice] at h
      split at h
      · cases h
      · next hs =>
          cases h
          cases fuel' with
          | zero => exact ⟨rfl, hb⟩
          | succ fuel' => exact ⟨if_neg hs, hb⟩
  | succ fuel ih =>
      by_cases hs : start < data.length
      · have hpos := (take_pos_iff hs).mpr hn
        rw [fillSlice_pass hs] at h
        obtain ⟨hplace, hb⟩ := Building.erase_place (n := n) hb ⟨capsule, cursor + start,
          take n start data, hashContent P (slice data start (take n start data))⟩
        cases fuel' with
        | zero => omega
        | succ fuel' =>
            have hf' : data.length - (start + take n start data) ≤ fuel' := by omega
            obtain ⟨h', hb'⟩ := ih hf' hb h
            refine ⟨?_, hb'⟩
            rw [hplace] at h'
            exact (if_pos hs).trans h'
      · rw [fillSlice_done (Nat.not_lt.mp hs)] at h
        cases h
        cases fuel' with
        | zero => exact ⟨rfl, hb⟩
        | succ fuel' => exact ⟨if_neg hs, hb⟩

theorem erase_fillSlices {b b' : Building} (hn : n ≠ 0) (hb : b.Counted)
    (h : fillSlices P n capsule fuel slices cursor b = some b') :
    (slices.foldl (fun acc slice =>
      (Space.CpuFixed.placeSlice n acc.2 slice.length slice.length 0 acc.1,
        acc.2 + slice.length)) (b.erase, cursor)).1 = b'.erase := by
  induction slices generalizing cursor b with
  | nil =>
      cases h
      rfl
  | cons data slices ih =>
      obtain ⟨b₁, h₁, h₂⟩ := Option.bind_eq_some_iff.mp h
      obtain ⟨he, hb₁⟩ := erase_fillSlice hn (Nat.sub_le data.length 0) hb h₁
      rw [List.foldl_cons]
      dsimp only
      rw [he]
      exact ih hb₁ h₂

/-- **The extents of the plan** are those of the plan of the modular write. -/
theorem erase_buildPlan {plan : ZonePlan} (hn : n ≠ 0)
    (h : buildPlan P n capsule slices fuel = some plan) :
    plan.zones.map Zone.erase = Space.CpuFixed.buildPlan n slices := by
  obtain ⟨b, hb, h⟩ := Option.bind_eq_some_iff.mp h
  cases h
  have hinit : Building.init.Counted := rfl
  have he := erase_fillSlices hn hinit hb
  unfold Space.CpuFixed.buildPlan
  rw [show ({} : PlanState) = Building.init.erase from rfl, he]
  show List.map Zone.erase (if b.currentZone.segments ≠ [] then _ else _) =
    if b.currentZone.segments.map SegmentRef.erase ≠ [] then _ else _
  by_cases hnil : b.currentZone.segments = []
  · rw [if_neg (not_not.mpr hnil), if_neg (not_not.mpr (by rw [hnil]; rfl))]
    rfl
  · rw [if_pos hnil, if_pos fun k => hnil (List.map_eq_nil_iff.mp k), List.map_append]
    rfl

end CpuFixed

/-- What planning a write answers, the modular write goes through. -/
theorem zonePlan_of_planWrite {capsule : CapsuleId} {fresh : CapsuleId}
    {r : Except Error ZonePlan} (h : planWrite P policy capsule fresh data fuel = some r) :
    zonePlan policy data = r.map fun plan => plan.zones.map Zone.erase := by
  unfold planWrite at h
  unfold zonePlan
  by_cases hn : policy.layout.strategy.defaultSegmentSize = 0
  · simp only [if_pos hn] at h ⊢
    cases h
    rfl
  · simp only [if_neg hn] at h ⊢
    unfold synthesize at h
    unfold LayoutEngine.synthesize
    generalize hs : policy.layout.strategy = strategy at h hn ⊢
    cases strategy with
    | znsGraph =>
        cases h
        rfl
    | learned =>
        cases h
        rfl
    | _ =>
        obtain ⟨plan, hp, rfl⟩ := Option.map_eq_some_iff.mp h
        exact congrArg Except.ok (CpuFixed.erase_buildPlan hn hp).symm

end Space.Layout

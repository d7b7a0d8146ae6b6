import Mathlib.Data.List.MinMax
import Space.Scaling.Compiler

/-!
# Scaling — Selection

Which nodes a new capsule is replicated to and which node a hot one is moved to, said of the nodes
of the mesh themselves.  The compiler lists the ids of the mesh and looks every id up again at each
filter; where the ids are distinct the filters are one filter over the nodes.

* `replicaTargets_eq`, `migrationTarget_eq`: what the two selections compute.
* `compileScalingActions_selects`: the selection is sound, complete and optimal.
* `transform_agrees_iff`: when the flag of a migration is the rule of the capsule, which marks what
  crosses a zone boundary.
-/

namespace Space

/-- A metro zone. -/
def ZoneId.IsMetro : ZoneId → Prop
  | .metro _ => True
  | _ => False

/-- Two metro zones or two geographic zones of one name. -/
def ZoneId.SameRegion : ZoneId → ZoneId → Prop
  | .metro n₁, .metro n₂ => n₁ = n₂
  | .geo n₁, .geo n₂ => n₁ = n₂
  | _, _ => False

/-- A sovereignty level lets data go from the zone `home` to `zone`. -/
def SovereigntyLevel.Lets (home zone : ZoneId) : SovereigntyLevel → Prop
  | .global => True
  | .zone => zone = home
  | .localOnly => False

instance : DecidablePred ZoneId.IsMetro
  | .metro _ => .isTrue trivial
  | .geo _ => .isFalse id
  | .edge _ => .isFalse id

instance (level : SovereigntyLevel) (home zone : ZoneId) : Decidable (level.Lets home zone) :=
  match level with
  | .global => .isTrue trivial
  | .zone => inferInstanceAs (Decidable (zone = home))
  | .localOnly => .isFalse id

instance : (z₁ z₂ : ZoneId) → Decidable (z₁.SameRegion z₂)
  | .metro n₁, .metro n₂ => inferInstanceAs (Decidable (n₁ = n₂))
  | .geo n₁, .geo n₂ => inferInstanceAs (Decidable (n₁ = n₂))
  | .metro _, .geo _ => .isFalse id
  | .metro _, .edge _ => .isFalse id
  | .geo _, .metro _ => .isFalse id
  | .geo _, .edge _ => .isFalse id
  | .edge _, _ => .isFalse id

/-- A node a new capsule may be replicated to, seen from the zone `home`. -/
structure NodeInfo.TakesReplica (policy : Policy) (home : ZoneId) (info : NodeInfo) : Prop where
  lets : policy.sovereignty.Lets home info.zone
  metro : policy.latencyTarget < fromMillis 2 → info.zone.IsMetro
  region : fromMillis 2 ≤ policy.latencyTarget → policy.latencyTarget < fromMillis 100 →
    home.SameRegion info.zone
  room : 1000000 ≤ info.availableBytes

/-- A node a hot capsule may be moved to. -/
structure NodeInfo.TakesMigration (policy : Policy) (home : ZoneId) (info : NodeInfo) : Prop where
  lets : policy.sovereignty.Lets home info.zone
  metro : policy.latencyTarget < fromMillis 2 → info.zone.IsMetro
  room : 10000000 ≤ info.availableBytes

instance (policy : Policy) (home : ZoneId) (info : NodeInfo) :
    Decidable (info.TakesReplica policy home) :=
  decidable_of_iff
    (policy.sovereignty.Lets home info.zone ∧
      (policy.latencyTarget < fromMillis 2 → info.zone.IsMetro) ∧
      (fromMillis 2 ≤ policy.latencyTarget → policy.latencyTarget < fromMillis 100 →
        home.SameRegion info.zone) ∧
      1000000 ≤ info.availableBytes)
    ⟨fun ⟨a, b, c, d⟩ => ⟨a, b, c, d⟩, fun ⟨a, b, c, d⟩ => ⟨a, b, c, d⟩⟩

instance (policy : Policy) (home : ZoneId) (info : NodeInfo) :
    Decidable (info.TakesMigration policy home) :=
  decidable_of_iff
    (policy.sovereignty.Lets home info.zone ∧
      (policy.latencyTarget < fromMillis 2 → info.zone.IsMetro) ∧ 10000000 ≤ info.availableBytes)
    ⟨fun ⟨a, b, c⟩ => ⟨a, b, c⟩, fun ⟨a, b, c⟩ => ⟨a, b, c⟩⟩

/-- The used share of a node, in whole percent; a node of no capacity is empty. -/
def NodeInfo.usedPercent (info : NodeInfo) : Nat :=
  info.usedBytes * 100 / (info.availableBytes + info.usedBytes)

/-- `SwarmBehavior::requires_transform` of a capsule, which looks at the zones only. -/
def Capsule.requiresTransform (_c : Capsule) (sourceZone destZone : ZoneId) : Bool :=
  decide (sourceZone ≠ destZone)

theorem Capsule.requiresTransform_eq_false_iff {c : Capsule} {sourceZone destZone : ZoneId} :
    c.requiresTransform sourceZone destZone = false ↔ sourceZone = destZone := by
  simp [Capsule.requiresTransform]

namespace MeshState
variable (m : MeshState)

/-- No id is listed twice. -/
def Distinct : Prop := m.availableNodes.Nodup

instance : Decidable m.Distinct := inferInstanceAs (Decidable (List.Nodup _))

/-- The nodes that pass a test, as the mesh lists them. -/
def idsOf (p : NodeInfo → Prop) [DecidablePred p] : List NodeId :=
  (m.nodes.filter fun n => decide (p n.2)).map Prod.fst

end MeshState

/-! ### An id is looked up where it is listed -/

namespace MeshState
variable {m : MeshState}

/-- In a list of distinct keys a pair is found by its key. -/
theorem find?_fst_of_nodup {l : List (NodeId × NodeInfo)} (h : (l.map Prod.fst).Nodup)
    {n : NodeId × NodeInfo} (hn : n ∈ l) : (l.find? fun p => p.1 = n.1) = some n := by
  induction l with
  | nil => cases hn
  | cons a l ih =>
      obtain ⟨ha, hl⟩ := List.nodup_cons.mp h
      rcases List.mem_cons.mp hn with rfl | hn
      · simp
      · have hne : a.1 ≠ n.1 := fun e => ha (e ▸ List.mem_map_of_mem hn)
        rw [List.find?_cons_of_neg (by simpa using hne)]
        exact ih hl hn

theorem info_of_mem (h : m.Distinct) {n : NodeId × NodeInfo} (hn : n ∈ m.nodes) :
    m.info n.1 = some n.2 := by
  unfold info
  rw [find?_fst_of_nodup h hn]
  rfl

/-- The ids that pass a test by lookup are those of the nodes that pass it. -/
theorem filter_availableNodes {f : NodeId → Bool} {p : NodeInfo → Prop}
    [DecidablePred p] (hf : ∀ n ∈ m.nodes, f n.1 = decide (p n.2)) :
    m.availableNodes.filter f = m.idsOf p := by
  unfold availableNodes idsOf
  rw [List.filter_map]
  exact congrArg _ (List.filter_congr hf)

section
variable (h : m.Distinct) {n : NodeId × NodeInfo} (hn : n ∈ m.nodes)
include h hn

theorem satisfiesSovereignty_of_mem {level : SovereigntyLevel} :
    m.satisfiesSovereignty n.1 level = decide (level.Lets m.localZone n.2.zone) := by
  cases level with
  | global => rfl
  | localOnly => rfl
  | zone =>
      unfold satisfiesSovereignty
      rw [info_of_mem h hn]
      rfl

theorem isMetroZone_of_mem : m.isMetroZone n.1 = decide n.2.zone.IsMetro := by
  unfold isMetroZone
  rw [info_of_mem h hn, Option.any_some]
  cases n.2.zone <;> rfl

theorem isSameGeoRegion_of_mem :
    m.isSameGeoRegion n.1 = decide (m.localZone.SameRegion n.2.zone) := by
  unfold isSameGeoRegion
  rw [info_of_mem h hn, Option.any_some]
  cases m.localZone <;> cases n.2.zone <;> rfl

theorem hasCapacity_of_mem {bytes : Nat} :
    m.hasCapacity n.1 bytes = decide (bytes ≤ n.2.availableBytes) := by
  unfold hasCapacity
  rw [info_of_mem h hn, Option.any_some]

theorem utilization_of_mem (hsum : n.2.availableBytes + n.2.usedBytes < 18446744073709551616)
    (hpct : n.2.usedBytes * 100 < 18446744073709551616) :
    m.utilization n.1 = n.2.usedPercent := by
  have hmod : ∀ k, k < 18446744073709551616 → asU64 k = k := fun k hk => Nat.mod_eq_of_lt hk
  unfold utilization NodeInfo.usedPercent
  rw [info_of_mem h hn]
  simp only [hmod _ hsum, hmod _ hpct]
  split
  · next h₀ => rw [h₀, Nat.div_zero]
  · rfl

end

end MeshState

namespace PolicyCompiler
variable {m : MeshState} {policy : Policy}

theorem minByKey_eq_argmin {α : Type} (key : α → Nat) (l : List α) :
    minByKey key l = l.argmin key := by
  induction l with
  | nil => rfl
  | cons a l ih =>
      unfold minByKey
      rw [ih, List.argmin_cons]
      cases l.argmin key <;> rfl

/-- **The targets of a replication**: the first two nodes that take a replica. -/
theorem replicaTargets_eq (h : m.Distinct) : selectReplicationTargets policy m =
    (m.idsOf fun info => info.TakesReplica policy m.localZone).take 2 := by
  unfold selectReplicationTargets
  dsimp only
  by_cases h₂ : policy.latencyTarget < fromMillis 2
  · -- below 2 ms only the metro test is made
    rw [if_pos h₂, List.filter_filter, List.filter_filter, MeshState.filter_availableNodes
        (p := fun info => info.TakesReplica policy m.localZone)]
    intro n hn
    rw [MeshState.hasCapacity_of_mem h hn, MeshState.isMetroZone_of_mem h hn,
      MeshState.satisfiesSovereignty_of_mem h hn, ← Bool.decide_and, ← Bool.decide_and,
      decide_eq_decide]
    exact ⟨fun ⟨⟨room, metro⟩, lets⟩ => ⟨lets, fun _ => metro,
      fun h => absurd h₂ (Nat.not_lt.mpr h), room⟩, fun t => ⟨⟨t.room, t.metro h₂⟩, t.lets⟩⟩
  · by_cases h₁₀₀ : policy.latencyTarget < fromMillis 100
    · -- below 100 ms only that of the region
      rw [if_neg h₂, if_pos h₁₀₀, List.filter_filter, List.filter_filter,
        MeshState.filter_availableNodes
        (p := fun info => info.TakesReplica policy m.localZone)]
      intro n hn
      rw [MeshState.hasCapacity_of_mem h hn, MeshState.isSameGeoRegion_of_mem h hn,
        MeshState.satisfiesSovereignty_of_mem h hn, ← Bool.decide_and, ← Bool.decide_and,
        decide_eq_decide]
      exact ⟨fun ⟨⟨room, region⟩, lets⟩ => ⟨lets, fun h => absurd h h₂, fun _ _ => region, room⟩,
        fun t => ⟨⟨t.room, t.region (Nat.not_lt.mp h₂) h₁₀₀⟩, t.lets⟩⟩
    · rw [if_neg h₂, if_neg h₁₀₀, List.filter_filter, MeshState.filter_availableNodes
        (p := fun info => info.TakesReplica policy m.localZone)]
      intro n hn
      rw [MeshState.hasCapacity_of_mem h hn, MeshState.satisfiesSovereignty_of_mem h hn,
        ← Bool.decide_and, decide_eq_decide]
      exact ⟨fun ⟨room, lets⟩ => ⟨lets, fun h => absurd h h₂, fun _ h => absurd h h₁₀₀, room⟩,
        fun t => ⟨t.room, t.lets⟩⟩

/-- **The destination of a migration**: the least used of the nodes that take it, and the first of
these in the mesh. -/
theorem migrationTarget_eq (h : m.Distinct) : selectMigrationTarget policy m =
    (m.idsOf fun info => info.TakesMigration policy m.localZone).argmin m.utilization := by
  unfold selectMigrationTarget
  dsimp only
  rw [minByKey_eq_argmin]
  by_cases h₂ : policy.latencyTarget < fromMillis 2
  · rw [if_pos h₂, List.filter_filter, List.filter_filter, MeshState.filter_availableNodes
      (p := fun info => info.TakesMigration policy m.localZone)]
    intro n hn
    rw [MeshState.hasCapacity_of_mem h hn, MeshState.isMetroZone_of_mem h hn,
      MeshState.satisfiesSovereignty_of_mem h hn, ← Bool.decide_and, ← Bool.decide_and,
      decide_eq_decide]
    exact ⟨fun ⟨⟨room, metro⟩, lets⟩ => ⟨lets, fun _ => metro, room⟩,
      fun t => ⟨⟨t.room, t.metro h₂⟩, t.lets⟩⟩
  · rw [if_neg h₂, List.filter_filter, MeshState.filter_availableNodes
      (p := fun info => info.TakesMigration policy m.localZone)]
    intro n hn
    rw [MeshState.hasCapacity_of_mem h hn, MeshState.satisfiesSovereignty_of_mem h hn,
      ← Bool.decide_and, decide_eq_decide]
    exact ⟨fun ⟨room, lets⟩ => ⟨lets, fun h => absurd h h₂, room⟩, fun t => ⟨t.room, t.lets⟩⟩

/-- **What a new capsule yields.** -/
theorem compile_newCapsule {F : Type} (T : CapacityTests F) (h : m.Distinct) (id : CapsuleId)
    (p : Policy) (nodeId : Option NodeId) :
    compileScalingActions T (.newCapsule id p nodeId) policy m =
      if policy.rpo < fromSecs 60 ∧ ∃ n ∈ m.nodes, n.2.TakesReplica policy m.localZone then
        [.replicate id (replicationStrategy policy.rpo)
          ((m.idsOf fun info => info.TakesReplica policy m.localZone).take 2)]
      else [] := by
  have hnil : (m.idsOf fun info => info.TakesReplica policy m.localZone).take 2 = [] ↔
      ¬ ∃ n ∈ m.nodes, n.2.TakesReplica policy m.localZone := by
    simp [MeshState.idsOf]
  unfold compileScalingActions
  rw [validateSovereignty_eq]
  unfold compileEvent compileReplicationStrategy
  simp only [replicationStrategy_eq_none_iff, replicaTargets_eq h, hnil]
  by_cases hr : policy.rpo < fromSecs 60
  · by_cases he : ∃ n ∈ m.nodes, n.2.TakesReplica policy m.localZone
    · rw [if_neg (not_not_intro hr), if_neg (not_not_intro he), if_pos ⟨hr, he⟩]
    · rw [if_neg (not_not_intro hr), if_pos he, if_neg fun k => he k.2]
  · rw [if_pos hr, if_neg fun k => hr k.1]

/-- **What a heat spike yields.** -/
theorem compile_heatSpike {F : Type} (T : CapacityTests F) (h : m.Distinct) (id : CapsuleId)
    (accesses : Nat) (nodeId : Option NodeId) :
    compileScalingActions T (.heatSpike id accesses nodeId) policy m =
      if 100 < accesses ∧ policy.latencyTarget < fromMillis 10 then
        ((m.idsOf fun info => info.TakesMigration policy m.localZone).argmin
          m.utilization).toList.map fun destination =>
            .migrate id ("heat_spike_" ++ toString accesses ++ "_accesses_per_min") destination
              (m.requiresTransformation destination policy)
      else [] := by
  unfold compileScalingActions
  rw [validateSovereignty_eq]
  unfold compileEvent compileMigrationForHeat
  simp only [migrationTarget_eq h]
  by_cases ha : accesses ≤ 100
  · rw [if_pos ha, if_neg fun k => Nat.not_lt.mpr ha k.1]
  · by_cases hl : fromMillis 10 ≤ policy.latencyTarget
    · rw [if_neg ha, if_pos hl, if_neg fun k => Nat.not_lt.mpr hl k.2]
    · rw [if_neg ha, if_neg hl, if_pos ⟨Nat.not_le.mp ha, Nat.not_le.mp hl⟩]
      cases (m.idsOf fun info => info.TakesMigration policy m.localZone).argmin m.utilization <;>
        rfl

theorem mem_idsOf {p : NodeInfo → Prop} [DecidablePred p] {i : NodeId} :
    i ∈ m.idsOf p ↔ ∃ info, (i, info) ∈ m.nodes ∧ p info := by
  simp [MeshState.idsOf]

theorem idsOf_nodup (h : m.Distinct) (p : NodeInfo → Prop) [DecidablePred p] :
    (m.idsOf p).Nodup :=
  h.sublist (List.filter_sublist.map Prod.fst)

/-- **Target selection**, over a mesh of distinct nodes whose capacities fit the machine's words.
A new capsule is replicated, once, iff its policy asks for it and some node takes a replica, and the
targets are the first two such nodes.  A hot capsule is moved, once, iff it is hot enough for its
policy and some node takes it, and no node that takes it is used less than its destination. -/
theorem compileScalingActions_selects {F : Type} (T : CapacityTests F) (policy : Policy)
    (m : MeshState) (h : m.Distinct)
    (hsum : ∀ n ∈ m.nodes, n.2.availableBytes + n.2.usedBytes < 18446744073709551616)
    (hpct : ∀ n ∈ m.nodes, n.2.usedBytes * 100 < 18446744073709551616)
    (id : CapsuleId) (nodeId : Option NodeId) :
    (∀ p,
      ((∃ strategy targets, compileScalingActions T (.newCapsule id p nodeId) policy m =
          [.replicate id strategy targets]) ↔
        policy.rpo < fromSecs 60 ∧ ∃ n ∈ m.nodes, n.2.TakesReplica policy m.localZone) ∧
      (compileScalingActions T (.newCapsule id p nodeId) policy m = [] ∨
        ∃ strategy targets, compileScalingActions T (.newCapsule id p nodeId) policy m =
          [.replicate id strategy targets] ∧ targets.Nodup ∧
          targets = (m.idsOf fun info => info.TakesReplica policy m.localZone).take 2)) ∧
    ∀ accesses,
      ((∃ reason destination transform, compileScalingActions T (.heatSpike id accesses nodeId)
          policy m = [.migrate id reason destination transform]) ↔
        100 < accesses ∧ policy.latencyTarget < fromMillis 10 ∧
          ∃ n ∈ m.nodes, n.2.TakesMigration policy m.localZone) ∧
      (compileScalingActions T (.heatSpike id accesses nodeId) policy m = [] ∨
        ∃ reason destination info transform,
          compileScalingActions T (.heatSpike id accesses nodeId) policy m =
            [.migrate id reason destination transform] ∧
          (destination, info) ∈ m.nodes ∧ info.TakesMigration policy m.localZone ∧
          ∀ n ∈ m.nodes, n.2.TakesMigration policy m.localZone →
            info.usedPercent ≤ n.2.usedPercent) := by
  refine ⟨fun p => ?_, fun accesses => ?_⟩
  · rw [compile_newCapsule T h]
    split
    · next hc =>
        exact ⟨iff_of_true ⟨_, _, rfl⟩ hc, .inr ⟨_, _, rfl,
          (idsOf_nodup h _).sublist (List.take_sublist _ _), rfl⟩⟩
    · next hc => exact ⟨iff_of_false (by rintro ⟨_, _, e⟩; cases e) hc, .inl rfl⟩
  · rw [compile_heatSpike T h]
    split
    · next hc =>
        cases ht : (m.idsOf fun info => info.TakesMigration policy m.localZone).argmin
            m.utilization with
        | none =>
            -- nothing takes the capsule
            refine ⟨iff_of_false (by rintro ⟨_, _, _, e⟩; cases e) ?_, .inl rfl⟩
            rintro ⟨_, _, n, hn, hm⟩
            have hin : n.1 ∈ m.idsOf fun info => info.TakesMigration policy m.localZone :=
              mem_idsOf.mpr ⟨n.2, hn, hm⟩
            rw [List.argmin_eq_none.mp ht] at hin
            cases hin
        | some destination =>
            obtain ⟨info, hi, hm⟩ := mem_idsOf.mp (List.argmin_mem ht)
            refine ⟨iff_of_true ⟨_, _, _, rfl⟩ ⟨hc.1, hc.2, _, hi, hm⟩,
              .inr ⟨_, _, info, _, rfl, hi, hm, fun n hn hm' => ?_⟩⟩
            rw [← MeshState.utilization_of_mem h hi (hsum _ hi) (hpct _ hi),
              ← MeshState.utilization_of_mem h hn (hsum n hn) (hpct n hn)]
            exact List.le_of_mem_argmin (mem_idsOf.mpr ⟨n.2, hn, hm'⟩) ht
    · next hc =>
        exact ⟨iff_of_false (by rintro ⟨_, _, _, e⟩; cases e) fun k => hc ⟨k.1, k.2.1⟩, .inl rfl⟩

/-- Two metro nodes, the first the fuller one. -/
def twoMetros : MeshState :=
  ⟨[(⟨1⟩, ⟨.metro "a", 50000000, 50000000⟩), (⟨2⟩, ⟨.metro "a", 90000000, 10000000⟩)], .metro "a"⟩

/-- A hot capsule under metro-sync goes to the emptier node. -/
theorem compileScalingActions_selects_twoMetros :
    ∃ reason destination info transform,
      compileScalingActions (F := Unit)
          ⟨fun _ _ _ => false, fun _ _ => false, fun _ _ => false⟩ (.heatSpike ⟨0⟩ 500 none)
          Policy.metroSync twoMetros = [.migrate ⟨0⟩ reason destination transform] ∧
      (destination, info) ∈ twoMetros.nodes ∧
      info.TakesMigration Policy.metroSync twoMetros.localZone ∧
      ∀ n ∈ twoMetros.nodes, n.2.TakesMigration Policy.metroSync twoMetros.localZone →
        info.usedPercent ≤ n.2.usedPercent :=
  ((compileScalingActions_selects (F := Unit) _ Policy.metroSync twoMetros (by decide) (by decide)
    (by decide) ⟨0⟩ none).2 500).2.resolve_left (by decide)

/-! ### The flag of a migration -/

/-- A mesh whose least used node is in another zone. -/
def awayMesh : MeshState := ⟨[(⟨1⟩, ⟨.metro "b", 100000000, 0⟩)], .metro "a"⟩

/-- Zone sovereignty has taken every other zone out when the flag is computed, and the other levels
never set it: what is moved is never marked. -/
theorem requiresTransformation_eq_false (h : m.Distinct) {n : NodeId × NodeInfo}
    (hn : n ∈ m.nodes) (hm : n.2.TakesMigration policy m.localZone) :
    m.requiresTransformation n.1 policy = false := by
  unfold MeshState.requiresTransformation
  rw [MeshState.info_of_mem h hn, Option.any_some]
  cases hs : policy.sovereignty with
  | global => rfl
  | localOnly => rfl
  | zone =>
      have hz : n.2.zone = m.localZone := by
        have hlets := hm.lets
        rw [hs] at hlets
        exact hlets
      simp [hz]

/-- The node a hot capsule is moved to is in another zone: only global sovereignty allows it, and
the least used of the nodes that take the capsule decides. -/
def MovesAway (accesses : Nat) (policy : Policy) (m : MeshState) : Prop :=
  100 < accesses ∧ policy.latencyTarget < fromMillis 10 ∧ policy.sovereignty = .global ∧
    ∃ n ∈ m.nodes, n.1 ∈ (m.idsOf fun info => info.TakesMigration policy m.localZone).argmin
      m.utilization ∧ n.2.zone ≠ m.localZone

/-- **The flag of a migration** is the rule of the capsule unless the capsule moves away. -/
theorem transform_agrees_iff {F : Type} (T : CapacityTests F) (c : Capsule) (accesses : Nat)
    (nodeId : Option NodeId) (policy : Policy) (m : MeshState) (h : m.Distinct) :
    (∀ id reason destination transform info,
      .migrate id reason destination transform ∈
          compileScalingActions T (.heatSpike c.id accesses nodeId) policy m →
        (destination, info) ∈ m.nodes →
          transform = c.requiresTransform m.localZone info.zone) ↔
      ¬ MovesAway accesses policy m := by
  rw [compile_heatSpike T h]
  constructor
  · rintro hall ⟨ha, hl, hg, n, hn, ht, hz⟩
    rw [if_pos ⟨ha, hl⟩, Option.mem_def.mp ht] at hall
    have hflag := hall _ _ _ _ n.2 (List.mem_singleton_self _) hn
    obtain ⟨info, hi, hm⟩ := mem_idsOf.mp (List.argmin_mem ht)
    rw [requiresTransformation_eq_false h hi hm] at hflag
    exact hz (Capsule.requiresTransform_eq_false_iff.mp hflag.symm).symm
  · intro hno id reason destination transform info ha hin
    split at ha
    · next hc =>
        cases ht : (m.idsOf fun info => info.TakesMigration policy m.localZone).argmin
            m.utilization with
        | none =>
            rw [ht] at ha
            cases ha
        | some d =>
            rw [ht] at ha
            cases List.mem_singleton.mp ha
            obtain ⟨info', hi, hm⟩ := mem_idsOf.mp (List.argmin_mem ht)
            obtain rfl : info' = info :=
              Option.some.inj
                ((MeshState.info_of_mem h hi).symm.trans (MeshState.info_of_mem h hin))
            rw [requiresTransformation_eq_false h hi hm]
            refine (Capsule.requiresTransform_eq_false_iff.mpr ?_).symm
            -- sovereignty lets data go to the local zone only, unless it is global
            by_contra hz
            have hlets := hm.lets
            cases hs : policy.sovereignty with
            | localOnly => rw [hs] at hlets; exact hlets
            | zone => rw [hs] at hlets; exact hz hlets.symm
            | global =>
                exact hno ⟨hc.1, hc.2, hs, _, hi, ht, fun e => hz e.symm⟩
    · cases ha

/-- Inside one zone the two agree. -/
theorem transform_agrees_iff_twoMetros :
    Capsule.requiresTransform ⟨⟨0⟩, 0, [], {}, 0⟩ twoMetros.localZone (.metro "a") = false :=
  ((transform_agrees_iff (F := Unit)
      ⟨fun _ _ _ => false, fun _ _ => false, fun _ _ => false⟩ ⟨⟨0⟩, 0, [], {}, 0⟩ 500 none
      Policy.metroSync twoMetros (by decide)).mpr (fun k => by cases k.2.2.1) ⟨0⟩
    "heat_spike_500_accesses_per_min" ⟨2⟩ false ⟨.metro "a", 90000000, 10000000⟩
    (by decide) (by decide)).symm

/-- A hot capsule under global sovereignty leaves its zone unmarked. -/
theorem not_transform_agrees :
    ¬ ∀ (F : Type) (T : CapacityTests F) (c : Capsule) (accesses : Nat) (nodeId : Option NodeId)
      (policy : Policy) (m : MeshState), m.Distinct →
      ∀ id reason destination transform info,
        .migrate id reason destination transform ∈
            compileScalingActions T (.heatSpike c.id accesses nodeId) policy m →
          (destination, info) ∈ m.nodes →
            transform = c.requiresTransform m.localZone info.zone := by
  intro hall
  let T : CapacityTests Unit := ⟨fun _ _ _ => false, fun _ _ => false, fun _ _ => false⟩
  have hflag := hall Unit T ⟨⟨0⟩, 0, [], {}, 0⟩ 500 none
    { latencyTarget := fromMillis 5, sovereignty := .global } awayMesh (by decide) ⟨0⟩
    "heat_spike_500_accesses_per_min" ⟨1⟩ false ⟨.metro "b", 100000000, 0⟩ (by decide) (by decide)
  exact absurd hflag (by decide)

end PolicyCompiler

end Space

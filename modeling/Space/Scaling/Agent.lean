import Space.Scaling.Compiler

/-!
# Scaling — Agent

The scaling agent: it feeds each telemetry event to the policy compiler, over a snapshot of the
mesh in which every peer it discovers has its own zone and the same capacities.  Only a new
capsule brings its policy along; every other event is compiled under metro-sync.

* `handle_newCapsule`, `handle_heatSpike`: the one action of such an event, if there is one.
* `nodes_handle`: no other event's actions name a node that is to receive data.

The executors of the actions only log.
-/

namespace Space

/-- A node of the mesh. -/
structure MeshNode where
  id : NodeId
  zone : ZoneId
  deriving DecidableEq, Repr

namespace ScalingAgent
variable {F : Type} (T : CapacityTests F) (node : MeshNode) (peers : List NodeId)

/-- The policy of an event. -/
def eventPolicy : Telemetry F → Policy
  | .newCapsule _ policy _ => policy
  | _ => Policy.metroSync

/-- `build_mesh_state`, over the peers in the order `discover_peers` lists them. -/
def buildMeshState : MeshState where
  nodes := peers.map fun peerId => (peerId, ⟨node.zone, 1000000000, 100000000⟩)
  localZone := node.zone

/-- `handle_telemetry_event`: the actions that are executed. -/
def handleTelemetryEvent (event : Telemetry F) : List ScalingAction :=
  PolicyCompiler.compileScalingActions T event (eventPolicy event) (buildMeshState node peers)

/-- The latency target admits replicas in a zone of this kind. -/
def latencyAdmits (latencyTarget : Nat) : ZoneId → Bool
  | .metro _ => true
  | .geo _ => decide (fromMillis 2 ≤ latencyTarget)
  | .edge _ => decide (fromMillis 100 ≤ latencyTarget)

end ScalingAgent

/-! ### What the actions name -/

namespace ScalingAgent
variable {F : Type} {T : CapacityTests F} {node : MeshNode} {peers : List NodeId}

theorem info_buildMeshState {n : NodeId} (h : n ∈ peers) :
    (buildMeshState node peers).info n = some ⟨node.zone, 1000000000, 100000000⟩ := by
  unfold MeshState.info buildMeshState
  induction peers with
  | nil => cases h
  | cons p l ih =>
      rw [List.map_cons, List.find?_cons]
      by_cases hp : p = n
      · simp [hp]
      · simpa [hp] using ih ((List.mem_cons.mp h).resolve_left (Ne.symm hp))

theorem availableNodes_buildMeshState :
    (buildMeshState node peers).availableNodes = peers := by
  unfold MeshState.availableNodes buildMeshState
  rw [List.map_map]
  exact List.map_id peers

@[simp] theorem localZone_buildMeshState :
    (buildMeshState node peers).localZone = node.zone := rfl

section
variable {n : NodeId} (h : n ∈ peers)
include h

theorem satisfiesSovereignty_buildMeshState {level : SovereigntyLevel} :
    (buildMeshState node peers).satisfiesSovereignty n level = decide (level ≠ .localOnly) := by
  cases level with
  | localOnly => rfl
  | zone => simp [MeshState.satisfiesSovereignty, info_buildMeshState h]
  | global => rfl

theorem hasCapacity_buildMeshState {k : Nat} (hk : k ≤ 1000000000) :
    (buildMeshState node peers).hasCapacity n k = true := by
  simp [MeshState.hasCapacity, info_buildMeshState h, hk]

theorem isMetroZone_buildMeshState :
    (buildMeshState node peers).isMetroZone n = latencyAdmits 0 node.zone := by
  unfold MeshState.isMetroZone
  rw [info_buildMeshState h]
  cases node.zone <;> simp [latencyAdmits] <;> decide

theorem isSameGeoRegion_buildMeshState :
    (buildMeshState node peers).isSameGeoRegion n = latencyAdmits (fromMillis 2) node.zone := by
  unfold MeshState.isSameGeoRegion
  rw [info_buildMeshState h, localZone_buildMeshState]
  cases node.zone <;> simp [latencyAdmits]
  decide

theorem utilization_buildMeshState : (buildMeshState node peers).utilization n = 9 := by
  unfold MeshState.utilization
  rw [info_buildMeshState h]
  simp [asU64]

end

/-- A test that does not depend on the peer keeps all of them or none. -/
theorem filter_peers {f : NodeId → Bool} {b : Bool} (h : ∀ n ∈ peers, f n = b) :
    peers.filter f = if b then peers else [] := by
  cases b with
  | true => exact List.filter_eq_self.mpr h
  | false => exact List.filter_eq_nil_iff.mpr fun n hn => by rw [h n hn]; exact Bool.false_ne_true

/-- **Where a new capsule is replicated to**: nowhere under local sovereignty, else to the first
two peers, if the latency target admits the zone. -/
theorem selectReplicationTargets_buildMeshState (policy : Policy) :
    PolicyCompiler.selectReplicationTargets policy (buildMeshState node peers) =
      if policy.sovereignty ≠ .localOnly ∧ latencyAdmits policy.latencyTarget node.zone then
        peers.take 2
      else [] := by
  unfold PolicyCompiler.selectReplicationTargets
  rw [availableNodes_buildMeshState,
    filter_peers fun n hn => satisfiesSovereignty_buildMeshState hn]
  by_cases hs : policy.sovereignty = .localOnly
  · simp [hs]
  simp only [hs, ne_eq, not_false_eq_true, decide_true, if_true, true_and]
  rw [filter_peers fun n hn => isMetroZone_buildMeshState hn,
    filter_peers fun n hn => isSameGeoRegion_buildMeshState hn]
  have hcap : (peers.filter fun n => (buildMeshState node peers).hasCapacity n 1000000) = peers :=
    List.filter_eq_self.mpr fun n hn => hasCapacity_buildMeshState hn (by decide)
  -- the two tests of the source are the latency classes below 2 ms and below 100 ms
  have hclass : latencyAdmits policy.latencyTarget node.zone =
      if policy.latencyTarget < fromMillis 2 then latencyAdmits 0 node.zone
      else if policy.latencyTarget < fromMillis 100 then latencyAdmits (fromMillis 2) node.zone
      else true := by
    have h : fromMillis 2 ≤ fromMillis 100 := by decide
    have h₂ : fromMillis 100 ≤ fromMillis 2 ↔ False := by decide
    have h₀ : fromMillis 2 ≤ 0 ↔ False := by decide
    have h₁ : fromMillis 100 ≤ 0 ↔ False := by decide
    cases node.zone with
    | metro name => simp [latencyAdmits]
    | geo name =>
        simp only [latencyAdmits, h₀, decide_false, Nat.le_refl, decide_true, ite_self]
        split
        · next hl => exact decide_eq_false (Nat.not_le.mpr hl)
        · next hl => exact decide_eq_true (Nat.not_lt.mp hl)
    | edge name =>
        simp only [latencyAdmits, h₁, h₂, decide_false]
        split
        · next hl => exact decide_eq_false (Nat.not_le.mpr (Nat.lt_of_lt_of_le hl h))
        · split
          · next hl => exact decide_eq_false (Nat.not_le.mpr hl)
          · next hl => exact decide_eq_true (Nat.not_lt.mp hl)
  rw [hclass]
  split
  · split <;> simp [hcap]
  · split
    · split <;> simp [hcap]
    · simp [hcap]

theorem minByKey_eq_head {α : Type} {key : α → Nat} {k : Nat} :
    ∀ {l : List α}, (∀ a ∈ l, key a = k) → minByKey key l = l.head?
  | [], _ => rfl
  | a :: l, h => by
      have hl := minByKey_eq_head fun b hb => h b (List.mem_cons_of_mem _ hb)
      unfold minByKey
      cases hm : minByKey key l with
      | none => rfl
      | some b =>
          have hb : key b = k := h b (List.mem_cons_of_mem _ (PolicyCompiler.mem_minByKey hm))
          have ha : key a = k := h a List.mem_cons_self
          simp [ha, hb]

/-- **A new capsule** is replicated at once or in batches, if its policy asks for it, lets it leave
and admits the zone. -/
theorem handle_newCapsule (id : CapsuleId) (policy : Policy) (nodeId : Option NodeId) :
    handleTelemetryEvent T node peers (.newCapsule id policy nodeId) =
      if policy.rpo < fromSecs 60 ∧ policy.sovereignty ≠ .localOnly ∧
          latencyAdmits policy.latencyTarget node.zone ∧ peers ≠ [] then
        [.replicate id (PolicyCompiler.replicationStrategy policy.rpo) (peers.take 2)]
      else [] := by
  unfold handleTelemetryEvent PolicyCompiler.compileScalingActions
  rw [PolicyCompiler.validateSovereignty_eq]
  unfold PolicyCompiler.compileEvent PolicyCompiler.compileReplicationStrategy eventPolicy
  simp only [PolicyCompiler.replicationStrategy_eq_none_iff,
    selectReplicationTargets_buildMeshState]
  by_cases hr : policy.rpo < fromSecs 60
  · by_cases hs : policy.sovereignty ≠ .localOnly ∧ latencyAdmits policy.latencyTarget node.zone
    · simp [hr, hs]
    · have hn : ¬ (policy.rpo < fromSecs 60 ∧ policy.sovereignty ≠ .localOnly ∧
          latencyAdmits policy.latencyTarget node.zone ∧ peers ≠ []) :=
        fun h => hs ⟨h.2.1, h.2.2.1⟩
      rw [if_neg (not_not_intro hr), if_neg hs, if_pos rfl, if_neg hn]
  · rw [if_pos hr, if_neg fun h => hr h.1]

/-- **A heat spike** moves the capsule to the first peer, whatever its policy. -/
theorem handle_heatSpike (id : CapsuleId) (accesses : Nat) (nodeId : Option NodeId) :
    handleTelemetryEvent T node peers (.heatSpike id accesses nodeId) =
      if accesses ≤ 100 then []
      else peers.head?.toList.map fun destination => .migrate id
        ("heat_spike_" ++ toString accesses ++ "_accesses_per_min") destination false := by
  have htarget : PolicyCompiler.selectMigrationTarget Policy.metroSync (buildMeshState node peers) =
      peers.head? := by
    unfold PolicyCompiler.selectMigrationTarget
    rw [availableNodes_buildMeshState,
      filter_peers fun n hn => satisfiesSovereignty_buildMeshState hn]
    have hcap :
        (peers.filter fun n => (buildMeshState node peers).hasCapacity n 10000000) = peers :=
      List.filter_eq_self.mpr fun n hn => hasCapacity_buildMeshState hn (by decide)
    have hz : decide (Policy.metroSync.sovereignty ≠ .localOnly) = true := rfl
    have hl : ¬ Policy.metroSync.latencyTarget < fromMillis 2 := by decide
    simp only [hz, if_true, if_neg hl, hcap]
    exact minByKey_eq_head fun n hn => utilization_buildMeshState hn
  unfold handleTelemetryEvent PolicyCompiler.compileScalingActions
  rw [PolicyCompiler.validateSovereignty_eq]
  unfold PolicyCompiler.compileEvent PolicyCompiler.compileMigrationForHeat eventPolicy
  have hlat : ¬ fromMillis 10 ≤ Policy.metroSync.latencyTarget := by decide
  simp only [if_neg hlat, htarget]
  split
  · rfl
  · cases hp : peers with
    | nil => rfl
    | cons p l =>
        have hin : p ∈ peers := hp ▸ List.mem_cons_self
        have hsame : (buildMeshState node (p :: l)).requiresTransformation p Policy.metroSync =
            false := by
          unfold MeshState.requiresTransformation
          rw [info_buildMeshState (hp ▸ hin)]
          simp
        simp only [List.head?_cons, Option.toList_some, List.map_cons, List.map_nil, hsame]

/-- No other event moves data to a node. -/
theorem nodes_handle {event : Telemetry F} (hn : ∀ id policy nodeId,
    event ≠ .newCapsule id policy nodeId) (hh : ∀ id accesses nodeId,
    event ≠ .heatSpike id accesses nodeId) :
    ∀ a ∈ handleTelemetryEvent T node peers event, a.nodes = [] := by
  intro a ha
  unfold handleTelemetryEvent PolicyCompiler.compileScalingActions at ha
  rw [PolicyCompiler.validateSovereignty_eq] at ha
  cases event with
  | newCapsule id policy nodeId => exact absurd rfl (hn _ _ _)
  | heatSpike id accesses nodeId => exact absurd rfl (hh _ _ _)
  | capacityThreshold nodeId used total threshold =>
      unfold PolicyCompiler.compileEvent PolicyCompiler.compileRebalancing at ha
      simp only at ha
      split at ha
      · split at ha
        · cases ha
        · split at ha
          · cases ha
          · obtain rfl := List.mem_singleton.mp ha
            rfl
      · cases ha
  | nodeDegraded nodeId reason =>
      obtain rfl := List.mem_singleton.mp ha
      rfl
  | viewProjection id view =>
      unfold PolicyCompiler.compileEvent at ha
      rcases List.mem_append.mp ha with ha | ha <;>
      · split at ha
        · obtain rfl := List.mem_singleton.mp ha
          rfl
        · cases ha

end ScalingAgent

end Space

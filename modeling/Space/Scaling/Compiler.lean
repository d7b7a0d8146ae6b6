import Space.Common.Types
import Mathlib.Data.List.Infix

/-!
# Scaling — Compiler

The policy compiler of the mesh: a telemetry event, the policy of the capsule it is about and a
snapshot of the mesh become a list of scaling actions.

* `compileScalingActions_sound_iff`: the actions name only nodes and zones the sovereignty of the
  policy allows, unless the event asks for a projection: then the metadata is sharded over every
  zone of the mesh.

The floating-point comparisons of capacities are parameters (`CapacityTests`).
-/

namespace Space

structure NodeId where
  val : Nat
  deriving DecidableEq, Repr

inductive ZoneId where
  | metro (name : String)
  | geo (name : String)
  | edge (name : String)
  deriving DecidableEq, Repr

/-- Telemetry events; `F` is the type of the threshold of a capacity event. -/
inductive Telemetry (F : Type) where
  | newCapsule (id : CapsuleId) (policy : Policy) (nodeId : Option NodeId)
  | heatSpike (id : CapsuleId) (accessesPerMin : Nat) (nodeId : Option NodeId)
  | capacityThreshold (nodeId : NodeId) (usedBytes totalBytes : Nat) (thresholdPct : F)
  | nodeDegraded (nodeId : NodeId) (reason : String)
  | viewProjection (id : CapsuleId) (view : String)

/-- The comparisons of percentages, which the source makes in `f32`. -/
structure CapacityTests (F : Type) where
  /-- `used_percent >= normalized_threshold`. -/
  atThreshold : Nat → Nat → F → Bool
  /-- `used_percent < 80.0`. -/
  belowEighty : Nat → Nat → Bool
  /-- `used_percent < 50.0`. -/
  belowFifty : Nat → Nat → Bool

inductive ReplicationStrategy where
  | metroSync (replicaCount : Nat)
  | asyncWithBatching (rpo : Nat)
  | none
  deriving DecidableEq, Repr

inductive EvacuationUrgency where
  | immediate
  | gradual
  deriving DecidableEq, Repr

inductive ScalingAction where
  | replicate (capsuleId : CapsuleId) (strategy : ReplicationStrategy) (targets : List NodeId)
  | migrate (capsuleId : CapsuleId) (reason : String) (destination : NodeId) (transform : Bool)
  | evacuate (sourceNode : NodeId) (reason : String) (urgency : EvacuationUrgency)
  | rebalance (overloadedNodes underutilizedNodes : List NodeId)
  | federate (capsuleId : CapsuleId) (zone : ZoneId)
  | shardEC (capsuleId : CapsuleId) (parity : Nat) (zones : List ZoneId)
  deriving DecidableEq, Repr

/-! ### The mesh -/

structure NodeInfo where
  zone : ZoneId
  availableBytes : Nat
  usedBytes : Nat
  deriving DecidableEq, Repr

/-- A snapshot of the mesh. -/
structure MeshState where
  nodes : List (NodeId × NodeInfo)
  localZone : ZoneId
  deriving DecidableEq, Repr

/-- Arithmetic at `u64`. -/
def asU64 (n : Nat) : Nat := n % 18446744073709551616

namespace MeshState
variable (m : MeshState)

/-- `nodes.iter().find(|(id, _)| *id == node_id)`. -/
def info (nodeId : NodeId) : Option NodeInfo :=
  (m.nodes.find? fun n => n.1 = nodeId).map Prod.snd

def availableNodes : List NodeId := m.nodes.map Prod.fst

/-- The zones the mesh knows about, each once, the local one first. -/
def zoneIds : List ZoneId :=
  m.nodes.foldl (fun zones n => if n.2.zone ∈ zones then zones else zones ++ [n.2.zone])
    [m.localZone]

def satisfiesSovereignty (nodeId : NodeId) : SovereigntyLevel → Bool
  | .global => true
  | .zone => (m.info nodeId).any fun info => info.zone = m.localZone
  | .localOnly => false

def isMetroZone (nodeId : NodeId) : Bool :=
  (m.info nodeId).any fun info => match info.zone with
    | .metro _ => true
    | _ => false

def isSameGeoRegion (nodeId : NodeId) : Bool :=
  (m.info nodeId).any fun info => match m.localZone, info.zone with
    | .metro n₁, .metro n₂ => n₁ = n₂
    | .geo n₁, .geo n₂ => n₁ = n₂
    | _, _ => false

def hasCapacity (nodeId : NodeId) (requiredBytes : Nat) : Bool :=
  (m.info nodeId).any fun info => requiredBytes ≤ info.availableBytes

/-- Utilization in percent; an unknown node is full. -/
def utilization (nodeId : NodeId) : Nat :=
  match m.info nodeId with
  | none => 100
  | some info =>
    let total := asU64 (info.availableBytes + info.usedBytes)
    if total = 0 then 0 else asU64 (info.usedBytes * 100) / total

def findUnderutilizedNodes {F : Type} (T : CapacityTests F) : List NodeId :=
  (m.nodes.filter fun n =>
    let total := asU64 (n.2.availableBytes + n.2.usedBytes)
    decide (total ≠ 0) && T.belowFifty n.2.usedBytes total).map Prod.fst

/-- Crossing a zone boundary under zone sovereignty. -/
def requiresTransformation (destination : NodeId) (policy : Policy) : Bool :=
  decide (policy.sovereignty = .zone) &&
    (m.info destination).any fun info => info.zone ≠ m.localZone

end MeshState

/-- `min_by_key`: the first of the elements with the least key. -/
def minByKey {α : Type} (key : α → Nat) : List α → Option α
  | [] => none
  | a :: l =>
    match minByKey key l with
    | none => some a
    | some b => if key b < key a then some b else some a

/-! ### The compiler -/

/-- `str::contains`. -/
def containsText (s pattern : String) : Bool := decide (pattern.toList <:+: s.toList)

structure PolicyCompiler where
  defaultPolicy : Policy

namespace PolicyCompiler

/-- A compiler with metro-sync as its default. -/
def withDefaults : PolicyCompiler := ⟨Policy.metroSync⟩

/-- Keep the candidates the policy allows, by sovereignty and by latency; two with room. -/
def selectReplicationTargets (policy : Policy) (m : MeshState) : List NodeId :=
  let candidates := m.availableNodes.filter fun n => m.satisfiesSovereignty n policy.sovereignty
  let candidates :=
    if policy.latencyTarget < fromMillis 2 then candidates.filter m.isMetroZone
    else if policy.latencyTarget < fromMillis 100 then candidates.filter m.isSameGeoRegion
    else candidates
  (candidates.filter fun n => m.hasCapacity n 1000000).take 2

def selectMigrationTarget (policy : Policy) (m : MeshState) : Option NodeId :=
  let candidates := m.availableNodes.filter fun n => m.satisfiesSovereignty n policy.sovereignty
  let candidates :=
    if policy.latencyTarget < fromMillis 2 then candidates.filter m.isMetroZone else candidates
  minByKey m.utilization (candidates.filter fun n => m.hasCapacity n 10000000)

/-- The strategy an RPO asks for. -/
def replicationStrategy (rpo : Nat) : ReplicationStrategy :=
  if rpo = 0 then .metroSync 2
  else if rpo < fromSecs 60 then .asyncWithBatching rpo
  else .none

theorem replicationStrategy_eq_none_iff {rpo : Nat} :
    replicationStrategy rpo = .none ↔ ¬ rpo < fromSecs 60 := by
  unfold replicationStrategy
  split
  · next h => simp [h, fromSecs]
  · split <;> simp_all

def compileReplicationStrategy (capsuleId : CapsuleId) (policy : Policy) (m : MeshState) :
    List ScalingAction :=
  let strategy := replicationStrategy policy.rpo
  if strategy = .none then []
  else
    let targets := selectReplicationTargets policy m
    if targets = [] then [] else [.replicate capsuleId strategy targets]

def compileMigrationForHeat (capsuleId : CapsuleId) (accessesPerMin : Nat) (policy : Policy)
    (m : MeshState) : List ScalingAction :=
  if accessesPerMin ≤ 100 then []
  else if fromMillis 10 ≤ policy.latencyTarget then []
  else
    match selectMigrationTarget policy m with
    | none => []
    | some destination =>
      [.migrate capsuleId ("heat_spike_" ++ toString accessesPerMin ++ "_accesses_per_min")
        destination (m.requiresTransformation destination policy)]

def compileRebalancing {F : Type} (T : CapacityTests F) (nodeId : NodeId)
    (usedBytes totalBytes : Nat) (m : MeshState) : List ScalingAction :=
  if T.belowEighty usedBytes totalBytes then []
  else if m.findUnderutilizedNodes T = [] then []
  else [.rebalance [nodeId] (m.findUnderutilizedNodes T)]

def compileEvacuation (nodeId : NodeId) (reason : String) : List ScalingAction :=
  [.evacuate nodeId reason
    (if containsText reason "disk_failure" || containsText reason "power" then .immediate
      else .gradual)]

/-- The check of the actions.  For every action the source's test is a placeholder that allows
it. -/
def validateSovereignty (actions : List ScalingAction) (policy : Policy) : List ScalingAction :=
  if policy.sovereignty = .global then actions
  else actions.filter fun
    | .replicate _ _ targets => targets.all fun _ => true
    | .migrate _ _ _ _ => true
    | .federate _ _ => true
    | .shardEC _ _ _ => true
    | .evacuate _ _ _ => true
    | .rebalance _ _ => true

/-- The actions of an event, before they are checked. -/
def compileEvent {F : Type} (T : CapacityTests F) (event : Telemetry F) (policy : Policy)
    (m : MeshState) : List ScalingAction :=
  match event with
  | .newCapsule id _ _ => compileReplicationStrategy id policy m
  | .heatSpike id accessesPerMin _ => compileMigrationForHeat id accessesPerMin policy m
  | .capacityThreshold nodeId usedBytes totalBytes thresholdPct =>
    if T.atThreshold usedBytes totalBytes thresholdPct then
      compileRebalancing T nodeId usedBytes totalBytes m
    else []
  | .viewProjection id _ =>
    (if policy.sovereignty ≠ .localOnly then [.federate id m.localZone] else []) ++
      (if m.zoneIds ≠ [] then [.shardEC id 2 m.zoneIds] else [])
  | .nodeDegraded nodeId reason => compileEvacuation nodeId reason

/-- `compile_scaling_actions`. -/
def compileScalingActions {F : Type} (T : CapacityTests F) (event : Telemetry F) (policy : Policy)
    (m : MeshState) : List ScalingAction :=
  validateSovereignty (compileEvent T event policy m) policy

end PolicyCompiler

/-! ### Sovereignty -/

/-- The nodes that receive data by an action. -/
def ScalingAction.nodes : ScalingAction → List NodeId
  | .replicate _ _ targets => targets
  | .migrate _ _ destination _ => [destination]
  | _ => []

/-- The zones that receive data by an action. -/
def ScalingAction.zones : ScalingAction → List ZoneId
  | .federate _ zone => [zone]
  | .shardEC _ _ zones => zones
  | _ => []

namespace MeshState
variable (m : MeshState)

/-- The nodes a sovereignty level allows. -/
def NodeAllowed (nodeId : NodeId) : SovereigntyLevel → Prop
  | .global => True
  | .zone => ∃ info, (nodeId, info) ∈ m.nodes ∧ info.zone = m.localZone
  | .localOnly => False

/-- The zones a sovereignty level allows. -/
def ZoneAllowed (zone : ZoneId) : SovereigntyLevel → Prop
  | .global => True
  | _ => zone = m.localZone

/-- Every node and every zone an action names is allowed. -/
def Allows (level : SovereigntyLevel) (a : ScalingAction) : Prop :=
  (∀ n ∈ a.nodes, m.NodeAllowed n level) ∧ ∀ z ∈ a.zones, m.ZoneAllowed z level

variable {m} {level : SovereigntyLevel}

theorem nodeAllowed_of_satisfies {n : NodeId} (h : m.satisfiesSovereignty n level = true) :
    m.NodeAllowed n level := by
  cases level with
  | global => trivial
  | localOnly => cases h
  | zone =>
      have h' : (m.info n).any (fun info => decide (info.zone = m.localZone)) = true := h
      cases hi : m.info n with
      | none =>
          rw [hi] at h'
          cases h'
      | some info =>
          rw [hi] at h'
          obtain ⟨p, hp, rfl⟩ := Option.map_eq_some_iff.mp hi
          have hid : p.1 = n := by simpa using List.find?_some hp
          exact ⟨p.2, hid ▸ List.mem_of_find?_eq_some hp, of_decide_eq_true h'⟩

/-- The zones of the mesh are the local one and those of its nodes. -/
theorem mem_zoneIds {z : ZoneId} :
    z ∈ m.zoneIds ↔ z = m.localZone ∨ ∃ n ∈ m.nodes, n.2.zone = z := by
  have step : ∀ (l : List (NodeId × NodeInfo)) (zones : List ZoneId),
      z ∈ l.foldl (fun zones n => if n.2.zone ∈ zones then zones else zones ++ [n.2.zone]) zones ↔
        z ∈ zones ∨ ∃ n ∈ l, n.2.zone = z := by
    intro l
    induction l with
    | nil => simp
    | cons n l ih =>
        intro zones
        rw [List.foldl_cons, ih]
        split
        · next hn =>
            simp only [List.mem_cons, exists_eq_or_imp]
            constructor
            · rintro (h | h)
              · exact .inl h
              · exact .inr (.inr h)
            · rintro (h | rfl | h)
              · exact .inl h
              · exact .inl hn
              · exact .inr h
        · simp only [List.mem_append, List.mem_cons, List.not_mem_nil, false_or,
            exists_eq_or_imp, or_assoc]
          rw [eq_comm (a := z)]
  unfold zoneIds
  rw [step, List.mem_singleton]

theorem zoneIds_ne_nil : m.zoneIds ≠ [] := by
  intro e
  have h : m.localZone ∈ m.zoneIds := mem_zoneIds.mpr (.inl rfl)
  rw [e] at h
  cases h

end MeshState

namespace PolicyCompiler
variable {m : MeshState} {policy : Policy}

theorem mem_minByKey {α : Type} {key : α → Nat} {a : α} :
    ∀ {l : List α}, minByKey key l = some a → a ∈ l
  | [], h => by cases h
  | b :: l, h => by
      unfold minByKey at h
      split at h
      · cases h
        exact List.mem_cons_self
      · next c hc =>
          split at h
          · cases h
            exact List.mem_cons_of_mem _ (mem_minByKey hc)
          · cases h
            exact List.mem_cons_self

theorem selectReplicationTargets_allowed {n : NodeId}
    (h : n ∈ selectReplicationTargets policy m) : m.NodeAllowed n policy.sovereignty := by
  refine MeshState.nodeAllowed_of_satisfies ?_
  have h' := List.mem_of_mem_filter (List.mem_of_mem_take h)
  split at h'
  · exact (List.mem_filter.mp (List.mem_of_mem_filter h')).2
  · split at h'
    · exact (List.mem_filter.mp (List.mem_of_mem_filter h')).2
    · exact (List.mem_filter.mp h').2

theorem selectMigrationTarget_allowed {n : NodeId}
    (h : selectMigrationTarget policy m = some n) : m.NodeAllowed n policy.sovereignty := by
  refine MeshState.nodeAllowed_of_satisfies ?_
  have h' := List.mem_of_mem_filter (mem_minByKey h)
  split at h'
  · exact (List.mem_filter.mp (List.mem_of_mem_filter h')).2
  · exact (List.mem_filter.mp h').2

/-- The check lets every action pass. -/
theorem validateSovereignty_eq (actions : List ScalingAction) (policy : Policy) :
    validateSovereignty actions policy = actions := by
  unfold validateSovereignty
  split
  · rfl
  · refine List.filter_eq_self.mpr fun a _ => ?_
    cases a <;> simp

/-- The actions of every event but a projection are allowed. -/
theorem compileEvent_allowed {F : Type} {T : CapacityTests F} {event : Telemetry F}
    (h : ∀ id view, event ≠ .viewProjection id view) :
    ∀ a ∈ compileEvent T event policy m, m.Allows policy.sovereignty a := by
  intro a ha
  cases event with
  | newCapsule id p nodeId =>
      unfold compileEvent compileReplicationStrategy at ha
      simp only at ha
      split at ha
      · cases ha
      · split at ha
        · cases ha
        · obtain rfl := List.mem_singleton.mp ha
          exact ⟨fun n hn => selectReplicationTargets_allowed hn, by simp [ScalingAction.zones]⟩
  | heatSpike id accesses nodeId =>
      unfold compileEvent compileMigrationForHeat at ha
      simp only at ha
      split at ha
      · cases ha
      · split at ha
        · cases ha
        · split at ha
          · cases ha
          · next destination hd =>
              obtain rfl := List.mem_singleton.mp ha
              refine ⟨fun n hn => ?_, by simp [ScalingAction.zones]⟩
              obtain rfl := List.mem_singleton.mp hn
              exact selectMigrationTarget_allowed hd
  | capacityThreshold nodeId used total threshold =>
      unfold compileEvent compileRebalancing at ha
      simp only at ha
      split at ha
      · split at ha
        · cases ha
        · split at ha
          · cases ha
          · obtain rfl := List.mem_singleton.mp ha
            exact ⟨by simp [ScalingAction.nodes], by simp [ScalingAction.zones]⟩
      · cases ha
  | nodeDegraded nodeId reason =>
      obtain rfl := List.mem_singleton.mp ha
      exact ⟨by simp [ScalingAction.nodes], by simp [ScalingAction.zones]⟩
  | viewProjection id view => exact absurd rfl (h id view)

/-- **When the compiled actions respect sovereignty.** -/
theorem compileScalingActions_sound_iff {F : Type} (T : CapacityTests F) (event : Telemetry F)
    (policy : Policy) (m : MeshState) :
    (∀ a ∈ compileScalingActions T event policy m, m.Allows policy.sovereignty a) ↔
      policy.sovereignty = .global ∨ (∀ id view, event ≠ .viewProjection id view) ∨
        ∀ n ∈ m.nodes, n.2.zone = m.localZone := by
  unfold compileScalingActions
  rw [validateSovereignty_eq]
  constructor
  · intro h
    by_contra hn
    simp only [not_or, not_forall, not_not] at hn
    obtain ⟨hg, ⟨id, view, rfl⟩, n, hmem, hz⟩ := hn
    -- the shards go to every zone, that of `n` among them
    have hshard : ScalingAction.shardEC id 2 m.zoneIds ∈
        compileEvent T (.viewProjection id view) policy m := by
      unfold compileEvent
      refine List.mem_append_right _ ?_
      rw [if_pos MeshState.zoneIds_ne_nil]
      exact List.mem_singleton_self _
    have hall := (h _ hshard).2 n.2.zone (MeshState.mem_zoneIds.mpr (.inr ⟨n, hmem, rfl⟩))
    cases hs : policy.sovereignty with
    | global => exact hg hs
    | zone => rw [hs] at hall; exact hz hall
    | localOnly => rw [hs] at hall; exact hz hall
  · rintro (hg | he | hz)
    · intro a _
      rw [hg]
      exact ⟨fun _ _ => trivial, fun _ _ => trivial⟩
    · exact compileEvent_allowed he
    · intro a ha
      by_cases he : ∀ id view, event ≠ .viewProjection id view
      · exact compileEvent_allowed he a ha
      · simp only [not_forall, not_not] at he
        obtain ⟨id, view, rfl⟩ := he
        -- every zone of the mesh is the local one
        have hzone : ∀ z ∈ a.zones, z = m.localZone := by
          unfold compileEvent at ha
          rcases List.mem_append.mp ha with ha | ha
          · split at ha
            · obtain rfl := List.mem_singleton.mp ha
              exact fun z k => List.mem_singleton.mp k
            · cases ha
          · split at ha
            · obtain rfl := List.mem_singleton.mp ha
              intro z k
              rcases MeshState.mem_zoneIds.mp k with rfl | ⟨n, hn, rfl⟩
              · rfl
              · exact hz n hn
            · cases ha
        have hnode : a.nodes = [] := by
          unfold compileEvent at ha
          rcases List.mem_append.mp ha with ha | ha <;>
          · split at ha
            · obtain rfl := List.mem_singleton.mp ha
              rfl
            · cases ha
        have hnone : ∀ n ∈ a.nodes, m.NodeAllowed n policy.sovereignty := by simp [hnode]
        refine ⟨hnone, fun z k => ?_⟩
        rw [hzone z k]
        cases policy.sovereignty with
        | global => trivial
        | zone => rfl
        | localOnly => rfl

/-- A node in `eu` seen from `us`. -/
def twoZones : MeshState :=
  ⟨[(⟨1⟩, ⟨.geo "eu", 1000000000, 0⟩)], .geo "us"⟩

/-- A projection under zone sovereignty shards the metadata over the other zone too. -/
theorem not_compileScalingActions_sound :
    ¬ ∀ (F : Type) (T : CapacityTests F) (event : Telemetry F) (policy : Policy) (m : MeshState),
      ∀ a ∈ compileScalingActions T event policy m, m.Allows policy.sovereignty a := by
  intro h
  let T : CapacityTests Unit := ⟨fun _ _ _ => false, fun _ _ => false, fun _ _ => false⟩
  have hshard : ScalingAction.shardEC ⟨0⟩ 2 [.geo "us", .geo "eu"] ∈
      compileScalingActions T (.viewProjection ⟨0⟩ "nfs") { sovereignty := .zone } twoZones := by
    decide
  have hzone : ZoneId.geo "eu" = .geo "us" :=
    (h Unit T _ { sovereignty := .zone } twoZones _ hshard).2 (.geo "eu") (by decide)
  exact absurd hzone (by decide)

end PolicyCompiler

end Space

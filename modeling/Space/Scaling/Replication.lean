import Space.Scaling.Agent
import Space.Native.WriteAsync

/-!
# Scaling — Replication

The asynchronous write of a pipeline that has a mesh node.  When the capsule is created and its
policy has a zero RPO, every segment it lists is read back and mirrored to the first two peers; an
error on the way ends the mirroring and not the write.

The mesh is an interface beside that of the store: the peers, and what is sent to them.
-/

namespace Space
open Support Prog

/-- The methods of the mesh node the pipeline calls; `mirrorSegment` says which segment it was
that was sent. -/
inductive MeshOp where
  | discoverPeers
  | mirrorSegment (segId : SegmentId) (segmentData : Bytes) (target : NodeId)

def MeshOp.Res : MeshOp → Type
  | .discoverPeers => List NodeId
  | .mirrorSegment _ _ _ => Unit

abbrev MeshSig : Signature := ⟨MeshOp, MeshOp.Res⟩

/-- The peers in the order of the peer registry, what becomes of a payload that is sent, and the
calls of `mirror_segment` so far. -/
structure MeshLink where
  peers : List NodeId
  deliver : Bytes → NodeId → Except Error Unit
  mirrored : List (SegmentId × NodeId)

def MeshLink.exec : Handler MeshSig Error MeshLink
  | .discoverPeers, m => (.ok m.peers, m)
  | .mirrorSegment segId segmentData target, m =>
    (m.deliver segmentData target, { m with mirrored := m.mirrored ++ [(segId, target)] })

/-- Programs of a pipeline with a mesh node. -/
abbrev MeshProg := Prog (StoreSig.sum MeshSig) Error

namespace MeshProg

def discoverPeers : MeshProg (List NodeId) := performInr (T := MeshSig) .discoverPeers

def mirrorSegment (segId : SegmentId) (segmentData : Bytes) (target : NodeId) : MeshProg Unit :=
  performInr (T := MeshSig) (.mirrorSegment segId segmentData target)

end MeshProg

namespace WritePipeline
variable (P : Primitives)

/-- Mirror a segment to one target; a failure is not counted. -/
def mirrorTo (segId : SegmentId) (segmentData : Bytes) (replicatedCount : Nat) (target : NodeId) :
    MeshProg Nat := do
  match ← (MeshProg.mirrorSegment segId segmentData target).attempt with
  | .ok _ => return replicatedCount + 1
  | .error _ => return replicatedCount

/-- Mirror one segment to all targets. -/
def mirrorToAll (targets : List NodeId) (replicatedCount : Nat) (segId : SegmentId) :
    MeshProg Nat := do
  let segmentData ← (Native.read segId).inl
  let _ ← (Native.getSegmentMetadata segId).inl
  targets.foldlM (mirrorTo segId segmentData) replicatedCount

/-- `perform_metro_sync_replication`. -/
def performMetroSyncReplication (segmentIds : List SegmentId) : MeshProg Nat := do
  let peers ← MeshProg.discoverPeers
  if peers = [] then return 0
  else segmentIds.foldlM (mirrorToAll (peers.take 2)) 0

/-- What follows the creation of the capsule. -/
def replicate (policy : Policy) (segmentIds : List SegmentId) : MeshProg Unit :=
  if policy.rpo = 0 then discard (performMetroSyncReplication segmentIds).attempt else pure ()

/-- The loop over the arriving chunks. -/
def collect (arrivals : Order (Bytes × Nat)) (segments : List (Bytes × Nat)) (policy : Policy)
    (transaction : NvramTransaction) : Native AsyncState :=
  (arrivals.reorder segments).foldlM (arrive P policy segments.length)
    { transaction := transaction }

/-- `write_capsule_with_policy_async` of a pipeline with a mesh node. -/
def writeCapsuleWithPolicyAsyncMesh (memoryLimit : Nat) (arrivals : Order (Bytes × Nat))
    (capsuleId : CapsuleId) (data : Bytes) (policy : Policy) : MeshProg CapsuleId := do
  let segments := (chunks SEGMENT_SIZE data).zipIdx
  if segments.length = 0 then
    ((Native.createCapsuleWithSegments capsuleId 0 [] policy).mapError
      (mapRegistryError "create_capsule_with_segments")).inl
    return capsuleId
  else
    let transaction ← Native.beginTransaction.inl
    match segments.find? fun chunk => decide (memoryLimit < chunk.1.length) with
    | some chunk =>
      let _ ← (Native.rollback transaction).inl
      .fail (memoryLimitError memoryLimit chunk)
    | none =>
      let st ← (collect P arrivals segments policy transaction).inl
      let id ← (finishAsync capsuleId data.length policy segments.length st).inl
      replicate policy st.segmentIds
      return id

end WritePipeline

/-! ### Runs -/

/-- What leaves the node, or is to leave it. -/
inductive MeshEffect where
  | mirror (segId : SegmentId) (target : NodeId)
  | action (action : ScalingAction)

/-- One step of a node: a write, or a telemetry event that reaches the agent. -/
inductive MeshCall (F : Type) where
  | write (memoryLimit : Nat) (arrivals : Order (Bytes × Nat)) (capsuleId : CapsuleId)
      (data : Bytes) (policy : Policy)
  | telemetry (event : Telemetry F)

section
variable {P : Primitives} {F : Type} (T : CapacityTests F) (node : MeshNode)

/-- The runs of a node with a mesh, by writes that succeed and by telemetry events; before each
step there are some peers.  Each effect is recorded with the store it happened in. -/
inductive MeshRun (ok : Store P → List NodeId → MeshCall F → Prop) (s₀ : Store P) :
    List (Store P × MeshEffect) → Store P → Prop where
  | start : MeshRun ok s₀ [] s₀
  | write {t : List (Store P × MeshEffect)} {s s' : Store P} {m m' : MeshLink}
      {memoryLimit : Nat} {arrivals : Order (Bytes × Nat)} {capsuleId id : CapsuleId}
      {data : Bytes} {policy : Policy} (h : MeshRun ok s₀ t s) (hm : m.mirrored = [])
      (hok : ok s m.peers (.write memoryLimit arrivals capsuleId data policy))
      (hr : (WritePipeline.writeCapsuleWithPolicyAsyncMesh P memoryLimit arrivals capsuleId data
        policy).run (StoreOp.exec.sum MeshLink.exec) (s, m) = (.ok id, s', m')) :
      MeshRun ok s₀ (t ++ m'.mirrored.map fun e => (s', .mirror e.1 e.2)) s'
  | telemetry {t : List (Store P × MeshEffect)} {s : Store P} (peers : List NodeId)
      {event : Telemetry F} (h : MeshRun ok s₀ t s) (hok : ok s peers (.telemetry event)) :
      MeshRun ok s₀ (t ++ (ScalingAgent.handleTelemetryEvent T node peers event).map
        fun a => (s, .action a)) s

end

end Space

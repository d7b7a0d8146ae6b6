import Space.Scaling.Selection

/-!
# Scaling — Utilization

The share of a node that is used, as the mesh computes it at `u64`: the sum of what is available and
what is used may wrap, and so may the hundredfold of what is used.  A wrapped share makes a full
node look empty.

* `mod_div_eq_iff`: a product that wraps is told by the quotient.
* `trueLoads_iff`: the shares are those of the natural numbers, and the selection of a destination
  goes by them, iff nothing wraps.
* `not_trueLoads`: a node of 184 petabytes is taken for an empty one.
-/

namespace Space

/-- Below the modulus, and there alone, a quotient is that of the remainder. -/
theorem mod_div_eq_iff {n t w : Nat} (ht : 0 < t) (htw : t ≤ w) : n % w / t = n / t ↔ n < w := by
  constructor
  · intro h
    by_contra hn
    have hle : n % w + t ≤ n := by
      have hpos : w * 1 ≤ w * (n / w) :=
        Nat.mul_le_mul_left w (Nat.div_pos (Nat.not_lt.mp hn) (ht.trans_le htw))
      have hsplit := Nat.mod_add_div n w
      omega
    have hdiv : n % w / t + 1 ≤ n / t := by
      rw [← Nat.add_div_right _ ht]
      exact Nat.div_le_div_right hle
    omega
  · intro h
    rw [Nat.mod_eq_of_lt h]

/-- The capacity of a node, as the source adds it up. -/
def NodeInfo.total (info : NodeInfo) : Nat := asU64 (info.availableBytes + info.usedBytes)

theorem NodeInfo.usedPercent_le (info : NodeInfo) : info.usedPercent ≤ 100 := by
  refine Nat.div_le_of_le_mul ?_
  exact Nat.mul_le_mul_right 100 (Nat.le_add_left _ _)

namespace MeshState
variable {m : MeshState} {nodeId : NodeId} {info : NodeInfo}

theorem utilization_of_info (h : m.info nodeId = some info) : m.utilization nodeId =
    if info.total = 0 then 0 else asU64 (info.usedBytes * 100) / info.total := by
  rw [utilization, h]
  rfl

/-- The capacities are what the search for nodes with room goes by. -/
theorem findUnderutilizedNodes_eq {F : Type} (T : CapacityTests F) :
    m.findUnderutilizedNodes T = (m.nodes.filter fun n =>
      decide (n.2.total ≠ 0) && T.belowFifty n.2.usedBytes n.2.total).map Prod.fst := rfl

/-- **The share of a node** whose capacity does not wrap. -/
theorem utilization_eq_iff (h : m.info nodeId = some info)
    (hsum : info.availableBytes + info.usedBytes < 18446744073709551616) :
    m.utilization nodeId = info.usedPercent ↔ info.usedBytes * 100 < 18446744073709551616 := by
  have htotal : info.total = info.availableBytes + info.usedBytes := Nat.mod_eq_of_lt hsum
  rw [utilization_of_info h, htotal]
  by_cases h0 : info.availableBytes + info.usedBytes = 0
  · have hu : info.usedBytes = 0 := (Nat.add_eq_zero_iff.mp h0).2
    rw [if_pos h0, NodeInfo.usedPercent, h0, Nat.div_zero, hu]
    exact iff_of_true rfl (by decide)
  · rw [if_neg h0]
    exact mod_div_eq_iff (Nat.pos_of_ne_zero h0) (Nat.le_of_lt hsum)

/-! ### True loads -/

/-- The share of a node over the natural numbers; an unknown node is full. -/
def load (m : MeshState) (nodeId : NodeId) : Nat := (m.info nodeId).elim 100 NodeInfo.usedPercent

end MeshState

namespace PolicyCompiler

/-- The nodes that `select_migration_target` chooses from. -/
def migrationCandidates (policy : Policy) (m : MeshState) : List NodeId :=
  let candidates := m.availableNodes.filter fun n => m.satisfiesSovereignty n policy.sovereignty
  let candidates :=
    if policy.latencyTarget < fromMillis 2 then candidates.filter m.isMetroZone else candidates
  candidates.filter fun n => m.hasCapacity n 10000000

theorem selectMigrationTarget_eq (policy : Policy) (m : MeshState) :
    selectMigrationTarget policy m = minByKey m.utilization (migrationCandidates policy m) := rfl

end PolicyCompiler

namespace MeshState
open PolicyCompiler
variable {m : MeshState}

/-- The mesh knows the true load of its nodes: the share of each is that of the natural numbers, two
nodes are compared by it, the destination of a migration is the first of the candidates with the
least, and the capacities add up. -/
structure TrueLoads (m : MeshState) : Prop where
  percent : ∀ nodeId info, m.info nodeId = some info →
    m.utilization nodeId =
      100 * info.usedBytes / (info.availableBytes + info.usedBytes) ∧ m.utilization nodeId ≤ 100
  order : ∀ i j info info', m.info i = some info → m.info j = some info' →
    (m.utilization i < m.utilization j ↔ info.usedPercent < info'.usedPercent)
  target : ∀ policy, selectMigrationTarget policy m = minByKey m.load (migrationCandidates policy m)
  total : ∀ n ∈ m.nodes, n.2.total = n.2.availableBytes + n.2.usedBytes
  found : ∀ (F : Type) (T : CapacityTests F), m.findUnderutilizedNodes T =
    (m.nodes.filter fun n => decide (n.2.availableBytes + n.2.usedBytes ≠ 0) &&
      T.belowFifty n.2.usedBytes (n.2.availableBytes + n.2.usedBytes)).map Prod.fst

/-- Nothing wraps: no capacity, and of the nodes that are found under their id no hundredfold of
what is used. -/
def LoadsFit (m : MeshState) : Prop :=
  (∀ n ∈ m.nodes, n.2.availableBytes + n.2.usedBytes < 18446744073709551616) ∧
    ∀ nodeId info, m.info nodeId = some info → info.usedBytes * 100 < 18446744073709551616

/-- A node that is found is one of the mesh. -/
theorem mem_of_info {nodeId : NodeId} {info : NodeInfo} (h : m.info nodeId = some info) :
    (nodeId, info) ∈ m.nodes := by
  obtain ⟨n, hn, rfl⟩ := Option.map_eq_some_iff.mp h
  obtain rfl : n.1 = nodeId := by simpa using List.find?_some hn
  exact List.mem_of_find?_eq_some hn

/-- **The arithmetic of utilization** is exact iff nothing wraps. -/
theorem trueLoads_iff (m : MeshState) : m.TrueLoads ↔ m.LoadsFit := by
  constructor
  · intro h
    have hsum : ∀ n ∈ m.nodes, n.2.availableBytes + n.2.usedBytes < 18446744073709551616 := by
      intro n hn
      rw [← h.total n hn]
      exact Nat.mod_lt _ (by decide)
    refine ⟨hsum, fun nodeId info hi => ?_⟩
    refine (utilization_eq_iff hi (hsum _ (mem_of_info hi))).mp ?_
    rw [(h.percent nodeId info hi).1, Nat.mul_comm]
    rfl
  · rintro ⟨hsum, hpct⟩
    have hload : ∀ nodeId info, m.info nodeId = some info →
        m.utilization nodeId = info.usedPercent := fun nodeId info hi =>
      (utilization_eq_iff hi (hsum _ (mem_of_info hi))).mpr (hpct nodeId info hi)
    have htotal : ∀ n ∈ m.nodes, n.2.total = n.2.availableBytes + n.2.usedBytes := fun n hn =>
      Nat.mod_eq_of_lt (hsum n hn)
    refine ⟨fun nodeId info hi => ⟨?_, ?_⟩, fun i j info info' hi hj => ?_, fun policy => ?_,
      htotal, fun F T => ?_⟩
    · rw [hload nodeId info hi, Nat.mul_comm]
      rfl
    · rw [hload nodeId info hi]
      exact info.usedPercent_le
    · rw [hload i info hi, hload j info' hj]
    · have hall : m.utilization = m.load := by
        funext nodeId
        cases hi : m.info nodeId with
        | none => rw [utilization, load, hi]; rfl
        | some info => rw [hload nodeId info hi, load, hi]; rfl
      rw [selectMigrationTarget_eq, hall]
    · rw [findUnderutilizedNodes_eq]
      refine congrArg _ (List.filter_congr fun n hn => ?_)
      rw [htotal n hn]

/-- Of these two nodes the first is 99% full, and a hundredfold of what is used wraps to 84. -/
def petabytes : MeshState :=
  ⟨[(⟨1⟩, ⟨.metro "a", 10000000, 184467440737095517⟩), (⟨2⟩, ⟨.metro "a", 90000000, 10000000⟩)],
    .metro "a"⟩

example : selectMigrationTarget Policy.metroSync petabytes = some ⟨1⟩ := by decide +kernel

/-- **The fuller node** looks empty. -/
theorem not_trueLoads : ¬ ∀ m : MeshState,
    (∀ n ∈ m.nodes, n.2.availableBytes < 18446744073709551616 ∧
      n.2.usedBytes < 18446744073709551616) → m.TrueLoads := by
  intro h
  have hloads := h petabytes (by decide)
  have hpercent := (hloads.percent ⟨1⟩ ⟨.metro "a", 10000000, 184467440737095517⟩ (by decide)).1
  exact absurd hpercent (by decide +kernel)

end MeshState

end Space

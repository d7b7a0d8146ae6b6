import Space.Store.Interface

/-!
# Native — World

The shared state together with a ledger: the payload last handed to the log under each segment
identifier, the data of the write that last produced each capsule, and the payloads its segments
had at that moment.  The ledger is a record of what was asked for.  No operation reads it, and the
state component of a run does not depend on it (`World.run_store`).

The views `seg`, `content`, `cap`, `refs` and `occ` are what the invariants talk about.
-/

namespace Space
open Support

variable {P : Primitives}

/-- What was asked for, so far. -/
structure Ledger where
  payload : SegmentId → Bytes
  produced : CapsuleId → Bytes
  contents : CapsuleId → List Bytes

namespace Ledger

/-- Nothing was asked for yet. -/
def empty : Ledger where
  payload := fun _ => []
  produced := fun _ => []
  contents := fun _ => []

/-- The payloads of a committed transaction. -/
def recordPending (pending : List PendingSegment) (payload : SegmentId → Bytes) :
    SegmentId → Bytes :=
  pending.foldl (fun payload p => Function.update payload p.segment.id p.data) payload

/-- Enter an operation that succeeded, on behalf of a write of `data`. -/
def record (data : Bytes) (L : Ledger) : (o : StoreOp) → Except Error o.Res → Ledger
  | .append segId payload, .ok _ =>
    { L with payload := Function.update L.payload segId payload }
  | .commit t, .ok _ =>
    if t.finalized then L else { L with payload := recordPending t.pending L.payload }
  | .createCapsuleWithSegments id _ segments _, .ok _ =>
    { L with
      produced := Function.update L.produced id data
      contents := Function.update L.contents id (segments.map L.payload) }
  | _, _ => L

end Ledger

/-- The shared state and its ledger. -/
structure World (P : Primitives) where
  store : Store P
  ledger : Ledger

namespace World

/-- Nothing stored and nothing asked for. -/
def empty (keyManager : Option (KeyManager P)) : World P := ⟨.empty keyManager, .empty⟩

/-- The operations, with the ledger kept, on behalf of a write of `data`. -/
def exec (data : Bytes) : Handler StoreSig Error (World P) := fun o w =>
  ((o.exec w.store).1, ⟨(o.exec w.store).2, w.ledger.record data o (o.exec w.store).1⟩)

/-- The ledger changes nothing. -/
theorem run_store {α : Type} (data : Bytes) (p : Native α) (w : World P) :
    (p.run (exec data) w).1 = (p.run StoreOp.exec w.store).1 ∧
      (p.run (exec data) w).2.store = (p.run StoreOp.exec w.store).2 := by
  induction p generalizing w with
  | ret a => exact ⟨rfl, rfl⟩
  | fail e => exact ⟨rfl, rfl⟩
  | call o k ih => exact ih _ _

/-- Nor does it change the calls a run comes to. -/
theorem visits_store {α : Type} {data : Bytes} {p : Native α} {w w' : World P} {o : StoreOp}
    (hv : Prog.Visits (exec data).moves p w o w') :
    Prog.Visits StoreOp.exec.moves p w.store o w'.store := by
  induction hv with
  | here o k w => exact .here o k w.store
  | @later o o' k w w₁ w' r hr _ ih =>
      have hstore : StoreOp.exec o w.store = (r, w₁.store) :=
        congrArg (fun res => (res.1, res.2.store)) hr
      exact .later hstore ih

/-- One operation. -/
theorem wp_exec (o : StoreOp) {data : Bytes} {w : World P} {J : StoreOp → World P → Prop}
    {Q : Except Error o.Res → World P → Prop} (hJ : J o w)
    (h : Q (exec data o w).1 (exec data o w).2) :
    (Prog.perform (S := StoreSig) o).wp (exec data).moves J Q w :=
  Prog.wp_perform_moves.mpr ⟨hJ, h⟩

/-! ### Reading operations -/

theorem exec_read (data : Bytes) (x : SegmentId) (w : World P) :
    exec data (.read x) w = (w.store.nvram.read x, w) := by
  cases h : w.store.nvram.read x <;> simp only [exec, StoreOp.exec, h] <;> rfl

theorem exec_getSegmentMetadata (data : Bytes) (x : SegmentId) (w : World P) :
    exec data (.getSegmentMetadata x) w = (w.store.nvram.getSegmentMetadata x, w) := by
  cases h : w.store.nvram.getSegmentMetadata x <;> simp only [exec, StoreOp.exec, h] <;> rfl

theorem exec_lookup (data : Bytes) (id : CapsuleId) (w : World P) :
    exec data (.lookup id) w = (w.store.registry.lookup id, w) := by
  cases h : w.store.registry.lookup id <;> simp only [exec, StoreOp.exec, h] <;> rfl

/-! ### Views -/

def seg (w : World P) (x : SegmentId) : Option Segment := w.store.nvram.segmentMap.lookup x

def content (w : World P) (h : ContentHash) : Option SegmentId :=
  w.store.registry.contentStore.lookup h

def cap (w : World P) (id : CapsuleId) : Option Capsule := w.store.registry.capsules.lookup id

/-- The identifier the next segment will get. -/
def next (w : World P) : Nat := w.store.registry.nextSegmentId

/-- The stored reference count of a segment, zero if it is not in the map. -/
def refs (w : World P) (x : SegmentId) : Nat := (w.seg x).elim 0 Segment.refCount

/-- How often the capsules list a segment. -/
def occ (w : World P) (x : SegmentId) : Nat :=
  Table.total (fun c : Capsule => c.segments.count x) w.store.registry.capsules

theorem getSegmentMetadata_of_seg {w : World P} {x : SegmentId} {s : Segment}
    (h : w.seg x = some s) : w.store.nvram.getSegmentMetadata x = .ok s := by
  unfold NvramLog.getSegmentMetadata
  rw [show w.store.nvram.segmentMap.lookup x = some s from h]

theorem lookup_of_cap {w : World P} {id : CapsuleId} {c : Capsule} (h : w.cap id = some c) :
    w.store.registry.lookup id = .ok c := by
  unfold CapsuleRegistry.lookup
  rw [show w.store.registry.capsules.lookup id = some c from h]

theorem refs_of_seg {w : World P} {x : SegmentId} {s : Segment} (h : w.seg x = some s) :
    w.refs x = s.refCount := by simp [refs, h]

theorem refs_of_none {w : World P} {x : SegmentId} (h : w.seg x = none) : w.refs x = 0 := by
  simp [refs, h]

theorem refs_congr {w w' : World P} {x y : SegmentId} (h : w'.seg y = w.seg x) :
    w'.refs y = w.refs x := by simp [refs, h]

theorem count_le_occ {w : World P} {id : CapsuleId} {c : Capsule} (h : w.cap id = some c)
    (x : SegmentId) : c.segments.count x ≤ w.occ x :=
  Table.le_total (fun c : Capsule => c.segments.count x) h

theorem occ_pos_of_mem {w : World P} {id : CapsuleId} {c : Capsule} (h : w.cap id = some c)
    {x : SegmentId} (hx : x ∈ c.segments) : 0 < w.occ x :=
  Nat.lt_of_lt_of_le (List.count_pos_iff.mpr hx) (count_le_occ h x)

end World

end Space

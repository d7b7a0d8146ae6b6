import Space.Native.Exact

/-!
# Native — Shared

Several clients of one pipeline.  Each operation of the registry and of the log is one step; the
steps of the clients come in any order.  A write that found a segment and takes a reference to it
may come after a delete has taken the last one away: the segment is reclaimed under the new
capsule (`not_shared_listed`).  As long as no reference is added to a segment that has none, and
none to one whose count is `u32::MAX`, every listed segment is there (`shared_listed`).
-/

namespace Space
open Support Prog

variable {P : Primitives} {w w' : World P} {km : Option (KeyManager P)}

/-- A reference is added to a segment that has one, and room for another. -/
def StoreOp.AddsToLive (o : StoreOp) (w : World P) : Prop :=
  match o with
  | .incrementRefcount x => ∀ s, w.seg x = some s → s.refCount ≠ 0 ∧ s.refCount < u32Max
  | _ => True

/-- Every listed segment is there. -/
def World.Listed (w : World P) : Prop :=
  ∀ id c, w.cap id = some c → ∀ x ∈ c.segments, ∃ s, w.seg x = some s

/-- Without a demand on the capsules, it does not matter what is written. -/
theorem may_plain {keys : Option (UInt32 → XtsKeyPair)} {solo tight : Prop} (data data' : Bytes) :
    Token.may (.plain keys solo tight) data = Token.may (.plain keys solo tight) data' := by
  funext o
  cases o <;> rfl

/-- **A client needs nothing to begin with.** -/
theorem Command.wp_shared {keys : Option (UInt32 → XtsKeyPair)} (c : Command)
    (hs : c.Synchronous) :
    (c.program P).wp (Token.moves (.plain keys False True)) (Token.may (.plain keys False True) [])
      (fun _ _ => True) 0 := by
  have hq : Ghost.Quiet 0 := fun τ k => absurd k (Multiset.notMem_zero τ)
  cases c with
  | write id data policy =>
      rw [may_plain [] data]
      exact wp_bind.mpr (WritePipeline.wp_writeCapsule accepts_plain hq
        (fun _ _ _ => trivial) fun _ _ _ => trivial)
  | writeAsync => exact hs.elim
  | delete id =>
      exact WritePipeline.wp_deleteCapsule trivial (by simp) (by simp) fun _ => trivial
  | collect ord =>
      exact wp_bind.mpr (GarbageCollector.wp_sweep (by simp) (fun _ => trivial)
        fun _ _ => trivial)

/-- **Every listed segment is there**, in every state that clients of an empty pipeline reach. -/
theorem shared_listed {cs : List Command} {ps : List (Native Unit)}
    (hs : ∀ c ∈ cs, c.Synchronous)
    (h : PoolRun (World.exec []) StoreOp.AddsToLive
      (World.empty km, cs.map (Command.program P)) (w, ps)) : w.Listed := by
  have hI : World.Inv (.plain (km.map KeyManager.derive) False True) (World.empty km)
      (cs.map fun _ => (0 : Ghost)).sum := by
    rw [List.sum_map_zero]
    exact .empty km rfl
  have hm : (World.protocol P (.plain (km.map KeyManager.derive) False True) []).Meets
      (cs.map (Command.program P)) (cs.map fun _ => (0 : Ghost)) := by
    unfold Protocol.Meets
    rw [List.forall₂_map_left_iff, List.forall₂_map_right_iff]
    exact List.forall₂_same.mpr fun c hc => c.wp_shared (hs c hc)
  have hrun : PoolRun (World.protocol P (.plain (km.map KeyManager.derive) False True) []).exec
      (World.protocol P (.plain (km.map KeyManager.derive) False True) []).ok
      (World.empty km, cs.map (Command.program P)) (w, ps) := by
    refine Relation.ReflTransGen.mono (fun c c' hstep => ?_) _ _ h
    obtain ⟨o, k, before, after, s, hok⟩ := hstep
    refine .call o k before after s ?_
    cases o with
    | incrementRefcount x =>
        intro s' hs'
        exact ⟨fun _ => (hok s' hs').2, fun _ => (hok s' hs').1⟩
    | lookupContent hash => exact fun _ _ _ _ => trivial
    | _ => trivial
  obtain ⟨gs, hI', -⟩ := (World.protocol P _ []).pool (fun _ k => False.elim k) hI hm hrun
  exact fun id c hc x hx => hI'.listed_seg hc hx

/-! ### Runs -/

/-- The same, as a test of the step. -/
def StoreOp.addsToLive (o : StoreOp) (w : World P) : Bool :=
  match o with
  | .incrementRefcount x =>
    (w.seg x).all fun s => decide (s.refCount ≠ 0) && decide (s.refCount < u32Max)
  | _ => true

theorem StoreOp.addsToLive_of_test (o : StoreOp) (w : World P) (h : o.addsToLive w = true) :
    o.AddsToLive w := by
  cases o with
  | incrementRefcount x =>
      intro s hs
      have k : (w.seg x).all (fun s => decide (s.refCount ≠ 0) && decide (s.refCount < u32Max)) =
          true := h
      rw [hs, Option.all_some, Bool.and_eq_true_iff] at k
      exact ⟨of_decide_eq_true k.1, of_decide_eq_true k.2⟩
  | _ => trivial

/-- Two writes of one chunk, and a delete of the first. -/
def sampleClients : List Command := [.write ⟨0⟩ [7] {}, .write ⟨1⟩ [7] {}, .delete ⟨0⟩]

/-- The second write takes its reference before the delete gives the first one back. -/
theorem shared_listed_sample : ∃ c', schedule (World.exec []) StoreOp.addsToLive
      (World.empty (P := .stored) none, sampleClients.map (Command.program .stored))
      [0, 0, 0, 0, 0, 0, 1, 1, 2, 2, 1, 1] = some c' ∧ c'.1.Listed := by
  have hsome : (schedule (World.exec []) StoreOp.addsToLive
      (World.empty (P := .stored) none, sampleClients.map (Command.program .stored))
      [0, 0, 0, 0, 0, 0, 1, 1, 2, 2, 1, 1]).isSome = true := by decide +kernel
  obtain ⟨c', e⟩ := Option.isSome_iff_exists.mp hsome
  have hs : ∀ c ∈ sampleClients, c.Synchronous := by simp [sampleClients, Command.Synchronous]
  exact ⟨c', e, shared_listed hs (poolRun_of_schedule StoreOp.addsToLive_of_test e)⟩

/-- A write finds the segment; a delete takes the last reference away; the write adds one; the
delete reclaims the segment; the write creates its capsule. -/
theorem not_shared_listed :
    ¬ ∀ (P : Primitives) (km : Option (KeyManager P)) (cs : List Command) (w : World P)
      (ps : List (Native Unit)),
      (∀ c ∈ cs, c.Synchronous ∧
        ∀ id data policy, c = .write id data policy → policy.dedupe = true) →
      PoolRun (World.exec []) (fun _ _ => True)
        (World.empty km, cs.map (Command.program P)) (w, ps) → w.Listed := by
  intro h
  have hrun : ((schedule (World.exec []) (fun _ _ => true)
      (World.empty (P := .stored) none, sampleClients.map (Command.program .stored))
      [0, 0, 0, 0, 0, 0, 1, 2, 2, 1, 2, 2, 1, 1]).map fun c => (c.1.cap ⟨1⟩, c.1.seg ⟨0⟩)) =
      some (some ⟨⟨1⟩, 1, [⟨0⟩], {}, 0⟩, none) := by decide +kernel
  obtain ⟨c', e, hc'⟩ := Option.map_eq_some_iff.mp hrun
  obtain ⟨hcap, hseg⟩ := Prod.mk.inj hc'
  have hlisted := h .stored none sampleClients c'.1 c'.2
    (by simp [sampleClients, Command.Synchronous]) (poolRun_of_schedule (fun _ _ _ => trivial) e)
  obtain ⟨s, hs⟩ := hlisted ⟨1⟩ _ hcap ⟨0⟩ (List.mem_singleton_self _)
  rw [hseg] at hs
  cases hs

end Space

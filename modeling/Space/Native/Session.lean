import Space.Native.AsyncRunSpec
import Space.Native.ReclaimSpec
import Mathlib.Algebra.Order.Group.Multiset

/-!
# Native — Session

Commands to one pipeline, one after the other.  Between two of them the pipeline owns references
only, those that writes which failed have left behind (`Between`); after commands that succeeded it
owns nothing.

* `Command.keeps`: a command keeps `Between`, whether it succeeds or fails.
* `write_keeps`, `reclaim_keeps`: commands that succeed, when nothing was owned before them.
-/

namespace Space
open Support Prog

variable {P : Primitives} {D D' : Discipline} {w : World P} {g : Ghost}

/-- A command to a pipeline. -/
inductive Command where
  | write (id : CapsuleId) (data : Bytes) (policy : Policy)
  | writeAsync (memoryLimit : Nat) (arrivals : Order (Bytes × Nat)) (id : CapsuleId) (data : Bytes)
      (policy : Policy)
  | delete (id : CapsuleId)
  | collect (ord : Order Segment)

namespace Command

/-- The data a command writes. -/
def data : Command → Bytes
  | write _ data _ => data
  | writeAsync _ _ _ data _ => data
  | _ => []

/-- What a command runs. -/
def program (P : Primitives) : Command → Native Unit
  | write id data policy => discard (WritePipeline.writeCapsuleWithPolicy P id data policy)
  | writeAsync memoryLimit arrivals id data policy =>
      discard (WritePipeline.writeCapsuleWithPolicyAsync P memoryLimit arrivals id data policy)
  | delete id => WritePipeline.deleteCapsule id
  | collect ord => discard (WritePipeline.garbageCollect ord)

/-- Run a command to its end. -/
def run (c : Command) (w : World P) : Except Error Unit × World P :=
  (c.program P).run (World.exec c.data) w

/-- One command after the other. -/
def runAll (cs : List Command) (w : World P) : World P := cs.foldl (fun w c => (c.run w).2) w

/-- The command of a write. -/
def ofWrite (id : CapsuleId) (data : Bytes) (policy : Policy) : WriteKind → Command
  | .sync => write id data policy
  | .async memoryLimit arrivals => writeAsync memoryLimit arrivals id data policy

/-- The command comes to call `o` in `w'`. -/
def Reaches (c : Command) (w : World P) (o : StoreOp) (w' : World P) : Prop :=
  Visits (World.exec c.data).moves (c.program P) w o w'

/-- What a discipline has to say of a command. -/
def Accepted (P : Primitives) (D : Discipline) : Command → Prop
  | write _ data policy => ∃ fits, D.Accepts P policy data fits
  | writeAsync _ _ _ data policy => (chunks SEGMENT_SIZE data).length ≤ u32Max ∧
      ∃ fits, D.AcceptsAsync P policy data fits
  | _ => True

end Command

/-! ### Commands that use few operations -/

/-- An operation that looks nothing up and takes no reference. -/
def StoreOp.Reclaims : StoreOp → Prop
  | .lookupContent _ => False
  | .incrementRefcount _ => False
  | _ => True

theorem StoreOp.Reclaims.allowed {o : StoreOp} (h : o.Reclaims) : World.Allowed D o w := by
  cases o <;> first | exact h.elim | trivial

theorem uses_op {A : StoreOp → Prop} {o : StoreOp} (h : A o) :
    (perform (S := StoreSig) (ε := Error) o).Uses A := uses_perform.mpr h

section
variable {A : StoreOp → Prop}

theorem uses_releaseSegment {x : SegmentId} (h₁ : A (.decrementRefcount x))
    (h₂ : ∀ hash, A (.deregisterContent hash x)) (h₃ : A (.removeSegment x)) :
    (WritePipeline.releaseSegment x).Uses A := by
  refine uses_bind (uses_op h₁) fun (s : Segment) => ?_
  show Prog.Uses _ (if s.refCount = 0 then _ else _)
  split
  · cases s.contentHash with
    | none => exact uses_discard (uses_op h₃)
    | some hash =>
        exact uses_bind (uses_discard (uses_op (h₂ hash))) fun _ => uses_discard (uses_op h₃)
  · trivial

theorem uses_reclaimSegment {s : Segment} (h₂ : ∀ hash, A (.deregisterContent hash s.id))
    (h₃ : A (.removeSegment s.id)) : (GarbageCollector.reclaimSegment s).Uses A := by
  have hdrop : (GarbageCollector.dropReclaimed s).Uses A := by
    refine uses_bind (uses_op h₃) fun (r : Option Segment) => ?_
    cases r <;> trivial
  cases hh : s.contentHash with
  | none =>
      rw [GarbageCollector.reclaimSegment_none hh]
      exact hdrop
  | some hash =>
      rw [GarbageCollector.reclaimSegment_some hh]
      exact uses_bind (uses_discard (uses_op (h₂ hash))) fun _ => hdrop

theorem uses_sweep (h₁ : ∀ ord, A (.listSegments ord))
    (h₂ : ∀ hash x, A (.deregisterContent hash x)) (h₃ : ∀ x, A (.removeSegment x))
    (ord : Order Segment) : (GarbageCollector.sweep ord).Uses A := by
  refine uses_bind (uses_op (h₁ ord)) fun (l : List Segment) => uses_foldlM (fun n s => ?_) _ _
  show Prog.Uses _ (if s.refCount = 0 then _ else _)
  split
  · exact uses_bind (uses_reclaimSegment (fun hash => h₂ hash s.id) (h₃ s.id)) fun _ => trivial
  · trivial

end

theorem uses_deleteCapsule (id : CapsuleId) :
    (WritePipeline.deleteCapsule id).Uses StoreOp.Reclaims :=
  uses_bind (uses_op trivial) fun _ => uses_foldlM (fun _ _ =>
    uses_releaseSegment trivial (fun _ => trivial) trivial) _ _

/-! ### Between two commands -/

/-- Only references. -/
def Ghost.Refs (g : Ghost) : Prop := ∀ τ ∈ g, ∃ x, τ = .ref x

theorem Ghost.Refs.quiet (h : Ghost.Refs g) : Ghost.Quiet g := fun τ hτ => .inr (h τ hτ)

theorem Ghost.Refs.claims (h : Ghost.Refs g) : g.claims = 0 :=
  Multiset.eq_zero_of_forall_notMem fun y hy => by
    obtain ⟨τ, hτ, hy⟩ := Ghost.mem_claims.mp hy
    obtain ⟨x, rfl⟩ := h τ hτ
    exact Multiset.notMem_zero y hy

/-- The state between two commands. -/
def Between (D : Discipline) (w : World P) : Prop := ∃ g, Ghost.Refs g ∧ World.Inv D w g

/-- What a command leaves, with all but the references forgotten. -/
theorem World.Inv.settled (h : World.Inv D w g) (hq : Ghost.Quiet g) :
    ∃ g', Ghost.Refs g' ∧ (∀ x, g'.count (.ref x) = g.count (.ref x)) ∧ World.Inv D w g' := by
  classical
  refine ⟨g.filter fun τ => ∃ x, τ = .ref x, fun τ hτ => (Multiset.mem_filter.mp hτ).2,
    fun x => Multiset.count_filter_of_pos ⟨x, rfl⟩, h.filter fun τ hτ hn => ?_⟩
  exact (hq τ hτ).resolve_right hn

theorem Ghost.eq_zero_of_refs (h : Ghost.Refs g) (h0 : ∀ x, g.count (.ref x) = 0) : g = 0 :=
  Multiset.eq_zero_of_forall_notMem fun τ hτ => by
    obtain ⟨x, rfl⟩ := h τ hτ
    exact Multiset.count_eq_zero.mp (h0 x) hτ

theorem World.Inv.empty (km : Option (KeyManager P)) (hk : km.map KeyManager.derive = D.keys) :
    World.Inv D (World.empty km) 0 where
  refs := fun _ => rfl
  bounded := fun _ _ => Nat.zero_le _
  keyed := fun _ _ h => by cases h
  extent := fun _ _ h => by cases h
  dedup := fun _ _ h => by cases h
  legit := fun _ _ h => by cases h
  content := fun _ _ h => by cases h
  indexed := fun _ _ _ _ h => by cases h
  capsules := fun _ _ h => by cases h
  claimsNodup := Multiset.nodup_zero
  claimsLt := fun _ h => absurd h (Multiset.notMem_zero _)
  tokens := fun _ h => absurd h (Multiset.notMem_zero _)
  zero := fun _ _ h => by cases h
  fileEnd := fun _ => rfl
  oneTxn := Nat.zero_le _
  disk :=
    { map := rfl
      capsules := fun _ => rfl
      content := rfl
      next := Nat.le_refl _
      contentLt := fun _ _ h => by cases h
      capsuleLt := fun _ _ h => by cases h }
  keys := hk

/-- **Another discipline** for the same state, when only references are owned. -/
theorem World.Inv.retune (h : World.Inv D w g) (hg : Ghost.Refs g)
    (hl : ∀ i, D.legit i → D'.legit i)
    (hs : ∀ data policy infos, D.sound data policy infos → D'.sound data policy infos)
    (hk : D'.keys = D.keys) (hso : D'.solo → D.solo)
    (hb : D'.tight → ∀ x, w.occ x + g.weight x ≤ u32Max) : World.Inv D' w g :=
  { h with
    bounded := hb
    legit := fun x s hx hf => hl _ (h.legit x s hx hf)
    indexed := fun hs => h.indexed (hso hs)
    capsules := fun id c hc => by
      obtain ⟨infos, h₁, h₂, h₃⟩ := h.capsules id c hc
      exact ⟨infos, h₁, hs _ _ _ h₂, h₃⟩
    tokens := fun τ hτ => by
      obtain ⟨x, rfl⟩ := hg τ hτ
      trivial
    keys := h.keys.trans hk.symm }

/-! ### One command -/

/-- A command that is not a sweep leaves only references, and so does a sweep that succeeds. -/
theorem Command.wp {c : Command} (hso : D.solo) (ht : D.tight) (hA : c.Accepted P D)
    (hg : Ghost.Refs g) :
    (c.program P).wp (Token.moves D) (Token.may D c.data)
      (fun r g' => (∀ ord, c = .collect ord → r = .ok ()) → Ghost.Quiet g') g := by
  have hb : ∀ x, .bare x ∉ g := fun x k => (hg.quiet.not_dying k x none).2 rfl
  have hl : ∀ x, .listed x ∉ g := fun x k => by
    obtain ⟨y, e⟩ := hg _ k
    cases e
  cases c with
  | write id data policy =>
      obtain ⟨fits, A⟩ := hA
      exact wp_bind.mpr (WritePipeline.wp_writeCapsule A hg.quiet (fun _ hq _ _ => hq)
        fun _ _ hq _ => hq)
  | writeAsync limit arrivals id data policy =>
      obtain ⟨hmax, fits, A⟩ := hA
      refine wp_bind.mpr (WritePipeline.wp_writeAsync A hso ht hmax hg.quiet fun r g' hq => ?_)
      cases r <;> exact fun _ => hq
  | delete id =>
      exact WritePipeline.wp_deleteCapsule ht hb hl fun _ _ => hg.quiet
  | collect ord =>
      refine wp_bind.mpr (GarbageCollector.wp_sweep hb (fun n _ => hg.quiet) fun e g' k => ?_)
      cases k ord rfl

theorem Command.collect_ok {ord : Order Segment} (h : World.Inv D w g) :
    ((Command.collect ord).run w).1 = .ok () := by
  obtain ⟨n, e⟩ : ∃ n, ((GarbageCollector.sweep ord).run (World.exec []) w).1 = .ok n :=
    sweep_ok fun x s hs => (h.keyed x s hs).1
  show ((GarbageCollector.sweep ord >>= fun _ => pure ()).run (World.exec []) w).1 = _
  rw [run_bind]
  rw [show (GarbageCollector.sweep ord).run (World.exec []) w =
    (.ok n, ((GarbageCollector.sweep ord).run (World.exec []) w).2) from Prod.ext e rfl]
  rfl

/-- **A command keeps the state between commands**, whether it succeeds or fails. -/
theorem Command.keeps {c : Command} (hso : D.solo) (ht : D.tight) (hA : c.Accepted P D)
    (h : Between D w) (hok : ∀ o w', c.Reaches w o w' → World.Allowed D o w') :
    Between D (c.run w).2 := by
  obtain ⟨g, hg, hI⟩ := h
  obtain ⟨g', hq, hI'⟩ := (World.protocol P D c.data).run (f := 0) (fun _ => rfl)
    (by rw [add_zero]; exact hI) (Command.wp hso ht hA hg) hok
  rw [add_zero] at hI'
  have hq' : Ghost.Quiet g' := hq fun ord e => by subst e; exact Command.collect_ok hI
  obtain ⟨g'', hg'', -, hI''⟩ := World.Inv.settled hI' hq'
  exact ⟨g'', hg'', hI''⟩

/-- A program that succeeds and leaves no reference, when nothing was owned before it. -/
theorem owning_nothing {α : Type} {p : Native α} {note : Bytes} {a : α} (h : World.Inv D w 0)
    (hw : p.wp (Token.moves D) (Token.may D note)
      (fun r g' => r = .ok a → Ghost.Quiet g' ∧ ∀ x, g'.count (.ref x) = 0) 0)
    (hok : ∀ o w', Visits (World.exec note).moves p w o w' → World.Allowed D o w')
    (hr : (p.run (World.exec note) w).1 = .ok a) :
    World.Inv D (p.run (World.exec note) w).2 0 := by
  obtain ⟨g', hq, hI'⟩ := (World.protocol P D note).run (f := 0) (fun _ => rfl)
    (by rw [add_zero]; exact h) hw hok
  rw [add_zero] at hI'
  obtain ⟨hq, h0⟩ := hq hr
  obtain ⟨g'', hg'', hc, hI''⟩ := World.Inv.settled hI' hq
  rwa [Ghost.eq_zero_of_refs hg'' fun x => (hc x).trans (h0 x)] at hI''

/-- A write that succeeds, when nothing was owned before it: nothing is owned after it. -/
theorem write_keeps {id : CapsuleId} {data : Bytes} {policy : Policy}
    {fits : Bytes → Info → Prop} (hso : D.solo) (ht : ¬ D.tight)
    (hhit : ∀ hash i, D.hit hash i) (A : D.Accepts P policy data fits) (h : World.Inv D w 0)
    (hr : ((Command.write id data policy).run w).1 = .ok ()) :
    World.Inv D ((Command.write id data policy).run w).2 0 := by
  have hw : ((Command.write id data policy).program P).wp (Token.moves D) (Token.may D data)
      (fun r g' => r = .ok () → Ghost.Quiet g' ∧ ∀ x, g'.count (.ref x) = 0) 0 :=
    wp_bind.mpr (WritePipeline.wp_writeCapsule A (fun τ hτ => absurd hτ (Multiset.notMem_zero τ))
      (fun g' hq hc _ => ⟨hq, hc⟩) fun e g' hq k => by cases k)
  refine owning_nothing h hw (fun o w' _ => ?_) hr
  cases o with
  | incrementRefcount x => exact fun s _ => ⟨fun k => absurd k ht, fun k => absurd hso k⟩
  | lookupContent hash => exact fun x s _ _ => hhit _ _
  | _ => trivial

/-- A delete or a sweep, when nothing was owned before it. -/
theorem reclaim_keeps {c : Command} (hc : (∃ id, c = .delete id) ∨ ∃ ord, c = .collect ord)
    (h : World.Inv D w 0) (hb : ∀ x, w.occ x ≤ u32Max) :
    World.Inv D (c.run w).2 0 := by
  have hrefs : Ghost.Refs (0 : Ghost) := fun τ hτ => absurd hτ (Multiset.notMem_zero τ)
  have hnil : ∀ x, w.occ x + Ghost.weight x 0 ≤ u32Max := hb
  -- the same state, with no count about to saturate
  have h' : World.Inv { D with tight := True } w 0 :=
    h.retune hrefs (fun _ k => k) (fun _ _ _ k => k) rfl (fun k => k) fun _ => hnil
  have huses : (c.program P).Uses StoreOp.Reclaims := by
    rcases hc with ⟨id, rfl⟩ | ⟨ord, rfl⟩
    · exact uses_deleteCapsule id
    · exact uses_discard
        (uses_sweep (fun _ => trivial) (fun _ _ => trivial) (fun _ => trivial) ord)
  have hw : (c.program P).wp (Token.moves { D with tight := True })
      (Token.may { D with tight := True } c.data)
      (fun r g' => (∀ ord, c = .collect ord → r = .ok ()) → g' = 0) 0 := by
    rcases hc with ⟨id, rfl⟩ | ⟨ord, rfl⟩
    · exact WritePipeline.wp_deleteCapsule trivial (by simp) (by simp) fun _ _ => rfl
    · refine wp_bind.mpr (GarbageCollector.wp_sweep (by simp) (fun n _ => rfl) fun e g' k => ?_)
      cases k ord rfl
  obtain ⟨g', hq, hI'⟩ := (World.protocol P { D with tight := True } c.data).run (f := 0)
    (fun _ => rfl) (by rw [add_zero]; exact h') hw fun o w' hv => (visits_uses hv huses).allowed
  have e : g' = 0 := hq fun ord e => by subst e; exact Command.collect_ok h
  rw [add_zero, e] at hI'
  exact hI'.retune hrefs (fun _ k => k) (fun _ _ _ k => k) rfl (fun k => k) fun _ x =>
    hI'.bounded trivial x

/-! ### Sessions -/

/-- The commands that write, if they do, by the synchronous path. -/
def Command.Synchronous : Command → Prop
  | .writeAsync _ _ _ _ _ => False
  | _ => True

/-- The states reached by synchronous commands that succeed, each called where `A` allows it. -/
inductive Session (A : Command → World P → Prop) (w₀ : World P) : World P → Prop
  | start : Session A w₀ w₀
  | next {w : World P} (c : Command) (h : Session A w₀ w) (hs : c.Synchronous) (hA : A c w)
      (hr : (c.run w).1 = .ok ()) : Session A w₀ (c.run w).2

theorem World.occ_le_length (w : World P) (x : SegmentId) :
    w.occ x ≤ Table.total (fun c : Capsule => c.segments.length) w.store.registry.capsules :=
  Table.total_le_total (fun _ => List.count_le_length) _

end Space

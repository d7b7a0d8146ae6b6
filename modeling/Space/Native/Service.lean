import Space.Native.Rotation
import Space.Native.Sizes

/-!
# Native — Service

The service of a pipeline, over processes that all have the same keys: commands that end, crashes
in the middle of one, and commands to the key manager.  No reference count saturates, and what the
writes hash does not collide.

* `service_holds`: every segment unseals to a view that was hashed, and every capsule has the size
  of its data, and reads as its policy takes the views of it back.
* `run_derive`: no program changes a key.
-/

namespace Space
open Support Prog

variable {P : Primitives} {w w' : World P} {c : Command} {policy : Policy} {data : Bytes}
  {U : Set Bytes} {keys : Option (UInt32 → XtsKeyPair)} {tight : Prop}

/-- Every view a write hashes is in `U`, and no chunk it stores as it is decodes to something
else. -/
structure Policy.Lossless (P : Primitives) (U : Set Bytes) (policy : Policy) (data : Bytes) :
    Prop where
  hashed : ∀ chunk ∈ chunks SEGMENT_SIZE data, ∀ view r,
    compressSegment P chunk policy.compression = .ok (view, r) → view ∈ U
  readsRaw : ∀ chunk ∈ chunks SEGMENT_SIZE data, policy.ReadsRaw P chunk

/-- The views a command hashes are in `U`. -/
def Command.Hashes (P : Primitives) (U : Set Bytes) : Command → Prop
  | .write _ data policy => policy.HashesIn P U data
  | .writeAsync _ _ _ data policy => policy.HashesIn P U data
  | _ => True

/-- **An asynchronous write** may also find a chunk that it has staged itself. -/
theorem Policy.HashesIn.acceptsAsync (h : policy.HashesIn P U data) (hx : P.XtsInverse)
    (hU : P.NoCollision U) : (Discipline.reading P U keys tight).AcceptsAsync P policy data
      fun chunk i => ReadsAs P keys policy (policy.readBack P chunk) i where
  toAccepts := h.accepts hx hU (fun _ _ _ _ _ => readsAs_readBack) fun _ h => h
  again := by
    intro chunk hc view r payload m hp chunk' hc' view' r' payload' m' hp' _ heq x off
    obtain rfl : view = view' := hashContent_inj hU (h chunk hc view r hp.compressed)
      (h chunk' hc' view' r' hp'.compressed) heq
    have hshort : view.length < 4294967296 := Nat.lt_of_le_of_lt
      ((length_view_le hp'.compressed).trans (chunks_mem SEGMENT_SIZE_pos hc').2) (by decide)
    obtain ⟨hun, -⟩ := hp'.unseals hx hshort x off (asU32 payload'.length)
      (policy.registeredHash P view)
    exact readsAs_readBack hp.compressed hun

theorem Command.Hashes.accepted (h : c.Hashes P U) (hx : P.XtsInverse) (hU : P.NoCollision U)
    (hu : c.Unsaturated w) : c.Accepted P (.reading P U keys True) := by
  cases c with
  | write id data policy => exact ⟨_, (Policy.HashesIn.acceptsAsync h hx hU).toAccepts⟩
  | writeAsync limit arrivals id data policy =>
      exact ⟨hu.2 limit arrivals id data policy rfl, _, Policy.HashesIn.acceptsAsync h hx hU⟩
  | delete => trivial
  | collect => trivial

theorem Command.Unsaturated.allows (h : c.Unsaturated w) {o : StoreOp} (hv : c.Reaches w o w') :
    World.Allowed (.reading P U keys True) o w' := by
  cases o with
  | incrementRefcount x =>
      intro s hs
      exact ⟨fun _ => h.1 x w' s hv hs, fun k => absurd trivial k⟩
  | lookupContent hash => exact fun _ _ _ _ => trivial
  | _ => trivial

/-! ### The service -/

/-- The states between commands, each called where `A` allows it.  All managers have the keys
`keys`. -/
inductive Service (A : Command → World P → Prop) (keys : Option (UInt32 → XtsKeyPair)) :
    World P → Prop
  | start (km : Option (KeyManager P)) (hk : km.map KeyManager.derive = keys) :
      Service A keys (World.empty km)
  | command {w : World P} (c : Command) (h : Service A keys w) (hA : A c w) :
      Service A keys (c.run w).2
  | crash {w w'' : World P} (c : Command) (km : Option (KeyManager P))
      (capsuleOrd : Order CapsuleId) (segmentOrd sweepOrd : Order Segment) (h : Service A keys w)
      (hA : A c w) (hcut : c.Cut w w'') (hk : km.map KeyManager.derive = keys) :
      Service A keys (w''.restart km capsuleOrd segmentOrd sweepOrd).2
  | key {w : World P} {km : KeyManager P} (c : KeyCommand P) (h : Service A keys w)
      (hkm : w.store.keyManager = some km) (hs : c.SameSecrets km) :
      Service A keys (w.withManager (c.exec km))

/-- What the commands of the service keep to. -/
def Command.Serves (U : Set Bytes) (c : Command) (w : World P) : Prop :=
  c.Unsaturated w ∧ c.Hashes P U

theorem Service.mono {A B : Command → World P → Prop} (hAB : ∀ c w, A c w → B c w)
    (h : Service A keys w) : Service B keys w := by
  induction h with
  | start km hk => exact .start km hk
  | command c _ hA ih => exact .command c ih (hAB _ _ hA)
  | crash c km capsuleOrd segmentOrd sweepOrd _ hA hcut hk ih =>
      exact .crash c km capsuleOrd segmentOrd sweepOrd ih (hAB _ _ hA) hcut hk
  | key c _ hkm hs ih => exact .key c ih hkm hs

/-- What holds between the commands of a service that write data of the kind `p`. -/
structure ServiceBetween (P : Primitives) (U : Set Bytes) (keys : Option (UInt32 → XtsKeyPair))
    (p : Bytes → Prop) (w : World P) : Prop where
  store : Between (.reading P U keys True) w
  sized : w.Sized
  contents : ∀ id bytes, w.holds id = some bytes → p bytes

/-- What a program has added to the capsules is of the kind of its data. -/
theorem World.Adds.contents {p : Bytes → Prop} (h : w.Adds data w')
    (hw : ∀ id bytes, w.holds id = some bytes → p bytes) (hp : p data) :
    ∀ id bytes, w'.holds id = some bytes → p bytes := by
  intro id bytes hid
  rcases h id bytes hid with hold | rfl
  · exact hw id bytes hold
  · exact hp

/-- **What holds between the commands of a service**: only references are owned, every capsule has
the size of what it holds, and holds what was written. -/
theorem service_holds {p : Bytes → Prop} (hx : P.XtsInverse) (hU : P.NoCollision U)
    (h : Service (fun c w => c.Serves U w ∧ p c.data) keys w) : ServiceBetween P U keys p w := by
  induction h with
  | start km hk =>
      refine ⟨⟨0, fun _ k => absurd k (Multiset.notMem_zero _), .empty km hk⟩, ?_, ?_⟩
      · exact fun _ _ e => by cases e
      · exact fun _ _ e => by cases e
  | @command w c _ hA ih =>
      obtain ⟨⟨hu, hl⟩, hp⟩ := hA
      refine ⟨Command.keeps trivial trivial (hl.accepted hx hU hu) ih.store fun o w' hv =>
        hu.allows hv, ih.sized.run c.sizes, ?_⟩
      have hadds : w.Adds c.data (c.run w).2 := World.Adds.run (c.program P) w
      exact hadds.contents ih.contents hp
  | @crash w w'' c km capsuleOrd segmentOrd sweepOrd _ hA hcut hk ih =>
      obtain ⟨⟨hu, hl⟩, hp⟩ := hA
      obtain ⟨w₁, g, extra, hI, rfl, hv⟩ := Command.cut_inv trivial trivial
        (hl.accepted hx hU hu) ih.store (fun o w' hv => hu.allows hv) hcut
      obtain ⟨w', e, hI', hcaps, hledger⟩ :=
        hI.restart trivial trivial km extra capsuleOrd segmentOrd sweepOrd
      have hprod : w'.ledger.produced = w₁.ledger.produced := by rw [hledger]
      have hsized : w₁.Sized := by
        rcases hv with ⟨o, hv⟩ | rfl
        · exact ih.sized.visits c.sizes hv
        · exact ih.sized.run c.sizes
      have hadds : w.Adds c.data w₁ := by
        rcases hv with ⟨o, hv⟩ | rfl
        · exact World.Adds.visits hv
        · exact World.Adds.run (c.program P) w
      subst hk
      rw [e]
      refine ⟨⟨0, fun _ k => absurd k (Multiset.notMem_zero _), hI'⟩, hsized.congr hcaps hprod, ?_⟩
      rw [World.holds_congr hcaps hprod]
      exact hadds.contents ih.contents hp
  | key c _ hkm hs ih =>
      obtain ⟨g, hg, hI⟩ := ih.store
      exact ⟨⟨g, hg, hI.withManager hkm hs.derive⟩, ih.sized, ih.contents⟩

theorem service_between (hx : P.XtsInverse) (hU : P.NoCollision U)
    (h : Service (Command.Serves U) keys w) : Between (.reading P U keys True) w :=
  (service_holds (p := fun _ => True) hx hU (h.mono fun _ _ hA => ⟨hA, trivial⟩)).store

/-- A live capsule is read. -/
theorem Between.reads_back (h : Between (.reading P U keys tight) w) {id : CapsuleId}
    {bytes : Bytes} (hr : w.readings id = some bytes) :
    ((WritePipeline.readCapsule P id).run (World.exec []) w).1 = .ok bytes := by
  obtain ⟨g, -, hI⟩ := h
  cases hc : w.cap id with
  | none =>
      rw [World.readings_of_none hc] at hr
      cases hr
  | some c =>
      rw [World.readings_of_cap hc] at hr
      cases hr
      exact hI.reads_back (fun _ hl => hl.1) (fun _ _ _ hs => hs) hc

/-! ### The keys -/

theorem StoreOp.exec_derive (o : StoreOp) (s : Store P) :
    (o.exec s).2.keyManager.map KeyManager.derive = s.keyManager.map KeyManager.derive := by
  cases o with
  | currentKey =>
      cases hm : s.keyManager with
      | none => simp only [StoreOp.exec, Store.currentKey, hm]
      | some km =>
          simp only [StoreOp.exec, Store.currentKey, hm, Option.map_some]
          exact congrArg some (km.getKey_derive _)
  | getKey v =>
      cases hm : s.keyManager with
      | none => simp only [StoreOp.exec, Store.getKey, hm]
      | some km =>
          cases v with
          | none => simp only [StoreOp.exec, Store.getKey, hm]
          | some v =>
              simp only [StoreOp.exec, Store.getKey, hm, Option.map_some]
              exact congrArg some (km.getKey_derive v)
  | _ => rfl

/-- No program changes a key. -/
theorem run_derive {α : Type} (p : Native α) (s : Store P) :
    (p.run StoreOp.exec s).2.keyManager.map KeyManager.derive =
      s.keyManager.map KeyManager.derive :=
  Prog.run_keeps (I := fun s' : Store P => s'.keyManager.map KeyManager.derive =
    s.keyManager.map KeyManager.derive) (fun o s' _ h => (StoreOp.exec_derive o s').trans h)
    (uses_true p) rfl

end Space

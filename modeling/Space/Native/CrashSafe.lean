import Space.Native.Exact

/-!
# Native — CrashSafe

Crashes of a pipeline at any point of any command, and what the next process finds.

* `Command.crash`: after the files are opened again and the counts are reconciled, the capsules
  are those from before or from after the interrupted command, each with the payloads of its
  segments, and the maps agree.
* `life_between`: so it is in every life, of commands that end and of crashes.
* `not_crash_safe`: a reference count that saturated is the one thing that goes wrong.
-/

namespace Space
open Support Prog

variable {P : Primitives} {w w₀ w' : World P} {km : Option (KeyManager P)} {c : Command}

/-! ### The capsules change at most once -/

/-- The operations that change which capsules there are. -/
def StoreOp.ChangesCapsules : StoreOp → Prop
  | .createCapsuleWithSegments _ _ _ _ => True
  | .deleteCapsule _ => True
  | _ => False

/-- The operations that do not. -/
abbrev StoreOp.Keeps (o : StoreOp) : Prop := ¬ o.ChangesCapsules

theorem World.exec_capsules (data : Bytes) (o : StoreOp) (w : World P) (h : o.Keeps) :
    (World.exec data o w).2.capsules = w.capsules := by
  funext id
  cases o with
  | createCapsuleWithSegments => exact absurd trivial h
  | deleteCapsule => exact absurd trivial h
  | addDedupedBytes id' bytes =>
      show (((w.store.registry.addDedupedBytes id' bytes).capsules.lookup id).map _) = _
      unfold CapsuleRegistry.addDedupedBytes
      split
      · rfl
      · next c hc =>
          rw [Table.lookup_insert]
          split
          · next e =>
              subst e
              rw [World.capsules, show w.cap id = some c from hc]
              rfl
          · rfl
  | deregisterContent hash x =>
      show (((w.store.registry.deregisterContent hash x).2.capsules.lookup id).map _) = _
      rw [CapsuleRegistry.deregisterContent_capsules]
      rfl
  | currentKey =>
      show (((w.store.currentKey).2.registry.capsules.lookup id).map _) = _
      unfold Store.currentKey
      split <;> rfl
  | getKey v =>
      show (((w.store.getKey v).2.registry.capsules.lookup id).map _) = _
      unfold Store.getKey
      split
      · rfl
      · split <;> rfl
  | _ => rfl

section
variable {policy : Policy} {data : Bytes} {id : CapsuleId}

theorem uses_encryptionKey {A : StoreOp → Prop} (h : A .currentKey) :
    (WritePipeline.encryptionKey policy).Uses A := by
  unfold WritePipeline.encryptionKey
  split
  · exact uses_op h
  · trivial

theorem uses_storeHybrid {payload : Bytes} {r : CompressionResult} {hash : Option ContentHash}
    {encMeta : Option EncryptionMetadata} {material : Option HybridKeyMaterial} :
    (WritePipeline.storeHybrid payload r hash encMeta material).Uses StoreOp.Keeps := by
  refine uses_bind (uses_op not_false) fun x => ?_
  refine uses_bind (uses_mapError.mpr (uses_op not_false)) fun s => ?_
  exact uses_bind (uses_mapError.mpr (uses_op not_false)) fun _ => trivial

theorem uses_writeChunkHybrid {mlkem : Option MlkemKeyManager} {coins : Nat → Bytes}
    {st : WriteState} {chunk : Bytes × Nat} :
    (WritePipeline.writeChunkHybrid P mlkem coins id policy st chunk).Uses StoreOp.Keeps := by
  refine uses_bind uses_lift fun vr => ?_
  refine uses_bind (uses_encryptionKey not_false) fun key => ?_
  refine uses_bind uses_lift fun pm => ?_
  show Prog.Uses _ (if policy.dedupe = true then _ else _)
  split
  · refine uses_bind (uses_op (o := .lookupContent _) not_false) fun found => ?_
    cases found with
    | some x =>
        exact uses_bind (uses_mapError.mpr (uses_op not_false)) fun _ => trivial
    | none =>
        refine uses_bind uses_storeHybrid fun x => ?_
        exact uses_bind (uses_mapError.mpr (uses_op not_false)) fun _ => trivial
  · exact uses_bind uses_storeHybrid fun x => trivial

theorem uses_writeChunk {st : WriteState} {chunk : Bytes × Nat} :
    (WritePipeline.writeChunk P policy st chunk).Uses StoreOp.Keeps := by
  rw [← @WritePipeline.writeChunkHybrid_unwrapped P none (fun _ => []) ⟨0⟩ policy
    WritePipeline.not_wrapsKeys_none]
  exact uses_writeChunkHybrid

theorem once_writeCapsule :
    (WritePipeline.writeCapsuleWithPolicy P id data policy).Once StoreOp.ChangesCapsules := by
  refine once_bind_left (uses_foldlM (fun _ _ => uses_writeChunk) _ _) fun st => ?_
  have hrest : (do
      (Native.createCapsuleWithSegments id data.length st.segmentIds policy).mapError
        (mapRegistryError "create_capsule_with_segments")
      return id : Native CapsuleId).Once StoreOp.ChangesCapsules :=
    once_bind_right (once_mapError once_perform) fun _ => trivial
  show Prog.Once _ (if 0 < st.dedupStats.bytesSaved then _ else _)
  split
  · exact once_bind_left (uses_mapError.mpr (uses_op not_false)) fun _ => hrest
  · exact hrest

theorem uses_stageNew {prepared : SegmentPrepared} {t : NvramTransaction}
    {staged : Table ContentHash SegmentId} :
    (WritePipeline.stageNew policy prepared t staged).Uses StoreOp.Keeps := by
  refine uses_bind (uses_op not_false) fun x => ?_
  refine uses_bind (uses_op not_false) fun st => ?_
  exact uses_bind uses_lift fun t => trivial

theorem uses_commitSegment {prepared : SegmentPrepared} {t : NvramTransaction}
    {staged : Table ContentHash SegmentId} :
    (WritePipeline.commitSegment policy prepared t staged).Uses StoreOp.Keeps := by
  unfold WritePipeline.commitSegment
  split
  · split
    · split
      · trivial
      · exact uses_bind uses_lift fun t => trivial
    · refine uses_bind (uses_op (o := .lookupContent _) not_false) fun found => ?_
      cases found with
      | some x => exact uses_bind (uses_op not_false) fun _ => trivial
      | none => exact uses_stageNew
  · exact uses_stageNew

theorem uses_drain : ∀ (n : Nat) (st : AsyncState),
    (WritePipeline.drain policy n st).Uses StoreOp.Keeps
  | 0, _ => trivial
  | n + 1, st => by
      unfold WritePipeline.drain
      split
      · trivial
      · refine uses_bind (uses_attempt uses_commitSegment) fun r => ?_
        cases r with
        | error e => trivial
        | ok o => exact uses_drain n _

theorem uses_prepareSegment {A : StoreOp → Prop} (h : A .currentKey) {chunk : Bytes × Nat} :
    (WritePipeline.prepareSegment P policy chunk).Uses A := by
  refine uses_bind uses_lift fun vr => ?_
  refine uses_bind (uses_encryptionKey h) fun key => ?_
  exact uses_bind uses_lift fun pm => trivial

theorem uses_arrive {total : Nat} {st : AsyncState} {chunk : Bytes × Nat} :
    (WritePipeline.arrive P policy total st chunk).Uses StoreOp.Keeps := by
  refine uses_bind (uses_attempt (uses_prepareSegment not_false)) fun r => ?_
  cases r with
  | error e => trivial
  | ok prepared =>
      show Prog.Uses _ (if st.commitError.isSome = true then _ else _)
      split
      · trivial
      · exact uses_drain _ _

theorem once_finishAsync {size total : Nat} {st : AsyncState} :
    (WritePipeline.finishAsync id size policy total st).Once StoreOp.ChangesCapsules := by
  have hrelease {e : Error} : (WritePipeline.releaseIncrements st.dedupeIncrements >>= fun _ =>
      (.fail e : Native CapsuleId)).Uses StoreOp.Keeps :=
    uses_bind (WritePipeline.uses_releaseIncrements fun _ _ => not_false) fun _ => trivial
  unfold WritePipeline.finishAsync
  split
  · exact Uses.once (uses_bind (uses_discard (uses_op not_false)) fun _ => hrelease)
  · refine once_bind_left (uses_attempt (uses_op not_false)) fun res => ?_
    cases res with
    | error e => exact Uses.once hrelease
    | ok t =>
        refine once_bind_left (WritePipeline.uses_registerAll (fun _ _ => not_false)
          (fun _ _ => not_false) (fun _ _ => not_false) (fun _ _ => not_false) _ _
          (List.Subset.refl _) (List.nil_subset _)) fun _ => ?_
        refine once_bind_right (once_attempt once_perform) fun res => ?_
        cases res with
        | error e =>
            refine uses_bind (uses_foldlM (fun _ _ =>
              WritePipeline.uses_unregister not_false not_false) _ _) fun _ => ?_
            exact hrelease
        | ok u =>
            show Prog.Uses _ (if 0 < st.dedupStats.bytesSaved then _ else _)
            split
            · exact uses_bind (uses_mapError.mpr (uses_op not_false)) fun _ => trivial
            · trivial

theorem once_writeAsync {limit : Nat} {arrivals : Order (Bytes × Nat)} :
    (WritePipeline.writeCapsuleWithPolicyAsync P limit arrivals id data policy).Once
      StoreOp.ChangesCapsules := by
  show Prog.Once _ (if (chunks SEGMENT_SIZE data).zipIdx.length = 0 then _ else _)
  split
  · exact once_bind_right (once_mapError once_perform) fun _ => trivial
  · refine once_bind_left (uses_op not_false) fun t => ?_
    split
    · exact Uses.once (uses_bind (uses_discard (uses_op not_false)) fun _ => trivial)
    · exact once_bind_left (uses_foldlM (fun _ _ => uses_arrive) _ _) fun st => once_finishAsync

end

/-- **A command changes the capsules at most once.** -/
theorem Command.once (c : Command) : (c.program P).Once StoreOp.ChangesCapsules := by
  cases c with
  | write id data policy => exact once_bind_right once_writeCapsule fun _ => trivial
  | writeAsync limit arrivals id data policy =>
      exact once_bind_right once_writeAsync fun _ => trivial
  | delete id =>
      refine once_bind_right once_perform fun c => uses_foldlM (fun _ x => ?_) _ _
      exact uses_releaseSegment not_false (fun _ => not_false) not_false
  | collect ord =>
      exact Uses.once (uses_discard
        (uses_sweep (fun _ => not_false) (fun _ _ => not_false) (fun _ => not_false) ord))

/-! ### Crashes -/

/-- No reference is added to a segment whose count is `u32::MAX`, and no asynchronous write has
more than `u32::MAX` chunks. -/
def Command.Unsaturated (c : Command) (w : World P) : Prop :=
  (∀ x w' s, c.Reaches w (.incrementRefcount x) w' → w'.seg x = some s → s.refCount < u32Max) ∧
    ∀ limit arrivals id data policy, c = .writeAsync limit arrivals id data policy →
      (chunks SEGMENT_SIZE data).length ≤ u32Max

/-- The same, as a test of the run. -/
def StoreOp.unsaturated (o : StoreOp) (w : World P) : Bool :=
  match o with
  | .incrementRefcount x => decide (w.refs x < u32Max)
  | _ => true

theorem Command.unsaturated_of_along
    (h : (c.program P).along (World.exec c.data) StoreOp.unsaturated w = true)
    (ha : ∀ limit arrivals id data policy, c = .writeAsync limit arrivals id data policy →
      (chunks SEGMENT_SIZE data).length ≤ u32Max) : c.Unsaturated w := by
  refine ⟨fun x w' s hv hs => ?_, ha⟩
  have k : decide (w'.refs x < u32Max) = true := along_visits h hv
  rw [← World.refs_of_seg hs]
  exact of_decide_eq_true k

/-- The durable states a command may be interrupted in; the last one is its end. -/
def Command.Cut (c : Command) (w w'' : World P) : Prop :=
  (∃ o w', c.Reaches w o w' ∧ World.Crash o w' w'') ∨ w'' = (c.run w).2

/-- The states between commands, in a life of commands that end and of crashes, each command
called where `A` allows it. -/
inductive Life (A : Command → World P → Prop) (w₀ : World P) : World P → Prop
  | start : Life A w₀ w₀
  | command {w : World P} (c : Command) (h : Life A w₀ w) (hA : A c w) : Life A w₀ (c.run w).2
  | crash {w w'' : World P} (c : Command) (km : Option (KeyManager P))
      (capsuleOrd : Order CapsuleId) (segmentOrd sweepOrd : Order Segment) (h : Life A w₀ w)
      (hA : A c w) (hcut : c.Cut w w'') :
      Life A w₀ (w''.restart km capsuleOrd segmentOrd sweepOrd).2

/-- Every capsule has the payloads its segments were written with. -/
def World.Stored (w : World P) : Prop :=
  ∀ id c, w.cap id = some c → List.Forall₂ (fun x d => ∃ s, w.seg x = some s ∧
    s.len = asU32 d.length ∧ s.offset + d.length ≤ w.file.length ∧
    slice w.file s.offset d.length = d) c.segments (w.ledger.contents id)

theorem World.Inv.storedPayloads {D : Discipline} {g : Ghost} (h : World.Inv D w g) : w.Stored := by
  intro id c hc
  obtain ⟨infos, hk, -, e⟩ := h.capsules id c hc
  rw [e, List.forall₂_map_right_iff]
  have hseg := (List.forall₂_and_left _ _).mpr ⟨fun x hx => h.listed_seg hc hx, hk⟩
  refine hseg.imp fun x i => ?_
  rintro ⟨⟨s, hs⟩, hi⟩
  have hext := h.extent x s hs
  rw [← hi.payload]
  exact ⟨s, hs, hext.len, hext.inside, hext.stored⟩

theorem acceptsAsync_plain {keys : Option (UInt32 → XtsKeyPair)} {solo tight : Prop}
    {policy : Policy} {data : Bytes} :
    (Discipline.plain keys solo tight).AcceptsAsync P policy data fun _ _ => True :=
  { accepts_plain with again := by intros; trivial }

theorem Command.Unsaturated.accepted {keys : Option (UInt32 → XtsKeyPair)}
    (h : c.Unsaturated w) : c.Accepted P (.plain keys True True) := by
  cases c with
  | write => exact ⟨_, accepts_plain⟩
  | writeAsync limit arrivals id data policy =>
      exact ⟨h.2 limit arrivals id data policy rfl, _, acceptsAsync_plain⟩
  | delete => trivial
  | collect => trivial

theorem Command.Unsaturated.allowed {keys : Option (UInt32 → XtsKeyPair)} (h : c.Unsaturated w)
    {o : StoreOp} (hv : c.Reaches w o w') : World.Allowed (.plain keys True True) o w' := by
  cases o with
  | incrementRefcount x =>
      intro s hs
      exact ⟨fun _ => h.1 x w' s hv hs, fun k => absurd trivial k⟩
  | lookupContent hash => exact fun _ _ _ _ => trivial
  | _ => trivial

/-- Where a command is cut, the invariant holds of what the process owned, and the file has
grown at most. -/
theorem Command.cut_inv {D : Discipline} {w'' : World P} (hso : D.solo) (ht : D.tight)
    (hA : c.Accepted P D) (h : Between D w)
    (hok : ∀ o w', c.Reaches w o w' → World.Allowed D o w') (hcut : c.Cut w w'') :
    ∃ w₁ g extra, World.Inv D w₁ g ∧ w'' = w₁.withFile (w₁.file ++ extra) ∧
      ((∃ o, c.Reaches w o w₁) ∨ w₁ = (c.run w).2) := by
  rcases hcut with ⟨o, w', hv, hcrash⟩ | rfl
  · obtain ⟨g, hg, hI⟩ := h
    obtain ⟨g', hm, hI'⟩ := (World.protocol P D c.data).visits (f := 0)
      (fun _ => rfl) (by rw [add_zero]; exact hI) (Command.wp hso ht hA hg) hok hv
    rw [add_zero] at hI'
    obtain ⟨extra, e⟩ := hI'.crash hm hcrash
    exact ⟨w', g', extra, hI', e, .inl ⟨o, hv⟩⟩
  · obtain ⟨g, -, hI⟩ := Command.keeps hso ht hA h hok
    exact ⟨_, g, [], hI, by rw [List.append_nil, World.withFile_file], .inr rfl⟩

/-- The capsules where a command is cut are those from before or from after it. -/
theorem Command.cut_capsules {w₁ : World P}
    (h : (∃ o, c.Reaches w o w₁) ∨ w₁ = (c.run w).2) :
    w₁.capsules = w.capsules ∨ w₁.capsules = (c.run w).2.capsules := by
  rcases h with ⟨o, hv⟩ | rfl
  · exact visits_once (World.exec_capsules c.data) c.once hv
  · exact .inr rfl

/-- Between the commands of a life only references are owned. -/
theorem life_between (h : Life Command.Unsaturated (World.empty km) w) :
    ∃ keys, Between (.plain keys True True) w := by
  induction h with
  | start => exact ⟨_, 0, fun _ k => absurd k (Multiset.notMem_zero _), .empty km rfl⟩
  | command c _ hu ih =>
      obtain ⟨keys, hB⟩ := ih
      exact ⟨keys, Command.keeps trivial trivial hu.accepted hB fun o w' hv => hu.allowed hv⟩
  | crash c km' capsuleOrd segmentOrd sweepOrd _ hu hcut ih =>
      obtain ⟨keys, hB⟩ := ih
      obtain ⟨w₁, g, extra, hI, rfl, -⟩ := Command.cut_inv trivial trivial hu.accepted hB
        (fun o w' hv => hu.allowed hv) hcut
      obtain ⟨w', e, hI', -⟩ := hI.restart trivial trivial km' extra capsuleOrd segmentOrd sweepOrd
      rw [e]
      exact ⟨_, 0, fun _ k => absurd k (Multiset.notMem_zero _), hI'⟩

/-- **Crash consistency.**  Whatever a life did before, and wherever a command of it is cut:
opening the files and reconciling succeeds, the capsules are those from before or from after the
command, they have the payloads that were written for them, and the maps agree. -/
theorem crash_safe {w'' : World P} (h : Life Command.Unsaturated (World.empty km) w)
    (hu : c.Unsaturated w) (hcut : c.Cut w w'') (km' : Option (KeyManager P))
    (capsuleOrd : Order CapsuleId) (segmentOrd sweepOrd : Order Segment) :
    ∃ w', w''.restart km' capsuleOrd segmentOrd sweepOrd = (.ok (), w') ∧
      (w'.capsules = w.capsules ∨ w'.capsules = (c.run w).2.capsules) ∧ w'.Stored ∧ w'.Exact := by
  obtain ⟨keys, hB⟩ := life_between h
  obtain ⟨w₁, g, extra, hI, rfl, hv⟩ := Command.cut_inv trivial trivial hu.accepted hB
    (fun o w' hv => hu.allowed hv) hcut
  obtain ⟨w', e, hI', hc, -⟩ := hI.restart trivial trivial km' extra capsuleOrd segmentOrd sweepOrd
  exact ⟨w', e, (Command.cut_capsules hv).imp hc.trans hc.trans, hI'.storedPayloads,
    hI'.exact trivial (hI'.bounded trivial)⟩

/-- A capsule that was written, and a second one whose write of the same chunk is cut between the
reference it takes and the capsule it creates. -/
theorem crash_safe_second_write : ∃ cut w' : World .stored,
    (Command.write ⟨1⟩ unframed {}).Cut (Command.runAll [.write ⟨0⟩ unframed {}]
      (World.empty none)) cut ∧ cut.refs ⟨0⟩ = 2 ∧ cut.cap ⟨1⟩ = none ∧
      cut.restart none .asGiven .asGiven .asGiven = (.ok (), w') ∧ w'.Stored ∧ w'.Exact := by
  have h₁ : Life Command.Unsaturated (World.empty (P := .stored) none)
      ((Command.write ⟨0⟩ unframed {}).run (World.empty none)).2 :=
    .command _ .start (Command.unsaturated_of_along (by decide +kernel) (by simp))
  set w : World .stored := ((Command.write ⟨0⟩ unframed {}).run (World.empty none)).2 with hw
  have hcall : ((callAt (World.exec unframed) 3 ((Command.write ⟨1⟩ unframed {}).program .stored)
      w).map fun r => (r.2.refs ⟨0⟩, (r.2.cap ⟨1⟩).isNone)) = some (2, true) := by decide +kernel
  obtain ⟨⟨o, cut⟩, e, hcut⟩ := Option.map_eq_some_iff.mp hcall
  obtain ⟨hrefs, hcap⟩ := Prod.mk.inj hcut
  have hc : (Command.write ⟨1⟩ unframed {}).Cut w cut :=
    .inl ⟨o, cut, visits_of_callAt e, .between o cut⟩
  obtain ⟨w', hrun, -, hs, he⟩ := crash_safe (c := .write ⟨1⟩ unframed {}) h₁
    (Command.unsaturated_of_along (by decide +kernel) (by simp)) hc none .asGiven .asGiven .asGiven
  exact ⟨cut, w', hc, hrefs, Option.isNone_iff_eq_none.mp hcap, hrun, hs, he⟩

/-! ### A count that saturated -/

/-- The hash of the one chunk of the capsules below. -/
def crowdHash : ContentHash := hashContent .stored [7]

/-- Its segment, with `n` references and `a` accesses. -/
def crowdSegment (n a : Nat) : Segment :=
  { (Segment.appended ⟨0⟩ 0 1).describe
      { CompressionResult.identity [7] (some .ineffective) with } (some crowdHash) none with
    refCount := n, deduplicated := decide (1 < n), accessCount := a }

/-- A store whose capsules all have one segment. -/
def crowd (caps : Table CapsuleId Capsule) (n a : Nat) : Store .stored where
  registry := {
    capsules := caps
    nextSegmentId := 1
    contentStore := (∅ : Table ContentHash SegmentId).insert crowdHash ⟨0⟩
    saved := some ⟨caps, 1, (∅ : Table ContentHash SegmentId).insert crowdHash ⟨0⟩⟩ }
  nvram := {
    file := [7]
    segmentMap := (∅ : Table SegmentId Segment).insert ⟨0⟩ (crowdSegment n a)
    nextOffset := 1
    savedMap := some ((∅ : Table SegmentId Segment).insert ⟨0⟩ (crowdSegment n a)) }
  keyManager := none

variable {caps : Table CapsuleId Capsule} {id : CapsuleId} {n a : Nat}

theorem run_op_ok {o : StoreOp} {s s' : Store P} {a : o.Res} {f : Error → Error}
    (h : StoreOp.exec o s = (.ok a, s')) :
    ((perform (S := StoreSig) o).mapError f).run StoreOp.exec s = (.ok a, s') := by
  rw [run_mapError, run_perform, h]
  rfl

theorem crowd_write (h : caps.lookup id = none) :
    (WritePipeline.writeCapsuleWithPolicy .stored id [7] {}).run StoreOp.exec (crowd caps n a) =
      (.ok id, crowd (caps.insert id ⟨id, 1, [⟨0⟩], {}, 0⟩) (saturatingSucc n)
        (saturatingSucc a)) := by
  unfold WritePipeline.writeCapsuleWithPolicy
  rw [run_bind, show ((chunks SEGMENT_SIZE [7]).zipIdx.foldlM
      (WritePipeline.writeChunk .stored {}) {}).run StoreOp.exec (crowd caps n a) =
    (.ok ⟨[⟨0⟩], ⟨1, 1, 1⟩⟩, crowd caps (saturatingSucc n) (saturatingSucc a)) from rfl]
  have h₁ : ((Native.addDedupedBytes id 1).mapError (mapRegistryError "add_deduped_bytes")).run
      StoreOp.exec (crowd caps (saturatingSucc n) (saturatingSucc a)) =
      (.ok (), crowd caps (saturatingSucc n) (saturatingSucc a)) := by
    refine run_op_ok ?_
    simp only [StoreOp.exec, Store.onRegistry, CapsuleRegistry.addDedupedBytes, crowd, h]
  have h₂ : ((Native.createCapsuleWithSegments id 1 [⟨0⟩] {}).mapError
      (mapRegistryError "create_capsule_with_segments")).run
      StoreOp.exec (crowd caps (saturatingSucc n) (saturatingSucc a)) =
      (.ok (), crowd (caps.insert id ⟨id, 1, [⟨0⟩], {}, 0⟩) (saturatingSucc n)
        (saturatingSucc a)) := by
    refine run_op_ok ?_
    simp only [StoreOp.exec, CapsuleRegistry.createCapsuleWithSegments, CapsuleRegistry.save,
      crowd, h]
    rfl
  change Prog.run StoreOp.exec (do
    (Native.addDedupedBytes id 1).mapError (mapRegistryError "add_deduped_bytes")
    (Native.createCapsuleWithSegments id 1 [⟨0⟩] {}).mapError
      (mapRegistryError "create_capsule_with_segments")
    return id) _ = _
  rw [run_bind, h₁]
  dsimp only
  rw [run_bind, h₂]
  rfl

theorem run_delete_crowd {c : Capsule} (h : caps.lookup id = some c) :
    (Native.registryDeleteCapsule id).run StoreOp.exec (crowd caps n a) =
      (.ok c, crowd (caps.erase id) n a) := by
  refine (run_perform _ _ _).trans ?_
  simp only [StoreOp.exec, CapsuleRegistry.deleteCapsule, CapsuleRegistry.save, crowd, h]
  rfl

theorem crowd_delete {c : Capsule} (h : caps.lookup id = some c) (hc : c.segments = [⟨0⟩]) :
    (WritePipeline.deleteCapsule id).run StoreOp.exec (crowd caps (n + 2) a) =
      (.ok (), crowd (caps.erase id) (n + 1) a) := by
  unfold WritePipeline.deleteCapsule
  rw [run_bind, run_delete_crowd h]
  dsimp only
  rw [hc]
  rfl

/-- A store whose capsules have lost their segment. -/
def deserted (caps : Table CapsuleId Capsule) : Store .stored where
  registry := {
    capsules := caps
    nextSegmentId := 1
    contentStore := ∅
    saved := some ⟨caps, 1, ∅⟩ }
  nvram := { file := [7], segmentMap := ∅, nextOffset := 1, savedMap := some ∅ }
  keyManager := none

theorem crowd_last {c : Capsule} (h : caps.lookup id = some c) (hc : c.segments = [⟨0⟩]) :
    (WritePipeline.deleteCapsule id).run StoreOp.exec (crowd caps 1 a) =
      (.ok (), deserted (caps.erase id)) := by
  unfold WritePipeline.deleteCapsule
  rw [run_bind, run_delete_crowd h]
  dsimp only
  rw [hc]
  rfl

/-- The capsules `lo`, …, `hi - 1`. -/
def Crowd (lo hi : Nat) (caps : Table CapsuleId Capsule) : Prop :=
  ∀ k, caps.lookup ⟨k⟩ = if lo ≤ k ∧ k < hi then some ⟨⟨k⟩, 1, [⟨0⟩], {}, 0⟩ else none

theorem command_store (c : Command) (w : World P) :
    (c.run w).2.store = ((c.program P).run StoreOp.exec w.store).2 := (World.run_store _ _ _).2

/-- After any number of writes of one chunk. -/
theorem life_crowd (m : Nat) : ∃ w : World .stored, Life (fun _ _ => True) (World.empty none) w ∧
    ∃ caps a, Crowd 0 (m + 1) caps ∧ w.store = crowd caps (min (m + 1) u32Max) a := by
  induction m with
  | zero =>
      refine ⟨_, .command (.write ⟨0⟩ [7] {}) .start trivial, _, 0, fun k => ?_,
        (command_store _ _).trans rfl⟩
      rw [Table.lookup_insert]
      by_cases hk : k = 0
      · subst hk; rfl
      · rw [if_neg fun e => hk (CapsuleId.mk.inj e), if_neg (by omega)]
        rfl
  | succ m ih =>
      obtain ⟨w, hw, caps, a, hc, e⟩ := ih
      have hnew : caps.lookup ⟨m + 1⟩ = none := by
        rw [hc, if_neg (by omega)]
      refine ⟨_, .command (.write ⟨m + 1⟩ [7] {}) hw trivial,
        caps.insert ⟨m + 1⟩ ⟨⟨m + 1⟩, 1, [⟨0⟩], {}, 0⟩, saturatingSucc a, fun k => ?_, ?_⟩
      · rw [Table.lookup_insert, hc]
        by_cases hk : k = m + 1
        · subst hk
          rw [if_pos rfl, if_pos (by omega)]
        · rw [if_neg fun e => hk (CapsuleId.mk.inj e)]
          exact if_congr (by omega) rfl rfl
      · have hmin : saturatingSucc (min (m + 1) u32Max) = min (m + 1 + 1) u32Max := by
          unfold saturatingSucc
          omega
        rw [command_store, e, ← hmin]
        rw [Command.program, run_discard, crowd_write hnew]

/-- After `u32::MAX + 1` writes and some deletes. -/
theorem life_thinned (j : Nat) (hj : j < u32Max) :
    ∃ w : World .stored, Life (fun _ _ => True) (World.empty none) w ∧
      ∃ caps a, Crowd j (u32Max + 1) caps ∧ w.store = crowd caps (u32Max - j) a := by
  induction j with
  | zero =>
      obtain ⟨w, hw, caps, a, hc, e⟩ := life_crowd u32Max
      exact ⟨w, hw, caps, a, hc, e.trans (by rw [Nat.min_eq_right (by omega)]; rfl)⟩
  | succ j ih =>
      obtain ⟨w, hw, caps, a, hc, e⟩ := ih (by omega)
      have hold : caps.lookup ⟨j⟩ = some ⟨⟨j⟩, 1, [⟨0⟩], {}, 0⟩ := by
        rw [hc, if_pos (by omega)]
      refine ⟨_, .command (.delete ⟨j⟩) hw trivial, caps.erase ⟨j⟩, a, fun k => ?_, ?_⟩
      · rw [Table.lookup_erase, hc]
        by_cases hk : k = j
        · subst hk
          rw [if_pos rfl, if_neg (by omega)]
        · rw [if_neg fun e => hk (CapsuleId.mk.inj e)]
          exact if_congr (by omega) rfl rfl
      · rw [command_store, e, show u32Max - j = (u32Max - (j + 1) - 1) + 2 by omega,
          Command.program, crowd_delete hold rfl]
        rw [show u32Max - (j + 1) - 1 + 1 = u32Max - (j + 1) by omega]

/-- A capsule that lists a segment that is not there. -/
theorem life_deserted : ∃ w : World .stored, Life (fun _ _ => True) (World.empty none) w ∧
    w.cap ⟨u32Max⟩ = some ⟨⟨u32Max⟩, 1, [⟨0⟩], {}, 0⟩ ∧ w.store.nvram.savedMap = some ∅ := by
  obtain ⟨w, hw, caps, a, hc, e⟩ := life_thinned (u32Max - 1) (by decide)
  have hold : caps.lookup ⟨u32Max - 1⟩ = some ⟨⟨u32Max - 1⟩, 1, [⟨0⟩], {}, 0⟩ := by
    rw [hc, if_pos (by decide)]
  have hrun : (((Command.delete ⟨u32Max - 1⟩).run w).2).store =
      deserted (caps.erase ⟨u32Max - 1⟩) := by
    rw [command_store, e, show u32Max - (u32Max - 1) = 1 from by decide, Command.program,
      crowd_last hold rfl]
  refine ⟨_, .command (.delete ⟨u32Max - 1⟩) hw trivial, ?_, by rw [hrun]; rfl⟩
  rw [World.cap, hrun]
  show (caps.erase _).lookup _ = _
  rw [Table.lookup_erase, if_neg (by decide), hc, if_pos (by decide)]

/-- Reconciling a log without segments makes none. -/
theorem restart_no_segments {w w' : World P} {r : Except Error Unit}
    {capsuleOrd : Order CapsuleId} {segmentOrd sweepOrd : Order Segment}
    (h : w.store.nvram.savedMap = some ∅)
    (hr : w.restart km capsuleOrd segmentOrd sweepOrd = (r, w')) (x : SegmentId) :
    w'.seg x = none := by
  have hnone : ∀ (ord : Order Segment) (log : NvramLog), log.segmentMap = ∅ →
      log.listSegments ord = [] := by
    intro ord log e
    unfold NvramLog.listSegments
    rw [e]
    exact (ord.perm _).eq_nil
  have hwp : Prog.wp (World.exec []).moves (fun _ _ => True)
      (fun _ (w' : World P) => w'.store.nvram.segmentMap = ∅)
      (WritePipeline.reconcileRefcounts capsuleOrd segmentOrd sweepOrd) (w.reopen km) := by
    have h₀ : (w.reopen km).store.nvram.segmentMap = ∅ := by
      show w.store.nvram.savedMap.getD ∅ = ∅
      rw [h]
      rfl
    refine wp_bind.mpr (World.wp_exec (.listCapsules capsuleOrd) trivial ?_)
    refine wp_bind.mpr (wp_foldlM (fun _ _ (w' : World P) => w'.store.nvram.segmentMap = ∅)
      ?_ ?_ _ _ _ h₀)
    · -- looking a capsule up changes nothing
      intro id ids counts w' e
      refine wp_bind.mpr (wp_attempt.mpr (World.wp_exec (.lookup id) trivial ?_))
      show andThen _ _ _ _ (.ok (w'.store.registry.lookup id)) w'
      refine andThen_ok.mpr ?_
      dsimp only
      cases w'.store.registry.lookup id <;> exact e
    · intro counts w' e
      refine wp_bind.mpr (World.wp_exec (.listSegments segmentOrd) trivial ?_)
      show Prog.wp _ _ _ ((w'.store.nvram.listSegments segmentOrd).foldlM _ () >>= _) w'
      rw [hnone _ _ e]
      refine wp_bind.mpr (wp_bind.mpr ?_)
      unfold GarbageCollector.sweep
      refine wp_bind.mpr (World.wp_exec (.listSegments sweepOrd) trivial ?_)
      show Prog.wp _ _ _ ((w'.store.nvram.listSegments sweepOrd).foldlM _ 0) w'
      rw [hnone _ _ e]
      exact e
  have e := wp_run hwp
  rw [show (WritePipeline.reconcileRefcounts capsuleOrd segmentOrd sweepOrd).run (World.exec [])
    (w.reopen km) = (r, w') from hr] at e
  rw [World.seg, e]
  rfl

/-- After `u32::MAX + 1` writes of the same chunk its segment counts `u32::MAX` references, and
`u32::MAX` deletes reclaim it.  The last capsule then lists a segment that is not there. -/
theorem not_crash_safe :
    ¬ ∀ (P : Primitives) (km km' : Option (KeyManager P)) (w w'' : World P) (c : Command)
      (capsuleOrd : Order CapsuleId) (segmentOrd sweepOrd : Order Segment),
      Life (fun _ _ => True) (World.empty km) w → c.Cut w w'' →
      ∃ w', w''.restart km' capsuleOrd segmentOrd sweepOrd = (.ok (), w') ∧
        (w'.capsules = w.capsules ∨ w'.capsules = (c.run w).2.capsules) ∧
        w'.Stored ∧ w'.Exact := by
  intro h
  obtain ⟨w, hw, hcap, hmap⟩ := life_deserted
  have hcut : (Command.collect .asGiven).Cut w w :=
    .inl ⟨.listSegments .asGiven, w, .here _ _ _, .between _ _⟩
  obtain ⟨w', e, hcaps, -, hexact⟩ := h .stored none none w w (.collect .asGiven) .asGiven .asGiven
    .asGiven hw hcut
  have hkeep : ((Command.collect .asGiven).run w).2.capsules = w.capsules :=
    run_uses (World.exec_capsules _) (uses_discard
      (uses_sweep (fun _ => not_false) (fun _ _ => not_false) (fun _ => not_false) _))
  have hsame : w'.capsules ⟨u32Max⟩ = w.capsules ⟨u32Max⟩ :=
    congrFun (hcaps.elim id fun k => k.trans hkeep) _
  rw [World.capsules, World.capsules, hcap] at hsame
  obtain ⟨c, hc, hu⟩ := Option.map_eq_some_iff.mp hsame
  have hseg : c.segments = [⟨0⟩] := congrArg Capsule.segments hu
  obtain ⟨s, hs⟩ := hexact.listed _ c hc ⟨0⟩ (by rw [hseg]; exact List.mem_singleton_self _)
  rw [restart_no_segments hmap e] at hs
  cases hs

end Space

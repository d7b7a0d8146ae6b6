import Space.Native.Tamper
import Space.Support.Layers
import Space.Views.Pipeline
import Space.Views.S3Linear

/-!
# Views — S3Pipeline

The server over the native pipeline.  What a handler asks of the pipeline is a program of
operations of the registry and of the log, each a step of its own among those of every other
request; the key map and the allow-list stay under their locks.

A server deletes no capsule, so no segment loses a reference (`StoreOp.Grows`): a write that has
found a segment finds it there when it takes its reference, and nothing is assumed of the order of
the steps.

* `SharedStore.growing`: the pipeline that writes and reads.
* `s3Server_over_pipeline`: what `s3Server_linearizable` says, of the server as it runs.
-/

namespace Space
open Support Prog

variable {P : Primitives} {U : Set Bytes} {keys : Option (UInt32 → XtsKeyPair)}

/-! ### A pipeline that only grows -/

/-- Every segment has a reference. -/
def Store.Referenced (s : Store P) : Prop :=
  ∀ x segment, s.seg x = some segment → segment.refCount ≠ 0

/-- An operation after which every segment has a reference, if it had one before. -/
def StoreOp.Grows : StoreOp → Prop
  | .decrementRefcount _ => False
  | .removeSegment _ => False
  | .updateSegmentMetadata _ segment => segment.refCount ≠ 0
  | .appendSegment _ _ _ => False
  | .commit _ => False
  | .rollback _ => False
  | _ => True

/-- A segment with a reference is put into the map. -/
theorem Store.Referenced.insert {s s' : Store P} (hs : s.Referenced) {x : SegmentId}
    {segment : Segment} (h : segment.refCount ≠ 0)
    (he : s'.nvram.segmentMap = s.nvram.segmentMap.insert x segment) : s'.Referenced := by
  intro y t ht
  rw [Store.seg, he] at ht
  rcases Table.lookup_insert_eq_some.mp ht with ⟨-, rfl⟩ | ⟨-, ht⟩
  · exact h
  · exact hs y t ht

theorem StoreOp.Grows.exec {o : StoreOp} {s : Store P} (h : o.Grows) (hs : s.Referenced) :
    (o.exec s).2.Referenced := by
  cases o with
  | append x data => exact hs.insert (Nat.succ_ne_zero 0) rfl
  | updateSegmentMetadata x segment => exact hs.insert h rfl
  | incrementRefcount x =>
      cases hx : s.nvram.segmentMap.lookup x with
      | none =>
          have e : (StoreOp.exec (.incrementRefcount x) s).2 = s := by
            simp only [StoreOp.exec, NvramLog.incrementRefcount, hx]
          rwa [e]
      | some segment =>
          have hpos : (World.increment segment).refCount ≠ 0 := by
            show min (segment.refCount + 1) u32Max ≠ 0
            unfold u32Max
            omega
          refine hs.insert (x := x) hpos ?_
          simp only [StoreOp.exec, NvramLog.incrementRefcount, hx]
          rfl
  | currentKey =>
      intro x segment hx
      rw [Store.seg, show (StoreOp.exec .currentKey s).2 = s.currentKey.2 from rfl,
        s.currentKey_snd.2.1] at hx
      exact hs x segment hx
  | getKey v =>
      intro x segment hx
      have e : (s.getKey v).2.nvram = s.nvram := by
        unfold Store.getKey
        split
        · rfl
        · split <;> rfl
      rw [Store.seg, show (StoreOp.exec (.getKey v) s).2 = (s.getKey v).2 from rfl, e] at hx
      exact hs x segment hx
  | decrementRefcount => exact h.elim
  | removeSegment => exact h.elim
  | appendSegment => exact h.elim
  | commit => exact h.elim
  | rollback => exact h.elim
  | _ => exact hs

namespace WritePipeline
variable {policy : Policy} {data : Bytes} {id : CapsuleId}

theorem uses_storeNew_grows {payload : Bytes} {r : CompressionResult} {hash : Option ContentHash}
    {encMeta : Option EncryptionMetadata} :
    (storeNew payload r hash encMeta).Uses StoreOp.Grows := by
  refine uses_bind (uses_op trivial) fun x => ?_
  refine uses_bind (uses_mapError.mpr (uses_op trivial)) fun segment => ?_
  refine uses_bind (uses_mapError.mpr (uses_op ?_)) fun _ => trivial
  have hcount : (Segment.describe segment r hash encMeta).refCount = 1 := by
    unfold Segment.describe
    cases encMeta <;> rfl
  show (Segment.describe segment r hash encMeta).refCount ≠ 0
  rw [hcount]
  exact Nat.one_ne_zero

theorem uses_writeChunk_grows {st : WriteState} {chunk : Bytes × Nat} :
    (writeChunk P policy st chunk).Uses StoreOp.Grows := by
  refine uses_bind uses_lift fun vr => ?_
  refine uses_bind (uses_encryptionKey trivial) fun key => ?_
  refine uses_bind uses_lift fun pm => ?_
  show Prog.Uses _ (if policy.dedupe = true then _ else _)
  split
  · refine uses_bind (uses_op (o := .lookupContent _) trivial) fun found => ?_
    cases found with
    | some x => exact uses_bind (uses_mapError.mpr (uses_op trivial)) fun _ => trivial
    | none =>
        refine uses_bind uses_storeNew_grows fun x => ?_
        exact uses_bind (uses_mapError.mpr (uses_op trivial)) fun _ => trivial
  · exact uses_bind uses_storeNew_grows fun x => trivial

theorem uses_writeCapsule_grows :
    (writeCapsuleWithPolicy P id data policy).Uses StoreOp.Grows := by
  have hcreate : ∀ segments, ((Native.createCapsuleWithSegments id data.length segments
      policy).mapError (mapRegistryError "create_capsule_with_segments")).Uses StoreOp.Grows :=
    fun segments => uses_mapError.mpr (uses_op trivial)
  refine uses_bind (uses_foldlM (fun _ _ => uses_writeChunk_grows) _ _) fun st => ?_
  show Prog.Uses _ (if 0 < st.dedupStats.bytesSaved then _ else _)
  split
  · refine uses_bind (uses_mapError.mpr (uses_op trivial)) fun _ => ?_
    exact uses_bind (hcreate _) fun _ => trivial
  · exact uses_bind (hcreate _) fun _ => trivial

theorem uses_readCapsule_grows : (readCapsule P id).Uses StoreOp.Grows :=
  uses_mono (fun o ho => by cases o <;> first | exact trivial | exact False.elim ho)
    (uses_readCapsule id)

end WritePipeline

/-- A write whose views are in `U`, or a read. -/
def PipelineOp.Grows (P : Primitives) (U : Set Bytes) : PipelineOp → Prop
  | .delete _ => False
  | .collect _ => False
  | c => c.HashesIn P U

/-- **The pipeline that writes and reads.** -/
noncomputable def SharedStore.growing (keys : Option (UInt32 → XtsKeyPair)) (hx : P.XtsInverse)
    (hU : P.NoCollision U) :
    Implements StoreSig PipelineSig Error (SharedStore P) CapsuleStore SharedStore.Owned :=
  (SharedStore.implements keys False hx hU).within SharedStore.Does (PipelineOp.Grows P U)
    StoreOp.Grows (fun s => s.store.Referenced)
    (fun {o r s s'} ho hs hr => by
      refine ⟨⟨hr, ?_⟩, ?_⟩
      · cases o with
        | incrementRefcount x => exact fun segment hx => ⟨hs x segment hx, False.elim⟩
        | _ => trivial
      · rw [show s'.store = (o.exec s.store).2 from (congrArg Prod.snd hr.1).symm]
        exact ho.exec hs)
    (fun c hc => by
      cases c with
      | write id data policy => exact ⟨hc, WritePipeline.uses_writeCapsule_grows⟩
      | read id => exact ⟨hc, WritePipeline.uses_readCapsule_grows⟩
      | delete => exact False.elim hc
      | collect => exact False.elim hc)

/-! ### The server -/

/-- What a server keeps beside its pipeline. -/
structure S3State where
  keyMap : Table Text KeyMapping
  allowed : List Text

namespace S3State

/-- The server, with a store of capsules. -/
def server (w : S3State) (store : CapsuleStore) : S3Server := ⟨store, w.keyMap, w.allowed⟩

/-- What is done under one lock, whatever the capsules. -/
def Does : Moves S3Sig Error S3State := fun o w r w' =>
  ∀ store, S3Server.exec o (w.server store) = (r, w'.server store)

end S3State

namespace S3Op

/-- What is asked of the pipeline, and what is done under a lock. -/
def call : S3Op → (PipelineSig.sum S3Sig).Op
  | writeCapsule id data => .inl (.write id data {})
  | readCapsule id => .inl (.read id)
  | o => .inr o

def answer : (o : S3Op) → Except Error ((PipelineSig.sum S3Sig).Res o.call) → Except Error o.Res
  | permits _, r => r
  | updateAllowList _, r => r
  | writeCapsule _ _, r => r
  | readCapsule _, r => r
  | insertMapping _ _, r => r
  | mapping _, r => r
  | mappings _ _, r => r
  | removeMapping _, r => r

def impl : (o : S3Op) → Prog (PipelineSig.sum S3Sig) Error o.Res :=
  Implements.byOneImpl (S := S3Sig) call answer

/-- What it writes is read back as it is. -/
def Lossless (P : Primitives) (U : Set Bytes) : S3Op → Prop
  | writeCapsule _ data => ({} : Policy).Lossless P U data
  | _ => True

/-- What is done under a lock, over any capsules. -/
theorem does_of_local {o : S3Op} {x x' : CapsuleStore × S3State} {r : Except Error o.Res}
    (ho : ∀ s, S3Server.Fresh o s) (h : S3State.Does o x.2 r x'.2 ∧ x'.1 = x.1) :
    S3Server.Does o (x.2.server x.1) r (x'.2.server x'.1) := by
  rw [h.2]
  exact .inl ⟨ho _, h.1 x.1⟩

/-- **One operation, over a store of capsules.** -/
theorem does_of_call {o : S3Op} {x x' : CapsuleStore × S3State}
    {r : Except Error ((PipelineSig.sum S3Sig).Res o.call)} (ho : o.Lossless P U)
    (h : Moves.sum (CapsuleStore.Does P) S3State.Does o.call x r x') :
    S3Server.Does o (x.2.server x.1) (o.answer r) (x'.2.server x'.1) := by
  cases o with
  | writeCapsule id data =>
      obtain ⟨c', w'⟩ := x'
      obtain ⟨h, hw⟩ := h
      obtain rfl : w' = x.2 := hw
      rcases h with ⟨rfl, hnew, hc⟩ | ⟨he, hc⟩
      · obtain rfl : c' = x.1.write id (Policy.readsBack P {} data) := hc
        rw [Policy.readsBack_of_readsRaw (Policy.Lossless.readsRaw ho)]
        exact .inl ⟨hnew, rfl⟩
      · obtain rfl : c' = x.1 := hc
        exact .inr ⟨trivial, he, rfl⟩
  | readCapsule id =>
      obtain ⟨c', w'⟩ := x'
      obtain ⟨⟨h, hc⟩, hw⟩ := h
      obtain rfl : w' = x.2 := hw
      obtain rfl : c' = x.1 := hc
      rcases h with ⟨data, hdata, rfl⟩ | ⟨hnone, he⟩
      · refine .inl ⟨trivial, ?_⟩
        show (CapsuleStore.read x.1 id, x.2.server x.1) = _
        rw [CapsuleStore.read, hdata]
        rfl
      · exact .inr ⟨hnone, he, rfl⟩
  | permits => exact does_of_local (fun _ => trivial) h
  | updateAllowList => exact does_of_local (fun _ => trivial) h
  | insertMapping => exact does_of_local (fun _ => trivial) h
  | mapping => exact does_of_local (fun _ => trivial) h
  | mappings => exact does_of_local (fun _ => trivial) h
  | removeMapping => exact does_of_local (fun _ => trivial) h

/-- The server's operations, one for one. -/
def calls (P : Primitives) (U : Set Bytes) : Implements (PipelineSig.sum S3Sig) S3Sig Error
    (CapsuleStore × S3State) S3Server SharedStore.Owned :=
  .byOne call answer (Moves.sum (CapsuleStore.Does P) S3State.Does) S3Server.Does (Lossless P U)
    (fun x s => s = x.2.server x.1) fun ho e h => ⟨_, e ▸ does_of_call ho h, rfl⟩

theorem uses_impl {o : S3Op} (h : o.Lossless P U) :
    o.impl.Uses fun o => Sum.elim (PipelineOp.Grows P U) (fun _ => True) o := by
  refine uses_bind (uses_attempt (uses_perform.mpr ?_)) fun r => uses_lift
  cases o with
  | writeCapsule id data => exact Policy.Lossless.hashed h
  | _ => trivial

end S3Op

namespace S3Task

/-- What a request writes is read back as it is. -/
def Lossless (P : Primitives) (U : Set Bytes) : S3Task → Prop
  | request _ (.putObject _ _ data _ _) => ({} : Policy).Lossless P U data
  | _ => True

/-- The program of a task, down to the registry and the log. -/
def native (P : Primitives) (parse : Text → Except Error (List Text)) (c : S3Task) :
    Prog (StoreSig.sum S3Sig) Error S3Outcome :=
  ((c.program parse).subst S3Op.impl).subst (Implements.besideImpl (PipelineOp.native P))

variable {parse : Text → Except Error (List Text)}

theorem uses_op (o : S3Op) (h : o.Lossless P U) :
    (perform (S := S3Sig) o : S3Prog o.Res).Uses (S3Op.Lossless P U) := uses_perform.mpr h

theorem uses_handler {header : Option Bytes} {r : HttpRequest}
    (h : (request header r).Lossless P U) : r.handler.Uses (S3Op.Lossless P U) := by
  cases r with
  | putObject bucket key data id now =>
      refine uses_bind (uses_attempt (uses_bind (uses_op (.writeCapsule id data) h) fun _ => ?_))
        fun r => ?_
      · cases now with
        | none => trivial
        | some _ => exact uses_bind (uses_op (.insertMapping _ _) trivial) fun _ => trivial
      · cases r <;> trivial
  | getObject bucket key =>
      refine uses_bind (uses_attempt (uses_bind (uses_op (.mapping _) trivial) fun _ =>
        uses_op (.readCapsule _) trivial)) fun r => ?_
      cases r with
      | error e => trivial
      | ok data =>
          refine uses_bind (uses_attempt (uses_op (.mapping _) trivial)) fun r => ?_
          cases r <;> trivial
  | headObject bucket key =>
      refine uses_bind (uses_attempt (uses_op (.mapping _) trivial)) fun r => ?_
      cases r <;> trivial
  | listObjects bucket ord =>
      refine uses_bind (uses_attempt (uses_op (.mappings _ ord) trivial)) fun r => ?_
      cases r <;> trivial
  | deleteObject bucket key =>
      refine uses_bind (uses_attempt (uses_op (.removeMapping _) trivial)) fun r => ?_
      cases r <;> trivial
  | healthCheck => trivial

theorem uses_program {c : S3Task} (h : c.Lossless P U) :
    (c.program parse).Uses (S3Op.Lossless P U) := by
  cases c with
  | request header r =>
      refine uses_bind (uses_bind ?_ fun verdict => ?_) fun _ => trivial
      · unfold authorize
        split
        · trivial
        · refine uses_bind (uses_op (.permits _) trivial) fun b => ?_
          cases b <;> trivial
      · cases verdict with
        | ok _ => exact uses_handler h
        | error rejection => trivial
  | refresh endpoint socket =>
      refine uses_bind ?_ fun _ => trivial
      unfold refreshAllowed
      split
      · split
        · trivial
        · exact uses_op (.updateAllowList _) trivial
      · trivial

end S3Task

/-! ### The theorem -/

/-- **The server, down to its log.**  Whatever requests and refreshes run side by side, every
operation of the registry and of the log a step of its own: what is stored is one object that
serves each request at one moment of it, or turns it away without effect; the verdict on each
request is that of the allow-list of one moment of it; and the capsule of every object reads as its
data. -/
theorem s3Server_over_pipeline {ι : Type} {parse : Text → Except Error (List Text)}
    {km : Option (KeyManager P)} {env : Text} {s : SharedStore P × S3State}
    {t : List (Event ι S3Task S3Outcome Error)}
    {l : List (ι × S3Task × Prog (StoreSig.sum S3Sig) Error S3Outcome)} (hx : P.XtsInverse)
    (hU : P.NoCollision U) (hin : ∀ i c, .invoke i c ∈ t → c.Lossless P U)
    (h : ClientRun (S3Task.native P parse) (Moves.sum SharedStore.Does S3State.Does)
      (⟨.empty km, []⟩, ⟨∅, allowedIds env⟩) t s l) :
    (∃ a m, AtomicRun storeObject ∅ t a m ∧
      (∀ key, s.2.keyMap.lookup key = (a.lookup key).map (S3Object.stored key)) ∧
      ∀ key object, a.lookup key = some object →
        ((WritePipeline.readCapsule P object.capsuleId).run StoreOp.exec s.1.store).1 =
          .ok object.data) ∧
    (∃ m, AtomicRun (gateObject parse) (allowedIds env) (t.map (Event.map S3Outcome.verdict))
      s.2.allowed m) ∧
    (allowedIds env ≠ [] → s.2.allowed ≠ []) := by
  have hempty : (Store.empty km).Referenced := fun x segment hx => by cases hx
  have hstart : ((SharedStore.growing (km.map KeyManager.derive) hx hU).beside S3State.Does).Inv
      (⟨.empty km, []⟩, ⟨∅, allowedIds env⟩) (.empty, ⟨∅, allowedIds env⟩) 0 :=
    ⟨⟨.empty km, hempty⟩, rfl⟩
  have hnew : (S3Op.calls P U).Inv (.empty, ⟨∅, allowedIds env⟩) (.new .empty env) 0 := rfl
  obtain ⟨x, _, _, hstore, ⟨⟨hI, -⟩, hrest⟩, -⟩ := Implements.refines hstart
    (fun i c hc => uses_subst (S3Task.uses_program (hin i c hc)) fun _ => S3Op.uses_impl) h
  obtain ⟨server, _, _, hserver, hserves, -⟩ := Implements.refines hnew
    (fun i c hc => S3Task.uses_program (hin i c hc)) hstore
  obtain rfl : server = x.2.server x.1 := hserves
  obtain ⟨a, m, _, hr, hinv⟩ := S3Server.atomic_store rfl hserver
  rw [hrest]
  refine ⟨⟨a, m, hr, hinv.lookup, fun key object hl => ?_⟩, S3Server.atomic_gate hserver⟩
  exact hI.carries.reads _ _ (hinv.held key object hl)

/-! ### A run -/

namespace S3State

/-- What is done under a lock, as a function. -/
def exec : Handler S3Sig Error S3State := fun o w =>
  ((S3Server.exec o (w.server .empty)).1,
    ⟨(S3Server.exec o (w.server .empty)).2.keyMap, (S3Server.exec o (w.server .empty)).2.allowed⟩)

/-- The test of a schedule. -/
def isAllowed : (StoreSig.sum S3Sig).Op → SharedStore P × S3State → Bool
  | .inl o, s => decide (∀ id ∈ o.creates, id ∉ s.1.used)
  | .inr (.writeCapsule _ _), _ => false
  | .inr (.readCapsule _), _ => false
  | .inr _, _ => true

theorem does_exec {o : S3Op} {s : SharedStore P × S3State} (h : isAllowed (.inr o) s = true) :
    Does o s.2 (exec o s.2).1 (exec o s.2).2 := by
  intro store
  cases o with
  | writeCapsule => cases h
  | readCapsule => cases h
  | mapping key =>
      simp only [exec, S3Server.exec, server]
      cases s.2.keyMap.lookup key <;> rfl
  | removeMapping key =>
      simp only [exec, S3Server.exec, server]
      cases s.2.keyMap.lookup key <;> rfl
  | _ => rfl

theorem sum_of_isAllowed (o : (StoreSig.sum S3Sig).Op) (s : SharedStore P × S3State)
    (h : isAllowed o s = true) : Moves.sum SharedStore.Does Does o s
      (Handler.sum SharedStore.exec exec o s).1 (Handler.sum SharedStore.exec exec o s).2 := by
  cases o with
  | inl o => exact ⟨⟨rfl, rfl, of_decide_eq_true h⟩, rfl⟩
  | inr o => exact ⟨does_exec h, rfl⟩

end S3State

/-- Client 0 has stored its segment, but not yet its capsule, when client 1 puts the same bytes;
client 2 gets them before client 0 is done. -/
def sharedTurns : List (Turn Nat S3Task) :=
  .invoke 0 (.request (some [97]) (.putObject ['b'] ['k'] unframed ⟨1⟩ (some 0))) ::
      List.replicate 6 (.next 0) ++
    .invoke 1 (.request (some [97]) (.putObject ['b'] "j.txt".toList unframed ⟨2⟩ (some 0))) ::
      List.replicate 6 (.next 0) ++
    .invoke 2 (.request (some [97]) (.getObject ['b'] "j.txt".toList)) ::
      List.replicate 11 (.next 0)

/-- What they are answered. -/
def sharedAnswers : List (Nat × S3Outcome) :=
  [(2, .response ⟨200, [.contentType "text/plain".toList], .bytes unframed⟩),
    (1, .response ⟨200, [.etag ⟨2⟩], .empty⟩), (0, .response ⟨200, [.etag ⟨1⟩], .empty⟩)]

theorem s3Server_over_pipeline_shared :
    ∃ s t l, ClientRun (S3Task.native .stored fun text => .ok [text])
        (Moves.sum SharedStore.Does S3State.Does)
        (⟨.empty (P := .stored) none, []⟩, ⟨∅, allowedIds ['a']⟩) t s l ∧
      answersOf t = sharedAnswers ∧
      (∃ a m, AtomicRun storeObject ∅ t a m ∧
        (∀ key, s.2.keyMap.lookup key = (a.lookup key).map (S3Object.stored key)) ∧
        ∀ key object, a.lookup key = some object →
          ((WritePipeline.readCapsule .stored object.capsuleId).run StoreOp.exec s.1.store).1 =
            .ok object.data) ∧
      (∃ m, AtomicRun (gateObject fun text => .ok [text]) (allowedIds ['a'])
        (t.map (Event.map S3Outcome.verdict)) s.2.allowed m) ∧
      (allowedIds ['a'] ≠ [] → s.2.allowed ≠ []) := by
  have hs : (clientSchedule (S3Task.native .stored fun text => .ok [text])
      (Handler.sum SharedStore.exec S3State.exec) S3State.isAllowed
      ((⟨.empty none, []⟩ : SharedStore .stored), (⟨∅, allowedIds ['a']⟩ : S3State))
      sharedTurns).map (fun x => answersOf x.1) =
      some sharedAnswers := by decide +kernel
  obtain ⟨x, hx, e⟩ := Option.map_eq_some_iff.mp hs
  have hrun := clientRun_of_clientSchedule S3State.sum_of_isAllowed hx
  have hhashes : (Command.write ⟨1⟩ unframed {}).HashesIn .stored {unframed} :=
    hashesIn_raw (by decide) rfl
  have hraw : ({} : Policy).Lossless .stored {unframed} unframed :=
    ⟨hhashes, forall_chunk_of_length_le (by decide) fun _ _ _ _ => by decide +kernel⟩
  refine ⟨_, _, _, hrun, e, s3Server_over_pipeline (U := {unframed}) Primitives.stored_xts
    (Set.injOn_singleton _ _) (fun i c hc => ?_) hrun⟩
  have hturn := invoke_mem_of_clientSchedule hx hc
  simp only [sharedTurns, List.mem_append, List.mem_cons, List.mem_replicate, reduceCtorEq,
    and_false, or_false, Turn.invoke.injEq] at hturn
  rcases hturn with (⟨-, rfl⟩ | ⟨-, rfl⟩) | ⟨-, rfl⟩
  · exact hraw
  · exact hraw
  · trivial

end Space

import Space.Native.Sizes
import Space.Views.BlockLinear
import Space.Views.NfsCrash

/-!
# Views — BlockCrash

Crashes of the block view over the native pipeline, and what the next process finds.  A write puts
the new contents into a capsule of their own, swaps the volume over in memory, saves the table and
only then deletes the old capsule; a delete saves the table first.  So whichever table a crash
leaves, its volumes have their capsules.

* `BlockView.execOn`: an operation of the view that is a call of the pipeline runs the program of
  the pipeline, and is interrupted wherever that program is (`BlockOp.Cut`).
* `BlockCall.wp`: a call over the pipeline is a step of `blockObject`, and wherever it is cut the
  saved volumes hold the contents from before or from after it.
* `block_crash_safe`: so do the volumes of the view that is opened next, for contents that the
  pipeline reads back.
-/

namespace Space
open Support Prog

variable {P : Primitives}

/-! ### The view over the pipeline -/

/-- `read_range`. -/
def WritePipeline.readRange (P : Primitives) (id : CapsuleId) (offset len : UInt64) :
    Native Bytes := do
  let capsule ← Native.lookup id
  if UInt64.ofNat capsule.size < offset + len then
    .fail (.msg "Read beyond capsule boundary")
  else
    let fullData ← WritePipeline.readCapsule P id
    Prog.lift (sliceRange fullData offset.toNat (offset + len).toNat)

/-- The call of the pipeline an operation of the view is, if it is one. -/
def BlockOp.pipeline (P : Primitives) : (o : BlockOp) → Option (Native o.Res)
  | .writeCapsule id data => some (WritePipeline.writeCapsule P id data)
  | .readCapsule id => some (WritePipeline.readCapsule P id)
  | .readRange id offset len => some (WritePipeline.readRange P id offset len)
  | .deleteCapsule id => some (WritePipeline.deleteCapsule id)
  | _ => none

/-- The data an operation writes. -/
def BlockOp.data : BlockOp → Bytes
  | .writeCapsule _ data => data
  | _ => []

/-- `BlockView::open`.  The capsules are those of a pipeline beside the view. -/
def BlockView.open (metadata : Option Volumes) : BlockView :=
  ⟨metadata.getD ∅, true, metadata, .empty⟩

/-- What the operations do, over a pipeline. -/
def BlockView.execOn : Handler BlockSig Error (World P × BlockView) := fun o s =>
  match o.pipeline P with
  | some p => ((p.run (World.exec o.data) s.1).1, (p.run (World.exec o.data) s.1).2, s.2)
  | none => ((exec o s.2).1, s.1, (exec o s.2).2)

/-- The states of the pipeline in which an operation may be interrupted. -/
inductive BlockOp.Cut (P : Primitives) (o : BlockOp) (w : World P) : World P → Prop
  | before : Cut P o w w
  | within {p : Native o.Res} {so : StoreOp} {w' w'' : World P} (hp : o.pipeline P = some p)
      (hv : Visits (World.exec o.data).moves p w so w') (hc : World.Crash so w' w'') : Cut P o w w''

/-- Run a call to its end. -/
def BlockCall.run (c : BlockCall) (s : World P × BlockView) :
    Except Error BlockAnswer × World P × BlockView :=
  c.program.run BlockView.execOn s

/-- The durable states a call may be interrupted in. -/
inductive BlockCall.Cut (c : BlockCall) (s : World P × BlockView) : World P × BlockView → Prop
  | at {o : BlockOp} {s' : World P × BlockView} {w'' : World P}
      (hv : Visits BlockView.execOn.moves c.program s o s') (hc : o.Cut P s'.1 w'') :
      Cut c s (w'', s'.2)

/-! ### What the calls make of the volumes -/

/-- The volumes after a call that succeeds. -/
def BlockCall.apply (a : LogicalVolumes) : BlockCall → LogicalVolumes
  | .createVolume _ name size blockSize _ => a.insert name (.zeros size blockSize)
  | .write _ name offset data _ =>
    if data = [] then a
    else
      match a.lookup name with
      | none => a
      | some v =>
        if h : offset.toNat + data.length ≤ v.size.toNat then
          a.insert name (v.write offset.toNat data h)
        else a
  | .read _ _ _ => a
  | .deleteVolume name => a.erase name

/-- The volumes after a call that ends. -/
def BlockCall.completed (c : BlockCall) (a : LogicalVolumes) :
    Except Error BlockAnswer → LogicalVolumes
  | .ok _ => c.apply a
  | .error _ => a

/-- The capsule a call comes to write. -/
def BlockCall.written (a : LogicalVolumes) : BlockCall → Option (CapsuleId × Bytes)
  | .createVolume id name size blockSize _ =>
    match validateVolume name size blockSize, a.lookup name with
    | .ok _, none => some (id, List.replicate size.toNat 0)
    | _, _ => none
  | .write id name offset data _ =>
    if data = [] then none
    else
      match a.lookup name with
      | none => none
      | some v =>
        if offset.toNat + data.length ≤ v.size.toNat then
          some (id, overlay v.content (offset.toNat, data))
        else none
  | _ => none

/-- What is asked of a call: the capsule it writes, if any, stores no raw chunk that decodes, adds
no reference to a segment whose count is `u32::MAX`, and its views are hashed in `U`. -/
def BlockCall.Clean (P : Primitives) (U : Set Bytes) (c : BlockCall) (a : LogicalVolumes)
    (w : World P) : Prop :=
  ∀ id data, c.written a = some (id, data) → (Command.write id data {}).HashesIn P U ∧
    (Command.write id data {}).Readable P w ∧ (Command.write id data {}).Unsaturated w

/-- The states between calls, each call made where `A` allows it, with the volumes that the calls
which completed have made. -/
inductive BlockRun (A : BlockCall → LogicalVolumes → World P → Prop) (km : Option (KeyManager P)) :
    LogicalVolumes → World P × BlockView → Prop
  | start : BlockRun A km ∅ (World.empty km, .open none)
  | call {a : LogicalVolumes} {s : World P × BlockView} (c : BlockCall) (h : BlockRun A km a s)
      (hA : A c a s.1) : BlockRun A km (c.completed a (c.run s).1) (c.run s).2
  | reopen {a : LogicalVolumes} {s : World P × BlockView} (km' : Option (KeyManager P))
      (capsuleOrd : Order CapsuleId) (segmentOrd sweepOrd : Order Segment)
      (h : BlockRun A km a s) :
      BlockRun A km a ((s.1.restart km' capsuleOrd segmentOrd sweepOrd).2, .open s.2.metadata)

/-- A volume of the table has a live capsule of exactly its size, with these contents. -/
structure World.Serves (w : World P) (volume : BlockVolume) (v : LogicalVolume) : Prop where
  size : volume.size = v.size
  blockSize : volume.blockSize = v.blockSize
  live : ∃ capsule, w.cap volume.capsuleId = some capsule ∧ capsule.size = volume.size.toNat
  contents : ((WritePipeline.readCapsule P volume.capsuleId).run (World.exec []) w).1 =
    .ok v.content

/-- What the next process finds after a crash: the store is repaired, and the volumes of the
reloaded table hold these contents. -/
def BlockRecovers (a : LogicalVolumes) (s'' : World P × BlockView) : Prop :=
  ∀ (km : Option (KeyManager P)) (capsuleOrd : Order CapsuleId)
    (segmentOrd sweepOrd : Order Segment),
    ∃ w', s''.1.restart km capsuleOrd segmentOrd sweepOrd = (.ok (), w') ∧
      ∀ name, Option.Rel w'.Serves ((BlockView.open s''.2.metadata).volumes.lookup name)
        (a.lookup name)

variable {U : Set Bytes} {keys : Option (UInt32 → XtsKeyPair)} {w w' : World P} {data : Bytes}

/-! ### Reading -/

/-- A crash in a read leaves nothing behind. -/
def Untouched (w : World P) (o : StoreOp) (w' : World P) : Prop :=
  w' = w ∧ ∀ w'', World.Crash o w' w'' → w'' = w

section
variable (hclear : ∀ x s, w.seg x = some s → s.encrypted = false)
include hclear

theorem wp_readSegment_clear {policy : Policy} {x : SegmentId} :
    (WritePipeline.readSegment P policy x).wp (World.exec data).moves (Untouched w)
      (fun _ w' => w' = w) w := by
  refine wp_bind.mpr (World.wp_exec (.read x) ⟨rfl, fun w'' hc => by cases hc; rfl⟩ ?_)
  rw [World.exec_read]
  cases w.store.nvram.read x with
  | error e => rfl
  | ok rawData =>
      refine wp_bind.mpr (World.wp_exec (.getSegmentMetadata x)
        ⟨rfl, fun w'' hc => by cases hc; rfl⟩ ?_)
      rw [World.exec_getSegmentMetadata]
      unfold NvramLog.getSegmentMetadata
      cases hs : w.store.nvram.segmentMap.lookup x with
      | none => rfl
      | some s =>
          show Prog.wp _ _ _ (if s.encrypted = true then _ else _) w
          rw [if_neg (by simp [hclear x s hs])]
          rfl

/-- **Reading a capsule whose segments are in the clear** changes nothing. -/
theorem wp_readCapsule_clear {id : CapsuleId} :
    (WritePipeline.readCapsule P id).wp (World.exec data).moves (Untouched w)
      (fun _ w' => w' = w) w := by
  refine wp_bind.mpr (World.wp_exec (.lookup id) ⟨rfl, fun w'' hc => by cases hc; rfl⟩ ?_)
  rw [World.exec_lookup]
  cases w.store.registry.lookup id with
  | error e => rfl
  | ok capsule =>
      refine wp_foldlM (fun _ _ w' => w' = w) ?_ (fun _ _ e => e) _ _ _ rfl
      rintro x rest acc w' rfl
      refine wp_bind.mpr (wp_mono (wp_readSegment_clear hclear) ?_)
      rintro r w' rfl
      cases r <;> rfl

/-- So does reading a range of it. -/
theorem wp_readRange_clear {id : CapsuleId} {offset len : UInt64} :
    (WritePipeline.readRange P id offset len).wp (World.exec data).moves (Untouched w)
      (fun _ w' => w' = w) w := by
  refine wp_bind.mpr (World.wp_exec (.lookup id) ⟨rfl, fun w'' hc => by cases hc; rfl⟩ ?_)
  rw [World.exec_lookup]
  cases w.store.registry.lookup id with
  | error e => rfl
  | ok capsule =>
      show Prog.wp _ _ _ (if UInt64.ofNat capsule.size < offset + len then _ else _) w
      split
      · rfl
      · refine wp_bind.mpr (wp_mono (wp_readCapsule_clear hclear) ?_)
        rintro r w' rfl
        cases r with
        | error e => rfl
        | ok fullData => exact wp_lift.mpr rfl

end

/-! ### Between two calls -/

/-- A volume of the table and what it stands for, where the capsules hold `holds`. -/
structure BlockVolume.Backs (holds : CapsuleId → Option Bytes) (volume : BlockVolume)
    (v : LogicalVolume) : Prop where
  size : volume.size = v.size
  blockSize : volume.blockSize = v.blockSize
  live : holds volume.capsuleId = some v.content

/-- The volumes have capsules of their own, with their contents. -/
structure BlockSound (a : LogicalVolumes) (volumes : Volumes)
    (holds : CapsuleId → Option Bytes) : Prop where
  backed : ∀ name, Option.Rel (BlockVolume.Backs holds) (volumes.lookup name) (a.lookup name)
  distinct : ∀ name name' volume volume', volumes.lookup name = some volume →
    volumes.lookup name' = some volume' → volume.capsuleId = volume'.capsuleId → name = name'

namespace BlockSound
variable {a : LogicalVolumes} {volumes : Volumes} {holds holds' : CapsuleId → Option Bytes}
  {name : Text} {volume : BlockVolume} {v : LogicalVolume} {id : CapsuleId}

theorem looks (h : BlockSound a volumes holds) (hn : volumes.lookup name = some volume) :
    ∃ v, a.lookup name = some v ∧ volume.Backs holds v := by
  have hb := h.backed name
  rw [hn] at hb
  generalize a.lookup name = o at hb
  cases hb with
  | some hb => exact ⟨_, rfl, hb⟩

theorem absent (h : BlockSound a volumes holds) (hn : volumes.lookup name = none) :
    a.lookup name = none := by
  have hb := h.backed name
  rw [hn] at hb
  generalize a.lookup name = o at hb
  cases hb
  rfl

/-- What the capsules of the volumes hold is all that matters. -/
theorem congr (h : BlockSound a volumes holds)
    (hk : ∀ name volume, volumes.lookup name = some volume →
      holds' volume.capsuleId = holds volume.capsuleId) : BlockSound a volumes holds' where
  backed := by
    intro name
    have hb := h.backed name
    have hk := hk name
    generalize volumes.lookup name = o at hb hk
    generalize a.lookup name = o' at hb
    cases hb with
    | none => exact .none
    | some hb => exact .some ⟨hb.size, hb.blockSize, (hk _ rfl).trans hb.live⟩
  distinct := h.distinct

/-- A capsule that is not there is no volume's. -/
theorem capsuleId_ne (h : BlockSound a volumes holds) (hid : holds id = none)
    (hn : volumes.lookup name = some volume) : volume.capsuleId ≠ id := by
  rintro rfl
  obtain ⟨v, -, hb⟩ := h.looks hn
  rw [hb.live] at hid
  cases hid

/-- **A capsule no volume has** may come or go. -/
theorem changes (h : BlockSound a volumes holds)
    (hno : ∀ name volume, volumes.lookup name = some volume → volume.capsuleId ≠ id)
    (content : Option Bytes) : BlockSound a volumes (Function.update holds id content) :=
  h.congr fun name volume hn => Function.update_of_ne (hno name volume hn) ..

/-- **A volume is put in its place**, over a capsule nobody else has. -/
theorem puts (h : BlockSound a volumes holds) (hid : holds id = none) (hc : volume.capsuleId = id)
    (hs : volume.size = v.size) (hb : volume.blockSize = v.blockSize) :
    BlockSound (a.insert name v) (volumes.insert name volume)
      (Function.update holds id (some v.content)) where
  backed := by
    intro k
    rw [Table.lookup_insert, Table.lookup_insert]
    by_cases hk : k = name
    · rw [if_pos hk, if_pos hk]
      exact .some ⟨hs, hb, hc ▸ Function.update_self ..⟩
    · rw [if_neg hk, if_neg hk]
      exact (h.changes (fun _ _ hn => h.capsuleId_ne hid hn) _).backed k
  distinct := by
    intro k k' u u' hu hu' e
    rcases Table.lookup_insert_eq_some.mp hu with ⟨rfl, rfl⟩ | ⟨-, ho⟩ <;>
      rcases Table.lookup_insert_eq_some.mp hu' with ⟨rfl, rfl⟩ | ⟨-, ho'⟩
    · rfl
    · exact absurd (e.symm.trans hc) (h.capsuleId_ne hid ho')
    · exact absurd (e.trans hc) (h.capsuleId_ne hid ho)
    · exact h.distinct k k' u u' ho ho' e

theorem erases (h : BlockSound a volumes holds) (name : Text) :
    BlockSound (a.erase name) (volumes.erase name) holds where
  backed := by
    intro k
    rw [Table.lookup_erase, Table.lookup_erase]
    by_cases hk : k = name
    · rw [if_pos hk, if_pos hk]
      exact .none
    · rw [if_neg hk, if_neg hk]
      exact h.backed k
  distinct := fun k k' u u' hu hu' => h.distinct k k' u u' (Table.lookup_erase_eq_some.mp hu).2
    (Table.lookup_erase_eq_some.mp hu').2

/-- The capsule a volume had, once the volume is gone or has another one. -/
theorem superseded (h : BlockSound a volumes holds) (hn : volumes.lookup name = some volume)
    {k : Text} {u : BlockVolume} (hk : k ≠ name) (hu : volumes.lookup k = some u) :
    u.capsuleId ≠ volume.capsuleId :=
  fun e => hk (h.distinct k name u volume hu hn e)

end BlockSound

/-- What holds between two calls. -/
structure BlockBetween (P : Primitives) (U : Set Bytes) (keys : Option (UInt32 → XtsKeyPair))
    (a : LogicalVolumes) (s : World P × BlockView) : Prop where
  store : Between (.cleartext P U keys) s.1
  sized : s.1.Sized
  sound : BlockSound a s.2.volumes s.1.holds
  saved : s.2.metadata.getD ∅ = s.2.volumes
  persistent : s.2.persistent = true

/-- What a crash may leave: a store to be repaired, under a table that was saved. -/
structure BlockSurvives (P : Primitives) (U : Set Bytes) (keys : Option (UInt32 → XtsKeyPair))
    (a : LogicalVolumes) (s'' : World P × BlockView) : Prop where
  store : ∃ w g extra, World.Inv (.cleartext P U keys) w g ∧ s''.1 = w.withFile (w.file ++ extra)
  sized : s''.1.Sized
  sound : BlockSound a (s''.2.metadata.getD ∅) s''.1.holds

/-- What a crash at an operation of a call leaves. -/
def BlockGuard (P : Primitives) (U : Set Bytes) (keys : Option (UInt32 → XtsKeyPair))
    (a : LogicalVolumes) (c : BlockCall) (o : BlockOp) (s' : World P × BlockView) : Prop :=
  ∀ w'', o.Cut P s'.1 w'' →
    BlockSurvives P U keys a (w'', s'.2) ∨ BlockSurvives P U keys (c.apply a) (w'', s'.2)

theorem Between.clear (h : Between (.cleartext P U keys) w) {x : SegmentId} {s : Segment}
    (hs : w.seg x = some s) : s.encrypted = false := by
  obtain ⟨g, hg, hI⟩ := h
  exact (hI.legit x s hs (hg.claims ▸ Multiset.notMem_zero x)).2.1

/-- A live capsule reads as what it was written from. -/
theorem Between.reads (h : Between (.cleartext P U keys) w) {id : CapsuleId} {bytes : Bytes}
    (hh : w.holds id = some bytes) :
    ((WritePipeline.readCapsule P id).run (World.exec data) w).1 = .ok bytes := by
  obtain ⟨g, -, hI⟩ := h
  obtain ⟨⟨capsule, hc⟩, rfl⟩ := World.holds_eq_some.mp hh
  refine hI.read (fun _ hl => hl.1) (fun _ _ _ hsound => hsound.imp ?_) hc
  rintro chunk i ⟨hclear, hdec⟩
  exact ⟨i.payload, .inl ⟨hclear, rfl⟩, hdec⟩

/-- A range of it reads as that range of the data. -/
theorem Between.readsRange (h : Between (.cleartext P U keys) w) (hz : w.Sized) {id : CapsuleId}
    {bytes : Bytes} (hh : w.holds id = some bytes) (hl : bytes.length < 18446744073709551616)
    (offset len : UInt64) :
    ((WritePipeline.readRange P id offset len).run (World.exec data) w).1 =
      readRangeOf bytes offset len := by
  obtain ⟨⟨capsule, hc⟩, hprod⟩ := World.holds_eq_some.mp hh
  have hlook : (Native.lookup id).run (World.exec data) w = (.ok capsule, w) := by
    refine (run_perform _ _ _).trans ((World.exec_lookup data id w).trans ?_)
    rw [World.lookup_of_cap hc]
  have hsize : (UInt64.ofNat capsule.size).toNat = bytes.length := by
    rw [hz.cap hc, hprod]
    exact Nat.mod_eq_of_lt hl
  have hread : ((WritePipeline.readCapsule P id).run (World.exec data) w).1 = .ok bytes :=
    h.reads hh
  rw [WritePipeline.readRange, run_bind, hlook, readRangeOf]
  dsimp only
  by_cases hlt : UInt64.ofNat capsule.size < offset + len
  · rw [if_pos hlt, if_pos (hsize ▸ UInt64.lt_iff_toNat_lt.mp hlt)]
    rfl
  · rw [if_neg hlt, if_neg fun k => hlt (UInt64.lt_iff_toNat_lt.mpr (hsize ▸ k)), run_bind]
    generalize (WritePipeline.readCapsule P id).run (World.exec data) w = r at hread
    obtain ⟨r, w'⟩ := r
    obtain rfl : r = .ok bytes := hread
    exact congrArg Prod.fst (run_lift _ _ _)

section
variable {a b : LogicalVolumes} {c : BlockCall} {v : BlockView} {s : World P × BlockView}

theorem Between.blockSurvives (h : Between (.cleartext P U keys) w) (hz : w.Sized)
    (hs : BlockSound a (v.metadata.getD ∅) w.holds) : BlockSurvives P U keys a (w, v) := by
  obtain ⟨g, -, hI⟩ := h
  exact ⟨⟨w, g, [], hI, by rw [List.append_nil, World.withFile_file]⟩, hz, hs⟩

/-- An operation on the table. -/
theorem wp_table {o : BlockOp} {J : BlockOp → World P × BlockView → Prop}
    {Q : Except Error o.Res → World P × BlockView → Prop} (ho : o.pipeline P = none) (hJ : J o s)
    (hQ : Q (BlockView.exec o s.2).1 (s.1, (BlockView.exec o s.2).2)) :
    (perform (S := BlockSig) o).wp BlockView.execOn.moves J Q s := by
  refine wp_perform_moves.mpr ⟨hJ, ?_⟩
  rw [BlockView.execOn, ho]
  exact hQ

/-- A call of the pipeline. -/
theorem wp_pipeline {o : BlockOp} {p : Native o.Res} {J : BlockOp → World P × BlockView → Prop}
    {Q : Except Error o.Res → World P × BlockView → Prop} (ho : o.pipeline P = some p) (hJ : J o s)
    (hQ : Q (p.run (World.exec o.data) s.1).1 ((p.run (World.exec o.data) s.1).2, s.2)) :
    (perform (S := BlockSig) o).wp BlockView.execOn.moves J Q s := by
  refine wp_perform_moves.mpr ⟨hJ, ?_⟩
  rw [BlockView.execOn, ho]
  exact hQ

theorem guard_table {o : BlockOp} (ho : o.pipeline P = none) (hB : Between (.cleartext P U keys) w)
    (hz : w.Sized) (hm : BlockSound a (v.metadata.getD ∅) w.holds) :
    BlockGuard P U keys a c o (w, v) := by
  intro w'' hc
  cases hc with
  | before => exact .inl (hB.blockSurvives hz hm)
  | within hp =>
      rw [ho] at hp
      cases hp

/-- **The new contents go into a capsule of their own**: a crash leaves the saved volumes as they
were. -/
theorem wp_writeContents {id : CapsuleId} {Q : Except Error CapsuleId → World P × BlockView → Prop}
    (hU : P.NoCollision U) (hB : Between (.cleartext P U keys) w) (hz : w.Sized)
    (hm : BlockSound a (v.metadata.getD ∅) w.holds)
    (hclean : (Command.write id data {}).HashesIn P U ∧ (Command.write id data {}).Readable P w ∧
      (Command.write id data {}).Unsaturated w)
    (herr : ∀ e w', ((WritePipeline.writeCapsule P id data).run (World.exec data) w).1 = .error e →
      Between (.cleartext P U keys) w' → w'.Sized → w'.holds = w.holds → Q (.error e) (w', v))
    (hok : ∀ w', Between (.cleartext P U keys) w' → w'.Sized → w.holds id = none →
      w'.holds = Function.update w.holds id (some data) → Q (.ok id) (w', v)) :
    (BlockProg.writeCapsule id data).wp BlockView.execOn.moves (BlockGuard P U keys a c) Q
      (w, v) := by
  obtain ⟨hin, hread, hunsat⟩ := hclean
  have hW := capsuleWritten hU hB hin hread hunsat
  have hwrote := wrote_writeCapsule w id data
  refine wp_pipeline (o := .writeCapsule id data) rfl (fun w'' hc => ?_) ?_
  · refine .inl ?_
    cases hc with
    | before => exact hB.blockSurvives hz hm
    | @within p so w' _ hp hv hc =>
        cases hp
        refine ⟨hW.cut so w' hv w'' hc, (hz.visits sizes_writeCapsule hv).crash hc, ?_⟩
        show BlockSound a (v.metadata.getD ∅) w''.holds
        rw [crash_holds hc]
        have honce : w'.holds = w.holds ∨ w'.holds =
            ((WritePipeline.writeCapsule P id data).run (World.exec data) w).2.holds :=
          visits_once (World.exec_holds data) once_writeCapsule hv
        generalize (WritePipeline.writeCapsule P id data).run (World.exec data) w = r
          at hwrote honce
        rcases honce with e | e
        · exact e ▸ hm
        · obtain ⟨r | id', w₁⟩ := r
          · exact e ▸ (show w₁.holds = w.holds from hwrote) ▸ hm
          · rw [e, hwrote.2.2]
            exact hm.changes (fun _ _ hn => hm.capsuleId_ne hwrote.2.1 hn) _
  · have hstore := hW.store
    have hsized := hz.run (@sizes_writeCapsule P data id)
    show Q ((WritePipeline.writeCapsule P id data).run (World.exec data) w).1
      (((WritePipeline.writeCapsule P id data).run (World.exec data) w).2, v)
    generalize (WritePipeline.writeCapsule P id data).run (World.exec data) w = r
      at herr hwrote hstore hsized
    obtain ⟨r | id', w₁⟩ := r
    · exact herr r w₁ rfl hstore hsized hwrote
    · obtain ⟨rfl, hnone, hholds⟩ := hwrote
      exact hok w₁ hstore hsized hnone hholds

/-- A read of a capsule. -/
theorem wp_readContents {id : CapsuleId} {bytes : Bytes}
    {Q : Except Error Bytes → World P × BlockView → Prop} (hB : Between (.cleartext P U keys) w)
    (hz : w.Sized) (hm : BlockSound a (v.metadata.getD ∅) w.holds)
    (hh : w.holds id = some bytes) (hQ : Q (.ok bytes) (w, v)) :
    (BlockProg.readCapsule id).wp BlockView.execOn.moves (BlockGuard P U keys a c) Q (w, v) := by
  have hclear := @wp_readCapsule_clear P w [] (fun x s => hB.clear) id
  refine wp_pipeline (o := .readCapsule id) rfl (fun w'' hc => ?_) ?_
  · refine .inl ?_
    cases hc with
    | before => exact hB.blockSurvives hz hm
    | @within p so w' _ hp hv hc =>
        cases hp
        obtain rfl := (wp_visits hclear hv).2 w'' hc
        exact hB.blockSurvives hz hm
  · show Q ((WritePipeline.readCapsule P id).run (World.exec []) w).1
      (((WritePipeline.readCapsule P id).run (World.exec []) w).2, v)
    rw [hB.reads hh, show ((WritePipeline.readCapsule P id).run (World.exec []) w).2 = w from
      wp_run hclear]
    exact hQ

/-- **The old capsule goes last**, when the saved volumes do not have it. -/
theorem wp_dropContents {id : CapsuleId}
    {Q : Except Error (Except Error Unit) → World P × BlockView → Prop}
    (hB : Between (.cleartext P U keys) w) (hz : w.Sized)
    (hm : BlockSound (c.apply a) (v.metadata.getD ∅) w.holds)
    (hno : ∀ name volume, (v.metadata.getD ∅).lookup name = some volume → volume.capsuleId ≠ id)
    (hQ : ∀ r w', Between (.cleartext P U keys) w' → w'.Sized →
      w'.holds = Function.update w.holds id none → Q (.ok r) (w', v)) :
    (BlockProg.dropCapsule id).wp BlockView.execOn.moves (BlockGuard P U keys a c) Q (w, v) := by
  have hholds : ((WritePipeline.deleteCapsule id).run (World.exec []) w).2.holds =
      Function.update w.holds id none := run_deleteCapsule_holds w id
  have hsized := hz.run (@sizes_deleteCapsule [] id)
  refine wp_attempt.mpr (wp_pipeline (o := .deleteCapsule id) rfl (fun w'' hc => ?_) ?_)
  · refine .inr ?_
    cases hc with
    | before => exact hB.blockSurvives hz hm
    | @within p so w' _ hp hv hc =>
        cases hp
        obtain ⟨w₁, g, extra, hI, e, -⟩ := Command.cut_inv (c := .delete id) trivial trivial trivial
          hB (fun o w' hv => (visits_uses hv (uses_deleteCapsule id)).allowed)
          (.inl ⟨so, w', hv, hc⟩)
        refine ⟨⟨w₁, g, extra, hI, e⟩, (hz.visits sizes_deleteCapsule hv).crash hc, ?_⟩
        show BlockSound (c.apply a) (v.metadata.getD ∅) w''.holds
        rw [crash_holds hc]
        rcases visits_once (World.exec_holds []) (Command.once (P := P) (.delete id)) hv with e | e
        · rw [e]
          exact hm
        · have e' : w'.holds = Function.update w.holds id none := e.trans hholds
          rw [e']
          exact hm.changes hno none
  · exact hQ _ _ (between_delete trivial trivial hB id) hsized hholds

/-! ### One call -/

/-- Saving the table. -/
theorem wp_saveTable {Q : Except Error Unit → World P × BlockView → Prop}
    (hB : Between (.cleartext P U keys) w) (hz : w.Sized) (hp : v.persistent = true)
    (hm : BlockSound a (v.metadata.getD ∅) w.holds)
    (hQ : Q (.ok ()) (w, { v with metadata := some v.volumes })) :
    BlockProg.persist.wp BlockView.execOn.moves (BlockGuard P U keys a c) Q (w, v) := by
  refine wp_table (o := .persist) rfl (guard_table rfl hB hz hm) ?_
  show Q (.ok ()) (w, if v.persistent = true then { v with metadata := some v.volumes } else v)
  rw [if_pos hp]
  exact hQ

/-- What a method leaves and answers. -/
def Ends (P : Primitives) (U : Set Bytes) (keys : Option (UInt32 → XtsKeyPair))
    (a : LogicalVolumes) (c : BlockCall) {α : Type} (answer : α → BlockAnswer)
    (r : Except Error α) (s' : World P × BlockView) : Prop :=
  match r with
  | .ok x => BlockBetween P U keys (c.apply a) s' ∧ blockObject c a (answer x) (c.apply a)
  | .error _ => BlockBetween P U keys a s'

theorem wp_createVolume {id : CapsuleId} {name : Text} {size blockSize now : UInt64}
    (hU : P.NoCollision U) (hB : BlockBetween P U keys a (w, v))
    (hc : c = .createVolume id name size blockSize now) (hclean : c.Clean P U a w) :
    (BlockView.createVolumeWithBlockSize id name size blockSize now).wp BlockView.execOn.moves
      (BlockGuard P U keys a c) (Ends P U keys a c .created) (w, v) := by
  obtain ⟨hstore, hz, hsound, hsaved, hp⟩ := hB
  have hmeta : BlockSound a (v.metadata.getD ∅) w.holds := hsaved ▸ hsound
  have hsame : BlockBetween P U keys a (w, v) := ⟨hstore, hz, hsound, hsaved, hp⟩
  refine wp_bind.mpr (wp_lift.mpr ?_)
  cases hvalid : validateVolume name size blockSize with
  | error e => exact hsame
  | ok u =>
  refine wp_bind.mpr (wp_table (o := .containsKey name) rfl (guard_table rfl hstore hz hmeta) ?_)
  show Prog.wp _ _ _ (if (v.volumes.lookup name).isSome = true then _ else _) (w, v)
  cases hn : v.volumes.lookup name with
  | some volume => exact hsame
  | none =>
  have hnone : a.lookup name = none := hsound.absent hn
  have hwritten : c.written a = some (id, List.replicate size.toNat 0) := by
    subst hc
    simp only [BlockCall.written, hvalid, hnone]
  rw [if_neg (by simp)]
  refine wp_bind.mpr (wp_writeContents hU hstore hz hmeta (hclean _ _ hwritten)
    (fun e w' _ hB' hz' hh => ⟨hB', hz', hh ▸ hsound, hsaved, hp⟩) fun w' hB' hz' hid hh => ?_)
  have hold : BlockSound a (v.metadata.getD ∅) w'.holds := by
    rw [hh]
    exact hmeta.changes (fun _ _ k => hmeta.capsuleId_ne hid k) _
  refine wp_bind.mpr (wp_table (o := .insertVolume _) rfl (guard_table rfl hB' hz' hold) ?_)
  have hinsert : BlockView.exec (.insertVolume ⟨name, size, blockSize, id, now, now, 1⟩) v =
      (.ok true, { v with
        volumes := v.volumes.insert name ⟨name, size, blockSize, id, now, now, 1⟩ }) := by
    simp only [BlockView.exec, hn]
    rfl
  rw [hinsert]
  refine wp_bind.mpr (wp_saveTable hB' hz' hp hold ?_)
  have hnew : BlockSound (c.apply a)
      (v.volumes.insert name ⟨name, size, blockSize, id, now, now, 1⟩) w'.holds := by
    rw [hh, hc]
    exact hsound.puts (v := .zeros size blockSize) hid rfl rfl rfl
  refine ⟨⟨hB', hz', hnew, rfl, hp⟩, ?_⟩
  subst hc
  exact ⟨hnone, rfl, rfl⟩

theorem wp_deleteVolume {name : Text} (hB : BlockBetween P U keys a (w, v))
    (hc : c = .deleteVolume name) :
    (BlockView.deleteVolume name).wp BlockView.execOn.moves (BlockGuard P U keys a c)
      (Ends P U keys a c fun _ => .deleted) (w, v) := by
  obtain ⟨hstore, hz, hsound, hsaved, hp⟩ := hB
  have hmeta : BlockSound a (v.metadata.getD ∅) w.holds := hsaved ▸ hsound
  refine wp_bind.mpr (wp_table (o := .removeVolume name) rfl (guard_table rfl hstore hz hmeta) ?_)
  cases hn : v.volumes.lookup name with
  | none =>
      have hremove : BlockView.exec (.removeVolume name) v = (.error (volumeNotFound name), v) := by
        simp only [BlockView.exec, hn]
      rw [hremove]
      exact ⟨hstore, hz, hsound, hsaved, hp⟩
  | some volume =>
  have hremove : BlockView.exec (.removeVolume name) v =
      (.ok volume.capsuleId, { v with volumes := v.volumes.erase name }) := by
    simp only [BlockView.exec, hn]
  rw [hremove]
  have hnew : BlockSound (c.apply a) (v.volumes.erase name) w.holds := by
    subst hc
    exact hsound.erases name
  refine wp_bind.mpr (wp_saveTable hstore hz hp hmeta ?_)
  have hno : ∀ k u, (v.volumes.erase name).lookup k = some u → u.capsuleId ≠ volume.capsuleId := by
    intro k u hu
    obtain ⟨hk, hu⟩ := Table.lookup_erase_eq_some.mp hu
    exact hsound.superseded hn hk hu
  refine wp_bind.mpr (wp_dropContents hstore hz hnew hno fun r w' hB' hz' hh => ?_)
  obtain ⟨lv, ha, -⟩ := hsound.looks hn
  refine ⟨⟨hB', hz', hh ▸ hnew.changes hno none, rfl, hp⟩, ?_⟩
  subst hc
  exact ⟨rfl, ⟨lv, ha⟩, rfl⟩

/-- The volume of a call. -/
theorem wp_lookVolume {name : Text} {Q : Except Error BlockVolume → World P × BlockView → Prop}
    (hB : BlockBetween P U keys a (w, v))
    (hnone : v.volumes.lookup name = none → Q (.error (volumeNotFound name)) (w, v))
    (hsome : ∀ volume, v.volumes.lookup name = some volume → Q (.ok volume) (w, v)) :
    (BlockProg.volume name).wp BlockView.execOn.moves (BlockGuard P U keys a c) Q (w, v) := by
  have hmeta : BlockSound a (v.metadata.getD ∅) w.holds := hB.saved ▸ hB.sound
  refine wp_table (o := .volume name) rfl (guard_table rfl hB.store hB.sized hmeta) ?_
  cases hn : v.volumes.lookup name with
  | none =>
      have hlook : BlockView.exec (.volume name) v = (.error (volumeNotFound name), v) := by
        simp only [BlockView.exec, hn]
      rw [hlook]
      exact hnone hn
  | some volume =>
      have hlook : BlockView.exec (.volume name) v = (.ok volume, v) := by
        simp only [BlockView.exec, hn]
      rw [hlook]
      exact hsome volume hn

/-- What `write` does once it has the new contents. -/
def BlockView.replaceCapsule (id : CapsuleId) (name : Text) (volume : BlockVolume) (now : UInt64)
    (buffer : Bytes) : BlockProg Unit := do
  let newCapsule ← BlockProg.writeCapsule id buffer
  if ← BlockProg.swapCapsule name volume.capsuleId volume.version newCapsule now then
    BlockProg.persist
    let _ ← BlockProg.dropCapsule volume.capsuleId
    return ()
  else
    -- somebody mutated the volume while we were rewriting
    let _ ← BlockProg.dropCapsule newCapsule
    .fail (.msg "Volume modified concurrently")

/-- **The volume is swapped over to a capsule with the new contents.** -/
theorem wp_replaceCapsule {id : CapsuleId} {name : Text} {offset now : UInt64} {bytes : Bytes}
    {volume : BlockVolume} {lv : LogicalVolume} {Q : Except Error Unit → World P × BlockView → Prop}
    (hU : P.NoCollision U) (hB : BlockBetween P U keys a (w, v)) (hne : bytes ≠ [])
    (hc : c = .write id name offset bytes now) (hclean : c.Clean P U a w)
    (hn : v.volumes.lookup name = some volume) (ha : a.lookup name = some lv)
    (hfits : offset.toNat + bytes.length ≤ lv.size.toNat)
    (herr : ∀ e s', ((WritePipeline.writeCapsule P id (overlay lv.content (offset.toNat,
        bytes))).run (World.exec (overlay lv.content (offset.toNat, bytes))) w).1 = .error e →
      BlockBetween P U keys a s' → Q (.error e) s')
    (hok : ∀ s', BlockBetween P U keys (c.apply a) s' → Q (.ok ()) s') :
    (BlockView.replaceCapsule id name volume now (overlay lv.content (offset.toNat, bytes))).wp
      BlockView.execOn.moves (BlockGuard P U keys a c) Q (w, v) := by
  obtain ⟨hstore, hz, hsound, hsaved, hp⟩ := hB
  have hmeta : BlockSound a (v.metadata.getD ∅) w.holds := hsaved ▸ hsound
  obtain ⟨lv', ha', hsize, hblock, hlive⟩ := hsound.looks hn
  obtain rfl : lv' = lv := Option.some.inj (ha'.symm.trans ha)
  have hwritten : c.written a = some (id, overlay lv'.content (offset.toNat, bytes)) := by
    subst hc
    simp only [BlockCall.written, if_neg hne, ha, if_pos hfits]
  have happly : c.apply a = a.insert name (lv'.write offset.toNat bytes hfits) := by
    subst hc
    simp only [BlockCall.apply, if_neg hne, ha, dif_pos hfits]
  refine wp_bind.mpr (wp_writeContents hU hstore hz hmeta (hclean _ _ hwritten)
    (fun e w' he hB' hz' hh => herr e _ he ⟨hB', hz', hh ▸ hsound, hsaved, hp⟩)
    fun w' hB' hz' hid hh => ?_)
  have hold : BlockSound a (v.metadata.getD ∅) w'.holds := by
    rw [hh]
    exact hmeta.changes (fun _ _ k => hmeta.capsuleId_ne hid k) _
  let volume' : BlockVolume := { volume with
    capsuleId := id, updatedAt := now, version := saturatingSucc64 volume.version }
  have hswap : BlockView.exec (.swapCapsule name volume.capsuleId volume.version id now) v =
      (.ok true, { v with volumes := v.volumes.insert name volume' }) := by
    simp only [BlockView.exec, hn, ne_eq, not_true_eq_false, or_self, if_false]
    rfl
  refine wp_bind.mpr (wp_table (o := .swapCapsule _ _ _ _ _) rfl (guard_table rfl hB' hz' hold) ?_)
  rw [hswap]
  refine wp_bind.mpr (wp_saveTable hB' hz' hp hold ?_)
  have hnew : BlockSound (c.apply a) (v.volumes.insert name volume') w'.holds := by
    rw [hh, happly, ← LogicalVolume.content_write hfits]
    exact hsound.puts hid rfl hsize hblock
  have hno : ∀ k u, (v.volumes.insert name volume').lookup k = some u →
      u.capsuleId ≠ volume.capsuleId := by
    intro k u hu
    rcases Table.lookup_insert_eq_some.mp hu with ⟨rfl, rfl⟩ | ⟨hk, hu⟩
    · exact (hsound.capsuleId_ne hid hn).symm
    · exact hsound.superseded hn hk hu
  refine wp_bind.mpr (wp_dropContents hB' hz' hnew hno fun r w'' hB'' hz'' hh' => ?_)
  exact hok _ ⟨hB'', hz'', hh' ▸ hnew.changes hno none, rfl, hp⟩

theorem wp_rewrite {id : CapsuleId} {name : Text} {offset now : UInt64} {bytes : Bytes}
    (hU : P.NoCollision U) (hB : BlockBetween P U keys a (w, v)) (hne : bytes ≠ [])
    (hc : c = .write id name offset bytes now) (hclean : c.Clean P U a w) :
    (BlockView.rewrite id name offset bytes now).wp BlockView.execOn.moves
      (BlockGuard P U keys a c) (Ends P U keys a c fun _ => .written) (w, v) := by
  refine wp_bind.mpr (wp_lookVolume hB (fun _ => hB) fun volume hn => ?_)
  have hmeta : BlockSound a (v.metadata.getD ∅) w.holds := hB.saved ▸ hB.sound
  obtain ⟨lv, ha, -, -, hlive⟩ := hB.sound.looks hn
  show Prog.wp _ _ _ (if volume.size < offset + UInt64.ofNat bytes.length then _ else _) (w, v)
  split
  · exact hB
  refine wp_bind.mpr (wp_readContents hB.store hB.sized hmeta hlive ?_)
  refine wp_bind.mpr (wp_lift.mpr ?_)
  cases hcopy : copyFromSlice lv.content offset.toNat
      (offset + UInt64.ofNat bytes.length).toNat bytes with
  | error e => exact hB
  | ok buffer =>
  obtain ⟨hfits, rfl⟩ := BlockView.copyFromSlice_eq_ok hcopy
  rw [lv.length_content] at hfits
  refine wp_replaceCapsule hU hB hne hc hclean hn ha hfits (fun e s' _ h => h) fun s' h => ⟨h, ?_⟩
  have happly : c.apply a = a.insert name (lv.write offset.toNat bytes hfits) := by
    subst hc
    simp only [BlockCall.apply, if_neg hne, ha, dif_pos hfits]
  rw [happly]
  subst hc
  exact ⟨rfl, .inr ⟨hne, lv, hfits, ha, rfl⟩⟩

theorem wp_readVolume {name : Text} {offset len : UInt64} (hB : BlockBetween P U keys a (w, v))
    (hc : c = .read name offset len) :
    (BlockView.read name offset len).wp BlockView.execOn.moves (BlockGuard P U keys a c)
      (Ends P U keys a c .bytes) (w, v) := by
  refine wp_bind.mpr (wp_lookVolume hB (fun _ => hB) fun volume hn => ?_)
  have hmeta : BlockSound a (v.metadata.getD ∅) w.holds := hB.saved ▸ hB.sound
  obtain ⟨lv, ha, hsize, -, hlive⟩ := hB.sound.looks hn
  show Prog.wp _ _ _ (if volume.size < offset + len then _ else _) (w, v)
  split
  · exact hB
  have hclear := @wp_readRange_clear P w [] (fun x s => hB.store.clear) volume.capsuleId offset len
  refine wp_pipeline (o := .readRange volume.capsuleId offset len) rfl (fun w'' hc => ?_) ?_
  · refine .inl ?_
    cases hc with
    | before => exact hB.store.blockSurvives hB.sized hmeta
    | @within p so w' _ hp hv hc =>
        cases hp
        obtain rfl := (wp_visits hclear hv).2 w'' hc
        exact hB.store.blockSurvives hB.sized hmeta
  · show Ends P U keys a c _
      ((WritePipeline.readRange P volume.capsuleId offset len).run (World.exec []) w).1
      (((WritePipeline.readRange P volume.capsuleId offset len).run (World.exec []) w).2, v)
    have hlen : lv.content.length < 18446744073709551616 :=
      lv.length_content ▸ lv.size.toNat_lt
    rw [hB.store.readsRange hB.sized hlive hlen, show
      ((WritePipeline.readRange P volume.capsuleId offset len).run (World.exec []) w).2 = w from
      wp_run hclear]
    cases hr : readRangeOf lv.content offset len with
    | error e => exact hB
    | ok bytes =>
        obtain ⟨hle, rfl⟩ := BlockView.readRangeOf_eq_ok hr
        subst hc
        exact ⟨hB, rfl, lv, ha, lv.length_content ▸ hle, rfl⟩

/-- **Every call.** -/
theorem BlockCall.wp (hU : P.NoCollision U) (hB : BlockBetween P U keys a (w, v))
    (hclean : c.Clean P U a w) :
    c.program.wp BlockView.execOn.moves (BlockGuard P U keys a c) (Ends P U keys a c id)
      (w, v) := by
  cases c with
  | createVolume id name size blockSize now =>
      refine wp_bind.mpr (wp_mono (wp_createVolume hU hB rfl hclean) fun r s' h => ?_)
      cases r <;> exact h
  | write id name offset bytes now =>
      refine wp_bind.mpr (wp_mono (Q := Ends P U keys a (.write id name offset bytes now)
        fun _ => .written) ?_ fun r s' h => ?_)
      · unfold BlockView.write
        split
        · next hnil =>
            refine ⟨?_, ?_⟩
            · rw [show BlockCall.apply a (.write id name offset bytes now) = a from if_pos hnil]
              exact hB
            · exact ⟨rfl, .inl ⟨hnil, if_pos hnil⟩⟩
        · next hne => exact wp_rewrite hU hB hne rfl hclean
      · cases r <;> exact h
  | read name offset len =>
      refine wp_bind.mpr (wp_mono (wp_readVolume hB rfl) fun r s' h => ?_)
      cases r <;> exact h
  | deleteVolume name =>
      refine wp_bind.mpr (wp_mono (wp_deleteVolume hB rfl) fun r s' h => ?_)
      cases r <;> exact h

end

/-! ### Runs -/

section
variable {a : LogicalVolumes} {s s'' : World P × BlockView} {km : Option (KeyManager P)}

theorem BlockBetween.survives (h : BlockBetween P U keys a s) : BlockSurvives P U keys a s :=
  h.store.blockSurvives h.sized (h.saved ▸ h.sound)

/-- **What survives is repaired.** -/
theorem BlockSurvives.restart (h : BlockSurvives P U keys a s'') (km : Option (KeyManager P))
    (capsuleOrd : Order CapsuleId) (segmentOrd sweepOrd : Order Segment) :
    ∃ w', s''.1.restart km capsuleOrd segmentOrd sweepOrd = (.ok (), w') ∧
      BlockBetween P U (km.map KeyManager.derive) a (w', .open s''.2.metadata) := by
  obtain ⟨w'', v⟩ := s''
  obtain ⟨⟨w, g, extra, hI, rfl⟩, hz, hs⟩ := h
  obtain ⟨w', e, hI', hc, hl⟩ := hI.restart trivial trivial km extra capsuleOrd segmentOrd sweepOrd
  have hp : w'.ledger.produced = w.ledger.produced := by rw [hl]
  have hh : w'.holds = (w.withFile (w.file ++ extra)).holds := World.holds_congr hc hp
  exact ⟨w', e, ⟨0, fun _ k => absurd k (Multiset.notMem_zero _), hI'⟩, hz.congr hc hp, hh ▸ hs,
    rfl, rfl⟩

/-- A volume of the table is served. -/
theorem BlockBetween.serves (h : BlockBetween P U keys a s) (name : Text) :
    Option.Rel s.1.Serves (s.2.volumes.lookup name) (a.lookup name) := by
  have hb := h.sound.backed name
  generalize s.2.volumes.lookup name = o at hb
  generalize a.lookup name = o' at hb
  cases hb with
  | none => exact .none
  | @some volume v hb =>
      obtain ⟨⟨capsule, hc⟩, hprod⟩ := World.holds_eq_some.mp hb.live
      refine .some ⟨hb.size, hb.blockSize, ⟨capsule, hc, ?_⟩, h.store.reads hb.live⟩
      rw [h.sized.cap hc, hprod, v.length_content, hb.size]

theorem BlockSurvives.recovers (h : BlockSurvives P U keys a s'') : BlockRecovers a s'' := by
  intro km capsuleOrd segmentOrd sweepOrd
  obtain ⟨w', e, hB⟩ := h.restart km capsuleOrd segmentOrd sweepOrd
  exact ⟨w', e, hB.serves⟩

theorem Ends.completed {c : BlockCall} {r : Except Error BlockAnswer}
    (h : Ends P U keys a c id r s) : BlockBetween P U keys (c.completed a r) s := by
  cases r with
  | error e => exact h
  | ok x => exact h.1

theorem blockRun_between (hU : P.NoCollision U) (h : BlockRun (BlockCall.Clean P U) km a s) :
    ∃ keys, BlockBetween P U keys a s := by
  induction h with
  | start =>
      refine ⟨_, ⟨0, fun _ k => absurd k (Multiset.notMem_zero _), .empty km rfl⟩, ?_, ?_, rfl, rfl⟩
      · exact fun _ _ e => by cases e
      · exact ⟨fun _ => .none, fun _ _ _ _ e => by cases e⟩
  | call c _ hA ih =>
      obtain ⟨keys, hB⟩ := ih
      have hends : Ends P U keys _ c id (c.run _).1 (c.run _).2 := wp_run (BlockCall.wp hU hB hA)
      exact ⟨keys, hends.completed⟩
  | reopen km' capsuleOrd segmentOrd sweepOrd _ ih =>
      obtain ⟨keys, hB⟩ := ih
      obtain ⟨w', e, hB'⟩ := hB.survives.restart km' capsuleOrd segmentOrd sweepOrd
      rw [e]
      exact ⟨_, hB'⟩

/-- **A completed call over the pipeline** is a step of the object the clients believe in. -/
theorem blockRun_refines (hU : P.NoCollision U) (h : BlockRun (BlockCall.Clean P U) km a s)
    {c : BlockCall} (hclean : c.Clean P U a s.1) {answer : BlockAnswer}
    (hr : (c.run s).1 = .ok answer) : blockObject c a answer (c.apply a) := by
  obtain ⟨keys, hB⟩ := blockRun_between hU h
  have hends : Ends P U keys a c id (c.run s).1 (c.run s).2 := wp_run (BlockCall.wp hU hB hclean)
  rw [hr] at hends
  exact hends.2

/-- **Crash consistency of the block view**: after a run, and wherever the next call of it is cut,
the next process finds the contents that the completed calls made, with the interrupted call
wholly applied or wholly absent. -/
theorem block_crash_safe (hU : P.NoCollision U) (h : BlockRun (BlockCall.Clean P U) km a s) :
    BlockRecovers a s ∧ ∀ (c : BlockCall) (s'' : World P × BlockView), c.Clean P U a s.1 →
      c.Cut s s'' → BlockRecovers a s'' ∨ BlockRecovers (c.apply a) s'' := by
  obtain ⟨keys, hB⟩ := blockRun_between hU h
  refine ⟨hB.survives.recovers, fun c s'' hclean hcut => ?_⟩
  cases hcut with
  | «at» hv hc =>
      exact (wp_visits (BlockCall.wp hU hB hclean) hv _ hc).imp BlockSurvives.recovers
        BlockSurvives.recovers

end

/-! ### Two volumes -/

/-- The views of a capsule of one chunk that is stored as it is. -/
theorem hashesIn_of_raw {id : CapsuleId} {res : CompressionResult} (hl : data.length ≤ SEGMENT_SIZE)
    (hU : data ∈ U) (h : compressSegment P data (.lz4 1) = .ok (data, res)) :
    (Command.write id data {}).HashesIn P U := by
  intro chunk hchunk view r hv
  have hin : (Command.write id data {}).HashesIn P {data} := hashesIn_raw hl h
  exact Set.mem_singleton_iff.mp (hin chunk hchunk view r hv) ▸ hU

/-- A volume of `size` bytes. -/
def createSample (size : UInt64) : BlockCall := .createVolume ⟨0⟩ ['a'] size size 0

/-- A write of all its bytes. -/
def rewriteSample (bytes : Bytes) : BlockCall := .write ⟨1⟩ ['a'] 0 bytes 0

/-- The state after it is created. -/
def sampleCreated (size : UInt64) : World .stored × BlockView :=
  ((createSample size).run (World.empty none, .open none)).2

def sampleVolumes (size : UInt64) : LogicalVolumes :=
  (createSample size).completed ∅
    ((createSample size).run (World.empty (P := .stored) none, .open none)).1

theorem sampleCreated_run {A : BlockCall → LogicalVolumes → World .stored → Prop} {size : UInt64}
    (h : A (createSample size) ∅ (World.empty none)) :
    BlockRun A none (sampleVolumes size) (sampleCreated size) := .call _ .start h

/-- A write that is interrupted when the table is saved and the old capsule is not yet deleted. -/
theorem block_crash_safe_rewrite : ∃ o s',
    callAt BlockView.execOn 5 (rewriteSample unframed).program (sampleCreated 7) = some (o, s') ∧
      (BlockRecovers (sampleVolumes 7) s' ∨
        BlockRecovers ((rewriteSample unframed).apply (sampleVolumes 7)) s') := by
  have hraw : ∀ bytes : Bytes, bytes.length ≤ SEGMENT_SIZE →
      decompressByPolicy .stored (.lz4 1) bytes = bytes →
      ∀ chunk ∈ chunks SEGMENT_SIZE bytes, ({} : Policy).ReadsRaw .stored chunk :=
    fun bytes hl h => forall_chunk_of_length_le hl fun _ _ _ _ => h
  have hcreate : (createSample 7).Clean .stored {List.replicate 7 0, unframed} ∅
      (World.empty none) := by
    intro id bytes hw
    rw [show (createSample 7).written ∅ = some (⟨0⟩, List.replicate 7 0) by decide +kernel] at hw
    cases hw
    exact ⟨hashesIn_of_raw (by decide) (.inl rfl) rfl, hraw _ (by decide) (by decide +kernel),
      Command.unsaturated_of_along (by decide +kernel) (by simp)⟩
  have hwrite : (rewriteSample unframed).Clean .stored {List.replicate 7 0, unframed}
      (sampleVolumes 7) (sampleCreated 7).1 := by
    intro id bytes hw
    rw [show (rewriteSample unframed).written (sampleVolumes 7) = some (⟨1⟩, unframed) by
      decide +kernel] at hw
    cases hw
    exact ⟨hashesIn_of_raw (by decide) (.inr rfl) rfl, hraw _ (by decide) (by decide +kernel),
      Command.unsaturated_of_along (by decide +kernel) (by simp)⟩
  have hU : Primitives.stored.NoCollision {List.replicate 7 0, unframed} :=
    Set.injOn_pair.mpr fun e => absurd e (by decide)
  have hcall : (callAt BlockView.execOn 5 (rewriteSample unframed).program
      (sampleCreated 7)).isSome = true := by decide +kernel
  obtain ⟨⟨o, s'⟩, e⟩ := Option.isSome_iff_exists.mp hcall
  exact ⟨o, s', e, (block_crash_safe hU (sampleCreated_run hcreate)).2 _ _ hwrite
    (.at (visits_of_callAt e) .before)⟩

/-- The state after the bytes of the volume are replaced by the empty LZ4 frame. -/
def frameWritten : World .stored × BlockView :=
  ((rewriteSample (lz4Frame [])).run (sampleCreated 11)).2

def frameVolumes : LogicalVolumes :=
  (rewriteSample (lz4Frame [])).completed (sampleVolumes 11)
    ((rewriteSample (lz4Frame [])).run (sampleCreated 11)).1

/-- The empty LZ4 frame, in a volume of its length, is read back as the empty string. -/
theorem not_block_crash_safe :
    ¬ ∀ (P : Primitives) (U : Set Bytes) (km : Option (KeyManager P)) (a : LogicalVolumes)
      (s : World P × BlockView), P.CodecsInverse → P.NoCollision U →
      BlockRun (fun c a _ => ∀ id data, c.written a = some (id, data) →
        (Command.write id data {}).HashesIn P U) km a s → BlockRecovers a s := by
  intro h
  have hU : Primitives.stored.NoCollision {List.replicate 11 0, lz4Frame []} :=
    Set.injOn_pair.mpr fun e => absurd e (by decide)
  have hcreated : BlockRun (fun c a _ => ∀ id data, c.written a = some (id, data) →
      (Command.write id data {}).HashesIn .stored {List.replicate 11 0, lz4Frame []}) none
      (sampleVolumes 11) (sampleCreated 11) := by
    refine sampleCreated_run fun id bytes hw => ?_
    rw [show (createSample 11).written ∅ = some (⟨0⟩, List.replicate 11 0) by
      decide +kernel] at hw
    cases hw
    exact hashesIn_of_raw (by decide) (.inl rfl) rfl
  have hwritten : BlockRun (fun c a _ => ∀ id data, c.written a = some (id, data) →
      (Command.write id data {}).HashesIn .stored {List.replicate 11 0, lz4Frame []}) none
      frameVolumes frameWritten := by
    refine .call (rewriteSample (lz4Frame [])) hcreated fun id bytes hw => ?_
    rw [show (rewriteSample (lz4Frame [])).written (sampleVolumes 11) =
      some (⟨1⟩, lz4Frame []) by decide +kernel] at hw
    cases hw
    exact hashesIn_of_raw (by decide) (.inr rfl) rfl
  obtain ⟨w', hrestart, hserves⟩ := h _ _ _ _ _ Primitives.stored_codecs hU hwritten none .asGiven
    .asGiven .asGiven
  have hvolume := hserves ['a']
  -- what the table, the calls and the pipeline say of the volume
  have htable : ((BlockView.open frameWritten.2.metadata).volumes.lookup ['a']).map
      BlockVolume.capsuleId = some ⟨1⟩ := by decide +kernel
  have hcontent : (frameVolumes.lookup ['a']).map LogicalVolume.content = some (lz4Frame []) := by
    decide +kernel
  have hread : ((WritePipeline.readCapsule .stored ⟨1⟩).run (World.exec [])
      (frameWritten.1.restart none .asGiven .asGiven .asGiven).2).1 = .ok [] := by decide +kernel
  obtain ⟨volume, hv, hid⟩ := Option.map_eq_some_iff.mp htable
  obtain ⟨v, hv', hc⟩ := Option.map_eq_some_iff.mp hcontent
  rw [hv, hv'] at hvolume
  cases hvolume with
  | some hs =>
      have hcontents := hs.contents
      rw [hid, hc] at hcontents
      rw [hrestart, hcontents] at hread
      cases hread

end Space

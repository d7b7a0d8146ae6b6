import Space.Support.Program
import Space.Common.Error

/-!
# Views — Block

The block view: logical volumes by name, each backed by one capsule.  A write copies the capsule,
changes the copy and swaps the capsule of the volume, if nobody has touched the volume since.

Here the pipeline is a store of immutable capsules (`CapsuleStore`) that never gives an identifier
twice.  What is done under one lock is one operation (`BlockOp`), and so is a call of the pipeline;
the methods are programs over these.  The time, and the identifier the pipeline gives to the
capsule a call writes, are arguments of the call.  The numbers are `u64`; an overflow of their
addition wraps, and a panic ends a call like an error.
-/

namespace Space
open Support Prog

/-! ### The store of capsules -/

/-- The capsules, and every identifier that was ever given. -/
structure CapsuleStore where
  capsules : Table CapsuleId Bytes
  used : List CapsuleId
  capsules_used : ∀ id data, capsules.lookup id = some data → id ∈ used

namespace CapsuleStore
variable (store : CapsuleStore)

def write (id : CapsuleId) (data : Bytes) : CapsuleStore where
  capsules := store.capsules.insert id data
  used := id :: store.used
  capsules_used := fun id' data' h => by
    rcases Table.lookup_insert_eq_some.mp h with ⟨rfl, _⟩ | ⟨_, h⟩
    · exact List.mem_cons_self
    · exact List.mem_cons_of_mem _ (store.capsules_used _ _ h)

def delete (id : CapsuleId) : CapsuleStore where
  capsules := store.capsules.erase id
  used := store.used
  capsules_used := fun id' data' h =>
    store.capsules_used id' data' (Table.lookup_erase_eq_some.mp h).2

/-- The bytes of a live capsule. -/
def read (id : CapsuleId) : Except Error Bytes :=
  match store.capsules.lookup id with
  | some data => .ok data
  | none => .error (.msg "Capsule not found")

end CapsuleStore

/-- `data[start..finish]`; where the range is not one of `data`, a panic. -/
def sliceRange (data : Bytes) (start finish : Nat) : Except Error Bytes :=
  if start ≤ finish ∧ finish ≤ data.length then .ok ((data.drop start).take (finish - start))
  else .error (.msg "slice index out of range")

/-- `buffer[start..finish].copy_from_slice(data)`; a panic where the range is not one of `buffer`
or has another length than `data`. -/
def copyFromSlice (buffer : Bytes) (start finish : Nat) (data : Bytes) : Except Error Bytes :=
  if start ≤ finish ∧ finish ≤ buffer.length ∧ data.length = finish - start then
    .ok (buffer.take start ++ data ++ buffer.drop finish)
  else .error (.msg "slice index out of range")

/-- `read_range` of a capsule that is there. -/
def readRangeOf (data : Bytes) (offset len : UInt64) : Except Error Bytes :=
  if data.length < (offset + len).toNat then .error (.msg "Read beyond capsule boundary")
  else sliceRange data offset.toNat (offset + len).toNat

/-! ### The view -/

/-- `DEFAULT_BLOCK_SIZE`. -/
def DEFAULT_BLOCK_SIZE : UInt64 := 4096

structure BlockVolume where
  name : Text
  size : UInt64
  blockSize : UInt64
  capsuleId : CapsuleId
  createdAt : UInt64
  updatedAt : UInt64
  version : UInt64
  deriving DecidableEq

/-- `n.saturating_add(1)` at `u64`. -/
def saturatingSucc64 (n : UInt64) : UInt64 := if n = 18446744073709551615 then n else n + 1

abbrev Volumes := Table Text BlockVolume

/-- The volumes in memory, the file they are saved to, if they are saved, and the pipeline. -/
structure BlockView where
  volumes : Volumes
  persistent : Bool
  metadata : Option Volumes
  store : CapsuleStore

namespace BlockView

/-- `BlockView::new`, over a pipeline that may hold capsules already. -/
def new (store : CapsuleStore) : BlockView := ⟨∅, false, none, store⟩

/-- `BlockView::open` where there is no metadata file yet. -/
def openEmpty (store : CapsuleStore) : BlockView := ⟨∅, true, none, store⟩

end BlockView

/-- What is done under one lock, or by one call of the pipeline. -/
inductive BlockOp where
  | containsKey (name : Text)
  | insertVolume (volume : BlockVolume)
  | volume (name : Text)
  | swapCapsule (name : Text) (capsuleId : CapsuleId) (version : UInt64) (newCapsule : CapsuleId)
      (now : UInt64)
  | removeVolume (name : Text)
  | persist
  | writeCapsule (id : CapsuleId) (data : Bytes)
  | readCapsule (id : CapsuleId)
  | readRange (id : CapsuleId) (offset len : UInt64)
  | deleteCapsule (id : CapsuleId)

def BlockOp.Res : BlockOp → Type
  | .containsKey _ => Bool
  | .insertVolume _ => Bool
  | .volume _ => BlockVolume
  | .swapCapsule _ _ _ _ _ => Bool
  | .removeVolume _ => CapsuleId
  | .persist => Unit
  | .writeCapsule _ _ => CapsuleId
  | .readCapsule _ => Bytes
  | .readRange _ _ _ => Bytes
  | .deleteCapsule _ => Unit

abbrev BlockSig : Signature := ⟨BlockOp, BlockOp.Res⟩

/-- `Volume not found: {name}`. -/
def volumeNotFound (name : Text) : Error := .msg ("Volume not found: " ++ String.ofList name)

/-- `Volume already exists: {name}`. -/
def volumeExists (name : Text) : Error := .msg ("Volume already exists: " ++ String.ofList name)

namespace BlockView

/-- What the operations do.  `insertVolume` and `swapCapsule` answer whether they did it. -/
def exec : Handler BlockSig Error BlockView
  | .containsKey name, v => (.ok (v.volumes.lookup name).isSome, v)
  | .insertVolume volume, v =>
    if (v.volumes.lookup volume.name).isSome then (.ok false, v)
    else (.ok true, { v with volumes := v.volumes.insert volume.name volume })
  | .volume name, v =>
    match v.volumes.lookup name with
    | some volume => (.ok volume, v)
    | none => (.error (volumeNotFound name), v)
  | .swapCapsule name capsuleId version newCapsule now, v =>
    match v.volumes.lookup name with
    | none => (.error (volumeNotFound name), v)
    | some volume =>
      if volume.version ≠ version ∨ volume.capsuleId ≠ capsuleId then (.ok false, v)
      else
        (.ok true, { v with volumes := v.volumes.insert name { volume with
          capsuleId := newCapsule, updatedAt := now, version := saturatingSucc64 volume.version } })
  | .removeVolume name, v =>
    match v.volumes.lookup name with
    | some volume => (.ok volume.capsuleId, { v with volumes := v.volumes.erase name })
    | none => (.error (volumeNotFound name), v)
  | .persist, v => (.ok (), if v.persistent then { v with metadata := some v.volumes } else v)
  | .writeCapsule id data, v => (.ok id, { v with store := v.store.write id data })
  | .readCapsule id, v => (v.store.read id, v)
  | .readRange id offset len, v => (v.store.read id >>= fun data => readRangeOf data offset len, v)
  | .deleteCapsule id, v =>
    match v.store.capsules.lookup id with
    | some _ => (.ok (), { v with store := v.store.delete id })
    | none => (.error (.msg "Capsule not found"), v)

/-- The identifier of a new capsule was never given before. -/
def Fresh : BlockOp → BlockView → Prop
  | .writeCapsule id _, v => id ∉ v.store.used
  | _, _ => True

/-- What the operations may do. -/
def Does : Moves BlockSig Error BlockView := fun o v r v' => Fresh o v ∧ exec o v = (r, v')

end BlockView

/-! ### The methods -/

abbrev BlockProg := Prog BlockSig Error

namespace BlockProg

def containsKey (name : Text) : BlockProg Bool := perform (S := BlockSig) (.containsKey name)

def insertVolume (volume : BlockVolume) : BlockProg Bool :=
  perform (S := BlockSig) (.insertVolume volume)

def volume (name : Text) : BlockProg BlockVolume := perform (S := BlockSig) (.volume name)

def swapCapsule (name : Text) (capsuleId : CapsuleId) (version : UInt64) (newCapsule : CapsuleId)
    (now : UInt64) : BlockProg Bool :=
  perform (S := BlockSig) (.swapCapsule name capsuleId version newCapsule now)

def removeVolume (name : Text) : BlockProg CapsuleId :=
  perform (S := BlockSig) (.removeVolume name)

def persist : BlockProg Unit := perform (S := BlockSig) .persist

def writeCapsule (id : CapsuleId) (data : Bytes) : BlockProg CapsuleId :=
  perform (S := BlockSig) (.writeCapsule id data)

def readCapsule (id : CapsuleId) : BlockProg Bytes := perform (S := BlockSig) (.readCapsule id)

def readRange (id : CapsuleId) (offset len : UInt64) : BlockProg Bytes :=
  perform (S := BlockSig) (.readRange id offset len)

/-- `let _ = self.pipeline.delete_capsule(id)`. -/
def dropCapsule (id : CapsuleId) : BlockProg (Except Error Unit) :=
  attempt (perform (S := BlockSig) (.deleteCapsule id))

end BlockProg

/-- `c.is_ascii_alphanumeric() || matches!(c, '-' | '_' | '.')`. -/
def isVolumeChar (c : Char) : Bool :=
  c.isAlphanum || decide (c = '-') || decide (c = '_') || decide (c = '.')

def validateVolumeName (name : Text) : Except Error Unit :=
  if name = [] then .error (.msg "Volume name cannot be empty")
  else if ¬ name.all isVolumeChar then
    .error (.msg "Volume name must be alphanumeric with '-', '_' or '.'")
  else .ok ()

/-- The checks of `create_volume_with_block_size` on its arguments. -/
def validateVolume (name : Text) (size blockSize : UInt64) : Except Error Unit := do
  validateVolumeName name
  if size = 0 then throw (.msg "Volume size must be > 0")
  if blockSize = 0 then throw (.msg "Block size must be > 0")
  if size % blockSize ≠ 0 then throw (.msg "Volume size must be a multiple of block size")
  if usizeMax < size.toNat then
    throw (.msg "Volume size exceeds addressable memory for initialisation")

namespace BlockView
open BlockProg

/-- `create_volume_with_block_size`; the pipeline gives the capsule the identifier `id`. -/
def createVolumeWithBlockSize (id : CapsuleId) (name : Text) (size blockSize now : UInt64) :
    BlockProg BlockVolume := do
  lift (validateVolume name size blockSize)
  if ← containsKey name then .fail (volumeExists name)
  else
    let capsuleId ← writeCapsule id (List.replicate size.toNat 0)
    let volume : BlockVolume := ⟨name, size, blockSize, capsuleId, now, now, 1⟩
    if ← insertVolume volume then
      persist
      return volume
    else
      -- another thread raced us
      let _ ← dropCapsule capsuleId
      .fail (volumeExists name)

def createVolume (id : CapsuleId) (name : Text) (size now : UInt64) : BlockProg BlockVolume :=
  createVolumeWithBlockSize id name size DEFAULT_BLOCK_SIZE now

def deleteVolume (name : Text) : BlockProg Unit := do
  let capsuleId ← removeVolume name
  persist
  let _ ← dropCapsule capsuleId
  return ()

def read (name : Text) (offset len : UInt64) : BlockProg Bytes := do
  let volume ← BlockProg.volume name
  if volume.size < offset + len then .fail (.msg "Read beyond end of volume")
  else readRange volume.capsuleId offset len

/-- `write`, past the test for an empty write; `id` is the identifier of the new capsule. -/
def rewrite (id : CapsuleId) (name : Text) (offset : UInt64) (data : Bytes) (now : UInt64) :
    BlockProg Unit := do
  let volume ← BlockProg.volume name
  let finish := offset + UInt64.ofNat data.length
  if volume.size < finish then .fail (.msg "Write beyond end of volume")
  else
    let buffer ← readCapsule volume.capsuleId
    let buffer ← lift (copyFromSlice buffer offset.toNat finish.toNat data)
    let newCapsule ← writeCapsule id buffer
    if ← swapCapsule name volume.capsuleId volume.version newCapsule now then
      persist
      let _ ← dropCapsule volume.capsuleId
      return ()
    else
      -- somebody mutated the volume while we were rewriting
      let _ ← dropCapsule newCapsule
      .fail (.msg "Volume modified concurrently")

def write (id : CapsuleId) (name : Text) (offset : UInt64) (data : Bytes) (now : UInt64) :
    BlockProg Unit :=
  if data = [] then .ret () else rewrite id name offset data now

end BlockView

/-- A call of a client. -/
inductive BlockCall where
  | createVolume (id : CapsuleId) (name : Text) (size blockSize now : UInt64)
  | write (id : CapsuleId) (name : Text) (offset : UInt64) (data : Bytes) (now : UInt64)
  | read (name : Text) (offset len : UInt64)
  | deleteVolume (name : Text)
  deriving DecidableEq

/-- What a call returns. -/
inductive BlockAnswer where
  | created (volume : BlockVolume)
  | written
  | bytes (data : Bytes)
  | deleted
  deriving DecidableEq

def BlockCall.program : BlockCall → BlockProg BlockAnswer
  | .createVolume id name size blockSize now => do
    let volume ← BlockView.createVolumeWithBlockSize id name size blockSize now
    return .created volume
  | .write id name offset data now => do
    BlockView.write id name offset data now
    return .written
  | .read name offset len => do
    let data ← BlockView.read name offset len
    return .bytes data
  | .deleteVolume name => do
    BlockView.deleteVolume name
    return .deleted

end Space

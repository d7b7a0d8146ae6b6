import Space.Native.Faithful
import Space.Native.Holds
import Space.Views.Nfs

/-!
# Views — NfsCrash

Crashes of the file view, and what the next process finds.  A call changes the registry, the log
and the namespace in separate durable steps, and the namespace is saved last.  A write that
replaces a file, and a delete of a file, give the old capsule up before that: a crash in between
leaves a file that names no capsule (`not_nfs_crash_safe`).  Where no crash falls in between, every
file of the reloaded namespace reads back what a call wrote to its path (`nfs_crash_safe`).

* `NfsBetween`: what holds between two calls of a life.
-/

namespace Space
open Support Prog

variable {P : Primitives} {U : Set Bytes} {keys : Option (UInt32 → XtsKeyPair)}
  {w w' : World P} {data : Bytes} {policy : Policy}

/-! ### Data in the clear -/

/-- Every segment is stored in the clear and registered under its hash; every capsule reads as its
data. -/
def Discipline.cleartext (P : Primitives) (U : Set Bytes) (keys : Option (UInt32 → XtsKeyPair)) :
    Discipline where
  keys := keys
  legit := fun i => i.payload.length < 4294967296 ∧ i.form.encrypted = false ∧ i.payload ∈ U ∧
    ∀ h, i.form.contentHash = some h → h = hashContent P i.payload
  hit := fun _ _ => True
  sound := fun data policy infos => List.Forall₂ (fun chunk i => i.form.encrypted = false ∧
    decompressByPolicy P policy.compression i.payload = chunk) (chunks SEGMENT_SIZE data) infos
  solo := True
  tight := True

/-- Without encryption a view is stored as it is. -/
theorem Prepared.cleartext {D : Discipline} {chunk view payload : Bytes} {r : CompressionResult}
    {encMeta : Option EncryptionMetadata} (he : policy.encryption.isEnabled = false)
    (h : Prepared P D policy chunk view r payload encMeta) : payload = view ∧ encMeta = none := by
  obtain ⟨key, hkey, hseal⟩ := h.sealed
  unfold KeyFor at hkey
  rw [if_neg (by simp [he])] at hkey
  subst hkey
  cases hseal
  exact ⟨rfl, rfl⟩

theorem accepts_cleartext (he : policy.encryption.isEnabled = false) (hU : P.NoCollision U)
    (hin : ∀ chunk ∈ chunks SEGMENT_SIZE data, ∀ view r,
      compressSegment P chunk policy.compression = .ok (view, r) → view ∈ U)
    (hraw : ∀ chunk ∈ chunks SEGMENT_SIZE data, policy.ReadsRaw P chunk) :
    (Discipline.cleartext P U keys).Accepts P policy data fun chunk i =>
      i.form.encrypted = false ∧ decompressByPolicy P policy.compression i.payload = chunk where
  fresh := by
    intro chunk hc view r payload encMeta hp x off
    obtain ⟨hdec, hlen⟩ := decompressByPolicy_view (hraw chunk hc) hp.compressed
    obtain ⟨rfl, rfl⟩ := hp.cleartext he
    have hshort : payload.length < 4294967296 :=
      Nat.lt_of_le_of_lt (hlen.trans (chunks_mem SEGMENT_SIZE_pos hc).2) (by decide)
    refine ⟨⟨hshort, rfl, hin chunk hc _ r hp.compressed, fun h hh => ?_⟩, rfl, hdec⟩
    have e : policy.registeredHash P payload = some h := hh
    unfold Policy.registeredHash at e
    split at e
    · exact (Option.some.inj e).symm
    · cases e
  hit := by
    rintro chunk hc view r payload encMeta hp - i ⟨-, hclear, hin', hhash⟩ - hh
    obtain rfl := hashContent_inj hU (hin chunk hc view r hp.compressed) hin' (hhash _ hh)
    exact ⟨hclear, (decompressByPolicy_view (hraw chunk hc) hp.compressed).1⟩
  sound := fun _ h => h

/-- The operations that do not enter data in the ledger. -/
def StoreOp.Unrecorded : StoreOp → Prop
  | .createCapsuleWithSegments _ _ _ _ => False
  | _ => True

theorem exec_unrecorded {o : StoreOp} (h : o.Unrecorded) (data data' : Bytes) (w : World P) :
    World.exec data o w = World.exec data' o w := by
  cases o with
  | createCapsuleWithSegments => exact h.elim
  | _ => rfl

theorem run_unrecorded {α : Type} {p : Native α} (h : p.Uses StoreOp.Unrecorded)
    (data data' : Bytes) (w : World P) :
    p.run (World.exec data) w = p.run (World.exec data') w := by
  induction p generalizing w with
  | ret a => rfl
  | fail e => rfl
  | call o k ih =>
      show (k _).run _ _ = (k _).run _ _
      rw [exec_unrecorded h.1 data data' w]
      exact ih _ (h.2 _) _

/-- Deleting a capsule keeps the state between commands, on behalf of whatever write. -/
theorem between_delete {D : Discipline} (hso : D.solo) (ht : D.tight) (h : Between D w)
    (id : CapsuleId) :
    Between D ((WritePipeline.deleteCapsule id).run (World.exec data) w).2 := by
  have huses : (WritePipeline.deleteCapsule id).Uses StoreOp.Unrecorded :=
    uses_bind (uses_op trivial) fun _ => uses_foldlM (fun _ x =>
      uses_releaseSegment trivial (fun _ => trivial) trivial) _ _
  rw [run_unrecorded huses data []]
  exact Command.keeps (c := .delete id) hso ht trivial h fun o w' hv =>
    (visits_uses hv (uses_deleteCapsule id)).allowed

/-! ### The files of a namespace -/

/-- The capsule and the size of a file. -/
def NfsNode.content (n : NfsNode) : Option (CapsuleId × Nat) :=
  match n.kind with
  | .directory => none
  | .file capsuleId size => some (capsuleId, size)

theorem NfsNode.capsule_eq (n : NfsNode) : n.capsule = n.content.map Prod.fst := by
  unfold NfsNode.capsule NfsNode.content
  cases n.kind <;> rfl

namespace Namespace
variable {nodes : Namespace} {n : NfsNode} {now : Nat}

/-- The file at a path. -/
def fileAt (nodes : Namespace) (key : Text) : Option (CapsuleId × Nat) :=
  (nodes.lookup key).bind NfsNode.content

theorem fileAt_insert (nodes : Namespace) (key : Text) (n : NfsNode) :
    fileAt (nodes.insert key n) = Function.update nodes.fileAt key n.content := by
  funext k
  unfold fileAt
  rw [Table.lookup_insert]
  by_cases hk : k = key
  · subst hk
    rw [if_pos rfl, Function.update_self]
    rfl
  · rw [if_neg hk, Function.update_of_ne hk]

theorem fileAt_erase (nodes : Namespace) (key : Text) :
    fileAt (nodes.erase key) = Function.update nodes.fileAt key none := by
  funext k
  unfold fileAt
  rw [Table.lookup_erase]
  by_cases hk : k = key
  · subst hk
    rw [if_pos rfl, Function.update_self]
    rfl
  · rw [if_neg hk, Function.update_of_ne hk]

theorem fileAt_retime {key : Text} (h : nodes.lookup key = some n) :
    fileAt (nodes.insert key { n with modifiedAt := now }) = nodes.fileAt := by
  rw [fileAt_insert]
  refine Function.update_eq_self_iff.mpr ?_
  unfold fileAt
  rw [h]
  rfl

theorem fileAt_insert_directory {key name : Text} (h : nodes.lookup key = none) :
    fileAt (nodes.insert key (.directory key name now)) = nodes.fileAt := by
  rw [fileAt_insert]
  refine Function.update_eq_self_iff.mpr ?_
  unfold fileAt
  rw [h]
  rfl

theorem fileAt_ensureRootNode : fileAt (nodes.ensureRootNode now) = nodes.fileAt := by
  unfold ensureRootNode
  cases h : nodes.lookup ['/'] with
  | none => exact fileAt_insert_directory h
  | some n => exact fileAt_retime h

theorem fileAt_ensureComponents {parts cs : List Text} :
    fileAt (ensureComponents now cs parts nodes).2 = nodes.fileAt := by
  induction parts generalizing cs nodes with
  | nil => rfl
  | cons part parts ih =>
      cases h : nodes.lookup ('/' :: ['/'].intercalate (cs ++ [part])) with
      | none =>
          simp only [ensureComponents, h]
          exact ih.trans (fileAt_insert_directory h)
      | some n =>
          simp only [ensureComponents, h]
          split
          · exact ih.trans (fileAt_retime h)
          · rfl

theorem fileAt_ensureDirectory {path : NormalizedPath} :
    fileAt (ensureDirectory nodes path now).2 = nodes.fileAt :=
  fileAt_ensureComponents.trans fileAt_ensureRootNode

theorem fileAt_touch {key : Text} : fileAt (touch nodes key now) = nodes.fileAt := by
  unfold touch
  cases h : nodes.lookup key with
  | none => rfl
  | some n => exact fileAt_retime h

/-- What an insertion makes of the files. -/
theorem fileAt_insertFile (nodes : Namespace) (path parent : NormalizedPath) (id : CapsuleId)
    (size now : Nat) :
    match insertFile nodes path parent id size now with
    | (.ok old, nodes') => old = (nodes.fileAt path.full).map Prod.fst ∧
        fileAt nodes' = Function.update nodes.fileAt path.full (some (id, size))
    | (.error _, nodes') => fileAt nodes' = nodes.fileAt := by
  have he : fileAt (ensureDirectory nodes parent now).2 = nodes.fileAt := fileAt_ensureDirectory
  unfold insertFile
  generalize ensureDirectory nodes parent now = r at he
  obtain ⟨r | r, nodes'⟩ := r
  · exact he
  · dsimp only
    cases path.name with
    | none => exact he
    | some name =>
        dsimp only at he ⊢
        refine ⟨?_, ?_⟩
        · rw [← he]
          unfold fileAt
          cases nodes'.lookup path.full with
          | none => rfl
          | some n => exact n.capsule_eq
        · rw [fileAt_touch, fileAt_insert, he]
          rfl

/-- What a removal makes of the files. -/
theorem fileAt_remove (nodes : Namespace) (path : NormalizedPath) (now : Nat) :
    match remove nodes path now with
    | (.ok old, nodes') => old = (nodes.fileAt path.full).map Prod.fst ∧
        fileAt nodes' = Function.update nodes.fileAt path.full none
    | (.error _, nodes') => fileAt nodes' = nodes.fileAt := by
  unfold remove
  cases h : nodes.lookup path.full with
  | none => rfl
  | some n =>
      dsimp only
      split
      · next e =>
          split at e <;> cases e
          refine ⟨?_, ?_⟩
          · unfold fileAt
            rw [h]
            exact n.capsule_eq
          · cases path.parentPath with
            | none => exact fileAt_erase _ _
            | some dir => exact fileAt_touch.trans (fileAt_erase _ _)
      · next e =>
          split at e <;> cases e
          rfl

end Namespace

/-! ### Between two calls -/

/-- A write of `data` to the path `key`, as the capsule `id`. -/
def NfsCall.WritesTo (c : NfsCall) (key : Text) (id : CapsuleId) (data : Bytes) : Prop :=
  ∃ path now, c = .writeFile id path data now ∧ (normalizePath path).full = key

/-- Every file holds what a call wrote to its path, in a capsule of its own. -/
structure NfsSound (hist : List NfsCall) (files : Text → Option (CapsuleId × Nat))
    (holds : CapsuleId → Option Bytes) : Prop where
  written : ∀ key id size, files key = some (id, size) →
    ∃ c ∈ hist, ∃ data, c.WritesTo key id data ∧ size = data.length ∧ holds id = some data
  distinct : ∀ key key' id size size', files key = some (id, size) →
    files key' = some (id, size') → key = key'

namespace NfsSound
variable {hist hist' : List NfsCall} {files : Text → Option (CapsuleId × Nat)}
  {holds holds' : CapsuleId → Option Bytes} {key : Text} {id : CapsuleId} {c : NfsCall}

/-- More calls and more capsules. -/
theorem mono (h : NfsSound hist files holds) (hh : ∀ c ∈ hist, c ∈ hist')
    (hk : ∀ id data, holds id = some data → holds' id = some data) :
    NfsSound hist' files holds' where
  written := by
    intro key id size hf
    obtain ⟨c, hc, data, hw, hs, hd⟩ := h.written key id size hf
    exact ⟨c, hh c hc, data, hw, hs, hk id data hd⟩
  distinct := h.distinct

theorem adds (h : NfsSound hist files holds) (hid : holds id = none) (c : NfsCall) (data : Bytes) :
    NfsSound (hist ++ [c]) files (Function.update holds id (some data)) := by
  refine h.mono (fun _ hc => List.mem_append_left _ hc) fun k d hk => ?_
  rw [Function.update_of_ne, hk]
  rintro rfl
  rw [hid] at hk
  cases hk

/-- **A file is put in its place**, over a capsule nobody else has. -/
theorem insert (h : NfsSound hist files holds) (hid : holds id = none)
    (hc : c.WritesTo key id data) :
    NfsSound (hist ++ [c]) (Function.update files key (some (id, data.length)))
      (Function.update holds id (some data)) where
  written := by
    intro k id' size hf
    by_cases hk : k = key
    · subst hk
      rw [Function.update_self] at hf
      cases hf
      exact ⟨c, List.mem_append_right _ (List.mem_singleton_self c), data, hc, rfl,
        Function.update_self ..⟩
    · rw [Function.update_of_ne hk] at hf
      exact (h.adds hid c data).written k id' size hf
  distinct := by
    have hnew : ∀ k size, files k ≠ some (id, size) := by
      intro k size hf
      obtain ⟨-, -, d, -, -, hd⟩ := h.written k id size hf
      rw [hid] at hd
      cases hd
    intro k k' id' size size' hk hk'
    by_cases e : k = key <;> by_cases e' : k' = key
    · rw [e, e']
    · subst e
      rw [Function.update_self] at hk
      rw [Function.update_of_ne e'] at hk'
      cases hk
      exact absurd hk' (hnew k' size')
    · subst e'
      rw [Function.update_self] at hk'
      rw [Function.update_of_ne e] at hk
      cases hk'
      exact absurd hk (hnew k size)
    · rw [Function.update_of_ne e] at hk
      rw [Function.update_of_ne e'] at hk'
      exact h.distinct k k' id' size size' hk hk'

/-- **A capsule that no file names** may go. -/
theorem drop (h : NfsSound hist files holds) (hn : ∀ key size, files key ≠ some (id, size)) :
    NfsSound hist files (Function.update holds id none) where
  written := by
    intro key id' size hf
    obtain ⟨c, hc, data, hw, hs, hd⟩ := h.written key id' size hf
    refine ⟨c, hc, data, hw, hs, ?_⟩
    rw [Function.update_of_ne, hd]
    rintro rfl
    exact hn key size hf
  distinct := h.distinct

/-- A file is taken away. -/
theorem erase (h : NfsSound hist files holds) (key : Text) :
    NfsSound hist (Function.update files key none) holds where
  written := by
    intro k id size hf
    by_cases hk : k = key
    · subst hk
      rw [Function.update_self] at hf
      cases hf
    · rw [Function.update_of_ne hk] at hf
      exact h.written k id size hf
  distinct := by
    have hold : ∀ k v, Function.update files key none k = some v → files k = some v := by
      intro k v hf
      by_cases hk : k = key
      · subst hk
        rw [Function.update_self] at hf
        cases hf
      · rwa [Function.update_of_ne hk] at hf
    exact fun k k' id size size' hk hk' =>
      h.distinct k k' id size size' (hold _ _ hk) (hold _ _ hk')

/-- The capsule of a file, once the file is another one. -/
theorem replaced (h : NfsSound hist files holds) {size : Nat} (hf : files key = some (id, size))
    {v : Option (CapsuleId × Nat)} (hv : ∀ size, v ≠ some (id, size)) (k : Text) (n : Nat) :
    Function.update files key v k ≠ some (id, n) := by
  intro e
  by_cases hk : k = key
  · subst hk
    rw [Function.update_self] at e
    exact hv n e
  · rw [Function.update_of_ne hk] at e
    exact hk (h.distinct k key id n size e hf)

end NfsSound

/-- What holds between two calls. -/
structure NfsBetween (P : Primitives) (U : Set Bytes) (keys : Option (UInt32 → XtsKeyPair))
    (hist : List NfsCall) (s : World P × NfsView) : Prop where
  store : Between (.cleartext P U keys) s.1
  sound : NfsSound hist s.2.nodes.fileAt s.1.holds
  saved : Namespace.fileAt (s.2.file.getD ∅) = s.2.nodes.fileAt
  persistent : s.2.persistent = true

/-- What a crash may leave: a store to be repaired, under files that hold what was written. -/
def NfsSurvives (P : Primitives) (U : Set Bytes) (keys : Option (UInt32 → XtsKeyPair))
    (hist : List NfsCall) (v : NfsView) (w'' : World P) : Prop :=
  (∃ w g extra, World.Inv (.cleartext P U keys) w g ∧ w'' = w.withFile (w.file ++ extra)) ∧
    NfsSound hist (Namespace.fileAt (v.file.getD ∅)) w''.holds

/-- The store when an operation is cut. -/
def NfsCrash : (StoreSig.sum NfsSig).Op → World P → World P → Prop
  | .inl o, w, w'' => World.Crash o w w''
  | .inr _, w, w'' => w'' = w

/-- A call that replaces or deletes a file. -/
def NfsCall.Supersedes (c : NfsCall) (v : NfsView) : Prop :=
  v.nodes.fileAt (normalizePath c.path).full ≠ none ∧ ∀ path now, c ≠ .mkdir path now

/-- The operations that give the segments of a deleted capsule back. -/
def StoreOp.Releases : StoreOp → Prop
  | .decrementRefcount _ => True
  | .deregisterContent _ _ => True
  | .removeSegment _ => True
  | _ => False

/-- Not between the deletion of a superseded capsule and the saving of the namespace. -/
def NfsCall.Outside (c : NfsCall) (v : NfsView) : (StoreSig.sum NfsSig).Op → Prop
  | .inl o => c.Supersedes v → ¬ o.Releases
  | .inr .persist => ¬ c.Supersedes v
  | .inr _ => True

/-- What the operations of a call do. -/
abbrev NfsCall.handler (c : NfsCall) : Handler (StoreSig.sum NfsSig) Error (World P × NfsView) :=
  (World.exec c.data).sum NfsView.exec

/-- Run a call to its end. -/
def NfsCall.run (c : NfsCall) (s : World P × NfsView) : Except Error Unit × World P × NfsView :=
  (c.program P).run c.handler s

/-- The durable states a call may be interrupted in, at the operations `ok` allows; the last one
is its end. -/
inductive NfsCall.Cut (ok : (StoreSig.sum NfsSig).Op → Prop) (c : NfsCall)
    (s : World P × NfsView) : World P × NfsView → Prop
  | at {o : (StoreSig.sum NfsSig).Op} {s' : World P × NfsView} {w'' : World P} (ho : ok o)
      (hv : Visits c.handler.moves (c.program P) s o s') (hc : NfsCrash o s'.1 w'') :
      Cut ok c s (w'', s'.2)
  | done : Cut ok c s (c.run s).2

/-! ### One call -/

/-- What is asked of a call: the views it hashes are in `U`, and a write that comes to write its
capsule stores no raw chunk that decodes, and adds no reference to a segment whose count is
`u32::MAX`. -/
def NfsCall.Clean (P : Primitives) (U : Set Bytes) (c : NfsCall) (s : World P × NfsView) : Prop :=
  match c with
  | .writeFile id path data _ => s.2.nodes.checkCollision (normalizePath path) = .ok () →
      (Command.write id data {}).HashesIn P U ∧ (Command.write id data {}).Readable P s.1 ∧
        (Command.write id data {}).Unsaturated s.1
  | _ => True

/-- The calls that completed, after one more. -/
def completed {α : Type} (hist : List NfsCall) (c : NfsCall) : Except Error α → List NfsCall
  | .ok _ => hist ++ [c]
  | .error _ => hist

section
variable {hist hist' : List NfsCall} {c : NfsCall} {v v₀ : NfsView} {s : World P × NfsView}

theorem crash_holds {o : StoreOp} {w'' : World P} (h : World.Crash o w w'') :
    w''.holds = w.holds := by
  cases h <;> rfl

theorem Between.survives (h : Between (.cleartext P U keys) w)
    (hs : NfsSound hist (Namespace.fileAt (v.file.getD ∅)) w.holds) :
    NfsSurvives P U keys hist v w := by
  obtain ⟨g, -, hI⟩ := h
  exact ⟨⟨w, g, [], hI, by rw [List.append_nil, World.withFile_file]⟩, hs⟩

/-- What a crash at an operation leaves. -/
def NfsGuard (P : Primitives) (U : Set Bytes) (keys : Option (UInt32 → XtsKeyPair))
    (hist : List NfsCall) (c : NfsCall) (v₀ : NfsView) (o : (StoreSig.sum NfsSig).Op)
    (s' : World P × NfsView) : Prop :=
  c.Outside v₀ o → ∀ w'', NfsCrash o s'.1 w'' → NfsSurvives P U keys (hist ++ [c]) s'.2 w''

theorem wp_view {o : NfsOp} {J : (StoreSig.sum NfsSig).Op → World P × NfsView → Prop}
    {Q : Except Error o.Res → World P × NfsView → Prop} (hJ : J (.inr o) s)
    (hQ : Q (NfsView.exec o s.2).1 (s.1, (NfsView.exec o s.2).2)) :
    (performInr (T := NfsSig) o : NfsProg o.Res).wp c.handler.moves J Q s :=
  (wp_perform_moves (S := StoreSig.sum NfsSig) (o := .inr o)).mpr ⟨hJ, hQ⟩

/-- Before an operation of the view, the store is one between two commands. -/
theorem guard_view {o : NfsOp} (h : Between (.cleartext P U keys) w)
    (hs : NfsSound (hist ++ [c]) (Namespace.fileAt (v.file.getD ∅)) w.holds) :
    NfsGuard P U keys hist c v₀ (.inr o) (w, v) := by
  rintro - w'' rfl
  exact h.survives hs

/-- **Giving up a superseded capsule**: a crash before it leaves the old file, and one after it
is not outside. -/
theorem wp_dropCapsule {old : Option CapsuleId} {Q : Except Error Unit → World P × NfsView → Prop}
    (h : Between (.cleartext P U keys) w)
    (hs : NfsSound (hist ++ [c]) (Namespace.fileAt (v.file.getD ∅)) w.holds)
    (hout : old ≠ none → c.Supersedes v₀) (hnone : old = none → Q (.ok ()) (w, v))
    (hsome : ∀ id w', old = some id → Between (.cleartext P U keys) w' →
      w'.holds = Function.update w.holds id none → Q (.ok ()) (w', v)) :
    (NfsView.dropCapsule old).wp c.handler.moves (NfsGuard P U keys hist c v₀) Q (w, v) := by
  cases old with
  | none => exact hnone rfl
  | some id =>
      refine wp_bind.mpr (wp_attempt.mpr (wp_inl (fun o s' hv => ?_) ?_))
      · intro ho w'' hc
        rcases visits_bind hv with hv | ⟨a, -, hv⟩
        · obtain ⟨rfl, rfl⟩ := visits_perform hv
          cases hc with
          | between => exact h.survives hs
        · refine absurd ?_ (ho (hout (by simp)))
          exact visits_uses hv (uses_foldlM (fun _ x => uses_releaseSegment trivial
            (fun _ => trivial) trivial) _ _)
      · exact hsome id _ rfl (between_delete trivial trivial h id) (run_deleteCapsule_holds w id)

/-- Saving the namespace. -/
theorem wp_persist {J : (StoreSig.sum NfsSig).Op → World P × NfsView → Prop}
    {Q : Except Error Unit → World P × NfsView → Prop} (hp : v.persistent = true)
    (hJ : J (.inr .persist) (w, v)) (hQ : Q (.ok ()) (w, { v with file := some v.nodes })) :
    NfsProg.persist.wp c.handler.moves J Q (w, v) := by
  have he : NfsView.exec .persist v = (.ok (), { v with file := some v.nodes }) := by
    show ((.ok (), if v.persistent then { v with file := some v.nodes } else v) :
      Except Error Unit × NfsView) = _
    rw [if_pos hp]
    rfl
  refine wp_view hJ ?_
  rw [he]
  exact hQ

/-- Removing, deleting or inserting a file: from the capsule that is given up to the saved
namespace.  `files` are those of the new namespace. -/
theorem wp_finish {old : Option CapsuleId} {Q : Except Error Unit → World P × NfsView → Prop}
    (hw : Between (.cleartext P U keys) w) (hp : v.persistent = true)
    (hs : NfsSound (hist ++ [c]) (Namespace.fileAt (v.file.getD ∅)) w.holds)
    (hout : old ≠ none → c.Supersedes v₀)
    (hnew : NfsSound (hist ++ [c]) v.nodes.fileAt w.holds)
    (hold : ∀ id, old = some id → ∀ key size, v.nodes.fileAt key ≠ some (id, size))
    (hQ : ∀ s', NfsBetween P U keys (hist ++ [c]) s' → Q (.ok ()) s') :
    (NfsView.dropCapsule old >>= fun _ => NfsProg.persist).wp c.handler.moves
      (NfsGuard P U keys hist c v₀) Q (w, v) := by
  have hdone : ∀ w', Between (.cleartext P U keys) w' →
      NfsSound (hist ++ [c]) v.nodes.fileAt w'.holds →
      NfsGuard P U keys hist c v₀ (.inr .persist) (w', v) →
      NfsProg.persist.wp c.handler.moves (NfsGuard P U keys hist c v₀) Q (w', v) := by
    exact fun w' hw' hs' hg => wp_persist hp hg (hQ _ ⟨hw', hs', rfl, hp⟩)
  refine wp_bind.mpr (wp_dropCapsule hw hs hout (fun _ => ?_) fun id w' e hw' hh => ?_)
  · exact hdone w hw hnew (guard_view hw hs)
  · refine hdone w' hw' (hh ▸ hnew.drop (hold id e)) fun ho => ?_
    exact absurd (hout (by rw [e]; simp)) ho

/-- The capsule a file had. -/
theorem superseded {key : Text} {old : Option CapsuleId} (h : NfsSound hist v.nodes.fileAt w.holds)
    (e : old = (v.nodes.fileAt key).map Prod.fst) {id : CapsuleId} (ho : old = some id) :
    ∃ size, v.nodes.fileAt key = some (id, size) ∧ ∃ d, w.holds id = some d := by
  rw [e] at ho
  obtain ⟨⟨id', size⟩, hf, rfl⟩ := Option.map_eq_some_iff.mp ho
  obtain ⟨-, -, d, -, -, hd⟩ := h.written key _ size hf
  exact ⟨size, hf, d, hd⟩

/-- What the write of the capsule does for a call. -/
structure CapsuleWritten (P : Primitives) (U : Set Bytes) (keys : Option (UInt32 → XtsKeyPair))
    (w : World P) (id : CapsuleId) (data : Bytes) : Prop where
  store : Between (.cleartext P U keys)
    ((WritePipeline.writeCapsule P id data).run (World.exec data) w).2
  cut : ∀ o w', Visits (World.exec data).moves (WritePipeline.writeCapsule P id data) w o w' →
    ∀ w'', World.Crash o w' w'' → ∃ w₁ g extra, World.Inv (.cleartext P U keys) w₁ g ∧
      w'' = w₁.withFile (w₁.file ++ extra)

theorem capsuleWritten {id : CapsuleId} (hU : P.NoCollision U)
    (h : Between (.cleartext P U keys) w) (hin : (Command.write id data {}).HashesIn P U)
    (hread : (Command.write id data {}).Readable P w)
    (hunsat : (Command.write id data {}).Unsaturated w) : CapsuleWritten P U keys w id data := by
  have hA : (Command.write id data {}).Accepted P (.cleartext P U keys) :=
    ⟨_, accepts_cleartext rfl hU hin hread⟩
  have hok : ∀ o w', (Command.write id data {}).Reaches w o w' →
      World.Allowed (.cleartext P U keys) o w' := by
    intro o w' hv
    cases o with
    | incrementRefcount x =>
        exact fun s hs => ⟨fun _ => hunsat.1 x w' s hv hs, fun k => absurd trivial k⟩
    | lookupContent hash => exact fun _ _ _ _ => trivial
    | _ => trivial
  refine ⟨?_, fun o w' hv w'' hc => ?_⟩
  · have hk : Between (.cleartext P U keys) ((Command.write id data {}).run w).2 :=
      Command.keeps trivial trivial hA h hok
    rwa [show ((Command.write id data {}).run w).2 = _ from run_discard _ _] at hk
  · obtain ⟨w₁, g, extra, hI, e, -⟩ := Command.cut_inv (c := .write id data {}) trivial trivial hA h
      hok (.inl ⟨o, w', visits_bind_left hv, hc⟩)
    exact ⟨w₁, g, extra, hI, e⟩

/-- Wherever the write of the capsule is cut, the files there were keep their capsules. -/
theorem sound_visits {id : CapsuleId} {o : StoreOp}
    {files : Text → Option (CapsuleId × Nat)} (h : NfsSound hist files w.holds)
    (hv : Visits (World.exec data).moves (WritePipeline.writeCapsule P id data) w o w') :
    NfsSound (hist ++ [c]) files w'.holds := by
  have hsame : NfsSound (hist ++ [c]) files w.holds :=
    h.mono (fun _ k => List.mem_append_left _ k) fun _ _ k => k
  have hw := wrote_writeCapsule w id data
  have honce : w'.holds = w.holds ∨ w'.holds =
      ((WritePipeline.writeCapsule P id data).run (World.exec data) w).2.holds :=
    visits_once (World.exec_holds data) once_writeCapsule hv
  generalize (WritePipeline.writeCapsule P id data).run (World.exec data) w = r at hw honce
  rcases honce with e | e
  · rw [e]
    exact hsame
  · obtain ⟨r | id', w₁⟩ := r
    · rw [e, show w₁.holds = w.holds from hw]
      exact hsame
    · rw [e, hw.2.2]
      exact h.adds hw.2.1 c data

/-- **A write of a file.** -/
theorem wp_writeAt {id : CapsuleId} {path : Text} {parent : NormalizedPath} {now : Nat}
    (hU : P.NoCollision U) (hB : NfsBetween P U keys hist (w, v))
    (hc : c = .writeFile id path data now) (hclean : c.Clean P U (w, v)) :
    (NfsView.writeAt P id (normalizePath path) parent data now).wp c.handler.moves
      (NfsGuard P U keys hist c v)
      (fun r s' => NfsBetween P U keys (completed hist c r) s') (w, v) := by
  have hsaved : Namespace.fileAt (v.file.getD ∅) = v.nodes.fileAt := hB.saved
  have hsound : NfsSound hist v.nodes.fileAt w.holds := hB.sound
  have hlater : NfsSound (hist ++ [c]) v.nodes.fileAt w.holds :=
    hsound.mono (fun _ h => List.mem_append_left _ h) fun _ _ h => h
  refine wp_bind.mpr (wp_view (guard_view hB.store (hsaved ▸ hlater)) ?_)
  show andThen _ _ _ _ (v.nodes.checkCollision (normalizePath path)) (w, v)
  cases hcheck : v.nodes.checkCollision (normalizePath path) with
  | error e => exact hB
  | ok u =>
  subst hc
  obtain ⟨hin, hread, hunsat⟩ := hclean hcheck
  have hW := capsuleWritten hU hB.store hin hread hunsat
  have hwrote := wrote_writeCapsule w id data
  refine wp_bind.mpr (wp_inl (fun o w' hv _ w'' hcr => ⟨hW.cut o w' hv w'' hcr, ?_⟩) ?_)
  · rw [crash_holds hcr]
    exact hsaved ▸ sound_visits hsound hv
  have hstore := hW.store
  show andThen _ _ _ _ ((WritePipeline.writeCapsule P id data).run (World.exec data) w).1
    (((WritePipeline.writeCapsule P id data).run (World.exec data) w).2, v)
  generalize (WritePipeline.writeCapsule P id data).run (World.exec data) w = r at hwrote hstore
  obtain ⟨r | id', w₁⟩ := r
  · -- the capsule was not written
    exact ⟨hstore, (show w₁.holds = w.holds from hwrote) ▸ hsound, hsaved, hB.persistent⟩
  obtain ⟨rfl, hnone, hholds⟩ := hwrote
  have hadd : NfsSound (hist ++ [.writeFile id' path data now]) v.nodes.fileAt w₁.holds :=
    hholds ▸ hsound.adds hnone _ data
  refine wp_bind.mpr (wp_view (guard_view hstore (hsaved ▸ hadd)) ?_)
  have hins := Namespace.fileAt_insertFile v.nodes (normalizePath path) parent id' data.length now
  show andThen _ _ _ _ (v.nodes.insertFile _ parent id' data.length now).1
    (w₁, { v with nodes := (v.nodes.insertFile _ parent id' data.length now).2 })
  generalize v.nodes.insertFile (normalizePath path) parent id' data.length now = r at hins
  obtain ⟨r | old, nodes'⟩ := r
  · -- the parent path has a file on it
    have hmono : NfsSound hist v.nodes.fileAt w₁.holds :=
      hsound.mono (fun _ h => h) fun k d hk => by
        rw [hholds, Function.update_of_ne, hk]
        rintro rfl
        rw [hnone] at hk
        cases hk
    exact ⟨hstore, (show nodes'.fileAt = _ from hins) ▸ hmono,
      hsaved.trans (show nodes'.fileAt = _ from hins).symm, hB.persistent⟩
  obtain ⟨hold, hfiles⟩ := hins
  have hto : (NfsCall.writeFile id' path data now).WritesTo (normalizePath path).full id' data :=
    ⟨path, now, rfl, rfl⟩
  show Prog.wp _ _ _ (NfsView.dropCapsule old >>= fun _ => NfsProg.persist >>= fun _ => pure id')
    (w₁, { v with nodes := nodes' })
  rw [← bind_assoc]
  refine wp_bind.mpr (wp_finish hstore hB.persistent (hsaved ▸ hadd) (fun hne => ?_) ?_
    (fun id ho => ?_) fun s' h => h)
  · refine ⟨fun hf => hne ?_, fun _ _ e => by cases e⟩
    rw [hold, show v.nodes.fileAt (normalizePath path).full = none from hf]
    rfl
  · rw [show nodes'.fileAt = _ from hfiles, hholds]
    exact hsound.insert hnone hto
  · obtain ⟨size, hf, d, hd⟩ := superseded hsound hold ho
    rw [show nodes'.fileAt = _ from hfiles]
    refine hsound.replaced hf fun n e => ?_
    obtain ⟨rfl, -⟩ := Prod.mk.inj (Option.some.inj e)
    rw [hnone] at hd
    cases hd

/-- **A delete.** -/
theorem wp_deleteAt {path : Text} {now : Nat} (hB : NfsBetween P U keys hist (w, v))
    (hc : c = .delete path now) :
    (NfsView.deleteAt (normalizePath path) now).wp c.handler.moves (NfsGuard P U keys hist c v)
      (fun r s' => NfsBetween P U keys (completed hist c r) s') (w, v) := by
  have hsaved : Namespace.fileAt (v.file.getD ∅) = v.nodes.fileAt := hB.saved
  have hsound : NfsSound hist v.nodes.fileAt w.holds := hB.sound
  have hlater : NfsSound (hist ++ [c]) v.nodes.fileAt w.holds :=
    hsound.mono (fun _ h => List.mem_append_left _ h) fun _ _ h => h
  refine wp_bind.mpr (wp_view (guard_view hB.store (hsaved ▸ hlater)) ?_)
  have hrem := Namespace.fileAt_remove v.nodes (normalizePath path) now
  show andThen _ _ _ _ (v.nodes.remove (normalizePath path) now).1
    (w, { v with nodes := (v.nodes.remove (normalizePath path) now).2 })
  generalize v.nodes.remove (normalizePath path) now = r at hrem
  obtain ⟨r | old, nodes'⟩ := r
  · have hsame : nodes'.fileAt = v.nodes.fileAt := hrem
    exact ⟨hB.store, hsame ▸ hsound, hsaved.trans hsame.symm, hB.persistent⟩
  obtain ⟨hold, hfiles⟩ := hrem
  refine wp_finish hB.store hB.persistent (hsaved ▸ hlater) (fun hne => ?_) ?_ (fun id ho => ?_)
    fun s' h => h
  · subst hc
    refine ⟨fun hf => hne ?_, fun _ _ e => by cases e⟩
    rw [hold, show v.nodes.fileAt (normalizePath path).full = none from hf]
    rfl
  · rw [show nodes'.fileAt = _ from hfiles]
    exact hlater.erase _
  · obtain ⟨size, hf, -⟩ := superseded hsound hold ho
    rw [show nodes'.fileAt = _ from hfiles]
    exact hsound.replaced hf fun n e => by cases e

/-- **Every call.** -/
theorem NfsCall.wp (hU : P.NoCollision U) (hB : NfsBetween P U keys hist (w, v))
    (hclean : c.Clean P U (w, v)) :
    (c.program P).wp c.handler.moves (NfsGuard P U keys hist c v)
      (fun r s' => NfsBetween P U keys (completed hist c r) s') (w, v) := by
  cases c with
  | writeFile id path data now =>
      refine wp_bind.mpr (wp_mono (Q := fun r s' => NfsBetween P U keys
        (completed hist (.writeFile id path data now) r) s') ?_ fun r s' h => ?_)
      · unfold NfsView.writeFile
        split
        · exact hB
        · cases (normalizePath path).parentPath with
          | none => exact hB
          | some parent => exact wp_writeAt hU hB rfl hclean
      · cases r <;> exact h
  | mkdir path now =>
      have hsound : NfsSound (hist ++ [.mkdir path now]) v.nodes.fileAt w.holds :=
        hB.sound.mono (fun _ h => List.mem_append_left _ h) fun _ _ h => h
      have hsaved : Namespace.fileAt (v.file.getD ∅) = v.nodes.fileAt := hB.saved
      have hsame : Namespace.fileAt (v.nodes.ensureDirectory (normalizePath path) now).2 =
        v.nodes.fileAt := Namespace.fileAt_ensureDirectory
      refine wp_bind.mpr (wp_view (guard_view hB.store (hsaved ▸ hsound)) ?_)
      show andThen _ _ _ _ (v.nodes.ensureDirectory (normalizePath path) now).1
        (w, { v with nodes := (v.nodes.ensureDirectory (normalizePath path) now).2 })
      generalize v.nodes.ensureDirectory (normalizePath path) now = r at hsame
      obtain ⟨r | u, nodes'⟩ := r
      · exact ⟨hB.store, (show nodes'.fileAt = _ from hsame) ▸ hB.sound,
          hsaved.trans (show nodes'.fileAt = _ from hsame).symm, hB.persistent⟩
      · refine wp_persist hB.persistent (guard_view hB.store (hsaved ▸ hsound)) ?_
        exact ⟨hB.store, (show nodes'.fileAt = _ from hsame) ▸ hsound, rfl, hB.persistent⟩
  | delete path now =>
      show Prog.wp _ _ _ (NfsView.delete path now) _
      unfold NfsView.delete
      split
      · exact hB
      · exact wp_deleteAt hB rfl

end

/-! ### Lives -/

/-- What a new process finds after a crash: the store is repaired, and every file of the reloaded
namespace names a live capsule that reads as what a call wrote to its path. -/
def NfsRecovers (hist : List NfsCall) (s : World P × NfsView) : Prop :=
  ∀ (km : Option (KeyManager P)) (capsuleOrd : Order CapsuleId)
    (segmentOrd sweepOrd : Order Segment) (now : Nat),
    ∃ w', s.1.restart km capsuleOrd segmentOrd sweepOrd = (.ok (), w') ∧
      ∀ key id size, (NfsView.open s.2.file now).nodes.fileAt key = some (id, size) →
        ∃ c ∈ hist, ∃ data, c.WritesTo key id data ∧ size = data.length ∧
          (∃ capsule, w'.cap id = some capsule) ∧
          ((WritePipeline.readCapsule P id).run (World.exec []) w').1 = .ok data

/-- The states between calls, in a life of calls that end and of crashes, each call made where `A`
allows it and cut where `ok` allows it, with the calls that completed or were interrupted. -/
inductive NfsLife (A : NfsCall → World P × NfsView → Prop)
    (ok : NfsCall → NfsView → (StoreSig.sum NfsSig).Op → Prop) (km : Option (KeyManager P)) :
    List NfsCall → World P × NfsView → Prop
  | start (now : Nat) : NfsLife A ok km [] (World.empty km, .open none now)
  | call {hist : List NfsCall} {s : World P × NfsView} (c : NfsCall) (h : NfsLife A ok km hist s)
      (hA : A c s) : NfsLife A ok km (completed hist c (c.run s).1) (c.run s).2
  | crash {hist : List NfsCall} {s s'' : World P × NfsView} (c : NfsCall)
      (km' : Option (KeyManager P)) (capsuleOrd : Order CapsuleId)
      (segmentOrd sweepOrd : Order Segment) (now : Nat) (h : NfsLife A ok km hist s) (hA : A c s)
      (hcut : c.Cut (ok c s.2) s s'') :
      NfsLife A ok km (hist ++ [c])
        ((s''.1.restart km' capsuleOrd segmentOrd sweepOrd).2, .open s''.2.file now)

section
variable {hist : List NfsCall} {c : NfsCall} {s s'' : World P × NfsView}
  {km : Option (KeyManager P)}

theorem fileAt_open (file : Option Namespace) (now : Nat) :
    (NfsView.open file now).nodes.fileAt = Namespace.fileAt (file.getD ∅) :=
  Namespace.fileAt_ensureRootNode

/-- What a crash of a call leaves survives. -/
theorem NfsCall.cut_survives (hU : P.NoCollision U) (hB : NfsBetween P U keys hist s)
    (hclean : c.Clean P U s) (hcut : c.Cut (c.Outside s.2) s s'') :
    NfsSurvives P U keys (hist ++ [c]) s''.2 s''.1 := by
  have hwp := NfsCall.wp hU hB hclean
  cases hcut with
  | «at» ho hv hc => exact wp_visits hwp hv ho _ hc
  | done =>
      have h : NfsBetween P U keys (completed hist c (c.run s).1) (c.run s).2 := wp_run hwp
      refine h.store.survives (h.saved ▸ h.sound.mono (fun d hd => ?_) fun _ _ k => k)
      unfold completed at hd
      split at hd
      · exact hd
      · exact List.mem_append_left _ hd

/-- What survives is repaired. -/
theorem NfsSurvives.restart {v : NfsView} {w'' : World P}
    (h : NfsSurvives P U keys hist v w'') (km : Option (KeyManager P))
    (capsuleOrd : Order CapsuleId) (segmentOrd sweepOrd : Order Segment) :
    ∃ w', w''.restart km capsuleOrd segmentOrd sweepOrd = (.ok (), w') ∧
      World.Inv (.cleartext P U (km.map KeyManager.derive)) w' 0 ∧ w'.holds = w''.holds := by
  obtain ⟨⟨w, g, extra, hI, rfl⟩, -⟩ := h
  obtain ⟨w', e, hI', hc, hl⟩ := hI.restart trivial trivial km extra capsuleOrd segmentOrd sweepOrd
  exact ⟨w', e, hI', World.holds_congr hc (by rw [hl]; rfl)⟩

theorem nfsLife_between (hU : P.NoCollision U)
    (h : NfsLife (NfsCall.Clean P U) NfsCall.Outside km hist s) :
    ∃ keys, NfsBetween P U keys hist s := by
  induction h with
  | start now =>
      refine ⟨_, ⟨0, fun _ k => absurd k (Multiset.notMem_zero _), .empty km rfl⟩, ?_, ?_, rfl⟩
      · rw [fileAt_open]
        exact ⟨fun _ _ _ k => (by cases k), fun _ _ _ _ _ k => (by cases k)⟩
      · exact (fileAt_open none now).symm
  | call c _ hA ih =>
      obtain ⟨keys, hB⟩ := ih
      exact ⟨keys, wp_run (NfsCall.wp hU hB hA)⟩
  | crash c km' capsuleOrd segmentOrd sweepOrd now _ hA hcut ih =>
      obtain ⟨keys, hB⟩ := ih
      have hS := NfsCall.cut_survives hU hB hA hcut
      obtain ⟨w', e, hI, hh⟩ := hS.restart km' capsuleOrd segmentOrd sweepOrd
      rw [e]
      refine ⟨_, ⟨0, fun _ k => absurd k (Multiset.notMem_zero _), hI⟩, ?_, ?_, rfl⟩
      · rw [fileAt_open, hh]
        exact hS.2
      · exact (fileAt_open _ now).symm

/-- **Crash consistency of the file view**: whatever a life did before, and wherever a call is
cut, except between the deletion of a superseded capsule and the saving of the namespace. -/
theorem nfs_crash_safe (hU : P.NoCollision U)
    (h : NfsLife (NfsCall.Clean P U) NfsCall.Outside km hist s) (hclean : c.Clean P U s)
    (hcut : c.Cut (c.Outside s.2) s s'') : NfsRecovers (hist ++ [c]) s'' := by
  intro km' capsuleOrd segmentOrd sweepOrd now
  obtain ⟨keys, hB⟩ := nfsLife_between hU h
  have hS := NfsCall.cut_survives hU hB hclean hcut
  obtain ⟨w', e, hI, hh⟩ := hS.restart km' capsuleOrd segmentOrd sweepOrd
  refine ⟨w', e, fun key id size hf => ?_⟩
  rw [fileAt_open] at hf
  obtain ⟨c', hc', data, hw, hs, hd⟩ := hS.2.written key id size hf
  rw [← hh] at hd
  obtain ⟨⟨capsule, hcap⟩, hprod⟩ := World.holds_eq_some.mp hd
  refine ⟨c', hc', data, hw, hs, ⟨capsule, hcap⟩, ?_⟩
  rw [← hprod]
  refine hI.read (fun _ hl => hl.1) (fun _ _ _ hsound => hsound.imp ?_) hcap
  rintro chunk i ⟨hclear, hdec⟩
  exact ⟨i.payload, .inl ⟨hclear, rfl⟩, hdec⟩

end

/-! ### Runs -/

/-- A file `/a` with the bytes `data`. -/
def sampleWrite (data : Bytes) : NfsCall := .writeFile ⟨0⟩ ['/', 'a'] data 0

/-- The state after it is written. -/
def sampleWritten (data : Bytes) : World .stored × NfsView :=
  ((sampleWrite data).run (World.empty none, .open none 0)).2

def sampleDelete : NfsCall := .delete ['/', 'a'] 0

/-- A call that is outside whatever the view. -/
def outsideAny : (StoreSig.sum NfsSig).Op → Bool
  | .inl (.decrementRefcount _) => false
  | .inl (.deregisterContent _ _) => false
  | .inl (.removeSegment _) => false
  | .inr .persist => false
  | _ => true

theorem outside_of_any {c : NfsCall} {v : NfsView} {o : (StoreSig.sum NfsSig).Op}
    (h : outsideAny o = true) : c.Outside v o := by
  cases o with
  | inl o => cases o <;> first | exact fun _ => not_false | cases h
  | inr o => cases o <;> trivial

/-- A delete of the file, interrupted before it deletes the capsule. -/
theorem nfs_crash_safe_delete : ∃ o s',
    callAt sampleDelete.handler 1 (sampleDelete.program .stored) (sampleWritten unframed) =
      some (o, s') ∧ NfsRecovers [sampleWrite unframed, sampleDelete] s' := by
  have hclean : (sampleWrite unframed).Clean .stored {unframed}
      (World.empty none, .open none 0) :=
    fun _ => ⟨hashesIn_raw (by decide) rfl,
      forall_chunk_of_length_le (by decide) fun _ _ _ _ => by decide +kernel,
      Command.unsaturated_of_along (by decide +kernel) (by simp)⟩
  have h₁ : NfsLife (NfsCall.Clean .stored {unframed}) NfsCall.Outside none
      [sampleWrite unframed] (sampleWritten unframed) := .call _ (.start 0) hclean
  have hcall : (callAt sampleDelete.handler 1 (sampleDelete.program .stored)
      (sampleWritten unframed)).map (fun p => outsideAny p.1) = some true := by decide +kernel
  obtain ⟨⟨o, s'⟩, e, ho⟩ := Option.map_eq_some_iff.mp hcall
  refine ⟨o, s', e, nfs_crash_safe (Set.injOn_singleton _ _) h₁ (c := sampleDelete) trivial ?_⟩
  refine .at (outside_of_any ho) (visits_of_callAt e) ?_
  cases o with
  | inl o => exact .between _ _
  | inr o => rfl

/-- A delete of the file, interrupted between the deletion of the capsule and the saving of the
namespace. -/
theorem not_nfs_crash_safe :
    ¬ ∀ (P : Primitives) (U : Set Bytes) (km : Option (KeyManager P)) (hist : List NfsCall)
      (s s'' : World P × NfsView) (c : NfsCall), P.NoCollision U →
      NfsLife (fun c _ => ∀ id path data now, c = .writeFile id path data now →
        (Command.write id data {}).HashesIn P U) (fun _ _ _ => True) km hist s →
      c.Cut (fun _ => True) s s'' → NfsRecovers (hist ++ [c]) s'' := by
  intro h
  have h₁ : NfsLife (fun c _ => ∀ id path data now, c = .writeFile id path data now →
      (Command.write id data {}).HashesIn .stored {[]}) (fun _ _ _ => True) none
      [sampleWrite []] (sampleWritten []) := by
    refine .call (sampleWrite []) (.start 0) ?_
    intro id path data now e
    cases e
    exact hashesIn_raw (by decide) rfl
  have hcall : (callAt sampleDelete.handler 2 (sampleDelete.program .stored)
      (sampleWritten [])).map (fun p => ((World.restart none .asGiven .asGiven .asGiven p.2.1).2.cap
        ⟨0⟩, (NfsView.open p.2.2.file 0).nodes.fileAt ['/', 'a'])) =
      some (none, some (⟨0⟩, 0)) := by
    decide +kernel
  obtain ⟨⟨o, s'⟩, e, hs⟩ := Option.map_eq_some_iff.mp hcall
  obtain ⟨hcap, hfile⟩ := Prod.mk.inj hs
  have hcut : sampleDelete.Cut (fun _ => True) (sampleWritten []) s' := by
    refine .at trivial (visits_of_callAt e) ?_
    cases o with
    | inl o => exact .between _ _
    | inr o => rfl
  obtain ⟨w', hrestart, hfiles⟩ := h .stored {[]} none _ _ _ _ (Set.injOn_singleton _ _) h₁ hcut
    none .asGiven .asGiven .asGiven 0
  obtain ⟨-, -, -, -, -, ⟨capsule, hlive⟩, -⟩ := hfiles _ _ _ hfile
  have hnone : (World.restart none .asGiven .asGiven .asGiven s'.1).2.cap ⟨0⟩ = none := hcap
  rw [hrestart, hlive] at hnone
  cases hnone

end Space

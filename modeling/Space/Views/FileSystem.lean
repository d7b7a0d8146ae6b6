import Space.Support.Refinement
import Space.Views.NfsFiles
import Space.Views.RangeWrites

/-!
# Views — FileSystem

The file view is a file system.  `FilesStep` says what one does: its state is the map of its paths,
and every answer, the texts of the errors with it, follows from that map.  A file view over the
pipeline, which keeps a namespace, a registry and a log, and is opened again in between and after
crashes, has the traces of that system and no others (`nfs_refines_files`).

* `NfsCall.Changes`: what the calls that change something do, one rule for each outcome.
* `NfsRequest.Answered`: what the others answer.
* `NfsCall.wp_changes`: a call does what the rules say, and wherever it is cut outside of the
  window of `NfsCall.Outside`, the saved namespace and what its files hold are those from before.
-/

namespace Space
open Support Prog

/-! ### Requests -/

/-- A request of a client. -/
inductive NfsRequest where
  | call (c : NfsCall)
  | readFile (path : Text)
  | metadata (path : Text)
  | listDirectory (path : Text)

def NfsRequest.path : NfsRequest → Text
  | call c => c.path
  | readFile path => path
  | metadata path => path
  | listDirectory path => path

/-- What a client is told. -/
inductive NfsAnswer where
  | done
  | bytes (data : Bytes)
  | entry (e : NfsEntry)
  | entries (es : List NfsEntry)

variable {P : Primitives}

/-- Serve a request. -/
def NfsRequest.run :
    NfsRequest → World P × NfsView → Except Error NfsAnswer × World P × NfsView
  | call c, s => ((c.run s).1.map fun _ => .done, (c.run s).2)
  | readFile path, s =>
    let r := (s.2.readFile P path).run (World.exec []) s.1
    (r.1.map .bytes, r.2, s.2)
  | metadata path, s => ((s.2.metadata path).map .entry, s)
  | listDirectory path, s => ((s.2.nodes.listDirectory path).map .entries, s)

/-- What there is to see of a file view. -/
inductive NfsEvent where
  | answered (r : NfsRequest) (answer : Except Error NfsAnswer)
  | interrupted (c : NfsCall)

/-! ### File systems -/

/-- The names on the way to a path. -/
abbrev pathNames (path : Text) : List Text := (normalizePath path).components

section
variable {β γ : Type}

/-- What a call makes of a file system, and what it returns; the file it writes has `content`. -/
inductive NfsCall.Changes (t : FileTree Text β) (content : β) :
    NfsCall → Except Error Unit → FileTree Text β → Prop
  | writeRoot {id : CapsuleId} {path : Text} {data : Bytes} {now : Nat}
      (hroot : pathNames path = []) :
      Changes t content (.writeFile id path data now)
        (.error (.msg "Cannot write file at root")) t
  | writeDirectory {id : CapsuleId} {path : Text} {data : Bytes} {now : Nat}
      (hroot : pathNames path ≠ []) (hdir : t (pathNames path) = some .dir) :
      Changes t content (.writeFile id path data now)
        (.error (.msg "Cannot overwrite directory with file")) t
  | writeBlocked {id : CapsuleId} {path : Text} {data : Bytes} {now : Nat} {q : List Text}
      (hroot : pathNames path ≠ []) (hdir : t (pathNames path) ≠ some .dir)
      (hfirst : t.FirstFile (pathNames path).dropLast q) :
      Changes t content (.writeFile id path data now)
        (.error (pathError "Path conflict with file: " (fullPath q))) t
  | wrote {id : CapsuleId} {path : Text} {data : Bytes} {now : Nat}
      (hroot : pathNames path ≠ []) (hdir : t (pathNames path) ≠ some .dir)
      (hclear : t.Clear (pathNames path).dropLast) :
      Changes t content (.writeFile id path data now) (.ok ()) (t.put (pathNames path) content)
  | mkdirBlocked {path : Text} {now : Nat} {q : List Text}
      (hfirst : t.FirstFile (pathNames path) q) :
      Changes t content (.mkdir path now)
        (.error (pathError "Path conflict with file: " (fullPath q))) t
  | made {path : Text} {now : Nat} (hclear : t.Clear (pathNames path)) :
      Changes t content (.mkdir path now) (.ok ()) (t.mkdirs (pathNames path))
  | deleteRoot {path : Text} {now : Nat} (hroot : pathNames path = []) :
      Changes t content (.delete path now) (.error (.msg "Cannot delete root directory")) t
  | deleteMissing {path : Text} {now : Nat} (hroot : pathNames path ≠ [])
      (hnone : t (pathNames path) = none) :
      Changes t content (.delete path now)
        (.error (pathError "No such path: " (fullPath (pathNames path)))) t
  | deleteNotEmpty {path : Text} {now : Nat} {c : Text} (hroot : pathNames path ≠ [])
      (hin : t (pathNames path ++ [c]) ≠ none) :
      Changes t content (.delete path now)
        (.error (pathError "Directory not empty: " (fullPath (pathNames path)))) t
  | deleted {path : Text} {now : Nat} (hroot : pathNames path ≠ [])
      (hsome : t (pathNames path) ≠ none) (hempty : ∀ c, t (pathNames path ++ [c]) = none) :
      Changes t content (.delete path now) (.ok ()) (t.remove (pathNames path))

/-- The contents seen in another way. -/
theorem NfsCall.Changes.map {t t' : FileTree Text β} {content : β} {content' : γ} {c : NfsCall}
    {r : Except Error Unit} (h : c.Changes t content r t') {f : β → γ}
    (hf : ∀ id path data now, c = .writeFile id path data now → f content = content') :
    c.Changes (t.map f) content' r (t'.map f) := by
  cases h with
  | writeRoot hroot => exact .writeRoot hroot
  | writeDirectory hroot hdir => exact .writeDirectory hroot (FileTree.map_eq_dir.mpr hdir)
  | writeBlocked hroot hdir hfirst =>
      exact .writeBlocked hroot (mt FileTree.map_eq_dir.mp hdir) hfirst.map
  | wrote hroot hdir hclear =>
      rw [FileTree.map_put, hf _ _ _ _ rfl]
      exact .wrote hroot (mt FileTree.map_eq_dir.mp hdir) (FileTree.clear_map.mpr hclear)
  | mkdirBlocked hfirst => exact .mkdirBlocked hfirst.map
  | made hclear =>
      rw [FileTree.map_mkdirs]
      exact .made (FileTree.clear_map.mpr hclear)
  | deleteRoot hroot => exact .deleteRoot hroot
  | deleteMissing hroot hnone => exact .deleteMissing hroot (FileTree.map_eq_none.mpr hnone)
  | deleteNotEmpty hroot hin => exact .deleteNotEmpty hroot (mt FileTree.map_eq_none.mp hin)
  | deleted hroot hsome hempty =>
      rw [FileTree.map_remove]
      exact .deleted hroot (mt FileTree.map_eq_none.mp hsome)
        fun c => FileTree.map_eq_none.mpr (hempty c)

end

/-- An entry says what is at a path. -/
structure NfsEntry.Shows (e : NfsEntry) (p : List Text) (x : FileNode Bytes) : Prop where
  path : e.path = fullPath p
  name : ∀ c ∈ p.getLast?, e.name = c
  kind : e.kind = match x with
    | .dir => .directory
    | .file _ => .file
  size : e.size = match x with
    | .dir => 0
    | .file content => content.length

/-- What the requests that change nothing are answered. -/
inductive NfsRequest.Answered (t : FileTree Text Bytes) :
    NfsRequest → Except Error NfsAnswer → Prop
  | read {path : Text} {content : Bytes} (hfile : t (pathNames path) = some (.file content)) :
      Answered t (.readFile path) (.ok (.bytes content))
  | readDirectory {path : Text} (hdir : t (pathNames path) = some .dir) :
      Answered t (.readFile path)
        (.error (pathError "Path is a directory: " (fullPath (pathNames path))))
  | readMissing {path : Text} (hnone : t (pathNames path) = none) :
      Answered t (.readFile path) (.error (pathError "No such file: " (fullPath (pathNames path))))
  | entry {path : Text} {x : FileNode Bytes} {e : NfsEntry} (hsome : t (pathNames path) = some x)
      (hshows : e.Shows (pathNames path) x) : Answered t (.metadata path) (.ok (.entry e))
  | noEntry {path : Text} (hnone : t (pathNames path) = none) :
      Answered t (.metadata path) (.error (pathError "No such path: " (fullPath (pathNames path))))
  | listed {path : Text} {es : List NfsEntry} (hdir : t (pathNames path) = some .dir)
      (hsorted : es.Pairwise fun a b => a.path < b.path)
      (hin : ∀ e ∈ es, ∃ c x, t (pathNames path ++ [c]) = some x ∧
        e.Shows (pathNames path ++ [c]) x)
      (hall : ∀ c x, t (pathNames path ++ [c]) = some x →
        ∃ e ∈ es, e.Shows (pathNames path ++ [c]) x) :
      Answered t (.listDirectory path) (.ok (.entries es))
  | listFile {path : Text} {content : Bytes} (hfile : t (pathNames path) = some (.file content)) :
      Answered t (.listDirectory path)
        (.error (pathError "Path is not a directory: " (fullPath (pathNames path))))
  | listMissing {path : Text} (hnone : t (pathNames path) = none) :
      Answered t (.listDirectory path)
        (.error (pathError "No such directory: " (fullPath (pathNames path))))

/-- The steps of a file system.  A call that is interrupted is lost, or it is done. -/
inductive FilesStep (t : FileTree Text Bytes) : Option NfsEvent → FileTree Text Bytes → Prop
  | changed {c : NfsCall} {r : Except Error Unit} {t' : FileTree Text Bytes}
      (h : c.Changes t c.data r t') :
      FilesStep t (some (.answered (.call c) (r.map fun _ => .done))) t'
  | asked {q : NfsRequest} {r : Except Error NfsAnswer} (h : q.Answered t r) :
      FilesStep t (some (.answered q r)) t
  | lost {c : NfsCall} : FilesStep t (some (.interrupted c)) t
  | done {c : NfsCall} {r : Except Error Unit} {t' : FileTree Text Bytes}
      (h : c.Changes t c.data r t') : FilesStep t (some (.interrupted c)) t'

/-- A file system that is empty to begin with. -/
def fileSystem : LabelledSystem (FileTree Text Bytes) NfsEvent := ⟨(· = .root), FilesStep⟩

/-! ### One call -/

section
variable {U : Set Bytes} {keys : Option (UInt32 → XtsKeyPair)} {hist : List NfsCall}
  {w : World P} {v : NfsView} {c : NfsCall} {s₀ : World P × NfsView}

/-- What is asked of a call: a write that comes to write its capsule has a new identifier for it. -/
def NfsCall.Ready (P : Primitives) (U : Set Bytes) (c : NfsCall) (s : World P × NfsView) : Prop :=
  c.Clean P U s ∧ ∀ id path data now, c = .writeFile id path data now → s.1.cap id = none

/-- The namespace is a tree, and the saved one is the same. -/
structure NfsView.Kept (v : NfsView) : Prop where
  nodes : v.nodes.WellFormed
  saved : ∀ now, (NfsView.open v.file now).nodes.WellFormed
  same : ∀ now, (NfsView.open v.file now).nodes.tree = v.nodes.tree

/-- Nothing is saved yet, and the files there were hold what they held. -/
def NfsUndone (c : NfsCall) (s₀ : World P × NfsView) (o : (StoreSig.sum NfsSig).Op)
    (s : World P × NfsView) : Prop :=
  s.2.file = s₀.2.file ∧ (c.Outside s₀.2 o → ∀ key id size data,
    s₀.2.nodes.fileAt key = some (id, size) → s₀.1.holds id = some data →
      s.1.holds id = some data)

/-- The capsule and the size of the file a call writes. -/
def NfsCall.content : NfsCall → CapsuleId × Nat
  | .writeFile id _ data _ => (id, data.length)
  | _ => (⟨0⟩, 0)

/-- The capsules after a call, those it deletes among them. -/
def NfsCall.adds (c : NfsCall) (holds : CapsuleId → Option Bytes) : CapsuleId → Option Bytes :=
  match c with
  | .writeFile id _ data _ => Function.update holds id (some data)
  | _ => holds

/-- What a call does, and leaves. -/
structure NfsCall.Did (c : NfsCall) (s : World P × NfsView) (r : Except Error Unit)
    (s' : World P × NfsView) : Prop where
  changes : c.Changes s.2.nodes.tree c.content r s'.2.nodes.tree
  kept : s'.2.Kept
  holds : ∀ id data, s'.1.holds id = some data → c.adds s.1.holds id = some data

/-- A write has a new capsule, so the others are still there. -/
theorem NfsCall.adds_of_holds (hnew : ∀ id path data now, c = .writeFile id path data now →
    w.cap id = none) {id : CapsuleId} {data : Bytes} (h : w.holds id = some data) :
    c.adds w.holds id = some data := by
  cases c with
  | writeFile id' path bytes now =>
      show Function.update w.holds id' (some bytes) id = some data
      rw [Function.update_of_ne, h]
      rintro rfl
      obtain ⟨⟨capsule, hcap⟩, -⟩ := World.holds_eq_some.mp h
      rw [hnew id path bytes now rfl] at hcap
      cases hcap
  | mkdir path now => exact h
  | delete path now => exact h

/-- A capsule is deleted before its segments are given back. -/
theorem visits_deleteCapsule {data : Bytes} {id : CapsuleId} {o : StoreOp} {w' : World P}
    (hv : Visits (World.exec data).moves (WritePipeline.deleteCapsule id) w o w') :
    w' = w ∨ o.Releases := by
  rcases visits_bind hv with hv | ⟨a, -, hv⟩
  · exact .inl (visits_perform hv).2
  · exact .inr (visits_uses hv (uses_foldlM (fun _ x => uses_releaseSegment trivial
      (fun _ => trivial) trivial) _ _))

theorem NfsView.Kept.persisted (h : v.nodes.WellFormed) :
    NfsView.Kept { v with file := some v.nodes } :=
  ⟨h, fun _ => h.ensureRootNode, fun _ => Namespace.tree_ensureRootNode h⟩

/-- **Giving up a superseded capsule**, and saving the namespace. -/
theorem wp_finish_undone {old : Option CapsuleId} {Q : Except Error Unit → World P × NfsView → Prop}
    (hp : v.persistent = true) (hJ : ∀ o, NfsUndone c s₀ o (w, v))
    (hout : old ≠ none → c.Supersedes s₀.2)
    (hQ : ∀ w', (∀ id data, w'.holds id = some data → w.holds id = some data) →
      Q (.ok ()) (w', { v with file := some v.nodes })) :
    (NfsView.dropCapsule old >>= fun _ => NfsProg.persist).wp c.handler.moves (NfsUndone c s₀) Q
      (w, v) := by
  refine wp_bind.mpr ?_
  cases old with
  | none => exact wp_persist hp (hJ _) (hQ w fun _ _ h => h)
  | some id =>
      have hsup : c.Supersedes s₀.2 := hout (by simp)
      refine wp_bind.mpr (wp_attempt.mpr (wp_inl (fun o w' hv => ?_) ?_))
      · rcases visits_deleteCapsule hv with rfl | hrel
        · exact hJ _
        · exact ⟨(hJ (.inr .persist)).1, fun ho => absurd hrel (ho hsup)⟩
      · have hholds : ((WritePipeline.deleteCapsule id).run (World.exec c.data) w).2.holds =
            Function.update w.holds id none := run_deleteCapsule_holds w id
        refine wp_persist hp ⟨(hJ (.inr .persist)).1, fun ho => absurd hsup ho⟩ (hQ _ ?_)
        intro k data hk
        rw [hholds] at hk
        by_cases e : k = id
        · subst e
          rw [Function.update_self] at hk
          cases hk
        · rwa [Function.update_of_ne e] at hk

/-- **A write of a file.** -/
theorem wp_writeAt_changes {id : CapsuleId} {path : Text} {data : Bytes} {now : Nat}
    {cs : List Text} {d : Text} (hd : P.CodecsInverse) (hcomp : P.Compresses)
    (hB : NfsBetween P U keys hist (w, v)) (hkept : v.Kept) (hcs : Names (cs ++ [d]))
    (hpath : normalizePath path = .ofComponents (cs ++ [d]))
    (hc : c = .writeFile id path data now) (hnew : w.cap id = none) :
    (NfsView.writeAt P id (normalizePath path) (.ofComponents cs) data now).wp c.handler.moves
      (NfsUndone c (w, v)) (fun r s' => c.Did (w, v) (r.map fun _ => ()) s') (w, v) := by
  subst hc
  have hnames : pathNames path = cs ++ [d] := congrArg NormalizedPath.components hpath
  have hroot : pathNames path ≠ [] := by simp [hnames]
  have hadds : ∀ {k b}, w.holds k = some b →
      Function.update w.holds id (some data) k = some b := fun h =>
    NfsCall.adds_of_holds (c := .writeFile id path data now) (by rintro _ _ _ _ ⟨⟩; exact hnew) h
  refine wp_bind.mpr (wp_view ⟨rfl, fun _ _ _ _ _ _ h => h⟩ ?_)
  show andThen _ _ _ _ (v.nodes.checkCollision (normalizePath path)) (w, v)
  rw [hpath, Namespace.checkCollision_eq hcs]
  by_cases hdir : v.nodes.tree (cs ++ [d]) = some .dir
  · rw [if_pos hdir]
    exact ⟨.writeDirectory hroot (hnames ▸ hdir), hkept, fun k b hk => hadds hk⟩
  rw [if_neg hdir]
  have hwrote := wrote_writeCapsule w id data
  obtain ⟨r, w₁, hrun⟩ : ∃ r w₁, (WritePipeline.writeCapsule P id data).run (World.exec data) w =
    (r, w₁) := ⟨_, _, rfl⟩
  obtain ⟨g, -, hI⟩ := hB.store
  have hok : ((WritePipeline.writeCapsule P id data).run (World.exec data) w).1 = .ok id :=
    (clearWrite_ok hd hcomp hI hnew).1
  rw [hrun] at hwrote hok
  obtain rfl : r = .ok id := hok
  obtain ⟨-, -, hholds⟩ := hwrote
  refine wp_bind.mpr (wp_inl (fun o w' hv => ⟨rfl, fun _ _ k _ b _ hk => ?_⟩) ?_)
  · rcases visits_once (World.exec_holds data) once_writeCapsule hv with e | e
    · exact (congrFun e k).trans hk
    · have hend : ((WritePipeline.writeCapsule P id data).run (World.exec data) w).2.holds =
          Function.update w.holds id (some data) := by rw [hrun, hholds]
      exact (congrFun (e.trans hend) k).trans (hadds hk)
  show andThen _ _ _ _ ((WritePipeline.writeCapsule P id data).run (World.exec data) w).1
    (((WritePipeline.writeCapsule P id data).run (World.exec data) w).2, v)
  rw [hrun]
  have hundone : ∀ nodes' o, NfsUndone (.writeFile id path data now) (w, v) o
      (w₁, { v with nodes := nodes' }) := fun _ _ =>
    ⟨rfl, fun _ _ k _ b _ hk => (congrFun hholds k).trans (hadds hk)⟩
  refine wp_bind.mpr (wp_view (hundone v.nodes _) ?_)
  have hchildless : v.nodes.Childless (cs ++ [d]) :=
    hkept.nodes.childless hcs fun k => hdir ((Namespace.tree_eq_dir hcs).mpr k)
  have hwf : Namespace.WellFormed (v.nodes.insertFile (.ofComponents (cs ++ [d]))
      (.ofComponents cs) id data.length now).2 :=
    hkept.nodes.insertFile hcs hchildless id data.length
  have hfiles := Namespace.fileAt_insertFile v.nodes (.ofComponents (cs ++ [d])) (.ofComponents cs)
    id data.length now
  show andThen _ _ _ _ (v.nodes.insertFile _ _ id data.length now).1
    (w₁, { v with nodes := (v.nodes.insertFile _ _ id data.length now).2 })
  rcases FileTree.clear_or_firstFile v.nodes.tree cs with hclear | ⟨q, hfirst⟩
  · obtain ⟨⟨old, hok⟩, htree⟩ := Namespace.tree_insertFile hkept.nodes hcs hclear id
      data.length now
    generalize v.nodes.insertFile (.ofComponents (cs ++ [d])) (.ofComponents cs) id data.length
      now = r at hwf hfiles hok htree
    obtain ⟨r, nodes'⟩ := r
    obtain rfl : r = .ok old := hok
    show Prog.wp _ _ _ (NfsView.dropCapsule old >>= fun _ => NfsProg.persist >>= fun _ => pure id)
      (w₁, { v with nodes := nodes' })
    rw [← bind_assoc]
    refine wp_bind.mpr (wp_finish_undone hB.persistent (hundone nodes') (fun hne => ?_)
      fun w' hle => ?_)
    · refine ⟨fun hf => hne ?_, fun _ _ e => by cases e⟩
      have hf : v.nodes.fileAt (normalizePath path).full = none := hf
      rw [hfiles.1, ← hpath, hf]
      rfl
    · refine ⟨?_, .persisted hwf, fun k b hk => ?_⟩
      · have hput : nodes'.tree = v.nodes.tree.put (pathNames path) (id, data.length) :=
          hnames ▸ htree
        show NfsCall.Changes _ _ _ _ nodes'.tree
        rw [hput]
        refine .wrote hroot (hnames ▸ hdir) ?_
        rwa [hnames, List.dropLast_concat]
      · exact (congrFun hholds k).symm.trans (hle k b hk)
  · obtain ⟨herr, htree⟩ := Namespace.tree_insertFile_blocked hkept.nodes hcs hfirst id
      data.length now
    generalize v.nodes.insertFile (.ofComponents (cs ++ [d])) (.ofComponents cs) id data.length
      now = r at hwf hfiles herr htree
    obtain ⟨r, nodes'⟩ := r
    obtain rfl : r = .error _ := herr
    have htree : nodes'.tree = v.nodes.tree := htree
    refine ⟨?_, ⟨hwf, hkept.saved, fun t => (hkept.same t).trans htree.symm⟩, fun k b hk => ?_⟩
    · show NfsCall.Changes _ _ _ _ nodes'.tree
      rw [htree]
      refine .writeBlocked hroot (hnames ▸ hdir) ?_
      rwa [hnames, List.dropLast_concat]
    · exact (congrFun hholds k).symm.trans hk

/-- **A delete.** -/
theorem wp_deleteAt_changes {path : Text} {now : Nat} {cs : List Text} {d : Text}
    (hp : v.persistent = true) (hkept : v.Kept) (hcs : Names (cs ++ [d]))
    (hpath : normalizePath path = .ofComponents (cs ++ [d])) (hc : c = .delete path now) :
    (NfsView.deleteAt (normalizePath path) now).wp c.handler.moves (NfsUndone c (w, v))
      (fun r s' => c.Did (w, v) r s') (w, v) := by
  subst hc
  have hnames : pathNames path = cs ++ [d] := congrArg NormalizedPath.components hpath
  have hroot : pathNames path ≠ [] := by simp [hnames]
  have hfull : fullPath (pathNames path) = fullPath (cs ++ [d]) := congrArg fullPath hnames
  have hundone : ∀ nodes' o, NfsUndone (.delete path now) (w, v) o
      (w, { v with nodes := nodes' }) := fun _ _ => ⟨rfl, fun _ _ _ _ _ _ h => h⟩
  refine wp_bind.mpr (wp_view (hundone v.nodes _) ?_)
  show andThen _ _ _ _ (v.nodes.remove (normalizePath path) now).1
    (w, { v with nodes := (v.nodes.remove (normalizePath path) now).2 })
  rw [hpath]
  have hwf : Namespace.WellFormed (v.nodes.remove (.ofComponents (cs ++ [d])) now).2 :=
    hkept.nodes.remove hcs
  have hfiles := Namespace.fileAt_remove v.nodes (.ofComponents (cs ++ [d])) now
  by_cases hnone : v.nodes.tree (cs ++ [d]) = none
  · rw [Namespace.remove_missing hcs hnone, ← hfull]
    exact ⟨.deleteMissing hroot (hnames ▸ hnone), hkept, fun _ _ h => h⟩
  by_cases hempty : ∃ e, v.nodes.tree (cs ++ [d] ++ [e]) ≠ none
  · obtain ⟨e, he⟩ := hempty
    rw [Namespace.remove_not_empty hkept.nodes hcs ⟨e, he⟩, ← hfull]
    exact ⟨.deleteNotEmpty hroot (hnames ▸ he), hkept, fun _ _ h => h⟩
  have hempty : ∀ e, v.nodes.tree (cs ++ [d] ++ [e]) = none := by simpa using hempty
  obtain ⟨⟨old, hok⟩, htree⟩ := Namespace.tree_remove hkept.nodes hcs hnone hempty now
  generalize v.nodes.remove (.ofComponents (cs ++ [d])) now = r at hwf hfiles hok htree
  obtain ⟨r, nodes'⟩ := r
  obtain rfl : r = .ok old := hok
  refine wp_finish_undone hp (hundone nodes') (fun hne => ?_) fun w' hle => ?_
  · refine ⟨fun hf => hne ?_, fun _ _ e => by cases e⟩
    have hf : v.nodes.fileAt (normalizePath path).full = none := hf
    rw [hfiles.1, ← hpath, hf]
    rfl
  · have hrem : nodes'.tree = v.nodes.tree.remove (pathNames path) := hnames ▸ htree
    refine ⟨?_, .persisted hwf, hle⟩
    show NfsCall.Changes _ _ _ _ nodes'.tree
    rw [hrem]
    exact .deleted hroot (hnames ▸ hnone) (hnames ▸ hempty)

/-- Making directories. -/
theorem wp_mkdir_changes {path : Text} {now : Nat} (hp : v.persistent = true) (hkept : v.Kept)
    (hnames : Names (pathNames path)) (hc : c = .mkdir path now) :
    (NfsView.mkdir path now).wp c.handler.moves (NfsUndone c (w, v))
      (fun r s' => c.Did (w, v) r s') (w, v) := by
  subst hc
  have hundone : ∀ nodes' o, NfsUndone (.mkdir path now) (w, v) o (w, { v with nodes := nodes' }) :=
    fun _ _ => ⟨rfl, fun _ _ _ _ _ _ h => h⟩
  have hpath : normalizePath path = .ofComponents (pathNames path) := rfl
  refine wp_bind.mpr (wp_view (hundone v.nodes _) ?_)
  show andThen _ _ _ _ (v.nodes.ensureDirectory (normalizePath path) now).1
    (w, { v with nodes := (v.nodes.ensureDirectory (normalizePath path) now).2 })
  rw [hpath]
  have hwf : Namespace.WellFormed
      (v.nodes.ensureDirectory (.ofComponents (pathNames path)) now).2 :=
    (hkept.nodes.ensureDirectory hnames).1
  rcases FileTree.clear_or_firstFile v.nodes.tree (pathNames path) with hclear | ⟨q, hfirst⟩
  · obtain ⟨hok, htree⟩ := Namespace.tree_ensureDirectory hkept.nodes hnames hclear now
    generalize v.nodes.ensureDirectory (.ofComponents (pathNames path)) now = r at hwf hok htree
    obtain ⟨r, nodes'⟩ := r
    obtain rfl : r = .ok () := hok
    refine wp_persist hp (hundone nodes' _) ⟨?_, .persisted hwf, fun _ _ h => h⟩
    show NfsCall.Changes _ _ _ _ nodes'.tree
    rw [show nodes'.tree = _ from htree]
    exact .made hclear
  · obtain ⟨herr, htree⟩ :=
      Namespace.tree_ensureDirectory_blocked hkept.nodes hnames hfirst now
    generalize v.nodes.ensureDirectory (.ofComponents (pathNames path)) now = r at hwf herr htree
    obtain ⟨r, nodes'⟩ := r
    obtain rfl : r = .error _ := herr
    have htree : nodes'.tree = v.nodes.tree := htree
    refine ⟨?_, ⟨hwf, hkept.saved, fun t => (hkept.same t).trans htree.symm⟩, fun _ _ h => h⟩
    show NfsCall.Changes _ _ _ _ nodes'.tree
    rw [htree]
    exact .mkdirBlocked hfirst

/-- **Every call does what the rules say**, and nothing of it is seen before it is saved. -/
theorem NfsCall.wp_changes (hd : P.CodecsInverse) (hcomp : P.Compresses)
    (hB : NfsBetween P U keys hist (w, v)) (hkept : v.Kept)
    (hplain : Paths.Plain '/' (pathNames c.path)) (hready : c.Ready P U (w, v)) :
    (c.program P).wp c.handler.moves (NfsUndone c (w, v)) (fun r s' => c.Did (w, v) r s')
      (w, v) := by
  cases c with
  | writeFile id path data now =>
      have hnew : w.cap id = none := hready.2 id path data now rfl
      refine wp_discard.mpr ?_
      unfold NfsView.writeFile
      by_cases hr : (normalizePath path).isRoot = true
      · rw [if_pos hr]
        refine ⟨.writeRoot (List.isEmpty_iff.mp hr), hkept, fun _ _ h => ?_⟩
        exact NfsCall.adds_of_holds hready.2 h
      · obtain ⟨cs, d, hcs, hpath⟩ := normalizePath_snoc hplain hr
        have hparent : (normalizePath path).parentPath = some (fullPath cs) :=
          hpath ▸ ofComponents_parentPath cs d
        rw [if_neg hr, hparent]
        dsimp only
        rw [normalizePath_fullPath (names_append.mp hcs).1]
        exact wp_writeAt_changes hd hcomp hB hkept hcs hpath rfl hnew
  | mkdir path now =>
      exact wp_mkdir_changes hB.persistent hkept (names_normalizePath hplain) rfl
  | delete path now =>
      show Prog.wp _ _ _ (NfsView.delete path now) _
      unfold NfsView.delete
      by_cases hr : (normalizePath path).isRoot = true
      · rw [if_pos hr]
        exact ⟨.deleteRoot (List.isEmpty_iff.mp hr), hkept, fun _ _ h => h⟩
      · obtain ⟨cs, d, hcs, hpath⟩ := normalizePath_snoc hplain hr
        rw [if_neg hr]
        exact wp_deleteAt_changes hB.persistent hkept hcs hpath rfl

end

/-! ### What clients see -/

/-- The files of a view, with what their capsules hold. -/
def NfsView.files (s : World P × NfsView) : FileTree Text Bytes :=
  s.2.nodes.tree.map fun f => (s.1.holds f.1).getD []

section
variable {U : Set Bytes} {keys : Option (UInt32 → XtsKeyPair)} {hist : List NfsCall}
  {c : NfsCall} {s s' s'' : World P × NfsView}

/-- Every file holds what was written, of the size that is kept. -/
theorem NfsBetween.holds (hB : NfsBetween P U keys hist s) {cs : List Text}
    {f : CapsuleId × Nat} (h : s.2.nodes.tree cs = some (.file f)) :
    ∃ data, s.1.holds f.1 = some data ∧ f.2 = data.length ∧
      NfsView.files s cs = some (.file data) := by
  obtain ⟨-, hf⟩ := Namespace.tree_eq_file.mp h
  obtain ⟨-, -, data, -, hsize, hheld⟩ := hB.sound.written _ f.1 f.2 hf
  refine ⟨data, hheld, hsize, FileTree.map_eq_file.mpr ⟨f, h, ?_⟩⟩
  rw [hheld]
  rfl

/-- The files after a call are those the rules give. -/
theorem NfsCall.Did.changes_files {r : Except Error Unit} (h : c.Did s r s')
    (hB : NfsBetween P U keys hist s) {hist' : List NfsCall}
    (hB' : NfsBetween P U keys hist' s') (hready : c.Ready P U s) :
    c.Changes (NfsView.files s) c.data r (NfsView.files s') := by
  have hbefore : NfsView.files s =
      s.2.nodes.tree.map fun f => (c.adds s.1.holds f.1).getD [] := by
    refine FileTree.map_congr fun p f hf => ?_
    obtain ⟨data, hheld, -⟩ := hB.holds hf
    rw [hheld, NfsCall.adds_of_holds hready.2 hheld]
  have hafter : NfsView.files s' =
      s'.2.nodes.tree.map fun f => (c.adds s.1.holds f.1).getD [] := by
    refine FileTree.map_congr fun p f hf => ?_
    obtain ⟨data, hheld, -⟩ := hB'.holds hf
    rw [hheld, h.holds _ _ hheld]
  rw [hbefore, hafter]
  refine h.changes.map fun id path data now e => ?_
  subst e
  show (Function.update s.1.holds id (some data) id).getD [] = data
  rw [Function.update_self]
  rfl

/-- **An entry says what is at its path.** -/
theorem toEntry_shows (hB : NfsBetween P U keys hist s) (hwf : s.2.nodes.WellFormed)
    {cs : List Text} {n : NfsNode} (hcs : Names cs) (hn : s.2.nodes.lookup (fullPath cs) = some n) :
    ∃ x, NfsView.files s cs = some x ∧ n.toEntry.Shows cs x := by
  obtain ⟨hpath, hplace⟩ := hwf.node _ n hn
  have hname : ∀ c ∈ cs.getLast?, n.name = c := by
    intro c hc
    obtain ⟨ds, rfl⟩ := List.getLast?_eq_some_iff.mp hc
    obtain ⟨ds', d, hds, e, hd, -⟩ := hplace.resolve_left (fullPath_ne_root hcs)
    have e' := List.append_inj' (fullPath_injective hcs hds e) rfl
    rw [hd, (List.cons.inj e'.2).1]
  have htree := Namespace.tree_eq_some.mpr ⟨hcs, n, hn, rfl⟩
  unfold NfsNode.fileNode at htree
  unfold NfsNode.toEntry
  cases hk : n.kind with
  | directory =>
      rw [hk] at htree
      exact ⟨.dir, FileTree.map_eq_dir.mpr htree, hpath, hname, rfl, rfl⟩
  | file id size =>
      rw [hk] at htree
      obtain ⟨data, -, hsize, hfile⟩ := hB.holds htree
      exact ⟨.file data, hfile, hpath, hname, rfl, hsize⟩

/-- What there is at a path, and what is read there. -/
theorem run_readFile (hB : NfsBetween P U keys hist s) (hwf : s.2.nodes.WellFormed) {path : Text}
    (hnames : Names (pathNames path)) : ∃ r, (s.2.readFile P path).run (World.exec []) s.1 =
      (r, s.1) ∧ NfsRequest.Answered (NfsView.files s) (.readFile path) (r.map .bytes) := by
  unfold NfsView.readFile
  cases hn : s.2.nodes.lookup (normalizePath path).full with
  | none =>
      exact ⟨_, rfl, .readMissing
        (FileTree.map_eq_none.mpr ((Namespace.tree_eq_none hnames).mpr hn))⟩
  | some n =>
      have htree := Namespace.tree_eq_some.mpr ⟨hnames, n, hn, rfl⟩
      unfold NfsNode.fileNode at htree
      dsimp only
      cases hk : n.kind with
      | directory =>
          rw [hk] at htree
          rw [(hwf.node _ n hn).1]
          exact ⟨_, rfl, .readDirectory (FileTree.map_eq_dir.mpr htree)⟩
      | file id size =>
          rw [hk] at htree
          obtain ⟨data, hheld, -, hfile⟩ := hB.holds htree
          have hsame : ((WritePipeline.readCapsule P id).run (World.exec []) s.1).2 = s.1 :=
            wp_run (wp_readCapsule_clear fun x t => hB.store.clear)
          exact ⟨.ok data, Prod.ext (hB.store.reads hheld) hsame, .read hfile⟩

/-- What a listing shows. -/
theorem listDirectory_answered (hB : NfsBetween P U keys hist s) (hwf : s.2.nodes.WellFormed)
    {path : Text} (hnames : Names (pathNames path)) :
    NfsRequest.Answered (NfsView.files s) (.listDirectory path)
      ((s.2.nodes.listDirectory path).map .entries) := by
  unfold Namespace.listDirectory
  dsimp only
  cases hn : s.2.nodes.lookup (normalizePath path).full with
  | none => exact .listMissing (FileTree.map_eq_none.mpr ((Namespace.tree_eq_none hnames).mpr hn))
  | some n =>
      dsimp only
      by_cases hd : n.isDirectory = true
      · rw [if_pos hd]
        obtain ⟨hsorted, hlisted⟩ := hwf.lists hnames
        refine .listed (FileTree.map_eq_dir.mpr ((Namespace.tree_eq_dir hnames).mpr ⟨n, hn, hd⟩))
          hsorted (fun e he => ?_) fun c x hx => ?_
        · obtain ⟨c, m, hcs, hm, rfl⟩ := (hlisted e).mp he
          obtain ⟨x, hx, hshows⟩ := toEntry_shows hB hwf hcs hm
          exact ⟨c, x, hx, hshows⟩
        · have hne : s.2.nodes.tree (pathNames path ++ [c]) ≠ none :=
            mt FileTree.map_eq_none.mpr (by
              show NfsView.files s _ ≠ none
              rw [hx]
              exact Option.some_ne_none _)
          have hcs := Namespace.names_of_tree hne
          obtain ⟨m, hm⟩ := Option.ne_none_iff_exists'.mp (mt (Namespace.tree_eq_none hcs).mpr hne)
          obtain ⟨x', hx', hshows⟩ := toEntry_shows hB hwf hcs hm
          obtain rfl : x' = x := Option.some.inj (hx'.symm.trans hx)
          exact ⟨_, (hlisted _).mpr ⟨c, m, hcs, hm, rfl⟩, hshows⟩
      · rw [if_neg hd]
        obtain ⟨f, hf⟩ := Namespace.tree_of_file hnames hn hd
        obtain ⟨data, -, -, hfile⟩ := hB.holds hf
        exact .listFile hfile

/-- **The requests that change nothing** are answered from the files. -/
theorem NfsRequest.answered {r : NfsRequest} (hB : NfsBetween P U keys hist s)
    (hwf : s.2.nodes.WellFormed) (hplain : Paths.Plain '/' (pathNames r.path))
    (hcall : ∀ c, r ≠ .call c) : (r.run s).2 = s ∧ r.Answered (NfsView.files s) (r.run s).1 := by
  have hnames := names_normalizePath hplain
  cases r with
  | call c => exact absurd rfl (hcall c)
  | readFile path =>
      change Names (pathNames path) at hnames
      obtain ⟨a, hrun, ha⟩ := run_readFile hB hwf hnames
      change ((((s.2.readFile P path).run (World.exec []) s.1).2, s.2) : World P × NfsView) = s ∧
        NfsRequest.Answered _ _
          (((s.2.readFile P path).run (World.exec []) s.1).1.map NfsAnswer.bytes)
      rw [hrun]
      exact ⟨rfl, ha⟩
  | metadata path =>
      refine ⟨rfl, ?_⟩
      show NfsRequest.Answered _ _ ((s.2.metadata path).map NfsAnswer.entry)
      unfold NfsView.metadata
      cases hn : s.2.nodes.lookup (normalizePath path).full with
      | none =>
          refine .noEntry (FileTree.map_eq_none.mpr ((Namespace.tree_eq_none hnames).mpr hn))
      | some n =>
          obtain ⟨x, hx, hshows⟩ := toEntry_shows hB hwf hnames hn
          exact .entry hx hshows
  | listDirectory path => exact ⟨rfl, listDirectory_answered hB hwf hnames⟩

end

/-! ### Runs -/

/-- The steps of a file view: a request that is served, a call that is cut outside of the window in
which its old capsule is gone and the namespace not saved, with a new process after it, and a new
process. -/
inductive NfsView.Step (U : Set Bytes) :
    World P × NfsView → Option NfsEvent → World P × NfsView → Prop
  | request {s : World P × NfsView} (r : NfsRequest)
      (hplain : Paths.Plain '/' (pathNames r.path))
      (hready : ∀ c, r = .call c → c.Ready P U s) :
      Step U s (some (.answered r (r.run s).1)) (r.run s).2
  | crash {s s'' : World P × NfsView} (c : NfsCall) (km : Option (KeyManager P))
      (capsuleOrd : Order CapsuleId) (segmentOrd sweepOrd : Order Segment) (now : Nat)
      (hplain : Paths.Plain '/' (pathNames c.path)) (hready : c.Ready P U s)
      (hcut : c.Cut (c.Outside s.2) s s'') :
      Step U s (some (.interrupted c))
        ((s''.1.restart km capsuleOrd segmentOrd sweepOrd).2, .open s''.2.file now)
  | restart {s : World P × NfsView} (km : Option (KeyManager P)) (capsuleOrd : Order CapsuleId)
      (segmentOrd sweepOrd : Order Segment) (now : Nat) :
      Step U s none ((s.1.restart km capsuleOrd segmentOrd sweepOrd).2, .open s.2.file now)

/-- A file view that is opened over an empty store. -/
def nfsSystem (U : Set Bytes) : LabelledSystem (World P × NfsView) NfsEvent :=
  ⟨fun s => ∃ km now, s = (.empty km, .open none now), NfsView.Step U⟩

/-- The file system that a view is. -/
structure NfsView.Refines (U : Set Bytes) (s : World P × NfsView) (t : FileTree Text Bytes) :
    Prop where
  between : ∃ keys hist, NfsBetween P U keys hist s
  kept : s.2.Kept
  files : t = NfsView.files s

section
variable {U : Set Bytes} {keys : Option (UInt32 → XtsKeyPair)} {hist : List NfsCall}
  {v : NfsView} {w'' : World P} {s : World P × NfsView} {t : FileTree Text Bytes}

/-- A crash takes no capsule away. -/
theorem NfsCrash.holds {o : (StoreSig.sum NfsSig).Op} {w : World P} (h : NfsCrash o w w'') :
    w''.holds = w.holds := by
  cases o with
  | inl o => exact crash_holds h
  | inr o => exact congrArg World.holds h

/-- The next process goes on with what survived. -/
theorem NfsSurvives.reopen (h : NfsSurvives P U keys hist v w'') (km : Option (KeyManager P))
    (capsuleOrd : Order CapsuleId) (segmentOrd sweepOrd : Order Segment) (now : Nat) :
    (w''.restart km capsuleOrd segmentOrd sweepOrd).2.holds = w''.holds ∧
    NfsBetween P U (km.map KeyManager.derive) hist
      ((w''.restart km capsuleOrd segmentOrd sweepOrd).2, .open v.file now) := by
  obtain ⟨w', e, hI, hh⟩ := h.restart km capsuleOrd segmentOrd sweepOrd
  rw [e]
  refine ⟨hh, ⟨0, fun _ k => absurd k (Multiset.notMem_zero _), hI⟩, ?_, ?_, rfl⟩
  · rw [fileAt_open, hh]
    exact h.2
  · exact (fileAt_open _ now).symm

/-- A view that is opened again is as it was saved. -/
theorem NfsView.Kept.reopen (h : v.Kept) (now : Nat) : (NfsView.open v.file now).Kept :=
  ⟨h.saved now, h.saved, fun now' => (h.same now').trans (h.same now).symm⟩

/-- A new process over the same files. -/
theorem NfsView.Refines.reopen {w' : World P} (h : NfsView.Refines U s t)
    (hS : NfsSurvives P U keys hist v w') (hfile : v.file = s.2.file)
    (hheld : ∀ key id size data, s.2.nodes.fileAt key = some (id, size) →
      s.1.holds id = some data → w'.holds id = some data) (km : Option (KeyManager P))
    (capsuleOrd : Order CapsuleId) (segmentOrd sweepOrd : Order Segment) (now : Nat) :
    NfsView.Refines U ((w'.restart km capsuleOrd segmentOrd sweepOrd).2, .open v.file now) t := by
  obtain ⟨⟨keys₀, hist₀, hB₀⟩, hkept, rfl⟩ := h
  obtain ⟨hh, hB⟩ := hS.reopen km capsuleOrd segmentOrd sweepOrd now
  have htree : (NfsView.open v.file now).nodes.tree = s.2.nodes.tree := by
    rw [hfile]
    exact hkept.same now
  refine ⟨⟨_, _, hB⟩, hfile ▸ hkept.reopen now, ?_⟩
  show _ = FileTree.map (fun f => (World.holds _ f.1).getD []) (NfsView.open v.file now).nodes.tree
  rw [htree, hh]
  refine FileTree.map_congr fun p f hf => ?_
  obtain ⟨data, hdata, -⟩ := hB₀.holds hf
  rw [hdata, hheld _ f.1 f.2 data (Namespace.tree_eq_file.mp hf).2 hdata]

/-- Between two requests, a new process finds what there was. -/
theorem NfsView.Refines.restart (h : NfsView.Refines U s t) (km : Option (KeyManager P))
    (capsuleOrd : Order CapsuleId) (segmentOrd sweepOrd : Order Segment) (now : Nat) :
    NfsView.Refines U
      ((s.1.restart km capsuleOrd segmentOrd sweepOrd).2, .open s.2.file now) t := by
  obtain ⟨keys, hist, hB⟩ := h.between
  exact h.reopen (hB.store.survives (hB.saved ▸ hB.sound)) rfl (fun _ _ _ _ _ hk => hk) km
    capsuleOrd segmentOrd sweepOrd now

/-- **A call that is served** does what the rules say. -/
theorem NfsView.Refines.call {c : NfsCall} (hU : P.NoCollision U) (hd : P.CodecsInverse)
    (hcomp : P.Compresses) (h : NfsView.Refines U s t)
    (hplain : Paths.Plain '/' (pathNames c.path)) (hready : c.Ready P U s) :
    ∃ t', c.Changes t c.data (c.run s).1 t' ∧ NfsView.Refines U (c.run s).2 t' := by
  obtain ⟨⟨keys, hist, hB⟩, hkept, rfl⟩ := h
  have hB' : NfsBetween P U keys (completed hist c (c.run s).1) (c.run s).2 :=
    wp_run (NfsCall.wp hU hB hready.1)
  have hdid : c.Did s (c.run s).1 (c.run s).2 :=
    wp_run (NfsCall.wp_changes hd hcomp hB hkept hplain hready)
  exact ⟨_, hdid.changes_files hB hB' hready, ⟨_, _, hB'⟩, hdid.kept, rfl⟩

/-- **One step.** -/
theorem nfsSystem_simulates (hU : P.NoCollision U) (hd : P.CodecsInverse) (hcomp : P.Compresses) :
    fileSystem.Simulates (nfsSystem (P := P) U) (NfsView.Refines U) where
  start := by
    rintro s ⟨km, now, rfl⟩
    obtain ⟨keys, hB⟩ : ∃ keys, NfsBetween P U keys [] (.empty km, .open none now) :=
      nfsLife_between hU (.start now)
    refine ⟨.root, rfl, ⟨keys, _, hB⟩, ⟨Namespace.wellFormed_root, fun _ =>
      Namespace.wellFormed_root, fun _ => ?_⟩, ?_⟩
    · exact Namespace.tree_root.trans Namespace.tree_root.symm
    · show _ = FileTree.map _ (Namespace.tree (Namespace.ensureRootNode ∅ now))
      rw [Namespace.tree_root]
      funext cs
      cases cs <;> rfl
  shows := by
    rintro s t a s' hR hstep
    cases hstep with
    | request r hplain hready =>
        cases r with
        | call c =>
            obtain ⟨t', hch, hR'⟩ := hR.call hU hd hcomp hplain (hready c rfl)
            exact ⟨t', .changed hch, hR'⟩
        | _ =>
            obtain ⟨keys, hist, hB⟩ := hR.between
            obtain ⟨hsame, ha⟩ := NfsRequest.answered hB hR.kept.nodes hplain fun c e => by cases e
            rw [hsame]
            exact ⟨t, .asked (hR.files ▸ ha), hR⟩
    | crash c km capsuleOrd segmentOrd sweepOrd now hplain hready hcut =>
        cases hcut with
        | «at» ho hv hc =>
            -- what there is to see was not changed yet
            obtain ⟨keys, hist, hB⟩ := hR.between
            obtain ⟨hfile, hheld⟩ :=
              wp_visits (NfsCall.wp_changes hd hcomp hB hR.kept hplain hready) hv
            have hS := wp_visits (NfsCall.wp hU hB hready.1) hv ho _ hc
            refine ⟨t, .lost, hR.reopen hS hfile (fun key id size data hf hk => ?_) km capsuleOrd
              segmentOrd sweepOrd now⟩
            rw [hc.holds]
            exact hheld ho key id size data hf hk
        | done =>
            obtain ⟨t', hch, hR'⟩ := hR.call hU hd hcomp hplain hready
            exact ⟨t', .done hch, hR'.restart km capsuleOrd segmentOrd sweepOrd now⟩
  silent := by
    rintro s t s' hR hstep
    cases hstep with
    | restart km capsuleOrd segmentOrd sweepOrd now =>
        exact hR.restart km capsuleOrd segmentOrd sweepOrd now

/-- **The file view is a file system.**  Whatever requests clients make and processes come and go,
also in crashes outside of the window of a superseded capsule, what the clients are told is what a
file system tells them, and the namespace and the capsules are its state. -/
theorem nfs_refines_files (hU : P.NoCollision U) (hd : P.CodecsInverse) (hcomp : P.Compresses)
    {trace : List NfsEvent} (h : (nfsSystem (P := P) U).Run trace s) :
    fileSystem.Run trace (NfsView.files s) ∧ (NfsView.files s).Closed := by
  obtain ⟨t, hrun, hR⟩ := (nfsSystem_simulates hU hd hcomp).run h
  exact ⟨hR.files ▸ hrun, hR.kept.nodes.closed.map⟩

end

/-- A file is written and read. -/
theorem nfs_refines_files_sample :
    ∃ t, fileSystem.Run [.answered (.call (sampleWrite unframed)) (.ok .done),
      .answered (.readFile ['/', 'a']) (.ok (.bytes unframed))] t := by
  have hready : (sampleWrite unframed).Ready .stored {unframed}
      (World.empty none, .open none 0) := by
    refine ⟨fun _ => ⟨hashesIn_raw (by decide) rfl,
      forall_chunk_of_length_le (by decide) fun _ _ _ _ => by decide +kernel,
      Command.unsaturated_of_along (by decide +kernel) (by simp)⟩, ?_⟩
    rintro id path data now ⟨⟩
    rfl
  have hwrite : ((sampleWrite unframed).run (World.empty (P := .stored) none, .open none 0)).1 =
      .ok () := by decide +kernel
  have hread : (((sampleWritten unframed).2.readFile .stored ['/', 'a']).run (World.exec [])
      (sampleWritten unframed).1).1 = .ok unframed := by decide +kernel
  have hplain : Paths.Plain '/' (pathNames ['/', 'a']) := by
    unfold Paths.Plain
    decide +kernel
  have hrun := LabelledSystem.Run.shows (LabelledSystem.Run.shows
    (C := nfsSystem (P := .stored) {unframed}) (.start ⟨none, 0, rfl⟩)
    (.request (.call (sampleWrite unframed)) hplain fun c e => by cases e; exact hready))
    (.request (.readFile ['/', 'a']) hplain fun c e => by cases e)
  have h := (nfs_refines_files (Set.injOn_singleton _ _) Primitives.stored_codecs
    Primitives.stored_compresses hrun).1
  rw [show ((NfsRequest.call (sampleWrite unframed)).run
      (World.empty (P := .stored) none, .open none 0)).1 = .ok .done from
        congrArg (Except.map fun _ => NfsAnswer.done) hwrite,
    show ((NfsRequest.readFile ['/', 'a']).run ((NfsRequest.call (sampleWrite unframed)).run
      (World.empty (P := .stored) none, .open none 0)).2).1 = .ok (.bytes unframed) from
        congrArg (Except.map NfsAnswer.bytes) hread] at h
  exact ⟨_, h⟩

end Space

import Space.Views.NfsCrash

/-!
# Views — NfsOwnership

Who owns the capsules of the file view.  A view creates a capsule for each file it writes, and a
capsule that is live is either one the view did not create or the capsule of one file
(`NfsOwned`).  A write creates its capsule before it walks the directories above the file, and
when a file stands among these the call fails and the capsule stays (`not_nfs_owned`).  As long as
no write meets one, every call keeps the capsules owned (`nfs_owned`).

* `NfsOwned.update`: a path gets another file, or none, and the capsule it had goes.
* `ensureDirectory_ok`: the directories above a path are there once no file stands among them.
-/

namespace Space
open Support Prog

variable {P : Primitives} {w w' : World P}

/-! ### Live capsules -/

/-- The capsules that are live. -/
def World.live (w : World P) : Set CapsuleId := {id | ∃ c, w.cap id = some c}

theorem World.mem_live {id : CapsuleId} : id ∈ w.live ↔ w.holds id ≠ none := by
  unfold World.holds
  rw [Ne, Option.map_eq_none_iff, ← Ne, Option.ne_none_iff_exists']
  rfl

theorem World.live_created {id : CapsuleId} {data : Bytes}
    (h : w'.holds = Function.update w.holds id (some data)) : w'.live = insert id w.live := by
  ext k
  rw [Set.mem_insert_iff, mem_live, mem_live, h]
  by_cases hk : k = id
  · subst hk
    simp
  · rw [Function.update_of_ne hk]
    exact ⟨.inr, fun k' => k'.resolve_left hk⟩

theorem World.live_deleted {id : CapsuleId} (h : w'.holds = Function.update w.holds id none) :
    w'.live = w.live \ {id} := by
  ext k
  rw [Set.mem_sdiff, Set.mem_singleton_iff, mem_live, mem_live, h]
  by_cases hk : k = id
  · subst hk
    simp
  · rw [Function.update_of_ne hk]
    exact ⟨fun k' => ⟨k', hk⟩, And.left⟩

theorem World.live_congr (h : w'.holds = w.holds) : w'.live = w.live := by
  ext k
  rw [mem_live, mem_live, h]

/-! ### Ownership -/

/-- The capsules that are live and not `foreign` are those of the files, each of one file. -/
structure NfsOwned (foreign : Set CapsuleId) (files : Text → Option (CapsuleId × Nat))
    (live : Set CapsuleId) : Prop where
  named : ∀ id, (∃ key size, files key = some (id, size)) ↔ id ∈ live ∧ id ∉ foreign
  distinct : ∀ key key' id size size', files key = some (id, size) →
    files key' = some (id, size') → key = key'
  kept : foreign ⊆ live

namespace NfsOwned
variable {foreign live live' : Set CapsuleId} {files : Text → Option (CapsuleId × Nat)}

/-- **A path gets another file**, or none: its capsule comes, and the one the path had goes. -/
theorem update (h : NfsOwned foreign files live) (key : Text) {v : Option (CapsuleId × Nat)}
    (hv : ∀ p, v = some p → p.1 ∉ live)
    (hlive : ∀ id, id ∈ live' ↔
      v.map Prod.fst = some id ∨ id ∈ live ∧ (files key).map Prod.fst ≠ some id) :
    NfsOwned foreign (Function.update files key v) live' where
  named := by
    intro id
    rw [hlive]
    constructor
    · rintro ⟨k, size, hf⟩
      by_cases hk : k = key
      · subst hk
        rw [Function.update_self] at hf
        refine ⟨.inl (by rw [hf]; rfl), fun hfor => ?_⟩
        exact hv _ hf (h.kept hfor)
      · rw [Function.update_of_ne hk] at hf
        obtain ⟨hl, hfor⟩ := (h.named id).mp ⟨k, size, hf⟩
        refine ⟨.inr ⟨hl, fun e => ?_⟩, hfor⟩
        obtain ⟨⟨_, n⟩, hold, rfl⟩ := Option.map_eq_some_iff.mp e
        exact hk (h.distinct k key _ size n hf hold)
    · rintro ⟨hnew | ⟨hl, hold⟩, hfor⟩
      · obtain ⟨⟨_, n⟩, rfl, rfl⟩ := Option.map_eq_some_iff.mp hnew
        exact ⟨key, n, Function.update_self ..⟩
      · obtain ⟨k, size, hf⟩ := (h.named id).mpr ⟨hl, hfor⟩
        refine ⟨k, size, ?_⟩
        rw [Function.update_of_ne, hf]
        rintro rfl
        exact hold (by rw [hf]; rfl)
  distinct := by
    -- the new capsule was not live, so no other file has it
    have hnew : ∀ k id size size', k ≠ key → v = some (id, size) → files k ≠ some (id, size') := by
      intro k id size size' _ hid hf
      exact hv _ hid ((h.named id).mp ⟨k, size', hf⟩).1
    intro k k' id size size' hf hf'
    by_cases hk : k = key <;> by_cases hk' : k' = key
    · rw [hk, hk']
    · subst hk
      rw [Function.update_self] at hf
      rw [Function.update_of_ne hk'] at hf'
      exact absurd hf' (hnew k' id size size' hk' hf)
    · subst hk'
      rw [Function.update_self] at hf'
      rw [Function.update_of_ne hk] at hf
      exact absurd hf (hnew k id size' size hk hf')
    · rw [Function.update_of_ne hk] at hf
      rw [Function.update_of_ne hk'] at hf'
      exact h.distinct k k' id size size' hf hf'
  kept := by
    intro id hfor
    refine (hlive id).mpr (.inr ⟨h.kept hfor, fun e => ?_⟩)
    obtain ⟨⟨_, n⟩, hold, rfl⟩ := Option.map_eq_some_iff.mp e
    exact ((h.named _).mp ⟨key, n, hold⟩).2 hfor

/-- Nothing is in a new view, and every capsule is foreign. -/
theorem start (h : ∀ key, files key = none) : NfsOwned live files live where
  named := by
    intro id
    refine ⟨?_, fun k => absurd k.1 k.2⟩
    rintro ⟨key, size, hf⟩
    rw [h key] at hf
    cases hf
  distinct := by
    intro key _ _ _ _ hf
    rw [h key] at hf
    cases hf
  kept := subset_rfl

end NfsOwned

/-! ### Directories -/

namespace Namespace
variable {nodes : Namespace} {now : Nat}

theorem directory_of_fileAt {key : Text} {n : NfsNode} (h : nodes.lookup key = some n)
    (hf : nodes.fileAt key = none) : n.isDirectory = true := by
  unfold fileAt at hf
  rw [h] at hf
  unfold NfsNode.isDirectory
  cases hk : n.kind with
  | directory => rfl
  | file id size =>
      have hc : n.content = some (id, size) := by
        unfold NfsNode.content
        rw [hk]
      exact absurd (hc.symm.trans hf) (by simp)

/-- The walk over the components, when no file stands on the way. -/
theorem ensureComponents_ok {parts cs : List Text}
    (h : ∀ ds, ds <+: parts → ds ≠ [] → nodes.fileAt ('/' :: ['/'].intercalate (cs ++ ds)) = none) :
    (ensureComponents now cs parts nodes).1 = .ok () := by
  induction parts generalizing cs nodes with
  | nil => rfl
  | cons part parts ih =>
      have hhere := h [part] (List.prefix_append [part] parts) (List.cons_ne_nil _ _)
      -- neither a directory made here nor its time is a file
      have hlater : ∀ nodes' : Namespace, nodes'.fileAt = nodes.fileAt →
          (ensureComponents now (cs ++ [part]) parts nodes').1 = .ok () := by
        intro nodes' e
        refine ih fun ds hds hne => ?_
        rw [e, List.append_assoc]
        exact h (part :: ds) ((List.cons_prefix_cons).mpr ⟨rfl, hds⟩) (List.cons_ne_nil _ _)
      cases hl : nodes.lookup ('/' :: ['/'].intercalate (cs ++ [part])) with
      | none =>
          simp only [ensureComponents, hl]
          exact hlater _ (fileAt_insert_directory hl)
      | some n =>
          simp only [ensureComponents, hl, directory_of_fileAt hl hhere, if_true]
          exact hlater _ (fileAt_retime hl)

/-- **The directories above a path are there** once no file stands among them. -/
theorem ensureDirectory_ok {path : NormalizedPath}
    (h : ∀ ds, ds <+: path.components → ds ≠ [] → nodes.fileAt (fullPath ds) = none) :
    (ensureDirectory nodes path now).1 = .ok () := by
  refine ensureComponents_ok fun ds hds hne => ?_
  have e : fullPath ds = '/' :: ['/'].intercalate ds := if_neg hne
  rw [fileAt_ensureRootNode, List.nil_append, ← e]
  exact h ds hds hne

theorem insertFile_ok {path parent : NormalizedPath} (id : CapsuleId) (size : Nat)
    (hr : path.isRoot ≠ true)
    (h : ∀ ds, ds <+: parent.components → ds ≠ [] → nodes.fileAt (fullPath ds) = none) :
    ∃ old, (insertFile nodes path parent id size now).1 = .ok old := by
  have hok : (ensureDirectory nodes parent now).1 = .ok () := ensureDirectory_ok h
  unfold insertFile
  generalize ensureDirectory nodes parent now = r at hok
  obtain ⟨r | r, nodes'⟩ := r
  · cases hok
  · dsimp only
    cases hn : path.name with
    | none => exact absurd (List.isEmpty_iff.mpr (List.getLast?_eq_none_iff.mp hn)) hr
    | some name => exact ⟨_, rfl⟩

end Namespace

/-! ### One call -/

/-- The directories that a write walks over, of which no one is a file. -/
def NfsCall.Unobstructed (c : NfsCall) (v : NfsView) : Prop :=
  match c with
  | .writeFile _ path _ _ => ∀ parent, (normalizePath path).parentPath = some parent →
      ∀ ds, ds <+: (normalizePath parent).components → ds ≠ [] →
        v.nodes.fileAt (fullPath ds) = none
  | _ => True

instance (c : NfsCall) (v : NfsView) : Decidable (c.Unobstructed v) :=
  match c with
  | .writeFile _ path _ _ =>
    decidable_of_iff (∀ parent ∈ (normalizePath path).parentPath,
      ∀ ds ∈ (normalizePath parent).components.inits, ds ≠ [] →
        v.nodes.fileAt (fullPath ds) = none)
      (forall₂_congr fun _ _ => forall_congr' fun _ => imp_congr (List.mem_inits _ _) .rfl)
  | .mkdir _ _ => .isTrue trivial
  | .delete _ _ => .isTrue trivial

/-- The view owns the capsules it created. -/
def NfsView.Owned (foreign : Set CapsuleId) (s : World P × NfsView) : Prop :=
  NfsOwned foreign s.2.nodes.fileAt s.1.live

section
variable {foreign : Set CapsuleId} {c : NfsCall} {v : NfsView}

/-- Nothing is asked of the states in between. -/
abbrev NfsCall.anywhere : (StoreSig.sum NfsSig).Op → World P × NfsView → Prop := fun _ _ => True

theorem wp_persist_owned (h : NfsOwned foreign v.nodes.fileAt w.live) :
    NfsProg.persist.wp c.handler.moves NfsCall.anywhere (fun _ s => NfsView.Owned foreign s)
      (w, v) := by
  refine wp_view trivial ?_
  show NfsOwned foreign
    (if v.persistent then { v with file := some v.nodes } else v).nodes.fileAt w.live
  split <;> exact h

/-- **Giving the old capsule up**, and saving the namespace: the errors of the deletion are
dropped, and the capsule is gone before one can occur. -/
theorem wp_drop_owned (old : Option CapsuleId)
    (h : ∀ live', (∀ id, id ∈ live' ↔ id ∈ w.live ∧ old ≠ some id) →
      NfsOwned foreign v.nodes.fileAt live') :
    (NfsView.dropCapsule old >>= fun _ => NfsProg.persist).wp c.handler.moves NfsCall.anywhere
      (fun _ s => NfsView.Owned foreign s) (w, v) := by
  refine wp_bind.mpr ?_
  cases old with
  | none => exact wp_persist_owned (h _ fun id => (and_iff_left (by simp)).symm)
  | some old =>
      refine wp_bind.mpr (wp_attempt.mpr (wp_inl (fun _ _ _ => trivial) ?_))
      refine wp_persist_owned (h _ fun id => ?_)
      rw [World.live_deleted (run_deleteCapsule_holds w old), Set.mem_sdiff,
        Set.mem_singleton_iff, Ne, Option.some_inj, eq_comm]

/-- **A write of a file.** -/
theorem wp_writeAt_owned {id : CapsuleId} {path parent : NormalizedPath} {data : Bytes} {now : Nat}
    (hdata : c.data = data) (hr : path.isRoot ≠ true) (h : NfsOwned foreign v.nodes.fileAt w.live)
    (hclear : ∀ ds, ds <+: parent.components → ds ≠ [] → v.nodes.fileAt (fullPath ds) = none) :
    (NfsView.writeAt P id path parent data now).wp c.handler.moves NfsCall.anywhere
      (fun _ s => NfsView.Owned foreign s) (w, v) := by
  refine wp_bind.mpr (wp_view trivial ?_)
  show andThen _ _ _ _ (v.nodes.checkCollision path) (w, v)
  cases v.nodes.checkCollision path with
  | error e => exact h
  | ok u =>
  subst hdata
  have hwrote := wrote_writeCapsule w id c.data
  refine wp_bind.mpr (wp_inl (fun _ _ _ => trivial) ?_)
  generalize (WritePipeline.writeCapsule P id c.data).run (World.exec c.data) w = r at hwrote
  obtain ⟨r | id', w₁⟩ := r
  · -- no capsule was created
    have hsame : w₁.live = w.live := World.live_congr hwrote
    show NfsOwned foreign v.nodes.fileAt w₁.live
    exact hsame ▸ h
  obtain ⟨rfl, hnone, hholds⟩ := hwrote
  have hnew : id' ∉ w.live := fun k => World.mem_live.mp k hnone
  refine wp_bind.mpr (wp_view trivial ?_)
  have hins := Namespace.fileAt_insertFile v.nodes path parent id' c.data.length now
  obtain ⟨old, hok⟩ : ∃ old,
      (v.nodes.insertFile path parent id' c.data.length now).1 = .ok old :=
    Namespace.insertFile_ok id' c.data.length hr hclear
  show andThen _ _ _ _ (v.nodes.insertFile path parent id' c.data.length now).1
    (w₁, { v with nodes := (v.nodes.insertFile path parent id' c.data.length now).2 })
  generalize v.nodes.insertFile path parent id' c.data.length now = r at hins hok
  obtain ⟨r, nodes'⟩ := r
  obtain rfl : r = .ok old := hok
  obtain ⟨hold, hfiles⟩ := hins
  show Prog.wp _ _ _ (NfsView.dropCapsule old >>= fun _ => NfsProg.persist >>= fun _ => pure id')
    (w₁, { v with nodes := nodes' })
  rw [← bind_assoc]
  refine wp_bind.mpr (wp_mono (Q := fun _ s => NfsView.Owned foreign s)
    (wp_drop_owned old fun live' hlive => ?_) fun r s' k => ?_)
  · show NfsOwned foreign nodes'.fileAt live'
    rw [hfiles]
    refine h.update path.full (fun p e => ?_) fun k => ?_
    · obtain rfl := Option.some.inj e
      exact hnew
    · rw [hlive, World.live_created hholds, Set.mem_insert_iff, ← hold]
      constructor
      · rintro ⟨rfl | hk, hne⟩
        · exact .inl rfl
        · exact .inr ⟨hk, hne⟩
      · rintro (e | ⟨hk, hne⟩)
        · obtain rfl := Option.some.inj e
          refine ⟨.inl rfl, fun e => hnew ?_⟩
          rw [hold] at e
          obtain ⟨⟨_, n⟩, hf, rfl⟩ := Option.map_eq_some_iff.mp e
          exact ((h.named _).mp ⟨_, n, hf⟩).1
        · exact ⟨.inr hk, hne⟩
  · cases r <;> exact k

/-- **A delete.** -/
theorem wp_deleteAt_owned {path : NormalizedPath} {now : Nat}
    (h : NfsOwned foreign v.nodes.fileAt w.live) :
    (NfsView.deleteAt path now).wp c.handler.moves NfsCall.anywhere
      (fun _ s => NfsView.Owned foreign s) (w, v) := by
  refine wp_bind.mpr (wp_view trivial ?_)
  have hrem := Namespace.fileAt_remove v.nodes path now
  show andThen _ _ _ _ (v.nodes.remove path now).1
    (w, { v with nodes := (v.nodes.remove path now).2 })
  generalize v.nodes.remove path now = r at hrem
  obtain ⟨r | old, nodes'⟩ := r
  · have hsame : nodes'.fileAt = v.nodes.fileAt := hrem
    show NfsOwned foreign nodes'.fileAt w.live
    exact hsame ▸ h
  obtain ⟨hold, hfiles⟩ := hrem
  refine wp_drop_owned old fun live' hlive => ?_
  show NfsOwned foreign nodes'.fileAt live'
  rw [hfiles]
  refine h.update path.full (fun p e => by cases e) fun k => ?_
  rw [hlive, hold]
  exact (or_iff_right (by simp)).symm

/-- **Every call that meets no file on its way** keeps the capsules owned. -/
theorem NfsCall.owned {s : World P × NfsView} (h : NfsView.Owned foreign s)
    (hc : c.Unobstructed s.2) : NfsView.Owned foreign (c.run s).2 := by
  obtain ⟨w, v⟩ := s
  refine wp_run (h := c.handler) (J := NfsCall.anywhere)
    (Q := fun _ s => NfsView.Owned foreign s) ?_
  cases c with
  | writeFile id path data now =>
      refine wp_bind.mpr (wp_mono (Q := fun _ s => NfsView.Owned foreign s) ?_ fun r s k => ?_)
      · unfold NfsView.writeFile
        split
        · exact h
        · next hr =>
            cases hp : (normalizePath path).parentPath with
            | none => exact h
            | some parent => exact wp_writeAt_owned rfl hr h (hc parent hp)
      · cases r <;> exact k
  | mkdir path now =>
      have hsame : Namespace.fileAt (v.nodes.ensureDirectory (normalizePath path) now).2 =
        v.nodes.fileAt := Namespace.fileAt_ensureDirectory
      refine wp_bind.mpr (wp_view trivial ?_)
      show andThen _ _ _ _ (v.nodes.ensureDirectory (normalizePath path) now).1
        (w, { v with nodes := (v.nodes.ensureDirectory (normalizePath path) now).2 })
      generalize v.nodes.ensureDirectory (normalizePath path) now = r at hsame
      obtain ⟨r | u, nodes'⟩ := r
      · show NfsOwned foreign nodes'.fileAt w.live
        exact hsame.symm ▸ h
      · exact wp_persist_owned (hsame.symm ▸ h)
  | delete path now =>
      show Prog.wp _ _ _ (NfsView.delete path now) _
      unfold NfsView.delete
      split
      · exact h
      · exact wp_deleteAt_owned h

end

/-! ### Runs of calls -/

/-- The states after the calls of a client, one after another, each made where `A` allows it. -/
inductive NfsCalls (A : NfsCall → NfsView → Prop) (s₀ : World P × NfsView) :
    World P × NfsView → Prop
  | start : NfsCalls A s₀ s₀
  | call {s : World P × NfsView} (c : NfsCall) (h : NfsCalls A s₀ s) (hA : A c s.2) :
      NfsCalls A s₀ (c.run s).2

/-- A view without a namespace of its own yet. -/
def NfsView.Fresh (v : NfsView) : Prop := ∃ now, v = .new now ∨ v = .open none now

theorem NfsView.Fresh.no_file {v : NfsView} (h : v.Fresh) (key : Text) :
    v.nodes.fileAt key = none := by
  obtain ⟨now, rfl | rfl⟩ := h
  · exact congrFun (@Namespace.fileAt_ensureRootNode ∅ now) key
  · exact congrFun (fileAt_open none now) key

/-- **The view owns what it created** after every call of a run in which no write meets a file
among the directories above its path. -/
theorem nfs_owned {v₀ : NfsView} {s : World P × NfsView} (hv : v₀.Fresh)
    (h : NfsCalls NfsCall.Unobstructed (w, v₀) s) : NfsView.Owned w.live s := by
  induction h with
  | start => exact .start hv.no_file
  | call c _ hA ih => exact NfsCall.owned ih hA

/-- The state of a new process after a list of calls. -/
def NfsCall.runAll (calls : List NfsCall) : World .stored × NfsView :=
  calls.foldl (fun s c => (c.run s).2) (World.empty none, .new 0)

/-- A file in a directory, written twice. -/
theorem nfs_owned_overwrite :
    NfsView.Owned (World.live (World.empty (P := .stored) none))
      (NfsCall.runAll
        [.writeFile ⟨0⟩ ['d', '/', 'a'] [1] 1, .writeFile ⟨1⟩ ['d', '/', 'a'] [2] 2]) :=
  nfs_owned ⟨0, .inl rfl⟩ (.call _ (.call _ .start (by decide +kernel)) (by decide +kernel))

/-- A file `/a`, and a file written below it: the call fails, and its capsule stays. -/
theorem not_nfs_owned :
    ¬ ∀ (P : Primitives) (w : World P) (v₀ : NfsView) (s : World P × NfsView), v₀.Fresh →
      NfsCalls (fun _ _ => True) (w, v₀) s → NfsView.Owned w.live s := by
  intro h
  have hO := h .stored (World.empty none) (.new 0) _ ⟨0, .inl rfl⟩
    (.call (.writeFile ⟨1⟩ ['a', '/', 'b'] [2] 2)
      (.call (.writeFile ⟨0⟩ ['a'] [1] 1) .start trivial) trivial)
  have hlive : ((NfsCall.runAll [.writeFile ⟨0⟩ ['a'] [1] 1,
      .writeFile ⟨1⟩ ['a', '/', 'b'] [2] 2]).1.cap ⟨1⟩).isSome = true := by
    decide +kernel
  have hfiles : ∀ e ∈ (NfsCall.runAll [.writeFile ⟨0⟩ ['a'] [1] 1,
      .writeFile ⟨1⟩ ['a', '/', 'b'] [2] 2]).2.nodes.entries, e.2.capsule ≠ some ⟨1⟩ := by
    decide +kernel
  have hforeign : (⟨1⟩ : CapsuleId) ∉ World.live (World.empty (P := .stored) none) := by
    rintro ⟨c, hc⟩
    cases hc
  obtain ⟨key, size, hf⟩ := (hO.named ⟨1⟩).mpr ⟨Option.isSome_iff_exists.mp hlive, hforeign⟩
  obtain ⟨n, hn, hc⟩ := Option.bind_eq_some_iff.mp hf
  refine hfiles ⟨key, n⟩ (AList.mem_lookup_iff.mp hn) ?_
  rw [NfsNode.capsule_eq, hc]
  rfl

end Space

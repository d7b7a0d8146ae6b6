import Space.Modular.Accounting
import Space.Modular.Sharing
import Space.Native.Sizes

/-!
# Modular — OptOut

Runs of both pipelines over one log and registry.  The modular pipeline never asks whether a policy
opts out of deduplication: it looks every chunk up, and it registers what it stores.

* `Call.optedOut`: what a write that opts out leaves, if it is not a modular write that stores
  something.
* `Call.apart`, `Call.retains`: what every other call keeps.
* `dedupe_opt_out`: so, in a run without such writes, the capsules that opt out are alone.
* `not_dedupe_opt_out`: a run with one.
-/

namespace Space
open Support Prog Space.Modular

variable {P : Primitives} {parts : Parts} {s : Store P} {id : CapsuleId} {policy : Policy}
  {data : Bytes}

/-! ### A modular write that stores nothing -/

/-- The plan for the data lists no extent, if there is a plan. -/
def PlansNothing (policy : Policy) (data : Bytes) : Prop :=
  ∀ zones, zonePlan policy data = .ok zones → zones.flatMap Zone.segments = []

theorem Pipeline.wp_writeCapsule_nothing (hz : PlansNothing policy data) (h : s.Apart)
    (t : NvramStorageTransaction) :
    (Pipeline.writeCapsule id data policy).wp (Registering parts) (fun _ _ => True)
      (fun r s' => OptedOut s id policy r s'.1) (s, t) := by
  have hstart : Lays s s [] := .start h
  refine wp_bind.mpr (wp_modularOp (.evaluateCompression policy _) ?_)
  show andThen _ _ _ _ (parts.evaluateCompression policy _) (s, t)
  rcases parts.evaluateCompression policy _ with e | compressionPolicy
  · exact hstart.failed e
  refine wp_bind.mpr (wp_lift.mpr ?_)
  cases hp : zonePlan policy data with
  | error e => exact hstart.failed e
  | ok zones =>
  refine wp_bind.mpr (wp_modularOp (.evaluateEncryption policy) ?_)
  show andThen _ _ _ _ (parts.evaluateEncryption policy) (s, t)
  rcases parts.evaluateEncryption policy with e | encryptionPolicy
  · exact hstart.failed e
  show Prog.wp _ _ _ ((zones.flatMap Zone.segments).foldlM _ _ >>= _) (s, t)
  rw [hz zones hp, List.foldlM_nil, pure_bind]
  refine wp_bind.mpr (wp_modularOp (.createCapsule id data.length policy [] {}) ?_)
  show andThen _ _ _ _ (s.registry.createCapsule id data.length policy [] {}).1
    ({ s with registry := (s.registry.createCapsule id data.length policy [] {}).2 }, t)
  cases hc : s.registry.capsules.lookup id with
  | some c =>
      obtain ⟨e, he⟩ := CapsuleRegistry.createCapsule_some hc data.length policy [] {}
      rw [he]
      exact hstart.failed e
  | none =>
      rw [CapsuleRegistry.createCapsule_none hc]
      have hcap : ∀ id', ((s.registry.capsules.insert id (Capsule.mk id data.length [] policy
          0)).insert id ⟨id, data.length, [], policy, 0⟩).lookup id' =
          if id' = id then some ⟨id, data.length, [], policy, 0⟩
          else s.registry.capsules.lookup id' := by
        intro id'
        rw [Table.lookup_insert]
        split
        · rfl
        · next hne => exact (Table.lookup_insert _ _ _ _).trans (if_neg hne)
      exact hstart.created (fun _ hx => absurd hx List.not_mem_nil) hc ⟨rfl, rfl, rfl, hcap⟩ rfl

/-! ### What is kept of a capsule -/

/-- There is a capsule with these segments and this policy. -/
def Store.Has (s : Store P) (id : CapsuleId) (l : List SegmentId) (policy : Policy) : Prop :=
  ∃ c, s.cap id = some c ∧ c.segments = l ∧ c.policy = policy

section
variable {l : List SegmentId}

theorem Store.Has.congr {s' : Store P} (h : s.Has id l policy)
    (hc : s'.registry.capsules = s.registry.capsules) : s'.Has id l policy := by
  obtain ⟨c, h, hl⟩ := h
  exact ⟨c, (congrArg (fun m : Table CapsuleId Capsule => m.lookup id) hc).trans h, hl⟩

/-- The operation does not delete the capsule. -/
def StoreOp.SparesCapsule (id : CapsuleId) : StoreOp → Prop
  | .deleteCapsule id' => id' ≠ id
  | _ => True

def ModularOp.SparesCapsule (id : CapsuleId) : ModularOp → Prop
  | .deleteCapsule id' => id' ≠ id
  | _ => True

/-- An operation of the store keeps every capsule but the one it deletes. -/
theorem StoreOp.exec_has {o : StoreOp} (ho : o.SparesCapsule id) (h : s.Has id l policy) :
    (o.exec s).2.Has id l policy := by
  obtain ⟨c, hc, hl, hp⟩ := h
  cases o with
  | deregisterContent hash x =>
      exact .congr ⟨c, hc, hl, hp⟩ (s.registry.deregisterContent_capsules hash x)
  | addDedupedBytes id' n =>
      show Store.Has { s with registry := s.registry.addDedupedBytes id' n } id l policy
      unfold CapsuleRegistry.addDedupedBytes
      split
      · exact ⟨c, hc, hl, hp⟩
      · next c' hc' =>
          by_cases e : id = id'
          · subst e
            have hc : s.registry.capsules.lookup id = some c := hc
            rw [hc, Option.some.injEq] at hc'
            subst hc'
            exact ⟨_, (Table.lookup_insert _ _ _ _).trans (if_pos rfl), hl, hp⟩
          · exact ⟨c, (Table.lookup_insert _ _ _ _).trans ((if_neg e).trans hc), hl, hp⟩
  | deleteCapsule id' =>
      have hne : id ≠ id' := Ne.symm ho
      show Store.Has (s.without id') id l policy
      refine ⟨c, ?_, hl, hp⟩
      rw [Store.without_cap, if_neg hne, hc]
  | createCapsuleWithSegments id' size l' policy' =>
      show Store.Has { s with registry :=
        (s.registry.createCapsuleWithSegments id' size l' policy').2 } id l policy
      unfold CapsuleRegistry.createCapsuleWithSegments
      split
      · exact ⟨c, hc, hl, hp⟩
      · next hnone =>
          have hne : id ≠ id' := by
            rintro rfl
            rw [show s.cap id = none from hnone] at hc
            cases hc
          exact ⟨c, (Table.lookup_insert _ _ _ _).trans ((if_neg hne).trans hc), hl, hp⟩
  | currentKey =>
      exact .congr ⟨c, hc, hl, hp⟩
        (congrArg (fun reg : CapsuleRegistry => reg.capsules) (Store.currentKey_snd s).1)
  | getKey v =>
      refine .congr ⟨c, hc, hl, hp⟩ ?_
      show (s.getKey v).2.registry.capsules = _
      unfold Store.getKey
      split
      · rfl
      · split <;> rfl
  | _ => exact ⟨c, hc, hl, hp⟩

theorem Command.retains {c : Command} (hc : c ≠ .delete id) (h : s.Has id l policy) :
    ((c.program P).run StoreOp.exec s).2.Has id l policy := by
  have hk : ∀ o : StoreOp, o.Keeps → o.SparesCapsule id := by
    intro o h
    cases o with
    | deleteCapsule => exact absurd trivial h
    | _ => trivial
  have hA : (c.program P).Uses (StoreOp.SparesCapsule id) := by
    cases c with
    | write id' data policy' =>
        exact uses_discard (uses_writeCapsuleWithPolicy hk fun _ => trivial)
    | writeAsync limit arrivals id' data policy' =>
        exact uses_discard (uses_writeAsync hk fun _ => trivial)
    | delete id' =>
        refine uses_delete hk fun e => hc ?_
        rw [e]
    | collect ord =>
        exact uses_discard
          (uses_sweep (fun _ => trivial) (fun _ _ => trivial) (fun _ => trivial) ord)
  exact Prog.run_keeps (I := fun s : Store P => s.Has id l policy)
    (fun _ _ ho h => StoreOp.exec_has ho h) hA h

/-- So it is with the operations of the modular pipeline. -/
theorem ModularOp.exec_has {o : ModularOp} {s : Registered P} (ho : o.SparesCapsule id)
    (h : s.1.Has id l policy) : (o.execRegistry parts s).2.1.Has id l policy := by
  cases o with
  | createCapsule id' size policy' l' stats =>
      obtain ⟨c, hc, hl, hp⟩ := h
      cases hc' : s.1.registry.capsules.lookup id' with
      | some c' =>
          obtain ⟨e, he⟩ := CapsuleRegistry.createCapsule_some hc' size policy' l' stats
          refine .congr ⟨c, hc, hl, hp⟩ ?_
          show (s.1.registry.createCapsule id' size policy' l' stats).2.capsules = _
          rw [he]
      | none =>
          have hne : id ≠ id' := by
            rintro rfl
            rw [show s.1.cap id = none from hc'] at hc
            cases hc
          refine ⟨c, ?_, hl, hp⟩
          show (s.1.registry.createCapsule id' size policy' l' stats).2.capsules.lookup id = some c
          rw [CapsuleRegistry.createCapsule_none hc']
          refine (Table.lookup_insert _ _ _ _).trans ((if_neg hne).trans ?_)
          exact (Table.lookup_insert _ _ _ _).trans ((if_neg hne).trans hc)
  | deleteCapsule id' => exact StoreOp.exec_has (o := .deleteCapsule id') ho h
  | deregisterContent hash x => exact StoreOp.exec_has (o := .deregisterContent hash x) trivial h
  | _ => exact h

end

/-! ### The modular programs -/

theorem uses_inTxn {α : Type} {A : ModularOp → Prop} {p : Modular α} (hb : A .beginTxn)
    (hd : A .dropTxn) (hp : p.Uses A) : (inTxn p).Uses A := by
  refine uses_bind (uses_perform.mpr hb) fun _ => uses_bind (uses_attempt hp) fun r => ?_
  cases r with
  | ok a => trivial
  | error e => exact uses_bind (uses_attempt (uses_perform.mpr hd)) fun _ => trivial

/-- An operation that deletes no capsule. -/
def ModularOp.SparesAll : ModularOp → Prop
  | .deleteCapsule _ => False
  | _ => True

/-- An operation that stores nothing and deletes no capsule. -/
def ModularOp.Releases : ModularOp → Prop
  | .append _ _ => False
  | .createCapsule _ _ _ _ _ => False
  | .deleteCapsule _ => False
  | _ => True

theorem ModularOp.Releases.spares {o : ModularOp} (h : o.Releases) : o.SparesAll := by
  cases o with
  | deleteCapsule => exact h.elim
  | _ => trivial

section
variable {x : SegmentId}

theorem uses_spares {o : ModularOp} (h : o.SparesAll) :
    (perform (S := ModularSig) (ε := Error) o).Uses ModularOp.SparesAll := uses_perform.mpr h

theorem uses_releases {o : ModularOp} (h : o.Releases) :
    (perform (S := ModularSig) (ε := Error) o).Uses ModularOp.Releases := uses_perform.mpr h

theorem releases_updateMetadata {segment : Segment} :
    (Pipeline.updateMetadata x segment).Uses ModularOp.Releases :=
  uses_inTxn trivial trivial (uses_bind (uses_releases trivial) fun _ => uses_releases trivial)

theorem spares_storeSegment {encryptionPolicy : EncryptionPolicy} {view : Bytes}
    {summary : CompressionSummary} {hash : ContentHash} :
    (Pipeline.storeSegment id encryptionPolicy view summary hash).Uses ModularOp.SparesAll := by
  refine uses_inTxn trivial trivial (uses_bind (uses_spares trivial) fun x => ?_)
  refine uses_bind (?_ : (Pipeline.encryptView id encryptionPolicy view x).Uses _) fun _ => ?_
  · unfold Pipeline.encryptView
    split
    · exact uses_bind (uses_spares trivial) fun _ => uses_spares trivial
    · trivial
  · refine uses_bind (uses_spares trivial) fun _ => uses_bind (uses_spares trivial) fun _ => ?_
    exact uses_bind (uses_spares trivial) fun _ => trivial

theorem spares_writeSegment {compressionPolicy : CompressionPolicy}
    {encryptionPolicy : EncryptionPolicy} {st : WriteState} {seg : SegmentRef} :
    (Pipeline.writeSegment id data compressionPolicy encryptionPolicy st seg).Uses
      ModularOp.SparesAll := by
  show Prog.Uses _ (if data.length < min (seg.offset + seg.length) usizeMax then _ else _)
  split
  · trivial
  refine uses_bind (uses_spares trivial) fun _ => uses_bind (uses_spares trivial) fun _ => ?_
  refine uses_bind (uses_spares (o := .lookupContent _) trivial) fun found => ?_
  cases found with
  | some existing =>
      refine uses_bind (uses_spares trivial) fun _ => ?_
      refine uses_bind (uses_mono (fun _ h => h.spares) releases_updateMetadata) fun _ => ?_
      exact uses_bind (uses_spares trivial) fun _ => trivial
  | none =>
      refine uses_bind spares_storeSegment fun _ => uses_bind (uses_spares trivial) fun _ => ?_
      refine uses_bind (uses_spares trivial) fun _ => ?_
      exact uses_bind (uses_spares trivial) fun _ => trivial

theorem spares_writeCapsule :
    (Pipeline.writeCapsule id data policy).Uses ModularOp.SparesAll := by
  refine uses_bind (uses_spares trivial) fun _ => uses_bind uses_lift fun _ => ?_
  refine uses_bind (uses_spares trivial) fun _ => ?_
  refine uses_bind (uses_foldlM (fun _ _ => spares_writeSegment) _ _) fun _ => ?_
  exact uses_bind (uses_spares trivial) fun _ => trivial

theorem releases_releaseSegment : (Pipeline.releaseSegment x).Uses ModularOp.Releases := by
  refine uses_bind (uses_releases (o := .metadata x) trivial) fun (segment : Segment) => ?_
  show Prog.Uses _ (if 1 < segment.refCount then _ else _)
  split
  · exact releases_updateMetadata
  · refine uses_bind (uses_releases trivial) fun _ => ?_
    cases segment.contentHash with
    | none => trivial
    | some hash => exact uses_discard (uses_releases trivial)

theorem releases_garbageCollect {capsuleOrd : Order Capsule}
    {contentOrd : Order (ContentHash × SegmentId)} {segmentOrd : Order SegmentId} :
    (Pipeline.garbageCollect capsuleOrd contentOrd segmentOrd).Uses ModularOp.Releases := by
  refine uses_bind (uses_releases (o := .capsules _) trivial) fun (capsules : List Capsule) => ?_
  refine uses_bind (uses_releases (o := .contentEntries _) trivial)
    fun (entries : List (ContentHash × SegmentId)) => ?_
  refine uses_bind (uses_releases trivial) fun _ => uses_inTxn trivial trivial ?_
  refine uses_bind (uses_foldlM (fun n y => ?_) _ _) fun _ =>
    uses_bind (uses_releases trivial) fun _ => trivial
  refine uses_bind (uses_attempt (uses_releases (o := .metadata y) trivial))
    fun (r : Except Error Segment) => ?_
  cases r with
  | error e => trivial
  | ok segment =>
      show Prog.Uses _ (if y ∈ capsules.flatMap Capsule.segments ∧ 0 < segment.refCount then _
        else _)
      split
      · trivial
      · refine uses_bind (uses_releases trivial) fun _ => ?_
        cases (contentMapOf entries).lookup y with
        | none => trivial
        | some hash => exact uses_bind (uses_discard (uses_releases trivial)) fun _ => trivial

end

theorem ModularCommand.retains {c : ModularCommand} {l : List SegmentId} (hc : c ≠ .delete id)
    (h : s.Has id l policy) : (c.run parts s).2.Has id l policy := by
  have hk : ∀ o : ModularOp, o.SparesAll → o.SparesCapsule id := by
    intro o h
    cases o with
    | deleteCapsule => exact h.elim
    | _ => trivial
  have hr : ∀ o : ModularOp, o.Releases → o.SparesCapsule id := fun o h => hk o h.spares
  have hA : c.program.Uses (ModularOp.SparesCapsule id) := by
    cases c with
    | write id' data policy' => exact uses_discard (uses_mono hk spares_writeCapsule)
    | delete id' =>
        refine uses_bind (uses_perform.mpr trivial) fun _ => ?_
        refine uses_bind (uses_foldlM (fun _ _ => uses_mono hr releases_releaseSegment) _ _)
          fun _ => ?_
        refine uses_discard (uses_perform.mpr fun e => hc ?_)
        rw [e]
    | collect capsuleOrd contentOrd segmentOrd =>
        exact uses_discard (uses_mono hr releases_garbageCollect)
  exact Prog.run_keeps (I := fun s : Registered P => s.1.Has id l policy)
    (fun _ _ ho h => ModularOp.exec_has ho h) hA h

/-! ### Calls -/

/-- A call of one of the pipelines; a modular one has parts of its own. -/
inductive Call where
  | native (c : Command)
  | modular (parts : Parts) (c : ModularCommand)

namespace Call

/-- Run a call to its end. -/
def run : Call → Store P → Except Error Unit × Store P
  | native c, s => (c.program P).run StoreOp.exec s
  | modular parts c, s => c.run parts s

/-- One call after the other. -/
def runAll (calls : List Call) (s : Store P) : Store P := calls.foldl (fun s c => (c.run s).2) s

/-- The call is a write of the capsule under the policy. -/
def Writes (id : CapsuleId) (policy : Policy) : Call → Prop
  | native (.write id' _ policy') => id' = id ∧ policy' = policy
  | native (.writeAsync _ _ id' _ policy') => id' = id ∧ policy' = policy
  | modular _ (.write id' _ policy') => id' = id ∧ policy' = policy
  | _ => False

/-- The call deletes the capsule. -/
def Deletes (id : CapsuleId) : Call → Prop
  | native c => c = .delete id
  | modular _ c => c = .delete id

/-- A modular write asks for deduplication, or it has nothing to store. -/
def Deduplicates : Call → Prop
  | modular _ (.write _ data policy) => policy.dedupe = true ∨ PlansNothing policy data
  | _ => True

variable {c : Call}

/-- **A write that opts out.** -/
theorem optedOut (hw : c.Writes id policy) (hd : policy.dedupe = false) (hc : c.Deduplicates)
    (hs : s.Apart) : ∃ r, (c.run s).1 = r.map (fun _ => ()) ∧
      OptedOut s id policy r (c.run s).2 := by
  rcases c with c | ⟨parts, c⟩
  · cases c with
    | write id' data policy' =>
        obtain ⟨rfl, rfl⟩ := hw
        have e : ((native (.write id' data policy')).run s).2 = _ := run_discard _ s
        exact ⟨_, run_discard_fst _ _, e ▸ wp_run (WritePipeline.wp_writeCapsule_optOut hd hs)⟩
    | writeAsync limit arrivals id' data policy' =>
        obtain ⟨rfl, rfl⟩ := hw
        have e : ((native (.writeAsync limit arrivals id' data policy')).run s).2 = _ :=
          run_discard _ s
        exact ⟨_, run_discard_fst _ _, e ▸ wp_run (WritePipeline.wp_writeAsync_optOut hd hs)⟩
    | _ => exact hw.elim
  · cases c with
    | write id' data policy' =>
        obtain ⟨rfl, rfl⟩ := hw
        have hz : PlansNothing policy' data := hc.resolve_left (by rw [hd]; exact nofun)
        have e : ((modular parts (.write id' data policy')).run s).2 = _ :=
          congrArg Prod.fst (run_discard _ (s, NvramStorageTransaction.none))
        exact ⟨_, run_discard_fst _ (s, _), e ▸ wp_run
          (Pipeline.wp_writeCapsule_nothing hz hs .none)⟩
    | _ => exact hw.elim

/-- Every call keeps the capsules that opt out to themselves. -/
theorem apart (hc : c.Deduplicates) (hs : s.Apart) : (c.run s).2.Apart := by
  have hwrite : ∀ id policy, c.Writes id policy → policy.dedupe = false → (c.run s).2.Apart := by
    intro id policy hw hd
    obtain ⟨r, -, h⟩ := optedOut hw hd hc hs
    exact h.apart hs
  have hstart : Registered.Handles (s, .none) 0 := .start hs
  rcases c with c | ⟨parts, c⟩
  · by_cases ho : c.OptsOut
    · cases c with
      | write id data policy => exact hwrite id policy ⟨rfl, rfl⟩ ho
      | writeAsync limit arrivals id data policy => exact hwrite id policy ⟨rfl, rfl⟩ ho
      | _ => exact ho.elim
    · exact Command.apart ho hs
  · cases c with
    | write id data policy =>
        cases hd : policy.dedupe with
        | false => exact hwrite id policy ⟨rfl, rfl⟩ hd
        | true =>
            obtain ⟨g, h⟩ := wp_run (Pipeline.wp_writeCapsule_sharing hd hstart)
            have e : ((modular parts (.write id data policy)).run s).2 = _ :=
              congrArg Prod.fst (run_discard _ (s, NvramStorageTransaction.none))
            exact e ▸ h.inv.apart
    | delete id => exact wp_run (Pipeline.wp_deleteCapsule_sharing hstart)
    | collect capsuleOrd contentOrd segmentOrd =>
        obtain ⟨g, h⟩ := wp_run (Pipeline.wp_garbageCollect_sharing hstart)
        have e : ((modular parts (.collect capsuleOrd contentOrd segmentOrd)).run s).2 = _ :=
          congrArg Prod.fst (run_discard _ (s, NvramStorageTransaction.none))
        exact e ▸ h.inv.apart

theorem retains {l : List SegmentId} (hc : ¬ c.Deletes id) (h : s.Has id l policy) :
    (c.run s).2.Has id l policy := by
  cases c with
  | native c => exact Command.retains hc h
  | modular parts c => exact ModularCommand.retains hc h

/-- **A run of calls.** -/
theorem apart_runAll {calls : List Call} (hc : ∀ c ∈ calls, c.Deduplicates) (hs : s.Apart) :
    (runAll calls s).Apart := by
  induction calls generalizing s with
  | nil => exact hs
  | cons c calls ih =>
      exact ih (fun d hd => hc d (List.mem_cons_of_mem _ hd)) (apart (hc c List.mem_cons_self) hs)

theorem retains_runAll {l : List SegmentId} {calls : List Call}
    (hc : ∀ c ∈ calls, ¬ c.Deletes id) (h : s.Has id l policy) :
    (runAll calls s).Has id l policy := by
  induction calls generalizing s with
  | nil => exact h
  | cons c calls ih =>
      exact ih (fun d hd => hc d (List.mem_cons_of_mem _ hd)) (retains (hc c List.mem_cons_self) h)

end Call

/-! ### The result -/

/-- The write `w`, after the calls `before`, leaves every segment and every hash as they were.  If
it succeeds, the segments of its capsule are new; and, as long as the capsule is not deleted, it is
there with these segments, each of them is listed by it alone and once, and has one reference. -/
def HonoursOptOut (km : Option (KeyManager P)) (before after : List Call) (w : Call)
    (id : CapsuleId) : Prop :=
  let s := Call.runAll before (Store.empty km)
  let s' := (w.run s).2
  (∀ hash, s'.content hash = s.content hash) ∧
  (∀ x segment, s.seg x = some segment → s'.seg x = some segment) ∧
  ((w.run s).1 = .ok () → ∃ c, s'.cap id = some c ∧
    (∀ x ∈ c.segments, s.seg x = none ∧ ∀ id' c', s.cap id' = some c' → x ∉ c'.segments) ∧
    ((∀ d ∈ after, ¬ d.Deletes id) → ∃ c', (Call.runAll after s').cap id = some c' ∧
      c'.segments = c.segments ∧ (Call.runAll after s').Alone id c'))

/-- **Deduplication can be opted out of**, if the modular pipeline writes no such capsule. -/
theorem dedupe_opt_out (km : Option (KeyManager P)) (before after : List Call) (w : Call)
    (hc : ∀ c ∈ before ++ w :: after, c.Deduplicates) (hw : w.Writes id policy)
    (hd : policy.dedupe = false) : HonoursOptOut km before after w id := by
  have hs : (Call.runAll before (Store.empty km)).Apart :=
    Call.apart_runAll (fun c h => hc c (List.mem_append.mpr (.inl h))) (.empty km)
  have hcw : w.Deduplicates := hc w (List.mem_append.mpr (.inr List.mem_cons_self))
  obtain ⟨r, hr, h⟩ := Call.optedOut hw hd hcw hs
  refine ⟨h.content, fun x segment hx => ?_, fun hok => ?_⟩
  · rw [h.seg x (hs.keyed x segment hx).2]
    exact hx
  cases r with
  | error e =>
      rw [hr] at hok
      cases hok
  | ok id' =>
      obtain ⟨-, -, c, hpol, -, hdrawn, -, hcap⟩ := h.cap
      have hcid : (w.run (Call.runAll before (Store.empty km))).2.cap id = some c :=
        (hcap id).trans (if_pos rfl)
      refine ⟨c, hcid, fun x hx => ⟨?_, fun id' c' hc' hx' => ?_⟩, fun hdel => ?_⟩
      · rcases Option.eq_none_or_eq_some ((Call.runAll before (Store.empty km)).seg x) with e |
          ⟨segment, e⟩
        · exact e
        · exact absurd (hs.keyed x segment e).2 (Nat.not_lt.mpr (hdrawn x hx).1)
      · exact absurd (hs.listed id' c' hc' x hx') (Nat.not_lt.mpr (hdrawn x hx).1)
      · obtain ⟨c', hc', hl, hp⟩ := Call.retains_runAll hdel ⟨c, hcid, rfl, hpol⟩
        have hA := Call.apart_runAll (fun d hd => hc d (List.mem_append.mpr
          (.inr (List.mem_cons_of_mem _ hd)))) (h.apart hs)
        exact ⟨c', hc', hl, hA.alone id c' hc' (hp ▸ hd)⟩

/-- A policy that opts out. -/
def sampleOptOut : Policy := { dedupe := false }

/-- Between two writes of the same byte, one of each pipeline. -/
theorem dedupe_opt_out_between : HonoursOptOut (P := .stored) none
    [.native (.write ⟨0⟩ [7] {})] [.modular (.inMemory .stored) (.write ⟨2⟩ [7] {})]
    (.native (.write ⟨1⟩ [7] sampleOptOut)) ⟨1⟩ := by
  refine dedupe_opt_out none _ _ _ (fun c hc => ?_) ⟨rfl, rfl⟩ rfl
  simp only [List.cons_append, List.nil_append, List.mem_cons, List.not_mem_nil, or_false] at hc
  rcases hc with rfl | rfl | rfl
  · trivial
  · trivial
  · exact .inl rfl

/-- The modular write of a byte, under a policy that opts out. -/
def sampleModularWrite : Call := .modular (.inMemory .stored) (.write ⟨0⟩ [7] sampleOptOut)

/-- **The modular pipeline registers what it stores**, and the next write of the same byte finds
it: two capsules list the segment, and it has two references. -/
theorem not_dedupe_opt_out : ¬ ∀ (P : Primitives) (km : Option (KeyManager P))
    (before after : List Call) (w : Call) (id : CapsuleId) (policy : Policy),
    w.Writes id policy → policy.dedupe = false → HonoursOptOut km before after w id := by
  intro h
  obtain ⟨-, -, h⟩ := h .stored none [] [.native (.write ⟨1⟩ [7] {})] sampleModularWrite ⟨0⟩
    sampleOptOut ⟨rfl, rfl⟩ rfl
  have hlist : ((sampleModularWrite.run (Store.empty (P := .stored) none)).2.cap ⟨0⟩).map
      Capsule.segments = some [⟨0⟩] := by decide +kernel
  have hcount : ((Call.runAll [.native (.write ⟨1⟩ [7] {})]
      (sampleModularWrite.run (Store.empty (P := .stored) none)).2).seg ⟨0⟩).map
        Segment.refCount = some 2 := by decide +kernel
  obtain ⟨c, hc, -, h⟩ := h rfl
  obtain ⟨c', -, hl, ha⟩ := h fun d hd => by
    obtain rfl := List.mem_singleton.mp hd
    exact nofun
  have hc : (sampleModularWrite.run (Store.empty (P := .stored) none)).2.cap ⟨0⟩ = some c := hc
  rw [hc] at hlist
  have hmem : (⟨0⟩ : SegmentId) ∈ c'.segments := by
    rw [hl, Option.some.inj hlist]
    exact List.mem_singleton_self _
  obtain ⟨segment, hs, hone⟩ := ha.counted _ hmem
  have hs : (Call.runAll [.native (.write ⟨1⟩ [7] {})]
      (sampleModularWrite.run (Store.empty (P := .stored) none)).2).seg ⟨0⟩ = some segment := hs
  rw [hs, Option.map_some, hone] at hcount
  cases hcount

end Space

import Space.Modular.DeleteMemory
import Space.Modular.EncryptedFlag
import Space.Modular.OptOut

/-!
# Modular — Deletes over the registry

A delete of the modular pipeline in which one call fails, over the log and the registry.  A
transaction of the log changes no segment that is there, so the delete comes to its end only if
every segment has one reference; it stops at the first that has another, and what it has deleted by
then is lost.

* `Store.Accounted`, `RegistryRun`: the states between two methods.
* `Cleared`: what a delete leaves between any two of its calls, of whatever state.
* `deleteCapsule_failing`: which failures the capsule outlives.
-/

namespace Space
open Support Prog

variable {P : Primitives} {parts : Parts} {s : Store P} {u v : Registered P} {id : CapsuleId}
  {x : SegmentId} {H : List ModularOp} {l : List SegmentId}

/-! ### The pipeline, as far as deletes go -/

/-- The modular pipeline over the log and the registry. -/
def registryDeletes (P : Primitives) (parts : Parts) : DeleteView (Registered P) where
  has := fun id s => (s.1.cap id).isSome
  read := Registered.readCapsule parts
  delete := fun id s => ((Pipeline.deleteCapsule id).run (ModularOp.execRegistry parts) s).2
  Orders := Order Capsule × Order (ContentHash × SegmentId) × Order SegmentId
  collect := fun ord s => ((Pipeline.garbageCollect ord.1 ord.2.1 ord.2.2).run
    (ModularOp.execRegistry parts) s).2
  Same := fun u s => s.1.Alike u.1

/-! ### The states -/

/-- No segment is listed more often than it has references, and new identifiers are listed nowhere;
`held` are the segments of a capsule that is being written. -/
structure Store.Accounted (held : List SegmentId) (s : Store P) : Prop where
  counted : ∀ x t, s.seg x = some t → s.occurrences x + held.count x ≤ t.refCount
  fresh : ∀ x, 0 < s.occurrences x + held.count x → x.val < s.next

namespace Store.Accounted
variable {held : List SegmentId} {s' : Store P}

/-- Segments and capsules go. -/
theorem shrink (h : s.Accounted held) (hseg : ∀ x t, s'.seg x = some t → s.seg x = some t)
    (hocc : ∀ x, s'.occurrences x ≤ s.occurrences x) (hnext : s.next ≤ s'.next) :
    s'.Accounted held := by
  refine ⟨fun x t ht => ?_, fun x hx => ?_⟩
  · exact (Nat.add_le_add_right (hocc x) _).trans (h.counted x t (hseg x t ht))
  · exact (h.fresh x (hx.trans_le (Nat.add_le_add_right (hocc x) _))).trans_le hnext

theorem drop (h : s.Accounted held) : s.Accounted [] :=
  ⟨fun x t ht => (Nat.le_add_right _ _).trans (h.counted x t ht),
    fun x hx => h.fresh x (hx.trans_le (Nat.le_add_right _ _))⟩

/-- The registry gives an identifier out. -/
theorem allocated (h : s.Accounted held) :
    ({ s with registry := s.registry.allocSegment.2 } : Store P).Accounted held :=
  h.shrink (fun _ _ ht => ht) (fun _ => le_refl _) (Nat.le_succ _)

/-- **A segment is entered** under the next identifier, with one reference. -/
theorem enter {segment : Segment} {payload : Bytes} (h : s.Accounted held)
    (hid : segment.id = ⟨s.next⟩) (hone : segment.refCount = 1) :
    (s.entered segment payload).Accounted (held ++ [⟨s.next⟩]) := by
  have hnew : s.occurrences ⟨s.next⟩ + held.count ⟨s.next⟩ = 0 :=
    Nat.eq_zero_of_not_pos fun k => Nat.lt_irrefl _ (h.fresh _ k)
  have hcount : ∀ y, (held ++ [(⟨s.next⟩ : SegmentId)]).count y =
      held.count y + if y = ⟨s.next⟩ then 1 else 0 := by
    intro y
    rw [List.count_append, List.count_singleton]
    congr 1
    by_cases hy : y = ⟨s.next⟩
    · rw [if_pos hy, if_pos (beq_iff_eq.mpr hy.symm)]
    · rw [if_neg hy, if_neg fun k => hy (beq_iff_eq.mp k).symm]
  refine ⟨fun y t ht => ?_, fun y hy => ?_⟩
  · have ht : (s.nvram.segmentMap.insert segment.id segment).lookup y = some t := ht
    show s.occurrences y + _ ≤ _
    rw [hid] at ht
    rw [hcount]
    rcases Table.lookup_insert_eq_some.mp ht with ⟨rfl, rfl⟩ | ⟨hne, ht⟩
    · rw [if_pos rfl, hone]
      omega
    · rw [if_neg hne]
      exact h.counted y t ht
  · have hy : 0 < s.occurrences y + (held ++ [(⟨s.next⟩ : SegmentId)]).count y := hy
    show y.val < s.next + 1
    rw [hcount] at hy
    by_cases hyn : y = ⟨s.next⟩
    · rw [hyn]
      exact Nat.lt_succ_self _
    · rw [if_neg hyn] at hy
      exact (h.fresh y hy).trans (Nat.lt_succ_self _)

/-- **A capsule is entered**, with what is held for it. -/
theorem create {size : Nat} {policy : Policy} {stats : DedupStats} (h : s.Accounted held) :
    ({ s with registry := (s.registry.createCapsule id size policy held stats).2 } :
      Store P).Accounted [] := by
  cases hc : s.registry.capsules.lookup id with
  | some c =>
      obtain ⟨e, he⟩ := CapsuleRegistry.createCapsule_some hc size policy held stats
      rw [he]
      exact h.drop
  | none =>
      rw [CapsuleRegistry.createCapsule_none hc]
      have hocc : ∀ y, Table.total (fun c : Capsule => c.segments.count y)
          ((s.registry.capsules.insert id (Capsule.mk id size held policy 0)).insert id
            ⟨id, size, held, policy, stats.bytesSaved⟩) = s.occurrences y + held.count y := by
        intro y
        have hl : (s.registry.capsules.insert id (Capsule.mk id size held policy 0)).lookup id =
            some ⟨id, size, held, policy, 0⟩ := (Table.lookup_insert _ _ _ _).trans (if_pos rfl)
        have hsplit := Table.total_erase (fun c : Capsule => c.segments.count y) hl
        have hnew := Table.total_insert_new (fun c : Capsule => c.segments.count y)
          (v := Capsule.mk id size held policy 0) hc
        rw [Table.total_insert, ← hsplit, hnew, Nat.add_comm]
        rfl
      refine ⟨fun y t ht => ?_, fun y hy => h.fresh y (hocc y ▸ hy)⟩
      rw [List.count_nil, Nat.add_zero]
      exact (hocc y).le.trans (h.counted y t ht)

end Store.Accounted

namespace Pipeline
open Space.Modular
variable {r : Registered P} {data : Bytes} {policy : Policy}

/-- **One segment of the plan.** -/
theorem wp_writeSegment_counted {compression : CompressionPolicy} {encryption : EncryptionPolicy}
    {st : WriteState} {seg : SegmentRef} (h : r.1.Accounted st.segmentIds) :
    (writeSegment id data compression encryption st seg).wp (Registering parts) (fun _ _ => True)
      (fun res r' => match res with
        | .ok st' => r'.1.Accounted st'.segmentIds
        | .error _ => r'.1.Accounted []) r := by
  show Prog.wp _ _ _ (if data.length < min (seg.offset + seg.length) usizeMax then _ else _) r
  split
  · exact h.drop
  refine wp_bind.mpr (wp_modularOp (.compress (seg.chunk data) compression) ?_)
  show andThen _ _ _ _ (parts.compress (seg.chunk data) compression) r
  cases parts.compress (seg.chunk data) compression with
  | error e => exact h.drop
  | ok vs =>
  obtain ⟨view, summary⟩ := vs
  refine wp_bind.mpr (wp_modularOp (.hashContent view) ?_)
  refine wp_bind.mpr (wp_modularOp (.lookupContent (parts.hashContent view)) ?_)
  show andThen _ _ _ _ (.ok (r.1.content (parts.hashContent view))) r
  refine andThen_ok.mpr ?_
  dsimp only
  cases r.1.content (parts.hashContent view) with
  | some existing =>
      refine wp_bind.mpr (wp_modularOp (.metadata existing) ?_)
      show andThen _ _ _ _ (r.1.nvram.getSegmentMetadata existing) r
      cases r.1.nvram.getSegmentMetadata existing with
      | error e => exact h.drop
      | ok segment => exact wp_bind.mpr (wp_updateMetadata_log fun e t => h.drop)
  | none =>
      refine wp_bind.mpr (wp_storeSegment_log (fun e t => h.allocated.drop)
        fun payload report t hp => ?_)
      have hentered : (r.1.entered (.new ⟨r.1.next⟩ payload summary (parts.hashContent view)
          report encryption.isEnabled) payload).Accounted (st.segmentIds ++ [⟨r.1.next⟩]) :=
        h.enter rfl rfl
      have hregistered : ((r.1.entered (.new ⟨r.1.next⟩ payload summary (parts.hashContent view)
          report encryption.isEnabled) payload).registered (parts.hashContent view)
          ⟨r.1.next⟩).Accounted (st.segmentIds ++ [⟨r.1.next⟩]) :=
        ⟨hentered.counted, hentered.fresh⟩
      refine wp_bind.mpr (wp_modularOp (.registerContent (parts.hashContent view) ⟨r.1.next⟩) ?_)
      refine wp_bind.mpr (wp_modularOp (.dedupRegister (parts.hashContent view) ⟨r.1.next⟩) ?_)
      show andThen _ _ _ _ (parts.registerContent (parts.hashContent view) ⟨r.1.next⟩) _
      cases parts.registerContent (parts.hashContent view) ⟨r.1.next⟩ with
      | error e => exact andThen_error.mpr hregistered.drop
      | ok _ => exact wp_bind.mpr (wp_modularOp (.recordStats _ _) (andThen_ok.mpr hregistered))

/-- **A write**, whether it succeeds or fails. -/
theorem wp_writeCapsule_counted (h : r.1.Accounted []) :
    (writeCapsule id data policy).wp (Registering parts) (fun _ _ => True)
      (fun _ r' => r'.1.Accounted []) r := by
  refine wp_bind.mpr (wp_modularOp (.evaluateCompression policy _) ?_)
  show andThen _ _ _ _ (parts.evaluateCompression policy (data.take 1024)) r
  cases parts.evaluateCompression policy (data.take 1024) with
  | error e => exact h
  | ok compression =>
  refine wp_bind.mpr (wp_lift.mpr ?_)
  cases zonePlan policy data with
  | error e => exact h
  | ok zones =>
  refine wp_bind.mpr (wp_modularOp (.evaluateEncryption policy) ?_)
  show andThen _ _ _ _ (parts.evaluateEncryption policy) r
  cases parts.evaluateEncryption policy with
  | error e => exact h
  | ok encryption =>
  refine wp_bind.mpr (wp_foldlM (fun _ st r => r.1.Accounted st.segmentIds) ?_ ?_ _ _ _ h)
  · rintro seg rest st r h
    refine wp_mono (wp_writeSegment_counted h) fun res r' hr => ?_
    cases res <;> exact hr
  · rintro st r h
    refine wp_bind.mpr (wp_modularOp (.createCapsule id _ policy _ _) ?_)
    have hcreate : ((ModularOp.createCapsule id data.length policy st.segmentIds
        st.dedupStats).execRegistry parts r).2.1.Accounted [] := h.create
    cases ((ModularOp.createCapsule id data.length policy st.segmentIds
      st.dedupStats).execRegistry parts r).1 <;> exact hcreate

end Pipeline

/-- What enters nothing keeps the counts; the transaction has staged nothing. -/
theorem Registered.counted_exec {o : ModularOp} (ho : o.Releases ∨ o = .deleteCapsule id)
    (h : u.2.inner.pending = [] ∧ u.1.Accounted []) :
    (o.execRegistry parts u).2.2.inner.pending = [] ∧
      (o.execRegistry parts u).2.1.Accounted [] := by
  obtain ⟨hp, h⟩ := h
  have hocc : ∀ o' : Store P, o'.registry.capsules = u.1.registry.capsules →
      ∀ x, o'.occurrences x ≤ u.1.occurrences x := fun o' e x => by
    rw [Store.occurrences, Store.occurrences, e]
  rcases ho with ho | rfl
  · cases o with
    | append => exact ho.elim
    | createCapsule => exact ho.elim
    | deleteCapsule => exact ho.elim
    | allocateSegment => exact ⟨hp, h.allocated⟩
    | registerContent hash x =>
        exact ⟨hp, h.shrink (fun _ _ ht => ht) (hocc _ rfl) (le_refl _)⟩
    | deregisterContent hash x =>
        exact ⟨hp, h.shrink (fun _ _ ht => ht)
          (hocc _ (u.1.registry.deregisterContent_capsules hash x))
          (u.1.registry.deregisterContent_nextSegmentId hash x).ge⟩
    | delete x =>
        exact ⟨hp, h.shrink (fun _ _ ht => (NvramLog.removeSegment_lookup_eq_some.mp ht).2)
          (hocc _ rfl) (le_refl _)⟩
    | beginTxn => exact ⟨rfl, h⟩
    | setSegmentMetadata x segment =>
        -- the transaction has staged nothing, so there is no metadata it could set
        have herr : ∃ e, u.2.inner.setSegmentMetadata x segment = .error e := by
          rw [NvramTransaction.setSegmentMetadata, NvramTransaction.withSegmentMut, hp]
          cases u.2.inner.ensureActive with
          | error e => exact ⟨e, rfl⟩
          | ok _ => exact ⟨_, rfl⟩
        obtain ⟨e, he⟩ := herr
        have hsame : (ModularOp.execRegistry parts (.setSegmentMetadata x segment) u).2 = u := by
          have hback : (NvramBackend.setSegmentMetadata u.backend x segment).2 = u.backend := by
            rw [NvramBackend.setSegmentMetadata,
              show u.backend.transaction.inner.setSegmentMetadata x segment = .error e from he]
          show u.setBackend (NvramBackend.setSegmentMetadata u.backend x segment).2 = u
          rw [hback]
          rfl
        rw [hsame]
        exact ⟨hp, h⟩
    | txnDelete x => exact ⟨hp, h⟩
    | commit =>
        -- an empty commit leaves the log; what goes is what the transaction has deleted
        have hlog : u.2.inner.commit u.1.nvram = ((u.2.inner.commit u.1.nvram).1, u.1.nvram) ∧
            (u.2.inner.commit u.1.nvram).1.pending = [] := by
          rw [NvramTransaction.commit, if_pos hp]
          split
          · exact ⟨rfl, hp⟩
          · exact ⟨rfl, hp⟩
        refine ⟨hlog.2, h.shrink (fun y t ht => ?_) (hocc _ rfl) (le_refl _)⟩
        have ht := ((NvramLog.removeAll u.2.deleted (u.2.inner.commit u.1.nvram).2).2 y).symm.trans
          ht
        rw [hlog.1] at ht
        split at ht
        · cases ht
        · exact ht
    | dropTxn =>
        have hlog : (u.2.inner.rollback u.1.nvram).1.pending = [] ∧
            (u.2.inner.rollback u.1.nvram).2.segmentMap = u.1.nvram.segmentMap := by
          rw [NvramTransaction.rollback]
          split
          · exact ⟨hp, rfl⟩
          · exact ⟨rfl, rfl⟩
        refine ⟨hlog.1, h.shrink (fun y t ht => ?_) (hocc _ rfl) (le_refl _)⟩
        have ht : (u.2.inner.rollback u.1.nvram).2.segmentMap.lookup y = some t := ht
        rw [hlog.2] at ht
        exact ht
    | _ => exact ⟨hp, h⟩
  · refine ⟨hp, h.shrink (fun _ _ ht => ht) (fun x => ?_)
      (u.1.registry.deleteCapsule_nextSegmentId id).ge⟩
    show Table.total _ (u.1.registry.deleteCapsule id).2.capsules ≤ _
    rw [CapsuleRegistry.deleteCapsule_capsules]
    exact Table.total_erase_le _ _ _

/-- **Every method** of the modular pipeline keeps the counts. -/
theorem ModularCommand.counted (c : ModularCommand) (h : s.Accounted []) :
    (c.run parts s).2.Accounted [] := by
  have hkeeps : ∀ {α : Type} {id : CapsuleId} {p : Modular α},
      p.Uses (fun o : ModularOp => o.Releases ∨ o = .deleteCapsule id) →
      (p.run (ModularOp.execRegistry parts) (s, .none)).2.1.Accounted [] := fun hp =>
    (run_keeps (I := fun u : Registered P => u.2.inner.pending = [] ∧ u.1.Accounted [])
      (fun _ _ ho hu => Registered.counted_exec ho hu) hp ⟨rfl, h⟩).2
  cases c with
  | write id data policy =>
      have hw := wp_run (@Pipeline.wp_writeCapsule_counted P parts id (s, .none) data policy h)
      show Store.Accounted [] ((discard (Pipeline.writeCapsule id data policy)).run
        (ModularOp.execRegistry parts) (s, .none)).2.1
      rw [run_discard]
      exact hw
  | delete id =>
      refine @hkeeps _ id _ ?_
      refine uses_bind (uses_perform.mpr (.inl trivial)) fun _ => ?_
      refine uses_bind (uses_foldlM (fun _ _ => uses_mono (fun _ ho => .inl ho)
        releases_releaseSegment) _ _) fun _ => ?_
      exact uses_discard (uses_perform.mpr (.inr rfl))
  | collect capsuleOrd contentOrd segmentOrd =>
      exact @hkeeps _ ⟨0⟩ _ (uses_discard (uses_mono (fun _ ho => .inl ho)
        releases_garbageCollect))

/-- The states of the log and the registry between methods of the modular pipeline, each over parts
of its own, after a life of the native one. -/
inductive RegistryRun (km : Option (KeyManager P)) : Store P → Prop
  | start {w : World P} (h : Life Command.Unsaturated (World.empty km) w) :
      RegistryRun km w.store
  | method {s : Store P} (parts : Parts) (c : ModularCommand) (h : RegistryRun km s) :
      RegistryRun km (c.run parts s).2

theorem RegistryRun.counted {km : Option (KeyManager P)} (h : RegistryRun km s) :
    s.Accounted [] := by
  induction h with
  | @start w h =>
      have htidy := WritePipeline.tidy_of_life h
      obtain ⟨keys, g, -, hI⟩ := life_between h
      refine ⟨fun x t ht => ?_, fun x hx => ?_⟩
      · rw [List.count_nil, Nat.add_zero]
        rcases Nat.eq_zero_or_pos (w.store.occurrences x) with h0 | hpos
        · rw [h0]
          exact Nat.zero_le _
        · obtain ⟨t', ht', hle⟩ := htidy.covered x hpos
          rw [ht, Option.some.injEq] at ht'
          exact ht' ▸ hle
      · obtain ⟨t, ht, -⟩ := htidy.covered x hx
        exact (hI.keyed x t ht).2
  | method parts c _ ih => exact c.counted ih

/-! ### The calls -/

/-- The calls that read a segment, which has no other reference, and delete it. -/
def Segment.removing (segment : Segment) (x : SegmentId) : List ModularOp :=
  .metadata x :: .delete x ::
    segment.contentHash.elim [] fun hash => [.deregisterContent hash x]

/-- A call that takes a segment, an entry or a capsule away. -/
def ModularOp.TakesAway : ModularOp → Prop
  | .delete _ => True
  | .deregisterContent _ _ => True
  | .deleteCapsule _ => True
  | _ => False

/-- These are calls for this segment; it goes before its entry. -/
theorem Segment.mem_take_removing {segment : Segment} {j : Nat} {o : ModularOp}
    (ho : o ∈ (segment.removing x).take j) : o = .metadata x ∨ o = .delete x ∨
      ∃ hash, o = .deregisterContent hash x ∧ .delete x ∈ (segment.removing x).take j := by
  rcases j with _ | _ | j
  · exact absurd ho List.not_mem_nil
  · exact .inl (List.mem_singleton.mp ho)
  · rcases List.mem_cons.mp ho with rfl | ho
    · exact .inl rfl
    rcases List.mem_cons.mp ho with rfl | ho
    · exact .inr (.inl rfl)
    cases hc : segment.contentHash with
    | none =>
        rw [hc] at ho
        exact absurd (List.mem_of_mem_take ho) List.not_mem_nil
    | some hash =>
        rw [hc] at ho
        exact .inr (.inr ⟨hash, List.mem_singleton.mp (List.mem_of_mem_take ho),
          List.mem_cons_of_mem _ List.mem_cons_self⟩)

namespace Store

/-- The calls for a list of segments, after those in `gone`, and the last one.  They stop at a
segment that is not there and at one that has another reference. -/
def removeCalls (s : Store P) (id : CapsuleId) : List SegmentId → List SegmentId → List ModularOp
  | _, [] => [.deleteCapsule id]
  | gone, x :: rest =>
    match if x ∈ gone then none else s.seg x with
    | none => [.metadata x]
    | some segment =>
      if 1 < segment.refCount then
        [.metadata x, .beginTxn,
          .setSegmentMetadata x (segment.withRefCount (segment.refCount - 1)), .dropTxn]
      else segment.removing x ++ s.removeCalls id (x :: gone) rest

/-- The calls of a modular delete. -/
def modularDeleteCalls (s : Store P) (id : CapsuleId) : List ModularOp :=
  .lookupCapsule id :: (s.cap id).elim [] fun capsule => s.removeCalls id [] capsule.segments

/-- They stop, and take nothing away, or they delete the segment, which has no other reference, and
go on. -/
theorem removeCalls_cons (s : Store P) (id : CapsuleId) (gone rest : List SegmentId)
    (x : SegmentId) : (∀ o ∈ s.removeCalls id gone (x :: rest), ¬ o.TakesAway) ∨
      ∃ segment, s.seg x = some segment ∧ segment.refCount ≤ 1 ∧
        s.removeCalls id gone (x :: rest) =
          segment.removing x ++ s.removeCalls id (x :: gone) rest := by
  rw [removeCalls]
  split
  · refine .inl fun o ho => ?_
    cases List.mem_singleton.mp ho
    exact fun k => k
  · next segment hseg =>
      have hx : s.seg x = some segment := by
        split at hseg
        · cases hseg
        · exact hseg
      split
      · refine .inl fun o ho => ?_
        simp only [List.mem_cons, List.not_mem_nil, or_false] at ho
        rcases ho with rfl | rfl | rfl | rfl <;> exact fun k => k
      · next hone => exact .inr ⟨segment, hx, Nat.le_of_not_lt hone, rfl⟩

/-- A segment goes before its entry. -/
theorem delete_of_deregister (s : Store P) (id : CapsuleId) {hash : ContentHash} {y : SegmentId} :
    ∀ (l gone : List SegmentId) (j : Nat),
      .deregisterContent hash y ∈ (s.removeCalls id gone l).take j →
        .delete y ∈ (s.removeCalls id gone l).take j
  | [], _, _, h => by cases List.mem_singleton.mp (List.mem_of_mem_take h)
  | x :: rest, gone, j, h => by
      rcases s.removeCalls_cons id gone rest x with hnone | ⟨segment, -, -, e⟩
      · exact absurd trivial (hnone _ (List.mem_of_mem_take h))
      rw [e, List.take_append] at h ⊢
      rcases List.mem_append.mp h with h | h
      · rcases Segment.mem_take_removing h with k | k | ⟨hash', k, hmem⟩
        · cases k
        · cases k
        · cases k
          exact List.mem_append_left _ hmem
      · exact List.mem_append_right _ (delete_of_deregister s id rest (x :: gone) _ h)

/-- The capsule goes last. -/
theorem length_le_of_deleteCapsule (s : Store P) (id : CapsuleId) :
    ∀ (l gone : List SegmentId) (j : Nat),
      .deleteCapsule id ∈ (s.removeCalls id gone l).take j → (s.removeCalls id gone l).length ≤ j
  | [], _, 0, h => absurd h List.not_mem_nil
  | [], _, _ + 1, _ => Nat.succ_pos _
  | x :: rest, gone, j, h => by
      rcases s.removeCalls_cons id gone rest x with hnone | ⟨segment, -, -, e⟩
      · exact absurd trivial (hnone _ (List.mem_of_mem_take h))
      rw [e, List.take_append] at h
      rcases List.mem_append.mp h with h | h
      · rcases Segment.mem_take_removing h with k | k | ⟨hash', k, -⟩ <;> cases k
      · have hlen := length_le_of_deleteCapsule s id rest (x :: gone) _ h
        have hpos : 0 < (s.removeCalls id (x :: gone) rest).length :=
          List.length_pos_of_mem (List.mem_of_mem_take h)
        rw [e, List.length_append]
        omega

/-- A segment that goes is listed, and has no other reference. -/
theorem single_of_delete (s : Store P) (id : CapsuleId) {y : SegmentId} :
    ∀ l gone : List SegmentId, .delete y ∈ s.removeCalls id gone l →
      y ∈ l ∧ ∃ segment, s.seg y = some segment ∧ segment.refCount ≤ 1
  | [], _, h => by cases List.mem_singleton.mp h
  | x :: rest, gone, h => by
      rcases s.removeCalls_cons id gone rest x with hnone | ⟨segment, hx, hone, e⟩
      · exact absurd trivial (hnone _ h)
      rw [e] at h
      rcases List.mem_append.mp h with h | h
      · rw [← List.take_length (l := segment.removing x)] at h
        rcases Segment.mem_take_removing h with k | k | ⟨hash', k, -⟩
        · cases k
        · cases k
          exact ⟨List.mem_cons_self, segment, hx, hone⟩
        · cases k
      · obtain ⟨hmem, hrest⟩ := single_of_delete s id rest (x :: gone) h
        exact ⟨List.mem_cons_of_mem _ hmem, hrest⟩

/-- What is called is a matter of the segments and of the capsule. -/
theorem removeCalls_congr {s' : Store P} (hseg : s'.seg = s.seg) (id : CapsuleId) :
    ∀ l gone : List SegmentId, s'.removeCalls id gone l = s.removeCalls id gone l
  | [], _ => rfl
  | x :: rest, gone => by
      rw [removeCalls, removeCalls, hseg, removeCalls_congr hseg id rest (x :: gone)]

end Store

/-! ### The delete -/

/-- Between any two calls of a delete, whatever it found: what was deleted has gone, and nothing
else has changed. -/
structure Cleared (s : Store P) (id : CapsuleId) (H : List ModularOp) (u : Registered P) :
    Prop where
  file : u.1.nvram.file = s.nvram.file
  seg : ∀ x t, u.1.seg x = some t ↔ s.seg x = some t ∧ .delete x ∉ H
  content : ∀ hash x, u.1.content hash = some x ↔
    s.content hash = some x ∧ .deregisterContent hash x ∉ H
  capsules : .deleteCapsule id ∉ H → u.1.registry.capsules = s.registry.capsules
  erased : .deleteCapsule id ∈ H → u.1.registry.capsules = s.registry.capsules.erase id

namespace Cleared

theorem start (s : Store P) (id : CapsuleId) (t : NvramStorageTransaction) :
    Cleared s id [] (s, t) :=
  ⟨rfl, fun _ _ => (and_iff_left List.not_mem_nil).symm,
    fun _ _ => (and_iff_left List.not_mem_nil).symm, fun _ => rfl,
    fun h => absurd h List.not_mem_nil⟩

/-- Only the file, the segments and the registry matter. -/
theorem same (h : Cleared s id H u) (hfile : v.1.nvram.file = u.1.nvram.file)
    (hseg : v.1.nvram.segmentMap = u.1.nvram.segmentMap) (hreg : v.1.registry = u.1.registry) :
    Cleared s id H v := by
  refine ⟨hfile.trans h.file, fun x t => ?_, fun hash x => ?_, fun k => by rw [hreg, h.capsules k],
    fun k => by rw [hreg, h.erased k]⟩
  · rw [← h.seg x, Store.seg, Store.seg, hseg]
  · rw [← h.content hash x, Store.content, Store.content, hreg]

/-- Of the calls, those that take something away matter. -/
theorem after {H' : List ModularOp} (h : Cleared s id H u)
    (hdelete : ∀ x, .delete x ∈ H' ↔ .delete x ∈ H)
    (hentry : ∀ hash x, .deregisterContent hash x ∈ H' ↔ .deregisterContent hash x ∈ H)
    (hcap : .deleteCapsule id ∈ H' ↔ .deleteCapsule id ∈ H) : Cleared s id H' u :=
  ⟨h.file, fun x t => by rw [hdelete, h.seg], fun hash x => by rw [hentry, h.content],
    fun k => h.capsules fun k' => k (hcap.mpr k'), fun k => h.erased (hcap.mp k)⟩

theorem mem_snoc {o o' : ModularOp} (hne : o' ≠ o) : o' ∈ H ++ [o] ↔ o' ∈ H := by
  rw [List.mem_append, List.mem_singleton]
  exact or_iff_left hne

/-- A call that takes nothing away. -/
theorem call (h : Cleared s id H u) {o : ModularOp} (ho : ∀ x, o ≠ .delete x)
    (ho' : ∀ hash x, o ≠ .deregisterContent hash x) (ho'' : o ≠ .deleteCapsule id)
    (hfile : v.1.nvram.file = u.1.nvram.file)
    (hseg : v.1.nvram.segmentMap = u.1.nvram.segmentMap) (hreg : v.1.registry = u.1.registry) :
    Cleared s id (H ++ [o]) v :=
  (h.same hfile hseg hreg).after (fun x => mem_snoc (ho x).symm)
    (fun hash x => mem_snoc (ho' hash x).symm) (mem_snoc ho''.symm)

/-- **A segment goes.** -/
theorem delete (parts : Parts) (h : Cleared s id H u) (x : SegmentId) :
    Cleared s id (H ++ [.delete x]) (ModularOp.execRegistry parts (.delete x) u).2 := by
  have hseg : ∀ y t, (u.1.nvram.removeSegment x).2.segmentMap.lookup y = some t ↔
      y ≠ x ∧ u.1.seg y = some t := fun _ _ => NvramLog.removeSegment_lookup_eq_some
  refine ⟨(NvramLog.removeSegment_file _ x).trans h.file, fun y t => (hseg y t).trans ?_,
    fun hash y => ?_, fun k => h.capsules fun k' => k (List.mem_append_left _ k'),
    fun k => h.erased ?_⟩
  · rw [h.seg, List.mem_append, List.mem_singleton]
    constructor
    · rintro ⟨hne, ht, hn⟩
      refine ⟨ht, ?_⟩
      rintro (k | k)
      · exact hn k
      · cases k
        exact hne rfl
    · rintro ⟨ht, hn⟩
      exact ⟨fun e => hn (.inr (e ▸ rfl)), ht, fun k => hn (.inl k)⟩
  · rw [mem_snoc fun k => by cases k]
    exact h.content hash y
  · exact (mem_snoc fun k => by cases k).mp k

/-- **An entry goes.** -/
theorem deregister (parts : Parts) (h : Cleared s id H u) (hash : ContentHash) (x : SegmentId) :
    Cleared s id (H ++ [.deregisterContent hash x])
      (ModularOp.execRegistry parts (.deregisterContent hash x) u).2 := by
  have hcaps := u.1.registry.deregisterContent_capsules hash x
  refine ⟨h.file, fun y t => ?_, fun hash' y => ?_, fun k => hcaps.trans (h.capsules fun k' =>
    k (List.mem_append_left _ k')), fun k => hcaps.trans (h.erased ?_)⟩
  · rw [mem_snoc fun k => by cases k]
    exact h.seg y t
  · show (u.1.registry.deregisterContent hash x).2.contentStore.lookup hash' = some y ↔ _
    rw [WritePipeline.content_deregister (s := u.1), h.content, List.mem_append,
      List.mem_singleton, not_or, and_assoc]
    refine and_congr_right fun _ => and_congr_right fun _ => not_congr ⟨?_, fun k => ?_⟩
    · rintro ⟨rfl, rfl⟩
      rfl
    · cases k
      exact ⟨rfl, rfl⟩
  · exact (mem_snoc fun k => by cases k).mp k

/-- **The capsule goes.** -/
theorem deleteCapsule (parts : Parts) (h : Cleared s id H u) :
    Cleared s id (H ++ [.deleteCapsule id])
      (ModularOp.execRegistry parts (.deleteCapsule id) u).2 := by
  refine ⟨h.file, fun y t => ?_, fun hash' y => ?_,
    fun k => absurd (List.mem_append_right _ List.mem_cons_self) k,
    fun _ => (u.1.registry.deleteCapsule_capsules id).trans ?_⟩
  · rw [mem_snoc fun k => by cases k]
    exact h.seg y t
  · rw [mem_snoc (fun k => by cases k), ← h.content]
    show (u.1.registry.deleteCapsule id).2.contentStore.lookup hash' = some y ↔ _
    rw [CapsuleRegistry.deleteCapsule_contentStore]
    rfl
  · by_cases k : ModularOp.deleteCapsule id ∈ H
    · rw [h.erased k, Table.erase_of_lookup_none]
      exact (Table.lookup_erase _ _ _).trans (if_pos rfl)
    · rw [h.capsules k]

/-- What is called says what is there. -/
theorem alike (hu : Cleared s id H u) (hv : Cleared s id H v) : u.1.Alike v.1 := by
  refine ⟨hv.file.trans hu.file.symm, fun x => Option.ext fun t => ?_,
    fun hash => Option.ext fun x => (hv.content hash x).trans (hu.content hash x).symm, ?_⟩
  · exact (hv.seg x t).trans (hu.seg x t).symm
  · by_cases k : ModularOp.deleteCapsule id ∈ H
    · rw [hv.erased k, hu.erased k]
    · rw [hv.capsules k, hu.capsules k]

/-- A segment that was not deleted is the same to a reader. -/
theorem reads (h : Cleared s id H u) (hx : .delete x ∉ H) (t : NvramStorageTransaction) :
    Registered.shelf.Alike (s, t) x u := by
  have hseg : u.1.nvram.segmentMap.lookup x = s.nvram.segmentMap.lookup x :=
    Option.ext fun t => (h.seg x t).trans (and_iff_left hx)
  refine ⟨congrArg (Except.map _) ?_, ?_⟩
  · show u.1.nvram.getSegmentMetadata x = s.nvram.getSegmentMetadata x
    rw [NvramLog.getSegmentMetadata, NvramLog.getSegmentMetadata, hseg]
  · show u.1.nvram.read x = s.nvram.read x
    rw [NvramLog.read, NvramLog.read, hseg, h.file]

/-- One that was deleted has no metadata. -/
theorem gone (h : Cleared s id H u) (hx : .delete x ∈ H) :
    ∃ e, Registered.shelf.info x u = .error e := by
  have hnone : u.1.nvram.segmentMap.lookup x = none :=
    Option.eq_none_iff_forall_ne_some.mpr fun t ht => ((h.seg x t).mp ht).2 hx
  refine ⟨.msg ("Segment not found: " ++ x.debug), ?_⟩
  show u.1.nvram.getSegmentMetadata x = _
  rw [NvramLog.getSegmentMetadata, hnone]

end Cleared

namespace Pipeline
open Space.Modular

/-- **The delete, between any two of its calls**, from where nothing has been taken away. -/
theorem wp_deleteCapsule_cleared (parts : Parts) (h : Cleared s id [] u) :
    (deleteCapsule id).wp (ModularOp.execRegistry parts).traced.moves
      (fun _ v => Cleared s id v.2 v.1)
      (fun _ v => v.2 = s.modularDeleteCalls id ∧ Cleared s id v.2 v.1) (u, []) := by
  have hcaps : u.1.registry.capsules = s.registry.capsules := h.capsules List.not_mem_nil
  have h₁ : Cleared s id [.lookupCapsule id] u :=
    h.call (fun _ k => by cases k) (fun _ _ k => by cases k) (fun k => by cases k) rfl rfl rfl
  refine wp_bind.mpr (wp_tracedOp (S := ModularSig) (.lookupCapsule id) h ?_)
  show andThen _ _ _ _ (u.1.registry.lookup id) (u, [ModularOp.lookupCapsule id])
  rw [CapsuleRegistry.lookup, hcaps]
  cases hc : s.registry.capsules.lookup id with
  | none =>
      refine andThen_error.mpr ⟨?_, h₁⟩
      rw [Store.modularDeleteCalls, show s.cap id = none from hc]
      rfl
  | some c =>
  refine andThen_ok.mpr ?_
  refine wp_bind.mpr (wp_foldlM (fun rest _ v => Cleared s id v.2 v.1 ∧
    ∃ gone : List SegmentId, (∀ y, v.1.1.seg y = if y ∈ gone then none else s.seg y) ∧
      v.2 ++ s.removeCalls id gone rest = s.modularDeleteCalls id)
    ?_ ?_ _ _ _ ⟨h₁, [], fun y => ?_, ?_⟩)
  · rintro x rest - ⟨v, H⟩ ⟨h, gone, hseg, hcalls⟩
    have h₂ : Cleared s id (H ++ [.metadata x]) v :=
      h.call (fun _ k => by cases k) (fun _ _ k => by cases k) (fun k => by cases k) rfl rfl rfl
    refine wp_bind.mpr (wp_tracedOp (S := ModularSig) (.metadata x) h ?_)
    show andThen _ _ _ _ (v.1.nvram.getSegmentMetadata x) (v, H ++ [ModularOp.metadata x])
    rw [NvramLog.getSegmentMetadata]
    have hx : v.1.nvram.segmentMap.lookup x = if x ∈ gone then none else s.seg x := hseg x
    rw [Store.removeCalls, ← hx] at hcalls
    cases hl : v.1.nvram.segmentMap.lookup x with
    | none =>
        rw [hl] at hcalls
        exact andThen_error.mpr ⟨hcalls, h₂⟩
    | some segment =>
    rw [hl] at hcalls
    refine andThen_ok.mpr ?_
    dsimp only at hcalls
    show Prog.wp _ _ _ (if 1 < segment.refCount then _ else _) _
    split
    · next hmore =>
        -- the transaction has not staged the segment
        rw [if_pos hmore] at hcalls
        set m := segment.withRefCount (segment.refCount - 1) with hm
        have hb : Cleared s id (H ++ [.metadata x] ++ [.beginTxn])
            (v.1, ⟨v.1.nvram.beginTransaction, []⟩) :=
          h₂.call (fun _ k => by cases k) (fun _ _ k => by cases k) (fun k => by cases k)
            rfl rfl rfl
        have hset : Cleared s id (H ++ [.metadata x] ++ [.beginTxn] ++ [.setSegmentMetadata x m])
            (v.1, ⟨v.1.nvram.beginTransaction, []⟩) :=
          hb.call (fun _ k => by cases k) (fun _ _ k => by cases k) (fun k => by cases k)
            rfl rfl rfl
        refine wp_bind.mpr (wp_tracedOp (S := ModularSig) .beginTxn h₂ ?_)
        refine wp_onError (wp_bind.mpr ?_)
        refine wp_tracedOp (S := ModularSig) (.setSegmentMetadata x m) hb ?_
        refine wp_tracedOp (S := ModularSig) (J := fun _ v => Cleared s id v.2 v.1) .dropTxn hset ?_
        refine ⟨?_, hset.call (fun _ k => by cases k) (fun _ _ k => by cases k)
          (fun k => by cases k) rfl rfl rfl⟩
        rw [← hcalls]
        simp only [List.append_assoc, List.cons_append, List.nil_append]
    · next hone =>
        rw [if_neg hone] at hcalls
        have hdel : Cleared s id (H ++ [.metadata x] ++ [.delete x])
            (ModularOp.execRegistry parts (.delete x) v).2 := h₂.delete parts x
        have hgone : ∀ y, (ModularOp.execRegistry parts (.delete x) v).2.1.seg y =
            if y ∈ x :: gone then none else s.seg y := by
          intro y
          refine Option.ext fun t => ?_
          have hy : v.1.seg y = some t ↔ (if y ∈ gone then none else s.seg y) = some t := by
            rw [hseg]
          rw [hdel.seg, List.mem_append, not_or, ← and_assoc, ← h₂.seg, hy, List.mem_singleton]
          by_cases hyx : y = x
          · rw [hyx, if_pos List.mem_cons_self]
            exact iff_of_false (fun k => k.2 rfl) fun k => by cases k
          · have hmem : y ∈ x :: gone ↔ y ∈ gone := by
              rw [List.mem_cons, or_iff_right hyx]
            rw [if_congr hmem rfl rfl]
            exact and_iff_left fun k => hyx (by injection k)
        refine wp_bind.mpr (wp_tracedOp (S := ModularSig) (.delete x) h₂ ?_)
        refine andThen_ok.mpr ?_
        rw [Segment.removing] at hcalls
        cases hh : segment.contentHash with
        | none =>
            rw [hh] at hcalls
            refine ⟨hdel, x :: gone, hgone, ?_⟩
            rw [← hcalls]
            simp only [List.append_assoc, List.cons_append, List.nil_append]
            rfl
        | some hash =>
            rw [hh] at hcalls
            refine wp_discard.mpr ?_
            refine wp_tracedOp (S := ModularSig) (.deregisterContent hash x) hdel ?_
            refine ⟨hdel.deregister parts hash x, x :: gone, hgone, ?_⟩
            rw [← hcalls]
            simp only [List.append_assoc, List.cons_append, List.nil_append]
            rfl
  · rintro - ⟨v, H⟩ ⟨h, gone, -, hcalls⟩
    refine wp_discard.mpr (wp_tracedOp (S := ModularSig) (.deleteCapsule id) h ?_)
    exact ⟨hcalls, h.deleteCapsule parts⟩
  · refine Option.ext fun t => ?_
    rw [if_neg List.not_mem_nil]
    exact (h.seg y t).trans (and_iff_left List.not_mem_nil)
  · rw [Store.modularDeleteCalls, show s.cap id = some c from hc]
    rfl

/-! ### The delete that fails -/

variable {c : Capsule}

/-- A delete from where nothing has been taken away. -/
theorem deleteCapsule_cleared (parts : Parts) (h : Cleared s id [] u) :
    Cleared s id (s.modularDeleteCalls id)
      ((deleteCapsule id).run (ModularOp.execRegistry parts) u).2 ∧
    (deleteCapsule id).trace (ModularOp.execRegistry parts) u = s.modularDeleteCalls id := by
  obtain ⟨hcalls, hend⟩ := wp_trace (wp_deleteCapsule_cleared parts h)
  have hcalls : (deleteCapsule id).trace (ModularOp.execRegistry parts) u =
      s.modularDeleteCalls id := hcalls
  rw [List.nil_append, hcalls] at hend
  exact ⟨hend, hcalls⟩

/-- What the first calls of a delete say, where the capsule is there. -/
theorem modularDeleteCalls_take (hc : s.cap id = some c) (j : Nat) :
    (∀ hash x, .deregisterContent hash x ∈ (s.modularDeleteCalls id).take j →
      .delete x ∈ (s.modularDeleteCalls id).take j) ∧
    (.deleteCapsule id ∈ (s.modularDeleteCalls id).take j →
      (s.modularDeleteCalls id).length ≤ j) ∧
    ∀ x, .delete x ∈ (s.modularDeleteCalls id).take j →
      x ∈ c.segments ∧ ∃ segment, s.seg x = some segment ∧ segment.refCount ≤ 1 := by
  have hcalls : s.modularDeleteCalls id = .lookupCapsule id :: s.removeCalls id [] c.segments := by
    rw [Store.modularDeleteCalls, hc]
    rfl
  rw [hcalls]
  cases j with
  | zero => exact ⟨fun _ _ k => absurd k List.not_mem_nil, fun k => absurd k List.not_mem_nil,
      fun _ k => absurd k List.not_mem_nil⟩
  | succ j =>
      have htail : ∀ {o : ModularOp}, o ≠ .lookupCapsule id →
          (o ∈ .lookupCapsule id :: (s.removeCalls id [] c.segments).take j ↔
            o ∈ (s.removeCalls id [] c.segments).take j) := fun hne =>
        List.mem_cons.trans (or_iff_right hne)
      rw [List.take_succ_cons]
      refine ⟨fun hash x k => ?_, fun k => ?_, fun x k => ?_⟩
      · exact List.mem_cons_of_mem _
          (s.delete_of_deregister id _ _ j ((htail fun k => by cases k).mp k))
      · exact Nat.succ_le_succ
          (s.length_le_of_deleteCapsule id _ _ j ((htail fun k => by cases k).mp k))
      · exact s.single_of_delete id _ _ (List.mem_of_mem_take ((htail fun k => by cases k).mp k))

/-- **The other capsules** list none of the segments that went. -/
theorem kept_registry (hs : s.Accounted []) (hc : s.cap id = some c) {t : NvramStorageTransaction}
    (h : Cleared s id H u) (hH : ∀ x, .delete x ∈ H →
      x ∈ c.segments ∧ ∃ segment, s.seg x = some segment ∧ segment.refCount ≤ 1) :
    (registryDeletes P parts).Kept id (s, t) u := by
  intro id' hne hsome
  obtain ⟨c', hc'⟩ := Option.isSome_iff_exists.mp hsome
  have hc' : s.cap id' = some c' := hc'
  have hu : u.1.cap id' = some c' := by
    rw [Store.cap]
    by_cases k : ModularOp.deleteCapsule id ∈ H
    · rw [h.erased k, Table.lookup_erase, if_neg hne]
      exact hc'
    · rw [h.capsules k]
      exact hc'
  refine ⟨Option.isSome_of_eq_some hu, ?_⟩
  show u.readCapsule parts id' = Registered.readCapsule parts id' (s, t)
  have hlookup : ∀ {v : Registered P}, v.1.cap id' = some c' →
      Registered.shelf.capsule id' v = .ok c' := fun {v} hv => by
    have hv : v.1.registry.capsules.lookup id' = some c' := hv
    show v.1.registry.lookup id' = _
    rw [CapsuleRegistry.lookup, hv]
  rw [Registered.readCapsule_eq, Registered.readCapsule_eq]
  refine Shelf.readCapsule_congr ((hlookup hu).trans (hlookup (v := (s, t)) hc').symm)
    fun c₁ hc₁ x hx => ?_
  obtain rfl := Except.ok.inj ((hlookup (v := (s, t)) hc').symm.trans hc₁)
  -- a segment that went is listed by the capsule that goes, once, and by no other
  have hnot : .delete x ∉ H := by
    intro k
    obtain ⟨hmem, segment, hx', hone⟩ := hH x k
    have hcount := hs.counted x segment hx'
    rw [List.count_nil, Nat.add_zero] at hcount
    have hrest : (s.registry.capsules.erase id).lookup id' = some c' := by
      rw [Table.lookup_erase, if_neg hne]
      exact hc'
    have hle := Table.le_total (fun c : Capsule => c.segments.count x) hrest
    have hall := Table.total_erase (fun c : Capsule => c.segments.count x)
      (show s.registry.capsules.lookup id = some c from hc)
    have h₁ : 0 < c.segments.count x := List.count_pos_iff.mpr hmem
    have h₂ : 0 < c'.segments.count x := List.count_pos_iff.mpr hx
    rw [Store.occurrences, hall] at hcount
    omega
  exact h.reads hnot t

/-- A capsule that is not there is not deleted. -/
theorem delete_absent_registry (hu : u.1.cap id = none) :
    ((deleteCapsule id).run (ModularOp.execRegistry parts) u).2 = u := by
  have hu : u.1.registry.capsules.lookup id = none := hu
  have hlookup : (Modular.lookupCapsule id).run (ModularOp.execRegistry parts) u =
      (u.1.registry.lookup id, u) := run_perform (S := ModularSig) _ _ u
  rw [deleteCapsule, run_bind, hlookup, CapsuleRegistry.lookup, hu]

/-- **What can be made up for** came to its end, or deleted no segment. -/
theorem of_repairable_registry (hc : s.cap id = some c) {t : NvramStorageTransaction} {j : Nat}
    (h : Cleared s id ((s.modularDeleteCalls id).take j) u)
    (hr : AllOrRepairable (registryDeletes P parts) id (s, t) u) :
    .deleteCapsule id ∈ (s.modularDeleteCalls id).take j ∨
      (∃ data, Registered.readCapsule parts id (s, t) = .ok data) ∧
        ∀ x, .delete x ∉ (s.modularDeleteCalls id).take j := by
  by_cases hlast : ModularOp.deleteCapsule id ∈ (s.modularDeleteCalls id).take j
  · exact .inl hlast
  have hu : u.1.registry.capsules.lookup id = some c := by
    rw [h.capsules hlast]
    exact hc
  rcases hr.settled with ⟨data, hread, hread'⟩ | ⟨hgone, -⟩
  · refine .inr ⟨⟨data, hread⟩, fun x hx => ?_⟩
    have hread' : u.readCapsule parts id = .ok data := hread'
    rw [Registered.readCapsule_eq] at hread'
    obtain ⟨e, he⟩ := h.gone hx
    refine Shelf.readCapsule_gone ?_ he ((modularDeleteCalls_take hc j).2.2 x hx).1 data hread'
    show u.1.registry.lookup id = _
    rw [CapsuleRegistry.lookup, hu]
  · exact absurd (Option.isSome_of_eq_some hu) hgone

/-- **A delete that came to its end, or deleted no segment**, can be tried again. -/
theorem retryable_of_registry (hs : s.Accounted []) (hc : s.cap id = some c)
    {t : NvramStorageTransaction} {j : Nat}
    (h : Cleared s id ((s.modularDeleteCalls id).take j) u)
    (hcond : .deleteCapsule id ∈ (s.modularDeleteCalls id).take j ∨
      (∃ data, Registered.readCapsule parts id (s, t) = .ok data) ∧
        ∀ x, .delete x ∉ (s.modularDeleteCalls id).take j) :
    AllOrRetryable (registryDeletes P parts) id (s, t) u := by
  obtain ⟨hentry, hlast, hdel⟩ := modularDeleteCalls_take hc j
  have hkept : (registryDeletes P parts).Kept id (s, t) u := kept_registry hs hc h hdel
  have hfull := (deleteCapsule_cleared parts (Cleared.start s id t)).1
  by_cases hend : ModularOp.deleteCapsule id ∈ (s.modularDeleteCalls id).take j
  · -- nothing is left to do
    have hgone : u.1.cap id = none := by
      rw [Store.cap, h.erased hend, Table.lookup_erase, if_pos rfl]
    have hagain : (registryDeletes P parts).delete id u = u := delete_absent_registry hgone
    refine ⟨.inr ?_, .inl ⟨?_, hagain.symm ▸ hkept⟩, hkept⟩
    · show ¬ (u.1.cap id).isSome
      rw [hgone]
      exact Bool.false_ne_true
    · rw [hagain]
      rw [List.take_of_length_le (hlast hend)] at h
      exact hfull.alike h
  · -- nothing was done
    obtain ⟨⟨data, hread⟩, hnone⟩ := hcond.resolve_left hend
    have hu : Cleared s id [] u := h.after (fun x => iff_of_false List.not_mem_nil (hnone x))
      (fun hash x => iff_of_false List.not_mem_nil fun k => hnone x (hentry hash x k))
      (iff_of_false List.not_mem_nil hend)
    have hagain := (deleteCapsule_cleared parts hu).1
    have hall := modularDeleteCalls_take (s := s) hc (s.modularDeleteCalls id).length
    rw [List.take_length] at hall
    refine ⟨.inl ⟨data, hread, ?_⟩, .inl ⟨hfull.alike hagain,
      kept_registry hs hc hagain hall.2.2⟩, hkept⟩
    have hread : Registered.readCapsule parts id (s, t) = .ok data := hread
    show u.readCapsule parts id = .ok data
    rw [← hread, Registered.readCapsule_eq, Registered.readCapsule_eq]
    have hcaps : u.1.registry.capsules = s.registry.capsules := hu.capsules List.not_mem_nil
    refine Shelf.readCapsule_congr ?_ fun c₁ _ x _ => hu.reads List.not_mem_nil t
    show u.1.registry.lookup id = s.registry.lookup id
    rw [CapsuleRegistry.lookup, CapsuleRegistry.lookup, hcaps]

/-- **A delete that fails**, by itself or because a call fails, stops where that call was made. -/
theorem deleteCapsule_stops_registry (parts : Parts) (id : CapsuleId) (s : Store P)
    (t : NvramStorageTransaction) (f : Failure Error) {r : Except Error Unit}
    {v : Registered P × Nat}
    (hr : (deleteCapsule id).run ((ModularOp.execRegistry parts).failing f) ((s, t), 0) = (r, v)) :
    Cleared s id ((s.modularDeleteCalls id).take f.made) v.1 := by
  have hstart := Cleared.start s id t
  obtain ⟨hfull, hcalls⟩ := deleteCapsule_cleared parts hstart
  by_cases hn : f.index < (s.modularDeleteCalls id).length
  · rw [← hcalls] at hn
    have hdrop : ∀ (o : ModularOp) (v : Registered P), o = .dropTxn →
        (fun v : Registered P => (v.1.nvram.file, v.1.nvram.segmentMap, v.1.registry))
          (o.execRegistry parts v).2 = (v.1.nvram.file, v.1.nvram.segmentMap, v.1.registry) := by
      rintro o v rfl
      show ((v.2.inner.rollback v.1.nvram).2.file, (v.2.inner.rollback v.1.nvram).2.segmentMap,
        v.1.registry) = _
      rw [NvramTransaction.rollback]
      split <;> rfl
    obtain ⟨e', -, hstate⟩ := run_failing (h := ModularOp.execRegistry parts)
      (g := fun v : Registered P => (v.1.nvram.file, v.1.nvram.segmentMap, v.1.registry)) (m := 0)
      (n := f.index) hdrop (givesUp_deleteCapsule id) (Nat.zero_add _).symm hn
    rw [hr] at hstate
    obtain ⟨hfile, hrest⟩ := Prod.mk.inj hstate
    obtain ⟨hseg, hreg⟩ := Prod.mk.inj hrest
    refine Cleared.same ?_ hfile hseg hreg
    rw [← hcalls]
    rcases Nat.lt_or_ge f.made
      ((deleteCapsule id).trace (ModularOp.execRegistry parts) (s, t)).length with hlt | hge
    · exact wp_after (I := fun H v => Cleared s id H v) (wp_deleteCapsule_cleared parts hstart) hlt
    · rw [List.take_of_length_le hge, hcalls]
      have hafter := after_of_length_le (h := ModularOp.execRegistry parts) hge
      exact hafter.symm ▸ hfull
  · -- the failure is not reached
    have hrun := run_failing_unreached (h := ModularOp.execRegistry parts) (f := f)
      (p := deleteCapsule id) (s := (s, t)) (m := 0)
      (by rw [Nat.zero_add, hcalls]; exact Nat.le_of_not_lt hn)
    rw [hr] at hrun
    have hv : v.1 = ((deleteCapsule id).run (ModularOp.execRegistry parts) (s, t)).2 :=
      congrArg (fun r => r.2.1) hrun
    have hle : (s.modularDeleteCalls id).length ≤ f.made :=
      (Nat.le_of_not_lt hn).trans (Nat.le_add_right _ _)
    rw [hv, List.take_of_length_le hle]
    exact hfull

end Pipeline

end Space

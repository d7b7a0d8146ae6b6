import Space.Native.Shared
import Space.Support.Implementation
import Space.Views.SharedStore

/-!
# Views — Pipeline

The pipeline as the views see it: a store of immutable capsules.  Any number of clients write, read
and delete capsules and sweep the log, each by the programs of the native pipeline; every operation
of the registry and of the log is a step of its own, and the steps of the clients come in any
order.

* `SharedStore.stepped`: what one operation of a call does to the store of capsules.
* `SharedStore.settles`: what a call says in the end is what it has seen.
* `pipeline_refines_store`: what the clients see is a run in which every call is one step of a store
  of capsules.
-/

namespace Space
open Support Prog

variable {P : Primitives} {U : Set Bytes} {keys : Option (UInt32 → XtsKeyPair)} {tight : Prop}

/-! ### The calls -/

/-- What a pipeline is called for. -/
inductive PipelineOp where
  | write (id : CapsuleId) (data : Bytes) (policy : Policy)
  | read (id : CapsuleId)
  | delete (id : CapsuleId)
  | collect (ord : Order Segment)

namespace PipelineOp

def Res : PipelineOp → Type
  | write _ _ _ => CapsuleId
  | read _ => Bytes
  | delete _ => Unit
  | collect _ => Nat

/-- The data of a write. -/
def data : PipelineOp → Bytes
  | write _ data _ => data
  | _ => []

/-- Every view a write hashes is in `U`. -/
def HashesIn (P : Primitives) (U : Set Bytes) : PipelineOp → Prop
  | write _ data policy => ∀ chunk ∈ chunks SEGMENT_SIZE data, ∀ view r,
      compressSegment P chunk policy.compression = .ok (view, r) → view ∈ U
  | _ => True

/-- The same, without deletes unless reference counts are tight. -/
def Admitted (P : Primitives) (U : Set Bytes) (tight : Prop) : PipelineOp → Prop
  | delete _ => tight
  | c => c.HashesIn P U

/-- How the native pipeline does it. -/
def native (P : Primitives) : (c : PipelineOp) → Native c.Res
  | write id data policy => WritePipeline.writeCapsuleWithPolicy P id data policy
  | read id => WritePipeline.readCapsule P id
  | delete id => WritePipeline.deleteCapsule id
  | collect ord => WritePipeline.garbageCollect ord

end PipelineOp

abbrev PipelineSig : Signature := ⟨PipelineOp, PipelineOp.Res⟩
/-- A store of capsules, each call one step.  A write may fail, and then there is no capsule. -/
def CapsuleStore.Does (P : Primitives) : Moves PipelineSig Error CapsuleStore
  | .write id data policy, a, r, a' =>
    r = .ok id ∧ id ∉ a.used ∧ a' = a.write id (policy.readsBack P data) ∨
      (∃ e, r = .error e) ∧ a' = a
  | .read id, a, r, a' =>
    ((∃ data, a.capsules.lookup id = some data ∧ r = .ok data) ∨
      a.capsules.lookup id = none ∧ ∃ e, r = .error e) ∧ a' = a
  | .delete id, a, r, a' =>
    (∃ data, a.capsules.lookup id = some data) ∧ r = .ok () ∧ a' = a.delete id ∨
      (a.capsules.lookup id = none ∧ ∃ e, r = .error e) ∧ a' = a
  | .collect _, a, _, a' => a' = a

namespace SharedStore
variable {s s' : SharedStore P} {a : CapsuleStore} {g f : Owned} {o : StoreOp}
  {r : Except Error o.Res} {data : Bytes}

/-! ### What a call is told -/

/-- How a call that is no read comes forward. -/
def track : (c : PipelineOp) → Moves StoreSig Error (Progress (Except Error c.Res))
  | .write id _ _, .createCapsuleWithSegments _ _ _ _, _, r, φ' =>
    r = .ok () ∧ φ' = .done (.ok id)
  | .delete _, .deleteCapsule _, φ, r, φ' =>
    (∃ c, r = .ok c) ∧ φ' = .done (.ok ()) ∨ ∃ e, r = .error e ∧ φ' = φ.see (.error e)
  | _, _, φ, _, φ' => φ' = φ

/-- It changes the capsule it is for, once. -/
def mayTrack : (c : PipelineOp) → StoreOp → Progress (Except Error c.Res) → Prop
  | .write id _ policy, .createCapsuleWithSegments id' _ _ policy', φ =>
    id' = id ∧ policy' = policy ∧ φ = .waiting ∅
  | .delete id, .deleteCapsule id', φ => id' = id ∧ φ = .waiting ∅
  | _, o, _ => o.Keeps

/-- What the operations tell a reader, by what it knows. -/
def reading (P : Primitives) (keys : Option (UInt32 → XtsKeyPair)) (id : CapsuleId) :
    Moves StoreSig Error (Progress (Except Error Bytes) × Owned)
  | .lookup _, x, r, x' =>
    (∃ e, r = .error e ∧ x'.1 = x.1.see (.error e)) ∨
    ∃ (c : Capsule) (infos : List Info) (chs : List Bytes), r = .ok c ∧
      x'.1 = x.1.see (.ok chs.flatten) ∧ List.Forall₂ (ReadsAs P keys c.policy) chs infos ∧
      List.Forall₂ (fun y i => .knows y i ∈ x'.2.1) c.segments infos ∧ (id, c.segments) ∈ x'.2.2
  | .read y, x, r, x' => (∃ e, r = .error e ∧ x'.1 = x.1.see (.error e)) ∨
    (∀ i, .knows y i ∈ x.2.1 → r = .ok i.payload) ∧ x' = x
  | .getSegmentMetadata y, x, r, x' => (∃ e, r = .error e ∧ x'.1 = x.1.see (.error e)) ∨
    (∃ segment, r = .ok segment ∧ ∀ i, .knows y i ∈ x.2.1 → segment.form = i.form) ∧ x' = x
  | .getKey v, x, r, x' => (∀ K v', keys = some K → v = some v' → r = .ok (K v')) ∧ x' = x
  | _, x, _, x' => x' = x

/-- It reads the segments of its capsule that it knows. -/
def mayRead (id : CapsuleId) : StoreOp → Progress (Except Error Bytes) × Owned → Prop
  | .lookup id', _ => id' = id
  | .read y, x => (∃ i, .knows y i ∈ x.2.1) ∧ ∃ segments, (id, segments) ∈ x.2.2 ∧ y ∈ segments
  | .getSegmentMetadata y, x =>
    (∃ i, .knows y i ∈ x.2.1) ∧ ∃ segments, (id, segments) ∈ x.2.2 ∧ y ∈ segments
  | .getKey _, _ => True
  | _, _ => False

/-- What a call may come to do. -/
def may (P : Primitives) (U : Set Bytes) (keys : Option (UInt32 → XtsKeyPair)) (tight : Prop) :
    (c : PipelineOp) → StoreOp → Progress (Except Error c.Res) × Owned → Prop
  | .read id, o, x => mayRead id o x
  | c, o, x => Token.may (.shared P U keys tight) c.data o x.2.1 ∧ mayTrack c o x.1

/-- What the operations tell a call. -/
noncomputable def moves (P : Primitives) (U : Set Bytes) (keys : Option (UInt32 → XtsKeyPair))
    (tight : Prop) : (c : PipelineOp) → Moves StoreSig Error (Progress (Except Error c.Res) × Owned)
  | .read id => reading P keys id
  | c => fun o x r x' =>
    Token.moves (.shared P U keys tight) o x.2.1 r x'.2.1 ∧ track c o x.1 r x'.1

/-- An operation that changes no capsule brings no call forward. -/
theorem track_of_keeps {c : PipelineOp} {φ φ' : Progress (Except Error c.Res)} (ho : o.Keeps) :
    track c o φ r φ' ↔ φ' = φ := by
  cases o with
  | createCapsuleWithSegments => exact absurd trivial ho
  | deleteCapsule => exact absurd trivial ho
  | _ => cases c <;> exact Iff.rfl

theorem mayTrack_of_keeps {c : PipelineOp} {φ : Progress (Except Error c.Res)} (ho : o.Keeps) :
    mayTrack c o φ := by
  cases o with
  | createCapsuleWithSegments => exact absurd trivial ho
  | deleteCapsule => exact absurd trivial ho
  | _ => cases c <;> exact ho

/-! ### One operation of any call -/

/-- What one operation does to the simulation. -/
def Stepped (P : Primitives) (U : Set Bytes) (keys : Option (UInt32 → XtsKeyPair)) (tight : Prop)
    (c : PipelineOp) (o : StoreOp) (s : SharedStore P) (a : CapsuleStore)
    (φ : Progress (Except Error c.Res)) (g f : Owned) : Prop :=
  ∀ r s', Counts tight o s r s' → ∃ φ' g' a', moves P U keys tight c o (φ, g) r (φ', g') ∧
    Progress.Advances (CapsuleStore.Does P c) a φ a' φ' ∧ Inv P U keys tight s' a' (g' + f)

/-- Reading changes nothing. -/
theorem Does.same (h : Does o s r s') (he : (o.exec s.store).2 = s.store) (hk : o.Keeps) :
    (o.exec s.store).1 = r ∧ s' = s := by
  obtain ⟨hexec, hused, -⟩ := h
  rw [hk.creates, List.nil_append] at hused
  obtain ⟨store', used'⟩ := s'
  obtain rfl : s.store = store' := he.symm.trans (congrArg Prod.snd hexec)
  obtain rfl : used' = s.used := hused
  exact ⟨congrArg Prod.fst hexec, rfl⟩

theorem stepped_read {id : CapsuleId} {φ : Progress (Except Error Bytes)}
    (h : Inv P U keys tight s a (g + f)) (hm : mayRead id o (φ, g)) :
    Stepped P U keys tight (.read id) o s a φ g f := by
  have hmem {y : SegmentId} {i : Info} (hi : .knows y i ∈ g.1) : .knows y i ∈ (g + f).1 :=
    Multiset.mem_add.mpr (.inl hi)
  -- a segment that is gone lets the reader observe that the capsule is
  have hgone {y : SegmentId} {segments : List SegmentId} {e : Error} (hs : (id, segments) ∈ g.2)
      (hy : y ∈ segments) (hnone : s.store.seg y = none) :
      Progress.Advances (CapsuleStore.Does P (.read id)) a φ a (φ.see (.error e)) :=
    Progress.advances_see ⟨.inr ⟨h.absent (Multiset.mem_add.mpr (.inl hs)) hy hnone, e, rfl⟩, rfl⟩ φ
  intro r s' hr
  cases o with
  | lookup id' =>
      obtain rfl : id' = id := hm
      obtain ⟨hres, rfl⟩ := hr.1.same rfl not_false
      rcases h.lookup id' with
        ⟨e, he, hnone⟩ | ⟨c, infos, chs, g', hc, hlook, hreads, hknows, hsaw, hI⟩
      · exact ⟨_, g, a, .inl ⟨e, hres.symm.trans he, rfl⟩,
          Progress.advances_see ⟨.inr ⟨hnone, e, rfl⟩, rfl⟩ φ, h⟩
      · exact ⟨_, g', a, .inr ⟨c, infos, chs, hres.symm.trans hc, rfl, hreads, hknows, hsaw⟩,
          Progress.advances_see ⟨.inl ⟨_, hlook, rfl⟩, rfl⟩ φ, hI⟩
  | read y =>
      obtain ⟨⟨i, hi⟩, segments, hs, hy⟩ := hm
      obtain ⟨hres, rfl⟩ := hr.1.same rfl not_false
      rcases h.segment (hmem hi) with ⟨hnone, ⟨e, he⟩, -⟩ | ⟨-, segment, hseg, -⟩
      · exact ⟨_, g, a, .inl ⟨e, hres.symm.trans he, rfl⟩, hgone hs hy hnone, h⟩
      · refine ⟨φ, g, a, .inr ⟨fun i' hi' => hres.symm.trans ?_, rfl⟩, .stays a φ, h⟩
        rcases h.segment (hmem hi') with ⟨-, -, ⟨e, he⟩⟩ | ⟨hread, -⟩
        · exact absurd (hseg.symm.trans he) nofun
        · exact hread
  | getSegmentMetadata y =>
      obtain ⟨⟨i, hi⟩, segments, hs, hy⟩ := hm
      obtain ⟨hres, rfl⟩ := hr.1.same rfl not_false
      rcases h.segment (hmem hi) with ⟨hnone, -, ⟨e, he⟩⟩ | ⟨-, segment, hseg, -⟩
      · exact ⟨_, g, a, .inl ⟨e, hres.symm.trans he, rfl⟩, hgone hs hy hnone, h⟩
      · refine ⟨φ, g, a, .inr ⟨⟨segment, hres.symm.trans hseg, fun i' hi' => ?_⟩, rfl⟩,
          .stays a φ, h⟩
        rcases h.segment (hmem hi') with ⟨-, -, ⟨e, he⟩⟩ | ⟨-, segment', hseg', hform⟩
        · exact absurd (hseg.symm.trans he) nofun
        · cases hseg.symm.trans hseg'
          exact hform
  | getKey v =>
      obtain ⟨g', hmoves, hI⟩ := @Inv.keeps P U keys tight s s' a g f (.getKey v) r [] h not_false
        trivial hr
      obtain rfl : g' = g.1 := hmoves
      refine ⟨φ, g, a, ⟨fun K v' hK hv => ?_, rfl⟩, .stays a φ, hI⟩
      subst hv
      exact (congrArg Prod.fst hr.1.1).symm.trans (h.getKey hK)
  | _ => exact hm.elim

theorem stepped_change {c : PipelineOp} {φ : Progress (Except Error c.Res)}
    (h : Inv P U keys tight s a (g + f)) (hm : Token.may (.shared P U keys tight) c.data o g.1)
    (ht : mayTrack c o φ) (hr : Counts tight o s r s') :
    ∃ φ' g' a', (Token.moves (.shared P U keys tight) o g.1 r g'.1 ∧ track c o φ r φ') ∧
      Progress.Advances (CapsuleStore.Does P c) a φ a' φ' ∧ Inv P U keys tight s' a' (g' + f) := by
  by_cases ho : o.Keeps
  · obtain ⟨g', hmoves, hI⟩ := h.keeps ho hm hr
    exact ⟨φ, (g', g.2), a, ⟨hmoves, (track_of_keeps ho).mpr rfl⟩, .stays a φ, hI⟩
  cases o with
  | createCapsuleWithSegments id size segments policy =>
      cases c with
      | write id' data policy' =>
          obtain ⟨rfl, rfl, rfl⟩ := ht
          obtain ⟨rfl, hnew, g', hmoves, hI⟩ := h.create hm hr
          exact ⟨_, (g', g.2), _, ⟨hmoves, rfl, rfl⟩, .commits (.inl ⟨rfl, hnew, rfl⟩), hI⟩
      | _ => exact absurd ht ho
  | deleteCapsule id =>
      cases c with
      | delete id' =>
          obtain ⟨rfl, rfl⟩ := ht
          obtain ⟨g', hmoves, ⟨hlive, hok, hI⟩ | ⟨hnone, ⟨e, rfl⟩, hI⟩⟩ := h.delete hm hr
          · exact ⟨_, (g', g.2), _, ⟨hmoves, .inl ⟨hok, rfl⟩⟩,
              .commits (.inl ⟨hlive, rfl, rfl⟩), hI⟩
          · exact ⟨_, (g', g.2), a, ⟨hmoves, .inr ⟨e, rfl, rfl⟩⟩,
              .observes (.inr ⟨⟨hnone, e, rfl⟩, rfl⟩), hI⟩
      | _ => exact absurd ht ho
  | _ => exact absurd not_false ho

/-- **One operation of any call.** -/
theorem stepped {c : PipelineOp} {φ : Progress (Except Error c.Res)}
    (h : Inv P U keys tight s a (g + f)) (hm : may P U keys tight c o (φ, g)) :
    Stepped P U keys tight c o s a φ g f := by
  intro r s' hr
  cases c with
  | read id => exact stepped_read h hm r s' hr
  | write => exact stepped_change h hm.1 hm.2 hr
  | delete => exact stepped_change h hm.1 hm.2 hr
  | collect => exact stepped_change h hm.1 hm.2 hr

/-! ### The calls -/

/-- What changes no capsule brings no call forward. -/
theorem wp_keeps {α : Type} {c : PipelineOp} {φ : Progress (Except Error c.Res)} {p : Native α}
    (hp : p.Uses StoreOp.Keeps) : p.wp (track c) (mayTrack c) (fun _ φ' => φ' = φ) φ := by
  induction p with
  | ret b => rfl
  | fail e => rfl
  | call o k ih =>
      refine ⟨mayTrack_of_keeps hp.1, fun r φ' hr => ?_⟩
      rw [(track_of_keeps hp.1).mp hr]
      exact ih r (hp.2 r)

/-- One operation, by what it tells a call that is no read. -/
theorem wp_track {c : PipelineOp} {φ : Progress (Except Error c.Res)} (o : StoreOp)
    {Q : Except Error o.Res → Progress (Except Error c.Res) → Prop} (hm : mayTrack c o φ)
    (h : ∀ r φ', track c o φ r φ' → Q r φ') :
    (perform (S := StoreSig) o : Native o.Res).wp (track c) (mayTrack c) Q φ :=
  wp_perform.mpr ⟨hm, h⟩

/-- The end of a call. -/
def Ends (P : Primitives) (c : PipelineOp) (r : Except Error c.Res)
    (x : Progress (Except Error c.Res) × Owned) : Prop := x.1.Ends (CapsuleStore.Does P c) r

theorem settles_write {id : CapsuleId} {policy : Policy} (hx : P.XtsInverse)
    (hU : P.NoCollision U) (hin : (PipelineOp.write id data policy).HashesIn P U) :
    (WritePipeline.writeCapsuleWithPolicy P id data policy).wp
      (moves P U keys tight (.write id data policy)) (may P U keys tight (.write id data policy))
      (Ends P (.write id data policy)) (.waiting ∅, 0) := by
  set c := PipelineOp.write id data policy with hc
  have hfail (e : Error) : (Progress.waiting ∅).Ends (CapsuleStore.Does P c) (.error e) :=
    .inr fun a => .inr ⟨⟨e, rfl⟩, rfl⟩
  have htrack : (WritePipeline.writeCapsuleWithPolicy P id data policy).wp (track c) (mayTrack c)
      (fun r φ => φ.Ends (CapsuleStore.Does P c) r) (.waiting ∅) := by
    unfold WritePipeline.writeCapsuleWithPolicy
    refine wp_bind.mpr (wp_mono (wp_keeps (uses_foldlM (fun _ _ => uses_writeChunk) _ _)) ?_)
    rintro (e | st) φ rfl
    · exact hfail e
    have hrest : (do
        (Native.createCapsuleWithSegments id data.length st.segmentIds policy).mapError
          (mapRegistryError "create_capsule_with_segments")
        return id : Native CapsuleId).wp (track c) (mayTrack c)
          (fun r φ => φ.Ends (CapsuleStore.Does P c) r) (.waiting ∅) := by
      refine wp_bind.mpr (wp_mapError.mpr (wp_track
        (.createCapsuleWithSegments id data.length st.segmentIds policy) ⟨rfl, rfl, rfl⟩ ?_))
      rintro r φ ⟨rfl, rfl⟩
      exact rfl
    refine andThen_ok.mpr ?_
    split
    · refine wp_bind.mpr (wp_mono (wp_keeps (uses_mapError.mpr (uses_op not_false))) ?_)
      rintro (e | u) φ rfl
      · exact hfail e
      · exact hrest
    · exact hrest
  have htoken := @WritePipeline.wp_writeCapsule P (.shared P U keys tight) policy data 0 id _
    (fun _ _ => True) (accepts_shared hx hU hin) (fun τ hτ => absurd hτ (Multiset.notMem_zero τ))
    (fun _ _ _ => trivial) fun _ _ _ => trivial
  exact wp_mono (wp_both (fun x : Progress (Except Error CapsuleId) × Owned => x.2.1) Prod.fst
    htoken htrack) fun r x hr => hr.2

/-- After its capsule is gone a delete does not fail: it owns the references it gives back. -/
theorem settles_delete {id : CapsuleId} (ht : tight) : (WritePipeline.deleteCapsule id).wp
    (moves P U keys tight (.delete id)) (may P U keys tight (.delete id)) (Ends P (.delete id))
    (.waiting ∅, 0) := by
  have hop : ∀ {Q : Except Error Capsule → Progress (Except Error Unit) × Owned → Prop},
      (∀ r x, moves P U keys tight (.delete id) (.deleteCapsule id) (.waiting ∅, 0) r x → Q r x) →
      (Native.registryDeleteCapsule id).wp (moves P U keys tight (.delete id))
        (may P U keys tight (.delete id)) Q (.waiting ∅, 0) := fun h =>
    (wp_perform (S := StoreSig) (o := .deleteCapsule id)).mpr
      ⟨⟨fun k => False.elim k, rfl, rfl⟩, h⟩
  refine wp_bind.mpr (hop ?_)
  rintro r ⟨φ, g, seen⟩ ⟨hmoves, ⟨⟨c, rfl⟩, rfl⟩ | ⟨e, rfl, rfl⟩⟩
  · have hg : g = (c.segments.map Token.ref : Multiset Token) + 0 := by
      rcases hmoves with ⟨c', e, rfl⟩ | ⟨e, he, -⟩
      · cases e
        rfl
      · cases he
    have htrack : (c.segments.foldlM (fun _ x => WritePipeline.releaseSegment x) ()).wp
        (track (.delete id)) (mayTrack (.delete id)) (fun _ φ => φ = .done (.ok ()))
        (.done (.ok ())) :=
      wp_keeps (uses_foldlM (fun _ _ => uses_releaseSegment not_false (fun _ => not_false)
        not_false) _ _)
    have htoken : (c.segments.foldlM (fun _ x => WritePipeline.releaseSegment x) ()).wp
        (Token.moves (.shared P U keys tight)) (Token.may (.shared P U keys tight) [])
        (fun r _ => r = .ok ()) g := by
      refine wp_foldlM (fun rest _ g => g = (rest.map Token.ref : Multiset Token) + 0)
        ?_ ?_ _ _ _ hg
      · rintro x rest - g rfl
        rw [List.map_cons, ← Multiset.cons_coe, Multiset.cons_add]
        exact WritePipeline.wp_releaseSegment ht (by simp) rfl
      · rintro - g -
        rfl
    refine wp_mono (wp_both (fun x : Progress (Except Error Unit) × Owned => x.2.1) Prod.fst
      htoken htrack) ?_
    rintro r ⟨φ, g⟩ ⟨rfl, rfl⟩
    exact rfl
  · exact .inl (Set.mem_insert _ _)

theorem settles_collect {ord : Order Segment} : (WritePipeline.garbageCollect ord).wp
    (moves P U keys tight (.collect ord)) (may P U keys tight (.collect ord))
    (Ends P (.collect ord)) (.waiting ∅, 0) := by
  have htrack : (WritePipeline.garbageCollect ord).wp (track (.collect ord))
      (mayTrack (.collect ord)) (fun _ φ => φ = .waiting ∅) (.waiting ∅) :=
    wp_keeps (uses_sweep (fun _ => not_false) (fun _ _ => not_false) (fun _ => not_false) ord)
  have htoken : (WritePipeline.garbageCollect ord).wp (Token.moves (.shared P U keys tight))
      (Token.may (.shared P U keys tight) []) (fun _ _ => True) 0 :=
    GarbageCollector.wp_sweep (by simp) (fun _ => trivial) fun _ _ => trivial
  refine wp_mono (wp_both (fun x : Progress (Except Error Nat) × Owned => x.2.1) Prod.fst
    htoken htrack) ?_
  rintro r ⟨φ, g⟩ ⟨-, rfl⟩
  exact .inr fun _ => rfl

/-! ### Reading -/

section
variable {id : CapsuleId} {policy : Policy} {φ : Progress (Except Error Bytes)}

/-- One operation, by what it tells a reader. -/
theorem wp_reading (o : StoreOp)
    {Q : Except Error o.Res → Progress (Except Error Bytes) × Owned → Prop}
    (hm : mayRead id o (φ, g)) (h : ∀ r x, reading P keys id o (φ, g) r x → Q r x) :
    (perform (S := StoreSig) o : Native o.Res).wp (reading P keys id) (mayRead id) Q (φ, g) :=
  wp_perform.mpr ⟨hm, h⟩

/-- A segment that is known reads as its chunk, or its capsule is gone. -/
theorem wp_readSegment {x : SegmentId} {i : Info} {chunk : Bytes} {segments : List SegmentId}
    {Q : Except Error Bytes → Progress (Except Error Bytes) × Owned → Prop}
    (hi : .knows x i ∈ g.1) (hs : (id, segments) ∈ g.2) (hx : x ∈ segments)
    (hread : ReadsAs P keys policy chunk i) (hok : Q (.ok chunk) (φ, g))
    (herr : ∀ e y, y.1 = φ.see (.error e) → Q (.error e) y) :
    (WritePipeline.readSegment P policy x).wp (reading P keys id) (mayRead id) Q (φ, g) := by
  obtain ⟨view, hview, rfl⟩ := hread
  have hmay : (∃ i, .knows x i ∈ g.1) ∧ ∃ segments, (id, segments) ∈ g.2 ∧ x ∈ segments :=
    ⟨⟨i, hi⟩, segments, hs, hx⟩
  unfold WritePipeline.readSegment
  refine wp_bind.mpr (wp_reading (.read x) hmay ?_)
  rintro r y (⟨e, rfl, hy⟩ | ⟨hr, rfl⟩)
  · exact herr e y hy
  obtain rfl : r = .ok i.payload := hr i hi
  refine wp_bind.mpr (wp_reading (.getSegmentMetadata x) hmay ?_)
  rintro r y (⟨e, rfl, hy⟩ | ⟨⟨segment, rfl, hform⟩, rfl⟩)
  · exact herr e y hy
  have hform : segment.form = i.form := hform i hi
  refine andThen_ok.mpr ?_
  rcases hview with ⟨he, rfl⟩ | ⟨he, K, v, hK, hv, hmac, hdec⟩
  · rw [← hform] at he
    rw [if_neg (by simp [show segment.encrypted = false from he])]
    exact hok
  · rw [← hform] at he hv hmac hdec
    rw [if_pos (show segment.encrypted = true from he)]
    refine wp_bind.mpr (wp_reading (.getKey segment.keyVersion) trivial ?_)
    rintro r y ⟨hr, rfl⟩
    obtain rfl : r = .ok (K v) := hr K v hK hv
    refine wp_bind.mpr (wp_lift.mpr ?_)
    rw [show verifyMac P i.payload (segment.encryptionMetadata i.payload) (K v).key1 (K v).key2 =
      .ok () from hmac]
    refine wp_bind.mpr (wp_lift.mpr ?_)
    rw [show decryptSegment P i.payload (K v) (segment.encryptionMetadata i.payload) =
      .ok view from hdec]
    exact hok

/-- **A read** ends with the bytes its capsule had when it was looked up, or observes that it is
gone. -/
theorem settles_read : (WritePipeline.readCapsule P id).wp (moves P U keys tight (.read id))
    (may P U keys tight (.read id)) (Ends P (.read id)) (.waiting ∅, 0) := by
  refine wp_bind.mpr (wp_reading (.lookup id) rfl ?_)
  rintro r ⟨φ, g⟩ (⟨e, rfl, rfl⟩ | ⟨c, infos, chs, rfl, rfl, hreads, hknows, hsaw⟩)
  · exact .inl (Set.mem_insert _ _)
  refine andThen_ok.mpr ?_
  refine wp_foldlM (fun rest (acc : Bytes) (x : Progress (Except Error Bytes) × Owned) =>
    x = (.waiting {.ok chs.flatten}, g) ∧ (∀ y ∈ rest, y ∈ c.segments) ∧ ∃ infos rest',
      List.Forall₂ (fun y i => .knows y i ∈ g.1) rest infos ∧
      List.Forall₂ (ReadsAs P keys c.policy) rest' infos ∧ acc ++ rest'.flatten = chs.flatten)
    ?_ ?_ _ _ _ ⟨?_, fun _ hy => hy, infos, chs, hknows, hreads, List.nil_append _⟩
  · rintro y rest acc x ⟨rfl, hrest, _, _, hknows, hreads, hacc⟩
    obtain ⟨i, infos, hi, hinfos, rfl⟩ := List.forall₂_cons_left_iff.mp hknows
    obtain ⟨chunk, rest', hread, hreads', rfl⟩ := List.forall₂_cons_right_iff.mp hreads
    refine wp_bind.mpr (wp_readSegment hi hsaw (hrest y List.mem_cons_self) hread ?_ ?_)
    · refine ⟨rfl, fun z hz => hrest z (List.mem_cons_of_mem y hz), _, rest', hinfos, hreads', ?_⟩
      rw [← hacc, List.flatten_cons, List.append_assoc]
    · rintro e ⟨φ, g'⟩ rfl
      exact .inl (Set.mem_insert _ _)
  · rintro acc x ⟨rfl, -, _, rest', hknows, hreads, hacc⟩
    cases hknows
    cases hreads
    rw [List.flatten_nil, List.append_nil] at hacc
    exact .inl (congrArg Except.ok hacc)
  · exact congrArg (fun φ => (φ, g)) (Progress.see_first _)

end

theorem settles {c : PipelineOp} (hx : P.XtsInverse) (hU : P.NoCollision U)
    (hin : c.Admitted P U tight) :
    (c.native P).wp (moves P U keys tight c) (may P U keys tight c) (Ends P c) (.waiting ∅, 0) := by
  cases c with
  | write id data policy => exact settles_write hx hU hin
  | read id => exact settles_read
  | delete id => exact settles_delete hin
  | collect ord => exact settles_collect

/-- The native pipeline, against the store of capsules its clients believe in. -/
noncomputable def implements (keys : Option (UInt32 → XtsKeyPair)) (tight : Prop)
    (hx : P.XtsInverse) (hU : P.NoCollision U) :
    Implements StoreSig PipelineSig Error (SharedStore P) CapsuleStore Owned where
  impl := PipelineOp.native P
  exec := Counts tight
  object := CapsuleStore.Does P
  admits := PipelineOp.Admitted P U tight
  may := may P U keys tight
  moves := moves P U keys tight
  Inv := Inv P U keys tight
  step := fun _ h hm hr => stepped h hm _ _ hr
  drop := Inv.drop
  settles := fun _ hin => settles hx hU hin

end SharedStore

/-! ### The theorem -/

/-- **The pipeline is a store of capsules**: whatever programs its clients run side by side, what
they see is a run in which each write, read, delete and sweep is one step, and the pipeline holds
the capsules of that store. -/
theorem pipeline_refines_store {ι C R : Type} {km : Option (KeyManager P)}
    {program : C → Prog PipelineSig Error R} {t : List (Event ι C R Error)} {s : SharedStore P}
    {l : List (ι × C × Native R)} (hx : P.XtsInverse) (hU : P.NoCollision U)
    (hin : ∀ i c, .invoke i c ∈ t → (program c).Uses (PipelineOp.HashesIn P U))
    (h : ClientRun (fun c => (program c).subst (PipelineOp.native P)) (SharedStore.Counts True)
      ⟨.empty km, []⟩ t s l) :
    ∃ a m, ClientRun program (CapsuleStore.Does P) .empty t a m ∧
      m.map (fun x => (x.1, x.2.1)) = l.map (fun x => (x.1, x.2.1)) ∧ a.used = s.used ∧
      s.store.Carries a := by
  have hadmitted : ∀ o, PipelineOp.HashesIn P U o → o.Admitted P U True := by
    intro o ho
    cases o with
    | delete => trivial
    | _ => exact ho
  obtain ⟨a, m, g, hrun, hI, hopen⟩ :=
    (SharedStore.implements (km.map KeyManager.derive) True hx hU).refines (.empty km)
      (fun i c hc => uses_mono hadmitted (hin i c hc)) h
  exact ⟨a, m, hrun, hopen, hI.used, hI.carries⟩

/-! ### A run -/

namespace SharedStore

/-- The operations, as a function. -/
def exec : Handler StoreSig Error (SharedStore P) := fun o s =>
  ((o.exec s.store).1, ⟨(o.exec s.store).2, o.creates ++ s.used⟩)

/-- The test of a schedule. -/
def isAllowed (o : StoreOp) (s : SharedStore P) : Bool :=
  decide (∀ id ∈ o.creates, id ∉ s.used) && o.addsToLive ⟨s.store, .empty⟩

theorem counts_of_isAllowed (o : StoreOp) (s : SharedStore P) (h : isAllowed o s = true) :
    Counts True o s (exec o s).1 (exec o s).2 := by
  obtain ⟨hnew, hlive⟩ := Bool.and_eq_true_iff.mp h
  have hadds := o.addsToLive_of_test _ hlive
  refine ⟨⟨rfl, rfl, of_decide_eq_true hnew⟩, ?_⟩
  cases o with
  | incrementRefcount x => exact fun t ht => ⟨(hadds t ht).1, fun _ => (hadds t ht).2⟩
  | _ => trivial

end SharedStore

/-- One call, and the bytes it answers. -/
def PipelineOp.client : PipelineOp → Prog PipelineSig Error Bytes
  | read id => perform (S := PipelineSig) (.read id)
  | c => discard (perform (S := PipelineSig) c) >>= fun _ => .ret []

/-- Client 0 writes a capsule.  Clients 1 and 3 look it up; client 2 takes it out of the registry;
client 1 reads its segment; client 2 goes on and removes it; client 3 comes too late. -/
def sampleTurns : List (Turn Nat PipelineOp) :=
  .invoke 0 (.write ⟨0⟩ unframed {}) :: List.replicate 7 (.next 0) ++
    [.invoke 1 (.read ⟨0⟩), .next 0, .invoke 3 (.read ⟨0⟩), .next 0, .invoke 2 (.delete ⟨0⟩),
      .next 0, .next 2, .next 2, .next 2] ++ List.replicate 6 (.next 0)

/-- The read that has the segment in time succeeds, and the late one fails. -/
theorem pipeline_refines_store_sample :
    ∃ s t l, ClientRun (fun c => (PipelineOp.client c).subst (PipelineOp.native .stored))
        (SharedStore.Counts True) ⟨.empty (P := .stored) none, []⟩ t s l ∧
      answersOf t = [(0, []), (1, unframed), (2, [])] ∧
      ∃ a m, ClientRun PipelineOp.client (CapsuleStore.Does .stored) .empty t a m ∧
        m.map (fun x => (x.1, x.2.1)) = l.map (fun x => (x.1, x.2.1)) ∧ a.used = s.used ∧
        s.store.Carries a := by
  have hs : (clientSchedule (fun c => (PipelineOp.client c).subst (PipelineOp.native .stored))
      SharedStore.exec SharedStore.isAllowed (⟨.empty none, []⟩ : SharedStore .stored)
      sampleTurns).map (fun x => answersOf x.1) = some [(0, []), (1, unframed), (2, [])] := by
    decide +kernel
  obtain ⟨x, hx, e⟩ := Option.map_eq_some_iff.mp hs
  have hrun := clientRun_of_clientSchedule SharedStore.counts_of_isAllowed hx
  refine ⟨_, _, _, hrun, e, pipeline_refines_store (U := {unframed}) Primitives.stored_xts
    (Set.injOn_singleton _ _) (fun i c hc => ?_) hrun⟩
  have hturn := invoke_mem_of_clientSchedule hx hc
  simp only [sampleTurns, List.mem_append, List.mem_cons, List.mem_replicate, reduceCtorEq,
    and_false, or_false, false_or, List.not_mem_nil, Turn.invoke.injEq] at hturn
  rcases hturn with (⟨-, rfl⟩ | ⟨-, rfl⟩ | ⟨-, rfl⟩ | ⟨-, rfl⟩)
  · have hraw : (Command.write ⟨0⟩ unframed {}).HashesIn .stored {unframed} :=
      hashesIn_raw (by decide) rfl
    exact uses_bind (uses_discard (uses_perform.mpr hraw)) fun _ => trivial
  · exact uses_perform.mpr trivial
  · exact uses_perform.mpr trivial
  · exact uses_bind (uses_discard (uses_perform.mpr trivial)) fun _ => trivial

end Space

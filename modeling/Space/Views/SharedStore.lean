import Space.Native.Service
import Space.Native.Sharing
import Space.Views.BlockLinear

/-!
# Views — SharedStore

The store that the clients of a pipeline share, every operation of the registry and of the log one
step, against the capsules they believe in.

* `Discipline.shared`: what every capsule says, whoever wrote its segments.
* `SharedStore.Inv`: the store, the capsules, and all that the threads own; what one operation
  makes of it.
* `SharedStore.Inv.lookup`, `segment`, `absent`: a reader knows the segments of a capsule it has
  looked up, for as long as they are there; one that is gone tells it that the capsule is.
* `SharedStore.Inv.carries`: every capsule reads as what is believed of it.

A step adds a reference only to a segment that has one, and no identifier is given to two capsules.
If counts are *tight*, none is full; otherwise nothing is deleted.
-/

namespace Space
open Support Prog

variable {P : Primitives} {U : Set Bytes} {keys : Option (UInt32 → XtsKeyPair)} {tight : Prop}

/-! ### The shared state -/

/-- The capsules are those of the registry, and each reads as its data. -/
structure Store.Carries (s : Store P) (a : CapsuleStore) : Prop where
  registered : ∀ id, (∃ data, a.capsules.lookup id = some data) ↔ ∃ c, s.cap id = some c
  reads : ∀ id data, a.capsules.lookup id = some data →
    ((WritePipeline.readCapsule P id).run StoreOp.exec s).1 = .ok data

/-- The store, and the identifiers that were given to capsules. -/
structure SharedStore (P : Primitives) where
  store : Store P
  used : List CapsuleId

/-- The identifiers an operation gives to capsules. -/
def StoreOp.creates : StoreOp → List CapsuleId
  | .createCapsuleWithSegments id _ _ _ => [id]
  | _ => []

theorem StoreOp.Keeps.creates {o : StoreOp} (h : o.Keeps) : o.creates = [] := by
  cases o with
  | createCapsuleWithSegments => exact absurd trivial h
  | _ => rfl

/-- A reference is added to a segment that has one, and room for another if counts are tight. -/
def StoreOp.AddsTo (tight : Prop) (o : StoreOp) (s : Store P) : Prop :=
  match o with
  | .incrementRefcount x =>
    ∀ segment, s.seg x = some segment → segment.refCount ≠ 0 ∧ (tight → segment.refCount < u32Max)
  | _ => True

/-- One operation.  A new capsule has a new identifier. -/
def SharedStore.Does : Moves StoreSig Error (SharedStore P) := fun o s r s' =>
  o.exec s.store = (r, s'.store) ∧ s'.used = o.creates ++ s.used ∧ ∀ id ∈ o.creates, id ∉ s.used

/-- One operation that adds references as it should. -/
def SharedStore.Counts (tight : Prop) : Moves StoreSig Error (SharedStore P) := fun o s r s' =>
  Does o s r s' ∧ o.AddsTo tight s.store

/-! ### What the segments say -/

/-- Every segment unseals to a view that was hashed, and every capsule reads as its data, as far as
its policy takes it back. -/
def Discipline.shared (P : Primitives) (U : Set Bytes) (keys : Option (UInt32 → XtsKeyPair))
    (tight : Prop) : Discipline :=
  { Discipline.reading P U keys tight with solo := False }

/-- **Every write keeps it.** -/
theorem accepts_shared {policy : Policy} {data : Bytes} (hx : P.XtsInverse) (hU : P.NoCollision U)
    (hin : policy.HashesIn P U data) :
    (Discipline.shared P U keys tight).Accepts P policy data
      fun chunk i => ReadsAs P keys policy (policy.readBack P chunk) i :=
  hin.accepts hx hU (fun _ _ _ _ _ => readsAs_readBack) fun _ h => h

namespace SharedStore

/-- What a thread owns, and the segment lists it has seen. -/
abbrev Owned := Ghost × Multiset (CapsuleId × List SegmentId)

/-- What links the store, the capsules, and all that the threads own. -/
structure Inv (P : Primitives) (U : Set Bytes) (keys : Option (UInt32 → XtsKeyPair))
    (tight : Prop) (s : SharedStore P) (a : CapsuleStore) (g : Owned) : Prop where
  world : ∃ ledger left, World.Inv (.shared P U keys tight) ⟨s.store, ledger⟩ (g.1 + left) ∧
    ∀ id, a.capsules.lookup id = (⟨s.store, ledger⟩ : World P).readings id
  used : a.used = s.used
  seen : ∀ x ∈ g.2, x.1 ∈ s.used ∧ ∀ c, s.store.cap x.1 = some c → c.segments = x.2

variable {s s' : SharedStore P} {a : CapsuleStore} {g f : Owned} {o : StoreOp}
  {r : Except Error o.Res} {data : Bytes}

theorem Inv.drop (h : Inv P U keys tight s a (g + f)) : Inv P U keys tight s a f := by
  obtain ⟨ledger, left, hw, ha⟩ := h.world
  refine ⟨⟨ledger, g.1 + left, ?_, ha⟩, h.used, fun x hx => h.seen x ?_⟩
  · rwa [← add_assoc, add_comm f.1]
  · exact Multiset.mem_add.mpr (.inr hx)

/-- The operation in the world of the ledger. -/
theorem Does.world (h : Does o s r s') (data : Bytes) (ledger : Ledger) :
    World.exec data o ⟨s.store, ledger⟩ = (r, ⟨s'.store, ledger.record data o r⟩) := by
  unfold World.exec
  rw [h.1]

theorem Counts.allowed (h : Counts tight o s r s') (ledger : Ledger) :
    World.Allowed (.shared P U keys tight) o ⟨s.store, ledger⟩ := by
  obtain ⟨-, hlive⟩ := h
  cases o with
  | incrementRefcount x => exact fun t ht => ⟨(hlive t ht).2, fun _ => (hlive t ht).1⟩
  | lookupContent hash => exact fun _ _ _ _ => trivial
  | _ => trivial

/-- **One operation of any thread.** -/
theorem Inv.step (h : Inv P U keys tight s a (g + f))
    (hm : Token.may (.shared P U keys tight) data o g.1) (hr : Counts tight o s r s') :
    ∃ ledger left g', Token.moves (.shared P U keys tight) o g.1 r g' ∧
      World.Inv (.shared P U keys tight) ⟨s'.store, ledger.record data o r⟩ (g' + f.1 + left) ∧
      ∀ id, a.capsules.lookup id = (⟨s.store, ledger⟩ : World P).readings id := by
  obtain ⟨ledger, left, hw, ha⟩ := h.world
  rw [Prod.fst_add, add_assoc] at hw
  obtain ⟨g', hmoves, hI⟩ := World.step (fun k => False.elim k) hw hm (hr.allowed ledger)
  rw [hr.1.world data ledger] at hmoves hI
  exact ⟨ledger, left, g', hmoves, by rwa [add_assoc], ha⟩

/-- An operation that changes no capsule. -/
theorem Inv.keeps (h : Inv P U keys tight s a (g + f)) (ho : o.Keeps)
    (hm : Token.may (.shared P U keys tight) data o g.1) (hr : Counts tight o s r s') :
    ∃ g', Token.moves (.shared P U keys tight) o g.1 r g' ∧
      Inv P U keys tight s' a ((g', g.2) + f) := by
  obtain ⟨ledger, left, g', hmoves, hI, ha⟩ := h.step hm hr
  have hcaps := World.exec_capsules data o ⟨s.store, ledger⟩ ho
  have hproduced := World.exec_produced data o ⟨s.store, ledger⟩ ho
  rw [hr.1.world data ledger] at hcaps hproduced
  have hused : s'.used = s.used := by rw [hr.1.2.1, ho.creates, List.nil_append]
  refine ⟨g', hmoves, ⟨_, left, hI, fun id => ?_⟩, h.used.trans hused.symm, fun x hx => ?_⟩
  · rw [ha id, World.readings, World.readings, hcaps, hproduced]
  · obtain ⟨hx, hsegs⟩ := h.seen x hx
    refine ⟨hused ▸ hx, fun c hc => ?_⟩
    have hcap := congrFun hcaps x.1
    unfold World.capsules at hcap
    rw [show (⟨s'.store, ledger.record data o r⟩ : World P).cap x.1 = some c from hc] at hcap
    obtain ⟨c₀, hc₀, e⟩ := Option.map_eq_some_iff.mp hcap.symm
    have hsegments : c₀.undeduped.segments = c.undeduped.segments := by rw [e]
    exact hsegments.symm.trans (hsegs c₀ hc₀)

/-- A capsule is created. -/
theorem Inv.create {id : CapsuleId} {size : Nat} {segments : List SegmentId} {policy : Policy}
    {r : Except Error Unit} (h : Inv P U keys tight s a (g + f))
    (hm : Token.may (.shared P U keys tight) data
      (.createCapsuleWithSegments id size segments policy) g.1)
    (hr : Counts tight (.createCapsuleWithSegments id size segments policy) s r s') :
    r = .ok () ∧ id ∉ a.used ∧ ∃ g', Token.moves (.shared P U keys tight)
      (.createCapsuleWithSegments id size segments policy) g.1 r g' ∧
        Inv P U keys tight s' (a.write id (policy.readsBack P data)) ((g', g.2) + f) := by
  obtain ⟨ledger, left, g', hmoves, hI, ha⟩ := h.step hm hr
  have hid : id ∉ s.used := hr.1.2.2 id (List.mem_singleton_self id)
  have hnew : id ∉ a.used := h.used ▸ hid
  have hnone : (⟨s.store, ledger⟩ : World P).cap id = none := by
    cases hc : (⟨s.store, ledger⟩ : World P).cap id with
    | none => rfl
    | some c => exact absurd (a.capsules_used id _ ((ha id).trans (World.readings_of_cap hc))) hnew
  have hexec := (hr.1.world data ledger).symm.trans (World.exec_create hnone)
  obtain ⟨rfl, hw⟩ := Prod.mk.inj hexec
  refine ⟨rfl, hnew, g', hmoves, ⟨_, left, hI, fun id' => ?_⟩, ?_, fun x hx => ?_⟩
  · rw [hw, World.readings_created, ← ha id']
    exact Table.lookup_insert _ _ _ _
  · show id :: a.used = s'.used
    rw [h.used, hr.1.2.1]
    rfl
  · obtain ⟨hx, hsegs⟩ := h.seen x hx
    refine ⟨hr.1.2.1 ▸ List.mem_cons_of_mem id hx, fun c hc => hsegs c ?_⟩
    have hcap := World.cap_created (⟨s.store, ledger⟩ : World P) data
      ⟨id, size, segments, policy, 0⟩ x.1
    rw [← hw, if_neg fun e : x.1 = id => hid (e ▸ hx)] at hcap
    exact hcap.symm.trans hc

/-- A capsule is deleted. -/
theorem Inv.delete {id : CapsuleId} {r : Except Error Capsule} (h : Inv P U keys tight s a (g + f))
    (hm : Token.may (.shared P U keys tight) data (.deleteCapsule id) g.1)
    (hr : Counts tight (.deleteCapsule id) s r s') :
    ∃ g', Token.moves (.shared P U keys tight) (.deleteCapsule id) g.1 r g' ∧
      ((∃ data, a.capsules.lookup id = some data) ∧ (∃ c, r = .ok c) ∧
          Inv P U keys tight s' (a.delete id) ((g', g.2) + f) ∨
        a.capsules.lookup id = none ∧ (∃ e, r = .error e) ∧
          Inv P U keys tight s' a ((g', g.2) + f)) := by
  obtain ⟨ledger, left, g', hmoves, hI, ha⟩ := h.step hm hr
  have hused : s'.used = s.used := hr.1.2.1
  refine ⟨g', hmoves, ?_⟩
  cases hc : (⟨s.store, ledger⟩ : World P).cap id with
  | some c =>
      obtain ⟨rfl, hw⟩ := Prod.mk.inj ((hr.1.world data ledger).symm.trans (World.exec_delete hc))
      refine .inl ⟨⟨_, (ha id).trans (World.readings_of_cap hc)⟩, ⟨c, rfl⟩,
        ⟨_, left, hI, fun id' => ?_⟩, h.used.trans hused.symm, fun x hx => ?_⟩
      · rw [hw, World.readings_deleted, ← ha id']
        exact Table.lookup_erase _ _ _
      · obtain ⟨hx, hsegs⟩ := h.seen x hx
        refine ⟨hused ▸ hx, fun c' hc' => hsegs c' ?_⟩
        have hcap : ((⟨s.store, ledger⟩ : World P).deleted id).cap x.1 = some c' := hw ▸ hc'
        exact (World.cap_deleted_eq_some.mp hcap).2
  | none =>
      obtain ⟨e, he⟩ : ∃ e, World.exec data (.deleteCapsule id) ⟨s.store, ledger⟩ =
        (.error e, ⟨s.store, ledger⟩) := World.exec_delete_none hc
      obtain ⟨rfl, hw⟩ := Prod.mk.inj ((hr.1.world data ledger).symm.trans he)
      have hstore : s'.store = s.store := congrArg World.store hw
      refine .inr ⟨(ha id).trans (World.readings_of_none hc), ⟨e, rfl⟩,
        ⟨_, left, hI, fun id' => ?_⟩, h.used.trans hused.symm, fun x hx => ?_⟩
      · rw [hw]
        exact ha id'
      · rw [hused, hstore]
        exact h.seen x hx

/-! ### What a reader knows -/

/-- Any number of segments that are known. -/
theorem learns {D : Discipline} {w : World P} {T : Ghost} (h : World.Inv D w T)
    {xs : List SegmentId} {infos : List Info} (hk : List.Forall₂ (w.Known T) xs infos) :
    ∃ k : Ghost, k.claims = 0 ∧ World.Inv D w (k + T) ∧
      List.Forall₂ (fun x i => .knows x i ∈ k) xs infos := by
  induction hk with
  | nil => exact ⟨0, rfl, by rwa [zero_add], .nil⟩
  | @cons x i _ _ hx _ ih =>
      obtain ⟨k, hclaims, hI, hall⟩ := ih
      have hknown : w.Known (k + T) x i := by
        refine ⟨hx.lt, ?_, hx.payload, hx.form⟩
        rw [Ghost.claims_add, hclaims, zero_add]
        exact hx.free
      refine ⟨.knows x i ::ₘ k, by rw [Ghost.claims_cons, hclaims]; rfl, ?_,
        .cons (Multiset.mem_cons_self _ _) (hall.imp fun _ _ => Multiset.mem_cons_of_mem)⟩
      rw [Multiset.cons_add]
      exact hI.addToken hknown rfl (fun _ => rfl) rfl

/-- A capsule is looked up: what it reads as is known from then on, segment by segment. -/
theorem Inv.lookup (h : Inv P U keys tight s a (g + f)) (id : CapsuleId) :
    (∃ e, s.store.registry.lookup id = .error e ∧ a.capsules.lookup id = none) ∨
    ∃ (c : Capsule) (infos : List Info) (chs : List Bytes) (g' : Owned),
      s.store.registry.lookup id = .ok c ∧ a.capsules.lookup id = some chs.flatten ∧
      List.Forall₂ (ReadsAs P keys c.policy) chs infos ∧
      List.Forall₂ (fun x i => .knows x i ∈ g'.1) c.segments infos ∧
      (id, c.segments) ∈ g'.2 ∧ Inv P U keys tight s a (g' + f) := by
  obtain ⟨ledger, left, hw, ha⟩ := h.world
  cases hc : (⟨s.store, ledger⟩ : World P).cap id with
  | none =>
      refine .inl ⟨.msg "Capsule not found", ?_, (ha id).trans (World.readings_of_none hc)⟩
      unfold CapsuleRegistry.lookup
      rw [show s.store.registry.capsules.lookup id = none from hc]
  | some c =>
      have hlook := (ha id).trans (World.readings_of_cap hc)
      obtain ⟨infos, hknown, hsound, -⟩ := hw.capsules id c hc
      obtain ⟨k, -, hI, hall⟩ := learns hw hknown
      refine .inr ⟨c, infos, _, (k + g.1, (id, c.segments) ::ₘ g.2), World.lookup_of_cap hc, hlook,
        List.forall₂_map_left_iff.mpr hsound, hall.imp fun _ _ hx => Multiset.mem_add.mpr (.inl hx),
        Multiset.mem_cons_self _ _, ⟨ledger, left, ?_, ha⟩, h.used, fun x hx => ?_⟩
      · have e : ((k + g.1, (id, c.segments) ::ₘ g.2) + f : Owned).1 + left =
            k + ((g + f).1 + left) := by simp only [Prod.fst_add, add_assoc]
        rwa [e]
      · rcases Multiset.mem_cons.mp (show x ∈ (id, c.segments) ::ₘ (g.2 + f.2) from
          Multiset.cons_add _ _ _ ▸ hx) with rfl | hx
        · refine ⟨h.used ▸ a.capsules_used id _ hlook, fun c' hc' => ?_⟩
          cases hc.symm.trans hc'
          rfl
        · exact h.seen x hx

/-- A segment that is gone was the last sign of its capsule. -/
theorem Inv.absent {id : CapsuleId} {segments : List SegmentId} {x : SegmentId}
    (h : Inv P U keys tight s a g) (hid : (id, segments) ∈ g.2) (hx : x ∈ segments)
    (hnone : s.store.seg x = none) : a.capsules.lookup id = none := by
  obtain ⟨ledger, left, hw, ha⟩ := h.world
  cases hc : (⟨s.store, ledger⟩ : World P).cap id with
  | none => exact (ha id).trans (World.readings_of_none hc)
  | some c =>
      have hsegs : c.segments = segments := (h.seen _ hid).2 c hc
      obtain ⟨segment, hseg⟩ := hw.listed_seg hc (hsegs ▸ hx)
      exact absurd (hnone.symm.trans hseg) nofun

/-- A segment that is known is gone, or it is what it was. -/
theorem Inv.segment {x : SegmentId} {i : Info} (h : Inv P U keys tight s a g)
    (hi : .knows x i ∈ g.1) :
    s.store.seg x = none ∧ (∃ e, s.store.nvram.read x = .error e) ∧
        (∃ e, s.store.nvram.getSegmentMetadata x = .error e) ∨
      s.store.nvram.read x = .ok i.payload ∧
        ∃ segment, s.store.nvram.getSegmentMetadata x = .ok segment ∧ segment.form = i.form := by
  obtain ⟨ledger, left, hw, -⟩ := h.world
  have hknown : (⟨s.store, ledger⟩ : World P).Known (g.1 + left) x i :=
    hw.tokens _ (Multiset.mem_add.mpr (.inl hi))
  cases hseg : (⟨s.store, ledger⟩ : World P).seg x with
  | none =>
      have hnone : s.store.nvram.segmentMap.lookup x = none := hseg
      refine .inl ⟨hnone, ⟨.msg "Segment not found", ?_⟩,
        ⟨.msg ("Segment not found: " ++ x.debug), ?_⟩⟩
      · rw [NvramLog.read, hnone]
      · rw [NvramLog.getSegmentMetadata, hnone]
  | some segment =>
      refine .inr ⟨?_, segment, World.getSegmentMetadata_of_seg hseg, hknown.form segment hseg⟩
      rw [← hknown.payload]
      exact World.Extent.read hseg (hw.extent x segment hseg)
        (hw.legit x segment hseg hknown.free).1

/-- The key of a version. -/
theorem Inv.getKey {v : UInt32} {K : UInt32 → XtsKeyPair} (h : Inv P U keys tight s a g)
    (hK : keys = some K) : (s.store.getKey (some v)).1 = .ok (K v) := by
  obtain ⟨ledger, left, hw, -⟩ := h.world
  obtain ⟨km, hkm, rfl⟩ := Option.map_eq_some_iff.mp (hw.keys.trans hK)
  rw [Store.getKey, show s.store.keyManager = some km from hkm]
  exact congrArg Except.ok (km.getKey_fst v)

/-- What is believed of a capsule is what it reads as. -/
theorem Inv.reads {id : CapsuleId} {data : Bytes} (h : Inv P U keys tight s a g)
    (hd : a.capsules.lookup id = some data) :
    ((WritePipeline.readCapsule P id).run StoreOp.exec s.store).1 = .ok data := by
  obtain ⟨ledger, left, hw, ha⟩ := h.world
  cases hc : (⟨s.store, ledger⟩ : World P).cap id with
  | none => exact absurd (hd.symm.trans ((ha id).trans (World.readings_of_none hc))) nofun
  | some c =>
      obtain rfl := Option.some.inj (hd.symm.trans ((ha id).trans (World.readings_of_cap hc)))
      rw [← (World.run_store [] (WritePipeline.readCapsule P id) ⟨s.store, ledger⟩).1]
      exact hw.reads_back (fun _ hl => hl.1) (fun _ _ _ hs => hs) hc

/-- **The store carries the capsules** its clients believe in. -/
theorem Inv.carries (h : Inv P U keys tight s a g) : s.store.Carries a := by
  refine ⟨fun id => ?_, fun id data hd => h.reads hd⟩
  obtain ⟨ledger, left, -, ha⟩ := h.world
  rw [ha id]
  cases hc : (⟨s.store, ledger⟩ : World P).cap id with
  | none =>
      rw [World.readings_of_none hc]
      exact iff_of_false nofun fun ⟨c, k⟩ => absurd (hc.symm.trans k) nofun
  | some c => exact iff_of_true ⟨_, World.readings_of_cap hc⟩ ⟨c, hc⟩

/-- Nothing is stored, and nothing believed. -/
theorem Inv.empty (km : Option (KeyManager P)) :
    Inv P U (km.map KeyManager.derive) tight ⟨.empty km, []⟩ .empty 0 :=
  ⟨⟨.empty, 0, .empty km rfl, fun _ => rfl⟩, rfl, fun _ hx => absurd hx (Multiset.notMem_zero _)⟩

end SharedStore

end Space

import Space.Native.Audited
import Space.Security.AuditRetention
import Space.Support.Conduct
import Space.Views.SharedStore

/-!
# Views — AuditTrail

What an auditor learns of the capsules from the audit log, whatever the clients of the pipeline do:
every operation of the registry, of the log of segments and of the audit log is a step of its own,
and the steps of the clients come in any order.

* `AuditTrail.Inv`: what is reported, and what the threads still owe to the log; what one operation
  makes of it.
* `AuditTrail.Inv.store`, `AuditTrail.Inv.reports`, `AuditTrail.Inv.notes`: an operation of the
  store may leave an event owed, and a report pays it.
* `AuditTrail.Inv.step`: one operation of any call.
-/

namespace Space
open Support Prog

variable {ι : Type} {P : Primitives} {mlkem : Option MlkemKeyManager} {C : AuditCodec AuditEvent}
  {kept : Prop}

/-! ### The directory and the trail -/

/-- What is reported of a capsule when it is created. -/
structure DirectoryEntry where
  size : Nat
  segments : Nat
  policy : Policy

def Capsule.entry (c : Capsule) : DirectoryEntry := ⟨c.size, c.segments.length, c.policy⟩

/-- The capsules that are registered. -/
def SharedStore.directory (s : SharedStore P) (id : CapsuleId) : Option DirectoryEntry :=
  (s.store.cap id).map Capsule.entry

/-- A capsule is there, or it is gone. -/
inductive CapsuleChange where
  | created (id : CapsuleId)
  | deleted (id : CapsuleId)

namespace AuditEvent

def change : AuditEvent → Option CapsuleChange
  | capsuleCreated id _ _ _ => some (.created id)
  | capsuleDeleted id _ => some (.deleted id)
  | _ => none

/-- What a call reports as its last step. -/
def isFinal : AuditEvent → Bool
  | capsuleCreated _ _ _ _ => true
  | capsuleRead _ _ => true
  | capsuleDeleted _ _ => true
  | _ => false

/-- What an event says of a capsule is so, by the sizes that the capsules have had. -/
def Truthful (s : SharedStore P) (sizes : CapsuleId → Nat) : AuditEvent → Prop
  | capsuleCreated id size segments policy =>
    id ∈ s.used ∧ size = sizes id ∧ ∀ d, s.directory id = some d → d = ⟨size, segments, policy⟩
  | capsuleRead id size => id ∈ s.used ∧ size = sizes id
  | capsuleDeleted id size => id ∈ s.used ∧ size = sizes id ∧ s.directory id = none
  | _ => True

end AuditEvent

/-- The events of the records that were acknowledged, in order. -/
def AuditWorld.trail (w : AuditWorld AuditEvent) : List AuditEvent :=
  w.acknowledged.map AuditRecord.event

/-! ### The clients -/

/-- A call, and how it ended. -/
abbrev AuditedAnswer := Σ c : AuditedCall, Except Error c.Res

namespace AuditedCall

/-- What a client runs. -/
def program (P : Primitives) (mlkem : Option MlkemKeyManager) (c : AuditedCall) :
    AuditedProg AuditedAnswer := (c.audited P mlkem).attempt >>= fun r => .ret ⟨c, r⟩

/-- The same without an audit log. -/
def unaudited (P : Primitives) (mlkem : Option MlkemKeyManager) (c : AuditedCall) :
    Native AuditedAnswer := (c.native P mlkem).attempt >>= fun r => .ret ⟨c, r⟩

/-- The call tells of its end. -/
def announces : AuditedCall → Bool
  | write _ _ _ _ => true
  | read _ => true
  | delete _ => true
  | _ => false

/-- The read of a capsule. -/
def reads : AuditedCall → CapsuleId → Bool
  | read id', id => decide (id' = id)
  | _, _ => false

/-- The asynchronous write of a capsule. -/
def WritesAsync (c : AuditedCall) (id : CapsuleId) : Prop :=
  ∃ memoryLimit arrivals data policy, c = writeAsync memoryLimit arrivals id data policy

/-- The call is for a capsule that it creates or deletes. -/
def Changes (id : CapsuleId) : AuditedCall → Prop
  | write _ id' _ _ => id' = id
  | writeAsync _ _ id' _ _ => id' = id
  | delete id' => id' = id
  | _ => False

/-- The event tells of the end of the call. -/
def Announces (P : Primitives) (c : AuditedCall) (e : AuditEvent) : Prop :=
  c.Causes P e ∧ e.isFinal = true

end AuditedCall

/-- The calls of a history that have succeeded and tell of it. -/
def announcedCalls (t : List (Event ι AuditedCall AuditedAnswer Error)) : List AuditedCall :=
  (answersOf t).filterMap fun a =>
    if a.2.1.announces ∧ a.2.2.isOk then some a.2.1 else none

/-- The error of a capsule that is not there. -/
def capsuleNotFound : Error := .msg "Capsule not found"

/-- No capsule was written asynchronously under the identifier, and a delete of it that failed has
found none. -/
structure Orderly (t : List (Event ι AuditedCall AuditedAnswer Error)) (id : CapsuleId) :
    Prop where
  sync : ∀ i c, .invoke i c ∈ t → ¬ c.WritesAsync id
  deletes : ∀ i e, .answer i ⟨.delete id, .error e⟩ ∈ t → e = capsuleNotFound

theorem Orderly.before {t : List (Event ι AuditedCall AuditedAnswer Error)} {id : CapsuleId}
    {y : Event ι AuditedCall AuditedAnswer Error} (h : Orderly (t ++ [y]) id) : Orderly t id :=
  ⟨fun i c hc => h.sync i c (List.mem_append_left _ hc),
    fun i e he => h.deletes i e (List.mem_append_left _ he)⟩

/-- The shared store and the audit log. -/
abbrev AuditedStore (P : Primitives) := SharedStore P × AuditWorld AuditEvent

/-- One append.  If records are *kept*, it is acknowledged, and drops none. -/
def AuditWorld.Logs (C : AuditCodec AuditEvent) (P : Primitives) (kept : Prop) :
    Moves AuditSig Error (AuditWorld AuditEvent) := fun event w r w' =>
  r = .ok () ∧ ∃ timestamp proof, w' = w.step C P (.append event timestamp proof) ∧
    (kept → w'.acknowledged ≠ w.acknowledged ∧ LineKept C P w event timestamp proof True)

namespace AuditedStore

/-- One operation of a client. -/
def Does (C : AuditCodec AuditEvent) (P : Primitives) (kept : Prop) :
    Moves (StoreSig.sum AuditSig) Error (AuditedStore P) :=
  Moves.sum SharedStore.Does (AuditWorld.Logs C P kept)

/-- Nothing stored, and a log that was just built. -/
def start (C : AuditCodec AuditEvent) (options : AuditOptions) (km : Option (KeyManager P)) :
    AuditedStore P := (⟨.empty km, []⟩, AuditWorld.start.step C P (.restart options))

end AuditedStore

/-! ### The log -/

namespace AuditWorld
variable {w w' : AuditWorld AuditEvent} {event : AuditEvent} {r : Except Error Unit}
  {options : AuditOptions}

/-- The log was built once, and only appended to since. -/
structure Logged (C : AuditCodec AuditEvent) (P : Primitives) (kept : Prop)
    (w : AuditWorld AuditEvent) : Prop where
  audited : (∀ data, P.blake3 data ≠ zeroHash) →
    ∃ older inCurrent, AuditWorld.Audited C w older inCurrent
  held : kept → w.Durable C
  fresh : w.fresh = true → w.acknowledged = []
  interrupted : w.interrupted = []

theorem logged_start : Logged C P kept (start.step C P (.restart options)) := by
  refine ⟨fun _ => ⟨[], [], audited_start.restart⟩, fun _ => durable_start.restart, fun _ => ?_, ?_⟩
  · rw [step_restart]
    rfl
  · rw [step_restart]
    rfl

/-- What an append can do to the records. -/
theorem step_append_cases {timestamp : UInt64} {proof : Except Error TsaProof} :
    ((w.step C P (.append event timestamp proof)).acknowledged = w.acknowledged ∧
        (w.step C P (.append event timestamp proof)).fresh = w.fresh ∨
      (∃ record, record.event = event ∧
        (w.step C P (.append event timestamp proof)).acknowledged = w.acknowledged ++ [record]) ∧
        (w.step C P (.append event timestamp proof)).fresh = false) ∧
    (w.step C P (.append event timestamp proof)).interrupted = w.interrupted := by
  cases hlog : w.log with
  | none =>
      rw [step_append_closed hlog]
      exact ⟨.inl ⟨rfl, rfl⟩, rfl⟩
  | some log =>
      obtain ⟨options, state⟩ := log
      cases hs : state.stamp options proof with
      | mk result stamped =>
          cases result with
          | error e =>
              rw [step_append_refused hlog hs]
              exact ⟨.inl ⟨rfl, rfl⟩, rfl⟩
          | ok tsaProof =>
              rw [step_append hlog hs]
              exact ⟨.inr ⟨⟨_, rfl, rfl⟩, rfl⟩, rfl⟩

theorem Logged.append (h : Logged C P kept w) (hl : Logs C P kept event w r w') :
    Logged C P kept w' := by
  obtain ⟨-, timestamp, proof, rfl, hkept⟩ := hl
  obtain ⟨hcases, hinterrupted⟩ := @step_append_cases P C w event timestamp proof
  refine ⟨fun hz => ?_, fun k => (h.held k).append (hkept k).2, fun hf => ?_,
    hinterrupted.trans h.interrupted⟩
  · obtain ⟨older, inCurrent, haudited⟩ := h.audited hz
    exact haudited.append hz fun options state _ _ hf => .inl (h.fresh hf)
  rcases hcases with ⟨hsame, hfresh⟩ | ⟨-, hfresh⟩
  · exact hsame.trans (h.fresh (hfresh.symm.trans hf))
  · exact absurd (hfresh.symm.trans hf) Bool.false_ne_true

/-- The event is reported, or, if records need not be kept, lost. -/
theorem Logs.trail (hl : Logs C P kept event w r w') :
    w'.trail = w.trail ∧ ¬ kept ∨ w'.trail = w.trail ++ [event] := by
  obtain ⟨-, timestamp, proof, rfl, hkept⟩ := hl
  rcases (@step_append_cases P C w event timestamp proof).1 with
    ⟨hsame, -⟩ | ⟨⟨record, rfl, hmore⟩, -⟩
  · exact .inl ⟨congrArg (List.map AuditRecord.event) hsame, fun k => (hkept k).1 hsame⟩
  · refine .inr ?_
    rw [AuditWorld.trail, hmore, List.map_append]
    rfl

/-- **In the files**: if records are kept, they are there, each once. -/
theorem Logged.retained (h : Logged C P kept w) (k : kept) :
    (retained C w.files).Perm w.acknowledged := by
  have honce := (h.held k).once
  rw [h.interrupted, List.append_nil] at honce
  exact honce.antisymm (h.held k).kept

/-- **The records are one chain.** -/
theorem Logged.isChain (h : Logged C P kept w) (hz : ∀ data, P.blake3 data ≠ zeroHash) :
    Chained w.acknowledged := by
  obtain ⟨_, _, haudited⟩ := h.audited hz
  exact haudited.chained

end AuditWorld

/-! ### What an operation says -/

/-- What a call owes to the log once an operation has succeeded. -/
def StoreOp.owes (c : AuditedCall) : (o : StoreOp) → Except Error o.Res → Multiset AuditEvent
  | .createCapsuleWithSegments id size segments policy, .ok _ =>
    if c.announces then {.capsuleCreated id size segments.length policy} else 0
  | .deleteCapsule id, .ok capsule => {.capsuleDeleted id capsule.size}
  | .lookup id, .ok capsule => if c.reads id then {.capsuleRead id capsule.size} else 0
  | _, _ => 0

/-- What is known of the errors of an operation. -/
def StoreOp.Says : (o : StoreOp) → Except Error o.Res → Prop
  | .createCapsuleWithSegments _ _ _ _, .error _ => False
  | .deleteCapsule _, .error e => e = capsuleNotFound
  | .decrementRefcount _, .error e => e ≠ capsuleNotFound
  | .deregisterContent _ _, .error _ => False
  | .removeSegment _, .error _ => False
  | _, _ => True

theorem segment_ne_capsuleNotFound (rest : String) :
    Error.msg ("Segment " ++ rest) ≠ capsuleNotFound := by
  intro h
  have hhead := congrArg (fun s => s.toList.head?) (Error.msg.inj h)
  simp [String.toList_append] at hhead

/-- A reference that is not there is not a capsule that is not there. -/
theorem decrementRefcount_error {log : NvramLog} {y : SegmentId} {e : Error}
    (h : (log.decrementRefcount y).1 = .error e) : e ≠ capsuleNotFound := by
  unfold NvramLog.decrementRefcount at h
  split at h
  · obtain rfl := Except.error.inj h
    exact segment_ne_capsuleNotFound ("not found: " ++ y.debug)
  · split at h
    · obtain rfl := Except.error.inj h
      rw [String.append_assoc]
      exact segment_ne_capsuleNotFound _
    · cases h

namespace SharedStore
variable {s s' : SharedStore P} {o : StoreOp} {r : Except Error o.Res}

/-- An operation that changes no capsule. -/
theorem Does.directory_keeps (h : Does o s r s') (ho : o.Keeps) : s'.directory = s.directory := by
  have hcaps := World.exec_capsules [] o ⟨s.store, .empty⟩ ho
  rw [h.world [] .empty] at hcaps
  have hentry : ∀ (s : SharedStore P) (ledger : Ledger) (id : CapsuleId),
      s.directory id = ((⟨s.store, ledger⟩ : World P).capsules id).map Capsule.entry := by
    intro s ledger id
    rw [World.capsules, Option.map_map]
    rfl
  funext id
  rw [hentry s' _ id, hcaps, ← hentry s _ id]

/-- A capsule is created. -/
theorem Does.directory_create {id : CapsuleId} {size : Nat} {segments : List SegmentId}
    {policy : Policy} {r : Except Error Unit}
    (h : Does (.createCapsuleWithSegments id size segments policy) s r s')
    (hnone : s.directory id = none) : r = .ok () ∧
      s'.directory = Function.update s.directory id (some ⟨size, segments.length, policy⟩) := by
  have hcap : (⟨s.store, .empty⟩ : World P).cap id = none := Option.map_eq_none_iff.mp hnone
  obtain ⟨rfl, hw⟩ := Prod.mk.inj ((h.world [] .empty).symm.trans (World.exec_create hcap))
  refine ⟨rfl, funext fun id' => ?_⟩
  have hlookup := World.cap_created ⟨s.store, .empty⟩ [] ⟨id, size, segments, policy, 0⟩ id'
  rw [← hw] at hlookup
  have he : s'.directory id' = _ := congrArg (Option.map Capsule.entry) hlookup
  rw [he, Function.update_apply]
  split <;> rfl

/-- A capsule is deleted, or there is none. -/
theorem Does.directory_delete {id : CapsuleId} {r : Except Error Capsule}
    (h : Does (.deleteCapsule id) s r s') :
    (∃ c, r = .ok c ∧ s.directory id = some c.entry) ∧
        s'.directory = Function.update s.directory id none ∨
      r = .error capsuleNotFound ∧ s' = s := by
  cases hc : (⟨s.store, .empty⟩ : World P).cap id with
  | some c =>
      obtain ⟨rfl, hw⟩ := Prod.mk.inj ((h.world [] .empty).symm.trans (World.exec_delete hc))
      refine .inl ⟨⟨c, rfl, congrArg (Option.map Capsule.entry) hc⟩, funext fun id' => ?_⟩
      have hlookup : (⟨s'.store, _⟩ : World P).cap id' = _ :=
        (congrArg (fun w : World P => w.cap id') hw).trans (Table.lookup_erase _ _ _)
      have he : s'.directory id' = _ := congrArg (Option.map Capsule.entry) hlookup
      rw [he, Function.update_apply]
      split <;> rfl
  | none =>
      have hregistry : s.store.registry.deleteCapsule id =
          (.error capsuleNotFound, s.store.registry) := CapsuleRegistry.deleteCapsule_of_none hc
      have hexec : StoreOp.exec (.deleteCapsule id) s.store =
          (.error capsuleNotFound, s.store) := by
        simp only [StoreOp.exec, hregistry]
        rfl
      obtain ⟨store', used'⟩ := s'
      obtain ⟨hr, hused, -⟩ := h
      obtain rfl : used' = s.used := hused
      obtain ⟨rfl, rfl⟩ := Prod.mk.inj (hexec.symm.trans hr)
      exact .inr ⟨rfl, rfl⟩

/-- A lookup changes nothing. -/
theorem Does.lookup {id : CapsuleId} {r : Except Error Capsule} (h : Does (.lookup id) s r s') :
    s' = s ∧ ∀ c, r = .ok c → s.directory id = some c.entry := by
  obtain ⟨hr, hused, -⟩ := h
  obtain ⟨store', used'⟩ := s'
  obtain rfl : used' = s.used := hused
  obtain rfl : s.store = store' := congrArg Prod.snd hr
  refine ⟨rfl, fun c hc => ?_⟩
  have hlookup : s.store.registry.lookup id = .ok c := (congrArg Prod.fst hr).trans hc
  unfold CapsuleRegistry.lookup at hlookup
  split at hlookup
  · cases hlookup
  · next c' hc' =>
      obtain rfl := Except.ok.inj hlookup
      exact congrArg (Option.map Capsule.entry) hc'

/-- What is known of the errors. -/
theorem Does.outcome (h : Does o s r s') (hnone : ∀ id ∈ o.creates, s.directory id = none) :
    o.Says r := by
  cases o with
  | createCapsuleWithSegments id size segments policy =>
      obtain ⟨rfl, -⟩ := h.directory_create (hnone id (List.mem_singleton_self id))
      trivial
  | deleteCapsule id =>
      rcases h.directory_delete with ⟨⟨c, rfl, -⟩, -⟩ | ⟨rfl, -⟩
      · trivial
      · rfl
  | decrementRefcount y =>
      cases r with
      | ok segment => trivial
      | error e => exact decrementRefcount_error (congrArg Prod.fst h.1)
  | deregisterContent hash y =>
      obtain rfl : .ok _ = r := congrArg Prod.fst h.1
      trivial
  | removeSegment y =>
      obtain rfl : .ok _ = r := congrArg Prod.fst h.1
      trivial
  | _ => trivial

end SharedStore

/-! ### What the threads owe -/

namespace AuditEvent
variable {s s' : SharedStore P} {sizes : CapsuleId → Nat} {e : AuditEvent}

/-- Fewer capsules. -/
theorem Truthful.mono (h : e.Truthful s sizes) (hu : s'.used = s.used)
    (hd : ∀ id d, s'.directory id = some d → s.directory id = some d) : e.Truthful s' sizes := by
  cases e with
  | capsuleCreated id size segments policy =>
      exact ⟨hu ▸ h.1, h.2.1, fun d k => h.2.2 d (hd id d k)⟩
  | capsuleRead id size => exact ⟨hu ▸ h.1, h.2⟩
  | capsuleDeleted id size =>
      refine ⟨hu ▸ h.1, h.2.1, Option.eq_none_iff_forall_ne_some.mpr fun d k => ?_⟩
      exact absurd (h.2.2.symm.trans (hd id d k)) nofun
  | _ => trivial

/-- One more capsule, with a new identifier. -/
theorem Truthful.create {id : CapsuleId} {d : DirectoryEntry} (h : e.Truthful s sizes)
    (hid : id ∉ s.used) (hu : s'.used = id :: s.used)
    (hd : s'.directory = Function.update s.directory id (some d)) :
    e.Truthful s' (Function.update sizes id d.size) := by
  have hold : ∀ {id' : CapsuleId}, id' ∈ s.used → id' ∈ s'.used ∧
      s'.directory id' = s.directory id' ∧ Function.update sizes id d.size id' = sizes id' := by
    intro id' h
    have hne : id' ≠ id := fun e => hid (e ▸ h)
    exact ⟨hu ▸ List.mem_cons_of_mem id h, hd ▸ Function.update_of_ne hne ..,
      Function.update_of_ne hne ..⟩
  cases e with
  | capsuleCreated id' size segments policy =>
      obtain ⟨hused, hdir, hsize⟩ := hold h.1
      exact ⟨hused, h.2.1.trans hsize.symm, fun d k => h.2.2 d (hdir.symm.trans k)⟩
  | capsuleRead id' size =>
      obtain ⟨hused, -, hsize⟩ := hold h.1
      exact ⟨hused, h.2.trans hsize.symm⟩
  | capsuleDeleted id' size =>
      obtain ⟨hused, hdir, hsize⟩ := hold h.1
      exact ⟨hused, h.2.1.trans hsize.symm, hdir.trans h.2.2⟩
  | _ => trivial

end AuditEvent

namespace AuditTrail

/-- What a thread owes to the log, and what it has told of its end. -/
abbrev Owed := Multiset AuditEvent × Multiset AuditEvent

/-- What a call may do. -/
def may (P : Primitives) (c : AuditedCall) : (StoreSig.sum AuditSig).Op → Owed → Prop
  | .inl (.createCapsuleWithSegments id size segments policy), _ =>
    c.Causes P (.capsuleCreated id size segments.length policy) ∨ c.WritesAsync id
  | .inl (.deleteCapsule id), _ => c = .delete id
  | .inl _, _ => True
  | .inr e, g => c.Causes P e ∧ (e.isFinal = true → e ∈ g.1 ∧ g.2 = 0)

/-- What an operation makes of what is owed. -/
def moves (c : AuditedCall) : Moves (StoreSig.sum AuditSig) Error Owed
  | .inl o, g, r, g' => o.Says r ∧ g' = (o.owes c r + g.1, g.2)
  | .inr e, g, r, g' => r = .ok () ∧
    if e.isFinal = true then ∃ rest, g.1 = e ::ₘ rest ∧ g' = (rest, e ::ₘ g.2) else g' = g

/-- What a thread owes or has told is of its call. -/
structure Owns (P : Primitives) (c : AuditedCall) (g : Owed) : Prop where
  owed : ∀ e ∈ g.1, c.Announces P e
  told : g.2 = 0 ∨ ∃ e, g.2 = {e} ∧ c.Announces P e

/-- How a call ends: it has told of a success, and owes nothing; a delete that fails with its
capsule gone has not found a segment. -/
def Ends (c : AuditedCall) : Except Error AuditedAnswer → Owed → Prop
  | .ok ⟨c', .ok _⟩, g => c' = c ∧ g.1 = 0 ∧ (c.announces = true → g.2 ≠ 0)
  | .ok ⟨c', .error e⟩, g => c' = c ∧ g.2 = 0 ∧
    ∀ x ∈ g.1, x.change ≠ none → (∃ id, c = .delete id) ∧ e ≠ capsuleNotFound
  | .error _, _ => False

/-- What is in the trail, and what is owed to it. -/
def recorded (w : AuditWorld AuditEvent) (g : Owed) : Multiset AuditEvent := w.trail + g.1

/-- What has become of the capsules. -/
def changes (w : AuditWorld AuditEvent) (g : Owed) : Multiset CapsuleChange :=
  (recorded w g).filterMap AuditEvent.change

/-- What links the history, the store and the log to all that is owed. -/
structure Inv (C : AuditCodec AuditEvent) (P : Primitives) (kept : Prop)
    (t : List (Event ι AuditedCall AuditedAnswer Error)) (x : AuditedStore P) (g : Owed) :
    Prop where
  truthful : ∃ sizes : CapsuleId → Nat,
    (∀ id d, x.1.directory id = some d → id ∈ x.1.used ∧ d.size = sizes id) ∧
      ∀ e ∈ recorded x.2 g, e.Truthful x.1 sizes
  caused : ∀ e ∈ x.2.trail, ∃ i c, .invoke i c ∈ t ∧ c.Causes P e
  once : (changes x.2 g).Nodup
  complete : kept → ∀ id ∈ x.1.used, Orderly t id → .created id ∈ changes x.2 g ∧
    (x.1.directory id = none → .deleted id ∈ changes x.2 g)
  told : kept → ∃ told, List.Forall₂ (AuditedCall.Announces P) (announcedCalls t) told ∧
    ((x.2.trail.filter AuditEvent.isFinal : List AuditEvent) : Multiset AuditEvent) = told + g.2
  logged : x.2.Logged C P kept

variable {t : List (Event ι AuditedCall AuditedAnswer Error)} {s s' : SharedStore P}
  {w w' : AuditWorld AuditEvent} {g f : Owed} {c : AuditedCall} {e : AuditEvent}
  {m n : Multiset AuditEvent}

theorem recorded_cons : recorded w (e ::ₘ m, n) = e ::ₘ recorded w (m, n) :=
  Multiset.add_cons _ _ _

theorem changes_cons : changes w (e ::ₘ m, n) =
    e.change.elim (changes w (m, n)) (· ::ₘ changes w (m, n)) := by
  rw [changes, recorded_cons]
  cases hc : e.change with
  | none => exact Multiset.filterMap_cons_none _ _ hc
  | some k => exact Multiset.filterMap_cons_some _ _ _ hc

theorem Inv.used {id : CapsuleId} (h : Inv C P kept t (s, w) g) (hc : .created id ∈ changes w g) :
    id ∈ s.used := by
  obtain ⟨sizes, -, htrue⟩ := h.truthful
  obtain ⟨e, he, hchange⟩ := (Multiset.mem_filterMap _ _).mp hc
  cases e with
  | capsuleCreated id' size segments policy =>
      obtain rfl : id' = id := CapsuleChange.created.inj (Option.some.inj hchange)
      exact (htrue _ he).1
  | capsuleDeleted => cases hchange
  | _ => cases hchange

theorem Inv.gone {id : CapsuleId} (h : Inv C P kept t (s, w) g) (hc : .deleted id ∈ changes w g) :
    s.directory id = none := by
  obtain ⟨sizes, -, htrue⟩ := h.truthful
  obtain ⟨e, he, hchange⟩ := (Multiset.mem_filterMap _ _).mp hc
  cases e with
  | capsuleDeleted id' size =>
      obtain rfl : id' = id := CapsuleChange.deleted.inj (Option.some.inj hchange)
      exact (htrue _ he).2.2
  | capsuleCreated => cases hchange
  | _ => cases hchange

/-- Where the capsules are as they were. -/
theorem Inv.keeps (h : Inv C P kept t (s, w) g) (hu : s'.used = s.used)
    (hd : s'.directory = s.directory) : Inv C P kept t (s', w) g := by
  obtain ⟨sizes, hsizes, htrue⟩ := h.truthful
  refine ⟨⟨sizes, fun id d k => ?_, fun e he => ?_⟩, h.caused, h.once, fun k id hid ho => ?_,
    h.told, h.logged⟩
  · exact hu ▸ hsizes id d (hd ▸ k)
  · exact (htrue e he).mono hu fun id d k => hd ▸ k
  · obtain ⟨hcreated, hdeleted⟩ := h.complete k id (hu ▸ hid) ho
    exact ⟨hcreated, fun hnone => hdeleted (hd ▸ hnone)⟩

/-- A capsule was looked up. -/
theorem Inv.reads {id : CapsuleId} {d : DirectoryEntry} (h : Inv C P kept t (s, w) (m, n))
    (hd : s.directory id = some d) : Inv C P kept t (s, w) (.capsuleRead id d.size ::ₘ m, n) := by
  obtain ⟨sizes, hsizes, htrue⟩ := h.truthful
  have hsame : changes w (.capsuleRead id d.size ::ₘ m, n) = changes w (m, n) := changes_cons
  refine ⟨⟨sizes, hsizes, fun e he => ?_⟩, h.caused, hsame ▸ h.once, ?_, h.told, h.logged⟩
  · rw [recorded_cons] at he
    rcases Multiset.mem_cons.mp he with rfl | he
    · exact hsizes id d hd
    · exact htrue e he
  · rw [hsame]
    exact h.complete

/-- A capsule was deleted. -/
theorem Inv.deletes {id : CapsuleId} {d : DirectoryEntry} (h : Inv C P kept t (s, w) (m, n))
    (hcap : s.directory id = some d) (hu : s'.used = s.used)
    (hd : s'.directory = Function.update s.directory id none) :
    Inv C P kept t (s', w) (.capsuleDeleted id d.size ::ₘ m, n) := by
  obtain ⟨sizes, hsizes, htrue⟩ := h.truthful
  have hless : ∀ id' d', s'.directory id' = some d' → s.directory id' = some d' := by
    intro id' d' k
    rw [hd, Function.update_apply] at k
    split at k
    · cases k
    · exact k
  have hmore : changes w (.capsuleDeleted id d.size ::ₘ m, n) =
      .deleted id ::ₘ changes w (m, n) := changes_cons
  have hnew : .deleted id ∉ changes w (m, n) := fun hmem =>
    absurd ((h.gone hmem).symm.trans hcap) nofun
  refine ⟨⟨sizes, fun id' d' k => hu ▸ hsizes id' d' (hless id' d' k), fun e he => ?_⟩, h.caused,
    ?_, fun k id' hid ho => ?_, h.told, h.logged⟩
  · rw [recorded_cons] at he
    rcases Multiset.mem_cons.mp he with rfl | he
    · obtain ⟨hused, hsize⟩ := hsizes id d hcap
      exact ⟨hu ▸ hused, hsize, hd ▸ Function.update_self ..⟩
    · exact (htrue e he).mono hu hless
  · rw [hmore]
    exact Multiset.nodup_cons.mpr ⟨hnew, h.once⟩
  · obtain ⟨hcreated, hdeleted⟩ := h.complete k id' (hu ▸ hid) ho
    rw [hmore]
    refine ⟨Multiset.mem_cons_of_mem hcreated, fun hnone => ?_⟩
    by_cases hid' : id' = id
    · exact hid' ▸ Multiset.mem_cons_self _ _
    · refine Multiset.mem_cons_of_mem (hdeleted ?_)
      rwa [hd, Function.update_of_ne hid'] at hnone

/-- A capsule was created, with a new identifier; if it is not owed to the log, it was written
asynchronously. -/
theorem Inv.creates {id : CapsuleId} {d : DirectoryEntry} {owed : Multiset AuditEvent}
    (h : Inv C P kept t (s, w) (m, n)) (hid : id ∉ s.used) (hu : s'.used = id :: s.used)
    (hd : s'.directory = Function.update s.directory id (some d))
    (hm : owed = {.capsuleCreated id d.size d.segments d.policy} ∨ owed = 0 ∧ ¬ Orderly t id) :
    Inv C P kept t (s', w) (owed + m, n) := by
  obtain ⟨sizes, hsizes, htrue⟩ := h.truthful
  have hself : Function.update sizes id d.size id = d.size := Function.update_self ..
  have hdir : s'.directory id = some d := hd ▸ Function.update_self ..
  have hrecorded : recorded w (owed + m, n) = owed + recorded w (m, n) := add_left_comm _ _ _
  have hnew : .created id ∉ changes w (m, n) := fun hmem => hid (h.used hmem)
  have hchanges : changes w (owed + m, n) =
      .created id ::ₘ changes w (m, n) ∨ changes w (owed + m, n) = changes w (m, n) ∧
        ¬ Orderly t id := by
    rcases hm with rfl | ⟨rfl, ho⟩
    · rw [Multiset.singleton_add]
      exact .inl changes_cons
    · rw [zero_add]
      exact .inr ⟨rfl, ho⟩
  refine ⟨⟨Function.update sizes id d.size, fun id' d' k => ?_, fun e he => ?_⟩, h.caused, ?_,
    fun k id' hid' ho => ?_, h.told, h.logged⟩
  · by_cases e : id' = id
    · subst e
      obtain rfl := Option.some.inj (hdir.symm.trans k)
      exact ⟨hu ▸ List.mem_cons_self, hself.symm⟩
    · rw [hd, Function.update_of_ne e] at k
      obtain ⟨hused, hsize⟩ := hsizes id' d' k
      exact ⟨hu ▸ List.mem_cons_of_mem id hused, by rw [Function.update_of_ne e, hsize]⟩
  · rw [hrecorded] at he
    rcases Multiset.mem_add.mp he with he | he
    · rcases hm with rfl | ⟨rfl, -⟩
      · obtain rfl := Multiset.mem_singleton.mp he
        refine ⟨hu ▸ List.mem_cons_self, hself.symm, fun d' k => ?_⟩
        exact Option.some.inj (k.symm.trans hdir)
      · exact absurd he (Multiset.notMem_zero _)
    · exact (htrue e he).create hid hu hd
  · rcases hchanges with hmore | ⟨hsame, -⟩
    · rw [hmore]
      exact Multiset.nodup_cons.mpr ⟨hnew, h.once⟩
    · exact hsame ▸ h.once
  · by_cases e : id' = id
    · subst e
      rcases hchanges with hmore | ⟨-, hasync⟩
      · rw [hmore]
        exact ⟨Multiset.mem_cons_self _ _, fun hnone => absurd (hnone.symm.trans hdir) nofun⟩
      · exact absurd ho hasync
    · have hused : id' ∈ s.used := (List.mem_cons.mp (hu ▸ hid')).resolve_left e
      obtain ⟨hcreated, hdeleted⟩ := h.complete k id' hused ho
      have hmem : ∀ {k : CapsuleChange}, k ∈ changes w (m, n) → k ∈ changes w (owed + m, n) := by
        intro k hk
        rcases hchanges with hmore | ⟨hsame, -⟩
        · rw [hmore]
          exact Multiset.mem_cons_of_mem hk
        · exact hsame ▸ hk
      refine ⟨hmem hcreated, fun hnone => hmem (hdeleted ?_)⟩
      rwa [hd, Function.update_of_ne e] at hnone

/-! ### The reports -/

theorem recorded_append (ht : w'.trail = w.trail ++ [e]) :
    recorded w' (m, n) = recorded w (e ::ₘ m, n) := by
  show (w'.trail : Multiset AuditEvent) + m = w.trail + e ::ₘ m
  rw [ht, ← Multiset.coe_add, Multiset.coe_singleton, add_assoc, Multiset.singleton_add]

/-- A call tells of its end. -/
theorem Inv.reports {i : ι} (h : Inv C P kept t (s, w) (e ::ₘ m, n)) (hc : .invoke i c ∈ t)
    (hcause : c.Causes P e) (hfinal : e.isFinal = true) {r : Except Error Unit}
    (hl : AuditWorld.Logs C P kept e w r w') : Inv C P kept t (s, w') (m, e ::ₘ n) := by
  have hlogged := h.logged.append hl
  obtain ⟨sizes, hsizes, htrue⟩ := h.truthful
  rcases hl.trail with ⟨ht, hlost⟩ | ht
  · have hless : recorded w' (m, e ::ₘ n) ≤ recorded w (e ::ₘ m, n) := by
      rw [recorded_cons]
      show (w'.trail : Multiset AuditEvent) + m ≤ _
      rw [ht]
      exact Multiset.le_cons_self _ _
    exact ⟨⟨sizes, hsizes, fun e he => htrue e (Multiset.mem_of_le hless he)⟩, ht ▸ h.caused,
      Multiset.nodup_of_le (Multiset.filterMap_le_filterMap _ hless) h.once,
      fun k => absurd k hlost, fun k => absurd k hlost, hlogged⟩
  · have hsame : recorded w' (m, e ::ₘ n) = recorded w (e ::ₘ m, n) := recorded_append ht
    have hchanges : changes w' (m, e ::ₘ n) = changes w (e ::ₘ m, n) := congrArg _ hsame
    refine ⟨⟨sizes, hsizes, hsame ▸ htrue⟩, fun x hx => ?_, hchanges ▸ h.once,
      hchanges ▸ h.complete, fun k => ?_, hlogged⟩
    · rw [ht] at hx
      rcases List.mem_append.mp hx with hx | hx
      · exact h.caused x hx
      · obtain rfl := List.mem_singleton.mp hx
        exact ⟨i, c, hc, hcause⟩
    · obtain ⟨told, htold, hsum⟩ := h.told k
      refine ⟨told, htold, ?_⟩
      rw [ht, List.filter_append, ← Multiset.coe_add, hsum, List.filter_singleton, hfinal]
      show _ + n + {e} = _ + e ::ₘ n
      rw [add_assoc, add_comm n, Multiset.singleton_add]

/-- A call reports on its way. -/
theorem Inv.notes {i : ι} (h : Inv C P kept t (s, w) g) (hc : .invoke i c ∈ t)
    (hcause : c.Causes P e) (hfinal : e.isFinal = false) {r : Except Error Unit}
    (hl : AuditWorld.Logs C P kept e w r w') : Inv C P kept t (s, w') g := by
  have hlogged := h.logged.append hl
  have hnone : e.change = none := by
    cases e with
    | capsuleCreated => cases hfinal
    | capsuleDeleted => cases hfinal
    | _ => rfl
  obtain ⟨sizes, hsizes, htrue⟩ := h.truthful
  rcases hl.trail with ⟨ht, -⟩ | ht
  · have hsame : recorded w' g = recorded w g := by rw [recorded, recorded, ht]
    have hchanges : changes w' g = changes w g := congrArg _ hsame
    exact ⟨⟨sizes, hsizes, hsame ▸ htrue⟩, ht ▸ h.caused, hchanges ▸ h.once,
      hchanges ▸ h.complete, ht ▸ h.told, hlogged⟩
  · have hmore : recorded w' g = e ::ₘ recorded w g := (recorded_append ht).trans recorded_cons
    have hchanges : changes w' g = changes w g := by
      rw [changes, hmore]
      exact Multiset.filterMap_cons_none _ _ hnone
    refine ⟨⟨sizes, hsizes, fun x hx => ?_⟩, fun x hx => ?_, hchanges ▸ h.once,
      hchanges ▸ h.complete, fun k => ?_, hlogged⟩
    · rw [hmore] at hx
      rcases Multiset.mem_cons.mp hx with rfl | hx
      · cases x with
        | capsuleCreated => cases hfinal
        | capsuleRead => cases hfinal
        | capsuleDeleted => cases hfinal
        | _ => trivial
      · exact htrue x hx
    · rw [ht] at hx
      rcases List.mem_append.mp hx with hx | hx
      · exact h.caused x hx
      · obtain rfl := List.mem_singleton.mp hx
        exact ⟨i, c, hc, hcause⟩
    · obtain ⟨told, htold, hsum⟩ := h.told k
      refine ⟨told, htold, ?_⟩
      rw [ht, List.filter_append, List.filter_singleton, hfinal]
      exact (congrArg _ (List.append_nil _)).trans hsum

/-! ### One operation of a call -/

theorem announces_of_announces (h : c.Announces P e) : c.announces = true := by
  obtain ⟨hcause, hfinal⟩ := h
  cases c with
  | writeAsync memoryLimit arrivals id data policy =>
      cases e with
      | segmentAppended => cases hfinal
      | _ => exact hcause.elim
  | collect ord =>
      cases e with
      | segmentAppended => cases hfinal
      | _ => exact hcause.elim
  | _ => rfl

/-- What a call owes is of the call. -/
theorem owes_announces {o : StoreOp} {r : Except Error o.Res} (hm : may P c (.inl o) g) :
    ∀ x ∈ o.owes c r, c.Announces P x := by
  intro x hx
  cases r with
  | error e => cases o <;> exact absurd hx (Multiset.notMem_zero _)
  | ok a =>
      cases o with
      | createCapsuleWithSegments id size segments policy =>
          rw [StoreOp.owes] at hx
          split at hx
          · next hannounces =>
              obtain rfl := Multiset.mem_singleton.mp hx
              refine ⟨hm.resolve_right ?_, rfl⟩
              rintro ⟨memoryLimit, arrivals, data, policy, rfl⟩
              cases hannounces
          · exact absurd hx (Multiset.notMem_zero _)
      | deleteCapsule id =>
          obtain rfl := Multiset.mem_singleton.mp hx
          obtain rfl : c = .delete id := hm
          exact ⟨rfl, rfl⟩
      | lookup id =>
          by_cases hreads : c.reads id = true
          · have e : StoreOp.owes c (.lookup id) (.ok a) = {.capsuleRead id a.size} :=
              if_pos hreads
            obtain rfl := Multiset.mem_singleton.mp (e ▸ hx)
            cases c with
            | read id' => exact ⟨(of_decide_eq_true hreads).symm, rfl⟩
            | _ => cases hreads
          · have e : StoreOp.owes c (.lookup id) (.ok a) = 0 := if_neg hreads
            exact absurd (e ▸ hx) (Multiset.notMem_zero _)
      | _ => exact absurd hx (Multiset.notMem_zero _)

/-- **An operation of the store.** -/
theorem Inv.store {i : ι} {o : StoreOp} {r : Except Error o.Res}
    (h : Inv C P kept t (s, w) (m, n)) (hc : .invoke i c ∈ t) (hm : may P c (.inl o) g)
    (hr : SharedStore.Does o s r s') :
    o.Says r ∧ Inv C P kept t (s', w) (o.owes c r + m, n) := by
  have hnone : ∀ id ∈ o.creates, s.directory id = none := by
    intro id hid
    obtain ⟨sizes, hsizes, -⟩ := h.truthful
    exact Option.eq_none_iff_forall_ne_some.mpr fun d hd => hr.2.2 id hid (hsizes id d hd).1
  refine ⟨hr.outcome hnone, ?_⟩
  by_cases ho : o.Keeps
  · have hkept : Inv C P kept t (s', w) (m, n) := by
      have hused := hr.2.1
      rw [ho.creates, List.nil_append] at hused
      exact h.keeps hused (hr.directory_keeps ho)
    cases o with
    | lookup id =>
        obtain ⟨rfl, hlookup⟩ := hr.lookup
        cases r with
        | ok capsule =>
            by_cases hreads : c.reads id = true
            · have e : StoreOp.owes c (.lookup id) (.ok capsule) = {.capsuleRead id capsule.size} :=
                if_pos hreads
              rw [e]
              exact hkept.reads (hlookup capsule rfl)
            · have e : StoreOp.owes c (.lookup id) (.ok capsule) = 0 := if_neg hreads
              rw [e, zero_add]
              exact hkept
        | error e => exact (zero_add m).symm ▸ hkept
    | createCapsuleWithSegments => exact absurd trivial ho
    | deleteCapsule => exact absurd trivial ho
    | _ => exact (zero_add m).symm ▸ hkept
  cases o with
  | createCapsuleWithSegments id size segments policy =>
      have hid : id ∉ s.used := hr.2.2 id (List.mem_singleton_self id)
      obtain ⟨rfl, hdir⟩ := hr.directory_create (hnone id (List.mem_singleton_self id))
      refine h.creates (d := ⟨size, segments.length, policy⟩) hid hr.2.1 hdir ?_
      by_cases hannounces : c.announces = true
      · exact .inl (if_pos hannounces)
      · refine .inr ⟨if_neg hannounces, fun ho => ?_⟩
        exact ho.sync i c hc
          (hm.resolve_left fun hcause => hannounces (announces_of_announces ⟨hcause, rfl⟩))
  | deleteCapsule id =>
      rcases hr.directory_delete with ⟨⟨capsule, rfl, hcap⟩, hdir⟩ | ⟨rfl, rfl⟩
      · exact h.deletes hcap hr.2.1 hdir
      · exact (zero_add m).symm ▸ h
  | _ => exact absurd not_false ho

/-- **One operation of any call.** -/
theorem Inv.step {i : ι} {x x' : AuditedStore P} {o : (StoreSig.sum AuditSig).Op}
    {r : Except Error ((StoreSig.sum AuditSig).Res o)} (h : Inv C P kept t x (g + f))
    (hc : .invoke i c ∈ t) (hg : Owns P c g) (hm : may P c o g)
    (hr : AuditedStore.Does C P kept o x r x') :
    ∃ g', moves c o g r g' ∧ Owns P c g' ∧ Inv C P kept t x' (g' + f) := by
  obtain ⟨s, w⟩ := x
  obtain ⟨s', w'⟩ := x'
  cases o with
  | inl o =>
      obtain ⟨hr, rfl⟩ : SharedStore.Does o s r s' ∧ w' = w := hr
      obtain ⟨hsaid, hI⟩ := h.store hc hm hr
      refine ⟨_, ⟨hsaid, rfl⟩, ⟨fun x hx => ?_, hg.told⟩, ?_⟩
      · exact (Multiset.mem_add.mp hx).elim (owes_announces hm x) (hg.owed x)
      · have e : (o.owes c r + g.1, g.2) + f = (o.owes c r + (g.1 + f.1), g.2 + f.2) :=
          Prod.ext (add_assoc _ _ _) rfl
        exact e ▸ hI
  | inr e =>
      obtain ⟨hl, rfl⟩ : AuditWorld.Logs C P kept e w r w' ∧ s' = s := hr
      cases hfinal : e.isFinal with
      | false =>
          refine ⟨g, ⟨hl.1, ?_⟩, hg, h.notes hc hm.1 hfinal hl⟩
          rw [hfinal, if_neg Bool.false_ne_true]
      | true =>
          obtain ⟨hmem, htold⟩ := hm.2 hfinal
          obtain ⟨rest, hrest⟩ := Multiset.exists_cons_of_mem hmem
          refine ⟨(rest, e ::ₘ g.2), ⟨hl.1, ?_⟩, ⟨fun x hx => ?_, .inr ⟨e, ?_, hm.1, hfinal⟩⟩, ?_⟩
          · rw [hfinal, if_pos rfl]
            exact ⟨rest, hrest, rfl⟩
          · exact hg.owed x (hrest ▸ Multiset.mem_cons_of_mem hx)
          · rw [htold]
            rfl
          · have hI : Inv C P kept t (s', w) (e ::ₘ (rest + f.1), g.2 + f.2) := by
              have e' : (e ::ₘ (rest + f.1), g.2 + f.2) = g + f :=
                Prod.ext (by rw [Prod.fst_add, hrest, Multiset.cons_add]) rfl
              exact e' ▸ h
            have e' : (rest, e ::ₘ g.2) + f = (rest + f.1, e ::ₘ (g.2 + f.2)) :=
              Prod.ext rfl (Multiset.cons_add _ _ _)
            exact e' ▸ hI.reports hc hm.1 hfinal hl

/-! ### Calls begin and end -/

theorem Inv.begins {i : ι} {x : AuditedStore P} (h : Inv C P kept t x g) :
    Inv C P kept (t ++ [.invoke i c]) x g := by
  have hcalls : announcedCalls (t ++ [.invoke i c]) = announcedCalls t := by
    rw [announcedCalls, answersOf, List.filterMap_append]
    exact congrArg (List.filterMap _) (List.append_nil _)
  refine ⟨h.truthful, fun e he => ?_, h.once, fun k id hid ho => h.complete k id hid ho.before,
    fun k => hcalls ▸ h.told k, h.logged⟩
  obtain ⟨j, c', hc', hcause⟩ := h.caused e he
  exact ⟨j, c', List.mem_append_left _ hc', hcause⟩

theorem announcedCalls_answer {i : ι} {a : AuditedAnswer} :
    announcedCalls (t ++ [.answer i a]) =
      announcedCalls t ++ if a.1.announces ∧ a.2.isOk then [a.1] else [] := by
  rw [announcedCalls, answersOf, List.filterMap_append, List.filterMap_append]
  refine congrArg (announcedCalls t ++ ·) ?_
  show List.filterMap _ [(i, a)] = _
  rw [List.filterMap_cons]
  split
  · next hnone =>
      split
      · next hyes => rw [if_pos hyes] at hnone; cases hnone
      · rfl
  · next c' hsome =>
      split
      · next hyes =>
          rw [if_pos hyes] at hsome
          rw [Option.some.inj hsome]
          rfl
      · next hno => rw [if_neg hno] at hsome; cases hsome

theorem Inv.answers {i : ι} {x : AuditedStore P} {a : AuditedAnswer}
    (h : Inv C P kept t x (g + f)) (hg : Owns P c g) (he : Ends c (.ok a) g) :
    Inv C P kept (t ++ [.answer i a]) x f := by
  have hless : recorded x.2 f ≤ recorded x.2 (g + f) :=
    add_le_add_right (Multiset.le_add_left f.1 g.1) _
  -- what is dropped is no change of a capsule whose deletes were orderly
  have hkept : ∀ {id : CapsuleId} {k : CapsuleChange}, Orderly (t ++ [.answer i a]) id →
      k = .created id ∨ k = .deleted id → k ∈ changes x.2 (g + f) → k ∈ changes x.2 f := by
    intro id k ho hk hmem
    obtain ⟨y, hy, hchange⟩ := (Multiset.mem_filterMap _ _).mp hmem
    refine (Multiset.mem_filterMap _ _).mpr ⟨y, ?_, hchange⟩
    rcases Multiset.mem_add.mp hy with hy | hy
    · exact Multiset.mem_add.mpr (.inl hy)
    rcases Multiset.mem_add.mp hy with hy | hy
    · exfalso
      obtain ⟨c', r⟩ := a
      cases r with
      | ok b => exact absurd (he.2.1 ▸ hy) (Multiset.notMem_zero _)
      | error e =>
          obtain ⟨rfl, -, hdrop⟩ := he
          obtain ⟨⟨id', rfl⟩, hne⟩ := hdrop y hy (hchange ▸ nofun)
          obtain ⟨hcause, -⟩ := hg.owed y hy
          cases y with
          | capsuleDeleted id'' size =>
              obtain rfl : id'' = id' := hcause
              obtain rfl := Option.some.inj hchange
              rcases hk with hk | hk
              · cases hk
              · obtain rfl := CapsuleChange.deleted.inj hk
                exact hne (ho.deletes i e (List.mem_append_right _ (List.mem_singleton_self _)))
          | _ => exact hcause.elim
    · exact Multiset.mem_add.mpr (.inr hy)
  obtain ⟨sizes, hsizes, htrue⟩ := h.truthful
  refine ⟨⟨sizes, hsizes, fun e he => htrue e (Multiset.mem_of_le hless he)⟩, fun e he => ?_,
    Multiset.nodup_of_le (Multiset.filterMap_le_filterMap _ hless) h.once, fun k id hid ho => ?_,
    fun k => ?_, h.logged⟩
  · obtain ⟨j, c', hc', hcause⟩ := h.caused e he
    exact ⟨j, c', List.mem_append_left _ hc', hcause⟩
  · obtain ⟨hcreated, hdeleted⟩ := h.complete k id hid ho.before
    exact ⟨hkept ho (.inl rfl) hcreated, fun hnone => hkept ho (.inr rfl) (hdeleted hnone)⟩
  · obtain ⟨told, htold, hsum⟩ := h.told k
    rw [announcedCalls_answer]
    obtain ⟨c', r⟩ := a
    split
    · next hyes =>
        cases r with
        | error e => exact absurd hyes.2 Bool.false_ne_true
        | ok b =>
            obtain ⟨rfl, -, hne⟩ := he
            obtain ⟨e, hself, hannounces⟩ := hg.told.resolve_left (hne hyes.1)
            refine ⟨told ++ [e], List.rel_append htold (.cons hannounces .nil), ?_⟩
            rw [hsum, Prod.snd_add, hself, ← Multiset.coe_add, Multiset.coe_singleton, add_assoc]
    · next hno =>
        have hzero : g.2 = 0 := by
          cases r with
          | error e => exact he.2.1
          | ok b =>
              obtain ⟨rfl, -, -⟩ := he
              refine hg.told.resolve_right ?_
              rintro ⟨e, -, hannounces⟩
              exact hno ⟨announces_of_announces hannounces, rfl⟩
        refine ⟨told, by rwa [List.append_nil], ?_⟩
        rw [hsum, Prod.snd_add, hzero, zero_add]

end AuditTrail

end Space

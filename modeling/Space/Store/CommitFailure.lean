import Space.Store.Faults
import Space.Store.ReadYourWrites

/-!
# Store — CommitFailure

What is left of a transaction whose commit fails, once it is rolled back or dropped.

A commit that fails while it writes the payloads gives its offsets back and leaves the map alone.
One that fails while it saves the map has installed its segments already: they stay visible, and
the drop that follows resets the shared offset in front of them (`not_commit_fails_atomically`).

* `commit_fails_atomically_iff`: a failed commit leaves nothing behind exactly when it was the
  writing that failed, its identifiers are new and every extent of the map ends where the
  transaction began.
* `Behind`: what keeps later appends and transactions off the extents of the map.
-/

namespace Space
open Support

/-! ### Commits on a disk that fails -/

namespace NvramTransaction

/-- `commit` on a disk that may fail. -/
def commitIo (fault : Option Fault) (t : NvramTransaction) (log : NvramLog) :
    Except Error Unit × NvramTransaction × NvramLog :=
  if t.finalized then (.ok (), t, log)
  else if t.pending = [] then (.ok (), { t with finalized := true }, log)
  else
    match fault with
    | none => (.ok (), t.commit log)
    | some (.early written text) =>
      (.error (.msg text), { t with finalized := true },
        { log with
          file := writeSome written t.pending log.file
          nextOffset := t.baseOffset })
    | some (.late text) =>
      (.error (.msg text), t, { (t.commit log).2 with savedMap := log.savedMap })

/-- The log after a commit and the rollback, or the drop, that follows it. -/
def commitAndDrop (fault : Option Fault) (t : NvramTransaction) (log : NvramLog) : NvramLog :=
  ((t.commitIo fault log).2.1.rollback (t.commitIo fault log).2.2).2

/-- What a client can hold: a transaction that was begun, and what it staged since.  Metadata is
replaced by metadata at the same offset. -/
inductive Reached : NvramTransaction → Prop
  | start (log : NvramLog) : Reached log.beginTransaction
  | append {t t' : NvramTransaction} {segId : SegmentId} {data : Bytes} {segment : Segment}
      {log log' : NvramLog} (h : Reached t)
      (e : t.appendSegment segId data log = (.ok (segment, t'), log')) : Reached t'
  | metadata {t t' : NvramTransaction} {segId : SegmentId} {segment : Segment} (h : Reached t)
      (ho : ∀ old, t.pendingSegment segId = some old → segment.offset = old.offset)
      (e : t.setSegmentMetadata segId segment = .ok t') : Reached t'

end NvramTransaction

/-- A commit that fails, over all the disk, is the operation that a fault strikes. -/
theorem strike_commit {P : Primitives} (s : Store P) {t : NvramTransaction} {fault : Fault}
    (hf : t.finalized = false) (hp : t.pending ≠ []) :
    (StoreOp.commit t).strike s fault =
      some { s with nvram := t.commitAndDrop (some fault) s.nvram } := by
  unfold NvramTransaction.commitAndDrop NvramTransaction.commitIo
  rw [if_neg (by simp [hf]), if_neg hp]
  cases fault with
  | early written text =>
      show some { s with nvram := _ } = some { s with nvram := _ }
      simp only [NvramTransaction.rollback, if_true]
  | late text =>
      simp only [StoreOp.strike, Store.unsaved, StoreOp.exec, Store.onNvram,
        NvramTransaction.rollback, hf, Bool.false_eq_true, if_false]

/-! ### Later calls -/

/-- Every extent that is not empty ends at the offset or before it. -/
def EndsBy (m : Table SegmentId Segment) (o : Nat) : Prop :=
  ∀ segId segment, m.lookup segId = some segment → segment.len ≠ 0 →
    segment.offset + segment.len ≤ o

namespace NvramClient

/-- One transaction at a time, no append while it is open, and metadata that keeps the extent. -/
def Alone (client : NvramClient) : NvramCall → Prop
  | .append _ _ | .beginTransaction => client.transaction = none
  | .reopen => False
  | .updateSegmentMetadata segId segment => ∃ old, client.log.segmentMap.lookup segId = some old ∧
      segment.offset = old.offset ∧ segment.len = old.len
  | .setSegmentMetadata segId segment => ∀ t old, client.transaction = some t →
      t.pendingSegment segId = some old → segment.offset = old.offset ∧ segment.len = old.len
  | _ => True

/-- Where a call writes, and how many bytes. -/
def writes (client : NvramClient) : NvramCall → List (Nat × Nat)
  | .append _ data => [(client.log.nextOffset, data.length)]
  | .commit =>
    match client.transaction with
    | none => []
    | some t =>
      if t.finalized then [] else t.pending.map fun p => (p.segment.offset, p.data.length)
  | _ => []

/-- A call writes over no extent of the map. -/
def Spares (client : NvramClient) (call : NvramCall) : Prop :=
  ∀ w ∈ client.writes call, ∀ segId segment, client.log.segmentMap.lookup segId = some segment →
    w.2 ≠ 0 → segment.len ≠ 0 → w.1 + w.2 ≤ segment.offset ∨ segment.offset + segment.len ≤ w.1

/-- The clients that start with the log and no transaction, after calls of their own. -/
inductive Later (log : NvramLog) : NvramClient → Prop
  | start {client : NvramClient} (hl : client.log = log) (ht : client.transaction = none) :
      Later log client
  | step {client : NvramClient} {call : NvramCall} (h : Later log client) (hc : client.Alone call) :
      Later log (client.step call)

end NvramClient

/-- What a failed commit must leave: a log that shows none of its segments, that reads what was
there as before, and whose later calls spare every extent of the map. -/
structure NvramTransaction.Undone (t : NvramTransaction) (log log' : NvramLog) : Prop where
  hidden : ∀ p ∈ t.pending, p.segment.id ∉ log'.segmentMap
  reads : ∀ segId data, log.read segId = .ok data → log'.read segId = .ok data
  spares : ∀ client, NvramClient.Later log' client → ∀ call, client.Alone call →
    client.Spares call

/-! ### What is written -/

namespace NvramTransaction
variable {pending : List PendingSegment} {file : Bytes} {t : NvramTransaction}

theorem length_le_writeSome (pending : List PendingSegment) :
    ∀ (k : Nat) (file : Bytes), file.length ≤ (writeSome k pending file).length := by
  induction pending with
  | nil => exact fun _ _ => Nat.le_refl _
  | cons p ps ih => exact fun k file => (length_le_writeAt _ _ _ _).trans (ih _ _)

/-- Payloads written behind an extent leave it as it was. -/
theorem slice_writeSome {o n : Nat} (h : ∀ p ∈ pending, o + n ≤ p.segment.offset) :
    ∀ (k : Nat) (file : Bytes), o + n ≤ file.length →
      slice (writeSome k pending file) o n = slice file o n := by
  induction pending with
  | nil => exact fun _ _ _ => rfl
  | cons p ps ih =>
      intro k file hl
      have hrest := ih (fun q hq => h q (List.mem_cons_of_mem _ hq)) (k - p.data.length)
        (writeAt 0 file p.segment.offset (p.data.take k)) (hl.trans (length_le_writeAt _ _ _ _))
      exact hrest.trans (slice_writeAt_disjoint hl (.inl (h p List.mem_cons_self)))

/-- What is installed is in the map. -/
theorem mem_installPending {p : PendingSegment} (hp : p ∈ pending) :
    ∀ m : Table SegmentId Segment, p.segment.id ∈ installPending pending m := by
  have hmono : ∀ (ps : List PendingSegment) (m : Table SegmentId Segment) (x : SegmentId),
      x ∈ m → x ∈ installPending ps m := by
    intro ps
    induction ps with
    | nil => exact fun _ _ h => h
    | cons q ps ih => exact fun m x h => ih _ x ((AList.mem_insert _).mpr (.inr h))
  induction pending with
  | nil => exact absurd hp List.not_mem_nil
  | cons q ps ih =>
      intro m
      rcases List.mem_cons.mp hp with rfl | hp
      · exact hmono ps _ _ ((AList.mem_insert _).mpr (.inl rfl))
      · exact ih hp _

/-- What a client stages lies behind the offset its transaction began at. -/
theorem Reached.behind (h : t.Reached) :
    t.baseOffset ≤ t.currentOffset ∧ ∀ p ∈ t.pending, t.baseOffset ≤ p.segment.offset := by
  induction h with
  | start log => exact ⟨Nat.le_refl _, fun _ hp => absurd hp List.not_mem_nil⟩
  | @append t t' segId data segment log log' _ e ih =>
      obtain ⟨rfl, rfl, -⟩ := appendSegment_eq e
      refine ⟨ih.1.trans (Nat.le_add_right _ _), fun p hp => ?_⟩
      rcases List.mem_append.mp hp with hp | hp
      · exact ih.2 p hp
      · obtain rfl := List.mem_singleton.mp hp
        exact ih.1
  | @metadata t t' segId segment _ ho e ih =>
      obtain ⟨pending, hm, rfl⟩ := withSegmentMut_eq e
      refine ⟨ih.1, fun p hp => ?_⟩
      rcases modifyPending_mem hp hm with hp | ⟨old, hold, rfl, hfind⟩
      · exact ih.2 p hp
      · have hsame := ho old.segment (by
          unfold pendingSegment
          rw [hfind]
          rfl)
        exact (ih.2 old hold).trans (Nat.le_of_eq hsame.symm)

end NvramTransaction

/-! ### Later appends and transactions -/

namespace EndsBy
variable {m : Table SegmentId Segment} {o o' : Nat} {segId : SegmentId} {segment : Segment}

theorem mono (h : EndsBy m o) (ho : o ≤ o') : EndsBy m o' :=
  fun x s hx hn => (h x s hx hn).trans ho

theorem insert (h : EndsBy m o) (hs : segment.len ≠ 0 → segment.offset + segment.len ≤ o) :
    EndsBy (m.insert segId segment) o := by
  intro x s hx hn
  rcases Table.lookup_insert_eq_some.mp hx with ⟨rfl, rfl⟩ | ⟨-, hx⟩
  · exact hs hn
  · exact h x s hx hn

theorem erase (h : EndsBy m o) : EndsBy (m.erase segId) o :=
  fun x s hx => h x s (Table.lookup_erase_eq_some.mp hx).2

/-- Other metadata for the same extent. -/
theorem update (h : EndsBy m o) {old : Segment} (hold : m.lookup segId = some old)
    (ho : segment.offset = old.offset) (hl : segment.len = old.len) :
    EndsBy (m.insert segId segment) o :=
  h.insert fun hn => by
    rw [ho, hl]
    exact h segId old hold (hl ▸ hn)

theorem installPending {pending : List PendingSegment}
    (hp : ∀ p ∈ pending, p.segment.offset + p.segment.len ≤ o) :
    ∀ {m : Table SegmentId Segment}, EndsBy m o →
      EndsBy (NvramTransaction.installPending pending m) o := by
  induction pending with
  | nil => exact id
  | cons p ps ih =>
      exact fun h => ih (fun q hq => hp q (List.mem_cons_of_mem _ hq))
        (h.insert fun _ => hp p List.mem_cons_self)

end EndsBy

/-- The extents of pending segments lie between two offsets. -/
def NvramTransaction.Within (t : NvramTransaction) : Prop :=
  t.baseOffset ≤ t.currentOffset ∧ ∀ p ∈ t.pending,
    t.baseOffset ≤ p.segment.offset ∧ p.segment.offset + p.segment.len ≤ t.currentOffset

theorem asU32_le (n : Nat) : asU32 n ≤ n := Nat.mod_le _ _

theorem NvramTransaction.Within.append {t t' : NvramTransaction} {segId : SegmentId} {data : Bytes}
    {segment : Segment} {log log' : NvramLog} (h : t.Within)
    (e : t.appendSegment segId data log = (.ok (segment, t'), log')) :
    t'.Within ∧ t'.baseOffset = t.baseOffset ∧ t'.finalized = t.finalized ∧
      log'.nextOffset = t'.currentOffset ∧ log'.segmentMap = log.segmentMap := by
  obtain ⟨rfl, rfl, rfl⟩ := appendSegment_eq e
  refine ⟨⟨h.1.trans (Nat.le_add_right _ _), fun p hp => ?_⟩, rfl, rfl, rfl, rfl⟩
  rcases List.mem_append.mp hp with hp | hp
  · exact ⟨(h.2 p hp).1, (h.2 p hp).2.trans (Nat.le_add_right _ _)⟩
  · obtain rfl := List.mem_singleton.mp hp
    exact ⟨h.1, Nat.add_le_add_left (asU32_le _) _⟩

/-- The log may change its map so. -/
structure NvramLog.Keeps (log log' : NvramLog) : Prop where
  nextOffset : log'.nextOffset = log.nextOffset
  endsBy : ∀ o, EndsBy log.segmentMap o → EndsBy log'.segmentMap o

namespace NvramLog.Keeps

theorem refl (log : NvramLog) : log.Keeps log := ⟨rfl, fun _ h => h⟩

theorem incrementRefcount (log : NvramLog) (segId : SegmentId) :
    log.Keeps (log.incrementRefcount segId).2 := by
  unfold NvramLog.incrementRefcount
  cases hl : log.segmentMap.lookup segId with
  | none => exact .refl log
  | some old => exact ⟨rfl, fun o h => h.update hl rfl rfl⟩

theorem decrementRefcount (log : NvramLog) (segId : SegmentId) :
    log.Keeps (log.decrementRefcount segId).2 := by
  unfold NvramLog.decrementRefcount
  cases hl : log.segmentMap.lookup segId with
  | none => exact .refl log
  | some old =>
      dsimp only
      split
      · exact .refl log
      · exact ⟨rfl, fun o h => h.update hl rfl rfl⟩

theorem removeSegment (log : NvramLog) (segId : SegmentId) :
    log.Keeps (log.removeSegment segId).2 := by
  unfold NvramLog.removeSegment
  cases hl : log.segmentMap.lookup segId with
  | none => exact .refl log
  | some old => exact ⟨rfl, fun o h => h.erase⟩

end NvramLog.Keeps

/-- **Later writes lie behind the map**: those of the transaction that is open behind the offset
it began at, and without one those of the next append. -/
def Behind (log : NvramLog) (transaction : Option NvramTransaction) : Prop :=
  match transaction with
  | none => EndsBy log.segmentMap log.nextOffset
  | some t => t.finalized = false ∧ t.Within ∧ t.baseOffset ≤ log.nextOffset ∧
      EndsBy log.segmentMap t.baseOffset

namespace Behind
variable {log log' : NvramLog} {transaction : Option NvramTransaction} {t t' : NvramTransaction}
  {client : NvramClient} {call : NvramCall} {segId : SegmentId} {segment : Segment} {data : Bytes}

theorem keeps (h : Behind log transaction) (hk : log.Keeps log') : Behind log' transaction := by
  cases transaction with
  | none =>
      show EndsBy log'.segmentMap log'.nextOffset
      rw [hk.nextOffset]
      exact hk.endsBy _ h
  | some t =>
      obtain ⟨hf, hw, hn, hm⟩ := h
      exact ⟨hf, hw, hk.nextOffset.symm ▸ hn, hk.endsBy _ hm⟩

theorem append (h : Behind log none) : Behind (log.append segId data).2 none := by
  refine EndsBy.insert (EndsBy.mono h (Nat.le_add_right _ _)) fun _ => ?_
  exact Nat.add_le_add_left (asU32_le _) _

theorem beginTransaction (h : Behind log none) : Behind log (some log.beginTransaction) :=
  ⟨rfl, ⟨Nat.le_refl _, fun _ hp => absurd hp List.not_mem_nil⟩, Nat.le_refl _, h⟩

theorem appendSegment (h : Behind log (some t))
    (e : t.appendSegment segId data log = (.ok (segment, t'), log')) :
    Behind log' (some t') := by
  obtain ⟨hw, hb, hf, hn, hm⟩ := h.2.1.append e
  refine ⟨hf.trans h.1, hw, ?_, ?_⟩
  · rw [hn]
    exact hw.1
  · rw [hm, hb]
    exact h.2.2.2

theorem setSegmentMetadata (h : Behind log (some t))
    (hsame : ∀ old, t.pendingSegment segId = some old →
      segment.offset = old.offset ∧ segment.len = old.len)
    (e : t.setSegmentMetadata segId segment = .ok t') : Behind log (some t') := by
  obtain ⟨pending, hm, rfl⟩ := NvramTransaction.withSegmentMut_eq e
  refine ⟨h.1, ⟨h.2.1.1, fun p hp => ?_⟩, h.2.2⟩
  rcases NvramTransaction.modifyPending_mem hp hm with hp | ⟨old, hold, rfl, hfind⟩
  · exact h.2.1.2 p hp
  · obtain ⟨ho, hl⟩ := hsame old.segment (by
      unfold NvramTransaction.pendingSegment
      rw [hfind]
      rfl)
    have hin := h.2.1.2 old hold
    rw [← ho, ← hl] at hin
    exact hin

theorem commit (h : Behind log (some t)) : Behind (t.commit log).2 none := by
  obtain ⟨hf, ⟨hbc, hp⟩, hn, hm⟩ := h
  unfold NvramTransaction.commit
  rw [if_neg (by simp [hf])]
  split
  · exact hm.mono hn
  · exact EndsBy.installPending (fun p hp' => (hp p hp').2) (hm.mono hbc)

theorem rollback (h : Behind log (some t)) : Behind (t.rollback log).2 none := by
  unfold NvramTransaction.rollback
  rw [if_neg (by simp [h.1])]
  exact h.2.2.2

theorem abandon (h : Behind client.log client.transaction) :
    Behind client.abandon.log client.abandon.transaction := by
  unfold NvramClient.abandon
  cases ht : client.transaction with
  | none => simpa only [ht] using h
  | some t =>
      rw [ht] at h
      exact h.rollback

/-- **What each call keeps.** -/
theorem step (h : Behind client.log client.transaction) (hc : client.Alone call) :
    Behind (client.step call).log (client.step call).transaction := by
  cases call with
  | append segId data =>
      have ht : client.transaction = none := hc
      simp only [NvramClient.step, ht] at h ⊢
      exact h.append
  | incrementRefcount segId => exact h.keeps (.incrementRefcount _ _)
  | decrementRefcount segId => exact h.keeps (.decrementRefcount _ _)
  | removeSegment segId => exact h.keeps (.removeSegment _ _)
  | updateSegmentMetadata segId segment =>
      obtain ⟨old, hold, ho, hl⟩ := hc
      exact h.keeps ⟨rfl, fun o hm => hm.update hold ho hl⟩
  | reopen => exact hc.elim
  | beginTransaction =>
      have ht : client.transaction = none := hc
      rw [ht] at h
      exact h.beginTransaction
  | appendSegment segId data =>
      cases ht : client.transaction with
      | none => simpa only [NvramClient.step, ht] using h
      | some t =>
          rw [ht] at h
          have hact : t.ensureActive = .ok () := if_neg (by simp [h.1])
          have ha : ∃ st log', t.appendSegment segId data client.log = (.ok st, log') := by
            unfold NvramTransaction.appendSegment
            rw [hact]
            exact ⟨_, _, rfl⟩
          obtain ⟨⟨segment, t'⟩, log', ha⟩ := ha
          simp only [NvramClient.step, ht, ha]
          exact h.appendSegment ha
  | setSegmentMetadata segId segment =>
      cases ht : client.transaction with
      | none => simpa only [NvramClient.step, ht] using h
      | some t =>
          cases ha : t.setSegmentMetadata segId segment with
          | error e => simpa only [NvramClient.step, ht, ha] using h
          | ok t' =>
              simp only [NvramClient.step, ht, ha]
              rw [ht] at h
              exact h.setSegmentMetadata (fun old => hc t old ht) ha
  | commit =>
      cases ht : client.transaction with
      | none => simpa only [NvramClient.step, ht] using h
      | some t =>
          simp only [NvramClient.step, ht]
          rw [ht] at h
          exact h.commit
  | rollback => exact h.abandon
  | drop => exact h.abandon

/-- What lies behind the map spares it. -/
theorem spares (h : Behind client.log client.transaction) (hc : client.Alone call) :
    client.Spares call := by
  intro w hw segId segment hl _ hlen
  refine .inr ?_
  cases call with
  | append x data =>
      have ht : client.transaction = none := hc
      rw [ht] at h
      obtain rfl := List.mem_singleton.mp hw
      exact h segId segment hl hlen
  | commit =>
      cases ht : client.transaction with
      | none =>
          simp only [NvramClient.writes, ht] at hw
          exact absurd hw List.not_mem_nil
      | some t =>
          rw [ht] at h
          simp only [NvramClient.writes, ht, h.1] at hw
          obtain ⟨p, hp, rfl⟩ := List.mem_map.mp hw
          exact (h.2.2.2 segId segment hl hlen).trans (h.2.1.2 p hp).1
  | _ => exact absurd hw List.not_mem_nil

end Behind

/-- **Later calls spare every extent** of a map that ends where the next append begins. -/
theorem NvramClient.Later.spares {log : NvramLog} {client : NvramClient} {call : NvramCall}
    (h : client.Later log) (hm : EndsBy log.segmentMap log.nextOffset) (hc : client.Alone call) :
    client.Spares call := by
  refine Behind.spares ?_ hc
  clear hc
  induction h with
  | start hl ht =>
      rw [hl, ht]
      exact hm
  | step _ hc ih => exact ih.step hc

/-! ### A commit that fails -/

section
variable {t : NvramTransaction} {log : NvramLog} {fault : Option Fault} {e : Error}

/-- Only a transaction with something to write fails, on a disk that does. -/
theorem NvramTransaction.commitIo_error (h : (t.commitIo fault log).1 = .error e) :
    t.finalized = false ∧ t.pending ≠ [] ∧ ∃ f, fault = some f := by
  unfold commitIo at h
  split at h
  · cases h
  · next hf =>
      split at h
      · cases h
      · next hp =>
          cases fault with
          | none => cases h
          | some f => exact ⟨eq_false_of_ne_true hf, hp, f, rfl⟩

/-- The log after the payloads could not be written. -/
theorem NvramTransaction.commitAndDrop_early (hf : t.finalized = false) (hp : t.pending ≠ [])
    (written : Nat) (text : String) :
    t.commitAndDrop (some (.early written text)) log =
      { log with
        file := writeSome written t.pending log.file
        nextOffset := t.baseOffset } := by
  unfold commitAndDrop commitIo
  rw [if_neg (by simp [hf]), if_neg hp]
  rfl

/-- The log after the map could not be saved. -/
theorem NvramTransaction.commitAndDrop_late (hf : t.finalized = false) (hp : t.pending ≠ [])
    (text : String) :
    (t.commitAndDrop (some (.late text)) log).segmentMap =
      installPending t.pending log.segmentMap := by
  unfold commitAndDrop commitIo
  rw [if_neg (by simp [hf]), if_neg hp]
  simp only [rollback, hf, commit, if_neg hp]
  rfl

/-- Payloads that could not be written leave what was read in front of them. -/
theorem NvramTransaction.read_writeSome {o : Nat} (ht : ∀ p ∈ t.pending, o ≤ p.segment.offset)
    (hm : EndsBy log.segmentMap o) (written : Nat) {segId : SegmentId} {data : Bytes}
    (h : log.read segId = .ok data) :
    NvramLog.read { log with
      file := writeSome written t.pending log.file
      nextOffset := o } segId = .ok data := by
  unfold NvramLog.read at h ⊢
  cases hl : log.segmentMap.lookup segId with
  | none =>
      rw [hl] at h
      cases h
  | some segment =>
      simp only [hl] at h ⊢
      split at h
      · next hin =>
          have hfile := length_le_writeSome t.pending written log.file
          rw [if_pos (hin.imp_left fun k => k.trans hfile), ← h]
          refine congrArg Except.ok ?_
          by_cases hz : segment.len = 0
          · rw [hz, slice_zero, slice_zero]
          · have hend := hm segId segment hl hz
            exact slice_writeSome (fun p hp => hend.trans (ht p hp)) written log.file
              (hin.resolve_right hz)
      · cases h

/-- **A failed commit leaves nothing behind** exactly when it failed while the payloads were
written, its identifiers were not in the map, and every extent of the map ends where the
transaction began. -/
theorem commit_fails_atomically_iff (ht : t.Reached) (h : (t.commitIo fault log).1 = .error e) :
    t.Undone log (t.commitAndDrop fault log) ↔
      (∃ written text, fault = some (.early written text)) ∧
        (∀ p ∈ t.pending, p.segment.id ∉ log.segmentMap) ∧
        EndsBy log.segmentMap t.baseOffset := by
  obtain ⟨hf, hp, fault, rfl⟩ := NvramTransaction.commitIo_error h
  cases fault with
  | late text =>
      have hmap : (t.commitAndDrop (some (.late text)) log).segmentMap =
          NvramTransaction.installPending t.pending log.segmentMap :=
        NvramTransaction.commitAndDrop_late hf hp text
      constructor
      · intro hu
        obtain ⟨p, ps, hps⟩ := List.exists_cons_of_ne_nil hp
        have hmem : p ∈ t.pending := by rw [hps]; exact List.mem_cons_self
        have hhid := hu.hidden p hmem
        rw [hmap] at hhid
        exact absurd (NvramTransaction.mem_installPending hmem _) hhid
      · rintro ⟨⟨written, text', k⟩, -⟩
        cases k
  | early written text =>
      rw [NvramTransaction.commitAndDrop_early hf hp]
      constructor
      · intro hu
        refine ⟨⟨written, text, rfl⟩, hu.hidden, fun segId segment hl hn => ?_⟩
        by_contra hlt
        -- an append of the bytes up to the end of the extent writes over it
        have hspare := hu.spares ⟨_, none, ∅, []⟩ (.start rfl rfl)
          (.append segId (List.replicate (segment.offset + segment.len - t.baseOffset) 0)) rfl
          (t.baseOffset, segment.offset + segment.len - t.baseOffset)
          (by simp [NvramClient.writes]) segId segment hl (by dsimp only; omega) hn
        dsimp only at hspare
        omega
      · rintro ⟨-, hids, hm⟩
        have hbehind : ∀ p ∈ t.pending, t.baseOffset ≤ p.segment.offset := ht.behind.2
        exact ⟨hids, fun segId data => NvramTransaction.read_writeSome hbehind hm written,
          fun client hc call => hc.spares hm⟩

end

/-- A log with one segment. -/
def oneSegment : NvramLog := (NvramLog.empty.append ⟨0⟩ [1, 2, 3]).2

/-- A transaction that staged two payloads behind it. -/
def twoPayloads : NvramTransaction :=
  { oneSegment.beginTransaction with
    pending := [⟨.appended ⟨1⟩ 3 2, [7, 8]⟩, ⟨.appended ⟨2⟩ 5 1, [9]⟩]
    currentOffset := 6 }

theorem twoPayloads_reached : twoPayloads.Reached :=
  .append (.append (.start oneSegment)
    (show oneSegment.beginTransaction.appendSegment ⟨1⟩ [7, 8] oneSegment =
      (.ok (.appended ⟨1⟩ 3 2, { oneSegment.beginTransaction with
        pending := [⟨.appended ⟨1⟩ 3 2, [7, 8]⟩]
        currentOffset := 5 }), { oneSegment with nextOffset := 5 }) from rfl))
    (show NvramTransaction.appendSegment _ ⟨2⟩ [9] { oneSegment with nextOffset := 5 } =
      (.ok (.appended ⟨2⟩ 5 1, twoPayloads), { oneSegment with nextOffset := 6 }) from rfl)

/-- The first payload is written and of the second nothing; the segment before them is still read,
and neither of the two is there. -/
theorem commit_fails_atomically_early : twoPayloads.Undone oneSegment
    (twoPayloads.commitAndDrop (some (.early 2 "no space left on device")) oneSegment) := by
  refine (commit_fails_atomically_iff twoPayloads_reached rfl).mpr
    ⟨⟨2, _, rfl⟩, by decide, fun segId segment hl _ => ?_⟩
  rcases Table.lookup_insert_eq_some.mp hl with ⟨-, rfl⟩ | ⟨-, hl⟩
  · decide
  · cases hl

/-- A transaction that staged one byte, over a new log. -/
def oneByte : NvramTransaction :=
  { NvramLog.empty.beginTransaction with
    pending := [⟨.appended ⟨0⟩ 0 1, [7]⟩]
    currentOffset := 1 }

theorem oneByte_reached : oneByte.Reached :=
  .append (.start .empty) (show NvramLog.empty.beginTransaction.appendSegment ⟨0⟩ [7] .empty =
    (.ok (.appended ⟨0⟩ 0 1, oneByte), { NvramLog.empty with nextOffset := 1 }) from rfl)

/-- Its segment is installed, and the map cannot be saved. -/
theorem not_commit_fails_atomically :
    ¬ ∀ (t : NvramTransaction) (log : NvramLog) (fault : Option Fault) (e : Error), t.Reached →
      (t.commitIo fault log).1 = .error e → t.Undone log (t.commitAndDrop fault log) := by
  intro h
  have hu := h oneByte .empty (some (.late "no space left on device")) _ oneByte_reached rfl
  exact hu.hidden ⟨.appended ⟨0⟩ 0 1, [7]⟩ (by decide) (by decide)

end Space

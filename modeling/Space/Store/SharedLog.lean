import Space.Support.Lists
import Space.Store.Nvram
import Mathlib.Data.Option.Basic

/-!
# Store — SharedLog

A log that several clients share, with any number of open transactions.  A transaction takes a copy
of the shared offset when it begins, and sets the shared offset to its own whenever it stages,
commits or is given up; so two of them, or a transaction and a plain append, may come to lie in the
same bytes.

A commit writes its payloads under the lock of the file, and installs its segments under the lock of
the map after that: these are two steps, and other clients may come in between.

* `commit_eq`: the two steps together are `NvramTransaction.commit`.
* `Intact.step`: what is in use lies apart and has its payloads, and a step that writes nothing over
  it keeps that.
* `Intact.separate`, `Intact.reads_back`: so the segments of the map lie apart, and each reads back
  the payload it was installed with.
-/

namespace Space
open Support

/-! ### Steps -/

namespace NvramTransaction

/-- The first half of a commit: the payloads are written, and the shared offset is moved. -/
def writeAll (t : NvramTransaction) (log : NvramLog) : NvramLog :=
  { log with file := writePending t.pending log.file, nextOffset := t.currentOffset }

/-- The second half: the segments are installed. -/
def installAll (t : NvramTransaction) (log : NvramLog) : NvramTransaction × NvramLog :=
  ({ t with pending := [], finalized := true },
    log.withMap (installPending t.pending log.segmentMap))

theorem commit_eq {t : NvramTransaction} (hf : t.finalized = false) (hp : t.pending ≠ [])
    (log : NvramLog) : t.commit log = t.installAll (t.writeAll log) := by
  simp only [commit, hf, hp, Bool.false_eq_true, if_false]
  rfl

end NvramTransaction

/-- A transaction, and whether it is halfway through its commit. -/
structure ClientTransaction where
  transaction : NvramTransaction
  committing : Bool

/-- What a client does to the log in one step.  A transaction is named by the number of those that
began before it; dropping one is `rollback`. -/
inductive LogStep where
  | append (segId : SegmentId) (data : Bytes)
  | beginTransaction
  | appendSegment (i : Nat) (segId : SegmentId) (data : Bytes)
  | commitWrite (i : Nat)
  | commitInstall (i : Nat)
  | rollback (i : Nat)

/-- The log, the transactions, and the payload that each segment of the map was installed with. -/
structure SharedLog where
  log : NvramLog
  transactions : List ClientTransaction
  contents : Table SegmentId Bytes

namespace SharedLog

/-- A log over new files. -/
def start : SharedLog where
  log := .empty
  transactions := []
  contents := ∅

/-- What is installed of a transaction. -/
def installContents (pending : List PendingSegment) (contents : Table SegmentId Bytes) :
    Table SegmentId Bytes :=
  pending.foldl (fun contents p => contents.insert p.segment.id p.data) contents

def step (shared : SharedLog) : LogStep → SharedLog
  | .append segId data =>
    { shared with
      log := (shared.log.append segId data).2
      contents := shared.contents.insert segId data }
  | .beginTransaction =>
    { shared with
      transactions := shared.transactions ++ [⟨shared.log.beginTransaction, false⟩] }
  | .appendSegment i segId data =>
    match shared.transactions[i]? with
    | some ⟨t, false⟩ =>
      match t.appendSegment segId data shared.log with
      | (.error _, log) => { shared with log := log }
      | (.ok (_, t), log) =>
        { shared with log := log, transactions := shared.transactions.set i ⟨t, false⟩ }
    | _ => shared
  | .commitWrite i =>
    match shared.transactions[i]? with
    | some ⟨t, false⟩ =>
      if t.finalized then shared
      else if t.pending = [] then
        { shared with
          transactions := shared.transactions.set i ⟨{ t with finalized := true }, false⟩ }
      else
        { shared with
          log := t.writeAll shared.log
          transactions := shared.transactions.set i ⟨t, true⟩ }
    | _ => shared
  | .commitInstall i =>
    match shared.transactions[i]? with
    | some ⟨t, true⟩ =>
      { log := (t.installAll shared.log).2
        transactions := shared.transactions.set i ⟨(t.installAll shared.log).1, false⟩
        contents := installContents t.pending shared.contents }
    | _ => shared
  | .rollback i =>
    match shared.transactions[i]? with
    | some ⟨t, false⟩ =>
      { shared with
        log := (t.rollback shared.log).2
        transactions := shared.transactions.set i ⟨(t.rollback shared.log).1, false⟩ }
    | _ => shared

end SharedLog

/-! ### Extents -/

/-- The extents of two segments have no byte in common. -/
def Segment.Disjoint (a b : Segment) : Prop :=
  ∀ n, ¬ ((a.offset ≤ n ∧ n < a.offset + a.len) ∧ b.offset ≤ n ∧ n < b.offset + b.len)

theorem Segment.Disjoint.symm {a b : Segment} (h : a.Disjoint b) : b.Disjoint a :=
  fun n k => h n k.symm

/-- Extents that are not empty lie one behind the other. -/
theorem Segment.Disjoint.order {a b : Segment} (h : a.Disjoint b) (ha : 0 < a.len)
    (hb : 0 < b.len) : a.offset + a.len ≤ b.offset ∨ b.offset + b.len ≤ a.offset := by
  by_contra hno
  rw [not_or, Nat.not_le, Nat.not_le] at hno
  refine h (max a.offset b.offset) ⟨⟨Nat.le_max_left _ _, ?_⟩, Nat.le_max_right _ _, ?_⟩
  · exact Nat.max_lt.mpr ⟨Nat.lt_add_of_pos_right ha, hno.1⟩
  · exact Nat.max_lt.mpr ⟨hno.2, Nat.lt_add_of_pos_right hb⟩

/-- The extent of the segment has the payload. -/
structure Segment.Carries (file : Bytes) (a : Segment) (data : Bytes) : Prop where
  len : a.len = data.length
  extent : data = [] ∨ a.offset + data.length ≤ file.length ∧ slice file a.offset data.length = data

namespace Segment.Carries
variable {file : Bytes} {a b : Segment} {data : Bytes}

/-- What is written elsewhere leaves it. -/
theorem write (h : a.Carries file data) {d : Bytes} (hb : b.len = d.length) (hd : a.Disjoint b) :
    a.Carries (writeAt 0 file b.offset d) data := by
  refine ⟨h.len, ?_⟩
  by_cases hdata : data = []
  · exact .inl hdata
  obtain ⟨hin, hext⟩ := h.extent.resolve_left hdata
  refine .inr ⟨hin.trans (length_le_writeAt _ _ _ _), ?_⟩
  by_cases he : d = []
  · rw [he, writeAt_nil]
    exact hext
  · have horder := hd.order (by rw [h.len]; exact List.length_pos_of_ne_nil hdata)
      (by rw [hb]; exact List.length_pos_of_ne_nil he)
    rw [h.len, hb] at horder
    rw [slice_writeAt_disjoint hin horder, hext]

/-- What is written into it. -/
theorem self (h : a.len = data.length) : a.Carries (writeAt 0 file a.offset data) data := by
  refine ⟨h, ?_⟩
  by_cases hdata : data = []
  · exact .inl hdata
  · exact .inr ⟨end_le_writeAt hdata, slice_writeAt_self _ _ _ _⟩

theorem writePending (h : a.Carries file data) {pending : List PendingSegment}
    (hp : ∀ p ∈ pending, p.segment.len = p.data.length ∧ a.Disjoint p.segment) :
    a.Carries (NvramTransaction.writePending pending file) data := by
  induction pending generalizing file with
  | nil => exact h
  | cons p pending ih =>
      obtain ⟨hlen, hd⟩ := hp p List.mem_cons_self
      exact ih (h.write hlen hd) fun q hq => hp q (List.mem_cons_of_mem _ hq)

/-- **The payloads of a transaction**, once they are written, are in their extents. -/
theorem ofPending {pending : List PendingSegment}
    (hpair : (pending.map PendingSegment.segment).Pairwise Segment.Disjoint)
    (hlen : ∀ p ∈ pending, p.segment.len = p.data.length) :
    ∀ p ∈ pending, p.segment.Carries (NvramTransaction.writePending pending file) p.data := by
  induction pending generalizing file with
  | nil => exact fun p hp => absurd hp List.not_mem_nil
  | cons q pending ih =>
      rw [List.map_cons, List.pairwise_cons] at hpair
      have hrest : ∀ p ∈ pending, p.segment.len = p.data.length := fun p hp =>
        hlen p (List.mem_cons_of_mem _ hp)
      intro p hp
      rcases List.mem_cons.mp hp with rfl | hp
      · exact (self (hlen p List.mem_cons_self)).writePending fun r hr =>
          ⟨hrest r hr, hpair.1 _ (List.mem_map_of_mem hr)⟩
      · exact ih hpair.2 hrest p hp

end Segment.Carries

/-! ### One transaction -/

/-- The payloads of a transaction lie one behind the other, up to its private offset. -/
structure NvramTransaction.Chained (t : NvramTransaction) : Prop where
  len : ∀ p ∈ t.pending, p.segment.len = asU32 p.data.length
  bound : ∀ p ∈ t.pending, p.segment.offset + p.data.length ≤ t.currentOffset
  order : t.pending.Pairwise fun p q => p.segment.offset + p.data.length ≤ q.segment.offset

namespace NvramTransaction.Chained
variable {t : NvramTransaction}

/-- A transaction without payloads. -/
theorem of_nil (h : t.pending = []) : t.Chained := by
  refine ⟨?_, ?_, ?_⟩ <;> rw [h]
  · exact fun p hp => absurd hp List.not_mem_nil
  · exact fun p hp => absurd hp List.not_mem_nil
  · exact .nil

/-- The next payload comes behind those before it. -/
theorem append (h : t.Chained) (segId : SegmentId) (data : Bytes) :
    Chained { t with
      pending := t.pending ++ [⟨.appended segId t.currentOffset (asU32 data.length), data⟩]
      currentOffset := t.currentOffset + data.length } := by
  refine ⟨fun p hp => ?_, fun p hp => ?_, ?_⟩
  · rcases List.mem_append.mp hp with hp | hp
    · exact h.len p hp
    · rw [List.mem_singleton.mp hp]
      rfl
  · rcases List.mem_append.mp hp with hp | hp
    · exact (h.bound p hp).trans (Nat.le_add_right _ _)
    · rw [List.mem_singleton.mp hp]
      exact Nat.le_refl _
  · refine List.pairwise_append.mpr ⟨h.order, List.pairwise_singleton _ _, fun p hp q hq => ?_⟩
    rw [List.mem_singleton.mp hq]
    exact h.bound p hp

/-- No two of its extents have a byte in common. -/
theorem disjoint (h : t.Chained) :
    (t.pending.map PendingSegment.segment).Pairwise Segment.Disjoint := by
  refine List.pairwise_map.mpr (h.order.imp_of_mem fun {p q} hp _ hpq n hn => ?_)
  have hlen : p.segment.len ≤ p.data.length := (h.len p hp).trans_le (Nat.mod_le _ _)
  have hend := hn.1.2.trans_le ((Nat.add_le_add_left hlen _).trans hpq)
  exact absurd hn.2.1 (Nat.not_le.mpr hend)

end NvramTransaction.Chained

/-! ### What is in use -/

/-- What a transaction has written and not yet installed. -/
def ClientTransaction.written (c : ClientTransaction) : List PendingSegment :=
  if c.committing then c.transaction.pending else []

/-- The segments of what it has written. -/
def ClientTransaction.segments (c : ClientTransaction) : List Segment :=
  c.written.map PendingSegment.segment

namespace SharedLog
variable {shared : SharedLog} {i : Nat} {c c' : ClientTransaction} {t t' : NvramTransaction}

/-- The segments of what is written and not yet installed. -/
def uninstalled (shared : SharedLog) : List Segment :=
  shared.transactions.flatMap ClientTransaction.segments

/-- The segments whose payloads are in the file: those of the map, and those to be installed. -/
def inUse (shared : SharedLog) : List Segment :=
  shared.log.segmentMap.values ++ shared.uninstalled

/-- What a step writes to the file. -/
def writes (shared : SharedLog) : LogStep → List PendingSegment
  | .append segId data =>
    [⟨.appended segId shared.log.nextOffset (asU32 data.length), data⟩]
  | .commitWrite i =>
    match shared.transactions[i]? with
    | some ⟨t, false⟩ => if t.finalized then [] else t.pending
    | _ => []
  | _ => []

/-- What stays in use: an append replaces what the map has under the same identifier. -/
def kept (shared : SharedLog) : LogStep → List Segment
  | .append segId _ => Table.values (shared.log.segmentMap.erase segId) ++ shared.uninstalled
  | _ => shared.inUse

/-- What a step writes has a length of 32 bits, and lies apart from what stays in use. -/
def Free (shared : SharedLog) (s : LogStep) : Prop :=
  ∀ p ∈ shared.writes s, p.data.length < 4294967296 ∧ ∀ a ∈ shared.kept s, a.Disjoint p.segment

theorem uninstalled_perm (h : shared.transactions[i]? = some c) : shared.uninstalled.Perm
    (c.segments ++ (shared.transactions.eraseIdx i).flatMap ClientTransaction.segments) :=
  (perm_of_getElem? h).flatMap_right _

theorem uninstalled_set_perm (h : shared.transactions[i]? = some c) (c' : ClientTransaction)
    (log : NvramLog) (contents : Table SegmentId Bytes) :
    (uninstalled ⟨log, shared.transactions.set i c', contents⟩).Perm
      (c'.segments ++ (shared.transactions.eraseIdx i).flatMap ClientTransaction.segments) :=
  (set_perm_of_getElem? h c').flatMap_right _

/-- Installing makes of the segments of the map and the installed ones no others. -/
theorem installPending_subperm (pending : List PendingSegment) (m : Table SegmentId Segment) :
    (Table.values (NvramTransaction.installPending pending m)).Subperm
      (pending.map PendingSegment.segment ++ m.values) := by
  induction pending generalizing m with
  | nil => exact List.Subperm.refl _
  | cons p pending ih =>
      refine (ih (m.insert p.segment.id p.segment)).trans ?_
      rw [Table.values_insert, List.map_cons, List.cons_append]
      refine List.perm_middle.subperm.trans ((List.subperm_cons _).mpr ?_)
      exact (List.subperm_append_left _).mpr (Table.values_erase_subperm _ _)

/-- What is installed has its payloads, if what was installed had. -/
theorem rel_installPending {file : Bytes} {pending : List PendingSegment}
    {m : Table SegmentId Segment} {contents : Table SegmentId Bytes}
    (hp : ∀ p ∈ pending, p.segment.Carries file p.data)
    (h : ∀ segId, Option.Rel (Segment.Carries file) (m.lookup segId) (contents.lookup segId)) :
    ∀ segId, Option.Rel (Segment.Carries file)
      (AList.lookup segId (NvramTransaction.installPending pending m))
      (AList.lookup segId (installContents pending contents)) := by
  induction pending generalizing m contents with
  | nil => exact h
  | cons p pending ih =>
      refine ih (fun q hq => hp q (List.mem_cons_of_mem _ hq)) fun segId => ?_
      rw [Table.lookup_insert, Table.lookup_insert]
      by_cases hx : segId = p.segment.id
      · rw [if_pos hx, if_pos hx]
        exact .some (hp p List.mem_cons_self)
      · rw [if_neg hx, if_neg hx]
        exact h segId

/-- A relation of an entry to another one, where the entry is there. -/
theorem rel_imp {α β : Type} {R S : α → β → Prop} {a : Option α} {b : Option β}
    (h : Option.Rel R a b) (himp : ∀ x, a = some x → ∀ y, R x y → S x y) : Option.Rel S a b := by
  cases h with
  | none => exact .none
  | some h => exact .some (himp _ rfl _ h)

/-! ### The invariant -/

/-- What is in use lies apart and has its payloads, and every transaction is a chain. -/
structure Intact (shared : SharedLog) : Prop where
  apart : shared.inUse.Pairwise Segment.Disjoint
  installed : ∀ segId, Option.Rel (Segment.Carries shared.log.file)
    (shared.log.segmentMap.lookup segId) (shared.contents.lookup segId)
  written : ∀ c ∈ shared.transactions, ∀ p ∈ c.written, p.segment.Carries shared.log.file p.data
  chained : ∀ c ∈ shared.transactions, c.transaction.Chained

namespace Intact

theorem start : SharedLog.start.Intact where
  apart := .nil
  installed := fun _ => .none
  written := fun _ hc => absurd hc List.not_mem_nil
  chained := fun _ hc => absurd hc List.not_mem_nil

/-- A new transaction. -/
theorem beginTransaction (h : shared.Intact) : Intact { shared with
    transactions := shared.transactions ++ [⟨shared.log.beginTransaction, false⟩] } := by
  refine ⟨?_, h.installed, fun c hc => ?_, fun c hc => ?_⟩
  · have e : uninstalled { shared with
        transactions := shared.transactions ++ [⟨shared.log.beginTransaction, false⟩] } =
        shared.uninstalled := by
      simp [uninstalled, ClientTransaction.segments, ClientTransaction.written]
    rw [inUse, e]
    exact h.apart
  · rcases List.mem_append.mp hc with hc | hc
    · exact h.written c hc
    · rw [List.mem_singleton.mp hc]
      exact fun p hp => absurd hp List.not_mem_nil
  · rcases List.mem_append.mp hc with hc | hc
    · exact h.chained c hc
    · rw [List.mem_singleton.mp hc]
      exact .of_nil rfl

/-- A transaction changes while it is not in a commit: only the shared offset is moved. -/
theorem own (h : shared.Intact) (hi : shared.transactions[i]? = some ⟨t, false⟩)
    (ht : t'.Chained) (n : Nat) : Intact { shared with
      log := { shared.log with nextOffset := n }
      transactions := shared.transactions.set i ⟨t', false⟩ } := by
  refine ⟨?_, h.installed, fun c hc => ?_, fun c hc => ?_⟩
  · have hperm := (uninstalled_set_perm hi ⟨t', false⟩ { shared.log with nextOffset := n }
      shared.contents).trans (uninstalled_perm hi).symm
    refine pairwise_of_subperm Segment.Disjoint.symm ?_ h.apart
    exact ((List.perm_append_left_iff _).mpr hperm).subperm
  · rcases List.mem_or_eq_of_mem_set hc with hc | rfl
    · exact h.written c hc
    · exact fun p hp => absurd hp List.not_mem_nil
  · rcases List.mem_or_eq_of_mem_set hc with hc | rfl
    · exact h.chained c hc
    · exact ht

/-- A plain append. -/
theorem append (h : shared.Intact) {segId : SegmentId} {data : Bytes}
    (hfree : shared.Free (.append segId data)) :
    Intact (shared.step (.append segId data)) := by
  obtain ⟨hlt, hd⟩ := hfree _ List.mem_cons_self
  have hlen : asU32 data.length = data.length := asU32_of_lt hlt
  refine ⟨?_, fun x => ?_, fun c hc p hp => ?_, h.chained⟩
  · have hkept : (shared.kept (.append segId data)).Pairwise Segment.Disjoint := by
      refine pairwise_of_subperm Segment.Disjoint.symm ?_ h.apart
      exact (List.subperm_append_right _).mpr (Table.values_erase_subperm _ _)
    have hcons := List.pairwise_cons.mpr ⟨fun a ha => (hd a ha).symm, hkept⟩
    rw [kept, ← List.cons_append, ← Table.values_insert] at hcons
    exact hcons
  · have hself := @Segment.Carries.self shared.log.file
      (.appended segId shared.log.nextOffset (asU32 data.length)) data hlen
    show Option.Rel _ (AList.lookup x (AList.insert segId _ shared.log.segmentMap))
      (AList.lookup x (AList.insert segId data shared.contents))
    rw [Table.lookup_insert, Table.lookup_insert]
    by_cases hx : x = segId
    · rw [if_pos hx, if_pos hx]
      exact .some hself
    · rw [if_neg hx, if_neg hx]
      refine rel_imp (h.installed x) fun a ha d hcar => hcar.write hlen (hd a ?_)
      exact List.mem_append_left _ (Table.mem_values.mpr
        ⟨x, Table.lookup_erase_eq_some.mpr ⟨hx, ha⟩⟩)
  · refine (h.written c hc p hp).write hlen (hd _ (List.mem_append_right _ ?_))
    exact List.mem_flatMap.mpr ⟨c, hc, List.mem_map_of_mem hp⟩

/-- The first half of a commit. -/
theorem commitWrite (h : shared.Intact) (hi : shared.transactions[i]? = some ⟨t, false⟩)
    (hfree : ∀ p ∈ t.pending,
      p.data.length < 4294967296 ∧ ∀ a ∈ shared.inUse, a.Disjoint p.segment) :
    Intact { shared with
      log := t.writeAll shared.log
      transactions := shared.transactions.set i ⟨t, true⟩ } := by
  have ht : t.Chained := h.chained _ (List.mem_of_getElem? hi)
  have hlen : ∀ p ∈ t.pending, p.segment.len = p.data.length := fun p hp =>
    (ht.len p hp).trans (asU32_of_lt (hfree p hp).1)
  have hkeep : ∀ a ∈ shared.inUse, ∀ p ∈ t.pending,
      p.segment.len = p.data.length ∧ a.Disjoint p.segment := fun a ha p hp =>
    ⟨hlen p hp, (hfree p hp).2 a ha⟩
  refine ⟨?_, fun x => ?_, fun c hc p hp => ?_, fun c hc => ?_⟩
  · have hnew : (t.pending.map PendingSegment.segment ++ shared.inUse).Pairwise
        Segment.Disjoint := by
      refine List.pairwise_append.mpr ⟨ht.disjoint, h.apart, fun a ha b hb => ?_⟩
      obtain ⟨p, hp, rfl⟩ := List.mem_map.mp ha
      exact ((hfree p hp).2 b hb).symm
    have hperm := (uninstalled_set_perm hi ⟨t, true⟩ (t.writeAll shared.log)
      shared.contents).trans ((List.perm_append_left_iff _).mpr (uninstalled_perm hi).symm)
    refine pairwise_of_subperm Segment.Disjoint.symm (List.Perm.subperm ?_) hnew
    exact ((List.perm_append_left_iff _).mpr hperm).trans (List.perm_append_comm_assoc _ _ _)
  · refine rel_imp (h.installed x) fun a ha d hcar => hcar.writePending (hkeep a ?_)
    exact List.mem_append_left _ (Table.mem_values.mpr ⟨x, ha⟩)
  · rcases List.mem_or_eq_of_mem_set hc with hc | rfl
    · refine (h.written c hc p hp).writePending (hkeep _ (List.mem_append_right _ ?_))
      exact List.mem_flatMap.mpr ⟨c, hc, List.mem_map_of_mem hp⟩
    · exact Segment.Carries.ofPending ht.disjoint hlen p hp
  · rcases List.mem_or_eq_of_mem_set hc with hc | rfl
    · exact h.chained c hc
    · exact ht

/-- The second half. -/
theorem commitInstall (h : shared.Intact) (hi : shared.transactions[i]? = some ⟨t, true⟩) :
    Intact {
      log := (t.installAll shared.log).2
      transactions := shared.transactions.set i ⟨(t.installAll shared.log).1, false⟩
      contents := installContents t.pending shared.contents } := by
  refine ⟨?_, ?_, fun c hc => ?_, fun c hc => ?_⟩
  · have hset := uninstalled_set_perm hi ⟨(t.installAll shared.log).1, false⟩
      (t.installAll shared.log).2 (installContents t.pending shared.contents)
    have hmap := installPending_subperm t.pending shared.log.segmentMap
    refine pairwise_of_subperm Segment.Disjoint.symm ?_ h.apart
    refine (hmap.append hset.subperm).trans (List.Perm.subperm ?_)
    refine List.Perm.trans ?_ ((List.perm_append_left_iff _).mpr (uninstalled_perm hi).symm)
    rw [List.append_assoc]
    exact List.perm_append_comm_assoc _ _ _
  · exact rel_installPending (h.written _ (List.mem_of_getElem? hi)) h.installed
  · rcases List.mem_or_eq_of_mem_set hc with hc | rfl
    · exact h.written c hc
    · exact fun p hp => absurd hp List.not_mem_nil
  · rcases List.mem_or_eq_of_mem_set hc with hc | rfl
    · exact h.chained c hc
    · exact .of_nil rfl

/-- Every step keeps it, if what it writes is free. -/
theorem step (h : shared.Intact) {s : LogStep} (hfree : shared.Free s) :
    (shared.step s).Intact := by
  cases s with
  | append segId data => exact h.append hfree
  | beginTransaction => exact h.beginTransaction
  | appendSegment i segId data =>
      simp only [SharedLog.step]
      split
      · next t hi =>
          cases hf : t.finalized with
          | true =>
              simp only [NvramTransaction.appendSegment, NvramTransaction.ensureActive, hf, if_true]
              exact h
          | false =>
              simp only [NvramTransaction.appendSegment, NvramTransaction.ensureActive, hf,
                Bool.false_eq_true, if_false]
              have hc := (h.chained _ (List.mem_of_getElem? hi)).append segId data
              rw [hf] at hc
              exact h.own hi hc _
      · exact h
  | commitWrite i =>
      simp only [SharedLog.step]
      split
      · next t hi =>
          cases hf : t.finalized with
          | true => exact h
          | false =>
              rw [if_neg Bool.false_ne_true]
              split
              · next hp =>
                  have ht : NvramTransaction.Chained { t with finalized := true } := .of_nil hp
                  exact h.own hi ht shared.log.nextOffset
              · refine h.commitWrite hi fun p hp => hfree p ?_
                simp only [writes, hi, hf, Bool.false_eq_true, if_false]
                exact hp
      · exact h
  | commitInstall i =>
      simp only [SharedLog.step]
      split
      · next t hi => exact h.commitInstall hi
      · exact h
  | rollback i =>
      simp only [SharedLog.step]
      split
      · next t hi =>
          cases hf : t.finalized with
          | true =>
              simp only [NvramTransaction.rollback, hf, if_true]
              exact h.own hi (h.chained _ (List.mem_of_getElem? hi)) _
          | false =>
              simp only [NvramTransaction.rollback, hf, Bool.false_eq_true, if_false]
              exact h.own hi (.of_nil rfl) _
      · exact h

/-- Segments of the map under different identifiers. -/
theorem disjoint (h : shared.Intact) {x y : SegmentId} {a b : Segment}
    (hx : shared.log.segmentMap.lookup x = some a) (hy : shared.log.segmentMap.lookup y = some b)
    (hne : x ≠ y) : a.Disjoint b := by
  have hvalues := (List.pairwise_append.mp h.apart).1
  rw [Table.values, List.pairwise_map] at hvalues
  have : Std.Symm fun s r : (_ : SegmentId) × Segment => s.2.Disjoint r.2 :=
    ⟨fun _ _ hd => hd.symm⟩
  refine hvalues.forall (AList.mem_lookup_iff.mp hx) (AList.mem_lookup_iff.mp hy) ?_
  exact fun heq => hne (congrArg Sigma.fst heq)

/-- A segment of the map reads back. -/
theorem read (h : shared.Intact) {x : SegmentId} {a : Segment}
    (hx : shared.log.segmentMap.lookup x = some a) :
    ∃ data, shared.contents.lookup x = some data ∧ shared.log.read x = .ok data := by
  have hrel := h.installed x
  rw [hx] at hrel
  generalize shared.contents.lookup x = contents at hrel
  cases hrel with
  | @some _ data hcar =>
      refine ⟨data, rfl, ?_⟩
      rw [NvramLog.read]
      simp only [hx, hcar.len]
      rcases hcar.extent with rfl | ⟨hin, hext⟩
      · simp
      · rw [if_pos (.inl hin), hext]

end Intact

/-- The extents of the segments of the map have no byte in common. -/
def Separate (shared : SharedLog) : Prop :=
  ∀ x y a b, shared.log.segmentMap.lookup x = some a → shared.log.segmentMap.lookup y = some b →
    x ≠ y → a.Disjoint b

/-- Each of them reads back the payload it was installed with. -/
def ReadsBack (shared : SharedLog) : Prop :=
  ∀ x a, shared.log.segmentMap.lookup x = some a →
    ∃ data, shared.contents.lookup x = some data ∧ shared.log.read x = .ok data

theorem Intact.separate (h : shared.Intact) : shared.Separate :=
  fun _ _ _ _ hx hy hne => h.disjoint hx hy hne

theorem Intact.reads_back (h : shared.Intact) : shared.ReadsBack := fun _ _ hx => h.read hx

end SharedLog

end Space

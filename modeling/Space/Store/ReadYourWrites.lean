import Space.Store.Nvram
import Mathlib.Data.Option.Basic

/-!
# Store — ReadYourWrites

One client of the log, whose transactions do not overlap with each other or with a plain append.
Then the file ends at the offset of the next append whenever no transaction is open, every extent
of the map lies inside the file, and what a transaction stages is laid out behind it in order.

* `readsBack`: every identifier of the map reads back the payload last appended for it, and the
  map has no others.
* `not_readsBack`: not if `set_segment_metadata` is given a segment of another identifier, since
  `commit` installs a pending segment under its own.
-/

namespace Space
open Support

/-- What a client calls. -/
inductive NvramCall where
  | append (segId : SegmentId) (data : Bytes)
  | incrementRefcount (segId : SegmentId)
  | decrementRefcount (segId : SegmentId)
  | removeSegment (segId : SegmentId)
  | updateSegmentMetadata (segId : SegmentId) (segment : Segment)
  | reopen
  | beginTransaction
  | appendSegment (segId : SegmentId) (data : Bytes)
  | setSegmentMetadata (segId : SegmentId) (segment : Segment)
  | commit
  | rollback
  | drop

/-- A client: the log, the transaction that is open, and what the calls so far amount to: the
payload last appended for each identifier, and those staged in the open transaction. -/
structure NvramClient where
  log : NvramLog
  transaction : Option NvramTransaction
  contents : Table SegmentId Bytes
  staged : List (SegmentId × Bytes)

namespace NvramClient

/-- A log over new files. -/
def start : NvramClient where
  log := .empty
  transaction := none
  contents := ∅
  staged := []

/-- The contents after the staged payloads, in order. -/
def install (staged : List (SegmentId × Bytes)) (contents : Table SegmentId Bytes) :
    Table SegmentId Bytes :=
  staged.foldl (fun contents entry => contents.insert entry.1 entry.2) contents

/-- A transaction is rolled back, or dropped. -/
def abandon (client : NvramClient) : NvramClient :=
  match client.transaction with
  | none => client
  | some t => { client with log := (t.rollback client.log).2, transaction := none, staged := [] }

def step (client : NvramClient) : NvramCall → NvramClient
  | .append segId data =>
    { client with
      log := (client.log.append segId data).2
      contents := client.contents.insert segId data }
  | .incrementRefcount segId => { client with log := (client.log.incrementRefcount segId).2 }
  | .decrementRefcount segId => { client with log := (client.log.decrementRefcount segId).2 }
  | .removeSegment segId =>
    { client with
      log := (client.log.removeSegment segId).2
      contents := client.contents.erase segId }
  | .updateSegmentMetadata segId segment =>
    { client with log := client.log.updateSegmentMetadata segId segment }
  | .reopen => { client with log := client.log.reopen }
  | .beginTransaction =>
      { client with transaction := some client.log.beginTransaction, staged := [] }
  | .appendSegment segId data =>
    match client.transaction with
    | none => client
    | some t =>
      match t.appendSegment segId data client.log with
      | (.error _, log) => { client with log := log }
      | (.ok (_, t), log) =>
        { client with
          log := log
          transaction := some t
          staged := client.staged ++ [(segId, data)] }
  | .setSegmentMetadata segId segment =>
    match client.transaction with
    | none => client
    | some t =>
      match t.setSegmentMetadata segId segment with
      | .error _ => client
      | .ok t => { client with transaction := some t }
  | .commit =>
    match client.transaction with
    | none => client
    | some t =>
      { client with
        log := (t.commit client.log).2
        transaction := none
        contents := install client.staged client.contents
        staged := [] }
  | .rollback => client.abandon
  | .drop => client.abandon

/-- No transaction is open when one begins, when a payload is appended outside of one, and when the
log is opened again; a transaction stages an identifier once; a payload has a length of 32 bits;
metadata is replaced by metadata of the same extent. -/
def Serial (client : NvramClient) : NvramCall → Prop
  | .append _ data => client.transaction = none ∧ data.length < 4294967296
  | .reopen | .beginTransaction => client.transaction = none
  | .appendSegment segId data =>
      data.length < 4294967296 ∧ segId ∉ client.staged.map Prod.fst
  | .updateSegmentMetadata segId segment => ∃ old, client.log.segmentMap.lookup segId = some old ∧
      segment.offset = old.offset ∧ segment.len = old.len
  | .setSegmentMetadata segId segment => ∀ t old, client.transaction = some t →
      t.pendingSegment segId = some old → segment.offset = old.offset ∧ segment.len = old.len
  | .incrementRefcount _ | .decrementRefcount _ | .removeSegment _ | .commit | .rollback | .drop =>
      True

/-- The metadata of a pending segment is replaced by metadata of the same identifier. -/
def KeepsId : NvramCall → Prop
  | .setSegmentMetadata segId segment => segment.id = segId
  | _ => True

/-- The clients reached by calls that `A` allows. -/
inductive Reached (A : NvramClient → NvramCall → Prop) : NvramClient → Prop
  | start : Reached A .start
  | step {client : NvramClient} {call : NvramCall} :
      Reached A client → A client call → Reached A (client.step call)

/-- What is in the map reads back as it was last appended, and nothing else is. -/
def ReadsBack (client : NvramClient) : Prop := ∀ segId,
  client.log.read segId =
      (client.contents.lookup segId).elim (.error (.msg "Segment not found")) .ok ∧
    (segId ∈ client.log.segmentMap ↔ segId ∈ client.contents)

end NvramClient

/-! ### Extents that hold their payloads -/

/-- The extent of the segment is inside the file, and holds the payload. -/
structure Segment.Holds (file : Bytes) (segment : Segment) (data : Bytes) : Prop where
  len : segment.len = data.length
  inside : segment.offset + data.length ≤ file.length
  extent : slice file segment.offset data.length = data

/-- The entries of the map hold the contents. -/
def Placed (file : Bytes) (m : Table SegmentId Segment) (contents : Table SegmentId Bytes) : Prop :=
  ∀ segId, Option.Rel (Segment.Holds file) (m.lookup segId) (contents.lookup segId)

namespace Placed
variable {file : Bytes} {m : Table SegmentId Segment} {contents : Table SegmentId Bytes}
  {segId : SegmentId} {segment : Segment} {data : Bytes}

/-- **A payload at the end of the file.** -/
theorem append (h : Placed file m contents) (ho : segment.offset = file.length)
    (hl : segment.len = data.length) :
    Placed (file ++ data) (m.insert segId segment) (contents.insert segId data) := by
  intro other
  rw [Table.lookup_insert, Table.lookup_insert]
  by_cases e : other = segId
  · rw [if_pos e, if_pos e]
    refine .some ⟨hl, ?_, ?_⟩
    · rw [ho, List.length_append]
    · rw [ho, slice_append_right]
  · rw [if_neg e, if_neg e]
    -- the other extents are in front of it
    have hother := h other
    revert hother
    cases m.lookup other with
    | none => cases contents.lookup other <;> intro hother <;> cases hother; exact .none
    | some old =>
        cases contents.lookup other with
        | none => intro hother; cases hother
        | some payload =>
            rintro (⟨⟨hlen, hin, hext⟩⟩)
            refine .some ⟨hlen, ?_, ?_⟩
            · rw [List.length_append]
              exact Nat.le_add_right_of_le hin
            · rw [slice_append_left hin, hext]

/-- **Other metadata for the same extent.** -/
theorem update (h : Placed file m contents) {old : Segment} (hold : m.lookup segId = some old)
    (ho : segment.offset = old.offset) (hl : segment.len = old.len) :
    Placed file (m.insert segId segment) contents := by
  intro other
  rw [Table.lookup_insert]
  by_cases e : other = segId
  · rw [if_pos e, e]
    have hother := h segId
    rw [hold] at hother
    generalize contents.lookup segId = payload at hother
    cases hother with
    | some hholds => exact .some ⟨hl.trans hholds.len, ho ▸ hholds.inside, ho ▸ hholds.extent⟩
  · rw [if_neg e]
    exact h other

theorem erase (h : Placed file m contents) :
    Placed file (m.erase segId) (contents.erase segId) := by
  intro other
  rw [Table.lookup_erase, Table.lookup_erase]
  by_cases e : other = segId
  · rw [if_pos e, if_pos e]
    exact .none
  · rw [if_neg e, if_neg e]
    exact h other

end Placed

/-! ### What a transaction has staged -/

/-- The pending segments lie one behind the other from an offset, with the staged payloads. -/
def Laid : Nat → List PendingSegment → List (SegmentId × Bytes) → Prop
  | _, [], [] => True
  | o, p :: ps, entry :: staged =>
      (p.segment.id = entry.1 ∧ p.data = entry.2 ∧ p.segment.offset = o ∧
        p.segment.len = entry.2.length) ∧ Laid (o + entry.2.length) ps staged
  | _, _, _ => False

/-- The bytes that are staged. -/
def stagedBytes (staged : List (SegmentId × Bytes)) : Nat := (staged.map fun e => e.2.length).sum

namespace Laid
variable {o : Nat} {pending : List PendingSegment} {staged : List (SegmentId × Bytes)}
  {segId : SegmentId}

theorem append {data : Bytes} (hd : data.length < 4294967296) :
    ∀ {o : Nat} {pending : List PendingSegment} {staged : List (SegmentId × Bytes)},
      Laid o pending staged →
      Laid o (pending ++ [⟨.appended segId (o + stagedBytes staged) (asU32 data.length), data⟩])
        (staged ++ [(segId, data)])
  | o, [], [], _ => ⟨⟨rfl, rfl, rfl, asU32_of_lt hd⟩, trivial⟩
  | o, p :: ps, entry :: staged, ⟨hp, h⟩ => by
      refine ⟨hp, ?_⟩
      have hsum : o + stagedBytes (entry :: staged) =
          o + entry.2.length + stagedBytes staged := (Nat.add_assoc _ _ _).symm
      rw [hsum]
      exact append hd h
  | _, [], _ :: _, h => h.elim
  | _, _ :: _, [], h => h.elim

/-- Other metadata of the same identifier for the same extent. -/
theorem modify {segment : Segment} (hid : segment.id = segId) :
    ∀ {o : Nat} {pending pending' : List PendingSegment} {staged : List (SegmentId × Bytes)},
      Laid o pending staged →
      (∀ old, (pending.find? fun p => p.segment.id = segId).map PendingSegment.segment = some old →
        segment.offset = old.offset ∧ segment.len = old.len) →
      NvramTransaction.modifyPending segId (fun _ => segment) pending = some pending' →
        Laid o pending' staged
  | o, p :: ps, pending', entry :: staged, ⟨hp, h⟩, hsame, hm => by
      rw [NvramTransaction.modifyPending] at hm
      by_cases e : p.segment.id = segId
      · rw [if_pos e] at hm
        obtain rfl := Option.some.inj hm
        obtain ⟨ho, hl⟩ := hsame p.segment (by rw [List.find?_cons_of_pos (by simpa using e)]; rfl)
        exact ⟨⟨hid.trans (e.symm.trans hp.1), hp.2.1, ho.trans hp.2.2.1, hl.trans hp.2.2.2⟩, h⟩
      · rw [if_neg e] at hm
        obtain ⟨rest, hrest, rfl⟩ := Option.map_eq_some_iff.mp hm
        refine ⟨hp, modify hid h (fun old hold => hsame old ?_) hrest⟩
        rw [List.find?_cons_of_neg (by simpa using e)]
        exact hold
  | _, [], _, [], _, _, hm => by cases hm
  | _, [], _, _ :: _, h, _, _ => h.elim
  | _, _ :: _, _, [], h, _, _ => h.elim

/-- **What a commit writes and installs.** -/
theorem commit : ∀ {pending : List PendingSegment} {staged : List (SegmentId × Bytes)}
    {file : Bytes} {m : Table SegmentId Segment} {contents : Table SegmentId Bytes},
    Laid file.length pending staged → Placed file m contents →
      Placed (NvramTransaction.writePending pending file)
        (NvramTransaction.installPending pending m) (NvramClient.install staged contents) ∧
      (NvramTransaction.writePending pending file).length = file.length + stagedBytes staged
  | [], [], _, _, _, _, h => ⟨h, rfl⟩
  | p :: ps, entry :: staged, file, m, contents, ⟨⟨hid, hdata, ho, hl⟩, hlaid⟩, h => by
      have hfile : writeAt 0 file p.segment.offset p.data = file ++ entry.2 := by
        rw [ho, hdata, writeAt_end]
      have hlen : (file ++ entry.2).length = file.length + entry.2.length := List.length_append
      have hplaced : Placed (file ++ entry.2) (m.insert entry.1 p.segment)
          (contents.insert entry.1 entry.2) := h.append ho hl
      obtain ⟨hrest, hsum⟩ := commit (hlen ▸ hlaid) hplaced
      have hwrite : NvramTransaction.writePending (p :: ps) file =
          NvramTransaction.writePending ps (file ++ entry.2) :=
        congrArg (NvramTransaction.writePending ps) hfile
      have hinstall : NvramTransaction.installPending (p :: ps) m =
          NvramTransaction.installPending ps (m.insert entry.1 p.segment) := hid ▸ rfl
      rw [hwrite, hinstall]
      exact ⟨hrest, by rw [hsum, hlen, Nat.add_assoc]; rfl⟩
  | [], _ :: _, _, _, _, h, _ => h.elim
  | _ :: _, [], _, _, _, h, _ => h.elim

end Laid

/-! ### The calls -/

namespace NvramClient
variable {client : NvramClient}

/-- The transaction that is open stages behind the file; without one, the next append does. -/
def Open (client : NvramClient) : Prop :=
  match client.transaction with
  | none => client.log.nextOffset = client.log.file.length
  | some t => t.finalized = false ∧ t.baseOffset = client.log.file.length ∧
      client.log.nextOffset = t.currentOffset ∧
      t.currentOffset = client.log.file.length + stagedBytes client.staged ∧
      Laid client.log.file.length t.pending client.staged

/-- What holds of a client between its calls. -/
structure Sound (client : NvramClient) : Prop where
  saved : client.log.savedMap.getD ∅ = client.log.segmentMap
  placed : Placed client.log.file client.log.segmentMap client.contents
  openTx : client.Open

theorem sound_start : start.Sound where
  saved := rfl
  placed := fun _ => .none
  openTx := rfl

/-- **What is placed reads back.** -/
theorem Sound.reads (h : client.Sound) : client.ReadsBack := by
  intro segId
  have hplaced := h.placed segId
  unfold NvramLog.read
  rw [Table.mem_iff, Table.mem_iff]
  revert hplaced
  cases client.log.segmentMap.lookup segId with
  | none =>
      cases client.contents.lookup segId <;> intro hplaced <;> cases hplaced
      exact ⟨rfl, by simp⟩
  | some segment =>
      cases client.contents.lookup segId with
      | none => intro hplaced; cases hplaced
      | some data =>
          rintro (⟨⟨hlen, hin, hext⟩⟩)
          refine ⟨?_, by simp⟩
          simp only [hlen]
          rw [if_pos (.inl hin), hext]
          rfl

/-- A log whose map was replaced, with the file and the offset as they were. -/
theorem Sound.withMap (h : client.Sound) {m : Table SegmentId Segment}
    {contents : Table SegmentId Bytes} (hp : Placed client.log.file m contents) :
    Sound { client with log := client.log.withMap m, contents := contents } where
  saved := rfl
  placed := hp
  openTx := h.openTx

theorem Sound.append (h : client.Sound) {segId : SegmentId} {data : Bytes}
    (ht : client.transaction = none) (hd : data.length < 4294967296) :
    (client.step (.append segId data)).Sound := by
  have hopen : client.log.nextOffset = client.log.file.length := by
    have hopen := h.openTx
    unfold Open at hopen
    rw [ht] at hopen
    exact hopen
  have hfile : writeAt 0 client.log.file client.log.nextOffset data = client.log.file ++ data := by
    rw [hopen, writeAt_end]
  have hplaced : Placed (client.log.file ++ data)
      (client.log.segmentMap.insert segId
        (.appended segId client.log.nextOffset (asU32 data.length)))
      (client.contents.insert segId data) := h.placed.append hopen (asU32_of_lt hd)
  have hlog : (client.log.append segId data).2.file = client.log.file ++ data := hfile
  refine ⟨rfl, ?_, ?_⟩
  · rw [step, hlog]
    exact hplaced
  · rw [Open, step, ht, hlog, List.length_append, ← hopen]
    rfl

theorem Sound.incrementRefcount (h : client.Sound) {segId : SegmentId} :
    (client.step (.incrementRefcount segId)).Sound := by
  rw [step, NvramLog.incrementRefcount]
  cases hl : client.log.segmentMap.lookup segId with
  | none => exact h
  | some segment =>
      refine h.withMap ?_
      exact h.placed.update hl rfl rfl

theorem Sound.decrementRefcount (h : client.Sound) {segId : SegmentId} :
    (client.step (.decrementRefcount segId)).Sound := by
  rw [step, NvramLog.decrementRefcount]
  cases hl : client.log.segmentMap.lookup segId with
  | none => exact h
  | some segment =>
      by_cases h0 : segment.refCount = 0
      · simp only [h0, if_true]
        exact h
      · simp only [h0, if_false]
        refine h.withMap ?_
        exact h.placed.update hl rfl rfl

theorem Sound.removeSegment (h : client.Sound) {segId : SegmentId} :
    (client.step (.removeSegment segId)).Sound := by
  rw [step, NvramLog.removeSegment]
  cases hl : client.log.segmentMap.lookup segId with
  | none =>
      have hcontents : client.contents.lookup segId = none := by
        have hplaced := h.placed segId
        rw [hl] at hplaced
        generalize client.contents.lookup segId = payload at hplaced
        cases hplaced
        rfl
      rw [Table.erase_of_lookup_none hcontents]
      exact h
  | some segment => exact h.withMap h.placed.erase

theorem Sound.reopen (h : client.Sound) (ht : client.transaction = none) :
    (client.step .reopen).Sound where
  saved := rfl
  placed := by
    show Placed client.log.file (client.log.savedMap.getD ∅) client.contents
    rw [h.saved]
    exact h.placed
  openTx := by
    rw [Open, step, ht]
    rfl

theorem Sound.beginTransaction (h : client.Sound) (ht : client.transaction = none) :
    (client.step .beginTransaction).Sound where
  saved := h.saved
  placed := h.placed
  openTx := by
    have hopen := h.openTx
    unfold Open at hopen
    rw [ht] at hopen
    exact ⟨rfl, hopen, rfl, hopen, trivial⟩

theorem Sound.appendSegment (h : client.Sound) {segId : SegmentId} {data : Bytes}
    (hd : data.length < 4294967296) : (client.step (.appendSegment segId data)).Sound := by
  have hopen := h.openTx
  unfold Open at hopen
  rw [step]
  cases ht : client.transaction with
  | none => exact h
  | some t =>
      rw [ht] at hopen
      obtain ⟨hfin, hbase, hoff, hcur, hlaid⟩ := hopen
      simp only [NvramTransaction.appendSegment, NvramTransaction.ensureActive, hfin,
        Bool.false_eq_true, if_false]
      refine ⟨h.saved, h.placed, rfl, hbase, rfl, ?_, ?_⟩
      · show t.currentOffset + data.length = _
        rw [hcur, stagedBytes, stagedBytes, List.map_append, List.sum_append, Nat.add_assoc]
        rfl
      · show Laid client.log.file.length _ _
        rw [hcur]
        exact hlaid.append hd

theorem Sound.setSegmentMetadata (h : client.Sound) {segId : SegmentId} {segment : Segment}
    (hid : segment.id = segId) (hsame : ∀ t old, client.transaction = some t →
      t.pendingSegment segId = some old → segment.offset = old.offset ∧ segment.len = old.len) :
    (client.step (.setSegmentMetadata segId segment)).Sound := by
  have hopen := h.openTx
  unfold Open at hopen
  rw [step]
  cases ht : client.transaction with
  | none => exact h
  | some t =>
      rw [ht] at hopen
      obtain ⟨hfin, hbase, hoff, hcur, hlaid⟩ := hopen
      simp only
      unfold NvramTransaction.setSegmentMetadata NvramTransaction.withSegmentMut
      simp only [NvramTransaction.ensureActive, hfin, Bool.false_eq_true, if_false]
      cases hm : NvramTransaction.modifyPending segId (fun _ => segment) t.pending with
      | none => exact h
      | some pending =>
          exact ⟨h.saved, h.placed, rfl, hbase, hoff, hcur, hlaid.modify hid
            (fun old hold => hsame t old ht hold) hm⟩

theorem Sound.commit (h : client.Sound) : (client.step .commit).Sound := by
  have hopen := h.openTx
  unfold Open at hopen
  rw [step]
  cases ht : client.transaction with
  | none => exact h
  | some t =>
      rw [ht] at hopen
      obtain ⟨hfin, hbase, hoff, hcur, hlaid⟩ := hopen
      obtain ⟨hplaced, hlen⟩ := hlaid.commit h.placed
      by_cases hnil : t.pending = []
      · -- nothing is staged, and nothing changes
        have hstaged : client.staged = [] := by
          rw [hnil] at hlaid
          cases hs : client.staged with
          | nil => rfl
          | cons entry staged => rw [hs] at hlaid; exact hlaid.elim
        have hlog : (t.commit client.log).2 = client.log := by
          rw [NvramTransaction.commit, if_neg (Bool.eq_false_iff.mp hfin), if_pos hnil]
        simp only [hlog, hstaged]
        exact ⟨h.saved, h.placed, hoff.trans (hcur.trans (by rw [hstaged]; rfl))⟩
      · have hlog : (t.commit client.log).2 = { client.log with
            file := NvramTransaction.writePending t.pending client.log.file
            nextOffset := t.currentOffset }.withMap
              (NvramTransaction.installPending t.pending client.log.segmentMap) := by
          rw [NvramTransaction.commit, if_neg (Bool.eq_false_iff.mp hfin), if_neg hnil]
        simp only [hlog]
        exact ⟨rfl, hplaced, hcur.trans hlen.symm⟩

theorem Sound.abandon (h : client.Sound) : client.abandon.Sound := by
  have hopen := h.openTx
  unfold Open at hopen
  unfold NvramClient.abandon
  cases ht : client.transaction with
  | none => exact h
  | some t =>
      rw [ht] at hopen
      obtain ⟨hfin, hbase, -, -, -⟩ := hopen
      have hlog : (t.rollback client.log).2 = { client.log with nextOffset := t.baseOffset } := by
        rw [NvramTransaction.rollback, if_neg (Bool.eq_false_iff.mp hfin)]
      simp only [hlog]
      exact ⟨h.saved, h.placed, hbase⟩

theorem Sound.step (h : client.Sound) {call : NvramCall} (hs : Serial client call)
    (hid : KeepsId call) : (client.step call).Sound := by
  cases call with
  | append segId data => exact h.append hs.1 hs.2
  | incrementRefcount segId => exact h.incrementRefcount
  | decrementRefcount segId => exact h.decrementRefcount
  | removeSegment segId => exact h.removeSegment
  | updateSegmentMetadata segId segment =>
      obtain ⟨old, hold, ho, hl⟩ := hs
      exact h.withMap (h.placed.update hold ho hl)
  | reopen => exact h.reopen hs
  | beginTransaction => exact h.beginTransaction hs
  | appendSegment segId data => exact h.appendSegment hs.1
  | setSegmentMetadata segId segment => exact h.setSegmentMetadata hid hs
  | commit => exact h.commit
  | rollback => exact h.abandon
  | drop => exact h.abandon

/-- **Every identifier of the map reads back what was last appended for it.** -/
theorem readsBack (h : Reached (fun client call => Serial client call ∧ KeepsId call) client) :
    client.ReadsBack := by
  have hsound : client.Sound := by
    induction h with
    | start => exact sound_start
    | step _ hs ih => exact ih.step hs.1 hs.2
  exact hsound.reads

/-- A transaction stages one payload, replaces its metadata, and commits. -/
def renamed (id : SegmentId) : NvramClient :=
  (((start.step .beginTransaction).step (.appendSegment ⟨0⟩ [7])).step
    (.setSegmentMetadata ⟨0⟩ (.appended id 0 1))).step .commit

theorem reached_renamed {id : SegmentId} {A : NvramClient → NvramCall → Prop}
    (hA : ∀ client call, Serial client call →
      (∀ segId segment, call = .setSegmentMetadata segId segment → segId = ⟨0⟩ ∧ segment.id = id) →
        A client call) : Reached A (renamed id) := by
  have hbegin : Serial start .beginTransaction := rfl
  have happend : Serial (start.step .beginTransaction) (.appendSegment ⟨0⟩ [7]) :=
    ⟨by decide, List.not_mem_nil⟩
  have hset : Serial ((start.step .beginTransaction).step (.appendSegment ⟨0⟩ [7]))
      (.setSegmentMetadata ⟨0⟩ (.appended id 0 1)) := by
    rintro t old ⟨⟩ hold
    obtain rfl := Option.some.inj hold
    exact ⟨rfl, rfl⟩
  have h₁ := Reached.step .start (hA _ _ hbegin fun _ _ e => by cases e)
  have h₂ := h₁.step (hA _ _ happend fun _ _ e => by cases e)
  have h₃ := h₂.step (hA _ _ hset fun _ _ e => by cases e; exact ⟨rfl, rfl⟩)
  exact h₃.step (hA _ _ trivial fun _ _ e => by cases e)

/-- In a run of four calls. -/
theorem readsBack_committed : (renamed ⟨0⟩).ReadsBack :=
  readsBack (reached_renamed fun client call hs hid => ⟨hs, by
    cases call with
    | setSegmentMetadata segId segment =>
        obtain ⟨rfl, hsame⟩ := hid segId segment rfl
        exact hsame
    | _ => trivial⟩)

/-- **Not if the metadata is that of another identifier**: the payload is then installed under an
identifier nothing was appended for. -/
theorem not_readsBack : ¬ ∀ client, Reached Serial client → client.ReadsBack := by
  intro h
  have hreads := h (renamed ⟨1⟩) (reached_renamed fun _ _ hs _ => hs) ⟨1⟩
  exact absurd hreads.1 (by decide)

end NvramClient

end Space

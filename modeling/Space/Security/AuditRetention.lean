import Space.Security.AuditChain
import Space.Support.Lists

/-!
# Security — AuditRetention

What the two files of the audit log keep, over appends, rotations, restarts, and crashes anywhere
in an append.  A rotation drops the file that was rotated before, and a line written behind a torn
one is not a line of its own; where neither happens to an acknowledged record (`KeepsLines`), each
of them is there, once.

* `durable`: in a history of such steps the files keep every acknowledged record, and nothing else
  but records whose append did not return.
* `not_durable`: after two rotations they do not.
-/

namespace Space
open Support

variable {Event : Type} {C : AuditCodec Event} {P : Primitives}

/-- The records of the two files. -/
def retained (C : AuditCodec Event) (files : AuditFiles) : List (AuditRecord Event) :=
  recordsIn C (files.rotated.getD []) ++ recordsIn C (files.current.getD [])

/-- Each acknowledged item has a line of its own, and any other line is that of an item whose
append did not return. -/
structure Accounts {α : Type} (acknowledged interrupted lines : List α) : Prop where
  kept : acknowledged.Subperm lines
  once : lines.Subperm (acknowledged ++ interrupted)

/-- The files account for the acknowledged records. -/
def AuditWorld.Durable (C : AuditCodec Event) (world : AuditWorld Event) : Prop :=
  Accounts world.acknowledged world.interrupted (retained C world.files)

namespace Accounts
variable {α : Type} {acknowledged interrupted lines dropped : List α} {item : α}

/-- One more line, of an item that is acknowledged. -/
theorem acknowledge (h : Accounts acknowledged interrupted lines) :
    Accounts (acknowledged ++ [item]) interrupted (lines ++ [item]) where
  kept := (List.subperm_append_right [item]).mpr h.kept
  once := by
    have hperm : (acknowledged ++ interrupted ++ [item]).Perm
        (acknowledged ++ [item] ++ interrupted) := by
      rw [List.append_assoc, List.append_assoc]
      exact List.perm_append_comm.append_left acknowledged
    exact ((List.subperm_append_right [item]).mpr h.once).trans hperm.subperm

/-- One more line, or none, of an item whose append does not return. -/
theorem interrupt (h : Accounts acknowledged interrupted lines) {torn : List α}
    (ht : torn.Sublist [item]) :
    Accounts acknowledged (interrupted ++ [item]) (lines ++ torn) where
  kept := h.kept.trans (List.sublist_append_left lines torn).subperm
  once := by
    rw [← List.append_assoc]
    exact h.once.append ht.subperm

/-- Lines go, none of them of an acknowledged item. -/
theorem drop (h : Accounts acknowledged interrupted (dropped ++ lines))
    (hd : ∀ item ∈ dropped, item ∉ acknowledged) : Accounts acknowledged interrupted lines where
  kept := subperm_of_disjoint h.kept hd
  once := (List.sublist_append_right dropped lines).subperm.trans h.once

end Accounts

/-! ### The lines of a file -/

theorem recordsIn_append {file bytes : Bytes} (h : Lines.Ended 10 file) :
    recordsIn C (file ++ bytes) = recordsIn C file ++ recordsIn C bytes := by
  rw [recordsIn, Lines.lines_append h, List.filterMap_append]
  rfl

theorem recordsIn_auditLine {record : AuditRecord Event} (h : C.Finite record.event) :
    recordsIn C (auditLine C record) = [record] := by
  have hlines := lines_records (C := C) [record] []
  rw [List.append_nil, List.flatMap_singleton] at hlines
  rw [recordsIn, hlines]
  exact List.filterMap_cons_some (recordOn_auditLine.trans (C.fromStr_toString h))

/-- The first bytes of a line hold its record or none. -/
theorem recordsIn_take {record : AuditRecord Event} (h : C.Finite record.event) (n : Nat) :
    (recordsIn C ((auditLine C record).take n)).Sublist [record] := by
  by_cases hn : (auditLine C record).length ≤ n
  · rw [List.take_of_length_le hn, recordsIn_auditLine h]
  · have hstart : (auditLine C record).take n <+: utf8Encode (C.toString record) := by
      have hlen : n ≤ (utf8Encode (C.toString record)).length := by
        rw [auditLine, List.length_append, List.length_singleton] at hn
        omega
      rw [auditLine, List.take_append_of_le_length hlen]
      exact List.take_prefix _ _
    generalize (auditLine C record).take n = torn at hstart
    have hplain : (10 : UInt8) ∉ torn := fun hm => newline_notMem_record (hstart.subset hm)
    rw [recordsIn, Lines.lines_tail hplain]
    split
    · exact List.nil_sublist _
    · rw [List.filterMap_cons, List.filterMap_nil]
      cases hd : utf8Decode torn with
      | none => rw [recordOn, hd]; exact List.nil_sublist _
      | some text =>
          have htext : text <+: C.toString record :=
            prefix_of_utf8Encode_prefix (utf8Encode_of_utf8Decode hd ▸ hstart)
          have hstrip : stripEol text = text :=
            if_neg fun e => (C.oneLine record _ (htext.subset (List.mem_of_getLast? e))).1 rfl
          rw [recordOn, hd, Option.bind_some, hstrip]
          by_cases heq : text = C.toString record
          · rw [heq, parseLine_toString, C.fromStr_toString h]
          · rw [parseLine, C.fromStr_prefix htext heq, ite_self]
            exact List.nil_sublist _

/-! ### The steps -/

/-- If the next record is written at all, it reads back and starts on a line of its own, and a
rotation that follows drops no acknowledged record. -/
def LineKept (C : AuditCodec Event) (P : Primitives) (world : AuditWorld Event) (event : Event)
    (timestamp : UInt64) (proof : Except Error TsaProof) (rotates : Prop) : Prop :=
  ∀ options state tsaProof, world.log = some (options, state) →
    (state.stamp options proof).1 = .ok tsaProof →
      C.Finite event ∧ Lines.Ended 10 (world.files.current.getD []) ∧
      (rotates → (world.files.write (auditLine C
          ((state.stamp options proof).2.record C P event timestamp tsaProof))).Full options →
        ∀ record ∈ recordsIn C (world.files.rotated.getD []), record ∉ world.acknowledged)

/-- The step writes no line behind a torn one, and drops no acknowledged record. -/
def KeepsLines (C : AuditCodec Event) (P : Primitives) (world : AuditWorld Event) :
    AuditStep Event → Prop
  | .append event timestamp proof => LineKept C P world event timestamp proof True
  | .restart _ => True
  | .crash event timestamp proof (.writing _) => LineKept C P world event timestamp proof False
  | .crash event timestamp proof .renamed => LineKept C P world event timestamp proof True
  | .crash event timestamp proof .done => LineKept C P world event timestamp proof True

/-- The records once more bytes are written. -/
theorem retained_write {files : AuditFiles} {bytes : Bytes}
    (h : Lines.Ended 10 (files.current.getD [])) :
    retained C (files.write bytes) = retained C files ++ recordsIn C bytes := by
  rw [retained, AuditFiles.getD_write, recordsIn_append h, ← List.append_assoc]
  rfl

/-- The records once the current file is the rotated one. -/
theorem retained_rotated {current rotated : Option Bytes} (h : current.getD [] = []) :
    retained C ⟨current, rotated⟩ = recordsIn C (rotated.getD []) := by
  rw [retained, h]
  exact List.append_nil _

/-- A record is written; if that fills the file, the records of the rotated one are dropped. -/
theorem retained_filesAfter {options : AuditOptions} {files : AuditFiles}
    {record : AuditRecord Event} {spared : AuditRecord Event → Prop} (hf : C.Finite record.event)
    (he : Lines.Ended 10 (files.current.getD []))
    (hs : (files.write (auditLine C record)).Full options →
      ∀ old ∈ recordsIn C (files.rotated.getD []), spared old) :
    ∃ dropped kept, retained C files = dropped ++ kept ∧
      retained C (AuditWorld.filesAfter C options files record) = kept ++ [record] ∧
      ∀ old ∈ dropped, spared old := by
  have hline : recordsIn C (auditLine C record) = [record] := recordsIn_auditLine hf
  unfold AuditWorld.filesAfter
  split
  · next hfull =>
      refine ⟨_, _, rfl, ?_, hs hfull⟩
      rw [AuditFiles.rotate, retained_rotated rfl, AuditFiles.getD_write, recordsIn_append he,
        hline]
  · exact ⟨[], retained C files, rfl, by rw [retained_write he, hline],
      fun _ hm => absurd hm List.not_mem_nil⟩

theorem retained_filesCrashed_renamed {options : AuditOptions} {files : AuditFiles}
    {record : AuditRecord Event} :
    retained C (AuditWorld.filesCrashed C options files record .renamed) =
      retained C (AuditWorld.filesAfter C options files record) := by
  rw [AuditWorld.filesCrashed, AuditWorld.filesAfter]
  split
  · exact (retained_rotated rfl).trans (retained_rotated rfl).symm
  · rfl

namespace AuditWorld
variable {world : AuditWorld Event}

theorem Durable.restart (h : world.Durable C) {options : AuditOptions} :
    (world.step C P (.restart options)).Durable C := by
  rw [step_restart]
  exact h

/-- **An append whose line is kept.** -/
theorem Durable.append (h : world.Durable C) {event : Event} {timestamp : UInt64}
    {proof : Except Error TsaProof} (hk : LineKept C P world event timestamp proof True) :
    (world.step C P (.append event timestamp proof)).Durable C := by
  cases hlog : world.log with
  | none =>
      rw [step_append_closed hlog]
      exact h
  | some log =>
      obtain ⟨options, state⟩ := log
      cases hs : state.stamp options proof with
      | mk result stamped =>
          cases result with
          | error e =>
              rw [step_append_refused hlog hs]
              exact h
          | ok tsaProof =>
              obtain ⟨hfinite, hended, hspare⟩ := hk options state tsaProof hlog (by rw [hs])
              rw [hs] at hspare
              rw [step_append hlog hs]
              obtain ⟨dropped, kept, hbefore, hafter, hdropped⟩ :=
                retained_filesAfter hfinite hended (hspare trivial)
              unfold Durable at h ⊢
              rw [hbefore] at h
              rw [hafter]
              exact (h.drop hdropped).acknowledge

/-- **A crash in an append whose line is kept.** -/
theorem Durable.crash (h : world.Durable C) {event : Event} {timestamp : UInt64}
    {proof : Except Error TsaProof} {point : AuditCrash}
    (hk : KeepsLines C P world (.crash event timestamp proof point)) :
    (world.step C P (.crash event timestamp proof point)).Durable C := by
  cases hlog : world.log with
  | none =>
      rw [step_crash_closed hlog]
      exact h
  | some log =>
      obtain ⟨options, state⟩ := log
      cases hs : state.stamp options proof with
      | mk result stamped =>
          cases result with
          | error e =>
              rw [step_crash_refused hlog hs]
              exact h
          | ok tsaProof =>
              rw [step_crash hlog hs]
              have reached : LineKept C P world event timestamp proof True →
                  Accounts world.acknowledged
                    (world.interrupted ++ [stamped.record C P event timestamp tsaProof])
                    (retained C (filesAfter C options world.files
                      (stamped.record C P event timestamp tsaProof))) := by
                intro hk
                obtain ⟨hfinite, hended, hspare⟩ := hk options state tsaProof hlog (by rw [hs])
                rw [hs] at hspare
                obtain ⟨dropped, kept, hbefore, hafter, hdropped⟩ :=
                  retained_filesAfter hfinite hended (hspare trivial)
                unfold Durable at h
                rw [hbefore] at h
                rw [hafter]
                exact (h.drop hdropped).interrupt (List.Sublist.refl _)
              unfold Durable
              cases point with
              | writing n =>
                  obtain ⟨hfinite, hended, -⟩ := hk options state tsaProof hlog (by rw [hs])
                  rw [filesCrashed, retained_write hended]
                  exact Accounts.interrupt h (recordsIn_take hfinite n)
              | renamed =>
                  rw [retained_filesCrashed_renamed]
                  exact reached hk
              | done => exact reached hk

theorem durable_start : (start : AuditWorld Event).Durable C where
  kept := List.nil_subperm
  once := List.nil_subperm

/-- **In a history of steps that keep their lines, the files keep every acknowledged record.** -/
theorem durable (h : Reached C P (KeepsLines C P) world) : world.Durable C := by
  induction h with
  | start => exact durable_start
  | @step world step _ hk ih =>
      cases step with
      | append event timestamp proof => exact ih.append hk
      | restart options => exact ih.restart
      | crash event timestamp proof point => exact ih.crash hk

/-- A heartbeat that breaks off after five bytes. -/
def tornBeat : AuditStep Unit := .crash () 0 (.error (.msg "")) (.writing 5)

/-- A line ends a file. -/
theorem ended_auditLine {file : Bytes} {record : AuditRecord Event} :
    Lines.Ended 10 (file ++ auditLine C record) := by
  rw [auditLine, ← List.append_assoc]
  intro a ha
  exact (Option.some.inj (ha.symm.trans List.getLast?_concat)).symm ▸ rfl

/-- **Three records are kept**, two in the rotated file and one behind a restart, and of a fourth
the first bytes. -/
theorem durable_beaten : ∃ a b c d,
    ((beat 0 (beat 1 beatenOnce)).step heartbeats .marking tornBeat).acknowledged = [a, b, c] ∧
    ((beat 0 (beat 1 beatenOnce)).step heartbeats .marking tornBeat).interrupted = [d] ∧
    ((beat 0 (beat 1 beatenOnce)).step heartbeats .marking tornBeat).Durable heartbeats := by
  obtain ⟨r, _, hone⟩ := beatenOnce_eq
  obtain ⟨a, b, _, htwo⟩ := beatenTwice_eq
  obtain ⟨c, state, hthree⟩ : ∃ c state, beat 0 (beat 1 beatenOnce) =
      ⟨⟨some (auditLine heartbeats c), some (auditLine heartbeats a ++ auditLine heartbeats b)⟩,
        some (beating 0, state), [a, b, c], [], false⟩ := by
    have hlog : ((beat 1 beatenOnce).step heartbeats .marking (.restart (beating 0))).log =
        some (beating 0, ⟨zeroHash, 0, 0, none⟩) := by
      rw [step_restart, htwo]
      rfl
    obtain ⟨c, state, -, hstep⟩ := step_heartbeat hlog
    refine ⟨c, state, ?_⟩
    rw [beat, hstep, step_restart, htwo, filesAfter_zero]
    rfl
  have hstamp : state.stamp (beating 0) (.error (.msg "")) = (.ok none, state) :=
    if_neg Bool.false_ne_true
  refine ⟨a, b, c, state.record heartbeats .marking () 0 none, ?_, ?_,
    @durable Unit heartbeats .marking _ ?_⟩
  · rw [hthree, tornBeat, step_crash rfl hstamp]
  · rw [hthree, tornBeat, step_crash rfl hstamp]
    rfl
  · have h₁ : Reached heartbeats .marking (KeepsLines heartbeats .marking) beatenOnce :=
      reached_beat .start trivial fun _ _ _ _ _ =>
        ⟨trivial, fun _ hm => (by cases hm), fun _ _ _ hm => absurd hm List.not_mem_nil⟩
    have h₂ : Reached heartbeats .marking (KeepsLines heartbeats .marking) (beat 1 beatenOnce) := by
      refine reached_beat h₁ trivial fun _ _ _ _ _ => ⟨trivial, ?_, fun _ _ _ hm => ?_⟩
      · rw [step_restart, hone]
        exact @ended_auditLine _ heartbeats [] r
      · rw [step_restart, hone] at hm
        exact absurd hm List.not_mem_nil
    have h₃ : Reached heartbeats .marking (KeepsLines heartbeats .marking)
        (beat 0 (beat 1 beatenOnce)) := by
      refine reached_beat h₂ trivial fun options _ _ hlog _ => ⟨trivial, ?_, fun _ hfull => ?_⟩
      · rw [step_restart, htwo]
        exact fun _ hm => by cases hm
      · rw [step_restart, htwo] at hlog
        obtain ⟨rfl, -⟩ := Prod.mk.inj (Option.some.inj hlog)
        exact absurd hfull.1 (Nat.lt_irrefl 0)
    refine h₃.step fun _ _ _ _ _ => ⟨trivial, ?_, False.elim⟩
    rw [hthree]
    exact @ended_auditLine _ heartbeats [] c

/-- **The second rotation drops what the first one kept.** -/
theorem not_durable : ¬ ∀ (Event : Type) (C : AuditCodec Event) (P : Primitives)
    (world : AuditWorld Event), Reached C P (fun _ _ => True) world → world.Durable C := by
  intro h
  have hdurable := h Unit heartbeats .marking (beat 1 (beat 1 start))
    (reached_beat (reached_beat .start trivial trivial) trivial trivial)
  obtain ⟨a, -, hfirst, hfiles⟩ := @beat_of_empty 1 start rfl
  have hempty : (beat 1 start).files.current.getD [] = [] := by rw [hfiles rfl]; rfl
  obtain ⟨b, -, hsecond, hfiles'⟩ := @beat_of_empty 1 _ hempty
  have hlen := hdurable.kept.length_le
  rw [hsecond, hfirst, hfiles' rfl, retained_rotated rfl, Option.getD_some,
    recordsIn_auditLine trivial] at hlen
  exact absurd hlen (by simp [start])

end AuditWorld

end Space

import Space.Security.AuditText
import Mathlib.Data.List.Chain

/-!
# Security — AuditChain

The chain of the audit log over appends, rotations, and clean restarts.  A restart takes the head
of the chain from the current file; so an append continues the chain unless it is the first one
after a restart that found the current file empty, or ended by a record that does not read back
(`Continues`).

* `chained`: in a history of appends that continue it, the records are one chain.
* `not_chained`: after a rotation and a restart they are not.
-/

namespace Space
open Support

variable {Event : Type} {C : AuditCodec Event} {P : Primitives}

/-- The spelling of a hash. -/
def hexHash (hash : Block 32) : Bytes := hexEncode hash.toList

/-- The records are one chain, which starts at the zero hash and does not come back to it. -/
structure Chained (records : List (AuditRecord Event)) : Prop where
  first : ∀ record ∈ records.head?, record.prevHash = hexHash zeroHash
  linked : records.IsChain fun before record => record.prevHash = before.hash
  later : ∀ record ∈ records.tail, record.prevHash ≠ hexHash zeroHash

/-- `hash` is the head of the chain. -/
def HeadsChain (hash : Block 32) (records : List (AuditRecord Event)) : Prop :=
  match records.getLast? with
  | none => hash = zeroHash
  | some record => record.hash = hexHash hash

/-- The hash of every record is one of a block that is not zero. -/
def Hashed (records : List (AuditRecord Event)) : Prop :=
  ∀ record ∈ records, ∃ hash : Block 32, hash ≠ zeroHash ∧ record.hash = hexHash hash

theorem hexHash_injective : Function.Injective hexHash := fun _ _ h =>
  List.Vector.eq _ _ (hexEncode_injective h)

theorem Chained.append {records : List (AuditRecord Event)} {record : AuditRecord Event}
    {hash : Block 32} (h : Chained records) (hh : Hashed records) (hhead : HeadsChain hash records)
    (hprev : record.prevHash = hexHash hash) : Chained (records ++ [record]) := by
  unfold HeadsChain at hhead
  cases hl : records.getLast? with
  | none =>
      rw [hl] at hhead
      rw [List.getLast?_eq_none_iff.mp hl]
      refine ⟨?_, List.isChain_singleton _, fun _ hm => absurd hm List.not_mem_nil⟩
      intro other hm
      obtain rfl := Option.some.inj hm
      exact hprev.trans (congrArg hexHash hhead)
  | some last =>
      rw [hl] at hhead
      have hne : records ≠ [] := fun e => by rw [e] at hl; cases hl
      refine ⟨?_, ?_, ?_⟩
      · intro other hm
        rw [List.head?_append_of_ne_nil _ hne] at hm
        exact h.first other hm
      · refine List.isChain_append.mpr ⟨h.linked, List.isChain_singleton _, ?_⟩
        intro before hbefore other hother
        obtain rfl := Option.some.inj hother
        obtain rfl := Option.some.inj (hl.symm.trans hbefore)
        exact hprev.trans hhead.symm
      · intro other hm
        rw [List.tail_append_of_ne_nil hne] at hm
        rcases List.mem_append.mp hm with hm | hm
        · exact h.later other hm
        · obtain rfl := List.mem_singleton.mp hm
          obtain ⟨hash', hnz, hspell⟩ := hh last (List.mem_of_getLast? hl)
          obtain rfl := hexHash_injective (hspell.symm.trans hhead)
          exact fun e => hnz (hexHash_injective (hprev.symm.trans e))

theorem Hashed.append {records : List (AuditRecord Event)} {record : AuditRecord Event}
    (h : Hashed records) (hr : ∃ hash : Block 32, hash ≠ zeroHash ∧ record.hash = hexHash hash) :
    Hashed (records ++ [record]) := by
  intro other hm
  rcases List.mem_append.mp hm with hm | hm
  · exact h other hm
  · obtain rfl := List.mem_singleton.mp hm
    exact hr

theorem headsChain_concat {records : List (AuditRecord Event)} {record : AuditRecord Event}
    {hash : Block 32} (h : record.hash = hexHash hash) : HeadsChain hash (records ++ [record]) := by
  rw [HeadsChain, List.getLast?_concat]
  exact h

/-! ### What a restart recovers -/

theorem adoptHash_of_hash {last hash : Block 32} {record : AuditRecord Event}
    (h : record.hash = hexHash hash) : adoptHash last record = hash := by
  have hdecode : hexDecode record.hash = some hash.toList := h ▸ hexDecode_hexEncode hash.toList
  have hlen : hash.toList.length = 32 := hash.2
  rw [adoptHash, hdecode]
  exact (if_pos hlen).trans (Block.ofPrefix_toList hash)

/-- The head of the chain a restart takes from a file of records. -/
def recovered (C : AuditCodec Event) (records : List (AuditRecord Event)) : Block 32 :=
  records.foldl (fun last record =>
    (C.fromStr (C.toString record)).elim last (adoptHash last)) zeroHash

theorem recoverLastHash_records (records : List (AuditRecord Event)) :
    recoverLastHash C (records.flatMap (auditLine C)) = .ok (recovered C records) := by
  have h : ∀ (records : List (AuditRecord Event)) (last : Block 32),
      recoverLines C last (records.map (auditLine C)) = .ok (records.foldl (fun last record =>
        (C.fromStr (C.toString record)).elim last (adoptHash last)) last) := by
    intro records
    induction records with
    | nil => exact fun _ => rfl
    | cons record records ih =>
        intro last
        rw [List.map_cons, recoverLines, utf8Decode_auditLine]
        refine (ih _).trans ?_
        rw [stripEol_line (C.oneLine record), parseLine_toString]
        rfl
  have hlines := lines_records (C := C) records []
  rw [List.append_nil] at hlines
  rw [recoverLastHash, hlines]
  exact (congrArg (recoverLines C zeroHash) (List.append_nil _)).trans (h records zeroHash)

theorem recovered_concat {records : List (AuditRecord Event)} {record : AuditRecord Event}
    {hash : Block 32} (hf : C.Finite record.event) (hh : record.hash = hexHash hash) :
    recovered C (records ++ [record]) = hash := by
  unfold recovered
  rw [List.foldl_append, List.foldl_cons, C.fromStr_toString hf]
  exact adoptHash_of_hash hh

/-! ### The steps -/

/-- The step is no crash, and an append that writes is not the first one after a restart, unless
nothing was ever written or the current file ends with the last record, which reads back. -/
def Continues (C : AuditCodec Event) (world : AuditWorld Event) : AuditStep Event → Prop
  | .append _ _ proof => ∀ options state, world.log = some (options, state) →
      state.Stamped options proof → world.fresh = true →
        world.acknowledged = [] ∨ world.files.current.getD [] ≠ [] ∧
          ∀ record ∈ world.acknowledged.getLast?, C.Finite record.event
  | .restart _ => True
  | .crash _ _ _ _ => False

/-- The records are one chain, the last of them are the current file, and the log, where it is
open, has the head of the chain, or what a restart has recovered. -/
structure AuditWorld.Audited (C : AuditCodec Event) (world : AuditWorld Event)
    (older inCurrent : List (AuditRecord Event)) : Prop where
  split : world.acknowledged = older ++ inCurrent
  file : world.files.current.getD [] = inCurrent.flatMap (auditLine C)
  hashed : Hashed world.acknowledged
  chained : Chained world.acknowledged
  head : ∀ options state, world.log = some (options, state) →
    if world.fresh then state.lastHash = recovered C inCurrent
    else HeadsChain state.lastHash world.acknowledged

namespace AuditWorld
variable {world : AuditWorld Event} {older inCurrent : List (AuditRecord Event)}

theorem audited_start : (start : AuditWorld Event).Audited C [] [] where
  split := rfl
  file := rfl
  hashed := fun _ hm => absurd hm List.not_mem_nil
  chained := ⟨fun _ hm => absurd hm nofun, List.IsChain.nil, fun _ hm => absurd hm List.not_mem_nil⟩
  head := nofun

/-- **Where an append continues the chain, the log has the head of it.** -/
theorem Audited.headsChain (h : world.Audited C older inCurrent) {options : AuditOptions}
    {state : AuditState} (hlog : world.log = some (options, state))
    (hc : world.fresh = true → world.acknowledged = [] ∨ world.files.current.getD [] ≠ [] ∧
      ∀ record ∈ world.acknowledged.getLast?, C.Finite record.event) :
    HeadsChain state.lastHash world.acknowledged := by
  have hhead := h.head options state hlog
  cases hfresh : world.fresh with
  | false =>
      rw [hfresh] at hhead
      exact hhead
  | true =>
      rw [hfresh, if_pos rfl] at hhead
      rcases hc hfresh with hnil | ⟨hne, hfinite⟩
      · have hcur : inCurrent = [] := (List.append_eq_nil_iff.mp (h.split.symm.trans hnil)).2
        rw [hnil, HeadsChain, hhead, hcur]
        rfl
      · rcases List.eq_nil_or_concat inCurrent with hcur | ⟨before, record, rfl⟩
        · exact absurd (h.file.trans (congrArg _ hcur)) hne
        · have hlast : world.acknowledged.getLast? = some record := by
            rw [h.split, List.concat_eq_append, ← List.append_assoc, List.getLast?_concat]
          obtain ⟨hash, -, hspell⟩ := h.hashed record (List.mem_of_getLast? hlast)
          rw [HeadsChain, hlast, hhead, List.concat_eq_append,
            recovered_concat (hfinite record hlast) hspell]
          exact hspell

theorem Audited.append (hz : ∀ data, P.blake3 data ≠ zeroHash)
    (h : world.Audited C older inCurrent) {event : Event} {timestamp : UInt64}
    {proof : Except Error TsaProof} (hc : Continues C world (.append event timestamp proof)) :
    ∃ older' inCurrent',
      (world.step C P (.append event timestamp proof)).Audited C older' inCurrent' := by
  cases hlog : world.log with
  | none =>
      refine ⟨older, inCurrent, ?_⟩
      rw [step_append_closed hlog]
      exact h
  | some log =>
      obtain ⟨options, state⟩ := log
      have hlast := @AuditState.stamp_lastHash options state proof
      cases hs : state.stamp options proof with
      | mk result stamped =>
          rw [hs] at hlast
          cases result with
          | error e =>
              refine ⟨older, inCurrent, ?_⟩
              rw [step_append_refused hlog hs]
              refine ⟨h.split, h.file, h.hashed, h.chained, fun options' state' hlog' => ?_⟩
              obtain ⟨-, rfl⟩ := Prod.mk.inj (Option.some.inj hlog')
              exact hlast ▸ h.head options state hlog
          | ok tsaProof =>
              have hhead := h.headsChain hlog
                (hc options state hlog ⟨tsaProof, congrArg Prod.fst hs⟩)
              rw [← hlast] at hhead
              rw [step_append hlog hs]
              -- the record is in the current file, or in the one just rotated
              generalize hr : stamped.record C P event timestamp tsaProof = record
              have hspell : record.hash = hexHash (stamped.nextHash C P event timestamp) := hr ▸ rfl
              have hprev : record.prevHash = hexHash stamped.lastHash := hr ▸ rfl
              have hchained := h.chained.append h.hashed hhead hprev
              have hhashed := h.hashed.append ⟨_, hz _, hspell⟩
              have hheads : HeadsChain _ (world.acknowledged ++ [record]) :=
                headsChain_concat hspell
              by_cases hfull : (world.files.write (auditLine C record)).Full options
              · refine ⟨world.acknowledged ++ [record], [], (List.append_nil _).symm, ?_, hhashed,
                  hchained, ?_⟩
                · rw [filesAfter, if_pos hfull]
                  rfl
                · rintro options' state' ⟨⟩
                  exact hheads
              · refine ⟨older, inCurrent ++ [record], ?_, ?_, hhashed, hchained, ?_⟩
                · rw [h.split, List.append_assoc]
                · rw [filesAfter, if_neg hfull, AuditFiles.getD_write, h.file, List.flatMap_append,
                    List.flatMap_singleton]
                · rintro options' state' ⟨⟩
                  exact hheads

theorem Audited.restart (h : world.Audited C older inCurrent) {options : AuditOptions} :
    (world.step C P (.restart options)).Audited C older inCurrent := by
  have hrecover : recoverLastHash C (world.files.current.getD []) = .ok (recovered C inCurrent) :=
    h.file ▸ recoverLastHash_records inCurrent
  rw [step_restart, hrecover]
  refine ⟨h.split, h.file, h.hashed, h.chained, ?_⟩
  rintro options' state' ⟨⟩
  rfl

/-- **In a history of appends that continue the chain, the records are one chain.** -/
theorem chained (hz : ∀ data, P.blake3 data ≠ zeroHash)
    (h : Reached C P (Continues C) world) : Chained world.acknowledged := by
  have haudited : ∃ older inCurrent, world.Audited C older inCurrent := by
    induction h with
    | start => exact ⟨[], [], audited_start⟩
    | @step world step _ hc ih =>
        obtain ⟨older, inCurrent, hworld⟩ := ih
        cases step with
        | append event timestamp proof => exact hworld.append hz hc
        | restart options => exact ⟨older, inCurrent, hworld.restart⟩
        | crash event timestamp proof point => exact hc.elim
  obtain ⟨older, inCurrent, hworld⟩ := haudited
  exact hworld.chained

end AuditWorld

/-! ### Heartbeats -/

namespace AuditWorld

/-- A log without a client, with a maximal size. -/
def beating (maxFileBytes : Nat) : AuditOptions := ⟨1, maxFileBytes, 100, false⟩

/-- A heartbeat is appended. -/
def heartbeat : AuditStep Unit := .append () 0 (.error (.msg ""))

/-- The log is built, and one heartbeat appended. -/
noncomputable def beat (maxFileBytes : Nat) (world : AuditWorld Unit) : AuditWorld Unit :=
  (world.step heartbeats .marking (.restart (beating maxFileBytes))).step heartbeats .marking
    heartbeat

theorem reached_beat {A : AuditWorld Unit → AuditStep Unit → Prop} {maxFileBytes : Nat}
    {world : AuditWorld Unit} (h : Reached heartbeats .marking A world)
    (hbuild : A world (.restart (beating maxFileBytes)))
    (hbeat : A (world.step heartbeats .marking (.restart (beating maxFileBytes))) heartbeat) :
    Reached heartbeats .marking A (beat maxFileBytes world) := (h.step hbuild).step hbeat

/-- A log without a client writes every record. -/
theorem step_heartbeat {world : AuditWorld Unit} {maxFileBytes : Nat} {state : AuditState}
    (hlog : world.log = some (beating maxFileBytes, state)) :
    ∃ record state', record.prevHash = hexHash state.lastHash ∧
      world.step heartbeats .marking heartbeat =
        { world with
          files := filesAfter heartbeats (beating maxFileBytes) world.files record
          log := some (beating maxFileBytes, state')
          acknowledged := world.acknowledged ++ [record]
          fresh := false } :=
  ⟨_, _, rfl, step_append hlog (if_neg Bool.false_ne_true)⟩

/-- A log without a maximal size is never rotated. -/
theorem filesAfter_zero (files : AuditFiles) (record : AuditRecord Unit) :
    filesAfter heartbeats (beating 0) files record = files.write (auditLine heartbeats record) :=
  if_neg fun hfull => absurd hfull.1 (Nat.lt_irrefl 0)

/-- One whose maximal size is a byte is always rotated. -/
theorem filesAfter_one (files : AuditFiles) (record : AuditRecord Unit) :
    filesAfter heartbeats (beating 1) files record =
      ⟨some [], some (files.current.getD [] ++ auditLine heartbeats record)⟩ := by
  refine (if_pos ⟨Nat.one_pos, ?_⟩).trans rfl
  rw [AuditFiles.getD_write]
  exact List.length_pos_of_ne_nil (List.append_ne_nil_of_right_ne_nil _ auditLine_ne_nil)

/-- On an empty file the record is a first one; a small file is then rotated. -/
theorem beat_of_empty {maxFileBytes : Nat} {world : AuditWorld Unit}
    (h : world.files.current.getD [] = []) :
    ∃ record, record.prevHash = hexHash zeroHash ∧
      (beat maxFileBytes world).acknowledged = world.acknowledged ++ [record] ∧
      (maxFileBytes = 1 → (beat maxFileBytes world).files =
        ⟨some [], some (auditLine heartbeats record)⟩) := by
  have hlog : (world.step heartbeats .marking (.restart (beating maxFileBytes))).log =
      some (beating maxFileBytes, ⟨zeroHash, 0, 0, none⟩) := by
    rw [step_restart, h]
    rfl
  obtain ⟨record, state', hprev, hstep⟩ := step_heartbeat hlog
  refine ⟨record, hprev, ?_, ?_⟩
  · rw [beat, hstep, step_restart]
  · rintro rfl
    rw [beat, hstep, step_restart]
    show filesAfter heartbeats (beating 1) _ record = _
    rw [filesAfter_one, Option.getD_some, h, List.nil_append]

/-- The log is built without a maximal size, and a heartbeat appended. -/
noncomputable def beatenOnce : AuditWorld Unit := beat 0 start

/-- It is built again, with a small maximal size, and two more are appended, each of which rotates
the file. -/
noncomputable def beatenOn : AuditWorld Unit :=
  (beat 1 beatenOnce).step heartbeats .marking heartbeat

theorem beatenOnce_eq : ∃ record state, beatenOnce =
    ⟨⟨some (auditLine heartbeats record), none⟩, some (beating 0, state), [record], [], false⟩ := by
  have hlog : ((start : AuditWorld Unit).step heartbeats .marking (.restart (beating 0))).log =
      some (beating 0, ⟨zeroHash, 0, 0, none⟩) := by
    rw [step_restart]
    rfl
  obtain ⟨record, state', -, hstep⟩ := step_heartbeat hlog
  refine ⟨record, state', ?_⟩
  rw [beatenOnce, beat, hstep, step_restart, filesAfter_zero]
  rfl

theorem beatenTwice_eq : ∃ a b state, beat 1 beatenOnce =
    ⟨⟨some [], some (auditLine heartbeats a ++ auditLine heartbeats b)⟩,
      some (beating 1, state), [a, b], [], false⟩ := by
  obtain ⟨a, _, hone⟩ := beatenOnce_eq
  have hrecover : recoverLastHash heartbeats (auditLine heartbeats a) =
      .ok (recovered heartbeats [a]) := by
    have h := recoverLastHash_records (C := heartbeats) [a]
    rwa [List.flatMap_singleton] at h
  have hlog : (beatenOnce.step heartbeats .marking (.restart (beating 1))).log =
      some (beating 1, ⟨recovered heartbeats [a], 0, 0, none⟩) := by
    rw [step_restart, hone]
    show (recoverLastHash heartbeats (auditLine heartbeats a)).toOption.map _ = _
    rw [hrecover]
    rfl
  obtain ⟨b, state, -, hstep⟩ := step_heartbeat hlog
  refine ⟨a, b, state, ?_⟩
  rw [beat, hstep, step_restart, hone, filesAfter_one]
  rfl

/-- **Three records are one chain**, the second behind a restart and the third behind a rotation. -/
theorem chained_beaten : ∃ a b c, beatenOn.acknowledged = [a, b, c] ∧
    Chained beatenOn.acknowledged := by
  obtain ⟨_, _, hone⟩ := beatenOnce_eq
  obtain ⟨a, b, state, htwo⟩ := beatenTwice_eq
  obtain ⟨c, _, -, hthree⟩ := @step_heartbeat (beat 1 beatenOnce) 1 state (by rw [htwo])
  refine ⟨a, b, c, ?_, ?_⟩
  · rw [beatenOn, hthree, htwo]
    rfl
  · have h₁ : Reached heartbeats .marking (Continues heartbeats) beatenOnce :=
      reached_beat .start trivial fun _ _ _ _ _ => .inl rfl
    have h₂ : Reached heartbeats .marking (Continues heartbeats) (beat 1 beatenOnce) := by
      refine reached_beat h₁ trivial fun _ _ _ _ _ => .inr ⟨?_, fun _ _ => trivial⟩
      rw [step_restart, hone]
      exact auditLine_ne_nil
    refine chained Primitives.blake3_marking (h₂.step fun _ _ _ _ hfresh => ?_)
    rw [htwo] at hfresh
    cases hfresh

/-- **After a rotation and a restart the chain starts again**: the second record follows the zero
hash, not the first. -/
theorem not_chained : ¬ ∀ (Event : Type) (C : AuditCodec Event) (P : Primitives)
    (world : AuditWorld Event), (∀ data, P.blake3 data ≠ zeroHash) →
      Reached C P (fun _ step => step.Clean) world → Chained world.acknowledged := by
  intro h
  have hchained := h Unit heartbeats .marking (beat 1 (beat 1 start)) Primitives.blake3_marking
    (reached_beat (reached_beat .start trivial trivial) trivial trivial)
  obtain ⟨a, -, hfirst, hfiles⟩ := @beat_of_empty 1 start rfl
  have hempty : (beat 1 start).files.current.getD [] = [] := by rw [hfiles rfl]; rfl
  obtain ⟨b, hprev, hsecond, -⟩ := @beat_of_empty 1 _ hempty
  rw [hsecond, hfirst] at hchained
  exact hchained.later b List.mem_cons_self hprev

end AuditWorld

end Space

import Space.Codec.Encryption
import Space.Support.Lines

/-!
# Security — AuditLog

The audit log: records in a hash chain, one JSON text to a line.  The head of the chain is kept in
memory and recovered from the current file when the log is built; an append that brings the file
to its maximal size renames it to the one rotated file and starts an empty one.

What a `sync` does is not visible here: a crash is taken to leave all that was written before the
last line.  Calls to the operating system do not fail, and one process at a time has the log open;
the answer of the time-stamping client and the time are arguments of an append.
-/

namespace Space
open Support

/-! ### Texts and bytes -/

/-- The bytes of a string. -/
def utf8Encode (text : Text) : Bytes := text.flatMap String.utf8EncodeChar

/-- `String::from_utf8`. -/
def utf8Decode (bytes : Bytes) : Option Text :=
  (ByteArray.utf8Decode? ⟨bytes.toArray⟩).map Array.toList

theorem utf8Decode_utf8Encode (text : Text) : utf8Decode (utf8Encode text) = some text := by
  have h : (⟨(utf8Encode text).toArray⟩ : ByteArray) = text.utf8Encode :=
    ByteArray.ext List.data_toByteArray.symm
  rw [utf8Decode, h, List.utf8Decode?_utf8Encode]
  rfl

theorem utf8Encode_of_utf8Decode {bytes : Bytes} {text : Text} (h : utf8Decode bytes = some text) :
    utf8Encode text = bytes := by
  obtain ⟨chars, hchars, rfl⟩ := Option.map_eq_some_iff.mp h
  have hsome : (ByteArray.utf8Decode? ⟨bytes.toArray⟩).isSome := Option.isSome_of_eq_some hchars
  have hencode := ByteArray.utf8Encode_get_utf8Decode? (h := hsome)
  rw [Option.get_of_eq_some hsome hchars] at hencode
  have hdata := congrArg (fun b : ByteArray => b.data.toList) hencode
  rw [List.utf8Encode, List.toList_data_toByteArray] at hdata
  exact hdata

/-- No character's bytes are the first bytes of another's. -/
theorem utf8EncodeChar_append_inj {c d : Char} {s t : Bytes}
    (h : String.utf8EncodeChar c ++ s = String.utf8EncodeChar d ++ t) : c = d ∧ s = t := by
  have decoded : ∀ (c : Char) (s : Bytes),
      (String.utf8EncodeChar c ++ s).toByteArray.utf8DecodeChar? 0 = some c := by
    intro c s
    rw [List.toByteArray_append]
    have hc : (String.utf8EncodeChar c).toByteArray = [c].utf8Encode := by
      rw [List.utf8Encode, List.flatMap_singleton]
    rw [hc, List.utf8DecodeChar?_utf8Encode_singleton_append]
  obtain rfl := Option.some.inj ((decoded c s).symm.trans (h ▸ decoded d t))
  exact ⟨rfl, List.append_cancel_left h⟩

/-- A text whose bytes are the first bytes of another is the beginning of it. -/
theorem prefix_of_utf8Encode_prefix : ∀ {text text' : Text},
    utf8Encode text <+: utf8Encode text' → text <+: text'
  | [], _, _ => List.nil_prefix
  | c :: text, [], h => by
      have hnil := List.prefix_nil.mp h
      rw [utf8Encode, List.flatMap_cons] at hnil
      exact absurd (List.append_eq_nil_iff.mp hnil).1 String.utf8EncodeChar_ne_nil
  | c :: text, d :: text', ⟨rest, h⟩ => by
      rw [utf8Encode, utf8Encode, List.flatMap_cons, List.flatMap_cons, List.append_assoc] at h
      obtain ⟨rfl, htail⟩ := utf8EncodeChar_append_inj h
      exact List.cons_prefix_cons.mpr ⟨rfl, prefix_of_utf8Encode_prefix ⟨rest, htail⟩⟩

/-- The bytes of a character that is not the newline are none of them the newline. -/
theorem newline_notMem_utf8EncodeChar {c : Char} (h : c ≠ '\n') :
    (10 : UInt8) ∉ String.utf8EncodeChar c := by
  have hval : c.val.toNat ≠ 10 := fun e => h (Char.ext (UInt32.toNat_inj.mp e))
  have high : ∀ n m : Nat, 128 ≤ m → n + m < 256 → (10 : UInt8) ≠ UInt8.ofNat (n + m) := by
    intro n m hm hlt e
    have hnat := congrArg UInt8.toNat e
    rw [UInt8.toNat_ofNat_of_lt' hlt] at hnat
    have hten : (10 : UInt8).toNat = 10 := rfl
    omega
  unfold String.utf8EncodeChar
  intro hm
  simp only at hm
  split at hm
  · next hle =>
      have e := congrArg UInt8.toNat (List.mem_singleton.mp hm)
      rw [UInt8.toNat_ofNat_of_lt' (Nat.lt_of_le_of_lt hle (by decide))] at e
      exact hval e.symm
  · split at hm
    · simp only [List.mem_cons, List.not_mem_nil, or_false] at hm
      rcases hm with e | e <;> exact high _ _ (by omega) (by omega) e
    · split at hm <;> simp only [List.mem_cons, List.not_mem_nil, or_false] at hm
      · rcases hm with e | e | e <;> exact high _ _ (by omega) (by omega) e
      · rcases hm with e | e | e | e <;> exact high _ _ (by omega) (by omega) e

theorem newline_notMem_utf8Encode {text : Text} (h : '\n' ∉ text) :
    (10 : UInt8) ∉ utf8Encode text := by
  intro hm
  obtain ⟨c, hc, hm⟩ := List.mem_flatMap.mp hm
  exact newline_notMem_utf8EncodeChar (fun e => h (e ▸ hc)) hm

/-! ### Records -/

structure TsaProof where
  authority : Text
  timestamp : UInt64
  token : Text
  deriving DecidableEq

structure AuditRecord (Event : Type) where
  event : Event
  timestamp : UInt64
  prevHash : Bytes
  hash : Bytes
  tsaProof : Option TsaProof
  deriving DecidableEq

/-- `serde_json` at the events and the records: a record is an object on one line, and reads back
if no number in its event is a NaN or an infinity, which are written as `null`; what breaks off
before the end of the object is not read. -/
structure AuditCodec (Event : Type) where
  eventToString : Event → Text
  toString : AuditRecord Event → Text
  fromStr : Text → Option (AuditRecord Event)
  Finite : Event → Prop
  fromStr_toString : ∀ {record : AuditRecord Event}, Finite record.event →
    fromStr (toString record) = some record
  fromStr_prefix : ∀ {record : AuditRecord Event} {text : Text},
    text <+: toString record → text ≠ toString record → fromStr text = none
  head?_toString : ∀ record : AuditRecord Event, (toString record).head? = some '\x7b'
  oneLine : ∀ record : AuditRecord Event, ∀ c ∈ toString record, c ≠ '\n' ∧ c ≠ '\r'

/-- `char::is_whitespace`. -/
def isWhitespace (c : Char) : Bool :=
  decide (9 ≤ c.toNat ∧ c.toNat ≤ 13) || decide (8192 ≤ c.toNat ∧ c.toNat ≤ 8202) ||
    [32, 133, 160, 5760, 8232, 8233, 8239, 8287, 12288].contains c.toNat

/-- What `BufRead::lines` takes off the end of a line. -/
def stripEol (line : Text) : Text :=
  if line.getLast? = some '\n' then
    if line.dropLast.getLast? = some '\r' then line.dropLast.dropLast else line.dropLast
  else line

variable {Event : Type} (C : AuditCodec Event)

/-- The bytes of a record, with the newline. -/
def auditLine (record : AuditRecord Event) : Bytes := utf8Encode (C.toString record) ++ [10]

/-- The record on a line, if there is one. -/
def parseLine (line : Text) : Option (AuditRecord Event) :=
  if line.all isWhitespace then none else C.fromStr line

/-- The record on a line of a file. -/
def recordOn (line : Bytes) : Option (AuditRecord Event) :=
  (utf8Decode line).bind fun text => parseLine C (stripEol text)

/-- The records of a file, in order. -/
def recordsIn (file : Bytes) : List (AuditRecord Event) :=
  (Lines.lines 10 file).filterMap (recordOn C)

/-! ### The log -/

structure AuditOptions where
  flushInterval : Nat
  maxFileBytes : Nat
  tsaBatchSize : Nat
  /-- A client is configured. -/
  tsaClient : Bool

structure AuditState where
  lastHash : Block 32
  eventsSinceFlush : Nat
  eventsSinceTsa : Nat
  lastTsa : Option TsaProof

/-- The file at the path, and the one at the path with `.1`. -/
structure AuditFiles where
  current : Option Bytes
  rotated : Option Bytes

/-- `[0u8; 32]`. -/
def zeroHash : Block 32 := .ofPrefix 32 []

/-- The hash of a record, where it has one. -/
def adoptHash (last : Block 32) (record : AuditRecord Event) : Block 32 :=
  match hexDecode record.hash with
  | some bytes => if bytes.length = 32 then .ofPrefix 32 bytes else last
  | none => last

/-- The loop of `recover_last_hash`: a line that is not UTF-8 is an error, one that does not parse
is passed over. -/
def recoverLines (last : Block 32) : List Bytes → Except Error (Block 32)
  | [] => .ok last
  | line :: rest =>
    match utf8Decode line with
    | none => .error (.msg "stream did not contain valid UTF-8")
    | some text => recoverLines ((parseLine C (stripEol text)).elim last (adoptHash last)) rest

def recoverLastHash (file : Bytes) : Except Error (Block 32) :=
  recoverLines C zeroHash (Lines.lines 10 file)

/-- `with_options`: the file is there afterwards, also where the recovery fails. -/
def AuditLog.build (files : AuditFiles) : Except Error AuditState × AuditFiles :=
  let file := files.current.getD []
  match recoverLastHash C file with
  | .error e => (.error e, { files with current := some file })
  | .ok lastHash => (.ok ⟨lastHash, 0, 0, none⟩, { files with current := some file })

namespace AuditState
variable (P : Primitives) (options : AuditOptions) (state : AuditState)

/-- Every batch of records asks the client, and a refusal ends the append. -/
def stamp (proof : Except Error TsaProof) : Except Error (Option TsaProof) × AuditState :=
  if options.tsaClient then
    if options.tsaBatchSize ≤ state.eventsSinceTsa + 1 then
      match proof with
      | .error e => (.error e, { state with eventsSinceTsa := state.eventsSinceTsa + 1 })
      | .ok proof => (.ok (some proof), { state with lastTsa := some proof, eventsSinceTsa := 0 })
    else (.ok none, { state with eventsSinceTsa := state.eventsSinceTsa + 1 })
  else (.ok none, state)

/-- The client, where it is asked, answers. -/
def Stamped (proof : Except Error TsaProof) : Prop :=
  ∃ tsaProof, (state.stamp options proof).1 = .ok tsaProof

theorem stamp_lastHash {proof : Except Error TsaProof} :
    (state.stamp options proof).2.lastHash = state.lastHash := by
  unfold stamp
  split
  · split
    · cases proof <;> rfl
    · rfl
  · rfl

/-- The hash of the next record. -/
def nextHash (event : Event) (timestamp : UInt64) : Block 32 :=
  P.blake3 (state.lastHash.toList ++ utf8Encode (C.eventToString event) ++ le64 timestamp)

/-- The next record. -/
def record (event : Event) (timestamp : UInt64) (tsaProof : Option TsaProof) :
    AuditRecord Event where
  event := event
  timestamp := timestamp
  prevHash := hexEncode state.lastHash.toList
  hash := hexEncode (state.nextHash C P event timestamp).toList
  tsaProof := tsaProof

/-- The state once the next record is written. -/
def advance (event : Event) (timestamp : UInt64) : AuditState :=
  { state with
    lastHash := state.nextHash C P event timestamp
    eventsSinceFlush :=
      if options.flushInterval ≤ state.eventsSinceFlush + 1 then 0 else state.eventsSinceFlush + 1 }

end AuditState

namespace AuditFiles

def write (files : AuditFiles) (bytes : Bytes) : AuditFiles :=
  { files with current := some (files.current.getD [] ++ bytes) }

theorem getD_write (files : AuditFiles) (bytes : Bytes) :
    (files.write bytes).current.getD [] = files.current.getD [] ++ bytes := rfl

/-- The current file has reached the maximal size. -/
def Full (files : AuditFiles) (options : AuditOptions) : Prop :=
  0 < options.maxFileBytes ∧ options.maxFileBytes ≤ (files.current.getD []).length

instance (files : AuditFiles) (options : AuditOptions) : Decidable (files.Full options) :=
  inferInstanceAs (Decidable (_ ∧ _))

/-- `rotate_file`. -/
def rotate (files : AuditFiles) : AuditFiles where
  current := some []
  rotated := files.current

end AuditFiles

variable (P : Primitives)

/-- `append`. -/
def AuditLog.append (options : AuditOptions) (state : AuditState) (files : AuditFiles)
    (event : Event) (timestamp : UInt64) (proof : Except Error TsaProof) :
    Except Error (AuditRecord Event) × AuditState × AuditFiles :=
  match state.stamp options proof with
  | (.error e, state) => (.error e, state, files)
  | (.ok tsaProof, state) =>
    let record := state.record C P event timestamp tsaProof
    let files := files.write (auditLine C record)
    let state := state.advance C P options event timestamp
    (.ok record, state, if files.Full options then files.rotate else files)

/-- Where in an append the process ends. -/
inductive AuditCrash where
  /-- Some first bytes of the line are written. -/
  | writing (written : Nat)
  /-- The file is renamed, the new one not there yet. -/
  | renamed
  /-- All is done, but the caller does not see it. -/
  | done

/-- The files after an append that ends early. -/
def AuditLog.crashed (options : AuditOptions) (state : AuditState) (files : AuditFiles)
    (event : Event) (timestamp : UInt64) (proof : Except Error TsaProof) (point : AuditCrash) :
    AuditFiles :=
  match state.stamp options proof with
  | (.error _, _) => files
  | (.ok tsaProof, state) =>
    let line := auditLine C (state.record C P event timestamp tsaProof)
    let written := files.write line
    match point with
    | .writing n => files.write (line.take n)
    | .renamed => if written.Full options then { written.rotate with current := none } else written
    | .done => if written.Full options then written.rotate else written

/-! ### Runs -/

/-- What happens to a log; `restart` builds it on the same path. -/
inductive AuditStep (Event : Type) where
  | append (event : Event) (timestamp : UInt64) (proof : Except Error TsaProof)
  | restart (options : AuditOptions)
  | crash (event : Event) (timestamp : UInt64) (proof : Except Error TsaProof) (point : AuditCrash)

/-- The files, the log where it is open, and the records that were acknowledged, and those that
were being written when the process ended, in order. -/
structure AuditWorld (Event : Type) where
  files : AuditFiles
  log : Option (AuditOptions × AuditState)
  acknowledged : List (AuditRecord Event)
  interrupted : List (AuditRecord Event)
  /-- Nothing has been written since the log was built. -/
  fresh : Bool

/-- A step other than a crash. -/
def AuditStep.Clean : AuditStep Event → Prop
  | .append _ _ _ | .restart _ => True
  | .crash _ _ _ _ => False

namespace AuditWorld

/-- Before the log is first built. -/
def start : AuditWorld Event where
  files := ⟨none, none⟩
  log := none
  acknowledged := []
  interrupted := []
  fresh := true

/-- One step; a log that is not open does nothing until it is built again. -/
def step (world : AuditWorld Event) : AuditStep Event → AuditWorld Event
  | .append event timestamp proof =>
    match world.log with
    | none => world
    | some (options, state) =>
      match AuditLog.append C P options state world.files event timestamp proof with
      | (.error _, state, files) => { world with files := files, log := some (options, state) }
      | (.ok record, state, files) =>
        { world with
          files := files
          log := some (options, state)
          acknowledged := world.acknowledged ++ [record]
          fresh := false }
  | .restart options =>
    match AuditLog.build C world.files with
    | (.error _, files) => { world with files := files, log := none, fresh := true }
    | (.ok state, files) =>
        { world with files := files, log := some (options, state), fresh := true }
  | .crash event timestamp proof point =>
    match world.log with
    | none => world
    | some (options, state) =>
      { world with
        files := AuditLog.crashed C P options state world.files event timestamp proof point
        log := none
        interrupted := world.interrupted ++
          match state.stamp options proof with
          | (.error _, _) => []
          | (.ok tsaProof, state) => [state.record C P event timestamp tsaProof] }

end AuditWorld

/-- The worlds reached by steps that `A` allows. -/
inductive AuditWorld.Reached (C : AuditCodec Event) (P : Primitives)
    (A : AuditWorld Event → AuditStep Event → Prop) : AuditWorld Event → Prop
  | start : Reached C P A .start
  | step {world : AuditWorld Event} {step : AuditStep Event} :
      Reached C P A world → A world step → Reached C P A (world.step C P step)

/-! ### What a step does -/

namespace AuditWorld
variable {C P} {world : AuditWorld Event} {options : AuditOptions} {state stamped : AuditState}
  {event : Event} {timestamp : UInt64} {proof : Except Error TsaProof} {tsaProof : Option TsaProof}

/-- The files once a record is written, and the full one is rotated. -/
def filesAfter (C : AuditCodec Event) (options : AuditOptions) (files : AuditFiles)
    (record : AuditRecord Event) : AuditFiles :=
  if (files.write (auditLine C record)).Full options then (files.write (auditLine C record)).rotate
  else files.write (auditLine C record)

theorem step_append_closed (hlog : world.log = none) :
    world.step C P (.append event timestamp proof) = world := by
  simp only [step, hlog]

theorem step_append_refused {e : Error} (hlog : world.log = some (options, state))
    (hs : state.stamp options proof = (.error e, stamped)) :
    world.step C P (.append event timestamp proof) =
      { world with log := some (options, stamped) } := by
  simp only [step, hlog, AuditLog.append, hs]

theorem step_append (hlog : world.log = some (options, state))
    (hs : state.stamp options proof = (.ok tsaProof, stamped)) :
    world.step C P (.append event timestamp proof) =
      { world with
        files := filesAfter C options world.files (stamped.record C P event timestamp tsaProof)
        log := some (options, stamped.advance C P options event timestamp)
        acknowledged := world.acknowledged ++ [stamped.record C P event timestamp tsaProof]
        fresh := false } := by
  simp only [step, hlog, AuditLog.append, hs, filesAfter]

/-- The files once an append has ended at a point. -/
def filesCrashed (C : AuditCodec Event) (options : AuditOptions) (files : AuditFiles)
    (record : AuditRecord Event) : AuditCrash → AuditFiles
  | .writing n => files.write ((auditLine C record).take n)
  | .renamed =>
    if (files.write (auditLine C record)).Full options then
      { (files.write (auditLine C record)).rotate with current := none }
    else files.write (auditLine C record)
  | .done => filesAfter C options files record

theorem step_crash_closed {point : AuditCrash} (hlog : world.log = none) :
    world.step C P (.crash event timestamp proof point) = world := by
  simp only [step, hlog]

theorem step_crash_refused {e : Error} {point : AuditCrash}
    (hlog : world.log = some (options, state))
    (hs : state.stamp options proof = (.error e, stamped)) :
    world.step C P (.crash event timestamp proof point) = { world with log := none } := by
  simp only [step, hlog, AuditLog.crashed, hs, List.append_nil]

theorem step_crash {point : AuditCrash} (hlog : world.log = some (options, state))
    (hs : state.stamp options proof = (.ok tsaProof, stamped)) :
    world.step C P (.crash event timestamp proof point) =
      { world with
        files := filesCrashed C options world.files
          (stamped.record C P event timestamp tsaProof) point
        log := none
        interrupted := world.interrupted ++ [stamped.record C P event timestamp tsaProof] } := by
  simp only [step, hlog, AuditLog.crashed, hs]
  cases point <;> rfl

theorem step_restart : world.step C P (.restart options) =
    { world with
      files := { world.files with current := some (world.files.current.getD []) }
      log := (recoverLastHash C (world.files.current.getD [])).toOption.map fun lastHash =>
        (options, ⟨lastHash, 0, 0, none⟩)
      fresh := true } := by
  simp only [step, AuditLog.build]
  cases recoverLastHash C (world.files.current.getD []) <;> rfl

end AuditWorld

/-! ### Reading back what was written -/

variable {C P} {record : AuditRecord Event}

theorem newline_notMem_record : (10 : UInt8) ∉ utf8Encode (C.toString record) :=
  newline_notMem_utf8Encode fun h => (C.oneLine record _ h).1 rfl

theorem auditLine_ne_nil : auditLine C record ≠ [] :=
  List.append_ne_nil_of_right_ne_nil _ (List.cons_ne_nil _ _)

/-- The end of the line is what is taken off it, and all that is. -/
theorem stripEol_line {text : Text} (h : ∀ c ∈ text, c ≠ '\n' ∧ c ≠ '\r') :
    stripEol (text ++ ['\n']) = text := by
  have hlast : text.getLast? ≠ some '\r' := fun e => (h _ (List.mem_of_getLast? e)).2 rfl
  rw [stripEol, List.getLast?_concat, if_pos rfl, List.dropLast_concat, if_neg hlast]

theorem utf8Decode_auditLine :
    utf8Decode (auditLine C record) = some (C.toString record ++ ['\n']) := by
  have h : auditLine C record = utf8Encode (C.toString record ++ ['\n']) := by
    rw [auditLine, utf8Encode, utf8Encode, List.flatMap_append]
    rfl
  rw [h, utf8Decode_utf8Encode]

theorem parseLine_toString : parseLine C (C.toString record) = C.fromStr (C.toString record) := by
  have hhead := C.head?_toString record
  rw [parseLine, if_neg]
  cases hl : C.toString record with
  | nil => rw [hl] at hhead; cases hhead
  | cons c text =>
      rw [hl] at hhead
      obtain rfl := Option.some.inj hhead
      exact Bool.not_eq_true _ ▸ rfl

theorem recordOn_auditLine : recordOn C (auditLine C record) = C.fromStr (C.toString record) := by
  rw [recordOn, utf8Decode_auditLine, Option.bind_some, stripEol_line (C.oneLine record),
    parseLine_toString]

/-- The lines of a file of records, and of what follows them. -/
theorem lines_records (records : List (AuditRecord Event)) (tail : Bytes) :
    Lines.lines 10 (records.flatMap (auditLine C) ++ tail) =
      records.map (auditLine C) ++ Lines.lines 10 tail := by
  have h : ∀ record ∈ records, 10 ∉ utf8Encode (C.toString record) :=
    fun _ _ => newline_notMem_record
  exact Lines.lines_bodies h

end Space

import Space.Native.EncryptedWrite
import Space.Views.BlockCrash

/-!
# Views — Ranges

The range checks.  `read_range` of the pipeline, the reads of the two views and the write of the
block view add `offset + len` at `u64` before they compare the sum with a size, and add again at
`usize` before they slice.  Where the sum is `2^64` or more, a debug build panics; in a release
build it wraps, and if it then passes the checks the slice ends before it starts, which panics too.
A capsule need not read as it was written, and what is sliced is what it reads as: if that is
shorter than the range, a range within the size panics as well.

A view is over whatever store its pipeline has come to, with whatever table or namespace.

* `Ranged`: what a read of a range comes to, in either build.
* `Ranged.exact_iff`: it is exact if and only if it is safe, which is a matter of the sizes and of
  what the capsule reads as; of the sum alone, where the raw chunks of the capsule read as they are
  (`Build.safe_iff_of_readsRaw`).
* `readRangeIn_ranged`, `BlockView.readIn_ranged`, `NfsView.readRangeIn_ranged`: the three reads.
-/

namespace Space
open Support Prog

/-! ### Additions -/

/-- How the crates were built: a debug build panics on overflow, a release build wraps. -/
inductive Build where
  | debug
  | release

/-- `x + y` at `u64`, or at `usize`; `none` is a panic. -/
def Build.add : Build → UInt64 → UInt64 → Option UInt64
  | debug, x, y => if x.toNat + y.toNat < 18446744073709551616 then some (x + y) else none
  | release, x, y => some (x + y)

/-- `data[start..start + len]`; `none` is a panic. -/
def Build.sliceFrom (b : Build) (data : Bytes) (start len : UInt64) : Option Bytes :=
  match b.add start len with
  | none => none
  | some finish => (sliceRange data start.toNat finish.toNat).toOption

/-- `buffer[start..start + data.len()].copy_from_slice(data)`; `none` is a panic. -/
def Build.copyInto (b : Build) (buffer : Bytes) (start : UInt64) (data : Bytes) : Option Bytes :=
  match b.add start (UInt64.ofNat data.length) with
  | none => none
  | some finish => (copyFromSlice buffer start.toNat finish.toNat data).toOption

/-- `if offset + len > size { bail!(beyond) }`, and what follows; `none` is a panic. -/
def Build.guardRange {S : Signature} {α : Type} (b : Build) (size offset len : UInt64)
    (beyond : String) (next : Prog S Error (Option α)) : Prog S Error (Option α) :=
  match b.add offset len with
  | none => .ret none
  | some finish => if size < finish then .fail (.msg beyond) else next

section
variable {b : Build} {offset len : UInt64}

theorem toNat_add_of_lt (h : offset.toNat + len.toNat < 18446744073709551616) :
    (offset + len).toNat = offset.toNat + len.toNat := by
  rw [UInt64.toNat_add]
  exact Nat.mod_eq_of_lt h

theorem Build.add_of_lt (h : offset.toNat + len.toNat < 18446744073709551616) :
    b.add offset len = some (offset + len) := by
  cases b with
  | debug => exact if_pos h
  | release => rfl

/-- A sum that wraps is before its start. -/
theorem toNat_add_lt (h : ¬ offset.toNat + len.toNat < 18446744073709551616) :
    (offset + len).toNat < offset.toNat := by
  have hlen := len.toNat_lt
  have hoffset := offset.toNat_lt
  rw [UInt64.toNat_add]
  omega

end

/-! ### The reads -/

variable {P : Primitives}

/-- `read_range`, in a build. -/
def WritePipeline.readRangeIn (P : Primitives) (b : Build) (id : CapsuleId)
    (offset len : UInt64) : Native (Option Bytes) := do
  let capsule ← Native.lookup id
  b.guardRange (UInt64.ofNat capsule.size) offset len "Read beyond capsule boundary" do
    let fullData ← WritePipeline.readCapsule P id
    return b.sliceFrom fullData offset len

/-- `BlockView::read`, in a build. -/
def BlockView.readIn (P : Primitives) (b : Build) (v : BlockView) (name : Text)
    (offset len : UInt64) : Native (Option Bytes) :=
  match v.volumes.lookup name with
  | none => .fail (volumeNotFound name)
  | some volume => b.guardRange volume.size offset len "Read beyond end of volume"
      (WritePipeline.readRangeIn P b volume.capsuleId offset len)

/-- `NfsView::read_range`, in a build. -/
def NfsView.readRangeIn (P : Primitives) (b : Build) (v : NfsView) (path : Text)
    (offset len : UInt64) : Native (Option Bytes) :=
  match v.nodes.lookup (normalizePath path).full with
  | none => .fail (pathError "No such file: " (normalizePath path).full)
  | some node =>
    match node.kind with
    | .directory => .fail (pathError "Path is a directory: " node.path)
    | .file capsuleId size => b.guardRange (UInt64.ofNat size) offset len "Read beyond end of file"
        (WritePipeline.readRangeIn P b capsuleId offset len)

/-- The size a range of a capsule is checked against, and the capsule. -/
def World.target (w : World P) (id : CapsuleId) : Option (UInt64 × CapsuleId) :=
  (w.cap id).map fun c => (UInt64.ofNat c.size, id)

def BlockView.target (v : BlockView) (name : Text) : Option (UInt64 × CapsuleId) :=
  (v.volumes.lookup name).map fun volume => (volume.size, volume.capsuleId)

def NfsView.target (v : NfsView) (path : Text) : Option (UInt64 × CapsuleId) :=
  (v.nodes.fileAt (normalizePath path).full).map fun file => (UInt64.ofNat file.2, file.1)

variable {w : World P} {b : Build} {back : Bytes} {offset len size : UInt64} {id : CapsuleId}
  {target : Option (UInt64 × CapsuleId)} {r : Except Error (Option Bytes) × World P}

/-- A read of a range of a target, from the state `w`, is exact: it does not panic; it returns the
bytes of the range that the capsule was written from, if the range ends in the size, and fails
without effect if it does not, or if there is no target. -/
def ReadsExactly (target : Option (UInt64 × CapsuleId)) (offset len : UInt64) (w : World P)
    (r : Except Error (Option Bytes) × World P) : Prop :=
  match target with
  | none => ∃ e, r = (.error e, w)
  | some (size, id) =>
    if offset.toNat + len.toNat ≤ size.toNat then
      ∃ bytes w', w.holds id = some bytes ∧ offset.toNat + len.toNat ≤ bytes.length ∧
        w.Unchanged w' ∧ r = (.ok (some (slice bytes offset.toNat len.toNat)), w')
    else ∃ e, r = (.error e, w)

/-- The capsule has the range, and reads on it as it was written. -/
def World.ReadsRange (w : World P) (id : CapsuleId) (offset len : UInt64) : Prop :=
  ∃ bytes back, w.holds id = some bytes ∧ w.readings id = some back ∧
    offset.toNat + len.toNat ≤ bytes.length ∧ offset.toNat + len.toNat ≤ back.length ∧
    slice back offset.toNat len.toNat = slice bytes offset.toNat len.toNat

/-- A range within the size is one that the capsule has and reads as it was written; a sum that
overflows wraps, to one beyond the size or beyond that of the capsule. -/
def Build.Safe (b : Build) (w : World P) (target : Option (UInt64 × CapsuleId))
    (offset len : UInt64) : Prop :=
  ∀ size id, target = some (size, id) →
    (offset.toNat + len.toNat ≤ size.toNat → w.ReadsRange id offset len) ∧
    (18446744073709551616 ≤ offset.toNat + len.toNat → b = .release ∧
      (size < offset + len ∨ ∀ c, w.cap id = some c → UInt64.ofNat c.size < offset + len))

/-- What a read of a range of a capsule comes to, in a build in which the range ends at `finish`. -/
def RangedTo (b : Build) (id : CapsuleId) (finish offset len : UInt64) (w : World P)
    (r : Except Error (Option Bytes) × World P) : Prop :=
  match w.cap id with
  | none => ∃ e, r = (.error e, w)
  | some c =>
    if UInt64.ofNat c.size < finish then ∃ e, r = (.error e, w)
    else ∃ w', w.Unchanged w' ∧ r =
      (.ok (b.sliceFrom (c.policy.readsBack P (w.ledger.produced id)) offset len), w')

/-- What a read of a range of a target comes to, in a build. -/
def Ranged (b : Build) (target : Option (UInt64 × CapsuleId)) (offset len : UInt64) (w : World P)
    (r : Except Error (Option Bytes) × World P) : Prop :=
  match target with
  | none => ∃ e, r = (.error e, w)
  | some (size, id) =>
    match b.add offset len with
    | none => r = (.ok none, w)
    | some finish =>
      if size < finish then ∃ e, r = (.error e, w) else RangedTo b id finish offset len w r

/-- A slice that fits is the range, and one that does not panics. -/
theorem Build.sliceFrom_of_lt (h : offset.toNat + len.toNat < 18446744073709551616) :
    b.sliceFrom back offset len = if offset.toNat + len.toNat ≤ back.length then
      some (slice back offset.toNat len.toNat) else none := by
  unfold Build.sliceFrom
  rw [Build.add_of_lt h]
  dsimp only
  rw [toNat_add_of_lt h, sliceRange]
  split
  · next hin =>
      rw [if_pos hin.2, Nat.add_sub_cancel_left]
      rfl
  · next hout =>
      rw [if_neg fun hin => hout ⟨Nat.le_add_right _ _, hin⟩]
      rfl

/-- A slice that ends before it starts panics. -/
theorem Build.sliceFrom_of_overflow
    (h : ¬ offset.toNat + len.toNat < 18446744073709551616) :
    b.sliceFrom back offset len = none := by
  unfold Build.sliceFrom
  cases b with
  | debug => rw [show Build.debug.add offset len = none from if_neg h]
  | release =>
      dsimp only [Build.add]
      rw [sliceRange, if_neg fun k => absurd k.1 (Nat.not_le.mpr (toNat_add_lt h))]
      rfl

/-! ### When a read is exact -/

/-- The size of a capsule, at `u64`. -/
theorem World.Sized.toNat_size {c : Capsule} (hz : w.Sized) (hc : w.cap id = some c)
    (hl : (w.ledger.produced id).length ≤ usizeMax) :
    (UInt64.ofNat c.size).toNat = (w.ledger.produced id).length := by
  rw [hz.cap hc]
  exact Nat.mod_eq_of_lt (Nat.lt_succ_of_le hl)

namespace Ranged

/-- A range that does not end in the size. -/
theorem exact_iff_beyond (h : Ranged b (some (size, id)) offset len w r)
    (hlt : offset.toNat + len.toNat < 18446744073709551616)
    (hout : ¬ offset.toNat + len.toNat ≤ size.toNat) :
    ReadsExactly (some (size, id)) offset len w r ↔
      b.Safe w (some (size, id)) offset len := by
  have hbeyond : size < offset + len :=
    UInt64.lt_iff_toNat_lt.mpr (by rw [toNat_add_of_lt hlt]; exact Nat.not_le.mp hout)
  unfold Ranged at h
  rw [Build.add_of_lt hlt] at h
  dsimp only at h
  rw [if_pos hbeyond] at h
  refine iff_of_true ?_ fun size' id' ht => ?_
  · unfold ReadsExactly
    dsimp only
    rw [if_neg hout]
    exact h
  · cases ht
    exact ⟨fun hin => absurd hin hout, fun hover => absurd hlt (Nat.not_lt.mpr hover)⟩

/-- A range that does: what counts is what the capsule reads as. -/
theorem exact_iff_within (h : Ranged b (some (size, id)) offset len w r) (hz : w.Sized)
    (hl : ∀ bytes, w.holds id = some bytes → bytes.length ≤ usizeMax)
    (hin : offset.toNat + len.toNat ≤ size.toNat) :
    ReadsExactly (some (size, id)) offset len w r ↔
      b.Safe w (some (size, id)) offset len := by
  have hlt : offset.toNat + len.toNat < 18446744073709551616 := hin.trans_lt size.toNat_lt
  have hsafe : b.Safe w (some (size, id)) offset len ↔ w.ReadsRange id offset len := by
    refine ⟨fun k => (k size id rfl).1 hin, fun k size' id' ht => ?_⟩
    cases ht
    exact ⟨fun _ => k, fun hover => absurd hlt (Nat.not_lt.mpr hover)⟩
  have hexact : ReadsExactly (some (size, id)) offset len w r ↔ ∃ bytes w',
      w.holds id = some bytes ∧ offset.toNat + len.toNat ≤ bytes.length ∧ w.Unchanged w' ∧
        r = (.ok (some (slice bytes offset.toNat len.toNat)), w') := by
    unfold ReadsExactly
    dsimp only
    rw [if_pos hin]
  rw [hsafe, hexact]
  unfold Ranged at h
  rw [Build.add_of_lt hlt] at h
  dsimp only at h
  have hwithin : ¬ size < offset + len := fun k => by
    rw [UInt64.lt_iff_toNat_lt, toNat_add_of_lt hlt] at k
    exact absurd hin (Nat.not_le.mpr k)
  rw [if_neg hwithin] at h
  unfold RangedTo at h
  -- a view may name a capsule that is gone: then there is nothing the range could be read from
  cases hc : w.cap id with
  | none =>
      have hnone : w.holds id = none := by rw [World.holds, hc]; rfl
      refine iff_of_false ?_ ?_
      · rintro ⟨bytes, -, hb, -⟩
        exact absurd (hnone.symm.trans hb) (Option.some_ne_none _).symm
      · rintro ⟨bytes, -, hb, -⟩
        exact absurd (hnone.symm.trans hb) (Option.some_ne_none _).symm
  | some c =>
      have hholds : w.holds id = some (w.ledger.produced id) :=
        World.holds_eq_some.mpr ⟨⟨c, hc⟩, rfl⟩
      have hreads := World.readings_of_cap hc
      have hsize := hz.toNat_size hc (hl _ hholds)
      rw [hc] at h
      dsimp only at h
      by_cases hshort : UInt64.ofNat c.size < offset + len
      · -- the capsule is shorter than the range
        have hno : ¬ offset.toNat + len.toNat ≤ (w.ledger.produced id).length := by
          rw [UInt64.lt_iff_toNat_lt, toNat_add_of_lt hlt, hsize] at hshort
          exact Nat.not_le.mpr hshort
        refine iff_of_false ?_ ?_
        · rintro ⟨bytes, w', hb, hle, -⟩
          rw [hholds] at hb
          cases hb
          exact hno hle
        · rintro ⟨bytes, back, hb, -, hle, -⟩
          rw [hholds] at hb
          cases hb
          exact hno hle
      · have hle : offset.toNat + len.toNat ≤ (w.ledger.produced id).length := by
          rw [UInt64.lt_iff_toNat_lt, toNat_add_of_lt hlt, hsize] at hshort
          exact Nat.not_lt.mp hshort
        rw [if_neg hshort, Build.sliceFrom_of_lt hlt] at h
        obtain ⟨w', hun, rfl⟩ := h
        constructor
        · rintro ⟨bytes, w'', hb, -, -, hr⟩
          rw [hholds] at hb
          cases hb
          obtain ⟨hr, -⟩ := Prod.mk.inj hr
          have hslice := Except.ok.inj hr
          split at hslice
          · next hback =>
              exact ⟨_, _, hholds, hreads, hle, hback, Option.some.inj hslice⟩
          · cases hslice
        · rintro ⟨bytes, back, hb, hr, -, hback, hslice⟩
          rw [hholds] at hb
          cases hb
          rw [hreads] at hr
          cases hr
          exact ⟨_, w', hholds, hle, hun, by rw [if_pos hback, hslice]⟩

/-- A sum that overflows. -/
theorem exact_iff_overflow (h : Ranged b (some (size, id)) offset len w r)
    (hover : ¬ offset.toNat + len.toNat < 18446744073709551616) :
    ReadsExactly (some (size, id)) offset len w r ↔
      b.Safe w (some (size, id)) offset len := by
  have hout : ¬ offset.toNat + len.toNat ≤ size.toNat := fun hin =>
    hover (hin.trans_lt size.toNat_lt)
  have hsafe : b.Safe w (some (size, id)) offset len ↔ b = .release ∧
      (size < offset + len ∨ ∀ c, w.cap id = some c → UInt64.ofNat c.size < offset + len) := by
    refine ⟨fun k => (k size id rfl).2 (Nat.not_lt.mp hover), fun k size' id' ht => ?_⟩
    cases ht
    exact ⟨fun hin => absurd hin hout, fun _ => k⟩
  have hexact : ReadsExactly (some (size, id)) offset len w r ↔ ∃ e, r = (.error e, w) := by
    unfold ReadsExactly
    dsimp only
    rw [if_neg hout]
  rw [hsafe, hexact]
  unfold Ranged at h
  cases b with
  | debug =>
      rw [show Build.debug.add offset len = none from if_neg hover] at h
      dsimp only at h
      refine iff_of_false ?_ fun k => by cases k.1
      rintro ⟨e, he⟩
      rw [h] at he
      cases he
  | release =>
      rw [show Build.release.add offset len = some (offset + len) from rfl] at h
      dsimp only at h
      by_cases hbeyond : size < offset + len
      · rw [if_pos hbeyond] at h
        exact iff_of_true h ⟨rfl, .inl hbeyond⟩
      rw [if_neg hbeyond] at h
      unfold RangedTo at h
      cases hc : w.cap id with
      | none =>
          rw [hc] at h
          exact iff_of_true h ⟨rfl, .inr fun c k => by cases k⟩
      | some c =>
          rw [hc] at h
          dsimp only at h
          by_cases hshort : UInt64.ofNat c.size < offset + len
          · rw [if_pos hshort] at h
            refine iff_of_true h ⟨rfl, .inr fun c' k => ?_⟩
            obtain rfl := Option.some.inj k
            exact hshort
          · rw [if_neg hshort, Build.sliceFrom_of_overflow hover] at h
            obtain ⟨w', -, rfl⟩ := h
            refine iff_of_false ?_ ?_
            · rintro ⟨e, he⟩
              cases he
            · rintro ⟨-, k | k⟩
              · exact hbeyond k
              · exact hshort (k c rfl)

/-- **A read of a range is exact** if and only if it is safe. -/
theorem exact_iff (h : Ranged b target offset len w r) (hz : w.Sized)
    (hl : ∀ id bytes, w.holds id = some bytes → bytes.length ≤ usizeMax) :
    ReadsExactly target offset len w r ↔ b.Safe w target offset len := by
  cases target with
  | none => exact iff_of_true h fun _ _ k => by cases k
  | some t =>
      obtain ⟨size, id⟩ := t
      by_cases hlt : offset.toNat + len.toNat < 18446744073709551616
      · by_cases hin : offset.toNat + len.toNat ≤ size.toNat
        · exact h.exact_iff_within hz (hl id) hin
        · exact h.exact_iff_beyond hlt hin
      · exact h.exact_iff_overflow hlt

end Ranged

/-- **Where the raw chunks of a capsule read as they are**, what counts is the sum alone. -/
theorem Build.safe_iff_of_readsRaw {c : Capsule} (hz : w.Sized) (hc : w.cap id = some c)
    (hl : (w.ledger.produced id).length ≤ usizeMax)
    (hraw : ∀ chunk ∈ chunks SEGMENT_SIZE (w.ledger.produced id), c.policy.ReadsRaw P chunk) :
    b.Safe w (w.target id) offset len ↔
      (18446744073709551616 ≤ offset.toNat + len.toNat →
        b = .release ∧ UInt64.ofNat c.size < offset + len) := by
  have htarget : w.target id = some (UInt64.ofNat c.size, id) := by rw [World.target, hc]; rfl
  have hback : w.readings id = some (w.ledger.produced id) := by
    rw [World.readings_of_cap hc, Policy.readsBack_of_readsRaw hraw]
  rw [htarget]
  constructor
  · intro h hover
    obtain ⟨hb, hlt | hlt⟩ := (h _ _ rfl).2 hover
    · exact ⟨hb, hlt⟩
    · exact ⟨hb, hlt c hc⟩
  · intro h size id' ht
    cases ht
    refine ⟨fun hin => ?_, fun hover => ⟨(h hover).1, .inl (h hover).2⟩⟩
    rw [hz.toNat_size hc hl] at hin
    exact ⟨_, _, World.holds_eq_some.mpr ⟨⟨c, hc⟩, rfl⟩, hback, hin, hin, rfl⟩

/-! ### The reads -/

/-- Reading a capsule changes nothing but what the key manager has cached. -/
theorem readCapsule_unchanged (w : World P) (id : CapsuleId) :
    w.Unchanged ((WritePipeline.readCapsule P id).run (World.exec []) w).2 :=
  Prog.run_keeps (fun _ _ ho h => exec_reads ho h) (uses_readCapsule id) ⟨rfl, rfl, rfl⟩

section
variable {U : Set Bytes} {keys : Option (UInt32 → XtsKeyPair)}

theorem run_lookup (w : World P) (id : CapsuleId) :
    (Native.lookup id).run (World.exec []) w = (w.store.registry.lookup id, w) :=
  (run_perform _ _ _).trans (World.exec_lookup _ id w)

/-- `read_range`, where the addition does not panic. -/
theorem readRangeIn_rangedTo (hB : Between (.reading P U keys True) w) (id : CapsuleId)
    {finish : UInt64} (hadd : b.add offset len = some finish) :
    RangedTo b id finish offset len w
      ((WritePipeline.readRangeIn P b id offset len).run (World.exec []) w) := by
  rw [WritePipeline.readRangeIn, run_bind, run_lookup]
  unfold RangedTo
  cases hc : w.cap id with
  | none =>
      rw [CapsuleRegistry.lookup, show w.store.registry.capsules.lookup id = none from hc]
      exact ⟨_, rfl⟩
  | some c =>
      have hread := hB.reads_back (World.readings_of_cap hc)
      have hun := readCapsule_unchanged w id
      rw [World.lookup_of_cap hc]
      dsimp only [Build.guardRange]
      rw [hadd]
      dsimp only
      by_cases hlt : UInt64.ofNat c.size < finish
      · rw [if_pos hlt, if_pos hlt]
        exact ⟨_, rfl⟩
      · rw [if_neg hlt, if_neg hlt, run_bind]
        generalize (WritePipeline.readCapsule P id).run (World.exec []) w = run at hread hun
        obtain ⟨r, w'⟩ := run
        obtain rfl : r = .ok _ := hread
        exact ⟨w', hun, rfl⟩

/-- **`read_range`** of a capsule. -/
theorem readRangeIn_ranged (hB : Between (.reading P U keys True) w) (id : CapsuleId) :
    Ranged b (w.target id) offset len w
      ((WritePipeline.readRangeIn P b id offset len).run (World.exec []) w) := by
  unfold World.target
  cases hc : w.cap id with
  | none =>
      rw [WritePipeline.readRangeIn, run_bind, run_lookup, CapsuleRegistry.lookup,
        show w.store.registry.capsules.lookup id = none from hc]
      exact ⟨_, rfl⟩
  | some c =>
      unfold Ranged
      dsimp only [Option.map_some]
      cases hadd : b.add offset len with
      | none =>
          rw [WritePipeline.readRangeIn, run_bind, run_lookup, World.lookup_of_cap hc]
          dsimp only [Build.guardRange]
          rw [hadd]
          rfl
      | some finish =>
          have h := readRangeIn_rangedTo hB id hadd
          dsimp only
          split
          · next hlt =>
              unfold RangedTo at h
              rw [hc] at h
              dsimp only at h
              rwa [if_pos hlt] at h
          · exact h

/-- A check against another size first. -/
theorem guardRange_ranged (hB : Between (.reading P U keys True) w) (size : UInt64)
    (id : CapsuleId) (beyond : String) : Ranged b (some (size, id)) offset len w
      ((b.guardRange size offset len beyond
        (WritePipeline.readRangeIn P b id offset len)).run (World.exec []) w) := by
  unfold Ranged Build.guardRange
  cases hadd : b.add offset len with
  | none => rfl
  | some finish =>
      dsimp only
      by_cases hlt : size < finish
      · rw [if_pos hlt, if_pos hlt]
        exact ⟨_, rfl⟩
      · rw [if_neg hlt, if_neg hlt]
        exact readRangeIn_rangedTo hB id hadd

theorem BlockView.readIn_ranged (hB : Between (.reading P U keys True) w) (v : BlockView)
    (name : Text) : Ranged b (v.target name) offset len w
      ((v.readIn P b name offset len).run (World.exec []) w) := by
  unfold BlockView.readIn BlockView.target
  cases hn : v.volumes.lookup name with
  | none => exact ⟨_, rfl⟩
  | some volume => exact guardRange_ranged hB _ _ _

theorem NfsView.readRangeIn_ranged (hB : Between (.reading P U keys True) w) (v : NfsView)
    (path : Text) : Ranged b (v.target path) offset len w
      ((v.readRangeIn P b path offset len).run (World.exec []) w) := by
  unfold NfsView.readRangeIn NfsView.target Namespace.fileAt NfsNode.content
  cases hn : v.nodes.lookup (normalizePath path).full with
  | none => exact ⟨_, rfl⟩
  | some node =>
      dsimp only [Option.bind_some]
      cases hk : node.kind with
      | directory => exact ⟨_, rfl⟩
      | file id size => exact guardRange_ranged hB _ _ _

end

end Space

import Space.Codec.Authenticated
import Space.Store.CommitFailure
import Space.Support.Lists

/-!
# Store — Lengths

The lengths that are recorded of what is stored.  A segment has its length as a `u32`, and so has
the metadata that the MAC covers; both are cast from the length of the payload, and the offset of
the next append moves by the length itself.

* `Recorded`: every segment has the cast length of what is stored under it, as `append`, a commit
  and any change of other fields leave it.
* `Takes.records_iff`: these lengths are the true ones exactly where what is stored is shorter than
  2^32 bytes.
* `StagedSince`: what a transaction has staged, while others leave the offset of the next append.
* `coversLength_iff`: the length that the MAC covers.
-/

namespace Space
open Support

/-! ### Cast lengths -/

theorem asU32_eq_iff {n : Nat} : asU32 n = n ↔ n < 4294967296 :=
  ⟨fun h => h ▸ Nat.mod_lt n (by decide), asU32_of_lt⟩

/-- What is under each identifier, of payloads that are stored in order. -/
def storedUnder (stored : List (SegmentId × Bytes)) : Table SegmentId Bytes :=
  NvramClient.install stored ∅

theorem storedUnder_snoc (stored : List (SegmentId × Bytes)) (x : SegmentId) (data : Bytes) :
    storedUnder (stored ++ [(x, data)]) = (storedUnder stored).insert x data :=
  List.foldl_append

/-- Every segment has the length of what is stored under it. -/
def TrueLengths (info : SegmentId → Option Segment) (stored : Table SegmentId Bytes) : Prop :=
  ∀ x data, stored.lookup x = some data → ∃ segment, info x = some segment ∧
    segment.len = data.length

/-- What is stored is shorter than 2^32 bytes. -/
def Short (stored : Table SegmentId Bytes) : Prop :=
  ∀ x data, stored.lookup x = some data → data.length < 4294967296

/-- Every segment has the length of what is stored under it, as a `u32`. -/
def Recorded (info : SegmentId → Option Segment) (stored : Table SegmentId Bytes) : Prop :=
  ∀ x data, stored.lookup x = some data → ∃ segment, info x = some segment ∧
    segment.len = asU32 data.length

namespace Recorded
variable {info : SegmentId → Option Segment} {stored : Table SegmentId Bytes} {x : SegmentId}
  {data : Bytes} {segment : Segment}

theorem empty : Recorded info ∅ := by
  intro x data hx
  cases hx

/-- **A segment is stored.** -/
theorem store (h : Recorded info stored) (hl : segment.len = asU32 data.length) :
    Recorded (Function.update info x (some segment)) (stored.insert x data) := by
  intro y payload hy
  rcases Table.lookup_insert_eq_some.mp hy with ⟨rfl, rfl⟩ | ⟨hne, hy⟩
  · exact ⟨segment, Function.update_self .., hl⟩
  · obtain ⟨old, hold, hlen⟩ := h y payload hy
    exact ⟨old, (Function.update_of_ne hne ..).trans hold, hlen⟩

/-- Other fields of a segment are changed. -/
theorem relabel {old : Segment} (h : Recorded info stored) (hold : info x = some old)
    (hl : segment.len = old.len) : Recorded (Function.update info x (some segment)) stored := by
  intro y payload hy
  obtain ⟨before, hbefore, hlen⟩ := h y payload hy
  by_cases hyx : y = x
  · subst hyx
    obtain rfl := Option.some.inj (hold.symm.trans hbefore)
    exact ⟨segment, Function.update_self .., hl.trans hlen⟩
  · exact ⟨before, (Function.update_of_ne hyx ..).trans hbefore, hlen⟩

/-- **A cast length is the length** exactly where it fits. -/
theorem trueLengths_iff (h : Recorded info stored) : TrueLengths info stored ↔ Short stored := by
  constructor
  · intro ht x data hx
    obtain ⟨segment, hs, hl⟩ := h x data hx
    obtain ⟨segment', hs', hl'⟩ := ht x data hx
    obtain rfl := Option.some.inj (hs.symm.trans hs')
    exact asU32_eq_iff.mp (hl.symm.trans hl')
  · intro hshort x data hx
    obtain ⟨segment, hs, hl⟩ := h x data hx
    exact ⟨segment, hs, hl.trans (asU32_of_lt (hshort x data hx))⟩

end Recorded

/-! ### The log -/

namespace NvramLog

def info (log : NvramLog) (x : SegmentId) : Option Segment := log.segmentMap.lookup x

theorem info_insert (m : Table SegmentId Segment) (x : SegmentId) (segment : Segment) :
    (fun y => (m.insert x segment).lookup y) =
      Function.update (fun y => m.lookup y) x (some segment) := by
  funext y
  rw [Table.lookup_insert, Function.update_apply]

/-- The lengths of what is stored are true, and the next append is behind all of it. -/
structure Records (log log' : NvramLog) (stored : List (SegmentId × Bytes)) : Prop where
  lengths : TrueLengths log'.info (storedUnder stored)
  advanced : log'.nextOffset = log.nextOffset + stagedBytes stored

/-- The log after payloads are stored. -/
structure Takes (log log' : NvramLog) (stored : List (SegmentId × Bytes)) : Prop where
  recorded : Recorded log'.info (storedUnder stored)
  advanced : log'.nextOffset = log.nextOffset + stagedBytes stored

variable {log log' : NvramLog} {stored : List (SegmentId × Bytes)}

theorem Takes.records_iff (h : log.Takes log' stored) :
    log.Records log' stored ↔ Short (storedUnder stored) :=
  ⟨fun hr => h.recorded.trueLengths_iff.mp hr.lengths,
    fun hs => ⟨h.recorded.trueLengths_iff.mpr hs, h.advanced⟩⟩

theorem Takes.start (log : NvramLog) : log.Takes log [] := ⟨.empty, rfl⟩

theorem stagedBytes_snoc (x : SegmentId) (data : Bytes) :
    stagedBytes (stored ++ [(x, data)]) = stagedBytes stored + data.length := by
  rw [stagedBytes, List.map_append, List.sum_append]
  rfl

/-- **One payload more.** -/
theorem Takes.store {log'' : NvramLog} {x : SegmentId} {data : Bytes} {segment : Segment}
    (h : log.Takes log' stored) (hm : log''.segmentMap = log'.segmentMap.insert x segment)
    (hl : segment.len = asU32 data.length) (ho : log''.nextOffset = log'.nextOffset + data.length) :
    log.Takes log'' (stored ++ [(x, data)]) := by
  have hinfo : log''.info = Function.update log'.info x (some segment) :=
    (funext fun y => congrArg (AList.lookup y) hm).trans (info_insert ..)
  refine ⟨?_, ?_⟩
  · rw [storedUnder_snoc, hinfo]
    exact h.recorded.store hl
  · rw [ho, h.advanced, stagedBytes_snoc, Nat.add_assoc]

theorem takes_append (log : NvramLog) (x : SegmentId) (data : Bytes) :
    log.Takes (log.append x data).2 [(x, data)] := (Takes.start log).store rfl rfl rfl

end NvramLog

/-! ### Transactions -/

namespace NvramTransaction
variable {log₀ log : NvramLog} {t : NvramTransaction} {stored : List (SegmentId × Bytes)}

/-- What a transaction that began on `log₀` has staged, and the log meanwhile: others leave the
offset of the next append, and no change of a staged segment is one of its identifier or length. -/
inductive StagedSince (log₀ : NvramLog) :
    List (SegmentId × Bytes) → NvramTransaction → NvramLog → Prop
  | start : StagedSince log₀ [] log₀.beginTransaction log₀
  | append {stored : List (SegmentId × Bytes)} {t t' : NvramTransaction} {log log' : NvramLog}
      {segId : SegmentId} {data : Bytes} {segment : Segment} (h : StagedSince log₀ stored t log)
      (e : t.appendSegment segId data log = (.ok (segment, t'), log')) :
      StagedSince log₀ (stored ++ [(segId, data)]) t' log'
  | change {stored : List (SegmentId × Bytes)} {t t' : NvramTransaction} {log : NvramLog}
      {segId : SegmentId} {f : Segment → Segment} (h : StagedSince log₀ stored t log)
      (hf : ∀ old, t.pendingSegment segId = some old → (f old).id = old.id ∧
        (f old).len = old.len)
      (e : t.withSegmentMut segId f = .ok t') : StagedSince log₀ stored t' log
  | others {stored : List (SegmentId × Bytes)} {t : NvramTransaction} {log log' : NvramLog}
      (h : StagedSince log₀ stored t log) (ho : log'.nextOffset = log.nextOffset) :
      StagedSince log₀ stored t log'

/-- A pending segment has its payload, and the length of it as a `u32`. -/
def Pends (p : PendingSegment) (entry : SegmentId × Bytes) : Prop :=
  p.segment.id = entry.1 ∧ p.data = entry.2 ∧ p.segment.len = asU32 entry.2.length

/-- A staged segment is changed. -/
theorem modifyPending_pends {segId : SegmentId} {f : Segment → Segment}
    {pending pending' : List PendingSegment} (h : List.Forall₂ Pends pending stored)
    (hf : ∀ old, (pending.find? fun p => p.segment.id = segId).map PendingSegment.segment =
      some old → (f old).id = old.id ∧ (f old).len = old.len)
    (hm : modifyPending segId f pending = some pending') : List.Forall₂ Pends pending' stored := by
  induction h generalizing pending' with
  | nil => cases hm
  | @cons p entry ps stored hp hps ih =>
      rw [modifyPending] at hm
      by_cases e : p.segment.id = segId
      · rw [if_pos e] at hm
        obtain rfl := Option.some.inj hm
        obtain ⟨hid, hlen⟩ := hf p.segment (by rw [List.find?_cons_of_pos (by simpa using e)]; rfl)
        obtain ⟨hid', hdata, hlen'⟩ := hp
        exact .cons ⟨hid.trans hid', hdata, hlen.trans hlen'⟩ hps
      · rw [if_neg e] at hm
        obtain ⟨rest, hrest, rfl⟩ := Option.map_eq_some_iff.mp hm
        refine .cons hp (ih (fun old hold => hf old ?_) hrest)
        rw [List.find?_cons_of_neg (by simpa using e)]
        exact hold

/-- A transaction that is open, after what it has staged. -/
structure OpenSince (log₀ : NvramLog) (stored : List (SegmentId × Bytes)) (t : NvramTransaction)
    (log : NvramLog) : Prop where
  active : t.finalized = false
  pends : List.Forall₂ Pends t.pending stored
  offset : t.currentOffset = log₀.nextOffset + stagedBytes stored
  moved : log.nextOffset = t.currentOffset

theorem StagedSince.openSince (h : StagedSince log₀ stored t log) :
    OpenSince log₀ stored t log := by
  induction h with
  | start => exact ⟨rfl, .nil, rfl, rfl⟩
  | @append stored t t' log log' segId data segment _ e ih =>
      obtain ⟨rfl, rfl, rfl⟩ := appendSegment_eq e
      refine ⟨ih.active, forall₂_snoc ih.pends ⟨rfl, rfl, rfl⟩, ?_, rfl⟩
      show t.currentOffset + data.length = _
      rw [ih.offset, NvramLog.stagedBytes_snoc, Nat.add_assoc]
  | change _ hf e ih =>
      obtain ⟨pending, hm, rfl⟩ := withSegmentMut_eq e
      exact ⟨ih.active, modifyPending_pends ih.pends hf hm, ih.offset, ih.moved⟩
  | others _ ho ih => exact ⟨ih.active, ih.pends, ih.offset, ho.trans ih.moved⟩

/-- What is installed has the cast lengths. -/
theorem recorded_installPending {pending : List PendingSegment}
    (h : List.Forall₂ Pends pending stored) :
    ∀ {m : Table SegmentId Segment} {contents : Table SegmentId Bytes},
      Recorded (fun x => m.lookup x) contents →
      Recorded (fun x => (installPending pending m).lookup x)
        (NvramClient.install stored contents) := by
  induction h with
  | nil => exact id
  | @cons p entry ps stored hp _ ih =>
      intro m contents hm
      obtain ⟨hid, -, hlen⟩ := hp
      refine ih (m := m.insert p.segment.id p.segment) ?_
      rw [NvramLog.info_insert, hid]
      exact hm.store hlen

/-- **A transaction that is committed.** -/
theorem StagedSince.commit (h : StagedSince log₀ stored t log) :
    log₀.Takes (t.commit log).2 stored := by
  obtain ⟨hactive, hpends, hoffset, hmoved⟩ := h.openSince
  rw [NvramTransaction.commit, if_neg (Bool.eq_false_iff.mp hactive)]
  by_cases hnil : t.pending = []
  · rw [hnil] at hpends
    cases hpends
    rw [if_pos hnil]
    exact ⟨.empty, hmoved.trans hoffset⟩
  · rw [if_neg hnil]
    exact ⟨recorded_installPending hpends .empty, hoffset⟩

end NvramTransaction

/-! ### The MAC -/

/-- The metadata that is authenticated ends with the length of the ciphertext. -/
def CoversLength (ciphertext : Bytes) (m : EncryptionMetadata) : Prop :=
  ∃ (n : UInt32) (front : Bytes), serializeMetadataForMac m = front ++ le32 n ∧
    n.toNat = ciphertext.length

/-- **The length that the MAC covers** is the true one exactly where it fits. -/
theorem coversLength_iff {P : Primitives} {plaintext ciphertext : Bytes} {keyPair : XtsKeyPair}
    {keyVersion : UInt32} {tweak : Block 16} {m : EncryptionMetadata} (hx : P.XtsInverse)
    (h : encryptSegment P plaintext keyPair keyVersion tweak = .ok (ciphertext, m)) :
    CoversLength ciphertext m ↔ plaintext.length < 4294967296 := by
  obtain ⟨h16, rfl, rfl⟩ := encryptSegment_ok h
  rw [← hx.length_encrypt keyPair.key1 keyPair.key2 tweak plaintext h16]
  set ciphertext := P.encryptSector keyPair.key1 keyPair.key2 plaintext tweak
  constructor
  · rintro ⟨n, front, hs, hn⟩
    obtain ⟨-, hle⟩ := List.append_inj' hs rfl
    obtain rfl := le32_injective hle
    rw [← hn]
    exact UInt32.toNat_lt _
  · intro hlt
    exact ⟨_, _, rfl, UInt32.toNat_ofNat_of_lt' hlt⟩

end Space

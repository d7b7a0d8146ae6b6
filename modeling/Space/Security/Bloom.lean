import Space.Codec.Encryption
import Space.Codec.Stored
import Space.Store.Registry
import Mathlib.Algebra.BigOperators.Group.List.Basic
import Mathlib.Algebra.Order.BigOperators.Group.List
import Mathlib.Algebra.Order.Group.Nat

/-!
# Security — Bloom

The counting Bloom filter in front of the content store.  A hash is inserted when it is registered
and removed when it is deregistered; a lookup of a hash that some counter excludes does not come to
the store.  A counter is a byte.  At 255 an insertion leaves it as it is, and a removal takes one
off it all the same.

* `Counted`: the counters are the numbers of insertions not taken back, while no insertion finds a
  counter at 255.
* `lookupContent_transparent`: in every such history a lookup answers what the store holds.
* `not_lookupContent_transparent`: in others a hash that is registered is not found.

The sizes of the filter are computed in floating point from the configured capacity and rate; of
that computation the bounds are kept.
-/

namespace Space
open Support

variable {P : Primitives}

/-- `u64::from_le_bytes`. -/
def fromLe64 (bytes : Bytes) : UInt64 :=
  bytes.foldr (fun b acc => acc <<< 8 ||| b.toUInt64) 0

/-- The first 16 bytes of the BLAKE3 output, as two numbers. -/
def hashPair (P : Primitives) (data : Bytes) : UInt64 × UInt64 :=
  let out := (P.blake3 data).toList
  (fromLe64 (out.take 8), fromLe64 ((out.drop 8).take 8))

structure CountingBloomFilter where
  counters : List UInt8
  bucketCount : Nat
  numHashes : Nat
  length_counters : counters.length = bucketCount
  bucketCount_pos : 0 < bucketCount

namespace CountingBloomFilter

/-- A filter of the given sizes, with all counters at zero. -/
def new (bucketCount numHashes : Nat) (h : 0 < bucketCount) : CountingBloomFilter where
  counters := List.replicate bucketCount 0
  bucketCount := bucketCount
  numHashes := numHashes
  length_counters := List.length_replicate
  bucketCount_pos := h

/-- The cells of a hash; one cell may occur several times. -/
def indexes (P : Primitives) (filter : CountingBloomFilter) (data : Bytes) : List Nat :=
  let (h1, h2) := hashPair P data
  (List.range filter.numHashes).map fun i =>
    (h1 + UInt64.ofNat i * h2).toNat % filter.bucketCount

theorem length_indexes {filter : CountingBloomFilter} {data : Bytes} :
    (filter.indexes P data).length = filter.numHashes :=
  (List.length_map _).trans List.length_range

/-- Change the cells of a list, one after the other. -/
def touchCells (f : UInt8 → UInt8) (cells : List Nat) (counters : List UInt8) : List UInt8 :=
  cells.foldl (fun counters i => counters.modify i f) counters

theorem length_touchCells {f : UInt8 → UInt8} : ∀ (cells : List Nat) (counters : List UInt8),
    (touchCells f cells counters).length = counters.length
  | [], _ => rfl
  | i :: cells, counters =>
      (length_touchCells cells (counters.modify i f)).trans (List.length_modify f counters i)

def touch (f : UInt8 → UInt8) (cells : List Nat) (filter : CountingBloomFilter) :
    CountingBloomFilter where
  counters := touchCells f cells filter.counters
  bucketCount := filter.bucketCount
  numHashes := filter.numHashes
  length_counters := (length_touchCells cells filter.counters).trans filter.length_counters
  bucketCount_pos := filter.bucketCount_pos

/-- One more, up to the maximum. -/
def up (val : UInt8) : UInt8 := if val = 255 then 255 else val + 1

/-- One less, down to zero. -/
def down (val : UInt8) : UInt8 := if val = 0 then 0 else val - 1

def insert (P : Primitives) (data : Bytes) (filter : CountingBloomFilter) : CountingBloomFilter :=
  filter.touch up (filter.indexes P data)

def remove (P : Primitives) (data : Bytes) (filter : CountingBloomFilter) : CountingBloomFilter :=
  filter.touch down (filter.indexes P data)

/-- No cell of the list is at zero; a cell that does not exist ends the search. -/
def excludesNone (counters : List UInt8) : List Nat → Bool
  | [] => true
  | i :: cells =>
    match counters[i]? with
    | some val => if val = 0 then false else excludesNone counters cells
    | none => true

def mightContain (P : Primitives) (filter : CountingBloomFilter) (data : Bytes) : Bool :=
  excludesNone filter.counters (filter.indexes P data)

/-! ### What the counters count -/

/-- A cell is changed as often as it occurs. -/
theorem getElem?_touchCells {f : UInt8 → UInt8} {i : Nat} :
    ∀ (cells : List Nat) (counters : List UInt8),
      (touchCells f cells counters)[i]? = counters[i]?.map f^[cells.count i]
  | [], counters => by simp [touchCells]
  | j :: cells, counters => by
      refine (getElem?_touchCells cells (counters.modify j f)).trans ?_
      rw [List.getElem?_modify, Option.map_eq_map, Option.map_map]
      refine congrArg (fun g => counters[i]?.map g) (funext fun v => ?_)
      by_cases e : j = i
      · rw [Function.comp_apply, if_pos e, e, List.count_cons_self, Function.iterate_succ_apply]
      · rw [Function.comp_apply, if_neg e, List.count_cons_of_ne e]

theorem toNat_up {val : UInt8} (h : val.toNat < 255) : (up val).toNat = val.toNat + 1 := by
  have hne : val ≠ 255 := by
    rintro rfl
    exact absurd h (by decide)
  rw [up, if_neg hne, UInt8.toNat_add]
  exact Nat.mod_eq_of_lt (Nat.succ_lt_succ h)

theorem toNat_down {val : UInt8} (h : 0 < val.toNat) : (down val).toNat = val.toNat - 1 := by
  have hne : val ≠ 0 := by
    rintro rfl
    exact absurd h (by decide)
  have hle : (1 : UInt8) ≤ val := UInt8.le_iff_toNat_le.mpr h
  rw [down, if_neg hne, UInt8.toNat_sub_of_le val 1 hle]
  rfl

theorem toNat_up_iterate {n : Nat} : ∀ {val : UInt8}, val.toNat + n ≤ 255 →
    (up^[n] val).toNat = val.toNat + n := by
  induction n with
  | zero => exact fun _ => rfl
  | succ n ih =>
      intro val h
      have hup : (up val).toNat = val.toNat + 1 := toNat_up (by omega)
      rw [Function.iterate_succ_apply, ih (by omega), hup, Nat.add_assoc, Nat.add_comm 1]

theorem toNat_down_iterate {n : Nat} : ∀ {val : UInt8}, n ≤ val.toNat →
    (down^[n] val).toNat = val.toNat - n := by
  induction n with
  | zero => exact fun _ => rfl
  | succ n ih =>
      intro val h
      have hdown : (down val).toNat = val.toNat - 1 := toNat_down (by omega)
      rw [Function.iterate_succ_apply, ih (by omega), hdown, Nat.sub_sub, Nat.add_comm 1]

theorem down_iterate_eq_zero {n : Nat} : ∀ {val : UInt8}, val.toNat ≤ n → down^[n] val = 0 := by
  induction n with
  | zero => exact fun h => UInt8.toNat_inj.mp (Nat.le_zero.mp h)
  | succ n ih =>
      intro val h
      rw [Function.iterate_succ_apply]
      by_cases h0 : val = 0
      · exact ih (by simp [down, h0])
      · have hpos : 0 < val.toNat := Nat.pos_of_ne_zero fun e => h0 (UInt8.toNat_inj.mp e)
        have hdown : (down val).toNat = val.toNat - 1 := toNat_down hpos
        exact ih (by omega)

/-- How often a list of hashes touches a cell. -/
def load (P : Primitives) (filter : CountingBloomFilter) (hashes : List ContentHash) (i : Nat) :
    Nat := (hashes.map fun hash => (filter.indexes P hash.str).count i).sum

/-- The counters count these hashes. -/
def Counted (P : Primitives) (filter : CountingBloomFilter) (hashes : List ContentHash) : Prop :=
  ∀ i val, filter.counters[i]? = some val → val.toNat = filter.load P hashes i

/-- Inserting the hash finds no counter at its maximum. -/
def HasRoom (P : Primitives) (filter : CountingBloomFilter) (hash : ContentHash) : Prop :=
  ∀ i val, filter.counters[i]? = some val →
    val.toNat + (filter.indexes P hash.str).count i ≤ 255

variable {filter : CountingBloomFilter} {hashes : List ContentHash} {hash : ContentHash}

theorem load_touch {f : UInt8 → UInt8} {cells : List Nat} {i : Nat} :
    filter.load P hashes i = (filter.touch f cells).load P hashes i := rfl

theorem load_cons {i : Nat} : filter.load P (hash :: hashes) i =
    (filter.indexes P hash.str).count i + filter.load P hashes i := List.sum_cons

theorem counted_new {bucketCount numHashes : Nat} (h : 0 < bucketCount) :
    (new bucketCount numHashes h).Counted P [] := by
  intro i val hv
  have hval : val = 0 := (List.mem_replicate.mp (List.mem_of_getElem? hv)).2
  rw [hval]
  rfl

theorem Counted.insert (h : filter.Counted P hashes) (hr : filter.HasRoom P hash) :
    (filter.insert P hash.str).Counted P (hash :: hashes) := by
  intro i val hv
  obtain ⟨old, hold, rfl⟩ := Option.map_eq_some_iff.mp
    ((getElem?_touchCells (filter.indexes P hash.str) filter.counters).symm.trans hv)
  rw [toNat_up_iterate (hr i old hold), h i old hold, Nat.add_comm, ← load_cons]
  exact load_touch

theorem Counted.remove (h : filter.Counted P hashes) (hm : hash ∈ hashes) :
    (filter.remove P hash.str).Counted P (hashes.erase hash) := by
  intro i val hv
  obtain ⟨old, hold, rfl⟩ := Option.map_eq_some_iff.mp
    ((getElem?_touchCells (filter.indexes P hash.str) filter.counters).symm.trans hv)
  have hsum : (filter.indexes P hash.str).count i + filter.load P (hashes.erase hash) i =
      filter.load P hashes i :=
    List.sum_map_erase (fun kept : ContentHash => (filter.indexes P kept.str).count i) hm
  have hold' : old.toNat = filter.load P hashes i := h i old hold
  rw [toNat_down_iterate (by omega), hold', ← hsum, Nat.add_sub_cancel_left]
  exact load_touch

/-- A counter is at most the number of cells that were touched. -/
theorem Counted.hasRoom (h : filter.Counted P hashes)
    (hl : (hashes.length + 1) * filter.numHashes ≤ 255) : filter.HasRoom P hash := by
  intro i val hv
  have hcell : ∀ kept : ContentHash, (filter.indexes P kept.str).count i ≤ filter.numHashes :=
    fun kept => List.count_le_length.trans length_indexes.le
  have hload : filter.load P hashes i ≤ hashes.length * filter.numHashes := by
    refine (List.sum_le_card_nsmul _ filter.numHashes fun n hn => ?_).trans_eq ?_
    · obtain ⟨kept, -, rfl⟩ := List.mem_map.mp hn
      exact hcell kept
    · rw [List.length_map]
      rfl
  calc val.toNat + (filter.indexes P hash.str).count i
      ≤ hashes.length * filter.numHashes + filter.numHashes :=
        Nat.add_le_add ((h i val hv).le.trans hload) (hcell hash)
    _ = (hashes.length + 1) * filter.numHashes := (Nat.succ_mul _ _).symm
    _ ≤ 255 := hl

theorem excludesNone_of_pos {counters : List UInt8} : ∀ {cells : List Nat},
    (∀ i ∈ cells, ∀ val, counters[i]? = some val → val ≠ 0) →
      excludesNone counters cells = true
  | [], _ => rfl
  | i :: cells, h => by
      unfold excludesNone
      split
      · next val hv =>
          rw [if_neg (h i List.mem_cons_self val hv)]
          exact excludesNone_of_pos fun j hj => h j (List.mem_cons_of_mem _ hj)
      · rfl

/-- **A hash that is counted is not excluded.** -/
theorem Counted.mightContain (h : filter.Counted P hashes) (hm : hash ∈ hashes) :
    filter.mightContain P hash.str = true := by
  refine excludesNone_of_pos fun i hi val hv h0 => ?_
  have hpos : 0 < (filter.indexes P hash.str).count i := List.count_pos_iff.mpr hi
  have hle : (filter.indexes P hash.str).count i ≤ filter.load P hashes i :=
    List.single_le_sum (fun _ _ => Nat.zero_le _) _
      (List.mem_map_of_mem (f := fun kept : ContentHash => (filter.indexes P kept.str).count i) hm)
  have hval := h i val hv
  rw [h0] at hval
  have hzero : (0 : UInt8).toNat = 0 := rfl
  omega

end CountingBloomFilter

/-! ### The registry behind the filter -/

/-- What the environment configures. -/
structure BloomSizes where
  bucketCount : Nat
  numHashes : Nat
  bucketCount_ge : 1024 ≤ bucketCount
  numHashes_pos : 0 < numHashes

/-- The filter of these sizes, before anything is inserted. -/
def BloomSizes.filter (sizes : BloomSizes) : CountingBloomFilter :=
  .new sizes.bucketCount sizes.numHashes (Nat.lt_of_lt_of_le (by decide) sizes.bucketCount_ge)

structure FilteredRegistry extends CapsuleRegistry where
  bloomFilter : Option CountingBloomFilter

namespace FilteredRegistry

/-- `configure_bloom`: a filter of the hashes that are there, in the order of one traversal. -/
def configureBloom (P : Primitives) (sizes : BloomSizes) (ord : Order ContentHash)
    (existing : Option (Table ContentHash SegmentId)) : Option CountingBloomFilter :=
  match existing with
  | some store =>
      some ((ord.reorder store.keys).foldl (fun f hash => f.insert P hash.str) sizes.filter)
  | none => some sizes.filter

/-- `open`, with what is on disk. -/
def opened (P : Primitives) (sizes : BloomSizes) (ord : Order ContentHash)
    (saved : Option RegistryState) : FilteredRegistry :=
  let registry := { CapsuleRegistry.empty with saved := saved }.reopen
  { registry with bloomFilter := configureBloom P sizes ord (some registry.contentStore) }

def lookupContent (P : Primitives) (reg : FilteredRegistry) (hash : ContentHash) :
    Option SegmentId :=
  if reg.bloomFilter.any fun filter => !filter.mightContain P hash.str then none
  else reg.contentStore.lookup hash

def registerContent (P : Primitives) (reg : FilteredRegistry) (hash : ContentHash)
    (segId : SegmentId) : FilteredRegistry where
  toCapsuleRegistry := reg.toCapsuleRegistry.registerContent hash segId
  bloomFilter := reg.bloomFilter.map (CountingBloomFilter.insert P hash.str)

/-- Remove an entry if it still names the segment. -/
def deregisterContent (P : Primitives) (reg : FilteredRegistry) (hash : ContentHash)
    (segId : SegmentId) : Bool × FilteredRegistry :=
  if reg.contentStore.lookup hash = some segId then
    (true, { (reg.toCapsuleRegistry.deregisterContent hash segId).2 with
      bloomFilter := reg.bloomFilter.map (CountingBloomFilter.remove P hash.str) })
  else (false, reg)

/-! ### Histories -/

/-- The insertions of a list of hashes, one after the other, all of them as `A` says. -/
def InsertsAll (P : Primitives) (A : CountingBloomFilter → ContentHash → Prop) :
    List ContentHash → CountingBloomFilter → Prop
  | [], _ => True
  | hash :: hashes, filter =>
      A filter hash ∧ InsertsAll P A hashes (filter.insert P hash.str)

/-- The registries reachable from `open`, whose insertions are as `A` says. -/
inductive Reached (P : Primitives) (A : CountingBloomFilter → ContentHash → Prop) :
    FilteredRegistry → Prop
  | opened (sizes : BloomSizes) (ord : Order ContentHash) (saved : Option RegistryState) :
      InsertsAll P A (ord.reorder ({ CapsuleRegistry.empty with saved := saved }.reopen.contentStore
        |>.keys)) (sizes.filter) →
      Reached P A (opened P sizes ord saved)
  | register {reg : FilteredRegistry} (hash : ContentHash) (segId : SegmentId) :
      Reached P A reg → (∀ filter, reg.bloomFilter = some filter → A filter hash) →
      Reached P A (reg.registerContent P hash segId)
  | deregister {reg : FilteredRegistry} (hash : ContentHash) (segId : SegmentId) :
      Reached P A reg → Reached P A (reg.deregisterContent P hash segId).2

/-- The counters count hashes, among them those that are stored. -/
def Covers (P : Primitives) (reg : FilteredRegistry) : Prop :=
  ∃ (filter : CountingBloomFilter) (hashes : List ContentHash),
    reg.bloomFilter = some filter ∧ filter.Counted P hashes ∧
      ∀ hash ∈ reg.contentStore, hash ∈ hashes

theorem InsertsAll.counted {inserted : List ContentHash} : ∀ {hashes : List ContentHash}
    {filter : CountingBloomFilter}, filter.Counted P inserted →
    InsertsAll P (fun filter hash => filter.HasRoom P hash) hashes filter →
      ∃ counted : List ContentHash,
        (hashes.foldl (fun f hash => f.insert P hash.str) filter).Counted P counted ∧
          (∀ hash ∈ hashes, hash ∈ counted) ∧ ∀ hash ∈ inserted, hash ∈ counted := by
  intro hashes
  induction hashes generalizing inserted with
  | nil => exact fun h _ => ⟨inserted, h, fun _ hm => absurd hm List.not_mem_nil, fun _ => id⟩
  | cons hash hashes ih =>
      rintro filter h ⟨hroom, hrest⟩
      obtain ⟨counted, hc, hnew, hold⟩ := ih (h.insert hroom) hrest
      refine ⟨counted, hc, fun other hm => ?_, fun other hm => hold _ (List.mem_cons_of_mem _ hm)⟩
      rcases List.mem_cons.mp hm with rfl | hm
      · exact hold _ List.mem_cons_self
      · exact hnew _ hm

variable {reg : FilteredRegistry} {hash : ContentHash}

theorem covers_opened {sizes : BloomSizes} {ord : Order ContentHash}
    {saved : Option RegistryState}
    (h : InsertsAll P (fun filter hash => filter.HasRoom P hash) (ord.reorder
      ({ CapsuleRegistry.empty with saved := saved }.reopen.contentStore.keys)) sizes.filter) :
    (opened P sizes ord saved).Covers P := by
  obtain ⟨counted, hc, hnew, -⟩ := InsertsAll.counted (CountingBloomFilter.counted_new _) h
  refine ⟨_, counted, rfl, hc, fun hash hm => hnew hash ?_⟩
  exact (ord.mem_reorder).mpr (AList.mem_keys.mp hm)

theorem Covers.register (h : reg.Covers P) {segId : SegmentId}
    (hr : ∀ filter, reg.bloomFilter = some filter → filter.HasRoom P hash) :
    (reg.registerContent P hash segId).Covers P := by
  obtain ⟨filter, hashes, hf, hc, hmem⟩ := h
  refine ⟨filter.insert P hash.str, hash :: hashes, congrArg (Option.map _) hf,
    hc.insert (hr filter hf), fun other hm => ?_⟩
  rcases AList.mem_insert _ |>.mp hm with rfl | hm
  · exact List.mem_cons_self
  · exact List.mem_cons_of_mem _ (hmem other hm)

theorem Covers.deregister (h : reg.Covers P) {segId : SegmentId} :
    (reg.deregisterContent P hash segId).2.Covers P := by
  unfold deregisterContent
  split
  · next hl =>
      obtain ⟨filter, hashes, hf, hc, hmem⟩ := h
      have hin : hash ∈ hashes := hmem hash (Table.mem_iff.mpr ⟨segId, hl⟩)
      refine ⟨filter.remove P hash.str, hashes.erase hash, congrArg (Option.map _) hf,
        hc.remove hin, fun other hm => ?_⟩
      have hstore : (reg.toCapsuleRegistry.deregisterContent hash segId).2.contentStore =
          reg.contentStore.erase hash := by
        rw [CapsuleRegistry.deregisterContent, if_pos hl]
        rfl
      obtain ⟨hne, hm⟩ := AList.mem_erase.mp (hstore ▸ hm)
      exact (List.mem_erase_of_ne hne).mpr (hmem other hm)
  · exact h

theorem Covers.lookupContent (h : reg.Covers P) :
    reg.lookupContent P hash = reg.contentStore.lookup hash := by
  obtain ⟨filter, hashes, hf, hc, hmem⟩ := h
  unfold FilteredRegistry.lookupContent
  rw [hf, Option.any_some]
  cases hl : reg.contentStore.lookup hash with
  | none => exact ite_self _
  | some segId =>
      rw [hc.mightContain (hmem hash (Table.mem_iff.mpr ⟨segId, hl⟩))]
      rfl

/-- **Through the filter a lookup answers what the store holds, as long as no insertion finds a
counter at its maximum.** -/
theorem lookupContent_transparent
    (h : Reached P (fun filter hash => filter.HasRoom P hash) reg) (hash : ContentHash) :
    reg.lookupContent P hash = reg.contentStore.lookup hash := by
  have hcovers : reg.Covers P := by
    induction h with
    | opened sizes ord saved hall => exact covers_opened hall
    | register hash segId _ hroom ih => exact ih.register hroom
    | deregister hash segId _ ih => exact ih.deregister
  exact hcovers.lookupContent

/-- Two hashes that have four of their seven cells in common. -/
def hashZero : ContentHash := ⟨[0, 0, 0, 0, 0, 0, 0, 0, 1]⟩

def hashThree : ContentHash := ⟨[3, 0, 0, 0, 0, 0, 0, 0, 1]⟩

/-- One of them is on disk, the other one is registered, and the first one is taken back: the
second is found, though cells of it were counted down, and the first is not. -/
theorem lookupContent_transparent_registered :
    let saved : RegistryState := ⟨∅, 1, (∅ : Table ContentHash SegmentId).insert hashZero ⟨0⟩⟩
    let reg := (((opened .stored ⟨1024, 7, by decide, by decide⟩ .asGiven
      (some saved)).registerContent .stored hashThree ⟨1⟩).deregisterContent .stored hashZero ⟨0⟩).2
    reg.lookupContent .stored hashThree = some ⟨1⟩ ∧ reg.lookupContent .stored hashZero = none := by
  intro saved reg
  have hnew : (BloomSizes.filter ⟨1024, 7, by decide, by decide⟩).Counted .stored [] :=
    CountingBloomFilter.counted_new _
  have hroom : (BloomSizes.filter ⟨1024, 7, by decide, by decide⟩).HasRoom .stored hashZero :=
    hnew.hasRoom (by decide)
  have hrun : Reached .stored (fun filter hash => filter.HasRoom .stored hash) reg := by
    refine .deregister hashZero ⟨0⟩ (.register hashThree ⟨1⟩
      (.opened _ .asGiven (some saved) ⟨hroom, trivial⟩) fun filter hf => ?_)
    cases hf
    exact (hnew.insert hroom).hasRoom (by decide)
  exact ⟨(lookupContent_transparent hrun hashThree).trans rfl,
    (lookupContent_transparent hrun hashZero).trans rfl⟩

/-- `BLAKE3`, had it the value zero. -/
def zeroed : Primitives := { Primitives.stored with blake3 := fun _ => .ofPrefix 32 [] }

theorem indexes_zeroed {filter : CountingBloomFilter} {data : Bytes} :
    filter.indexes zeroed data = List.replicate filter.numHashes 0 := by
  have hcell : ∀ i : Nat, ((0 : UInt64) + UInt64.ofNat i * 0).toNat % filter.bucketCount = 0 := by
    intro i
    rw [UInt64.mul_zero, UInt64.add_zero]
    exact Nat.zero_mod _
  refine (List.map_congr_left fun i _ => hcell i).trans ?_
  rw [List.map_const', List.length_range]

/-- With more cells than a counter counts, a removal leaves nothing. -/
theorem mightContain_removed_zeroed {filter : CountingBloomFilter} {removed data : Bytes}
    (h : 255 ≤ filter.numHashes) :
    (filter.remove zeroed removed).mightContain zeroed data = false := by
  obtain ⟨n, hn⟩ := Nat.exists_eq_add_of_le' (Nat.le_trans (by decide : 1 ≤ 255) h)
  have hlt : 0 < filter.counters.length := filter.length_counters ▸ filter.bucketCount_pos
  have hzero : (filter.remove zeroed removed).counters[0]? = some 0 := by
    refine (CountingBloomFilter.getElem?_touchCells _ _).trans ?_
    rw [List.getElem?_eq_getElem hlt, indexes_zeroed, List.count_replicate_self, Option.map_some,
      CountingBloomFilter.down_iterate_eq_zero ((Nat.le_of_lt_succ (UInt8.toNat_lt _)).trans h)]
  unfold CountingBloomFilter.mightContain
  rw [indexes_zeroed, show (filter.remove zeroed removed).numHashes = n + 1 from hn,
    List.replicate_succ, CountingBloomFilter.excludesNone, hzero]
  rfl

/-- One hash is registered, a second one, and the first is deregistered. -/
def swapped (P : Primitives) (sizes : BloomSizes) : FilteredRegistry :=
  ((((opened P sizes .asGiven none).registerContent P ⟨[1]⟩ ⟨0⟩).registerContent P
    ⟨[2]⟩ ⟨1⟩).deregisterContent P ⟨[1]⟩ ⟨0⟩).2

theorem reached_swapped {sizes : BloomSizes} : Reached P (fun _ _ => True) (swapped P sizes) :=
  .deregister _ _ (.register _ _ (.register _ _ (.opened _ _ none trivial) fun _ _ => trivial)
    fun _ _ => trivial)

theorem lookupContent_swapped_zeroed {sizes : BloomSizes} (h : 255 ≤ sizes.numHashes) :
    (swapped zeroed sizes).lookupContent zeroed ⟨[2]⟩ = none := by
  have hfilter : (swapped zeroed sizes).bloomFilter =
    some (((sizes.filter.insert zeroed [1]).insert zeroed [2]).remove zeroed [1]) := rfl
  unfold lookupContent
  rw [hfilter, Option.any_some, mightContain_removed_zeroed h]
  rfl

/-- **A hash that is registered is not always found**: where the 710 cells of two hashes are one,
the counter is full after the first, and the removal of the first leaves it at zero. -/
theorem not_lookupContent_transparent : ¬ ∀ (P : Primitives) (reg : FilteredRegistry),
    Reached P (fun _ _ => True) reg →
      ∀ hash, reg.lookupContent P hash = reg.contentStore.lookup hash := by
  intro h
  have hfound := h zeroed (swapped zeroed ⟨1024, 710, by decide, by decide⟩) reached_swapped ⟨[2]⟩
  rw [lookupContent_swapped_zeroed (by decide : 255 ≤ 710)] at hfound
  have hstored : (swapped zeroed ⟨1024, 710, by decide, by decide⟩).contentStore.lookup ⟨[2]⟩ =
    some ⟨1⟩ := rfl
  rw [hstored] at hfound
  cases hfound

end FilteredRegistry

end Space

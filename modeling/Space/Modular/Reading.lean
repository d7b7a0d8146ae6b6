import Space.Modular.Counts
import Space.Modular.Registry

/-!
# Modular — Reading

What `read_capsule` answers, from what the catalog and the storage say.

* `Shelf`: what a reader asks for, over any state; `Shelf.Serves`: operations that answer it.
* `Shelf.readCapsule_run`: the method, all at once.
* `Shelf.readCapsule_congr`, `Shelf.readCapsule_gone`: of the metadata of its segments a capsule
  does not depend on the counts, and without the metadata of one of them it is not read.
* `InMemory.shelf`, `Registered.shelf`: the two storages with their catalogs.
-/

namespace Space
open Support Prog

/-- What a segment reads as. -/
def Parts.segmentData (parts : Parts) (policy : Policy) (x : SegmentId) (segment : Segment)
    (raw : Bytes) : Except Error Bytes := do
  let decrypted ← if segment.encrypted then parts.decrypt raw policy.encryption x else .ok raw
  if segment.compressed then parts.decompress decrypted segment.compressionAlgo else .ok decrypted

/-- What a reader asks for. -/
structure Shelf (σ : Type) where
  capsule : CapsuleId → σ → Except Error Capsule
  info : SegmentId → σ → Except Error Segment
  raw : SegmentId → σ → Except Error Bytes

namespace Shelf
variable {σ : Type} (L : Shelf σ) {parts : Parts} {exec : Handler ModularSig Error σ} {s u : σ}
  {id : CapsuleId} {policy : Policy} {x : SegmentId} {c : Capsule}

/-- The operations answer a reader so, and change nothing. -/
structure Serves (parts : Parts) (exec : Handler ModularSig Error σ) : Prop where
  lookupCapsule : ∀ id s, exec (.lookupCapsule id) s = (L.capsule id s, s)
  metadata : ∀ x s, exec (.metadata x) s = (L.info x s, s)
  read : ∀ x s, exec (.read x) s = (L.raw x s, s)
  decrypt : ∀ raw policy x s, exec (.decrypt raw policy x) s = (parts.decrypt raw policy x, s)
  decompress : ∀ raw algo s, exec (.decompress raw algo) s = (parts.decompress raw algo, s)

/-- One segment of a capsule. -/
def readSegment (parts : Parts) (policy : Policy) (x : SegmentId) (s : σ) : Except Error Bytes := do
  let segment ← L.info x s
  let raw ← L.raw x s
  parts.segmentData policy x segment raw

/-- The segments of a list, one after the other. -/
def readSegments (parts : Parts) (policy : Policy) (l : List SegmentId) (output : Bytes) (s : σ) :
    Except Error Bytes :=
  l.foldlM (fun output x => do
    let data ← L.readSegment parts policy x s
    return output ++ data) output

def readCapsule (parts : Parts) (id : CapsuleId) (s : σ) : Except Error Bytes := do
  let c ← L.capsule id s
  L.readSegments parts c.policy c.segments [] s

variable {L}

/-! ### The method -/

/-- Reading a segment, all at once. -/
theorem readSegment_run (h : L.Serves parts exec) (policy : Policy) (x : SegmentId) (s : σ) :
    (Pipeline.readSegment policy x).run exec s = (L.readSegment parts policy x s, s) := by
  have hinfo : (Modular.metadata x).run exec s = (L.info x s, s) :=
    (run_perform (S := ModularSig) _ _ s).trans (h.metadata x s)
  have hraw : (Modular.read x).run exec s = (L.raw x s, s) :=
    (run_perform (S := ModularSig) _ _ s).trans (h.read x s)
  rw [Pipeline.readSegment, readSegment, run_bind, hinfo]
  cases L.info x s with
  | error e => rfl
  | ok segment =>
      show Prog.run _ (Modular.read x >>= _) s = _
      rw [run_bind, hraw]
      cases L.raw x s with
      | error e => rfl
      | ok raw =>
          have hlast : ∀ decrypted, (if segment.compressed then
              Modular.decompress decrypted segment.compressionAlgo else pure decrypted :
              Modular Bytes).run exec s =
              ((if segment.compressed then parts.decompress decrypted segment.compressionAlgo
                else .ok decrypted), s) := by
            intro decrypted
            split
            · exact (run_perform (S := ModularSig) _ _ s).trans (h.decompress _ _ s)
            · rfl
          show Prog.run _ (if segment.encrypted then _ else _) s =
            (parts.segmentData policy x segment raw, s)
          rw [Parts.segmentData]
          by_cases he : segment.encrypted = true
          · have hdec : (Modular.decrypt raw policy.encryption x).run exec s =
                (parts.decrypt raw policy.encryption x, s) :=
              (run_perform (S := ModularSig) _ _ s).trans (h.decrypt _ _ _ s)
            rw [if_pos he, if_pos he, run_bind, hdec]
            cases parts.decrypt raw policy.encryption x with
            | error e => rfl
            | ok decrypted => exact hlast decrypted
          · rw [if_neg he, if_neg he]
            exact hlast raw

theorem readSegments_run (h : L.Serves parts exec) (policy : Policy) (s : σ) :
    ∀ (l : List SegmentId) (output : Bytes), (l.foldlM (fun output segId => do
      let data ← Pipeline.readSegment policy segId
      return output ++ data) output).run exec s = (L.readSegments parts policy l output s, s)
  | [], _ => rfl
  | x :: l, output => by
      rw [List.foldlM_cons, run_bind, run_bind, readSegment_run h, readSegments, List.foldlM_cons]
      cases L.readSegment parts policy x s with
      | error e => rfl
      | ok data => exact readSegments_run h policy s l (output ++ data)

/-- **Reading a capsule**, all at once. -/
theorem readCapsule_run (h : L.Serves parts exec) (id : CapsuleId) (s : σ) :
    (Pipeline.readCapsule id).run exec s = (L.readCapsule parts id s, s) := by
  have hlookup : (Modular.lookupCapsule id).run exec s = (L.capsule id s, s) :=
    (run_perform (S := ModularSig) _ _ s).trans (h.lookupCapsule id s)
  rw [Pipeline.readCapsule, readCapsule, run_bind, hlookup]
  cases L.capsule id s with
  | error e => rfl
  | ok c => exact readSegments_run h c.policy s c.segments []

/-! ### What it depends on -/

/-- The segment is the same to a reader. -/
structure Alike (L : Shelf σ) (s : σ) (x : SegmentId) (u : σ) : Prop where
  info : (L.info x u).map (Segment.withRefCount · 0) = (L.info x s).map (Segment.withRefCount · 0)
  raw : L.raw x u = L.raw x s

/-- A segment reads alike. -/
theorem Alike.readSegment (h : L.Alike s x u) (parts : Parts) (policy : Policy) :
    L.readSegment parts policy x u = L.readSegment parts policy x s := by
  -- a reader does not look at the counts
  have hcounts : ∀ v, L.readSegment parts policy x v =
      (L.info x v).map (Segment.withRefCount · 0) >>= fun segment =>
        L.raw x v >>= parts.segmentData policy x segment := by
    intro v
    rw [Shelf.readSegment]
    cases L.info x v <;> rfl
  rw [hcounts u, hcounts s, h.info, h.raw]

theorem readSegments_congr (policy : Policy) : ∀ (l : List SegmentId) (output : Bytes),
    (∀ x ∈ l, L.Alike s x u) →
      L.readSegments parts policy l output u = L.readSegments parts policy l output s
  | [], _, _ => rfl
  | x :: l, output, h => by
      rw [readSegments, readSegments, List.foldlM_cons, List.foldlM_cons,
        (h x List.mem_cons_self).readSegment]
      cases L.readSegment parts policy x s with
      | error e => rfl
      | ok data =>
          exact readSegments_congr policy l (output ++ data) fun y hy =>
            h y (List.mem_cons_of_mem _ hy)

/-- **A capsule reads alike** if its segments do. -/
theorem readCapsule_congr (hc : L.capsule id u = L.capsule id s)
    (h : ∀ c, L.capsule id s = .ok c → ∀ x ∈ c.segments, L.Alike s x u) :
    L.readCapsule parts id u = L.readCapsule parts id s := by
  rw [readCapsule, readCapsule, hc]
  cases hs : L.capsule id s with
  | error e => rfl
  | ok c => exact readSegments_congr c.policy c.segments [] (h c hs)

/-- Nothing is read where a segment has gone. -/
theorem readSegments_gone (policy : Policy) {e : Error} (hx : L.info x u = .error e) :
    ∀ (l : List SegmentId) (output : Bytes), x ∈ l →
      ∀ data, L.readSegments parts policy l output u ≠ .ok data
  | y :: l, output, hmem, data => by
      rw [readSegments, List.foldlM_cons]
      rcases List.mem_cons.mp hmem with rfl | hmem
      · rw [readSegment, hx]
        intro h
        cases h
      · cases L.readSegment parts policy y u with
        | error e =>
            intro h
            cases h
        | ok next => exact readSegments_gone policy hx l (output ++ next) hmem data

/-- **A capsule is not read** once a segment of it has gone. -/
theorem readCapsule_gone {e : Error} (hc : L.capsule id u = .ok c) (hx : L.info x u = .error e)
    (hmem : x ∈ c.segments) (data : Bytes) : L.readCapsule parts id u ≠ .ok data := by
  rw [readCapsule, hc]
  exact readSegments_gone c.policy hx c.segments [] hmem data

end Shelf

/-! ### In memory -/

namespace InMemory
variable {s u : InMemory} {x : SegmentId}

/-- `read_capsule`, from its result alone. -/
def readCapsule (parts : Parts) (id : CapsuleId) (s : InMemory) : Except Error Bytes :=
  ((Pipeline.readCapsule id).run (ModularOp.exec parts InMemoryBackend.storage) s).1

/-- What the storage and the catalog say to a reader. -/
def shelf : Shelf InMemory where
  capsule := fun id s => s.2.lookupCapsule id
  info := fun x s => InMemoryBackend.storage.metadata x s.1
  raw := fun x s => InMemoryBackend.storage.read x s.1

theorem shelf_serves (parts : Parts) :
    shelf.Serves parts (ModularOp.exec parts InMemoryBackend.storage) :=
  ⟨fun _ _ => rfl, fun _ _ => rfl, fun _ _ => rfl, fun _ _ _ _ => rfl, fun _ _ _ => rfl⟩

theorem readCapsule_eq (parts : Parts) (id : CapsuleId) (s : InMemory) :
    s.readCapsule parts id = shelf.readCapsule parts id s :=
  congrArg Prod.fst (Shelf.readCapsule_run (shelf_serves parts) id s)

/-- The segment is the same to a reader. -/
def Reads (s : InMemory) (x : SegmentId) (u : InMemory) : Prop :=
  u.seg x = s.seg x ∧ ∃ segment n b, s.info x = some segment ∧
    u.info x = some { segment with refCount := n, deduplicated := b }

theorem Reads.alike (h : s.Reads x u) : shelf.Alike s x u := by
  obtain ⟨hseg, segment, n, b, hs, hu⟩ := h
  refine ⟨?_, storage_read hseg⟩
  show (InMemoryBackend.storage.metadata x u.1).map _ =
    (InMemoryBackend.storage.metadata x s.1).map _
  rw [storage_metadata hs, storage_metadata hu]
  rfl

end InMemory

/-! ### Over the log and the registry -/

namespace Registered
variable {P : Primitives}

/-- `read_capsule`, from its result alone. -/
def readCapsule (parts : Parts) (id : CapsuleId) (s : Registered P) : Except Error Bytes :=
  ((Pipeline.readCapsule id).run (ModularOp.execRegistry parts) s).1

/-- What the log and the registry say to a reader. -/
def shelf : Shelf (Registered P) where
  capsule := fun id s => s.1.registry.lookup id
  info := fun x s => s.1.nvram.getSegmentMetadata x
  raw := fun x s => s.1.nvram.read x

theorem shelf_serves (parts : Parts) :
    (shelf (P := P)).Serves parts (ModularOp.execRegistry parts) :=
  ⟨fun _ _ => rfl, fun _ _ => rfl, fun _ _ => rfl, fun _ _ _ _ => rfl, fun _ _ _ => rfl⟩

theorem readCapsule_eq (parts : Parts) (id : CapsuleId) (s : Registered P) :
    s.readCapsule parts id = shelf.readCapsule parts id s :=
  congrArg Prod.fst (Shelf.readCapsule_run (shelf_serves parts) id s)

end Registered

end Space

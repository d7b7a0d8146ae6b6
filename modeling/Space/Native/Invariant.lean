import Space.Native.Token

/-!
# Native — Invariant

What holds of the state and of all tokens together (`Inv`), and, through it, of each token
(`Holds`).

* `refs`: the stored reference count of a segment is the number of times the capsules list it plus
  the references the tokens account for, up to saturation.
* `content`, `indexed`: the content store names live segments of the hash, and, for a single
  thread, all of them.
* `extent`: a segment's extent of the file holds its payload.
* `capsules`: a capsule's segments are still what they were when it was created.
* `disk`: what is saved is what is in memory, up to the identifiers that were only drawn and the
  dedup counters.
-/

namespace Space
open Support

variable {P : Primitives}

/-- A capsule without its dedup counter. -/
def Capsule.undeduped (c : Capsule) : Capsule := { c with dedupedBytes := 0 }

/-- What the metadata file holds, or the empty state when there is none. -/
def CapsuleRegistry.savedState (reg : CapsuleRegistry) : RegistryState := reg.saved.getD ⟨∅, 0, ∅⟩

/-- What is saved is what is in memory. -/
structure OnDisk (s : Store P) : Prop where
  map : s.nvram.savedMap.getD ∅ = s.nvram.segmentMap
  capsules : ∀ id, (s.registry.savedState.capsules.lookup id).map Capsule.undeduped =
    (s.registry.capsules.lookup id).map Capsule.undeduped
  content : s.registry.savedState.contentStore = s.registry.contentStore
  next : s.registry.savedState.nextSegmentId ≤ s.registry.nextSegmentId
  contentLt : ∀ h x, s.registry.contentStore.lookup h = some x →
    x.val < s.registry.savedState.nextSegmentId
  capsuleLt : ∀ id c, s.registry.capsules.lookup id = some c → ∀ x ∈ c.segments,
    x.val < s.registry.savedState.nextSegmentId

namespace World

def file (w : World P) : Bytes := w.store.nvram.file

def payload (w : World P) (x : SegmentId) : Bytes := w.ledger.payload x

/-- The extent of a segment holds its payload. -/
structure Extent (w : World P) (x : SegmentId) (s : Segment) : Prop where
  len : s.len = asU32 (w.payload x).length
  inside : s.offset + (w.payload x).length ≤ w.file.length
  stored : slice w.file s.offset (w.payload x).length = w.payload x

/-- `i` is what the segment is. -/
structure Known (w : World P) (T : Ghost) (x : SegmentId) (i : Info) : Prop where
  lt : x.val < w.next
  free : x ∉ T.claims
  payload : w.payload x = i.payload
  form : ∀ s, w.seg x = some s → s.form = i.form

/-- A segment without references. -/
structure Unused (w : World P) (T : Ghost) (x : SegmentId) : Prop where
  lt : x.val < w.next
  free : x ∉ T.claims
  refs : w.refs x = 0

/-- A segment no capsule lists. -/
structure Unlisted (w : World P) (T : Ghost) (x : SegmentId) : Prop where
  lt : x.val < w.next
  free : x ∉ T.claims
  occ : w.occ x = 0

/-- The staged payloads follow each other from `base` on. -/
def Tiles : Nat → List Staged → Nat → Prop
  | base, [], current => base = current
  | base, s :: l, current => s.offset = base ∧ Tiles (base + s.data.length) l current

/-- What a token says of the state. -/
def Holds (D : Discipline) (w : World P) (T : Ghost) : Token → Prop
  | .ref _ => True
  | .fresh x => w.seg x = none
  | .own s payload => w.seg s.id = some s ∧ w.payload s.id = payload ∧ 1 ≤ s.refCount ∧
      w.occ s.id = 0
  | .knows x i => w.Known T x i
  | .dead x hash => w.Unused T x ∧ ∀ s, w.seg x = some s → s.contentHash = hash
  | .bare x => w.Unused T x ∧ ∀ h, w.content h ≠ some x
  | .reg x hash => D.solo ∧ w.Unlisted T x ∧ ∀ s, w.seg x = some s → s.contentHash = some hash
  | .idle x => D.solo ∧ w.Unlisted T x ∧ ∀ h, w.content h ≠ some x
  | .listed x => D.solo ∧ 1 ≤ w.occ x
  | .absent hash => D.solo ∧ w.content hash = none
  | .txn base current staged => D.solo ∧ w.store.nvram.nextOffset = current ∧
      w.file.length = base ∧ Tiles base staged current ∧ ∀ s ∈ staged, w.seg s.id = none

/-- A segment without references is being reclaimed. -/
def Dying (T : Ghost) (x : SegmentId) : Prop := (∃ h, .dead x h ∈ T) ∨ .bare x ∈ T

theorem Dying.cons {T : Ghost} {x : SegmentId} (τ : Token) (h : Dying T x) : Dying (τ ::ₘ T) x :=
  h.imp (fun ⟨hash, k⟩ => ⟨hash, Multiset.mem_cons_of_mem k⟩) Multiset.mem_cons_of_mem

@[simp] theorem dying_ref {T : Ghost} {x y : SegmentId} :
    Dying (.ref y ::ₘ T) x ↔ Dying T x := by simp [Dying]

/-- A stored segment that the content store need not name. -/
def Hidden (T : Ghost) (x : SegmentId) : Prop := x ∈ T.claims ∨ .bare x ∈ T ∨ .idle x ∈ T

theorem Hidden.cons {T : Ghost} {x : SegmentId} (τ : Token) (h : Hidden T x) :
    Hidden (τ ::ₘ T) x := by
  refine h.imp (fun k => ?_) (.imp Multiset.mem_cons_of_mem Multiset.mem_cons_of_mem)
  rw [Ghost.claims_cons]
  exact Multiset.mem_add.mpr (.inr k)

@[simp] theorem hidden_ref {T : Ghost} {x y : SegmentId} :
    Hidden (.ref y ::ₘ T) x ↔ Hidden T x := by simp [Hidden]

/-- What a capsule says of the state. -/
def Sound (D : Discipline) (w : World P) (T : Ghost) (id : CapsuleId) (c : Capsule) : Prop :=
  ∃ infos, List.Forall₂ (w.Known T) c.segments infos ∧
    D.sound (w.ledger.produced id) c.policy infos ∧
    w.ledger.contents id = infos.map Info.payload

/-- **The invariant.** -/
structure Inv (D : Discipline) (w : World P) (T : Ghost) : Prop where
  refs : ∀ x, w.refs x = min u32Max (w.occ x + T.weight x)
  bounded : D.tight → ∀ x, w.occ x + T.weight x ≤ u32Max
  keyed : ∀ x s, w.seg x = some s → s.id = x ∧ x.val < w.next
  extent : ∀ x s, w.seg x = some s → w.Extent x s
  dedup : ∀ x s, w.seg x = some s → s.deduplicated = decide (1 < s.refCount)
  legit : ∀ x s, w.seg x = some s → x ∉ T.claims → D.legit ⟨s.form, w.payload x⟩
  content : ∀ h x, w.content h = some x →
    x ∉ T.claims ∧ ∃ s, w.seg x = some s ∧ s.contentHash = some h
  indexed : D.solo → ∀ x s h, w.seg x = some s → s.contentHash = some h →
    w.content h = some x ∨ Hidden T x
  capsules : ∀ id c, w.cap id = some c → w.Sound D T id c
  claimsNodup : T.claims.Nodup
  claimsLt : ∀ x ∈ T.claims, x.val < w.next
  tokens : ∀ τ ∈ T, w.Holds D T τ
  zero : ∀ x s, w.seg x = some s → s.refCount = 0 → Dying T x
  fileEnd : T.txns = 0 → w.store.nvram.nextOffset = w.file.length
  oneTxn : T.txns ≤ 1
  disk : OnDisk w.store
  keys : w.store.keyManager.map KeyManager.derive = D.keys

/-- A listed segment is there. -/
theorem Inv.listed_seg {D : Discipline} {w : World P} {T : Ghost} (h : Inv D w T) {id : CapsuleId}
    {c : Capsule} (hc : w.cap id = some c) {x : SegmentId} (hx : x ∈ c.segments) :
    ∃ s, w.seg x = some s := by
  have hpos := occ_pos_of_mem hc hx
  have hrefs := h.refs x
  cases e : w.seg x with
  | some s => exact ⟨s, rfl⟩
  | none =>
      have hmax : 0 < u32Max := by decide
      rw [refs_of_none e] at hrefs
      omega

end World

end Space

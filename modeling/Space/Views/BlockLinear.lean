import Space.Support.Linearizable
import Space.Views.Block
import Mathlib.Algebra.BigOperators.Group.Multiset.Basic
import Mathlib.Data.Multiset.Bind

/-!
# Views — BlockLinear

The block view is linearizable.  `LogicalVolume` is what a volume is for: its size and the writes
it has seen, laid over zeros in their order; `blockObject` is the object the clients believe they
share, one step to a call.

* `Backed`: a volume's capsule holds the content of the logical volume, and its version counts the
  writes.
* `BlockView.Inv`: the volumes are backed, by different capsules; what a thread read of a capsule
  is what it holds for as long as it is there; a capsule a thread is about to swap in, or has
  swapped out, is no volume's.
* `blockView_linearizable`: every history of the clients is one of `blockObject`, and in every
  state the volumes are backed.
-/

namespace Space
open Support Prog

/-! ### What a volume is for -/

/-- `data` laid over `content` from `offset` on. -/
def overlay (content : Bytes) (w : Nat × Bytes) : Bytes :=
  content.take w.1 ++ w.2 ++ content.drop (w.1 + w.2.length)

theorem length_overlay {content : Bytes} {w : Nat × Bytes}
    (h : w.1 + w.2.length ≤ content.length) : (overlay content w).length = content.length := by
  unfold overlay
  rw [List.length_append, List.length_append, List.length_take, List.length_drop]
  omega

/-- A volume as its clients see it: the writes, in order, none beyond its size. -/
structure LogicalVolume where
  size : UInt64
  blockSize : UInt64
  writes : List (Nat × Bytes)
  fits : ∀ w ∈ writes, w.1 + w.2.length ≤ size.toNat

namespace LogicalVolume

/-- A new volume. -/
def zeros (size blockSize : UInt64) : LogicalVolume := ⟨size, blockSize, [], by simp⟩

def write (v : LogicalVolume) (offset : Nat) (data : Bytes)
    (h : offset + data.length ≤ v.size.toNat) : LogicalVolume where
  size := v.size
  blockSize := v.blockSize
  writes := v.writes ++ [(offset, data)]
  fits := fun w hw => by
    rcases List.mem_append.mp hw with hw | hw
    · exact v.fits w hw
    · obtain rfl := List.mem_singleton.mp hw
      exact h

/-- Zeros, overlaid with the writes. -/
def content (v : LogicalVolume) : Bytes :=
  v.writes.foldl overlay (List.replicate v.size.toNat 0)

theorem content_write {v : LogicalVolume} {offset : Nat} {data : Bytes}
    (h : offset + data.length ≤ v.size.toNat) :
    (v.write offset data h).content = overlay v.content (offset, data) := List.foldl_append

theorem length_content (v : LogicalVolume) : v.content.length = v.size.toNat := by
  have run : ∀ (l : List (Nat × Bytes)) (c : Bytes), c.length = v.size.toNat →
      (∀ w ∈ l, w.1 + w.2.length ≤ v.size.toNat) → (l.foldl overlay c).length = v.size.toNat := by
    intro l
    induction l with
    | nil => exact fun c hc _ => hc
    | cons w l ih =>
        intro c hc hl
        have hw : w.1 + w.2.length ≤ c.length := hc ▸ hl w List.mem_cons_self
        exact ih _ ((length_overlay hw).trans hc) fun x hx => hl x (List.mem_cons_of_mem _ hx)
  exact run v.writes _ List.length_replicate v.fits

end LogicalVolume

/-- The volumes, by name. -/
abbrev LogicalVolumes := Table Text LogicalVolume

/-- The bytes of a range. -/
def range (data : Bytes) (offset len : UInt64) : Bytes :=
  (data.drop offset.toNat).take len.toNat

/-- The block view, as its clients believe it to be.  An empty write is always accepted. -/
def blockObject : Atomic BlockCall LogicalVolumes BlockAnswer
  | .createVolume id name size blockSize now, a, r, a' =>
    a.lookup name = none ∧ r = .created ⟨name, size, blockSize, id, now, now, 1⟩ ∧
      a' = a.insert name (.zeros size blockSize)
  | .write _ name offset data _, a, r, a' =>
    r = .written ∧
      (data = [] ∧ a' = a ∨
        data ≠ [] ∧ ∃ v h, a.lookup name = some v ∧
          a' = a.insert name (v.write offset.toNat data h))
  | .read name offset len, a, r, a' =>
    a' = a ∧ ∃ v, a.lookup name = some v ∧ offset.toNat + len.toNat ≤ v.size.toNat ∧
      r = .bytes (range v.content offset len)
  | .deleteVolume name, a, r, a' =>
    r = .deleted ∧ (∃ v, a.lookup name = some v) ∧ a' = a.erase name

/-- The capsule of a volume holds its content; the version counts the writes, up to
`u64::MAX`. -/
structure Backed (store : CapsuleStore) (volume : BlockVolume) (v : LogicalVolume) : Prop where
  size : volume.size = v.size
  blockSize : volume.blockSize = v.blockSize
  live : store.capsules.lookup volume.capsuleId = some v.content
  version : volume.version.toNat = min (1 + v.writes.length) 18446744073709551615

/-! ### What the threads know and own -/

inductive BlockToken where
  /-- A capsule, and what it holds for as long as it is there. -/
  | saw (id : CapsuleId) (data : Bytes)
  /-- A capsule nobody else knows of. -/
  | fresh (id : CapsuleId) (data : Bytes)
  /-- A capsule no volume has any more. -/
  | dead (id : CapsuleId)

/-- The capsules only the owner of a token may delete. -/
def BlockToken.claims : BlockToken → Multiset CapsuleId
  | saw _ _ => 0
  | fresh id _ => {id}
  | dead id => {id}

@[simp] theorem BlockToken.claims_saw {id : CapsuleId} {data : Bytes} :
    (saw id data).claims = 0 := rfl
@[simp] theorem BlockToken.claims_fresh {id : CapsuleId} {data : Bytes} :
    (fresh id data).claims = {id} := rfl
@[simp] theorem BlockToken.claims_dead {id : CapsuleId} : (dead id).claims = {id} := rfl

abbrev BlockGhost := Multiset BlockToken

def BlockGhost.claims (g : BlockGhost) : Multiset CapsuleId := g.bind BlockToken.claims

namespace BlockGhost

@[simp] theorem claims_zero : claims 0 = 0 := rfl

@[simp] theorem claims_cons (τ : BlockToken) (g : BlockGhost) :
    claims (τ ::ₘ g) = τ.claims + claims g := Multiset.cons_bind _ _ _

@[simp] theorem claims_add (g f : BlockGhost) : claims (g + f) = claims g + claims f :=
  Multiset.add_bind _ _ _

theorem mem_claims_fresh {g : BlockGhost} {id : CapsuleId} {data : Bytes}
    (h : BlockToken.fresh id data ∈ g) : id ∈ claims g :=
  Multiset.mem_bind.mpr ⟨_, h, Multiset.mem_singleton_self id⟩

end BlockGhost

/-- What links the view, the logical volumes and all that the threads know and own. -/
structure BlockView.Inv (v : BlockView) (a : LogicalVolumes) (g : BlockGhost) : Prop where
  backed : ∀ name volume, v.volumes.lookup name = some volume →
    ∃ lv, a.lookup name = some lv ∧ Backed v.store volume lv
  known : ∀ name, v.volumes.lookup name = none → a.lookup name = none
  apart : ∀ name name' volume volume', v.volumes.lookup name = some volume →
    v.volumes.lookup name' = some volume' → volume.capsuleId = volume'.capsuleId → name = name'
  saw : ∀ id data, BlockToken.saw id data ∈ g → id ∈ v.store.used ∧
    ∀ data', v.store.capsules.lookup id = some data' → data' = data
  fresh : ∀ id data, BlockToken.fresh id data ∈ g → v.store.capsules.lookup id = some data
  used : ∀ id ∈ g.claims, id ∈ v.store.used
  nodup : g.claims.Nodup
  unnamed : ∀ name volume, v.volumes.lookup name = some volume → volume.capsuleId ∉ g.claims

namespace BlockView.Inv
variable {v : BlockView} {a : LogicalVolumes} {g f : BlockGhost}

/-- Tokens may be forgotten. -/
theorem drop (h : v.Inv a (g + f)) : v.Inv a f where
  backed := h.backed
  known := h.known
  apart := h.apart
  saw := fun id data hm => h.saw id data (Multiset.mem_add.mpr (.inr hm))
  fresh := fun id data hm => h.fresh id data (Multiset.mem_add.mpr (.inr hm))
  used := fun id hm => h.used id
    (by rw [BlockGhost.claims_add]; exact Multiset.mem_add.mpr (.inr hm))
  nodup := Multiset.nodup_of_le (by rw [BlockGhost.claims_add]; exact Multiset.le_add_left _ _)
    h.nodup
  unnamed := fun name volume hn hm => h.unnamed name volume hn
    (by rw [BlockGhost.claims_add]; exact Multiset.mem_add.mpr (.inr hm))

/-- A volume's capsule is live, so it was given once. -/
theorem volume_used (h : v.Inv a g) {name : Text} {volume : BlockVolume}
    (hn : v.volumes.lookup name = some volume) : volume.capsuleId ∈ v.store.used := by
  obtain ⟨lv, _, hb⟩ := h.backed name volume hn
  exact v.store.capsules_used _ _ hb.live

/-- A thread looks a volume up. -/
theorem looks (h : v.Inv a g) {name : Text} {volume : BlockVolume} {lv : LogicalVolume}
    (hn : v.volumes.lookup name = some volume) (hb : Backed v.store volume lv) :
    v.Inv a (.saw volume.capsuleId lv.content ::ₘ g) where
  backed := h.backed
  known := h.known
  apart := h.apart
  saw := fun id data hm => by
    rcases Multiset.mem_cons.mp hm with e | hm
    · cases e
      refine ⟨h.volume_used hn, fun data' hd => ?_⟩
      rw [hb.live] at hd
      exact (Option.some.inj hd).symm
    · exact h.saw id data hm
  fresh := fun id data hm => by
    rcases Multiset.mem_cons.mp hm with e | hm
    · cases e
    · exact h.fresh id data hm
  used := by simpa using h.used
  nodup := by simpa using h.nodup
  unnamed := by simpa using h.unnamed

/-- A thread writes a capsule. -/
theorem writes (h : v.Inv a g) {id : CapsuleId} {data : Bytes} (hid : id ∉ v.store.used) :
    Inv { v with store := v.store.write id data } a (.fresh id data ::ₘ g) where
  backed := fun name volume hn => by
    obtain ⟨lv, ha, hb⟩ := h.backed name volume hn
    have hne : volume.capsuleId ≠ id := fun e => hid (e ▸ h.volume_used hn)
    exact ⟨lv, ha, { hb with live := (AList.lookup_insert_ne hne).trans hb.live }⟩
  known := h.known
  apart := h.apart
  saw := fun id' data' hm => by
    rcases Multiset.mem_cons.mp hm with e | hm
    · cases e
    · obtain ⟨hu, hs⟩ := h.saw id' data' hm
      refine ⟨List.mem_cons_of_mem _ hu, fun d hd => ?_⟩
      rcases Table.lookup_insert_eq_some.mp hd with ⟨rfl, _⟩ | ⟨_, hd⟩
      · exact absurd hu hid
      · exact hs d hd
  fresh := fun id' data' hm => by
    rcases Multiset.mem_cons.mp hm with e | hm
    · cases e
      exact AList.lookup_insert _
    · have hd := h.fresh id' data' hm
      have hne : id' ≠ id := fun e => hid (e ▸ v.store.capsules_used _ _ hd)
      exact (AList.lookup_insert_ne hne).trans hd
  used := fun id' hm => by
    rw [BlockGhost.claims_cons, Multiset.mem_add] at hm
    rcases hm with hm | hm
    · obtain rfl := Multiset.mem_singleton.mp hm
      exact List.mem_cons_self
    · exact List.mem_cons_of_mem _ (h.used id' hm)
  nodup := by
    rw [BlockGhost.claims_cons, BlockToken.claims_fresh, Multiset.singleton_add]
    exact Multiset.nodup_cons.mpr ⟨fun hm => hid (h.used id hm), h.nodup⟩
  unnamed := fun name volume hn hm => by
    rw [BlockGhost.claims_cons, Multiset.mem_add] at hm
    rcases hm with hm | hm
    · exact hid (Multiset.mem_singleton.mp hm ▸ h.volume_used hn)
    · exact h.unnamed name volume hn hm

/-- A volume under a name gets a capsule its thread owned. -/
theorem names {id : CapsuleId} {data : Bytes} (h : v.Inv a (.fresh id data ::ₘ g)) {name : Text}
    {volume : BlockVolume} {lv : LogicalVolume} (hid : volume.capsuleId = id)
    (hb : Backed v.store volume lv) :
    Inv { v with volumes := v.volumes.insert name volume } (a.insert name lv) g := by
  have ho : id ∈ BlockGhost.claims (.fresh id data ::ₘ g) :=
    BlockGhost.mem_claims_fresh (Multiset.mem_cons_self _ _)
  have hr : v.Inv a g := by
    rw [← Multiset.singleton_add] at h
    exact h.drop
  have hnd := h.nodup
  rw [BlockGhost.claims_cons, BlockToken.claims_fresh, Multiset.singleton_add,
    Multiset.nodup_cons] at hnd
  exact {
    backed := fun name' volume' hn => by
      rcases Table.lookup_insert_eq_some.mp hn with ⟨rfl, rfl⟩ | ⟨hne, hn⟩
      · exact ⟨lv, AList.lookup_insert _, hb⟩
      · obtain ⟨lv', ha, hb'⟩ := h.backed name' volume' hn
        exact ⟨lv', (AList.lookup_insert_ne hne).trans ha, hb'⟩
    known := fun name' hn => by
      rw [Table.lookup_insert] at hn ⊢
      split at hn
      · cases hn
      · next hne => rw [if_neg hne]; exact h.known name' hn
    apart := fun n n' u u' hn hn' e => by
      -- no other volume has the capsule
      have other : ∀ m w, v.volumes.lookup m = some w → w.capsuleId ≠ id :=
        fun m w hm hw => h.unnamed m w hm (hw ▸ ho)
      rcases Table.lookup_insert_eq_some.mp hn with ⟨h₁, h₂⟩ | ⟨_, h₂⟩ <;>
        rcases Table.lookup_insert_eq_some.mp hn' with ⟨h₃, h₄⟩ | ⟨_, h₄⟩
      · exact h₁.trans h₃.symm
      · exact absurd (e.symm.trans (h₂ ▸ hid)) (other n' u' h₄)
      · exact absurd (e.trans (h₄ ▸ hid)) (other n u h₂)
      · exact h.apart n n' u u' h₂ h₄ e
    saw := hr.saw
    fresh := hr.fresh
    used := hr.used
    nodup := hr.nodup
    unnamed := fun name' volume' hn hm => by
      rcases Table.lookup_insert_eq_some.mp hn with ⟨rfl, rfl⟩ | ⟨_, hn⟩
      · exact hnd.1 (hid ▸ hm)
      · exact hr.unnamed name' volume' hn hm }

/-- What was seen of a capsule may be forgotten, whatever else is owned. -/
theorem forgets {τ : BlockToken} {id : CapsuleId} {data : Bytes}
    (h : v.Inv a (τ ::ₘ .saw id data ::ₘ g)) : v.Inv a (τ ::ₘ g) := by
  rw [Multiset.cons_swap, ← Multiset.singleton_add] at h
  exact h.drop

/-- A capsule no volume has and nobody owns is given to a thread. -/
theorem retires (h : v.Inv a g) {id : CapsuleId} (hu : id ∈ v.store.used) (hg : id ∉ g.claims)
    (hn : ∀ name volume, v.volumes.lookup name = some volume → volume.capsuleId ≠ id) :
    v.Inv a (.dead id ::ₘ g) where
  backed := h.backed
  known := h.known
  apart := h.apart
  saw := fun id data hm => by
    rcases Multiset.mem_cons.mp hm with e | hm
    · cases e
    · exact h.saw id data hm
  fresh := fun id data hm => by
    rcases Multiset.mem_cons.mp hm with e | hm
    · cases e
    · exact h.fresh id data hm
  used := fun id' hm => by
    rw [BlockGhost.claims_cons, Multiset.mem_add] at hm
    rcases hm with hm | hm
    · exact Multiset.mem_singleton.mp hm ▸ hu
    · exact h.used id' hm
  nodup := by
    rw [BlockGhost.claims_cons, BlockToken.claims_dead, Multiset.singleton_add]
    exact Multiset.nodup_cons.mpr ⟨hg, h.nodup⟩
  unnamed := fun name volume hl hm => by
    rw [BlockGhost.claims_cons, Multiset.mem_add] at hm
    rcases hm with hm | hm
    · exact hn name volume hl (Multiset.mem_singleton.mp hm)
    · exact h.unnamed name volume hl hm

/-- A volume goes. -/
theorem erases (h : v.Inv a g) (name : Text) :
    Inv { v with volumes := v.volumes.erase name } (a.erase name) g where
  backed := fun name' volume' hn' => by
    obtain ⟨hne, hn'⟩ := Table.lookup_erase_eq_some.mp hn'
    obtain ⟨lv, ha, hb⟩ := h.backed name' volume' hn'
    exact ⟨lv, (AList.lookup_erase_ne hne).trans ha, hb⟩
  known := fun name' hn' => by
    rw [Table.lookup_erase] at hn' ⊢
    split
    · rfl
    · next hne => rw [if_neg hne] at hn'; exact h.known name' hn'
  apart := fun n n' u u' hu hu' e =>
    h.apart n n' u u' (Table.lookup_erase_eq_some.mp hu).2 (Table.lookup_erase_eq_some.mp hu').2 e
  saw := h.saw
  fresh := h.fresh
  used := h.used
  nodup := h.nodup
  unnamed := fun name' volume' hn' => h.unnamed name' volume' (Table.lookup_erase_eq_some.mp hn').2

/-- A volume goes, and its capsule is its thread's. -/
theorem removes (h : v.Inv a g) {name : Text} {volume : BlockVolume}
    (hn : v.volumes.lookup name = some volume) :
    Inv { v with volumes := v.volumes.erase name } (a.erase name)
      (.dead volume.capsuleId ::ₘ g) := by
  refine (h.erases name).retires (h.volume_used hn) (h.unnamed name volume hn) ?_
  intro name' volume' hn' e
  obtain ⟨hne, hn'⟩ := Table.lookup_erase_eq_some.mp hn'
  exact hne (h.apart _ _ _ _ hn' hn e)

/-- A volume gets the capsule its thread owned, and its old capsule is its thread's. -/
theorem swaps {id : CapsuleId} {data : Bytes} (h : v.Inv a (.fresh id data ::ₘ g)) {name : Text}
    {volume volume' : BlockVolume} {lv : LogicalVolume}
    (hn : v.volumes.lookup name = some volume) (hid : volume'.capsuleId = id)
    (hb : Backed v.store volume' lv) :
    Inv { v with volumes := v.volumes.insert name volume' } (a.insert name lv)
      (.dead volume.capsuleId ::ₘ g) := by
  have hne : volume.capsuleId ∉ BlockGhost.claims (.fresh id data ::ₘ g) := h.unnamed name volume hn
  rw [BlockGhost.claims_cons, Multiset.mem_add, BlockToken.claims_fresh,
    Multiset.mem_singleton, not_or] at hne
  refine (h.names hid hb).retires (h.volume_used hn) hne.2 ?_
  intro n u hu e
  rcases Table.lookup_insert_eq_some.mp hu with ⟨_, rfl⟩ | ⟨hnn, hu⟩
  · exact hne.1 (e.symm.trans hid)
  · exact hnn (h.apart _ _ _ _ hu hn e)

/-- A thread deletes a capsule it owns. -/
theorem deletes (h : v.Inv a (g + f)) {id : CapsuleId} (hid : id ∈ g.claims) :
    Inv { v with store := v.store.delete id } a f where
  backed := fun name volume hn => by
    obtain ⟨lv, ha, hb⟩ := h.backed name volume hn
    have hne : volume.capsuleId ≠ id := fun e => h.unnamed name volume hn
      (by rw [BlockGhost.claims_add]; exact Multiset.mem_add.mpr (.inl (e ▸ hid)))
    exact ⟨lv, ha, { hb with live := (AList.lookup_erase_ne hne).trans hb.live }⟩
  known := h.known
  apart := h.apart
  saw := fun id' data hm => by
    obtain ⟨hu, hs⟩ := h.drop.saw id' data hm
    exact ⟨hu, fun data' hd => hs data' (Table.lookup_erase_eq_some.mp hd).2⟩
  fresh := fun id' data hm => by
    have hnd := h.nodup
    rw [BlockGhost.claims_add] at hnd
    have hne : id' ≠ id := fun e => Multiset.disjoint_left.mp (Multiset.nodup_add.mp hnd).2.2
      hid (e ▸ BlockGhost.mem_claims_fresh hm)
    exact (AList.lookup_erase_ne hne).trans (h.drop.fresh id' data hm)
  used := h.drop.used
  nodup := h.drop.nodup
  unnamed := h.drop.unnamed

end BlockView.Inv

/-! ### The discipline of the threads -/

namespace BlockView

/-- The answer a call observes when it looks up a volume that holds `content`. -/
def observed (content : Bytes) : BlockCall → Phase BlockAnswer
  | .read _ offset len =>
    if offset.toNat + len.toNat ≤ content.length then .seen (.bytes (range content offset len))
    else .waiting
  | _ => .waiting

/-- What a thread must own to call an operation. -/
def may (c : BlockCall) : BlockOp → Phase BlockAnswer × BlockGhost → Prop
  | .insertVolume volume, (φ, g) =>
    φ = .waiting ∧ g = {.fresh volume.capsuleId (List.replicate volume.size.toNat 0)} ∧
      ∃ now, volume = ⟨volume.name, volume.size, volume.blockSize, volume.capsuleId, now, now, 1⟩ ∧
        c = .createVolume volume.capsuleId volume.name volume.size volume.blockSize now
  | .volume name, (φ, g) =>
    φ = .waiting ∧ g = 0 ∧ ∀ name' offset len, c = .read name' offset len → name' = name
  | .swapCapsule name id _ new now, (φ, g) =>
    φ = .waiting ∧ ∃ offset data content, c = .write new name offset data now ∧ data ≠ [] ∧
      offset.toNat + data.length ≤ content.length ∧
      g = .fresh new (overlay content (offset.toNat, data)) ::ₘ {.saw id content}
  | .removeVolume name, (φ, g) => φ = .waiting ∧ g = 0 ∧ c = .deleteVolume name
  | .deleteCapsule id, (_, g) => id ∈ g.claims
  | _, _ => True

/-- What an outcome makes of it, and of the call. -/
def moves (c : BlockCall) : Moves BlockSig Error (Phase BlockAnswer × BlockGhost)
  | .insertVolume volume, (φ, g), r, (φ', g') =>
    r = .ok true ∧ φ' = .done (.created volume) ∧ g' = 0 ∨ r = .ok false ∧ φ' = φ ∧ g' = g
  | .volume _, (φ, g), r, (φ', g') =>
    (∃ volume content, r = .ok volume ∧ content.length = volume.size.toNat ∧
      φ' = observed content c ∧ g' = {.saw volume.capsuleId content}) ∨
    (∃ e, r = .error e) ∧ φ' = φ ∧ g' = g
  | .swapCapsule _ id _ _ _, (φ, g), r, (φ', g') =>
    r = .ok true ∧ φ' = .done .written ∧ g' = {.dead id} ∨ r ≠ .ok true ∧ φ' = φ ∧ g' = g
  | .removeVolume _, (φ, g), r, (φ', g') =>
    (∃ id, r = .ok id ∧ φ' = .done .deleted ∧ g' = {.dead id}) ∨
    (∃ e, r = .error e) ∧ φ' = φ ∧ g' = g
  | .writeCapsule id data, (φ, g), r, (φ', g') =>
    r = .ok id ∧ φ' = φ ∧ g' = .fresh id data ::ₘ g
  | .readCapsule id, (φ, g), r, (φ', g') =>
    (∀ data content, r = .ok data → .saw id content ∈ g → data = content) ∧ φ' = φ ∧ g' = g
  | .readRange id offset len, (φ, g), r, (φ', g') =>
    (∀ data content, r = .ok data → .saw id content ∈ g →
      readRangeOf content offset len = .ok data) ∧ φ' = φ ∧ g' = g
  | .deleteCapsule _, (φ, _), _, (φ', g') => φ' = φ ∧ g' = 0
  | .persist, (φ, g), r, (φ', g') => r = .ok () ∧ φ' = φ ∧ g' = g
  | _, (φ, g), _, (φ', g') => φ' = φ ∧ g' = g

/-! ### One step -/

/-- What one operation of a call does to the view, the logical volumes and the thread. -/
def Stepped (c : BlockCall) (o : BlockOp) (v : BlockView) (a : LogicalVolumes)
    (φ : Phase BlockAnswer) (g f : BlockGhost) : Prop :=
  ∃ φ' g' a', moves c o (φ, g) (exec o v).1 (φ', g') ∧ Advances blockObject c a φ a' φ' ∧
    Inv (exec o v).2 a' (g' + f)

variable {c : BlockCall} {v : BlockView} {a : LogicalVolumes} {φ : Phase BlockAnswer}
  {g f : BlockGhost}

theorem stepped_containsKey {name : Text} (h : v.Inv a (g + f)) :
    Stepped c (.containsKey name) v a φ g f := ⟨φ, g, a, ⟨rfl, rfl⟩, .stays _ _, h⟩

theorem stepped_persist (h : v.Inv a (g + f)) : Stepped c .persist v a φ g f := by
  refine ⟨φ, g, a, ⟨rfl, rfl, rfl⟩, .stays _ _, ?_⟩
  show Inv (if v.persistent then _ else _) a (g + f)
  split
  · exact { h with }
  · exact h

theorem stepped_writeCapsule {id : CapsuleId} {data : Bytes} (h : v.Inv a (g + f))
    (hid : id ∉ v.store.used) : Stepped c (.writeCapsule id data) v a φ g f := by
  refine ⟨φ, _, a, ⟨rfl, rfl, rfl⟩, .stays _ _, ?_⟩
  rw [Multiset.cons_add]
  exact h.writes hid

/-- What a live capsule holds is what was seen of it. -/
theorem Inv.read_eq {id : CapsuleId} {data content : Bytes} (h : v.Inv a (g + f))
    (hd : v.store.read id = .ok data) (hs : .saw id content ∈ g) : data = content := by
  refine (h.saw id content (Multiset.mem_add.mpr (.inl hs))).2 data ?_
  unfold CapsuleStore.read at hd
  split at hd
  · next e => cases hd; exact e
  · cases hd

theorem stepped_readCapsule {id : CapsuleId} (h : v.Inv a (g + f)) :
    Stepped c (.readCapsule id) v a φ g f :=
  ⟨φ, g, a, ⟨fun _ _ hd hs => h.read_eq hd hs, rfl, rfl⟩, .stays _ _, h⟩

theorem stepped_readRange {id : CapsuleId} {offset len : UInt64} (h : v.Inv a (g + f)) :
    Stepped c (.readRange id offset len) v a φ g f := by
  refine ⟨φ, g, a, ⟨fun data content hd hs => ?_, rfl, rfl⟩, .stays _ _, h⟩
  cases hr : v.store.read id with
  | error e =>
      rw [show (exec (.readRange id offset len) v).1 = .error e from by
        show v.store.read id >>= _ = _; rw [hr]; rfl] at hd
      cases hd
  | ok data' =>
      rw [← h.read_eq hr hs]
      rw [show (exec (.readRange id offset len) v).1 = readRangeOf data' offset len from by
        show v.store.read id >>= _ = _; rw [hr]; rfl] at hd
      exact hd

theorem stepped_deleteCapsule {id : CapsuleId} (h : v.Inv a (g + f)) (hid : id ∈ g.claims) :
    Stepped c (.deleteCapsule id) v a φ g f := by
  refine ⟨φ, 0, a, ⟨rfl, rfl⟩, .stays _ _, ?_⟩
  rw [zero_add]
  cases hl : v.store.capsules.lookup id with
  | none => simpa only [exec, hl] using h.drop
  | some data => simpa only [exec, hl] using h.deletes hid

theorem stepped_volume {name : Text} (h : v.Inv a (g + f)) (hm : may c (.volume name) (φ, g)) :
    Stepped c (.volume name) v a φ g f := by
  obtain ⟨rfl, rfl, hread⟩ := hm
  rw [zero_add] at h
  cases hl : v.volumes.lookup name with
  | none =>
      refine ⟨.waiting, 0, a, .inr ⟨⟨volumeNotFound name, ?_⟩, rfl, rfl⟩, .stays _ _, ?_⟩
      · simp only [exec, hl]
      · simpa only [exec, hl, zero_add] using h
  | some volume =>
      obtain ⟨lv, ha, hb⟩ := h.backed name volume hl
      have hlen : lv.content.length = volume.size.toNat := hb.size ▸ lv.length_content
      refine ⟨observed lv.content c, {.saw volume.capsuleId lv.content}, a,
        .inl ⟨volume, lv.content, ?_, hlen, rfl, rfl⟩, ?_, ?_⟩
      · simp only [exec, hl]
      · -- a read whose range is one of the volume observes its answer here
        cases c with
        | read name' offset len =>
            obtain rfl := hread _ _ _ rfl
            by_cases hr : offset.toNat + len.toNat ≤ lv.content.length
            · simp only [observed, if_pos hr]
              exact .observes ⟨rfl, lv, ha, lv.length_content ▸ hr, rfl⟩
            · simp only [observed, if_neg hr]
              exact .stays _ _
        | createVolume => exact .stays _ _
        | write => exact .stays _ _
        | deleteVolume => exact .stays _ _
      · simpa only [exec, hl, Multiset.singleton_add] using h.looks hl hb

theorem stepped_insertVolume {volume : BlockVolume} (h : v.Inv a (g + f))
    (hm : may c (.insertVolume volume) (φ, g)) : Stepped c (.insertVolume volume) v a φ g f := by
  obtain ⟨rfl, rfl, now, hv, rfl⟩ := hm
  cases hl : v.volumes.lookup volume.name with
  | some volume' =>
      refine ⟨.waiting, _, a, .inr ⟨?_, rfl, rfl⟩, .stays _ _, ?_⟩
      · simp only [exec, hl, Option.isSome_some, if_true]
      · simpa only [exec, hl, Option.isSome_some, if_true] using h
  | none =>
      rw [Multiset.singleton_add] at h
      have hlive := h.fresh _ _ (Multiset.mem_cons_self _ _)
      have hb : Backed v.store volume (.zeros volume.size volume.blockSize) :=
        ⟨rfl, rfl, hlive, by rw [hv]; rfl⟩
      refine ⟨.done (.created volume), 0,
        a.insert volume.name (.zeros volume.size volume.blockSize),
        .inl ⟨?_, rfl, rfl⟩, .commits ⟨h.known _ hl, congrArg BlockAnswer.created hv, rfl⟩, ?_⟩
      · simp only [exec, hl, Option.isSome_none, Bool.false_eq_true, if_false]
      · simpa only [exec, hl, Option.isSome_none, Bool.false_eq_true, if_false, zero_add]
          using h.names rfl hb

/-- The version counts one write more. -/
theorem version_succ {n : UInt64} {k : Nat} (h : n.toNat = min (1 + k) 18446744073709551615) :
    (saturatingSucc64 n).toNat = min (1 + (k + 1)) 18446744073709551615 := by
  unfold saturatingSucc64
  split
  · next e =>
      subst e
      have : (18446744073709551615 : UInt64).toNat = 18446744073709551615 := rfl
      omega
  · next e =>
      have hne : n.toNat ≠ 18446744073709551615 := fun hn => e (UInt64.toNat_inj.mp hn)
      rw [UInt64.toNat_add, show (1 : UInt64).toNat = 1 from rfl]
      omega

theorem stepped_swapCapsule {name : Text} {id new : CapsuleId} {version now : UInt64}
    (h : v.Inv a (g + f)) (hm : may c (.swapCapsule name id version new now) (φ, g)) :
    Stepped c (.swapCapsule name id version new now) v a φ g f := by
  obtain ⟨rfl, offset, data, content, rfl, hne, hfit, rfl⟩ := hm
  cases hl : v.volumes.lookup name with
  | none =>
      refine ⟨.waiting, _, a, .inr ⟨?_, rfl, rfl⟩, .stays _ _, ?_⟩
      · simp only [exec, hl]
        exact nofun
      · simpa only [exec, hl] using h
  | some volume =>
      by_cases hc : volume.version ≠ version ∨ volume.capsuleId ≠ id
      · refine ⟨.waiting, _, a, .inr ⟨?_, rfl, rfl⟩, .stays _ _, ?_⟩
        · simp only [exec, hl, if_pos hc]
          exact nofun
        · simpa only [exec, hl, if_pos hc] using h
      · -- the capsule is the one that was read, so the volume's content is what was copied
        obtain ⟨rfl, rfl⟩ : volume.version = version ∧ volume.capsuleId = id := by
          simpa only [not_or, not_not] using hc
        obtain ⟨lv, ha, hb⟩ := h.backed name volume hl
        have hcont : lv.content = content := (h.saw volume.capsuleId content (by simp)).2 _ hb.live
        subst hcont
        rw [lv.length_content] at hfit
        rw [Multiset.cons_add, Multiset.singleton_add] at h
        have hlive := h.fresh _ _ (Multiset.mem_cons_self _ _)
        have hb' : Backed v.store { volume with
            capsuleId := new, updatedAt := now, version := saturatingSucc64 volume.version }
            (lv.write offset.toNat data hfit) :=
          ⟨hb.size, hb.blockSize, by rw [LogicalVolume.content_write]; exact hlive, by
            show _ = min (1 + (lv.writes ++ [_]).length) _
            rw [List.length_append]
            exact version_succ hb.version⟩
        have hI := (h.swaps hl rfl hb').forgets
        refine ⟨.done .written, {.dead volume.capsuleId}, _, .inl ⟨?_, rfl, rfl⟩,
          .commits ⟨rfl, .inr ⟨hne, lv, hfit, ha, rfl⟩⟩, ?_⟩
        · simp only [exec, hl, if_neg hc]
        · simpa only [exec, hl, if_neg hc, Multiset.singleton_add] using hI

theorem stepped_removeVolume {name : Text} (h : v.Inv a (g + f))
    (hm : may c (.removeVolume name) (φ, g)) : Stepped c (.removeVolume name) v a φ g f := by
  obtain ⟨rfl, rfl, rfl⟩ := hm
  rw [zero_add] at h
  cases hl : v.volumes.lookup name with
  | none =>
      refine ⟨.waiting, 0, a, .inr ⟨⟨volumeNotFound name, ?_⟩, rfl, rfl⟩, .stays _ _, ?_⟩
      · simp only [exec, hl]
      · simpa only [exec, hl, zero_add] using h
  | some volume =>
      obtain ⟨lv, ha, _⟩ := h.backed name volume hl
      refine ⟨.done .deleted, {.dead volume.capsuleId}, a.erase name,
        .inl ⟨volume.capsuleId, ?_, rfl, rfl⟩, .commits ⟨rfl, ⟨lv, ha⟩, rfl⟩, ?_⟩
      · simp only [exec, hl]
      · simpa only [exec, hl, Multiset.singleton_add] using h.removes hl

/-- **One operation of any call.** -/
theorem stepped {o : BlockOp} (h : v.Inv a (g + f)) (hm : may c o (φ, g)) (ho : Fresh o v) :
    Stepped c o v a φ g f := by
  cases o with
  | containsKey name => exact stepped_containsKey h
  | insertVolume volume => exact stepped_insertVolume h hm
  | volume name => exact stepped_volume h hm
  | swapCapsule name id version new now => exact stepped_swapCapsule h hm
  | removeVolume name => exact stepped_removeVolume h hm
  | persist => exact stepped_persist h
  | writeCapsule id data => exact stepped_writeCapsule h ho
  | readCapsule id => exact stepped_readCapsule h
  | readRange id offset len => exact stepped_readRange h
  | deleteCapsule id => exact stepped_deleteCapsule h hm

/-! ### The methods -/

open BlockProg

/-- One operation, by what a thread must own for it and what it leaves. -/
theorem wp_op (o : BlockOp) {Q : Except Error o.Res → Phase BlockAnswer × BlockGhost → Prop}
    (hm : may c o (φ, g)) (h : ∀ r φ' g', moves c o (φ, g) r (φ', g') → Q r (φ', g')) :
    (perform (S := BlockSig) o : BlockProg o.Res).wp (moves c) (may c) Q (φ, g) :=
  wp_perform.mpr ⟨hm, fun r s hr => h r s.1 s.2 hr⟩

theorem wp_containsKey {Q : Except Error Bool → Phase BlockAnswer × BlockGhost → Prop}
    {name : Text} (h : ∀ r, Q r (φ, g)) :
    (containsKey name).wp (moves c) (may c) Q (φ, g) := by
  refine wp_op (.containsKey name) trivial ?_
  rintro r _ _ ⟨rfl, rfl⟩
  exact h r

theorem wp_persist {Q : Except Error Unit → Phase BlockAnswer × BlockGhost → Prop}
    (h : Q (.ok ()) (φ, g)) : persist.wp (moves c) (may c) Q (φ, g) := by
  refine wp_op .persist trivial ?_
  rintro r _ _ ⟨rfl, rfl, rfl⟩
  exact h

theorem wp_writeCapsule {Q : Except Error CapsuleId → Phase BlockAnswer × BlockGhost → Prop}
    {id : CapsuleId} {data : Bytes} (h : Q (.ok id) (φ, .fresh id data ::ₘ g)) :
    (writeCapsule id data).wp (moves c) (may c) Q (φ, g) := by
  refine wp_op (.writeCapsule id data) trivial ?_
  rintro r _ _ ⟨rfl, rfl, rfl⟩
  exact h

/-- A thread reads a capsule it has looked up. -/
theorem wp_readCapsule {Q : Except Error Bytes → Phase BlockAnswer × BlockGhost → Prop}
    {id : CapsuleId} {content : Bytes} (hs : .saw id content ∈ g) (hok : Q (.ok content) (φ, g))
    (herr : ∀ e, Q (.error e) (φ, g)) : (readCapsule id).wp (moves c) (may c) Q (φ, g) := by
  refine wp_op (.readCapsule id) trivial ?_
  rintro r _ _ ⟨hr, rfl, rfl⟩
  cases r with
  | error e => exact herr e
  | ok data => exact hr data content rfl hs ▸ hok

theorem wp_dropCapsule
    {Q : Except Error (Except Error Unit) → Phase BlockAnswer × BlockGhost → Prop}
    {id : CapsuleId} (hid : id ∈ g.claims) (h : ∀ r, Q (.ok r) (φ, 0)) :
    (dropCapsule id).wp (moves c) (may c) Q (φ, g) := by
  refine wp_attempt.mpr (wp_op (.deleteCapsule id) hid ?_)
  rintro r _ _ ⟨rfl, rfl⟩
  exact h r

/-- A call looks a volume up, and holds nothing yet. -/
theorem wp_volume {Q : Except Error BlockVolume → Phase BlockAnswer × BlockGhost → Prop}
    {name : Text} (hread : ∀ name' offset len, c = .read name' offset len → name' = name)
    (hok : ∀ volume content, content.length = volume.size.toNat →
      Q (.ok volume) (observed content c, {.saw volume.capsuleId content}))
    (herr : ∀ e, Q (.error e) (.waiting, 0)) :
    (BlockProg.volume name).wp (moves c) (may c) Q (.waiting, 0) := by
  refine wp_op (.volume name) ⟨rfl, rfl, hread⟩ ?_
  rintro r _ _ (⟨volume, content, rfl, hlen, rfl, rfl⟩ | ⟨⟨e, rfl⟩, rfl, rfl⟩)
  · exact hok volume content hlen
  · exact herr e

theorem settles_create {id : CapsuleId} {name : Text} {size blockSize now : UInt64} :
    (BlockCall.program (.createVolume id name size blockSize now)).wp
      (moves (.createVolume id name size blockSize now))
      (may (.createVolume id name size blockSize now))
      (Settled blockObject (.createVolume id name size blockSize now)) (.waiting, 0) := by
  unfold BlockCall.program createVolumeWithBlockSize
  refine wp_bind.mpr (wp_bind.mpr (wp_lift.mpr ?_))
  cases validateVolume name size blockSize with
  | error e => trivial
  | ok _ =>
    refine wp_bind.mpr (wp_containsKey fun r => ?_)
    rcases r with e | _ | _
    · trivial
    · refine wp_bind.mpr (wp_writeCapsule (wp_bind.mpr
        (wp_op (.insertVolume _) ⟨rfl, rfl, now, rfl, rfl⟩ ?_)))
      rintro r _ _ (⟨rfl, rfl, rfl⟩ | ⟨rfl, rfl, rfl⟩)
      · exact wp_bind.mpr (wp_persist (.inl rfl))
      · exact wp_bind.mpr (wp_dropCapsule (BlockGhost.mem_claims_fresh
          (Multiset.mem_singleton_self _)) fun r => trivial)
    · trivial

theorem settles_delete {name : Text} :
    (BlockCall.program (.deleteVolume name)).wp (moves (.deleteVolume name))
      (may (.deleteVolume name)) (Settled blockObject (.deleteVolume name)) (.waiting, 0) := by
  unfold BlockCall.program deleteVolume
  refine wp_bind.mpr (wp_bind.mpr (wp_op (.removeVolume name) ⟨rfl, rfl, rfl⟩ ?_))
  rintro r _ _ (⟨id, rfl, rfl, rfl⟩ | ⟨⟨e, rfl⟩, rfl, rfl⟩)
  · refine wp_bind.mpr (wp_persist (wp_bind.mpr (wp_dropCapsule ?_ fun r => .inl rfl)))
    exact Multiset.mem_bind.mpr ⟨_, Multiset.mem_singleton_self _, Multiset.mem_singleton_self _⟩
  · trivial

/-- A range that is read is one of the content, and no sum has wrapped. -/
theorem readRangeOf_eq_ok {content data : Bytes} {offset len : UInt64}
    (h : readRangeOf content offset len = .ok data) :
    offset.toNat + len.toNat ≤ content.length ∧ data = range content offset len := by
  unfold readRangeOf at h
  split at h
  · cases h
  · next hlen =>
      unfold sliceRange at h
      split at h
      · next hb =>
          cases h
          have := len.toNat_lt
          have hadd : (offset + len).toNat = offset.toNat + len.toNat := by
            rw [UInt64.toNat_add] at hb ⊢
            omega
          rw [hadd] at hb ⊢
          exact ⟨hb.2, by rw [Nat.add_sub_cancel_left]; rfl⟩
      · cases h

theorem settles_read {name : Text} {offset len : UInt64} :
    (BlockCall.program (.read name offset len)).wp (moves (.read name offset len))
      (may (.read name offset len)) (Settled blockObject (.read name offset len))
      (.waiting, 0) := by
  unfold BlockCall.program BlockView.read
  refine wp_bind.mpr (wp_bind.mpr (wp_volume (fun _ _ _ e => by cases e; rfl) ?_
    fun e => trivial))
  intro volume content hlen
  have hharm : (observed content (.read name offset len)).Harmless := by
    simp only [observed]
    split <;> trivial
  rw [andThen_ok]
  split
  · exact hharm
  · refine wp_op (.readRange volume.capsuleId offset len) trivial ?_
    rintro r _ _ ⟨hr, rfl, rfl⟩
    cases r with
    | error e => exact hharm
    | ok data =>
        obtain ⟨hb, rfl⟩ := readRangeOf_eq_ok (hr data content rfl (Multiset.mem_singleton_self _))
        left
        simp only [observed, if_pos hb, Phase.answers_seen]

/-- A copy that does not panic is the overlay, and no sum has wrapped. -/
theorem copyFromSlice_eq_ok {buffer data out : Bytes} {offset : UInt64}
    (h : copyFromSlice buffer offset.toNat (offset + UInt64.ofNat data.length).toNat data =
      .ok out) :
    offset.toNat + data.length ≤ buffer.length ∧ out = overlay buffer (offset.toNat, data) := by
  unfold copyFromSlice at h
  split at h
  · next hb =>
      cases h
      have hadd : (offset + UInt64.ofNat data.length).toNat = offset.toNat + data.length := by
        omega
      rw [hadd] at hb ⊢
      exact ⟨hb.2.1, rfl⟩
  · cases h

theorem settles_write {id : CapsuleId} {name : Text} {offset : UInt64} {data : Bytes}
    {now : UInt64} :
    (BlockCall.program (.write id name offset data now)).wp (moves (.write id name offset data now))
      (may (.write id name offset data now))
      (Settled blockObject (.write id name offset data now)) (.waiting, 0) := by
  by_cases hd : data = []
  · simp only [BlockCall.program, BlockView.write, if_pos hd]
    exact .inr ⟨rfl, fun a => ⟨rfl, .inl ⟨hd, rfl⟩⟩⟩
  simp only [BlockCall.program, BlockView.write, if_neg hd, rewrite]
  refine wp_bind.mpr (wp_bind.mpr (wp_volume nofun ?_ fun e => trivial))
  intro volume content hlen
  rw [andThen_ok]
  split
  · trivial
  refine wp_bind.mpr (wp_readCapsule (Multiset.mem_singleton_self _) ?_ fun e => trivial)
  refine wp_bind.mpr (wp_lift.mpr ?_)
  cases hc : copyFromSlice content offset.toNat (offset + UInt64.ofNat data.length).toNat data with
  | error e => trivial
  | ok out =>
      obtain ⟨hfit, rfl⟩ := copyFromSlice_eq_ok hc
      refine wp_bind.mpr (wp_writeCapsule (wp_bind.mpr
        (wp_op (.swapCapsule name _ _ _ _) ⟨rfl, offset, data, content, rfl, hd, hfit, rfl⟩ ?_)))
      rintro r _ _ (⟨rfl, rfl, rfl⟩ | ⟨hne, rfl, rfl⟩)
      · -- swapped: the old capsule goes
        refine wp_bind.mpr (wp_persist (wp_bind.mpr (wp_dropCapsule ?_ fun r => .inl rfl)))
        exact Multiset.mem_bind.mpr
          ⟨_, Multiset.mem_singleton_self _, Multiset.mem_singleton_self _⟩
      · -- not swapped: the new capsule goes, if the volume is still there
        rcases r with e | _ | _
        · trivial
        · exact wp_bind.mpr (wp_dropCapsule (BlockGhost.mem_claims_fresh
            (Multiset.mem_cons_self _ _)) fun r => trivial)
        · exact absurd rfl hne

/-- The block view against the object its clients believe in. -/
def linear :
    Linear BlockSig Error BlockView BlockGhost BlockCall LogicalVolumes BlockAnswer where
  program := BlockCall.program
  exec := Does
  object := blockObject
  may := may
  moves := moves
  Inv := Inv
  like := fun _ => Eq
  refl := fun _ _ => rfl
  leaves := fun h e => e ▸ h
  step := fun h hm ⟨ho, hr⟩ => by
    obtain ⟨rfl, rfl⟩ := Prod.mk.inj (show ((exec _ _).1, (exec _ _).2) = (_, _) from hr)
    exact stepped h hm ho
  drop := fun h => h.drop
  settles := fun c => wp_mono (Q := Settled blockObject c) (by
    cases c with
    | createVolume id name size blockSize now => exact settles_create
    | write id name offset data now => exact settles_write
    | read name offset len => exact settles_read
    | deleteVolume name => exact settles_delete) fun _ _ h => h.exact

theorem inv_start {v : BlockView} (hv : v.volumes = ∅) : v.Inv ∅ 0 where
  backed := fun name volume hn => by rw [hv, AList.lookup_empty] at hn; cases hn
  known := fun name _ => AList.lookup_empty name
  apart := fun name _ volume _ hn => by rw [hv, AList.lookup_empty] at hn; cases hn
  saw := fun _ _ hm => absurd hm (Multiset.notMem_zero _)
  fresh := fun _ _ hm => absurd hm (Multiset.notMem_zero _)
  used := fun _ hm => absurd hm (Multiset.notMem_zero _)
  nodup := Multiset.nodup_zero
  unnamed := fun _ _ _ => Multiset.notMem_zero _

end BlockView

/-! ### The theorem -/

/-- **Linearizability of the block view.**  Whatever the interleaving of the clients' calls, their
history is one of the atomic object: each call that returned took effect, or observed its answer,
at one moment between its invocation and its answer, and a call that failed had no effect.  In
every state the capsule of a volume is live and holds, byte for byte, zeros overlaid with the
writes that took effect, in the order of their versions. -/
theorem blockView_linearizable {ι : Type} {v₀ v : BlockView}
    {t : List (Event ι BlockCall BlockAnswer Error)}
    {l : List (ι × BlockCall × BlockProg BlockAnswer)}
    (hv : v₀.volumes = ∅) (h : ClientRun BlockCall.program BlockView.Does v₀ t v l) :
    ∃ a m, AtomicRun blockObject ∅ t a m ∧
      (∀ name volume, v.volumes.lookup name = some volume → ∃ lv, a.lookup name = some lv ∧
        Backed v.store volume lv ∧ lv.content.length = volume.size.toNat) ∧
      ∀ name, v.volumes.lookup name = none → a.lookup name = none := by
  obtain ⟨a, m, hr, _, _, _, hI⟩ :=
    BlockView.linear.linearizes (BlockView.inv_start hv) h
  refine ⟨a, m, hr, fun name volume hn => ?_, hI.known⟩
  obtain ⟨lv, ha, hb⟩ := hI.backed name volume hn
  exact ⟨lv, ha, hb, hb.size ▸ lv.length_content⟩

/-- A store that never held a capsule. -/
def CapsuleStore.empty : CapsuleStore := ⟨∅, [], fun id _ h => by
  rw [AList.lookup_empty] at h; cases h⟩

/-- The test of a schedule. -/
def BlockView.isFresh : BlockOp → BlockView → Bool
  | .writeCapsule id _, v => decide (id ∉ v.store.used)
  | _, _ => true

theorem BlockView.does_of_isFresh (o : BlockOp) (v : BlockView) (h : isFresh o v = true) :
    Does o v (exec o v).1 (exec o v).2 := by
  refine ⟨?_, rfl⟩
  cases o with
  | writeCapsule id data =>
      have hid : id ∉ v.store.used := of_decide_eq_true h
      exact hid
  | _ => trivial

/-- Client 0 creates a volume of two bytes; client 1 looks it up and copies it, and before it goes
on client 2 writes the second byte. -/
def raceTurns : List (Turn Nat BlockCall) :=
  .invoke 0 (.createVolume ⟨1⟩ ['a'] 2 1 0) :: List.replicate 5 (.next 0) ++
  .invoke 1 (.write ⟨2⟩ ['a'] 0 [7] 0) :: List.replicate 2 (.next 0) ++
  .invoke 2 (.write ⟨3⟩ ['a'] 1 [8] 0) :: List.replicate 11 (.next 0)

/-- Client 2 wins. -/
def raceHistory : List (Event Nat BlockCall BlockAnswer Error) :=
  [.invoke 0 (.createVolume ⟨1⟩ ['a'] 2 1 0), .answer 0 (.created ⟨['a'], 2, 1, ⟨1⟩, 0, 0, 1⟩),
    .invoke 1 (.write ⟨2⟩ ['a'] 0 [7] 0), .invoke 2 (.write ⟨3⟩ ['a'] 1 [8] 0),
    .answer 2 .written, .failure 1 (.msg "Volume modified concurrently")]

theorem blockView_linearizable_race :
    ∃ v l, ClientRun BlockCall.program BlockView.Does (.new .empty) raceHistory v l ∧
      v.store.read ⟨3⟩ = .ok [0, 8] ∧
      ∃ a m, AtomicRun blockObject ∅ raceHistory a m ∧
        (∀ name volume, v.volumes.lookup name = some volume → ∃ lv, a.lookup name = some lv ∧
          Backed v.store volume lv ∧ lv.content.length = volume.size.toNat) ∧
        ∀ name, v.volumes.lookup name = none → a.lookup name = none := by
  have hs : (clientSchedule BlockCall.program BlockView.exec BlockView.isFresh (.new .empty)
      raceTurns).map (fun x => (x.1, x.2.1.store.read ⟨3⟩)) =
      some (raceHistory, .ok [0, 8]) := by decide +kernel
  obtain ⟨x, hx, e⟩ := Option.map_eq_some_iff.mp hs
  obtain ⟨ht, hd⟩ := Prod.mk.inj e
  have hrun := clientRun_of_clientSchedule BlockView.does_of_isFresh hx
  rw [ht] at hrun
  exact ⟨_, _, hrun, hd, blockView_linearizable rfl hrun⟩

end Space

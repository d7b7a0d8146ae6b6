import Space.Modular.Pipeline

/-!
# Modular — Counts

What the reference counts of the modular pipeline are worth.  A write that fails leaves counts too
high, and segments that no capsule lists; a count never falls below what is asked of it, which is at
least the number of times the capsules list the segment (`Covered`).
-/

namespace Space
open Support

namespace InMemoryBackend
variable (b : InMemoryBackend) (x : SegmentId)

theorem lookup_commit_segments :
    b.commit.segments.lookup x = if x ∈ b.transaction.deleted then none
      else (b.transaction.stagedSegments.lookup x).or (b.segments.lookup x) := by
  rw [commit, Table.lookup_eraseAll, Table.lookup_union]

theorem lookup_commit_metadata :
    b.commit.metadata.lookup x = if x ∈ b.transaction.deleted then none
      else (b.transaction.stagedMetadata.lookup x).or (b.metadata.lookup x) := by
  rw [commit, Table.lookup_eraseAll, Table.lookup_union]

variable {b} in
/-- A transaction that stages one segment. -/
theorem commit_segments_one {payload : Bytes} {staged : Table SegmentId Segment} :
    (fun y => (commit { b with transaction :=
      { stagedSegments := (∅ : Table SegmentId Bytes).insert x payload
        stagedMetadata := staged } }).segments.lookup y) =
      Function.update (fun y => b.segments.lookup y) x (some payload) := by
  funext y
  rw [lookup_commit_segments, if_neg List.not_mem_nil, Table.lookup_insert, Function.update_apply]
  split <;> rfl

variable {b} in
/-- A transaction that gives one segment its metadata. -/
theorem commit_metadata_one {m : Segment} {staged : Table SegmentId Bytes} :
    (fun y => (commit { b with transaction :=
      { stagedSegments := staged
        stagedMetadata := (∅ : Table SegmentId Segment).insert x m } }).metadata.lookup y) =
      Function.update (fun y => b.metadata.lookup y) x (some m) := by
  funext y
  rw [lookup_commit_metadata, if_neg List.not_mem_nil, Table.lookup_insert, Function.update_apply]
  split <;> rfl

end InMemoryBackend

/-- The in-memory storage with its catalog. -/
abbrev InMemory := InMemoryBackend × InMemoryCatalog

namespace InMemory

/-- Nothing stored. -/
def empty : InMemory := ({}, {})

/-! ### Views -/

def seg (s : InMemory) (x : SegmentId) : Option Bytes := s.1.segments.lookup x

def info (s : InMemory) (x : SegmentId) : Option Segment := s.1.metadata.lookup x

def content (s : InMemory) (hash : ContentHash) : Option SegmentId := s.2.content.lookup hash

/-- The stored reference count of a segment, zero if there is none. -/
def refs (s : InMemory) (x : SegmentId) : Nat := (s.info x).elim 0 Segment.refCount

theorem storage_metadata {s : InMemory} {x : SegmentId} {m : Segment} (hm : s.info x = some m) :
    InMemoryBackend.storage.metadata x s.1 = .ok m := by
  have hm : s.1.metadata.lookup x = some m := hm
  simp only [InMemoryBackend.storage, hm]

theorem storage_metadata_none {s : InMemory} {x : SegmentId} (hm : s.info x = none) :
    InMemoryBackend.storage.metadata x s.1 =
      .error (.msg ("segment " ++ x.debug ++ " metadata not found")) := by
  have hm : s.1.metadata.lookup x = none := hm
  simp only [InMemoryBackend.storage, hm]

/-- The payload is all that is read of a segment. -/
theorem storage_read {s u : InMemory} {x : SegmentId} (h : u.seg x = s.seg x) :
    InMemoryBackend.storage.read x u.1 = InMemoryBackend.storage.read x s.1 := by
  have h : u.1.segments.lookup x = s.1.segments.lookup x := h
  simp only [InMemoryBackend.storage, h]

/-- How often the capsules list a segment. -/
def occ (s : InMemory) (x : SegmentId) : Nat :=
  Table.total (fun c : Capsule => c.segments.count x) s.2.capsules

/-- A capsule lists the segment. -/
def Lists (s : InMemory) (x : SegmentId) : Prop :=
  ∃ id capsule, s.2.capsules.lookup id = some capsule ∧ x ∈ capsule.segments

theorem occ_pos {s : InMemory} {x : SegmentId} : 0 < s.occ x ↔ s.Lists x := by
  unfold occ Lists
  rw [Table.total_pos]
  simp only [List.count_pos_iff]

theorem occ_congr {s s' : InMemory} (h : s'.2.capsules = s.2.capsules) : s'.occ = s.occ := by
  unfold occ
  rw [h]

/-- The same segments, capsules and entries, as far as a reader can tell. -/
structure Alike (s s' : InMemory) : Prop where
  seg : s'.seg = s.seg
  info : s'.info = s.info
  capsules : s'.2.capsules = s.2.capsules
  content : s'.2.content = s.2.content
  next : s.2.nextSegment ≤ s'.2.nextSegment

theorem Alike.refl (s : InMemory) : s.Alike s := ⟨rfl, rfl, rfl, rfl, Nat.le_refl _⟩

theorem Alike.trans {s₁ s₂ s₃ : InMemory} (h₁ : s₁.Alike s₂) (h₂ : s₂.Alike s₃) : s₁.Alike s₃ :=
  ⟨h₂.seg.trans h₁.seg, h₂.info.trans h₁.info, h₂.capsules.trans h₁.capsules,
    h₂.content.trans h₁.content, h₁.next.trans h₂.next⟩

/-- A transaction is not seen. -/
theorem Alike.staged (s : InMemory) (t : InMemoryTransaction) :
    s.Alike ({ s.1 with transaction := t }, s.2) := ⟨rfl, rfl, rfl, rfl, Nat.le_refl _⟩

/-- An identifier that was given out is not seen either. -/
theorem Alike.allocated (s : InMemory) (t : InMemoryTransaction) :
    s.Alike ({ s.1 with transaction := t }, s.2.allocateSegment.2) :=
  ⟨rfl, rfl, rfl, rfl, Nat.le_succ _⟩

/-- The metadata of one segment is replaced. -/
structure Updated (s : InMemory) (x : SegmentId) (m : Segment) (s' : InMemory) : Prop where
  seg : s'.seg = s.seg
  info : s'.info = Function.update s.info x (some m)
  cat : s'.2 = s.2

/-- A segment is stored under the next identifier. -/
structure Entered (s : InMemory) (payload : Bytes) (m : Segment) (s' : InMemory) : Prop where
  seg : s'.seg = Function.update s.seg ⟨s.2.nextSegment⟩ (some payload)
  info : s'.info = Function.update s.info ⟨s.2.nextSegment⟩ (some m)
  cat : s'.2 = { s.2 with nextSegment := s.2.nextSegment + 1 }

end InMemory

variable {s s' : InMemory} {x : SegmentId} {demand demand' : SegmentId → Nat}

/-! ### What the counts cover -/

/-- Every segment that is asked for has at least that many references, the entries of the catalog
name segments with their hash, and new identifiers are new. -/
structure Covered (demand : SegmentId → Nat) (s : InMemory) : Prop where
  counted : ∀ x, 0 < demand x → ∃ m, s.info x = some m ∧ demand x ≤ m.refCount
  content : ∀ hash x, s.content hash = some x → ∃ m, s.info x = some m ∧ m.contentHash = some hash
  fresh : ∀ x m, s.info x = some m → x.val < s.2.nextSegment
  stored : ∀ x, (s.seg x).isSome = (s.info x).isSome

namespace Covered

theorem mono (h : Covered demand s) (hd : ∀ x, demand' x ≤ demand x) : Covered demand' s where
  counted := by
    intro x hx
    obtain ⟨m, hm, hle⟩ := h.counted x (Nat.lt_of_lt_of_le hx (hd x))
    exact ⟨m, hm, (hd x).trans hle⟩
  content := h.content
  fresh := h.fresh
  stored := h.stored

theorem alike (h : Covered demand s) (ha : s.Alike s') : Covered demand s' where
  counted := by rw [ha.info]; exact h.counted
  content := by
    unfold InMemory.content
    rw [ha.info, ha.content]
    exact h.content
  fresh := by
    rw [ha.info]
    exact fun x m hm => Nat.lt_of_lt_of_le (h.fresh x m hm) ha.next
  stored := by rw [ha.seg, ha.info]; exact h.stored

theorem le_refCount (h : Covered demand s) {m : Segment} (hm : s.info x = some m) :
    demand x ≤ m.refCount := by
  rcases Nat.eq_zero_or_pos (demand x) with h0 | hpos
  · exact h0 ▸ Nat.zero_le _
  · obtain ⟨m', hm', hle⟩ := h.counted x hpos
    rw [hm] at hm'
    cases hm'
    exact hle

/-- The entries of the catalog name different segments. -/
theorem content_inj (h : Covered demand s) {hash hash' : ContentHash}
    (h₁ : s.content hash = some x) (h₂ : s.content hash' = some x) : hash = hash' := by
  obtain ⟨m, hm, hc⟩ := h.content hash x h₁
  obtain ⟨m', hm', hc'⟩ := h.content hash' x h₂
  rw [hm] at hm'
  cases hm'
  exact Option.some.inj (hc.symm.trans hc')

/-- **Another number of references.** -/
theorem recount (h : Covered demand s) {m : Segment} {n : Nat} (hm : s.info x = some m)
    (hu : s.Updated x (m.withRefCount n) s') (hx : demand' x ≤ n)
    (hd : ∀ y, y ≠ x → demand' y ≤ demand y) : Covered demand' s' where
  counted := by
    intro y hy
    rw [hu.info]
    by_cases hyx : y = x
    · subst hyx
      exact ⟨_, Function.update_self .., hx⟩
    · rw [Function.update_of_ne hyx]
      obtain ⟨m', hm', hle⟩ := h.counted y (Nat.lt_of_lt_of_le hy (hd y hyx))
      exact ⟨m', hm', (hd y hyx).trans hle⟩
  content := by
    intro hash y hy
    have hold : s.content hash = some y := by
      unfold InMemory.content at hy ⊢
      rwa [hu.cat] at hy
    obtain ⟨m', hm', hc⟩ := h.content hash y hold
    rw [hu.info]
    by_cases hyx : y = x
    · subst hyx
      rw [hm] at hm'
      cases hm'
      exact ⟨_, Function.update_self .., hc⟩
    · rw [Function.update_of_ne hyx]
      exact ⟨m', hm', hc⟩
  fresh := by
    intro y m' hm'
    rw [hu.info] at hm'
    rw [hu.cat]
    by_cases hyx : y = x
    · subst hyx
      exact h.fresh y m hm
    · rw [Function.update_of_ne hyx] at hm'
      exact h.fresh y m' hm'
  stored := by
    intro y
    rw [hu.seg, hu.info, h.stored]
    by_cases hyx : y = x
    · subst hyx
      rw [Function.update_self, hm]
      rfl
    · rw [Function.update_of_ne hyx]

/-- A new identifier is asked for by nobody. -/
theorem unasked (h : Covered demand s) : demand ⟨s.2.nextSegment⟩ = 0 := by
  by_contra hpos
  obtain ⟨m, hm, -⟩ := h.counted _ (Nat.pos_of_ne_zero hpos)
  exact Nat.lt_irrefl _ (h.fresh _ m hm)

/-- **A new segment.** -/
theorem enter (h : Covered demand s) {payload : Bytes} {m : Segment}
    (he : s.Entered payload m s') (hx : demand' ⟨s.2.nextSegment⟩ ≤ m.refCount)
    (hd : ∀ y, y ≠ ⟨s.2.nextSegment⟩ → demand' y ≤ demand y) : Covered demand' s' where
  counted := by
    intro y hy
    rw [he.info]
    by_cases hyx : y = ⟨s.2.nextSegment⟩
    · subst hyx
      exact ⟨m, Function.update_self .., hx⟩
    · rw [Function.update_of_ne hyx]
      obtain ⟨m', hm', hle⟩ := h.counted y (Nat.lt_of_lt_of_le hy (hd y hyx))
      exact ⟨m', hm', (hd y hyx).trans hle⟩
  content := by
    intro hash y hy
    have hold : s.content hash = some y := by
      unfold InMemory.content at hy ⊢
      rwa [he.cat] at hy
    obtain ⟨m', hm', hc⟩ := h.content hash y hold
    have hyx : y ≠ ⟨s.2.nextSegment⟩ := by
      rintro rfl
      exact Nat.lt_irrefl _ (h.fresh _ m' hm')
    rw [he.info, Function.update_of_ne hyx]
    exact ⟨m', hm', hc⟩
  fresh := by
    intro y m' hm'
    rw [he.info] at hm'
    rw [he.cat]
    by_cases hyx : y = ⟨s.2.nextSegment⟩
    · subst hyx
      exact Nat.lt_succ_self _
    · rw [Function.update_of_ne hyx] at hm'
      exact Nat.lt_succ_of_lt (h.fresh y m' hm')
  stored := by
    intro y
    rw [he.seg, he.info]
    by_cases hyx : y = ⟨s.2.nextSegment⟩
    · subst hyx
      rw [Function.update_self, Function.update_self]
      rfl
    · rw [Function.update_of_ne hyx, Function.update_of_ne hyx]
      exact h.stored y

/-- **A segment is registered** under its hash. -/
theorem register (h : Covered demand s) {m : Segment} {hash : ContentHash} (hm : s.info x = some m)
    (hc : m.contentHash = some hash) : Covered demand (s.1, s.2.registerContent hash x) where
  counted := h.counted
  content := by
    intro hash' y hy
    rcases Table.lookup_insert_eq_some.mp hy with ⟨rfl, rfl⟩ | ⟨-, hy⟩
    · exact ⟨m, hm, hc⟩
    · exact h.content hash' y hy
  fresh := h.fresh
  stored := h.stored

/-- **A segment nobody asks for goes**, with its entry. -/
theorem forget (h : Covered demand s) (hseg : s'.seg = Function.update s.seg x none)
    (hinfo : s'.info = Function.update s.info x none)
    (hcontent : ∀ hash y, s'.content hash = some y → s.content hash = some y ∧ y ≠ x)
    (hnext : s'.2.nextSegment = s.2.nextSegment) (hx : demand' x = 0)
    (hd : ∀ y, demand' y ≤ demand y) : Covered demand' s' where
  counted := by
    intro y hy
    have hyx : y ≠ x := by
      rintro rfl
      exact Nat.lt_irrefl _ (hx ▸ hy)
    rw [hinfo, Function.update_of_ne hyx]
    exact (h.mono hd).counted y hy
  content := by
    intro hash y hy
    obtain ⟨hy, hyx⟩ := hcontent hash y hy
    rw [hinfo, Function.update_of_ne hyx]
    exact h.content hash y hy
  fresh := by
    intro y m hm
    rw [hnext]
    rw [hinfo] at hm
    by_cases hyx : y = x
    · subst hyx
      rw [Function.update_self] at hm
      cases hm
    · rw [Function.update_of_ne hyx] at hm
      exact h.fresh y m hm
  stored := by
    intro y
    rw [hseg, hinfo]
    by_cases hyx : y = x
    · subst hyx
      rw [Function.update_self, Function.update_self]
      rfl
    · rw [Function.update_of_ne hyx, Function.update_of_ne hyx]
      exact h.stored y

end Covered

/-- The references of the capsules, and those of the segments in `l`. -/
def Owes (l : List SegmentId) (s : InMemory) : Prop := Covered (fun x => s.occ x + l.count x) s

theorem Owes.drop {l : List SegmentId} (h : Owes l s) : Owes [] s :=
  Covered.mono h fun _ => Nat.add_le_add_left (Nat.zero_le _) _

theorem Owes.alike {l : List SegmentId} (h : Owes l s) (ha : s.Alike s') : Owes l s' := by
  have hocc : s'.occ = s.occ := InMemory.occ_congr ha.capsules
  unfold Owes
  rw [hocc]
  exact Covered.alike h ha

/-- A reference is added to a segment that is there. -/
theorem Owes.share {l : List SegmentId} (h : Owes l s) {m : Segment} (hm : s.info x = some m)
    (hu : s.Updated x (m.withRefCount (m.refCount + 1)) s') : Owes (l ++ [x]) s' := by
  have hocc : s'.occ = s.occ := InMemory.occ_congr (by rw [hu.cat])
  have hle := Covered.le_refCount h hm
  refine Covered.recount h hm hu ?_ fun y hy => ?_
  · rw [hocc, List.count_append, List.count_singleton_self, ← Nat.add_assoc]
    exact Nat.add_le_add_right hle 1
  · rw [hocc, List.count_append, List.count_eq_zero_of_not_mem (l := [x])]
    · exact Nat.le_refl _
    · exact fun hmem => hy (List.mem_singleton.mp hmem)

/-- A new segment has the one reference. -/
theorem Owes.enter {l : List SegmentId} (h : Owes l s) {payload : Bytes} {m : Segment}
    (he : s.Entered payload m s') (hm : m.refCount = 1) :
    Owes (l ++ [⟨s.2.nextSegment⟩]) s' := by
  have hocc : s'.occ = s.occ := InMemory.occ_congr (by rw [he.cat])
  have hnone := Covered.unasked h
  refine Covered.enter h he ?_ fun y hy => ?_
  · rw [hocc, List.count_append, List.count_singleton_self, ← Nat.add_assoc, hnone, hm]
  · rw [hocc, List.count_append, List.count_eq_zero_of_not_mem (l := [_])]
    · exact Nat.le_refl _
    · exact fun hmem => hy (List.mem_singleton.mp hmem)

/-- **A capsule is entered**, with the references that are held for it. -/
theorem Owes.create {id : CapsuleId} {size : Nat} {policy : Policy} {segments : List SegmentId}
    {stats : DedupStats} (h : Owes segments s) :
    Owes [] (s.1, s.2.createCapsule id size policy segments stats) := by
  have hcov : Covered (fun x => s.occ x + segments.count x)
      (s.1, s.2.createCapsule id size policy segments stats) :=
    ⟨h.counted, h.content, h.fresh, h.stored⟩
  refine hcov.mono fun x => ?_
  · have hins : Table.total (fun c : Capsule => c.segments.count x)
        (s.2.capsules.insert id ⟨id, size, segments, policy, stats.bytesSaved⟩) =
        segments.count x + Table.total (fun c : Capsule => c.segments.count x)
          (s.2.capsules.erase id) := Table.total_insert ..
    have hle : Table.total (fun c : Capsule => c.segments.count x) (s.2.capsules.erase id) ≤
        s.occ x := Table.total_erase_le _ _ _
    show Table.total _ (s.2.capsules.insert id _) + 0 ≤ _
    omega

end Space

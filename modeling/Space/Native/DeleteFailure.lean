import Space.Native.CrashSafe
import Space.Native.Repair
import Space.Native.Sharing
import Space.Support.Failing

/-!
# Native — Delete failure

A delete in which one call fails.  The capsule leaves the registry first, and then one reference is
taken back for each entry of its list; so the calls that were not made can be made up for only if
none of them takes back a reference.

* `AllOrRepairable`, `AllOrRetryable`: what is asked of a delete that fails, and what is asked of
  it if the delete that follows is to be harmless as well.
* `Store.Lowered`: the store once some references were taken back, as far as a sweep can tell.
* `wp_deleteCapsule_lowered`: the delete between any two of its calls.
-/

namespace Space
open Support Prog

/-! ### What is asked for -/

/-- A pipeline, as far as deletes go. -/
structure DeleteView (σ : Type) where
  has : CapsuleId → σ → Prop
  read : CapsuleId → σ → Except Error Bytes
  delete : CapsuleId → σ → σ
  /-- The orders of a collection. -/
  Orders : Type
  collect : Orders → σ → σ
  /-- The same segments with the same counts and data, content entries and capsules. -/
  Same : σ → σ → Prop

/-- The other capsules are there, and read as they did. -/
def DeleteView.Kept {σ : Type} (V : DeleteView σ) (id : CapsuleId) (s u : σ) : Prop :=
  ∀ id', id' ≠ id → V.has id' s → V.has id' u ∧ V.read id' u = V.read id' s

/-- After a delete that failed the capsule can be read as before, or it has gone and a collection
or another delete makes up for what is left to do; and the other capsules are as they were. -/
structure AllOrRepairable {σ : Type} (V : DeleteView σ) (id : CapsuleId) (s u : σ) : Prop where
  settled : (∃ data, V.read id s = .ok data ∧ V.read id u = .ok data) ∨
    ¬ V.has id u ∧ ((∀ ord, V.Same (V.collect ord u) (V.delete id s)) ∨
      V.Same (V.delete id u) (V.delete id s))
  others : V.Kept id s u

/-- The same, and in either case what makes up for it, another delete or a collection, leaves what
the delete would have left, and the other capsules as they were. -/
structure AllOrRetryable {σ : Type} (V : DeleteView σ) (id : CapsuleId) (s u : σ) : Prop where
  settled : (∃ data, V.read id s = .ok data ∧ V.read id u = .ok data) ∨ ¬ V.has id u
  retried : V.Same (V.delete id u) (V.delete id s) ∧ V.Kept id s (V.delete id u) ∨
    ¬ V.has id u ∧ ∀ ord, V.Same (V.collect ord u) (V.delete id s) ∧ V.Kept id s (V.collect ord u)
  others : V.Kept id s u

theorem AllOrRetryable.repairable {σ : Type} {V : DeleteView σ} {id : CapsuleId} {s u : σ}
    (h : AllOrRetryable V id s u) : AllOrRepairable V id s u := by
  refine ⟨h.settled.imp_right fun hgone => ⟨hgone, ?_⟩, h.others⟩
  exact h.retried.symm.imp (fun hc ord => (hc.2 ord).1) And.left

variable {P : Primitives}

namespace Store

/-- `read_capsule`, from its result alone. -/
def readCapsule (id : CapsuleId) (s : Store P) : Except Error Bytes :=
  ((WritePipeline.readCapsule P id).run StoreOp.exec s).1

/-- The same segments, content entries and capsules. -/
structure Alike (s u : Store P) : Prop where
  file : u.nvram.file = s.nvram.file
  seg : ∀ x, u.seg x = s.seg x
  content : ∀ hash, u.content hash = s.content hash
  capsules : u.registry.capsules = s.registry.capsules

theorem Alike.refl (s : Store P) : s.Alike s := ⟨rfl, fun _ => rfl, fun _ => rfl, rfl⟩

theorem Alike.symm {s u : Store P} (h : s.Alike u) : u.Alike s :=
  ⟨h.file.symm, fun x => (h.seg x).symm, fun hash => (h.content hash).symm, h.capsules.symm⟩

end Store

/-- The native pipeline. -/
def nativeDeletes (P : Primitives) : DeleteView (Store P) where
  has := fun id s => (s.cap id).isSome
  read := Store.readCapsule
  delete := fun id s => ((WritePipeline.deleteCapsule id).run StoreOp.exec s).2
  Orders := Order Segment
  collect := fun ord s => ((WritePipeline.garbageCollect ord).run StoreOp.exec s).2
  Same := fun u s => s.Alike u

/-! ### References that were taken back -/

/-- The segment a call takes a reference of back. -/
def StoreOp.decremented : StoreOp → Option SegmentId
  | .decrementRefcount x => some x
  | _ => none

/-- How many references of a segment the calls take back. -/
def takenBack (H : List StoreOp) (x : SegmentId) : Nat := (H.filterMap StoreOp.decremented).count x

/-- A segment with fewer references. -/
def Segment.lowered (segment : Segment) (n : Nat) : Segment :=
  { segment with
    refCount := segment.refCount - n
    deduplicated := decide (1 < segment.refCount - n) }

/-- The calls that take a reference of a segment back, which is `segment` then. -/
def Segment.releasing (segment : Segment) (x : SegmentId) : List StoreOp :=
  .decrementRefcount x :: if segment.refCount = 0 then
      (segment.contentHash.elim [] fun hash => [.deregisterContent hash x]) ++ [.removeSegment x]
    else []

/-- The calls for a list of segments, after those in `released`. -/
def Store.releaseCalls (s : Store P) : List SegmentId → List SegmentId → List StoreOp
  | _, [] => []
  | released, x :: rest =>
    ((s.seg x).elim [] fun segment => (segment.lowered (released.count x + 1)).releasing x) ++
      s.releaseCalls (x :: released) rest

/-- The calls a delete has to make. -/
def Store.deleteCalls (s : Store P) (id : CapsuleId) : List StoreOp :=
  (s.cap id).elim [] fun capsule => .deleteCapsule id :: s.releaseCalls [] capsule.segments

/-- Between commands: every segment is filed under its own identifier and has references, at least
those of the capsules. -/
structure Store.Tidy (s : Store P) : Prop where
  keyed : s.Keyed
  positive : ∀ x t, s.seg x = some t → t.refCount ≠ 0
  flagged : ∀ x t, s.seg x = some t → t.deduplicated = decide (1 < t.refCount)
  covered : ∀ x, 0 < s.occurrences x → ∃ t, s.seg x = some t ∧ s.occurrences x ≤ t.refCount

/-- `u` is `s` without a capsule and with `d x` references of each segment taken back; where none is
left, the segment and its entry may have gone or are there for a sweep to find. -/
structure Store.Lowered (s : Store P) (id : CapsuleId) (d : SegmentId → Nat) (u : Store P) :
    Prop where
  capsules : u.registry.capsules = s.registry.capsules.erase id
  file : u.nvram.file = s.nvram.file
  manager : u.keyManager = s.keyManager
  keyed : u.Keyed
  seg : ∀ x t, (u.seg x = some t ∧ t.refCount ≠ 0) ↔
    ∃ t₀, s.seg x = some t₀ ∧ d x < t₀.refCount ∧ t = t₀.lowered (d x)
  spent : ∀ x t, u.seg x = some t → t.refCount = 0 →
    ∃ t₀, s.seg x = some t₀ ∧ t.contentHash = t₀.contentHash
  content : ∀ hash x, (u.content hash = some x ∧
      ¬ ∃ t, u.seg x = some t ∧ t.refCount = 0 ∧ t.contentHash = some hash) ↔
    s.content hash = some x ∧
      ¬ ∃ t₀, s.seg x = some t₀ ∧ t₀.refCount ≤ d x ∧ t₀.contentHash = some hash

section
variable {H : List StoreOp} {s u u' : Store P} {id : CapsuleId} {d d' : SegmentId → Nat}
  {x : SegmentId} {t : Segment}

/-- A delete has something to do. -/
theorem Store.deleteCalls_ne_nil {c : Capsule} (hc : s.cap id = some c) :
    s.deleteCalls id ≠ [] := by
  rw [Store.deleteCalls, hc]
  exact List.cons_ne_nil _ _

theorem takenBack_append (H H' : List StoreOp) (x : SegmentId) :
    takenBack (H ++ H') x = takenBack H x + takenBack H' x := by
  rw [takenBack, List.filterMap_append, List.count_append]
  rfl

theorem takenBack_decrement (H : List StoreOp) (x y : SegmentId) :
    takenBack (H ++ [.decrementRefcount x]) y = takenBack H y + if y = x then 1 else 0 := by
  rw [takenBack_append]
  congr 1
  show [x].count y = _
  rw [List.count_singleton]
  by_cases hy : x = y
  · rw [if_pos (beq_iff_eq.mpr hy), if_pos hy.symm]
  · rw [if_neg (fun h => hy (beq_iff_eq.mp h)), if_neg (Ne.symm hy)]

theorem Segment.lowered_lowered (t : Segment) (m n : Nat) :
    (t.lowered m).lowered n = t.lowered (m + n) := by
  simp only [Segment.lowered, Nat.sub_sub]

namespace Store.Lowered

/-- **The capsule has left the registry.** -/
theorem start (h : s.Tidy) (hcap : u.registry.capsules = s.registry.capsules.erase id)
    (hn : u.nvram = s.nvram) (hk : u.keyManager = s.keyManager)
    (hc : u.registry.contentStore = s.registry.contentStore) :
    s.Lowered id (fun _ => 0) u := by
  have hseg : ∀ y, u.seg y = s.seg y := fun y => by rw [Store.seg, Store.seg, hn]
  have hself : ∀ y t, s.seg y = some t → t.lowered 0 = t := fun y t ht => by
    rw [Segment.lowered, Nat.sub_zero, ← h.flagged y t ht]
  refine ⟨hcap, by rw [hn], hk, fun y t ht => h.keyed y t (hseg y ▸ ht), fun y t => ?_,
    fun y t ht h0 => absurd h0 (h.positive y t (hseg y ▸ ht)), fun hash y => ?_⟩
  · rw [hseg]
    constructor
    · rintro ⟨ht, h0⟩
      exact ⟨t, ht, Nat.pos_of_ne_zero h0, (hself y t ht).symm⟩
    · rintro ⟨t₀, ht, hpos, rfl⟩
      rw [hself y t₀ ht]
      exact ⟨ht, Nat.ne_of_gt hpos⟩
  · have hcont : u.content hash = s.content hash := by rw [Store.content, Store.content, hc]
    rw [hcont, hseg]
    refine and_congr_right fun _ => not_congr (exists_congr fun t => and_congr_right fun _ => ?_)
    exact and_congr_left fun _ => Nat.le_zero.symm

/-- What is there with references is what is left of it. -/
theorem left (h : s.Lowered id d u) (ht : u.seg x = some t) (h0 : t.refCount ≠ 0) :
    ∃ t₀, s.seg x = some t₀ ∧ d x < t₀.refCount ∧ t = t₀.lowered (d x) :=
  (h.seg x t).mp ⟨ht, h0⟩

/-- What is there without references had no more than were taken back. -/
theorem le (h : s.Lowered id d u) (ht : u.seg x = some t) (h0 : t.refCount = 0) :
    ∃ t₀, s.seg x = some t₀ ∧ t₀.refCount ≤ d x ∧ t.contentHash = t₀.contentHash := by
  obtain ⟨t₀, ht₀, hhash⟩ := h.spent x t ht h0
  refine ⟨t₀, ht₀, Nat.le_of_not_lt fun hlt => ?_, hhash⟩
  obtain ⟨hseg, hne⟩ := (h.seg x (t₀.lowered (d x))).mpr ⟨t₀, ht₀, hlt, rfl⟩
  rw [ht, Option.some.injEq] at hseg
  exact hne (hseg ▸ h0)

/-- **A reference is taken back.** -/
theorem decrement (h : s.Lowered id d u) (ht : u.seg x = some t) (h0 : t.refCount ≠ 0)
    (hreg : u'.registry = u.registry) (hf : u'.nvram.file = u.nvram.file)
    (hk : u'.keyManager = u.keyManager)
    (hseg : ∀ y, u'.seg y = if y = x then some (t.lowered 1) else u.seg y)
    (hd : ∀ y, d' y = d y + if y = x then 1 else 0) : s.Lowered id d' u' := by
  obtain ⟨t₀, ht₀, hlt, hlow⟩ := h.left ht h0
  have hx : u'.seg x = some (t₀.lowered (d' x)) := by
    rw [hseg, if_pos rfl, hlow, Segment.lowered_lowered, hd, if_pos rfl]
  have hother : ∀ y, y ≠ x → u'.seg y = u.seg y ∧ d' y = d y := fun y hy =>
    ⟨by rw [hseg, if_neg hy], by rw [hd, if_neg hy, Nat.add_zero]⟩
  have hcount : (t₀.lowered (d' x)).refCount = t₀.refCount - d' x := rfl
  refine ⟨by rw [hreg, h.capsules], hf.trans h.file, hk.trans h.manager, fun y t' ht' => ?_,
    fun y t' => ?_, fun y t' ht' h0' => ?_, fun hash y => ?_⟩
  · by_cases hy : y = x
    · subst hy
      rw [hx, Option.some.injEq] at ht'
      rw [← ht']
      have hid := h.keyed y t ht
      rw [hlow] at hid
      exact hid
    · exact h.keyed y t' ((hother y hy).1 ▸ ht')
  · by_cases hy : y = x
    · subst hy
      rw [hx, Option.some.injEq]
      constructor
      · rintro ⟨rfl, hne⟩
        exact ⟨t₀, ht₀, Nat.lt_of_sub_ne_zero (hcount ▸ hne), rfl⟩
      · rintro ⟨t₁, ht₁, hlt₁, rfl⟩
        rw [ht₀, Option.some.injEq] at ht₁
        subst ht₁
        exact ⟨rfl, Nat.sub_ne_zero_of_lt hlt₁⟩
    · rw [(hother y hy).1, (hother y hy).2]
      exact h.seg y t'
  · by_cases hy : y = x
    · subst hy
      rw [hx, Option.some.injEq] at ht'
      exact ⟨t₀, ht₀, ht' ▸ rfl⟩
    · exact h.spent y t' ((hother y hy).1 ▸ ht') h0'
  · have hcont : u'.content hash = u.content hash := by rw [Store.content, Store.content, hreg]
    rw [hcont]
    by_cases hy : y = x
    · subst hy
      have hsame : u.content hash = some y ↔ s.content hash = some y := by
        constructor
        · intro hu
          refine ((h.content hash y).mp ⟨hu, ?_⟩).1
          rintro ⟨t', ht', h0', -⟩
          rw [ht, Option.some.injEq] at ht'
          exact h0 (ht' ▸ h0')
        · intro hs
          refine ((h.content hash y).mpr ⟨hs, ?_⟩).1
          rintro ⟨t₁, ht₁, hle, -⟩
          rw [ht₀, Option.some.injEq] at ht₁
          subst ht₁
          exact absurd hlt (Nat.not_lt_of_le hle)
      rw [hsame, hx]
      refine and_congr_right fun _ => not_congr ⟨?_, ?_⟩
      · rintro ⟨t', ht', h0', hh⟩
        rw [Option.some.injEq] at ht'
        subst ht'
        exact ⟨t₀, ht₀, Nat.le_of_sub_eq_zero (hcount ▸ h0'), hh⟩
      · rintro ⟨t₁, ht₁, hle, hh⟩
        rw [ht₀, Option.some.injEq] at ht₁
        subst ht₁
        exact ⟨_, rfl, Nat.sub_eq_zero_of_le hle, hh⟩
    · rw [(hother y hy).1, (hother y hy).2]
      exact h.content hash y

/-- **The entry of a spent segment goes.** -/
theorem deregister {hash : ContentHash} (h : s.Lowered id d u) (ht : u.seg x = some t)
    (h0 : t.refCount = 0) (hh : t.contentHash = some hash) :
    s.Lowered id d { u with registry := (u.registry.deregisterContent hash x).2 } := by
  have hcap := u.registry.deregisterContent_capsules hash x
  refine ⟨hcap.trans h.capsules, h.file, h.manager, h.keyed, h.seg, h.spent, fun hash' y => ?_⟩
  rw [← h.content hash' y]
  show (_ ∧ ¬ ∃ t', u.seg y = some t' ∧ _) ↔ _
  constructor
  · rintro ⟨hc, hn⟩
    exact ⟨(WritePipeline.content_deregister.mp hc).1, hn⟩
  · rintro ⟨hc, hn⟩
    refine ⟨WritePipeline.content_deregister.mpr ⟨hc, ?_⟩, hn⟩
    rintro ⟨rfl, rfl⟩
    exact hn ⟨t, ht, h0, hh⟩

/-- **A spent segment without an entry goes.** -/
theorem remove (h : s.Lowered id d u) (ht : u.seg x = some t) (h0 : t.refCount = 0)
    (hh : ∀ hash, t.contentHash = some hash → u.content hash ≠ some x) :
    s.Lowered id d { u with nvram := (u.nvram.removeSegment x).2 } := by
  have hseg : ∀ y, Store.seg { u with nvram := (u.nvram.removeSegment x).2 } y =
      if y = x then none else u.seg y := by
    intro y
    exact NvramLog.removeSegment_lookup _ _ _
  have hold : ∀ y t', Store.seg { u with nvram := (u.nvram.removeSegment x).2 } y = some t' →
      y ≠ x ∧ u.seg y = some t' := by
    intro y t' ht'
    rw [hseg] at ht'
    by_cases hy : y = x
    · rw [if_pos hy] at ht'
      cases ht'
    · rw [if_neg hy] at ht'
      exact ⟨hy, ht'⟩
  refine ⟨h.capsules, (NvramLog.removeSegment_file _ x).trans h.file, h.manager,
    fun y t' ht' => h.keyed y t' (hold y t' ht').2, fun y t' => ?_,
    fun y t' ht' => h.spent y t' (hold y t' ht').2, fun hash y => ?_⟩
  · rw [← h.seg y t']
    constructor
    · rintro ⟨ht', hne⟩
      exact ⟨(hold y t' ht').2, hne⟩
    · rintro ⟨ht', hne⟩
      refine ⟨?_, hne⟩
      rw [hseg, if_neg, ht']
      rintro rfl
      rw [ht, Option.some.injEq] at ht'
      exact hne (ht' ▸ h0)
  · rw [← h.content hash y]
    show (u.content hash = some y ∧ _) ↔ _
    refine and_congr_right fun hc => not_congr ⟨?_, ?_⟩
    · rintro ⟨t', ht', hrest⟩
      exact ⟨t', (hold y t' ht').2, hrest⟩
    · rintro ⟨t', ht', h0', hh'⟩
      have hy : y ≠ x := by
        rintro rfl
        rw [ht, Option.some.injEq] at ht'
        exact hh hash (ht' ▸ hh') hc
      exact ⟨t', by rw [hseg, if_neg hy, ht'], h0', hh'⟩

end Store.Lowered

/-! ### The delete -/

namespace WritePipeline

/-- Between any two calls of a delete: nothing was done yet, or the capsule has gone. -/
def Deleting (s : Store P) (id : CapsuleId) (H : List StoreOp) (u : Store P) : Prop :=
  H = [] ∧ u = s ∨ H ≠ [] ∧ s.Lowered id (takenBack H) u

/-- No segment is left to be swept. -/
def Swept (u : Store P) : Prop := ∀ x t, u.seg x = some t → t.refCount ≠ 0

/-- **One segment of the list.** -/
theorem wp_releaseSegment_lowered {t : Segment}
    {Q : Except Error Unit → Store P × List StoreOp → Prop}
    (hH : H ≠ []) (h : s.Lowered id (takenBack H) u) (hu : Swept u) (ht : u.seg x = some t)
    (hq : ∀ u' H', H' = H ++ (t.lowered 1).releasing x → s.Lowered id (takenBack H') u' →
      Swept u' → (∀ y, takenBack H' y = takenBack H y + if y = x then 1 else 0) →
      Q (.ok ()) (u', H')) :
    (releaseSegment x).wp (StoreOp.exec (P := P)).traced.moves
      (fun _ v => Deleting s id v.2 v.1) Q (u, H) := by
  have h0 := hu x t ht
  have hl : u.nvram.segmentMap.lookup x = some t := ht
  have hdec : u.nvram.decrementRefcount x =
      (.ok (t.lowered 1), u.nvram.withMap (u.nvram.segmentMap.insert x (t.lowered 1))) := by
    unfold NvramLog.decrementRefcount
    rw [hl]
    exact if_neg h0
  set u₁ : Store P :=
    { u with nvram := u.nvram.withMap (u.nvram.segmentMap.insert x (t.lowered 1)) } with hu₁
  have hexec : StoreOp.exec (.decrementRefcount x) u = (.ok (t.lowered 1), u₁) := by
    simp only [StoreOp.exec, hdec]
    rfl
  set H₁ : List StoreOp := H ++ [.decrementRefcount x] with hH₁
  have hseg₁ : ∀ y, u₁.seg y = if y = x then some (t.lowered 1) else u.seg y := fun y =>
    Table.lookup_insert _ _ _ _
  have hH₁ne : H₁ ≠ [] := List.append_ne_nil_of_left_ne_nil hH _
  have h₁ : s.Lowered id (takenBack H₁) u₁ :=
    h.decrement ht h0 rfl rfl rfl hseg₁ (takenBack_decrement H x)
  have hx₁ : u₁.seg x = some (t.lowered 1) := (hseg₁ x).trans (if_pos rfl)
  have hJ : Deleting s id H u := .inr ⟨hH, h⟩
  refine wp_bind.mpr (wp_tracedOp (S := StoreSig) (.decrementRefcount x) hJ ?_)
  rw [hexec]
  show Prog.wp _ _ _ (if (t.lowered 1).refCount = 0 then _ else _) (u₁, H₁)
  by_cases hz : (t.lowered 1).refCount = 0
  · rw [if_pos hz]
    -- the last reference: the entry goes, and then the segment
    have hlast : ∀ u₂ H₂, H₂ ≠ [] → H₂ ++ [.removeSegment x] = H ++ (t.lowered 1).releasing x →
        (∀ y, takenBack H₂ y = takenBack H₁ y) → s.Lowered id (takenBack H₂) u₂ →
        (∀ y, u₂.seg y = u₁.seg y) →
        (∀ hash, (t.lowered 1).contentHash = some hash → u₂.content hash ≠ some x) →
        (discard (Native.removeSegment x) : Native Unit).wp (StoreOp.exec (P := P)).traced.moves
          (fun _ v => Deleting s id v.2 v.1) Q (u₂, H₂) := by
      intro u₂ H₂ hne₂ hcalls₂ htb₂ h₂ hseg₂ hc₂
      have hx₂ := (hseg₂ x).trans hx₁
      have hJ₂ : Deleting s id H₂ u₂ := .inr ⟨hne₂, h₂⟩
      refine wp_discard.mpr (wp_tracedOp (S := StoreSig) (.removeSegment x) hJ₂ ?_)
      have htb₃ : ∀ y, takenBack (H₂ ++ [StoreOp.removeSegment x]) y = takenBack H₂ y := fun y => by
        rw [takenBack_append]
        rfl
      refine hq _ _ hcalls₂ ?_ ?_ fun y => ?_
      · rw [show takenBack (H₂ ++ [.removeSegment x]) = takenBack H₂ from funext htb₃]
        exact h₂.remove hx₂ hz hc₂
      · intro y t' ht'
        have hy : (u₂.nvram.removeSegment x).2.segmentMap.lookup y = some t' := ht'
        obtain ⟨hne, hy⟩ := NvramLog.removeSegment_lookup_eq_some.mp hy
        have hy₁ : u₁.seg y = some t' := (hseg₂ y).symm.trans hy
        rw [hseg₁, if_neg hne] at hy₁
        exact hu y t' hy₁
      · rw [htb₃, htb₂, takenBack_decrement]
    cases hh : (t.lowered 1).contentHash with
    | none =>
        refine hlast u₁ H₁ hH₁ne ?_ (fun _ => rfl) h₁ (fun _ => rfl) fun hash hk => ?_
        · rw [hH₁, Segment.releasing, if_pos hz, hh, List.append_assoc]
          rfl
        · rw [hh] at hk
          cases hk
    | some hash =>
        have hJ₁ : Deleting s id H₁ u₁ := .inr ⟨hH₁ne, h₁⟩
        refine wp_bind.mpr (wp_discard.mpr (wp_tracedOp (S := StoreSig)
          (.deregisterContent hash x) hJ₁ ?_))
        refine hlast { u₁ with registry := (u₁.registry.deregisterContent hash x).2 }
          (H₁ ++ [.deregisterContent hash x]) (List.append_ne_nil_of_left_ne_nil hH₁ne _) ?_
          (fun y => ?_) ?_ (fun _ => rfl) ?_
        · rw [hH₁, Segment.releasing, if_pos hz, hh, List.append_assoc, List.append_assoc]
          rfl
        · rw [takenBack_append]
          rfl
        · rw [show takenBack (H₁ ++ [.deregisterContent hash x]) = takenBack H₁ from
            funext fun y => by rw [takenBack_append]; rfl]
          exact h₁.deregister hx₁ hz hh
        · intro hash' hk hc
          rw [hh, Option.some.injEq] at hk
          subst hk
          exact (content_deregister.mp hc).2 ⟨rfl, rfl⟩
  · rw [if_neg hz]
    refine hq u₁ H₁ ?_ h₁ (fun y t' ht' => ?_) (takenBack_decrement H x)
    · rw [Segment.releasing, if_neg hz]
    by_cases hy : y = x
    · subst hy
      rw [hx₁, Option.some.injEq] at ht'
      exact ht' ▸ hz
    · rw [hseg₁, if_neg hy] at ht'
      exact hu y t' ht'

/-- The counts cover what the capsule lists. -/
theorem count_le_refCount {c : Capsule} (hs : s.Tidy) (hc : s.cap id = some c)
    (hx : x ∈ c.segments) :
    ∃ t, s.seg x = some t ∧ c.segments.count x ≤ t.refCount := by
  have hle : c.segments.count x ≤ s.occurrences x :=
    Table.le_total (fun c : Capsule => c.segments.count x) hc
  obtain ⟨t, ht, hcov⟩ := hs.covered x (Nat.lt_of_lt_of_le (List.count_pos_iff.mpr hx) hle)
  exact ⟨t, ht, hle.trans hcov⟩

/-- **The delete, between any two of its calls.** -/
theorem wp_deleteCapsule_lowered {c : Capsule} (hs : s.Tidy) (hc : s.cap id = some c) :
    (deleteCapsule id).wp (StoreOp.exec (P := P)).traced.moves
      (fun _ v => Deleting s id v.2 v.1)
      (fun r v => r = .ok () ∧ v.2 = s.deleteCalls id ∧ s.Lowered id (takenBack v.2) v.1 ∧
        Swept v.1 ∧ ∀ y, takenBack v.2 y = c.segments.count y) (s, []) := by
  have hl : s.registry.capsules.lookup id = some c := hc
  set u₁ : Store P := { s with registry :=
    ({ s.registry with capsules := s.registry.capsules.erase id } : CapsuleRegistry).save } with hu₁
  have hexec : StoreOp.exec (.deleteCapsule id) s = (.ok c, u₁) := by
    simp only [StoreOp.exec, CapsuleRegistry.deleteCapsule_of_some hl]
    rfl
  have hJ : Deleting s id [] s := .inl ⟨rfl, rfl⟩
  refine wp_bind.mpr (wp_tracedOp (S := StoreSig) (.deleteCapsule id) hJ ?_)
  rw [hexec]
  have h₁ : s.Lowered id (takenBack [.deleteCapsule id]) u₁ := .start hs rfl rfl rfl rfl
  have hswept : Swept u₁ := hs.positive
  refine wp_foldlM (fun rest _ v => v.2 ≠ [] ∧ s.Lowered id (takenBack v.2) v.1 ∧ Swept v.1 ∧
    (∀ y ∈ rest, y ∈ c.segments) ∧ ∃ released : List SegmentId,
      (∀ y, takenBack v.2 y = released.count y) ∧
      (∀ y, released.count y + rest.count y = c.segments.count y) ∧
      v.2 ++ s.releaseCalls released rest = s.deleteCalls id)
    ?_ ?_ _ _ _ ⟨List.cons_ne_nil _ _, h₁, hswept, fun _ hy => hy, [], fun _ => rfl,
      fun _ => Nat.zero_add _, ?_⟩
  · rintro x rest ⟨⟩ ⟨u, H⟩ ⟨hH, h, hu, hmem, released, htb, hn, hcalls⟩
    -- the reference to take back is one of those the capsule accounts for
    obtain ⟨t₀, ht₀, hle⟩ := count_le_refCount hs hc (hmem x List.mem_cons_self)
    have hlt : takenBack H x < t₀.refCount := by
      have hx := hn x
      have htx : takenBack H x = released.count x := htb x
      rw [List.count_cons_self] at hx
      omega
    obtain ⟨ht, -⟩ := (h.seg x _).mpr ⟨t₀, ht₀, hlt, rfl⟩
    refine wp_releaseSegment_lowered hH h hu ht fun u' H' hH' h' hu' htb' =>
      ⟨?_, h', hu', fun y hy => hmem y (List.mem_cons_of_mem _ hy), x :: released, fun y => ?_,
        fun y => ?_, ?_⟩
    · rw [hH']
      exact List.append_ne_nil_of_left_ne_nil hH _
    · rw [htb', List.count_cons]
      have hty : takenBack H y = released.count y := htb y
      rw [hty]
      congr 1
      by_cases hy : y = x
      · rw [if_pos hy, if_pos (beq_iff_eq.mpr hy.symm)]
      · rw [if_neg hy, if_neg (fun k => hy (beq_iff_eq.mp k).symm)]
    · rw [← hn y, List.count_cons, List.count_cons, Nat.add_right_comm, Nat.add_assoc]
    · have hx : takenBack H x = released.count x := htb x
      rw [hH', Segment.lowered_lowered, hx, List.append_assoc, ← hcalls, Store.releaseCalls, ht₀]
      rfl
  · rintro ⟨⟩ ⟨u, H⟩ ⟨hH, h, hu, -, released, htb, hn, hcalls⟩
    refine ⟨rfl, ?_, h, hu, fun y => (htb y).trans (hn y)⟩
    rw [Store.releaseCalls, List.append_nil] at hcalls
    exact hcalls
  · rw [Store.deleteCalls, hc]
    rfl

/-- A delete gives up at an error. -/
theorem givesUp_deleteCapsule (id : CapsuleId) :
    (deleteCapsule id).GivesUp fun _ => False := by
  refine givesUp_bind givesUp_perform fun c => givesUp_foldlM (fun _ x => ?_) _ _
  refine givesUp_bind givesUp_perform fun (t : Segment) => ?_
  show GivesUp _ (if t.refCount = 0 then _ else _)
  split
  · cases t.contentHash with
    | none => exact givesUp_discard givesUp_perform
    | some hash =>
        exact givesUp_bind (givesUp_discard givesUp_perform) fun _ =>
          givesUp_discard givesUp_perform
  · trivial

end WritePipeline

/-! ### Reading -/

/-- The segments of a list are the same to a reader. -/
structure Store.ReadsAlike (l : List SegmentId) (s u : Store P) : Prop where
  manager : u.keyManager = s.keyManager
  file : u.nvram.file = s.nvram.file
  seg : ∀ y ∈ l, ∃ t n b, s.seg y = some t ∧
    u.seg y = some { t with refCount := n, deduplicated := b }

/-- The key, and what the manager has cached then, is a matter of the manager. -/
theorem Store.getKey_determined (keyVersion : Option UInt32) (km₀ : Option (KeyManager P)) :
    ∃ r km, ∀ v : Store P, v.keyManager = km₀ →
      v.getKey keyVersion = (r, { v with keyManager := km }) := by
  have hsame : ∀ v : Store P, v.keyManager = km₀ → v = { v with keyManager := km₀ } :=
    fun v hk => by rw [← hk]
  cases km₀ with
  | none =>
      refine ⟨.error (.msg "Cannot decrypt: key manager not initialized"), none, fun v hk => ?_⟩
      rw [Store.getKey, hk]
      exact congrArg (Prod.mk _) (hsame v hk)
  | some km =>
      cases keyVersion with
      | none =>
          refine ⟨.error (.msg "Missing key version in encrypted segment"), some km,
            fun v hk => ?_⟩
          rw [Store.getKey, hk]
          exact congrArg (Prod.mk _) (hsame v hk)
      | some version => exact ⟨_, some (km.getKey version).2, fun v hk => by rw [Store.getKey, hk]⟩

namespace WritePipeline

/-- What a segment reads as, and what the manager has cached then, is a matter of the manager, the
stored bytes and the metadata without its references. -/
theorem readSegment_determined (policy : Policy) (x : SegmentId) (km₀ : Option (KeyManager P))
    (raw : Except Error Bytes) (t : Segment) : ∃ r km, ∀ v : Store P, v.keyManager = km₀ →
      v.nvram.read x = raw →
      (∃ n b, v.nvram.getSegmentMetadata x = .ok { t with refCount := n, deduplicated := b }) →
      (readSegment P policy x).run StoreOp.exec v = (r, { v with keyManager := km }) := by
  have hrun : ∀ {v : Store P} {r km}, (readSegment P policy x).wp (StoreOp.exec (P := P)).moves
      (fun _ _ => True) (fun r' v' => r' = r ∧ v' = { v with keyManager := km }) v →
      (readSegment P policy x).run StoreOp.exec v = (r, { v with keyManager := km }) := by
    intro v r km hw
    have h := wp_run (Q := fun r' (v' : Store P) => r' = r ∧ v' = { v with keyManager := km }) hw
    exact Prod.ext h.1 h.2
  cases raw with
  | error e =>
      refine ⟨.error e, km₀, fun v hk hr _ => hrun ?_⟩
      refine wp_bind.mpr (wp_storeOp (.read x) ?_)
      show andThen _ _ _ _ (v.nvram.read x) v
      rw [hr]
      exact ⟨rfl, by rw [← hk]⟩
  | ok raw =>
      -- the two answers of the log, and what is done with them
      have hdata : ∀ {v : Store P} {Q : Except Error Bytes → Store P → Prop},
          v.nvram.read x = .ok raw →
          (∃ n b, v.nvram.getSegmentMetadata x =
            .ok { t with refCount := n, deduplicated := b }) →
          Prog.wp (StoreOp.exec (P := P)).moves (fun _ _ => True) Q (do
            let decryptedData ← if t.encrypted then do
                let keyPair ← Native.getKey t.keyVersion
                let encMeta := t.encryptionMetadata raw
                Prog.lift ((verifyMac P raw encMeta keyPair.key1 keyPair.key2).mapError .enc)
                Prog.lift ((decryptSegment P raw keyPair encMeta).mapError .enc)
              else pure raw
            return decompressByPolicy P policy.compression decryptedData) v →
          (readSegment P policy x).wp (StoreOp.exec (P := P)).moves (fun _ _ => True) Q v := by
        rintro v Q hr ⟨n, b, hm⟩ hw
        refine wp_bind.mpr (wp_storeOp (.read x) ?_)
        show andThen _ _ _ _ (v.nvram.read x) v
        rw [hr]
        refine wp_bind.mpr (wp_storeOp (.getSegmentMetadata x) ?_)
        show andThen _ _ _ _ (v.nvram.getSegmentMetadata x) v
        rw [hm]
        exact hw
      by_cases he : t.encrypted = true
      · obtain ⟨key, km, hkey⟩ := Store.getKey_determined t.keyVersion km₀
        cases key with
        | error e =>
            refine ⟨.error e, km, fun v hk hr hm => hrun (hdata hr hm ?_)⟩
            rw [if_pos he]
            refine wp_bind.mpr (wp_storeOp (.getKey t.keyVersion) ?_)
            show andThen _ _ _ _ (v.getKey t.keyVersion).1 (v.getKey t.keyVersion).2
            rw [hkey v hk]
            exact ⟨rfl, rfl⟩
        | ok keyPair =>
            -- from here on the store is not asked again
            let encMeta := t.encryptionMetadata raw
            let opened := (verifyMac P raw encMeta keyPair.key1 keyPair.key2).mapError Error.enc >>=
              fun _ => (decryptSegment P raw keyPair encMeta).mapError .enc
            refine ⟨opened.map (decompressByPolicy P policy.compression), km,
              fun v hk hr hm => hrun (hdata hr hm ?_)⟩
            rw [if_pos he]
            refine wp_bind.mpr (wp_storeOp (.getKey t.keyVersion) ?_)
            show andThen _ _ _ _ (v.getKey t.keyVersion).1 (v.getKey t.keyVersion).2
            rw [hkey v hk]
            refine wp_bind.mpr (wp_lift.mpr ?_)
            simp only [opened]
            cases (verifyMac P raw encMeta keyPair.key1 keyPair.key2).mapError Error.enc with
            | error e => exact ⟨rfl, rfl⟩
            | ok _ =>
                refine wp_bind.mpr (wp_lift.mpr ?_)
                cases (decryptSegment P raw keyPair encMeta).mapError Error.enc with
                | error e => exact ⟨rfl, rfl⟩
                | ok data => exact ⟨rfl, rfl⟩
      · refine ⟨.ok (decompressByPolicy P policy.compression raw), km₀,
          fun v hk hr hm => hrun (hdata hr hm ?_)⟩
        rw [if_neg he]
        exact ⟨rfl, by rw [← hk]⟩

/-- A segment reads alike, and leaves the two stores alike. -/
theorem readSegment_alike {l : List SegmentId} (h : Store.ReadsAlike l s u) (hx : x ∈ l)
    (policy : Policy) : ∃ r km,
      (readSegment P policy x).run StoreOp.exec s = (r, { s with keyManager := km }) ∧
      (readSegment P policy x).run StoreOp.exec u = (r, { u with keyManager := km }) := by
  obtain ⟨t, n, b, hs, hu⟩ := h.seg x hx
  have hls : s.nvram.segmentMap.lookup x = some t := hs
  have hlu : u.nvram.segmentMap.lookup x = some { t with refCount := n, deduplicated := b } := hu
  have hraw : u.nvram.read x = s.nvram.read x := by
    rw [NvramLog.read, NvramLog.read, hls, hlu, h.file]
  obtain ⟨r, km, hr⟩ := readSegment_determined policy x s.keyManager (s.nvram.read x) t
  refine ⟨r, km, hr s rfl rfl ⟨t.refCount, t.deduplicated, ?_⟩, hr u h.manager hraw ⟨n, b, ?_⟩⟩
  · rw [NvramLog.getSegmentMetadata, hls]
  · rw [NvramLog.getSegmentMetadata, hlu]

/-- A list reads alike. -/
theorem readSegments_alike (policy : Policy) : ∀ (l : List SegmentId) (result : Bytes)
    {s u : Store P}, Store.ReadsAlike l s u →
    ((l.foldlM (fun result segId => do
      let data ← readSegment P policy segId
      return result ++ data) result).run StoreOp.exec u).1 =
    ((l.foldlM (fun result segId => do
      let data ← readSegment P policy segId
      return result ++ data) result).run StoreOp.exec s).1
  | [], _, _, _, _ => rfl
  | x :: l, result, s, u, h => by
      obtain ⟨r, km, hs, hu⟩ := readSegment_alike h List.mem_cons_self policy
      have hrest : Store.ReadsAlike l { s with keyManager := km } { u with keyManager := km } :=
        ⟨rfl, h.file, fun y hy => h.seg y (List.mem_cons_of_mem _ hy)⟩
      rw [List.foldlM_cons, run_bind, run_bind, run_bind, run_bind, hs, hu]
      cases r with
      | error e => rfl
      | ok data => exact readSegments_alike policy l (result ++ data) hrest

/-- **A capsule reads alike.** -/
theorem readCapsule_alike {c : Capsule} (hs : s.cap id = some c) (hu : u.cap id = some c)
    (h : Store.ReadsAlike c.segments s u) : u.readCapsule id = s.readCapsule id := by
  have hlookup : ∀ {v : Store P}, v.cap id = some c → v.readCapsule id =
      ((c.segments.foldlM (fun result segId => do
        let data ← readSegment P c.policy segId
        return result ++ data) []).run StoreOp.exec v).1 := by
    intro v hv
    have hl : v.registry.lookup id = .ok c := by
      have hc : v.registry.capsules.lookup id = some c := hv
      rw [CapsuleRegistry.lookup, hc]
    have hexec : (Native.lookup id).run (StoreOp.exec (P := P)) v = (.ok c, v) :=
      (run_perform (S := StoreSig) StoreOp.exec (.lookup id) v).trans
        (congrArg (fun r => (r, v)) hl)
    rw [Store.readCapsule, readCapsule, run_bind, hexec]
  rw [hlookup hs, hlookup hu]
  exact readSegments_alike c.policy c.segments [] h

end WritePipeline

/-! ### Making up for it -/

/-- What a sweep calls. -/
def StoreOp.Sweeps : StoreOp → Prop
  | .listSegments _ => True
  | .deregisterContent _ _ => True
  | .removeSegment _ => True
  | _ => False

theorem StoreOp.Sweeps.leaves {o : StoreOp} (ho : o.Sweeps) (s : Store P) :
    (o.exec s).2.nvram.file = s.nvram.file ∧ (o.exec s).2.keyManager = s.keyManager := by
  cases o with
  | listSegments => exact ⟨rfl, rfl⟩
  | deregisterContent => exact ⟨rfl, rfl⟩
  | removeSegment y => exact ⟨NvramLog.removeSegment_file _ _, rfl⟩
  | _ => exact ho.elim

namespace WritePipeline

/-- **A sweep takes away what no reference is left of.** -/
theorem garbageCollect_lowered (h : s.Lowered id d u) (ord : Order Segment) :
    s.Lowered id d ((garbageCollect ord).run StoreOp.exec u).2 ∧
      Swept ((garbageCollect ord).run StoreOp.exec u).2 := by
  have hleaves := run_keeps (h := StoreOp.exec (P := P)) (A := StoreOp.Sweeps)
    (p := garbageCollect ord)
    (I := fun v => v.nvram.file = u.nvram.file ∧ v.keyManager = u.keyManager)
    (fun o v ho hv => ⟨(ho.leaves v).1.trans hv.1, (ho.leaves v).2.trans hv.2⟩)
    (uses_sweep (fun _ => trivial) (fun _ _ => trivial) (fun _ => trivial) ord)
    (s := u) ⟨rfl, rfl⟩
  have hsweep : (garbageCollect ord).wp (StoreOp.exec (P := P)).moves (fun _ _ => True)
      (fun _ v => SameCapsules u v ∧
        (∀ x t, v.seg x = some t ↔ u.seg x = some t ∧ t.refCount ≠ 0) ∧
        ∀ hash x, v.content hash = some x ↔ u.content hash = some x ∧
          ¬ ∃ t, u.seg x = some t ∧ t.refCount = 0 ∧ t.contentHash = some hash) u :=
    wp_sweep h.keyed fun n v hcap hseg hcont => ⟨hcap, hseg, hcont⟩
  obtain ⟨hcap, hseg, hcont⟩ := wp_run hsweep
  set v := ((garbageCollect ord).run StoreOp.exec u).2 with hv
  have hswept : Swept v := fun x t ht => ((hseg x t).mp ht).2
  refine ⟨⟨hcap.trans h.capsules, hleaves.1.trans h.file, hleaves.2.trans h.manager,
    fun x t ht => h.keyed x t ((hseg x t).mp ht).1, fun x t => ?_,
    fun x t ht h0 => absurd h0 (hswept x t ht), fun hash x => ?_⟩, hswept⟩
  · rw [hseg, and_assoc, and_self, h.seg]
  · rw [← h.content hash x, ← hcont]
    exact and_iff_left fun ⟨t, ht, h0, _⟩ => hswept x t ht h0

/-- Where nothing is left to be swept, the references taken back say what is there. -/
theorem lowered_alike {v : Store P} (h : s.Lowered id d u) (h' : s.Lowered id d v) (hu : Swept u)
    (hv : Swept v) : u.Alike v := by
  have hseg : ∀ {w : Store P} {x t}, Swept w →
      (w.seg x = some t ↔ w.seg x = some t ∧ t.refCount ≠ 0) := fun hw =>
    ⟨fun ht => ⟨ht, hw _ _ ht⟩, And.left⟩
  have hcont : ∀ {w : Store P} {hash x}, Swept w → (w.content hash = some x ↔
      w.content hash = some x ∧
        ¬ ∃ t, w.seg x = some t ∧ t.refCount = 0 ∧ t.contentHash = some hash) := fun hw =>
    ⟨fun hc => ⟨hc, fun ⟨t, ht, h0, _⟩ => hw _ t ht h0⟩, And.left⟩
  refine ⟨h'.file.trans h.file.symm, fun x => Option.ext fun t => ?_,
    fun hash => Option.ext fun x => ?_, h'.capsules.trans h.capsules.symm⟩
  · rw [hseg hv, hseg hu, h.seg, h'.seg]
  · rw [hcont hv, hcont hu, h.content, h'.content]

/-- What is there says how many references were taken back. -/
theorem alike_lowered {v : Store P} (h : s.Lowered id d u) (h' : s.Lowered id d' v)
    (ha : u.Alike v) (ht : s.seg x = some t) (hd : d x ≤ d' x) (hd' : d' x ≤ t.refCount) :
    d x = d' x := by
  by_contra hne
  obtain ⟨hu, h0⟩ := (h.seg x (t.lowered (d x))).mpr ⟨t, ht, by omega, rfl⟩
  have hv : v.seg x = some (t.lowered (d x)) := (ha.seg x).trans hu
  obtain ⟨t₁, ht₁, hlt, hlow⟩ := h'.left hv h0
  rw [ht, Option.some.injEq] at ht₁
  subst ht₁
  have hcount : t.refCount - d x = t.refCount - d' x := congrArg Segment.refCount hlow
  omega

/-! ### The delete that fails -/

/-- The store after the first calls of a delete. -/
def deletedUpTo (id : CapsuleId) (s : Store P) (j : Nat) : Store P :=
  (deleteCapsule id).after StoreOp.exec j s

variable {c : Capsule} {j : Nat}

/-- A delete that nothing interrupts. -/
theorem deleteCapsule_lowered (hs : s.Tidy) (hc : s.cap id = some c) :
    ((deleteCapsule id).run StoreOp.exec s).1 = .ok () ∧
      (deleteCapsule id).trace StoreOp.exec s = s.deleteCalls id ∧
      s.Lowered id (takenBack (s.deleteCalls id)) ((deleteCapsule id).run StoreOp.exec s).2 ∧
      Swept ((deleteCapsule id).run StoreOp.exec s).2 ∧
      ∀ y, takenBack (s.deleteCalls id) y = c.segments.count y := by
  obtain ⟨hok, hcalls, hlow, hswept, hcount⟩ := wp_trace (wp_deleteCapsule_lowered hs hc)
  have hcalls : (deleteCapsule id).trace StoreOp.exec s = s.deleteCalls id := hcalls
  rw [List.nil_append, hcalls] at hlow hcount
  exact ⟨hok, hcalls, hlow, hswept, hcount⟩

/-- A delete after some of its calls. -/
theorem deletedUpTo_deleting (hs : s.Tidy) (hc : s.cap id = some c)
    (hj : j ≤ (s.deleteCalls id).length) :
    Deleting s id ((s.deleteCalls id).take j) (deletedUpTo id s j) := by
  obtain ⟨-, hcalls, hlow, -⟩ := deleteCapsule_lowered hs hc
  rcases Nat.lt_or_eq_of_le hj with hlt | rfl
  · rw [← hcalls] at hlt ⊢
    exact wp_after (wp_deleteCapsule_lowered hs hc) hlt
  · have hend : deletedUpTo id s (s.deleteCalls id).length =
        ((deleteCapsule id).run StoreOp.exec s).2 := after_of_length_le (by rw [hcalls])
    rw [List.take_length, hend]
    exact .inr ⟨Store.deleteCalls_ne_nil hc, hlow⟩

/-- No more is taken back than the capsule accounts for. -/
theorem takenBack_take_le (hs : s.Tidy) (hc : s.cap id = some c) (j : Nat) (y : SegmentId) :
    takenBack ((s.deleteCalls id).take j) y ≤ c.segments.count y := by
  rw [← (deleteCapsule_lowered hs hc).2.2.2.2 y]
  conv_rhs => rw [← List.take_append_drop j (s.deleteCalls id), takenBack_append]
  exact Nat.le_add_right _ _

/-- The other capsules are as they were. -/
theorem others_kept (hs : s.Tidy) (hc : s.cap id = some c) (hd : ∀ y, d y ≤ c.segments.count y)
    (h : s.Lowered id d u) {id' : CapsuleId} (hne : id' ≠ id) {c' : Capsule}
    (hc' : s.cap id' = some c') :
    u.cap id' = some c' ∧ Store.ReadsAlike c'.segments s u := by
  have hcap : u.cap id' = some c' := by
    rw [Store.cap, h.capsules, Table.lookup_erase, if_neg hne]
    exact hc'
  refine ⟨hcap, h.manager, h.file, fun y hy => ?_⟩
  -- both capsules are among the occurrences of the segment
  have hsum : c.segments.count y + c'.segments.count y ≤ s.occurrences y := by
    have hrest : (s.registry.capsules.erase id).lookup id' = some c' := by
      rw [Table.lookup_erase, if_neg hne]
      exact hc'
    have hle := Table.le_total (fun c : Capsule => c.segments.count y) hrest
    have hall := Table.total_erase (fun c : Capsule => c.segments.count y)
      (show s.registry.capsules.lookup id = some c from hc)
    show _ ≤ Table.total (fun c : Capsule => c.segments.count y) s.registry.capsules
    rw [hall]
    exact Nat.add_le_add_left hle _
  have hpos : 0 < c'.segments.count y := List.count_pos_iff.mpr hy
  obtain ⟨t, ht, hcov⟩ := hs.covered y (by omega)
  have hlt : d y < t.refCount := by
    have := hd y
    omega
  obtain ⟨hu, -⟩ := (h.seg y (t.lowered (d y))).mpr ⟨t, ht, hlt, rfl⟩
  exact ⟨t, _, _, ht, hu⟩

/-- A capsule that is not there is not read, nor deleted. -/
theorem absent (hu : u.cap id = none) : (∀ data, u.readCapsule id ≠ .ok data) ∧
    ((deleteCapsule id).run StoreOp.exec u).2 = u := by
  have hl : u.registry.capsules.lookup id = none := hu
  constructor
  · intro data hread
    have hexec : (Native.lookup id).run (StoreOp.exec (P := P)) u =
        (u.registry.lookup id, u) := run_perform (S := StoreSig) StoreOp.exec (.lookup id) u
    rw [Store.readCapsule, readCapsule, run_bind, hexec, CapsuleRegistry.lookup, hl] at hread
    cases hread
  · have hexec : (Native.registryDeleteCapsule id).run (StoreOp.exec (P := P)) u =
        ((u.registry.deleteCapsule id).1, { u with registry := (u.registry.deleteCapsule id).2 }) :=
      run_perform (S := StoreSig) StoreOp.exec (.deleteCapsule id) u
    rw [deleteCapsule, run_bind, hexec, CapsuleRegistry.deleteCapsule, hl]

/-- Nothing is left to be taken back. -/
theorem takenBack_drop (H : List StoreOp) (j : Nat) :
    (∀ x, takenBack (H.take j) x = takenBack H x) ↔ ∀ o ∈ H.drop j, o.decremented = none := by
  have hsplit : ∀ x, takenBack H x = takenBack (H.take j) x + takenBack (H.drop j) x := fun x => by
    rw [← takenBack_append, List.take_append_drop]
  have hzero : ∀ x, takenBack (H.drop j) x = 0 ↔
      ∀ o ∈ H.drop j, o.decremented ≠ some x := by
    intro x
    rw [takenBack, List.count_eq_zero, List.mem_filterMap]
    exact ⟨fun hn o ho k => hn ⟨o, ho, k⟩, fun hn ⟨o, ho, k⟩ => hn o ho k⟩
  constructor
  · intro h o ho
    refine Option.eq_none_iff_forall_ne_some.mpr fun x => (hzero x).mp ?_ o ho
    have := hsplit x
    rw [h x] at this
    omega
  · intro h x
    have hx : takenBack (H.drop j) x = 0 := (hzero x).mpr fun o ho k => by
      rw [h o ho] at k
      cases k
    rw [hsplit, hx, Nat.add_zero]

/-- The other capsules read as they did. -/
theorem kept (hs : s.Tidy) (hc : s.cap id = some c) (hd : ∀ y, d y ≤ c.segments.count y)
    (h : s.Lowered id d u) : (nativeDeletes P).Kept id s u := by
  intro id' hid hsome
  obtain ⟨c', hc'⟩ := Option.isSome_iff_exists.mp hsome
  obtain ⟨hcap, hreads⟩ := others_kept hs hc hd h hid hc'
  exact ⟨Option.isSome_of_eq_some hcap, readCapsule_alike hc' hcap hreads⟩

/-- A delete that stopped once the capsule had gone. -/
theorem deletedUpTo_lowered (hs : s.Tidy) (hc : s.cap id = some c)
    (hj : j ≤ (s.deleteCalls id).length) (hpos : 0 < j) :
    s.Lowered id (takenBack ((s.deleteCalls id).take j)) (deletedUpTo id s j) ∧
      (deletedUpTo id s j).cap id = none := by
  obtain ⟨hnil, -⟩ | ⟨-, hlow⟩ := deletedUpTo_deleting hs hc hj
  · rcases List.take_eq_nil_iff.mp hnil with h0 | h0
    · exact absurd h0 (Nat.ne_of_gt hpos)
    · exact absurd h0 (Store.deleteCalls_ne_nil hc)
  · exact ⟨hlow, by rw [Store.cap, hlow.capsules, Table.lookup_erase, if_pos rfl]⟩

/-- **What can be made up for** took every reference back, or nothing. -/
theorem of_repairable (hs : s.Tidy) (hc : s.cap id = some c) (hj : j ≤ (s.deleteCalls id).length)
    (h : AllOrRepairable (nativeDeletes P) id s (deletedUpTo id s j)) :
    (j = 0 ∧ ∃ data, s.readCapsule id = .ok data) ∨
      0 < j ∧ ∀ o ∈ (s.deleteCalls id).drop j, o.decremented = none := by
  obtain ⟨-, -, hfull, hswept, hcount⟩ := deleteCapsule_lowered hs hc
  rw [← takenBack_drop]
  rcases Nat.eq_zero_or_pos j with rfl | hpos
  · have hstart : deletedUpTo id s 0 = s := after_zero _
    rw [hstart] at h
    rcases h.settled with ⟨data, hread, -⟩ | ⟨hgone, -⟩
    · exact .inl ⟨rfl, data, hread⟩
    · exact absurd (Option.isSome_of_eq_some hc) hgone
  · obtain ⟨hlow, hgone⟩ := deletedUpTo_lowered hs hc hj hpos
    obtain ⟨hunread, hagain⟩ := absent hgone
    rcases h.settled with ⟨data, -, hread⟩ | ⟨-, hsame⟩
    · exact absurd hread (hunread data)
    · refine .inr ⟨hpos, fun x => ?_⟩
      -- whichever was run again, no reference was taken back by it
      obtain ⟨v, hv, halike⟩ : ∃ v, s.Lowered id (takenBack ((s.deleteCalls id).take j)) v ∧
          v.Alike ((deleteCapsule id).run StoreOp.exec s).2 := by
        rcases hsame with hall | hdel
        · exact ⟨_, (garbageCollect_lowered hlow .asGiven).1, (hall .asGiven).symm⟩
        · refine ⟨_, hlow, Store.Alike.symm ?_⟩
          have hdel : Store.Alike _
              ((deleteCapsule id).run StoreOp.exec (deletedUpTo id s j)).2 := hdel
          rwa [hagain] at hdel
      have hle := takenBack_take_le hs hc j x
      rw [← hcount x] at hle
      by_cases hx : x ∈ c.segments
      · obtain ⟨t, ht, hcov⟩ := count_le_refCount hs hc hx
        exact alike_lowered hv hfull halike ht hle (hcount x ▸ hcov)
      · have h0 : takenBack (s.deleteCalls id) x = 0 := by
          rw [hcount, List.count_eq_zero.mpr hx]
        omega

/-- **A delete that took every reference back, or nothing**, can be made up for. -/
theorem retryable_of (hs : s.Tidy) (hc : s.cap id = some c) (hj : j ≤ (s.deleteCalls id).length)
    (h : (j = 0 ∧ ∃ data, s.readCapsule id = .ok data) ∨
      0 < j ∧ ∀ o ∈ (s.deleteCalls id).drop j, o.decremented = none) :
    AllOrRetryable (nativeDeletes P) id s (deletedUpTo id s j) := by
  obtain ⟨-, -, hfull, hswept, hcount⟩ := deleteCapsule_lowered hs hc
  rcases h with ⟨rfl, data, hread⟩ | ⟨hpos, hall⟩
  · have hstart : deletedUpTo id s 0 = s := after_zero _
    rw [hstart]
    refine ⟨.inl ⟨data, hread, hread⟩, .inl ⟨Store.Alike.refl _, ?_⟩, fun _ _ hsome => ⟨hsome, rfl⟩⟩
    exact kept hs hc (fun y => (hcount y).le) hfull
  · obtain ⟨hlow, hgone⟩ := deletedUpTo_lowered hs hc hj hpos
    have hmissing : ¬ (nativeDeletes P).has id (deletedUpTo id s j) := by
      show ¬ ((deletedUpTo id s j).cap id).isSome
      rw [hgone]
      exact Bool.false_ne_true
    refine ⟨.inr hmissing, .inr ⟨hmissing, fun ord => ?_⟩,
      kept hs hc (takenBack_take_le hs hc j) hlow⟩
    obtain ⟨hcol, hsw⟩ := garbageCollect_lowered hlow ord
    rw [funext (takenBack_drop _ _ |>.mpr hall)] at hcol
    exact ⟨lowered_alike hfull hcol hswept hsw, kept hs hc (fun y => (hcount y).le) hcol⟩

/-- What a life without saturated counts leaves. -/
theorem tidy_of_life {km : Option (KeyManager P)} {w : World P}
    (h : Life Command.Unsaturated (World.empty km) w) : w.store.Tidy := by
  obtain ⟨keys, g, hg, hI⟩ := life_between h
  have hzero : ∀ x t, w.seg x = some t → t.refCount ≠ 0 := by
    intro x t ht h0
    rcases hI.zero x t ht h0 with ⟨hash, hdead⟩ | hbare
    · obtain ⟨y, hy⟩ := hg _ hdead
      cases hy
    · obtain ⟨y, hy⟩ := hg _ hbare
      cases hy
  have hrefs : ∀ x, w.occ x ≤ w.refs x := by
    intro x
    have hr := hI.refs x
    have hb := hI.bounded trivial x
    omega
  refine ⟨hI.storeKeyed, hzero, hI.dedup, fun x hpos => ?_⟩
  have hx : 0 < w.refs x := Nat.lt_of_lt_of_le hpos (hrefs x)
  cases hseg : w.seg x with
  | none =>
      rw [World.refs_of_none hseg] at hx
      exact absurd hx (Nat.lt_irrefl 0)
  | some t => exact ⟨t, hseg, World.refs_of_seg hseg ▸ hrefs x⟩

/-- **A delete in which one call fails** stops where that call was made. -/
theorem deleteCapsule_stops (id : CapsuleId) (hs : s.Tidy) (hc : s.cap id = some c)
    (f : Failure Error) {e : Error} {v : Store P × Nat}
    (hr : (deleteCapsule id).run (StoreOp.exec.failing f) (s, 0) = (.error e, v)) :
    v.1 = deletedUpTo id s f.made ∧ f.made ≤ (s.deleteCalls id).length := by
  obtain ⟨hok, hcalls, -⟩ := deleteCapsule_lowered hs hc
  by_cases hn : f.index < (s.deleteCalls id).length
  · rw [← hcalls] at hn
    obtain ⟨e', -, hstate⟩ := run_failing (h := StoreOp.exec (P := P)) (g := fun v => v) (m := 0)
      (n := f.index) (fun _ _ k => k.elim) (givesUp_deleteCapsule id) (Nat.zero_add _).symm hn
    rw [hr] at hstate
    refine ⟨hstate, ?_⟩
    rw [← hcalls, Failure.made]
    split
    · exact hn
    · exact Nat.le_of_lt hn
  · -- the failure is not reached, and then the delete succeeds
    have hrun := run_failing_unreached (h := StoreOp.exec (P := P)) (f := f)
      (p := deleteCapsule id) (s := s) (m := 0)
      (by rw [Nat.zero_add, hcalls]; exact Nat.le_of_not_lt hn)
    rw [hr, hok] at hrun
    cases hrun

end WritePipeline

end

end Space

import Space.Store.SharedLog

/-!
# Store — Schedule

When the payloads of a shared log come to lie apart, as a matter of the order of the steps alone.

Number the payloads that are appended or staged, in that order.  The shared offset stands behind the
payload of the step that set it last: an append or a staging behind its own, a commit behind the
last one of its transaction, a roll-back or a drop where it stood when the transaction began.  A
transaction stands behind the last payload it has staged, or where the shared offset stood when it
began.  A step is *in turn* if what it goes by, the shared offset for an append and the transaction
for a staging, stands behind every payload that has not been given up (`Schedule.InTurn`).

* `Follows.step`: in turn, the payloads lie in the order of their numbers, and whatever stands
  behind a payload has an offset behind it; so what a step writes is free.
* `intact`: in a schedule whose steps are all in turn, the segments of the map lie apart, and each
  reads back the payload it was installed with.
* `not_intact`: two transactions that begin at the same offset are enough for the opposite.
-/

namespace Space
open Support

/-! ### Who stands where -/

/-- A transaction of a schedule: where the shared offset stood when it began, where it stands
itself, and the payloads it has staged.  A place is the number of the first payload that is not
before it. -/
structure ScheduledTransaction where
  base : Nat
  current : Nat
  staged : List Nat
  committing : Bool
  finalized : Bool

/-- How many payloads there have been, those that an append or a commit has installed, where the
shared offset stands, and the transactions. -/
structure Schedule where
  taken : Nat
  installed : List Nat
  shared : Nat
  transactions : List ScheduledTransaction

namespace Schedule

def start : Schedule where
  taken := 0
  installed := []
  shared := 0
  transactions := []

/-- The payloads that are staged. -/
def staged (sched : Schedule) : List Nat := sched.transactions.flatMap ScheduledTransaction.staged

/-- The payloads that have not been given up. -/
def standing (sched : Schedule) : List Nat := sched.installed ++ sched.staged

def step (sched : Schedule) : LogStep → Schedule
  | .append _ _ =>
    { sched with
      taken := sched.taken + 1
      installed := sched.taken :: sched.installed
      shared := sched.taken + 1 }
  | .beginTransaction =>
    { sched with
      transactions := sched.transactions ++ [⟨sched.shared, sched.shared, [], false, false⟩] }
  | .appendSegment i _ _ =>
    match sched.transactions[i]? with
    | some ⟨base, _, staged, false, false⟩ =>
      { sched with
        taken := sched.taken + 1
        shared := sched.taken + 1
        transactions := sched.transactions.set i
          ⟨base, sched.taken + 1, staged ++ [sched.taken], false, false⟩ }
    | _ => sched
  | .commitWrite i =>
    match sched.transactions[i]? with
    | some ⟨base, current, staged, false, false⟩ =>
      if staged = [] then
        { sched with transactions := sched.transactions.set i ⟨base, current, [], false, true⟩ }
      else
        { sched with
          shared := current
          transactions := sched.transactions.set i ⟨base, current, staged, true, false⟩ }
    | _ => sched
  | .commitInstall i =>
    match sched.transactions[i]? with
    | some ⟨base, current, staged, true, _⟩ =>
      { sched with
        installed := staged ++ sched.installed
        transactions := sched.transactions.set i ⟨base, current, [], false, true⟩ }
    | _ => sched
  | .rollback i =>
    match sched.transactions[i]? with
    | some ⟨base, _, _, false, false⟩ =>
      { sched with
        shared := base
        transactions := sched.transactions.set i ⟨base, base, [], false, true⟩ }
    | _ => sched

/-- Every payload that has not been given up is before the place. -/
def Behind (sched : Schedule) (place : Nat) : Prop := ∀ n ∈ sched.standing, n < place

/-- What takes room goes by an offset behind every payload, and has a length of 32 bits. -/
def InTurn (sched : Schedule) : LogStep → Prop
  | .append _ data => sched.Behind sched.shared ∧ data.length < 4294967296
  | .appendSegment i _ data =>
    ∀ s ∈ sched.transactions[i]?, s.committing = false → s.finalized = false →
      sched.Behind s.current ∧ data.length < 4294967296
  | _ => True

instance (sched : Schedule) : DecidablePred sched.InTurn
  | .append _ data =>
    inferInstanceAs (Decidable
      ((∀ n ∈ sched.standing, n < sched.shared) ∧ data.length < 4294967296))
  | .appendSegment i _ data =>
    inferInstanceAs (Decidable (∀ s ∈ sched.transactions[i]?, s.committing = false →
      s.finalized = false → (∀ n ∈ sched.standing, n < s.current) ∧ data.length < 4294967296))
  | .beginTransaction | .commitWrite _ | .commitInstall _ | .rollback _ =>
    inferInstanceAs (Decidable True)

/-- Every step is in turn. -/
def Orderly : Schedule → List LogStep → Prop
  | _, [] => True
  | sched, s :: steps => sched.InTurn s ∧ (sched.step s).Orderly steps

instance instDecidableOrderly : (sched : Schedule) → (steps : List LogStep) →
    Decidable (sched.Orderly steps)
  | _, [] => inferInstanceAs (Decidable True)
  | sched, s :: steps =>
    have := instDecidableOrderly (sched.step s) steps
    inferInstanceAs (Decidable (sched.InTurn s ∧ (sched.step s).Orderly steps))

end Schedule

/-! ### Where the payloads lie -/

/-- The segment lies in the room of a payload. -/
def Segment.Fits (a : Segment) (room : Nat × Nat) : Prop :=
  room.1 ≤ a.offset ∧ a.offset + a.len ≤ room.2

theorem Segment.Fits.disjoint {a b : Segment} {room room' : Nat × Nat} (ha : a.Fits room)
    (hb : b.Fits room') (h : room.2 ≤ room'.1) : a.Disjoint b := fun n hn => by
  have hend : n < room.2 := hn.1.2.trans_le ha.2
  have hstart : room'.1 ≤ n := hb.1.trans hn.2.1
  exact absurd (hend.trans_le (h.trans hstart)) (Nat.lt_irrefl n)

namespace Schedule
variable {sched sched' : Schedule} {room room' : Nat → Nat × Nat} {i place offset : Nat}
variable {s s' : ScheduledTransaction}

theorem staged_perm (h : sched.transactions[i]? = some s) : sched.staged.Perm
    (s.staged ++ (sched.transactions.eraseIdx i).flatMap ScheduledTransaction.staged) :=
  (perm_of_getElem? h).flatMap_right _

theorem staged_set_perm (h : sched.transactions[i]? = some s) (s' : ScheduledTransaction)
    (taken : Nat) (installed : List Nat) (shared : Nat) :
    (staged ⟨taken, installed, shared, sched.transactions.set i s'⟩).Perm
      (s'.staged ++ (sched.transactions.eraseIdx i).flatMap ScheduledTransaction.staged) :=
  (set_perm_of_getElem? h s').flatMap_right _

/-- What a transaction that changes has staged is staged before, and nothing is installed. -/
theorem standing_set_subperm (h : sched.transactions[i]? = some s)
    (hs : s'.staged.Subperm s.staged) (shared : Nat) :
    (standing { sched with
      shared := shared, transactions := sched.transactions.set i s' }).Subperm sched.standing := by
  refine (List.subperm_append_left _).mpr ?_
  refine ((staged_set_perm h s' _ _ _).subperm.trans ?_).trans (staged_perm h).symm.subperm
  exact (List.subperm_append_right _).mpr hs

/-- The payloads lie in the order of their numbers. -/
structure Laid (sched : Schedule) (room : Nat → Nat × Nat) : Prop where
  fresh : ∀ n ∈ sched.standing, n < sched.taken
  nodup : sched.standing.Nodup
  order : ∀ m ∈ sched.standing, ∀ n ∈ sched.standing, m < n → (room m).2 ≤ (room n).1

/-- The offset is behind every payload before the place. -/
structure Reaches (sched : Schedule) (room : Nat → Nat × Nat) (place offset : Nat) : Prop where
  bound : place ≤ sched.taken
  offset : ∀ n ∈ sched.standing, n < place → (room n).2 ≤ offset

/-- Payloads have been given up, or have come behind the others. -/
structure Grows (sched : Schedule) (room : Nat → Nat × Nat) (sched' : Schedule)
    (room' : Nat → Nat × Nat) : Prop where
  taken : sched.taken ≤ sched'.taken
  standing : ∀ n ∈ sched'.standing, n < sched.taken → n ∈ sched.standing
  room : ∀ n < sched.taken, room' n = room n

theorem Reaches.grow (h : sched.Reaches room place offset) (hg : Grows sched room sched' room') :
    sched'.Reaches room' place offset := by
  refine ⟨h.bound.trans hg.taken, fun n hn hlt => ?_⟩
  have hold : n < sched.taken := hlt.trans_le h.bound
  rw [hg.room n hold]
  exact h.offset n (hg.standing n hn hold) hlt

/-- Some payloads are given up. -/
theorem Grows.thin (hs : sched'.standing.Subperm sched.standing) (ht : sched'.taken = sched.taken) :
    Grows sched room sched' room :=
  ⟨ht.ge, fun _ hn _ => hs.subset hn, fun _ _ => rfl⟩

theorem Laid.thin (h : sched.Laid room) (hs : sched'.standing.Subperm sched.standing)
    (ht : sched'.taken = sched.taken) : sched'.Laid room where
  fresh := fun n hn => ht ▸ h.fresh n (hs.subset hn)
  nodup := pairwise_of_subperm Ne.symm hs h.nodup
  order := fun m hm n hn => h.order m (hs.subset hm) n (hs.subset hn)

/-- A payload is taken, behind all the others. -/
theorem Laid.take {S : Schedule} (h : sched.Laid room) (hr : sched.Reaches room place offset)
    (hb : sched.Behind place) (len : Nat) (hs : S.standing.Perm (sched.taken :: sched.standing))
    (ht : S.taken = sched.taken + 1) :
    let room' := Function.update room sched.taken (offset, offset + len)
    S.Laid room' ∧ Grows sched room S room' ∧
      S.Reaches room' (sched.taken + 1) (offset + len) := by
  intro room'
  have hself : room' sched.taken = (offset, offset + len) := Function.update_self ..
  have hold : ∀ n < sched.taken, room' n = room n := fun n hn =>
    Function.update_of_ne (Nat.ne_of_lt hn) _ _
  have hmem : ∀ n ∈ S.standing, n = sched.taken ∨ n ∈ sched.standing := fun n hn =>
    List.mem_cons.mp (hs.subset hn)
  -- `place` is behind every standing payload, so each of them ends before the new room
  have hend : ∀ n ∈ sched.standing, (room' n).2 ≤ offset := fun n hn => by
    rw [hold n (h.fresh n hn)]
    exact hr.offset n hn (hb n hn)
  refine ⟨⟨fun n hn => ?_, ?_, fun m hm n hn hmn => ?_⟩, ⟨?_, fun n hn hlt => ?_, hold⟩,
    ⟨ht.ge, fun n hn _ => ?_⟩⟩
  · rw [ht, Nat.lt_succ_iff]
    rcases hmem n hn with rfl | hn
    · exact Nat.le_refl _
    · exact (h.fresh n hn).le
  · refine hs.nodup_iff.mpr (List.nodup_cons.mpr ⟨fun hn => ?_, h.nodup⟩)
    exact absurd (h.fresh _ hn) (Nat.lt_irrefl _)
  · rcases hmem m hm with rfl | hm
    · rcases hmem n hn with rfl | hn
      · exact absurd hmn (Nat.lt_irrefl _)
      · exact absurd (h.fresh n hn) (Nat.lt_asymm hmn)
    · rcases hmem n hn with rfl | hn
      · rw [hself]
        exact hend m hm
      · rw [hold m (h.fresh m hm), hold n (h.fresh n hn)]
        exact h.order m hm n hn hmn
  · exact ht ▸ Nat.le_succ _
  · exact (hmem n hn).resolve_left (Nat.ne_of_lt hlt)
  · rcases hmem n hn with rfl | hn
    · rw [hself]
    · exact (hend n hn).trans (Nat.le_add_right _ _)

/-! ### The log under a schedule -/

/-- A staged payload lies in the room of its number. -/
structure Stages (sched : Schedule) (room : Nat → Nat × Nat) (n : Nat) (p : PendingSegment) :
    Prop where
  fresh : n < sched.taken
  fits : p.segment.Fits (room n)
  length : p.data.length < 4294967296

/-- What a transaction is in the schedule. -/
structure Describes (sched : Schedule) (room : Nat → Nat × Nat) (s : ScheduledTransaction)
    (c : ClientTransaction) : Prop where
  committing : s.committing = c.committing
  finalized : s.finalized = c.transaction.finalized
  base : sched.Reaches room s.base c.transaction.baseOffset
  current : sched.Reaches room s.current c.transaction.currentOffset
  staged : List.Forall₂ (sched.Stages room) s.staged c.transaction.pending

theorem Stages.grow {n : Nat} {p : PendingSegment} (h : sched.Stages room n p)
    (hg : Grows sched room sched' room') : sched'.Stages room' n p where
  fresh := h.fresh.trans_le hg.taken
  fits := hg.room n h.fresh ▸ h.fits
  length := h.length

theorem Describes.grow {c : ClientTransaction} (h : sched.Describes room s c)
    (hg : Grows sched room sched' room') : sched'.Describes room' s c where
  committing := h.committing
  finalized := h.finalized
  base := h.base.grow hg
  current := h.current.grow hg
  staged := h.staged.imp fun _ _ hp => hp.grow hg

/-- The log has come about in the order of the schedule. -/
structure Follows (sched : Schedule) (room : Nat → Nat × Nat) (shared : SharedLog) : Prop where
  laid : sched.Laid room
  offset : sched.Reaches room sched.shared shared.log.nextOffset
  installed : ∀ a ∈ shared.log.segmentMap.values, ∃ n ∈ sched.installed, a.Fits (room n)
  transactions : List.Forall₂ (sched.Describes room) sched.transactions shared.transactions

namespace Follows
variable {shared : SharedLog} {c c' : ClientTransaction}

theorem start : Schedule.start.Follows (fun _ => (0, 0)) .start where
  laid := ⟨fun _ hn => absurd hn List.not_mem_nil, .nil, fun _ hm => absurd hm List.not_mem_nil⟩
  offset := ⟨Nat.le_refl _, fun _ hn => absurd hn List.not_mem_nil⟩
  installed := fun _ ha => absurd ha List.not_mem_nil
  transactions := .nil

/-- A transaction of the log, and of the schedule. -/
theorem transaction (h : sched.Follows room shared) (i : Nat) :
    (sched.transactions[i]? = none ∧ shared.transactions[i]? = none) ∨
      ∃ base current staged committing t,
        sched.transactions[i]? = some ⟨base, current, staged, committing, t.finalized⟩ ∧
        shared.transactions[i]? = some ⟨t, committing⟩ ∧
        sched.Describes room ⟨base, current, staged, committing, t.finalized⟩ ⟨t, committing⟩ := by
  have hrel := forall₂_getElem? h.transactions i
  generalize sched.transactions[i]? = x, shared.transactions[i]? = y at hrel
  cases hrel with
  | none => exact .inl ⟨rfl, rfl⟩
  | @some s c hd =>
      obtain ⟨base, current, staged, committing, finalized⟩ := s
      obtain ⟨t, committing'⟩ := c
      obtain rfl : committing = committing' := hd.committing
      obtain rfl : finalized = t.finalized := hd.finalized
      exact .inr ⟨base, current, staged, committing, t, rfl, rfl, hd⟩

/-- A plain append. -/
theorem append (h : sched.Follows room shared) (hb : sched.Behind sched.shared) (segId : SegmentId)
    (data : Bytes) : ∃ room', (sched.step (.append segId data)).Follows room'
      (shared.step (.append segId data)) := by
  obtain ⟨hlaid, hgrow, hoffset⟩ := h.laid.take (S := sched.step (.append segId data)) h.offset
    hb data.length (.refl _) rfl
  refine ⟨_, hlaid, hoffset, fun a ha => ?_, h.transactions.imp fun _ _ hd => hd.grow hgrow⟩
  have hvalues : a ∈ Table.values (AList.insert segId (Segment.appended segId shared.log.nextOffset
      (asU32 data.length)) shared.log.segmentMap) := ha
  rw [Table.values_insert] at hvalues
  rcases List.mem_cons.mp hvalues with rfl | ha
  · refine ⟨_, List.mem_cons_self, ?_⟩
    rw [Function.update_self]
    exact ⟨Nat.le_refl _, Nat.add_le_add_left (Nat.mod_le _ _) _⟩
  · obtain ⟨n, hn, hfits⟩ := h.installed a ((Table.values_erase_subperm _ _).subset ha)
    refine ⟨n, List.mem_cons_of_mem _ hn, ?_⟩
    rw [hgrow.room n (h.laid.fresh n (List.mem_append_left _ hn))]
    exact hfits

/-- A new transaction. -/
theorem beginTransaction (h : sched.Follows room shared) :
    (sched.step .beginTransaction).Follows room (shared.step .beginTransaction) := by
  have hs : (sched.step .beginTransaction).standing.Subperm sched.standing := by
    have e : (sched.step .beginTransaction).standing = sched.standing := by
      simp [standing, staged, Schedule.step]
    exact e ▸ .refl _
  have hgrow : Grows sched room (sched.step .beginTransaction) room := .thin hs rfl
  refine ⟨h.laid.thin hs rfl, h.offset.grow hgrow, h.installed, ?_⟩
  refine forall₂_snoc (h.transactions.imp fun _ _ hd => hd.grow hgrow) ?_
  exact ⟨rfl, rfl, h.offset.grow hgrow, h.offset.grow hgrow, .nil⟩

/-- A transaction changes, and stages nothing. -/
theorem own (h : sched.Follows room shared) (hs : sched.transactions[i]? = some s)
    (hsub : s'.staged.Subperm s.staged) (log : NvramLog)
    (hp : sched.Reaches room place log.nextOffset)
    (hmap : log.segmentMap = shared.log.segmentMap) (hd : sched.Describes room s' c')
    (contents : Table SegmentId Bytes) :
    Follows { sched with shared := place, transactions := sched.transactions.set i s' } room
      ⟨log, shared.transactions.set i c', contents⟩ := by
  have hstand := standing_set_subperm hs hsub place
  have hgrow : Grows sched room { sched with
      shared := place, transactions := sched.transactions.set i s' } room := .thin hstand rfl
  refine ⟨h.laid.thin hstand rfl, hp.grow hgrow, hmap ▸ h.installed, ?_⟩
  exact forall₂_set (h.transactions.imp fun _ _ hd => hd.grow hgrow) (hd.grow hgrow) i

/-- A payload is staged. -/
theorem appendSegment (h : sched.Follows room shared) {base current : Nat} {staged : List Nat}
    {t : NvramTransaction}
    (hs : sched.transactions[i]? = some ⟨base, current, staged, false, false⟩)
    (hd : sched.Describes room ⟨base, current, staged, false, false⟩ ⟨t, false⟩)
    (hb : sched.Behind current) (segId : SegmentId) {data : Bytes}
    (hlen : data.length < 4294967296) :
    ∃ room', Follows
      { sched with
        taken := sched.taken + 1
        shared := sched.taken + 1
        transactions := sched.transactions.set i
          ⟨base, sched.taken + 1, staged ++ [sched.taken], false, false⟩ } room'
      { shared with
        log := { shared.log with nextOffset := t.currentOffset + data.length }
        transactions := shared.transactions.set i ⟨{ t with
          pending := t.pending ++ [⟨.appended segId t.currentOffset (asU32 data.length), data⟩]
          currentOffset := t.currentOffset + data.length }, false⟩ } := by
  -- the new payload is one of those staged; where it stands among them does not matter
  have hperm : (sched.installed ++ (sched.transactions.set i
      ⟨base, sched.taken + 1, staged ++ [sched.taken], false, false⟩).flatMap
        ScheduledTransaction.staged).Perm (sched.taken :: sched.standing) := by
    refine List.Perm.trans ?_ List.perm_middle
    refine (List.perm_append_left_iff _).mpr ?_
    refine ((set_perm_of_getElem? hs _).flatMap_right _).trans ?_
    refine List.Perm.trans ?_ (.cons _ (staged_perm hs).symm)
    refine (List.Perm.of_eq (List.append_assoc _ _ _)).trans List.perm_middle
  obtain ⟨hlaid, hgrow, hoffset⟩ := h.laid.take (S := { sched with
    taken := sched.taken + 1
    shared := sched.taken + 1
    transactions := sched.transactions.set i
      ⟨base, sched.taken + 1, staged ++ [sched.taken], false, false⟩ }) hd.current hb data.length
    hperm rfl
  refine ⟨_, hlaid, hoffset, fun a ha => ?_, ?_⟩
  · obtain ⟨n, hn, hfits⟩ := h.installed a ha
    refine ⟨n, hn, ?_⟩
    rw [hgrow.room n (h.laid.fresh n (List.mem_append_left _ hn))]
    exact hfits
  · refine forall₂_set (h.transactions.imp fun _ _ hd => hd.grow hgrow) ?_ i
    have hd' := hd.grow hgrow
    refine ⟨rfl, hd.finalized, hd'.base, hoffset,
      forall₂_snoc hd'.staged ⟨Nat.lt_succ_self _, ?_, hlen⟩⟩
    rw [Function.update_self]
    exact ⟨Nat.le_refl _, Nat.add_le_add_left (Nat.mod_le _ _) _⟩

/-- A commit is installed. -/
theorem commitInstall (h : sched.Follows room shared) {base current : Nat} {staged : List Nat}
    {t : NvramTransaction} {finalized : Bool}
    (hs : sched.transactions[i]? = some ⟨base, current, staged, true, finalized⟩)
    (hd : sched.Describes room ⟨base, current, staged, true, finalized⟩ ⟨t, true⟩) :
    Follows
      { sched with
        installed := staged ++ sched.installed
        transactions := sched.transactions.set i ⟨base, current, [], false, true⟩ } room
      { log := (t.installAll shared.log).2
        transactions := shared.transactions.set i ⟨(t.installAll shared.log).1, false⟩
        contents := SharedLog.installContents t.pending shared.contents } := by
  -- installing moves the payloads of the transaction from staged to installed
  have hstand : (staged ++ sched.installed ++ (sched.transactions.set i
      ⟨base, current, [], false, true⟩).flatMap ScheduledTransaction.staged).Perm
      sched.standing := by
    have hset := (set_perm_of_getElem? hs ⟨base, current, [], false, true⟩).flatMap_right
      ScheduledTransaction.staged
    refine ((List.perm_append_left_iff _).mpr hset).trans ?_
    refine List.Perm.trans ?_ ((List.perm_append_left_iff _).mpr (staged_perm hs).symm)
    rw [List.append_assoc]
    exact List.perm_append_comm_assoc _ _ _
  have hgrow : Grows sched room { sched with
      installed := staged ++ sched.installed
      transactions := sched.transactions.set i ⟨base, current, [], false, true⟩ } room :=
    .thin hstand.subperm rfl
  refine ⟨h.laid.thin hstand.subperm rfl, h.offset.grow hgrow, fun a ha => ?_, ?_⟩
  · have hmem := (SharedLog.installPending_subperm t.pending shared.log.segmentMap).subset ha
    rcases List.mem_append.mp hmem with hpend | hmap
    · obtain ⟨p, hp, rfl⟩ := List.mem_map.mp hpend
      obtain ⟨n, hn, hstages⟩ := forall₂_mem_left hd.staged.flip hp
      exact ⟨n, List.mem_append_left _ hn, hstages.fits⟩
    · obtain ⟨n, hn, hfits⟩ := h.installed a hmap
      exact ⟨n, List.mem_append_right _ hn, hfits⟩
  · refine forall₂_set (h.transactions.imp fun _ _ hd => hd.grow hgrow) ?_ i
    have hd' := hd.grow hgrow
    exact ⟨rfl, rfl, hd'.base, hd'.current, .nil⟩

/-- The first half of a commit. -/
theorem commitWrite (h : sched.Follows room shared) (i : Nat) :
    (sched.step (.commitWrite i)).Follows room (shared.step (.commitWrite i)) := by
  rcases h.transaction i with ⟨hs, hc⟩ | ⟨base, current, staged, committing, t, hs, hc, hd⟩
  · simp only [Schedule.step, SharedLog.step, hs, hc]
    exact h
  cases committing with
  | true =>
      simp only [Schedule.step, SharedLog.step, hs, hc]
      exact h
  | false =>
      cases hf : t.finalized with
      | true =>
          simp only [Schedule.step, SharedLog.step, hs, hc, hf, if_true]
          exact h
      | false =>
          simp only [Schedule.step, SharedLog.step, hs, hc, hf, Bool.false_eq_true, if_false]
          have hnil : staged = [] ↔ t.pending = [] := by
            rw [← List.length_eq_zero_iff, hd.staged.length_eq, List.length_eq_zero_iff]
          -- an empty commit finishes at once and leaves the shared offset; any other takes it along
          by_cases hp : t.pending = []
          · rw [if_pos (hnil.mpr hp), if_pos hp]
            refine h.own hs List.nil_subperm shared.log h.offset rfl ?_ shared.contents
            exact ⟨rfl, rfl, hd.base, hd.current, hp ▸ .nil⟩
          · rw [if_neg (mt hnil.mp hp), if_neg hp]
            refine h.own hs (.refl staged) (t.writeAll shared.log) hd.current rfl ?_ shared.contents
            exact ⟨rfl, hf.symm, hd.base, hd.current, hd.staged⟩

/-- A transaction is given up. -/
theorem rollback (h : sched.Follows room shared) (i : Nat) :
    (sched.step (.rollback i)).Follows room (shared.step (.rollback i)) := by
  rcases h.transaction i with ⟨hs, hc⟩ | ⟨base, current, staged, committing, t, hs, hc, hd⟩
  · simp only [Schedule.step, SharedLog.step, hs, hc]
    exact h
  cases committing with
  | true =>
      simp only [Schedule.step, SharedLog.step, hs, hc]
      exact h
  | false =>
      cases hf : t.finalized with
      | true =>
          -- a finished transaction is set back to itself: `Drop` after `commit` does nothing
          obtain ⟨hi, he⟩ := List.getElem?_eq_some_iff.mp hc
          simp only [Schedule.step, SharedLog.step, NvramTransaction.rollback, hs, hc, hf, if_true]
          rw [← he, List.set_getElem_self]
          exact h
      | false =>
          simp only [Schedule.step, SharedLog.step, NvramTransaction.rollback, hs, hc, hf,
            Bool.false_eq_true, if_false]
          -- the shared offset goes back to `base`, and may come before payloads of others
          refine h.own hs List.nil_subperm { shared.log with nextOffset := t.baseOffset } hd.base
            rfl ?_ shared.contents
          exact ⟨rfl, rfl, hd.base, hd.base, .nil⟩

/-- **A step in turn.** -/
theorem step (h : sched.Follows room shared) {s : LogStep} (hs : sched.InTurn s) :
    ∃ room', (sched.step s).Follows room' (shared.step s) := by
  cases s with
  | append segId data => exact h.append hs.1 segId data
  | beginTransaction => exact ⟨room, h.beginTransaction⟩
  | appendSegment i segId data =>
      rcases h.transaction i with ⟨hx, hc⟩ | ⟨base, current, staged, committing, t, hx, hc, hd⟩
      · simp only [Schedule.step, SharedLog.step, hx, hc]
        exact ⟨room, h⟩
      cases committing with
      | true =>
          simp only [Schedule.step, SharedLog.step, hx, hc]
          exact ⟨room, h⟩
      | false =>
          cases hf : t.finalized with
          | true =>
              simp only [Schedule.step, SharedLog.step, NvramTransaction.appendSegment,
                NvramTransaction.ensureActive, hx, hc, hf, if_true]
              exact ⟨room, h⟩
          | false =>
              simp only [Schedule.step, SharedLog.step, NvramTransaction.appendSegment,
                NvramTransaction.ensureActive, hx, hc, hf, Bool.false_eq_true, if_false]
              rw [hf] at hx hd
              obtain ⟨hb, hlen⟩ := hs _ hx rfl rfl
              have htaken := h.appendSegment hx hd hb segId hlen
              rw [hf] at htaken
              exact htaken
  | commitWrite i => exact ⟨room, h.commitWrite i⟩
  | commitInstall i =>
      rcases h.transaction i with ⟨hx, hc⟩ | ⟨base, current, staged, committing, t, hx, hc, hd⟩
      · simp only [Schedule.step, SharedLog.step, hx, hc]
        exact ⟨room, h⟩
      cases committing with
      | true =>
          simp only [Schedule.step, SharedLog.step, hx, hc]
          exact ⟨room, h.commitInstall hx hd⟩
      | false =>
          simp only [Schedule.step, SharedLog.step, hx, hc]
          exact ⟨room, h⟩
  | rollback i => exact ⟨room, h.rollback i⟩

/-- A segment in use has the room of a payload that is installed, or that a commit has written. -/
theorem inUse (h : sched.Follows room shared) {a : Segment} (ha : a ∈ shared.inUse) :
    ∃ n, a.Fits (room n) ∧ (n ∈ sched.installed ∨
      ∃ s ∈ sched.transactions, s.committing = true ∧ n ∈ s.staged) := by
  rcases List.mem_append.mp ha with hmap | huninstalled
  · obtain ⟨n, hn, hfits⟩ := h.installed a hmap
    exact ⟨n, hfits, .inl hn⟩
  · obtain ⟨c, hc, hsegments⟩ := List.mem_flatMap.mp huninstalled
    obtain ⟨p, hp, rfl⟩ := List.mem_map.mp hsegments
    obtain ⟨s, hs, hd⟩ := forall₂_mem_left h.transactions.flip hc
    have hcommitting : c.committing = true := by
      by_contra hno
      rw [ClientTransaction.written, if_neg hno] at hp
      cases hp
    rw [ClientTransaction.written, if_pos hcommitting] at hp
    obtain ⟨n, hn, hstages⟩ := forall₂_mem_left hd.staged.flip hp
    exact ⟨n, hstages.fits, .inr ⟨s, hs, hd.committing.trans hcommitting, hn⟩⟩

theorem standing_of_inUse {n : Nat} (hn : n ∈ sched.installed ∨
    ∃ s ∈ sched.transactions, s.committing = true ∧ n ∈ s.staged) : n ∈ sched.standing := by
  rcases hn with hn | ⟨s, hs, -, hn⟩
  · exact List.mem_append_left _ hn
  · exact List.mem_append_right _ (List.mem_flatMap.mpr ⟨s, hs, hn⟩)

/-- What a transaction has staged before its commit is not in use. -/
theorem not_staged (h : sched.Follows room shared) (hs : sched.transactions[i]? = some s)
    (hf : s.committing = false) {n : Nat} (hn : n ∈ sched.installed ∨
      ∃ s ∈ sched.transactions, s.committing = true ∧ n ∈ s.staged) : n ∉ s.staged := by
  intro hstaged
  have hperm : sched.standing.Perm (s.staged ++ (sched.installed ++
      (sched.transactions.eraseIdx i).flatMap ScheduledTransaction.staged)) :=
    ((List.perm_append_left_iff _).mpr (staged_perm hs)).trans (List.perm_append_comm_assoc _ _ _)
  have hdisj := List.disjoint_of_nodup_append (hperm.nodup_iff.mp h.laid.nodup)
  refine hdisj hstaged ?_
  rcases hn with hn | ⟨s', hs', ht, hn⟩
  · exact List.mem_append_left _ hn
  · rcases List.mem_cons.mp ((perm_of_getElem? hs).subset hs') with rfl | hother
    · exact absurd ht (by rw [hf]; exact Bool.false_ne_true)
    · exact List.mem_append_right _ (List.mem_flatMap.mpr ⟨s', hother, hn⟩)

/-- **What a step in turn writes is free.** -/
theorem free (h : sched.Follows room shared) {s : LogStep} (hs : sched.InTurn s) :
    shared.Free s := by
  cases s with
  | append segId data =>
      intro p hp
      obtain rfl := List.mem_singleton.mp hp
      refine ⟨hs.2, fun a ha => ?_⟩
      have hkept : a ∈ shared.inUse := by
        rcases List.mem_append.mp ha with ha | ha
        · exact List.mem_append_left _ ((Table.values_erase_subperm _ _).subset ha)
        · exact List.mem_append_right _ ha
      obtain ⟨n, hfits, hn⟩ := h.inUse hkept
      have hstanding := standing_of_inUse hn
      have hself : Segment.Fits (.appended segId shared.log.nextOffset (asU32 data.length))
          (shared.log.nextOffset, shared.log.nextOffset + asU32 data.length) :=
        ⟨Nat.le_refl _, Nat.le_refl _⟩
      exact hfits.disjoint hself (h.offset.offset n hstanding (hs.1 n hstanding))
  | commitWrite i =>
      intro p hp
      rw [SharedLog.writes] at hp
      split at hp
      · next t hc =>
          rcases h.transaction i with
            ⟨-, hno⟩ | ⟨base, current, staged, committing, t', hx, hc', hd⟩
          · cases hc.symm.trans hno
          obtain ⟨rfl, rfl⟩ := ClientTransaction.mk.inj (Option.some.inj (hc.symm.trans hc'))
          split at hp
          · cases hp
          obtain ⟨m, hm, hstages⟩ := forall₂_mem_left hd.staged.flip hp
          refine ⟨hstages.length, fun a ha => ?_⟩
          obtain ⟨n, hfits, hn⟩ := h.inUse ha
          have hne : n ≠ m := fun e => h.not_staged hx rfl hn (e ▸ hm)
          have hmem : m ∈ sched.standing := List.mem_append_right _
            (List.mem_flatMap.mpr ⟨_, List.mem_of_getElem? hx, hm⟩)
          rcases Nat.lt_or_gt_of_ne hne with hlt | hgt
          · exact hfits.disjoint hstages.fits (h.laid.order n (standing_of_inUse hn) m hmem hlt)
          · exact (hstages.fits.disjoint hfits
              (h.laid.order m hmem n (standing_of_inUse hn) hgt)).symm
      · cases hp
  | beginTransaction | appendSegment | commitInstall | rollback =>
      exact fun _ hp => absurd hp List.not_mem_nil

end Follows

/-! ### Whole schedules -/

/-- What is in use stays apart and has its payloads. -/
theorem Follows.run {shared : SharedLog} {steps : List LogStep} (h : sched.Follows room shared)
    (hi : shared.Intact) (ho : sched.Orderly steps) :
    (steps.foldl SharedLog.step shared).Intact := by
  induction steps generalizing sched room shared with
  | nil => exact hi
  | cons s steps ih =>
      obtain ⟨room', h'⟩ := h.step ho.1
      exact ih h' (hi.step (h.free ho.1)) ho.2

end Schedule

namespace SharedLog

/-- **As long as every step is in turn**, the segments of the map lie apart, and each of them reads
back. -/
theorem intact (steps : List LogStep) (h : Schedule.start.Orderly steps) :
    (steps.foldl step start).Separate ∧ (steps.foldl step start).ReadsBack := by
  have hi := Schedule.Follows.start.run Intact.start h
  exact ⟨hi.separate, hi.reads_back⟩

/-- Two transactions begin one inside the other, and are written and installed in opposite orders; a
third one is dropped; and there are appends before, between and after them. -/
def nested : List LogStep :=
  [.append ⟨0⟩ [1], .beginTransaction, .appendSegment 0 ⟨1⟩ [2, 3], .beginTransaction,
    .appendSegment 1 ⟨2⟩ [4], .commitWrite 0, .commitWrite 1, .commitInstall 1, .commitInstall 0,
    .append ⟨0⟩ [5], .beginTransaction, .appendSegment 2 ⟨3⟩ [6, 7, 8], .rollback 2,
    .append ⟨4⟩ [9]]

theorem intact_nested : (nested.foldl step start).Separate ∧ (nested.foldl step start).ReadsBack :=
  intact nested (by decide)

/-- **Two transactions begin at the same offset**: the payload of the second one lies over that of
the first. -/
theorem not_intact : ¬ ∀ steps : List LogStep,
    (steps.foldl step start).Separate ∧ (steps.foldl step start).ReadsBack := by
  intro h
  have hsep := (h [.beginTransaction, .beginTransaction, .appendSegment 0 ⟨0⟩ [1],
    .appendSegment 1 ⟨1⟩ [2], .commitWrite 0, .commitWrite 1, .commitInstall 1, .commitInstall 0]).1
  exact hsep ⟨0⟩ ⟨1⟩ _ _ rfl rfl (by decide) 0 ⟨⟨Nat.le_refl 0, Nat.one_pos⟩, Nat.le_refl 0,
    Nat.one_pos⟩

end SharedLog

end Space

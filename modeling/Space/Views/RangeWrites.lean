import Space.Views.Ranges

/-!
# Views — RangeWrites

The write of the block view, whose range is checked like that of a read, and all four range checks
together: each is exact, in every state that is reached, if and only if it is safe.

The write copies what the capsule of the volume reads as, changes the copy and puts it into a
capsule of its own, which reads back as far as the default policy takes it.

* `replaceCapsule_run`: the capsule is written, the volume swapped over, and the old capsule
  deleted.
* `writeIn_exact_iff`: the write.
* `range_checks_exact_iff`: the four checks.
-/

namespace Space
open Support Prog

variable {P : Primitives} {U : Set Bytes} {b : Build} {keys : Option (UInt32 → XtsKeyPair)}
  {w w' : World P} {s : World P × BlockView} {v : BlockView} {volume : BlockVolume}
  {id : CapsuleId} {name : Text} {offset now : UInt64} {data : Bytes}

/-- What a write does once its range has passed the check, in a build. -/
def BlockView.overwriteIn (b : Build) (id : CapsuleId) (name : Text) (volume : BlockVolume)
    (offset : UInt64) (data : Bytes) (now : UInt64) : BlockProg (Option Unit) := do
  let buffer ← BlockProg.readCapsule volume.capsuleId
  match b.copyInto buffer offset data with
  | none => return none
  | some buffer =>
    BlockView.replaceCapsule id name volume now buffer
    return some ()

/-- `BlockView::write`, past the test for an empty write, in a build. -/
def BlockView.rewriteIn (b : Build) (id : CapsuleId) (name : Text) (offset : UInt64) (data : Bytes)
    (now : UInt64) : BlockProg (Option Unit) := do
  let volume ← BlockProg.volume name
  b.guardRange volume.size offset (UInt64.ofNat data.length) "Write beyond end of volume"
    (BlockView.overwriteIn b id name volume offset data now)

/-- `BlockView::write`, in a build; `none` is a panic. -/
def BlockView.writeIn (b : Build) (id : CapsuleId) (name : Text) (offset : UInt64) (data : Bytes)
    (now : UInt64) : BlockProg (Option Unit) :=
  if data = [] then .ret (some ()) else BlockView.rewriteIn b id name offset data now

/-! ### What is asked of a write -/

/-- What a reader is answered. -/
def World.readOf (w : World P) (id : CapsuleId) : Except Error Bytes :=
  ((WritePipeline.readCapsule P id).run (World.exec []) w).1

/-- The pipeline once a capsule has been read. -/
def World.haveRead (w : World P) (id : CapsuleId) : World P :=
  ((WritePipeline.readCapsule P id).run (World.exec []) w).2

/-- The volume has the capsule `id`, which reads as what its old one was written from, with the
range overwritten; every other capsule reads as before. -/
def Overwrites (id : CapsuleId) (name : Text) (volume : BlockVolume) (offset : UInt64)
    (data : Bytes) (s : World P × BlockView)
    (r : Except Error (Option Unit) × World P × BlockView) : Prop :=
  ∃ bytes volume' s', s.1.holds volume.capsuleId = some bytes ∧
    offset.toNat + data.length ≤ bytes.length ∧ r = (.ok (some ()), s') ∧
    volume'.capsuleId = id ∧ volume'.size = volume.size ∧
    s'.2.volumes = s.2.volumes.insert name volume' ∧
    s'.1.readOf id = .ok (overlay bytes (offset.toNat, data)) ∧
    ∀ k, k ≠ id → k ≠ volume.capsuleId → s'.1.readOf k = s.1.readOf k

/-- A write over a range of a volume, by way of a new capsule `id`, is exact: it does not panic; it
overwrites the range, if that ends in the volume, and fails without effect if it does not, or if
there is no volume. -/
def WritesExactly (id : CapsuleId) (name : Text) (offset : UInt64) (data : Bytes)
    (s : World P × BlockView) (r : Except Error (Option Unit) × World P × BlockView) : Prop :=
  match s.2.volumes.lookup name with
  | none => ∃ e, r = (.error e, s)
  | some volume =>
    if offset.toNat + data.length ≤ volume.size.toNat then
      Overwrites id name volume offset data s r
    else ∃ e, r = (.error e, s)

/-- The capsule has the range, reads as far as its end, and what it reads as, with the range
overwritten, is taken back by the default policy as what the capsule was written from, with the
range overwritten. -/
def World.RewritesRange (w : World P) (id : CapsuleId) (offset : UInt64) (data : Bytes) : Prop :=
  ∃ bytes back, w.holds id = some bytes ∧ w.readings id = some back ∧
    offset.toNat + data.length ≤ bytes.length ∧ offset.toNat + data.length ≤ back.length ∧
    ({} : Policy).readsBack P (overlay back (offset.toNat, data)) =
      overlay bytes (offset.toNat, data)

/-- A range within the size of the volume is one that can be overwritten in its capsule; a sum that
overflows wraps, to one beyond the size, or the capsule is not there. -/
def Build.SafeWrite (b : Build) (s : World P × BlockView) (name : Text) (offset : UInt64)
    (data : Bytes) : Prop :=
  ∀ volume, s.2.volumes.lookup name = some volume →
    (offset.toNat + data.length ≤ volume.size.toNat →
      s.1.RewritesRange volume.capsuleId offset data) ∧
    (18446744073709551616 ≤ offset.toNat + data.length → b = .release ∧
      (volume.size < offset + UInt64.ofNat data.length ∨ s.1.cap volume.capsuleId = none))

/-- The capsule a write over a range comes to write, if any, is new, and is one that the service
would write. -/
def BlockView.Rewrites (U : Set Bytes) (id : CapsuleId) (name : Text) (offset : UInt64)
    (data : Bytes) (s : World P × BlockView) : Prop :=
  s.1.cap id = none ∧ ∀ volume back, s.2.volumes.lookup name = some volume →
    s.1.readings volume.capsuleId = some back → offset.toNat + data.length ≤ volume.size.toNat →
    offset.toNat + data.length ≤ back.length →
    (Command.write id (overlay back (offset.toNat, data)) {}).Serves U
      (s.1.haveRead volume.capsuleId)

/-! ### Reading and writing -/

/-- What reads enters nothing in the ledger. -/
theorem exec_reads_ledger {o : StoreOp} (ho : o.Reads) :
    (World.exec data o w).2.ledger = w.ledger := by
  cases o with
  | lookup | read | getSegmentMetadata | getKey => rfl
  | _ => exact ho.elim

/-- Reading a capsule leaves the state between commands, and the capsules as they are. -/
theorem World.haveRead_between (hB : Between (.reading P U keys True) w) (id : CapsuleId) :
    Between (.reading P U keys True) (w.haveRead id) ∧ (w.haveRead id).capsules = w.capsules ∧
      (w.haveRead id).ledger = w.ledger := by
  obtain ⟨g, hg, hI⟩ := hB
  obtain ⟨hreg, hnv, hk⟩ := readCapsule_unchanged w id
  have hledger : (w.haveRead id).ledger = w.ledger :=
    run_keeps (I := fun u : World P => u.ledger = w.ledger)
      (fun o _ ho hl => (exec_reads_ledger ho).trans hl) (uses_readCapsule id) rfl
  have hcap : ∀ k, (w.haveRead id).cap k = w.cap k := fun k => by
    unfold World.cap
    rw [show (w.haveRead id).store.registry = w.store.registry from hreg]
  refine ⟨⟨g, hg, hI.congr hledger hnv (by rw [World.haveRead, hreg]) (by rw [World.haveRead, hreg])
    (by rw [World.haveRead, hreg]) (fun k => by rw [hcap]) (fun x => ?_) hk⟩, ?_, hledger⟩
  · unfold World.occ
    rw [World.haveRead, hreg]
  · funext k
    unfold World.capsules
    rw [hcap]

/-- What a capsule reads as is as it was, if it is as it was and holds what it held. -/
theorem World.readings_of_holds {k : CapsuleId} (hc : w'.capsules k = w.capsules k)
    (hh : w'.holds k = w.holds k) : w'.readings k = w.readings k := by
  unfold World.readings
  rw [hc]
  cases hk : w.capsules k with
  | none => rfl
  | some c =>
      have hcap : ∀ {u : World P}, u.capsules k = some c →
          u.holds k = some (u.ledger.produced k) := fun {u} e => by
        obtain ⟨c', hc', -⟩ := Option.map_eq_some_iff.mp e
        exact World.holds_eq_some.mpr ⟨⟨c', hc'⟩, rfl⟩
      rw [hcap (hc.trans hk), hcap hk] at hh
      rw [Option.some.inj hh]

/-- The answer to a reader is a matter of what the capsule reads as. -/
theorem Between.readOf_congr (hB : Between (.reading P U keys True) w)
    (hB' : Between (.reading P U keys True) w') {k : CapsuleId}
    (h : w'.readings k = w.readings k) : w'.readOf k = w.readOf k := by
  cases hr : w.readings k with
  | some bytes => exact (hB'.reads_back (h.trans hr)).trans (hB.reads_back hr).symm
  | none =>
      have hnone : ∀ {u : World P}, u.readings k = none →
          u.readOf k = .error (.msg "Capsule not found") := fun {u} e => by
        have hcap : u.store.registry.capsules.lookup k = none :=
          Option.map_eq_none_iff.mp (Option.map_eq_none_iff.mp e)
        unfold World.readOf WritePipeline.readCapsule
        rw [run_bind, run_lookup, CapsuleRegistry.lookup, hcap]
      rw [hnone hr, hnone (h.trans hr)]

/-- **A write in the clear succeeds**, if its capsule is new, and then its capsule reads back as far
as the default policy takes it, and every other capsule as before. -/
theorem clearWrite_ok (hd : P.CodecsInverse) (hc : P.Compresses) {D : Discipline} {g : Ghost}
    (hI : World.Inv D w g) (hnew : w.cap id = none) :
    ((WritePipeline.writeCapsule P id data).run (World.exec data) w).1 = .ok id ∧
      ∀ k, ((WritePipeline.writeCapsule P id data).run (World.exec data) w).2.readings k =
        if k = id then some (({} : Policy).readsBack P data) else w.readings k := by
  have hlive : ∀ hash x, w.store.content hash = some x → w.store.seg x ≠ none := by
    intro hash x hx
    obtain ⟨segment, hseg, -⟩ := hI.lookup_some hx
    exact Option.ne_none_iff_exists'.mpr ⟨segment, hseg⟩
  obtain ⟨st, sₙ, hall⟩ := WritePipeline.chunks_stored {}
    (chunks SEGMENT_SIZE data).zipIdx {} w.store hlive fun chunk _ => by
      obtain ⟨view, r, hview⟩ := compressSegment_total hd hc chunk.1 ({} : Policy).compression
      rw [show w.store.keyFor {} = none from rfl, sealedChunk, hview]
      exact Option.some_ne_none _
  obtain ⟨s', hrun, hends⟩ := WritePipeline.writeCapsule_ok hall hnew
  have hok : ((WritePipeline.writeCapsule P id data).run (World.exec data) w).1 = .ok id := by
    rw [(World.run_store _ _ _).1]
    exact congrArg Prod.fst hrun
  have hstore : ((WritePipeline.writeCapsule P id data).run (World.exec data) w).2.store = s' := by
    rw [(World.run_store _ _ _).2]
    exact congrArg Prod.snd hrun
  have hwrote := wrote_writeCapsule w id data
  refine ⟨hok, fun k => ?_⟩
  generalize (WritePipeline.writeCapsule P id data).run (World.exec data) w = run at *
  obtain ⟨r, w'⟩ := run
  obtain rfl : r = .ok id := hok
  obtain ⟨-, -, hholds⟩ := hwrote
  split
  · next e =>
      subst e
      obtain ⟨bytes, hcap⟩ := hends.cap
      rw [← hstore] at hcap
      have hheld : w'.holds k = some data := by rw [hholds, Function.update_self]
      rw [World.readings_of_cap hcap, (World.holds_eq_some.mp hheld).2]
  · next e =>
      refine World.readings_of_holds ?_ (by rw [hholds, Function.update_of_ne e])
      unfold World.capsules
      rw [World.cap, hstore, hends.others k e]
      rfl

/-- **The contents are replaced**: the volume has the new capsule, which reads as far as the default
policy takes it back, and the old one is gone. -/
theorem replaceCapsule_run (now : UInt64) (hx : P.XtsInverse) (hU : P.NoCollision U)
    (hd : P.CodecsInverse) (hc : P.Compresses) (hB : Between (.reading P U keys True) w)
    (hnew : w.cap id = none) (hserves : (Command.write id data {}).Serves U w)
    (hn : v.volumes.lookup name = some volume) :
    ∃ w' v' volume', (BlockView.replaceCapsule id name volume now data).run BlockView.execOn
        (w, v) = (.ok (), w', v') ∧
      Between (.reading P U keys True) w' ∧ volume'.capsuleId = id ∧
      volume'.size = volume.size ∧ v'.volumes = v.volumes.insert name volume' ∧
      ∀ k, w'.readings k = if k = volume.capsuleId then none
        else if k = id then some (({} : Policy).readsBack P data) else w.readings k := by
  obtain ⟨g, hg, hI⟩ := hB
  have hB : Between (.reading P U keys True) w := ⟨g, hg, hI⟩
  obtain ⟨hok, hreads⟩ := @clearWrite_ok _ _ _ data hd hc _ _ hI hnew
  have hB₁ : Between (.reading P U keys True) ((Command.write id data {}).run w).2 :=
    Command.keeps trivial trivial (Command.Hashes.accepted hserves.2 hx hU hserves.1) hB
      fun o w' hv => hserves.1.allows hv
  have hrun : ((Command.write id data {}).run w).2 =
      ((WritePipeline.writeCapsule P id data).run (World.exec data) w).2 := run_discard _ _
  rw [hrun] at hB₁
  have hwrite : (BlockProg.writeCapsule id data).run (BlockView.execOn (P := P)) (w, v) =
      (.ok id, ((WritePipeline.writeCapsule P id data).run (World.exec data) w).2, v) :=
    (run_perform _ _ _).trans (Prod.ext hok rfl)
  generalize ((WritePipeline.writeCapsule P id data).run (World.exec data) w).2 = w₁ at *
  let volume' : BlockVolume := { volume with
    capsuleId := id, updatedAt := now, version := saturatingSucc64 volume.version }
  let v₁ : BlockView := { v with volumes := v.volumes.insert name volume' }
  have hswap : (BlockProg.swapCapsule name volume.capsuleId volume.version id now).run
      (BlockView.execOn (P := P)) (w₁, v) = (.ok true, w₁, v₁) := by
    refine (run_perform _ _ _).trans ?_
    simp only [BlockView.execOn, BlockOp.pipeline, BlockView.exec, hn, ne_eq, not_true_eq_false,
      or_self, if_false]
    rfl
  let v₂ : BlockView := if v₁.persistent then { v₁ with metadata := some v₁.volumes } else v₁
  have hsave : BlockProg.persist.run (BlockView.execOn (P := P)) (w₁, v₁) = (.ok (), w₁, v₂) :=
    run_perform _ _ _
  let w₂ := ((WritePipeline.deleteCapsule volume.capsuleId).run (World.exec []) w₁).2
  have hdrop : ∃ r, (BlockProg.dropCapsule volume.capsuleId).run (BlockView.execOn (P := P))
      (w₁, v₂) = (.ok r, w₂, v₂) :=
    ⟨_, (run_attempt _ _ _).trans (congrArg (fun r => (Except.ok r.1, r.2))
      (run_perform (BlockView.execOn (P := P)) (.deleteCapsule volume.capsuleId) (w₁, v₂)))⟩
  obtain ⟨r, hdrop⟩ := hdrop
  refine ⟨w₂, v₂, volume', ?_, between_delete trivial trivial hB₁ _, rfl, rfl, ?_, fun k => ?_⟩
  · unfold BlockView.replaceCapsule
    rw [run_bind, hwrite]
    dsimp only
    rw [run_bind, hswap]
    dsimp only
    rw [if_pos rfl, run_bind, hsave]
    dsimp only
    rw [run_bind, hdrop]
    rfl
  · show (if v₁.persistent then _ else v₁).volumes = _
    split <;> rfl
  · rw [show w₂.readings k = if k = volume.capsuleId then none else w₁.readings k from
      run_deleteCapsule_readings _ _ _, hreads]

/-! ### Copying -/

/-- Data that fits is laid over the contents; where it does not, the copy panics. -/
theorem Build.copyInto_of_lt {buffer : Bytes} (hl : data.length ≤ usizeMax)
    (h : offset.toNat + data.length < 18446744073709551616) :
    b.copyInto buffer offset data = if offset.toNat + data.length ≤ buffer.length then
      some (overlay buffer (offset.toNat, data)) else none := by
  have hlen : (UInt64.ofNat data.length).toNat = data.length :=
    Nat.mod_eq_of_lt (Nat.lt_succ_of_le hl)
  have hlt : offset.toNat + (UInt64.ofNat data.length).toNat < 18446744073709551616 := by
    rw [hlen]
    exact h
  unfold Build.copyInto
  rw [Build.add_of_lt hlt]
  dsimp only
  rw [toNat_add_of_lt hlt, hlen, copyFromSlice]
  split
  · next hin =>
      rw [if_pos hin.2.1]
      rfl
  · next hout =>
      rw [if_neg fun hin => hout ⟨Nat.le_add_right _ _, hin, (Nat.add_sub_cancel_left _ _).symm⟩]
      rfl

/-- A copy that ends before it starts panics. -/
theorem Build.copyInto_of_overflow {buffer : Bytes}
    (h : ¬ offset.toNat + (UInt64.ofNat data.length).toNat < 18446744073709551616) :
    b.copyInto buffer offset data = none := by
  unfold Build.copyInto
  cases b with
  | debug => rw [show Build.debug.add offset (UInt64.ofNat data.length) = none from if_neg h]
  | release =>
      dsimp only [Build.add]
      rw [copyFromSlice, if_neg fun k => absurd k.1 (Nat.not_le.mpr (toNat_add_lt h))]
      rfl

/-! ### The write -/

/-- A volume that is not there. -/
theorem run_rewriteIn_none (hn : s.2.volumes.lookup name = none) :
    (BlockView.rewriteIn b id name offset data now).run BlockView.execOn s =
      (.error (volumeNotFound name), s) := by
  have hlook : (BlockProg.volume name).run (BlockView.execOn (P := P)) s =
      (.error (volumeNotFound name), s) := by
    refine (run_perform _ _ _).trans ?_
    simp only [BlockView.execOn, BlockOp.pipeline, BlockView.exec, hn]
    rfl
  rw [BlockView.rewriteIn, run_bind, hlook]

/-- The volume of a write is looked up first, and its range is checked. -/
theorem run_rewriteIn_some (hn : s.2.volumes.lookup name = some volume) :
    (BlockView.rewriteIn b id name offset data now).run BlockView.execOn s =
      (b.guardRange volume.size offset (UInt64.ofNat data.length) "Write beyond end of volume"
        (BlockView.overwriteIn b id name volume offset data now)).run
          (BlockView.execOn (P := P)) s := by
  have hlook : (BlockProg.volume name).run (BlockView.execOn (P := P)) s = (.ok volume, s) := by
    refine (run_perform _ _ _).trans ?_
    simp only [BlockView.execOn, BlockOp.pipeline, BlockView.exec, hn]
    rfl
  rw [BlockView.rewriteIn, run_bind, hlook]

/-- A volume whose capsule is not there. -/
theorem run_overwriteIn_none (hcap : w.cap volume.capsuleId = none) :
    ∃ e, (BlockView.overwriteIn b id name volume offset data now).run BlockView.execOn (w, v) =
      (.error e, w, v) := by
  have hread : (WritePipeline.readCapsule P volume.capsuleId).run (World.exec []) w =
      (.error (.msg "Capsule not found"), w) := by
    rw [WritePipeline.readCapsule, run_bind, run_lookup, CapsuleRegistry.lookup,
      show w.store.registry.capsules.lookup volume.capsuleId = none from hcap]
  have hrun : (BlockProg.readCapsule volume.capsuleId).run (BlockView.execOn (P := P)) (w, v) =
      (.error (.msg "Capsule not found"), w, v) :=
    (run_perform _ _ _).trans (congrArg (fun r => (r.1, r.2, v)) hread)
  rw [BlockView.overwriteIn, run_bind, hrun]
  exact ⟨_, rfl⟩

/-- What follows, where it is. -/
theorem run_overwriteIn_some (hB : Between (.reading P U keys True) w) {back : Bytes}
    (hr : w.readings volume.capsuleId = some back) :
    (BlockView.overwriteIn b id name volume offset data now).run BlockView.execOn (w, v) =
      Prog.run (BlockView.execOn (P := P)) (match b.copyInto back offset data with
        | none => return none
        | some buffer => do
          BlockView.replaceCapsule id name volume now buffer
          return some ()) (w.haveRead volume.capsuleId, v) := by
  have hrun : (BlockProg.readCapsule volume.capsuleId).run (BlockView.execOn (P := P)) (w, v) =
      (.ok back, w.haveRead volume.capsuleId, v) :=
    (run_perform _ _ _).trans (Prod.ext (hB.reads_back hr) rfl)
  rw [BlockView.overwriteIn, run_bind, hrun]

/-- **A range that ends in the volume** is overwritten if and only if it can be. -/
theorem overwriteIn_iff (hx : P.XtsInverse) (hU : P.NoCollision U) (hd : P.CodecsInverse)
    (hc : P.Compresses) (hB : Between (.reading P U keys True) w) (hl : data.length ≤ usizeMax)
    (hrew : BlockView.Rewrites U id name offset data (w, v))
    (hn : v.volumes.lookup name = some volume)
    (hin : offset.toNat + data.length ≤ volume.size.toNat) :
    Overwrites id name volume offset data (w, v)
        ((BlockView.overwriteIn b id name volume offset data now).run BlockView.execOn (w, v)) ↔
      w.RewritesRange volume.capsuleId offset data := by
  have hlt : offset.toNat + data.length < 18446744073709551616 := hin.trans_lt volume.size.toNat_lt
  cases hcap : w.cap volume.capsuleId with
  | none =>
      have hnone : w.holds volume.capsuleId = none := by rw [World.holds, hcap]; rfl
      refine iff_of_false ?_ ?_
      · rintro ⟨bytes, -, -, hb, -⟩
        exact absurd (hnone.symm.trans hb) (Option.some_ne_none _).symm
      · rintro ⟨bytes, -, hb, -⟩
        exact absurd (hnone.symm.trans hb) (Option.some_ne_none _).symm
  | some c =>
      have hreads := World.readings_of_cap hcap
      generalize c.policy.readsBack P (w.ledger.produced volume.capsuleId) = back at hreads
      rw [run_overwriteIn_some hB hreads, Build.copyInto_of_lt hl hlt]
      by_cases hback : offset.toNat + data.length ≤ back.length
      · -- the copy is made
        rw [if_pos hback]
        dsimp only
        obtain ⟨hB₁, hcaps, hledger⟩ := w.haveRead_between hB volume.capsuleId
        have hnew : (w.haveRead volume.capsuleId).cap id = none :=
          Option.map_eq_none_iff.mp ((congrFun hcaps id).trans (by
            rw [World.capsules, hrew.1]; rfl))
        obtain ⟨w', v', volume', hrun, hB', hid, hsize, hvols, hread⟩ :=
          replaceCapsule_run now hx hU hd hc hB₁ hnew (hrew.2 _ _ hn hreads hin hback) hn
        rw [run_bind, hrun]
        have hne : id ≠ volume.capsuleId := fun e => by
          rw [← e] at hcap
          exact absurd (hrew.1.symm.trans hcap) (Option.some_ne_none _).symm
        have hanswer : w'.readOf id = .ok (({} : Policy).readsBack P
            (overlay back (offset.toNat, data))) :=
          hB'.reads_back (by rw [hread, if_neg hne, if_pos rfl])
        constructor
        · rintro ⟨bytes, -, s', hb, hle, hr, -, -, -, hover, -⟩
          obtain rfl := (Prod.mk.inj hr).2
          exact ⟨bytes, back, hb, hreads, hle, hback, Except.ok.inj (hanswer.symm.trans hover)⟩
        · rintro ⟨bytes, back', hb, hreads', hle, -, hover⟩
          obtain rfl := Option.some.inj (hreads.symm.trans hreads')
          refine ⟨bytes, volume', _, hb, hle, rfl, hid, hsize, hvols, hover ▸ hanswer,
            fun k hk hk' => hB.readOf_congr hB' ?_⟩
          rw [hread, if_neg hk', if_neg hk]
          exact congrFun (World.readings_congr hcaps (by rw [hledger])) k
      · -- the copy panics
        rw [if_neg hback]
        refine iff_of_false ?_ ?_
        · rintro ⟨bytes, -, s', -, -, hr, -⟩
          cases (Prod.mk.inj hr).1
        · rintro ⟨bytes, back', -, hreads', -, hle, -⟩
          obtain rfl := Option.some.inj (hreads.symm.trans hreads')
          exact hback hle

/-- **The write of a block view** is exact if and only if it is safe. -/
theorem writeIn_exact_iff (hx : P.XtsInverse) (hU : P.NoCollision U) (hd : P.CodecsInverse)
    (hc : P.Compresses) (hB : Between (.reading P U keys True) s.1) (hl : data.length ≤ usizeMax)
    (hne : data ≠ []) (hrew : BlockView.Rewrites U id name offset data s) :
    WritesExactly id name offset data s
        ((BlockView.writeIn b id name offset data now).run BlockView.execOn s) ↔
      b.SafeWrite s name offset data := by
  obtain ⟨w, v⟩ := s
  have hlen : (UInt64.ofNat data.length).toNat = data.length :=
    Nat.mod_eq_of_lt (Nat.lt_succ_of_le hl)
  rw [BlockView.writeIn, if_neg hne]
  unfold WritesExactly Build.SafeWrite
  dsimp only
  cases hn : v.volumes.lookup name with
  | none =>
      refine iff_of_true ⟨_, run_rewriteIn_none hn⟩ fun _ k => by cases k
  | some volume =>
  have hsafe : ∀ {p : BlockVolume → Prop}, (∀ volume', some volume = some volume' → p volume') ↔
      p volume := fun {p} => ⟨fun k => k volume rfl, fun k volume' e => Option.some.inj e ▸ k⟩
  rw [run_rewriteIn_some (s := (w, v)) hn, hsafe]
  dsimp only
  by_cases hin : offset.toNat + data.length ≤ volume.size.toNat
  · have hlt := hin.trans_lt volume.size.toNat_lt
    have hadd : offset.toNat + (UInt64.ofNat data.length).toNat < 18446744073709551616 := by
      rw [hlen]
      exact hlt
    rw [if_pos hin]
    unfold Build.guardRange
    rw [Build.add_of_lt hadd]
    dsimp only
    rw [if_neg fun k => absurd (UInt64.lt_iff_toNat_lt.mp k) (by
      rw [toNat_add_of_lt hadd, hlen]
      exact Nat.not_lt.mpr hin), overwriteIn_iff hx hU hd hc hB hl hrew hn hin]
    exact ⟨fun k => ⟨fun _ => k, fun hover => absurd hlt (Nat.not_lt.mpr hover)⟩, fun k => k.1 hin⟩
  rw [if_neg hin]
  unfold Build.guardRange
  by_cases hadd : offset.toNat + (UInt64.ofNat data.length).toNat < 18446744073709551616
  · -- the sum is the true one, and beyond the size
    rw [Build.add_of_lt hadd]
    dsimp only
    rw [if_pos (UInt64.lt_iff_toNat_lt.mpr (by
      rw [toNat_add_of_lt hadd, hlen]
      exact Nat.not_le.mp hin))]
    rw [hlen] at hadd
    exact iff_of_true ⟨_, rfl⟩ ⟨fun k => absurd k hin, fun hover =>
      absurd hadd (Nat.not_lt.mpr hover)⟩
  -- the sum overflows
  have hover : 18446744073709551616 ≤ offset.toNat + data.length := by
    rw [hlen] at hadd
    exact Nat.not_lt.mp hadd
  have hiff : ∀ {p q : Prop}, ((offset.toNat + data.length ≤ volume.size.toNat → p) ∧
      (18446744073709551616 ≤ offset.toNat + data.length → q)) ↔ q :=
    fun {p q} => ⟨fun k => k.2 hover, fun k => ⟨fun h => absurd h hin, fun _ => k⟩⟩
  rw [hiff]
  cases b with
  | debug =>
      rw [show Build.debug.add offset (UInt64.ofNat data.length) = none from if_neg hadd]
      refine iff_of_false ?_ fun k => by cases k.1
      rintro ⟨e, he⟩
      cases (Prod.mk.inj he).1
  | release =>
      rw [show Build.release.add offset (UInt64.ofNat data.length) =
        some (offset + UInt64.ofNat data.length) from rfl]
      dsimp only
      by_cases hwrap : volume.size < offset + UInt64.ofNat data.length
      · rw [if_pos hwrap]
        exact iff_of_true ⟨_, rfl⟩ ⟨rfl, .inl hwrap⟩
      rw [if_neg hwrap]
      cases hcap : w.cap volume.capsuleId with
      | none => exact iff_of_true (run_overwriteIn_none hcap) ⟨rfl, .inr rfl⟩
      | some c =>
          rw [run_overwriteIn_some hB (World.readings_of_cap hcap),
            Build.copyInto_of_overflow hadd]
          refine iff_of_false ?_ ?_
          · rintro ⟨e, he⟩
            cases (Prod.mk.inj he).1
          · rintro ⟨-, k | k⟩
            · exact hwrap k
            · cases k

/-- **The range checks.**  Over any pipeline a service comes to, in a build of either kind,
`read_range` of the pipeline, the read and the write of a block view, and the range read of a file
view are exact if and only if they are safe. -/
theorem range_checks_exact_iff (hx : P.XtsInverse) (hd : P.CodecsInverse) (hc : P.Compresses)
    (hU : P.NoCollision U)
    (h : Service (fun c w => c.Serves U w ∧ c.data.length ≤ usizeMax) keys w) (b : Build)
    (offset : UInt64) :
    (∀ id len, ReadsExactly (w.target id) offset len w
        ((WritePipeline.readRangeIn P b id offset len).run (World.exec []) w) ↔
      b.Safe w (w.target id) offset len) ∧
    (∀ (v : BlockView) name len, ReadsExactly (v.target name) offset len w
        ((v.readIn P b name offset len).run (World.exec []) w) ↔
      b.Safe w (v.target name) offset len) ∧
    (∀ (v : BlockView) id name data now, data ≠ [] → data.length ≤ usizeMax →
      BlockView.Rewrites U id name offset data (w, v) →
      (WritesExactly id name offset data (w, v)
          ((BlockView.writeIn b id name offset data now).run BlockView.execOn (w, v)) ↔
        b.SafeWrite (w, v) name offset data)) ∧
    ∀ (v : NfsView) path len, ReadsExactly (v.target path) offset len w
        ((v.readRangeIn P b path offset len).run (World.exec []) w) ↔
      b.Safe w (v.target path) offset len := by
  obtain ⟨hB, hz, hl⟩ := @service_holds _ _ _ _ (fun bytes => bytes.length ≤ usizeMax) hx hU h
  refine ⟨fun id len => ?_, fun v name len => ?_, fun v id name data now hne hmax hrew => ?_,
    fun v path len => ?_⟩
  · exact (readRangeIn_ranged hB id).exact_iff hz hl
  · exact (v.readIn_ranged hB name).exact_iff hz hl
  · exact writeIn_exact_iff hx hU hd hc hB hmax hne hrew
  · exact (v.readRangeIn_ranged hB path).exact_iff hz hl

/-! ### The last byte of the type -/

/-- A pipeline that holds a capsule of seven bytes. -/
def sampleHeld : World .stored := ((Command.write ⟨0⟩ unframed {}).run (World.empty none)).2

/-- A view with a volume over it. -/
def sampleView : BlockView :=
  { BlockView.open none with volumes := AList.insert ['a'] ⟨['a'], 7, 7, ⟨0⟩, 0, 0, 1⟩ ∅ }

theorem sampleHeld_service {U : Set Bytes} (h : unframed ∈ U) :
    Service (fun c w => c.Serves U w ∧ c.data.length ≤ usizeMax) none sampleHeld := by
  have hserves : (Command.write ⟨0⟩ unframed {}).Serves U (World.empty (P := .stored) none) :=
    ⟨Command.unsaturated_of_along (by decide +kernel) (by simp),
      show (Command.write ⟨0⟩ unframed {}).HashesIn .stored U from
        hashesIn_of_raw (by decide) h rfl⟩
  exact .command _ (.start none rfl) ⟨hserves, by decide⟩

/-- The last two bytes of it are overwritten. -/
theorem range_checks_exact_iff_write :
    WritesExactly ⟨1⟩ ['a'] 5 [8, 9] (sampleHeld, sampleView)
      ((BlockView.writeIn .debug ⟨1⟩ ['a'] 5 [8, 9] 0).run BlockView.execOn
        (sampleHeld, sampleView)) := by
  have hlook : sampleView.volumes.lookup ['a'] = some ⟨['a'], 7, 7, ⟨0⟩, 0, 0, 1⟩ :=
    AList.lookup_insert _
  have hreads : sampleHeld.readings ⟨0⟩ = some unframed := by decide +kernel
  have hrew : BlockView.Rewrites {unframed, [1, 2, 3, 4, 5, 8, 9]} ⟨1⟩ ['a'] 5 [8, 9]
      (sampleHeld, sampleView) := by
    refine ⟨by decide +kernel, fun volume back hn hr _ _ => ?_⟩
    obtain rfl := Option.some.inj (hlook.symm.trans hn)
    obtain rfl := Option.some.inj (hreads.symm.trans hr)
    rw [show overlay unframed ((5 : UInt64).toNat, [8, 9]) = [1, 2, 3, 4, 5, 8, 9] by decide]
    exact ⟨Command.unsaturated_of_along (by decide +kernel) (by simp),
      show (Command.write ⟨1⟩ [1, 2, 3, 4, 5, 8, 9] {}).HashesIn .stored _ from
        hashesIn_of_raw (by decide) (.inr rfl) rfl⟩
  have hU : Primitives.stored.NoCollision {unframed, [1, 2, 3, 4, 5, 8, 9]} :=
    Set.injOn_pair.mpr fun e => absurd e (by decide)
  refine ((range_checks_exact_iff Primitives.stored_xts Primitives.stored_codecs
    Primitives.stored_compresses hU (sampleHeld_service (.inl rfl)) .debug 5).2.2.1 sampleView ⟨1⟩
    ['a'] [8, 9] 0 (by decide) (by decide) hrew).mpr fun volume hn => ?_
  obtain rfl := Option.some.inj (hlook.symm.trans hn)
  exact ⟨fun _ => ⟨unframed, unframed, by decide +kernel, hreads, by decide, by decide,
    by decide +kernel⟩, fun hover => absurd hover (by decide)⟩

/-- **One byte at the last offset** of the type, in a capsule of seven: the sum wraps to zero,
passes the check, and the slice ends before it starts. -/
theorem not_range_checks_exact :
    ¬ ∀ (P : Primitives) (U : Set Bytes) (b : Build) (offset len : UInt64)
      (keys : Option (UInt32 → XtsKeyPair)) (w : World P) (id : CapsuleId), P.XtsInverse →
      P.CodecsInverse → P.Compresses → P.NoCollision U →
      Service (fun c w => c.Serves U w ∧ c.data.length ≤ usizeMax) keys w →
      ReadsExactly (w.target id) offset len w
        ((WritePipeline.readRangeIn P b id offset len).run (World.exec []) w) := by
  intro h
  have hexact := h _ _ .release 18446744073709551615 1 _ _ ⟨0⟩ Primitives.stored_xts
    Primitives.stored_codecs Primitives.stored_compresses (Set.injOn_singleton _ _)
    (sampleHeld_service (Set.mem_singleton unframed))
  rw [show World.target sampleHeld ⟨0⟩ = some (7, ⟨0⟩) by decide +kernel] at hexact
  have hpanic : ((WritePipeline.readRangeIn .stored .release ⟨0⟩ 18446744073709551615 1).run
      (World.exec []) sampleHeld).1 = .ok none := by
    decide +kernel
  unfold ReadsExactly at hexact
  dsimp only at hexact
  rw [if_neg (by decide)] at hexact
  obtain ⟨e, he⟩ := hexact
  rw [he] at hpanic
  cases hpanic

end Space

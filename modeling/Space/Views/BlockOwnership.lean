import Space.Support.Custody
import Space.Views.BlockLinear

/-!
# Views — BlockOwnership

Who owns the capsules of the block view.  A call creates its capsule before it takes the lock, and
every exit that does not give the capsule to a volume has to delete it again.  One does not: the
write whose volume has gone when it comes to swap the capsules.

* `Tries`: what the operations may do when the pipeline may refuse a write or a read.
* `BlockView.lostBy`: the capsule a step leaves to nobody.
* `Balanced`: the capsules that are live are those of the volumes, those the open calls hold, and
  those that were lost, each in one place.
* `blockView_owns_iff`: when no call is open the volumes own what was created, exactly if nothing
  was lost.
-/

namespace Space
open Support Prog

/-! ### The view, over a pipeline that may refuse -/

/-- A call of the pipeline that may fail whatever the state is; deletes do not. -/
def BlockOp.Refusable : BlockOp → Prop
  | .writeCapsule _ _ => True
  | .readCapsule _ => True
  | .readRange _ _ _ => True
  | _ => False

namespace BlockView

/-- What the operations may do.  A write that fails may have entered its capsule all the same. -/
def Tries : Moves BlockSig Error BlockView := fun o v r v' =>
  Fresh o v ∧ (exec o v = (r, v') ∨
    o.Refusable ∧ (∃ e, r = .error e) ∧ (v' = v ∨ v' = (exec o v).2))

/-- The capsules of the volumes. -/
def capsuleIds (v : BlockView) : List CapsuleId := v.volumes.values.map BlockVolume.capsuleId

def Live (v : BlockView) (id : CapsuleId) : Prop := (v.store.capsules.lookup id).isSome

instance (v : BlockView) (id : CapsuleId) : Decidable (v.Live id) :=
  inferInstanceAs (Decidable ((v.store.capsules.lookup id).isSome = true))

/-- The live capsules that were created since `v₀` are those of the volumes, which are different. -/
structure Owns (v₀ v : BlockView) : Prop where
  exact : ∀ id, id ∈ v.capsuleIds ↔ v.Live id ∧ id ∉ v₀.store.used
  distinct : v.capsuleIds.Nodup

/-- The capsule a step leaves to nobody: that of a write whose volume has gone, or one that was
entered by a write of the pipeline that failed. -/
def lostBy (o : BlockOp) (v : BlockView) (r : Except Error o.Res) (v' : BlockView) :
    List CapsuleId :=
  match o, r with
  | .swapCapsule name _ _ newCapsule _, _ =>
    if (v.volumes.lookup name).isSome then [] else [newCapsule]
  | .writeCapsule id _, .error _ => if v'.Live id then [id] else []
  | _, _ => []

/-- The same, with a note of what was lost. -/
def Loses : Moves BlockSig Error (BlockView × List CapsuleId) :=
  noting Tries fun o v r v' lost => lostBy o v r v' ++ lost

/-! ### Where the capsules are -/

/-- The capsules of the volumes, those that are held, and those that were lost. -/
def placed (v : BlockView) (lost : List CapsuleId) (g : Multiset CapsuleId) :
    Multiset CapsuleId := v.capsuleIds + g + lost

/-- **The invariant.**  What was created since `v₀` and is live is in one place. -/
structure Balanced (v₀ : BlockView) (s : BlockView × List CapsuleId) (g : Multiset CapsuleId) :
    Prop where
  exact : ∀ id, id ∈ placed s.1 s.2 g ↔ s.1.Live id ∧ id ∉ v₀.store.used
  nodup : (placed s.1 s.2 g).Nodup
  used : v₀.store.used ⊆ s.1.store.used

namespace Balanced
variable {v₀ v v' : BlockView} {lost lost' : List CapsuleId} {g g' : Multiset CapsuleId}

/-- A capsule changes its place. -/
theorem transfer (h : Balanced v₀ (v, lost) g) (hp : placed v' lost' g' = placed v lost g)
    (hs : v'.store = v.store) : Balanced v₀ (v', lost') g' where
  exact := by
    intro id
    show id ∈ placed v' lost' g' ↔ _
    rw [hp, h.exact id, Live, Live, hs]
  nodup := by
    show (placed v' lost' g').Nodup
    rw [hp]
    exact h.nodup
  used := by
    show _ ⊆ v'.store.used
    rw [hs]
    exact h.used

/-- A capsule is created. -/
theorem enter {id : CapsuleId} {data : Bytes} (h : Balanced v₀ (v, lost) g)
    (hid : id ∉ v.store.used) (hp : placed v' lost' g' = id ::ₘ placed v lost g)
    (hs : v'.store = v.store.write id data) : Balanced v₀ (v', lost') g' := by
  have hdead : ¬ v.Live id := fun k => by
    obtain ⟨data, hd⟩ := Option.isSome_iff_exists.mp k
    exact hid (v.store.capsules_used _ _ hd)
  have hlive : ∀ k, v'.Live k ↔ k = id ∨ v.Live k := by
    intro k
    rw [Live, Live, hs]
    show ((v.store.capsules.insert id data).lookup k).isSome ↔ _
    rw [Table.lookup_insert]
    by_cases hk : k = id
    · simp [hk]
    · simp [hk]
  refine ⟨fun k => ?_, ?_, ?_⟩
  · show k ∈ placed v' lost' g' ↔ v'.Live k ∧ _
    rw [hp, Multiset.mem_cons, h.exact k, hlive]
    constructor
    · rintro (rfl | ⟨hk, hu⟩)
      · exact ⟨.inl rfl, fun hu => hid (h.used hu)⟩
      · exact ⟨.inr hk, hu⟩
    · rintro ⟨rfl | hk, hu⟩
      · exact .inl rfl
      · exact .inr ⟨hk, hu⟩
  · show (placed v' lost' g').Nodup
    rw [hp]
    exact Multiset.nodup_cons.mpr ⟨fun k => hdead ((h.exact id).mp k).1, h.nodup⟩
  · show _ ⊆ v'.store.used
    rw [hs]
    exact fun k hk => List.mem_cons_of_mem _ (h.used hk)

/-- A capsule is deleted. -/
theorem leave (id : CapsuleId) (h : Balanced v₀ (v, lost) g)
    (hp : placed v lost g = id ::ₘ placed v' lost' g') (hs : v'.store = v.store.delete id) :
    Balanced v₀ (v', lost') g' := by
  have hnd := h.nodup
  rw [show placed (v, lost).1 (v, lost).2 g = id ::ₘ placed v' lost' g' from hp,
    Multiset.nodup_cons] at hnd
  refine ⟨fun k => ?_, hnd.2, ?_⟩
  · have hk := h.exact k
    rw [show placed (v, lost).1 (v, lost).2 g = id ::ₘ placed v' lost' g' from hp,
      Multiset.mem_cons] at hk
    show k ∈ placed v' lost' g' ↔ v'.Live k ∧ _
    rw [Live, hs]
    show _ ↔ ((v.store.capsules.erase id).lookup k).isSome ∧ _
    rw [Table.lookup_erase]
    by_cases e : k = id
    · subst e
      rw [if_pos rfl]
      exact ⟨fun hm => absurd hm hnd.1, fun hm => absurd hm.1 Bool.false_ne_true⟩
    · rw [if_neg e]
      exact (or_iff_right e).symm.trans hk
  · show _ ⊆ v'.store.used
    rw [hs]
    exact h.used

end Balanced

/-! ### The capsules of the volumes -/

variable {v₀ v v' : BlockView} {lost : List CapsuleId} {g g' f : Multiset CapsuleId}

theorem capsuleIds_insert {name : Text} {volume : BlockVolume}
    (h : v'.volumes = v.volumes.insert name volume) (hn : v.volumes.lookup name = none) :
    (v'.capsuleIds : Multiset CapsuleId) = volume.capsuleId ::ₘ (v.capsuleIds : Multiset _) := by
  rw [capsuleIds, h, Table.values_insert, Table.erase_of_lookup_none hn]
  rfl

theorem capsuleIds_erase {name : Text} {volume : BlockVolume} (v' : BlockView)
    (h : v'.volumes = v.volumes.erase name) (hn : v.volumes.lookup name = some volume) :
    (v.capsuleIds : Multiset CapsuleId) = volume.capsuleId ::ₘ (v'.capsuleIds : Multiset _) := by
  rw [capsuleIds, capsuleIds, h]
  exact Multiset.coe_eq_coe.mpr ((Table.values_perm_erase hn).map _)

theorem capsuleIds_swap {name : Text} {volume : BlockVolume} (volume' : BlockVolume)
    (h : v'.volumes = v.volumes.insert name volume') (hn : v.volumes.lookup name = some volume) :
    volume.capsuleId ::ₘ (v'.capsuleIds : Multiset CapsuleId) =
      volume'.capsuleId ::ₘ (v.capsuleIds : Multiset _) := by
  have herase : (v.capsuleIds : Multiset CapsuleId) = volume.capsuleId ::ₘ
      ((Table.values (v.volumes.erase name)).map BlockVolume.capsuleId : List CapsuleId) := by
    rw [capsuleIds]
    exact Multiset.coe_eq_coe.mpr ((Table.values_perm_erase hn).map _)
  rw [herase, capsuleIds, h, Table.values_insert, Multiset.cons_swap]
  rfl

/-! ### What a thread holds -/

/-- What a thread must hold to call an operation. -/
def mayHold : BlockOp → Multiset CapsuleId → Prop
  | .writeCapsule _ _, g => g = 0
  | .insertVolume volume, g => g = {volume.capsuleId}
  | .swapCapsule _ _ _ newCapsule _, g => g = {newCapsule}
  | .removeVolume _, g => g = 0
  | .deleteCapsule id, g => g = {id}
  | _, _ => True

/-- What an outcome makes of it. -/
def holds : Moves BlockSig Error (Multiset CapsuleId)
  | .writeCapsule id _, _, r, g' => r = .ok id ∧ g' = {id} ∨ (∃ e, r = .error e) ∧ g' = 0
  | .insertVolume _, g, r, g' => r = .ok true ∧ g' = 0 ∨ r = .ok false ∧ g' = g
  | .swapCapsule _ id _ _ _, g, r, g' =>
    r = .ok true ∧ g' = {id} ∨ r = .ok false ∧ g' = g ∨ (∃ e, r = .error e) ∧ g' = 0
  | .removeVolume _, _, r, g' => (∃ id, r = .ok id ∧ g' = {id}) ∨ (∃ e, r = .error e) ∧ g' = 0
  | .deleteCapsule _, _, r, g' => r = .ok () ∧ g' = 0
  | .persist, g, r, g' => r = .ok () ∧ g' = g
  | _, g, _, g' => g' = g

/-- **A step of the view.** -/
def Kept (v₀ : BlockView) (o : BlockOp) (v : BlockView) (lost : List CapsuleId)
    (g f : Multiset CapsuleId) (r : Except Error o.Res) (v' : BlockView) : Prop :=
  ∃ g', holds o g r g' ∧ Balanced v₀ (v', lostBy o v r v' ++ lost) (g' + f)

/-- Nothing is created, deleted or lost. -/
theorem kept_same {o : BlockOp} {r : Except Error o.Res} (h : Balanced v₀ (v, lost) (g + f))
    (hg : holds o g r g) (hlost : lostBy o v r v' = []) (hvol : v'.volumes = v.volumes)
    (hs : v'.store = v.store) : Kept v₀ o v lost g f r v' := by
  refine ⟨g, hg, h.transfer ?_ hs⟩
  rw [hlost, placed, placed, capsuleIds, capsuleIds, hvol]
  rfl

theorem kept_writeCapsule {id : CapsuleId} {data : Bytes} {r : Except Error CapsuleId}
    (h : Balanced v₀ (v, lost) (g + f)) (hg : g = 0)
    (hr : Tries (.writeCapsule id data) v r v') :
    Kept v₀ (.writeCapsule id data) v lost g f r v' := by
  subst hg
  rw [zero_add] at h
  obtain ⟨hid, hexec | ⟨-, ⟨e, rfl⟩, rfl | rfl⟩⟩ := hr
  · obtain ⟨rfl, rfl⟩ := Prod.mk.inj hexec
    refine ⟨{id}, .inl ⟨rfl, rfl⟩, h.enter hid ?_ rfl⟩
    show (v.capsuleIds : Multiset CapsuleId) + ({id} + f) + (lost : Multiset CapsuleId) =
      id ::ₘ ((v.capsuleIds : Multiset CapsuleId) + f + (lost : Multiset CapsuleId))
    rw [Multiset.singleton_add, Multiset.add_cons, Multiset.cons_add]
  · -- refused, and nothing was entered
    have hdead : ¬ v'.Live id := fun k => by
      obtain ⟨data, hd⟩ := Option.isSome_iff_exists.mp k
      exact hid (v'.store.capsules_used _ _ hd)
    refine ⟨0, .inr ⟨⟨e, rfl⟩, rfl⟩, ?_⟩
    show Balanced v₀ (v', (if v'.Live id then [id] else []) ++ lost) (0 + f)
    rw [if_neg hdead, zero_add]
    exact h
  · -- refused, and the capsule is there
    have hlive : (exec (.writeCapsule id data) v).2.Live id := by
      show ((v.store.capsules.insert id data).lookup id).isSome
      rw [AList.lookup_insert]
      rfl
    refine ⟨0, .inr ⟨⟨e, rfl⟩, rfl⟩, ?_⟩
    show Balanced v₀ (_, (if (exec (.writeCapsule id data) v).2.Live id then [id] else []) ++ lost)
      (0 + f)
    rw [if_pos hlive, zero_add]
    refine h.enter hid ?_ rfl
    show (v.capsuleIds : Multiset CapsuleId) + f + (([id] ++ lost : List CapsuleId) : Multiset _) =
      id ::ₘ ((v.capsuleIds : Multiset CapsuleId) + f + (lost : Multiset CapsuleId))
    rw [List.singleton_append, ← Multiset.cons_coe, Multiset.add_cons]

theorem kept_insertVolume {volume : BlockVolume} (h : Balanced v₀ (v, lost) (g + f))
    (hg : g = {volume.capsuleId}) :
    Kept v₀ (.insertVolume volume) v lost g f (exec (.insertVolume volume) v).1
      (exec (.insertVolume volume) v).2 := by
  cases hl : v.volumes.lookup volume.name with
  | some volume' =>
      have hexec : exec (.insertVolume volume) v = (.ok false, v) := by
        simp only [exec, hl, Option.isSome_some, if_true]
      rw [hexec]
      exact kept_same h (.inr ⟨rfl, rfl⟩) rfl rfl rfl
  | none =>
      have hexec : exec (.insertVolume volume) v =
          (.ok true, { v with volumes := v.volumes.insert volume.name volume }) := by
        simp only [exec, hl, Option.isSome_none, Bool.false_eq_true, if_false]
      rw [hexec]
      refine ⟨0, .inl ⟨rfl, rfl⟩, h.transfer ?_ rfl⟩
      show (capsuleIds { v with volumes := v.volumes.insert volume.name volume } :
        Multiset CapsuleId) + (0 + f) + ((lost : List CapsuleId) : Multiset CapsuleId) =
        (v.capsuleIds : Multiset CapsuleId) + (g + f) + (lost : Multiset CapsuleId)
      rw [capsuleIds_insert rfl hl, hg, zero_add, Multiset.cons_add, Multiset.singleton_add,
        Multiset.add_cons]

theorem kept_removeVolume {name : Text} (h : Balanced v₀ (v, lost) (g + f)) (hg : g = 0) :
    Kept v₀ (.removeVolume name) v lost g f (exec (.removeVolume name) v).1
      (exec (.removeVolume name) v).2 := by
  subst hg
  cases hl : v.volumes.lookup name with
  | none =>
      have hexec : exec (.removeVolume name) v = (.error (volumeNotFound name), v) := by
        simp only [exec, hl]
      rw [hexec]
      exact kept_same h (.inr ⟨⟨_, rfl⟩, rfl⟩) rfl rfl rfl
  | some volume =>
      have hexec : exec (.removeVolume name) v =
          (.ok volume.capsuleId, { v with volumes := v.volumes.erase name }) := by
        simp only [exec, hl]
      rw [hexec]
      refine ⟨{volume.capsuleId}, .inl ⟨_, rfl, rfl⟩, h.transfer ?_ rfl⟩
      show (capsuleIds { v with volumes := v.volumes.erase name } : Multiset CapsuleId) +
        ({volume.capsuleId} + f) + ((lost : List CapsuleId) : Multiset CapsuleId) =
        (v.capsuleIds : Multiset CapsuleId) + (0 + f) + (lost : Multiset CapsuleId)
      rw [capsuleIds_erase { v with volumes := v.volumes.erase name } rfl hl, zero_add,
        Multiset.cons_add, Multiset.singleton_add, Multiset.add_cons]

theorem kept_swapCapsule {name : Text} {id newCapsule : CapsuleId} {version now : UInt64}
    (h : Balanced v₀ (v, lost) (g + f)) (hg : g = {newCapsule}) :
    Kept v₀ (.swapCapsule name id version newCapsule now) v lost g f
      (exec (.swapCapsule name id version newCapsule now) v).1
      (exec (.swapCapsule name id version newCapsule now) v).2 := by
  cases hl : v.volumes.lookup name with
  | none =>
      -- the volume has gone, and with it whoever would delete the capsule
      have hexec : exec (.swapCapsule name id version newCapsule now) v =
          (.error (volumeNotFound name), v) := by
        simp only [exec, hl]
      rw [hexec]
      refine ⟨0, .inr (.inr ⟨⟨_, rfl⟩, rfl⟩), h.transfer ?_ rfl⟩
      rw [lostBy, hl, hg]
      show (v.capsuleIds : Multiset CapsuleId) + (0 + f) +
        (([newCapsule] ++ lost : List CapsuleId) : Multiset CapsuleId) =
        (v.capsuleIds : Multiset CapsuleId) + ({newCapsule} + f) + (lost : Multiset CapsuleId)
      rw [List.singleton_append, ← Multiset.cons_coe, zero_add, Multiset.singleton_add,
        Multiset.add_cons, Multiset.add_cons, Multiset.cons_add]
  | some volume =>
      have hlost : ∀ r v', lostBy (.swapCapsule name id version newCapsule now) v r v' = [] := by
        intro r v'
        rw [lostBy, hl]
        rfl
      by_cases hc : volume.version ≠ version ∨ volume.capsuleId ≠ id
      · have hexec : exec (.swapCapsule name id version newCapsule now) v = (.ok false, v) := by
          simp only [exec, hl, if_pos hc]
        rw [hexec]
        exact kept_same h (.inr (.inl ⟨rfl, rfl⟩)) (hlost _ _) rfl rfl
      · obtain ⟨rfl, rfl⟩ : volume.version = version ∧ volume.capsuleId = id := by
          simpa only [not_or, not_not] using hc
        have hexec : exec (.swapCapsule name volume.capsuleId volume.version newCapsule now) v =
            (.ok true, { v with volumes := v.volumes.insert name { volume with
              capsuleId := newCapsule, updatedAt := now,
              version := saturatingSucc64 volume.version } }) := by
          simp only [exec, hl, if_neg hc]
        rw [hexec]
        refine ⟨{volume.capsuleId}, .inl ⟨rfl, rfl⟩, h.transfer ?_ rfl⟩
        rw [hlost, hg]
        let swapped : BlockVolume := { volume with
          capsuleId := newCapsule, updatedAt := now, version := saturatingSucc64 volume.version }
        have hswap : volume.capsuleId ::ₘ
            (capsuleIds { v with volumes := v.volumes.insert name swapped } : Multiset CapsuleId) =
            newCapsule ::ₘ (v.capsuleIds : Multiset CapsuleId) := capsuleIds_swap swapped rfl hl
        show (capsuleIds { v with volumes := v.volumes.insert name swapped } :
          Multiset CapsuleId) + ({volume.capsuleId} + f) +
          ((lost : List CapsuleId) : Multiset CapsuleId) =
          (v.capsuleIds : Multiset CapsuleId) + ({newCapsule} + f) + (lost : Multiset CapsuleId)
        rw [Multiset.singleton_add, Multiset.singleton_add, Multiset.add_cons, Multiset.add_cons,
          ← Multiset.cons_add, ← Multiset.cons_add, hswap]

/-- A capsule that is held is live, so it can be deleted. -/
theorem kept_deleteCapsule {id : CapsuleId} (h : Balanced v₀ (v, lost) (g + f)) (hg : g = {id}) :
    Kept v₀ (.deleteCapsule id) v lost g f (exec (.deleteCapsule id) v).1
      (exec (.deleteCapsule id) v).2 := by
  subst hg
  have hplaced : placed v lost ({id} + f) = id ::ₘ placed v lost f := by
    rw [placed, placed, Multiset.singleton_add, Multiset.add_cons, Multiset.cons_add]
  have hlive : v.Live id := ((h.exact id).mp (by
    show id ∈ placed v lost ({id} + f)
    rw [hplaced]
    exact Multiset.mem_cons_self _ _)).1
  obtain ⟨data, hl⟩ := Option.isSome_iff_exists.mp hlive
  have hexec : exec (.deleteCapsule id) v = (.ok (), { v with store := v.store.delete id }) := by
    simp only [exec, hl]
  rw [hexec]
  refine ⟨0, ⟨rfl, rfl⟩, h.leave id ?_ rfl⟩
  rw [hplaced, zero_add]
  rfl

/-- **One operation of any call.** -/
theorem kept {o : BlockOp} {r : Except Error o.Res} (h : Balanced v₀ (v, lost) (g + f))
    (hm : mayHold o g) (hr : Tries o v r v') : Kept v₀ o v lost g f r v' := by
  have hdone : ∀ (o : BlockOp) {r : Except Error o.Res}, ¬ o.Refusable → Tries o v r v' →
      r = (exec o v).1 ∧ v' = (exec o v).2 := by
    rintro o r hn ⟨-, hexec | ⟨hf, -⟩⟩
    · rw [hexec]
      exact ⟨rfl, rfl⟩
    · exact absurd hf hn
  have hread : ∀ {o : BlockOp} {r : Except Error o.Res}, (exec o v).2 = v → Tries o v r v' →
      v' = v := by
    rintro o r hn ⟨-, hexec | ⟨-, -, h | h⟩⟩
    · rw [← hn, hexec]
    · exact h
    · rw [h, hn]
  cases o with
  | containsKey name =>
      obtain ⟨rfl, rfl⟩ := hdone (.containsKey name) (fun k => k) hr
      exact kept_same h rfl rfl rfl rfl
  | insertVolume volume =>
      obtain ⟨rfl, rfl⟩ := hdone (.insertVolume volume) (fun k => k) hr
      exact kept_insertVolume h hm
  | volume name =>
      obtain ⟨rfl, rfl⟩ := hdone (.volume name) (fun k => k) hr
      have hsame : (exec (.volume name) v).2 = v := by
        simp only [exec]
        split <;> rfl
      rw [hsame]
      exact kept_same h rfl rfl rfl rfl
  | swapCapsule name id version newCapsule now =>
      obtain ⟨rfl, rfl⟩ := hdone (.swapCapsule name id version newCapsule now) (fun k => k) hr
      exact kept_swapCapsule h hm
  | removeVolume name =>
      obtain ⟨rfl, rfl⟩ := hdone (.removeVolume name) (fun k => k) hr
      exact kept_removeVolume h hm
  | persist =>
      obtain ⟨rfl, rfl⟩ := hdone .persist (fun k => k) hr
      have hsame : (exec .persist v).2.volumes = v.volumes ∧
          (exec .persist v).2.store = v.store := by
        simp only [exec]
        split <;> exact ⟨rfl, rfl⟩
      exact kept_same h ⟨rfl, rfl⟩ rfl hsame.1 hsame.2
  | writeCapsule id data => exact kept_writeCapsule h hm hr
  | readCapsule id =>
      obtain rfl := hread rfl hr
      exact kept_same h rfl rfl rfl rfl
  | readRange id offset len =>
      obtain rfl := hread rfl hr
      exact kept_same h rfl rfl rfl rfl
  | deleteCapsule id =>
      obtain ⟨rfl, rfl⟩ := hdone (.deleteCapsule id) (fun k => k) hr
      exact kept_deleteCapsule h hm

/-! ### The methods -/

open BlockProg

/-- What a method must end with: nothing held. -/
abbrev HoldsNothing {α : Type} : Except Error α → Multiset CapsuleId → Prop := fun _ g => g = 0

/-- One operation, by what a thread must hold for it and what it holds then. -/
theorem wp_held (o : BlockOp) {Q : Except Error o.Res → Multiset CapsuleId → Prop}
    (hm : mayHold o g) (h : ∀ r g', holds o g r g' → Q r g') :
    (perform (S := BlockSig) o : BlockProg o.Res).wp holds mayHold Q g :=
  wp_perform.mpr ⟨hm, h⟩

/-- The capsule that is held is deleted. -/
theorem wp_dropCapsule_held {id : CapsuleId}
    {Q : Except Error (Except Error Unit) → Multiset CapsuleId → Prop} (h : ∀ r, Q (.ok r) 0) :
    (dropCapsule id).wp holds mayHold Q {id} := by
  refine wp_attempt.mpr (wp_held (.deleteCapsule id) rfl ?_)
  rintro r g' ⟨-, rfl⟩
  exact h r

theorem returns_create {id : CapsuleId} {name : Text} {size blockSize now : UInt64} :
    (BlockCall.program (.createVolume id name size blockSize now)).wp holds mayHold
      HoldsNothing 0 := by
  unfold BlockCall.program createVolumeWithBlockSize
  refine wp_bind.mpr (wp_bind.mpr (wp_lift.mpr ?_))
  cases validateVolume name size blockSize with
  | error e => rfl
  | ok _ =>
      refine wp_bind.mpr (wp_held (.containsKey name) trivial ?_)
      rintro (e | _ | _) g' hg
      · exact hg
      · obtain rfl : g' = 0 := hg
        refine wp_bind.mpr (wp_held (.writeCapsule id (List.replicate size.toNat 0)) rfl ?_)
        rintro r g' (⟨rfl, rfl⟩ | ⟨⟨e, rfl⟩, rfl⟩)
        · refine wp_bind.mpr (wp_held
            (.insertVolume ⟨name, size, blockSize, id, now, now, 1⟩) rfl ?_)
          rintro r g' (⟨rfl, rfl⟩ | ⟨rfl, rfl⟩)
          · refine wp_bind.mpr (wp_held .persist trivial ?_)
            rintro r g' ⟨rfl, rfl⟩
            rfl
          · -- another thread raced us
            exact wp_bind.mpr (wp_dropCapsule_held fun r => rfl)
        · rfl
      · exact hg

theorem returns_delete {name : Text} :
    (BlockCall.program (.deleteVolume name)).wp holds mayHold HoldsNothing 0 := by
  unfold BlockCall.program deleteVolume
  refine wp_bind.mpr (wp_bind.mpr (wp_held (.removeVolume name) rfl ?_))
  rintro r g' (⟨id, rfl, rfl⟩ | ⟨⟨e, rfl⟩, rfl⟩)
  · refine wp_bind.mpr (wp_held .persist trivial ?_)
    rintro r g' ⟨rfl, rfl⟩
    exact wp_bind.mpr (wp_dropCapsule_held fun r => rfl)
  · rfl

theorem returns_read {name : Text} {offset len : UInt64} :
    (BlockCall.program (.read name offset len)).wp holds mayHold HoldsNothing 0 := by
  unfold BlockCall.program BlockView.read
  refine wp_bind.mpr (wp_bind.mpr (wp_held (.volume name) trivial ?_))
  rintro (e | (volume : BlockVolume)) g' hg
  · exact hg
  · obtain rfl : g' = 0 := hg
    refine andThen_ok.mpr ?_
    split
    · rfl
    · refine wp_held (.readRange volume.capsuleId offset len) trivial ?_
      rintro (e | data) g' hg
      · exact hg
      · exact hg

theorem returns_write {id : CapsuleId} {name : Text} {offset : UInt64} {data : Bytes}
    {now : UInt64} :
    (BlockCall.program (.write id name offset data now)).wp holds mayHold HoldsNothing 0 := by
  by_cases hd : data = []
  · simp only [BlockCall.program, BlockView.write, if_pos hd]
    rfl
  simp only [BlockCall.program, BlockView.write, if_neg hd, rewrite]
  refine wp_bind.mpr (wp_bind.mpr (wp_held (.volume name) trivial ?_))
  rintro (e | (volume : BlockVolume)) g' hg
  · exact hg
  obtain rfl : g' = 0 := hg
  refine andThen_ok.mpr ?_
  split
  · rfl
  refine wp_bind.mpr (wp_held (.readCapsule volume.capsuleId) trivial ?_)
  rintro (e | buffer) g' hg
  · exact hg
  obtain rfl : g' = 0 := hg
  refine wp_bind.mpr (wp_lift.mpr ?_)
  cases copyFromSlice buffer offset.toNat (offset + UInt64.ofNat data.length).toNat data with
  | error e => rfl
  | ok out =>
      refine wp_bind.mpr (wp_held (.writeCapsule id out) rfl ?_)
      rintro r g' (⟨rfl, rfl⟩ | ⟨⟨e, rfl⟩, rfl⟩)
      · refine wp_bind.mpr (wp_held
          (.swapCapsule name volume.capsuleId volume.version id now) rfl ?_)
        rintro r g' (⟨rfl, rfl⟩ | ⟨rfl, rfl⟩ | ⟨⟨e, rfl⟩, rfl⟩)
        · -- swapped: the old capsule goes
          refine wp_bind.mpr (wp_held .persist trivial ?_)
          rintro r g' ⟨rfl, rfl⟩
          exact wp_bind.mpr (wp_dropCapsule_held fun r => rfl)
        · exact wp_bind.mpr (wp_dropCapsule_held fun r => rfl)
        · rfl
      · rfl

/-- The calls, and the capsules they hold. -/
def custody (v₀ : BlockView) : Custody BlockSig Error (BlockView × List CapsuleId)
    (Multiset CapsuleId) BlockCall BlockAnswer where
  program := BlockCall.program
  exec := Loses
  may := mayHold
  moves := holds
  Inv := Balanced v₀
  step := fun {o r s s' g f} hI hm hr => by
    obtain ⟨v, lost⟩ := s
    obtain ⟨v', lost'⟩ := s'
    obtain ⟨hr, hlost⟩ := hr
    obtain rfl : lost' = lostBy o v r v' ++ lost := hlost
    exact kept hI hm hr
  returns := fun c => by
    cases c with
    | createVolume id name size blockSize now => exact returns_create
    | write id name offset data now => exact returns_write
    | read name offset len => exact returns_read
    | deleteVolume name => exact returns_delete

theorem balanced_start (hv : v₀.volumes = ∅) : Balanced v₀ (v₀, []) 0 := by
  have hplaced : placed v₀ [] 0 = 0 := by
    rw [placed, capsuleIds, hv]
    rfl
  refine ⟨fun id => ?_, ?_, fun _ h => h⟩
  · show id ∈ placed v₀ [] 0 ↔ _
    rw [hplaced]
    refine iff_of_false (Multiset.notMem_zero _) fun ⟨hlive, hid⟩ => ?_
    obtain ⟨data, hd⟩ := Option.isSome_iff_exists.mp hlive
    exact hid (v₀.store.capsules_used _ _ hd)
  · show (placed v₀ [] 0).Nodup
    rw [hplaced]
    exact Multiset.nodup_zero

/-- Where nothing is held, the volumes own the capsules if none was lost. -/
theorem Balanced.owns_iff (h : Balanced v₀ (v, lost) 0) : v₀.Owns v ↔ lost = [] := by
  have hplaced : placed v lost 0 = ((v.capsuleIds ++ lost : List CapsuleId) : Multiset _) := by
    rw [placed, add_zero, Multiset.coe_add]
  have hexact : ∀ id, id ∈ v.capsuleIds ++ lost ↔ v.Live id ∧ id ∉ v₀.store.used := by
    intro id
    rw [← h.exact id, hplaced, Multiset.mem_coe]
  have hnodup : (v.capsuleIds ++ lost).Nodup := by
    have hnd : (placed v lost 0).Nodup := h.nodup
    rwa [hplaced, Multiset.coe_nodup] at hnd
  constructor
  · intro howns
    refine List.eq_nil_iff_forall_not_mem.mpr fun id hid => ?_
    have hlive := (hexact id).mp (List.mem_append_right _ hid)
    exact (List.disjoint_of_nodup_append hnodup) ((howns.exact id).mpr hlive) hid
  · rintro rfl
    rw [List.append_nil] at hexact hnodup
    exact ⟨hexact, hnodup⟩

end BlockView

/-- **Who owns the capsules.** -/
theorem blockView_owns_iff {ι : Type} {v₀ : BlockView} (hv : v₀.volumes = ∅) :
    (∀ (v : BlockView) (t : List (Event ι BlockCall BlockAnswer Error))
      (l : List (ι × BlockCall × BlockProg BlockAnswer)),
      ClientRun BlockCall.program BlockView.Tries v₀ t v l →
      ∃ lost, ClientRun BlockCall.program BlockView.Loses (v₀, []) t (v, lost) l) ∧
    ∀ (v : BlockView) (t : List (Event ι BlockCall BlockAnswer Error)) (lost : List CapsuleId),
      ClientRun BlockCall.program BlockView.Loses (v₀, []) t (v, lost) [] →
      (v₀.Owns v ↔ lost = []) :=
  ⟨fun _ _ _ h => h.noting [],
    fun _ _ _ h => ((BlockView.custody v₀).quiet (BlockView.balanced_start hv) h).owns_iff⟩

/-! ### Two runs -/

namespace BlockView

/-- The operations, with the notes, as a function. -/
def note : Handler BlockSig Error (BlockView × List CapsuleId) := fun o s =>
  ((exec o s.1).1, (exec o s.1).2, lostBy o s.1 (exec o s.1).1 (exec o s.1).2 ++ s.2)

theorem loses_of_isFresh (o : BlockOp) (s : BlockView × List CapsuleId)
    (h : isFresh o s.1 = true) : Loses o s (note o s).1 (note o s).2 :=
  ⟨⟨(does_of_isFresh o s.1 h).1, .inl rfl⟩, rfl⟩

end BlockView

/-- The race of two writes: the capsule of the one that is refused is deleted again. -/
theorem blockView_owns_iff_race :
    ∃ v, ClientRun BlockCall.program BlockView.Loses (.new .empty, []) raceHistory (v, []) [] ∧
      v.capsuleIds = [⟨3⟩] ∧ (BlockView.new .empty).Owns v := by
  have hs : (clientSchedule BlockCall.program BlockView.note
      (fun o s => BlockView.isFresh o s.1) (.new .empty, []) raceTurns).map
        (fun x => (x.1, x.2.1.2, x.2.2.isEmpty, x.2.1.1.capsuleIds)) =
      some (raceHistory, [], true, [⟨3⟩]) := by decide +kernel
  obtain ⟨⟨t, ⟨v, lost⟩, l⟩, hx, e⟩ := Option.map_eq_some_iff.mp hs
  simp only [Prod.mk.injEq, List.isEmpty_iff] at e
  obtain ⟨rfl, rfl, rfl, hids⟩ := e
  have hrun := clientRun_of_clientSchedule BlockView.loses_of_isFresh hx
  exact ⟨v, hrun, hids, ((blockView_owns_iff rfl).2 v raceHistory [] hrun).mpr rfl⟩

/-- Client 0 creates a volume; client 1 copies it and writes the copy, and before it swaps the
capsules client 2 deletes the volume. -/
def lostTurns : List (Turn Nat BlockCall) :=
  .invoke 0 (.createVolume ⟨1⟩ ['a'] 2 1 0) :: List.replicate 5 (.next 0) ++
  .invoke 1 (.write ⟨2⟩ ['a'] 0 [7] 0) :: List.replicate 3 (.next 0) ++
  .invoke 2 (.deleteVolume ['a']) :: List.replicate 6 (.next 0)

/-- The capsule of client 1 stays. -/
theorem not_blockView_owns :
    ¬ ∀ (ι : Type) (v₀ v : BlockView) (t : List (Event ι BlockCall BlockAnswer Error)),
      v₀.volumes = ∅ → ClientRun BlockCall.program BlockView.Tries v₀ t v [] → v₀.Owns v := by
  intro h
  have hs : (clientSchedule BlockCall.program BlockView.exec BlockView.isFresh (.new .empty)
      lostTurns).map (fun x => (x.2.2.isEmpty, x.2.1.capsuleIds, decide (x.2.1.Live ⟨2⟩))) =
      some (true, [], true) := by decide +kernel
  obtain ⟨⟨t, v, l⟩, hx, e⟩ := Option.map_eq_some_iff.mp hs
  simp only [Prod.mk.injEq, List.isEmpty_iff, decide_eq_true_eq] at e
  obtain ⟨rfl, hids, hlive⟩ := e
  have hrun : ClientRun BlockCall.program BlockView.Tries (.new .empty) t v [] :=
    clientRun_of_clientSchedule (fun o v ho => ⟨(BlockView.does_of_isFresh o v ho).1, .inl rfl⟩) hx
  have hmem := ((h Nat (.new .empty) v t rfl hrun).exact ⟨2⟩).mpr ⟨hlive, List.not_mem_nil⟩
  rw [hids] at hmem
  exact List.not_mem_nil hmem

end Space

import Space.Store.Interface

/-!
# Store — Faults

The methods of the store over a disk that fails.  An operation comes to the disk to write
payloads, or to save the map or the registry once it has changed it in memory; a `Fault` says how
that fails, and a schedule says which of the operations that come to the disk do
(`StoreOp.execIo`).

A fault `early` strikes before memory is changed: while payloads are written, some bytes of which
may be on disk then, or while a capsule is dated.  A fault `late` strikes while the change is
saved.  What is saved then stays as it was, and memory keeps the change; a transaction whose commit
fails so is still active, and resets the shared offset when it is dropped.
-/

namespace Space
open Support

variable {P : Primitives}

/-- How an operation on the disk fails, and the text of its error. -/
inductive Fault where
  | early (written : Nat) (text : String)
  | late (text : String)
  deriving DecidableEq, Repr

def Fault.error : Fault → Error
  | .early _ text => .msg text
  | .late text => .msg text

/-- The disk fails operation `n` while its change is saved. -/
def LateAt (faults : Nat → Option Fault) (n : Nat) : Prop :=
  ∃ text, faults n = some (.late text)

/-- The memory of `s'` over the files of `s`. -/
def Store.unsaved (s s' : Store P) : Store P :=
  { s' with
    registry := { s'.registry with saved := s.registry.saved }
    nvram := { s'.nvram with savedMap := s.nvram.savedMap } }

/-- Write the first bytes of the payloads of pending segments. -/
def NvramTransaction.writeSome : Nat → List PendingSegment → Bytes → Bytes
  | _, [], file => file
  | k, p :: ps, file =>
    writeSome (k - p.data.length) ps (writeAt 0 file p.segment.offset (p.data.take k))

namespace StoreOp

/-- The operation comes to the disk. -/
def touchesDisk (s : Store P) : StoreOp → Bool
  | .registerContent _ _ => true
  | .deregisterContent hash segId => decide (s.registry.contentStore.lookup hash = some segId)
  | .deleteCapsule id => (s.registry.capsules.lookup id).isSome
  | .createCapsuleWithSegments id _ _ _ => (s.registry.capsules.lookup id).isNone
  | .append _ _ => true
  | .incrementRefcount segId => (s.nvram.segmentMap.lookup segId).isSome
  | .decrementRefcount segId =>
    (s.nvram.segmentMap.lookup segId).any fun segment => decide (segment.refCount ≠ 0)
  | .removeSegment segId => (s.nvram.segmentMap.lookup segId).isSome
  | .updateSegmentMetadata _ _ => true
  | .commit t => !t.finalized && decide (t.pending ≠ [])
  | _ => false

/-- What a fault leaves, of an operation that it can strike. -/
def strike (s : Store P) : StoreOp → Fault → Option (Store P)
  | .append _ data, .early written _ =>
    some { s with nvram := { s.nvram with
      file := writeAt 0 s.nvram.file s.nvram.nextOffset (data.take written) } }
  | .commit t, .early written _ =>
    some { s with nvram := { s.nvram with
      file := NvramTransaction.writeSome written t.pending s.nvram.file
      nextOffset := t.baseOffset } }
  | .createCapsuleWithSegments _ _ _ _, .early _ _ => some s
  | _, .early _ _ => none
  | .commit t, .late _ =>
    let s' := s.unsaved (exec (.commit t) s).2
    some { s' with nvram := { s'.nvram with nextOffset := t.baseOffset } }
  | o, .late _ => some (s.unsaved (o.exec s).2)

/-- What the methods do when the disk fails as scheduled.  The state counts the operations that
came to it. -/
def execIo (faults : Nat → Option Fault) : Handler StoreSig Error (Store P × Nat)
  | o, (s, n) =>
    if o.touchesDisk s then
      match faults n with
      | none => ((o.exec s).1, (o.exec s).2, n + 1)
      | some fault =>
        match o.strike s fault with
        | none => ((o.exec s).1, (o.exec s).2, n + 1)
        | some s' => (.error fault.error, s', n + 1)
    else ((o.exec s).1, (o.exec s).2, n)

/-- The operation takes back what another one did. -/
def compensates : StoreOp → Bool
  | .deregisterContent _ _ => true
  | .decrementRefcount _ => true
  | .removeSegment _ => true
  | _ => false

/-- The same, but the disk never fails an operation that takes back; nor is that one counted. -/
def execUndo (faults : Nat → Option Fault) : Handler StoreSig Error (Store P × Nat)
  | o, (s, n) =>
    if o.compensates then ((o.exec s).1, (o.exec s).2, n) else o.execIo faults (s, n)

end StoreOp

variable {faults : Nat → Option Fault} {s : Store P} {n : Nat}

/-- One operation, on a disk that may fail. -/
theorem wp_ioOp (o : StoreOp) {Q : Except Error o.Res → Store P × Nat → Prop}
    (h : Q (o.execIo faults (s, n)).1 (o.execIo faults (s, n)).2) :
    (Prog.perform (S := StoreSig) o : Native o.Res).wp (StoreOp.execIo faults).moves
      (fun _ _ => True) Q (s, n) := Prog.wp_perform_moves.mpr ⟨trivial, h⟩

/-- An operation that does not come to the disk. -/
theorem wp_memoryOp {o : StoreOp} {Q : Except Error o.Res → Store P × Nat → Prop}
    (hd : o.touchesDisk s = false) (h : Q (o.exec s).1 ((o.exec s).2, n)) :
    (Prog.perform (S := StoreSig) o : Native o.Res).wp (StoreOp.execIo faults).moves
      (fun _ _ => True) Q (s, n) := by
  refine wp_ioOp o ?_
  simp only [StoreOp.execIo, hd]
  exact h

/-- An operation that comes to the disk: it is struck by a fault, or it is not. -/
theorem wp_diskOp {o : StoreOp} {Q : Except Error o.Res → Store P × Nat → Prop}
    (hd : o.touchesDisk s = true)
    (hfail : ∀ fault s', faults n = some fault → o.strike s fault = some s' →
      Q (.error fault.error) (s', n + 1))
    (hdone : (∀ fault, faults n = some fault → o.strike s fault = none) →
      Q (o.exec s).1 ((o.exec s).2, n + 1)) :
    (Prog.perform (S := StoreSig) o : Native o.Res).wp (StoreOp.execIo faults).moves
      (fun _ _ => True) Q (s, n) := by
  refine wp_ioOp o ?_
  simp only [StoreOp.execIo, hd, if_true]
  cases hf : faults n with
  | none => exact hdone fun fault h => by rw [hf] at h; cases h
  | some fault =>
      cases hs : o.strike s fault with
      | none =>
          simp only [hs]
          refine hdone fun fault' h => ?_
          rw [hf] at h
          cases h
          exact hs
      | some s' =>
          simp only [hs]
          exact hfail fault s' hf hs

/-! ### Where taking back never fails -/

/-- An operation that takes back. -/
theorem wp_undoing {o : StoreOp} {Q : Except Error o.Res → Store P × Nat → Prop}
    (hc : o.compensates = true) (h : Q (o.exec s).1 ((o.exec s).2, n)) :
    (Prog.perform (S := StoreSig) o : Native o.Res).wp (StoreOp.execUndo faults).moves
      (fun _ _ => True) Q (s, n) := by
  refine Prog.wp_perform_moves.mpr ⟨trivial, ?_⟩
  simp only [StoreOp.execUndo, hc, if_true]
  exact h

/-- Any other operation. -/
theorem wp_doing {o : StoreOp} {Q : Except Error o.Res → Store P × Nat → Prop}
    (hc : o.compensates = false)
    (h : (Prog.perform (S := StoreSig) o : Native o.Res).wp (StoreOp.execIo faults).moves
      (fun _ _ => True) Q (s, n)) :
    (Prog.perform (S := StoreSig) o : Native o.Res).wp (StoreOp.execUndo faults).moves
      (fun _ _ => True) Q (s, n) := by
  refine Prog.wp_perform_moves.mpr ⟨trivial, ?_⟩
  simp only [StoreOp.execUndo, hc]
  exact (Prog.wp_perform_moves.mp h).2

/-- An operation that does not come to the disk. -/
theorem wp_memoryUndo {o : StoreOp} {Q : Except Error o.Res → Store P × Nat → Prop}
    (hd : o.touchesDisk s = false) (h : Q (o.exec s).1 ((o.exec s).2, n)) :
    (Prog.perform (S := StoreSig) o : Native o.Res).wp (StoreOp.execUndo faults).moves
      (fun _ _ => True) Q (s, n) := by
  cases hc : o.compensates with
  | true => exact wp_undoing hc h
  | false => exact wp_doing hc (wp_memoryOp hd h)

theorem StoreOp.execUndo_never (o : StoreOp) :
    (o.execUndo (fun _ => none) (s, n)).1 = (o.exec s).1 ∧
      (o.execUndo (fun _ => none) (s, n)).2.1 = (o.exec s).2 := by
  simp only [StoreOp.execUndo, StoreOp.execIo]
  cases o.compensates <;> cases o.touchesDisk s <;> exact ⟨rfl, rfl⟩

/-- A disk that never fails. -/
theorem wp_never {α : Type} {p : Native α} {Q : Except Error α → Store P → Prop}
    (h : p.wp (StoreOp.execUndo fun _ => none).moves (fun _ _ => True) (fun r u => Q r u.1)
      (s, n)) : p.wp (StoreOp.exec (P := P)).moves (fun _ _ => True) Q s := by
  induction p generalizing s n with
  | ret a => exact h
  | fail e => exact h
  | call o k ih =>
      refine ⟨trivial, fun r s' hr => ?_⟩
      have hr' : o.exec s = (r, s') := hr
      obtain ⟨h₁, h₂⟩ := StoreOp.execUndo_never (P := P) (s := s) (n := n) o
      rw [hr'] at h₁ h₂
      exact ih r (h.2 r (s', (o.execUndo (fun _ => none) (s, n)).2.2)
        (Prod.ext h₁ (Prod.ext h₂ rfl)))

end Space

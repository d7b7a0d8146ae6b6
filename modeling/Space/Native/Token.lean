import Space.Native.World
import Mathlib.Data.Multiset.Filter
import Mathlib.Data.Multiset.Bind
import Mathlib.Algebra.BigOperators.Group.Multiset.Basic

/-!
# Native — Token

What a thread of the pipeline owns, as a multiset of tokens: references to segments, identifiers
it has reserved, segments nobody else knows of, segments that are dead.  `Discipline` collects what
a development may vary: what is known of the stored segments (`legit`), of a dedup hit (`hit`), of
a created capsule (`sound`), whether the thread is alone (`solo`), and whether no reference count
saturates (`tight`).

`Token.may` and `Token.moves` are the discipline: what an operation needs, and what it leaves.
-/

namespace Space
open Support

/-- What never changes about a stored segment: its metadata but for its place and its references,
and its payload. -/
structure Info where
  form : Segment
  payload : Bytes
  deriving DecidableEq

/-- The metadata of a segment without its place and its references. -/
def Segment.form (s : Segment) : Segment :=
  { s with offset := 0, refCount := 0, deduplicated := false, accessCount := 0 }

/-- A payload staged in a transaction: its identifier, its offset, its bytes. -/
structure Staged where
  id : SegmentId
  offset : Nat
  data : Bytes
  deriving DecidableEq

inductive Token where
  /-- One reference to a segment. -/
  | ref (x : SegmentId)
  /-- An identifier that was drawn and is not used yet. -/
  | fresh (x : SegmentId)
  /-- A stored segment nobody else knows of, with all its references. -/
  | own (segment : Segment) (data : Bytes)
  /-- What a segment is, for as long as it is there. -/
  | knows (x : SegmentId) (i : Info)
  /-- A segment without references, and its content hash. -/
  | dead (x : SegmentId) (hash : Option ContentHash)
  /-- A segment without references that is not in the content store. -/
  | bare (x : SegmentId)
  /-- A segment no capsule lists, registered under a hash. -/
  | reg (x : SegmentId) (hash : ContentHash)
  /-- A segment no capsule lists, not in the content store. -/
  | idle (x : SegmentId)
  /-- A segment some capsule lists. -/
  | listed (x : SegmentId)
  /-- A hash that is not in the content store. -/
  | absent (hash : ContentHash)
  /-- An active transaction: its base, its private offset, what it has staged. -/
  | txn (base current : Nat) (staged : List Staged)
  deriving DecidableEq

namespace Token

/-- The identifiers a token reserves. -/
def claims : Token → Multiset SegmentId
  | fresh x => {x}
  | own segment _ => {segment.id}
  | txn _ _ staged => (staged.map Staged.id : Multiset SegmentId)
  | _ => 0

/-- The references to a segment a token accounts for. -/
def weight (x : SegmentId) : Token → Nat
  | ref y => if y = x then 1 else 0
  | own segment _ => if segment.id = x then segment.refCount else 0
  | _ => 0

def isTxn : Token → Bool
  | txn _ _ _ => true
  | _ => false

section
variable {x y : SegmentId} {s : Segment} {d : Bytes} {i : Info} {h : ContentHash}
  {o : Option ContentHash} {b c : Nat} {l : List Staged}

@[simp] theorem claims_ref : (ref x).claims = 0 := rfl
@[simp] theorem claims_fresh : (fresh x).claims = {x} := rfl
@[simp] theorem claims_own : (own s d).claims = {s.id} := rfl
@[simp] theorem claims_knows : (knows x i).claims = 0 := rfl
@[simp] theorem claims_dead : (dead x o).claims = 0 := rfl
@[simp] theorem claims_bare : (bare x).claims = 0 := rfl
@[simp] theorem claims_reg : (reg x h).claims = 0 := rfl
@[simp] theorem claims_idle : (idle x).claims = 0 := rfl
@[simp] theorem claims_listed : (listed x).claims = 0 := rfl
@[simp] theorem claims_absent : (absent h).claims = 0 := rfl
@[simp] theorem claims_txn :
    (txn b c l).claims = (l.map Staged.id : Multiset SegmentId) := rfl

@[simp] theorem weight_ref : (ref y).weight x = if y = x then 1 else 0 := rfl
@[simp] theorem weight_fresh : (fresh y).weight x = 0 := rfl
@[simp] theorem weight_own : (own s d).weight x = if s.id = x then s.refCount else 0 := rfl
@[simp] theorem weight_knows : (knows y i).weight x = 0 := rfl
@[simp] theorem weight_dead : (dead y o).weight x = 0 := rfl
@[simp] theorem weight_bare : (bare y).weight x = 0 := rfl
@[simp] theorem weight_reg : (reg y h).weight x = 0 := rfl
@[simp] theorem weight_idle : (idle y).weight x = 0 := rfl
@[simp] theorem weight_listed : (listed y).weight x = 0 := rfl
@[simp] theorem weight_absent : (absent h).weight x = 0 := rfl
@[simp] theorem weight_txn : (txn b c l).weight x = 0 := rfl

@[simp] theorem isTxn_ref : (ref x).isTxn = false := rfl
@[simp] theorem isTxn_fresh : (fresh x).isTxn = false := rfl
@[simp] theorem isTxn_own : (own s d).isTxn = false := rfl
@[simp] theorem isTxn_knows : (knows x i).isTxn = false := rfl
@[simp] theorem isTxn_dead : (dead x o).isTxn = false := rfl
@[simp] theorem isTxn_bare : (bare x).isTxn = false := rfl
@[simp] theorem isTxn_reg : (reg x h).isTxn = false := rfl
@[simp] theorem isTxn_idle : (idle x).isTxn = false := rfl
@[simp] theorem isTxn_listed : (listed x).isTxn = false := rfl
@[simp] theorem isTxn_absent : (absent h).isTxn = false := rfl
@[simp] theorem isTxn_txn : (txn b c l).isTxn = true := rfl

end

/-- Tokens that may be forgotten: they claim nothing and no segment is there on their account. -/
def Harmless : Token → Prop
  | knows _ _ => True
  | reg _ _ => True
  | listed _ => True
  | absent _ => True
  | _ => False

/-- Tokens a thread may have between two chunks. -/
def Quiet (τ : Token) : Prop := τ.Harmless ∨ ∃ x, τ = ref x

end Token

/-- What a thread owns. -/
abbrev Ghost := Multiset Token

namespace Ghost

def claims (g : Ghost) : Multiset SegmentId := g.bind Token.claims

def weight (x : SegmentId) (g : Ghost) : Nat := (g.map (Token.weight x)).sum

@[simp] theorem claims_zero : claims 0 = 0 := rfl

@[simp] theorem claims_cons (τ : Token) (g : Ghost) : claims (τ ::ₘ g) = τ.claims + claims g :=
  Multiset.cons_bind _ _ _

@[simp] theorem claims_add (g f : Ghost) : claims (g + f) = claims g + claims f :=
  Multiset.add_bind _ _ _

@[simp] theorem weight_zero (x : SegmentId) : weight x 0 = 0 := rfl

@[simp] theorem weight_cons (x : SegmentId) (τ : Token) (g : Ghost) :
    weight x (τ ::ₘ g) = τ.weight x + weight x g := by simp [weight]

@[simp] theorem weight_add (x : SegmentId) (g f : Ghost) :
    weight x (g + f) = weight x g + weight x f := by simp [weight]

theorem mem_of_mem_cons {τ τ' : Token} {g : Ghost} (h : τ ∈ τ' ::ₘ g) (hne : τ ≠ τ') : τ ∈ g :=
  (Multiset.mem_cons.mp h).resolve_left hne

theorem mem_claims {x : SegmentId} {g : Ghost} : x ∈ claims g ↔ ∃ τ ∈ g, x ∈ τ.claims :=
  Multiset.mem_bind

theorem weight_replicate_ref (x y : SegmentId) (n : Nat) :
    weight y (Multiset.replicate n (.ref x)) = if x = y then n else 0 := by
  simp [weight, Multiset.map_replicate, Multiset.sum_replicate]

theorem claims_replicate_ref (x : SegmentId) (n : Nat) :
    claims (Multiset.replicate n (.ref x)) = 0 := by
  refine Multiset.eq_zero_of_forall_notMem fun y hy => ?_
  obtain ⟨τ, hτ, hy⟩ := mem_claims.mp hy
  rw [Multiset.eq_of_mem_replicate hτ] at hy
  exact Multiset.notMem_zero y hy

theorem count_le_weight (x : SegmentId) (g : Ghost) : g.count (.ref x) ≤ g.weight x := by
  induction g using Multiset.induction with
  | empty => exact Nat.le_refl _
  | cons τ g ih =>
      rw [Multiset.count_cons, weight_cons]
      split
      · next e => subst e; rw [Token.weight_ref, if_pos rfl]; omega
      · omega

/-- What accounts for references to a segment nobody has reserved. -/
theorem ref_mem_of_weight {x : SegmentId} {g : Ghost} (h : x ∉ g.claims) (h0 : g.weight x ≠ 0) :
    .ref x ∈ g := by
  by_contra hn
  refine h0 (Multiset.sum_eq_zero fun n hn' => ?_)
  obtain ⟨τ, hτ, rfl⟩ := Multiset.mem_map.mp hn'
  cases τ with
  | ref y => exact if_neg fun e => hn (by rwa [← e])
  | own s d => exact if_neg fun e => h (mem_claims.mpr ⟨_, hτ, by simp [e]⟩)
  | _ => rfl

theorem weight_refs (y : SegmentId) (l : List SegmentId) :
    weight y (l.map Token.ref : Multiset Token) = l.count y := by
  induction l with
  | nil => rfl
  | cons x l ih =>
      rw [List.map_cons, ← Multiset.cons_coe, weight_cons, ih, List.count_cons, Token.weight_ref,
        Nat.add_comm]
      simp

theorem claims_refs (l : List SegmentId) : claims (l.map Token.ref : Multiset Token) = 0 := by
  induction l with
  | nil => rfl
  | cons x l ih => rw [List.map_cons, ← Multiset.cons_coe, claims_cons, ih]; rfl

/-- The transactions among the tokens. -/
def txns (g : Ghost) : Nat := g.countP fun τ => τ.isTxn = true

@[simp] theorem txns_cons (τ : Token) (g : Ghost) :
    txns (τ ::ₘ g) = txns g + if τ.isTxn = true then 1 else 0 := Multiset.countP_cons _ _ _

@[simp] theorem txns_add (g f : Ghost) : txns (g + f) = txns g + txns f :=
  Multiset.countP_add _ _ _

theorem txns_refs (l : List SegmentId) : txns (l.map Token.ref : Multiset Token) = 0 :=
  Multiset.countP_eq_zero.mpr fun τ hτ => by
    obtain ⟨x, -, rfl⟩ := List.mem_map.mp (Multiset.mem_coe.mp hτ)
    simp

theorem txns_replicate_ref (x : SegmentId) (n : Nat) :
    txns (Multiset.replicate n (.ref x)) = 0 :=
  Multiset.countP_eq_zero.mpr fun τ hτ => by rw [Multiset.eq_of_mem_replicate hτ]; simp

end Ghost

/-- What a development may vary. -/
structure Discipline where
  /-- The keys of the manager, if there is one. -/
  keys : Option (UInt32 → XtsKeyPair)
  /-- What is known of every segment that was stored. -/
  legit : Info → Prop
  /-- What may be relied on when a hash is found in the content store. -/
  hit : ContentHash → Info → Prop
  /-- What is known of every capsule: its data, its policy, its segments. -/
  sound : Bytes → Policy → List Info → Prop
  /-- The thread is the only one. -/
  solo : Prop
  /-- No reference count saturates. -/
  tight : Prop

/-- The staged part of a transaction. -/
def NvramTransaction.staged (t : NvramTransaction) : List Staged :=
  t.pending.map fun p => ⟨p.segment.id, p.segment.offset, p.data⟩

/-- The token of an active transaction. -/
def NvramTransaction.token (t : NvramTransaction) : Token :=
  .txn t.baseOffset t.currentOffset t.staged

/-- The tokens a committed segment leaves: unregistered if it has a hash to be registered under,
otherwise its references. -/
def PendingSegment.tokens (p : PendingSegment) : Ghost :=
  if p.segment.contentHash = none then
    .knows p.segment.id ⟨p.segment.form, p.data⟩ ::ₘ
      Multiset.replicate p.segment.refCount (.ref p.segment.id)
  else {.own p.segment p.data}

/-- What a pending segment has to be when it is committed. -/
def PendingSegment.Ready (D : Discipline) (p : PendingSegment) : Prop :=
  D.legit ⟨p.segment.form, p.data⟩ ∧ p.segment.len = asU32 p.data.length ∧
    1 ≤ p.segment.refCount ∧ p.segment.refCount ≤ u32Max ∧
    p.segment.deduplicated = decide (1 < p.segment.refCount)

namespace Token
open Classical

/-- What an operation needs of the thread that calls it, on behalf of a write of `data`. -/
def may (D : Discipline) (data : Bytes) : StoreOp → Ghost → Prop
  | .append x _, g => fresh x ∈ g ∧ g.txns = 0
  | .updateSegmentMetadata x s, g => ∃ s₀ payload, own s₀ payload ∈ g ∧ s₀.id = x ∧ s.id = x ∧
      s.offset = s₀.offset ∧ s.len = s₀.len ∧ s.refCount = s₀.refCount ∧
      s.deduplicated = s₀.deduplicated ∧ D.legit ⟨s.form, payload⟩
  | .registerContent h x, g => ∃ s payload, own s payload ∈ g ∧ s.id = x ∧
      s.contentHash = some h ∧ D.legit ⟨s.form, payload⟩ ∧ (D.solo → absent h ∈ g)
  | .incrementRefcount x, g => (∃ i, knows x i ∈ g) ∧
      (D.solo → ∀ τ ∈ g, ∀ y h, τ ≠ dead y h ∧ τ ≠ bare y)
  | .decrementRefcount x, g => ref x ∈ g ∧ D.tight
  | .deregisterContent h x, g => dead x (some h) ∈ g ∨ reg x h ∈ g
  | .removeSegment x, g => bare x ∈ g ∨ dead x none ∈ g ∨ idle x ∈ g
  | .deleteCapsule _, g => D.solo → ∀ y, listed y ∉ g
  | .createCapsuleWithSegments _ _ segments policy, g =>
      (∀ x, segments.count x ≤ g.count (ref x)) ∧ (∀ y, idle y ∉ g) ∧
        ∃ infos, List.Forall₂ (fun x i => knows x i ∈ g) segments infos ∧
          D.sound data policy infos
  | .beginTransaction, g => D.solo ∧ g.txns = 0
  | .appendSegment t x _, g => D.solo ∧ fresh x ∈ g ∧ t.token ∈ g ∧ t.finalized = false
  | .commit t, g => D.solo ∧ t.token ∈ g ∧ t.finalized = false ∧ ∀ p ∈ t.pending, p.Ready D
  | .rollback t, g => D.solo ∧ t.token ∈ g ∧ t.finalized = false
  | _, _ => True

/-- What an operation leaves the thread with. -/
noncomputable def moves (D : Discipline) : Moves StoreSig Error Ghost
  | .allocSegment, g, r, g' => ∃ x, r = .ok x ∧ x ∉ g.claims ∧ (∀ i, knows x i ∉ g) ∧
      g' = fresh x ::ₘ g
  | .append x payload, g, r, g' => ∃ off,
      r = .ok (Segment.appended x off (asU32 payload.length)) ∧
        g' = own (Segment.appended x off (asU32 payload.length)) payload ::ₘ g.erase (fresh x)
  | .updateSegmentMetadata x s, g, r, g' => r = .ok () ∧
      ∀ s₀ payload, own s₀ payload ∈ g → s₀.id = x →
        g' = if s.contentHash = none then
            knows x ⟨s.form, payload⟩ ::ₘ
              (Multiset.replicate s.refCount (ref x) + g.erase (own s₀ payload))
          else own s payload ::ₘ g.erase (own s₀ payload)
  | .lookupContent h, g, r, g' =>
      (r = .ok none ∧ g' = if D.solo then absent h ::ₘ g else g) ∨
        ∃ x i, r = .ok (some x) ∧ i.form.contentHash = some h ∧ D.legit i ∧ D.hit h i ∧
          x ∉ g.claims ∧ g' = knows x i ::ₘ g
  | .registerContent h x, g, r, g' => r = .ok () ∧
      ∀ s payload, own s payload ∈ g → s.id = x →
        g' = knows x ⟨s.form, payload⟩ ::ₘ (Multiset.replicate s.refCount (ref x) +
          ((if D.solo then {reg x h} else 0) +
            (g.erase (own s payload)).filter (· ≠ absent h)))
  | .incrementRefcount x, g, r, g' =>
      (∃ s, r = .ok s ∧ ((D.solo → ref x ∈ g) ∧ g' = ref x ::ₘ g ∨
          g' = ref x ::ₘ listed x ::ₘ g)) ∨
        ∃ e, r = .error e ∧ g' = g
  | .decrementRefcount x, g, r, g' => ∃ s, r = .ok s ∧
      (s.refCount = 0 → g.count (ref x) = 1 ∧ listed x ∉ g) ∧
      g' = if s.refCount = 0 then dead x s.contentHash ::ₘ g.erase (ref x) else g.erase (ref x)
  | .deregisterContent h x, g, r, g' => ∃ b, r = .ok b ∧
      g' = if dead x (some h) ∈ g then bare x ::ₘ g.erase (dead x (some h))
        else idle x ::ₘ g.erase (reg x h)
  | .removeSegment x, g, r, g' => ∃ s, r = .ok s ∧
      g' = if bare x ∈ g then g.erase (bare x)
        else if dead x none ∈ g then g.erase (dead x none)
        else (g.erase (idle x)).filter (· ≠ ref x)
  | .createCapsuleWithSegments _ _ segments _, g, r, g' =>
      (r = .ok () ∧ g' = (g.filter fun τ => ∀ y h, τ ≠ reg y h) -
        (segments.map ref : Multiset Token)) ∨ ∃ e, r = .error e ∧ g' = g
  | .deleteCapsule _, g, r, g' =>
      (∃ c, r = .ok c ∧ g' = (c.segments.map ref : Multiset Token) + g) ∨
        ∃ e, r = .error e ∧ g' = g
  | .listSegments _, g, r, g' => ∃ l, r = .ok l ∧
      g' = ((l.filter fun s => s.refCount = 0).map fun s => dead s.id s.contentHash :
        Multiset Token) + g
  | .beginTransaction, g, r, g' => ∃ t, r = .ok t ∧ t.pending = [] ∧ t.finalized = false ∧
      t.baseOffset = t.currentOffset ∧ g' = t.token ::ₘ g
  | .appendSegment t x payload, g, r, g' =>
      r = .ok (Segment.appended x t.currentOffset (asU32 payload.length),
          { t with
            pending := t.pending ++
              [⟨Segment.appended x t.currentOffset (asU32 payload.length), payload⟩]
            currentOffset := t.currentOffset + payload.length }) ∧
        g' = .txn t.baseOffset (t.currentOffset + payload.length)
            (t.staged ++ [⟨x, t.currentOffset, payload⟩]) ::ₘ (g.erase (fresh x)).erase t.token
  | .commit t, g, r, g' => (∃ t', r = .ok t') ∧
      g' = (t.pending.map PendingSegment.tokens).sum + g.erase t.token
  | .rollback t, g, r, g' => (∃ t', r = .ok t') ∧ g' = g.erase t.token
  | .currentKey, g, r, g' => g' = g ∧ ∃ o, r = .ok o ∧
      match D.keys with
      | none => o = none
      | some K => ∃ v, o = some (v, K v)
  | .addDedupedBytes _ _, g, r, g' => r = .ok () ∧ g' = g
  | .listCapsules _, g, _, g' => g' = g
  | .lookup _, g, _, g' => g' = g
  | .read _, g, _, g' => g' = g
  | .getSegmentMetadata _, g, _, g' => g' = g
  | .getKey _, g, _, g' => g' = g

end Token

end Space

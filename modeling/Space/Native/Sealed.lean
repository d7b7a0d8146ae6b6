import Space.Native.CrashSafe

/-!
# Native — Sealed

Encryption at rest.  Content hashes are taken before encryption, and the content store is shared
by all policies; a write that asks for encryption and finds its chunk under the hash takes the
segment as it was stored, encrypted or not (`not_sealed`).  Where no encrypting write finds a
segment in the clear, every segment of a capsule whose policy asks for encryption is encrypted
(`sealed_life`).
-/

namespace Space
open Support Prog

variable {P : Primitives} {w w₀ w' : World P} {c : Command} {policy : Policy} {data : Bytes}
  {keys : Option (UInt32 → XtsKeyPair)} {encrypting : Prop}

/-- Whether the command writes under a policy that asks for encryption. -/
def Command.Encrypting : Command → Prop
  | .write _ _ policy => policy.encryption.isEnabled = true
  | .writeAsync _ _ _ _ policy => policy.encryption.isEnabled = true
  | _ => False

/-- An encrypting write finds no segment in the clear. -/
def Command.FindsSealed (c : Command) (w : World P) : Prop :=
  c.Encrypting → ∀ hash w' x s, c.Reaches w (.lookupContent hash) w' → w'.content hash = some x →
    w'.seg x = some s → s.encrypted = true

/-- Every segment of a capsule whose policy asks for encryption is encrypted. -/
def World.Sealed (w : World P) : Prop :=
  ∀ id c, w.cap id = some c → c.policy.encryption.isEnabled = true → ∀ x ∈ c.segments,
    ∃ s, w.seg x = some s ∧ s.encrypted = true

/-- A segment that may be listed under the policy. -/
def SealedFor (policy : Policy) (i : Info) : Prop :=
  policy.encryption.isEnabled = true → i.form.encrypted = true

/-- What is found by an encrypting thread is encrypted, and so are the segments of the capsules
that ask for it. -/
def Discipline.sealing (keys : Option (UInt32 → XtsKeyPair)) (encrypting : Prop) : Discipline where
  keys := keys
  legit := fun _ => True
  hit := fun _ i => encrypting → i.form.encrypted = true
  sound := fun _ policy infos => ∀ i ∈ infos, SealedFor policy i
  solo := True
  tight := True

/-- What is stored under a policy that asks for encryption is encrypted, if there is a key
manager. -/
theorem Prepared.encrypted {D : Discipline} {chunk view payload : Bytes} {r : CompressionResult}
    {m : Option EncryptionMetadata} {K : UInt32 → XtsKeyPair} (hk : D.keys = some K)
    (h : Prepared P D policy chunk view r payload m) (x : SegmentId) (off n : Nat)
    (hash : Option ContentHash) :
    SealedFor policy ⟨((Segment.appended x off n).describe r hash m).form, payload⟩ := by
  intro he
  obtain ⟨key, hkey, hseal⟩ := h.sealed
  unfold KeyFor at hkey
  rw [if_pos he, hk] at hkey
  obtain ⟨v, rfl⟩ := hkey
  simp only [sealView, Bind.bind, Except.bind] at hseal
  split at hseal
  · cases hseal
  · cases hseal
    rfl

theorem accepts_sealing {K : UInt32 → XtsKeyPair} :
    (Discipline.sealing (some K) (policy.encryption.isEnabled = true)).AcceptsAsync P policy data
      fun _ i => SealedFor policy i where
  fresh := by
    intro chunk _ view r payload m hp x off
    exact ⟨trivial, hp.encrypted rfl x off _ _⟩
  hit := fun _ _ _ _ _ _ _ _ i _ hi _ => hi
  sound := by
    intro infos h i hi
    obtain ⟨_, _, hs⟩ := forall₂_mem_left h.flip hi
    exact hs
  again := by
    intro _ _ _ _ _ _ _ chunk' _ view' r' payload' m' hp' _ _ x off
    exact hp'.encrypted rfl x off _ _

theorem Command.accepted_sealing {K : UInt32 → XtsKeyPair} (hu : c.Unsaturated w) :
    c.Accepted P (.sealing (some K) c.Encrypting) := by
  cases c with
  | write id data policy => exact ⟨_, accepts_sealing.toAccepts⟩
  | writeAsync limit arrivals id data policy =>
      exact ⟨hu.2 limit arrivals id data policy rfl, _, accepts_sealing⟩
  | delete => trivial
  | collect => trivial

/-- Who looks for what is no part of the state. -/
theorem Between.sealing {encrypting' : Prop} (h : Between (.sealing keys encrypting) w) :
    Between (.sealing keys encrypting') w := by
  obtain ⟨g, hg, hI⟩ := h
  exact ⟨g, hg, hI.retune hg (fun _ k => k) (fun _ _ _ k => k) rfl (fun k => k)
    fun _ => hI.bounded trivial⟩

/-- **A command keeps what is sealed.** -/
theorem Command.sealing_keeps {K : UInt32 → XtsKeyPair}
    (h : Between (.sealing (some K) False) w) (hu : c.Unsaturated w) (hf : c.FindsSealed w) :
    Between (.sealing (some K) False) (c.run w).2 := by
  refine (Command.keeps trivial trivial (c.accepted_sealing hu) h.sealing fun o w' hv => ?_).sealing
  cases o with
  | incrementRefcount x =>
      intro s hs
      exact ⟨fun _ => hu.1 x w' s hv hs, fun k => absurd trivial k⟩
  | lookupContent hash => exact fun x s hx hs he => hf he hash w' x s hv hx hs
  | _ => trivial

/-- The states reached by commands, each called where `A` allows it. -/
inductive Commands (A : Command → World P → Prop) (w₀ : World P) : World P → Prop
  | start : Commands A w₀ w₀
  | next {w : World P} (c : Command) (h : Commands A w₀ w) (hA : A c w) : Commands A w₀ (c.run w).2

theorem commands_between {km : KeyManager P}
    (h : Commands (fun c w => c.Unsaturated w ∧ c.FindsSealed w) (World.empty (some km)) w) :
    Between (.sealing (some km.derive) False) w := by
  induction h with
  | start => exact ⟨0, fun _ k => absurd k (Multiset.notMem_zero _), .empty (some km) rfl⟩
  | next c _ hA ih => exact Command.sealing_keeps ih hA.1 hA.2

/-- **Encryption at rest.** -/
theorem sealed_commands {km : KeyManager P}
    (h : Commands (fun c w => c.Unsaturated w ∧ c.FindsSealed w) (World.empty (some km)) w) :
    w.Sealed := by
  obtain ⟨g, -, hI⟩ := commands_between h
  intro id c hc he x hx
  obtain ⟨infos, hk, hs, -⟩ := hI.capsules id c hc
  obtain ⟨i, hi, hxi⟩ := forall₂_mem_left hk hx
  obtain ⟨s, hseg⟩ := hI.listed_seg hc hx
  have henc : i.form.encrypted = true := hs i hi he
  rw [← hxi.form s hseg] at henc
  exact ⟨s, hseg, henc⟩

/-! ### Runs -/

/-- The key manager of the runs below. -/
def sampleKeys : KeyManager .stored := .new _ (.ofPrefix 32 [1])

/-- A policy that asks for encryption. -/
def sampleSealing : Policy := { encryption := .xtsAes256 none }

/-- What a lookup finds is encrypted, as a test of the run. -/
def StoreOp.findsSealed (o : StoreOp) (w : World P) : Bool :=
  match o with
  | .lookupContent hash => (w.content hash).all fun x => (w.seg x).all Segment.encrypted
  | _ => true

theorem Command.findsSealed_of_along
    (h : (c.program P).along (World.exec c.data) StoreOp.findsSealed w = true) :
    c.FindsSealed w := by
  intro _ hash w' x s hv hx hs
  have k : (w'.content hash).all (fun x => (w'.seg x).all Segment.encrypted) = true :=
    along_visits h hv
  rw [hx, Option.all_some, hs] at k
  exact k

/-- An encrypted chunk, found by a second write that asks for encryption. -/
theorem sealed_commands_twice :
    (Command.runAll [.write ⟨0⟩ (List.replicate 16 7) sampleSealing,
      .write ⟨1⟩ (List.replicate 16 7) sampleSealing] (World.empty (some sampleKeys))).Sealed := by
  refine sealed_commands (.next _ (.next _ .start ⟨?_, ?_⟩) ⟨?_, ?_⟩)
  · exact Command.unsaturated_of_along (by decide +kernel) (by simp)
  · exact Command.findsSealed_of_along (by decide +kernel)
  · exact Command.unsaturated_of_along (by decide +kernel) (by simp)
  · exact Command.findsSealed_of_along (by decide +kernel)

/-- A chunk stored in the clear is found by a write that asks for encryption. -/
theorem not_sealed :
    ¬ ∀ (P : Primitives) (km : KeyManager P) (w : World P),
      Commands (fun c w => (c.run w).1 = .ok ()) (World.empty (some km)) w → w.Sealed := by
  intro h
  have hrun : Commands (fun c w => (c.run w).1 = .ok ()) (World.empty (some sampleKeys))
      (Command.runAll [.write ⟨0⟩ (List.replicate 16 7) {},
        .write ⟨1⟩ (List.replicate 16 7) sampleSealing] (World.empty (some sampleKeys))) :=
    .next _ (.next _ .start (by decide +kernel)) (by decide +kernel)
  obtain ⟨s, hs, he⟩ := h _ _ _ hrun ⟨1⟩ ⟨⟨1⟩, 16, [⟨0⟩], sampleSealing, 0⟩ (by decide +kernel)
    rfl ⟨0⟩ (List.mem_singleton_self _)
  have hclear : (World.seg (Command.runAll [.write ⟨0⟩ (List.replicate 16 7) {},
      .write ⟨1⟩ (List.replicate 16 7) sampleSealing] (World.empty (some sampleKeys))) ⟨0⟩).map
      Segment.encrypted = some false := by decide +kernel
  rw [hs, Option.map_some, he] at hclear
  cases hclear

end Space

import Space.Codec.Encryption

/-!
# Codec — Authenticated

What the MAC authenticates.  The fields of the metadata are written one after the other behind the
ciphertext, without lengths or markers, and an absent field leaves no trace.  So the bytes
determine the ciphertext and the fields exactly among the metadata that have the same fields
present: between any two others, bytes can be moved from a field to the ciphertext or to another
field.

* `authenticated_inj`: inputs with the same fields and the same bytes are the same.
* `authenticated_determines`: the inputs with the fields `p` and those with the fields `q` are told
  apart by their bytes if and only if `p = q`.
-/

namespace Space

/-! ### Integers -/

theorem le16_injective : Function.Injective le16 := by
  intro n m h
  have shr (k : UInt16) : (k >>> 8).toNat = k.toNat / 256 := by
    rw [UInt16.toNat_shiftRight]
    simp [Nat.shiftRight_eq_div_pow]
  obtain ⟨h₀, h₁⟩ := List.cons.inj h
  have e₀ : n.toNat % 256 = m.toNat % 256 := congrArg UInt8.toNat h₀
  have e₁ : (n >>> 8).toNat % 256 = (m >>> 8).toNat % 256 :=
    congrArg UInt8.toNat (List.cons.inj h₁).1
  rw [shr, shr] at e₁
  have hn := n.toNat_lt
  have hm := m.toNat_lt
  exact UInt16.toNat.inj (by omega)

theorem le32_injective : Function.Injective le32 := by
  intro n m h
  have shr (k : UInt32) : (k >>> 8).toNat = k.toNat / 256 ∧
      (k >>> 16).toNat = k.toNat / 65536 ∧ (k >>> 24).toNat = k.toNat / 16777216 := by
    simp [UInt32.toNat_shiftRight, Nat.shiftRight_eq_div_pow]
  obtain ⟨h₀, h⟩ := List.cons.inj h
  obtain ⟨h₁, h⟩ := List.cons.inj h
  obtain ⟨h₂, h⟩ := List.cons.inj h
  have e₀ : n.toNat % 256 = m.toNat % 256 := congrArg UInt8.toNat h₀
  have e₁ : (n >>> 8).toNat % 256 = (m >>> 8).toNat % 256 := congrArg UInt8.toNat h₁
  have e₂ : (n >>> 16).toNat % 256 = (m >>> 16).toNat % 256 := congrArg UInt8.toNat h₂
  have e₃ : (n >>> 24).toNat % 256 = (m >>> 24).toNat % 256 :=
    congrArg UInt8.toNat (List.cons.inj h).1
  rw [(shr n).1, (shr m).1] at e₁
  rw [(shr n).2.1, (shr m).2.1] at e₂
  rw [(shr n).2.2, (shr m).2.2] at e₃
  have hn := n.toNat_lt
  have hm := m.toNat_lt
  exact UInt32.toNat.inj (by omega)

/-! ### Optional fields -/

section
variable {α : Type} {encode : α → Bytes} {n : Nat} {o o' : Option α}

theorem length_field (hn : ∀ a, (encode a).length = n) (o : Option α) :
    (o.elim [] encode).length = if o.isSome then n else 0 := by
  cases o with
  | none => rfl
  | some a => exact hn a

/-- A field is its bytes, where it is known whether it is there. -/
theorem field_inj (hi : Function.Injective encode) (ho : o.isSome = o'.isSome)
    (h : o.elim [] encode = o'.elim [] encode) : o = o' := by
  cases o with
  | none =>
      cases o' with
      | none => rfl
      | some a' => cases ho
  | some a =>
      cases o' with
      | none => cases ho
      | some a' => exact congrArg some (hi h)

end

/-! ### What is authenticated -/

/-- The bytes that `computeMac` hashes. -/
def authenticated (ciphertext : Bytes) (m : EncryptionMetadata) : Bytes :=
  ciphertext ++ serializeMetadataForMac m

theorem computeMac_eq (P : Primitives) (ciphertext : Bytes) (m : EncryptionMetadata)
    (key1 key2 : Block 32) :
    computeMac P ciphertext m key1 key2 =
      .ofPrefix 16 (P.blake3Keyed (deriveMacKey P key1 key2) (authenticated ciphertext m)).toList :=
  rfl

/-- Which of the authenticated fields are there. -/
structure Fields where
  encryptionVersion : Bool
  keyVersion : Bool
  tweakNonce : Bool
  ciphertextLen : Bool
  deriving DecidableEq

/-- The number of bytes the fields take. -/
def Fields.width (p : Fields) : Nat :=
  (if p.encryptionVersion then 2 else 0) + (if p.keyVersion then 4 else 0) +
    (if p.tweakNonce then 16 else 0) + (if p.ciphertextLen then 4 else 0)

namespace EncryptionMetadata

def fields (m : EncryptionMetadata) : Fields :=
  ⟨m.encryptionVersion.isSome, m.keyVersion.isSome, m.tweakNonce.isSome, m.ciphertextLen.isSome⟩

/-- The same, but for the tag. -/
structure Agrees (m m' : EncryptionMetadata) : Prop where
  encryptionVersion : m.encryptionVersion = m'.encryptionVersion
  keyVersion : m.keyVersion = m'.keyVersion
  tweakNonce : m.tweakNonce = m'.tweakNonce
  ciphertextLen : m.ciphertextLen = m'.ciphertextLen

theorem Agrees.fields {m m' : EncryptionMetadata} (h : m.Agrees m') : m.fields = m'.fields := by
  unfold EncryptionMetadata.fields
  rw [h.encryptionVersion, h.keyVersion, h.tweakNonce, h.ciphertextLen]

end EncryptionMetadata

variable {c c' : Bytes} {m m' : EncryptionMetadata}

theorem length_serializeMetadataForMac (m : EncryptionMetadata) :
    (serializeMetadataForMac m).length = m.fields.width := by
  have h16 : ∀ n, (le16 n).length = 2 := fun _ => rfl
  have h32 : ∀ n, (le32 n).length = 4 := fun _ => rfl
  have hblock : ∀ b : Block 16, b.toList.length = 16 := fun b => b.2
  have hv := length_field h16 m.encryptionVersion
  have hk := length_field h32 m.keyVersion
  have ht := length_field hblock m.tweakNonce
  have hl := length_field h32 m.ciphertextLen
  rw [serializeMetadataForMac, List.length_append, List.length_append, List.length_append, hv, hk,
    ht, hl]
  rfl

/-- **The same fields and the same bytes.** -/
theorem authenticated_inj (hf : m.fields = m'.fields)
    (h : authenticated c m = authenticated c' m') : c = c' ∧ m.Agrees m' := by
  obtain ⟨hv, hk, ht, hl⟩ := Fields.mk.inj hf
  have hlen {α : Type} {encode : α → Bytes} {n : Nat} (hn : ∀ a, (encode a).length = n)
      {o o' : Option α} (ho : o.isSome = o'.isSome) :
      (o.elim [] encode).length = (o'.elim [] encode).length := by
    rw [length_field hn, length_field hn, ho]
  -- the fields are split off from the right, each of a known length
  obtain ⟨hc, h⟩ := List.append_inj' h (by
    rw [length_serializeMetadataForMac, length_serializeMetadataForMac, hf])
  obtain ⟨h, el⟩ := List.append_inj' h (hlen (n := 4) (fun _ => rfl) hl)
  obtain ⟨h, et⟩ := List.append_inj' h (hlen (fun a => a.2) ht)
  obtain ⟨ev, ek⟩ := List.append_inj' h (hlen (n := 4) (fun _ => rfl) hk)
  exact ⟨hc, field_inj le16_injective hv ev, field_inj le32_injective hk ek,
    field_inj (fun _ _ e => List.Vector.eq _ _ e) ht et, field_inj le32_injective hl el⟩

/-- The bytes of the two inputs, if they are the same, come from the same input. -/
def Determined (c : Bytes) (m : EncryptionMetadata) (c' : Bytes) (m' : EncryptionMetadata) : Prop :=
  authenticated c m = authenticated c' m' → c = c' ∧ m.Agrees m'

/-! ### Bytes that are moved -/

/-- The fields `p`, all of them zero. -/
def EncryptionMetadata.zeros (p : Fields) : EncryptionMetadata where
  encryptionVersion := if p.encryptionVersion then some 0 else none
  keyVersion := if p.keyVersion then some 0 else none
  tweakNonce := if p.tweakNonce then some (.replicate 16 0) else none
  integrityTag := none
  ciphertextLen := if p.ciphertextLen then some 0 else none

theorem fields_zeros (p : Fields) : (EncryptionMetadata.zeros p).fields = p := by
  obtain ⟨v, k, t, l⟩ := p
  cases v <;> cases k <;> cases t <;> cases l <;> rfl

theorem serialize_zeros (p : Fields) :
    serializeMetadataForMac (.zeros p) = List.replicate p.width 0 := by
  obtain ⟨v, k, t, l⟩ := p
  cases v <;> cases k <;> cases t <;> cases l <;> rfl

/-- **Zeros are taken for zeros**, whichever fields they are in. -/
theorem authenticated_zeros (p q : Fields) :
    authenticated (List.replicate q.width 0) (.zeros p) =
      authenticated (List.replicate p.width 0) (.zeros q) := by
  rw [authenticated, authenticated, serialize_zeros, serialize_zeros,
    List.replicate_append_replicate, List.replicate_append_replicate, Nat.add_comm]

/-- **The bytes determine the input** of two with the same fields, and of no others: an input is
told apart from one with other fields only if the bytes differ, and whatever the two sets of fields
are, there are inputs whose bytes do not. -/
theorem authenticated_determines (c c' : Bytes) (m m' : EncryptionMetadata) :
    (Determined c m c' m' ↔ m.fields = m'.fields ∨ authenticated c m ≠ authenticated c' m') ∧
      ((∀ d n d' n', n.fields = m.fields → n'.fields = m'.fields → Determined d n d' n') ↔
        m.fields = m'.fields) := by
  refine ⟨⟨fun h => ?_, ?_⟩, ⟨fun h => ?_, ?_⟩⟩
  · by_cases he : authenticated c m = authenticated c' m'
    · exact .inl (h he).2.fields
    · exact .inr he
  · rintro (hf | hne) he
    · exact authenticated_inj hf he
    · exact absurd he hne
  · have hz := (h _ _ _ _ (fields_zeros m.fields) (fields_zeros m'.fields)
      (authenticated_zeros m.fields m'.fields)).2.fields
    rwa [fields_zeros, fields_zeros] at hz
  · intro hf d n d' n' hn hn' he
    exact authenticated_inj (hn.trans (hf.trans hn'.symm)) he

/-- A version that is absent, and two bytes more of ciphertext. -/
theorem not_authenticated_determines : ¬ ∀ c m c' m', Determined c m c' m' := by
  intro h
  have he := h [1, 0] ⟨none, none, none, none, none⟩ [] ⟨some 1, none, none, none, none⟩ rfl
  exact absurd he.1 (List.cons_ne_nil _ _)

end Space

import Knox.Server.KeyDB.Cryptor

/-! What the associated data of a sealed version binds.

`generateAD` writes the version id and the creation time into two ten-byte slots
(`make([]byte, binary.MaxVarintLen64)` filled from the start by `PutUvarint` and
`PutVarint`) and then the key id's bytes. A slot holds its value whatever follows
it (`decodeUvarint_varintSlot`): a uvarint ends at its first byte below `0x80`,
and ten bytes hold any `uint64`, and so the zigzag of any `int64`. A string's UTF-8
bytes determine it (`toUTF8_inj`), one character at a time, since the first byte of
a character says how many follow. So distinct (key id, version id, creation time)
triples give distinct associated data (`generateAD_inj`).

GCM is a parameter of the model; `AEAD.Binding` is what its tag gives: a ciphertext
opens only under the associated data it was sealed with. `AEAD.tagged` is a
stand-in that binds, for runs on fixed inputs.

* `generateAD_binds_version`: `generateAD` is injective on the values its Go types
  take, so under a binding AEAD `decryptVersion` rejects a sealed version whose id or
  creation time was changed, or that is read under a record with another key id. -/
namespace Knox

/-! ### UTF-8 -/

theorem uint8_toNat_or (a b : UInt8) : (a ||| b).toNat = a.toNat ||| b.toNat := rfl

theorem uint32_toNat_toUInt8 (v : UInt32) : v.toUInt8.toNat = v.toNat % 256 := rfl

/-- A byte with its low bits masked and high bits set: `p` is the modulus of the mask. -/
theorem toNat_and_or {x m b : UInt8} {p : Nat} (hp : p.isPowerOfTwo) (hm : m.toNat = p - 1) (hb : b.toNat % p = 0) :
    (x &&& m ||| b).toNat = b.toNat + x.toNat % p := by
  obtain ⟨k, rfl⟩ := hp
  rw [uint8_toNat_or, UInt8.and_toNat, hm, Nat.and_pow_two_sub_one_eq_mod, Nat.or_comm]
  have hdm := Nat.div_add_mod b.toNat (2 ^ k)
  rw [hb, Nat.add_zero] at hdm
  rw [← hdm, ← Nat.mul_add_lt_is_or (Nat.mod_lt _ (Nat.two_pow_pos k))]

/-- The bytes `utf8EncodeChar` writes for a code point `n`, as numbers. -/
def utf8Nat (n : Nat) : List Nat :=
  if n ≤ 0x7f then [n]
  else if n ≤ 0x7ff then [n / 64 % 32 + 192, n % 64 + 128]
  else if n ≤ 0xffff then [n / 4096 % 16 + 224, n / 64 % 64 + 128, n % 64 + 128]
  else [n / 262144 % 8 + 240, n / 4096 % 64 + 128, n / 64 % 64 + 128, n % 64 + 128]

theorem utf8EncodeChar_toNat (c : Char) : (String.utf8EncodeChar c).map UInt8.toNat = utf8Nat c.val.toNat := by
  have key : ∀ m : UInt32, (c.val ≤ m) = (c.val.toNat ≤ m.toNat) := fun _ => rfl
  have h6 : ∀ x : UInt8, (x &&& 0x3f ||| 0x80).toNat = 128 + x.toNat % 64 := fun _ => toNat_and_or ⟨6, rfl⟩ rfl rfl
  have h5 : ∀ x : UInt8, (x &&& 0x1f ||| 0xc0).toNat = 192 + x.toNat % 32 := fun _ => toNat_and_or ⟨5, rfl⟩ rfl rfl
  have h4 : ∀ x : UInt8, (x &&& 0x0f ||| 0xe0).toNat = 224 + x.toNat % 16 := fun _ => toNat_and_or ⟨4, rfl⟩ rfl rfl
  have h3 : ∀ x : UInt8, (x &&& 0x07 ||| 0xf0).toNat = 240 + x.toNat % 8 := fun _ => toNat_and_or ⟨3, rfl⟩ rfl rfl
  have shr : ∀ v s : UInt32, (v >>> s).toNat = v.toNat / 2 ^ (s % 32).toNat := fun v s => by
    show v.toNat >>> _ = _
    rw [Nat.shiftRight_eq_div_pow]
    rfl
  simp only [String.utf8EncodeChar, key, utf8Nat, UInt32.reduceToNat]
  split_ifs <;> simp only [List.map_cons, List.map_nil, h6, h5, h4, h3, shr, uint32_toNat_toUInt8, UInt32.reduceMod,
    UInt32.reduceToNat, Nat.reducePow, List.cons.injEq, and_true] <;> omega

/-- The four lengths of `utf8Nat`, each with its range. -/
theorem utf8Nat_cases (n : Nat) :
    n ≤ 0x7f ∧ utf8Nat n = [n] ∨ 0x7f < n ∧ n ≤ 0x7ff ∧ utf8Nat n = [n / 64 % 32 + 192, n % 64 + 128] ∨
    0x7ff < n ∧ n ≤ 0xffff ∧ utf8Nat n = [n / 4096 % 16 + 224, n / 64 % 64 + 128, n % 64 + 128] ∨
    0xffff < n ∧ utf8Nat n = [n / 262144 % 8 + 240, n / 4096 % 64 + 128, n / 64 % 64 + 128, n % 64 + 128] := by
  unfold utf8Nat
  split_ifs <;> simp [*] <;> omega

theorem utf8Nat_append_inj {n m : Nat} {l l' : List Nat} (hn : n < 0x110000) (hm : m < 0x110000)
    (h : utf8Nat n ++ l = utf8Nat m ++ l') : n = m := by
  rcases utf8Nat_cases n with ⟨_, e⟩ | ⟨_, _, e⟩ | ⟨_, _, e⟩ | ⟨_, e⟩ <;>
  rcases utf8Nat_cases m with ⟨_, e'⟩ | ⟨_, _, e'⟩ | ⟨_, _, e'⟩ | ⟨_, e'⟩ <;>
  simp only [e, e', List.cons_append, List.nil_append, List.cons.injEq] at h <;> omega

theorem char_val_lt (c : Char) : c.val.toNat < 0x110000 := by
  have := c.valid
  unfold UInt32.isValidChar Nat.isValidChar at this
  omega

/-- A character's bytes determine it, and where they end. -/
theorem utf8EncodeChar_append_inj {c d : Char} {l l' : List UInt8}
    (h : String.utf8EncodeChar c ++ l = String.utf8EncodeChar d ++ l') : c = d ∧ l = l' := by
  have hn := congrArg (List.map UInt8.toNat) h
  simp only [List.map_append, utf8EncodeChar_toNat] at hn
  obtain rfl : c = d := Char.ext (UInt32.toNat.inj (utf8Nat_append_inj (char_val_lt c) (char_val_lt d) hn))
  exact ⟨rfl, List.append_cancel_left h⟩

theorem utf8EncodeChar_ne_nil (c : Char) : String.utf8EncodeChar c ≠ [] :=
  List.ne_nil_of_length_pos (by rw [String.length_utf8EncodeChar]; exact c.utf8Size_pos)

/-- A string's UTF-8 bytes determine it. -/
theorem toUTF8_inj {s t : String} (h : s.toUTF8.data.toList = t.toUTF8.data.toList) : s = t := by
  obtain ⟨cs⟩ := s
  obtain ⟨ds⟩ := t
  change cs.flatMap String.utf8EncodeChar = ds.flatMap String.utf8EncodeChar at h
  congr
  induction cs generalizing ds with
  | nil => cases ds with
    | nil => rfl
    | cons d ds => exact absurd h.symm (by simp [utf8EncodeChar_ne_nil])
  | cons c cs ih => cases ds with
    | nil => exact absurd h (by simp [utf8EncodeChar_ne_nil])
    | cons d ds =>
      obtain ⟨rfl, hrest⟩ := utf8EncodeChar_append_inj h
      rw [ih _ hrest]

/-! ### The varint slots -/

/-- The value of a uvarint at the start of a byte string: seven bits a byte, up to and
including the first byte below `0x80`. -/
def decodeUvarint : List UInt8 → Nat
  | [] => 0
  | b :: rest => if b.toNat < 128 then b.toNat else b.toNat % 128 + 128 * decodeUvarint rest

theorem uint8_toNat_ofNat_of_lt {n : Nat} (h : n < 256) : (UInt8.ofNat n).toNat = n :=
  UInt8.toNat_ofNat_of_lt h

theorem decodeUvarint_go (rest : List UInt8) :
    ∀ f x, x < Nat.pow 128 (f + 1) → decodeUvarint (putUvarint.go (f + 1) x ++ rest) = x
  | 0, x, hx => by
    change x < 128 at hx
    rw [putUvarint.go, if_pos hx]
    simp [decodeUvarint, uint8_toNat_ofNat_of_lt (show x < 256 by omega), hx]
  | f + 1, x, hx => by
    rw [putUvarint.go]
    split
    · simp [decodeUvarint, uint8_toNat_ofNat_of_lt (show x < 256 by omega), *]
    · have hq : x / 128 < Nat.pow 128 (f + 1) := by
        change x < 128 ^ (f + 1) * 128 at hx
        exact Nat.div_lt_of_lt_mul (by rwa [Nat.mul_comm] at hx)
      rw [List.cons_append, decodeUvarint, uint8_toNat_ofNat_of_lt (show x % 128 + 128 < 256 by omega),
        decodeUvarint_go rest f (x / 128) hq, if_neg (by omega)]
      omega

theorem length_go : ∀ f x, (putUvarint.go f x).length ≤ f
  | 0, _ => le_refl _
  | f + 1, x => by
    rw [putUvarint.go]
    split
    · simp
    · simpa using length_go f (x / 128)

theorem length_varintSlot (x : Nat) : (varintSlot (putUvarint x)).length = 10 := by
  have := length_go 10 x
  simp only [varintSlot, putUvarint, List.length_append, List.length_replicate] at this ⊢
  omega

/-- A slot holds its value, whatever the padding and the bytes after it. -/
theorem decodeUvarint_varintSlot {x : Nat} (hx : x < UInt64.size) (rest : List UInt8) :
    decodeUvarint (varintSlot (putUvarint x) ++ rest) = x := by
  rw [varintSlot, List.append_assoc]
  exact decodeUvarint_go _ 9 x (Nat.lt_of_lt_of_le hx (by decide))

/-- The zigzag map is injective on all integers; on `int64`s it stays below `2^64`. -/
theorem zigzag_inj {a b : Int} (h : zigzag a = zigzag b) : a = b := by
  unfold zigzag at h
  split_ifs at h <;> omega

theorem zigzag_lt {t : Int} (ht : -9223372036854775808 ≤ t ∧ t < 9223372036854775808) : zigzag t < UInt64.size := by
  unfold zigzag UInt64.size
  split_ifs <;> omega

theorem varintSlot_inj {x y : Nat} (hx : x < UInt64.size) (hy : y < UInt64.size)
    (h : varintSlot (putUvarint x) = varintSlot (putUvarint y)) : x = y := by
  have h' := congrArg (fun b => decodeUvarint (b ++ [])) h
  simpa only [decodeUvarint_varintSlot hx, decodeUvarint_varintSlot hy] using h'

/-- `generateAD` is injective on triples whose creation time is an `int64`. -/
theorem generateAD_inj {kid kid' : String} {vid vid' : UInt64} {t t' : Int}
    (ht : -9223372036854775808 ≤ t ∧ t < 9223372036854775808)
    (ht' : -9223372036854775808 ≤ t' ∧ t' < 9223372036854775808)
    (h : AESGCMCryptor.generateAD kid vid t = AESGCMCryptor.generateAD kid' vid' t') :
    kid = kid' ∧ vid = vid' ∧ t = t' := by
  unfold AESGCMCryptor.generateAD at h
  obtain ⟨h12, hk⟩ := List.append_inj h (by simp only [List.length_append, length_varintSlot])
  obtain ⟨h1, h2⟩ := List.append_inj h12 (by rw [length_varintSlot, length_varintSlot])
  exact ⟨toUTF8_inj hk, UInt64.toNat.inj (varintSlot_inj vid.toNat_lt_size vid'.toNat_lt_size h1),
    zigzag_inj (varintSlot_inj (zigzag_lt ht) (zigzag_lt ht') h2)⟩

/-! ### Binding -/

/-- An AEAD that opens a ciphertext only under the associated data it was sealed
with: under any other, `Open` fails authentication, as GCM's tag check does. -/
def AEAD.Binding (g : AEAD) : Prop :=
  ∀ nonce plaintext ad ad', ad' ≠ ad →
    g.aeadOpen nonce (g.aeadSeal nonce plaintext ad) ad' = .error .messageAuthenticationFailed

/-- The associated data carried in the clear: each byte after a `1`, ended by a `0`. -/
def escapeAD (ad : List UInt8) : List UInt8 := ad.flatMap fun b => [1, b]

/-- Reads back `escapeAD`: the associated data and the bytes after it. -/
def unescapeAD : List UInt8 → Option (List UInt8 × List UInt8)
  | 0 :: rest => some ([], rest)
  | 1 :: b :: rest => (unescapeAD rest).map fun r => (b :: r.1, r.2)
  | _ => none

theorem unescapeAD_escapeAD (p : List UInt8) : ∀ ad, unescapeAD (escapeAD ad ++ 0 :: p) = some (ad, p)
  | [] => rfl
  | b :: ad => by
    show unescapeAD (1 :: b :: (escapeAD ad ++ 0 :: p)) = _
    rw [unescapeAD, unescapeAD_escapeAD p ad]
    rfl

/-- A stand-in cipher that binds its associated data, for runs on fixed inputs: the
ciphertext is the associated data, escaped, then the plaintext. -/
def AEAD.tagged : AEAD where
  nonceSize := 0
  aeadSeal _ plaintext ad := escapeAD ad ++ 0 :: plaintext
  aeadOpen _ ciphertext ad :=
    match unescapeAD ciphertext with
    | some r => if r.1 = ad then .ok r.2 else .error .messageAuthenticationFailed
    | none => .error .messageAuthenticationFailed
  aeadOpen_aeadSeal _ plaintext ad _ := by simp only [unescapeAD_escapeAD, if_true]

theorem AEAD.binding_tagged : AEAD.tagged.Binding := fun _ plaintext ad ad' hne => by
  simp only [AEAD.tagged, unescapeAD_escapeAD, if_neg (Ne.symm hne)]

/-- A sealed version read back under other associated data fails authentication. -/
theorem decryptVersion_of_generateAD_ne (c : AESGCMCryptor) (hb : c.gcm.Binding) (k : Key) (v : KeyVersion)
    (nonce : Nonce c.gcm) (dbk : DBKey) (id : UInt64) (t : Int)
    (h : AESGCMCryptor.generateAD dbk.id id t ≠ AESGCMCryptor.generateAD k.id v.id v.creationTime) :
    c.decryptVersion dbk { c.encryptVersion k v nonce with id := id, creationTime := t } =
      .error .messageAuthenticationFailed := by
  simp [AESGCMCryptor.decryptVersion, AESGCMCryptor.encryptVersion, AESGCMCryptor.buildMetadata, AEAD.gcmOpen,
    nonce.2, hb _ _ _ _ h]

/-- **The associated data binds the version.** Distinct (key id, version id, creation
time) triples, the creation times in the range of `int64`, give distinct associated
data. So under an AEAD that binds it, a version sealed by `EncryptVersion` and read
back with another id or creation time, or under a record with another key id, fails
authentication. -/
theorem generateAD_binds_version (c : AESGCMCryptor) :
    (∀ (kid kid' : String) (vid vid' : UInt64) (t t' : Int),
      -9223372036854775808 ≤ t ∧ t < 9223372036854775808 →
      -9223372036854775808 ≤ t' ∧ t' < 9223372036854775808 →
      (kid, vid, t) ≠ (kid', vid', t') → AESGCMCryptor.generateAD kid vid t ≠ AESGCMCryptor.generateAD kid' vid' t') ∧
    (c.gcm.Binding → ∀ (k : Key) (v : KeyVersion) (nonce : Nonce c.gcm) (dbk : DBKey) (id : UInt64) (t : Int),
      -9223372036854775808 ≤ v.creationTime ∧ v.creationTime < 9223372036854775808 →
      -9223372036854775808 ≤ t ∧ t < 9223372036854775808 →
      (dbk.id, id, t) ≠ (k.id, v.id, v.creationTime) →
      c.decryptVersion dbk { c.encryptVersion k v nonce with id := id, creationTime := t } =
        .error .messageAuthenticationFailed) := by
  have hinj : ∀ (kid kid' : String) (vid vid' : UInt64) (t t' : Int),
      -9223372036854775808 ≤ t ∧ t < 9223372036854775808 →
      -9223372036854775808 ≤ t' ∧ t' < 9223372036854775808 →
      (kid, vid, t) ≠ (kid', vid', t') → AESGCMCryptor.generateAD kid vid t ≠ AESGCMCryptor.generateAD kid' vid' t' :=
    fun _ _ _ _ _ _ ht ht' hne h => hne (by obtain ⟨rfl, rfl, rfl⟩ := generateAD_inj ht ht' h; rfl)
  exact ⟨hinj, fun hb k v nonce dbk id t hv ht hne =>
    decryptVersion_of_generateAD_ne c hb k v nonce dbk id t (hinj _ _ _ _ _ _ ht hv hne)⟩

/-- Key ids `a` and `b` give different associated data, and a version sealed at id `1`
and read back as id `2` fails authentication under the binding stand-in. -/
theorem generateAD_binds_tagged :
    ((-9223372036854775808 ≤ (5 : Int) ∧ (5 : Int) < 9223372036854775808) ∧
      ("a", (1 : UInt64), (5 : Int)) ≠ ("b", 1, 5) ∧
      AESGCMCryptor.generateAD "a" 1 5 ≠ AESGCMCryptor.generateAD "b" 1 5) ∧
    (AEAD.tagged.Binding ∧ ("k", (2 : UInt64), (5 : Int)) ≠ ("k", 1, 5) ∧
      (⟨AEAD.tagged, 1⟩ : AESGCMCryptor).decryptVersion ⟨"k", [], [], "", 0⟩
        { (⟨AEAD.tagged, 1⟩ : AESGCMCryptor).encryptVersion ⟨"k", [], [], "", ""⟩ ⟨1, [7], .primary, 5⟩ ⟨[], rfl⟩ with
          id := 2, creationTime := 5 } = .error .messageAuthenticationFailed) := by
  have hr : -9223372036854775808 ≤ (5 : Int) ∧ (5 : Int) < 9223372036854775808 := by omega
  have hne : ("a", (1 : UInt64), (5 : Int)) ≠ ("b", 1, 5) := by decide
  have hne' : ("k", (2 : UInt64), (5 : Int)) ≠ ("k", 1, 5) := by decide
  obtain ⟨h1, h2⟩ := generateAD_binds_version ⟨AEAD.tagged, 1⟩
  exact ⟨⟨hr, hne, h1 _ _ _ _ _ _ hr hr hne⟩, AEAD.binding_tagged, hne',
    h2 AEAD.binding_tagged _ _ _ _ _ _ hr hr hne'⟩

end Knox

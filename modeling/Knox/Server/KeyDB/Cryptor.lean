import Knox.Server.KeyDB.TempDB

/-! The AES-GCM cryptor.

AES-GCM itself is a parameter: an `AEAD` whose `unseal` inverts `seal` under the
same nonce and associated data (`unseal_seal`). The cryptor's key is fixed inside
it, so `aes.NewCipher` and `cipher.NewGCM` do not fail here. `gcm.Open` panics on
a nonce of the wrong length; `gcmOpen` is that check in front of `aeadOpen`. A
nonce the cryptor draws (`make([]byte, gcm.NonceSize())` filled by `rand.Read`)
has the right length by its type, `Nonce`, and its bytes are an argument.

Each version is sealed with the associated data `generateAD` builds from the key
id, the version id and the creation time, and carries the metadata byte string
`version ‖ nonce`. Decrypting what was encrypted under the same cryptor gives the
key back with its `Path` cleared (`decrypt_encrypt`); decryption keeps the id,
ACL, hash and the id and status of every version, whatever else it finds
(`decrypt_eq_ok`). -/
namespace Knox

/-- An authenticated cipher with associated data, keyed. -/
structure AEAD where
  nonceSize : Nat
  /-- `gcm.Seal`. -/
  aeadSeal : (nonce plaintext additionalData : List UInt8) → List UInt8
  /-- `gcm.Open` on a nonce of the right length. -/
  aeadOpen : (nonce ciphertext additionalData : List UInt8) → Except GoError (List UInt8)
  aeadOpen_aeadSeal : ∀ nonce plaintext additionalData, nonce.length = nonceSize →
    aeadOpen nonce (aeadSeal nonce plaintext additionalData) additionalData = .ok plaintext

/-- `gcm.Open`, with its panic on a nonce of the wrong length. -/
def AEAD.gcmOpen (g : AEAD) (nonce ciphertext additionalData : List UInt8) :
    Except GoError (List UInt8) :=
  if nonce.length ≠ g.nonceSize then .error .incorrectNonceLength
  else g.aeadOpen nonce ciphertext additionalData

/-- A nonce drawn for `g`: `gcm.NonceSize()` random bytes. -/
def Nonce (g : AEAD) := { n : List UInt8 // n.length = g.nonceSize }

/-- `aesGCMCryptor`: the cipher its key data makes, and its version byte. -/
structure AESGCMCryptor where
  gcm : AEAD
  version : UInt8

/-- A stand-in cipher for runs on fixed inputs, where a statement proved for every
cryptor is read at one: no nonce, and the ciphertext is the plaintext. -/
def AESGCMCryptor.plain : AESGCMCryptor :=
  ⟨⟨0, fun _ plaintext _ => plaintext, fun _ ciphertext _ => .ok ciphertext, fun _ _ _ _ => rfl⟩, 1⟩

/-- `binary.PutUvarint`: seven bits a byte, the high bit set on all but the last;
ten bytes hold any `uint64`. -/
def putUvarint (x : Nat) : List UInt8 := go 10 x
where
  go : Nat → Nat → List UInt8
    | 0, _ => []
    | f + 1, x => if x < 128 then [UInt8.ofNat x] else UInt8.ofNat (x % 128 + 128) :: go f (x / 128)

/-- The zigzag map `binary.PutVarint` applies to an `int64` before `PutUvarint`. -/
def zigzag (x : Int) : Nat := if 0 ≤ x then (2 * x).toNat else (-2 * x - 1).toNat

/-- A `make([]byte, binary.MaxVarintLen64)` slot with the encoding written at its start. -/
def varintSlot (b : List UInt8) : List UInt8 := b ++ List.replicate (10 - b.length) 0

namespace AESGCMCryptor

/-- `generateAD`: the version id's slot, the creation time's slot, the key id's bytes. -/
def generateAD (kid : String) (vid : UInt64) (creation : Int) : List UInt8 :=
  varintSlot (putUvarint vid.toNat) ++ varintSlot (putUvarint (zigzag creation)) ++
    kid.toUTF8.data.toList

/-- `buildMetadata`: the version byte followed by the nonce. -/
def buildMetadata (version : UInt8) (nonce : List UInt8) : List UInt8 := version :: nonce

variable (c : AESGCMCryptor)

/-- `aesGCMCryptor.EncryptVersion`. -/
def encryptVersion (k : Key) (v : KeyVersion) (nonce : Nonce c.gcm) : EncKeyVersion :=
  { id := v.id
    encData := c.gcm.aeadSeal nonce.1 v.data (generateAD k.id v.id v.creationTime)
    status := v.status
    creationTime := v.creationTime
    cryptoMetadata := buildMetadata c.version nonce.1 }

/-- `aesGCMCryptor.decryptVersion`: `md.Version()` is `md[0]` and `md.Nonce()` is `md[1:]`. -/
def decryptVersion (k : DBKey) (v : EncKeyVersion) : Except GoError KeyVersion :=
  match v.cryptoMetadata with
  | [] => .error .indexOutOfRange
  | version :: nonce =>
    if version ≠ c.version then .error .cryptorVersion
    else do
      let plaintext ← c.gcm.gcmOpen nonce v.encData (generateAD k.id v.id v.creationTime)
      pure { id := v.id, data := plaintext, status := v.status, creationTime := v.creationTime }

/-- The loop of `Encrypt`: the `i`-th version sealed under the `i`-th nonce drawn. -/
def encryptVersions (k : Key) (nonces : Nat → Nonce c.gcm) : Nat → KeyVersionList → List EncKeyVersion
  | _, [] => []
  | i, v :: rest => c.encryptVersion k v (nonces i) :: encryptVersions k nonces (i + 1) rest

/-- `aesGCMCryptor.Encrypt`. -/
def encrypt (k : Key) (nonces : Nat → Nonce c.gcm) : DBKey :=
  { id := k.id
    acl := k.acl
    versionList := c.encryptVersions k nonces 0 k.versionList
    versionHash := k.versionHash
    dbVersion := 0 }

/-- The loop of `Decrypt`: the first version that fails ends it. -/
def decryptVersions (k : DBKey) : List EncKeyVersion → Except GoError KeyVersionList
  | [] => .ok []
  | v :: rest => do
    let dv ← c.decryptVersion k v
    let drest ← decryptVersions k rest
    pure (dv :: drest)

/-- `aesGCMCryptor.Decrypt`. -/
def decrypt (k : DBKey) : Except GoError Key := do
  let versions ← c.decryptVersions k k.versionList
  pure { id := k.id, acl := k.acl, versionList := versions, versionHash := k.versionHash, path := "" }

/-! ### Round trip -/

theorem decryptVersion_encryptVersion (k : Key) (dbk : DBKey) (hid : dbk.id = k.id)
    (v : KeyVersion) (nonce : Nonce c.gcm) :
    c.decryptVersion dbk (c.encryptVersion k v nonce) = .ok v := by
  simp [decryptVersion, encryptVersion, buildMetadata, AEAD.gcmOpen, nonce.2, hid,
    c.gcm.aeadOpen_aeadSeal _ _ _ nonce.2]

theorem decryptVersions_encryptVersions (k : Key) (dbk : DBKey) (hid : dbk.id = k.id)
    (nonces : Nat → Nonce c.gcm) :
    ∀ (i : Nat) (vs : KeyVersionList), c.decryptVersions dbk (c.encryptVersions k nonces i vs) = .ok vs
  | _, [] => rfl
  | i, v :: rest => by
    simp [encryptVersions, decryptVersions, c.decryptVersion_encryptVersion k dbk hid,
      decryptVersions_encryptVersions k dbk hid nonces (i + 1) rest]

/-- Decrypting under the cryptor that encrypted gives the key back, `Path` cleared. -/
theorem decrypt_encrypt (k : Key) (nonces : Nat → Nonce c.gcm) :
    c.decrypt (c.encrypt k nonces) = .ok { k with path := "" } := by
  have h := c.decryptVersions_encryptVersions k (c.encrypt k nonces) rfl nonces 0 k.versionList
  simp only [decrypt, encrypt] at h ⊢
  rw [h]
  rfl

/-- A cryptor with another version byte refuses the first version, whatever its cipher. -/
theorem decrypt_encrypt_of_version_ne (k : Key) (nonces : Nat → Nonce c.gcm) (c' : AESGCMCryptor)
    (hv : c'.version ≠ c.version) (hk : k.versionList ≠ []) :
    c'.decrypt (c.encrypt k nonces) = .error .cryptorVersion := by
  obtain ⟨id, acl, _ | ⟨v, rest⟩, hash, path⟩ := k
  · exact absurd rfl hk
  · simp [decrypt, encrypt, encryptVersions, decryptVersions, decryptVersion, encryptVersion, buildMetadata,
      Ne.symm hv]

/-- **Round trip.** Decrypting what a cryptor encrypted gives the key back with its
`Path` cleared; a cryptor with another version byte refuses it as soon as it has a
version. -/
theorem encrypt_round_trip (k : Key) (nonces : Nat → Nonce c.gcm) :
    c.decrypt (c.encrypt k nonces) = .ok { k with path := "" } ∧
    ∀ c' : AESGCMCryptor, c'.version ≠ c.version → k.versionList ≠ [] →
      c'.decrypt (c.encrypt k nonces) = .error .cryptorVersion :=
  ⟨c.decrypt_encrypt k nonces, fun c' hv hk => c.decrypt_encrypt_of_version_ne k nonces c' hv hk⟩

omit c in
/-- A key of one version encrypted under the stand-in cryptor, read by one with version byte `2`. -/
theorem encrypt_round_trip_plain :
    (⟨plain.gcm, 2⟩ : AESGCMCryptor).version ≠ plain.version ∧
    ([⟨1, [7], .primary, 5⟩] : KeyVersionList) ≠ [] ∧
    (⟨plain.gcm, 2⟩ : AESGCMCryptor).decrypt (plain.encrypt ⟨"k", [], [⟨1, [7], .primary, 5⟩], "", "p"⟩ fun _ => ⟨[], rfl⟩) =
      .error .cryptorVersion := by
  have hv : (⟨plain.gcm, 2⟩ : AESGCMCryptor).version ≠ plain.version := by decide
  have hk : ([⟨1, [7], .primary, 5⟩] : KeyVersionList) ≠ [] := List.cons_ne_nil _ _
  exact ⟨hv, hk, (encrypt_round_trip plain _ _).2 _ hv hk⟩

/-! ### What decryption reads -/

/-- **The metadata is read unchecked.** `Decrypt` panics with an index out of range on
a record whose first version has empty metadata (`md[0]`), and in `gcm.Open` on one
whose first version carries the cryptor's version byte and a nonce of another length. -/
theorem decrypt_panics (k : DBKey) (v : EncKeyVersion) (rest : List EncKeyVersion)
    (hk : k.versionList = v :: rest) :
    (v.cryptoMetadata = [] → c.decrypt k = .error .indexOutOfRange) ∧
    ∀ nonce, v.cryptoMetadata = c.version :: nonce → nonce.length ≠ c.gcm.nonceSize →
      c.decrypt k = .error .incorrectNonceLength := by
  refine ⟨fun hm => ?_, fun nonce hm hn => ?_⟩
  · simp [decrypt, hk, decryptVersions, decryptVersion, hm]
  · simp [decrypt, hk, decryptVersions, decryptVersion, hm, AEAD.gcmOpen, hn]

omit c in
/-- Two records of one version under the stand-in cryptor: one with empty metadata, one
with the nonce `[9]` where the stand-in takes none. -/
theorem decrypt_panics_plain :
    (([] : List UInt8) = [] ∧ plain.decrypt ⟨"k", [], [⟨1, [7], .primary, 5, []⟩], "", 0⟩ = .error .indexOutOfRange) ∧
    (([1, 9] : List UInt8) = plain.version :: [9] ∧ [(9 : UInt8)].length ≠ plain.gcm.nonceSize ∧
      plain.decrypt ⟨"k", [], [⟨1, [7], .primary, 5, [1, 9]⟩], "", 0⟩ = .error .incorrectNonceLength) := by
  have h1 : ([1, 9] : List UInt8) = plain.version :: [9] := rfl
  have h2 : [(9 : UInt8)].length ≠ plain.gcm.nonceSize := by decide
  exact ⟨⟨rfl, (decrypt_panics plain _ _ [] rfl).1 rfl⟩, h1, h2, (decrypt_panics plain _ _ [] rfl).2 [9] h1 h2⟩

theorem decryptVersion_congr {k k' : DBKey} (h : k.id = k'.id) (v : EncKeyVersion) :
    c.decryptVersion k v = c.decryptVersion k' v := by
  simp only [decryptVersion, h]

/-- Decryption reads a record's id, not the rest of it, to rebuild each version's associated data. -/
theorem decryptVersions_congr {k k' : DBKey} (h : k.id = k'.id) :
    ∀ vs : List EncKeyVersion, c.decryptVersions k vs = c.decryptVersions k' vs
  | [] => rfl
  | v :: rest => by
    simp only [decryptVersions, c.decryptVersion_congr h v, decryptVersions_congr h rest]

/-- A record with another ACL, hash or token decrypts to the same versions. -/
theorem decrypt_of_versionList_eq {r r' : DBKey} {k : Key} (hid : r'.id = r.id)
    (hv : r'.versionList = r.versionList) (h : c.decrypt r = .ok k) :
    c.decrypt r' = .ok { k with acl := r'.acl, versionHash := r'.versionHash } := by
  simp only [decrypt, bind_eq_ok, pure_eq_ok, Except.ok.injEq] at h ⊢
  obtain ⟨versions, hvs, rfl⟩ := h
  rw [hv, c.decryptVersions_congr hid, hvs]
  exact ⟨versions, rfl, by rw [hid]⟩

/-- Decryption does not read the token. -/
theorem decrypt_dbVersion (r : DBKey) (n : Int) : c.decrypt { r with dbVersion := n } = c.decrypt r := by
  unfold decrypt
  rw [c.decryptVersions_congr (show ({ r with dbVersion := n } : DBKey).id = r.id from rfl)]

/-- The status of a stored version is not sealed: decrypting a version with another
status gives the version decrypted with that status. -/
theorem decryptVersion_status (k : DBKey) (v : EncKeyVersion) (s : VersionStatus) :
    c.decryptVersion k { v with status := s } = (fun dv => { dv with status := s }) <$> c.decryptVersion k v := by
  obtain ⟨id, encData, status, creationTime, _ | ⟨version, nonce⟩⟩ := v
  · rfl
  · simp only [decryptVersion]
    split_ifs
    · rfl
    · cases c.gcm.gcmOpen nonce encData _ <;> rfl

theorem decryptVersions_append {k : DBKey} {ws : List EncKeyVersion} {b : KeyVersionList}
    (hb : c.decryptVersions k ws = .ok b) :
    ∀ {vs : List EncKeyVersion} {a : KeyVersionList}, c.decryptVersions k vs = .ok a →
      c.decryptVersions k (vs ++ ws) = .ok (a ++ b)
  | [], _, ha => by cases ha; exact hb
  | v :: vs, a, ha => by
    simp only [decryptVersions, bind_eq_ok, pure_eq_ok, Except.ok.injEq] at ha
    obtain ⟨dv, hdv, drest, hrest, rfl⟩ := ha
    simp [decryptVersions, hdv, decryptVersions_append hb hrest]

/-- Copying statuses onto stored versions copies them onto the decrypted ones. -/
theorem decryptVersions_zipWith_status {k : DBKey} :
    ∀ {vs : List EncKeyVersion} {dvs : KeyVersionList} (kvl : KeyVersionList),
      c.decryptVersions k vs = .ok dvs →
      c.decryptVersions k (List.zipWith (fun v nv => { v with status := nv.status }) vs kvl) =
        .ok (List.zipWith (fun dv nv => { dv with status := nv.status }) dvs kvl)
  | [], _, _, h => by cases h; rfl
  | _ :: _, _, [], h => by
    simp only [decryptVersions, bind_eq_ok, pure_eq_ok, Except.ok.injEq] at h
    obtain ⟨_, -, _, -, rfl⟩ := h
    rfl
  | v :: vs, _, nv :: kvl, h => by
    simp only [decryptVersions, bind_eq_ok, pure_eq_ok, Except.ok.injEq] at h
    obtain ⟨dv, hdv, drest, hrest, rfl⟩ := h
    simp [decryptVersions, decryptVersion_status, hdv, decryptVersions_zipWith_status kvl hrest]

theorem decryptVersions_of_decrypt {k : DBKey} {key : Key} (h : c.decrypt k = .ok key) :
    c.decryptVersions k k.versionList = .ok key.versionList := by
  simp only [decrypt, bind_eq_ok, pure_eq_ok, Except.ok.injEq] at h
  obtain ⟨versions, hv, rfl⟩ := h
  exact hv

/-- Decrypting versions reads the record's id alone, which an update of its versions
and hash keeps. -/
theorem decryptVersions_with (r : DBKey) (vs : List EncKeyVersion) (h : String) (ws : List EncKeyVersion) :
    c.decryptVersions { r with versionList := vs, versionHash := h } ws = c.decryptVersions r ws := by
  apply decryptVersions_congr
  rfl

/-- `r` with one version appended decrypts to the key of `r` with that version's
decryption appended. -/
theorem decrypt_append {r : DBKey} {key : Key} {encV : EncKeyVersion} {v : KeyVersion} (h : String)
    (hr : c.decrypt r = .ok key) (hnew : c.decryptVersion r encV = .ok v) :
    c.decrypt { r with versionList := r.versionList ++ [encV], versionHash := h } =
      .ok ⟨r.id, r.acl, key.versionList ++ [v], h, ""⟩ := by
  have hone : c.decryptVersions r [encV] = .ok [v] := by
    simp only [decryptVersions, hnew, ok_bind, pure_eq_ok]
  simp only [decrypt, decryptVersions_with,
    c.decryptVersions_append hone (c.decryptVersions_of_decrypt hr), ok_bind, pure_eq_ok]

/-- `r` with statuses copied from `kvl` decrypts to the key of `r` with the same
statuses copied. -/
theorem decrypt_zipWith_status {r : DBKey} {key : Key} (kvl : KeyVersionList) (h : String)
    (hr : c.decrypt r = .ok key) :
    c.decrypt { r with versionList := List.zipWith (fun v nv => { v with status := nv.status }) r.versionList kvl,
                       versionHash := h } =
      .ok ⟨r.id, r.acl, List.zipWith (fun dv nv => { dv with status := nv.status }) key.versionList kvl, h, ""⟩ := by
  simp only [decrypt, decryptVersions_with,
    c.decryptVersions_zipWith_status kvl (c.decryptVersions_of_decrypt hr), ok_bind, pure_eq_ok]

/-! ### What decryption keeps -/


theorem decryptVersion_eq_ok {k : DBKey} {v : EncKeyVersion} {dv : KeyVersion}
    (h : c.decryptVersion k v = .ok dv) : dv = { v.idStatus with data := dv.data, creationTime := v.creationTime } := by
  unfold decryptVersion at h
  split at h
  · cases h
  · split at h
    · cases h
    · cases ho : c.gcm.gcmOpen _ v.encData _ <;> rw [ho] at h <;> cases h
      rfl

theorem decryptVersions_eq_ok {k : DBKey} :
    ∀ {vs : List EncKeyVersion} {kvl : KeyVersionList}, c.decryptVersions k vs = .ok kvl →
      kvl.map KeyVersion.idStatus = vs.map EncKeyVersion.idStatus
  | [], kvl, h => by cases h; rfl
  | v :: rest, kvl, h => by
    simp only [decryptVersions, bind_eq_ok, pure_eq_ok, Except.ok.injEq] at h
    obtain ⟨dv, hdv, drest, hrest, rfl⟩ := h
    rw [List.map_cons, List.map_cons, decryptVersions_eq_ok hrest, c.decryptVersion_eq_ok hdv]
    rfl

/-- Decryption keeps the id, the ACL, the hash, and the id and status of every version. -/
theorem decrypt_eq_ok {k : DBKey} {key : Key} (h : c.decrypt k = .ok key) :
    key.id = k.id ∧ key.acl = k.acl ∧ key.versionHash = k.versionHash ∧
      key.versionList.map KeyVersion.idStatus = k.statuses := by
  simp only [decrypt, bind_eq_ok, pure_eq_ok, Except.ok.injEq] at h
  obtain ⟨versions, hv, rfl⟩ := h
  exact ⟨rfl, rfl, rfl, c.decryptVersions_eq_ok hv⟩

/-- A decrypted key has no `Path`, so encrypting it again, under any cryptor, and
decrypting gives it back. -/
theorem decrypt_encrypt_of_decrypt {r : DBKey} {key : Key} (h : c.decrypt r = .ok key)
    (c' : AESGCMCryptor) (nonces : Nat → Nonce c'.gcm) : c'.decrypt (c'.encrypt key nonces) = .ok key := by
  simp only [decrypt, bind_eq_ok, pure_eq_ok, Except.ok.injEq] at h
  obtain ⟨versions, -, rfl⟩ := h
  exact c'.decrypt_encrypt _ nonces

/-- Decrypting a list of records keeps their ids. -/
theorem map_id_of_mapM_decrypt :
    ∀ {rs : List DBKey} {ks : List Key}, rs.mapM c.decrypt = .ok ks → rs.map (·.id) = ks.map (·.id)
  | [], _, h => by cases Except.ok.inj h; rfl
  | r :: rs, ks, h => by
    obtain ⟨k, ks', hk, hks, rfl⟩ := mapM_cons_eq_ok.mp h
    simp [(c.decrypt_eq_ok hk).1, map_id_of_mapM_decrypt hks]

end AESGCMCryptor

end Knox

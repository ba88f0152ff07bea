import Knox.Server.KeyDB.Cryptor

/-! The key manager: `keyManager` over `TempDB` and the AES-GCM cryptor.

Each method is one function on the manager's state. The three read-modify-write
methods are a `db.Get`, a pure computation on the record read, and a `db.Update`
carrying that record's token; the middle part is a function of its own
(`updateAccessRecord`, `addVersionRecord`, `updateVersionRecord`, gathered as
`Change.apply`), so that the concurrent server can put other steps between the
read and the write. Random inputs (nonces) and clock readings are arguments. -/
namespace Knox

/-- `keyManager`: its cryptor and the store it writes. -/
structure KeyManager where
  cryptor : AESGCMCryptor
  db : TempDB

/-- The write-back of `UpdateVersion`: each stored version takes the status of the
last version of `kvl` with its id. -/
def copyStatuses (kvl : KeyVersionList) (encs : List EncKeyVersion) : List EncKeyVersion :=
  encs.map fun v => kvl.foldl (fun v nv => if v.id = nv.id then { v with status := nv.status } else v) v

section Records
variable [Sha256] (c : AESGCMCryptor)

/-- What `UpdateAccess` writes back for the record `encK` it read. -/
def updateAccessRecord (encK : DBKey) (a : Access) : Except GoError DBKey := do
  let newEncK := encK.copy
  let newEncK := { newEncK with acl := newEncK.acl.add a }
  newEncK.acl.validate
  pure newEncK

/-- What `AddVersion` writes back: the new version encrypted and appended to the
copied record, and the hash of the decrypted list with it appended. `Hash` sorts
`k.VersionList` in place, so `k` is validated with its list sorted. -/
def addVersionRecord (encK : DBKey) (v : KeyVersion) (nonce : Nonce c.gcm) :
    Except GoError DBKey := do
  let k ← (c.decrypt encK).mapError .decryptingKey
  let kvl := k.versionList ++ [v]
  let k := { k with versionList := kvl.sort, versionHash := kvl.hash }
  k.validate
  let encV := c.encryptVersion k v nonce
  let newEncK := encK.copy
  pure { newEncK with versionList := newEncK.versionList ++ [encV], versionHash := k.versionList.hash }

/-- What `UpdateVersion` writes back: the statuses of the rotated list copied by
version id onto the copied record, and its hash. `Update` returns `k.VersionList`
changed in place and `Hash` sorts it in place, so `k` is validated, and the
statuses are copied, from the rotated list sorted. -/
def updateVersionRecord (encK : DBKey) (versionID : UInt64) (s : VersionStatus) :
    Except GoError DBKey := do
  let k ← (c.decrypt encK).mapError .decryptingKey
  let kvl ← k.versionList.update versionID s
  let k := { k with versionList := kvl.sort, versionHash := kvl.hash }
  k.validate
  let newEncK := encK.copy
  pure { newEncK with
    versionList := copyStatuses k.versionList newEncK.versionList, versionHash := k.versionHash }

end Records

/-- A read-modify-write method of the manager, with its arguments. -/
inductive Change (c : AESGCMCryptor) where
  | updateAccess (a : Access)
  | addVersion (v : KeyVersion) (nonce : Nonce c.gcm)
  | updateVersion (versionID : UInt64) (s : VersionStatus)

/-- What a change writes back for the record it read. -/
def Change.apply [Sha256] {c : AESGCMCryptor} : Change c → DBKey → Except GoError DBKey
  | .updateAccess a, encK => updateAccessRecord encK a
  | .addVersion v nonce, encK => addVersionRecord c encK v nonce
  | .updateVersion versionID s, encK => updateVersionRecord c encK versionID s

namespace KeyManager

variable [Sha256] (m : KeyManager)

/-- `GetAllKeyIDs`. -/
def getAllKeyIDs : List String := m.db.getAll.map (·.id)

/-- `GetUpdatedKeyIDs`: the stored ids the caller lists with another hash. -/
def getUpdatedKeyIDs (versions : String → Option String) : List String :=
  (m.db.getAll.filter fun k => match versions k.id with
    | some v => k.versionHash ≠ v
    | none => false).map (·.id)

omit [Sha256] in
/-- The ids `GetUpdatedKeyIDs` lists are stored ids asked about with another hash. -/
theorem mem_getUpdatedKeyIDs {versions : String → Option String} {id : String} :
    id ∈ m.getUpdatedKeyIDs versions ↔
      ∃ r ∈ m.db.keys, r.id = id ∧ ∃ v, versions id = some v ∧ r.versionHash ≠ v := by
  simp only [getUpdatedKeyIDs, TempDB.getAll, List.mem_map, List.mem_filter]
  constructor
  · rintro ⟨r, ⟨hr, hv⟩, rfl⟩
    split at hv
    · exact ⟨r, hr, rfl, _, ‹_›, by simpa using hv⟩
    · cases hv
  · rintro ⟨r, hr, rfl, v, hv, hne⟩
    exact ⟨r, ⟨hr, by simp [hv, hne]⟩, rfl⟩

/-- `GetKey`: the Inactive filter keeps every version, the Active filter the
Primary and Active ones, the Primary filter `*GetPrimary()`. -/
def getKey (id : String) (status : VersionStatus) : Except GoError Key := do
  let encK ← m.db.get id
  let k ← (m.cryptor.decrypt encK).mapError .decryptingKey
  match status with
  | .inactive => pure k
  | .active => pure { k with versionList := k.versionList.getActive }
  | .primary =>
    match k.versionList.getPrimary with
    | some p => pure { k with versionList := [p] }
    | none => throw .nilPointerDereference

/-- `AddNewKey`. `k.Validate()` sorts `k.VersionList` in place (through `Hash`)
before `Encrypt` reads it. -/
def addNewKey (k : Key) (nonces : Nat → Nonce m.cryptor.gcm) (now : Int) :
    Except GoError KeyManager := do
  k.validate
  let dbk := m.cryptor.encrypt { k with versionList := k.versionList.sort } nonces
  let db ← m.db.add [dbk] fun _ => now
  pure { m with db }

/-- `DeleteKey`. -/
def deleteKey (id : String) : Except GoError KeyManager := do
  let db ← m.db.remove id
  pure { m with db }

/-- `UpdateAccess`. -/
def updateAccess (id : String) (a : Access) (now : Int) : Except GoError KeyManager := do
  let encK ← m.db.get id
  let newEncK ← updateAccessRecord encK a
  let db ← m.db.update newEncK now
  pure { m with db }

/-- `AddVersion`. -/
def addVersion (id : String) (v : KeyVersion) (nonce : Nonce m.cryptor.gcm) (now : Int) :
    Except GoError KeyManager := do
  let encK ← m.db.get id
  let newEncK ← addVersionRecord m.cryptor encK v nonce
  let db ← m.db.update newEncK now
  pure { m with db }

/-- `UpdateVersion`. -/
def updateVersion (keyID : String) (versionID : UInt64) (s : VersionStatus) (now : Int) :
    Except GoError KeyManager := do
  let encK ← m.db.get keyID
  let newEncK ← updateVersionRecord m.cryptor encK versionID s
  let db ← m.db.update newEncK now
  pure { m with db }

/-- The three read-modify-write methods, as one. -/
def change (id : String) (ch : Change m.cryptor) (now : Int) : Except GoError KeyManager := do
  let encK ← m.db.get id
  let newEncK ← ch.apply encK
  let db ← m.db.update newEncK now
  pure { m with db }

omit [Sha256] in
/-- A key `GetKey` returns carries the ACL and the hash of the record `db.Get` read. -/
theorem getKey_eq_ok {id : String} {status : VersionStatus} {key : Key}
    (h : m.getKey id status = .ok key) :
    ∃ r, m.db.get id = .ok r ∧ key.acl = r.acl ∧ key.versionHash = r.versionHash := by
  simp only [getKey, bind_eq_ok, mapError_eq_ok] at h
  obtain ⟨r, hr, k, hk, h⟩ := h
  obtain ⟨-, hacl, hhash, -⟩ := m.cryptor.decrypt_eq_ok hk
  refine ⟨r, hr, ?_⟩
  cases status with
  | inactive => cases h; exact ⟨hacl, hhash⟩
  | active => cases h; exact ⟨hacl, hhash⟩
  | primary =>
    simp only at h
    split at h
    · cases h; exact ⟨hacl, hhash⟩
    · cases h

omit [Sha256] in
/-- A record that decrypts to a key with one Primary version is read at every filter:
the decrypted versions whose status is at most the filter's, in order. -/
theorem getKey_of_decrypt {id : String} {r : DBKey} {k : Key} (hr : m.db.get id = .ok r)
    (hk : m.cryptor.decrypt r = .ok k) (hp : k.versionList.countP (·.status = .primary) = 1)
    (s : VersionStatus) :
    m.getKey id s = .ok { k with versionList := k.versionList.filter (·.status.toNat ≤ s.toNat) } := by
  simp only [getKey, hr, hk, ok_bind, mapError_ok]
  cases s with
  | inactive => rw [KeyVersionList.filter_le_inactive]; rfl
  | active => rw [KeyVersionList.getActive_eq_filter]; rfl
  | primary =>
    obtain ⟨p, hgp, hf⟩ := KeyVersionList.getPrimary_of_countP hp
    simp only [hgp, hf]
    rfl

theorem updateAccess_eq_change (id : String) (a : Access) (now : Int) :
    m.updateAccess id a now = m.change id (.updateAccess a) now := rfl

theorem addVersion_eq_change (id : String) (v : KeyVersion) (nonce : Nonce m.cryptor.gcm) (now : Int) :
    m.addVersion id v nonce now = m.change id (.addVersion v nonce) now := rfl

theorem updateVersion_eq_change (keyID : String) (versionID : UInt64) (s : VersionStatus) (now : Int) :
    m.updateVersion keyID versionID s now = m.change keyID (.updateVersion versionID s) now := rfl

end KeyManager

end Knox

import Knox.Server.Records
import Knox.Server.Auth

/-! The HTTP handlers of the key routes.

A handler reads its parameters, makes its `KeyManager` calls and maps the errors to
the subcodes of `HTTPErrMap`. The request bodies arrive decoded: an ACL or an access
is given as the JSON objects it holds (`AccessJSON`, each field as its raw token) and
data as the bytes base64 decoding gave; a missing parameter is `none`. The clock
readings, the random version id and the nonces are arguments.

The four handlers that change a key first read it through `GetKey` and check the
principal's access (`authorizeKey`), and only then call the manager. That first part
is a function of its own for each (`deleteKeyAuthorize`, `putAccessAuthorize`,
`postVersionAuthorize`, `putVersionsAuthorize`), returning the call it will make
(`Call`), so that the concurrent server can let other requests run between the two.

`postKeysHandler` decodes the ACL with `PrincipalType.UnmarshalJSON`, which turns an
unknown type name into `Unknown`, and a missing `"type"` leaves the zero value; no
check of the entries' types or ids runs on the way to `AddNewKey`
(`postKeysHandler_stores_unknown_type`). -/
namespace Knox

/-- The error subcodes of the API. -/
inductive ErrorCode where
  | ok
  | internalServerError
  | keyIdentifierExists
  | keyVersionDoesNotExist
  | keyIdentifierDoesNotExist
  | unauthenticated
  | unauthorized
  | notYetImplemented
  | notFound
  | noKeyID
  | noKeyData
  | badRequestData
  | badKeyFormat
  | badPrincipalIdentifier
  deriving DecidableEq, Repr

/-- `HTTPErrMap`: the HTTP status and the message a client receives for a subcode. -/
def httpErrMap : ErrorCode → Nat × String
  | .noKeyID => (400, "Missing Key ID")
  | .internalServerError => (500, "Internal Server Error")
  | .keyIdentifierExists => (400, "Key identifer exists")
  | .keyVersionDoesNotExist => (404, "Key version does not exist")
  | .keyIdentifierDoesNotExist => (404, "Key identifer does not exist")
  | .unauthenticated => (401, "User or machine is not authenticated")
  | .unauthorized => (403, "User or machine not authorized")
  | .notYetImplemented => (501, "Not yet implemented")
  | .notFound => (404, "Route not found")
  | .noKeyData => (400, "Missing Key Data")
  | .badRequestData => (400, "Bad request format")
  | .badKeyFormat => (400, "Key ID contains unsupported characters")
  | .badPrincipalIdentifier => (400, "Invalid principal identifier")
  | .ok => (200, "")

/-- `httpError`: the subcode, and the error whose text `errF` logs, if any. -/
structure HttpError where
  subcode : ErrorCode
  cause : Option GoError
  deriving DecidableEq, Repr

/-- `errF`. -/
def errF (c : ErrorCode) (cause : Option GoError) : HttpError := ⟨c, cause⟩

/-- A key-manager call a handler makes once it has authorized a request. -/
inductive Call (c : AESGCMCryptor) where
  | deleteKey (id : String)
  | change (id : String) (ch : Change c)

/-- The key a call is about. -/
def Call.id {c : AESGCMCryptor} : Call c → String
  | .deleteKey id => id
  | .change id _ => id

/-- An operation of the manager, with the nonces `Encrypt` draws. -/
inductive Op (c : AESGCMCryptor) where
  | addNewKey (k : Key) (nonces : Nat → Nonce c.gcm)
  | call (call : Call c)

/-- The key an operation writes. -/
def Op.keyID {c : AESGCMCryptor} : Op c → String
  | .addNewKey k _ => k.id
  | .call cl => cl.id

/-- `newKeyVersion`: `time.Now().UnixNano()` and `rand.Int63()`, a number below `2^63`, are
its arguments. -/
def newKeyVersion (d : List UInt8) (s : VersionStatus) (now : Int) (r : Fin 9223372036854775808) :
    KeyVersion :=
  { id := UInt64.ofNat r.val, data := d, status := s, creationTime := now }

/-- `newKey`: the creator is added as a `User` with `Admin`, then each entry of
`defaultAccess`, and the key gets one Primary version. -/
def newKey [Sha256] (id : String) (acl : ACL) (d : List UInt8) (u : Principal)
    (defaultAccess : List Access) (now : Int) (r : Fin 9223372036854775808) : Key :=
  let creatorAccess : Access := ⟨.user, u.getID, .admin⟩
  let versionList : KeyVersionList := [newKeyVersion d .primary now r]
  { id
    acl := defaultAccess.foldl ACL.add (acl.add creatorAccess)
    versionList
    versionHash := versionList.hash
    path := "" }

namespace KeyManager

variable [Sha256] (m : KeyManager)

/-- The `GetKey` every key handler starts with, its errors mapped. -/
def getKeyFor (keyID : String) (status : VersionStatus) : Except HttpError Key :=
  (m.getKey keyID status).mapError fun e =>
    if e = .keyIDNotFound then errF .keyIdentifierDoesNotExist none else errF .internalServerError (some e)

/-- `GetKey` followed by `principal.CanAccess(key.ACL, level)`. -/
def authorizeKey (p : Principal) (keyID : String) (status : VersionStatus) (level : AccessType) :
    Except HttpError Key := do
  let key ← m.getKeyFor keyID status
  if !p.canAccess key.acl level then throw (errF .unauthorized none)
  pure key

omit [Sha256] in
/-- An authorization that passes read a record under whose ACL the principal has the level. -/
theorem authorizeKey_eq_ok {p : Principal} {keyID : String} {status : VersionStatus}
    {level : AccessType} {key : Key} (h : m.authorizeKey p keyID status level = .ok key) :
    ∃ r, m.db.get keyID = .ok r ∧ p.canAccess r.acl level = true := by
  simp only [authorizeKey, getKeyFor, bind_eq_ok, mapError_eq_ok] at h
  obtain ⟨k, hk, h⟩ := h
  obtain ⟨r, hr, hacl, -⟩ := getKey_eq_ok m hk
  refine ⟨r, hr, ?_⟩
  by_cases hc : p.canAccess k.acl level = true
  · exact hacl ▸ hc
  · simp [hc] at h

omit [Sha256] in
/-- An authorization at the Primary filter passes when the record decrypts, has a
Primary version, and grants the principal the level. -/
theorem authorizeKey_of_decrypt {p : Principal} {keyID : String} {level : AccessType} {r : DBKey}
    {k : Key} {pv : KeyVersion} (hget : m.db.get keyID = .ok r) (hdec : m.cryptor.decrypt r = .ok k)
    (hp : k.versionList.getPrimary = some pv) (hacc : p.canAccess k.acl level = true) :
    m.authorizeKey p keyID .primary level = .ok { k with versionList := [pv] } := by
  simp [authorizeKey, getKeyFor, getKey, hget, hdec, hp, hacc]

/-- The manager's side of a call, `now` being the clock reading of its `db.Update`. -/
def call (now : Int) : Call m.cryptor → Except GoError KeyManager
  | .deleteKey id => m.deleteKey id
  | .change id ch => m.change id ch now

/-! ### Handlers -/

/-- `getKeysHandler`: every id when no id is asked about, else the ids asked about
whose hash differs. `keyMap` is the parsed query; a repeated id keeps its last value. -/
def getKeysHandler (keyMap : List (String × String)) : List String :=
  if keyMap.isEmpty then m.getAllKeyIDs
  else m.getUpdatedKeyIDs fun id => (keyMap.reverse.find? (·.1 = id)).map (·.2)

/-- `postKeysHandler`: returns the new store and the id of the key's one version. -/
def postKeysHandler (p : Principal) (keyID : Option String) (data : Option (List UInt8))
    (acl : Option (List AccessJSON)) (defaultAccess : List Access) (now : Int)
    (r : Fin 9223372036854775808)
    (nonces : Nat → Nonce m.cryptor.gcm) : Except HttpError (KeyManager × UInt64) := do
  if !p.isUser then throw (errF .unauthorized none)
  let some keyID := keyID | throw (errF .noKeyID none)
  let some data := data | throw (errF .noKeyData none)
  let acl ← match acl with
    | some entries => (entries.mapM AccessJSON.decode).mapError fun e => errF .badRequestData (some e)
    | none => pure []
  let key := newKey keyID acl data p defaultAccess now r
  match m.addNewKey key nonces now with
  | .ok m' => pure (m', (newKeyVersion data .primary now r).id)
  | .error .keyExists => throw (errF .keyIdentifierExists none)
  | .error .invalidKeyID => throw (errF .badKeyFormat none)
  | .error e => throw (errF .internalServerError (some e))

/-- A user's create request whose ACL decodes is `AddNewKey` of the key `newKey` builds. -/
theorem postKeysHandler_of_addNewKey {p : Principal} {keyID : String} {data : List UInt8}
    {entries : List AccessJSON} {acl : ACL} {defaultAccess : List Access} {now : Int}
    {r : Fin 9223372036854775808} {nonces : Nat → Nonce m.cryptor.gcm} {m' : KeyManager}
    (hu : p.isUser = true) (hd : entries.mapM AccessJSON.decode = .ok acl)
    (h : m.addNewKey (newKey keyID acl data p defaultAccess now r) nonces now = .ok m') :
    m.postKeysHandler p (some keyID) (some data) (some entries) defaultAccess now r nonces =
      .ok (m', (newKeyVersion data .primary now r).id) := by
  rw [postKeysHandler]
  simp only [hu, hd, h, Bool.not_true, Bool.false_eq_true, if_false, mapError_ok, ok_bind, pure_eq_ok]

/-- **A create request stores ACL entries of any type and id.** A user creates `k`
with entries naming the unknown type `Bogus`, no type at all, and an empty machine
prefix: the handler decodes the first as `Unknown` and the second as the undeclared
zero value, runs no check on any of them, and the key is stored with all three. -/
theorem postKeysHandler_stores_unknown_type (c : AESGCMCryptor) (data : List UInt8) (now : Int)
    (r : Fin 9223372036854775808) (nonces : Nat → Nonce c.gcm) :
    ∃ m' v rec, (KeyManager.mk c ⟨[]⟩).postKeysHandler (.user "alice" []) (some "k") (some data)
        (some [⟨some "\"Bogus\"", some "x", some "\"Read\""⟩, ⟨none, some "y", some "\"Read\""⟩,
          ⟨some "\"MachinePrefix\"", some "", some "\"Read\""⟩]) [] now r nonces = .ok (m', v) ∧
      m'.db.keys = [rec] ∧
      rec.acl = [⟨.unknown, "x", .read⟩, ⟨⟨0⟩, "y", .read⟩, ⟨.machinePrefix, "", .read⟩,
        ⟨.user, "alice", .admin⟩] ∧
      ¬ PrincipalType.unknown.declared ∧ ¬ (⟨0⟩ : PrincipalType).declared := by
  have hk : (newKey "k" [⟨.unknown, "x", .read⟩, ⟨⟨0⟩, "y", .read⟩, ⟨.machinePrefix, "", .read⟩] data
      (.user "alice" []) [] now r).Valid :=
    ⟨rfl, show ACL.Valid [⟨.unknown, "x", .read⟩, ⟨⟨0⟩, "y", .read⟩, ⟨.machinePrefix, "", .read⟩,
        ⟨.user, "alice", .admin⟩] from ⟨by decide, by decide⟩, ⟨List.nodup_singleton _, rfl⟩, rfl⟩
  exact ⟨_, _, _, postKeysHandler_of_addNewKey _ rfl rfl
    (@KeyManager.addNewKey_of_valid _ ⟨c, ⟨[]⟩⟩ _ hk (fun _ h => by cases h) nonces now),
    rfl, rfl, by decide, by decide⟩

omit [Sha256] in
/-- Adding entries of other principals keeps an entry. -/
theorem mem_foldl_add {x : Access} :
    ∀ (acl : ACL) (ds : List Access), x ∈ acl → (∀ d ∈ ds, d.principal ≠ x.principal) → x ∈ ds.foldl ACL.add acl
  | _, [], hx, _ => hx
  | acl, d :: ds, hx, h =>
    mem_foldl_add (acl.add d) ds (ACL.mem_add_of_ne hx (Ne.symm (h d (List.mem_cons_self _ _))))
      fun d' hd' => h d' (List.mem_cons_of_mem _ hd')

/-- The creator keeps Admin when no default entry names it as a user. -/
theorem newKey_creator_admin (id : String) (acl : ACL) (d : List UInt8) (uid : String) (groups : List String)
    (defaultAccess : List Access) (now : Int) (r : Fin 9223372036854775808)
    (h : ∀ a ∈ defaultAccess, a.principal ≠ ⟨.user, uid⟩) :
    (Principal.user uid groups).canAccess (newKey id acl d (.user uid groups) defaultAccess now r).acl .admin = true :=
  Principal.canAccess_iff.mpr ⟨⟨.user, uid, .admin⟩,
    mem_foldl_add _ _ (ACL.mem_add_self acl (by simp)) h, by simp [Principal.names], rfl⟩

/-- **A default entry for the creator replaces its Admin.** With the default access
list `[alice Read]`, alice creates `k` with an empty ACL: `newKey` adds alice as Admin
and then `Add`s the default, which replaces that entry. `AddNewKey` accepts the key,
and the stored ACL is `[alice Read]`, under which alice has no Admin access. -/
theorem postKeysHandler_default_replaces_creator (c : AESGCMCryptor) (data : List UInt8) (now : Int)
    (r : Fin 9223372036854775808) (nonces : Nat → Nonce c.gcm) :
    ∃ m' v rec, (KeyManager.mk c ⟨[]⟩).postKeysHandler (.user "alice" []) (some "k") (some data) (some [])
        [⟨.user, "alice", .read⟩] now r nonces = .ok (m', v) ∧
      m'.db.keys = [rec] ∧ rec.acl = [⟨.user, "alice", .read⟩] ∧
      (Principal.user "alice" []).canAccess rec.acl .admin = false := by
  have hk : (newKey "k" [] data (.user "alice" []) [⟨.user, "alice", .read⟩] now r).Valid :=
    ⟨rfl, show ACL.Valid [⟨.user, "alice", .read⟩] from ⟨by decide, by decide⟩, ⟨List.nodup_singleton _, rfl⟩, rfl⟩
  exact ⟨_, _, _, postKeysHandler_of_addNewKey _ rfl rfl
    (@KeyManager.addNewKey_of_valid _ ⟨c, ⟨[]⟩⟩ _ hk (fun _ h => by cases h) nonces now), rfl, rfl, rfl⟩

/-- `getKeyHandler`: the status filter defaults to Active; the ACL is zeroed in the answer. -/
def getKeyHandler (p : Principal) (keyID : String) (status : Option String) :
    Except HttpError Key := do
  let status ← match status with
    | some s => (VersionStatus.unmarshalJSON s).mapError fun e => errF .badRequestData (some e)
    | none => pure .active
  let key ← m.getKeyFor keyID status
  if !p.canAccess key.acl .read then throw (errF .unauthorized none)
  pure { key with acl := [] }

omit [Sha256] in
/-- `getKeyHandler` answers only a principal with Read access under the stored record's
ACL, with a key that carries the record's hash. -/
theorem getKeyHandler_eq_ok {p : Principal} {keyID : String} {status : Option String} {key : Key}
    (h : m.getKeyHandler p keyID status = .ok key) :
    ∃ r, m.db.get keyID = .ok r ∧ p.canAccess r.acl .read = true ∧ key.versionHash = r.versionHash := by
  have hget : ∀ {st k}, m.getKey keyID st = .ok k →
      (if (!p.canAccess k.acl .read) = true then throw (errF .unauthorized none)
        else pure { k with acl := [] } : Except HttpError Key) = .ok key →
      ∃ r, m.db.get keyID = .ok r ∧ p.canAccess r.acl .read = true ∧ key.versionHash = r.versionHash :=
    fun hk h => by
      obtain ⟨r, hr, hacl, hhash⟩ := getKey_eq_ok m hk
      split at h
      · cases h
      · rename_i hc
        cases h
        exact ⟨r, hr, by simpa [hacl] using hc, hhash⟩
  cases status <;> simp only [getKeyHandler, getKeyFor, bind_eq_ok, mapError_eq_ok, pure_eq_ok,
    ok_bind] at h
  · obtain ⟨k, hk, h⟩ := h
    exact hget hk h
  · obtain ⟨st, -, k, hk, h⟩ := h
    exact hget hk h

/-- The part of `deleteKeyHandler` before `m.DeleteKey`. -/
def deleteKeyAuthorize (p : Principal) (keyID : String) : Except HttpError (Call m.cryptor) := do
  let _ ← m.authorizeKey p keyID .primary .admin
  pure (.deleteKey keyID)

/-- The part of `putAccessHandler` before `m.UpdateAccess`. The principal-id check
`PrincipalType.IsValidPrincipal` is not among the sources; it is the parameter
`isValidPrincipal`. -/
def putAccessAuthorize (isValidPrincipal : PrincipalType → String → Except GoError Unit)
    (p : Principal) (keyID : String) (access : Option AccessJSON) :
    Except HttpError (Call m.cryptor) := do
  let some access := access | throw (errF .badRequestData none)
  let access ← access.decode.mapError fun e => errF .badRequestData (some e)
  let _ ← m.authorizeKey p keyID .primary .admin
  if access.accessType ≠ .none then
    (isValidPrincipal access.type access.id).mapError fun e => errF .badPrincipalIdentifier (some e)
  pure (.change keyID (.updateAccess access))

omit [Sha256] in
/-- A revocation needs no principal-id check: once the key is read and the Admin check
passes, the call is made. -/
theorem putAccessAuthorize_none {isValidPrincipal : PrincipalType → String → Except GoError Unit}
    {p : Principal} {keyID : String} {aj : AccessJSON} {a : Access} {key : Key}
    (hd : aj.decode = .ok a) (hn : a.accessType = .none)
    (hauth : m.authorizeKey p keyID .primary .admin = .ok key) :
    m.putAccessAuthorize isValidPrincipal p keyID (some aj) = .ok (.change keyID (.updateAccess a)) := by
  simp [putAccessAuthorize, hd, hn, hauth]

/-- The part of `postVersionHandler` before `m.AddVersion`. -/
def postVersionAuthorize (p : Principal) (keyID : String) (data : Option (List UInt8))
    (now : Int) (r : Fin 9223372036854775808) (nonce : Nonce m.cryptor.gcm) :
    Except HttpError (Call m.cryptor) := do
  let some data := data | throw (errF .badRequestData none)
  let _ ← m.authorizeKey p keyID .inactive .write
  pure (.change keyID (.addVersion (newKeyVersion data .active now r) nonce))

/-- The part of `putVersionsHandler` before `m.UpdateVersion`; `versionID` is what
`strconv.ParseUint` gave, `none` when it failed. -/
def putVersionsAuthorize (p : Principal) (keyID : String) (versionID : Option UInt64)
    (status : Option String) : Except HttpError (Call m.cryptor) := do
  let some status := status | throw (errF .badRequestData none)
  let status ← (VersionStatus.unmarshalJSON status).mapError fun e => errF .badRequestData (some e)
  let some id := versionID | throw (errF .badRequestData none)
  let _ ← m.authorizeKey p keyID .inactive .write
  pure (.change keyID (.updateVersion id status))

/-- `deleteKeyHandler`. -/
def deleteKeyHandler (p : Principal) (keyID : String) : Except HttpError KeyManager := do
  let c ← m.deleteKeyAuthorize p keyID
  (m.call 0 c).mapError fun e => errF .internalServerError (some e)

/-- `putAccessHandler`. -/
def putAccessHandler (isValidPrincipal : PrincipalType → String → Except GoError Unit)
    (p : Principal) (keyID : String) (access : Option AccessJSON) (now : Int) :
    Except HttpError KeyManager := do
  let c ← m.putAccessAuthorize isValidPrincipal p keyID access
  (m.call now c).mapError fun e => errF .internalServerError (some e)

/-- `postVersionHandler`: returns the new store and the new version's id. -/
def postVersionHandler (p : Principal) (keyID : String) (data : Option (List UInt8))
    (creation : Int) (r : Fin 9223372036854775808) (nonce : Nonce m.cryptor.gcm) (now : Int) :
    Except HttpError (KeyManager × UInt64) := do
  let c ← m.postVersionAuthorize p keyID data creation r nonce
  let m' ← (m.call now c).mapError fun e => errF .internalServerError (some e)
  pure (m', (UInt64.ofNat r.val))

/-- The subcode `putVersionsHandler` reports for an error of `UpdateVersion`. -/
def putVersionsErr (e : GoError) : HttpError :=
  match e with
  | .keyVersionNotFound => errF .keyVersionDoesNotExist (some e)
  | .primaryToInactive | .primaryToActive | .inactiveToPrimary => errF .badRequestData (some e)
  | _ => errF .internalServerError (some e)

/-- `putVersionsHandler`. -/
def putVersionsHandler (p : Principal) (keyID : String) (versionID : Option UInt64)
    (status : Option String) (now : Int) : Except HttpError KeyManager := do
  let c ← m.putVersionsAuthorize p keyID versionID status
  (m.call now c).mapError putVersionsErr

end KeyManager

end Knox

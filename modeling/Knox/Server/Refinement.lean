import Knox.Server.Routes

/-! The key manager refines a store of keys in the clear.

The abstract model says what the manager is for: a finite map from key id to key
(`PlainStore`) with the spec's operations. `add_new_key` validates and inserts,
`update_access` adds the access and validates the ACL, `add_version` appends the
version, rehashes and validates, `update_version` applies `KeyVersionList.Update`,
rehashes and validates, `delete_key` removes; a missing id is `ErrKeyIDNotFound`
and a stored one refused with `ErrKeyExists`.

The manager stores encrypted records and patches them in place: `AddVersion` seals
the new version alone and appends it to the copied record, `UpdateVersion` copies
statuses back by version id. The encrypted store refines the plaintext one
(`Refines`) when its ids are distinct, every record decrypts to the plaintext key of
its id (`Path` aside: `Decrypt` leaves it empty), and every plaintext id is stored.

`AddNewKey` stores the key with its versions sorted: `Validate` calls `Hash`, which
sorts `k.VersionList` in place before `Encrypt` reads it. So the plaintext
`add_new_key` is applied to the key as `Validate` leaves it (`PlainStore.apply`).

* `exec_refines`: from related stores, an operation fails on both sides with the same
  error or succeeds on both, leaving related stores.
* `keyManager_refines_plainStore`: so along every sequential run from empty stores.
* `addNewKey_breaks_refinement`: with `add_new_key` inserting the key as given, one
  insertion of a key whose versions are not sorted already parts the stores. -/
namespace Knox

/-! ### The plaintext store -/

/-- The plaintext store: the key of each id, if any. -/
abbrev PlainStore := String → Option Key

namespace PlainStore

/-- No key. -/
def empty : PlainStore := fun _ => none

/-- The key of an id, or `ErrKeyIDNotFound`. -/
def lookup (P : PlainStore) (id : String) : Except GoError Key :=
  match P id with
  | some k => .ok k
  | none => .error .keyIDNotFound

/-- The store with the key of `id` set to `v`. -/
def set (P : PlainStore) (id : String) (v : Option Key) : PlainStore := Function.update P id v

@[simp] theorem lookup_set_self (P : PlainStore) (id : String) (k : Key) :
    (P.set id (some k)).lookup id = .ok k := by
  simp [lookup, set]

@[simp] theorem lookup_erase_self (P : PlainStore) (id : String) :
    (P.set id none).lookup id = .error .keyIDNotFound := by
  simp [lookup, set]

theorem lookup_set_ne (P : PlainStore) {id id' : String} (v : Option Key) (h : id' ≠ id) :
    (P.set id v).lookup id' = P.lookup id' := by
  simp [lookup, set, Function.update_noteq h]

theorem lookup_eq_ok {P : PlainStore} {id : String} {k : Key} : P.lookup id = .ok k ↔ P id = some k := by
  unfold lookup
  split <;> simp_all

theorem lookup_eq_error {P : PlainStore} {id : String} {e : GoError} :
    P.lookup id = .error e ↔ e = .keyIDNotFound ∧ P id = none := by
  unfold lookup
  split <;> simp_all [eq_comm]

variable [Sha256]

/-- `add_new_key`: validate, refuse an id already stored, insert. -/
def addNewKey (P : PlainStore) (k : Key) : Except GoError PlainStore := do
  k.validate
  if (P k.id).isSome then throw .keyExists
  pure (P.set k.id (some k))

/-- `delete_key`. -/
def deleteKey (P : PlainStore) (id : String) : Except GoError PlainStore := do
  let _ ← P.lookup id
  pure (P.set id none)

/-- The change of one key: `update_access`, `add_version`, `update_version`. -/
def changeKey {c : AESGCMCryptor} : Change c → Key → Except GoError Key
  | .updateAccess a, k => do
    let acl := k.acl.add a
    acl.validate
    pure { k with acl := acl }
  | .addVersion v _, k => do
    let kvl := k.versionList ++ [v]
    let k := { k with versionList := kvl, versionHash := kvl.hash }
    k.validate
    pure k
  | .updateVersion versionID s, k => do
    let kvl ← k.versionList.update versionID s
    let k := { k with versionList := kvl, versionHash := kvl.hash }
    k.validate
    pure k

/-- A change of the key of an id. -/
def change {c : AESGCMCryptor} (P : PlainStore) (id : String) (ch : Change c) :
    Except GoError PlainStore := do
  let k ← P.lookup id
  let k ← changeKey ch k
  pure (P.set id (some k))

end PlainStore

/-! ### Operations and runs -/

section Runs
variable [Sha256] {c : AESGCMCryptor}

/-- The operation on the plaintext store; `add_new_key` takes the key as `Validate`
leaves it, versions sorted. -/
def PlainStore.apply (P : PlainStore) : Op c → Except GoError PlainStore
  | .addNewKey k _ => P.addNewKey { k with versionList := k.versionList.sort }
  | .call (.deleteKey id) => P.deleteKey id
  | .call (.change id ch) => P.change id ch

variable (c)

/-- The operation on the manager of cryptor `c` and store `db`, `now` being the clock. -/
def exec (db : TempDB) (op : Op c) (now : Int) : Except GoError TempDB :=
  match op with
  | .addNewKey k nonces => (·.db) <$> (KeyManager.mk c db).addNewKey k nonces now
  | .call cl => (·.db) <$> (KeyManager.mk c db).call now cl

/-- A sequential run of the manager: one operation after the other, a failed one
changing nothing. -/
def execRun (db : TempDB) : List (Op c × Int) → TempDB
  | [] => db
  | (op, now) :: ops => execRun ((exec c db op now).toOption.getD db) ops

variable {c}

/-- The same run on the plaintext store. -/
def PlainStore.run (P : PlainStore) : List (Op c × Int) → PlainStore
  | [] => P
  | (op, _) :: ops => PlainStore.run ((P.apply op).toOption.getD P) ops

theorem exec_deleteKey (db : TempDB) (id : String) (now : Int) :
    exec c db (.call (.deleteKey id)) now = db.remove id := by
  simp only [exec, KeyManager.call, KeyManager.deleteKey, map_bind, map_pure]
  exact bind_pure _

theorem exec_change (db : TempDB) (id : String) (ch : Change c) (now : Int) :
    exec c db (.call (.change id ch)) now =
      db.get id >>= fun r => ch.apply r >>= fun w => db.update w now := by
  simp only [exec, KeyManager.call, KeyManager.change, map_bind, map_pure]
  simp only [bind_pure]

end Runs

/-! ### The refinement relation -/

/-- The record decrypts to the key, `Path` aside. -/
def Decrypts (c : AESGCMCryptor) (r : DBKey) (k : Key) : Prop := c.decrypt r = .ok { k with path := "" }

/-- The encrypted store refines the plaintext one. -/
structure Refines (c : AESGCMCryptor) (db : TempDB) (P : PlainStore) : Prop where
  /-- The stored ids are distinct. -/
  nodup : (db.keys.map (·.id)).Nodup
  /-- Every record decrypts to the plaintext key of its id. -/
  stored : ∀ r ∈ db.keys, ∃ k, P r.id = some k ∧ Decrypts c r k
  /-- Every plaintext id is stored. -/
  present : ∀ id k, P id = some k → ∃ r ∈ db.keys, r.id = id

section Refines
variable {c : AESGCMCryptor} {db : TempDB} {P : PlainStore}

theorem refines_empty : Refines c ⟨[]⟩ PlainStore.empty :=
  ⟨List.nodup_nil, fun _ h => (by cases h), fun _ _ h => (by cases h)⟩

/-- Related stores answer `Get` alike. -/
theorem Refines.get (h : Refines c db P) (id : String) :
    Corresponds (Decrypts c) (db.get id) (P.lookup id) := by
  cases hg : db.get id with
  | ok r =>
    obtain ⟨hr, rfl⟩ := TempDB.get_eq_ok_mem hg
    obtain ⟨k, hk, hdec⟩ := h.stored r hr
    simpa [PlainStore.lookup, hk, Corresponds] using hdec
  | error e =>
    obtain ⟨rfl, hne⟩ := TempDB.get_eq_error.mp hg
    cases hP : P id with
    | none => simp [PlainStore.lookup, hP, Corresponds]
    | some k =>
      obtain ⟨r, hr, hid⟩ := h.present id k hP
      exact absurd hid (hne r hr)

/-- Stores with distinct ids that answer `Get` alike are related. -/
theorem refines_of_get (hnd : (db.keys.map (·.id)).Nodup)
    (hget : ∀ id, Corresponds (Decrypts c) (db.get id) (P.lookup id)) : Refines c db P := by
  refine ⟨hnd, fun r hr => ?_, fun id k hk => ?_⟩
  · have h := hget r.id
    rw [TempDB.get_of_mem hnd hr, PlainStore.lookup] at h
    split at h
    · exact ⟨_, ‹_›, h⟩
    · exact h.elim
  · rcases (hget id).cases with ⟨e, -, hl⟩ | ⟨r, -, hg, -, -⟩
    · simp [PlainStore.lookup, hk] at hl
    · exact ⟨r, TempDB.get_eq_ok_mem hg⟩

/-- A store that answers `Get` of `id` as the plaintext store with `id` set, and every
other `Get` as before, is related to it. -/
theorem Refines.set (h : Refines c db P) {db' : TempDB} {id : String} {v : Option Key}
    (hnd : (db'.keys.map (·.id)).Nodup)
    (hself : Corresponds (Decrypts c) (db'.get id) ((P.set id v).lookup id))
    (hframe : ∀ id', id' ≠ id → db'.get id' = db.get id') : Refines c db' (P.set id v) :=
  refines_of_get hnd fun id' => by
    by_cases hid : id' = id
    · exact hid ▸ hself
    · rw [hframe id' hid, PlainStore.lookup_set_ne _ _ hid]
      exact h.get id'

/-- Writing back, with the token read, a record that decrypts to the new key of the
id relates the stores again. -/
theorem refines_update (h : Refines c db P) {id : String} {r w : DBKey} {k : Key} (now : Int)
    (hr : db.get id = .ok r) (hid : w.id = r.id) (hv : w.dbVersion = r.dbVersion)
    (hw : Decrypts c w k) :
    Corresponds (Refines c) (db.update w now) (pure (P.set id (some k))) := by
  have hrid := (TempDB.get_eq_ok_mem hr).2
  obtain ⟨db', hup, hids, hget'⟩ := TempDB.update_of_get hr (hid.trans hrid) hv now
  rw [hup]
  refine h.set (hids ▸ h.nodup) ?_ fun id' hid' => TempDB.get_update_of_ne hup (hid.trans hrid ▸ Ne.symm hid')
  rw [hget', PlainStore.lookup_set_self]
  exact (c.decrypt_dbVersion w now).trans hw

theorem deleteKey_corresponds (h : Refines c db P) (id : String) :
    Corresponds (Refines c) (db.remove id) (P.deleteKey id) := by
  rcases (h.get id).cases with ⟨e, hg, hl⟩ | ⟨r, k, hg, hl, -⟩
  · rw [TempDB.remove_of_get_error hg, PlainStore.deleteKey, hl]
    rfl
  · obtain ⟨db', hrm⟩ := TempDB.remove_of_get_ok hg
    rw [hrm, PlainStore.deleteKey, hl]
    refine h.set (h.nodup.sublist ((TempDB.sublist_remove hrm).map _)) ?_
      fun id' hid' => TempDB.get_remove_of_ne hrm (Ne.symm hid')
    rw [TempDB.get_remove_self h.nodup hrm, PlainStore.lookup_erase_self]
    rfl

end Refines

/-! ### Each operation -/

section Operations
variable [Sha256] {c : AESGCMCryptor} {db : TempDB} {P : PlainStore}

theorem exec_addNewKey (k : Key) (nonces : Nat → Nonce c.gcm) (now : Int) :
    exec c db (.addNewKey k nonces) now =
      k.validate >>= fun _ => db.add [c.encrypt { k with versionList := k.versionList.sort } nonces] fun _ => now := by
  simp only [exec, KeyManager.addNewKey, map_bind, map_pure]
  simp only [bind_pure]

theorem addNewKey_corresponds (h : Refines c db P) (k : Key) (nonces : Nat → Nonce c.gcm) (now : Int) :
    Corresponds (Refines c) (exec c db (.addNewKey k nonces) now) (P.apply (.addNewKey k nonces)) := by
  rw [exec_addNewKey, PlainStore.apply, PlainStore.addNewKey, Key.validate_sort]
  cases k.validate with
  | error e => rfl
  | ok u =>
    simp only [ok_bind]
    rcases (h.get k.id).cases with ⟨e, hg, hl⟩ | ⟨r, k0, hg, hl, -⟩
    · -- a fresh id: both insert
      have hfresh := (TempDB.get_eq_error.mp hg).2
      rw [@TempDB.add_singleton_of_fresh _ (c.encrypt { k with versionList := k.versionList.sort } nonces)
        _ hfresh]
      simp only [(PlainStore.lookup_eq_error.mp hl).2, Option.isSome_none, Bool.false_eq_true, if_false]
      refine h.set ?_ ?_ fun id' hid' => TempDB.get_snoc_of_ne (Ne.symm hid')
      · rw [List.map_append, List.nodup_append]
        exact ⟨h.nodup, List.nodup_singleton _, by simpa [List.disjoint_singleton] using hfresh⟩
      · rw [TempDB.get_snoc_of_eq hfresh rfl, PlainStore.lookup_set_self]
        exact (c.decrypt_dbVersion _ now).trans (c.decrypt_encrypt _ nonces)
    · -- a stored id: both refuse
      rw [TempDB.add_of_get_ok
        (List.mem_singleton_self (c.encrypt { k with versionList := k.versionList.sort } nonces)) hg]
      simp only [PlainStore.lookup_eq_ok.mp hl, Option.isSome_some, if_true]
      rfl

/-- A write-back for the record `r` read: its id and token, decrypting to `k'`. -/
def WritesBack (c : AESGCMCryptor) (r w : DBKey) (k' : Key) : Prop :=
  w.id = r.id ∧ w.dbVersion = r.dbVersion ∧ Decrypts c w k'

theorem updateAccess_corresponds {r : DBKey} {k : Key} (hr : Decrypts c r k) (a : Access) :
    Corresponds (WritesBack c r) (Change.apply (.updateAccess a : Change c) r)
      (PlainStore.changeKey (.updateAccess a : Change c) k) := by
  obtain ⟨-, hacl, hhash, -⟩ := c.decrypt_eq_ok hr
  simp only [Change.apply, updateAccessRecord, PlainStore.changeKey, DBKey.copy_eq]
  rw [show k.acl = r.acl from hacl]
  cases (r.acl.add a).validate with
  | error e => rfl
  | ok u =>
    refine ⟨rfl, rfl, ?_⟩
    rw [Decrypts, c.decrypt_of_versionList_eq
      (show ({ r with acl := r.acl.add a } : DBKey).id = r.id from rfl) rfl hr, ← hhash]

theorem addVersion_corresponds {r : DBKey} {k : Key} (hr : Decrypts c r k) (v : KeyVersion)
    (nonce : Nonce c.gcm) :
    Corresponds (WritesBack c r) (Change.apply (.addVersion v nonce) r)
      (PlainStore.changeKey (.addVersion v nonce) k) := by
  obtain ⟨hid, hacl, -, -⟩ := c.decrypt_eq_ok hr
  unfold Decrypts at hr
  simp only [Change.apply, addVersionRecord, PlainStore.changeKey, hr, mapError_ok, ok_bind, DBKey.copy_eq]
  rw [Key.validate_mk_sort _ _ _ _ _ k.path]
  cases ({ k with versionList := k.versionList ++ [v], versionHash := (k.versionList ++ [v]).hash } :
    Key).validate with
  | error e => rfl
  | ok u =>
    refine ⟨rfl, rfl, ?_⟩
    rw [Decrypts, c.decrypt_append _ hr, KeyVersionList.hash_sort, ← hid, ← hacl]
    exact c.decryptVersion_encryptVersion _ _ hid.symm v nonce

theorem updateVersion_corresponds {r : DBKey} {k : Key} (hr : Decrypts c r k) (vid : UInt64)
    (s : VersionStatus) :
    Corresponds (WritesBack c r) (Change.apply (.updateVersion vid s : Change c) r)
      (PlainStore.changeKey (.updateVersion vid s : Change c) k) := by
  obtain ⟨hid, hacl, -, -⟩ := c.decrypt_eq_ok hr
  unfold Decrypts at hr
  simp only [Change.apply, updateVersionRecord, PlainStore.changeKey, hr, mapError_ok, ok_bind, DBKey.copy_eq]
  cases hu : k.versionList.update vid s with
  | error e => rfl
  | ok kvl =>
    simp only [ok_bind]
    rw [Key.validate_mk_sort _ _ _ _ _ k.path]
    cases hv : ({ k with versionList := kvl, versionHash := kvl.hash } : Key).validate with
    | error e => rfl
    | ok u =>
      refine ⟨rfl, rfl, ?_⟩
      have hnd := ((Key.validate_eq_ok_iff _).mp hv).versionList.nodup
      obtain ⟨hids, hcopy⟩ := copyStatuses_update hr hu hnd
      have hrot := KeyVersionList.eq_rotate_of_update (by rwa [← KeyVersionList.map_id_update hu]) hu
      rw [Decrypts, hcopy, c.decrypt_zipWith_status _ _ hr, ← hid, ← hacl]
      simp only [hrot, KeyVersionList.zipWith_status_rotate]

/-- Each change, applied to a record, writes back a record that decrypts to the change
applied to the plaintext key, or fails with its error. -/
theorem apply_corresponds {r : DBKey} {k : Key} (hr : Decrypts c r k) (ch : Change c) :
    Corresponds (WritesBack c r) (ch.apply r) (PlainStore.changeKey ch k) := by
  cases ch with
  | updateAccess a => exact updateAccess_corresponds hr a
  | addVersion v nonce => exact addVersion_corresponds hr v nonce
  | updateVersion vid s => exact updateVersion_corresponds hr vid s

theorem change_corresponds (h : Refines c db P) (id : String) (ch : Change c) (now : Int) :
    Corresponds (Refines c) (exec c db (.call (.change id ch)) now) (P.apply (.call (.change id ch))) := by
  rw [exec_change, PlainStore.apply, PlainStore.change]
  rcases (h.get id).cases with ⟨e, hg, hl⟩ | ⟨r, k, hg, hl, hrk⟩
  · rw [hg, hl]
    rfl
  · rw [hg, hl]
    exact (apply_corresponds hrk ch).bind fun w k' ⟨hid, hv, hw⟩ => refines_update h now hg hid hv hw

/-- **One step refines.** From related stores, an operation fails on both sides with the
same error, or succeeds on both and leaves related stores. -/
theorem exec_refines (h : Refines c db P) (op : Op c) (now : Int) :
    Corresponds (Refines c) (exec c db op now) (P.apply op) := by
  cases op with
  | addNewKey k nonces => exact addNewKey_corresponds h k nonces now
  | call cl =>
    cases cl with
    | deleteKey id => rw [exec_deleteKey]; exact deleteKey_corresponds h id
    | change id ch => exact change_corresponds h id ch now

/-- A run keeps the stores related. -/
theorem refines_run (h : Refines c db P) (ops : List (Op c × Int)) :
    Refines c (execRun c db ops) (P.run ops) := by
  induction ops generalizing db P with
  | nil => exact h
  | cons x ops ih =>
    obtain ⟨op, now⟩ := x
    refine ih ?_
    rcases (exec_refines h op now).cases with ⟨e, he, hp⟩ | ⟨db', P', he, hp, h'⟩ <;> rw [he, hp]
    · exact h
    · exact h'

end Operations

/-- **The key manager refines the plaintext store.** After every sequential run of
operations from the empty stores, every stored record decrypts to the plaintext key of
its id and every plaintext id is stored; and the next operation fails on both sides
with the same error, or succeeds on both and leaves the stores so related. -/
theorem keyManager_refines_plainStore [Sha256] (c : AESGCMCryptor) (ops : List (Op c × Int))
    (op : Op c) (now : Int) :
    Refines c (execRun c ⟨[]⟩ ops) (PlainStore.empty.run ops) ∧
      Corresponds (Refines c) (exec c (execRun c ⟨[]⟩ ops) op now) ((PlainStore.empty.run ops).apply op) :=
  have h := refines_run refines_empty ops
  ⟨h, exec_refines h op now⟩

/-- A key of two versions listed Active before Primary, not in the order `sort.Sort`
leaves. -/
def unsortedKey [Sha256] : Key :=
  ⟨"k", [⟨.user, "u", .admin⟩], [⟨1, [], .active, 0⟩, ⟨2, [], .primary, 0⟩],
    KeyVersionList.hash [⟨1, [], .active, 0⟩, ⟨2, [], .primary, 0⟩], ""⟩

/-- With `add_new_key` inserting the key as given, one insertion of `unsortedKey` parts
the stores: `AddNewKey` stores it with its versions sorted. -/
theorem addNewKey_breaks_refinement :
    letI : Sha256 := Sha256.zero
    ∃ db' P', exec .plain ⟨[]⟩ (.addNewKey unsortedKey fun _ => ⟨[], rfl⟩) 0 = .ok db' ∧
      PlainStore.empty.addNewKey unsortedKey = .ok P' ∧
      ¬ ∀ r ∈ db'.keys, ∃ k, P' r.id = some k ∧ Decrypts .plain r k := by
  letI : Sha256 := Sha256.zero
  refine ⟨⟨[{ AESGCMCryptor.plain.encrypt { unsortedKey with versionList := unsortedKey.versionList.sort }
      (fun _ => ⟨[], rfl⟩) with dbVersion := 0 }]⟩, PlainStore.empty.set "k" (some unsortedKey), rfl, rfl,
    fun h => ?_⟩
  obtain ⟨k, hk, hdec⟩ := h _ (List.mem_singleton_self _)
  obtain rfl : k = unsortedKey := Option.some.inj hk.symm
  rw [Decrypts, AESGCMCryptor.decrypt_dbVersion, AESGCMCryptor.decrypt_encrypt] at hdec
  have := congrArg Key.versionList (Except.ok.inj hdec)
  simp [unsortedKey, KeyVersionList.sort, KeyVersion.sortedBefore, KeyVersion.less,
    VersionStatus.toNat] at this

end Knox

import Knox.Server.KeyManager
import Knox.Rotation
import Knox.VersionHash

/-! What a stored record stands for, and what each write computes from the record
it read.

A record's `skeleton` is the key it stands for with every version cut down to its
(ID, Status), which is all that `Key.Validate` reads of a version; a record is
`Valid` when its skeleton passes `Validate`. Decryption keeps the skeleton
(`skeleton_of_decrypt`), so a record is valid exactly when every key it decrypts
to is. One lemma per record function says what it returns (`updateAccessRecord_eq_ok`,
`addVersionRecord_eq_ok`, `updateVersionRecord_eq_ok`); from these, every change
that succeeds on a valid record returns a valid record with the same id and token
(`Change.valid_apply`). `AddVersion` and `UpdateVersion` validate the whole key
they write back, `UpdateAccess` only its ACL, so only the latter needs the record
it read to be valid.

`UpdateVersion` writes back by copying statuses by version id onto the stored
versions (`copyStatuses`); on distinct ids this is the rotated list's statuses,
position by position (`copyStatuses_eq_zipWith`). -/
namespace Knox

/-- A key cut down to what `Validate` reads: each version's (ID, Status), no path. -/
def Key.skeleton (k : Key) : Key :=
  ⟨k.id, k.acl, k.versionList.map KeyVersion.idStatus, k.versionHash, ""⟩

/-- The key a stored record stands for, cut down the same way. -/
def DBKey.skeleton (r : DBKey) : Key := ⟨r.id, r.acl, r.statuses, r.versionHash, ""⟩

/-- A record the key manager may store: its skeleton passes `Key.Validate`. -/
def DBKey.Valid [Sha256] (r : DBKey) : Prop := r.skeleton.Valid

namespace KeyVersionList

theorem valid_iff {kvl : KeyVersionList} :
    Valid kvl ↔ (kvl.map (·.id)).Nodup ∧ kvl.countP (·.status = .primary) = 1 :=
  ⟨fun h => ⟨h.1, h.2⟩, fun h => ⟨h.1, h.2⟩⟩

theorem valid_map_idStatus {kvl : KeyVersionList} : Valid (kvl.map KeyVersion.idStatus) ↔ Valid kvl := by
  rw [valid_iff, valid_iff, List.map_map, List.countP_map]
  rfl

theorem valid_sort {kvl : KeyVersionList} : Valid kvl.sort ↔ Valid kvl := by
  have hp : kvl.sort.Perm kvl := List.perm_insertionSort _ kvl
  rw [valid_iff, valid_iff, (hp.map _).nodup_iff, hp.countP_eq]

theorem validate_sort (kvl : KeyVersionList) : kvl.sort.validate = kvl.validate := by
  have hp := List.perm_insertionSort KeyVersion.sortedBefore kvl
  simp only [validate, sort, (hp.map _).nodup_iff, hp.countP_eq]

end KeyVersionList

namespace Key

variable [Sha256]

theorem valid_iff {k : Key} : k.Valid ↔ keyIDMatches k.id = true ∧ k.acl.Valid ∧
    k.versionList.Valid ∧ k.versionHash = k.versionList.hash :=
  ⟨fun h => ⟨h.1, h.2, h.3, h.4⟩, fun h => ⟨h.1, h.2.1, h.2.2.1, h.2.2.2⟩⟩

theorem valid_skeleton (k : Key) : k.skeleton.Valid ↔ k.Valid := by
  rw [valid_iff, valid_iff]
  simp only [skeleton, KeyVersionList.valid_map_idStatus, KeyVersionList.hash_map_idStatus]

/-- Sorting the versions does not change whether a key passes `Validate`. -/
theorem valid_sort (k : Key) : { k with versionList := k.versionList.sort }.Valid ↔ k.Valid := by
  rw [valid_iff, valid_iff]
  simp only [KeyVersionList.valid_sort, KeyVersionList.hash_sort]

/-- Sorting the versions does not change what `Validate` returns. -/
theorem validate_sort (k : Key) : { k with versionList := k.versionList.sort }.validate = k.validate := by
  simp only [validate, KeyVersionList.validate_sort, KeyVersionList.hash_sort]

/-- Nor does the path, which `Validate` does not read. -/
theorem validate_mk_sort (id : String) (acl : ACL) (kvl : KeyVersionList) (h p p' : String) :
    (Key.mk id acl kvl.sort h p).validate = (Key.mk id acl kvl h p').validate := by
  simp only [validate, KeyVersionList.validate_sort, KeyVersionList.hash_sort]

end Key

namespace AESGCMCryptor

variable (c : AESGCMCryptor)

theorem map_idStatus_encryptVersions (k : Key) (nonces : Nat → Nonce c.gcm) :
    ∀ (i : Nat) (vs : KeyVersionList),
      (c.encryptVersions k nonces i vs).map EncKeyVersion.idStatus = vs.map KeyVersion.idStatus
  | _, [] => rfl
  | i, v :: rest => by
    simp only [encryptVersions, List.map_cons, map_idStatus_encryptVersions k nonces (i + 1) rest]
    rfl

/-- Encryption keeps the skeleton. -/
theorem skeleton_encrypt (k : Key) (nonces : Nat → Nonce c.gcm) :
    (c.encrypt k nonces).skeleton = k.skeleton := by
  simp only [DBKey.skeleton, Key.skeleton, DBKey.statuses, encrypt, map_idStatus_encryptVersions]

/-- Decryption keeps the skeleton. -/
theorem skeleton_of_decrypt {r : DBKey} {k : Key} (h : c.decrypt r = .ok k) :
    k.skeleton = r.skeleton := by
  obtain ⟨h1, h2, h3, h4⟩ := c.decrypt_eq_ok h
  simp only [Key.skeleton, DBKey.skeleton, h1, h2, h3, h4]

end AESGCMCryptor

theorem DBKey.valid_iff_of_decrypt [Sha256] {c : AESGCMCryptor} {r : DBKey} {k : Key}
    (h : c.decrypt r = .ok k) : r.Valid ↔ k.Valid := by
  rw [DBKey.Valid, ← c.skeleton_of_decrypt h, Key.valid_skeleton]

/-! ### Copying statuses back -/

/-- One stored version's pass of the copy-back loop. -/
theorem copyStatuses_cons (kvl : KeyVersionList) (v : EncKeyVersion) (encs : List EncKeyVersion) :
    copyStatuses kvl (v :: encs) =
      kvl.foldl (fun v nv => if v.id = nv.id then { v with status := nv.status } else v) v ::
        copyStatuses kvl encs := rfl

/-- The loop over `kvl` gives a stored version the status of the one member of
`kvl` with its id, and leaves it alone when no member has it. -/
theorem foldl_copyStatus {kvl : KeyVersionList} (hnd : (kvl.map (·.id)).Nodup) (v : EncKeyVersion) :
    kvl.foldl (fun v nv => if v.id = nv.id then { v with status := nv.status } else v) v =
      match kvl.find? (·.id = v.id) with
      | some nv => { v with status := nv.status }
      | none => v := by
  induction kvl generalizing v with
  | nil => rfl
  | cons w rest ih =>
    have hne := KeyVersionList.id_ne_of_nodup_cons hnd
    by_cases hw : v.id = w.id
    · have hnone : rest.find? (·.id = v.id) = none :=
        List.find?_eq_none.mpr fun u hu => by simpa [hw] using hne u hu
      simp only [List.foldl_cons, hw, if_true, List.find?_cons, decide_True]
      rw [ih (List.nodup_cons.mp hnd).2]
      simp only [← hw, hnone]
    · have hw' : ¬w.id = v.id := Ne.symm hw
      simp only [List.foldl_cons, hw, if_false, List.find?_cons, hw', decide_False]
      exact ih (List.nodup_cons.mp hnd).2 v

/-- On distinct ids, copying statuses from any list that holds `kvl` gives each
stored version the status of the version of `kvl` at its position. -/
theorem copyStatuses_eq_zipWith {L : KeyVersionList} (hnd : (L.map (·.id)).Nodup) :
    ∀ {encs : List EncKeyVersion} {kvl : KeyVersionList}, kvl.map (·.id) = encs.map (·.id) →
      (∀ w ∈ kvl, w ∈ L) →
      copyStatuses L encs = List.zipWith (fun v nv => { v with status := nv.status }) encs kvl
  | [], [], _, _ => rfl
  | [], _ :: _, h, _ => by cases h
  | _ :: _, [], h, _ => by cases h
  | v :: encs, w :: kvl, h, hsub => by
    simp only [List.map_cons, List.cons.injEq] at h
    have hw : L.find? (·.id = v.id) = some w :=
      (KeyVersionList.find?_id_eq_some hnd).mpr ⟨hsub w (List.mem_cons_self _ _), h.1⟩
    rw [copyStatuses_cons, foldl_copyStatus hnd v, hw, List.zipWith_cons_cons,
      copyStatuses_eq_zipWith hnd h.2 fun u hu => hsub u (List.mem_cons_of_mem _ hu)]

theorem map_idStatus_zipWith :
    ∀ {encs : List EncKeyVersion} {kvl : KeyVersionList}, kvl.map (·.id) = encs.map (·.id) →
      (List.zipWith (fun v nv => { v with status := nv.status }) encs kvl).map
        EncKeyVersion.idStatus = kvl.map KeyVersion.idStatus
  | [], [], _ => rfl
  | [], _ :: _, h => by cases h
  | _ :: _, [], h => by cases h
  | v :: encs, w :: kvl, h => by
    simp only [List.map_cons, List.cons.injEq] at h
    simp only [List.zipWith_cons_cons, List.map_cons, map_idStatus_zipWith h.2]
    simp only [EncKeyVersion.idStatus, KeyVersion.idStatus, h.1]

/-! ### What each change computes -/

section Records
variable [Sha256] (c : AESGCMCryptor) {r r' : DBKey}

omit [Sha256] in
theorem updateAccessRecord_eq_ok {a : Access} (h : updateAccessRecord r a = .ok r') :
    (r.acl.add a).Valid ∧ r' = { r with acl := r.acl.add a } := by
  simp only [updateAccessRecord, DBKey.copy_eq, bind_eq_ok, pure_eq_ok, Except.ok.injEq] at h
  obtain ⟨u, hv, rfl⟩ := h
  exact ⟨(ACL.validate_eq_ok_iff _).mp hv, rfl⟩

theorem addVersionRecord_eq_ok {v : KeyVersion} {nonce : Nonce c.gcm}
    (h : addVersionRecord c r v nonce = .ok r') :
    ∃ k, c.decrypt r = .ok k ∧
      ({ k with versionList := k.versionList ++ [v], versionHash := (k.versionList ++ [v]).hash } :
        Key).Valid ∧
      r' = { r with versionList := r.versionList ++ [c.encryptVersion k v nonce],
                    versionHash := (k.versionList ++ [v]).hash } := by
  simp only [addVersionRecord, DBKey.copy_eq, bind_eq_ok, pure_eq_ok, Except.ok.injEq] at h
  obtain ⟨k, hk, u, hv, rfl⟩ := h
  cases hd : c.decrypt r with
  | error e => rw [hd] at hk; cases hk
  | ok k' =>
    rw [hd] at hk
    cases hk
    refine ⟨k, rfl, ?_, by simp only [KeyVersionList.hash_sort]; rfl⟩
    exact (Key.valid_sort ⟨k.id, k.acl, k.versionList ++ [v], (k.versionList ++ [v]).hash, k.path⟩).mp
      ((Key.validate_eq_ok_iff _).mp hv)

theorem updateVersionRecord_eq_ok {vid : UInt64} {s : VersionStatus}
    (h : updateVersionRecord c r vid s = .ok r') :
    ∃ k kvl, c.decrypt r = .ok k ∧ k.versionList.update vid s = .ok kvl ∧
      ({ k with versionList := kvl, versionHash := kvl.hash } : Key).Valid ∧
      r' = { r with versionList := copyStatuses kvl.sort r.versionList, versionHash := kvl.hash } := by
  simp only [updateVersionRecord, DBKey.copy_eq, bind_eq_ok, pure_eq_ok, Except.ok.injEq] at h
  obtain ⟨k, hk, kvl, hu, u, hv, rfl⟩ := h
  cases hd : c.decrypt r with
  | error e => rw [hd] at hk; cases hk
  | ok k' =>
    rw [hd] at hk
    cases hk
    exact ⟨k, kvl, rfl, hu, (Key.valid_sort ⟨k.id, k.acl, kvl, kvl.hash, k.path⟩).mp
      ((Key.validate_eq_ok_iff _).mp hv), rfl⟩

end Records

/-! ### Changes keep records valid -/

section Valid
variable [Sha256] {c : AESGCMCryptor} {r r' : DBKey}

theorem valid_updateAccessRecord {a : Access} (hr : r.Valid) (h : updateAccessRecord r a = .ok r') :
    r'.Valid := by
  obtain ⟨hacl, rfl⟩ := updateAccessRecord_eq_ok h
  exact ⟨hr.id, hacl, hr.versionList, hr.hash⟩

theorem valid_addVersionRecord {v : KeyVersion} {nonce : Nonce c.gcm}
    (h : addVersionRecord c r v nonce = .ok r') : r'.Valid := by
  obtain ⟨k, hk, hv, rfl⟩ := addVersionRecord_eq_ok c h
  obtain ⟨hid, hacl, -, hst⟩ := c.decrypt_eq_ok hk
  rw [DBKey.statuses] at hst
  have hsk : DBKey.skeleton ⟨r.id, r.acl, r.versionList ++ [c.encryptVersion k v nonce],
      (k.versionList ++ [v]).hash, r.dbVersion⟩ =
      Key.skeleton ⟨k.id, k.acl, k.versionList ++ [v], (k.versionList ++ [v]).hash, k.path⟩ := by
    simp only [DBKey.skeleton, Key.skeleton, DBKey.statuses, List.map_append, ← hst, hid, hacl]
    rfl
  rw [DBKey.Valid, hsk, Key.valid_skeleton]
  exact hv

omit [Sha256] in
/-- On a list `Update` returned with distinct ids, the copy-back gives each stored
version the status of the updated version at its position. -/
theorem copyStatuses_update {k : Key} {vid : UInt64} {s : VersionStatus} {kvl : KeyVersionList}
    (hk : c.decrypt r = .ok k) (hu : k.versionList.update vid s = .ok kvl) (hnd : (kvl.map (·.id)).Nodup) :
    kvl.map (·.id) = r.versionList.map (·.id) ∧
      copyStatuses kvl.sort r.versionList =
        List.zipWith (fun v nv => { v with status := nv.status }) r.versionList kvl := by
  have hids : kvl.map (·.id) = r.versionList.map (·.id) := by
    rw [KeyVersionList.map_id_update hu]
    simpa [Function.comp_def, KeyVersion.idStatus, EncKeyVersion.idStatus, DBKey.statuses] using
      congrArg (List.map (·.id)) (c.decrypt_eq_ok hk).2.2.2
  have hp := List.perm_insertionSort KeyVersion.sortedBefore kvl
  exact ⟨hids, copyStatuses_eq_zipWith ((hp.map _).nodup_iff.mpr hnd) hids fun w hw => hp.mem_iff.mpr hw⟩

theorem valid_updateVersionRecord {vid : UInt64} {s : VersionStatus}
    (h : updateVersionRecord c r vid s = .ok r') : r'.Valid := by
  obtain ⟨k, kvl, hk, hu, hv, rfl⟩ := updateVersionRecord_eq_ok c h
  obtain ⟨hid, hacl, -, -⟩ := c.decrypt_eq_ok hk
  obtain ⟨hids, hcopy⟩ := copyStatuses_update hk hu hv.versionList.nodup
  have hsk : DBKey.skeleton ⟨r.id, r.acl, copyStatuses kvl.sort r.versionList, kvl.hash, r.dbVersion⟩ =
      Key.skeleton ⟨k.id, k.acl, kvl, kvl.hash, k.path⟩ := by
    simp only [DBKey.skeleton, Key.skeleton, DBKey.statuses, hid, hacl, hcopy, map_idStatus_zipWith hids]
  rw [DBKey.Valid, hsk, Key.valid_skeleton]
  exact hv

end Valid

/-- A change keeps the id and the token of the record it read. -/
theorem Change.apply_id_dbVersion [Sha256] {c : AESGCMCryptor} {ch : Change c} {r r' : DBKey}
    (h : ch.apply r = .ok r') : r'.id = r.id ∧ r'.dbVersion = r.dbVersion := by
  cases ch with
  | updateAccess a => obtain ⟨-, rfl⟩ := updateAccessRecord_eq_ok h; exact ⟨rfl, rfl⟩
  | addVersion v nonce => obtain ⟨-, -, -, rfl⟩ := addVersionRecord_eq_ok c h; exact ⟨rfl, rfl⟩
  | updateVersion vid s => obtain ⟨-, -, -, -, -, rfl⟩ := updateVersionRecord_eq_ok c h; exact ⟨rfl, rfl⟩

/-- Every change that succeeds on a valid record returns a valid record. -/
theorem Change.valid_apply [Sha256] {c : AESGCMCryptor} {ch : Change c} {r r' : DBKey}
    (hr : r.Valid) (h : ch.apply r = .ok r') : r'.Valid := by
  cases ch with
  | updateAccess a => exact valid_updateAccessRecord hr h
  | addVersion v nonce => exact valid_addVersionRecord h
  | updateVersion vid s => exact valid_updateVersionRecord h

/-! ### The store invariant -/

/-- A store the key manager may leave: distinct ids, and every record valid. -/
structure TempDB.Valid [Sha256] (db : TempDB) : Prop where
  nodup : (db.keys.map (·.id)).Nodup
  valid : ∀ r ∈ db.keys, r.Valid

namespace TempDB

variable [Sha256] {db db' : TempDB}

/-- `Update` keeps the store valid when the record it writes is. -/
theorem valid_update {key : DBKey} {now : Int} (hdb : db.Valid) (hk : key.Valid)
    (h : db.update key now = .ok db') : db'.Valid := by
  obtain ⟨pre, old, post, h1, h2, hold, -, -⟩ := update_eq_ok h
  have hids : db'.keys.map (·.id) = db.keys.map (·.id) := by simp [h1, h2, hold]
  refine ⟨hids ▸ hdb.nodup, fun r hr => ?_⟩
  rcases mem_update h hr with rfl | hr
  · exact hk
  · exact hdb.valid r hr

/-- `Remove` keeps the store valid. -/
theorem valid_remove {id : String} (hdb : db.Valid) (h : db.remove id = .ok db') : db'.Valid := by
  have hsub := sublist_remove h
  exact ⟨hdb.nodup.sublist (hsub.map _), fun r hr => hdb.valid r (hsub.subset hr)⟩

/-- `Add` of one valid record keeps the store valid. -/
theorem valid_add_singleton {key : DBKey} {now : Nat → Int} (hdb : db.Valid) (hk : key.Valid)
    (h : db.add [key] now = .ok db') : db'.Valid := by
  obtain ⟨h1, hnew⟩ := add_eq_ok h
  simp only [stamp, DBKey.copy_eq] at h1
  refine ⟨?_, fun r hr => ?_⟩
  · rw [h1, List.map_append, List.nodup_append]
    refine ⟨hdb.nodup, List.nodup_singleton _, ?_⟩
    simpa [List.disjoint_singleton] using fun r hr => hnew key (List.mem_singleton_self _) r hr
  · rcases mem_add_singleton h hr with rfl | hr
    · exact hk
    · exact hdb.valid r hr

end TempDB

namespace KeyManager

variable [Sha256] {m m' : KeyManager}

/-- What a successful `AddNewKey` did: the key passed `Validate`, and the store took
its encryption, versions sorted, as a batch of one. -/
theorem addNewKey_eq_ok {k : Key} {nonces : Nat → Nonce m.cryptor.gcm} {now : Int}
    (h : m.addNewKey k nonces now = .ok m') :
    k.Valid ∧ m.db.add [m.cryptor.encrypt { k with versionList := k.versionList.sort } nonces]
      (fun _ => now) = .ok m'.db ∧ m'.cryptor = m.cryptor := by
  simp only [addNewKey, bind_eq_ok, pure_eq_ok, Except.ok.injEq] at h
  obtain ⟨u, hv, db, hdb, rfl⟩ := h
  exact ⟨(Key.validate_eq_ok_iff k).mp hv, hdb, rfl⟩

/-- `AddNewKey` of a valid key whose id is not stored appends its encryption,
versions sorted, stamped `now`. -/
theorem addNewKey_of_valid {k : Key} (hk : k.Valid) (hfresh : ∀ r ∈ m.db.keys, r.id ≠ k.id)
    (nonces : Nat → Nonce m.cryptor.gcm) (now : Int) :
    m.addNewKey k nonces now =
      .ok { m with db := ⟨m.db.keys ++ [{ m.cryptor.encrypt { k with versionList := k.versionList.sort }
                                            nonces with dbVersion := now }]⟩ } := by
  have hv : k.validate = .ok () := (Key.validate_eq_ok_iff k).mpr hk
  simp only [addNewKey, hv, ok_bind,
    @TempDB.add_singleton_of_fresh _ (m.cryptor.encrypt { k with versionList := k.versionList.sort } nonces) _ hfresh]
  rfl

/-- The record `AddNewKey` stores is valid. -/
theorem valid_encrypt_sort {k : Key} (hk : k.Valid) (nonces : Nat → Nonce m.cryptor.gcm) :
    (m.cryptor.encrypt { k with versionList := k.versionList.sort } nonces).Valid := by
  rw [DBKey.Valid, AESGCMCryptor.skeleton_encrypt, Key.valid_skeleton, Key.valid_sort]
  exact hk

theorem valid_addNewKey {k : Key} {nonces : Nat → Nonce m.cryptor.gcm} {now : Int}
    (hdb : m.db.Valid) (h : m.addNewKey k nonces now = .ok m') : m'.db.Valid := by
  obtain ⟨hk, hadd, -⟩ := addNewKey_eq_ok h
  exact TempDB.valid_add_singleton hdb (valid_encrypt_sort hk nonces) hadd

end KeyManager

end Knox

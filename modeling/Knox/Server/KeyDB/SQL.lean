import Knox.Server.KeyDB.Store

/-! `SQLDB`: the store over an SQL table, against `TempDB`.

`NewSQLDB` (MySQL and SQLite) and `NewPostgreSQLDB` create the table `secrets`, a row per
record with `id VARCHAR(512)` its primary key, and prepare one statement per method; the
two differ only in how a placeholder is written. The engine runs a statement as one atomic
step. What the statements leave to the engine is a parameter (`Engine`): which ids the
column takes (PostgreSQL, and MySQL in strict mode, refuse one over 512 characters), when
two ids are the same, for `WHERE id=?` and for the primary key (the column's collation),
and the order in which a `SELECT` without `ORDER BY` returns the rows. An `INSERT` of an id
the column refuses, or the same as a stored one, fails, so no two rows share an id:
`Secrets` carries that as a field. `select`, `updateWhere`, `insert` and `deleteWhere` are
the statements, each with the number of rows it affected.

The columns `acl` and `versions` hold the JSON of the record's ACL and versions, which
`json.Unmarshal` reads back as they were, so a row is a record here. `json.Marshal` of the
versions cannot fail; of an ACL it fails at an entry whose principal type
`PrincipalType.MarshalJSON` refuses (`marshalACL`), and `Update` and `Add` then return its
error before any statement.

The methods run their statements one after another. `Update` runs its `UPDATE` on the id
and the token, and when no row changed, a `SELECT` of the id tells `ErrDBVersion` from
`ErrKeyIDNotFound`. `Add` runs one `INSERT` per key and returns `ErrKeyExists` for any
error of one; the first key that fails ends it, the keys before it stored (`addLoop_eq`):
unlike `TempDB.Add`, a batch is not refused whole.

* `sqlDB_agrees_with_tempDB`: on an engine that compares ids exactly, on every run of
  writes that `Fit` (an `Add` of at most one key, whose id the column takes, and keys whose
  ACLs marshal), from any table, `SQLDB` holds the records `TempDB` holds, answers every
  `Get` as it does and `GetAll` with the same records in the engine's order, and fails each
  write with its error. -/
namespace Knox

/-! ### What `json.Marshal` writes into a row -/

/-- `PrincipalType.MarshalJSON`. -/
def PrincipalType.marshalJSON (t : PrincipalType) : Except GoError String :=
  if t = .user then .ok "\"User\""
  else if t = .userGroup then .ok "\"UserGroup\""
  else if t = .machine then .ok "\"Machine\""
  else if t = .machinePrefix then .ok "\"MachinePrefix\""
  else if t = .service then .ok "\"Service\""
  else .error (.invalidType "PrincipalType")

namespace PrincipalType

/-- `MarshalJSON` writes exactly the declared types. -/
theorem marshalJSON_eq_ok_iff {t : PrincipalType} : (∃ s, t.marshalJSON = .ok s) ↔ t.declared := by
  unfold marshalJSON declared
  split_ifs <;> simp_all

/-- What `MarshalJSON` writes, `UnmarshalJSON` reads back. -/
theorem unmarshalJSON_marshalJSON {t : PrincipalType} {s : String} (h : t.marshalJSON = .ok s) :
    unmarshalJSON s = t := by
  unfold marshalJSON at h
  split_ifs at h <;> cases h <;> subst_vars <;> rfl

end PrincipalType

/-- The error of `json.Marshal` when `PrincipalType.MarshalJSON` fails: a
`*json.MarshalerError` naming the type, around `invalidTypeError{"PrincipalType"}`. -/
def principalTypeMarshalerError : GoError :=
  .errorf "json: error calling MarshalJSON for type knox.PrincipalType: json: Invalid PrincipalType to convert"

/-- `json.Marshal(key.ACL)`, for whether it fails: the entries in order, each writing its
type with `PrincipalType.MarshalJSON`. -/
def marshalACL : ACL → Except GoError Unit
  | [] => .ok ()
  | a :: acl =>
    match a.type.marshalJSON with
    | .ok _ => marshalACL acl
    | .error _ => .error principalTypeMarshalerError

theorem marshalACL_eq_ok {acl : ACL} : marshalACL acl = .ok () ↔ ∀ a ∈ acl, a.type.declared := by
  induction acl with
  | nil => simp [marshalACL]
  | cons a acl ih =>
    rw [List.forall_mem_cons, ← ih, ← PrincipalType.marshalJSON_eq_ok_iff]
    cases hm : a.type.marshalJSON <;> simp [marshalACL, hm]

/-! ### The engine -/

/-- What the SQL engine decides where the statements leave it open. A MySQL server not in
strict mode truncates an id longer than the column instead of refusing it; that engine is
not one of these. -/
structure Engine where
  /-- Whether the column `id VARCHAR(512)` takes the id of an `INSERT`: PostgreSQL, and
  MySQL in strict mode, refuse one longer than 512 characters; SQLite stores any. -/
  fitsId : String → Bool
  /-- Whether two ids are the same under the collation of `id`, for `WHERE id=?` and for
  the primary key: exactly under the default collations of PostgreSQL and SQLite, up to
  case under MySQL's. -/
  sameId : String → String → Bool
  sameId_refl : ∀ id, sameId id id = true
  /-- The rows of a `SELECT` without `ORDER BY`, in the order the engine returns them. -/
  scan : List DBKey → List DBKey
  scan_perm : ∀ rows, (scan rows).Perm rows

namespace Engine

/-- The engine compares ids exactly. -/
def Exact (e : Engine) : Prop := ∀ a b, e.sameId a b = decide (a = b)

/-- PostgreSQL under its default collation: ids of at most 512 characters, compared
exactly, and the rows in the order they were inserted, one order it may return them in. -/
def postgreSQL : Engine :=
  ⟨fun id => decide (id.length ≤ 512), fun a b => decide (a = b), fun _ => decide_eq_true rfl, fun rows => rows,
    List.Perm.refl⟩

theorem Exact.sameId {e : Engine} (hx : e.Exact) (a b : String) : e.sameId a b = decide (a = b) := hx a b

theorem postgreSQL_exact : postgreSQL.Exact := fun _ _ => rfl

end Engine

/-! ### The table `secrets` -/

/-- The table `secrets`: a row per record, `last_updated` its token, and `id` its primary
key, so that no two rows share an id. -/
structure Secrets where
  rows : List DBKey
  primaryKey : (rows.map (·.id)).Nodup

namespace Secrets

variable (e : Engine)

/-- The table `CREATE TABLE` makes. -/
def empty : Secrets := ⟨[], List.nodup_nil⟩

/-- `SELECT id, acl, version_hash, versions, last_updated FROM secrets WHERE id=?`, read with
`QueryRow`: the first row of the id. -/
def select (t : Secrets) (id : String) : Option DBKey := t.rows.find? fun r => e.sameId r.id id

/-- The rows `WHERE id=? AND last_updated=?` picks for a key. -/
def whereIdVersion (key r : DBKey) : Bool := e.sameId r.id key.id && decide (r.dbVersion = key.dbVersion)

/-- `SET versions=?, version_hash=?, last_updated=?, acl=?` on a picked row. -/
def setRow (key : DBKey) (now : Int) (r : DBKey) : DBKey :=
  if whereIdVersion e key r then
    { r with versionList := key.versionList, versionHash := key.versionHash, dbVersion := now, acl := key.acl }
  else r

theorem id_setRow (key : DBKey) (now : Int) (r : DBKey) : (setRow e key now r).id = r.id := by
  unfold setRow
  split <;> rfl

theorem nodup_map_setRow (t : Secrets) (key : DBKey) (now : Int) :
    ((t.rows.map (setRow e key now)).map (·.id)).Nodup := by
  simpa [Function.comp_def, id_setRow] using t.primaryKey

/-- `UPDATE secrets SET ... WHERE id=? AND last_updated=?`: the table, and the number of
rows affected. -/
def updateWhere (t : Secrets) (key : DBKey) (now : Int) : Secrets × Nat :=
  (⟨t.rows.map (setRow e key now), nodup_map_setRow e t key now⟩, t.rows.countP (whereIdVersion e key))

variable {e} in
theorem nodup_insert {t : Secrets} {key : DBKey} (h : ∀ r ∈ t.rows, e.sameId r.id key.id = false) (now : Int) :
    ((t.rows ++ [{ key with dbVersion := now }]).map fun r : DBKey => r.id).Nodup := by
  simp only [List.map_append, List.map_cons, List.map_nil, List.nodup_append]
  refine ⟨t.primaryKey, List.nodup_singleton _, fun x hx hy => ?_⟩
  obtain ⟨r, hr, rfl⟩ := List.mem_map.mp hx
  have hid : r.id = key.id := List.mem_singleton.mp hy
  simpa [hid, e.sameId_refl] using h r hr

/-- `INSERT INTO secrets (id, acl, versions, version_hash, last_updated) VALUES (...)`:
refused on an id the column does not take, or the same as one the table holds. -/
def insert (t : Secrets) (key : DBKey) (now : Int) : Option Secrets :=
  if h : e.fitsId key.id = true ∧ ∀ r ∈ t.rows, e.sameId r.id key.id = false then
    some ⟨t.rows ++ [{ key with dbVersion := now }], nodup_insert h.2 now⟩
  else none

/-- `DELETE FROM secrets WHERE id=?`: the table, and the number of rows affected. -/
def deleteWhere (t : Secrets) (id : String) : Secrets × Nat :=
  (⟨t.rows.filter (fun r => !e.sameId r.id id), t.primaryKey.sublist ((List.filter_sublist _).map _)⟩,
    t.rows.countP fun r => e.sameId r.id id)

end Secrets

/-! ### The methods -/

/-- `SQLDB` on an engine, by the table it stands for. -/
structure SQLDB (engine : Engine) where
  table : Secrets

namespace SQLDB

variable {e : Engine}

/-- `SQLDB.Get`: `ErrKeyIDNotFound` when `Scan` finds no row. -/
def get (db : SQLDB e) (id : String) : Except GoError DBKey :=
  match db.table.select e id with
  | some k => .ok k
  | none => .error .keyIDNotFound

/-- `SQLDB.GetAll`: the rows, in the engine's order. -/
def getAll (db : SQLDB e) : List DBKey := e.scan db.table.rows

/-- `SQLDB.Update`: when no row changed, `ErrKeyIDNotFound` if a `SELECT` of the id finds
no row, and `ErrDBVersion` if it does. -/
def update (db : SQLDB e) (key : DBKey) (now : Int) : Except GoError (SQLDB e) := do
  marshalACL key.acl
  let r := db.table.updateWhere e key now
  if r.2 = 0 then
    if (db.table.select e key.id).isSome then .error .dbVersion else .error .keyIDNotFound
  else pure ⟨r.1⟩

variable (e) in
/-- The loop of `Add`: one `INSERT` per key, the `i`-th stamped with the clock reading
`now i`. The first key whose ACL does not marshal, or whose `INSERT` is refused, ends it,
the table as the keys before it left it; a refused `INSERT` is `ErrKeyExists`. -/
def addLoop (now : Nat → Int) : Nat → Secrets → List DBKey → Secrets × Except GoError Unit
  | _, t, [] => (t, .ok ())
  | i, t, key :: rest =>
    match marshalACL key.acl with
    | .error e => (t, .error e)
    | .ok () =>
      match t.insert e key (now i) with
      | none => (t, .error .keyExists)
      | some t' => addLoop now (i + 1) t' rest

/-- `SQLDB.Add`: the store it leaves, also when it fails, and its error. -/
def add (db : SQLDB e) (keys : List DBKey) (now : Nat → Int) : SQLDB e × Except GoError Unit :=
  (⟨(addLoop e now 0 db.table keys).1⟩, (addLoop e now 0 db.table keys).2)

/-- `SQLDB.Remove`. -/
def remove (db : SQLDB e) (id : String) : Except GoError (SQLDB e) :=
  if (db.table.deleteWhere e id).2 = 0 then .error .keyIDNotFound else .ok ⟨(db.table.deleteWhere e id).1⟩

/-- A write on `SQLDB`: the store it leaves, a failed `Update` or `Remove` changing
nothing, and its error. -/
def write (db : SQLDB e) : DBWrite → SQLDB e × Except GoError Unit
  | .add keys now => db.add keys now
  | .update key now => ((db.update key now).toOption.getD db, (db.update key now).map fun _ => ())
  | .remove id => ((db.remove id).toOption.getD db, (db.remove id).map fun _ => ())

/-- A run of writes on `SQLDB`. -/
def run (db : SQLDB e) : List DBWrite → SQLDB e
  | [] => db
  | w :: ws => (db.write w).1.run ws

end SQLDB

/-- A write `SQLDB` makes as `TempDB` does: an `Add` of at most one key, whose id the
column takes, and keys whose ACLs marshal. -/
def DBWrite.Fits (e : Engine) : DBWrite → Prop
  | .add keys _ => keys.length ≤ 1 ∧ ∀ k ∈ keys, e.fitsId k.id = true ∧ ∀ a ∈ k.acl, a.type.declared
  | .update key _ => ∀ a ∈ key.acl, a.type.declared
  | .remove _ => True

instance (e : Engine) : DecidablePred (DBWrite.Fits e)
  | .add keys _ =>
    inferInstanceAs (Decidable (keys.length ≤ 1 ∧ ∀ k ∈ keys, e.fitsId k.id = true ∧ ∀ a ∈ k.acl, a.type.declared))
  | .update key _ => inferInstanceAs (Decidable (∀ a ∈ key.acl, a.type.declared))
  | .remove _ => isTrue trivial

/-! ### The statements against `TempDB`'s loops, on an exact engine -/

namespace Secrets

variable {e : Engine} {key : DBKey} {now : Int}

theorem setRow_of_id_ne (hx : e.Exact) {r : DBKey} (h : r.id ≠ key.id) : setRow e key now r = r := by
  simp [setRow, whereIdVersion, hx.sameId, h]

/-- On the row of the key's id, `SET` writes the key, stamped, when the tokens match. -/
theorem setRow_of_id_eq (hx : e.Exact) {r : DBKey} (h : r.id = key.id) :
    setRow e key now r = if r.dbVersion = key.dbVersion then { key with dbVersion := now } else r := by
  cases r
  cases key
  simp_all [setRow, whereIdVersion, hx.sameId]

theorem map_setRow_of_forall_ne (hx : e.Exact) {rows : List DBKey} (h : ∀ r ∈ rows, r.id ≠ key.id) :
    rows.map (setRow e key now) = rows :=
  (List.map_congr_left fun r hr => setRow_of_id_ne hx (h r hr)).trans (List.map_id _)

theorem countP_whereIdVersion_of_forall_ne (hx : e.Exact) {rows : List DBKey} (h : ∀ r ∈ rows, r.id ≠ key.id) :
    rows.countP (whereIdVersion e key) = 0 :=
  List.countP_eq_zero.mpr fun r hr => by simp [whereIdVersion, hx.sameId, h r hr]

/-- With distinct ids, the loop of `TempDB.Update` is the `UPDATE` and, when it changes no
row, the `SELECT` that tells the two errors apart. -/
theorem updateKeys_eq_updateWhere (hx : e.Exact) :
    ∀ {rows : List DBKey}, (rows.map (·.id)).Nodup →
      TempDB.updateKeys key now rows =
        if rows.countP (whereIdVersion e key) = 0 then
          if (rows.find? fun r => e.sameId r.id key.id).isSome then .error .dbVersion else .error .keyIDNotFound
        else .ok (rows.map (setRow e key now))
  | [], _ => rfl
  | r :: rest, hnd => by
    rw [List.map_cons, List.nodup_cons] at hnd
    by_cases hr : r.id = key.id
    · have hrest : ∀ x ∈ rest, x.id ≠ key.id := fun x hx h => hnd.1 (hr ▸ h ▸ List.mem_map_of_mem _ hx)
      rw [List.map_cons, map_setRow_of_forall_ne hx hrest, setRow_of_id_eq hx hr]
      by_cases hv : r.dbVersion = key.dbVersion <;>
        simp [TempDB.updateKeys, hr, hv, whereIdVersion, hx.sameId, countP_whereIdVersion_of_forall_ne hx hrest]
    · rw [TempDB.updateKeys, if_neg hr, updateKeys_eq_updateWhere hx hnd.2, List.map_cons, setRow_of_id_ne hx hr]
      simp only [List.countP_cons, List.find?_cons, whereIdVersion, hx.sameId, hr, decide_False, Bool.false_and,
        Bool.false_eq_true, if_false, Nat.add_zero]
      split_ifs <;> rfl

/-- With distinct ids, the loop of `TempDB.Remove` is the `DELETE`. -/
theorem removeKeys_eq_deleteWhere (hx : e.Exact) {id : String} :
    ∀ {rows : List DBKey}, (rows.map (·.id)).Nodup →
      TempDB.removeKeys id rows =
        if rows.countP (fun r => e.sameId r.id id) = 0 then .error .keyIDNotFound
        else .ok (rows.filter fun r => !e.sameId r.id id)
  | [], _ => rfl
  | r :: rest, hnd => by
    rw [List.map_cons, List.nodup_cons] at hnd
    by_cases hr : r.id = id
    · have hrest : ∀ x ∈ rest, x.id ≠ id := fun x hx h => hnd.1 (hr ▸ h ▸ List.mem_map_of_mem _ hx)
      simp only [TempDB.removeKeys, hr, if_true, List.countP_cons, hx.sameId, decide_True, List.filter_cons,
        Bool.not_true, Bool.false_eq_true, if_false]
      rw [if_neg (by omega), List.filter_eq_self.mpr fun x hx' => by simpa [hx] using hrest x hx']
    · rw [TempDB.removeKeys, if_neg hr, removeKeys_eq_deleteWhere hx hnd.2]
      simp only [List.countP_cons, hx.sameId, hr, decide_False, Bool.false_eq_true, if_false, Nat.add_zero,
        List.filter_cons, Bool.not_false, if_true]
      split_ifs <;> rfl

/-- The table refuses an `INSERT` of an id the column does not take, or the same as one
it holds. -/
theorem insert_eq_none {t : Secrets} :
    t.insert e key now = none ↔ e.fitsId key.id = false ∨ ∃ r ∈ t.rows, e.sameId r.id key.id = true := by
  unfold insert
  split <;> cases hf : e.fitsId key.id <;> simp_all

theorem rows_of_insert_eq_some {t t' : Secrets} (h : t.insert e key now = some t') :
    t'.rows = t.rows ++ [{ key with dbVersion := now }] := by
  unfold insert at h
  split at h
  · cases h
    rfl
  · cases h

/-- On an exact engine, the table refuses an `INSERT` whose id the column takes exactly
when it holds the id. -/
theorem insert_eq_none_of_exact (hx : e.Exact) {t : Secrets} (hfit : e.fitsId key.id = true) :
    t.insert e key now = none ↔ (t.rows.any fun r => r.id = key.id) = true := by
  simp [insert_eq_none, hfit, hx.sameId]

end Secrets

namespace SQLDB

variable {e : Engine}

/-- The `TempDB` of the same records, in the table's order. -/
def toTempDB (db : SQLDB e) : TempDB := ⟨db.table.rows⟩

theorem get_eq_toTempDB (hx : e.Exact) (db : SQLDB e) (id : String) : db.get id = db.toTempDB.get id := by
  simp only [get, Secrets.select, hx.sameId]
  rfl

theorem getAll_perm_toTempDB (db : SQLDB e) : db.getAll.Perm db.toTempDB.getAll := e.scan_perm _

/-- An `Update` of a key whose ACL marshals fails as `TempDB`'s, or leaves its records. -/
theorem update_simulates (hx : e.Exact) (db : SQLDB e) {key : DBKey} (hacl : ∀ a ∈ key.acl, a.type.declared)
    (now : Int) : (db.update key now).map toTempDB = db.toTempDB.update key now := by
  simp only [update, marshalACL_eq_ok.mpr hacl, ok_bind, TempDB.update, toTempDB,
    Secrets.updateWhere, Secrets.select, Secrets.updateKeys_eq_updateWhere hx db.table.primaryKey]
  split_ifs <;> rfl

theorem remove_simulates (hx : e.Exact) (db : SQLDB e) (id : String) :
    (db.remove id).map toTempDB = db.toTempDB.remove id := by
  simp only [remove, TempDB.remove, toTempDB, Secrets.deleteWhere,
    Secrets.removeKeys_eq_deleteWhere hx db.table.primaryKey]
  split_ifs <;> rfl

/-- An `Add` of at most one key, whose id the column takes and whose ACL marshals, fails as
`TempDB`'s, or leaves its records. -/
theorem add_simulates (hx : e.Exact) (db : SQLDB e) {keys : List DBKey} (hlen : keys.length ≤ 1)
    (hk : ∀ k ∈ keys, e.fitsId k.id = true ∧ ∀ a ∈ k.acl, a.type.declared) (now : Nat → Int) :
    (db.add keys now).1.toTempDB = (db.toTempDB.add keys now).toOption.getD db.toTempDB ∧
      (db.add keys now).2 = (db.toTempDB.add keys now).map fun _ => () := by
  match keys, hlen with
  | [], _ =>
    simp only [add, addLoop, toTempDB, TempDB.add, TempDB.stamp, List.any_nil, List.append_nil]
    exact ⟨rfl, rfl⟩
  | [k], _ =>
    obtain ⟨hfit, hacl⟩ := hk k (List.mem_singleton_self k)
    have hm : marshalACL k.acl = .ok () := marshalACL_eq_ok.mpr hacl
    cases hi : db.table.insert e k (now 0) with
    | none =>
      have hany := (Secrets.insert_eq_none_of_exact hx hfit).mp hi
      simp only [add, addLoop, hm, hi, toTempDB, TempDB.add, hany, List.any_cons, List.any_nil]
      exact ⟨rfl, rfl⟩
    | some t' =>
      have hany : (db.table.rows.any fun r => r.id = k.id) = false :=
        Bool.eq_false_iff.mpr fun h => by rw [(Secrets.insert_eq_none_of_exact hx hfit).mpr h] at hi; cases hi
      simp only [add, addLoop, hm, hi, toTempDB, TempDB.add, hany, TempDB.stamp, List.any_cons,
        List.any_nil, DBKey.copy_eq]
      refine ⟨?_, rfl⟩
      rw [Secrets.rows_of_insert_eq_some hi]
      rfl

/-- A result and the store it leaves, read through `toTempDB`. -/
theorem simulates_of_map {x : Except GoError (SQLDB e)} {y : Except GoError TempDB} (h : x.map toTempDB = y)
    (db : SQLDB e) :
    (x.toOption.getD db).toTempDB = y.toOption.getD db.toTempDB ∧ x.map (fun _ => ()) = y.map fun _ => () := by
  subst h
  cases x <;> exact ⟨rfl, rfl⟩

/-- **One write that fits.** -/
theorem write_simulates (hx : e.Exact) (db : SQLDB e) {w : DBWrite} (hw : w.Fits e) :
    (db.write w).1.toTempDB = (db.toTempDB.write w).toOption.getD db.toTempDB ∧
      (db.write w).2 = (db.toTempDB.write w).map fun _ => () := by
  cases w with
  | add keys now => exact add_simulates hx db hw.1 hw.2 now
  | update key now => exact simulates_of_map (update_simulates hx db hw now) db
  | remove id => exact simulates_of_map (remove_simulates hx db id) db

theorem run_simulates (hx : e.Exact) (db : SQLDB e) (ws : List DBWrite) (hws : ∀ w ∈ ws, w.Fits e) :
    (db.run ws).toTempDB = db.toTempDB.run ws := by
  induction ws generalizing db with
  | nil => rfl
  | cons w ws ih =>
    rw [run, TempDB.run, ← (write_simulates hx db (hws w (List.mem_cons_self _ _))).1]
    exact ih _ fun w' hw' => hws w' (List.mem_cons_of_mem _ hw')

end SQLDB

/-- **What `Add` leaves.** The keys before the first one that fails, stamped and appended,
and success exactly when no key fails; the key that fails has an ACL that does not marshal,
or an id the column does not take or the same as one the table then holds. -/
theorem SQLDB.addLoop_eq (e : Engine) (now : Nat → Int) : ∀ (i : Nat) (t : Secrets) (keys : List DBKey),
    ∃ pre post, keys = pre ++ post ∧ (addLoop e now i t keys).1.rows = t.rows ++ TempDB.stamp now i pre ∧
      ((addLoop e now i t keys).2 = .ok () ↔ post = []) ∧
      ∀ k ∈ post.head?, (¬∀ a ∈ k.acl, a.type.declared) ∨ e.fitsId k.id = false ∨
        ∃ r ∈ (addLoop e now i t keys).1.rows, e.sameId r.id k.id = true
  | _, t, [] => ⟨[], [], rfl, by simp [addLoop, TempDB.stamp], by simp [addLoop], by simp⟩
  | i, t, key :: rest => by
    cases hm : marshalACL key.acl with
    | error err =>
      refine ⟨[], key :: rest, rfl, by simp [addLoop, hm, TempDB.stamp], by simp [addLoop, hm], fun k hk => ?_⟩
      obtain rfl : k = key := by simpa using hk.symm
      exact .inl fun h => by rw [marshalACL_eq_ok.mpr h] at hm; cases hm
    | ok u =>
      cases hi : t.insert e key (now i) with
      | none =>
        refine ⟨[], key :: rest, rfl, by simp [addLoop, hm, hi, TempDB.stamp], by simp [addLoop, hm, hi],
          fun k hk => ?_⟩
        obtain rfl : k = key := by simpa using hk.symm
        have hrows : (addLoop e now i t (k :: rest)).1 = t := by simp [addLoop, hm, hi]
        rw [hrows]
        exact .inr (Secrets.insert_eq_none.mp hi)
      | some t' =>
        have heq : addLoop e now i t (key :: rest) = addLoop e now (i + 1) t' rest := by simp [addLoop, hm, hi]
        obtain ⟨pre, post, rfl, hrows, hok, hfail⟩ := addLoop_eq e now (i + 1) t' rest
        refine ⟨key :: pre, post, rfl, ?_, heq ▸ hok, heq ▸ hfail⟩
        rw [heq, hrows, Secrets.rows_of_insert_eq_some hi, TempDB.stamp, DBKey.copy_eq, List.append_assoc]
        rfl

end Knox

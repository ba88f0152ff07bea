import Knox.Server.KeyDB.TempDB

/-! The storage contract, and `TempDB` against it.

The contract of `keydb.DB` is a finite map from id to record, the record carrying
its version token (`RecordMap`). `Get` and `GetAll` read the map; `Add` inserts a
batch, or fails with `ErrKeyExists` on any collision of ids, with a stored one or
inside the batch; `Update` replaces the record of the key's id when it holds the
key's token, and stamps a new one; `Remove` deletes an id, or fails with
`ErrKeyIDNotFound`. Both sides stamp the clock readings a write is given, so the
refinement assumes nothing about the clock.

`TempDB` keeps a list and reads the first record of an id; `toMap` is the map it
stands for. It represents a map (`Represents`) when its ids are distinct and
`toMap` is that map: `Get` then returns the map's record of an id, and `GetAll`
exactly the map's records.

* `update_represents`, `remove_represents`, `add_represents`: from related stores a
  write fails on both sides with the same error, or succeeds on both and leaves
  related stores; for `Add`, when the batch has distinct ids.
* `tempDB_refines_recordMap`: so along every run whose batches have distinct ids.
* `add_repeated_id_diverges`: a batch that repeats an id parts the two at once. -/
namespace Knox

/-- The abstract store: the record of each id, token included. -/
abbrev RecordMap := String → Option DBKey

namespace RecordMap

/-- No record. -/
def empty : RecordMap := fun _ => none

/-- The map with the record of `id` set to `v`. -/
def set (S : RecordMap) (id : String) (v : Option DBKey) : RecordMap := Function.update S id v

@[simp] theorem set_self (S : RecordMap) (id : String) (v : Option DBKey) : S.set id v id = v := by
  simp [set]

theorem set_ne (S : RecordMap) {id id' : String} (v : Option DBKey) (h : id' ≠ id) :
    S.set id v id' = S id' := by
  simp [set, Function.update_noteq h]

/-- The batch inserted, the `i`-th key stamped with the reading `now i`. -/
def insertAll (now : Nat → Int) : Nat → RecordMap → List DBKey → RecordMap
  | _, S, [] => S
  | i, S, k :: rest => insertAll now (i + 1) (S.set k.id (some { k with dbVersion := now i })) rest

/-- `add(keys...)`: any collision of ids is `ErrKeyExists`. -/
def add (S : RecordMap) (keys : List DBKey) (now : Nat → Int) : Except GoError RecordMap :=
  if (keys.map (·.id)).Nodup ∧ ∀ k ∈ keys, S k.id = none then .ok (insertAll now 0 S keys)
  else .error .keyExists

/-- `update(key)`: only over the record of the key's id holding the key's token. -/
def update (S : RecordMap) (key : DBKey) (now : Int) : Except GoError RecordMap :=
  match S key.id with
  | some r =>
    if r.dbVersion = key.dbVersion then .ok (S.set key.id (some { key with dbVersion := now }))
    else .error .dbVersion
  | none => .error .keyIDNotFound

/-- `remove(id)`. -/
def remove (S : RecordMap) (id : String) : Except GoError RecordMap :=
  match S id with
  | some _ => .ok (S.set id none)
  | none => .error .keyIDNotFound

end RecordMap

/-! ### Writes and runs -/

/-- A write of the storage contract, with the clock readings it stamps. -/
inductive DBWrite where
  | add (keys : List DBKey) (now : Nat → Int)
  | update (key : DBKey) (now : Int)
  | remove (id : String)

/-- The batch of an `Add` has distinct ids. -/
def DBWrite.Distinct : DBWrite → Prop
  | .add keys _ => (keys.map (·.id)).Nodup
  | _ => True

instance : DecidablePred DBWrite.Distinct
  | .add keys _ => inferInstanceAs (Decidable (keys.map fun k : DBKey => k.id).Nodup)
  | .update _ _ => isTrue trivial
  | .remove _ => isTrue trivial

/-- A write on `TempDB`. -/
def TempDB.write (db : TempDB) : DBWrite → Except GoError TempDB
  | .add keys now => db.add keys now
  | .update key now => db.update key now
  | .remove id => db.remove id

/-- A run of writes on `TempDB`, a failed one changing nothing. -/
def TempDB.run (db : TempDB) : List DBWrite → TempDB
  | [] => db
  | w :: ws => TempDB.run ((db.write w).toOption.getD db) ws

/-- A write on the map. -/
def RecordMap.write (S : RecordMap) : DBWrite → Except GoError RecordMap
  | .add keys now => S.add keys now
  | .update key now => S.update key now
  | .remove id => S.remove id

/-- A run of writes on the map, a failed one changing nothing. -/
def RecordMap.run (S : RecordMap) : List DBWrite → RecordMap
  | [] => S
  | w :: ws => RecordMap.run ((S.write w).toOption.getD S) ws

/-! ### The map `TempDB` stands for -/

namespace TempDB

/-- The first record of each id: the one `Get` returns. -/
def toMap (db : TempDB) : RecordMap := fun id => db.keys.find? (·.id = id)

theorem toMap_eq_none {db : TempDB} {id : String} :
    db.toMap id = none ↔ ∀ r ∈ db.keys, r.id ≠ id := by
  simp [toMap, List.find?_eq_none]

/-- `TempDB` represents the map. -/
structure Represents (db : TempDB) (S : RecordMap) : Prop where
  /-- The stored ids are distinct. -/
  nodup : (db.keys.map (·.id)).Nodup
  /-- The first record of each id is the map's. -/
  abs : db.toMap = S

section Represents
variable {db : TempDB} {S : RecordMap}

theorem represents_empty : Represents ⟨[]⟩ RecordMap.empty := ⟨List.nodup_nil, rfl⟩

/-- `Get` returns the map's record of the id. -/
theorem Represents.get_eq_ok (h : Represents db S) {id : String} {r : DBKey} :
    db.get id = .ok r ↔ S id = some r := by
  rw [← h.abs]
  exact TempDB.get_eq_ok

/-- `Get` fails exactly on the ids the map lacks, with `ErrKeyIDNotFound`. -/
theorem Represents.get_eq_error (h : Represents db S) {id : String} {e : GoError} :
    db.get id = .error e ↔ e = .keyIDNotFound ∧ S id = none := by
  rw [← h.abs, TempDB.get_eq_error, toMap_eq_none]

/-- `GetAll` lists exactly the map's records. -/
theorem Represents.mem_getAll (h : Represents db S) {r : DBKey} :
    r ∈ db.getAll ↔ S r.id = some r := by
  rw [← h.get_eq_ok]
  exact ⟨get_of_mem h.nodup, fun hr => (get_eq_ok_mem hr).1⟩

/-- Two stores whose `Get` agrees on an id stand for maps that agree on it. -/
theorem toMap_eq_of_get_eq {db' : TempDB} {id : String} (h : db'.get id = db.get id) :
    db'.toMap id = db.toMap id := by
  cases hm : db.toMap id with
  | none =>
    have hg : db.get id = .error .keyIDNotFound := get_eq_error.mpr ⟨rfl, toMap_eq_none.mp hm⟩
    exact toMap_eq_none.mpr (get_eq_error.mp (h.trans hg)).2
  | some r => exact get_eq_ok.mp (h.trans (get_eq_ok.mpr hm))

/-! ### One write -/

theorem update_represents (h : Represents db S) (key : DBKey) (now : Int) :
    Corresponds Represents (db.update key now) (S.update key now) := by
  obtain ⟨hd, rfl⟩ := h
  cases hm : db.toMap key.id with
  | none =>
    rw [update_of_get_error now (get_eq_error.mpr ⟨rfl, toMap_eq_none.mp hm⟩)]
    simp only [RecordMap.update, hm]
    rfl
  | some r =>
    have hg : db.get key.id = .ok r := get_eq_ok.mpr hm
    by_cases hv : r.dbVersion = key.dbVersion
    · obtain ⟨db', hup, hids, hget⟩ := update_of_get hg rfl hv.symm now
      simp only [hup, RecordMap.update, hm, if_pos hv]
      refine ⟨hids ▸ hd, funext fun id => ?_⟩
      by_cases hid : id = key.id
      · subst hid
        rw [RecordMap.set_self]
        exact get_eq_ok.mp hget
      · rw [RecordMap.set_ne _ _ hid]
        exact toMap_eq_of_get_eq (get_update_of_ne hup (Ne.symm hid))
    · simp only [update_of_get_version_ne now hg hv, RecordMap.update, hm, if_neg hv]
      rfl

theorem remove_represents (h : Represents db S) (id : String) :
    Corresponds Represents (db.remove id) (S.remove id) := by
  obtain ⟨hd, rfl⟩ := h
  cases hm : db.toMap id with
  | none =>
    rw [remove_of_get_error (get_eq_error.mpr ⟨rfl, toMap_eq_none.mp hm⟩)]
    simp only [RecordMap.remove, hm]
    rfl
  | some r =>
    obtain ⟨db', hrm⟩ := remove_of_get_ok (get_eq_ok.mpr hm)
    simp only [hrm, RecordMap.remove, hm]
    refine ⟨hd.sublist ((sublist_remove hrm).map _), funext fun id' => ?_⟩
    by_cases hid : id' = id
    · subst hid
      rw [RecordMap.set_self]
      exact toMap_eq_none.mpr (get_eq_error.mp (get_remove_self hd hrm)).2
    · rw [RecordMap.set_ne _ _ hid]
      exact toMap_eq_of_get_eq (get_remove_of_ne hrm (Ne.symm hid))

/-- On a batch with distinct ids, inserting it one key after the other leaves, at each
id, the stamped key of that id if the batch has one. -/
theorem insertAll_apply {now : Nat → Int} {id : String} :
    ∀ {i : Nat} {S : RecordMap} {keys : List DBKey}, (keys.map (·.id)).Nodup →
      RecordMap.insertAll now i S keys id = ((stamp now i keys).find? (·.id = id)).or (S id)
  | _, _, [], _ => by simp [RecordMap.insertAll, stamp]
  | i, S, k :: rest, hb => by
    rw [List.map_cons, List.nodup_cons] at hb
    rw [RecordMap.insertAll, insertAll_apply hb.2, stamp, List.find?_cons]
    by_cases hk : k.id = id
    · subst hk
      simp [find?_stamp_of_not_mem hb.1]
    · simp [hk, RecordMap.set_ne _ _ (Ne.symm hk)]

theorem add_represents (h : Represents db S) (keys : List DBKey) (now : Nat → Int)
    (hb : (keys.map (·.id)).Nodup) : Corresponds Represents (db.add keys now) (S.add keys now) := by
  obtain ⟨hd, rfl⟩ := h
  by_cases hs : ∀ k ∈ keys, db.toMap k.id = none
  · have hfresh : ∀ k ∈ keys, ∀ r ∈ db.keys, r.id ≠ k.id := fun k hk =>
      toMap_eq_none.mp (hs k hk)
    simp only [add_of_fresh hfresh, RecordMap.add, if_pos (And.intro hb hs)]
    refine ⟨?_, funext fun id => ?_⟩
    · rw [List.map_append, map_id_stamp]
      exact List.nodup_append.mpr ⟨hd, hb, fun a ha hb' => by
        obtain ⟨r, hr, rfl⟩ := List.mem_map.mp ha
        obtain ⟨k, hk, hrk⟩ := List.mem_map.mp hb'
        exact hfresh k hk r hr hrk.symm⟩
    · show (db.keys ++ stamp now 0 keys).find? (·.id = id) = _
      rw [List.find?_append, insertAll_apply hb]
      cases hm : db.keys.find? (·.id = id) with
      | none => simp [toMap, hm]
      | some r =>
        have hnot : id ∉ keys.map (·.id) := fun hid => by
          obtain ⟨k, hk, rfl⟩ := List.mem_map.mp hid
          exact absurd (hs k hk) (by simp [toMap, hm])
        simp [toMap, hm, find?_stamp_of_not_mem hnot]
  · obtain ⟨k, hk, hne⟩ := not_forall₂.mp hs
    obtain ⟨r, hr⟩ := Option.ne_none_iff_exists'.mp hne
    rw [add_of_get_ok hk (get_eq_ok.mpr hr), RecordMap.add, if_neg fun h => hne (h.2 k hk)]
    rfl

/-- **One write refines.** From related stores a write, an `Add` of distinct ids, fails on
both sides with the same error, or succeeds on both and leaves related stores. -/
theorem write_represents (h : Represents db S) (w : DBWrite) (hw : w.Distinct) :
    Corresponds Represents (db.write w) (S.write w) := by
  cases w with
  | add keys now => exact add_represents h keys now hw
  | update key now => exact update_represents h key now
  | remove id => exact remove_represents h id

/-- A run of such writes keeps the stores related. -/
theorem represents_run (h : Represents db S) (ws : List DBWrite) (hws : ∀ w ∈ ws, w.Distinct) :
    Represents (db.run ws) (S.run ws) := by
  induction ws generalizing db S with
  | nil => exact h
  | cons w ws ih =>
    refine ih ?_ fun w' hw' => hws w' (List.mem_cons_of_mem _ hw')
    rcases (write_represents h w (hws w (List.mem_cons_self _ _))).cases with
      ⟨e, he, hs⟩ | ⟨db', S', he, hs, h'⟩ <;> rw [he, hs]
    · exact h
    · exact h'

end Represents

end TempDB

open TempDB in
/-- **`TempDB` refines the abstract store.** After every run of writes whose `Add` batches
have distinct ids, from the empty stores: `Get` returns the map's record of an id and
fails exactly on the ids the map lacks, `GetAll` lists exactly the map's records, and
the next such write fails on both sides with the same error, or succeeds on both and
leaves the stores so related. -/
theorem tempDB_refines_recordMap (ws : List DBWrite) (w : DBWrite)
    (hws : ∀ x ∈ w :: ws, x.Distinct) :
    (∀ id r, (TempDB.run ⟨[]⟩ ws).get id = .ok r ↔ RecordMap.empty.run ws id = some r) ∧
      (∀ id e, (TempDB.run ⟨[]⟩ ws).get id = .error e ↔
        e = .keyIDNotFound ∧ RecordMap.empty.run ws id = none) ∧
      (∀ r, r ∈ (TempDB.run ⟨[]⟩ ws).getAll ↔ RecordMap.empty.run ws r.id = some r) ∧
      Corresponds Represents ((TempDB.run ⟨[]⟩ ws).write w) ((RecordMap.empty.run ws).write w) :=
  have h := represents_run represents_empty ws fun x hx => hws x (List.mem_cons_of_mem _ hx)
  ⟨fun _ _ => h.get_eq_ok, fun _ _ => h.get_eq_error, fun _ => h.mem_getAll,
    write_represents h w (hws w (List.mem_cons_self _ _))⟩

/-- A batch of two keys, `a` and `b`, each stamped with its place in the batch. -/
def addAB : DBWrite := .add [⟨"a", [], [], "", 0⟩, ⟨"b", [], [], "", 0⟩] fun i => i

/-- The batch `addAB`, then the removal of `a`. -/
theorem tempDB_refines_after_add_remove :
    (∀ x ∈ [DBWrite.remove "a", addAB], x.Distinct) ∧
      (∀ id r, (TempDB.run ⟨[]⟩ [addAB]).get id = .ok r ↔
        RecordMap.empty.run [addAB] id = some r) ∧
      (∀ id e, (TempDB.run ⟨[]⟩ [addAB]).get id = .error e ↔
        e = .keyIDNotFound ∧ RecordMap.empty.run [addAB] id = none) ∧
      (∀ r, r ∈ (TempDB.run ⟨[]⟩ [addAB]).getAll ↔
        RecordMap.empty.run [addAB] r.id = some r) ∧
      Corresponds TempDB.Represents ((TempDB.run ⟨[]⟩ [addAB]).write (.remove "a"))
        ((RecordMap.empty.run [addAB]).write (.remove "a")) :=
  have hws : ∀ x ∈ [DBWrite.remove "a", addAB], x.Distinct := by decide
  ⟨hws, tempDB_refines_recordMap _ _ hws⟩

/-- **A batch that repeats an id parts the two.** The map refuses `[k, k]`; `TempDB`,
which checks a batch only against the stored records, stores it. -/
theorem add_repeated_id_diverges (k : DBKey) (now : Nat → Int) :
    ¬ Corresponds TempDB.Represents ((⟨[]⟩ : TempDB).add [k, k] now)
      (RecordMap.empty.add [k, k] now) := by
  simp [TempDB.add, RecordMap.add, Corresponds]

end Knox

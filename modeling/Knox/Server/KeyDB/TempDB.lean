import Knox.Versions

/-! The storage records and the in-memory store `TempDB`.

`TempDB` is a list of records behind one lock, so each of its methods is one
atomic step here. The version token a write stamps is `time.Now().UnixNano()`;
the model takes the clock's reading as an argument (`now`), one per stamped
record, so that nothing is assumed about the values a clock returns.

`Update` replaces the first record with the key's id when the tokens match;
`Add` checks each key of the batch against the records already stored, and only
against those; `Remove` drops the first record with the id. The lemmas below say
what each leaves behind when it succeeds. -/
namespace Knox

structure EncKeyVersion where
  id : UInt64
  encData : List UInt8
  status : VersionStatus
  creationTime : Int
  cryptoMetadata : List UInt8
  deriving DecidableEq, Repr

structure DBKey where
  id : String
  acl : ACL
  versionList : List EncKeyVersion
  versionHash : String
  /-- Set by the store, not part of the data. -/
  dbVersion : Int
  deriving DecidableEq, Repr

/-- The (ID, Status) projection of a stored version, as a plaintext version. -/
def EncKeyVersion.idStatus (v : EncKeyVersion) : KeyVersion := ⟨v.id, [], v.status, 0⟩

/-- The (ID, Status) projection of a record's versions. -/
def DBKey.statuses (k : DBKey) : KeyVersionList := k.versionList.map EncKeyVersion.idStatus

/-- `DBKey.Copy`: a deep copy, which for immutable values is the record itself. -/
def DBKey.copy (k : DBKey) : DBKey := ⟨k.id, k.acl, k.versionList, k.versionHash, k.dbVersion⟩

@[simp] theorem DBKey.copy_eq (k : DBKey) : k.copy = k := rfl

structure TempDB where
  keys : List DBKey

namespace TempDB

/-- `TempDB.Get`: the first record with the id. -/
def get (db : TempDB) (id : String) : Except GoError DBKey :=
  match db.keys.find? (·.id = id) with
  | some k => .ok k
  | none => .error .keyIDNotFound

/-- `TempDB.GetAll`. -/
def getAll (db : TempDB) : List DBKey := db.keys

/-- The loop of `Update`: the first record with the key's id is replaced, stamped
with `now`, when its token is the key's. -/
def updateKeys (key : DBKey) (now : Int) : List DBKey → Except GoError (List DBKey)
  | [] => .error .keyIDNotFound
  | dbk :: rest =>
    if dbk.id = key.id then
      if dbk.dbVersion ≠ key.dbVersion then .error .dbVersion
      else .ok ({ key.copy with dbVersion := now } :: rest)
    else (dbk :: ·) <$> updateKeys key now rest

/-- `TempDB.Update`. -/
def update (db : TempDB) (key : DBKey) (now : Int) : Except GoError TempDB :=
  TempDB.mk <$> updateKeys key now db.keys

/-- The batch of `Add`, each key copied and stamped with its own reading of the clock. -/
def stamp (now : Nat → Int) : Nat → List DBKey → List DBKey
  | _, [] => []
  | i, k :: rest => { k.copy with dbVersion := now i } :: stamp now (i + 1) rest

/-- `TempDB.Add`: every key of the batch is checked against the stored records. -/
def add (db : TempDB) (keys : List DBKey) (now : Nat → Int) : Except GoError TempDB :=
  if keys.any fun key => db.keys.any (·.id = key.id) then .error .keyExists
  else .ok ⟨db.keys ++ stamp now 0 keys⟩

/-- The loop of `Remove`: the first record with the id is dropped. -/
def removeKeys (id : String) : List DBKey → Except GoError (List DBKey)
  | [] => .error .keyIDNotFound
  | k :: rest => if k.id = id then .ok rest else (k :: ·) <$> removeKeys id rest

/-- `TempDB.Remove`. -/
def remove (db : TempDB) (id : String) : Except GoError TempDB :=
  TempDB.mk <$> removeKeys id db.keys

/-! ### What a successful write leaves -/

theorem get_eq_ok {db : TempDB} {id : String} {k : DBKey} :
    db.get id = .ok k ↔ db.keys.find? (·.id = id) = some k := by
  unfold get
  cases db.keys.find? (·.id = id) <;> simp

theorem get_eq_ok_mem {db : TempDB} {id : String} {k : DBKey} (h : db.get id = .ok k) :
    k ∈ db.keys ∧ k.id = id := by
  have h := get_eq_ok.mp h
  exact ⟨List.mem_of_find?_eq_some h, by simpa using List.find?_some h⟩

/-- A successful `Update` replaces one record with the key, of the same id, and
keeps the others. -/
theorem updateKeys_eq_ok {key : DBKey} {now : Int} :
    ∀ {ks ks' : List DBKey}, updateKeys key now ks = .ok ks' →
      ∃ pre old post, ks = pre ++ old :: post ∧ ks' = pre ++ { key with dbVersion := now } :: post ∧
        old.id = key.id ∧ old.dbVersion = key.dbVersion ∧ ∀ r ∈ pre, r.id ≠ key.id
  | [], _, h => by cases h
  | dbk :: rest, ks', h => by
    unfold updateKeys at h
    by_cases hid : dbk.id = key.id
    · by_cases hv : dbk.dbVersion = key.dbVersion
      · simp only [hid, hv, ne_eq, not_true_eq_false, if_true, if_false, DBKey.copy_eq,
          Except.ok.injEq] at h
        exact ⟨[], dbk, rest, rfl, h.symm, hid, hv, by simp⟩
      · simp [hid, hv] at h
    · simp only [hid, if_false] at h
      cases hr : updateKeys key now rest with
      | error e => rw [hr] at h; cases h
      | ok rest' =>
        rw [hr] at h
        cases h
        obtain ⟨pre, old, post, rfl, rfl, ho, hv, hpre⟩ := updateKeys_eq_ok hr
        exact ⟨dbk :: pre, old, post, rfl, rfl, ho, hv, by simpa [hid] using hpre⟩

theorem update_eq_ok {db db' : TempDB} {key : DBKey} {now : Int} (h : db.update key now = .ok db') :
    ∃ pre old post, db.keys = pre ++ old :: post ∧
      db'.keys = pre ++ { key with dbVersion := now } :: post ∧
      old.id = key.id ∧ old.dbVersion = key.dbVersion ∧ ∀ r ∈ pre, r.id ≠ key.id := by
  unfold update at h
  cases hk : updateKeys key now db.keys with
  | error e => rw [hk] at h; cases h
  | ok ks' =>
    rw [hk] at h
    cases h
    exact updateKeys_eq_ok hk

/-- A record after `Update` is the stamped key or one stored before. -/
theorem mem_update {db db' : TempDB} {key : DBKey} {now : Int} (h : db.update key now = .ok db')
    {r : DBKey} (hr : r ∈ db'.keys) : r = { key with dbVersion := now } ∨ r ∈ db.keys := by
  obtain ⟨pre, old, post, h1, h2, -, -, -⟩ := update_eq_ok h
  rw [h2, List.mem_append, List.mem_cons] at hr
  rw [h1, List.mem_append, List.mem_cons]
  tauto

/-- A successful `Remove` drops one record with the id and keeps the others. -/
theorem removeKeys_eq_ok {id : String} :
    ∀ {ks ks' : List DBKey}, removeKeys id ks = .ok ks' →
      ∃ pre old post, ks = pre ++ old :: post ∧ ks' = pre ++ post ∧ old.id = id ∧
        ∀ r ∈ pre, r.id ≠ id
  | [], _, h => by cases h
  | k :: rest, ks', h => by
    unfold removeKeys at h
    by_cases hid : k.id = id
    · simp only [hid, if_true, Except.ok.injEq] at h
      exact ⟨[], k, rest, rfl, h.symm, hid, by simp⟩
    · simp only [hid, if_false] at h
      cases hr : removeKeys id rest with
      | error e => rw [hr] at h; cases h
      | ok rest' =>
        rw [hr] at h
        cases h
        obtain ⟨pre, old, post, rfl, rfl, ho, hpre⟩ := removeKeys_eq_ok hr
        exact ⟨k :: pre, old, post, rfl, rfl, ho, by simpa [hid] using hpre⟩

theorem remove_eq_ok {db db' : TempDB} {id : String} (h : db.remove id = .ok db') :
    ∃ pre old post, db.keys = pre ++ old :: post ∧ db'.keys = pre ++ post ∧ old.id = id ∧
      ∀ r ∈ pre, r.id ≠ id := by
  unfold remove at h
  cases hk : removeKeys id db.keys with
  | error e => rw [hk] at h; cases h
  | ok ks' =>
    rw [hk] at h
    cases h
    exact removeKeys_eq_ok hk

theorem map_id_stamp (now : Nat → Int) :
    ∀ (i : Nat) (keys : List DBKey), (stamp now i keys).map (·.id) = keys.map (·.id)
  | _, [] => rfl
  | i, k :: rest => by simp [stamp, map_id_stamp now (i + 1) rest]

theorem mem_stamp {now : Nat → Int} :
    ∀ {i : Nat} {keys : List DBKey} {r : DBKey}, r ∈ stamp now i keys →
      ∃ k ∈ keys, r = { k with dbVersion := r.dbVersion }
  | _, [], _, h => by cases h
  | i, k :: rest, r, h => by
    rcases List.mem_cons.mp h with rfl | h
    · exact ⟨k, List.mem_cons_self _ _, rfl⟩
    · obtain ⟨k', hk', hr⟩ := mem_stamp h
      exact ⟨k', List.mem_cons_of_mem _ hk', hr⟩

/-- A successful `Add` appends the batch, stamped, after checking that no key of
it is stored already. -/
theorem add_eq_ok {db db' : TempDB} {keys : List DBKey} {now : Nat → Int}
    (h : db.add keys now = .ok db') :
    db'.keys = db.keys ++ stamp now 0 keys ∧ ∀ key ∈ keys, ∀ r ∈ db.keys, r.id ≠ key.id := by
  unfold add at h
  split at h
  · cases h
  · rename_i hno
    cases h
    simp only [List.any_eq_true, decide_eq_true_eq, not_exists, not_and] at hno
    exact ⟨rfl, fun key hk r hr hid => hno key hk r hr hid⟩

/-- A record after `Add` of one key is that key, stamped, or one stored before. -/
theorem mem_add_singleton {db db' : TempDB} {key : DBKey} {now : Nat → Int} (h : db.add [key] now = .ok db')
    {r : DBKey} (hr : r ∈ db'.keys) : r = { key with dbVersion := now 0 } ∨ r ∈ db.keys := by
  rw [(add_eq_ok h).1, List.mem_append] at hr
  simp only [stamp, DBKey.copy_eq, List.mem_singleton] at hr
  exact hr.symm

/-- **A batch that repeats an id is stored twice.** `Add` checks the keys of a batch
against the stored records only: adding `[k, k]` to an empty store succeeds with two
records of `k`'s id, and after `Remove` of that id `Get` still finds one. -/
theorem add_repeated_id (k : DBKey) (now : Nat → Int) :
    ∃ db db', (⟨[]⟩ : TempDB).add [k, k] now = .ok db ∧ db.keys.map (·.id) = [k.id, k.id] ∧
      db.remove k.id = .ok db' ∧ db'.get k.id = .ok { k with dbVersion := now 1 } := by
  refine ⟨⟨[{ k with dbVersion := now 0 }, { k with dbVersion := now 1 }]⟩,
    ⟨[{ k with dbVersion := now 1 }]⟩, rfl, rfl, ?_, ?_⟩ <;>
    simp [remove, removeKeys, get]

/-! ### What a write leaves alone -/

/-- The record `Get` returns is the first one with the id. -/
theorem get_of_split {db : TempDB} {pre post : List DBKey} {old : DBKey} {id : String}
    (h : db.keys = pre ++ old :: post) (hpre : ∀ r ∈ pre, r.id ≠ id) (hold : old.id = id) :
    db.get id = .ok old := by
  rw [get_eq_ok, h, List.find?_append, List.find?_eq_none.mpr (by simpa using hpre)]
  simp [hold]

theorem get_update_of_ne {db db' : TempDB} {key : DBKey} {now : Int} {id : String}
    (h : db.update key now = .ok db') (hid : key.id ≠ id) : db'.get id = db.get id := by
  obtain ⟨pre, old, post, h1, h2, hold, -, -⟩ := update_eq_ok h
  simp [get, h1, h2, List.find?_append, List.find?_cons, hold, hid]

/-- After `Update`, `Get` of the key's id returns the key, stamped. -/
theorem get_update_self {db db' : TempDB} {key : DBKey} {now : Int} (h : db.update key now = .ok db') :
    db'.get key.id = .ok { key with dbVersion := now } := by
  obtain ⟨pre, old, post, -, h2, -, -, hpre⟩ := update_eq_ok h
  exact get_of_split h2 hpre rfl

theorem get_remove_of_ne {db db' : TempDB} {id' id : String}
    (h : db.remove id' = .ok db') (hid : id' ≠ id) : db'.get id = db.get id := by
  obtain ⟨pre, old, post, h1, h2, hold, -⟩ := remove_eq_ok h
  simp [get, h1, h2, List.find?_append, List.find?_cons, hold, hid]

/-- No stamped key has an id the batch does not have. -/
theorem find?_stamp_of_not_mem {now : Nat → Int} {i : Nat} {keys : List DBKey} {id : String}
    (hid : id ∉ keys.map (·.id)) : (stamp now i keys).find? (·.id = id) = none := by
  refine List.find?_eq_none.mpr fun r hr h => hid ?_
  rw [← map_id_stamp now i keys, ← of_decide_eq_true h]
  exact List.mem_map_of_mem _ hr

theorem get_add_of_ne {db db' : TempDB} {keys : List DBKey} {now : Nat → Int} {id : String}
    (h : db.add keys now = .ok db') (hid : ∀ k ∈ keys, k.id ≠ id) : db'.get id = db.get id := by
  have hst : (stamp now 0 keys).find? (·.id = id) = none :=
    find?_stamp_of_not_mem fun hm => let ⟨k, hk, he⟩ := List.mem_map.mp hm; hid k hk he
  simp only [get, (add_eq_ok h).1, List.find?_append, hst, Option.or_none]

/-! ### `Get` against the other methods -/

/-- `Get` fails only with `ErrKeyIDNotFound`, exactly when no record has the id. -/
theorem get_eq_error {db : TempDB} {id : String} {e : GoError} :
    db.get id = .error e ↔ e = .keyIDNotFound ∧ ∀ r ∈ db.keys, r.id ≠ id := by
  unfold get
  cases h : db.keys.find? (·.id = id) with
  | none =>
    have hne := List.find?_eq_none.mp h
    simp only [Except.error.injEq]
    exact ⟨fun he => ⟨he.symm, fun r hr hid => hne r hr (by simpa using hid)⟩, fun h => h.1.symm⟩
  | some k =>
    refine iff_of_false (by simp) fun ⟨_, hne⟩ => ?_
    exact hne k (List.mem_of_find?_eq_some h) (by simpa using List.find?_some h)

/-- On distinct ids, `Get` of a stored record's id returns it. -/
theorem get_of_mem {db : TempDB} {r : DBKey} (hnd : (db.keys.map (·.id)).Nodup) (hr : r ∈ db.keys) :
    db.get r.id = .ok r := by
  obtain ⟨pre, post, hsplit⟩ := List.append_of_mem hr
  rw [hsplit, List.map_append, List.map_cons] at hnd
  exact get_of_split hsplit (fun r' hr' h =>
    List.disjoint_of_nodup_append hnd (List.mem_map_of_mem _ hr') (h ▸ List.mem_cons_self _ _)) rfl

theorem removeKeys_of_forall_ne {id : String} :
    ∀ {ks : List DBKey}, (∀ r ∈ ks, r.id ≠ id) → removeKeys id ks = .error .keyIDNotFound
  | [], _ => rfl
  | k :: rest, h => by
    simp only [removeKeys, h k (List.mem_cons_self _ _), if_false,
      removeKeys_of_forall_ne fun r hr => h r (List.mem_cons_of_mem _ hr)]
    rfl

theorem removeKeys_of_mem {id : String} :
    ∀ {ks : List DBKey} {r : DBKey}, r ∈ ks → r.id = id → ∃ ks', removeKeys id ks = .ok ks'
  | k :: rest, r, hr, hid => by
    by_cases hk : k.id = id
    · exact ⟨rest, by simp [removeKeys, hk]⟩
    · have hr : r ∈ rest := (List.mem_cons.mp hr).resolve_left fun h => hk (h ▸ hid)
      obtain ⟨ks', h⟩ := removeKeys_of_mem hr hid
      exact ⟨k :: ks', by simp [removeKeys, hk, h]⟩

/-- `Remove` fails when `Get` does, with its error. -/
theorem remove_of_get_error {db : TempDB} {id : String} {e : GoError} (h : db.get id = .error e) :
    db.remove id = .error e := by
  obtain ⟨rfl, hne⟩ := get_eq_error.mp h
  simp only [remove, removeKeys_of_forall_ne hne]
  rfl

/-- `Remove` succeeds when `Get` does. -/
theorem remove_of_get_ok {db : TempDB} {id : String} {r : DBKey} (h : db.get id = .ok r) :
    ∃ db', db.remove id = .ok db' := by
  obtain ⟨hr, hid⟩ := get_eq_ok_mem h
  obtain ⟨ks', h⟩ := removeKeys_of_mem hr hid
  exact ⟨⟨ks'⟩, by simp only [remove, h]; rfl⟩

theorem sublist_remove {db db' : TempDB} {id : String} (h : db.remove id = .ok db') :
    db'.keys.Sublist db.keys := by
  obtain ⟨pre, old, post, h1, h2, -, -⟩ := remove_eq_ok h
  rw [h1, h2]
  exact List.Sublist.append_left (List.sublist_cons_self _ _) _

/-- On distinct ids, the removed id is gone. -/
theorem get_remove_self {db db' : TempDB} {id : String} (hnd : (db.keys.map (·.id)).Nodup)
    (h : db.remove id = .ok db') : db'.get id = .error .keyIDNotFound := by
  obtain ⟨pre, old, post, h1, h2, hold, hpre⟩ := remove_eq_ok h
  rw [h1, List.map_append, List.map_cons] at hnd
  refine get_eq_error.mpr ⟨rfl, fun r hr hid => ?_⟩
  rw [h2] at hr
  rcases List.mem_append.mp hr with hr | hr
  · exact hpre r hr hid
  · exact (List.nodup_cons.mp (List.nodup_append.mp hnd).2.1).1
      (hold ▸ hid ▸ List.mem_map_of_mem _ hr)

theorem updateKeys_append {key : DBKey} {now : Int} {ks : List DBKey} :
    ∀ {pre : List DBKey}, (∀ r ∈ pre, r.id ≠ key.id) →
      updateKeys key now (pre ++ ks) = (pre ++ ·) <$> updateKeys key now ks
  | [], _ => by simp
  | r :: pre, h => by
    simp only [List.cons_append, updateKeys, h r (List.mem_cons_self _ _), if_false, List.append_eq]
    rw [updateKeys_append fun r' hr' => h r' (List.mem_cons_of_mem _ hr')]
    cases updateKeys key now ks <;> rfl

theorem updateKeys_of_forall_ne {key : DBKey} {now : Int} :
    ∀ {ks : List DBKey}, (∀ r ∈ ks, r.id ≠ key.id) → updateKeys key now ks = .error .keyIDNotFound
  | [], _ => rfl
  | k :: rest, h => by
    simp only [updateKeys, h k (List.mem_cons_self _ _), if_false,
      updateKeys_of_forall_ne fun r hr => h r (List.mem_cons_of_mem _ hr)]
    rfl

/-- `Update` fails when `Get` of the key's id does, with its error. -/
theorem update_of_get_error {db : TempDB} {key : DBKey} {e : GoError} (now : Int)
    (h : db.get key.id = .error e) : db.update key now = .error e := by
  obtain ⟨rfl, hne⟩ := get_eq_error.mp h
  simp only [update, updateKeys_of_forall_ne hne]
  rfl

/-- `Update` of a key whose id `Get` finds compares the tokens of that record, and on a
match replaces it. -/
theorem update_of_get_ok {db : TempDB} {r key : DBKey} (h : db.get key.id = .ok r) (now : Int) :
    ∃ pre post, db.keys = pre ++ r :: post ∧ (∀ r' ∈ pre, r'.id ≠ key.id) ∧
      db.update key now = if r.dbVersion ≠ key.dbVersion then .error .dbVersion
        else .ok ⟨pre ++ { key with dbVersion := now } :: post⟩ := by
  obtain ⟨hrid, pre, post, hsplit, hpre⟩ := List.find?_eq_some.mp (get_eq_ok.mp h)
  have hpre : ∀ r' ∈ pre, r'.id ≠ key.id := fun r' hr' => by simpa using hpre r' hr'
  refine ⟨pre, post, hsplit, hpre, ?_⟩
  simp only [update, hsplit, updateKeys_append hpre, updateKeys, of_decide_eq_true hrid, if_true,
    DBKey.copy_eq]
  split <;> rfl

/-- `Update` of a key with another token than the record `Get` returns fails. -/
theorem update_of_get_version_ne {db : TempDB} {r key : DBKey} (now : Int) (h : db.get key.id = .ok r)
    (hv : r.dbVersion ≠ key.dbVersion) : db.update key now = .error .dbVersion := by
  obtain ⟨pre, post, -, -, hup⟩ := update_of_get_ok h now
  rw [hup, if_pos hv]

/-- `Update` of a key with the id and the token of the record `Get` returns succeeds,
keeps the ids, and `Get` then returns the key, stamped. -/
theorem update_of_get {db : TempDB} {id : String} {r key : DBKey}
    (h : db.get id = .ok r) (hid : key.id = id) (hv : key.dbVersion = r.dbVersion) (now : Int) :
    ∃ db', db.update key now = .ok db' ∧ db'.keys.map (·.id) = db.keys.map (·.id) ∧
      db'.get id = .ok { key with dbVersion := now } := by
  subst hid
  obtain ⟨pre, post, hsplit, hpre, hup⟩ := update_of_get_ok h now
  have hr : r.id = key.id := (get_eq_ok_mem h).2
  refine ⟨_, by rw [hup, if_neg (not_not.mpr hv.symm)], by simp [hsplit, hr], get_of_split rfl hpre rfl⟩

/-- A record appended with a fresh id is what `Get` returns for it. -/
theorem get_snoc_of_eq {db : TempDB} {x : DBKey} {id : String} (hfresh : ∀ r ∈ db.keys, r.id ≠ id)
    (hx : x.id = id) : TempDB.get ⟨db.keys ++ [x]⟩ id = .ok x :=
  get_of_split rfl hfresh hx

theorem get_snoc_of_ne {db : TempDB} {x : DBKey} {id : String} (h : x.id ≠ id) :
    TempDB.get ⟨db.keys ++ [x]⟩ id = db.get id := by
  simp [get, List.find?_append, h]

/-- `Add` of a batch with no stored id appends it, stamped. -/
theorem add_of_fresh {db : TempDB} {keys : List DBKey} {now : Nat → Int}
    (hfresh : ∀ key ∈ keys, ∀ r ∈ db.keys, r.id ≠ key.id) :
    db.add keys now = .ok ⟨db.keys ++ stamp now 0 keys⟩ := by
  have hany : (keys.any fun key => db.keys.any (·.id = key.id)) = false := by simpa using hfresh
  simp only [add, hany]
  rfl

theorem add_singleton_of_fresh {db : TempDB} {x : DBKey} {now : Nat → Int}
    (hfresh : ∀ r ∈ db.keys, r.id ≠ x.id) :
    db.add [x] now = .ok ⟨db.keys ++ [{ x with dbVersion := now 0 }]⟩ :=
  add_of_fresh fun _ hk => List.eq_of_mem_singleton hk ▸ hfresh

/-- `Add` refuses a batch with a key whose id `Get` finds. -/
theorem add_of_get_ok {db : TempDB} {keys : List DBKey} {now : Nat → Int} {key r : DBKey}
    (hk : key ∈ keys) (h : db.get key.id = .ok r) : db.add keys now = .error .keyExists := by
  obtain ⟨hr, hrid⟩ := get_eq_ok_mem h
  have : (keys.any fun key => db.keys.any (·.id = key.id)) = true := by
    simp only [List.any_eq_true, decide_eq_true_eq]
    exact ⟨key, hk, r, hr, hrid⟩
  simp only [add, this, if_true]

end TempDB

end Knox

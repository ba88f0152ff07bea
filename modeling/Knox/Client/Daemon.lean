import Knox.Server.Concurrent
import Mathlib.Data.List.Dedup

/-! The client daemon's refresh cycle, `daemon.update`, against the server.

The daemon keeps a register file of key ids and a cache directory with one JSON file
per key. A cycle reads the registrations, deletes the cache files of unregistered ids,
sends every registered id with the hash of its cached key (or `""` when there is no
file or it does not decode) to `GetKeys`, and runs `processKey` on each id the
server lists: fetch the key and write its file, or, when the server answers that the
key does not exist or the machine may not read it, drop the registration. A failed
`processKey` is counted in `getKeyErrCount` and the cycle goes on.

The daemon talks to the server through `APIClient`; `serverClient` is the client
whose calls run the server's handlers on a store. A cache file is the key its JSON
decodes to, `none` when it does not; writing a file stores the key fetched. Locking
and the file system's own failures are not modelled.

* `update_keeps_absent_registration`: the server lists only stored ids, so a
  registered id that the store lacks is never fetched, and `processKey`, the only
  place that drops a registration, is never reached for it: the registration stays.
* `update_converges`: on a store whose hashes are not `""`, a cycle that fails
  nowhere leaves only files of registered ids and, for every registered id the store
  holds, a file with its stored hash. The proviso is needed
  (`update_misses_empty_hash`): the daemon sends `""` for a key it has no file of, and
  the server does not list a key whose stored hash is `""`. Every store the server
  reaches meets it (`update_converges_reachable`).
* `update_fixpoint`: on a store with distinct ids, such a cycle leaves a cache that the
  next cycle does not change; so for every store the server reaches
  (`update_fixpoint_reachable`).
* `loop_caches_readable`: over any run of `daemon.loop`, against servers that change
  between cycles, every file the daemon writes holds a key whose stored record then
  granted the machine Read access.
* `update_ignores_acl_change`: the server lists a key only when its hash differs, and
  the hash is over the versions alone; so a change of ACL, such as the revocation of the
  machine's Read access, is never fetched, and the cached key stays. -/
namespace Knox

/-- What the daemon asks of the server, through `knox.APIClient`. An error is the
message of the response, which is what `err.Error()` gives. -/
structure APIClient where
  /-- `GetKeys`: the ids among those asked about whose hash differs. -/
  getKeys : List (String × String) → Except String (List String)
  /-- `NetworkGetKey`. -/
  networkGetKey : String → Except String Key

/-- The client of machine `hostname` of the server whose manager is `m`: each call is
the route's handler, an error answered with the `HTTPErrMap` message of its subcode.
A `GET` changes nothing on the server, so the client's retries on error 500 get the
same answer and are left out. -/
def serverClient (m : KeyManager) (hostname : String) : APIClient where
  getKeys keyMap := .ok (m.getKeysHandler keyMap)
  networkGetKey id :=
    (m.getKeyHandler (.machine hostname) id none).mapError fun e => (httpErrMap e.subcode).2

/-- The files of the cache directory, by name, each with the key its JSON decodes to. -/
abbrev KeyFiles := List (String × Option Key)

/-- The file named `id`, if there is one. -/
def KeyFiles.file (fs : KeyFiles) (id : String) : Option (Option Key) :=
  (fs.find? (·.1 = id)).map (·.2)

/-- `os.Rename` of a temporary file onto `keyFilename(id)`: the file is replaced, or made. -/
def KeyFiles.write : KeyFiles → String → Option Key → KeyFiles
  | [], id, f => [(id, f)]
  | (n, g) :: rest, id, f => if n = id then (id, f) :: rest else (n, g) :: write rest id f

/-- The daemon's files and counter. -/
structure Daemon where
  /-- The ids of the register file. -/
  registered : List String
  /-- The files under `keyDir()`. -/
  keyFiles : KeyFiles
  /-- `getKeyErrCount`. -/
  getKeyErrCount : Nat

namespace Daemon

variable (cli : APIClient)

/-- `processKey`: the new files and registrations, and the error returned, if any. -/
def processKey (d : Daemon) (keyID : String) : Daemon × Option String :=
  match cli.networkGetKey keyID with
  | .error msg =>
    let d := if msg = "User or machine not authorized" ∨ msg = "Key identifer does not exist"
      then { d with registered := (d.registered.filter (· ≠ keyID)).dedup } else d
    (d, some ("Error getting key " ++ keyID ++ ": " ++ msg))
  | .ok key => ({ d with keyFiles := d.keyFiles.write keyID (some key) }, none)

/-- One pass of the loop over the ids `GetKeys` returned. -/
def processOne (d : Daemon) (keyID : String) : Daemon :=
  match processKey cli d keyID with
  | (d, some _) => { d with getKeyErrCount := d.getKeyErrCount + 1 }
  | (d, none) => d

/-- The hash the daemon sends for a registered id: its cached key's, or `""`. -/
def cachedHash (d : Daemon) (id : String) : String :=
  match d.keyFiles.file id with
  | some (some key) => key.versionHash
  | _ => ""

/-- The query of `GetKeys`: every registered id with the hash of its cached key. -/
def keyMap (d : Daemon) : List (String × String) := d.registered.map fun k => (k, cachedHash d k)

/-- `deleteKey` of every file whose name is not registered. -/
def prune (d : Daemon) : Daemon := { d with keyFiles := d.keyFiles.filter (·.1 ∈ d.registered) }

/-- `daemon.update`: the files, registrations and counter after the cycle, and the
error it returns, if any. -/
def update (d : Daemon) : Daemon × Option String :=
  if d.keyMap.isEmpty then (d.prune, none)
  else
    match cli.getKeys d.keyMap with
    | .error e => (d.prune, some e)
    | .ok updatedKeys => (updatedKeys.foldl (processOne cli) d.prune, none)

/-- `daemon.loop`: one cycle per round, each against the server as it then is, with the
register file as `knox register` then left it. The counts of failed and successful
cycles are only reported, and are left out. -/
def loop : Daemon → List (APIClient × List String) → Daemon
  | d, [] => d
  | d, (client, registered) :: rounds => loop (update client { d with registered }).1 rounds

/-- What a cycle can do: nothing registered, `GetKeys` fails, or the loop runs over the
ids `GetKeys` returned. -/
theorem update_cases (d : Daemon) :
    (d.keyMap = [] ∧ update cli d = (d.prune, none)) ∨
    (∃ e, cli.getKeys d.keyMap = .error e ∧ update cli d = (d.prune, some e)) ∨
    (∃ ids, d.keyMap ≠ [] ∧ cli.getKeys d.keyMap = .ok ids ∧
      update cli d = (ids.foldl (processOne cli) d.prune, none)) := by
  unfold update
  split
  · exact .inl ⟨List.isEmpty_iff.mp ‹_›, rfl⟩
  · split
    · exact .inr (.inl ⟨_, ‹_›, rfl⟩)
    · exact .inr (.inr ⟨_, fun h => by simp_all, ‹_›, rfl⟩)

@[simp] theorem prune_registered (d : Daemon) : d.prune.registered = d.registered := rfl

@[simp] theorem prune_getKeyErrCount (d : Daemon) : d.prune.getKeyErrCount = d.getKeyErrCount := rfl

@[simp] theorem keyMap_eq_nil (d : Daemon) : d.keyMap = [] ↔ d.registered = [] := List.map_eq_nil_iff

/-! ### The server's answers -/

/-- The value the server reads for a registered id from the daemon's query. -/
theorem lookup_keyMap (d : Daemon) {id : String} (hid : id ∈ d.registered) :
    ((d.keyMap.reverse.find? (·.1 = id)).map (·.2)) = some (cachedHash d id) := by
  obtain ⟨x, hx⟩ : ∃ x, d.keyMap.reverse.find? (·.1 = id) = some x :=
    Option.isSome_iff_exists.mp (List.find?_isSome.mpr
      ⟨(id, cachedHash d id), List.mem_reverse.mpr (List.mem_map_of_mem _ hid), by simp⟩)
  have hx1 : x.1 = id := by simpa using List.find?_some hx
  obtain ⟨k, -, rfl⟩ := List.mem_map.mp (List.mem_reverse.mp (List.mem_of_find?_eq_some hx))
  subst hx1
  simp only [hx, Option.map_some']

/-- A query of the server lists exactly the stored ids asked about with another hash. -/
theorem mem_getKeys {m : KeyManager} {hostname : String} {keyMap : List (String × String)}
    {ids : List String} (h : (serverClient m hostname).getKeys keyMap = .ok ids)
    (hne : keyMap ≠ []) {id : String} :
    id ∈ ids ↔ ∃ r ∈ m.db.keys, r.id = id ∧
      ∃ v, (keyMap.reverse.find? (·.1 = id)).map (·.2) = some v ∧ r.versionHash ≠ v := by
  simp only [serverClient, Except.ok.injEq, KeyManager.getKeysHandler, List.isEmpty_iff, hne,
    if_false] at h
  rw [← h, KeyManager.mem_getUpdatedKeyIDs]

/-- A query lists only ids it asks about. -/
theorem mem_keyMap_of_mem_getKeys {m : KeyManager} {hostname : String}
    {keyMap : List (String × String)} {ids : List String} {id : String}
    (h : (serverClient m hostname).getKeys keyMap = .ok ids) (hne : keyMap ≠ []) (hid : id ∈ ids) :
    id ∈ keyMap.map (·.1) := by
  obtain ⟨-, -, -, v, hv, -⟩ := (mem_getKeys h hne).mp hid
  obtain ⟨x, hx, -⟩ := Option.map_eq_some'.mp hv
  have hx1 : x.1 = id := by simpa using List.find?_some hx
  exact hx1 ▸ List.mem_map_of_mem _ (List.mem_reverse.mp (List.mem_of_find?_eq_some hx))

/-- The server answers with a key only when its stored record grants the machine Read
access, and the key carries the record's hash. -/
theorem networkGetKey_eq_ok {m : KeyManager} {hostname id : String} {key : Key}
    (h : (serverClient m hostname).networkGetKey id = .ok key) :
    ∃ r, m.db.get id = .ok r ∧ (Principal.machine hostname).canAccess r.acl .read = true ∧
      key.versionHash = r.versionHash :=
  KeyManager.getKeyHandler_eq_ok m (mapError_eq_ok.mp h)

/-! ### Files -/

theorem file_write_self (fs : KeyFiles) (id : String) (f : Option Key) :
    (fs.write id f).file id = some f := by
  induction fs with
  | nil => simp [KeyFiles.write, KeyFiles.file]
  | cons x rest ih =>
    by_cases hx : x.1 = id
    · simp [KeyFiles.write, KeyFiles.file, hx]
    · simpa [KeyFiles.write, KeyFiles.file, hx] using ih

theorem file_write_ne (fs : KeyFiles) {id id' : String} (f : Option Key) (h : id' ≠ id) :
    (fs.write id f).file id' = fs.file id' := by
  induction fs with
  | nil => simp [KeyFiles.write, KeyFiles.file, Ne.symm h]
  | cons x rest ih =>
    by_cases hx : x.1 = id
    · have : x.1 ≠ id' := hx ▸ Ne.symm h
      simp [KeyFiles.write, KeyFiles.file, hx, this, Ne.symm h]
    · by_cases hx' : x.1 = id'
      · simp [KeyFiles.write, KeyFiles.file, hx, hx', h]
      · simpa [KeyFiles.write, KeyFiles.file, hx, hx'] using ih

/-- A write makes no file but the one it names, with what it writes. -/
theorem mem_write {fs : KeyFiles} {id : String} {f : Option Key} {x : String × Option Key}
    (h : x ∈ fs.write id f) : x = (id, f) ∨ x ∈ fs := by
  induction fs with
  | nil => simpa [KeyFiles.write] using h
  | cons y rest ih =>
    simp only [KeyFiles.write] at h
    split at h
    · rcases List.mem_cons.mp h with rfl | h
      · exact .inl rfl
      · exact .inr (List.mem_cons_of_mem _ h)
    · rcases List.mem_cons.mp h with rfl | h
      · exact .inr (List.mem_cons_self _ _)
      · exact (ih h).imp_right (List.mem_cons_of_mem _)

/-- Deleting files keeps the file of a name it does not delete. -/
theorem file_filter {fs : KeyFiles} {p : String × Option Key → Bool} {id : String}
    (h : ∀ x ∈ fs, x.1 = id → p x = true) : KeyFiles.file (fs.filter p) id = fs.file id := by
  induction fs with
  | nil => rfl
  | cons x rest ih =>
    have ih := ih fun y hy => h y (List.mem_cons_of_mem _ hy)
    by_cases hx : x.1 = id
    · simp [KeyFiles.file, List.filter_cons, h x (List.mem_cons_self _ _) hx, hx]
    · by_cases hp : p x = true
      · simpa [KeyFiles.file, List.filter_cons, hp, hx] using ih
      · simpa [KeyFiles.file, List.filter_cons, hp, hx] using ih

/-! ### The loop over the listed ids -/

theorem processOne_of_ok {d : Daemon} {k : String} {key : Key} (h : cli.networkGetKey k = .ok key) :
    processOne cli d k = { d with keyFiles := d.keyFiles.write k (some key) } := by
  simp only [processOne, processKey, h]

theorem processOne_of_error {d : Daemon} {k msg : String} (h : cli.networkGetKey k = .error msg) :
    processOne cli d k =
      { registered := if msg = "User or machine not authorized" ∨ msg = "Key identifer does not exist"
          then (d.registered.filter (· ≠ k)).dedup else d.registered
        keyFiles := d.keyFiles
        getKeyErrCount := d.getKeyErrCount + 1 } := by
  simp only [processOne, processKey, h]
  split <;> rfl

theorem le_getKeyErrCount_foldl (ids : List String) (d : Daemon) :
    d.getKeyErrCount ≤ (ids.foldl (processOne cli) d).getKeyErrCount := by
  induction ids generalizing d with
  | nil => exact le_rfl
  | cons k ids ih =>
    refine le_trans ?_ (ih _)
    cases hk : cli.networkGetKey k with
    | error msg => simp [processOne_of_error cli hk]
    | ok key => simp [processOne_of_ok cli hk]

/-- The loop drops a registration only for an id it processes. -/
theorem mem_registered_foldl {ids : List String} {d : Daemon} {id : String}
    (hid : id ∈ d.registered) (hn : id ∉ ids) :
    id ∈ (ids.foldl (processOne cli) d).registered := by
  induction ids generalizing d with
  | nil => exact hid
  | cons k ids ih =>
    rw [List.mem_cons, not_or] at hn
    refine ih ?_ hn.2
    cases hk : cli.networkGetKey k with
    | error msg =>
      rw [processOne_of_error cli hk]
      split_ifs <;> simp [List.mem_dedup, hid, hn.1]
    | ok key => rwa [processOne_of_ok cli hk]

/-- When no `processKey` of the loop fails, each listed id ends with the file of the key
the server answered with, every other file is as it was, no other file is made, and
the registrations are kept. -/
theorem foldl_processOne {ids : List String} {d : Daemon}
    (h : (ids.foldl (processOne cli) d).getKeyErrCount = d.getKeyErrCount) :
    (∀ id ∈ ids, ∃ key, cli.networkGetKey id = .ok key ∧
      (ids.foldl (processOne cli) d).keyFiles.file id = some (some key)) ∧
    (∀ id, id ∉ ids → (ids.foldl (processOne cli) d).keyFiles.file id = d.keyFiles.file id) ∧
    (∀ x ∈ (ids.foldl (processOne cli) d).keyFiles, x.1 ∈ ids ∨ x.1 ∈ d.keyFiles.map (·.1)) ∧
    (ids.foldl (processOne cli) d).registered = d.registered := by
  induction ids generalizing d with
  | nil => exact ⟨fun _ h => (by cases h), fun _ _ => rfl, fun x hx => .inr (List.mem_map_of_mem _ hx), rfl⟩
  | cons k ids ih =>
    rw [List.foldl_cons] at h ⊢
    cases hk : cli.networkGetKey k with
    | error msg =>
      have hge := le_getKeyErrCount_foldl cli ids (processOne cli d k)
      rw [processOne_of_error cli hk] at hge h
      dsimp only at hge
      omega
    | ok key =>
      rw [processOne_of_ok cli hk] at h ⊢
      obtain ⟨h1, h2, h3, h4⟩ := ih h
      refine ⟨fun id hid => ?_, fun id hid => ?_, fun x hx => ?_, h4⟩
      · by_cases hin : id ∈ ids
        · exact h1 id hin
        · obtain rfl : id = k := by simpa [hin] using hid
          exact ⟨key, hk, by rw [h2 id hin, file_write_self]⟩
      · rw [List.mem_cons, not_or] at hid
        rw [h2 id hid.2, file_write_ne _ _ hid.1]
      · rcases h3 x hx with h | h
        · exact .inl (List.mem_cons_of_mem _ h)
        · obtain ⟨y, hy, hyx⟩ := List.mem_map.mp h
          rw [← hyx]
          exact (mem_write hy).imp (fun h => by rw [h]; exact List.mem_cons_self _ _) (List.mem_map_of_mem _)

/-- Every file after the loop is one it started with, or holds the key the client
answered with for the file's id. -/
theorem mem_foldl_processOne {ids : List String} {d : Daemon} {x : String × Option Key}
    (hx : x ∈ (ids.foldl (processOne cli) d).keyFiles) :
    x ∈ d.keyFiles ∨ ∃ key, x.2 = some key ∧ cli.networkGetKey x.1 = .ok key := by
  induction ids generalizing d with
  | nil => exact .inl hx
  | cons k ids ih =>
    rw [List.foldl_cons] at hx
    rcases ih hx with hx | h
    · cases hk : cli.networkGetKey k with
      | error msg =>
        rw [processOne_of_error cli hk] at hx
        exact .inl hx
      | ok key =>
        rw [processOne_of_ok cli hk] at hx
        rcases mem_write hx with rfl | hx
        · exact .inr ⟨key, rfl, hk⟩
        · exact .inl hx
    · exact .inr h

/-! ### The cycle against the server -/

/-- Every file the pruned cache keeps is named by a registered id. -/
theorem mem_prune {d : Daemon} {x : String × Option Key} (hx : x ∈ d.prune.keyFiles) :
    x.1 ∈ d.registered := by
  simpa using (List.mem_filter.mp hx).2

theorem file_prune {d : Daemon} {id : String} (hid : id ∈ d.registered) :
    d.prune.keyFiles.file id = d.keyFiles.file id :=
  file_filter fun _ _ hx => by simpa [hx] using hid

/-- Pruning a cache whose files are all registered deletes nothing. -/
theorem prune_of_registered {d : Daemon} (h : ∀ x ∈ d.keyFiles, x.1 ∈ d.registered) : d.prune = d := by
  simp only [prune, List.filter_eq_self.mpr fun x hx => decide_eq_true (h x hx)]

/-- A cycle in which no `processKey` fails keeps the registrations. -/
theorem update_registered (d : Daemon)
    (hcount : (update cli d).1.getKeyErrCount = d.getKeyErrCount) :
    (update cli d).1.registered = d.registered := by
  rcases update_cases cli d with ⟨-, h⟩ | ⟨e, -, h⟩ | ⟨ids, -, -, h⟩ <;> rw [h] at hcount ⊢
  · rfl
  · rfl
  · exact (foldl_processOne cli hcount).2.2.2

section Server
variable (m : KeyManager) (hostname : String)

/-- **A registration for a key the store lacks survives the cycle.** The server lists
only stored ids, so `processKey`, the one place that drops a registration, never runs
for it. -/
theorem update_keeps_absent_registration (d : Daemon) {id : String} (hid : id ∈ d.registered)
    (habsent : ∀ r ∈ m.db.keys, r.id ≠ id) :
    id ∈ (update (serverClient m hostname) d).1.registered := by
  rcases update_cases (serverClient m hostname) d with ⟨-, h⟩ | ⟨e, -, h⟩ | ⟨ids, hne, hids, h⟩ <;>
    rw [h]
  · exact hid
  · exact hid
  · refine mem_registered_foldl _ hid fun hin => ?_
    obtain ⟨r, hr, hrid, -⟩ := (mem_getKeys hids hne).mp hin
    exact habsent r hr hrid

/-- A registration for `a` with no cache file, against the empty store: the cycle
returns no error and `a` stays registered. -/
theorem update_keeps_unstored_a :
    (update (serverClient ⟨.plain, ⟨[]⟩⟩ "host") ⟨["a"], [], 0⟩).2 = none ∧
    "a" ∈ (update (serverClient ⟨.plain, ⟨[]⟩⟩ "host") ⟨["a"], [], 0⟩).1.registered :=
  ⟨rfl, update_keeps_absent_registration ⟨.plain, ⟨[]⟩⟩ "host" _ (List.mem_singleton_self _)
    fun _ h => (by cases h)⟩

/-- A registered id the server does not list keeps a file with the stored hash, when
that hash is not `""`. -/
theorem file_of_not_listed {d : Daemon} {ids : List String} {id : String} {r : DBKey}
    (hids : (serverClient m hostname).getKeys d.keyMap = .ok ids) (hne : d.keyMap ≠ [])
    (hid : id ∈ d.registered) (hin : id ∉ ids) (hr : m.db.get id = .ok r) (hhash : r.versionHash ≠ "") :
    ∃ key, d.keyFiles.file id = some (some key) ∧ key.versionHash = r.versionHash := by
  have hmem := TempDB.get_eq_ok_mem hr
  have hsame : r.versionHash = cachedHash d id := by
    by_contra hdiff
    exact hin ((mem_getKeys hids hne).mpr ⟨r, hmem.1, hmem.2, _, lookup_keyMap d hid, hdiff⟩)
  unfold cachedHash at hsame
  split at hsame
  · exact ⟨_, ‹_›, hsame.symm⟩
  · exact absurd hsame hhash

/-- After a cycle in which no `processKey` fails, every file is named by a registered id. -/
theorem update_files_registered (d : Daemon)
    (hcount : (update (serverClient m hostname) d).1.getKeyErrCount = d.getKeyErrCount) :
    ∀ x ∈ (update (serverClient m hostname) d).1.keyFiles, x.1 ∈ d.registered := by
  rcases update_cases (serverClient m hostname) d with ⟨-, h⟩ | ⟨e, -, h⟩ | ⟨ids, hne, hids, h⟩ <;>
    rw [h] at hcount ⊢
  · exact fun x hx => mem_prune hx
  · exact fun x hx => mem_prune hx
  · intro x hx
    rcases (foldl_processOne _ hcount).2.2.1 x hx with h | h
    · simpa [keyMap] using mem_keyMap_of_mem_getKeys hids hne h
    · obtain ⟨y, hy, hyx⟩ := List.mem_map.mp h
      exact hyx ▸ mem_prune hy

/-- After a cycle that returns no error and in which no `processKey` fails, a registered
id the store holds with a hash other than `""` has a file with that hash. -/
theorem update_file_stored_hash (d : Daemon) {id : String} {r : DBKey}
    (hnil : (update (serverClient m hostname) d).2 = none)
    (hcount : (update (serverClient m hostname) d).1.getKeyErrCount = d.getKeyErrCount)
    (hid : id ∈ d.registered) (hr : m.db.get id = .ok r) (hhash : r.versionHash ≠ "") :
    ∃ key, (update (serverClient m hostname) d).1.keyFiles.file id = some (some key) ∧
      key.versionHash = r.versionHash := by
  rcases update_cases (serverClient m hostname) d with ⟨hk, h⟩ | ⟨e, -, h⟩ | ⟨ids, hne, hids, h⟩ <;>
    rw [h] at hnil hcount ⊢
  · simp [(keyMap_eq_nil d).mp hk] at hid
  · cases hnil
  · obtain ⟨hlisted, hother, -, -⟩ := foldl_processOne _ hcount
    by_cases hin : id ∈ ids
    · obtain ⟨key, hkey, hfile⟩ := hlisted id hin
      obtain ⟨r', hr', -, hv⟩ := networkGetKey_eq_ok hkey
      obtain rfl : r' = r := Except.ok.inj (hr'.symm.trans hr)
      exact ⟨key, hfile, hv⟩
    · rw [hother id hin, file_prune hid]
      exact file_of_not_listed m hostname hids hne hid hin hr hhash

/-- **The cache converges**, on a store whose hashes are not `""`: after a cycle that
returns no error and in which no `processKey` fails, every file is named by a
registered id, and every registered id the store holds has a file that decodes to a
key with the stored hash. -/
theorem update_converges (d : Daemon) (hhash : ∀ r ∈ m.db.keys, r.versionHash ≠ "")
    (hnil : (update (serverClient m hostname) d).2 = none)
    (hcount : (update (serverClient m hostname) d).1.getKeyErrCount = d.getKeyErrCount) :
    (∀ x ∈ (update (serverClient m hostname) d).1.keyFiles, x.1 ∈ d.registered) ∧
    ∀ id ∈ d.registered, ∀ r, m.db.get id = .ok r →
      ∃ key, (update (serverClient m hostname) d).1.keyFiles.file id = some (some key) ∧
        key.versionHash = r.versionHash :=
  ⟨update_files_registered m hostname d hcount, fun _ hid r hr =>
    update_file_stored_hash m hostname d hnil hcount hid hr (hhash r (TempDB.get_eq_ok_mem hr).1)⟩

/-- When every registered key the store holds is cached with its stored hash, the server
lists nothing, and a cycle only deletes the files of unregistered ids. -/
theorem update_of_cached (d : Daemon)
    (hcur : ∀ r ∈ m.db.keys, r.id ∈ d.registered → cachedHash d r.id = r.versionHash) :
    update (serverClient m hostname) d = (d.prune, none) := by
  rcases update_cases (serverClient m hostname) d with ⟨-, h⟩ | ⟨e, he, -⟩ | ⟨ids, hne, hids, h⟩
  · exact h
  · cases he
  · have hnone : ids = [] := List.eq_nil_iff_forall_not_mem.mpr fun id hin => by
      obtain ⟨r, hr, rfl, v, hv, hdiff⟩ := (mem_getKeys hids hne).mp hin
      have hid : r.id ∈ d.registered := by simpa [keyMap] using mem_keyMap_of_mem_getKeys hids hne hin
      rw [lookup_keyMap _ hid, Option.some_inj] at hv
      exact hdiff (hv ▸ (hcur r hr hid).symm)
    rw [h, hnone, List.foldl_nil]

/-- **A converged cache is a fixpoint**, on a store with distinct ids whose hashes are
not `""`: after a cycle that returns no error and in which no `processKey` fails, the
next cycle against the same store lists no key, returns no error, and changes no file,
registration or counter. -/
theorem update_fixpoint (d : Daemon) (hnd : (m.db.keys.map (·.id)).Nodup)
    (hhash : ∀ r ∈ m.db.keys, r.versionHash ≠ "")
    (hnil : (update (serverClient m hostname) d).2 = none)
    (hcount : (update (serverClient m hostname) d).1.getKeyErrCount = d.getKeyErrCount) :
    update (serverClient m hostname) (update (serverClient m hostname) d).1 =
      ((update (serverClient m hostname) d).1, none) := by
  have hfiles := update_files_registered m hostname d hcount
  have hstored := fun id (hid : id ∈ d.registered) r (hr : m.db.get id = .ok r) =>
    update_file_stored_hash m hostname d hnil hcount hid hr (hhash r (TempDB.get_eq_ok_mem hr).1)
  have hreg := update_registered _ d hcount
  rw [update_of_cached m hostname _ fun r hr hid => ?_, prune_of_registered fun x hx => hreg ▸ hfiles x hx]
  obtain ⟨key, hfile, hkey⟩ := hstored r.id (hreg ▸ hid) r (TempDB.get_of_mem hnd hr)
  rw [cachedHash, hfile]
  exact hkey

/-- **Revoking access alone never reaches the cache.** Let the daemon's cache hold every
registered key of a store with its stored hash, and let the store change in anything
but its ids and hashes: its ACLs, say, so that the machine may no longer read a key.
The next cycle fetches nothing, so the `Unauthorized` answer that would drop the
registration never comes: every registered file and every registration stays. -/
theorem update_ignores_acl_change (m' : KeyManager) (d : Daemon)
    (hsame : m'.db.keys.map (fun r => (r.id, r.versionHash)) = m.db.keys.map (fun r => (r.id, r.versionHash)))
    (hcur : ∀ r ∈ m.db.keys, r.id ∈ d.registered → cachedHash d r.id = r.versionHash) :
    update (serverClient m' hostname) d = (d.prune, none) := by
  refine update_of_cached m' hostname d fun r' hr' hid => ?_
  obtain ⟨r, hr, hrr'⟩ := List.mem_map.mp (hsame ▸ List.mem_map_of_mem (fun r : DBKey => (r.id, r.versionHash)) hr')
  obtain ⟨hid', hv⟩ := Prod.mk.inj hrr'
  rw [← hid', ← hv]
  exact hcur r hr (hid' ▸ hid)

/-- A cycle caches only what the machine may read: every file after it is one the daemon
had, or holds the key the server answered for its id, whose stored record grants
machine `hostname` Read access and has the key's hash. -/
theorem update_caches_readable (d : Daemon) :
    ∀ x ∈ (update (serverClient m hostname) d).1.keyFiles, x ∈ d.keyFiles ∨
      ∃ key r, x.2 = some key ∧ m.db.get x.1 = .ok r ∧
        (Principal.machine hostname).canAccess r.acl .read = true ∧ key.versionHash = r.versionHash := by
  intro x hx
  have hprune : ∀ x ∈ d.prune.keyFiles, x ∈ d.keyFiles := fun _ hx => (List.mem_filter.mp hx).1
  rcases update_cases (serverClient m hostname) d with ⟨-, h⟩ | ⟨e, -, h⟩ | ⟨ids, -, -, h⟩ <;>
    rw [h] at hx
  · exact .inl (hprune x hx)
  · exact .inl (hprune x hx)
  · rcases mem_foldl_processOne _ hx with hx | ⟨key, hkey, hget⟩
    · exact .inl (hprune x hx)
    · obtain ⟨r, hr, hacc, hv⟩ := networkGetKey_eq_ok hget
      exact .inr ⟨key, r, hkey, hr, hacc, hv⟩

/-- A store holding one key `a`, with no versions, readable by machine `host`, whose
stored hash is `h`. -/
def oneKeyStore (h : String) : KeyManager :=
  ⟨.plain, ⟨[⟨"a", [⟨.machine, "host", .read⟩], [], h, 0⟩]⟩⟩

/-- The daemon of machine `host`, registered for `a`, with no cache file, against a store
whose key `a` has stored hash `h`: the cycle fetches `a`. -/
theorem update_converges_one_key :
    (∀ r ∈ (oneKeyStore "h").db.keys, r.versionHash ≠ "") ∧
    (update (serverClient (oneKeyStore "h") "host") ⟨["a"], [], 0⟩).2 = none ∧
    (update (serverClient (oneKeyStore "h") "host") ⟨["a"], [], 0⟩).1.getKeyErrCount = 0 ∧
    (∀ x ∈ (update (serverClient (oneKeyStore "h") "host") ⟨["a"], [], 0⟩).1.keyFiles,
      x.1 ∈ ["a"]) ∧
    ∀ id ∈ ["a"], ∀ r, (oneKeyStore "h").db.get id = .ok r →
      ∃ key, (update (serverClient (oneKeyStore "h") "host") ⟨["a"], [], 0⟩).1.keyFiles.file id =
        some (some key) ∧ key.versionHash = r.versionHash :=
  have hhash : ∀ r ∈ (oneKeyStore "h").db.keys, r.versionHash ≠ "" := by decide
  ⟨hhash, rfl, rfl, update_converges (oneKeyStore "h") "host" ⟨["a"], [], 0⟩ hhash rfl rfl⟩

/-- Against the same store with stored hash `""`, the cycle returns no error and no
`processKey` fails, the machine may read `a`, and yet there is no file for `a`. -/
theorem update_misses_empty_hash :
    (update (serverClient (oneKeyStore "") "host") ⟨["a"], [], 0⟩).2 = none ∧
    (update (serverClient (oneKeyStore "") "host") ⟨["a"], [], 0⟩).1.getKeyErrCount = 0 ∧
    (oneKeyStore "").db.get "a" = .ok ⟨"a", [⟨.machine, "host", .read⟩], [], "", 0⟩ ∧
    (Principal.machine "host").canAccess [⟨.machine, "host", .read⟩] .read = true ∧
    (update (serverClient (oneKeyStore "") "host") ⟨["a"], [], 0⟩).1.keyFiles.file "a" = none :=
  ⟨rfl, rfl, rfl, rfl, rfl⟩

/-- Machine `host` cached key `a`; then every ACL entry of `a` went, its versions
unchanged. The next cycle keeps the cached key and the registration. -/
theorem update_keeps_revoked_key :
    (Principal.machine "host").canAccess [] .read = false ∧
    update (serverClient ⟨.plain, ⟨[⟨"a", [], [], "h", 0⟩]⟩⟩ "host")
        ⟨["a"], [("a", some ⟨"a", [], [], "h", ""⟩)], 0⟩ =
      (⟨["a"], [("a", some ⟨"a", [], [], "h", ""⟩)], 0⟩, none) :=
  ⟨rfl, (update_ignores_acl_change (oneKeyStore "h") "host" ⟨.plain, ⟨[⟨"a", [], [], "h", 0⟩]⟩⟩ _ rfl
    fun r hr _ => by rw [List.mem_singleton.mp hr]; rfl).trans rfl⟩

end Server

/-- **The daemon caches only what its machine may read.** Over any run of the loop, each
round against any server and with any register file, every cache file at the end is
one the daemon started with, or holds a key that the server of some round stored under
a record granting machine `hostname` Read access, with that record's hash. -/
theorem loop_caches_readable (hostname : String) (d : Daemon) (rounds : List (KeyManager × List String)) :
    ∀ x ∈ (loop d (rounds.map fun r => (serverClient r.1 hostname, r.2))).keyFiles, x ∈ d.keyFiles ∨
      ∃ key, x.2 = some key ∧ ∃ m ∈ rounds.map (·.1), ∃ r, m.db.get x.1 = .ok r ∧
        (Principal.machine hostname).canAccess r.acl .read = true ∧ key.versionHash = r.versionHash := by
  induction rounds generalizing d with
  | nil => exact fun x hx => .inl hx
  | cons round rounds ih =>
    intro x hx
    rcases ih _ x hx with hx | ⟨key, hkey, m, hm, hrest⟩
    · rcases update_caches_readable round.1 hostname _ x hx with hx | ⟨key, r, hkey, hr, hacc, hv⟩
      · exact .inl hx
      · exact .inr ⟨key, hkey, round.1, List.mem_cons_self _ _, r, hr, hacc, hv⟩
    · exact .inr ⟨key, hkey, m, List.mem_cons_of_mem _ hm, hrest⟩

/-- One round against `oneKeyStore "h"` fetches `a`, and the file it writes holds a key
that machine `host` may read. -/
theorem loop_caches_fetched_key :
    let x : String × Option Key := ("a", some ⟨"a", [], [], "h", ""⟩)
    x ∈ (loop ⟨["a"], [], 0⟩ ([(oneKeyStore "h", ["a"])].map fun r => (serverClient r.1 "host", r.2))).keyFiles ∧
    ∃ key, x.2 = some key ∧ ∃ m ∈ [oneKeyStore "h"], ∃ r, m.db.get x.1 = .ok r ∧
      (Principal.machine "host").canAccess r.acl .read = true ∧ key.versionHash = r.versionHash := by
  intro x
  have hx : x ∈ (loop ⟨["a"], [], 0⟩ ([(oneKeyStore "h", ["a"])].map
      fun r => (serverClient r.1 "host", r.2))).keyFiles := by
    rw [show (loop ⟨["a"], [], 0⟩ ([(oneKeyStore "h", ["a"])].map
      fun r => (serverClient r.1 "host", r.2))).keyFiles = [x] from rfl]
    exact List.mem_singleton_self _
  rcases loop_caches_readable "host" ⟨["a"], [], 0⟩ [(oneKeyStore "h", ["a"])] x hx with h | h
  · cases h
  · exact ⟨hx, h⟩

/-- **The daemon against the running server.** Against any store the server reaches,
after a cycle that returns no error and in which no `processKey` fails, every file is
named by a registered id, and every registered id the store holds has a file that
decodes to a key with the stored hash. -/
theorem update_converges_reachable [Sha256] {c : AESGCMCryptor}
    (isValidPrincipal : PrincipalType → String → Except GoError Unit)
    (acts : List (Action c)) (hostname : String) (d : Daemon)
    (hnil : (update (serverClient ⟨c, (Server.run isValidPrincipal .init acts).db⟩ hostname) d).2 = none)
    (hcount : (update (serverClient ⟨c, (Server.run isValidPrincipal .init acts).db⟩ hostname) d).1.getKeyErrCount =
      d.getKeyErrCount) :
    (∀ x ∈ (update (serverClient ⟨c, (Server.run isValidPrincipal .init acts).db⟩ hostname) d).1.keyFiles,
      x.1 ∈ d.registered) ∧
    ∀ id ∈ d.registered, ∀ r, (Server.run isValidPrincipal .init acts).db.get id = .ok r →
      ∃ key, (update (serverClient ⟨c, (Server.run isValidPrincipal .init acts).db⟩ hostname) d).1.keyFiles.file id =
        some (some key) ∧ key.versionHash = r.versionHash :=
  ⟨update_files_registered _ hostname d hcount, fun _ hid r hr =>
    update_file_stored_hash ⟨c, _⟩ hostname d hnil hcount hid hr
      (Server.versionHash_ne_empty_run isValidPrincipal acts r (TempDB.get_eq_ok_mem hr).1)⟩

/-- **The cache of the running server is a fixpoint.** Against any store the server
reaches, after a cycle that returns no error and in which no `processKey` fails, the
next cycle returns no error and changes nothing. -/
theorem update_fixpoint_reachable [Sha256] {c : AESGCMCryptor}
    (isValidPrincipal : PrincipalType → String → Except GoError Unit)
    (acts : List (Action c)) (hostname : String) (d : Daemon)
    (hnil : (update (serverClient ⟨c, (Server.run isValidPrincipal .init acts).db⟩ hostname) d).2 = none)
    (hcount : (update (serverClient ⟨c, (Server.run isValidPrincipal .init acts).db⟩ hostname) d).1.getKeyErrCount =
      d.getKeyErrCount) :
    update (serverClient ⟨c, (Server.run isValidPrincipal .init acts).db⟩ hostname)
        (update (serverClient ⟨c, (Server.run isValidPrincipal .init acts).db⟩ hostname) d).1 =
      ((update (serverClient ⟨c, (Server.run isValidPrincipal .init acts).db⟩ hostname) d).1, none) :=
  update_fixpoint ⟨c, _⟩ hostname d (Server.inv_run isValidPrincipal acts).db.nodup
    (Server.versionHash_ne_empty_run isValidPrincipal acts) hnil hcount

/-- The key `a`, readable by machine `host`, of one Primary version. -/
def hostKey [Sha256] : Key :=
  ⟨"a", [⟨.machine, "host", .read⟩], [⟨1, [], .primary, 0⟩], KeyVersionList.hash [⟨1, [], .primary, 0⟩], ""⟩

/-- After `AddNewKey` of `hostKey`, the daemon of machine `host`, registered for `a`
with no cache file, fetches `a`. -/
theorem update_converges_after_addNewKey :
    letI : Sha256 := Sha256.zero
    let db := (Server.run (fun _ _ => .ok ()) .init
      [(.addNewKey hostKey (fun _ => ⟨[], rfl⟩) 0 : Action AESGCMCryptor.plain)]).db
    let d' := update (serverClient ⟨.plain, db⟩ "host") ⟨["a"], [], 0⟩
    d'.2 = none ∧ d'.1.getKeyErrCount = 0 ∧
    (∀ x ∈ d'.1.keyFiles, x.1 ∈ ["a"]) ∧
    ∀ id ∈ ["a"], ∀ r, db.get id = .ok r →
      ∃ key, d'.1.keyFiles.file id = some (some key) ∧ key.versionHash = r.versionHash := by
  letI : Sha256 := Sha256.zero
  exact ⟨rfl, rfl, update_converges_reachable (fun _ _ => .ok ())
    [(.addNewKey hostKey (fun _ => ⟨[], rfl⟩) 0 : Action AESGCMCryptor.plain)] "host" ⟨["a"], [], 0⟩ rfl rfl⟩

/-- After `AddNewKey` of `hostKey`, the daemon of machine `host` fetches `a`, and its next
cycle changes nothing. -/
theorem update_fixpoint_after_addNewKey :
    letI : Sha256 := Sha256.zero
    let db := (Server.run (fun _ _ => .ok ()) .init
      [(.addNewKey hostKey (fun _ => ⟨[], rfl⟩) 0 : Action AESGCMCryptor.plain)]).db
    let d' := update (serverClient ⟨.plain, db⟩ "host") ⟨["a"], [], 0⟩
    d'.2 = none ∧ d'.1.getKeyErrCount = 0 ∧ update (serverClient ⟨.plain, db⟩ "host") d'.1 = (d'.1, none) := by
  letI : Sha256 := Sha256.zero
  exact ⟨rfl, rfl, update_fixpoint_reachable (fun _ _ => .ok ())
    [(.addNewKey hostKey (fun _ => ⟨[], rfl⟩) 0 : Action AESGCMCryptor.plain)] "host" ⟨["a"], [], 0⟩ rfl rfl⟩

end Daemon

end Knox

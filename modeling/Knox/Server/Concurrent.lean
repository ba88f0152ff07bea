import Knox.Server.Records
import Knox.Server.Routes

/-! The server under concurrent requests.

Requests are served concurrently and `TempDB` takes one lock per method, so the
atomic steps are the store's methods. A request to one of the four key-changing
routes makes two reads and one write: the handler's `GetKey` with its access check
(`serve`), then the manager's own `db.Get` (`start`), then its `db.Update`
(`commit`); `DeleteKey` is a single `db.Remove` (`start`), and `AddNewKey` a
single `db.Add`. The manager can also be called directly (`invoke`), with any
arguments. Between two steps of one request any steps of other requests may run.

The state keeps, besides the store, the calls the handlers have authorized and not
started, and the changes that have read and not yet written. Two ghost histories
make properties of runs statable: every write that committed, in order, as the
manager operation its request made (`log`), and every token stamped; each authorized
call remembers who was checked, at what level and after how many writes, and each
pending change the record it read and the change its call asked for. What one step
can do is said once, by `Effect` (`step_effect`); every invariant below and in
`Optimistic`, `Linearizable` and `Authorized` is a case analysis over it.

* `store_invariant`: every reachable store has distinct ids and only records whose
  skeleton passes `Key.Validate`, whatever the interleaving.
* `stale_commit_accepted`: when the clock repeats a reading, a change computed
  from a record another write has since replaced still commits, and that write is
  lost. `Optimistic` shows that a repeated reading is the only way to lose one, and
  `Linearizable` that without one every run is the sequential run of its log. -/
namespace Knox

/-- What a handler checked before calling the manager (ghost). -/
structure Grant where
  principal : Principal
  level : AccessType
  /-- How many writes had committed when the handler read the key. -/
  since : Nat

/-- A read-modify-write call between its `db.Get` and its `db.Update`. -/
structure Pending (c : AESGCMCryptor) where
  /-- The record its `db.Get` returned (ghost). -/
  read : DBKey
  /-- The record it hands to `db.Update`. -/
  write : DBKey
  /-- How many writes had committed when it read (ghost). -/
  seen : Nat
  grant : Option Grant
  /-- The change its call asked for (ghost). -/
  change : Change c

/-- A request to one of the four key-changing routes, its parameters decoded. -/
inductive Route (c : AESGCMCryptor) where
  | deleteKey (keyID : String)
  | putAccess (keyID : String) (access : Option AccessJSON)
  | postVersion (keyID : String) (data : Option (List UInt8)) (creation : Int)
      (r : Fin 9223372036854775808) (nonce : Nonce c.gcm)
  | putVersions (keyID : String) (versionID : Option UInt64) (status : Option String)

namespace Route

variable {c : AESGCMCryptor}

def keyID : Route c → String
  | .deleteKey keyID | .putAccess keyID _ | .postVersion keyID .. | .putVersions keyID .. => keyID

/-- The level the route's handler checks. -/
def level : Route c → AccessType
  | .deleteKey _ | .putAccess _ _ => .admin
  | .postVersion .. | .putVersions .. => .write

/-- The handler's part before its manager call. -/
def authorize [Sha256] (isValidPrincipal : PrincipalType → String → Except GoError Unit)
    (db : TempDB) (p : Principal) : Route c → Except HttpError (Call c)
  | .deleteKey keyID => KeyManager.deleteKeyAuthorize ⟨c, db⟩ p keyID
  | .putAccess keyID access => KeyManager.putAccessAuthorize ⟨c, db⟩ isValidPrincipal p keyID access
  | .postVersion keyID data creation r nonce =>
    KeyManager.postVersionAuthorize ⟨c, db⟩ p keyID data creation r nonce
  | .putVersions keyID versionID status =>
    KeyManager.putVersionsAuthorize ⟨c, db⟩ p keyID versionID status

/-- An authorized call is about the route's key, which the principal held at the
route's level in the record read. -/
theorem authorize_eq_ok [Sha256] {isValidPrincipal : PrincipalType → String → Except GoError Unit}
    {db : TempDB} {p : Principal} {route : Route c} {call : Call c}
    (h : route.authorize isValidPrincipal db p = .ok call) :
    call.id = route.keyID ∧ ∃ r, db.get route.keyID = .ok r ∧ p.canAccess r.acl route.level = true := by
  cases route with
  | deleteKey keyID =>
    simp only [authorize, KeyManager.deleteKeyAuthorize, bind_eq_ok, pure_eq_ok, Except.ok.injEq] at h
    obtain ⟨key, hk, rfl⟩ := h
    exact ⟨rfl, KeyManager.authorizeKey_eq_ok _ hk⟩
  | putAccess keyID access =>
    cases access with
    | none => simp [authorize, KeyManager.putAccessAuthorize] at h
    | some aj =>
      simp only [authorize, KeyManager.putAccessAuthorize, bind_eq_ok, mapError_eq_ok] at h
      obtain ⟨a, -, key, hk, h⟩ := h
      refine ⟨?_, KeyManager.authorizeKey_eq_ok _ hk⟩
      split at h <;> simp only [bind_eq_ok, pure_eq_ok, Except.ok.injEq] at h
      · obtain ⟨-, -, rfl⟩ := h; rfl
      · obtain ⟨-, -, rfl⟩ := h; rfl
  | postVersion keyID data creation r nonce =>
    cases data with
    | none => simp [authorize, KeyManager.postVersionAuthorize] at h
    | some d =>
      simp only [authorize, KeyManager.postVersionAuthorize, bind_eq_ok, pure_eq_ok,
        Except.ok.injEq] at h
      obtain ⟨key, hk, rfl⟩ := h
      exact ⟨rfl, KeyManager.authorizeKey_eq_ok _ hk⟩
  | putVersions keyID versionID status =>
    cases status with
    | none => simp [authorize, KeyManager.putVersionsAuthorize] at h
    | some st =>
      cases versionID with
      | none =>
        simp only [authorize, KeyManager.putVersionsAuthorize, bind_eq_ok] at h
        obtain ⟨_, -, h⟩ := h
        cases h
      | some vid =>
        simp only [authorize, KeyManager.putVersionsAuthorize, bind_eq_ok, pure_eq_ok,
          Except.ok.injEq] at h
        obtain ⟨_, -, key, hk, rfl⟩ := h
        exact ⟨rfl, KeyManager.authorizeKey_eq_ok _ hk⟩

end Route

/-- The server's state. -/
structure Server (c : AESGCMCryptor) where
  db : TempDB
  /-- Calls handlers have authorized and the manager has not started, with the check made. -/
  calls : List (Call c × Option Grant)
  /-- Read-modify-write calls that have read and not yet written. -/
  pending : List (Pending c)
  /-- Every write that committed, in commit order: the manager operation its request
  made, with the clock reading it stamped (`0` for a `Remove`, which reads none) (ghost). -/
  log : List (Op c × Int)
  /-- Every token a write stamped, in order (ghost). -/
  stamps : List Int

/-- The atomic steps. Arguments drawn at random or read from the clock are the step's. -/
inductive Action (c : AESGCMCryptor) where
  /-- `AddNewKey`: `Validate`, `Encrypt` and one `db.Add`. -/
  | addNewKey (k : Key) (nonces : Nat → Nonce c.gcm) (now : Int)
  /-- A manager call made directly, with any arguments. -/
  | invoke (call : Call c)
  /-- A handler's `GetKey` and checks; the call it makes then waits. -/
  | serve (p : Principal) (route : Route c)
  /-- The manager starts waiting call `i`: `DeleteKey`'s `db.Remove`, or a change's
  `db.Get` and what it computes from the record. -/
  | start (i : Nat)
  /-- Pending change `i` makes its `db.Update`, stamped `now`. -/
  | commit (i : Nat) (now : Int)

namespace Server

variable [Sha256] {c : AESGCMCryptor} (isValidPrincipal : PrincipalType → String → Except GoError Unit)

/-- No key, no request. -/
def init : Server c := ⟨⟨[]⟩, [], [], [], []⟩

/-- The ids of the writes that committed, in commit order. -/
def writes (s : Server c) : List String := s.log.map (·.1.keyID)

omit [Sha256] in
@[simp] theorem length_writes (s : Server c) : s.writes.length = s.log.length := List.length_map _ _

/-- One atomic step. A request that fails leaves the state as it was. -/
def step (s : Server c) : Action c → Server c
  | .addNewKey k nonces now =>
    match (KeyManager.mk c s.db).addNewKey k nonces now with
    | .ok m => { s with db := m.db, log := s.log ++ [(.addNewKey k nonces, now)], stamps := s.stamps ++ [now] }
    | .error _ => s
  | .invoke call => { s with calls := s.calls ++ [(call, none)] }
  | .serve p route =>
    match route.authorize isValidPrincipal s.db p with
    | .ok call => { s with calls := s.calls ++ [(call, some ⟨p, route.level, s.log.length⟩)] }
    | .error _ => s
  | .start i =>
    match s.calls[i]? with
    | none => s
    | some (.deleteKey id, _) =>
      match s.db.remove id with
      | .ok db => { s with db, calls := s.calls.eraseIdx i, log := s.log ++ [(.call (.deleteKey id), 0)] }
      | .error _ => { s with calls := s.calls.eraseIdx i }
    | some (.change id ch, g) =>
      match s.db.get id with
      | .ok r =>
        match ch.apply r with
        | .ok w =>
          { s with calls := s.calls.eraseIdx i, pending := s.pending ++ [⟨r, w, s.log.length, g, ch⟩] }
        | .error _ => { s with calls := s.calls.eraseIdx i }
      | .error _ => { s with calls := s.calls.eraseIdx i }
  | .commit i now =>
    match s.pending[i]? with
    | none => s
    | some e =>
      match s.db.update e.write now with
      | .ok db =>
        { s with db, pending := s.pending.eraseIdx i, log := s.log ++ [(.call (.change e.read.id e.change), now)],
                 stamps := s.stamps ++ [now] }
      | .error _ => { s with pending := s.pending.eraseIdx i }

/-- The state after a run of steps. -/
def run (s : Server c) (acts : List (Action c)) : Server c := acts.foldl (step isValidPrincipal) s

@[simp] theorem run_nil (s : Server c) : run isValidPrincipal s [] = s := rfl

@[simp] theorem run_append (s : Server c) (acts acts' : List (Action c)) :
    run isValidPrincipal s (acts ++ acts') = run isValidPrincipal (run isValidPrincipal s acts) acts' :=
  List.foldl_append _ _ _ _

theorem run_cons (s : Server c) (a : Action c) (acts : List (Action c)) :
    run isValidPrincipal s (a :: acts) = run isValidPrincipal (step isValidPrincipal s a) acts := rfl

/-- Whatever holds initially and is kept by every step holds after every run. -/
theorem run_induction {P : Server c → Prop} (h0 : P init)
    (hstep : ∀ s a, P s → P (step isValidPrincipal s a)) (acts : List (Action c)) :
    P (run isValidPrincipal init acts) := by
  induction acts using List.reverseRecOn with
  | nil => exact h0
  | append_singleton acts a ih => rw [run_append]; exact hstep _ a ih

/-- `AddNewKey` of a valid key whose id is not stored appends its encryption,
versions sorted, stamped `now`. -/
theorem step_addNewKey_of_valid {s : Server c} {k : Key} (hk : k.Valid)
    (hfresh : ∀ r ∈ s.db.keys, r.id ≠ k.id) (nonces : Nat → Nonce c.gcm) (now : Int) :
    step isValidPrincipal s (.addNewKey k nonces now) =
      { s with db := ⟨s.db.keys ++ [{ c.encrypt { k with versionList := k.versionList.sort } nonces with
                                        dbVersion := now }]⟩,
               log := s.log ++ [(.addNewKey k nonces, now)], stamps := s.stamps ++ [now] } := by
  simp only [step, @KeyManager.addNewKey_of_valid _ ⟨c, s.db⟩ k hk hfresh nonces now]

/-- A handler whose checks pass leaves its call waiting, with the check it made. -/
theorem step_serve_of_authorize {s : Server c} {p : Principal} {route : Route c} {call : Call c}
    (h : route.authorize isValidPrincipal s.db p = .ok call) :
    step isValidPrincipal s (.serve p route) =
      { s with calls := s.calls ++ [(call, some ⟨p, route.level, s.log.length⟩)] } := by
  simp only [step, h]

/-! ### What a step can do -/

/-- The effect of one step on the state, with the results of the calls it made. -/
inductive Effect (s : Server c) : Server c → Prop where
  /-- A request refused, or no call or change at the index. -/
  | same : Effect s s
  /-- A call queued: made directly, or with the check of a handler whose checks passed. -/
  | queue (call : Call c) (g : Option Grant)
      (hg : g = none ∨ ∃ (p : Principal) (route : Route c), route.authorize isValidPrincipal s.db p = .ok call ∧
        g = some ⟨p, route.level, s.log.length⟩) :
      Effect s { s with calls := s.calls ++ [(call, g)] }
  /-- A call started and dropped: its `db.Remove`, its `db.Get` or its change failed. -/
  | dropCall (i : Nat) : Effect s { s with calls := s.calls.eraseIdx i }
  /-- A change started: it read its record and computed the record it will write. -/
  | read (i : Nat) (id : String) (ch : Change c) (g : Option Grant) (r w : DBKey)
      (hi : s.calls[i]? = some (.change id ch, g)) (hr : s.db.get id = .ok r) (hw : ch.apply r = .ok w) :
      Effect s { s with calls := s.calls.eraseIdx i, pending := s.pending ++ [⟨r, w, s.log.length, g, ch⟩] }
  /-- `AddNewKey` stored its record. -/
  | add (k : Key) (nonces : Nat → Nonce c.gcm) (now : Int) (m : KeyManager)
      (h : (KeyManager.mk c s.db).addNewKey k nonces now = .ok m) :
      Effect s { s with db := m.db, log := s.log ++ [(.addNewKey k nonces, now)], stamps := s.stamps ++ [now] }
  /-- A delete started and removed its record. -/
  | remove (i : Nat) (id : String) (g : Option Grant) (db' : TempDB)
      (hi : s.calls[i]? = some (.deleteKey id, g)) (h : s.db.remove id = .ok db') :
      Effect s { s with db := db', calls := s.calls.eraseIdx i, log := s.log ++ [(.call (.deleteKey id), 0)] }
  /-- A change committed its record. -/
  | commit (i : Nat) (e : Pending c) (now : Int) (db' : TempDB)
      (hi : s.pending[i]? = some e) (h : s.db.update e.write now = .ok db') :
      Effect s { s with db := db', pending := s.pending.eraseIdx i,
                        log := s.log ++ [(.call (.change e.read.id e.change), now)], stamps := s.stamps ++ [now] }
  /-- A change whose `db.Update` failed, dropped. -/
  | dropPending (i : Nat) : Effect s { s with pending := s.pending.eraseIdx i }

/-- Every step has one of the effects of `Effect`. -/
theorem step_effect (s : Server c) (a : Action c) : Effect isValidPrincipal s (step isValidPrincipal s a) := by
  cases a with
  | addNewKey k nonces now =>
    simp only [step]
    split
    · exact .add k nonces now _ ‹_›
    · exact .same
  | invoke call => exact .queue call none (.inl rfl)
  | serve p route =>
    simp only [step]
    split
    · exact .queue _ _ (.inr ⟨p, route, ‹_›, rfl⟩)
    · exact .same
  | start i =>
    simp only [step]
    split
    · exact .same
    · split
      · exact .remove i _ _ _ ‹_› ‹_›
      · exact .dropCall i
    · split
      · split
        · exact .read i _ _ _ _ _ ‹_› ‹_› ‹_›
        · exact .dropCall i
      · exact .dropCall i
  | commit i now =>
    simp only [step]
    split
    · exact .same
    · split
      · exact .commit i _ now _ ‹_› ‹_›
      · exact .dropPending i

/-! ### The store invariant -/

/-- The store is valid, and so is every record a pending change will write. -/
structure Inv (s : Server c) : Prop where
  db : s.db.Valid
  pending : ∀ e ∈ s.pending, e.write.Valid

theorem inv_init : Inv (init : Server c) :=
  ⟨⟨List.nodup_nil, fun _ h => (by cases h)⟩, fun _ h => (by cases h)⟩

theorem inv_step {s : Server c} (a : Action c) (hs : Inv s) : Inv (step isValidPrincipal s a) := by
  have h := step_effect isValidPrincipal s a
  generalize step isValidPrincipal s a = s' at h ⊢
  cases h with
  | same => exact hs
  | queue | dropCall => exact ⟨hs.db, hs.pending⟩
  | read i id ch g r w hi hr hw =>
    refine ⟨hs.db, fun e he => ?_⟩
    rcases List.mem_append.mp he with he | he
    · exact hs.pending e he
    · rw [List.mem_singleton.mp he]
      exact Change.valid_apply (hs.db.valid r (TempDB.get_eq_ok_mem hr).1) hw
  | add k nonces now m h => exact ⟨KeyManager.valid_addNewKey hs.db h, hs.pending⟩
  | remove i id g db' hi h => exact ⟨TempDB.valid_remove hs.db h, hs.pending⟩
  | commit i e now db' hi h =>
    exact ⟨TempDB.valid_update hs.db (hs.pending e (List.getElem?_mem hi)) h,
      fun e' h' => hs.pending e' (List.mem_of_mem_eraseIdx h')⟩
  | dropPending i => exact ⟨hs.db, fun e' h' => hs.pending e' (List.mem_of_mem_eraseIdx h')⟩

theorem inv_run (acts : List (Action c)) : Inv (run isValidPrincipal init acts) :=
  run_induction isValidPrincipal inv_init (fun _ a hs => inv_step isValidPrincipal a hs) acts

/-- **The store invariant.** After any interleaving of any requests and manager calls,
the stored ids are distinct and every stored record has a key id of the allowed
characters, an ACL without `None` entries or repeated principals, distinct version
ids, exactly one Primary version, and the hash of its versions' (ID, Status). -/
theorem store_invariant (acts : List (Action c)) :
    let db := (run isValidPrincipal init acts).db
    (db.keys.map (·.id)).Nodup ∧
    ∀ r ∈ db.keys, keyIDMatches r.id = true ∧
      (∀ a ∈ r.acl, a.accessType ≠ .none) ∧ (r.acl.map Access.principal).Nodup ∧
      (r.statuses.map (·.id)).Nodup ∧ r.statuses.countP (·.status = .primary) = 1 ∧
      r.versionHash = r.statuses.hash := by
  have h := (inv_run isValidPrincipal acts).db
  exact ⟨h.nodup, fun r hr => by
    obtain ⟨hid, ⟨hn, hd⟩, ⟨hv, hp⟩, hh⟩ := h.valid r hr
    exact ⟨hid, hn, hd, hv, hp, hh⟩⟩

/-- No reachable store holds a record whose hash is `""`: a hash is 64 hex digits. -/
theorem versionHash_ne_empty_run (acts : List (Action c)) :
    ∀ r ∈ (run isValidPrincipal init acts).db.keys, r.versionHash ≠ "" := fun r hr => by
  show r.skeleton.versionHash ≠ ""
  rw [((inv_run isValidPrincipal acts).db.valid r hr).hash]
  exact KeyVersionList.hash_ne_empty _

/-! ### Two interleavings -/

/-- The key both runs below start from: id `k`, one Primary version, the given ACL. -/
def sharedKey (acl : ACL) : Key :=
  ⟨"k", acl, [⟨1, [], .primary, 0⟩], KeyVersionList.hash [⟨1, [], .primary, 0⟩], ""⟩

theorem sharedKey_sort (acl : ACL) :
    { sharedKey acl with versionList := (sharedKey acl).versionList.sort } = sharedKey acl := rfl

theorem sharedKey_valid {acl : ACL} (h : acl.Valid) : (sharedKey acl).Valid :=
  ⟨rfl, h, ⟨List.nodup_singleton _, rfl⟩, rfl⟩

/-- The record `AddNewKey` stores for `sharedKey acl`, and what it decrypts to. -/
theorem decrypt_sharedKey (acl acl' : ACL) (nonces : Nat → Nonce c.gcm) (t : Int) :
    c.decrypt { c.encrypt (sharedKey acl) nonces with acl := acl', dbVersion := t } =
      .ok (sharedKey acl') :=
  @AESGCMCryptor.decrypt_of_versionList_eq c (c.encrypt (sharedKey acl) nonces)
    { c.encrypt (sharedKey acl) nonces with acl := acl', dbVersion := t } _ rfl rfl
    (c.decrypt_encrypt (sharedKey acl) nonces)

/-- Two `UpdateAccess` calls on `k`, granting bob and carol Read, both read the key
added at time 5; bob's commits at time `t`, and carol's is pending. -/
theorem run_two_reads (nonces : Nat → Nonce c.gcm) (t : Int) :
    run isValidPrincipal init
      [.addNewKey (sharedKey [⟨.user, "alice", .admin⟩]) nonces 5,
       .invoke (.change "k" (.updateAccess ⟨.user, "bob", .read⟩)),
       .invoke (.change "k" (.updateAccess ⟨.user, "carol", .read⟩)),
       .start 0, .start 0, .commit 0 t] =
      let r0 : DBKey := { c.encrypt (sharedKey [⟨.user, "alice", .admin⟩]) nonces with dbVersion := 5 }
      ⟨⟨[{ r0 with acl := [⟨.user, "alice", .admin⟩, ⟨.user, "bob", .read⟩], dbVersion := t }]⟩, [],
        [⟨r0, { r0 with acl := [⟨.user, "alice", .admin⟩, ⟨.user, "carol", .read⟩] }, 1, none,
          .updateAccess ⟨.user, "carol", .read⟩⟩],
        [(.addNewKey (sharedKey [⟨.user, "alice", .admin⟩]) nonces, 5),
         (.call (.change "k" (.updateAccess ⟨.user, "bob", .read⟩)), t)], [5, t]⟩ := by
  let r0 : DBKey := { c.encrypt (sharedKey [⟨.user, "alice", .admin⟩]) nonces with dbVersion := 5 }
  let cBob : Call c := .change "k" (.updateAccess ⟨.user, "bob", .read⟩)
  let cCarol : Call c := .change "k" (.updateAccess ⟨.user, "carol", .read⟩)
  let eBob : Pending c :=
    ⟨r0, { r0 with acl := [⟨.user, "alice", .admin⟩, ⟨.user, "bob", .read⟩] }, 1, none,
      .updateAccess ⟨.user, "bob", .read⟩⟩
  let eCarol : Pending c :=
    ⟨r0, { r0 with acl := [⟨.user, "alice", .admin⟩, ⟨.user, "carol", .read⟩] }, 1, none,
      .updateAccess ⟨.user, "carol", .read⟩⟩
  let log : List (Op c × Int) := [(.addNewKey (sharedKey [⟨.user, "alice", .admin⟩]) nonces, 5)]
  have h1 : step isValidPrincipal init (.addNewKey (sharedKey [⟨.user, "alice", .admin⟩]) nonces 5) =
      (⟨⟨[r0]⟩, [], [], log, [5]⟩ : Server c) := by
    rw [step_addNewKey_of_valid _ (sharedKey_valid ⟨by decide, by decide⟩) (fun _ h => by cases h),
      sharedKey_sort]
    rfl
  have h2 : step isValidPrincipal (⟨⟨[r0]⟩, [], [], log, [5]⟩ : Server c) (.invoke cBob) =
      ⟨⟨[r0]⟩, [(cBob, none)], [], log, [5]⟩ := rfl
  have h3 : step isValidPrincipal (⟨⟨[r0]⟩, [(cBob, none)], [], log, [5]⟩ : Server c) (.invoke cCarol) =
      ⟨⟨[r0]⟩, [(cBob, none), (cCarol, none)], [], log, [5]⟩ := rfl
  have h4 : step isValidPrincipal (⟨⟨[r0]⟩, [(cBob, none), (cCarol, none)], [], log, [5]⟩ : Server c)
      (.start 0) = ⟨⟨[r0]⟩, [(cCarol, none)], [eBob], log, [5]⟩ := rfl
  have h5 : step isValidPrincipal (⟨⟨[r0]⟩, [(cCarol, none)], [eBob], log, [5]⟩ : Server c) (.start 0) =
      ⟨⟨[r0]⟩, [], [eBob, eCarol], log, [5]⟩ := rfl
  have h6 : step isValidPrincipal (⟨⟨[r0]⟩, [], [eBob, eCarol], log, [5]⟩ : Server c) (.commit 0 t) =
      ⟨⟨[{ eBob.write with dbVersion := t }]⟩, [], [eCarol], log ++ [(.call cBob, t)], [5, t]⟩ := rfl
  rw [run_cons, h1, run_cons, h2, run_cons, h3, run_cons, h4, run_cons, h5, run_cons, h6]
  rfl

/-- **A repeated clock reading loses an update.** A key is added at time 5; two
`UpdateAccess` calls, granting bob and carol Read, both read it; bob's commits at
time 5, the token carol's read. Carol's change then commits although bob's write
came after its read, and bob's grant is gone, which applying the two changes in
commit order keeps. -/
theorem stale_commit_accepted (nonces : Nat → Nonce c.gcm) :
    let s := run isValidPrincipal init
      [.addNewKey (sharedKey [⟨.user, "alice", .admin⟩]) nonces 5,
       .invoke (.change "k" (.updateAccess ⟨.user, "bob", .read⟩)),
       .invoke (.change "k" (.updateAccess ⟨.user, "carol", .read⟩)),
       .start 0, .start 0, .commit 0 5]
    ∃ e db', s.pending = [e] ∧ e.read.id ∈ s.writes.drop e.seen ∧ s.db.update e.write 5 = .ok db' ∧
      db'.keys.map (·.acl) = [[⟨.user, "alice", .admin⟩, ⟨.user, "carol", .read⟩]] ∧
      ACL.add (ACL.add [⟨.user, "alice", .admin⟩] ⟨.user, "bob", .read⟩) ⟨.user, "carol", .read⟩ =
        [⟨.user, "alice", .admin⟩, ⟨.user, "bob", .read⟩, ⟨.user, "carol", .read⟩] := by
  let r0 : DBKey := { c.encrypt (sharedKey [⟨.user, "alice", .admin⟩]) nonces with dbVersion := 5 }
  let w : DBKey := { r0 with acl := [⟨.user, "alice", .admin⟩, ⟨.user, "carol", .read⟩] }
  dsimp only
  rw [run_two_reads]
  exact ⟨⟨r0, w, 1, none, .updateAccess ⟨.user, "carol", .read⟩⟩, ⟨[{ w with dbVersion := 5 }]⟩, rfl,
    List.mem_singleton_self _, rfl, rfl, rfl⟩

end Server

end Knox

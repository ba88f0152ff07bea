import Knox.Server.Optimistic
import Knox.Server.Refinement

/-! The server under concurrent requests is linearizable when the clock never repeats.

Each write of the server takes effect at one step: `AddNewKey`'s `db.Add`, a delete's
`db.Remove`, a change's `db.Update`, and the server logs it as the manager operation
its request made: the key and nonces of `AddNewKey`, the delete or the change of the
request's own call, with the clock reading it stamped. A run of the server is
linearizable when its store is the store of the sequential run of the manager
(`execAll`) that makes the logged operations, in the order of the steps, every one of
them succeeding. The first two are sequential calls already. A commit is one exactly
when the change read the record that the store still holds, which is what
`commit_eq_change` gives from `ReadInv` when no clock reading repeats.
`stale_commit_accepted` is a run with a repeated reading that no sequential run
explains.

* `run_linearizable`: every interleaving whose writes stamp pairwise different tokens
  ends in the store of the sequential run of the manager that makes, in commit order,
  the call of each request that wrote and each `AddNewKey`, every one succeeding.
  That store refines the plaintext store of the same operations. -/
namespace Knox

section Sequential
variable [Sha256] (c : AESGCMCryptor)

/-- A sequential run of the manager in which every operation succeeds: the store it
ends at, or the first error. -/
def execAll (db : TempDB) : List (Op c × Int) → Except GoError TempDB
  | [] => .ok db
  | (op, now) :: ops => exec c db op now >>= fun db' => execAll db' ops

theorem execAll_append_singleton (db : TempDB) (op : Op c) (now : Int) :
    ∀ ops : List (Op c × Int),
      execAll c db (ops ++ [(op, now)]) = execAll c db ops >>= fun db' => exec c db' op now := by
  intro ops
  induction ops generalizing db with
  | nil =>
    show (exec c db op now >>= fun db' => Except.ok db') = exec c db op now
    cases exec c db op now <;> rfl
  | cons x ops ih =>
    show (exec c db x.1 x.2 >>= fun db' => execAll c db' (ops ++ [(op, now)])) =
      ((exec c db x.1 x.2 >>= fun db' => execAll c db' ops) >>= fun db' => exec c db' op now)
    cases exec c db x.1 x.2 with
    | error e => rfl
    | ok db1 => exact ih db1

/-- A run whose operations all succeed is what `execRun` computes. -/
theorem execRun_of_execAll {db db' : TempDB} :
    ∀ {ops : List (Op c × Int)}, execAll c db ops = .ok db' → execRun c db ops = db'
  | [], h => Except.ok.inj h
  | (op, now) :: ops, h => by
    obtain ⟨db1, h1, h⟩ := bind_eq_ok.mp h
    rw [execRun, h1]
    exact execRun_of_execAll h

end Sequential

namespace Server

variable [Sha256] {c : AESGCMCryptor} (isValidPrincipal : PrincipalType → String → Except GoError Unit)

/-- The store is that of the sequential run of the manager that makes the logged
operations, each at its clock reading, every one succeeding. -/
def Linearized (s : Server c) : Prop := execAll c ⟨[]⟩ s.log = .ok s.db

theorem linearized_init : Linearized (init : Server c) := rfl

/-- A write that the manager makes as operation `op` at `now`, logged as such, extends
the sequential run. -/
theorem Linearized.write {s : Server c} (h : Linearized s) {op : Op c} {now : Int} {db' : TempDB}
    (hop : exec c s.db op now = .ok db') (calls' : List (Call c × Option Grant)) (pending' : List (Pending c))
    (stamps' : List Int) : Linearized ⟨db', calls', pending', s.log ++ [(op, now)], stamps'⟩ := by
  show execAll c ⟨[]⟩ (s.log ++ [(op, now)]) = .ok db'
  rw [execAll_append_singleton, h, ok_bind, hop]

/-- A step keeps the store linearized when the state meets the read invariant. -/
theorem linearized_step {s : Server c} (a : Action c) (hs : ReadInv s) (h : Linearized s) :
    Linearized (step isValidPrincipal s a) := by
  have he := step_effect isValidPrincipal s a
  generalize step isValidPrincipal s a = s' at he ⊢
  cases he with
  | same | queue | dropCall | read | dropPending => exact h
  | add k nonces now m hm => exact h.write (by rw [exec, hm]; rfl) _ _ _
  | remove i id g db' hi hdb => exact h.write (by rw [exec_deleteKey, hdb]) _ _ _
  | commit i e now db' hi hdb =>
    obtain ⟨-, -, -, hch⟩ := commit_eq_change hs (List.getElem?_mem hi) hdb
    exact h.write (by rw [exec, KeyManager.call, hch]; rfl) _ _ _

/-- **The server is linearizable when the clock never repeats.** After any interleaving
of requests and manager calls whose writes stamp pairwise different tokens, the store
is the store of the sequential run of the manager that makes the logged operations
(each `AddNewKey` with its key and nonces, and the call of each request that wrote,
at the clock reading its write stamped, in commit order), every one succeeding; and
it refines the plaintext store of that sequential run. -/
theorem run_linearizable (acts : List (Action c)) (hfresh : (run isValidPrincipal init acts).stamps.Nodup) :
    execAll c ⟨[]⟩ (run isValidPrincipal init acts).log = .ok (run isValidPrincipal init acts).db ∧
      Refines c (run isValidPrincipal init acts).db (PlainStore.empty.run (run isValidPrincipal init acts).log) := by
  have hlin : Linearized (run isValidPrincipal init acts) :=
    fresh_run_induction isValidPrincipal linearized_init (fun _ a _ hr h => linearized_step isValidPrincipal a hr h)
      acts hfresh
  exact ⟨hlin, execRun_of_execAll c hlin ▸ refines_run refines_empty _⟩

omit [Sha256] in
/-- The run of `run_two_reads`, with the clock reading 5 and then 6, is linearizable. -/
theorem linearizable_after_two_reads :
    letI : Sha256 := Sha256.zero
    let s := run (fun _ _ => .ok ()) (init : Server AESGCMCryptor.plain)
      [.addNewKey (sharedKey [⟨.user, "alice", .admin⟩]) (fun _ => ⟨[], rfl⟩) 5,
       .invoke (.change "k" (.updateAccess ⟨.user, "bob", .read⟩)),
       .invoke (.change "k" (.updateAccess ⟨.user, "carol", .read⟩)),
       .start 0, .start 0, .commit 0 6]
    s.stamps.Nodup ∧ execAll AESGCMCryptor.plain ⟨[]⟩ s.log = .ok s.db ∧
      Refines AESGCMCryptor.plain s.db (PlainStore.empty.run s.log) := by
  letI : Sha256 := Sha256.zero
  have h : (run (fun _ _ => .ok ()) (init : Server AESGCMCryptor.plain)
      [.addNewKey (sharedKey [⟨.user, "alice", .admin⟩]) (fun _ => ⟨[], rfl⟩) 5,
       .invoke (.change "k" (.updateAccess ⟨.user, "bob", .read⟩)),
       .invoke (.change "k" (.updateAccess ⟨.user, "carol", .read⟩)),
       .start 0, .start 0, .commit 0 6]).stamps.Nodup := by
    rw [run_two_reads]
    decide
  exact ⟨h, run_linearizable _ _ h⟩

end Server

end Knox

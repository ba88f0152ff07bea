import Knox.Server.Concurrent
import Knox.Server.Refinement

/-! What `GetKey` returns from any reachable store.

Every record a run of the server stores, and every record a pending change will
write, decrypts under the server's cryptor (`DecryptInv`): `AddNewKey` stores an
encryption, a change writes back a record that decrypts (`apply_corresponds`), and
the token a write stamps is not part of what is decrypted. With the store
invariant, the key a stored record decrypts to has exactly one Primary version, so
`GetKey` never dereferences the `nil` of `GetPrimary`.

* `getKey_filters_status`: after any interleaving, `GetKey` of a stored id succeeds at
  every filter and returns the stored versions, decrypted and in order, whose status
  is at most the filter's in the order Primary < Active < Inactive; at Primary that
  is exactly one version. -/
namespace Knox

namespace Server

variable [Sha256] {c : AESGCMCryptor} (isValidPrincipal : PrincipalType → String → Except GoError Unit)

/-- Every stored record, and every record a pending change will write, decrypts. -/
structure DecryptInv (s : Server c) : Prop where
  db : ∀ r ∈ s.db.keys, ∃ k, Decrypts c r k
  pending : ∀ e ∈ s.pending, ∃ k, Decrypts c e.write k

omit [Sha256] in
theorem decryptInv_init : DecryptInv (init : Server c) :=
  ⟨fun _ h => (by cases h), fun _ h => (by cases h)⟩

omit [Sha256] in
/-- The token a write stamps is not decrypted. -/
theorem decrypts_dbVersion {r : DBKey} {k : Key} (h : Decrypts c r k) (n : Int) :
    Decrypts c { r with dbVersion := n } k := by
  rw [Decrypts, c.decrypt_dbVersion]
  exact h

theorem decryptInv_step {s : Server c} (a : Action c) (hd : DecryptInv s) :
    DecryptInv (step isValidPrincipal s a) := by
  have h := step_effect isValidPrincipal s a
  generalize step isValidPrincipal s a = s' at h ⊢
  cases h with
  | same => exact hd
  | queue | dropCall => exact ⟨hd.db, hd.pending⟩
  | read i id ch g r w hi hr hw =>
    refine ⟨hd.db, fun e he => ?_⟩
    rcases List.mem_append.mp he with he | he
    · exact hd.pending e he
    · rw [List.mem_singleton.mp he]
      obtain ⟨k, hk⟩ := hd.db r (TempDB.get_eq_ok_mem hr).1
      rcases (apply_corresponds hk ch).cases with ⟨_, he, -⟩ | ⟨w', k', hw', -, -, -, hdec⟩
      · rw [hw] at he
        cases he
      · rw [hw] at hw'
        cases hw'
        exact ⟨k', hdec⟩
  | add k nonces now m h =>
    obtain ⟨-, hadd, -⟩ := KeyManager.addNewKey_eq_ok h
    refine ⟨fun r hr => ?_, hd.pending⟩
    rcases TempDB.mem_add_singleton hadd hr with rfl | hr
    · exact ⟨_, decrypts_dbVersion (c.decrypt_encrypt _ nonces) now⟩
    · exact hd.db r hr
  | remove i id g db' hi h => exact ⟨fun r hr => hd.db r ((TempDB.sublist_remove h).subset hr), hd.pending⟩
  | commit i e now db' hi h =>
    refine ⟨fun r hr => ?_, fun e' he' => hd.pending e' (List.mem_of_mem_eraseIdx he')⟩
    rcases TempDB.mem_update h hr with rfl | hr
    · obtain ⟨k, hk⟩ := hd.pending e (List.getElem?_mem hi)
      exact ⟨k, decrypts_dbVersion hk now⟩
    · exact hd.db r hr
  | dropPending i => exact ⟨hd.db, fun e' h' => hd.pending e' (List.mem_of_mem_eraseIdx h')⟩

theorem decryptInv_run (acts : List (Action c)) : DecryptInv (run isValidPrincipal init acts) :=
  run_induction isValidPrincipal decryptInv_init (fun _ a hd => decryptInv_step isValidPrincipal a hd) acts

/-- **`GetKey` filters by status.** After any interleaving of requests and manager
calls, `GetKey` of a stored record's id succeeds at every filter, returning the key the
record decrypts to with the versions whose status is at most the filter's, in stored
order; at the Primary filter that is exactly one version. -/
theorem getKey_filters_status (acts : List (Action c)) :
    let db := (run isValidPrincipal init acts).db
    ∀ r ∈ db.keys, ∃ k, c.decrypt r = .ok k ∧
      (k.versionList.filter (·.status.toNat ≤ VersionStatus.primary.toNat)).length = 1 ∧
      ∀ s, (KeyManager.mk c db).getKey r.id s =
        .ok { k with versionList := k.versionList.filter (·.status.toNat ≤ s.toNat) } := by
  intro db r hr
  have hdb := (inv_run isValidPrincipal acts).db
  obtain ⟨k, hk⟩ := (decryptInv_run isValidPrincipal acts).db r hr
  have hp := ((DBKey.valid_iff_of_decrypt hk).mp (hdb.valid r hr)).versionList.one_primary
  obtain ⟨p, -, hf⟩ := KeyVersionList.getPrimary_of_countP hp
  exact ⟨_, hk, by rw [hf]; rfl, KeyManager.getKey_of_decrypt _ (TempDB.get_of_mem hdb.nodup hr) hk hp⟩

omit [Sha256] in
/-- After `AddNewKey` of a key with one Primary version, its record is read at every filter. -/
theorem getKey_after_addNewKey :
    letI : Sha256 := Sha256.zero
    let db := (run (fun _ _ => .ok ()) (init : Server AESGCMCryptor.plain)
      [.addNewKey (sharedKey [⟨.user, "alice", .admin⟩]) (fun _ => ⟨[], rfl⟩) 5]).db
    ∃ r ∈ db.keys, ∃ k, AESGCMCryptor.plain.decrypt r = .ok k ∧
      (k.versionList.filter (·.status.toNat ≤ VersionStatus.primary.toNat)).length = 1 ∧
      ∀ s, (KeyManager.mk AESGCMCryptor.plain db).getKey r.id s =
        .ok { k with versionList := k.versionList.filter (·.status.toNat ≤ s.toNat) } := by
  letI : Sha256 := Sha256.zero
  intro db
  have hdb : db.keys = [{ AESGCMCryptor.plain.encrypt (sharedKey [⟨.user, "alice", .admin⟩]) (fun _ => ⟨[], rfl⟩) with
      dbVersion := 5 }] := by
    simp only [db, run_cons, run_nil]
    rw [step_addNewKey_of_valid _ (sharedKey_valid ⟨by decide, by decide⟩) (fun _ h => by cases h), sharedKey_sort]
    rfl
  obtain ⟨r, hr⟩ : ∃ r, r ∈ db.keys := ⟨_, by rw [hdb]; exact List.mem_singleton_self _⟩
  exact ⟨r, hr, getKey_filters_status _ _ r hr⟩

end Server

end Knox

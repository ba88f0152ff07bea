import Knox.Versions

/-! What the version hash depends on.

`Less` is the lexicographic order on (status, id) (`less_iff_rank_lt`), so
`sort.Sort` is a sort in the usual sense and sorting twice changes nothing
(`sort_sort`). The buffer reads only the id and status of each version
(`hashBuffer_map_idStatus`), so two lists that agree on those have one hash, and
sorting a list leaves its hash alone (`hash_sort`).

The buffer is eight bytes per version whatever the status, and the bytes of an
Inactive version are left zero. An Active version whose id is `0` writes eight
zero bytes too, so `[Primary 5, Active 0]` and `[Primary 5, Inactive 7]`, both
valid, give SHA-256 one buffer (`hashBuffer_active_zero_collision`): their hashes
agree although their Active ids do not. -/
namespace Knox

namespace KeyVersion

/-- The position of a version in the order `Less` sorts by. -/
def rank (v : KeyVersion) : Nat := v.status.toNat * UInt64.size + v.id.toNat

theorem status_eq_of_toNat_eq {s t : VersionStatus} (h : s.toNat = t.toNat) : s = t := by
  cases s <;> cases t <;> first | rfl | cases h

theorem less_iff_rank_lt (a b : KeyVersion) : a.less b = true ↔ a.rank < b.rank := by
  have ha := a.id.toNat_lt_size
  have hb := b.id.toNat_lt_size
  unfold less rank
  simp only [UInt64.size] at ha hb ⊢
  by_cases hs : a.status = b.status
  · simp only [hs, if_true, decide_eq_true_eq]
    exact ⟨fun h => Nat.add_lt_add_left h _, fun h => Nat.lt_of_add_lt_add_left h⟩
  · have hn : a.status.toNat ≠ b.status.toNat := fun h => hs (status_eq_of_toNat_eq h)
    simp only [hs, if_false, decide_eq_true_eq]
    omega

theorem sortedBefore_iff (a b : KeyVersion) : sortedBefore a b ↔ a.rank ≤ b.rank := by
  rw [sortedBefore, ← Bool.not_eq_true, less_iff_rank_lt, Nat.not_lt]

theorem sortedBefore_total (a b : KeyVersion) : sortedBefore a b ∨ sortedBefore b a := by
  simp only [sortedBefore_iff]
  omega

theorem sortedBefore_trans {a b c : KeyVersion} :
    sortedBefore a b → sortedBefore b c → sortedBefore a c := by
  simp only [sortedBefore_iff]
  omega

instance : IsTotal KeyVersion sortedBefore := ⟨sortedBefore_total⟩

instance : IsTrans KeyVersion sortedBefore := ⟨fun _ _ _ => sortedBefore_trans⟩

theorem sortedBefore_idStatus (a b : KeyVersion) :
    sortedBefore a b ↔ sortedBefore a.idStatus b.idStatus := Iff.rfl

end KeyVersion

namespace KeyVersionList

open KeyVersion

theorem length_sort (kvl : KeyVersionList) : kvl.sort.length = kvl.length :=
  (List.perm_insertionSort _ kvl).length_eq

theorem sort_sort (kvl : KeyVersionList) : kvl.sort.sort = kvl.sort :=
  (List.sorted_insertionSort sortedBefore kvl).insertionSort_eq

theorem sort_map_idStatus (kvl : KeyVersionList) :
    sort (kvl.map idStatus) = kvl.sort.map idStatus :=
  (List.map_insertionSort _ _ idStatus kvl fun a _ b _ => sortedBefore_idStatus a b).symm

theorem idBytes_map_idStatus (kvl : KeyVersionList) : idBytes (kvl.map idStatus) = idBytes kvl := by
  induction kvl with
  | nil => rfl
  | cons v rest ih => simp only [List.map_cons, idBytes, ih]; rfl

/-- The buffer reads only ids and statuses. -/
theorem hashBuffer_map_idStatus (kvl : KeyVersionList) :
    hashBuffer (kvl.map idStatus) = kvl.hashBuffer := by
  simp only [hashBuffer, sort_map_idStatus, idBytes_map_idStatus, List.length_map]

theorem hash_map_idStatus [Sha256] (kvl : KeyVersionList) : hash (kvl.map idStatus) = kvl.hash := by
  rw [hash, hashBuffer_map_idStatus, hash]

theorem hash_sort [Sha256] (kvl : KeyVersionList) : kvl.sort.hash = kvl.hash := by
  simp only [hash, hashBuffer, sort_sort, length_sort]

/-- **The zero padding collides with an Active id `0`**, whatever SHA-256 is: two
valid lists with the same Primary and different Active ids hash alike. -/
theorem hashBuffer_active_zero_collision [Sha256] :
    KeyVersionList.Valid [⟨5, [], .primary, 0⟩, ⟨0, [], .active, 0⟩] ∧
    KeyVersionList.Valid [⟨5, [], .primary, 0⟩, ⟨7, [], .inactive, 0⟩] ∧
    KeyVersionList.hashBuffer [⟨5, [], .primary, 0⟩, ⟨0, [], .active, 0⟩] =
      KeyVersionList.hashBuffer [⟨5, [], .primary, 0⟩, ⟨7, [], .inactive, 0⟩] ∧
    KeyVersionList.hash [⟨5, [], .primary, 0⟩, ⟨0, [], .active, 0⟩] =
      KeyVersionList.hash [⟨5, [], .primary, 0⟩, ⟨7, [], .inactive, 0⟩] ∧
    (KeyVersionList.getActive [⟨5, [], .primary, 0⟩, ⟨0, [], .active, 0⟩]).map (·.id) = [5, 0] ∧
    (KeyVersionList.getActive [⟨5, [], .primary, 0⟩, ⟨7, [], .inactive, 0⟩]).map (·.id) = [5] := by
  have hb : KeyVersionList.hashBuffer [⟨5, [], .primary, 0⟩, ⟨0, [], .active, 0⟩] =
      KeyVersionList.hashBuffer [⟨5, [], .primary, 0⟩, ⟨7, [], .inactive, 0⟩] := by decide
  exact ⟨⟨by decide, by decide⟩, ⟨by decide, by decide⟩, hb, by simp only [hash, hb], rfl, rfl⟩

theorem length_leBytes : ∀ k n, (leBytes k n).length = k
  | 0, _ => rfl
  | k + 1, n => by simp [leBytes, length_leBytes k]

theorem length_idBytes (kvl : KeyVersionList) :
    (idBytes kvl).length = 8 * kvl.countP (·.status ≠ .inactive) := by
  induction kvl with
  | nil => rfl
  | cons v rest ih =>
    by_cases hv : v.status = .inactive <;> simp [idBytes, putUint64, length_leBytes, hv, ih]
    omega

/-- The buffer is the ids `Hash` writes followed by eight zero bytes per Inactive version. -/
theorem hashBuffer_eq (kvl : KeyVersionList) :
    kvl.hashBuffer = idBytes kvl.sort ++ List.replicate (8 * kvl.countP (·.status = .inactive)) 0 := by
  have hp := (List.perm_insertionSort sortedBefore kvl).countP_eq fun v => decide (v.status ≠ .inactive)
  have hsplit := List.length_eq_countP_add_countP (fun v : KeyVersion => decide (v.status = .inactive)) kvl
  simp only [decide_not, decide_eq_true_eq] at hp hsplit
  simp only [hashBuffer, length_idBytes, sort, hp, decide_not]
  congr 2
  omega

/-- **The hash pads for Inactive versions.** For every list, `Hash` is the hex encoding
of SHA-256 of the ids of its non-Inactive versions, sorted, followed by eight zero
bytes for each Inactive version. So adding an Inactive version to `[Primary 1]`
changes the bytes hashed. -/
theorem hash_pads_inactive [Sha256] :
    (∀ kvl : KeyVersionList, kvl.hash =
      hexEncodeToString (Sha256.sum256 (idBytes kvl.sort ++ List.replicate (8 * kvl.countP (·.status = .inactive)) 0))) ∧
    hashBuffer [⟨1, [], .primary, 0⟩] = putUint64 1 ∧
    hashBuffer [⟨1, [], .primary, 0⟩, ⟨2, [], .inactive, 0⟩] = putUint64 1 ++ List.replicate 8 0 :=
  ⟨fun kvl => by rw [hash, hashBuffer_eq], by decide, by decide⟩

end KeyVersionList

end Knox

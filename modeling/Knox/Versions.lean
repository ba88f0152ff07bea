import Knox.Types
import Mathlib.Data.List.Sort

/-! Key versions, the version list and the key.

`KeyVersionList.hash` is `Hash`: `sort.Sort` by `Less` (status, then id), a
zero-filled buffer of eight bytes per version, the little-endian ids of the
non-Inactive versions written over its start, SHA-256 of the whole buffer,
hex-encoded. SHA-256 is the one primitive left abstract (`Sha256`), with the
only fact the code relies on: the digest is 32 bytes.

`Hash` sorts its receiver in place, and a `KeyVersionList` shares its backing
array with the `Key` it came from; `hash` is the pure value and callers that
observe the reordering (`keyManager.AddNewKey`) apply `sort` themselves.

`sort.Sort` is not stable; `sort` is insertion sort by the same order. The two
agree on every list whose ids are distinct, the only lists whose order the
manager stores, and `Hash` reads only the ids and statuses of the sorted list,
which are the same for every sorting of any list. -/
namespace Knox

structure KeyVersion where
  id : UInt64
  data : List UInt8
  status : VersionStatus
  creationTime : Int
  deriving DecidableEq, Repr

abbrev KeyVersionList := List KeyVersion

/-- The (ID, Status) projection: data and creation time cleared. -/
def KeyVersion.idStatus (v : KeyVersion) : KeyVersion := ⟨v.id, [], v.status, 0⟩

/-- `KeyVersionList.Less(i, j)` on the two elements. -/
def KeyVersion.less (a b : KeyVersion) : Bool :=
  if a.status = b.status then a.id < b.id else a.status.toNat < b.status.toNat

/-- The order `sort.Sort` leaves: no version is `Less` than one before it. -/
def KeyVersion.sortedBefore (a b : KeyVersion) : Prop := b.less a = false

instance : DecidableRel KeyVersion.sortedBefore :=
  fun a b => inferInstanceAs (Decidable (b.less a = false))

namespace KeyVersionList

/-- `sort.Sort(kvl)`. -/
def sort (kvl : KeyVersionList) : KeyVersionList :=
  kvl.insertionSort KeyVersion.sortedBefore

/-- `KeyVersionList.Validate`: a repeated id is reported first, then a Primary count
other than one. -/
def validate (kvl : KeyVersionList) : Except GoError Unit :=
  if ¬(kvl.map (·.id)).Nodup then .error .sameVersionID
  else if kvl.countP (·.status = .primary) ≠ 1 then .error .mulitplePrimary
  else .ok ()

/-- A version list that passes `Validate`. -/
structure Valid (kvl : KeyVersionList) : Prop where
  nodup : (kvl.map (·.id)).Nodup
  one_primary : kvl.countP (·.status = .primary) = 1

theorem validate_eq_ok_iff (kvl : KeyVersionList) : kvl.validate = .ok () ↔ Valid kvl := by
  unfold validate
  split
  · exact ⟨fun h => (by cases h), fun h => absurd h.nodup ‹_›⟩
  · split
    · exact ⟨fun h => (by cases h), fun h => absurd h.one_primary ‹_›⟩
    · exact ⟨fun _ => ⟨by simpa using ‹¬¬_›, by simpa using ‹¬_ ≠ 1›⟩, fun _ => rfl⟩

/-- `GetActive`: the Primary and Active versions, in order. -/
def getActive (kvl : KeyVersionList) : KeyVersionList :=
  kvl.filter fun k => k.status = .active ∨ k.status = .primary

/-- `GetPrimary`: the first Primary version, `nil` without one. -/
def getPrimary (kvl : KeyVersionList) : Option KeyVersion :=
  kvl.find? (·.status = .primary)

/-! The filters of `GetKey`, as a bound on the status in the order Primary < Active < Inactive. -/

theorem filter_le_inactive (kvl : KeyVersionList) :
    kvl.filter (·.status.toNat ≤ VersionStatus.inactive.toNat) = kvl :=
  List.filter_eq_self.mpr fun v _ => by cases v.status <;> decide

theorem getActive_eq_filter (kvl : KeyVersionList) :
    kvl.getActive = kvl.filter (·.status.toNat ≤ VersionStatus.active.toNat) :=
  List.filter_congr fun v _ => by cases v.status <;> rfl

/-- With exactly one Primary version, `GetPrimary` finds it, and it is the one version
of status at most Primary. -/
theorem getPrimary_of_countP {kvl : KeyVersionList} (h : kvl.countP (·.status = .primary) = 1) :
    ∃ p, kvl.getPrimary = some p ∧ kvl.filter (·.status.toNat ≤ VersionStatus.primary.toNat) = [p] := by
  have hf : kvl.filter (·.status.toNat ≤ VersionStatus.primary.toNat) = kvl.filter (·.status = .primary) :=
    List.filter_congr fun v _ => by cases v.status <;> rfl
  rw [List.countP_eq_length_filter] at h
  obtain ⟨p, hp⟩ := List.length_eq_one.mp h
  refine ⟨p, ?_, hf.trans hp⟩
  rw [getPrimary, ← List.filter_head?, hp]
  rfl

/-! ### `Update` -/

/-- `kvl[i].Status = s` for the first `i` with id `versionID`. -/
def setStatus (versionID : UInt64) (s : VersionStatus) : KeyVersionList → KeyVersionList
  | [] => []
  | v :: rest =>
    if v.id = versionID then { v with status := s } :: rest else v :: setStatus versionID s rest

/-- The inner loop of a promotion: every Primary version becomes Active. -/
def demotePrimary (kvl : KeyVersionList) : KeyVersionList :=
  kvl.map fun v => if v.status = .primary then { v with status := .active } else v

/-- `KeyVersionList.Update`: the first version with the id decides; Active → Primary
demotes the old Primary, Active → Inactive and Inactive → Active touch it alone. -/
def update (kvl : KeyVersionList) (versionID : UInt64) (s : VersionStatus) :
    Except GoError KeyVersionList :=
  match kvl.find? (·.id = versionID) with
  | none => .error .keyVersionNotFound
  | some v =>
    match s with
    | .primary =>
      if v.status ≠ .active then .error .inactiveToPrimary
      else .ok (setStatus versionID .primary (demotePrimary kvl))
    | .active =>
      if v.status ≠ .inactive then .error .primaryToActive
      else .ok (setStatus versionID .active kvl)
    | .inactive =>
      if v.status ≠ .active then .error .primaryToInactive
      else .ok (setStatus versionID .inactive kvl)

/-! ### `Hash` -/

/-- The `k` low bytes of `n`, least significant first. -/
def leBytes : Nat → Nat → List UInt8
  | 0, _ => []
  | k + 1, n => UInt8.ofNat n :: leBytes k (n / 256)

/-- `binary.LittleEndian.PutUint64`. -/
def putUint64 (v : UInt64) : List UInt8 := leBytes 8 v.toNat

/-- What `Hash`'s loop writes from offset zero: the id of each non-Inactive
version, in list order. -/
def idBytes : KeyVersionList → List UInt8
  | [] => []
  | kv :: rest => (if kv.status ≠ .inactive then putUint64 kv.id else []) ++ idBytes rest

/-- The buffer `Hash` gives SHA-256: `make([]byte, 8*len(kvl))` with the ids of
the sorted list written over its start and the rest left zero. -/
def hashBuffer (kvl : KeyVersionList) : List UInt8 :=
  let written := idBytes kvl.sort
  written ++ List.replicate (8 * kvl.length - written.length) 0

end KeyVersionList

/-- `crypto/sha256.Sum256`. -/
class Sha256 where
  sum256 : List UInt8 → List UInt8
  length_sum256 : ∀ b, (sum256 b).length = 32

/-- A stand-in digest for runs on fixed inputs, where a statement proved for every
`Sha256` is read at one: every buffer gets 32 zero bytes. -/
def Sha256.zero : Sha256 := ⟨fun _ => List.replicate 32 0, fun _ => List.length_replicate _ _⟩

/-- A lowercase hexadecimal digit. -/
def hexDigit (n : Nat) : Char := if n < 10 then Char.ofNat (48 + n) else Char.ofNat (87 + n)

/-- `hex.EncodeToString`. -/
def hexEncodeToString (b : List UInt8) : String :=
  ⟨b.flatMap fun x => [hexDigit (x.toNat / 16), hexDigit (x.toNat % 16)]⟩

theorem length_hexEncodeToString (b : List UInt8) : (hexEncodeToString b).length = 2 * b.length := by
  induction b with
  | nil => rfl
  | cons x b ih =>
    simp only [hexEncodeToString, String.length] at ih ⊢
    simp [List.flatMap_cons, ih]
    omega

/-- `KeyVersionList.Hash`. -/
def KeyVersionList.hash [Sha256] (kvl : KeyVersionList) : String :=
  hexEncodeToString (Sha256.sum256 kvl.hashBuffer)

/-- A version hash is 64 hex digits, never the empty string. -/
theorem KeyVersionList.hash_ne_empty [Sha256] (kvl : KeyVersionList) : kvl.hash ≠ "" := by
  intro h
  have := congrArg String.length h
  rw [hash, length_hexEncodeToString, Sha256.length_sum256] at this
  cases this

/-! ### Keys -/

structure Key where
  id : String
  acl : ACL
  versionList : KeyVersionList
  versionHash : String
  path : String
  deriving DecidableEq, Repr

/-- `regexp.MustCompile("^[a-zA-Z0-9_:]+$").MatchString(id)`: one or more characters,
each an ASCII letter or digit, `_` or `:`. -/
def keyIDMatches (id : String) : Bool :=
  !id.data.isEmpty && id.data.all fun c => c.isAlphanum || c = '_' || c = ':'

/-- `Key.Validate`: the id, the ACL, the version list and the hash, in that order. -/
def Key.validate [Sha256] (k : Key) : Except GoError Unit := do
  if !keyIDMatches k.id then throw .invalidKeyID
  k.acl.validate
  k.versionList.validate
  if k.versionHash ≠ k.versionList.hash then throw .invalidVersionHash

/-- A key that passes `Validate`. -/
structure Key.Valid [Sha256] (k : Key) : Prop where
  id : keyIDMatches k.id = true
  acl : ACL.Valid k.acl
  versionList : KeyVersionList.Valid k.versionList
  hash : k.versionHash = k.versionList.hash

theorem Key.validate_eq_ok_iff [Sha256] (k : Key) : k.validate = .ok () ↔ k.Valid := by
  have hv : k.Valid ↔ keyIDMatches k.id = true ∧ k.acl.validate = .ok () ∧
      k.versionList.validate = .ok () ∧ k.versionHash = k.versionList.hash := by
    rw [ACL.validate_eq_ok_iff, KeyVersionList.validate_eq_ok_iff]
    exact ⟨fun h => ⟨h.1, h.2, h.3, h.4⟩, fun h => ⟨h.1, h.2.1, h.2.2.1, h.2.2.2⟩⟩
  rw [hv]
  unfold validate
  cases keyIDMatches k.id <;> cases k.acl.validate <;> cases k.versionList.validate <;>
    by_cases hh : k.versionHash = k.versionList.hash <;> simp [hh]

end Knox

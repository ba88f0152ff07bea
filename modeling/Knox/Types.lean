import Mathlib.Data.List.Nodup

/-! The basic types of the `knox` package: statuses, principals, access grants and ACLs.

Go's enums are `int`s. `VersionStatus` and `AccessType` only ever hold their
declared values (their `UnmarshalJSON` rejects anything else and their zero values
are `Primary` and `None`), so they are inductives here. `PrincipalType` is kept as
the integer it is: its `UnmarshalJSON` turns an unknown name into `Unknown = -1`
without an error, and a JSON object without a `"type"` field leaves the zero
value `0`, which no constant of the package names.

`ACL.validate` and `ACL.add` follow the loops of `ACL.Validate` and `ACL.Add`;
`validate_eq_ok_iff` says what passing `Validate` means. What `Add` does is said by
two lemmas over the entries of `a`'s principal and those of all the others
(`filter_add_eq`, `filter_add_ne`), each following `add`'s recursion.

* `add_updates_entry`: on an ACL that passes `Validate`, `Add` is the update of one
  entry of a finite map from principals to grants, and the result passes `Validate`. -/
namespace Knox

/-- The sentinel errors of `knox` and `keydb`, and the failures of the library
calls the modelled code makes. -/
inductive GoError where
  | aclDuplicateEntries
  | aclContainsNone
  | invalidKeyID
  | invalidVersionHash
  | inactiveToPrimary
  | primaryToActive
  | primaryToInactive
  | mulitplePrimary
  | sameVersionID
  | invalidStatus
  | keyVersionNotFound
  | keyIDNotFound
  | keyExists
  | dbVersion
  | cryptorVersion
  /-- `invalidTypeError{badType}` from a JSON decoder. -/
  | invalidType (badType : String)
  /-- `fmt.Errorf("Error decrypting key: %s", err.Error())`. -/
  | decryptingKey (cause : GoError)
  /-- `gcm.Open`: "cipher: message authentication failed". -/
  | messageAuthenticationFailed
  /-- A runtime panic: an index past the end of a slice. -/
  | indexOutOfRange
  /-- A runtime panic: a `nil` pointer dereferenced. -/
  | nilPointerDereference
  /-- A panic in `gcm.Open`: "crypto/cipher: incorrect nonce length given to GCM". -/
  | incorrectNonceLength
  /-- A runtime panic: a slice expression whose bound is past the end. -/
  | sliceBoundsOutOfRange
  /-- Reading a file that does not exist (`os.IsNotExist`). -/
  | notExist
  /-- An error made by `fmt.Errorf`, by its message. -/
  | errorf (msg : String)
  deriving DecidableEq, Repr

/-! ### The `Except` monad the model is written in -/

section Except
variable {ε α β : Type}

@[simp] theorem error_bind (e : ε) (f : α → Except ε β) : (Except.error e >>= f) = .error e := rfl

@[simp] theorem ok_bind (a : α) (f : α → Except ε β) : (Except.ok a >>= f) = f a := rfl

@[simp] theorem throw_eq_error (e : ε) : (throw e : Except ε α) = .error e := rfl

@[simp] theorem pure_eq_ok (a : α) : (pure a : Except ε α) = .ok a := rfl

theorem bind_eq_ok {x : Except ε α} {f : α → Except ε β} {b : β} :
    (x >>= f) = .ok b ↔ ∃ a, x = .ok a ∧ f a = .ok b := by
  cases x <;> simp

@[simp] theorem mapError_ok {ε' : Type} (f : ε → ε') (a : α) :
    (Except.ok a : Except ε α).mapError f = .ok a := rfl

@[simp] theorem mapError_error {ε' : Type} (f : ε → ε') (e : ε) :
    (Except.error e : Except ε α).mapError f = .error (f e) := rfl

@[simp] theorem mapError_eq_ok {ε' : Type} {f : ε → ε'} {x : Except ε α} {a : α} :
    x.mapError f = .ok a ↔ x = .ok a := by
  cases x <;> simp [Except.mapError]

theorem mapM_cons_eq_ok {f : α → Except ε β} {a : α} {l : List α} {bs : List β} :
    (a :: l).mapM f = .ok bs ↔ ∃ b bs', f a = .ok b ∧ l.mapM f = .ok bs' ∧ bs = b :: bs' := by
  simp only [List.mapM_cons, bind_eq_ok, pure_eq_ok, Except.ok.injEq]
  exact ⟨fun ⟨b, hb, bs', hbs, h⟩ => ⟨b, bs', hb, hbs, h.symm⟩,
    fun ⟨b, bs', hb, hbs, h⟩ => ⟨b, hb, bs', hbs, h.symm⟩⟩

/-- A mapping that succeeds sends each element to an element of the result. -/
theorem mapM_eq_ok_left {f : α → Except ε β} :
    ∀ {l : List α} {bs : List β}, l.mapM f = .ok bs → ∀ a ∈ l, ∃ b ∈ bs, f a = .ok b
  | [], _, _, _, ha => by cases ha
  | a' :: l, bs, h, a, ha => by
    obtain ⟨b, bs', hb, hbs, rfl⟩ := mapM_cons_eq_ok.mp h
    rcases List.mem_cons.mp ha with rfl | ha
    · exact ⟨b, List.mem_cons_self _ _, hb⟩
    · obtain ⟨b'', hb'', hf⟩ := mapM_eq_ok_left hbs a ha
      exact ⟨b'', List.mem_cons_of_mem _ hb'', hf⟩

/-- Each element of a successful mapping's result is the image of an element. -/
theorem mapM_eq_ok_right {f : α → Except ε β} :
    ∀ {l : List α} {bs : List β}, l.mapM f = .ok bs → ∀ b ∈ bs, ∃ a ∈ l, f a = .ok b
  | [], bs, h, b, hb => by cases (Except.ok.inj h).symm ▸ hb
  | a :: l, bs, h, b, hb => by
    obtain ⟨b', bs', hb', hbs, rfl⟩ := mapM_cons_eq_ok.mp h
    rcases List.mem_cons.mp hb with rfl | hb
    · exact ⟨a, List.mem_cons_self _ _, hb'⟩
    · obtain ⟨a', ha', hf⟩ := mapM_eq_ok_right hbs b hb
      exact ⟨a', List.mem_cons_of_mem _ ha', hf⟩

/-- A mapping succeeds when it succeeds on every element. -/
theorem mapM_eq_ok_of_forall {f : α → Except ε β} :
    ∀ {l : List α}, (∀ a ∈ l, ∃ b, f a = .ok b) → ∃ bs, l.mapM f = .ok bs
  | [], _ => ⟨[], rfl⟩
  | a :: l, h => by
    obtain ⟨b, hb⟩ := h a (List.mem_cons_self _ _)
    obtain ⟨bs, hbs⟩ := mapM_eq_ok_of_forall fun a' ha' => h a' (List.mem_cons_of_mem _ ha')
    exact ⟨b :: bs, mapM_cons_eq_ok.mpr ⟨b, bs, hb, hbs, rfl⟩⟩

end Except

/-! ### Corresponding results of two computations -/

/-- Two failures with the same error, or two successes related by `R`. -/
def Corresponds {ε α β : Type} (R : α → β → Prop) : Except ε α → Except ε β → Prop
  | .ok a, .ok b => R a b
  | .error e, .error e' => e = e'
  | _, _ => False

namespace Corresponds

variable {ε α β γ δ : Type} {R : α → β → Prop} {x : Except ε α} {y : Except ε β}

theorem cases (h : Corresponds R x y) :
    (∃ e, x = .error e ∧ y = .error e) ∨ ∃ a b, x = .ok a ∧ y = .ok b ∧ R a b := by
  cases x <;> cases y
  · exact .inl ⟨_, rfl, congrArg _ h.symm⟩
  · exact h.elim
  · exact h.elim
  · exact .inr ⟨_, _, rfl, rfl, h⟩

theorem bind {S : γ → δ → Prop} {f : α → Except ε γ} {g : β → Except ε δ}
    (h : Corresponds R x y) (hfg : ∀ a b, R a b → Corresponds S (f a) (g b)) :
    Corresponds S (x >>= f) (y >>= g) := by
  rcases h.cases with ⟨e, rfl, rfl⟩ | ⟨a, b, rfl, rfl, hab⟩
  · rfl
  · exact hfg a b hab

end Corresponds

/-! ### Enums -/

/-- `VersionStatus`: `Primary = 0`, `Active = 1`, `Inactive = 2`. -/
inductive VersionStatus where
  | primary
  | active
  | inactive
  deriving DecidableEq, Repr

/-- The value of the `iota` constant. -/
def VersionStatus.toNat : VersionStatus → Nat
  | .primary => 0
  | .active => 1
  | .inactive => 2

/-- `VersionStatus.UnmarshalJSON` on the raw JSON token. -/
def VersionStatus.unmarshalJSON : String → Except GoError VersionStatus
  | "\"Primary\"" => .ok .primary
  | "\"Active\"" => .ok .active
  | "\"Inactive\"" => .ok .inactive
  | _ => .error (.invalidType "VersionStatus")

/-- `type PrincipalType int`. -/
structure PrincipalType where
  val : Int
  deriving DecidableEq, Repr

namespace PrincipalType

def unknown : PrincipalType := ⟨-1⟩
def user : PrincipalType := ⟨1⟩
def userGroup : PrincipalType := ⟨2⟩
def machine : PrincipalType := ⟨3⟩
def machinePrefix : PrincipalType := ⟨4⟩
def service : PrincipalType := ⟨5⟩

/-- `PrincipalType.UnmarshalJSON` never fails: an unknown name becomes `Unknown`. -/
def unmarshalJSON : String → PrincipalType
  | "\"User\"" => user
  | "\"UserGroup\"" => userGroup
  | "\"Machine\"" => machine
  | "\"MachinePrefix\"" => machinePrefix
  | "\"Service\"" => service
  | _ => unknown

/-- The types `MarshalJSON` can write; `Unknown` and every undeclared value fail. -/
def declared (t : PrincipalType) : Prop :=
  t = user ∨ t = userGroup ∨ t = machine ∨ t = machinePrefix ∨ t = service

instance (t : PrincipalType) : Decidable t.declared := by unfold declared; infer_instance

end PrincipalType

/-- `AccessType`: `None < Read < Write < Admin`. -/
inductive AccessType where
  | none
  | read
  | write
  | admin
  deriving DecidableEq, Repr

namespace AccessType

def toNat : AccessType → Nat
  | .none => 0
  | .read => 1
  | .write => 2
  | .admin => 3

/-- `s.CanAccess(resource)` is `s >= resource`. -/
def canAccess (s resource : AccessType) : Bool := resource.toNat ≤ s.toNat

/-- `AccessType.UnmarshalJSON` on the raw JSON token. -/
def unmarshalJSON : String → Except GoError AccessType
  | "\"Read\"" => .ok .read
  | "\"Write\"" => .ok .write
  | "\"Admin\"" => .ok .admin
  | "\"None\"" => .ok .none
  | _ => .error (.invalidType "AccessType")

end AccessType

/-! ### Access grants -/

structure Access where
  type : PrincipalType
  id : String
  accessType : AccessType
  deriving DecidableEq, Repr

/-- What `Validate` and `Add` compare entries by: the principal's type and id. -/
structure PrincipalRef where
  type : PrincipalType
  id : String
  deriving DecidableEq

def Access.principal (a : Access) : PrincipalRef := ⟨a.type, a.id⟩

/-- A JSON object decoded into an `Access`: the raw tokens of the fields present. -/
structure AccessJSON where
  type : Option String
  id : Option String
  access : Option String

/-- `json.Unmarshal` into `knox.Access{}`: a missing field keeps the zero value. -/
def AccessJSON.decode (j : AccessJSON) : Except GoError Access := do
  let accessType ← match j.access with
    | some b => AccessType.unmarshalJSON b
    | none => pure .none
  pure { type := (j.type.map PrincipalType.unmarshalJSON).getD ⟨0⟩
         id := j.id.getD ""
         accessType }

abbrev ACL := List Access

namespace ACL

/-- `ACL.Validate`: the first entry, in order, that grants `None` or whose
principal stands at another position as well decides the error. -/
def validate (acl : ACL) : Except GoError Unit :=
  match acl.find? (fun a => a.accessType = .none ∨ 2 ≤ acl.countP (·.principal = a.principal)) with
  | none => .ok ()
  | some a => .error (if a.accessType = .none then .aclContainsNone else .aclDuplicateEntries)

/-- `ACL.Add`: the first entry for the principal is removed (`None`) or replaced;
without one, the access is appended unless it is `None`. -/
def add : ACL → Access → ACL
  | [], a => if a.accessType = .none then [] else [a]
  | b :: rest, a =>
    if b.type = a.type ∧ a.id = b.id then (if a.accessType = .none then rest else a :: rest)
    else b :: add rest a

/-- An ACL that passes `Validate`. -/
structure Valid (acl : ACL) : Prop where
  no_none : ∀ a ∈ acl, a.accessType ≠ .none
  nodup : (acl.map Access.principal).Nodup

theorem countP_principal (acl : ACL) (a : Access) :
    acl.countP (·.principal = a.principal) = (acl.map Access.principal).count a.principal := by
  rw [List.count, List.countP_map]
  exact List.countP_congr fun x _ => by simp

/-- No principal is counted twice exactly when the principals are distinct. -/
theorem countP_lt_two_iff (acl : ACL) :
    (∀ a ∈ acl, acl.countP (·.principal = a.principal) < 2) ↔ (acl.map Access.principal).Nodup := by
  simp only [countP_principal, List.nodup_iff_count_le_one, Nat.lt_succ_iff]
  refine ⟨fun h p => ?_, fun h a _ => h _⟩
  by_cases hp : p ∈ acl.map Access.principal
  · obtain ⟨a, ha, rfl⟩ := List.mem_map.mp hp
    exact h a ha
  · simp [List.count_eq_zero_of_not_mem hp]

theorem validate_eq_ok_iff (acl : ACL) : acl.validate = .ok () ↔ Valid acl := by
  unfold validate
  split
  · rename_i h
    simp only [List.find?_eq_none, decide_eq_true_eq, not_or, not_le] at h
    exact ⟨fun _ => ⟨fun a ha => (h a ha).1, (countP_lt_two_iff acl).mp fun a ha => (h a ha).2⟩,
      fun _ => rfl⟩
  · rename_i a h
    have ha := List.find?_some h
    simp only [decide_eq_true_eq] at ha
    refine ⟨fun h => (by split at h <;> cases h), fun hv => absurd ha ?_⟩
    rintro (hn | hc)
    · exact hv.no_none a (List.mem_of_find?_eq_some h) hn
    · exact absurd ((countP_lt_two_iff acl).mpr hv.nodup a (List.mem_of_find?_eq_some h)) (by omega)

/-! ### `Add` as a finite-map update -/

theorem principal_eq_iff (a b : Access) : b.principal = a.principal ↔ b.type = a.type ∧ a.id = b.id := by
  simp only [Access.principal, PrincipalRef.mk.injEq, eq_comm]

/-- `Add` keeps the entries of every other principal, in their order. -/
theorem filter_add_ne (acl : ACL) (a : Access) :
    (acl.add a).filter (·.principal ≠ a.principal) = acl.filter (·.principal ≠ a.principal) := by
  induction acl with
  | nil => unfold add; split <;> simp
  | cons b rest ih =>
    by_cases hb : b.principal = a.principal
    · rw [add, if_pos ((principal_eq_iff a b).mp hb)]
      split <;> simp [hb]
    · rw [add, if_neg (mt (principal_eq_iff a b).mpr hb)]
      simpa [hb] using ih

/-- The entries `Add` leaves for `a`'s principal: `a` unless it is `None`, then all
but the first of those before. -/
theorem filter_add_eq (acl : ACL) (a : Access) :
    (acl.add a).filter (·.principal = a.principal) =
      (if a.accessType = .none then [] else [a]) ++ (acl.filter (·.principal = a.principal)).tail := by
  induction acl with
  | nil => unfold add; split <;> simp
  | cons b rest ih =>
    by_cases hb : b.principal = a.principal
    · rw [add, if_pos ((principal_eq_iff a b).mp hb)]
      split <;> simp [hb, *]
    · rw [add, if_neg (mt (principal_eq_iff a b).mpr hb)]
      simp [hb, ih]

/-- `Add` of an access other than `None` puts it in the ACL. -/
theorem mem_add_self (acl : ACL) {a : Access} (h : a.accessType ≠ .none) : a ∈ acl.add a := by
  have hf := filter_add_eq acl a
  rw [if_neg h, List.singleton_append] at hf
  exact (List.mem_filter.mp (hf ▸ List.mem_cons_self a _)).1

/-- `Add` keeps every entry of another principal. -/
theorem mem_add_of_ne {acl : ACL} {a x : Access} (hx : x ∈ acl) (h : x.principal ≠ a.principal) :
    x ∈ acl.add a := by
  have hf : x ∈ (acl.add a).filter (·.principal ≠ a.principal) := by
    rw [filter_add_ne]
    exact List.mem_filter.mpr ⟨hx, by simpa using h⟩
  exact (List.mem_filter.mp hf).1

/-- Distinct principals: no principal has two entries. -/
theorem nodup_iff_length_filter_le_one (acl : ACL) :
    (acl.map Access.principal).Nodup ↔ ∀ p, (acl.filter (·.principal = p)).length ≤ 1 := by
  rw [List.nodup_iff_count_le_one]
  refine forall_congr' fun p => ?_
  rw [List.count, List.countP_map, List.countP_eq_length_filter]
  rfl

theorem tail_filter_of_valid {acl : ACL} (hv : Valid acl) (p : PrincipalRef) :
    (acl.filter (·.principal = p)).tail = [] :=
  List.eq_nil_of_length_eq_zero (by
    have := (nodup_iff_length_filter_le_one acl).mp hv.nodup p
    rw [List.length_tail]; omega)

theorem filter_add_of_ne {acl : ACL} {a : Access} {p : PrincipalRef} (h : p ≠ a.principal) :
    (acl.add a).filter (·.principal = p) = acl.filter (·.principal = p) := by
  have hf : ∀ l : ACL, l.filter (·.principal = p) =
      (l.filter (·.principal ≠ a.principal)).filter (·.principal = p) := fun l => by
    rw [List.filter_filter]
    exact List.filter_congr fun x _ => by by_cases hx : x.principal = p <;> simp [hx, h]
  rw [hf, filter_add_ne, ← hf]

/-- The entry of a principal: the first one, as `Add` finds it. -/
def lookup (acl : ACL) (p : PrincipalRef) : Option Access := acl.find? (·.principal = p)

theorem lookup_eq_head? (acl : ACL) (p : PrincipalRef) :
    acl.lookup p = (acl.filter (·.principal = p)).head? := by
  rw [lookup, List.filter_head?]

/-- `None` for a principal without entries changes nothing. -/
theorem add_eq_self {acl : ACL} {a : Access} (h : acl.filter (·.principal = a.principal) = [])
    (hn : a.accessType = .none) : acl.add a = acl := by
  induction acl with
  | nil => rw [add, if_pos hn]
  | cons b rest ih =>
    have hb : ¬ b.principal = a.principal := fun hb => by simp [hb] at h
    rw [add, if_neg (mt (principal_eq_iff a b).mpr hb), ih (by simpa [hb] using h)]

/-- With at most one entry for `a`'s principal, adding `a` twice is adding it once. -/
theorem add_add_self {acl : ACL} {a : Access} (h : (acl.filter (·.principal = a.principal)).length ≤ 1) :
    (acl.add a).add a = acl.add a := by
  induction acl with
  | nil => by_cases hn : a.accessType = .none <;> simp [add, hn]
  | cons b rest ih =>
    by_cases hb : b.principal = a.principal
    · rw [add, if_pos ((principal_eq_iff a b).mp hb)]
      split
      · exact add_eq_self (by simpa [hb] using h) ‹_›
      · rw [add, if_pos ⟨rfl, rfl⟩, if_neg ‹_›]
    · have hne := mt (principal_eq_iff a b).mpr hb
      rw [add, if_neg hne, add, if_neg hne, ih (by simpa [hb] using h)]

section Update
variable {acl : ACL} {a : Access}

theorem valid_add (hv : Valid acl) : Valid (acl.add a) := by
  refine ⟨fun x hx => ?_, (nodup_iff_length_filter_le_one _).mpr fun p => ?_⟩
  · by_cases hp : x.principal = a.principal
    · have hx' : x ∈ (acl.add a).filter (·.principal = a.principal) := List.mem_filter.mpr ⟨hx, by simpa using hp⟩
      rw [filter_add_eq, tail_filter_of_valid hv, List.append_nil] at hx'
      split at hx'
      · simp at hx'
      · rwa [List.mem_singleton.mp hx']
    · have hx' : x ∈ (acl.add a).filter (·.principal ≠ a.principal) := List.mem_filter.mpr ⟨hx, by simpa using hp⟩
      rw [filter_add_ne] at hx'
      exact hv.no_none x (List.mem_filter.mp hx').1
  · by_cases hp : p = a.principal
    · subst hp
      rw [filter_add_eq, tail_filter_of_valid hv]
      split <;> simp
    · rw [filter_add_of_ne hp]
      exact (nodup_iff_length_filter_le_one acl).mp hv.nodup p

theorem lookup_add (hv : Valid acl) (p : PrincipalRef) :
    (acl.add a).lookup p = if p = a.principal then (if a.accessType = .none then none else some a) else acl.lookup p := by
  rw [lookup_eq_head?, lookup_eq_head?]
  split
  · subst p
    rw [filter_add_eq, tail_filter_of_valid hv]
    split <;> rfl
  · rw [filter_add_of_ne ‹_›]

/-- The entries after `Add`: `a` unless it is `None`, and those of every other principal. -/
theorem mem_add_iff (hv : Valid acl) {x : Access} :
    x ∈ acl.add a ↔ (x = a ∧ a.accessType ≠ .none) ∨ (x ∈ acl ∧ x.principal ≠ a.principal) := by
  by_cases hp : x.principal = a.principal
  · have hx : x ∈ acl.add a ↔ x ∈ (acl.add a).filter (·.principal = a.principal) := by simp [hp]
    rw [hx, filter_add_eq, tail_filter_of_valid hv, List.append_nil]
    by_cases hn : a.accessType = .none <;> simp [hn, hp]
  · have hx : x ∈ acl.add a ↔ x ∈ (acl.add a).filter (·.principal ≠ a.principal) := by simp [hp]
    have hxa : x ≠ a := fun h => hp (h ▸ rfl)
    rw [hx, filter_add_ne]
    simp [hp, hxa]

end Update

@[simp] theorem principal_with (a : Access) (t : AccessType) : { a with accessType := t }.principal = a.principal := rfl

/-- **`Add` updates one entry of a finite map.** On an ACL that passes `Validate`, `Add`
gives an ACL that passes it, whose entry for `a`'s principal is `a` (none for `None`)
and whose other entries are those before, in their order. So adding twice is adding
once, and `None` then `R` leaves the one entry `R`. -/
theorem add_updates_entry (acl : ACL) (hv : Valid acl) (a : Access) :
    Valid (acl.add a) ∧
    (∀ p, (acl.add a).lookup p =
      if p = a.principal then (if a.accessType = .none then none else some a) else acl.lookup p) ∧
    (acl.add a).filter (·.principal ≠ a.principal) = acl.filter (·.principal ≠ a.principal) ∧
    (acl.add a).add a = acl.add a ∧
    ∀ r, r ≠ .none →
      ((acl.add { a with accessType := .none }).add { a with accessType := r }).filter
        (·.principal = a.principal) = [{ a with accessType := r }] := by
  have hlen := (nodup_iff_length_filter_le_one acl).mp hv.nodup a.principal
  refine ⟨valid_add hv, lookup_add hv, filter_add_ne acl a, add_add_self hlen, fun r hr => ?_⟩
  have h1 := filter_add_eq acl { a with accessType := .none }
  have h2 := filter_add_eq (acl.add { a with accessType := .none }) { a with accessType := r }
  simp only [principal_with] at h1 h2
  rw [h2, h1, tail_filter_of_valid hv]
  simp [hr]

/-- Bob granted Read on an ACL holding alice's Admin. -/
theorem add_updates_entry_bob_read :
    let acl : ACL := [⟨.user, "alice", .admin⟩]
    let a : Access := ⟨.user, "bob", .read⟩
    Valid acl ∧ Valid (acl.add a) ∧
    (∀ p, (acl.add a).lookup p =
      if p = a.principal then (if a.accessType = .none then none else some a) else acl.lookup p) ∧
    (acl.add a).filter (·.principal ≠ a.principal) = acl.filter (·.principal ≠ a.principal) ∧
    (acl.add a).add a = acl.add a ∧
    ∀ r, r ≠ .none →
      ((acl.add { a with accessType := .none }).add { a with accessType := r }).filter
        (·.principal = a.principal) = [{ a with accessType := r }] := by
  intro acl a
  have hv : Valid acl := (validate_eq_ok_iff acl).mp rfl
  exact ⟨hv, add_updates_entry acl hv a⟩

end ACL

end Knox

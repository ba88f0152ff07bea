import Knox.Types

/-! Principals: users, machines and services, and `CanAccess`.

A principal is granted a level on a key when some entry of the key's ACL names it
with at least that level: a `User` entry by user id or a `UserGroup` entry by a
group the user is in, a `Machine` entry by hostname or a `MachinePrefix` entry by
a prefix of it, a `Service` entry by its SPIFFE id. The loop of each `CanAccess`
returns at the first such entry, which is `List.any` (`canAccess_iff`); entries of
any other type, `Unknown` and the undeclared ones included, name no principal. -/
namespace Knox

/-- The principals of the `auth` package. A user's group set is a list. -/
inductive Principal where
  | user (id : String) (groups : List String)
  | machine (hostname : String)
  | service (domain id : String)
  deriving DecidableEq, Repr

namespace Principal

/-- `GetID`. -/
def getID : Principal → String
  | .user id _ => id
  | .machine hostname => hostname
  | .service domain id => "spiffe://" ++ domain ++ "/" ++ id

/-- `IsUser`. -/
def isUser : Principal → Bool
  | .user _ _ => true
  | _ => false

/-- Whether one ACL entry names the principal, as the `switch` of its `CanAccess` decides. -/
def names : Principal → Access → Bool
  | .user id groups, a =>
    (a.type = .user && a.id = id) || (a.type = .userGroup && groups.contains a.id)
  | .machine hostname, a =>
    (a.type = .machine && a.id = hostname) || (a.type = .machinePrefix && a.id.isPrefixOf hostname)
  | p@(.service _ _), a => a.type = .service && a.id = p.getID

/-- `CanAccess`: some entry names the principal with at least the level asked for. -/
def canAccess (p : Principal) (acl : ACL) (t : AccessType) : Bool :=
  acl.any fun a => p.names a && a.accessType.canAccess t

theorem canAccess_iff {p : Principal} {acl : ACL} {t : AccessType} :
    p.canAccess acl t = true ↔ ∃ a ∈ acl, p.names a = true ∧ a.accessType.canAccess t = true := by
  simp [canAccess]

/-- Which principals an entry names depends on its type and id alone. -/
theorem names_congr {a b : Access} (h : b.principal = a.principal) (p : Principal) :
    p.names b = p.names a := by
  obtain ⟨ht, hi⟩ := (ACL.principal_eq_iff a b).mp h
  cases p <;> simp only [names, ht, hi]

/-- **Access after `Add`.** On an ACL with one entry per principal, a principal holds a
level after `Add` exactly when the new entry grants it (it is not `None` and names the
principal) or an entry of another principal granted it before. -/
theorem canAccess_add {acl : ACL} (hv : acl.Valid) (a : Access) (p : Principal) (t : AccessType) :
    p.canAccess (acl.add a) t = true ↔
      (a.accessType ≠ .none ∧ p.names a = true ∧ a.accessType.canAccess t = true) ∨
      ∃ b ∈ acl, b.principal ≠ a.principal ∧ p.names b = true ∧ b.accessType.canAccess t = true := by
  simp only [canAccess_iff, ACL.mem_add_iff hv]
  constructor
  · rintro ⟨b, ⟨rfl, hn⟩ | ⟨hb, hne⟩, hg⟩
    · exact .inl ⟨hn, hg⟩
    · exact .inr ⟨b, hb, hne, hg⟩
  · rintro (⟨hn, hg⟩ | ⟨b, hb, hne, hg⟩)
    · exact ⟨a, .inl ⟨rfl, hn⟩, hg⟩
    · exact ⟨b, .inr ⟨hb, hne⟩, hg⟩

/-- alice revokes her own entry and still reads through her group. -/
example : (Principal.user "alice" ["eng"]).canAccess
    (ACL.add [⟨.userGroup, "eng", .read⟩, ⟨.user, "alice", .admin⟩] ⟨.user, "alice", .none⟩) .read = true := by
  decide

/-- `Add` leaves the access of every principal its entry does not name. -/
theorem canAccess_add_of_names_eq_false {acl : ACL} (hv : acl.Valid) {a : Access} {p : Principal}
    (hp : p.names a = false) (t : AccessType) : p.canAccess (acl.add a) t = p.canAccess acl t := by
  refine Bool.eq_iff_iff.mpr ((canAccess_add hv a p t).trans ?_)
  simp only [hp, Bool.false_eq_true, false_and, and_false, false_or, canAccess_iff]
  refine ⟨fun ⟨b, hb, _, hg⟩ => ⟨b, hb, hg⟩, fun ⟨b, hb, hn, hc⟩ => ⟨b, hb, fun he => ?_, hn, hc⟩⟩
  simp [names_congr he, hp] at hn

end Principal

end Knox

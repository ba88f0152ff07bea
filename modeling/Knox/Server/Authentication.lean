import Knox.Server.Routes

/-! The authentication decorator, `Authentication`.

The `Authorization` header is a version byte, a type byte and a token. Each
provider advertises its `(version, type)` pair; `providerMatch` hands it the rest of
a header of more than two bytes that starts with its pair. `Authentication` tries
every provider in order: a failure overwrites the error to report, the first
success becomes the default principal, and every success is recorded under the
provider's name, a later one replacing an earlier. With no success the request is
refused with `Unauthenticated` and the last error, or `No matching authentication
providers found` when no provider matched.

`Provider.Name` and `knox.NewPrincipalMux` are not among the sources: a provider
carries a name, and the mux is its default principal with the principals by
name. A provider's `Authenticate` is on the request being served, so it is a
function of the token alone here.

* `authentication_eq_spec`: the loop computes what `authenticationSpec` says with
  `List.findSome?`: the default principal is the first provider's that matches and
  succeeds, the one recorded under a name the last such provider's of that name, and
  the error of a refusal the last failure's. -/
namespace Knox

/-- An authentication provider: its name, its scheme selector, and `Authenticate` on the
request being served, an error being its text. -/
structure Provider where
  name : String
  version : UInt8
  type : UInt8
  authenticate : List UInt8 → Except String Principal

/-- `providerMatch`: the token, when the header is longer than two bytes and starts with
the provider's version and type. -/
def providerMatch (provider : Provider) (a : List UInt8) : Option (List UInt8) :=
  if a.length > 2 ∧ a[0]? = some provider.version ∧ a[1]? = some provider.type then some (a.drop 2)
  else none

/-- `knox.NewPrincipalMux`: the default principal, and the principal each provider
name authenticated. -/
structure PrincipalMux where
  default : Principal
  all : String → Option Principal

/-- What the loop of `Authentication` carries. -/
structure AuthLoop where
  defaultPrincipal : Option Principal
  allPrincipals : String → Option Principal
  errReturned : String

/-- One provider of the loop. -/
def authStep (header : List UInt8) (st : AuthLoop) (p : Provider) : AuthLoop :=
  match providerMatch p header with
  | none => st
  | some token =>
    match p.authenticate token with
    | .error e => { st with errReturned := e }
    | .ok principal =>
      { st with
        defaultPrincipal := if st.defaultPrincipal.isNone then some principal else st.defaultPrincipal
        allPrincipals := Function.update st.allPrincipals p.name (some principal) }

/-- `Authentication`: the mux the handler runs with, or the subcode and message written. -/
def authentication (providers : List Provider) (header : List UInt8) :
    Except (ErrorCode × String) PrincipalMux :=
  let st := providers.foldl (authStep header) ⟨none, fun _ => none, "No matching authentication providers found"⟩
  match st.defaultPrincipal with
  | none => .error (.unauthenticated, st.errReturned)
  | some p => .ok ⟨p, st.allPrincipals⟩

/-! ### What the loop computes -/

/-- The principal a provider authenticates for the header, if it matches and succeeds. -/
def authenticated (header : List UInt8) (p : Provider) : Option Principal :=
  (providerMatch p header).bind fun token => (p.authenticate token).toOption

/-- The error of a provider that matches the header and fails. -/
def authFailure (header : List UInt8) (p : Provider) : Option String :=
  (providerMatch p header).bind fun token =>
    match p.authenticate token with
    | .error e => some e
    | .ok _ => none

/-- The decorator as the specification words it: the first success is the default
principal, every provider name records its last success, and with no success the
request is refused with the last failure. -/
def authenticationSpec (providers : List Provider) (header : List UInt8) :
    Except (ErrorCode × String) PrincipalMux :=
  match providers.findSome? (authenticated header) with
  | some p => .ok ⟨p, fun n => (providers.reverse.filter (·.name = n)).findSome? (authenticated header)⟩
  | none =>
    .error (.unauthenticated,
      (providers.reverse.findSome? (authFailure header)).getD "No matching authentication providers found")

/-- A provider matches a header of its two selector bytes and a non-empty token. -/
theorem providerMatch_eq_some {p : Provider} {a token : List UInt8} :
    providerMatch p a = some token ↔ a = p.version :: p.type :: token ∧ token ≠ [] := by
  unfold providerMatch
  match a with
  | [] | [_] | [_, _] => simp
  | v :: t :: b :: rest =>
    by_cases hv : v = p.version <;> by_cases ht : t = p.type <;> simp [hv, ht, eq_comm]
    rintro rfl
    exact List.cons_ne_nil _ _

/-- One provider, as the three accumulators see it. -/
theorem authStep_eq (header : List UInt8) (st : AuthLoop) (p : Provider) :
    authStep header st p =
      { defaultPrincipal := st.defaultPrincipal.or (authenticated header p)
        allPrincipals := match authenticated header p with
          | some x => Function.update st.allPrincipals p.name (some x)
          | none => st.allPrincipals
        errReturned := (authFailure header p).getD st.errReturned } := by
  unfold authStep authenticated authFailure
  cases providerMatch p header with
  | none => simp
  | some token =>
    cases ha : p.authenticate token with
    | error e => simp [ha, Except.toOption]
    | ok x => cases st.defaultPrincipal <;> simp [ha, Except.toOption]

section Loop
variable (header : List UInt8)

theorem defaultPrincipal_foldl :
    ∀ (ps : List Provider) (st : AuthLoop),
      (ps.foldl (authStep header) st).defaultPrincipal = st.defaultPrincipal.or (ps.findSome? (authenticated header))
  | [], st => by simp
  | p :: ps, st => by
    rw [List.foldl_cons, defaultPrincipal_foldl ps, authStep_eq, List.findSome?_cons]
    cases authenticated header p <;> cases st.defaultPrincipal <;> simp

theorem allPrincipals_foldl (n : String) :
    ∀ (ps : List Provider) (st : AuthLoop),
      (ps.foldl (authStep header) st).allPrincipals n =
        ((ps.reverse.filter (·.name = n)).findSome? (authenticated header)).or (st.allPrincipals n)
  | [], st => by simp
  | p :: ps, st => by
    rw [List.foldl_cons, allPrincipals_foldl n ps, authStep_eq, List.reverse_cons, List.filter_append,
      List.findSome?_append, Option.or_assoc]
    congr 1
    by_cases hn : p.name = n
    · subst hn
      cases h : authenticated header p <;> simp [h]
    · cases h : authenticated header p <;> simp [h, hn, Function.update_noteq (Ne.symm hn)]

theorem errReturned_foldl :
    ∀ (ps : List Provider) (st : AuthLoop),
      (ps.foldl (authStep header) st).errReturned =
        (ps.reverse.findSome? (authFailure header)).getD st.errReturned
  | [], st => by simp
  | p :: ps, st => by
    rw [List.foldl_cons, errReturned_foldl ps, authStep_eq, List.reverse_cons, List.findSome?_append]
    cases ps.reverse.findSome? (authFailure header) <;> cases h : authFailure header p <;>
      simp [h, List.findSome?_cons]

end Loop

/-- **`Authentication` meets its specification.** A provider matches exactly a header of
its two selector bytes and a token that is not empty, and receives the token. The loop's
default principal is the first provider's that matches the header and authenticates,
the principal recorded under a name is the last such provider's of that name, and with
no success the request is refused with `Unauthenticated` and the last failure's error,
or `No matching authentication providers found`. -/
theorem authentication_eq_spec (providers : List Provider) (header : List UInt8) :
    (∀ (p : Provider) (token : List UInt8),
      providerMatch p header = some token ↔ header = p.version :: p.type :: token ∧ token ≠ []) ∧
    authentication providers header = authenticationSpec providers header := by
  refine ⟨fun _ _ => providerMatch_eq_some, ?_⟩
  unfold authentication authenticationSpec
  simp only [defaultPrincipal_foldl, errReturned_foldl, Option.none_or]
  cases providers.findSome? (authenticated header) with
  | none => simp
  | some p =>
    simp only [Except.ok.injEq, PrincipalMux.mk.injEq, true_and]
    funext n
    simp [allPrincipals_foldl]

end Knox

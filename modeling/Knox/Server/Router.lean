import Knox.Server.Routes

/-! The router: which handler a request reaches, and with which parameters.

`GetRouter` registers each entry of `routes` with gorilla/mux under its path template
and method. A request goes to the first route whose method is the request's and whose
template matches its path; `parseParams` then reads that route's parameters from the
request into the map the handler gets, and a request that no route matches gets the
`NotFound` handler. A template is split at `/`, and `{name}` matches one segment that is
not empty, as mux's `[^/]+` does. The request arrives parsed, as `net/http` gives it: its
path, its raw query, the values of its query and those of its form, each name with its
first value. Left out: mux's cleaning of a path with `//`, `.` or `..` segments, and its
`405` for a path that matches with another method, which the model answers as not found.

`getAccessHandler` is the one handler of the table not modelled with the others: it reads
the key at the Primary filter and returns its ACL with no authorization.

* `routes_disjoint`: no request matches two routes, so what a request reaches does not
  depend on the order of `routes`. -/
namespace Knox

namespace Router

/-- The segments of a path, between its `/`s. -/
def pathSegments (path : String) : List String := (path.data.splitOn '/').map String.mk

/-- A segment of a path template: text, or `{name}`. -/
inductive Segment where
  | lit (s : String)
  | var (name : String)
  deriving DecidableEq, Repr

/-- The segment a template segment stands for. -/
def Segment.ofString (s : String) : Segment :=
  match s.data with
  | '{' :: rest => if rest.getLast? = some '}' then .var (String.mk rest.dropLast) else .lit s
  | _ => .lit s

/-- A path template, segment by segment. -/
def template (path : String) : List Segment := (pathSegments path).map Segment.ofString

/-- `parameter`: where a route reads each of its parameters. -/
inductive Parameter where
  | url (name : String)
  | rawQuery (name : String)
  | query (name : String)
  | post (name : String)
  deriving DecidableEq, Repr

/-- `route`, its handler named by its `id`. -/
structure Route where
  method : String
  id : String
  path : String
  parameters : List Parameter
  deriving DecidableEq, Repr

/-- `routes`. -/
def routes : List Route :=
  [ ⟨"GET", "getkeys", "/v0/keys/", [.rawQuery "queryString"]⟩,
    ⟨"POST", "postkeys", "/v0/keys/", [.post "id", .post "data", .post "acl"]⟩,
    ⟨"GET", "getkey", "/v0/keys/{keyID}/", [.url "keyID", .query "status"]⟩,
    ⟨"DELETE", "deletekey", "/v0/keys/{keyID}/", [.url "keyID"]⟩,
    ⟨"GET", "getaccess", "/v0/keys/{keyID}/access/", [.url "keyID"]⟩,
    ⟨"PUT", "putaccess", "/v0/keys/{keyID}/access/", [.url "keyID", .post "access"]⟩,
    ⟨"POST", "postversion", "/v0/keys/{keyID}/versions/", [.url "keyID", .post "data"]⟩,
    ⟨"PUT", "putversion", "/v0/keys/{keyID}/versions/{versionID}/",
      [.url "keyID", .url "versionID", .post "status"]⟩ ]

/-- A request, parsed: `URL.Path`, `URL.RawQuery`, `URL.Query()` and `PostForm`, a name
with its first value. -/
structure Request where
  method : String
  path : String
  rawQuery : String
  query : List (String × String)
  postForm : List (String × String)

/-- The values a template's `{name}`s take on a path, `mux.Vars`, if it matches. -/
def matchSegments : List Segment → List String → Option (List (String × String))
  | [], [] => some []
  | .lit s :: t, x :: xs => if s = x then matchSegments t xs else none
  | .var n :: t, x :: xs => if x = "" then none else (matchSegments t xs).map ((n, x) :: ·)
  | _, _ => none

/-- `parameter.get`, with the route's `mux.Vars`. -/
def Parameter.get (vars : List (String × String)) (r : Request) : Parameter → Option String
  | .url n => vars.lookup n
  | .rawQuery _ => some r.rawQuery
  | .query n => r.query.lookup n
  | .post n => r.postForm.lookup n

/-- `parameter.name`. -/
def Parameter.name : Parameter → String
  | .url n | .rawQuery n | .query n | .post n => n

/-- `parseParams`: each parameter the request has, by its name; a later one of the same
name wins. -/
def parseParams (vars : List (String × String)) (r : Request) (ps : List Parameter) :
    List (String × String) :=
  ps.foldl (fun m p => match p.get vars r with | some s => (p.name, s) :: m | none => m) []

/-- The route's `mux.Vars` on the request, when it matches the request. -/
def Route.vars (route : Route) (r : Request) : Option (List (String × String)) :=
  if route.method = r.method then matchSegments (template route.path) (pathSegments r.path) else none

/-- The router: the id of the route a request reaches and its parameters, or `none` for
the `NotFound` handler. -/
def dispatch (r : Request) : Option (String × List (String × String)) :=
  routes.findSome? fun route => (route.vars r).map fun vars => (route.id, parseParams vars r route.parameters)

/-! ### No request matches two routes -/

/-- Whether two templates can match one path: of one length, with no two different texts
at one place and no `{name}` against an empty text. -/
def overlap : List Segment → List Segment → Bool
  | [], [] => true
  | .lit a :: t, .lit b :: u => a = b && overlap t u
  | .lit a :: t, .var _ :: u => a ≠ "" && overlap t u
  | .var _ :: t, .lit b :: u => b ≠ "" && overlap t u
  | .var _ :: t, .var _ :: u => overlap t u
  | _, _ => false

theorem overlap_of_match : ∀ {t u : List Segment} {xs : List String} {v w : List (String × String)},
    matchSegments t xs = some v → matchSegments u xs = some w → overlap t u = true
  | [], [], _, _, _, _, _ => rfl
  | .lit a :: t, .lit b :: u, x :: xs, v, w, hv, hw => by
    simp only [matchSegments] at hv hw
    split_ifs at hv hw with ha hb
    subst ha hb
    simpa [overlap] using overlap_of_match hv hw
  | .lit a :: t, .var _ :: u, x :: xs, v, w, hv, hw => by
    simp only [matchSegments] at hv hw
    split_ifs at hv hw with ha hb
    subst ha
    obtain ⟨w', hw', -⟩ := Option.map_eq_some'.mp hw
    simpa [overlap, hb] using overlap_of_match hv hw'
  | .var _ :: t, .lit b :: u, x :: xs, v, w, hv, hw => by
    simp only [matchSegments] at hv hw
    split_ifs at hv hw with ha hb
    subst hb
    obtain ⟨v', hv', -⟩ := Option.map_eq_some'.mp hv
    simpa [overlap, ha] using overlap_of_match hv' hw
  | .var _ :: t, .var _ :: u, x :: xs, v, w, hv, hw => by
    simp only [matchSegments] at hv hw
    split_ifs at hv hw with ha
    obtain ⟨v', hv', -⟩ := Option.map_eq_some'.mp hv
    obtain ⟨w', hw', -⟩ := Option.map_eq_some'.mp hw
    simpa [overlap] using overlap_of_match hv' hw'
  | [], .lit _ :: _, [], _, _, _, hw => by cases hw
  | [], .var _ :: _, [], _, _, _, hw => by cases hw
  | .lit _ :: _, _, [], _, _, hv, _ => by cases hv
  | .var _ :: _, _, [], _, _, hv, _ => by cases hv
  | [], _, _ :: _, _, _, hv, _ => by cases hv
  | _ :: _, [], _ :: _, _, _, _, hw => by cases hw

/-- Two routes of one method have templates that match no common path. -/
theorem routes_overlap : ∀ ρ₁ ∈ routes, ∀ ρ₂ ∈ routes, ρ₁.method = ρ₂.method →
    overlap (template ρ₁.path) (template ρ₂.path) = true → ρ₁ = ρ₂ := by
  decide

/-- **No request matches two routes.** -/
theorem routes_disjoint (r : Request) : ∀ ρ₁ ∈ routes, ∀ ρ₂ ∈ routes,
    (ρ₁.vars r).isSome → (ρ₂.vars r).isSome → ρ₁ = ρ₂ := by
  intro ρ₁ h₁ ρ₂ h₂ hv₁ hv₂
  obtain ⟨v, hv⟩ := Option.isSome_iff_exists.mp hv₁
  obtain ⟨w, hw⟩ := Option.isSome_iff_exists.mp hv₂
  unfold Route.vars at hv hw
  split_ifs at hv hw with hm₁ hm₂
  exact routes_overlap ρ₁ h₁ ρ₂ h₂ (hm₁.trans hm₂.symm) (overlap_of_match hv hw)

/-- `findSome?` of a function that is `some` at one member of the list and `none` at every
other is its value there. -/
theorem findSome?_eq_of_unique {α β : Type} {f : α → Option β} {a : α} {b : β} :
    ∀ {l : List α}, a ∈ l → f a = some b → (∀ a' ∈ l, (f a').isSome → a' = a) → l.findSome? f = some b
  | x :: l, hmem, hf, huniq => by
    by_cases hx : x = a
    · subst hx
      simp [List.findSome?_cons, hf]
    · have hnone : f x = none := Option.not_isSome_iff_eq_none.mp fun h => hx (huniq x (List.mem_cons_self _ _) h)
      rw [List.findSome?_cons, hnone]
      exact findSome?_eq_of_unique ((List.mem_cons.mp hmem).resolve_left (Ne.symm hx)) hf
        fun a' ha' => huniq a' (List.mem_cons_of_mem _ ha')

/-- A request that a route matches reaches that route. -/
theorem dispatch_eq_of_vars {ρ : Route} {r : Request} {vars : List (String × String)} (hρ : ρ ∈ routes)
    (hv : ρ.vars r = some vars) : dispatch r = some (ρ.id, parseParams vars r ρ.parameters) :=
  findSome?_eq_of_unique hρ (by rw [hv]; rfl) fun ρ' hρ' h =>
    routes_disjoint r ρ' hρ' ρ hρ (by simpa using h) (by rw [hv]; rfl)

end Router

namespace KeyManager

variable [Sha256] (m : KeyManager)

/-- `getAccessHandler`: the ACL of the key read at the Primary filter. No principal is
checked, on purpose: anyone may see who has access to a key. -/
def getAccessHandler (_principal : Principal) (keyID : String) : Except HttpError ACL := do
  let key ← m.getKeyFor keyID .primary
  pure key.acl

end KeyManager

end Knox

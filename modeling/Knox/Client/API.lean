import Knox.Server.Router
import Knox.Versions

/-! The client's calls to the server, as the requests they send, against the router.

Every method of `HTTPClient` that goes to the network sends one request through
`getHTTPData(method, path, body, _)`, to `"https://" + host + path` with the form `body`.
A call is given here by the request the router sees once `net/http` has parsed it: the
path and the raw query around the `?` of `path`, the query's values and the form's, a
name with the one value `d.Set` gave it. What the client encodes with libraries is the
call's text as it goes out: the data in base64 (`EncodeToString`), an ACL or an access in
JSON (`json.Marshal`), and the id map of `GetKeys` as its query (`d.Encode()`).
`UpdateVersion` writes its status with `VersionStatus.MarshalJSON`.

* `apiCall_reaches_route`: for ids that pass `Key.Validate`'s check, every call reaches the
  route written for it, and the handler of that route gets the call's values under the
  names it reads, and nothing else. `NetworkGetKey` sends no `status`, so `getKeyHandler`
  reads at its default, `Active`. -/
namespace Knox

open Router

/-- `VersionStatus.MarshalJSON`: `json.Marshal` of the status's name. -/
def VersionStatus.marshalJSON : VersionStatus → String
  | .primary => "\"Primary\""
  | .active => "\"Active\""
  | .inactive => "\"Inactive\""

/-- `UnmarshalJSON` reads back what `MarshalJSON` writes. -/
theorem VersionStatus.unmarshalJSON_marshalJSON (s : VersionStatus) : unmarshalJSON s.marshalJSON = .ok s := by
  cases s <;> rfl

/-- A request a route of the table matches reaches it. -/
theorem dispatch_eq_of_get {r : Request} {vars : List (String × String)} (i : Fin routes.length)
    (hv : (routes.get i).vars r = some vars) :
    dispatch r = some ((routes.get i).id, parseParams vars r (routes.get i).parameters) :=
  dispatch_eq_of_vars (List.get_mem _ _ _) hv

/-- A call of `HTTPClient` that goes to the network, with its arguments as they go out. -/
inductive APICall where
  | networkGetKey (keyID : String)
  /-- `data` in base64, `acl` in JSON. -/
  | createKey (keyID data acl : String)
  /-- The ids and hashes asked about, and their encoding as a query. -/
  | getKeys (keys : List (String × String)) (encoded : String)
  | deleteKey (keyID : String)
  | getACL (keyID : String)
  /-- `access` in JSON. -/
  | putAccess (keyID access : String)
  /-- `data` in base64. -/
  | addVersion (keyID data : String)
  | updateVersion (keyID versionID : String) (status : VersionStatus)

/-- The request each call sends, as the router sees it. -/
def APICall.request : APICall → Request
  | .networkGetKey k => ⟨"GET", "/v0/keys/" ++ k ++ "/", "", [], []⟩
  | .createKey k data acl => ⟨"POST", "/v0/keys/", "", [], [("id", k), ("data", data), ("acl", acl)]⟩
  | .getKeys keys encoded => ⟨"GET", "/v0/keys/", encoded, keys, []⟩
  | .deleteKey k => ⟨"DELETE", "/v0/keys/" ++ k ++ "/", "", [], []⟩
  | .getACL k => ⟨"GET", "/v0/keys/" ++ k ++ "/access/", "", [], []⟩
  | .putAccess k access => ⟨"PUT", "/v0/keys/" ++ k ++ "/access/", "", [], [("access", access)]⟩
  | .addVersion k data => ⟨"POST", "/v0/keys/" ++ k ++ "/versions/", "", [], [("data", data)]⟩
  | .updateVersion k v s =>
    ⟨"PUT", "/v0/keys/" ++ k ++ "/versions/" ++ v ++ "/", "", [], [("status", s.marshalJSON)]⟩

/-- The strings a call puts into its path. -/
def APICall.pathArgs : APICall → List String
  | .networkGetKey k | .deleteKey k | .getACL k | .putAccess k _ | .addVersion k _ => [k]
  | .updateVersion k v _ => [k, v]
  | .createKey .. | .getKeys .. => []

/-- The route each call is written for, as its handler's comment names it, and the
parameters that handler reads, the last first as `parseParams` adds them. -/
def APICall.served : APICall → String × List (String × String)
  | .networkGetKey k => ("getkey", [("keyID", k)])
  | .createKey k data acl => ("postkeys", [("acl", acl), ("data", data), ("id", k)])
  | .getKeys _ encoded => ("getkeys", [("queryString", encoded)])
  | .deleteKey k => ("deletekey", [("keyID", k)])
  | .getACL k => ("getaccess", [("keyID", k)])
  | .putAccess k access => ("putaccess", [("access", access), ("keyID", k)])
  | .addVersion k data => ("postversion", [("data", data), ("keyID", k)])
  | .updateVersion k v s => ("putversion", [("status", s.marshalJSON), ("versionID", v), ("keyID", k)])

/-! ### Paths -/

/-- An id that passes the key-id check is one segment of a path. -/
theorem segment_of_keyIDMatches {s : String} (h : keyIDMatches s = true) : s ≠ "" ∧ '/' ∉ s.data := by
  simp only [keyIDMatches, Bool.and_eq_true, Bool.not_eq_true', List.isEmpty_eq_false, List.all_eq_true] at h
  refine ⟨fun hs => by simp [hs] at h, fun hs => ?_⟩
  simpa using h.2 '/' hs

/-- The segments of a path made of segments with no `/`. -/
theorem pathSegments_intercalate {segs : List String} (h : ∀ s ∈ segs, '/' ∉ s.data) (hne : segs ≠ []) :
    pathSegments (String.mk (['/'].intercalate (segs.map String.data))) = segs := by
  rw [pathSegments, List.splitOn_intercalate _ _ (by simpa using h) (by simpa using hne), List.map_map]
  exact (List.map_id' segs).symm ▸ rfl

theorem pathSegments_eq_of {p : String} (segs : List String)
    (hp : p = String.mk (['/'].intercalate (segs.map String.data))) (h : ∀ s ∈ segs, '/' ∉ s.data)
    (hne : segs ≠ []) : pathSegments p = segs :=
  hp ▸ pathSegments_intercalate h hne

/-- A template of texts matches exactly those texts. -/
theorem matchSegments_lit (segs : List String) : matchSegments (segs.map .lit) segs = some [] := by
  induction segs with
  | nil => rfl
  | cons s segs ih => simpa [matchSegments] using ih

/-- A call reaches route `i` when the route's method is the call's, its template matches the
call's path, and what `parseParams` collects is what the call means to send. -/
theorem dispatch_eq_served {c : APICall} (i : Fin routes.length) {segs : List String}
    (vars : List (String × String)) (hsegs : pathSegments c.request.path = segs)
    (hvars : (if (routes.get i).method = c.request.method then matchSegments (template (routes.get i).path) segs
      else none) = some vars)
    (hserved : ((routes.get i).id, parseParams vars c.request (routes.get i).parameters) = c.served) :
    dispatch c.request = some c.served := by
  rw [← hserved]
  exact dispatch_eq_of_get i (by rw [Route.vars, hsegs]; exact hvars)

/-- A call on the key `k`, whose path is `/v0/keys/k/` and then the texts `rest`, reaches a
route of its method with the template `/v0/keys/{keyID}/` and then `rest`. -/
theorem dispatch_eq_served_key {c : APICall} (i : Fin routes.length) {k : String} (rest : List String)
    (hk : k ≠ "" ∧ '/' ∉ k.data) (hrest : ∀ s ∈ rest, '/' ∉ s.data)
    (hpath : c.request.path = String.mk (['/'].intercalate ((["", "v0", "keys", k] ++ rest).map String.data)))
    (hmethod : (routes.get i).method = c.request.method)
    (htemplate : template (routes.get i).path = [.lit "", .lit "v0", .lit "keys", .var "keyID"] ++ rest.map .lit)
    (hserved : ((routes.get i).id, parseParams [("keyID", k)] c.request (routes.get i).parameters) = c.served) :
    dispatch c.request = some c.served := by
  refine dispatch_eq_served i _ (pathSegments_eq_of _ hpath ?_ (by simp)) ?_ hserved
  · simpa [hk.2] using hrest
  · rw [if_pos hmethod, htemplate]
    simp [matchSegments, hk.1, matchSegments_lit]

/-- **Every call reaches the route written for it.** For ids that pass the key-id check,
the router sends each call's request to the route of the call, and that route's handler
gets the call's values under the names it reads. -/
theorem apiCall_reaches_route (c : APICall) (hc : ∀ s ∈ c.pathArgs, keyIDMatches s = true) :
    dispatch c.request = some c.served := by
  have hseg : ∀ s ∈ c.pathArgs, s ≠ "" ∧ '/' ∉ s.data := fun s hs => segment_of_keyIDMatches (hc s hs)
  cases c with
  | networkGetKey k =>
    exact dispatch_eq_served_key ⟨2, by decide⟩ [""] (hseg k (by simp [APICall.pathArgs])) (by simp)
      (by simp [APICall.request, String.ext_iff, String.data_append, List.intercalate]) rfl (by decide) rfl
  | createKey k data acl => exact dispatch_eq_served ⟨1, by decide⟩ [] rfl rfl rfl
  | getKeys keys encoded => exact dispatch_eq_served ⟨0, by decide⟩ [] rfl rfl rfl
  | deleteKey k =>
    exact dispatch_eq_served_key ⟨3, by decide⟩ [""] (hseg k (by simp [APICall.pathArgs])) (by simp)
      (by simp [APICall.request, String.ext_iff, String.data_append, List.intercalate]) rfl (by decide) rfl
  | getACL k =>
    exact dispatch_eq_served_key ⟨4, by decide⟩ ["access", ""] (hseg k (by simp [APICall.pathArgs])) (by simp)
      (by simp [APICall.request, String.ext_iff, String.data_append, List.intercalate]) rfl (by decide) rfl
  | putAccess k access =>
    exact dispatch_eq_served_key ⟨5, by decide⟩ ["access", ""] (hseg k (by simp [APICall.pathArgs])) (by simp)
      (by simp [APICall.request, String.ext_iff, String.data_append, List.intercalate]) rfl (by decide) rfl
  | addVersion k data =>
    exact dispatch_eq_served_key ⟨6, by decide⟩ ["versions", ""] (hseg k (by simp [APICall.pathArgs])) (by simp)
      (by simp [APICall.request, String.ext_iff, String.data_append, List.intercalate]) rfl (by decide) rfl
  | updateVersion k v status =>
    obtain ⟨hk0, hks⟩ := hseg k (by simp [APICall.pathArgs])
    obtain ⟨hv0, hvs⟩ := hseg v (by simp [APICall.pathArgs])
    refine dispatch_eq_served ⟨7, by decide⟩ [("keyID", k), ("versionID", v)]
      (pathSegments_eq_of ["", "v0", "keys", k, "versions", v, ""]
      (by simp [APICall.request, String.ext_iff, String.data_append, List.intercalate]) (by simp [hks, hvs])
      (by simp)) ?_ rfl
    show (if "PUT" = "PUT" then matchSegments (template "/v0/keys/{keyID}/versions/{versionID}/") _ else none) = _
    rw [if_pos rfl, show template "/v0/keys/{keyID}/versions/{versionID}/" =
      [.lit "", .lit "v0", .lit "keys", .var "keyID", .lit "versions", .var "versionID", .lit ""] by decide]
    simp [matchSegments, hk0, hv0]

/-- `knox promote k 1` reaches `putVersionsHandler` with the status it wrote. -/
theorem promote_reaches_putversion :
    (∀ s ∈ (APICall.updateVersion "k" "1" .primary).pathArgs, keyIDMatches s = true) ∧
      dispatch (APICall.updateVersion "k" "1" .primary).request =
        some ("putversion", [("status", "\"Primary\""), ("versionID", "1"), ("keyID", "k")]) :=
  ⟨by decide, apiCall_reaches_route _ (by decide)⟩

end Knox

import Knox.Server.Authentication

/-! Serving a request: a route's `ServeHTTP` behind the `Authentication` decorator.

`GetRouter` wraps each route's `ServeHTTP` in the decorators `main` gives it, and
of these only `Authentication` changes what is written: `Logger` logs, and
`AddHeader` sets a header. A request that no provider authenticates is answered by
`writeErr` with `Unauthenticated`. Otherwise `ServeHTTP` runs the route's handler
with the principal mux, then writes its data with `writeData` or its error with
`writeErr`. `writeErr` writes the subcode and that subcode's `HTTPErrMap` message.
The error's own message goes only to the access log (`setAPIError`), so the
`errReturned` of `Authentication` never reaches the client.

* `serveAuthenticated_eq`: a request with no provider that authenticates it is
  refused with `Unauthenticated` and `User or machine is not authenticated`,
  whatever the providers' errors. Any other request is answered with the handler's
  result, for a mux whose default principal is the first provider's that
  authenticates. -/
namespace Knox

/-- `knox.Response`, with the data decoded; `Host` and `Timestamp` are left out. -/
structure Response (α : Type) where
  status : String
  code : ErrorCode
  message : String
  data : Option α

section Write
variable {α : Type}

/-- `writeErr`: status `error`, the subcode, and the subcode's `HTTPErrMap` message. -/
def writeErr (apiErr : HttpError) : Response α :=
  ⟨"error", apiErr.subcode, (httpErrMap apiErr.subcode).2, none⟩

/-- `writeData`: status `ok`, `OKCode`, and the data. -/
def writeData (data : α) : Response α := ⟨"ok", .ok, "", some data⟩

/-- `route.ServeHTTP`, once the handler has run: its error, or its data. -/
def serveHTTP (result : Except HttpError α) : Response α :=
  match result with
  | .error err => writeErr err
  | .ok data => writeData data

/-- A route's `ServeHTTP` behind `Authentication(providers)`, for the request's
`Authorization` header. The message of the `errF` written is `errReturned`, which
`writeErr` does not read. -/
def serveAuthenticated (providers : List Provider) (handler : PrincipalMux → Except HttpError α)
    (header : List UInt8) : Response α :=
  match authentication providers header with
  | .error (code, _) => writeErr (errF code none)
  | .ok mux => serveHTTP (handler mux)

/-- **What a request is answered.** With no provider that authenticates the header, the
request is refused with `Unauthenticated` and its `HTTPErrMap` message, whatever the
providers' errors. Otherwise the handler runs with a mux whose default principal is
the first provider's that authenticates, and its result is written. -/
theorem serveAuthenticated_eq (providers : List Provider) (handler : PrincipalMux → Except HttpError α)
    (header : List UInt8) :
    (providers.findSome? (authenticated header) = none →
      serveAuthenticated providers handler header =
        ⟨"error", .unauthenticated, "User or machine is not authenticated", none⟩) ∧
    ∀ p, providers.findSome? (authenticated header) = some p →
      ∃ all, serveAuthenticated providers handler header = serveHTTP (handler ⟨p, all⟩) := by
  have hdef := defaultPrincipal_foldl header providers ⟨none, fun _ => none, "No matching authentication providers found"⟩
  rw [Option.none_or] at hdef
  unfold serveAuthenticated authentication
  refine ⟨fun h => ?_, fun p h => ?_⟩ <;> simp only [hdef, h]
  · rfl
  · exact ⟨_, rfl⟩

end Write

end Knox

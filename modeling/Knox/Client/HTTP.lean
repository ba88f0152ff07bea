import Knox.Client.Daemon
import Knox.Server.Serve

/-! The HTTP client's request loop, `getHTTPData`.

A call sends its request, decodes the response envelope, and retries only when the
envelope reports `InternalServerError`, at most `maxRetryAttempts = 3` times in
all; a transport or decoding failure, any other error, or the third
`InternalServerError` ends it with its message, and an `ok` envelope ends it with
its data. The outcome of each attempt is an argument (`send i` for attempt `i`);
the sleeps between attempts have no effect here. A call without authentication
data fails before sending anything.

The server's envelope is the one `Knox.Server.Serve` writes: status `ok` and the
data, or status `error`, the subcode and its `HTTPErrMap` message. No message of
`HTTPErrMap` holds a `%`, so the client's `fmt.Errorf` returns it as it is.

* `getHTTPData_serveAuthenticated`: a request end to end, from the client through
  `Authentication` and the route's handler and back, against a server that answers
  every attempt with the same envelope. -/
namespace Knox

/-- What one attempt gives: `cli.Do` fails, the envelope does not decode, or it does. -/
inductive Outcome (α : Type) where
  | transportError (e : String)
  | decodeError (e : String)
  | response (r : Response α)

/-- `maxRetryAttempts`. -/
def maxRetryAttempts : Nat := 3

section Retry
variable {α : Type}

/-- The loop of `getHTTPData` from attempt `i`, with `k` passes of the `for` left. -/
def retry (send : Nat → Outcome α) : Nat → Nat → Except String (Option α)
  | _, 0 => .ok none
  | i, k + 1 =>
    match send i with
    | .transportError e => .error e
    | .decodeError e => .error e
    | .response r =>
      if r.status ≠ "ok" then
        if r.code ≠ .internalServerError ∨ i = maxRetryAttempts then .error r.message
        else retry send (i + 1) k
      else .ok r.data

/-- `getHTTPData`, once the request is built: `auth` is what `AuthHandler` returned. -/
def getHTTPData (auth : String) (send : Nat → Outcome α) : Except String (Option α) :=
  if auth = "" then
    .error "No authentication data given. Use 'knox login' or set KNOX_USER_AUTH or KNOX_MACHINE_AUTH"
  else retry send 1 maxRetryAttempts

/-- An attempt the loop retries: an error envelope with `InternalServerError`. -/
def Outcome.retried : Outcome α → Bool
  | .response r => r.status ≠ "ok" && r.code = .internalServerError
  | _ => false

/-- What a call makes of an attempt it does not retry. -/
def Outcome.final : Outcome α → Except String (Option α)
  | .transportError e => .error e
  | .decodeError e => .error e
  | .response r => if r.status ≠ "ok" then .error r.message else .ok r.data

/-- One pass of the loop: retry an `InternalServerError` unless it is the last attempt,
else end with the attempt's outcome. -/
theorem retry_succ (send : Nat → Outcome α) (i k : Nat) :
    retry send i (k + 1) =
      if (send i).retried ∧ i ≠ maxRetryAttempts then retry send (i + 1) k else (send i).final := by
  conv_lhs => rw [retry]
  cases send i with
  | transportError e => rfl
  | decodeError e => rfl
  | response r =>
    by_cases hs : r.status = "ok"
    · simp [Outcome.retried, Outcome.final, hs]
    · by_cases hc : r.code = .internalServerError <;> by_cases hi : i = maxRetryAttempts <;>
        simp [Outcome.retried, Outcome.final, hs, hc, hi]

/-- Against the same outcome on every attempt, a call returns that outcome. -/
theorem getHTTPData_const {auth : String} (hauth : auth ≠ "") (o : Outcome α) :
    getHTTPData auth (fun _ => o) = o.final := by
  simp only [getHTTPData, hauth, if_false, maxRetryAttempts, retry_succ]
  by_cases h : o.retried <;> simp [h]

end Retry

/-- A `GET` through the retrying client. Against a server that answers every attempt
with the same handler result, an authenticated call returns that result, its error
turned into the `HTTPErrMap` message. -/
theorem getHTTPData_serveHTTP {α : Type} {auth : String} (hauth : auth ≠ "") (h : Except HttpError α) :
    getHTTPData auth (fun _ => .response (serveHTTP h)) = (some <$> h).mapError fun e => (httpErrMap e.subcode).2 := by
  rw [getHTTPData_const hauth]
  cases h with
  | ok d => rfl
  | error e => simp [serveHTTP, writeErr, Outcome.final, Except.mapError]

/-- **A request end to end.** Through the retrying client, a request that no provider
authenticates fails with `User or machine is not authenticated`, whatever the
providers' errors. Any other fails or succeeds as its handler does, run with a mux
whose default principal is the first provider's that authenticates. -/
theorem getHTTPData_serveAuthenticated {α : Type} {auth : String} (hauth : auth ≠ "")
    (providers : List Provider) (handler : PrincipalMux → Except HttpError α) (header : List UInt8) :
    let call := getHTTPData auth (fun _ => .response (serveAuthenticated providers handler header))
    (providers.findSome? (authenticated header) = none → call = .error "User or machine is not authenticated") ∧
    ∀ p, providers.findSome? (authenticated header) = some p →
      ∃ all, call = (some <$> handler ⟨p, all⟩).mapError fun e => (httpErrMap e.subcode).2 := by
  obtain ⟨hnone, hsome⟩ := serveAuthenticated_eq providers handler header
  refine ⟨fun h => ?_, fun p h => ?_⟩
  · rw [getHTTPData_const hauth, hnone h]
    rfl
  · obtain ⟨all, hall⟩ := hsome p h
    exact ⟨all, by rw [hall, getHTTPData_serveHTTP hauth]⟩

/-- A provider that authenticates every token as alice, and a header it does not match:
the client gets the `HTTPErrMap` message. -/
theorem request_with_unmatched_header :
    let providers : List Provider := [⟨"alice", 0, 0, fun _ => .ok (.user "alice" [])⟩]
    getHTTPData "token"
        (fun _ => .response (serveAuthenticated providers (fun _ => (.ok () : Except HttpError Unit)) [1, 2, 3])) =
      .error "User or machine is not authenticated" := by
  intro providers
  exact (getHTTPData_serveAuthenticated (show "token" ≠ "" by decide) providers _ [1, 2, 3]).1 (by decide)

end Knox

import Knox.Server.Auth

/-! The SPIFFE provider's `Authenticate`, once the peer's certificates are verified.

`verifyCertificate` checks the peer's chain and returns its leaf, whose URI SANs
`uri.GetURINamesFromCertificate` lists; the model starts from that list, or from the
error of either call. A URI SAN of a certificate Go's parser accepts is an
`IA5String`, ASCII, so a byte of a Go string is a character here: `s[9:]` drops nine
characters and `len(s)` counts them.

`Authenticate` checks that there is at most one URI, but not that there is one, nor
that it is nine characters long, nor that it starts with `spiffe://`; it splits what
follows the ninth character at its first `/`.

* `spiffeAuthenticate_unchecked`: a leaf without a URI SAN panics at `spiffeURIs[0]`,
  and one whose URI is shorter than nine characters at the slice. A success is a
  single URI `u`, and the service's `GetID()` is `u` exactly when `u` starts with
  `spiffe://`: `https://example.org/a` authenticates as `spiffe://xample.org/a`. -/
namespace Knox

/-- `strings.SplitN(s, "/", 2)`: the text before the first `/` and the rest, or `s` alone. -/
def splitN2 (s : String) : List String :=
  match s.data.dropWhile (· != '/') with
  | [] => [s]
  | _ :: after => [String.mk (s.data.takeWhile (· != '/')), String.mk after]

/-- The two parts `SplitN` returns make up the string again, around the first `/`. -/
theorem splitN2_eq_pair {s a b : String} (h : splitN2 s = [a, b]) : s.data = a.data ++ '/' :: b.data := by
  unfold splitN2 at h
  split at h
  · cases h
  · rename_i c after hd
    simp only [List.cons.injEq, and_true] at h
    obtain ⟨rfl, rfl⟩ := h
    have hc := List.head_dropWhile_not (· != '/') s.data (by rw [hd]; exact List.cons_ne_nil _ _)
    simp only [hd, List.head_cons, bne_eq_false_iff_eq] at hc
    have hs := List.takeWhile_append_dropWhile (· != '/') s.data
    rw [hd, hc] at hs
    exact hs.symm

/-- `SpiffeProvider.Authenticate`: `uris` is `uri.GetURINamesFromCertificate` of the
verified leaf, or the error of that call or of `verifyCertificate`. -/
def spiffeAuthenticate (uris : Except GoError (List String)) : Except GoError Principal := do
  let spiffeURIs ← uris
  if spiffeURIs.length > 1 then
    throw (.errorf "auth: more than one service identity specified in certificate")
  else
    match spiffeURIs with
    | [] => throw .indexOutOfRange
    | u :: _ =>
      if u.length < 9 then throw .sliceBoundsOutOfRange
      else
        match splitN2 (String.mk (u.data.drop 9)) with
        | [domain, path] => pure (.service domain path)
        | _ => throw (.errorf "auth: invalid service ID format")

/-- A success is a service made of the one URI, its first nine characters read as `spiffe://`. -/
theorem spiffeAuthenticate_eq_ok {uris : List String} {p : Principal} (h : spiffeAuthenticate (.ok uris) = .ok p) :
    ∃ u, uris = [u] ∧ p.getID.data = "spiffe://".data ++ u.data.drop 9 := by
  unfold spiffeAuthenticate at h
  rw [ok_bind] at h
  split at h
  · cases h
  · split at h
    · cases h
    · rename_i u rest hlen
      obtain rfl : rest = [] := List.length_eq_zero.mp (by simp only [List.length_cons, gt_iff_lt, not_lt] at hlen; omega)
      split at h
      · cases h
      · split at h
        · rename_i domain path hsplit
          cases h
          refine ⟨u, rfl, ?_⟩
          have hd := splitN2_eq_pair hsplit
          simp only [Principal.getID, String.data_append] at hd ⊢
          rw [hd]
          simp
        · cases h

/-- **The URI is indexed and sliced unchecked.** A leaf without a URI SAN panics at
`spiffeURIs[0]`, and one whose URI is shorter than nine characters panics at `[9:]`.
A success is a service made of a single URI `u`, whose `GetID()` is `u` exactly when
`u` starts with `spiffe://`; `https://example.org/a` authenticates as a service of
another id. -/
theorem spiffeAuthenticate_unchecked :
    spiffeAuthenticate (.ok []) = .error .indexOutOfRange ∧
    (∀ u : String, u.length < 9 → spiffeAuthenticate (.ok [u]) = .error .sliceBoundsOutOfRange) ∧
    (∀ uris p, spiffeAuthenticate (.ok uris) = .ok p →
      ∃ u, uris = [u] ∧ (p.getID = u ↔ "spiffe://".data <+: u.data)) ∧
    spiffeAuthenticate (.ok ["https://example.org/a"]) = .ok (.service "xample.org" "a") ∧
    (Principal.service "xample.org" "a").getID ≠ "https://example.org/a" := by
  refine ⟨rfl, fun u hu => ?_, fun uris p h => ?_, rfl, by decide⟩
  · simp [spiffeAuthenticate, hu]
  · obtain ⟨u, rfl, hd⟩ := spiffeAuthenticate_eq_ok h
    refine ⟨u, rfl, ?_⟩
    rw [String.ext_iff, hd]
    refine ⟨fun h => ⟨_, h⟩, ?_⟩
    rintro ⟨t, ht⟩
    rw [← ht]
    rfl

/-- A URI of two characters, and the URI `https://example.org/a` read back. -/
theorem spiffeAuthenticate_short_uri :
    ("ab".length < 9 ∧ spiffeAuthenticate (.ok ["ab"]) = .error .sliceBoundsOutOfRange) ∧
    (spiffeAuthenticate (.ok ["https://example.org/a"]) = .ok (.service "xample.org" "a") ∧
      ∃ u, ["https://example.org/a"] = [u] ∧
        ((Principal.service "xample.org" "a").getID = u ↔ "spiffe://".data <+: u.data)) := by
  obtain ⟨-, hshort, hok, -⟩ := spiffeAuthenticate_unchecked
  exact ⟨⟨by decide, hshort "ab" (by decide)⟩, rfl, hok _ _ rfl⟩

end Knox

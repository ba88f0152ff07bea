import Knox.Versions

/-! The rotation state machine.

`legalTransition` and `rotated` are the table of the spec: Active → Primary (the
old Primary becomes Active), Active → Inactive and Inactive → Active are the only
moves, and a refused move reports an error named after its target. On a list
that passes `Validate`, `update` is exactly that table (`update_eq`), and an
accepted move leaves a list that passes `Validate` again (`valid_rotate`);
`update_rotation` puts the two together. -/
namespace Knox

/-- The legal `(from, to)` pairs of the rotation table. -/
def legalTransition : VersionStatus → VersionStatus → Bool
  | .active, .primary => true
  | .active, .inactive => true
  | .inactive, .active => true
  | _, _ => false

/-- The error a refused move to a status reports. -/
def VersionStatus.transitionError : VersionStatus → GoError
  | .primary => .inactiveToPrimary
  | .active => .primaryToActive
  | .inactive => .primaryToInactive

/-- The status of `w` once `vid` has moved to `s`. -/
def rotated (vid : UInt64) (s : VersionStatus) (w : KeyVersion) : VersionStatus :=
  if w.id = vid then s else if s = .primary ∧ w.status = .primary then .active else w.status

/-- Every version with its status rotated; ids, data, times and order are kept. -/
def rotate (kvl : KeyVersionList) (vid : UInt64) (s : VersionStatus) : KeyVersionList :=
  kvl.map fun w => { w with status := rotated vid s w }

namespace KeyVersionList

variable {kvl : KeyVersionList} {vid : UInt64} {s : VersionStatus}

/-- On distinct ids, the other versions do not carry the id of a member. -/
theorem id_ne_of_nodup_cons {w : KeyVersion} {rest : KeyVersionList}
    (hnd : ((w :: rest).map (·.id)).Nodup) : ∀ u ∈ rest, u.id ≠ w.id :=
  fun u hu h => (List.nodup_cons.mp hnd).1 (List.mem_map.mpr ⟨u, hu, h⟩)

theorem find?_id_eq_some (hnd : (kvl.map (·.id)).Nodup) {v : KeyVersion} :
    kvl.find? (·.id = vid) = some v ↔ v ∈ kvl ∧ v.id = vid := by
  induction kvl with
  | nil => simp
  | cons w rest ih =>
    have hne := id_ne_of_nodup_cons hnd
    by_cases hw : w.id = vid
    · subst hw
      simp only [List.find?_cons, decide_True, Option.some.injEq, List.mem_cons]
      refine ⟨fun h => ⟨.inl h.symm, h ▸ rfl⟩, fun ⟨h, hid⟩ => ?_⟩
      exact (h.resolve_right fun hv => hne v hv hid).symm
    · simp only [List.find?_cons, hw, decide_False, ih (List.nodup_cons.mp hnd).2, List.mem_cons]
      refine ⟨fun h => ⟨.inr h.1, h.2⟩, fun ⟨h, hid⟩ => ⟨h.resolve_left ?_, hid⟩⟩
      rintro rfl
      exact hw hid

theorem setStatus_eq_map (hnd : (kvl.map (·.id)).Nodup) :
    setStatus vid s kvl = kvl.map fun w => if w.id = vid then { w with status := s } else w := by
  induction kvl with
  | nil => rfl
  | cons w rest ih =>
    have hne := id_ne_of_nodup_cons hnd
    by_cases hw : w.id = vid
    · subst hw
      have hrest : rest.map (fun u => if u.id = w.id then { u with status := s } else u) = rest :=
        (List.map_congr_left fun u hu => (if_neg (hne u hu) : _ = id u)).trans (List.map_id rest)
      simp [setStatus, hrest]
    · simp [setStatus, hw, ih (List.nodup_cons.mp hnd).2]

theorem map_id_demotePrimary : (demotePrimary kvl).map (·.id) = kvl.map (·.id) := by
  simp only [demotePrimary, List.map_map]
  exact List.map_congr_left fun w _ => by simp only [Function.comp]; split <;> rfl

theorem map_id_setStatus : (setStatus vid s kvl).map (·.id) = kvl.map (·.id) := by
  induction kvl with
  | nil => rfl
  | cons w rest ih => by_cases hw : w.id = vid <;> simp [setStatus, hw, ih]

/-- `Update` changes statuses only: the ids stay, in order. -/
theorem map_id_update {kvl' : KeyVersionList} (h : kvl.update vid s = .ok kvl') :
    kvl'.map (·.id) = kvl.map (·.id) := by
  unfold update at h
  split at h
  · cases h
  · split at h <;> (split at h; · cases h) <;> cases h <;>
      simp only [map_id_setStatus, map_id_demotePrimary]

/-- On distinct ids, exactly one member carries a member's id. -/
theorem countP_id_eq_one (hnd : (kvl.map (·.id)).Nodup) {v : KeyVersion} (hv : v ∈ kvl) :
    kvl.countP (·.id = v.id) = 1 := by
  induction kvl with
  | nil => cases hv
  | cons w rest ih =>
    have hne := id_ne_of_nodup_cons hnd
    rcases List.mem_cons.mp hv with rfl | hv
    · rw [List.countP_cons_of_pos _ _ (by simp), List.countP_eq_zero.mpr]
      exact fun u hu h => hne u hu (of_decide_eq_true h)
    · rw [List.countP_cons_of_neg _ _ (by simpa using fun h => hne v hv h.symm),
        ih (List.nodup_cons.mp hnd).2 hv]

/-- Two members carrying the same id are the same version. -/
theorem eq_of_id_eq (hnd : (kvl.map (·.id)).Nodup) {v w : KeyVersion} (hv : v ∈ kvl)
    (hw : w ∈ kvl) (h : w.id = v.id) : w = v := by
  have h1 : kvl.find? (·.id = v.id) = some v := (find?_id_eq_some hnd).mpr ⟨hv, rfl⟩
  rw [(find?_id_eq_some hnd).mpr ⟨hw, h⟩] at h1
  exact Option.some.inj h1

theorem setStatus_demotePrimary_eq_rotate (hnd : (kvl.map (·.id)).Nodup) :
    setStatus vid .primary (demotePrimary kvl) = rotate kvl vid .primary := by
  rw [setStatus_eq_map (by rw [map_id_demotePrimary]; exact hnd), demotePrimary, List.map_map, rotate]
  refine List.map_congr_left fun w _ => ?_
  by_cases hw : w.id = vid <;> by_cases hp : w.status = .primary <;> simp [rotated, hw, hp]

theorem setStatus_eq_rotate (hnd : (kvl.map (·.id)).Nodup) (hs : s ≠ .primary) :
    setStatus vid s kvl = rotate kvl vid s := by
  rw [setStatus_eq_map hnd, rotate]
  refine List.map_congr_left fun w _ => ?_
  by_cases hw : w.id = vid <;> simp [rotated, hw, hs]

/-- On distinct ids, `Update` is the rotation table. -/
theorem update_eq (hnd : (kvl.map (·.id)).Nodup) :
    kvl.update vid s = match kvl.find? (·.id = vid) with
      | none => .error .keyVersionNotFound
      | some v => if legalTransition v.status s then .ok (rotate kvl vid s)
          else .error s.transitionError := by
  unfold update
  cases kvl.find? (·.id = vid) with
  | none => rfl
  | some v =>
    cases s <;> cases hv : v.status <;>
      simp [hv, legalTransition, VersionStatus.transitionError, setStatus_demotePrimary_eq_rotate hnd,
        setStatus_eq_rotate hnd]

/-- On distinct ids, an `Update` that succeeds is the rotation. -/
theorem eq_rotate_of_update {kvl' : KeyVersionList} (hnd : (kvl.map (·.id)).Nodup)
    (h : kvl.update vid s = .ok kvl') : kvl' = rotate kvl vid s := by
  rw [update_eq hnd] at h
  split at h
  · cases h
  · split at h
    · exact (Except.ok.inj h).symm
    · cases h

/-- A rotation changes statuses only: copying its statuses back onto the list gives it. -/
theorem zipWith_status_rotate (kvl : KeyVersionList) :
    List.zipWith (fun v w => { v with status := w.status }) kvl (rotate kvl vid s) = rotate kvl vid s := by
  induction kvl with
  | nil => rfl
  | cons w rest ih => simpa [rotate] using ih

/-- An accepted move keeps the ids and leaves exactly one Primary. -/
theorem valid_rotate (hkvl : kvl.Valid) {v : KeyVersion} (hv : v ∈ kvl) (hid : v.id = vid)
    (hl : legalTransition v.status s = true) : (rotate kvl vid s).Valid := by
  subst hid
  refine ⟨by simpa [rotate, Function.comp_def] using hkvl.nodup, ?_⟩
  rw [rotate, List.countP_map]
  cases s
  case primary =>
    rw [← countP_id_eq_one hkvl.nodup hv]
    refine List.countP_congr fun w _ => ?_
    by_cases hw : w.id = v.id <;> by_cases hp : w.status = .primary <;> simp [rotated, hw, hp]
  all_goals
    have hvp : v.status ≠ .primary := by intro h; simp [h, legalTransition] at hl
    rw [← hkvl.one_primary]
    refine List.countP_congr fun w hw => ?_
    by_cases hwv : w.id = v.id
    · rw [eq_of_id_eq hkvl.nodup hv hw hwv]
      simp [rotated, hvp]
    · simp [rotated, hwv]

/-- **The rotation table.** On a list with distinct ids and one Primary, `Update`
fails with `KeyVersionNotFound` exactly when no version has the id; otherwise a
move outside the table fails with the error named after its target, and a move in
it succeeds, with the statuses `rotated` gives and everything else kept, leaving
a list that passes `Validate`. -/
theorem update_rotation (hkvl : kvl.Valid) (vid : UInt64) (s : VersionStatus) :
    (kvl.update vid s = .error .keyVersionNotFound ↔ ∀ w ∈ kvl, w.id ≠ vid) ∧
    ∀ v ∈ kvl, v.id = vid →
      (legalTransition v.status s = false → kvl.update vid s = .error s.transitionError) ∧
      (legalTransition v.status s = true →
        kvl.update vid s = .ok (rotate kvl vid s) ∧ (rotate kvl vid s).Valid) := by
  have hfind : ∀ v, kvl.find? (·.id = vid) = some v ↔ v ∈ kvl ∧ v.id = vid :=
    fun _ => find?_id_eq_some hkvl.nodup
  refine ⟨?_, fun v hv hid => ?_⟩
  · rw [update_eq hkvl.nodup]
    cases h : kvl.find? (·.id = vid) with
    | none => simpa using fun w hw hw' => absurd ((hfind w).mpr ⟨hw, hw'⟩) (by simp [h])
    | some v =>
      obtain ⟨hv, hid⟩ := (hfind v).mp h
      dsimp only
      refine ⟨fun he => ?_, fun hno => absurd hid (hno v hv)⟩
      split at he
      · cases he
      · cases s <;> cases he
  · rw [update_eq hkvl.nodup, (hfind v).mpr ⟨hv, hid⟩]
    exact ⟨fun hl => by simp [hl], fun hl => ⟨by simp [hl], valid_rotate hkvl hv hid hl⟩⟩

/-- The table on a two-version list, promoting the Active version. -/
theorem update_rotation_promote :
    KeyVersionList.Valid [⟨1, [], .primary, 0⟩, ⟨2, [], .active, 0⟩] ∧
    (KeyVersionList.update [⟨1, [], .primary, 0⟩, ⟨2, [], .active, 0⟩] 2 .primary =
        .error .keyVersionNotFound ↔
      ∀ w ∈ [(⟨1, [], .primary, 0⟩ : KeyVersion), ⟨2, [], .active, 0⟩], w.id ≠ 2) ∧
    ∀ v ∈ [(⟨1, [], .primary, 0⟩ : KeyVersion), ⟨2, [], .active, 0⟩], v.id = 2 →
      (legalTransition v.status .primary = false →
        KeyVersionList.update [⟨1, [], .primary, 0⟩, ⟨2, [], .active, 0⟩] 2 .primary =
          .error VersionStatus.primary.transitionError) ∧
      (legalTransition v.status .primary = true →
        KeyVersionList.update [⟨1, [], .primary, 0⟩, ⟨2, [], .active, 0⟩] 2 .primary =
            .ok (rotate [⟨1, [], .primary, 0⟩, ⟨2, [], .active, 0⟩] 2 .primary) ∧
          (rotate [⟨1, [], .primary, 0⟩, ⟨2, [], .active, 0⟩] 2 .primary).Valid) :=
  ⟨⟨by decide, by decide⟩, update_rotation ⟨by decide, by decide⟩ 2 .primary⟩

example : KeyVersionList.update [⟨1, [], .primary, 0⟩, ⟨2, [], .active, 0⟩] 2 .primary =
    .ok [⟨1, [], .active, 0⟩, ⟨2, [], .primary, 0⟩] := rfl

end KeyVersionList

end Knox

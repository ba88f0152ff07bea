import Knox.Versions
import Mathlib.Data.Finset.Lattice.Lemmas
import Mathlib.Data.Finset.SDiff

/-! The client's files: the key file a `fileClient` reads, and the registration file.

`fileClient.setValues` turns the key decoded from a cache file into what
`GetPrimary` and `GetActive` return; a Go string is its bytes here. Its loop appends
to a slice made with `make([]string, len(ks))`, which already holds `len(ks)` empty
strings (`setValues_active`).

`KeysFile` keeps the registered ids as text. `Get` is `strings.Fields` of the file;
`Add`, `Remove` and `Overwrite` write each key of a map followed by `'\n'`. The file
is `none` when it does not exist, which `Add` and `Remove` read as no ids; the file
system's other failures are not modelled. Go's map iteration order is unspecified,
and the model writes the keys in the order of `List.dedup`: only which ids the file
holds is read back.

* `setValues_pads_active`: for every key with exactly one Primary version,
  `GetPrimary` is that version's data, and `GetActive` is one empty string per
  Primary or Active version followed by their data.
* `keysFile_not_a_set`: an id holding a space is read back as two ids, and since
  `Add` skips its write when the map is no larger than the list `Get` returned, a
  file read back with a repeated id swallows the next new one.
* `run_holds`: with ids that are not empty and hold no space, the file is a set: any
  run of `Add`, `Remove` and `Overwrite` succeeds and leaves in the file, each once,
  the ids of the union, difference and replacement the same run builds. -/
namespace Knox

/-! ### `fileClient` -/

/-- `fileClient`: the key id and the values `setValues` last set. -/
structure FileClient where
  keyID : String
  primary : List UInt8
  active : List (List UInt8)

namespace FileClient

/-- `setValues`: `GetPrimary()` is dereferenced, and the data of `GetActive()` are
appended one by one to `make([]string, len(ks))`. -/
def setValues (c : FileClient) (key : Key) : Except GoError FileClient :=
  match key.versionList.getPrimary with
  | none => .error .nilPointerDereference
  | some p =>
    let ks := key.versionList.getActive
    .ok { c with
      primary := p.data
      active := ks.foldl (fun active kv => active ++ [kv.data]) (List.replicate ks.length []) }

/-- `GetPrimary`. -/
def getPrimary (c : FileClient) : List UInt8 := c.primary

/-- `GetActive`. -/
def getActive (c : FileClient) : List (List UInt8) := c.active

theorem foldl_append_data (ks : KeyVersionList) (acc : List (List UInt8)) :
    ks.foldl (fun active kv => active ++ [kv.data]) acc = acc ++ ks.map (·.data) := by
  induction ks generalizing acc with
  | nil => simp
  | cons kv ks ih => simp [ih]

/-- What `setValues` sets on a key whose version list has a Primary version. -/
theorem setValues_active {c : FileClient} {key : Key} {p : KeyVersion}
    (hp : key.versionList.getPrimary = some p) :
    c.setValues key = .ok { c with
      primary := p.data
      active := List.replicate key.versionList.getActive.length [] ++
        key.versionList.getActive.map (·.data) } := by
  simp only [setValues, hp, foldl_append_data]

/-- **`GetActive` starts with empty strings.** For every key with exactly one Primary
version, `GetPrimary` is that version's data and `GetActive` holds one empty string
per Primary or Active version before their data; so it is never the list of their
data alone. -/
theorem setValues_pads_active (c : FileClient) (key : Key)
    (h : key.versionList.countP (·.status = .primary) = 1) :
    ∃ p c', key.versionList.getPrimary = some p ∧ c.setValues key = .ok c' ∧ c'.getPrimary = p.data ∧
      c'.getActive = List.replicate key.versionList.getActive.length [] ++ key.versionList.getActive.map (·.data) ∧
      c'.getActive ≠ key.versionList.getActive.map (·.data) := by
  obtain ⟨p, hp, -⟩ := KeyVersionList.getPrimary_of_countP h
  have hmem : p ∈ key.versionList.getActive :=
    List.mem_filter.mpr ⟨List.mem_of_find?_eq_some hp, by simpa using Or.inr (List.find?_some hp)⟩
  have hpos := List.length_pos_of_mem hmem
  refine ⟨p, _, hp, setValues_active hp, rfl, rfl, fun he => ?_⟩
  have hl := congrArg List.length he
  simp only [getActive, List.length_append, List.length_replicate, List.length_map] at hl
  omega

/-- A key with a Primary and an Active version: `GetActive` is `["", "", data₁, data₂]`. -/
theorem setValues_two_versions :
    let key : Key := ⟨"k", [], [⟨1, [7], .primary, 0⟩, ⟨2, [8], .active, 0⟩], "", ""⟩
    key.versionList.countP (·.status = .primary) = 1 ∧
    ∃ p c', key.versionList.getPrimary = some p ∧ (⟨"k", [], []⟩ : FileClient).setValues key = .ok c' ∧
      c'.getPrimary = p.data ∧
      c'.getActive = List.replicate key.versionList.getActive.length [] ++ key.versionList.getActive.map (·.data) ∧
      c'.getActive ≠ key.versionList.getActive.map (·.data) :=
  ⟨rfl, setValues_pads_active _ _ rfl⟩

end FileClient

/-! ### The registration file -/

/-- `unicode.IsSpace`: `'\t'`, `'\n'`, `'\v'`, `'\f'`, `'\r'`, `' '`, U+0085 and
U+00A0 in Latin-1, and the other characters of Unicode's `White_Space` above it. -/
def isSpace (c : Char) : Bool :=
  if c.val.toNat ≤ 0xFF then
    (9 ≤ c.val.toNat && c.val.toNat ≤ 13) || c.val.toNat = 32 || c.val.toNat = 0x85 || c.val.toNat = 0xA0
  else
    c.val.toNat = 0x1680 || (0x2000 ≤ c.val.toNat && c.val.toNat ≤ 0x200A) || c.val.toNat = 0x2028 ||
      c.val.toNat = 0x2029 || c.val.toNat = 0x202F || c.val.toNat = 0x205F || c.val.toNat = 0x3000

/-- `strings.Fields`: the maximal runs of characters that are not spaces, in order. -/
def fields (s : String) : List String :=
  ((s.data.splitOnP isSpace).filter (· ≠ [])).map String.mk

/-- The buffer `Add`, `Remove` and `Overwrite` write: each id, then `'\n'`. -/
def keysText : List String → String
  | [] => ""
  | k :: ks => k ++ "\n" ++ keysText ks

/-- An id that `strings.Fields` reads back as itself: not empty, and without a space. -/
def ValidID (k : String) : Prop := k ≠ "" ∧ ∀ c ∈ k.data, isSpace c = false

instance : DecidablePred ValidID := fun _ => inferInstanceAs (Decidable (_ ∧ _))

theorem splitOnP_keysText {ks : List String} (h : ∀ k ∈ ks, ∀ c ∈ k.data, isSpace c = false) :
    (keysText ks).data.splitOnP isSpace = ks.map String.data ++ [[]] := by
  induction ks with
  | nil => rfl
  | cons k ks ih =>
    rw [List.forall_mem_cons] at h
    have hk : (keysText (k :: ks)).data = k.data ++ '\n' :: (keysText ks).data := by
      simp [keysText]
    rw [hk, List.splitOnP_first _ _ (fun c hc => by simp [h.1 c hc]) '\n' rfl, ih h.2]
    rfl

/-- `Get` reads back the ids a write put in the file, when none is empty or holds a space. -/
theorem fields_keysText {ks : List String} (hv : ∀ k ∈ ks, ValidID k) : fields (keysText ks) = ks := by
  rw [fields, splitOnP_keysText fun k hk => (hv k hk).2, List.filter_append,
    List.filter_eq_self.mpr fun d hd => ?_]
  · simp only [List.filter_cons, List.filter_nil, ne_eq, not_true_eq_false, decide_False,
      Bool.false_eq_true, ite_false, List.append_nil, List.map_map]
    exact List.map_id ks
  · obtain ⟨k, hk, rfl⟩ := List.mem_map.mp hd
    simpa [String.ext_iff] using (hv k hk).1

namespace KeysFile

/-- `Get`: `strings.Fields` of the file. -/
def get : Option String → Except GoError (List String)
  | none => .error .notExist
  | some b => .ok (fields b)

/-- The ids `Add` and `Remove` start from: `Get`, or none when the file does not exist. -/
def oldKeys (file : Option String) : Except GoError (List String) :=
  match get file with
  | .error .notExist => .ok []
  | r => r

/-- `Add`: the map of the old ids and the new ones, written unless it has no more
entries than `Get` returned ids. -/
def add (file : Option String) (ks : List String) : Except GoError (Option String) := do
  let oldKeys ← oldKeys file
  let newKeys := (oldKeys ++ ks).dedup
  if newKeys.length = oldKeys.length then pure file
  else pure (some (keysText newKeys))

/-- `Remove`: the map of the old ids not removed. -/
def remove (file : Option String) (ks : List String) : Except GoError (Option String) := do
  let oldKeys ← oldKeys file
  pure (some (keysText (oldKeys.filter (· ∉ ks)).dedup))

/-- `Overwrite`: the map of the ids given. -/
def overwrite (ks : List String) : Option String := some (keysText ks.dedup)

/-- **The registration file is not a set of ids.** From the empty file, `Add(["a a"])`
writes `a a` and `Get` returns `["a", "a"]`: one id not added, twice. `Add(["b"])`
then finds a map of two entries, `a` and `b`, as long as that list, and writes
nothing: `b` is lost. -/
theorem keysFile_not_a_set :
    add (some "") ["a a"] = .ok (some "a a\n") ∧ get (some "a a\n") = .ok ["a", "a"] ∧
      add (some "a a\n") ["b"] = .ok (some "a a\n") :=
  ⟨rfl, rfl, rfl⟩

/-! ### The registration file as a set of ids

`Holds file s`: `Get` (no ids when the file does not exist) returns each id of `s`
once, and each is valid. With valid ids, `Add`, `Remove` and `Overwrite` keep it for
the union, the difference and the new set (`holds_apply`), so a run of them keeps the
file in step with the set the same operations build (`run_holds`). -/

/-- What a caller asks of the registration file. -/
inductive Op
  | add (ks : List String)
  | remove (ks : List String)
  | overwrite (ks : List String)

/-- The ids an operation names. -/
def Op.ids : Op → List String
  | .add ks | .remove ks | .overwrite ks => ks

/-- The operation on the file. -/
def Op.apply : Op → Option String → Except GoError (Option String)
  | .add ks, file => KeysFile.add file ks
  | .remove ks, file => KeysFile.remove file ks
  | .overwrite ks, _ => .ok (KeysFile.overwrite ks)

/-- The operation on the set of registered ids. -/
def Op.onSet : Op → Finset String → Finset String
  | .add ks, s => s ∪ ks.toFinset
  | .remove ks, s => s \ ks.toFinset
  | .overwrite ks, _ => ks.toFinset

/-- Operations one after another; the first failure stops the run. -/
def run : List Op → Option String → Except GoError (Option String)
  | [], file => .ok file
  | op :: ops, file => op.apply file >>= run ops

/-- The file holds the set `s`: `Get` returns each of its ids once, and every id is valid. -/
def Holds (file : Option String) (s : Finset String) : Prop :=
  ∃ l, oldKeys file = .ok l ∧ l.Nodup ∧ (∀ k ∈ l, ValidID k) ∧ l.toFinset = s

theorem holds_none : Holds none ∅ := ⟨[], rfl, List.nodup_nil, by simp, rfl⟩

/-- A write of valid ids holds their set. -/
theorem holds_keysText_dedup {l : List String} (hv : ∀ k ∈ l, ValidID k) :
    Holds (some (keysText l.dedup)) l.toFinset := by
  have hvd : ∀ k ∈ l.dedup, ValidID k := fun k hk => hv k (List.mem_dedup.mp hk)
  refine ⟨l.dedup, by simp [oldKeys, get, fields_keysText hvd], List.nodup_dedup l, hvd, ?_⟩
  ext k
  simp [List.mem_dedup]

variable {file : Option String} {s : Finset String} {ks : List String}

/-- `Add` of valid ids holds the union. When the map is no larger than the old ids,
the new ids are among them, so the write it skips would change nothing. -/
theorem holds_add (h : Holds file s) (hv : ∀ k ∈ ks, ValidID k) :
    ∃ file', add file ks = .ok file' ∧ Holds file' (s ∪ ks.toFinset) := by
  obtain ⟨l, hl, hn, hvl, rfl⟩ := h
  by_cases hlen : (l ++ ks).dedup.length = l.length
  · have hp : l.Perm (l ++ ks).dedup :=
      (List.subperm_of_subset hn fun k hk => List.mem_dedup.mpr (List.mem_append_left _ hk)).perm_of_length_le
        hlen.le
    refine ⟨file, by simp [add, hl, hlen], l, hl, hn, hvl, ?_⟩
    ext k
    simp only [Finset.mem_union, List.mem_toFinset]
    exact ⟨.inl, fun h => h.elim id fun hk => hp.mem_iff.mpr (List.mem_dedup.mpr (List.mem_append_right _ hk))⟩
  · refine ⟨some (keysText (l ++ ks).dedup), by simp [add, hl, hlen], ?_⟩
    rw [← List.toFinset_append]
    exact holds_keysText_dedup fun k hk => (List.mem_append.mp hk).elim (hvl k) (hv k)

/-- `Remove` of any ids holds the difference. -/
theorem holds_remove (h : Holds file s) : ∃ file', remove file ks = .ok file' ∧ Holds file' (s \ ks.toFinset) := by
  obtain ⟨l, hl, -, hvl, rfl⟩ := h
  refine ⟨some (keysText (l.filter (· ∉ ks)).dedup), by simp [remove, hl], ?_⟩
  have hs : (l.filter (· ∉ ks)).toFinset = l.toFinset \ ks.toFinset := by
    ext k
    simp
  rw [← hs]
  exact holds_keysText_dedup fun k hk => hvl k (List.mem_filter.mp hk).1

theorem holds_apply {op : Op} (h : Holds file s) (hv : ∀ k ∈ op.ids, ValidID k) :
    ∃ file', op.apply file = .ok file' ∧ Holds file' (op.onSet s) := by
  cases op with
  | add ks => exact holds_add h hv
  | remove ks => exact holds_remove h
  | overwrite ks => exact ⟨_, rfl, holds_keysText_dedup hv⟩

/-- **With valid ids the registration file is a set.** From a file that holds `s`,
every run of `Add`, `Remove` and `Overwrite` that names only valid ids succeeds, and
`Get` then returns, each once, the ids of the set the same operations build from `s`. -/
theorem run_holds (ops : List Op) (hv : ∀ op ∈ ops, ∀ k ∈ op.ids, ValidID k) (h : Holds file s) :
    ∃ file', run ops file = .ok file' ∧ Holds file' (ops.foldl (fun s op => op.onSet s) s) := by
  induction ops generalizing file s with
  | nil => exact ⟨file, rfl, h⟩
  | cons op ops ih =>
    rw [List.forall_mem_cons] at hv
    obtain ⟨f₁, h₁, hs₁⟩ := holds_apply h hv.1
    obtain ⟨f₂, h₂, hs₂⟩ := ih hv.2 hs₁
    exact ⟨f₂, by simp [run, h₁, h₂], hs₂⟩

/-- Register `a` and `b`, remove `a`, register `b` and `c`: the file holds `b` and `c`. -/
theorem run_holds_register :
    let ops := [Op.add ["a", "b"], Op.remove ["a"], Op.add ["b", "c"]]
    (∀ op ∈ ops, ∀ k ∈ op.ids, ValidID k) ∧ Holds none ∅ ∧
      ∃ file', run ops none = .ok file' ∧ Holds file' (ops.foldl (fun s op => op.onSet s) ∅) :=
  ⟨by decide, holds_none, run_holds _ (by decide) holds_none⟩

end KeysFile

end Knox

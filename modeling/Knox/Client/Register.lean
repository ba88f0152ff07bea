import Knox.Client.Files

/-! The registration file shared by `knox register`, `knox unregister` and the daemon,
under its lock.

A call of `KeysFile` that reads the file (`Add`, `Remove`) is its `Get` and then a write
computed from what the `Get` returned (`Op.write`, `apply_eq_write`); `Overwrite` writes
without reading. Every command is a process, and so is every cycle of `daemon.update`.
A process that locks makes its calls between `Lock` and `Unlock`: the daemon's `Unlock` is
deferred, so its lock is held across the cycle's network calls. `Lock` is
`flock(LOCK_EX | LOCK_NB)` on a descriptor that `getFD` opens without `O_CREAT`, retried
until it times out: it fails on a missing file, and a command whose `Lock` fails exits.
`flock` is advisory, and one copy of `runUnregister` calls `Remove` without `Lock`. Each
step of a process is atomic: `Lock`, `Unlock`, a `Get`, or a write. The first `Get` of
`update`, which only reads, is left out.

* `run_serializable`: when every process locks and names only valid ids, after every run
  the file holds what the calls made so far build, applied in the order they wrote; each
  process made a prefix of its calls, and the calls of one process are one block of that
  order.
* `unlocked_unregister_loses_registration`: the copy of `runUnregister` without `Lock` reads
  the file, a `register` adds an id under the lock, and the late write drops it, though
  either order of the two calls keeps it. -/
namespace Knox

namespace KeysFile

/-- The ids `Add` and `Remove` read: `Get`, or none when the file does not exist. -/
def readIds : Option String → List String
  | none => []
  | some b => fields b

theorem oldKeys_eq_readIds (file : Option String) : oldKeys file = .ok (readIds file) := by
  cases file <;> rfl

/-- Whether a call starts with `Get`: `Add` and `Remove` do, `Overwrite` does not. -/
def Op.reads : Op → Bool
  | .overwrite _ => false
  | _ => true

/-- What a call writes once its `Get` returned `oldKeys`: nothing when `Add` finds the map
no larger than `oldKeys`. -/
def Op.write : Op → List String → Option String
  | .add ks, oldKeys =>
    let newKeys := (oldKeys ++ ks).dedup
    if newKeys.length = oldKeys.length then none else some (keysText newKeys)
  | .remove ks, oldKeys => some (keysText (oldKeys.filter (· ∉ ks)).dedup)
  | .overwrite ks, _ => some (keysText ks.dedup)

/-- A call is its `Get`, then its write. -/
theorem apply_eq_write (op : Op) (file : Option String) :
    op.apply file = .ok ((op.write (readIds file)).elim file some) := by
  cases op with
  | add ks =>
    simp only [Op.apply, add, oldKeys_eq_readIds, ok_bind, Op.write]
    split <;> rfl
  | remove ks => simp only [Op.apply, remove, oldKeys_eq_readIds, ok_bind, Op.write]; rfl
  | overwrite ks => rfl

/-- `Overwrite` writes the same whatever was read. -/
theorem write_of_reads_eq_false {op : Op} (h : op.reads = false) (ids ids' : List String) :
    op.write ids = op.write ids' := by
  cases op with
  | overwrite ks => rfl
  | _ => cases h

/-- A write computed from a read of the file as it is keeps the file holding the set the
call builds. -/
theorem holds_write {file : Option String} {S : Finset String} {op : Op} (h : Holds file S)
    (hv : ∀ k ∈ op.ids, ValidID k) : Holds ((op.write (readIds file)).elim file some) (op.onSet S) := by
  obtain ⟨f', hf, hs⟩ := holds_apply h hv
  rw [apply_eq_write, Except.ok.injEq] at hf
  rwa [hf]

end KeysFile

namespace Register

open KeysFile

/-- Where a process is: before `Lock`, in its section, or ended. -/
inductive Phase
  | waiting
  | inside
  | done
  deriving DecidableEq, Repr

/-- A process on the registration file. -/
structure Proc where
  /-- Whether it calls `Lock` and `Unlock` around its calls. -/
  locks : Bool
  phase : Phase
  /-- The calls it has still to make. -/
  calls : List Op
  /-- What the `Get` of its current call returned, until the call writes. -/
  got : Option (List String)

/-- A process that makes `calls`, under the lock when `locks`. -/
def Proc.start (locks : Bool) (calls : List Op) : Proc :=
  ⟨locks, if locks then .waiting else .inside, calls, none⟩

/-- `runRegister` with the ids of `-k` or `-f`: `Overwrite` with `-r`, else `Add`. -/
def runRegister (ks : List String) (remove : Bool) : Proc :=
  .start true [if remove then .overwrite ks else .add ks]

/-- `runUnregister`, the copy that takes the lock. -/
def runUnregister (id : String) : Proc := .start true [.remove [id]]

/-- `runUnregister`, the copy that calls `Remove` without `Lock`. -/
def runUnregisterUnlocked (id : String) : Proc := .start false [.remove [id]]

/-- A cycle of `daemon.update`: `processKey`'s `Remove([k])` for each id the server
refused, before the deferred `Unlock`. -/
def updateCycle (refused : List String) : Proc := .start true (refused.map fun k => .remove [k])

/-- The file, the process that holds its lock, the processes, and the calls that wrote,
with their process, in the order they wrote. -/
structure Sys where
  file : Option String
  holder : Option Nat
  procs : List Proc
  log : List (Nat × Op)

/-- A step of the processes. -/
inductive Act
  /-- Process `i` takes its next step. -/
  | run (i : Nat)
  /-- Process `i`'s `Lock` times out while another holds the lock, and it exits. -/
  | timeout (i : Nat)

namespace Sys

/-- Process `i` is now `p`. -/
def setProc (s : Sys) (i : Nat) (p : Proc) : Sys := { s with procs := s.procs.set i p }

/-- The write that ends process `i`'s call `op`, from the ids its `Get` returned. -/
def commit (s : Sys) (i : Nat) (p : Proc) (op : Op) (rest : List Op) (ids : List String) : Sys :=
  { s.setProc i { p with calls := rest, got := none } with
    file := (op.write ids).elim s.file some, log := s.log ++ [(i, op)] }

/-- Process `i`, in state `p`, takes its next step: `Lock` (which fails on a missing file,
and waits while another holds the lock), its next `Get` or write, or `Unlock`. -/
def runProc (s : Sys) (i : Nat) (p : Proc) : Sys :=
  match p.phase, p.calls, p.got with
  | .waiting, _, _ =>
    if s.file = none then s.setProc i { p with phase := .done }
    else if s.holder = none then { s.setProc i { p with phase := .inside } with holder := some i }
    else s
  | .inside, [], _ =>
    { s.setProc i { p with phase := .done } with holder := if p.locks then none else s.holder }
  | .inside, op :: rest, none =>
    if op.reads then s.setProc i { p with got := some (readIds s.file) } else s.commit i p op rest []
  | .inside, op :: rest, some ids => s.commit i p op rest ids
  | .done, _, _ => s

def step (s : Sys) : Act → Sys
  | .run i =>
    match s.procs[i]? with
    | some p => s.runProc i p
    | none => s
  | .timeout i =>
    match s.procs[i]? with
    | some p => if p.phase = .waiting ∧ s.holder ≠ none then s.setProc i { p with phase := .done } else s
    | none => s

def run (s : Sys) : List Act → Sys
  | [] => s
  | a :: acts => (s.step a).run acts

end Sys

/-! ### What a step can do -/

/-- The effect of one step. -/
inductive Effect (s : Sys) : Sys → Prop where
  | same : Effect s s
  /-- Process `i` took the lock. -/
  | lock (i : Nat) (p : Proc) (hp : s.procs[i]? = some p) (hw : p.phase = .waiting) (hh : s.holder = none) :
      Effect s { s.setProc i { p with phase := .inside } with holder := some i }
  /-- Process `i`'s `Lock` failed, and it exited. -/
  | quit (i : Nat) (p : Proc) (hp : s.procs[i]? = some p) (hw : p.phase = .waiting) :
      Effect s (s.setProc i { p with phase := .done })
  /-- Process `i` made its calls, and unlocked. -/
  | unlock (i : Nat) (p : Proc) (hp : s.procs[i]? = some p) (hi : p.phase = .inside) (hc : p.calls = []) :
      Effect s { s.setProc i { p with phase := .done } with holder := if p.locks then none else s.holder }
  /-- Process `i` made the `Get` of its call `op`. -/
  | get (i : Nat) (p : Proc) (op : Op) (rest : List Op) (hp : s.procs[i]? = some p)
      (hi : p.phase = .inside) (hc : p.calls = op :: rest) (hg : p.got = none) (hr : op.reads = true) :
      Effect s (s.setProc i { p with got := some (readIds s.file) })
  /-- Process `i` made the write of its call `op`, from the ids its `Get` returned, or from
  none when `op` does not read. -/
  | write (i : Nat) (p : Proc) (op : Op) (rest : List Op) (ids : List String) (hp : s.procs[i]? = some p)
      (hi : p.phase = .inside) (hc : p.calls = op :: rest)
      (hg : p.got = some ids ∨ p.got = none ∧ op.reads = false ∧ ids = []) :
      Effect s (s.commit i p op rest ids)

theorem runProc_effect {s : Sys} {i : Nat} {p : Proc} (hp : s.procs[i]? = some p) :
    Effect s (s.runProc i p) := by
  unfold Sys.runProc
  split
  · rename_i hw
    split
    · exact .quit i p hp hw
    · split
      · exact .lock i p hp hw ‹_›
      · exact .same
  · exact .unlock i p hp ‹_› ‹_›
  · split
    · exact .get i p _ _ hp ‹_› ‹_› ‹_› ‹_›
    · exact .write i p _ _ [] hp ‹_› ‹_› (.inr ⟨‹_›, Bool.eq_false_iff.mpr ‹_›, rfl⟩)
  · exact .write i p _ _ _ hp ‹_› ‹_› (.inl ‹_›)
  · exact .same

/-- Every step has one of the effects of `Effect`. -/
theorem step_effect (s : Sys) (a : Act) : Effect s (s.step a) := by
  cases a with
  | run i =>
    simp only [Sys.step]
    split
    · exact runProc_effect ‹_›
    · exact .same
  | timeout i =>
    simp only [Sys.step]
    split
    · split
      · exact .quit i _ ‹_› ‹_ ∧ _›.1
      · exact .same
    · exact .same

namespace Sys

@[simp] theorem setProc_file (s : Sys) (i : Nat) (p : Proc) : (s.setProc i p).file = s.file := rfl
@[simp] theorem setProc_holder (s : Sys) (i : Nat) (p : Proc) : (s.setProc i p).holder = s.holder := rfl
@[simp] theorem setProc_log (s : Sys) (i : Nat) (p : Proc) : (s.setProc i p).log = s.log := rfl
@[simp] theorem length_setProc (s : Sys) (i : Nat) (p : Proc) :
    (s.setProc i p).procs.length = s.procs.length := List.length_set ..

theorem getElem?_setProc {s : Sys} {i : Nat} {p : Proc} (hp : s.procs[i]? = some p) (p' : Proc) (j : Nat) :
    (s.setProc i p').procs[j]? = if i = j then some p' else s.procs[j]? := by
  obtain ⟨hi, -⟩ := List.getElem?_eq_some_iff.mp hp
  simp [setProc, List.getElem?_set, hi]

end Sys

/-! ### Every run of locking processes is serial -/

/-- The calls process `i` made, in the order they wrote. -/
def made (log : List (Nat × Op)) (i : Nat) : List (Nat × Op) := log.filter (·.1 = i)

/-- The set the calls of `log` build from `S₀`, one after another. -/
def built (S₀ : Finset String) (log : List (Nat × Op)) : Finset String :=
  (log.map Prod.snd).foldl (fun S op => op.onSet S) S₀

theorem made_append (l₁ l₂ : List (Nat × Op)) (i : Nat) : made (l₁ ++ l₂) i = made l₁ i ++ made l₂ i :=
  List.filter_append ..

theorem built_append_singleton (S₀ : Finset String) (log : List (Nat × Op)) (e : Nat × Op) :
    built S₀ (log ++ [e]) = e.2.onSet (built S₀ log) := by
  simp [built, List.foldl_append]

/-- What process `i`, started as `p₀`, satisfies in `s` while it is `p`. -/
structure ProcInv (s : Sys) (i : Nat) (p₀ p : Proc) : Prop where
  locks : p.locks = true
  valid : ∀ op ∈ p.calls, ∀ k ∈ op.ids, ValidID k
  /-- It holds the lock exactly while it is in its section. -/
  holder : s.holder = some i ↔ p.phase = .inside
  /-- Between its `Get` and its write, a call read the file as it is. -/
  got : ∀ ids, p.got = some ids → p.phase = .inside ∧ p.calls ≠ [] ∧ ids = readIds s.file
  /-- It made the first of its calls, in order. -/
  calls : (made s.log i).map Prod.snd ++ p.calls = p₀.calls
  waiting : p.phase = .waiting → made s.log i = []
  /-- In its section, its calls end the log; they are always one block of it. -/
  suffix : p.phase = .inside → made s.log i <:+ s.log
  block : made s.log i <:+: s.log

/-- A step that leaves process `j`, its hold of the lock, and (while it is inside) the file
and the log alone, and adds no call of `j`, keeps what `j` satisfies. -/
theorem ProcInv.frame {s s' : Sys} {j : Nat} {p₀ p : Proc} (h : ProcInv s j p₀ p)
    (hh : s'.holder = some j ↔ s.holder = some j)
    (hin : p.phase = .inside → s'.file = s.file ∧ s'.log = s.log)
    (hl : ∃ l, s'.log = s.log ++ l ∧ made l j = []) : ProcInv s' j p₀ p := by
  obtain ⟨l, hl, hm⟩ := hl
  have hmade : made s'.log j = made s.log j := by rw [hl, made_append, hm, List.append_nil]
  refine ⟨h.locks, h.valid, hh.trans h.holder, fun ids hg => ?_, hmade ▸ h.calls,
    fun hw => hmade ▸ h.waiting hw, fun hi => ?_, hmade ▸ h.block.trans ?_⟩
  · obtain ⟨hi, hc, hids⟩ := h.got ids hg
    exact ⟨hi, hc, (hin hi).1 ▸ hids⟩
  · rw [hmade, (hin hi).2]
    exact h.suffix hi
  · rw [hl]
    exact (List.prefix_append _ _).isInfix

theorem ProcInv.frame_same {s s' : Sys} {j : Nat} {p₀ p : Proc} (h : ProcInv s j p₀ p)
    (hh : s'.holder = s.holder) (hf : s'.file = s.file) (hl : s'.log = s.log) : ProcInv s' j p₀ p :=
  h.frame (by rw [hh]) (fun _ => ⟨hf, hl⟩) ⟨[], by rw [hl, List.append_nil], rfl⟩

variable (S₀ : Finset String) (s₀ : Sys)

/-- Where the processes start: nobody holds the lock, no call was made, the file holds
`S₀`, and every process is before its `Lock`, locks, and names only valid ids. -/
structure Init (s : Sys) : Prop where
  holder : s.holder = none
  log : s.log = []
  holds : Holds s.file S₀
  procs : ∀ p ∈ s.procs, p.locks = true ∧ p.phase = .waiting ∧ p.got = none ∧
    ∀ op ∈ p.calls, ∀ k ∈ op.ids, ValidID k

/-- What every state reached from `s₀` satisfies. -/
structure Inv (s : Sys) : Prop where
  length : s.procs.length = s₀.procs.length
  /-- The file holds what the calls made so far build, in the order they wrote. -/
  holds : Holds s.file (built S₀ s.log)
  log : ∀ e ∈ s.log, e.1 < s₀.procs.length
  proc : ∀ i p, s.procs[i]? = some p → ∃ p₀, s₀.procs[i]? = some p₀ ∧ ProcInv s i p₀ p

theorem inv_init (h : Init S₀ s₀) : Inv S₀ s₀ s₀ := by
  have hm : ∀ i, made s₀.log i = [] := fun i => by rw [h.log]; rfl
  refine ⟨rfl, by rw [h.log]; exact h.holds, by simp [h.log], fun i p hp => ⟨p, hp, ?_⟩⟩
  obtain ⟨hl, hw, hg, hv⟩ := h.procs p (List.getElem?_mem hp)
  exact ⟨hl, hv, by simp [h.holder, hw], fun ids e => by simp [hg] at e, by rw [hm]; rfl,
    fun _ => hm i, fun hi => by simp [hw] at hi, by rw [hm]; exact List.nil_infix⟩

/-- A step that only changes process `i` and who holds the lock keeps the invariant, when it
keeps what process `i` and every other process satisfy. -/
theorem Inv.of_setProc {s s' : Sys} (hs : Inv S₀ s₀ s) {i : Nat} {p p' : Proc} (hp : s.procs[i]? = some p)
    (hprocs : s'.procs = (s.setProc i p').procs) (hfile : s'.file = s.file) (hlog : s'.log = s.log)
    (hi : ∀ p₀, ProcInv s i p₀ p → ProcInv s' i p₀ p')
    (hj : ∀ j q p₀, ¬i = j → ProcInv s j p₀ q → ProcInv s' j p₀ q) : Inv S₀ s₀ s' := by
  refine ⟨by simp [hprocs, hs.length], by rw [hfile, hlog]; exact hs.holds, hlog ▸ hs.log, fun j q hq => ?_⟩
  rw [hprocs, Sys.getElem?_setProc hp] at hq
  split at hq
  · subst j
    cases hq
    obtain ⟨p₀, h0, hpi⟩ := hs.proc i p hp
    exact ⟨p₀, h0, hi p₀ hpi⟩
  · obtain ⟨p₀, h0, hpj⟩ := hs.proc j q hq
    exact ⟨p₀, h0, hj j q p₀ ‹_› hpj⟩

theorem inv_step {s : Sys} (hs : Inv S₀ s₀ s) (a : Act) : Inv S₀ s₀ (s.step a) := by
  have h := step_effect s a
  generalize s.step a = s' at h ⊢
  cases h with
  | same => exact hs
  | lock i p hp hw hh =>
    refine Inv.of_setProc S₀ s₀ hs hp rfl rfl rfl (fun p₀ hi => ?_) fun j q p₀ hij hj =>
      hj.frame (by simp [hh, hij]) (fun hin => absurd (hj.holder.mpr hin) (by simp [hh])) ⟨[], by simp, rfl⟩
    exact ⟨hi.locks, hi.valid, by simp, fun ids hg => absurd (hi.got ids hg).1 (by simp [hw]), hi.calls,
      fun hw' => by simp at hw', fun _ => show made s.log i <:+ s.log by rw [hi.waiting hw]; exact List.nil_suffix,
      hi.block⟩
  | quit i p hp hw =>
    exact Inv.of_setProc S₀ s₀ hs hp rfl rfl rfl (fun p₀ hi => ⟨hi.locks, hi.valid, by simp [hi.holder, hw],
      fun ids hg => absurd (hi.got ids hg).1 (by simp [hw]), hi.calls, fun hw' => by simp at hw',
      fun hi' => by simp at hi', hi.block⟩) fun j q p₀ _ hj => hj.frame_same rfl rfl rfl
  | unlock i p hp hin hc =>
    obtain ⟨_, -, hi⟩ := hs.proc i p hp
    have hh : s.holder = some i := hi.holder.mpr hin
    refine Inv.of_setProc S₀ s₀ hs hp rfl rfl rfl (fun p₀ hi => ⟨hi.locks, hi.valid, by simp [hi.locks],
      fun ids hg => absurd hc (hi.got ids hg).2.1, hi.calls, fun hw' => by simp at hw', fun hi' => by simp at hi',
      hi.block⟩) fun j q p₀ hij hj => ?_
    exact hj.frame (by simp [hi.locks, hh, hij]) (fun hin' => absurd (hj.holder.mpr hin') (by simp [hh, hij]))
      ⟨[], by simp, rfl⟩
  | get i p op rest hp hin hc hg hr =>
    exact Inv.of_setProc S₀ s₀ hs hp rfl rfl rfl (fun p₀ hi => ⟨hi.locks, hi.valid, hi.holder,
      fun ids hg' => ⟨hin, by simp [hc], (Option.some.inj hg').symm⟩, hi.calls, hi.waiting, hi.suffix, hi.block⟩)
      fun j q p₀ _ hj => hj.frame_same rfl rfl rfl
  | write i p op rest ids hp hin hc hg =>
    obtain ⟨p₀, h0, hi⟩ := hs.proc i p hp
    have hh : s.holder = some i := hi.holder.mpr hin
    have hop : op ∈ p.calls := hc ▸ List.mem_cons_self op rest
    have hids : op.write ids = op.write (readIds s.file) := by
      rcases hg with hg | ⟨-, hr, -⟩
      · rw [← (hi.got ids hg).2.2]
      · exact write_of_reads_eq_false hr _ _
    refine ⟨by simp [Sys.commit, hs.length], ?_, fun e he => ?_, fun j q hq => ?_⟩
    · show Holds ((op.write ids).elim s.file some) (built S₀ (s.log ++ [(i, op)]))
      rw [built_append_singleton, hids]
      exact holds_write hs.holds (hi.valid op hop)
    · rcases List.mem_append.mp he with he | he
      · exact hs.log e he
      · rw [List.mem_singleton.mp he]
        exact hs.length ▸ (List.getElem?_eq_some_iff.mp hp).1
    · have hq' : (s.setProc i { p with calls := rest, got := none }).procs[j]? = some q := hq
      rw [Sys.getElem?_setProc hp] at hq'
      split at hq'
      · subst j
        cases hq'
        have hmade : made (s.log ++ [(i, op)]) i = made s.log i ++ [(i, op)] := by simp [made_append, made]
        have hsuf : made (s.log ++ [(i, op)]) i <:+ s.log ++ [(i, op)] := by
          obtain ⟨t, ht⟩ := hi.suffix hin
          exact ⟨t, by rw [hmade, ← List.append_assoc, ht]⟩
        refine ⟨p₀, h0, hi.locks, fun o ho => hi.valid o (hc ▸ List.mem_cons_of_mem _ ho), hi.holder,
          fun _ hg => (by cases hg), ?_, fun hw => by simp [hin] at hw, fun _ => hsuf, hsuf.isInfix⟩
        show (made (s.log ++ [(i, op)]) i).map Prod.snd ++ rest = p₀.calls
        rw [hmade, List.map_append, List.append_assoc, ← hi.calls, hc]
        rfl
      · obtain ⟨p₀', h0', hj⟩ := hs.proc j q hq'
        exact ⟨p₀', h0', hj.frame Iff.rfl (fun hin' => absurd (hj.holder.mpr hin') (by simp [hh, *]))
          ⟨[(i, op)], rfl, by simp [made, *]⟩⟩

theorem inv_run {s : Sys} (hs : Inv S₀ s₀ s) (acts : List Act) : Inv S₀ s₀ (s.run acts) := by
  induction acts generalizing s with
  | nil => exact hs
  | cons a acts ih => exact ih (inv_step S₀ s₀ hs a)

/-- **Under the lock the registration file is serial.** From any start where every process
locks and names only valid ids, after every run the file holds what the calls made so far
build from `S₀`, applied in the order they wrote: `Get` returns each such id once. Every
call written is a process's; each process made the first of its calls, in order; and the
calls of one process, a whole daemon cycle included, are one block of that order. -/
theorem run_serializable (h : Init S₀ s₀) (acts : List Act) :
    let s := s₀.run acts
    Holds s.file (built S₀ s.log) ∧ (∀ e ∈ s.log, e.1 < s₀.procs.length) ∧
      ∀ i p₀, s₀.procs[i]? = some p₀ → (made s.log i).map Prod.snd <+: p₀.calls ∧ made s.log i <:+: s.log := by
  have hs := inv_run S₀ s₀ (inv_init S₀ s₀ h) acts
  refine ⟨hs.holds, hs.log, fun i p₀ h0 => ?_⟩
  obtain ⟨p, hp⟩ : ∃ p, (s₀.run acts).procs[i]? = some p :=
    ⟨_, List.getElem?_eq_getElem (hs.length ▸ (List.getElem?_eq_some_iff.mp h0).1)⟩
  obtain ⟨p₀', h0', hi⟩ := hs.proc i p hp
  rw [h0, Option.some.injEq] at h0'
  subst h0'
  exact ⟨⟨p.calls, hi.calls⟩, hi.block⟩

/-- Three commands and a daemon cycle, from an empty file, in one interleaving. -/
theorem run_serializable_commands :
    let s₀ : Sys := ⟨some "", none,
      [runRegister ["a", "b"] false, updateCycle ["b"], runUnregister "a", runRegister ["c"] true], []⟩
    Init ∅ s₀ ∧
    let s := s₀.run [.run 1, .run 0, .run 1, .run 1, .run 0, .timeout 3, .run 1, .run 1, .run 1, .run 0]
    Holds s.file (built ∅ s.log) ∧ (∀ e ∈ s.log, e.1 < s₀.procs.length) ∧
      ∀ i p₀, s₀.procs[i]? = some p₀ → (made s.log i).map Prod.snd <+: p₀.calls ∧ made s.log i <:+: s.log := by
  intro s₀
  have h : Init ∅ s₀ := ⟨rfl, rfl, ⟨[], rfl, List.nodup_nil, by simp, rfl⟩, by decide⟩
  exact ⟨h, run_serializable _ _ h _⟩

/-- **Without the lock a registration is lost.** Let the file hold a set `S` with `a` in it
and `b` not. The copy of `runUnregister` that does not lock makes its `Get`; `register` of
`b` takes the lock, adds `b` and unlocks; then the unregister writes what it computed from
its `Get`. Both end, and in either order of the two calls `b` is registered, but `Get` no
longer returns it. -/
theorem unlocked_unregister_loses_registration {file : Option String} {S : Finset String} {a b : String}
    (h : Holds file S) (ha : a ∈ S) (hb : b ∉ S) :
    let s := Sys.run ⟨file, none, [runRegister [b] false, runUnregisterUnlocked a], []⟩
      [.run 1, .run 0, .run 0, .run 0, .run 0, .run 1, .run 1]
    (∀ p ∈ s.procs, p.phase = .done) ∧ s.log = [(0, .add [b]), (1, .remove [a])] ∧
      b ∈ built S s.log ∧ b ∈ built S s.log.reverse ∧ b ∉ readIds s.file := by
  obtain ⟨l, hl, hn, hv, rfl⟩ := h
  rw [oldKeys_eq_readIds, Except.ok.injEq] at hl
  have hfile : file ≠ none := by
    rintro rfl
    subst hl
    simp [readIds] at ha
  have hbl : b ∉ l := by simpa using hb
  simp [Sys.run, Sys.step, Sys.runProc, Sys.setProc, Sys.commit, runRegister, runUnregisterUnlocked,
    Proc.start, Op.reads, hfile, hl]
  have hba : b ≠ a := fun e => hbl (e ▸ by simpa using ha)
  have hv' : ∀ k ∈ (l.filter (· ∉ [a])).dedup, ValidID k := fun k hk =>
    hv k (List.mem_filter.mp (List.mem_dedup.mp hk)).1
  refine ⟨by simp [built, Op.onSet, hba], by simp [built, Op.onSet], ?_⟩
  simp only [Op.write, Option.elim, readIds, fields_keysText hv']
  simp [List.mem_dedup, hbl]

/-- A file with `a`: `register b` is lost to the unlocked `unregister a`. -/
theorem unlocked_unregister_loses_b :
    Holds (some "a\n") {"a"} ∧ "a" ∈ ({"a"} : Finset String) ∧ "b" ∉ ({"a"} : Finset String) ∧
    let s := Sys.run ⟨some "a\n", none, [runRegister ["b"] false, runUnregisterUnlocked "a"], []⟩
      [.run 1, .run 0, .run 0, .run 0, .run 0, .run 1, .run 1]
    (∀ p ∈ s.procs, p.phase = .done) ∧ s.log = [(0, .add ["b"]), (1, .remove ["a"])] ∧
      "b" ∈ built {"a"} s.log ∧ "b" ∈ built {"a"} s.log.reverse ∧ "b" ∉ readIds s.file := by
  have h : Holds (some "a\n") {"a"} := ⟨["a"], rfl, by decide, by decide, by decide⟩
  exact ⟨h, by simp, by simp, unlocked_unregister_loses_registration h (by simp) (by simp)⟩

end Register

end Knox

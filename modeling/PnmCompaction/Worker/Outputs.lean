import PnmCompaction.Lib.Exec
import Mathlib.Data.List.Basic

/-!
# The output files of concurrent jobs

The worker writes the outputs of a job before its reply, the primary renames
them away after it, and between the two the next job may already run. What
decides whether that job can write over them is the file-number counter of the
shared output directory: a catch-up sets it back to the last recorded
`NextFile` plus one (version_edit_handler.cc:465).

Only the job that holds `g_compact_mutex` creates files, so one `running` slot
is enough; the other threads of the worker wait for the mutex.
-/

namespace PnmCompaction.Worker.Outputs

open PnmCompaction.Lib.Exec

/- `kSecondaryPath`, or `kSecondaryPath/<job_id_str>` on the fallback path. The
job id string has lost the sub-job id, so two jobs may share it. -/
inductive Dir where
  | secondary
  | job (jobId : ℕ)
  deriving DecidableEq, Repr

structure Path where
  dir : Dir
  number : ℕ
  deriving DecidableEq, Repr

inductive Running where
  /-- The secondary is open, `TryCatchUpWithPrimary` not yet called. -/
  | opened (jobId : ℕ)
  | onSecondary (jobId : ℕ) (outputs : List ℕ)
  /-- `OpenAndCompact`, with the counter of the database it opened itself. -/
  | fallback (jobId : ℕ) (counter : ℕ) (outputs : List ℕ)
  deriving DecidableEq, Repr

structure State where
  /-- The primary's own file-number counter. -/
  primaryNext : ℕ
  /-- `NextFile` as last recorded in the MANIFEST. -/
  nextFile : ℕ
  /-- `next_file_number_` of the persistent secondary, once it is open. -/
  counter : Option ℕ
  running : Option Running
  /-- Outputs named in success replies and not yet renamed by the primary. -/
  reported : List Path
  deriving DecidableEq, Repr

def init (next : ℕ) : State := ⟨next, next, none, none, []⟩

inductive Action where
  /-- A thread takes the mutex; `opens` is the outcome of `OpenAsSecondary`. -/
  | begin (jobId : ℕ) (opens : Bool)
  | catchUp (ok : Bool)
  | create
  | reply (success : Bool)
  /-- The primary allocates a number and moves one output away. -/
  | rename (path : Path)
  /-- The primary allocates a number for something else. -/
  | allocate
  | logManifest
  deriving DecidableEq, Repr

def Running.paths : Running → List Path
  | .opened _ => []
  | .onSecondary _ outputs => outputs.map fun n => ⟨.secondary, n⟩
  | .fallback jobId _ outputs => outputs.map fun n => ⟨.job jobId, n⟩

def step (s : State) : Action → Option State
  | .begin jobId opens =>
    match s.running with
    | some _ => none
    | none =>
      match s.counter with
      | some _ => some { s with running := some (.opened jobId) }
      | none =>
        if opens then
          some { s with counter := some (s.nextFile + 1), running := some (.opened jobId) }
        else some { s with running := some (.fallback jobId (s.nextFile + 1) []) }
  | .catchUp ok =>
    match s.running with
    | some (.opened jobId) =>
      some { s with
        counter := if ok then some (s.nextFile + 1) else s.counter
        running := some (.onSecondary jobId []) }
    | _ => none
  | .create =>
    match s.running, s.counter with
    | some (.onSecondary jobId outputs), some c =>
      some { s with counter := some (c + 1), running := some (.onSecondary jobId (outputs ++ [c])) }
    | some (.fallback jobId c outputs), _ =>
      some { s with running := some (.fallback jobId (c + 1) (outputs ++ [c])) }
    | _, _ => none
  | .reply success =>
    match s.running with
    | some (.onSecondary jobId outputs) =>
      some { s with
        running := none
        reported := if success then s.reported ++ (Running.onSecondary jobId outputs).paths
          else s.reported }
    | some (.fallback jobId c outputs) =>
      some { s with
        running := none
        reported := if success then s.reported ++ (Running.fallback jobId c outputs).paths
          else s.reported }
    | _ => none
  | .rename path =>
    if path ∈ s.reported then
      some { s with reported := s.reported.erase path, primaryNext := s.primaryNext + 1 }
    else none
  | .allocate => some { s with primaryNext := s.primaryNext + 1 }
  | .logManifest => some { s with nextFile := s.primaryNext }

def target (s : State) : Option Path :=
  match s.running, s.counter with
  | some (.onSecondary _ _), some c => some ⟨.secondary, c⟩
  | some (.fallback jobId c _), _ => some ⟨.job jobId, c⟩
  | _, _ => none

/-- The next output would overwrite one the primary has been told of and has not
taken yet. -/
def Overwrites (s : State) : Prop := ∃ path ∈ s.reported, target s = some path

/- What makes a step safe: whenever a counter is set from the MANIFEST, the
MANIFEST has moved past every output that still waits in the directory the
counter is for. -/
def Passed (s : State) (dir : Dir) : Prop :=
  ∀ path ∈ s.reported, path.dir = dir → path.number ≤ s.nextFile

def Safe (s : State) : Action → Prop
  | .catchUp true => Passed s .secondary
  | .begin jobId false => s.counter = none → Passed s (.job jobId)
  | _ => True

instance (s : State) (dir : Dir) : Decidable (Passed s dir) :=
  inferInstanceAs (Decidable (∀ path ∈ s.reported, _))

instance (s : State) (a : Action) : Decidable (Safe s a) :=
  match a with
  | .catchUp true => inferInstanceAs (Decidable (Passed s .secondary))
  | .begin jobId false => inferInstanceAs (Decidable (s.counter = none → Passed s (.job jobId)))
  | .catchUp false | .begin _ true | .create | .reply _ | .rename _ | .allocate | .logManifest =>
    .isTrue trivial

/-! ### What a step can do -/

inductive Step (s : State) : Action → State → Prop where
  | beginOpen {jobId opens} (idle : s.running = none) (isOpen : s.counter ≠ none) :
      Step s (.begin jobId opens) { s with running := some (.opened jobId) }
  | beginFirst {jobId} (idle : s.running = none) (closed : s.counter = none) :
      Step s (.begin jobId true)
        { s with counter := some (s.nextFile + 1), running := some (.opened jobId) }
  | beginFallback {jobId} (idle : s.running = none) (closed : s.counter = none) :
      Step s (.begin jobId false)
        { s with running := some (.fallback jobId (s.nextFile + 1) []) }
  | catchUpOk {jobId} (run : s.running = some (.opened jobId)) :
      Step s (.catchUp true)
        { s with counter := some (s.nextFile + 1), running := some (.onSecondary jobId []) }
  | catchUpFailed {jobId} (run : s.running = some (.opened jobId)) :
      Step s (.catchUp false) { s with running := some (.onSecondary jobId []) }
  | createSecondary {jobId outputs c} (run : s.running = some (.onSecondary jobId outputs))
      (isOpen : s.counter = some c) :
      Step s .create
        { s with counter := some (c + 1), running := some (.onSecondary jobId (outputs ++ [c])) }
  | createFallback {jobId c outputs} (run : s.running = some (.fallback jobId c outputs)) :
      Step s .create { s with running := some (.fallback jobId (c + 1) (outputs ++ [c])) }
  | replySuccess {r} (run : s.running = some r) (started : ∀ jobId, r ≠ .opened jobId) :
      Step s (.reply true) { s with running := none, reported := s.reported ++ r.paths }
  | replyFailure {r} (run : s.running = some r) (started : ∀ jobId, r ≠ .opened jobId) :
      Step s (.reply false) { s with running := none }
  | rename {path} (mem : path ∈ s.reported) :
      Step s (.rename path)
        { s with reported := s.reported.erase path, primaryNext := s.primaryNext + 1 }
  | allocate : Step s .allocate { s with primaryNext := s.primaryNext + 1 }
  | logManifest : Step s .logManifest { s with nextFile := s.primaryNext }

theorem step_sound {s t : State} {a : Action} (h : step s a = some t) : Step s a t := by
  cases a with
  | begin jobId opens =>
    simp only [step] at h
    split at h
    · cases h
    · next hr =>
      split at h
      · next c hc =>
        have hopen : s.counter ≠ none := by rw [hc]; exact Option.some_ne_none c
        rw [← Option.some.inj h]
        exact .beginOpen hr hopen
      · next hc =>
        cases opens with
        | true => rw [← Option.some.inj h]; exact .beginFirst hr hc
        | false => rw [← Option.some.inj h]; exact .beginFallback hr hc
  | catchUp ok =>
    simp only [step] at h
    split at h
    · next jobId hr =>
      cases ok with
      | true => rw [← Option.some.inj h]; exact .catchUpOk hr
      | false => rw [← Option.some.inj h]; exact .catchUpFailed hr
    · cases h
  | create =>
    simp only [step] at h
    split at h
    · next jobId outputs c hr hc => rw [← Option.some.inj h]; exact .createSecondary hr hc
    · next jobId c outputs hr => rw [← Option.some.inj h]; exact .createFallback hr
    · cases h
  | reply success =>
    simp only [step] at h
    split at h
    · next jobId outputs hr =>
      cases success with
      | true => rw [← Option.some.inj h]; exact .replySuccess hr (by simp)
      | false => rw [← Option.some.inj h]; exact .replyFailure hr (by simp)
    · next jobId c outputs hr =>
      cases success with
      | true => rw [← Option.some.inj h]; exact .replySuccess hr (by simp)
      | false => rw [← Option.some.inj h]; exact .replyFailure hr (by simp)
    · cases h
  | rename path =>
    simp only [step] at h
    split at h
    · next hm => rw [← Option.some.inj h]; exact .rename hm
    · cases h
  | allocate => rw [← Option.some.inj h]; exact .allocate
  | logManifest => rw [← Option.some.inj h]; exact .logManifest

/-! ### The invariant of safe runs -/

/-- All waiting outputs lie below the counters that may meet them. -/
structure Below (s : State) : Prop where
  secondary : ∀ path ∈ s.reported, path.dir = .secondary →
    ∃ c, s.counter = some c ∧ path.number < c
  opened : ∀ jobId, s.running = some (.opened jobId) → s.counter ≠ none
  onSecondary : ∀ jobId outputs, s.running = some (.onSecondary jobId outputs) →
    ∃ c, s.counter = some c ∧ ∀ n ∈ outputs, n < c
  fallback : ∀ jobId c outputs, s.running = some (.fallback jobId c outputs) →
    ∀ path ∈ s.reported, path.dir = .job jobId → path.number < c

theorem below_init (next : ℕ) : Below (init next) := by
  constructor <;> simp [init]

theorem Below.not_overwrites {s : State} (h : Below s) : ¬ Overwrites s := by
  rintro ⟨path, hmem, ht⟩
  unfold target at ht
  split at ht
  · next jobId outputs c hr hc =>
    have hpath := (Option.some.inj ht).symm
    obtain ⟨c', hc', hlt⟩ := h.secondary path hmem (by rw [hpath])
    have hcc : c' = c := Option.some.inj (hc'.symm.trans hc)
    rw [hpath, hcc] at hlt
    exact Nat.lt_irrefl _ hlt
  · next jobId c outputs hr =>
    have hpath := (Option.some.inj ht).symm
    have hlt := h.fallback jobId c outputs hr path hmem (by rw [hpath])
    rw [hpath] at hlt
    exact Nat.lt_irrefl _ hlt
  · cases ht

-- a reply that adds `new` to the waiting outputs and frees the mutex
theorem Below.replied {s : State} (h : Below s) {new : List Path}
    (hnew : ∀ path ∈ new, path.dir = .secondary → ∃ c, s.counter = some c ∧ path.number < c) :
    Below { s with running := none, reported := s.reported ++ new } where
  secondary path hmem hdir := by
    rcases List.mem_append.mp hmem with hold | hnew'
    · exact h.secondary path hold hdir
    · exact hnew path hnew' hdir
  opened := by simp
  onSecondary := by simp
  fallback := by simp

theorem Below.step {s t : State} {a : Action} (h : Below s) (hsafe : Safe s a)
    (hs : step s a = some t) : Below t := by
  cases step_sound hs with
  | beginOpen idle isOpen =>
    exact ⟨h.secondary, fun _ _ => isOpen, by simp, by simp⟩
  | beginFirst idle closed =>
    refine ⟨fun path hmem hdir => ?_, by simp, by simp, by simp⟩
    -- nothing was reported in the directory before the secondary was open
    obtain ⟨c, hc, -⟩ := h.secondary path hmem hdir
    rw [closed] at hc
    cases hc
  | beginFallback idle closed =>
    refine ⟨h.secondary, by simp, by simp, fun jobId c outputs hr path hmem hdir => ?_⟩
    simp only [Option.some.injEq, Running.fallback.injEq] at hr
    obtain ⟨rfl, rfl, -⟩ := hr
    have hle := hsafe closed path hmem hdir
    omega
  | catchUpOk run =>
    refine ⟨fun path hmem hdir => ⟨_, rfl, ?_⟩, by simp, ?_, by simp⟩
    · have hle := hsafe path hmem hdir
      omega
    · rintro jobId outputs hr
      simp only [Option.some.injEq, Running.onSecondary.injEq] at hr
      exact ⟨_, rfl, by simp [← hr.2]⟩
  | catchUpFailed run =>
    refine ⟨h.secondary, by simp, ?_, by simp⟩
    intro jobId outputs hr
    simp only [Option.some.injEq, Running.onSecondary.injEq] at hr
    obtain ⟨c, hc⟩ := Option.ne_none_iff_exists'.mp (h.opened _ run)
    exact ⟨c, hc, by simp [← hr.2]⟩
  | @createSecondary jobId outputs c run isOpen =>
    refine ⟨fun path hmem hdir => ⟨_, rfl, ?_⟩, by simp, ?_, by simp⟩
    · obtain ⟨c', hc', hlt⟩ := h.secondary path hmem hdir
      have hcc : c' = c := Option.some.inj (hc'.symm.trans isOpen)
      omega
    · intro jobId' outputs' hr
      simp only [Option.some.injEq, Running.onSecondary.injEq] at hr
      obtain ⟨c', hc', hlt⟩ := h.onSecondary jobId outputs run
      have hcc : c' = c := Option.some.inj (hc'.symm.trans isOpen)
      refine ⟨_, rfl, fun n hn => ?_⟩
      rw [← hr.2, List.mem_append, List.mem_singleton] at hn
      rcases hn with hn | rfl
      · have := hlt n hn
        omega
      · omega
  | @createFallback jobId c outputs run =>
    refine ⟨h.secondary, by simp, by simp, fun jobId' c' outputs' hr path hmem hdir => ?_⟩
    simp only [Option.some.injEq, Running.fallback.injEq] at hr
    obtain ⟨rfl, rfl, -⟩ := hr
    have hlt := h.fallback jobId c outputs run path hmem hdir
    omega
  | @replySuccess r run started =>
    refine h.replied fun path hmem hdir => ?_
    cases r with
    | opened jobId => exact absurd rfl (started jobId)
    | onSecondary jobId outputs =>
      obtain ⟨c, hc, hlt⟩ := h.onSecondary jobId outputs run
      simp only [Running.paths, List.mem_map] at hmem
      obtain ⟨n, hn, rfl⟩ := hmem
      exact ⟨c, hc, hlt n hn⟩
    | fallback jobId c outputs =>
      simp only [Running.paths, List.mem_map] at hmem
      obtain ⟨n, hn, rfl⟩ := hmem
      cases hdir
  | replyFailure run started => exact ⟨h.secondary, by simp, by simp, by simp⟩
  | @rename moved mem =>
    have hsub : ∀ path ∈ s.reported.erase moved, path ∈ s.reported :=
      fun path hp => List.mem_of_mem_erase hp
    exact ⟨fun path hp => h.secondary path (hsub path hp), h.opened, h.onSecondary,
      fun jobId c outputs hr path hp => h.fallback jobId c outputs hr path (hsub path hp)⟩
  | allocate => exact ⟨h.secondary, h.opened, h.onSecondary, h.fallback⟩
  | logManifest => exact ⟨h.secondary, h.opened, h.onSecondary, h.fallback⟩

/-! ### An unsafe step leads to a collision -/

/-- The running job can go on creating files one number after the other. -/
theorem create_next {s : State} {dir : Dir} {n : ℕ} (h : target s = some ⟨dir, n⟩) :
    ∃ t, step s .create = some t ∧ target t = some ⟨dir, n + 1⟩ ∧ t.reported = s.reported := by
  unfold target at h
  split at h
  · next jobId outputs c hr hc =>
    obtain ⟨rfl, rfl⟩ := Path.mk.inj (Option.some.inj h)
    refine ⟨{ s with
      counter := some (c + 1)
      running := some (.onSecondary jobId (outputs ++ [c])) }, ?_, rfl, rfl⟩
    simp only [step, hr, hc]
  · next jobId c outputs hr =>
    obtain ⟨rfl, rfl⟩ := Path.mk.inj (Option.some.inj h)
    refine ⟨{ s with running := some (.fallback jobId (c + 1) (outputs ++ [c])) }, ?_, rfl, rfl⟩
    simp only [step, hr]
  · cases h

theorem overwrites_ahead {s : State} {dir : Dir} {n : ℕ} (k : ℕ)
    (h : target s = some ⟨dir, n⟩) (hmem : (⟨dir, n + k⟩ : Path) ∈ s.reported) :
    ∃ t, exec step s (List.replicate k .create) = some t ∧ Overwrites t := by
  induction k generalizing s n with
  | zero => exact ⟨s, rfl, _, hmem, h⟩
  | succ k ih =>
    obtain ⟨u, hu, htarget, hrep⟩ := create_next h
    have hmem' : (⟨dir, n + 1 + k⟩ : Path) ∈ u.reported := by
      rw [hrep, Nat.add_right_comm, Nat.add_assoc]
      exact hmem
    obtain ⟨t, ht, hover⟩ := ih htarget hmem'
    exact ⟨t, exec_cons.mpr ⟨u, hu, ht⟩, hover⟩

theorem overwrites_of_not_passed {s t : State} {dir : Dir} (h : ¬ Passed s dir)
    (hrep : t.reported = s.reported) (ht : target t = some ⟨dir, s.nextFile + 1⟩) :
    ∃ bs u, exec step t bs = some u ∧ Overwrites u := by
  simp only [Passed, not_forall, Nat.not_le] at h
  obtain ⟨path, hmem, hdir, hlt⟩ := h
  have hnum : s.nextFile + 1 + (path.number - (s.nextFile + 1)) = path.number := by omega
  have hpath : (⟨dir, s.nextFile + 1 + (path.number - (s.nextFile + 1))⟩ : Path) ∈ t.reported := by
    rw [hnum, hrep, ← hdir]
    exact hmem
  obtain ⟨u, hu, hover⟩ := overwrites_ahead _ ht hpath
  exact ⟨_, u, hu, hover⟩

theorem overwrites_of_unsafe {s t : State} {a : Action} (hs : step s a = some t)
    (h : ¬ Safe s a) : ∃ bs u, exec step t bs = some u ∧ Overwrites u := by
  cases step_sound hs with
  | catchUpOk run => exact overwrites_of_not_passed h rfl rfl
  | beginFallback idle closed =>
    have hnot : ¬ Passed s (.job _) := fun hp => h fun _ => hp
    exact overwrites_of_not_passed hnot rfl rfl
  | @beginOpen jobId opens idle isOpen =>
    cases opens with
    | true => exact absurd trivial h
    | false => exact absurd (fun hc => absurd hc isOpen) h
  | _ => exact absurd trivial h

/-- No output that waits for the primary is overwritten in a run whose counter
updates are all safe; and from any unsafe counter update some continuation of
the run overwrites one. -/
theorem outputs_kept_in_safe_runs (next : ℕ) (as : List Action) (s : State)
    (h : exec step (init next) as = some s) :
    (Meets step Safe (init next) as → ¬ Overwrites s) ∧
    (∀ a t, step s a = some t → ¬ Safe s a → ∃ bs u, exec step t bs = some u ∧ Overwrites u) := by
  refine ⟨fun hm => ?_, fun a t hs hn => overwrites_of_unsafe hs hn⟩
  have hbelow := exec_invariant_of_meets (I := Below) (fun _ _ _ hb hc hs => hb.step hc hs)
    (below_init next) hm h
  exact hbelow.not_overwrites

-- two jobs one after the other: the first one's output waits for the primary while the
-- second catches up, but the primary has recorded a number that is as large
theorem outputs_kept_in_safe_runs_two_jobs :
    ¬ Overwrites ⟨11, 11, some 12, some (.onSecondary 2 []), [⟨.secondary, 11⟩]⟩ :=
  (outputs_kept_in_safe_runs 10
    [.begin 1 true, .catchUp true, .create, .reply true, .allocate, .logManifest, .begin 2 true,
      .catchUp true] _ (by decide)).1
    (by decide)

/-- Two jobs in flight: the second catches up before the primary has recorded
anything of the first, and is about to create the file the first one reported. -/
theorem second_job_overwrites_reported_output :
    ∃ s, exec step (init 10) [.begin 1 true, .catchUp true, .create, .reply true, .begin 2 true,
        .catchUp true] = some s ∧
      target s = some ⟨.secondary, 11⟩ ∧ s.reported = [⟨.secondary, 11⟩] :=
  ⟨⟨10, 10, some 11, some (.onSecondary 2 []), [⟨.secondary, 11⟩]⟩, by decide, rfl, rfl⟩

end PnmCompaction.Worker.Outputs

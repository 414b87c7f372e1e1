import PnmCompaction.Device.Invariant

/-!
# Draining a system with the device in it (`gem5/src/sim/drain.{hh,cc}`)

`DrainManager` (drain.cc:61-130, 146-154) asks every object to drain and then
waits until each one that answered `Draining` has signalled. The device is one
of the objects; of the others only the number that still have to signal counts.
While the manager waits the simulation goes on, so register writes keep
arriving.

`answered` and `signalled` record, outside the program, how often the device's
`drain()` answered `Draining` and how often the device called `signalDrainDone`.
-/

namespace PnmCompaction.Device.Drain

open PnmCompaction.Lib.Exec

variable {p : Params} {d d' : Dev} {n : Note}

structure State where
  dev : Dev
  count : ℕ
  state : DrainState
  others : ℕ
  answered : ℕ
  signalled : ℕ
  deriving DecidableEq, Repr

def init : State := ⟨Dev.init, 0, .running, 0, 0, 0⟩

inductive Action where
  | device (a : Device.Action)
  /-- `others` of the other objects answer `Draining`. -/
  | tryDrain (tick others : ℕ)
  | otherDone
  | resume (tick : ℕ)
  deriving DecidableEq, Repr

def waiting (d : Dev) : ℕ := if d.drainState = .draining then 1 else 0

-- the device takes a step; `onComplete` signals when the device is draining
def State.observe (s : State) (d : Dev) (n : Note) : Option State :=
  match n with
  | .completed _ =>
    if s.dev.drainState = .draining then
      if s.count = 0 then none
      else some { s with dev := d, count := s.count - 1, signalled := s.signalled + 1 }
    else some { s with dev := d }
  | _ => some { s with dev := d }

def tryDrain (s : State) (d : Dev) (others : ℕ) : State :=
  let count := others + waiting d
  { s with
    dev := d
    count := count
    state := if count = 0 then .drained else .draining
    others := others
    answered := s.answered + waiting d }

def isDrain : Device.Action → Bool
  | .drainRequest _ => true
  | .drainResume _ => true
  | _ => false

/-- A failed assertion or panic ends the simulation. The two drain actions of the
device are the manager's to take. -/
def step (p : Params) (s : State) : Action → Option State
  | .device a =>
    if isDrain a then none
    else
      match apply p s.dev a with
      | some (.ok (d, n)) => s.observe d n
      | _ => none
  | .tryDrain tick others =>
    if s.state = .drained ∨ s.count ≠ 0 then none
    else
      match apply p s.dev (.drainRequest tick) with
      | some (.ok (d, _)) => some (tryDrain s d others)
      | _ => none
  | .otherDone =>
    if 0 < s.others ∧ 0 < s.count then
      some { s with others := s.others - 1, count := s.count - 1 }
    else none
  | .resume tick =>
    if s.state = .running ∨ s.state = .resuming ∨ s.count ≠ 0 ∨ s.dev.drainState = .draining then
      none
    else
      match apply p s.dev (.drainResume tick) with
      | some (.ok (d, _)) => some { s with dev := d, state := .running }
      | _ => none

/-! ### What the device does to its drain state -/

def OnTime (d : Dev) : Prop := ∀ t ∈ d.completeEvent, d.curTick ≤ t

theorem onTime_advance {tick : ℕ} (h : advance d tick = some d') :
    OnTime d' ∧ d'.completeEvent = d.completeEvent ∧ d'.drainState = d.drainState := by
  unfold advance at h
  split at h
  · next hle =>
    rw [← Option.some.inj h]
    exact ⟨fun t ht => hle.2.2 t ht, rfl, rfl⟩
  · cases h

theorem onComplete_drainState (p : Params) (d : Dev) :
    (onComplete p d).1.drainState =
      if d.drainState = .draining then .drained else d.drainState := by
  rw [onComplete_fst]

theorem onTime_submit (h : OnTime d) (hs : submit p d = .ok (d', n)) :
    OnTime d' ∧ d'.drainState = d.drainState ∧
      (d.completeEvent.isSome = true → d'.completeEvent.isSome = true) ∧
      ∀ total, n ≠ .completed total := by
  rcases submit_cases hs with ⟨-, rfl, rfl⟩ | ⟨-, -, rfl, rfl⟩ | ⟨-, -, -, tick, hle, -, rfl, rfl⟩
  · exact ⟨h, rfl, id, by simp⟩
  · exact ⟨h, rfl, id, by simp⟩
  · refine ⟨fun t ht => ?_, rfl, fun _ => rfl, by simp⟩
    obtain rfl : tick = t := Option.some.inj ht
    exact hle

def isReset : Device.Action → Prop
  | .mmioWrite _ off w data => isCommand cmdReset off w data
  | _ => False

/-- Only a completion ends the draining, and only a reset takes the event away. -/
theorem effect_cases {a : Device.Action} (h : Effect p d a d' n) (ha : isDrain a = false) :
    (∃ total, n = .completed total ∧ d'.completeEvent = none ∧
      d'.drainState = if d.drainState = .draining then .drained else d.drainState) ∨
    ((∀ total, n ≠ .completed total) ∧ OnTime d' ∧ d'.drainState = d.drainState ∧
      (d.completeEvent.isSome = true → isReset a ∨ d'.completeEvent.isSome = true)) := by
  cases h with
  | read clock =>
    obtain ⟨hon, hev, hst⟩ := onTime_advance clock
    exact .inr ⟨by simp, hon, hst, fun he => .inr (hev ▸ he)⟩
  | registers clock =>
    obtain ⟨hon, hev, hst⟩ := onTime_advance clock
    exact .inr ⟨by simp, hon, hst, fun he => .inr (hev ▸ he)⟩
  | submit clock cmd run =>
    obtain ⟨hon, hev, hst⟩ := onTime_advance clock
    obtain ⟨hon', hst', hkeep, hn⟩ := onTime_submit hon run
    exact .inr ⟨hn, hon', hst'.trans hst, fun he => .inr (hkeep (hev ▸ he))⟩
  | reset clock cmd =>
    obtain ⟨-, -, hst⟩ := onTime_advance clock
    refine .inr ⟨?_, fun t ht => absurd ht (by simp [reset_fst]), hst, fun _ => .inl cmd⟩
    unfold reset
    split <;> simp
  | completion event =>
    exact .inl ⟨_, rfl, (onComplete_fields p _).2.1, onComplete_drainState p _⟩
  | drainRequest clock => cases ha
  | drainResume clock => cases ha
  | resetStats clock =>
    obtain ⟨hon, hev, hst⟩ := onTime_advance clock
    exact .inr ⟨by simp, hon, hst, fun he => .inr (hev ▸ he)⟩

/-! ### Runs -/

/-- No `CMD_RESET` arrives while the device is draining. -/
def KeepsJob (s : State) : Action → Prop
  | .device a => s.dev.drainState = .draining → ¬ isReset a
  | _ => True

instance (a : Device.Action) : Decidable (isReset a) :=
  match a with
  | .mmioWrite _ off w data => inferInstanceAs (Decidable (isCommand cmdReset off w data))
  | .mmioRead _ _ _ | .completion | .drainRequest _ | .drainResume _ | .resetStats _ => .isFalse id

instance (s : State) (a : Action) : Decidable (KeepsJob s a) := by
  unfold KeepsJob
  split <;> infer_instance

structure Waits (s : State) : Prop where
  pending : s.dev.drainState = .draining → s.dev.completeEvent.isSome = true
  onTime : OnTime s.dev
  answered : s.answered = s.signalled + waiting s.dev
  count : s.count = s.others + waiting s.dev

theorem waits_init : Waits init := by
  refine ⟨?_, ?_, rfl, rfl⟩
  · intro h
    cases h
  · intro t ht
    cases ht

theorem step_device {s s' : State} {a : Device.Action} (h : step p s (.device a) = some s') :
    isDrain a = false ∧ ∃ d n, apply p s.dev a = some (.ok (d, n)) ∧ s.observe d n = some s' := by
  simp only [step] at h
  split at h
  · cases h
  · next hdrain =>
    split at h
    · next d n ha => exact ⟨Bool.eq_false_iff.mpr hdrain, d, n, ha, h⟩
    · cases h

/-- A completion ends the device's own wait; the manager hears of it if it waits. -/
theorem Waits.completed {s s' : State} {total : ℕ} (h : Waits s) (hev : d.completeEvent = none)
    (hst : d.drainState = if s.dev.drainState = .draining then .drained else s.dev.drainState)
    (hobs : s.observe d (.completed total) = some s') : Waits s' := by
  have hans := h.answered
  have hcount := h.count
  have hdone : d.drainState ≠ .draining := by
    rw [hst]
    split <;> simp_all
  have hwait : waiting d = 0 := if_neg hdone
  have honTime : OnTime d := by
    intro t ht
    rw [hev] at ht
    cases ht
  simp only [State.observe] at hobs
  split at hobs
  · next hdr =>
    have hone : waiting s.dev = 1 := if_pos hdr
    split at hobs
    · cases hobs
    · rw [← Option.some.inj hobs]
      refine ⟨fun hd => absurd hd hdone, honTime, ?_, ?_⟩
      · dsimp only
        omega
      · dsimp only
        omega
  · next hdr =>
    have hzero : waiting s.dev = 0 := if_neg hdr
    rw [← Option.some.inj hobs]
    refine ⟨fun hd => absurd hd hdone, honTime, ?_, ?_⟩
    · dsimp only
      omega
    · dsimp only
      omega

theorem Waits.kept {s : State} (h : Waits s) (hon : OnTime d)
    (hst : d.drainState = s.dev.drainState)
    (hkeep : s.dev.drainState = .draining → d.completeEvent.isSome = true) :
    Waits { s with dev := d } := by
  have hsame : waiting d = waiting s.dev := by
    unfold waiting
    rw [hst]
  refine ⟨fun hd => hkeep (hst ▸ hd), hon, ?_, ?_⟩
  · show s.answered = s.signalled + waiting d
    rw [hsame]
    exact h.answered
  · show s.count = s.others + waiting d
    rw [hsame]
    exact h.count

theorem Waits.device {s s' : State} {a : Device.Action} (h : Waits s)
    (hk : KeepsJob s (.device a)) (hs : step p s (.device a) = some s') : Waits s' := by
  obtain ⟨hdrain, d, n, ha, hobs⟩ := step_device hs
  rcases effect_cases (apply_sound ha) hdrain with ⟨total, rfl, hev, hst⟩ | ⟨hn, hon, hst, hkeep⟩
  · exact h.completed hev hst hobs
  · have hquiet : s' = { s with dev := d } := by
      cases n with
      | completed total => exact absurd rfl (hn total)
      | quiet | value | accepted | rejected | ignored | cancelled =>
        exact (Option.some.inj hobs).symm
    rw [hquiet]
    exact h.kept hon hst fun hd => (hkeep (h.pending hd)).resolve_left (hk hd)

theorem Waits.tryDrain {s : State} {tick others : ℕ} {d : Dev} (h : Waits s)
    (ha : apply p s.dev (.drainRequest tick) = some (.ok (d, n))) (hfree : s.count = 0) :
    Waits (tryDrain s d others) := by
  cases apply_sound ha with
  | drainRequest clock =>
    obtain ⟨hon, -, -⟩ := onTime_advance clock
    have hzero : waiting s.dev = 0 := by
      have hcount := h.count
      omega
    have hans := h.answered
    refine ⟨fun hd => ?_, hon, ?_, rfl⟩
    · simp only [Drain.tryDrain, dmDrain, drain] at hd ⊢
      split at hd
      · next he => exact he
      · cases hd
    · simp only [Drain.tryDrain]
      omega

theorem Waits.resume {s : State} {tick : ℕ} {d : Dev} (h : Waits s)
    (ha : apply p s.dev (.drainResume tick) = some (.ok (d, n)))
    (hidle : s.dev.drainState ≠ .draining) : Waits { s with dev := d, state := .running } := by
  cases apply_sound ha with
  | drainResume clock =>
    obtain ⟨hon, -, -⟩ := onTime_advance clock
    have hzero : waiting s.dev = 0 := if_neg hidle
    have hans := h.answered
    have hcount := h.count
    refine ⟨fun hd => ?_, hon, ?_, ?_⟩
    · cases hd
    · rw [hzero] at hans
      exact hans
    · rw [hzero] at hcount
      exact hcount

theorem Waits.step {s s' : State} {a : Action} (h : Waits s) (hk : KeepsJob s a)
    (hs : step p s a = some s') : Waits s' := by
  cases a with
  | device a => exact h.device hk hs
  | tryDrain tick others =>
    simp only [Drain.step] at hs
    split at hs
    · cases hs
    · next hguard =>
      split at hs
      · next d n ha =>
        rw [← Option.some.inj hs]
        exact h.tryDrain ha (by_contra fun hc => hguard (.inr hc))
      · cases hs
  | otherDone =>
    simp only [Drain.step] at hs
    split at hs
    · next hpos =>
      rw [← Option.some.inj hs]
      refine ⟨h.pending, h.onTime, h.answered, ?_⟩
      have hcount := h.count
      dsimp only
      omega
    · cases hs
  | resume tick =>
    simp only [Drain.step] at hs
    split at hs
    · cases hs
    · next hguard =>
      split at hs
      · next d n ha =>
        rw [← Option.some.inj hs]
        exact h.resume ha fun hd => hguard (.inr (.inr (.inr hd)))
      · cases hs

/-- The pending completion can be served, and serving it ends the wait. -/
theorem Waits.signals {s : State} (h : Waits s) (hd : s.dev.drainState = .draining) :
    ∃ s', Drain.step p s (.device .completion) = some s' ∧ s'.signalled = s.signalled + 1 ∧
      s'.dev.drainState = .drained := by
  obtain ⟨tick, he⟩ := Option.isSome_iff_exists.mp (h.pending hd)
  have hone : waiting s.dev = 1 := if_pos hd
  have hcount := h.count
  have hpos : s.count ≠ 0 := by omega
  have hstate := onComplete_drainState p { s.dev with curTick := tick, completeEvent := none }
  rw [if_pos hd] at hstate
  refine ⟨{ s with
    dev := (onComplete p { s.dev with curTick := tick, completeEvent := none }).1
    count := s.count - 1
    signalled := s.signalled + 1 }, ?_, rfl, hstate⟩
  have ha : apply p s.dev .completion =
      some (.ok (onComplete p { s.dev with curTick := tick, completeEvent := none })) := by
    simp only [apply, he]
  simp only [Drain.step, isDrain, ha, Bool.false_eq_true, if_false]
  simp only [onComplete, State.observe, hd, if_true, if_neg hpos]

theorem write_reset {off : ℕ} {w : Width} {data : ℕ} (h : isCommand cmdReset off w data) :
    write p d off w data = .ok (reset d) := by
  have hne : ¬ isCommand cmdSubmit off w data := by
    intro hs
    have hcmd : cmdSubmit = cmdReset := hs.2.symm.trans h.2
    exact absurd hcmd (by decide)
  rw [write_eq, if_neg hne, if_pos h]

theorem reset_strands {s s' : State} {a : Device.Action} (hd : s.dev.drainState = .draining)
    (hr : isReset a) (hs : step p s (.device a) = some s') :
    s'.dev.drainState = .draining ∧ s'.dev.completeEvent = none := by
  obtain ⟨-, d, n, ha, hobs⟩ := step_device hs
  cases a with
  | mmioWrite tick off w data =>
    simp only [apply, Option.map_eq_some_iff, write_reset hr, Except.ok.injEq] at ha
    obtain ⟨d1, hadv, hreset⟩ := ha
    obtain ⟨-, -, hst⟩ := onTime_advance hadv
    obtain ⟨rfl, rfl⟩ := Prod.mk.inj hreset
    have hs' : s' = { s with dev := (reset d1).1 } := by
      rw [reset_fst]
      split at hobs <;> exact (Option.some.inj hobs).symm
    rw [hs']
    exact ⟨hst.trans hd, rfl⟩
  | mmioRead | completion | drainRequest | drainResume | resetStats => cases hr

/-- In every run without a `CMD_RESET` during a drain, the device is draining only
while its completion is pending, which cannot be passed over in time; each
`Draining` it has answered is signalled exactly once, by that completion; and the
manager waits for the device only then. A reset during a drain breaks this at
once. -/
theorem drain_waits_for_pending_job (p : Params) (as : List Action) (s : State)
    (hr : exec (step p) init as = some s) :
    (Meets (step p) KeepsJob init as →
      (s.dev.drainState = .draining →
        (∃ tick, s.dev.completeEvent = some tick ∧ s.dev.curTick ≤ tick) ∧
        ∃ s', step p s (.device .completion) = some s' ∧ s'.signalled = s.signalled + 1 ∧
          s'.dev.drainState = .drained) ∧
      s.answered = s.signalled + (if s.dev.drainState = .draining then 1 else 0) ∧
      s.count = s.others + (if s.dev.drainState = .draining then 1 else 0)) ∧
    (∀ a s', ¬ KeepsJob s a → step p s a = some s' →
      s'.dev.drainState = .draining ∧ s'.dev.completeEvent = none) := by
  constructor
  · intro hm
    have hw : Waits s :=
      exec_invariant_of_meets (fun _ _ _ hi hc hs => hi.step hc hs) waits_init hm hr
    refine ⟨fun hd => ⟨?_, hw.signals hd⟩, hw.answered, hw.count⟩
    obtain ⟨tick, he⟩ := Option.isSome_iff_exists.mp (hw.pending hd)
    exact ⟨tick, he, hw.onTime tick he⟩
  · intro a s' hno hs
    cases a with
    | device a =>
      simp only [KeepsJob, Classical.not_imp, not_not] at hno
      exact reset_strands hno.1 hno.2 hs
    | tryDrain | otherDone | resume => exact absurd trivial hno

-- a 4 KiB job submitted at tick 7, and a drain at tick 9 for which one other object has to wait
def drainedAt9 : List Action :=
  [.device (.mmioWrite 3 offSrcBytes .w8 2048), .device (.mmioWrite 5 offDstBytes .w8 2048),
    .device (.mmioWrite 7 offCmd .w4 cmdSubmit), .tryDrain 9 1]

def drainingAt9 : State where
  dev := { submittedAt7.dev with drainState := .draining, curTick := 9 }
  count := 2
  state := .draining
  others := 1
  answered := 1
  signalled := 0

theorem drain_waits_for_submitted_job :
    (drainingAt9.dev.drainState = .draining ∧
      ∃ tick, drainingAt9.dev.completeEvent = some tick ∧ drainingAt9.dev.curTick ≤ tick) ∧
    drainingAt9.answered = drainingAt9.signalled + 1 ∧
    drainingAt9.count = drainingAt9.others + 1 := by
  have h := drain_waits_for_pending_job .exact drainedAt9 drainingAt9 (by decide +kernel)
  obtain ⟨hpend, hans, hcount⟩ := h.1 (by decide +kernel)
  exact ⟨⟨rfl, (hpend rfl).1⟩, hans, hcount⟩

/-- The other object still has to drain, and a `CMD_RESET` on its way reaches the
device: the manager waits for a device that has nothing pending. -/
theorem reset_leaves_manager_waiting :
    (exec (step .exact) init
      (drainedAt9 ++ [.device (.mmioWrite 11 offCmd .w4 cmdReset), .otherDone])).map
        (fun s => (s.dev.drainState, s.dev.completeEvent, s.count, s.others)) =
      some (.draining, none, 1, 0) := by
  decide +kernel

end PnmCompaction.Device.Drain

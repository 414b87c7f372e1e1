import PnmCompaction.Device.Invariant

/-!
# The cumulative registers

`JOBS_DONE` and `BYTES_PROC` (pnm_compactor.hh 50-51, pnm_compactor.cc 93-113)
are read from the statistics of the device, which the simulator can set to zero
at any time; the guest script of run_pnm.py does so itself. `jobs` and `bytes`
count, outside the program, what has been completed since the device was created.
-/

namespace PnmCompaction.Device.Registers

open PnmCompaction.Lib.Exec

variable {p : Params}

structure Tally where
  dev : Dev
  jobs : ℕ
  bytes : ℕ
  deriving DecidableEq, Repr

def init : Tally := ⟨Dev.init, 0, 0⟩

inductive Event where
  | device (a : Action)
  | dumpStats (tick : ℕ)
  deriving DecidableEq, Repr

def Tally.observe (t : Tally) (d : Dev) : Note → Tally
  | .completed total => ⟨d, t.jobs + 1, t.bytes + total⟩
  | _ => { t with dev := d }

-- a dump prints the statistics and leaves them as they are
def step (p : Params) (t : Tally) : Event → Option Tally
  | .device a =>
    match apply p t.dev a with
    | some (.ok (d, n)) => some (t.observe d n)
    | _ => none
  | .dumpStats tick => (advance t.dev tick).map fun d => { t with dev := d }

/-- The two registers, read at their own widths, show the counts. -/
def Cumulative (p : Params) (t : Tally) : Prop :=
  read p t.dev offJobsDone .w4 = t.jobs ∧ read p t.dev offBytesProc .w8 = t.bytes

/-- The statistics are not reset once a job has completed. -/
def KeepsCounts (t : Tally) : Event → Prop
  | .device (.resetStats _) => t.jobs = 0
  | _ => True

instance (t : Tally) : (e : Event) → Decidable (KeepsCounts t e)
  | .device (.resetStats _) => inferInstanceAs (Decidable (t.jobs = 0))
  | .device (.mmioRead _ _ _) | .device (.mmioWrite _ _ _ _) | .device .completion
  | .device (.drainRequest _) | .device (.drainResume _) | .dumpStats _ => .isTrue trivial

/-! ### What a step does to the statistics -/

theorem advance_stats {d d' : Dev} {tick : ℕ} (h : advance d tick = some d') :
    d'.stats = d.stats := by
  rw [advance_eq h]

theorem submit_stats {d d' : Dev} {n : Note} (h : submit p d = .ok (d', n)) :
    d'.stats = d.stats ∧ ∀ total, n ≠ .completed total := by
  rcases submit_cases h with ⟨-, rfl, rfl⟩ | ⟨-, -, rfl, rfl⟩ | ⟨-, -, -, t, -, -, rfl, rfl⟩
  · exact ⟨rfl, fun _ => Note.noConfusion⟩
  · exact ⟨rfl, fun _ => Note.noConfusion⟩
  · exact ⟨rfl, fun _ => Note.noConfusion⟩

theorem reset_note_ne (d : Dev) (total : ℕ) : (reset d).2 ≠ .completed total := by
  have hnote : (reset d).2 = if d.completeEvent.isSome then .cancelled else .quiet := rfl
  rw [hnote]
  split <;> exact Note.noConfusion

/-- An action books a completed job, resets the statistics, or leaves them alone. -/
theorem effect_stats {d d' : Dev} {a : Action} {n : Note} (h : Effect p d a d' n) :
    (a = .completion ∧ n = .completed (totalBytes d) ∧ d'.stats = bookedStats p d) ∨
    ((∃ tick, a = .resetStats tick) ∧ n = .quiet ∧ d'.stats = ⟨0, 0⟩) ∨
    ((∀ tick, a ≠ .resetStats tick) ∧ (∀ total, n ≠ .completed total) ∧ d'.stats = d.stats) := by
  cases h with
  | read clock =>
    have hs := advance_stats clock
    exact .inr (.inr ⟨fun _ => Action.noConfusion, fun _ => Note.noConfusion, hs⟩)
  | registers clock =>
    have hs := advance_stats clock
    exact .inr (.inr ⟨fun _ => Action.noConfusion, fun _ => Note.noConfusion, hs⟩)
  | submit clock cmd run =>
    obtain ⟨hstats, hnote⟩ := submit_stats run
    exact .inr (.inr ⟨fun _ => Action.noConfusion, hnote, hstats.trans (advance_stats clock)⟩)
  | reset clock cmd =>
    have hs := advance_stats clock
    exact .inr (.inr ⟨fun _ => Action.noConfusion, reset_note_ne _, hs⟩)
  | completion event =>
    refine .inl ⟨rfl, rfl, ?_⟩
    rw [onComplete_fst]
    rfl
  | drainRequest clock =>
    have hs := advance_stats clock
    exact .inr (.inr ⟨fun _ => Action.noConfusion, fun _ => Note.noConfusion, hs⟩)
  | drainResume clock =>
    have hs := advance_stats clock
    exact .inr (.inr ⟨fun _ => Action.noConfusion, fun _ => Note.noConfusion, hs⟩)
  | resetStats clock => exact .inr (.inl ⟨⟨_, rfl⟩, rfl, rfl⟩)

theorem observe_of_ne {t : Tally} {d : Dev} {n : Note} (h : ∀ total, n ≠ .completed total) :
    t.observe d n = { t with dev := d } := by
  cases n with
  | completed total => exact absurd rfl (h total)
  | quiet => rfl
  | value v => rfl
  | accepted total => rfl
  | rejected => rfl
  | ignored => rfl
  | cancelled => rfl

/-- A step counts a completed job and books it, resets the statistics, or changes
neither the counts nor the statistics. -/
theorem step_cases {t t' : Tally} {e : Event} (h : step p t e = some t') :
    (e = .device .completion ∧ t'.jobs = t.jobs + 1 ∧ t'.bytes = t.bytes + totalBytes t.dev ∧
      t'.dev.stats = bookedStats p t.dev) ∨
    ((∃ tick, e = .device (.resetStats tick)) ∧ t'.jobs = t.jobs ∧ t'.bytes = t.bytes ∧
      t'.dev.stats = ⟨0, 0⟩) ∨
    ((∀ tick, e ≠ .device (.resetStats tick)) ∧ t'.jobs = t.jobs ∧ t'.bytes = t.bytes ∧
      t'.dev.stats = t.dev.stats) := by
  cases e with
  | dumpStats tick =>
    obtain ⟨d, hadv, rfl⟩ := Option.map_eq_some_iff.mp h
    exact .inr (.inr ⟨fun _ => Event.noConfusion, rfl, rfl, advance_stats hadv⟩)
  | device a =>
    unfold step at h
    dsimp only at h
    split at h
    · next d n ha =>
      obtain rfl := Option.some.inj h
      rcases effect_stats (apply_sound ha) with ⟨rfl, rfl, hs⟩ | ⟨⟨tick, rfl⟩, rfl, hs⟩ |
        ⟨hne, hnote, hs⟩
      · exact .inl ⟨rfl, rfl, rfl, hs⟩
      · exact .inr (.inl ⟨⟨tick, rfl⟩, rfl, rfl, hs⟩)
      · rw [observe_of_ne hnote]
        exact .inr (.inr ⟨fun tick heq => hne tick (Event.device.inj heq), rfl, rfl, hs⟩)
    · cases h

theorem step_mono {t t' : Tally} {e : Event} (h : step p t e = some t') :
    t.jobs ≤ t'.jobs ∧ t.bytes ≤ t'.bytes := by
  rcases step_cases h with ⟨-, hj, hb, -⟩ | ⟨-, hj, hb, -⟩ | ⟨-, hj, hb, -⟩ <;> omega

theorem run_mono {es : List Event} {t t' : Tally} (h : exec (step p) t es = some t') :
    t.jobs ≤ t'.jobs ∧ t.bytes ≤ t'.bytes := by
  refine exec_invariant (I := fun u => t.jobs ≤ u.jobs ∧ t.bytes ≤ u.bytes) ?_
    ⟨le_rfl, le_rfl⟩ h
  intro u e v hu hs
  obtain ⟨hj, hb⟩ := step_mono hs
  exact ⟨hu.1.trans hj, hu.2.trans hb⟩

/-! ### The statistics as counts -/

/-- As long as the counts fit, the statistics are equal to them. -/
structure Kept (t : Tally) : Prop where
  stats : t.jobs < 2 ^ 32 → t.bytes < 2 ^ 53 → t.dev.stats = ⟨t.bytes, t.jobs⟩
  nothing : t.jobs = 0 → t.bytes = 0

theorem kept_init : Kept init := by
  refine ⟨fun _ _ => ?_, fun _ => rfl⟩
  simp only [init, Dev.init, Nat.cast_zero]

-- below 2^53 the additions of doubles are exact
theorem bookedStats_eq {d : Dev} {jobs bytes : ℕ} (h : d.stats = ⟨bytes, jobs⟩)
    (hj : jobs + 1 < 2 ^ 32) (hb : bytes + totalBytes d < 2 ^ 53) :
    bookedStats p d = ⟨(bytes + totalBytes d : ℕ), (jobs + 1 : ℕ)⟩ := by
  have htotal := p.toDouble_nat (totalBytes d) (by omega)
  have hbytes := p.toDouble_nat (bytes + totalBytes d) (by omega)
  have hjobs := p.toDouble_nat (jobs + 1) (by omega)
  rw [Nat.cast_add] at hbytes
  rw [Nat.cast_add, Nat.cast_one] at hjobs
  simp only [bookedStats, h, htotal, hbytes, hjobs, Nat.cast_add, Nat.cast_one]

theorem Kept.step {t t' : Tally} {e : Event} (h : Kept t) (hc : KeepsCounts t e)
    (hs : step p t e = some t') : Kept t' := by
  rcases step_cases hs with ⟨-, hj, hb, hst⟩ | ⟨⟨tick, rfl⟩, hj, hb, hst⟩ | ⟨-, hj, hb, hst⟩
  · refine ⟨fun hj' hb' => ?_, fun h0 => absurd h0 (by omega)⟩
    rw [hj] at hj'
    rw [hb] at hb'
    rw [hst, hj, hb]
    exact bookedStats_eq (h.stats (by omega) (by omega)) hj' hb'
  · have hjobs : t.jobs = 0 := hc
    have hbytes := h.nothing hjobs
    refine ⟨fun _ _ => ?_, fun _ => hb.trans hbytes⟩
    rw [hst, hj, hb, hjobs, hbytes, Nat.cast_zero]
  · refine ⟨fun hj' hb' => ?_, fun h0 => hb.trans (h.nothing (by omega))⟩
    rw [hst, hj, hb]
    exact h.stats (by omega) (by omega)

theorem castU64_nat (p : Params) {n : ℕ} (h : n < 2 ^ 64) : p.castU64 (n : ℚ) = n := by
  have hlt : (n : ℚ) < 2 ^ 64 := by exact_mod_cast h
  rw [p.castU64_eq _ (Nat.cast_nonneg n) hlt, Nat.floor_natCast]

theorem read_jobsDone {d : Dev} {jobs : ℕ} (h : d.stats.jobsCompleted = jobs)
    (hj : jobs < 2 ^ 32) : read p d offJobsDone .w4 = jobs := by
  have hread : read p d offJobsDone .w4 = p.castU64 d.stats.jobsCompleted % 2 ^ 32 := rfl
  rw [hread, h, castU64_nat p (by omega), Nat.mod_eq_of_lt hj]

theorem read_bytesProc {d : Dev} {bytes : ℕ} (h : d.stats.bytesProcessed = bytes)
    (hb : bytes < 2 ^ 64) : read p d offBytesProc .w8 = bytes := by
  have hread : read p d offBytesProc .w8 = p.castU64 d.stats.bytesProcessed % 2 ^ 64 := rfl
  rw [hread, h, castU64_nat p hb, Nat.mod_eq_of_lt hb]

theorem Kept.cumulative {t : Tally} (h : Kept t) (hj : t.jobs < 2 ^ 32) (hb : t.bytes < 2 ^ 53) :
    Cumulative p t := by
  have hstats := h.stats hj hb
  exact ⟨read_jobsDone (by rw [hstats]) hj, read_bytesProc (by rw [hstats]) (by omega)⟩

theorem kept_run {es : List Event} {t : Tally} (hm : Meets (step p) KeepsCounts init es)
    (h : exec (step p) init es = some t) : Kept t :=
  exec_invariant_of_meets (fun _ _ _ hi hc hs => hi.step hc hs) kept_init hm h

/-- A reset that leaves the registers right happened before any job completed. -/
theorem keepsCounts_of_cumulative {t t' : Tally} {e : Event} (hs : step p t e = some t')
    (h : Cumulative p t') : KeepsCounts t e := by
  unfold KeepsCounts
  split
  · next tick =>
    rcases step_cases hs with ⟨heq, -⟩ | ⟨-, hj, -, hst⟩ | ⟨hne, -⟩
    · cases heq
    · have hzero : read p t'.dev offJobsDone .w4 = 0 :=
        read_jobsDone (by rw [hst, Nat.cast_zero]) (by decide)
      rw [← hj, ← h.1, hzero]
    · exact absurd rfl (hne tick)
  · trivial

theorem meets_of_cumulative {es : List Event} {s t : Tally} (h : exec (step p) s es = some t)
    (hall : ∀ pre post u, es = pre ++ post → exec (step p) s pre = some u → Cumulative p u) :
    Meets (step p) KeepsCounts s es := by
  induction es generalizing s with
  | nil => trivial
  | cons e es ih =>
    refine ⟨?_, fun u hu => ih ?_ ?_⟩
    · obtain ⟨u, hu, -⟩ := exec_cons.mp h
      exact keepsCounts_of_cumulative hu
        (hall [e] es u rfl (exec_cons.mpr ⟨u, hu, rfl⟩))
    · obtain ⟨v, hv, hr⟩ := exec_cons.mp h
      obtain rfl := Option.some.inj (hu.symm.trans hv)
      exact hr
    · intro pre post v heq hv
      exact hall (e :: pre) post v (by rw [heq, List.cons_append]) (exec_cons.mpr ⟨u, hu, hv⟩)

/-- In a run with fewer than 2^32 jobs and 2^53 bytes the two registers show the
totals since the device was created, in every state of the run, exactly when the
statistics are never reset after a job has completed; then no read is less than
an earlier one. -/
theorem registers_cumulative_iff (p : Params) (es : List Event) (t : Tally)
    (h : exec (step p) init es = some t) (hj : t.jobs < 2 ^ 32) (hb : t.bytes < 2 ^ 53) :
    ((∀ pre post u, es = pre ++ post → exec (step p) init pre = some u → Cumulative p u) ↔
      Meets (step p) KeepsCounts init es) ∧
    (Meets (step p) KeepsCounts init es →
      ∀ pre mid post u v, es = pre ++ mid ++ post → exec (step p) init pre = some u →
        exec (step p) u mid = some v →
        read p u.dev offJobsDone .w4 ≤ read p v.dev offJobsDone .w4 ∧
        read p u.dev offBytesProc .w8 ≤ read p v.dev offBytesProc .w8) := by
  have hright : Meets (step p) KeepsCounts init es → ∀ pre post u, es = pre ++ post →
      exec (step p) init pre = some u → Cumulative p u := by
    rintro hm pre post u rfl hu
    obtain ⟨u', hu', hpost⟩ := exec_append.mp h
    obtain rfl := Option.some.inj (hu'.symm.trans hu)
    obtain ⟨hju, hbu⟩ := run_mono hpost
    exact (kept_run hm.of_append hu).cumulative (by omega) (by omega)
  refine ⟨⟨meets_of_cumulative h, hright⟩, ?_⟩
  intro hm pre mid post u v heq hu hv
  have hcu := hright hm pre (mid ++ post) u (by rw [heq, List.append_assoc]) hu
  have hcv := hright hm (pre ++ mid) post v heq (exec_append.mpr ⟨u, hu, hv⟩)
  obtain ⟨hjobs, hbytes⟩ := run_mono hv
  rw [hcu.1, hcu.2, hcv.1, hcv.2]
  exact ⟨hjobs, hbytes⟩

-- one job of 3 bytes, submitted at tick 1
def oneJob : List Event :=
  [.device (.mmioWrite 0 offSrcBytes .w8 3), .device (.mmioWrite 1 offCmd .w4 cmdSubmit),
    .device .completion]

def afterOneJob : Tally where
  dev := { Dev.init with
    srcBytesReg := 3
    statusReg := statusDone
    stats := ⟨3, 1⟩
    curTick := 500112 }
  jobs := 1
  bytes := 3

def oneJobDumped : List Event := oneJob ++ [.dumpStats 500112]

theorem registers_cumulative_iff_dump : Cumulative Params.exact afterOneJob := by
  have hrun : exec (step Params.exact) init oneJobDumped = some afterOneJob := by decide +kernel
  have hkeeps : Meets (step Params.exact) KeepsCounts init oneJobDumped := by decide +kernel
  have h := registers_cumulative_iff Params.exact oneJobDumped afterOneJob hrun (by decide)
    (by decide)
  exact h.1.mpr hkeeps oneJobDumped [] afterOneJob (List.append_nil _).symm hrun

/-- `m5 resetstats` after a job: the next read of `JOBS_DONE` is 0, one less than
the read before it. -/
theorem registers_zero_after_reset :
    ∃ t, exec (step Params.exact) init oneJob = some afterOneJob ∧
      exec (step Params.exact) afterOneJob [.device (.resetStats 500113)] = some t ∧
      t.jobs = 1 ∧ t.bytes = 3 ∧
      read Params.exact afterOneJob.dev offJobsDone .w4 = 1 ∧
      read Params.exact t.dev offJobsDone .w4 = 0 ∧
      read Params.exact t.dev offBytesProc .w8 = 0 := by
  refine ⟨⟨{ afterOneJob.dev with stats := ⟨0, 0⟩, curTick := 500113 }, 1, 3⟩, ?_⟩
  decide +kernel

end PnmCompaction.Device.Registers

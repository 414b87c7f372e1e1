import PnmCompaction.Device.Invariant

/-!
# A checkpoint of the drained device

`PNMCompactor` overrides neither `serialize` nor `unserialize`, so a restored
device has the members its constructor gives it (pnm_compactor.cc:40-57); the
clock and the guest memory, where the DMA record lies, are restored by others.
The two devices are compared by the values that later MMIO reads return.

`Known` follows what of the lost state a continuation has overwritten itself: a
continuation that never depends on the rest cannot tell the two devices apart.
-/

namespace PnmCompaction.Device.Checkpoint

open PnmCompaction.Lib.Exec

variable {p : Params} {d d' e e' : Dev}

def resumed (d : Dev) : Dev := { d with drainState := .running }

def restored (d : Dev) : Dev := { Dev.init with dmaRecord := d.dmaRecord, curTick := d.curTick }

/-! ### Continuations -/

inductive Op where
  | read (off : ℕ) (w : Width)
  | write (off : ℕ) (w : Width) (data : ℕ)
  deriving DecidableEq, Repr

/-- `completionFirst`: a completion due at this very tick is served before the access. -/
structure Access where
  tick : ℕ
  completionFirst : Bool
  op : Op
  deriving DecidableEq, Repr

def Access.action (a : Access) : Action :=
  match a.op with
  | .read off w => .mmioRead a.tick off w
  | .write off w data => .mmioWrite a.tick off w data

def Access.after (a : Access) (tick : ℕ) : Bool :=
  tick < a.tick || (tick == a.tick && a.completionFirst)

-- the event queue, up to the access
def serve (p : Params) (d : Dev) (a : Access) : Dev :=
  match d.completeEvent with
  | some tick =>
    if a.after tick then (onComplete p { d with curTick := tick, completeEvent := none }).1 else d
  | none => d

def values : Note → List ℕ
  | .value v => [v]
  | _ => []

def access (p : Params) (d : Dev) (a : Access) : Option (Dev × List ℕ) :=
  match apply p (serve p d a) a.action with
  | some (.ok (d', n)) => some (d', values n)
  | _ => none

/-- The values that the reads of a continuation return. -/
def reads (p : Params) : Dev → List Access → Option (List ℕ) := outputs (access p)

/-! ### What a continuation depends on -/

structure Known where
  status : Bool
  src : Bool
  dst : Bool
  bytes : Bool
  jobs : Bool
  deriving DecidableEq, Repr

-- what the constructor happens to restore
def known (d : Dev) : Known where
  status := d.statusReg == 0
  src := d.srcBytesReg == 0
  dst := d.dstBytesReg == 0
  bytes := d.stats.bytesProcessed == 0
  jobs := d.stats.jobsCompleted == 0

/-- `none`: the access depends on lost state. -/
def Known.next (k : Known) (a : Access) : Option Known :=
  match a.op with
  | .read off _ =>
    if off = offStatus then
      if k.status then some k else none
    else if off = offBytesProc then
      if k.bytes then some k else none
    else if off = offJobsDone then
      if k.jobs then some k else none
    else some k
  | .write off w data =>
    if isCommand cmdSubmit off w data then
      if k.src ∧ k.dst then some { k with status := true } else none
    else if isCommand cmdReset off w data then some { k with status := true }
    else
      some { k with src := k.src || off == offSrcBytes, dst := k.dst || off == offDstBytes }

def Covered (d : Dev) (as : List Access) : Prop := (exec Known.next (known d) as).isSome = true

instance (d : Dev) (as : List Access) : Decidable (Covered d as) :=
  inferInstanceAs (Decidable (_ = true))

/-! ### Agreement on what is known -/

structure Agree (k : Known) (d d' : Dev) : Prop where
  clock : d.curTick = d'.curTick
  busy : d.busy = d'.busy
  event : d.completeEvent = d'.completeEvent
  status : k.status = true → d.statusReg = d'.statusReg
  src : k.src = true → d.srcBytesReg = d'.srcBytesReg
  dst : k.dst = true → d.dstBytesReg = d'.dstBytesReg
  bytes : k.bytes = true → d.stats.bytesProcessed = d'.stats.bytesProcessed
  jobs : k.jobs = true → d.stats.jobsCompleted = d'.stats.jobsCompleted
  /-- A job that is running was submitted by the continuation. -/
  running : d.busy = true ∨ d.completeEvent.isSome = true →
    k.status = true ∧ k.src = true ∧ k.dst = true

inductive Alike (k : Known) : Except Fault (Dev × Note) → Except Fault (Dev × Note) → Prop where
  | ok {e e' n} (agree : Agree k e e') : Alike k (.ok (e, n)) (.ok (e', n))
  | error (f : Fault) : Alike k (.error f) (.error f)

variable {k : Known}

theorem Agree.total (h : Agree k d d') (hs : k.src = true) (hd : k.dst = true) :
    totalBytes d = totalBytes d' := by
  unfold totalBytes
  rw [h.src hs, h.dst hd]

theorem Agree.completed (h : Agree k d d') (tick : ℕ) (he : d.completeEvent.isSome = true) :
    Agree k (onComplete p { d with curTick := tick, completeEvent := none }).1
      (onComplete p { d' with curTick := tick, completeEvent := none }).1 := by
  obtain ⟨hst, hsrc, hdst⟩ := h.running (.inr he)
  rw [onComplete_fst, onComplete_fst]
  refine ⟨rfl, rfl, rfl, fun _ => rfl, h.src, h.dst, fun hk => ?_, fun hk => ?_, fun hrun => ?_⟩
  · have htotal := h.total hsrc hdst
    unfold totalBytes at htotal
    simp only [bookedStats, totalBytes, htotal, h.bytes hk]
  · simp only [bookedStats, h.jobs hk]
  · simp at hrun

theorem Agree.serve (h : Agree k d d') (a : Access) : Agree k (serve p d a) (serve p d' a) := by
  unfold Checkpoint.serve
  rw [← h.event]
  cases he : d.completeEvent with
  | none => exact h
  | some tick =>
    dsimp only
    split
    · exact h.completed tick (by rw [he]; rfl)
    · exact h

theorem Agree.submit (h : Agree k d d') (hs : k.src = true) (hd : k.dst = true) :
    Alike { k with status := true } (submit p d) (submit p d') := by
  have htotal := h.total hs hd
  have htick : submitTick p d = submitTick p d' := by
    unfold submitTick
    rw [h.clock, htotal]
  have hb : (d'.busy = true) = (d.busy = true) := by rw [h.busy]
  have hm : (maxJobBytes < d'.srcBytesReg) = (maxJobBytes < d.srcBytesReg) := by rw [h.src hs]
  have he : (d'.completeEvent.isSome = true) = (d.completeEvent.isSome = true) := by rw [h.event]
  have ht : (submitTick p d' < d'.curTick) = (submitTick p d < d.curTick) := by
    rw [htick, h.clock]
  rw [submit_eq, submit_eq]
  simp only [hb, hm, he, ht]
  split
  · next hbusy =>
    obtain ⟨hst, -, -⟩ := h.running (.inl hbusy)
    exact .ok ⟨h.clock, h.busy, h.event, fun _ => h.status hst, h.src, h.dst, h.bytes, h.jobs,
      fun _ => ⟨rfl, hs, hd⟩⟩
  split
  · exact .ok ⟨h.clock, h.busy, h.event, fun _ => rfl, h.src, h.dst, h.bytes, h.jobs,
      fun _ => ⟨rfl, hs, hd⟩⟩
  split
  · exact .error _
  split
  · exact .error _
  · rw [htotal]
    exact .ok ⟨h.clock, rfl, congrArg some htick, fun _ => rfl, h.src, h.dst, h.bytes, h.jobs,
      fun _ => ⟨rfl, hs, hd⟩⟩

theorem Agree.reset (h : Agree k d d') :
    Alike { k with status := true } (.ok (reset d)) (.ok (reset d')) := by
  unfold Device.reset
  rw [h.event]
  refine .ok ⟨h.clock, rfl, rfl, fun _ => rfl, h.src, h.dst, h.bytes, h.jobs, fun hrun => ?_⟩
  simp at hrun

theorem Agree.registers (h : Agree k d d') (off : ℕ) (w : Width) (data : ℕ) :
    Agree { k with src := k.src || off == offSrcBytes, dst := k.dst || off == offDstBytes }
      (setRegisters d off w data) (setRegisters d' off w data) := by
  refine ⟨h.clock, h.busy, h.event, h.status, fun hk => ?_, fun hk => ?_, h.bytes, h.jobs,
    fun hrun => ?_⟩
  · simp only [Bool.or_eq_true, beq_iff_eq] at hk
    unfold setRegisters
    dsimp only
    split
    · rfl
    · next hoff => exact h.src (hk.resolve_right hoff)
  · simp only [Bool.or_eq_true, beq_iff_eq] at hk
    unfold setRegisters
    dsimp only
    split
    · rfl
    · next hoff => exact h.dst (hk.resolve_right hoff)
  · obtain ⟨hst, hsrc, hdst⟩ := h.running hrun
    exact ⟨hst, by rw [hsrc]; rfl, by rw [hdst]; rfl⟩

theorem Agree.write {k' : Known} {a : Access} {off : ℕ} {w : Width} {data : ℕ} (h : Agree k d d')
    (hop : a.op = .write off w data) (hk : k.next a = some k') :
    Alike k' (write p d off w data) (write p d' off w data) := by
  unfold Known.next at hk
  rw [hop] at hk
  dsimp only at hk
  rw [write_eq, write_eq]
  split at hk
  · next hcmd =>
    rw [if_pos hcmd, if_pos hcmd]
    split at hk
    · next hregs =>
      rw [← Option.some.inj hk]
      exact h.submit hregs.1 hregs.2
    · cases hk
  next hsub =>
  rw [if_neg hsub, if_neg hsub]
  split at hk
  · next hcmd =>
    rw [if_pos hcmd, if_pos hcmd, ← Option.some.inj hk]
    exact h.reset
  · next hres =>
    rw [if_neg hres, if_neg hres, ← Option.some.inj hk]
    exact .ok (h.registers off w data)

theorem Agree.read {k' : Known} {a : Access} {off : ℕ} {w : Width} (h : Agree k d d')
    (hop : a.op = .read off w) (hk : k.next a = some k') :
    k' = k ∧ read p d off w = read p d' off w := by
  unfold Known.next at hk
  rw [hop] at hk
  dsimp only at hk
  unfold Device.read
  split at hk
  · next hoff =>
    split at hk
    · next hst =>
      rw [if_pos hoff, if_pos hoff, h.status hst]
      exact ⟨(Option.some.inj hk).symm, rfl⟩
    · cases hk
  next hoff =>
  rw [if_neg hoff, if_neg hoff]
  split at hk
  · next hoff =>
    split at hk
    · next hst =>
      rw [if_pos hoff, if_pos hoff, h.bytes hst]
      exact ⟨(Option.some.inj hk).symm, rfl⟩
    · cases hk
  next hoff =>
  rw [if_neg hoff, if_neg hoff]
  split at hk
  · next hoff =>
    split at hk
    · next hst =>
      rw [if_pos hoff, if_pos hoff, h.jobs hst]
      exact ⟨(Option.some.inj hk).symm, rfl⟩
    · cases hk
  · next hoff =>
    rw [if_neg hoff, if_neg hoff]
    exact ⟨(Option.some.inj hk).symm, rfl⟩

theorem Agree.advance (h : Agree k d d') (tick : ℕ) :
    (∃ e e', advance d tick = some e ∧ advance d' tick = some e' ∧ Agree k e e') ∨
      (advance d tick = none ∧ advance d' tick = none) := by
  have hc : (d'.curTick ≤ tick ∧ tick < 2 ^ 64 ∧ ∀ t ∈ d'.completeEvent, tick ≤ t) =
      (d.curTick ≤ tick ∧ tick < 2 ^ 64 ∧ ∀ t ∈ d.completeEvent, tick ≤ t) := by
    rw [h.clock, h.event]
  unfold Device.advance
  simp only [hc]
  split
  · exact .inl ⟨_, _, rfl, rfl, rfl, h.busy, h.event, h.status, h.src, h.dst, h.bytes,
      h.jobs, h.running⟩
  · exact .inr ⟨rfl, rfl⟩

theorem Agree.access {k' : Known} {a : Access} (h : Agree k d d') (hk : k.next a = some k') :
    (∃ e e' o, access p d a = some (e, o) ∧ access p d' a = some (e', o) ∧ Agree k' e e') ∨
      (access p d a = none ∧ access p d' a = none) := by
  unfold Checkpoint.access Access.action
  rcases (h.serve (p := p) a).advance a.tick with ⟨e, e', he, he', hag⟩ | ⟨he, he'⟩
  · cases hop : a.op with
    | read off w =>
      obtain ⟨rfl, hread⟩ := hag.read (p := p) hop hk
      refine .inl ⟨e, e', [Device.read p e off w], ?_, ?_, hag⟩
      · simp only [apply, he, Option.map_some, values]
      · simp only [apply, he', Option.map_some, values, hread]
    | write off w data =>
      simp only [apply, he, he', Option.map_some]
      have hw := hag.write (p := p) hop hk
      generalize Device.write p e off w data = r at hw ⊢
      generalize Device.write p e' off w data = r' at hw ⊢
      cases hw with
      | ok agree => exact .inl ⟨_, _, _, rfl, rfl, agree⟩
      | error f => exact .inr ⟨rfl, rfl⟩
  · cases hop : a.op <;> simp only [apply, he, he', Option.map_none, and_self, or_true]

theorem agree_restored (hidle : d.completeEvent = none) (hb : d.busy = false) :
    Agree (known d) (resumed d) (restored d) := by
  refine ⟨rfl, hb, hidle, fun h => ?_, fun h => ?_, fun h => ?_, fun h => ?_, fun h => ?_,
    fun hrun => ?_⟩
  · exact beq_iff_eq.mp h
  · exact beq_iff_eq.mp h
  · exact beq_iff_eq.mp h
  · exact beq_iff_eq.mp h
  · exact beq_iff_eq.mp h
  · simp [resumed, hb, hidle] at hrun

theorem reads_eq_of_covered {as : List Access} (hidle : d.completeEvent = none)
    (hb : d.busy = false) (hc : Covered d as) :
    reads p (resumed d) as = reads p (restored d) as := by
  obtain ⟨k', hk⟩ := Option.isSome_iff_exists.mp hc
  exact outputs_eq_of_lockstep (fun _ _ _ _ _ h hnext => h.access hnext)
    (agree_restored hidle hb) hk

/-! ### What one access shows -/

def readAt (tick off : ℕ) (w : Width) : Access := ⟨tick, false, .read off w⟩

def submitAt (tick : ℕ) : Access := ⟨tick, false, .write offCmd .w4 cmdSubmit⟩

theorem serve_of_le {a : Access} (hf : a.completionFirst = false)
    (hle : ∀ t ∈ d.completeEvent, a.tick ≤ t) : serve p d a = d := by
  unfold serve
  cases he : d.completeEvent with
  | none => rfl
  | some t =>
    have hlt : ¬ t < a.tick := not_lt.mpr (hle t he)
    simp [Access.after, hf, hlt]

theorem advance_of_le {tick : ℕ} (hclock : d.curTick ≤ tick) (hlt : tick < 2 ^ 64)
    (hle : ∀ t ∈ d.completeEvent, tick ≤ t) : advance d tick = some { d with curTick := tick } :=
  if_pos ⟨hclock, hlt, hle⟩

theorem reads_one {tick off : ℕ} {w : Width} (hclock : d.curTick ≤ tick) (hlt : tick < 2 ^ 64)
    (hle : ∀ t ∈ d.completeEvent, tick ≤ t) :
    reads p d [readAt tick off w] = some [read p d off w] := by
  have hserve : serve p d (readAt tick off w) = d := serve_of_le rfl hle
  simp only [reads, outputs, access, hserve]
  simp only [readAt, Access.action, apply, advance_of_le hclock hlt hle, Option.map_some,
    Option.bind_some, values, List.append_nil]
  rfl

/-- One read tells the resumed and the restored device apart exactly when the
register itself does. -/
theorem reads_one_eq_iff {tick off : ℕ} {w : Width} (hidle : d.completeEvent = none)
    (hclock : d.curTick ≤ tick) (hlt : tick < 2 ^ 64) :
    reads p (resumed d) [readAt tick off w] = reads p (restored d) [readAt tick off w] ↔
      read p (resumed d) off w = read p (restored d) off w := by
  rw [reads_one (d := resumed d) hclock hlt, reads_one (d := restored d) hclock hlt]
  · simp
  · intro t ht
    cases ht
  · intro t ht
    cases hidle.symm.trans ht

theorem idle_of_drained (hcoh : Coherent d) (hd : drain d = .drained) :
    d.completeEvent = none ∧ d.busy = false := by
  have hidle : d.completeEvent = none := by
    unfold drain at hd
    split at hd
    · cases hd
    · next he => exact Option.not_isSome_iff_eq_none.mp he
  refine ⟨hidle, ?_⟩
  rw [← Bool.not_eq_true, hcoh.busy_iff_event, hidle]
  exact Bool.false_ne_true

theorem reads_submit {tick : ℕ} {as : List Access} (hidle : d.completeEvent = none)
    (hclock : d.curTick ≤ tick) (hlt : tick < 2 ^ 64) :
    reads p d (submitAt tick :: as) =
      match submit p { d with curTick := tick } with
      | .ok (d', _) => reads p d' as
      | .error _ => none := by
  have hle : ∀ t ∈ d.completeEvent, tick ≤ t := by
    intro t ht
    rw [hidle] at ht
    cases ht
  have hserve : serve p d (submitAt tick) = d := serve_of_le rfl hle
  simp only [reads, outputs, access, hserve]
  simp only [submitAt, Access.action, apply, advance_of_le hclock hlt hle, Option.map_some,
    write_cmdSubmit]
  cases hs : submit p { d with curTick := tick } with
  | error f => rfl
  | ok r =>
    obtain ⟨d', n⟩ := r
    have hquiet : values n = [] := by
      rcases submit_cases hs with ⟨-, -, rfl⟩ | ⟨-, -, -, rfl⟩ | ⟨-, -, -, t, -, -, -, rfl⟩ <;> rfl
    simp only [Option.bind_some, hquiet, List.nil_append, Option.map_id']

theorem submit_rejected (hb : d.busy = false) (hm : maxJobBytes < d.srcBytesReg) :
    submit p d = .ok ({ d with statusReg := statusError }, .rejected) := by
  rw [submit_eq, if_neg (by rw [hb]; decide), if_pos hm]

theorem submit_shows_lost_size {tick : ℕ} (hidle : d.completeEvent = none) (hb : d.busy = false)
    (hm : maxJobBytes < d.srcBytesReg) (hclock : d.curTick ≤ tick) (hlt : tick < 2 ^ 64) :
    reads p (resumed d) [submitAt tick, readAt tick offStatus .w4] ≠
      reads p (restored d) [submitAt tick, readAt tick offStatus .w4] := by
  have hkept : reads p (resumed d) [submitAt tick, readAt tick offStatus .w4] =
      some [statusError] := by
    have hsub : submit p { resumed d with curTick := tick } =
        .ok ({ resumed d with curTick := tick, statusReg := statusError }, .rejected) :=
      submit_rejected hb hm
    rw [reads_submit (d := resumed d) hidle hclock hlt, hsub]
    refine reads_one le_rfl hlt fun t ht => ?_
    cases hidle.symm.trans ht
  rw [hkept, reads_submit (d := restored d) rfl hclock hlt]
  cases hs : submit p { restored d with curTick := tick } with
  | error f => simp
  | ok r =>
    obtain ⟨d', n⟩ := r
    rcases submit_cases hs with ⟨hc, -⟩ | ⟨-, hc, -⟩ | ⟨-, -, -, t, hle, -, rfl, -⟩
    · cases hc
    · exact absurd hc (Nat.not_lt_zero _)
    · have hbusy : reads p { restored d with
          curTick := tick, busy := true, statusReg := statusBusy, completeEvent := some t }
          [readAt tick offStatus .w4] = some [statusBusy] :=
        reads_one le_rfl hlt fun t' ht' => Option.some.inj ht' ▸ hle
      dsimp only
      rw [hbusy]
      decide

/-- From every reachable drained state, a continuation that depends on none of
the lost state reads the same after a restore. The lost state is what single
accesses show: `STATUS`, the two counters, and the size left in `SRC_BYTES`. -/
theorem restore_unseen_when_covered (p : Params) (run : List Action) (c : Counted)
    (hr : exec (step p) Counted.init run = some c) (hd : drain c.dev = .drained) :
    (∀ as, Covered c.dev as → reads p (resumed c.dev) as = reads p (restored c.dev) as) ∧
    (∀ tick, c.dev.curTick ≤ tick → tick < 2 ^ 64 →
      (reads p (resumed c.dev) [readAt tick offStatus .w4] =
          reads p (restored c.dev) [readAt tick offStatus .w4] ↔ c.dev.statusReg = 0) ∧
      (reads p (resumed c.dev) [readAt tick offBytesProc .w8] =
          reads p (restored c.dev) [readAt tick offBytesProc .w8] ↔
        p.castU64 c.dev.stats.bytesProcessed % 2 ^ 64 = 0) ∧
      (reads p (resumed c.dev) [readAt tick offJobsDone .w4] =
          reads p (restored c.dev) [readAt tick offJobsDone .w4] ↔
        p.castU64 c.dev.stats.jobsCompleted % 2 ^ 32 = 0) ∧
      (maxJobBytes < c.dev.srcBytesReg →
        reads p (resumed c.dev) [submitAt tick, readAt tick offStatus .w4] ≠
          reads p (restored c.dev) [submitAt tick, readAt tick offStatus .w4])) := by
  have hcoh := (balanced_run hr).coherent
  obtain ⟨hidle, hb⟩ := idle_of_drained hcoh hd
  refine ⟨fun as hc => reads_eq_of_covered hidle hb hc, fun tick hclock hlt => ?_⟩
  have hzero : p.castU64 0 = 0 := by
    rw [p.castU64_eq 0 le_rfl (by norm_num), Nat.floor_zero]
  refine ⟨?_, ?_, ?_, fun hm => submit_shows_lost_size hidle hb hm hclock hlt⟩
  · rw [reads_one_eq_iff hidle hclock hlt]
    show c.dev.statusReg % 2 ^ 32 = 0 ↔ _
    rcases hcoh.status_range with h | h | h | h <;> rw [h] <;> decide
  · rw [reads_one_eq_iff hidle hclock hlt]
    show p.castU64 c.dev.stats.bytesProcessed % 2 ^ 64 = p.castU64 0 % 2 ^ 64 ↔ _
    rw [hzero, Nat.zero_mod]
  · rw [reads_one_eq_iff hidle hclock hlt]
    show p.castU64 c.dev.stats.jobsCompleted % 2 ^ 32 = p.castU64 0 % 2 ^ 32 ↔ _
    rw [hzero, Nat.zero_mod]

-- a 4 KiB job has run and the device is drained
def completedRun : List Action :=
  [.mmioWrite 3 offSrcBytes .w8 2048, .mmioWrite 5 offDstBytes .w8 2048,
    .mmioWrite 7 offCmd .w4 cmdSubmit, .completion, .drainRequest 651565]

def completedJob : Counted where
  dev := { Dev.init with
    srcBytesReg := 2048
    dstBytesReg := 2048
    statusReg := statusDone
    stats := ⟨4096, 1⟩
    drainState := .drained
    curTick := 651565 }
  accepted := 1
  completed := 1
  cancelled := 0

-- the doorbell of the next job, and polls of `STATUS` while it runs and when it is done
def nextDoorbell : List Access :=
  [⟨700000, true, .write offCmd .w4 cmdReset⟩, ⟨700001, true, .write offSrcBytes .w8 1024⟩,
    ⟨700002, true, .write offDstBytes .w8 1024⟩, ⟨700003, true, .write offCmd .w4 cmdSubmit⟩,
    readAt 700004 offStatus .w4, readAt 9000000 offStatus .w4]

theorem restore_unseen_by_next_doorbell :
    reads .exact (resumed completedJob.dev) nextDoorbell =
      reads .exact (restored completedJob.dev) nextDoorbell :=
  (restore_unseen_when_covered .exact completedRun completedJob (by decide +kernel)
    (by decide +kernel)).1 nextDoorbell (by decide +kernel)

/-- The worker polls `STATUS` on both sides of a checkpoint of the drained device. -/
theorem restore_loses_done_status :
    (exec (step .exact) Counted.init completedRun).map (fun c =>
        (drain c.dev, reads .exact (resumed c.dev) [readAt 700000 offStatus .w4],
          reads .exact (restored c.dev) [readAt 700000 offStatus .w4])) =
      some (.drained, some [statusDone], some [0]) := by
  decide +kernel

end PnmCompaction.Device.Checkpoint

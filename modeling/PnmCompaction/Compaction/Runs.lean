import PnmCompaction.Compaction.Compact

/-!
# What no run does

A run never passes over a key that does not parse (db/compaction/compaction_iterator.cc
716-723), and a run without a snapshot for write conflict checking, as the worker starts it,
never keeps a single deletion and the put below it for that check (1057-1073).
-/

namespace PnmCompaction.Compaction

variable {K V : Type*} [LinearOrder K] {c : Config K V} {input : List (Item K V)}
  {st st' : State K V} {e : Entry K V} {rest : List (Item K V)} {message : String}

/-! ### Keys that do not parse -/

theorem skipSentinels_corrupt (k : K) {l : List (Item K V)} (h : .corrupt message ∈ l) :
    .corrupt message ∈ skipSentinels k l := by
  fun_induction skipSentinels k l with
  | case1 seq rest ih => exact ih ((List.mem_cons.mp h).resolve_left (by simp))
  | case2 => exact h
  | case3 => exact h

theorem skipStripe_corrupt (k : K) (prev : ℕ) {l : List (Item K V)}
    (h : .corrupt message ∈ l) : .corrupt message ∈ skipStripe k prev l := by
  fun_induction skipStripe k prev l with
  | case1 next rest hskip ih => exact ih ((List.mem_cons.mp h).resolve_left (by simp))
  | case2 => exact h
  | case3 seq rest ih => exact ih ((List.mem_cons.mp h).resolve_left (by simp))
  | case4 => exact h
  | case5 => exact h

/-- The key is still ahead, or the run failed. -/
def StillAhead (message : String) : Outcome K V → Prop
  | .finished => False
  | .record st _ => .corrupt message ∈ st.pending
  | .failed s => s ≠ .ok

/-- A version is consumed with others of its key and with sentinels, nothing else. -/
theorem passEntry_corrupt (hin : st.input = .entry e :: rest) (hat : st.atNext = false)
    (h : .corrupt message ∈ rest) :
    (passEntry c st e rest).Leaves (fun st' => .corrupt message ∈ st'.input)
      (StillAhead message) := by
  have hskip := skipSentinels_corrupt e.userKey h
  have hstripe := skipStripe_corrupt e.userKey (c.snapshots.previous e.sequence) h
  have hpend : .corrupt message ∈ (st.seeing c e).pending := by
    rw [pending_seeing hat hin]
    exact h
  have hnext : ∀ next rest', skipSentinels e.userKey rest = .entry next :: rest' →
      .corrupt message ∈ rest' := fun next rest' heq =>
    (List.mem_cons.mp (heq ▸ hskip)).resolve_left (by simp)
  have hfate := passEntry_fate c st e rest
  generalize passEntry c st e rest = p at hfate
  cases hfate with
  | cleared => exact hpend
  | hidden => exact h
  | deleted => exact h
  | deletedStripe => exact hstripe
  | keptDelete => exact hstripe
  | covered => exact h
  | swapped => exact hpend
  | kept => exact hpend
  | unexpected => exact Status.noConfusion
  | unordered => exact Status.noConfusion
  | merge => exact Status.noConfusion
  | single hclear htype hf =>
    cases hf with
    | zeroed next rest' hrest => exact hnext next rest' hrest
    | doubled => exact hskip
    | pair next rest' hrest => exact hnext next rest' hrest
    | keptForConflict => exact hskip
    | keptForSnapshot => exact hskip
    | obsolete => exact hskip
    | lastZeroed => exact hskip
    | kept => exact hskip
    | contract => exact Status.noConfusion

theorem pass_corrupt (hat : st.atNext = false) {item : Item K V} (hin : st.input = item :: rest)
    (h : .corrupt message ∈ st.input) :
    (pass c st item rest).Leaves (fun st' => .corrupt message ∈ st'.input ∧ st'.atNext = false)
      (StillAhead message) := by
  have hrest : item ≠ .corrupt message → .corrupt message ∈ rest := fun hne =>
    (List.mem_cons.mp (hin ▸ h)).resolve_left hne.symm
  cases item with
  | corrupt m => exact Status.noConfusion
  | rangeDelSentinel k seq =>
    change .corrupt message ∈ st.pending
    rw [State.pending_of_not_atNext hat hin]
    exact hrest (by simp)
  | entry e =>
    have hleaves := passEntry_corrupt (c := c) hin hat (hrest (by simp))
    have hcons := passEntry_consumes c hin
    change (passEntry c st e rest).Leaves _ _
    cases hpass : passEntry c st e rest with
    | again st' =>
      rw [hpass] at hleaves hcons
      exact ⟨hleaves, hcons.2.trans hat⟩
    | valid st' r => rwa [hpass] at hleaves
    | failed s => rwa [hpass] at hleaves

theorem nextFromInput_corrupt (hat : st.atNext = false) (h : .corrupt message ∈ st.input) :
    StillAhead message (nextFromInput c st) := by
  refine nextFromInput_rule (I := fun st => .corrupt message ∈ st.input ∧ st.atNext = false)
    (fun st hst hin => ?_) (fun st item rest hst hin => ?_) ⟨h, hat⟩
  · rw [hin] at hst
    cases hst.1
  · exact pass_corrupt hst.2 hin hst.1

omit [LinearOrder K] in
theorem prepareOutput_corrupt {outputted : Bool} {r : Record K V}
    (h : StillAhead message (.record st r)) :
    StillAhead message (prepareOutput c { st with hasOutputtedKey := outputted } r) := by
  unfold prepareOutput
  split
  · exact h
  split
  · next hbad => exact hbad.2
  split
  · split
    · exact Status.noConfusion
    · exact h
  · exact h

/-- A job does not report success when a key of its input did not parse. -/
theorem compact_corrupt (c : Config K V) (input : List (Item K V)) (message : String)
    (h : .corrupt message ∈ input) : (compact c input).status ≠ .ok := by
  refine compact_rule (A := fun _ o => StillAhead message o) (Q := fun _ s => s ≠ .ok)
    (fun _ => False.elim) (fun _ _ => id) (fun out st r hahead => ?_) ?_
  · exact Outcome.bind_rule (P := StillAhead message) (Q := StillAhead message) id (fun _ => id)
      (fun _ _ hrec => prepareOutput_corrupt hrec) (nextFromInput_corrupt rfl hahead)
  · exact Outcome.bind_rule (P := StillAhead message) (Q := StillAhead message) id (fun _ => id)
      (fun _ _ => prepareOutput_corrupt) (nextFromInput_corrupt rfl h)

theorem compact_corrupt_second :
    (compact sampleConfig (sampleInput ++ [.corrupt "Corrupted Key: ff"])).status ≠ .ok :=
  compact_corrupt sampleConfig _ "Corrupted Key: ff" (by simp)

/-! ### Write conflicts -/

/-- Not a record that is kept for write conflict checking only. -/
def Record.NotForConflict : Record K V → Prop
  | .entry _ context => context ≠ .keepSDForConflictCheck ∧ context ≠ .keepSDAndClearPut
  | .rangeDeletion _ _ => True

/-- No put is waiting to be written without its value. -/
def NoConflict (input : List (Item K V)) : Outcome K V → Prop
  | .record st r => r.NotForConflict ∧ st.clearAndOutputNextKey = false ∧ st.pending <:+ input
  | _ => True

theorem pass_noConflict (hworker : c.earliestWriteConflictSnapshot = kMaxSequenceNumber)
    (hnum : ∀ e ∈ entries input, e.sequence ≤ kMaxSequenceNumber) (hsuf : st.input <:+ input)
    (hclear : st.clearAndOutputNextKey = false) (hat : st.atNext = false) {item : Item K V}
    (hin : st.input = item :: rest) :
    (pass c st item rest).Leaves (fun st' => st'.input <:+ input ∧
      st'.clearAndOutputNextKey = false ∧ st'.atNext = false) (NoConflict input) := by
  have hrest : rest <:+ input := (hin ▸ List.suffix_cons _ _ : rest <:+ st.input).trans hsuf
  have hseen := (seeing_clear c st · |>.trans hclear)
  cases item with
  | corrupt m => trivial
  | rangeDelSentinel k seq =>
    refine ⟨trivial, hclear, ?_⟩
    rw [State.pending_of_not_atNext hat hin]
    exact hrest
  | entry e =>
    have hfate := passEntry_fate c st e rest
    have hcons := passEntry_consumes c hin
    change (passEntry c st e rest).Leaves _ _
    generalize passEntry c st e rest = p at hfate hcons
    have hagain : ∀ st', p = .again st' → st'.input <:+ input ∧ st'.atNext = false := by
      rintro st' rfl
      exact ⟨hcons.1.trans hrest, hcons.2.trans hat⟩
    have hvalid : ∀ st' r, p = .valid st' r → st'.pending <:+ input := by
      rintro st' r rfl
      exact (hcons hat).trans hrest
    cases hfate with
    | cleared hput =>
      rw [hclear] at hput
      cases hput
    | keptDelete => exact ⟨⟨nofun, nofun⟩, hseen e, hvalid _ _ rfl⟩
    | swapped => exact ⟨⟨nofun, nofun⟩, hseen e, hvalid _ _ rfl⟩
    | kept => exact ⟨⟨nofun, nofun⟩, hseen e, hvalid _ _ rfl⟩
    | unexpected => trivial
    | unordered => trivial
    | merge => trivial
    | single _ htype hf =>
      cases hf with
      | keptForConflict next rest' hrest hkey hzero hstripe hsd hdel hconflict hearliest =>
        have hle := hnum e (mem_input hsuf hin)
        omega
      | keptForSnapshot => exact ⟨⟨nofun, nofun⟩, hseen e, hvalid _ _ rfl⟩
      | kept => exact ⟨⟨nofun, nofun⟩, hseen e, hvalid _ _ rfl⟩
      | contract => trivial
      | _ => exact ⟨(hagain _ rfl).1, hseen e, (hagain _ rfl).2⟩
    | _ => exact ⟨(hagain _ rfl).1, hseen e, (hagain _ rfl).2⟩

theorem nextFromInput_noConflict (hworker : c.earliestWriteConflictSnapshot = kMaxSequenceNumber)
    (hnum : ∀ e ∈ entries input, e.sequence ≤ kMaxSequenceNumber) (hsuf : st.input <:+ input)
    (hclear : st.clearAndOutputNextKey = false) (hat : st.atNext = false) :
    NoConflict input (nextFromInput c st) :=
  nextFromInput_rule (I := fun st => st.input <:+ input ∧ st.clearAndOutputNextKey = false ∧
      st.atNext = false) (fun _ _ _ => trivial)
    (fun _ _ _ hst hin => pass_noConflict hworker hnum hst.1 hst.2.1 hst.2.2 hin)
    ⟨hsuf, hclear, hat⟩

omit [LinearOrder K] in
theorem prepareOutput_noConflict {outputted : Bool} {r : Record K V}
    (h : NoConflict input (.record st r)) :
    NoConflict input (prepareOutput c { st with hasOutputtedKey := outputted } r) := by
  unfold prepareOutput
  repeat' split
  all_goals first | exact trivial | exact h

/-- Without a snapshot for write conflict checking no record is kept for that check. -/
theorem compact_noConflict (c : Config K V) (input : List (Item K V))
    (hworker : c.earliestWriteConflictSnapshot = kMaxSequenceNumber)
    (hnum : ∀ e ∈ entries input, e.sequence ≤ kMaxSequenceNumber) :
    ∀ r ∈ (compact c input).records, r.NotForConflict := by
  refine compact_rule
    (A := fun out o => (∀ r ∈ out, r.NotForConflict) ∧ NoConflict input o)
    (Q := fun out _ => ∀ r ∈ out, r.NotForConflict)
    (fun _ h => h.1) (fun _ _ h => h.1) ?_ ⟨by simp, ?_⟩
  · rintro out st r ⟨hall, hrec, hclear, hsuf⟩
    refine ⟨fun r' hr' => ?_, ?_⟩
    · rcases List.mem_append.mp hr' with hr' | hr'
      · exact hall r' hr'
      · rw [List.mem_singleton.mp hr']
        exact hrec
    · exact Outcome.bind_rule (P := NoConflict input) (Q := NoConflict input) id (fun _ => id)
        (fun _ _ => prepareOutput_noConflict)
        (nextFromInput_noConflict hworker hnum hsuf hclear rfl)
  · exact Outcome.bind_rule (P := NoConflict input) (Q := NoConflict input) id (fun _ => id)
      (fun _ _ => prepareOutput_noConflict)
      (nextFromInput_noConflict hworker hnum List.suffix_rfl rfl rfl)

theorem compact_noConflict_sample : (compact sampleConfig sampleInput).records ≠ [] ∧
    ∀ r ∈ (compact sampleConfig sampleInput).records, r.NotForConflict :=
  ⟨by decide +kernel,
    compact_noConflict sampleConfig sampleInput rfl
      fun e he => (sample_admissible.numbered e he).le⟩

end PnmCompaction.Compaction

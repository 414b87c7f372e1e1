import PnmCompaction.Compaction.Passes

/-!
# A whole compaction

From the loop body to `NextFromInput` (db/compaction/compaction_iterator.cc 699-1387), from
there to `Next` with `PrepareOutput` (274-343, 1857-1958), and to the list of records a job
writes.
-/

namespace PnmCompaction.Compaction

open Lib (Versions)

variable {K V : Type*} [LinearOrder K] {c : Config K V} {input : List (Item K V)}
  {below raw : List (Entry K V)} {st : State K V} {k : K} {s : ℕ}

/-- Everything was looked at. -/
structure Done (c : Config K V) (input : List (Item K V)) (below raw : List (Entry K V)) :
    Prop where
  reads : ∀ k s, c.Reader input s →
    (versions c c.rangeDels).read k s (raw ++ below) =
      (versions c c.rangeDels).read k s (entries input ++ below)
  uncovered : Uncovered c input raw

theorem Inv.init (c : Config K V) (input : List (Item K V)) (below : List (Entry K V)) :
    Inv c input below [] (State.init input) := by
  refine ⟨List.suffix_rfl, fun k s _ => ?_, fun k hk => ?_, fun hz => ?_, fun hc => ?_, ?_⟩
  · have hnone : ∀ x ∈ entries input, ¬ (State.init input).Dooms c x := by
      rintro x - ⟨⟨hk, -⟩, -⟩
      cases hk
    rw [survivors, List.filter_eq_self.mpr fun x hx => by simpa using hnone x hx]
    rfl
  · cases hk
  · cases hz
  · cases hc
  · intro pre a post heq
    simp at heq

theorem Inv.done (hinv : Inv c input below raw st) (hin : st.input = []) :
    Done c input below raw := by
  refine ⟨fun k s hs => ?_, hinv.uncovered⟩
  have hreads := hinv.reads k s hs
  rw [hin] at hreads
  exact hreads

theorem Inv.sentinel (hinv : Inv c input below raw st) {k' : K} {seq : ℕ}
    {rest : List (Item K V)} (hin : st.input = .rangeDelSentinel k' seq :: rest) :
    Inv c input below raw { st with input := rest } := by
  have hent : entries st.input = entries rest := by rw [hin, entries_sentinel]
  refine ⟨?_, fun k s hs => ?_, fun k hk => ?_, hinv.zeroed, fun hc => ?_, hinv.uncovered⟩
  · exact (hin ▸ List.suffix_cons _ _ : rest <:+ st.input).trans hinv.suffix
  · have hreads := hinv.reads k s hs
    rw [hent] at hreads
    exact hreads
  · have hcur := hinv.current k hk
    rw [hent] at hcur
    exact hcur
  · obtain ⟨e, rest', hin', -⟩ := hinv.clear hc
    cases hin.symm.trans hin'

/-! ### The loop -/

/-- What `NextFromInput` returns, before `PrepareOutput`. -/
def Returns (c : Config K V) (input : List (Item K V)) (below raw : List (Entry K V)) :
    Outcome K V → Prop
  | .finished => Done c input below raw
  | .record st (.entry a _) => Emits c input below raw st a
  | .record st (.rangeDeletion _ _) => Inv c input below raw { st with input := st.pending }
  | .failed _ => False

theorem pass_leaves (h : Admissible c input below) (hinv : Inv c input below raw st)
    (hat : st.atNext = false) {item : Item K V} {rest : List (Item K V)}
    (hin : st.input = item :: rest) :
    (pass c st item rest).Leaves (fun st => Inv c input below raw st ∧ st.atNext = false)
      (Returns c input below raw) := by
  have hcons := pass_consumes c hin
  cases item with
  | rangeDelSentinel k' seq =>
    change Inv c input below raw { st with input := st.pending }
    rw [State.pending_of_not_atNext hat hin]
    exact hinv.sentinel hin
  | corrupt message =>
    have hmem : (.corrupt message : Item K V) ∈ input :=
      hinv.suffix.subset (hin ▸ List.mem_cons_self)
    exact h.parses _ hmem rfl
  | entry e =>
    have hfate := passEntry_fate c st e rest
    change (passEntry c st e rest).Consumes rest st.atNext at hcons
    change (passEntry c st e rest).Leaves _ _
    cases hpass : passEntry c st e rest with
    | again st' =>
      rw [hpass] at hfate hcons
      exact ⟨hfate.again_inv h hinv hin, hcons.2.trans hat⟩
    | valid st' r =>
      rw [hpass] at hfate
      obtain ⟨a, context, rfl, hemit⟩ := hfate.valid_emits h hinv hat hin
      exact hemit
    | failed status =>
      rw [hpass] at hfate
      exact Fate.not_failed h hinv hin hfate

theorem nextFromInput_returns (h : Admissible c input below)
    (hinv : Inv c input below raw st) (hat : st.atNext = false) :
    Returns c input below raw (nextFromInput c st) :=
  nextFromInput_rule (fun _ hst hin => hst.1.done hin)
    (fun _ _ _ hst hin => pass_leaves h hst.1 hst.2 hin) ⟨hinv, hat⟩

/-! ### Clearing sequence numbers -/

/-- `f` is the version `a` as it is written. -/
def Prepared (c : Config K V) (input : List (Item K V)) (a f : Entry K V) : Prop :=
  f = a ∨ c.bottommostLevel = true ∧ a.sequence ≤ c.earliestSnapshot ∧
    (∀ s, c.Reader input s → a.sequence ≤ s) ∧ f = { a with sequence := 0 }

/-- What `SeekToFirst` and `Next` leave. -/
def Advances (c : Config K V) (input : List (Item K V)) (below raw : List (Entry K V)) :
    Outcome K V → Prop
  | .finished => Done c input below raw
  | .record st (.entry f _) => ∃ a, Prepared c input a f ∧
    Inv c input below (raw ++ [a]) { st with input := st.pending }
  | .record st (.rangeDeletion _ _) => Inv c input below raw { st with input := st.pending }
  | .failed _ => False

theorem Emits.zeroed {a : Entry K V} (hemit : Emits c input below raw st a)
    (hle : a.sequence ≤ c.earliestSnapshot) :
    Inv c input below (raw ++ [a])
      { st with lastKeySeqZeroed := true, input := st.pending } := by
  obtain ⟨hsuf, hreads, hcurrent, -, hclear, hunc⟩ := hemit.inv
  refine ⟨hsuf, hreads, hcurrent, fun _ k hk => ?_, hclear, hunc⟩
  exact ⟨a, by simp, hemit.key k hk, hemit.seen hle⟩

theorem prepareOutput_advances {r : Record K V}
    (hret : Returns c input below raw (.record st r)) :
    Advances c input below raw (prepareOutput c st r) := by
  cases r with
  | rangeDeletion k' seq => exact hret
  | entry a context =>
    have hemit : Emits c input below raw st a := hret
    unfold prepareOutput
    dsimp only
    split
    · next hbad => exact absurd (hemit.entity hbad.1) hbad.2
    split
    · next hzero =>
      split
      · next htype =>
        have hok := hemit.zeroable hzero.1 hzero.2.1
        exact htype.elim hok.1 hok.2
      · exact ⟨a, .inr ⟨hzero.1, hzero.2.1, hemit.seen hzero.2.1, rfl⟩, hemit.zeroed hzero.2.1⟩
    · exact ⟨a, .inl rfl, hemit.inv⟩

theorem seekToFirst_advances (h : Admissible c input below) :
    Advances c input below [] (seekToFirst c (State.init input)) :=
  Outcome.bind_rule (P := Returns c input below []) (Q := Advances c input below []) id
    (fun _ => id) (fun _ _ => prepareOutput_advances)
    (nextFromInput_returns h (Inv.init c input below) rfl)

theorem Returns.outputted {r : Record K V} (hret : Returns c input below raw (.record st r)) :
    Returns c input below raw (.record { st with hasOutputtedKey := true } r) := by
  cases r with
  | rangeDeletion k' seq =>
    have hinv : Inv c input below raw { st with input := st.pending } := hret
    exact ⟨hinv.suffix, hinv.reads, hinv.current, hinv.zeroed, hinv.clear, hinv.uncovered⟩
  | entry a context =>
    obtain ⟨hinv, hkey, hseen, hzero, hent⟩ := hret
    refine ⟨?_, hkey, hseen, hzero, hent⟩
    exact ⟨hinv.suffix, hinv.reads, hinv.current, hinv.zeroed, hinv.clear, hinv.uncovered⟩

theorem next_advances (h : Admissible c input below)
    (hinv : Inv c input below raw { st with input := st.pending }) :
    Advances c input below raw (next c st) := by
  have hstart : Inv c input below raw { st with input := st.pending, atNext := false } :=
    ⟨hinv.suffix, hinv.reads, hinv.current, hinv.zeroed, hinv.clear, hinv.uncovered⟩
  exact Outcome.bind_rule (P := Returns c input below raw) (Q := Advances c input below raw) id
    (fun _ => id) (fun _ _ hret => prepareOutput_advances hret.outputted)
    (nextFromInput_returns h hstart rfl)

/-! ### The records of a job -/

def Record.entry? : Record K V → Option (Entry K V)
  | .entry e _ => some e
  | .rangeDeletion _ _ => none

/-- The point keys a job writes; sentinels only cut its files. -/
def written (records : List (Record K V)) : List (Entry K V) := records.filterMap Record.entry?

omit [LinearOrder K] in
theorem written_concat (out : List (Record K V)) (r : Record K V) :
    written (out ++ [r]) = written out ++ r.entry?.toList := by
  rw [written, List.filterMap_append]
  cases r <;> rfl

/-- The versions behind the records of a job, as they were before their numbers were
cleared. -/
theorem compact_written (h : Admissible c input below) :
    (compact c input).status = .ok ∧ ∃ raw, Done c input below raw ∧
      List.Forall₂ (Prepared c input) raw (written (compact c input).records) := by
  refine compact_rule
    (A := fun out o => ∃ raw, List.Forall₂ (Prepared c input) raw (written out) ∧
      Advances c input below raw o)
    (Q := fun out status => status = .ok ∧ ∃ raw, Done c input below raw ∧
      List.Forall₂ (Prepared c input) raw (written out))
    ?_ ?_ ?_ ⟨[], .nil, seekToFirst_advances h⟩
  · rintro out ⟨raw, hall, hdone⟩
    exact ⟨rfl, raw, hdone, hall⟩
  · rintro out s ⟨raw, -, hfailed⟩
    exact hfailed.elim
  · rintro out st r ⟨raw, hall, hadv⟩
    rw [written_concat]
    cases r with
    | rangeDeletion k' seq => exact ⟨raw, by simpa [Record.entry?], next_advances h hadv⟩
    | entry f context =>
      obtain ⟨a, hprep, hinv⟩ := hadv
      exact ⟨raw ++ [a], List.rel_append hall (.cons hprep .nil), next_advances h hinv⟩

/-! ### What readers find in the result -/

theorem coveredBy_below (h : Admissible c input below) {x : Entry K V} (hx : x ∈ below) :
    coveredBy c.keptRangeDels x s = coveredBy c.rangeDels x s := by
  rw [Bool.eq_iff_iff]
  simp only [coveredBy, List.any_eq_true, Bool.and_eq_true, decide_eq_true_eq]
  refine exists_congr fun t => and_congr_left fun hrest => ?_
  rw [Config.keptRangeDels, List.mem_filter]
  refine ⟨fun ht => ht.1, fun ht => ⟨ht, ?_⟩⟩
  by_contra hdrop
  simp only [Bool.not_eq_true', Bool.not_eq_false, Bool.and_eq_true] at hdrop
  have hcov := hrest.1.1
  rw [h.absentRange t ht hdrop.2 x hx] at hcov
  cases hcov

/-- A written version that a reader finds first is covered by the tombstones written exactly
when the version before was covered by those of the input. -/
theorem coveredBy_prepared {a f : Entry K V} (hprep : Prepared c input a f)
    (hrange : c.shouldDelete a.userKey a.sequence = false) :
    coveredBy c.keptRangeDels f s = coveredBy c.rangeDels a s := by
  have hkey : f.userKey = a.userKey := by
    rcases hprep with rfl | ⟨-, -, -, rfl⟩ <;> rfl
  have hseq : f.sequence ≤ a.sequence := by
    rcases hprep with rfl | ⟨-, -, -, rfl⟩
    · exact le_rfl
    · exact Nat.zero_le _
  rw [Bool.eq_iff_iff]
  simp only [coveredBy, List.any_eq_true, Bool.and_eq_true, decide_eq_true_eq, hkey]
  constructor
  · rintro ⟨t, ht, ⟨hcov, hlt⟩, hle⟩
    rw [Config.keptRangeDels, List.mem_filter] at ht
    refine ⟨t, ht.1, ⟨hcov, ?_⟩, hle⟩
    rcases hprep with rfl | ⟨hbottom, hearly, -, rfl⟩
    · exact hlt
    · -- at the bottommost level only tombstones above the earliest snapshot are kept
      have habove : c.earliestSnapshot < t.sequence := by
        by_contra hle
        simp only [Config.bottommostLevel, Bool.and_eq_true] at hbottom
        have hkept := ht.2
        simp [Config.rangeNotExistsBeyondOutputLevel, hbottom.1, not_lt.mp hle] at hkept
      omega
  · rintro ⟨t, ht, ⟨hcov, hlt⟩, hle⟩
    refine ⟨t, ?_, ⟨hcov, by omega⟩, hle⟩
    rw [Config.keptRangeDels, List.mem_filter]
    refine ⟨ht, ?_⟩
    by_contra hdrop
    simp only [Bool.not_eq_true', Bool.not_eq_false, Bool.and_eq_true, decide_eq_true_eq] at hdrop
    -- a tombstone that is dropped covers the version in the earliest stripe
    have hboth : c.snapshots.visible t.sequence = c.snapshots.visible a.sequence := by
      rw [c.snapshots.visible_eq_earliest hdrop.1,
        c.snapshots.visible_eq_earliest (hlt.le.trans hdrop.1)]
    have hdel : c.shouldDelete a.userKey a.sequence = true := by
      simp only [Config.shouldDelete, List.any_eq_true, Bool.and_eq_true, decide_eq_true_eq]
      exact ⟨t, ht, ⟨hcov, hlt⟩, hboth⟩
    rw [hrange] at hdel
    cases hdel

omit [LinearOrder K] in
theorem payload_prepared {a f : Entry K V} (hprep : Prepared c input a f) :
    f.payload c = a.payload c := by
  rcases hprep with rfl | ⟨-, -, -, rfl⟩ <;> rfl

theorem visible_prepared {a f : Entry K V} (hprep : Prepared c input a f)
    (hs : c.Reader input s) (T : List (Tombstone K)) :
    (versions c T).Visible k s a ↔ (versions c T).Visible k s f := by
  rcases hprep with rfl | ⟨-, -, hseen, rfl⟩
  · exact Iff.rfl
  · exact and_congr_right fun _ => ⟨fun _ => Nat.zero_le s, fun _ => hseen s hs⟩

theorem Done.uncovered_newest (hdone : Done c input below raw) (hs : c.Reader input s)
    {a : Entry K V} (hnew : (versions c c.rangeDels).newest k s raw = some a)
    (hpay : a.payload c ≠ none) : c.shouldDelete a.userKey a.sequence = false := by
  obtain ⟨hvis, pre, post, heq, hpre⟩ := List.find?_eq_some_iff_append.mp hnew
  have hvis : (versions c c.rangeDels).Visible k s a := by simpa using hvis
  rcases hdone.uncovered pre a post heq hpay with hrange | ⟨b, hb, hshadow⟩
  · exact hrange
  · have hnot : ¬ (versions c c.rangeDels).Visible k s b := by simpa using hpre b hb
    exact absurd (hshadow.visible hs hvis) hnot

theorem Done.reads_written (h : Admissible c input below) (hdone : Done c input below raw)
    {out : List (Entry K V)} (hall : List.Forall₂ (Prepared c input) raw out)
    (hs : c.Reader input s) :
    (versions c c.keptRangeDels).read k s (out ++ below) =
      (versions c c.rangeDels).read k s (raw ++ below) := by
  have hrel := Versions.newest_forall₂ (V := versions c c.rangeDels) (k := k) (s := s) hall
    fun x y hxy => visible_prepared hxy hs _
  have hnewest : ∀ l, (versions c c.keptRangeDels).newest k s l =
      (versions c c.rangeDels).newest k s l := fun _ => rfl
  rw [Versions.read, Versions.read, hnewest, Versions.newest_append, Versions.newest_append]
  cases hraw : (versions c c.rangeDels).newest k s raw with
  | none =>
    rw [hraw] at hrel
    cases hout : (versions c c.rangeDels).newest k s out with
    | some f => rw [hout] at hrel; cases hrel
    | none =>
      simp only [Option.none_or]
      cases hb : (versions c c.rangeDels).newest k s below with
      | none => rfl
      | some x =>
        have hx := coveredBy_below (s := s) h (List.mem_of_find?_eq_some hb)
        simp only [Option.bind_some, versions, hx]
  | some a =>
    rw [hraw] at hrel
    cases hout : (versions c c.rangeDels).newest k s out with
    | none => rw [hout] at hrel; cases hrel
    | some f =>
      rw [hout] at hrel
      cases hrel with
      | some hprep =>
        simp only [Option.some_or, Option.bind_some, versions, payload_prepared hprep]
        by_cases hpay : a.payload c = none
        · simp [hpay]
        · rw [coveredBy_prepared hprep (hdone.uncovered_newest hs hraw hpay)]

/-- A job with a snapshot at 5; of the levels below only key 3 may exist. -/
def sampleConfig : Config ℕ ℕ where
  snapshots := ⟨[5], by decide, by decide, by decide⟩
  earliestWriteConflictSnapshot := kMaxSequenceNumber
  preserveSeqnoAfter := kMaxSequenceNumber
  compactionBottommost := false
  allowIngestBehind := false
  absentBelow k := decide (k ≠ 3)
  absentRangeBelow start stop := decide (3 < start ∨ stop < 3)
  enforceSingleDelContracts := true
  rangeDels := [⟨4, 6, 8⟩]
  cleared := 0
  parsePackedValueWithSeqno v := (v, 0)
  deserializeV2 _ := .ok

def sampleInput : List (Item ℕ ℕ) :=
  [.entry ⟨1, 7, .singleDeletion, 0⟩, .entry ⟨1, 6, .value, 10⟩, .entry ⟨2, 9, .value, 20⟩,
    .entry ⟨2, 7, .value, 21⟩, .entry ⟨2, 3, .value, 22⟩, .entry ⟨3, 4, .deletion, 0⟩,
    .rangeDelSentinel 4 8, .entry ⟨4, 6, .value, 40⟩]

def sampleBelow : List (Entry ℕ ℕ) := [⟨3, 1, .value, 30⟩]

theorem sample_admissible : Admissible sampleConfig sampleInput sampleBelow where
  parses := by decide
  ordered := by
    simp only [sampleInput, List.pairwise_cons, List.forall_mem_cons, Item.Before]
    simp [Item.userKey?]
  numbered := by decide
  noMerge := by decide
  entities := by decide
  preferred := by decide
  rangeNumbered := by simp [sampleConfig, kMaxSequenceNumber]
  older := by decide
  absent := by decide
  absentRange := by simp [sampleConfig, sampleBelow, Tombstone.covers]
  contract k := by
    by_cases hk : k = 1
    · subst hk
      exact ⟨.inr ⟨rfl, by decide⟩, trivial⟩
    · -- only key 1 is ever deleted by `SingleDelete`
      have hnone : ∀ x ∈ versionsOf k (entries sampleInput ++ sampleBelow),
          x.type ≠ .singleDeletion := by
        intro x hx
        obtain ⟨hmem, hkey⟩ := List.mem_filter.mp hx
        have hall : ∀ x ∈ entries sampleInput ++ sampleBelow,
            x.userKey = 1 ∨ x.type ≠ .singleDeletion := by decide
        rcases hall x hmem with hone | hne
        · exact absurd (hone.symm.trans (of_decide_eq_true hkey)).symm hk
        · exact hne
      exact singleDeletesMatch_of_none (by simpa using hnone)
  conflict := by decide

/-- A compaction of an admissible input runs to its end. -/
theorem compact_ok (c : Config K V) (input : List (Item K V)) (below : List (Entry K V))
    (h : Admissible c input below) : (compact c input).status = .ok :=
  (compact_written h).1

theorem compact_ok_sample : (compact sampleConfig sampleInput).status = .ok :=
  compact_ok sampleConfig sampleInput sampleBelow sample_admissible

end PnmCompaction.Compaction

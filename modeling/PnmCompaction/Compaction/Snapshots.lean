import Mathlib.Data.List.Sort
import Mathlib.Tactic.Cases

/-!
# Snapshots and stripes

`CompactionIterator` keeps the versions that some snapshot still reads. The snapshots of a
job cut the sequence numbers into stripes; `findEarliestVisibleSnapshot`
(db/compaction/compaction_iterator.cc 1960-2009) names the stripe of a version by the first
snapshot that sees it and gives the snapshot before it.

The worker has no snapshot checker (`DBImplSecondary::CompactWithoutInstallation` passes
none, db/db_impl/db_impl_secondary.cc 1419-1440), so a version is in a snapshot exactly when
its number is not above it.
-/

namespace PnmCompaction.Compaction

/-- `kMaxSequenceNumber` of `db/dbformat.h`; no write gets this number. -/
def kMaxSequenceNumber : ℕ := 0xFFFFFFFFFFFFFF

/-- The `snapshot_seqs` of a job. Ascending, as `CompactionIterator`'s constructor asserts.
A snapshot at 0 would be mistaken for "no previous snapshot". -/
structure Snapshots where
  seqs : List ℕ
  ascending : seqs.Pairwise (· < ·)
  positive : ∀ s ∈ seqs, 0 < s
  belowMax : ∀ s ∈ seqs, s < kMaxSequenceNumber

namespace Snapshots

/-- `JobContext::GetEarliestSnapshotSequence`, db/job_context.h 148. -/
def earliest (S : Snapshots) : ℕ := S.seqs.head?.getD kMaxSequenceNumber

/-- The search of `findEarliestVisibleSnapshot`, with the snapshot before the current one. -/
def lowerBound (seq : ℕ) : ℕ → List ℕ → ℕ × ℕ
  | prev, [] => (kMaxSequenceNumber, prev)
  | prev, s :: rest => if seq ≤ s then (s, prev) else lowerBound seq s rest

/-- `visible_at_tip_ ? earliest_snapshot_ : findEarliestVisibleSnapshot(seq, &prev)`, with
`prev`. -/
def findEarliestVisible (S : Snapshots) (seq : ℕ) : ℕ × ℕ :=
  if S.seqs.isEmpty then (S.earliest, 0) else lowerBound seq 0 S.seqs

def visible (S : Snapshots) (seq : ℕ) : ℕ := (S.findEarliestVisible seq).1

def previous (S : Snapshots) (seq : ℕ) : ℕ := (S.findEarliestVisible seq).2

theorem findEarliestVisible_eq (S : Snapshots) (seq : ℕ) :
    S.findEarliestVisible seq = lowerBound seq 0 S.seqs := by
  unfold findEarliestVisible earliest
  cases h : S.seqs with
  | nil => rfl
  | cons s rest => rfl

/-! ### What the search finds -/

theorem lowerBound_le {seq s : ℕ} {seqs : List ℕ} (hasc : seqs.Pairwise (· < ·))
    (hmem : s ∈ seqs) (hle : seq ≤ s) (prev : ℕ) : (lowerBound seq prev seqs).1 ≤ s := by
  induction seqs generalizing prev with
  | nil => cases hmem
  | cons a rest ih =>
    obtain ⟨hhead, htail⟩ := List.pairwise_cons.mp hasc
    unfold lowerBound
    split
    · rcases List.mem_cons.mp hmem with rfl | hrest
      · exact le_rfl
      · exact (hhead s hrest).le
    · next hlt =>
      rcases List.mem_cons.mp hmem with rfl | hrest
      · exact absurd hle hlt
      · exact ih htail hrest a

theorem le_lowerBound {seq : ℕ} (hmax : seq ≤ kMaxSequenceNumber) (seqs : List ℕ) (prev : ℕ) :
    seq ≤ (lowerBound seq prev seqs).1 := by
  induction seqs generalizing prev with
  | nil => exact hmax
  | cons a rest ih =>
    unfold lowerBound
    split
    · assumption
    · exact ih a

/-- The snapshot found is one of the list or the marker for none. -/
theorem lowerBound_mem (seq : ℕ) (seqs : List ℕ) (prev : ℕ) :
    (lowerBound seq prev seqs).1 ∈ seqs ∨
      (lowerBound seq prev seqs).1 = kMaxSequenceNumber ∧ ∀ s ∈ seqs, s < seq := by
  induction seqs generalizing prev with
  | nil => exact .inr ⟨rfl, by simp⟩
  | cons a rest ih =>
    unfold lowerBound
    split
    · exact .inl List.mem_cons_self
    · next hlt =>
      rcases ih a with h | ⟨h, hall⟩
      · exact .inl (List.mem_cons_of_mem _ h)
      · refine .inr ⟨h, ?_⟩
        intro s hs
        rcases List.mem_cons.mp hs with rfl | hs
        · omega
        · exact hall s hs

theorem lowerBound_previous_lt {seq : ℕ} (seqs : List ℕ) {prev : ℕ} (hprev : prev < seq) :
    (lowerBound seq prev seqs).2 < seq := by
  induction seqs generalizing prev with
  | nil => exact hprev
  | cons a rest ih =>
    unfold lowerBound
    split
    · exact hprev
    · exact ih (by omega)

theorem le_lowerBound_previous_self {seq prev : ℕ} {seqs : List ℕ}
    (hasc : seqs.Pairwise (· < ·)) (hall : ∀ s ∈ seqs, prev < s) :
    prev ≤ (lowerBound seq prev seqs).2 := by
  induction seqs generalizing prev with
  | nil => exact le_rfl
  | cons a rest ih =>
    obtain ⟨hhead, htail⟩ := List.pairwise_cons.mp hasc
    unfold lowerBound
    split
    · exact le_rfl
    · exact (hall a List.mem_cons_self).le.trans (ih htail hhead)

theorem le_lowerBound_previous {seq s : ℕ} {seqs : List ℕ} (hasc : seqs.Pairwise (· < ·))
    (hmem : s ∈ seqs) (hlt : s < seq) (prev : ℕ) : s ≤ (lowerBound seq prev seqs).2 := by
  induction seqs generalizing prev with
  | nil => cases hmem
  | cons a rest ih =>
    obtain ⟨hhead, htail⟩ := List.pairwise_cons.mp hasc
    unfold lowerBound
    split
    · next hle =>
      rcases List.mem_cons.mp hmem with rfl | hrest
      · omega
      · exact absurd (hhead s hrest) (by omega)
    · rcases List.mem_cons.mp hmem with rfl | hrest
      · exact le_lowerBound_previous_self htail hhead
      · exact ih htail hrest a

theorem lowerBound_previous_mem (seq : ℕ) (seqs : List ℕ) (prev : ℕ) :
    (lowerBound seq prev seqs).2 = prev ∨ (lowerBound seq prev seqs).2 ∈ seqs := by
  induction seqs generalizing prev with
  | nil => exact .inl rfl
  | cons a rest ih =>
    unfold lowerBound
    split
    · exact .inl rfl
    · rcases ih a with h | h
      · exact .inr (by rw [h]; exact List.mem_cons_self)
      · exact .inr (List.mem_cons_of_mem _ h)

/-! ### Stripes -/

variable (S : Snapshots) {seq s older newer : ℕ}

theorem visible_eq : S.visible seq = (lowerBound seq 0 S.seqs).1 := by
  rw [visible, findEarliestVisible_eq]

theorem previous_eq : S.previous seq = (lowerBound seq 0 S.seqs).2 := by
  rw [previous, findEarliestVisible_eq]

theorem visible_le (hs : s ∈ S.seqs) (hle : seq ≤ s) : S.visible seq ≤ s := by
  rw [visible_eq]
  exact lowerBound_le S.ascending hs hle 0

theorem le_visible (hmax : seq ≤ kMaxSequenceNumber) : seq ≤ S.visible seq := by
  rw [visible_eq]
  exact le_lowerBound hmax S.seqs 0

theorem visible_mem (seq : ℕ) : S.visible seq ∈ S.seqs ∨
    S.visible seq = kMaxSequenceNumber ∧ ∀ s ∈ S.seqs, s < seq := by
  rw [visible_eq]
  exact lowerBound_mem seq S.seqs 0

theorem visible_le_max (seq : ℕ) : S.visible seq ≤ kMaxSequenceNumber := by
  rcases S.visible_mem seq with h | ⟨h, -⟩
  · exact (S.belowMax _ h).le
  · exact h.le

theorem visible_mono (hle : older ≤ newer) (hmax : newer ≤ kMaxSequenceNumber) :
    S.visible older ≤ S.visible newer := by
  rcases S.visible_mem newer with h | ⟨h, -⟩
  · exact S.visible_le h (hle.trans (S.le_visible hmax))
  · rw [h]
    exact S.visible_le_max older

/-- A live snapshot sees both versions of a stripe or neither. -/
theorem le_of_visible_eq (heq : S.visible older = S.visible newer)
    (hmax : newer ≤ kMaxSequenceNumber) (hs : s ∈ S.seqs) (hle : older ≤ s) : newer ≤ s :=
  (S.le_visible hmax).trans (heq ▸ S.visible_le hs hle)

theorem previous_lt (seq : ℕ) : S.previous seq = 0 ∨ S.previous seq < seq := by
  rw [previous_eq]
  rcases Nat.eq_zero_or_pos seq with rfl | hpos
  · left
    cases S.seqs with
    | nil => rfl
    | cons a rest => simp [lowerBound]
  · exact .inr (lowerBound_previous_lt S.seqs hpos)

theorem previous_mem (seq : ℕ) : S.previous seq = 0 ∨ S.previous seq ∈ S.seqs := by
  rw [previous_eq]
  exact lowerBound_previous_mem seq S.seqs 0

theorem le_previous (hs : s ∈ S.seqs) (hlt : s < seq) : s ≤ S.previous seq := by
  rw [previous_eq]
  exact le_lowerBound_previous S.ascending hs hlt 0

/-- The test `prev_snapshot == 0 || DefinitelyNotInSnapshot(older, prev_snapshot)`. -/
theorem sameStripe_iff (hle : older ≤ newer) (hmax : newer ≤ kMaxSequenceNumber) :
    S.previous newer = 0 ∨ S.previous newer < older ↔ S.visible older = S.visible newer := by
  constructor
  · intro hprev
    refine (S.visible_mono hle hmax).antisymm (not_lt.mp fun hlt => ?_)
    rcases S.visible_mem older with hmem | ⟨hnone, -⟩
    · have hbelow : S.visible older < newer :=
        not_le.mp fun h => absurd (S.visible_le hmem h) (by omega)
      have hp := S.le_previous hmem hbelow
      have ho := S.le_visible (hle.trans hmax)
      have hpos := S.positive _ hmem
      omega
    · have hle := S.visible_le_max newer
      omega
  · intro heq
    by_contra hcon
    push Not at hcon
    rcases S.previous_mem newer with h0 | hmem
    · exact hcon.1 h0
    · have h1 := S.visible_le hmem hcon.2
      have h2 := S.le_visible hmax
      rcases S.previous_lt newer with h0 | hlt
      · exact hcon.1 h0
      · omega

theorem earliest_le (hs : s ∈ S.seqs) : S.earliest ≤ s := by
  have hasc := S.ascending
  unfold earliest
  cases h : S.seqs with
  | nil => rw [h] at hs; cases hs
  | cons a rest =>
    rw [h] at hs hasc
    rcases List.mem_cons.mp hs with rfl | hrest
    · exact le_rfl
    · exact ((List.pairwise_cons.mp hasc).1 s hrest).le

/-- Everything at or below the earliest snapshot lies in one stripe. -/
theorem visible_eq_earliest (hle : seq ≤ S.earliest) : S.visible seq = S.earliest := by
  rw [visible_eq]
  unfold earliest at hle ⊢
  cases h : S.seqs with
  | nil => rfl
  | cons a rest =>
    rw [h] at hle
    have ha : seq ≤ a := hle
    simp only [lowerBound]
    rw [if_pos ha]
    rfl

/-- No snapshot lies before the earliest stripe. -/
theorem previous_eq_zero (hle : seq ≤ S.earliest) : S.previous seq = 0 := by
  rcases S.previous_mem seq with h0 | hmem
  · exact h0
  rcases S.previous_lt seq with h0 | hlt
  · exact h0
  have hge := S.earliest_le hmem
  omega

end Snapshots

end PnmCompaction.Compaction

import Mathlib.Data.Prod.Lex
import PnmCompaction.Compaction.Compact
import PnmCompaction.Merge.Sorted

/-!
# The input of a job

The items a compaction looks at are the merged keys of its files (`MakeInputIterator`,
db/version_set.cc 7834-7924). Internal keys are ordered by ascending user key, then
descending sequence number, then descending type (`InternalKeyComparator::Compare`,
db/dbformat.cc 199-218).
-/

namespace PnmCompaction.Compaction

open Merge

variable {K V ε : Type*} [LinearOrder K] {n : ℕ}

abbrev InternalKey (K : Type*) := K ×ₗ ℕᵒᵈ ×ₗ ℕᵒᵈ

/-- The numbers of `db/dbformat.h`. -/
def ValueType.code : ValueType → ℕ
  | .deletion => 0x0
  | .value => 0x1
  | .merge => 0x2
  | .singleDeletion => 0x7
  | .blobIndex => 0x11
  | .wideColumnEntity => 0x16
  | .valuePreferredSeqno => 0x18

def internalKey (k : K) (sequence type : ℕ) : InternalKey K :=
  toLex (k, toLex (OrderDual.toDual sequence, OrderDual.toDual type))

def Entry.internalKey (e : Entry K V) : InternalKey K :=
  Compaction.internalKey e.userKey e.sequence e.type.code

def userKey (k : InternalKey K) : K := (ofLex k).1

def sequence (k : InternalKey K) : ℕ := OrderDual.ofDual (ofLex (ofLex k).2).1

/-- A point of a table: what `ParseInternalKey` (db/dbformat.h 519-541) makes of its key, with
its value, or the message about a key of unknown type. -/
abbrev Point (K V : Type*) := Except String (Entry K V)

/-- What `CompactionIterator` reads off the merging iterator. -/
def item : Merged (InternalKey K) (Point K V) → Item K V
  | .point _ (.ok e) => .entry e
  | .point _ (.error message) => .corrupt message
  | .rangeStart k => .rangeDelSentinel (userKey k) (sequence k)

/-- Points are stored under their internal keys; one that is not parsed has a place too. -/
def Keyed : Merged (InternalKey K) (Point K V) → Prop
  | .point k (.ok e) => k = e.internalKey
  | .point _ (.error _) => True
  | .rangeStart _ => True

def parsedPoint : Merged (InternalKey K) (Point K V) → Option (Entry K V)
  | .point _ (.ok e) => some e
  | .point _ (.error _) => none
  | .rangeStart _ => none

def version? (y : Merged (InternalKey K) (Point K V)) : Option (K × ℕ) :=
  (parsedPoint y).map fun e => (e.userKey, e.sequence)

theorem userKey_le {k k' : InternalKey K} (h : k ≤ k') : userKey k ≤ userKey k' := by
  rcases Prod.Lex.le_iff.mp h with hlt | ⟨heq, -⟩
  · exact hlt.le
  · exact heq.le

theorem sequence_le {k k' : InternalKey K} (h : k ≤ k') (heq : userKey k = userKey k') :
    sequence k' ≤ sequence k := by
  rcases Prod.Lex.le_iff.mp h with hlt | ⟨-, hle⟩
  · exact absurd heq hlt.ne
  · rcases Prod.Lex.le_iff.mp hle with hseq | ⟨hseq, -⟩
    · exact hseq.le
    · exact (congrArg OrderDual.ofDual hseq).ge

omit [LinearOrder K] in
theorem item_userKey {y : Merged (InternalKey K) (Point K V)} (h : Keyed y) {k : K}
    (hk : k ∈ (item y).userKey?) : k = userKey y.key := by
  match y, h, hk with
  | .point _ (.ok e), h, hk =>
    cases h
    cases hk
    rfl
  | .rangeStart _, _, hk =>
    cases hk
    rfl

omit [LinearOrder K] in
theorem item_eq_entry {y : Merged (InternalKey K) (Point K V)} (h : Keyed y) {e : Entry K V}
    (he : item y = .entry e) :
    y.key = e.internalKey ∧ version? y = some (e.userKey, e.sequence) := by
  match y, h, he with
  | .point _ (.ok _), h, he =>
    cases h
    cases he
    exact ⟨rfl, rfl⟩

/-- Keys in order that are not two versions of one number are items in order. -/
theorem item_before {y z : Merged (InternalKey K) (Point K V)} (hy : Keyed y) (hz : Keyed z)
    (hle : y.key ≤ z.key) (hne : ∀ v ∈ version? y, ∀ w ∈ version? z, v ≠ w) :
    (item y).Before (item z) := by
  constructor
  · intro k hk k' hk'
    rw [item_userKey hy hk, item_userKey hz hk']
    exact userKey_le hle
  · intro e f he hf hkey
    obtain ⟨hye, hyv⟩ := item_eq_entry hy he
    obtain ⟨hzf, hzv⟩ := item_eq_entry hz hf
    rw [hye, hzf] at hle
    have hseq : f.sequence ≤ e.sequence := sequence_le hle hkey
    refine lt_of_le_of_ne hseq fun heq => hne _ hyv _ hzv ?_
    rw [hkey, heq]

omit [LinearOrder K] in
theorem entries_item (ys : List (Merged (InternalKey K) (Point K V))) :
    entries (ys.map item) = ys.filterMap parsedPoint := by
  rw [entries, List.filterMap_map]
  congr 1
  funext y
  rcases y with ⟨_, message | e⟩ | k
  · rfl
  · rfl
  · rfl

omit [LinearOrder K] in
theorem item_eq_corrupt {y : Merged (InternalKey K) (Point K V)} {message : String} :
    item y = .corrupt message ↔ ∃ k, y = .point k (.error message) := by
  rcases y with ⟨k, message' | e⟩ | k
  · simp [item]
  · simp [item]
  · simp [item]

/-- The files of a job are merged into an input in internal key order; when the merge ends
without an error the input has every version of every file, and a key that is not parsed
just where a file has one. -/
theorem merge_input_ordered (sources : Fin n → Source (InternalKey K) (Point K V) ε)
    (hord : ∀ i, (sources i).Ordered) (hkeyed : ∀ i, ∀ y ∈ (sources i).content, Keyed y)
    (hunique : ((∑ i, (sources i).content).filterMap version?).Nodup) :
    ∃ ys s, merge sources = some (ys, s) ∧ (ys.map item).Pairwise Item.Before ∧
      (s = none → (entries (ys.map item) : Multiset (Entry K V)) =
          (∑ i, (sources i).content).filterMap parsedPoint ∧
        ∀ message, .corrupt message ∈ ys.map item ↔
          ∃ i k, .point k (.error message) ∈ (sources i).content) := by
  obtain ⟨ys, s, hmerge, hsorted, hsub, hall, -⟩ := merge_spec sources hord
  have hkeys : ∀ y ∈ ys, Keyed y := by
    intro y hy
    obtain ⟨i, -, hi⟩ := Multiset.mem_sum.mp (Multiset.mem_of_le hsub (Multiset.mem_coe.mpr hy))
    exact hkeyed i y hi
  have hdistinct : (ys.filterMap version?).Nodup := by
    have hle := Multiset.filterMap_le_filterMap version? hsub
    rw [Multiset.filterMap_coe] at hle
    exact Multiset.coe_nodup.mp (Multiset.nodup_of_le hle hunique)
  refine ⟨ys, s, hmerge, ?_, fun hs => ⟨?_, fun message => ?_⟩⟩
  · rw [List.pairwise_map]
    have hpair := hsorted.and (List.pairwise_filterMap.mp hdistinct)
    exact hpair.imp_of_mem fun hy hz h => item_before (hkeys _ hy) (hkeys _ hz) h.1 h.2
  · rw [entries_item, ← (hall hs).1, Multiset.filterMap_coe]
  · have hmem : ∀ y, y ∈ ys ↔ ∃ i, y ∈ (sources i).content := by
      intro y
      rw [← Multiset.mem_coe, (hall hs).1, Multiset.mem_sum]
      simp
    simp only [List.mem_map, item_eq_corrupt, hmem]
    constructor
    · rintro ⟨y, ⟨i, hi⟩, k, rfl⟩
      exact ⟨i, k, hi⟩
    · rintro ⟨i, k, hi⟩
      exact ⟨_, ⟨i, hi⟩, k, rfl⟩

def sampleFile (points : List (InternalKey ℕ × Point ℕ ℕ)) (largest : InternalKey ℕ) :
    SstFile (InternalKey ℕ) (Point ℕ ℕ) String :=
  ⟨points, none, [], largest⟩

def samplePoint (e : Entry ℕ ℕ) : InternalKey ℕ × Point ℕ ℕ := (e.internalKey, .ok e)

/-- Two overlapping files of level 0, the second one with a key of type 3. -/
def sampleFiles : Fin 2 → Source (InternalKey ℕ) (Point ℕ ℕ) String
  | 0 => .table (sampleFile [samplePoint ⟨1, 7, .singleDeletion, 0⟩,
      samplePoint ⟨2, 9, .value, 20⟩] (internalKey 2 9 1))
  | 1 => .table (sampleFile [samplePoint ⟨1, 6, .value, 10⟩,
      (internalKey 2 8 3, .error "Corrupted Key"),
      samplePoint ⟨2, 7, .value, 21⟩] (internalKey 2 7 1))

theorem sampleFiles_ordered : ∀ i, (sampleFiles i).Ordered :=
  Fin.forall_fin_two.mpr ⟨⟨by decide, by decide, by decide, by decide⟩,
    ⟨by decide, by decide, by decide, by decide⟩⟩

theorem sampleFile_keyed (points : List (InternalKey ℕ × Point ℕ ℕ)) (largest : InternalKey ℕ)
    (h : ∀ p ∈ points, Keyed (.point p.1 p.2)) :
    ∀ y ∈ (sampleFile points largest).content, Keyed y := by
  intro y hy
  rcases Multiset.mem_add.mp hy with hy | hy
  · obtain ⟨p, hp, rfl⟩ := mem_pointKeys.mp hy
    exact h p hp
  · exact absurd hy (Multiset.notMem_zero y)

theorem sampleFiles_keyed : ∀ i, ∀ y ∈ (sampleFiles i).content, Keyed y :=
  Fin.forall_fin_two.mpr ⟨sampleFile_keyed _ _ (by simp [samplePoint, Keyed]),
    sampleFile_keyed _ _ (by simp [samplePoint, Keyed])⟩

theorem merge_input_ordered_sample :
    ∃ ys s, merge sampleFiles = some (ys, s) ∧ (ys.map item).Pairwise Item.Before ∧
      (s = none → (entries (ys.map item) : Multiset (Entry ℕ ℕ)) =
          (∑ i, (sampleFiles i).content).filterMap parsedPoint ∧
        ∀ message, .corrupt message ∈ ys.map item ↔
          ∃ i k, .point k (.error message) ∈ (sampleFiles i).content) :=
  merge_input_ordered sampleFiles sampleFiles_ordered sampleFiles_keyed (by decide +kernel)

end PnmCompaction.Compaction

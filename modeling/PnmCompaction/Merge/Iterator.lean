import Mathlib.Algebra.BigOperators.Fin
import Mathlib.Algebra.Order.BigOperators.Group.Finset
import PnmCompaction.Merge.Heap

/-!
# The merged input of a compaction

`VersionSet::MakeInputIterator` (db/version_set.cc 7834-7924) gives a compaction one
iterator per level-0 file and one `LevelIterator` (1404-1711) per other level, and merges
them in a `CompactionMergingIterator` (table/compaction_merging_iterator.cc 11-372). The
start keys of range tombstones take part in the merge. A level iterator only gives out those
of the file it is at; it pretends the end of each file is a key (a sentinel), so that the
merging iterator notices when it enters the next file.

Keys are internal keys in the order of the internal key comparator.
-/


namespace PnmCompaction.Merge

variable {κ α ε : Type*}

/-- A table file: its point keys, the status of its iterator behind the last of them, the
start keys of its range tombstones and the `largest` of its metadata. -/
structure SstFile (κ α ε : Type*) where
  points : List (κ × α)
  error : Option ε
  tombstones : List κ
  largest : κ

structure LevelIterator (κ α ε : Type*) where
  /-- `file_iter_`: what is left, and its status behind that. -/
  points : List (κ × α)
  error : Option ε
  /-- `file_largest_key(file_index_)`. -/
  largest : κ
  toReturnSentinel : Bool
  /-- The files after `file_index_`. -/
  files : List (SstFile κ α ε)

/-- What an iterator stands at. -/
inductive Position (κ α : Type*)
  | point (key : κ) (value : α)
  | sentinel (key : κ)

def Position.key : Position κ α → κ
  | .point k _ => k
  | .sentinel k => k

namespace LevelIterator

def position (it : LevelIterator κ α ε) : Option (Position κ α) :=
  if it.toReturnSentinel then some (.sentinel it.largest)
  else it.points.head?.map fun p => .point p.1 p.2

def trySetDeleteRangeSentinel (it : LevelIterator κ α ε) : LevelIterator κ α ε :=
  if it.points.isEmpty ∧ it.error.isNone then { it with toReturnSentinel := true } else it

/-- `InitFileIterator` and `SeekToFirst` of the file. -/
def enter (f : SstFile κ α ε) (files : List (SstFile κ α ε)) : LevelIterator κ α ε :=
  trySetDeleteRangeSentinel ⟨f.points, f.error, f.largest, false, files⟩

/-- Lines 1651-1711. Returns the range tombstones of the file it ends in as well. -/
def skipEmptyFileForward (it : LevelIterator κ α ε) (tombstones : List κ) :
    LevelIterator κ α ε × List κ :=
  if !it.toReturnSentinel ∧ it.points.isEmpty ∧ it.error.isNone then
    match _h : it.files with
    | [] => (it, [])
    | f :: files => skipEmptyFileForward (enter f files) f.tombstones
  else (it, tombstones)
termination_by it.files.length
decreasing_by
  unfold enter trySetDeleteRangeSentinel
  rw [_h]
  split <;> simp

def seekToFirst (f : SstFile κ α ε) (files : List (SstFile κ α ε)) :
    LevelIterator κ α ε × List κ :=
  skipEmptyFileForward (enter f files) f.tombstones

def next (it : LevelIterator κ α ε) (tombstones : List κ) : LevelIterator κ α ε × List κ :=
  if it.toReturnSentinel then skipEmptyFileForward { it with toReturnSentinel := false } tombstones
  else
    skipEmptyFileForward (trySetDeleteRangeSentinel { it with points := it.points.tail }) tombstones

end LevelIterator

/-- The inputs of a compaction: a file of level 0, or the files of another level. -/
inductive Source (κ α ε : Type*)
  | table (f : SstFile κ α ε)
  | level (f : SstFile κ α ε) (files : List (SstFile κ α ε))

inductive Child (κ α ε : Type*)
  | table (points : List (κ × α)) (error : Option ε)
  | level (it : LevelIterator κ α ε)

namespace Child

def position : Child κ α ε → Option (Position κ α)
  | .table points _ => points.head?.map fun p => .point p.1 p.2
  | .level it => it.position

def status : Child κ α ε → Option ε
  | .table points error => if points.isEmpty then error else none
  | .level it => if it.points.isEmpty then it.error else none

/-- The child after `Next`, with the range tombstones of its level. -/
def next : Child κ α ε → List κ → Child κ α ε × List κ
  | .table points error, tombstones => (.table points.tail error, tombstones)
  | .level it, tombstones => ((.level (it.next tombstones).1), (it.next tombstones).2)

def seekToFirst : Source κ α ε → Child κ α ε × List κ
  | .table f => (.table f.points f.error, f.tombstones)
  | .level f files =>
    (.level (LevelIterator.seekToFirst f files).1, (LevelIterator.seekToFirst f files).2)

end Child

inductive ItemType
  | iterator
  | deleteRangeStart
  deriving DecidableEq

structure HeapItem (κ : Type*) (n : ℕ) where
  key : κ
  level : Fin n
  type : ItemType

/-- `CompactionHeapItemComparator`, lines 186-206: the smallest key is at the top. -/
def HeapItem.cmp [LinearOrder κ] {n : ℕ} (a b : HeapItem κ n) : Bool := decide (b.key < a.key)

structure MergingIterator (κ α ε : Type*) (n : ℕ) where
  children : Fin n → Child κ α ε
  /-- `range_tombstone_iters_`: the start keys that are left, none for a null pointer. -/
  tombstones : Fin n → List κ
  minHeap : BinaryHeap (HeapItem κ n)
  status : Option ε

/-- What the merging iterator gives out: a point key, or the start key of a range tombstone
(`IsDeleteRangeSentinelKey`). -/
inductive Merged (κ α : Type*)
  | point (key : κ) (value : α)
  | rangeStart (key : κ)
  deriving DecidableEq

def Merged.key : Merged κ α → κ
  | .point k _ => k
  | .rangeStart k => k

namespace MergingIterator

variable [LinearOrder κ] {n : ℕ}

def considerStatus (m : MergingIterator κ α ε n) (s : Option ε) : MergingIterator κ α ε n :=
  { m with status := m.status.or s }

def addToMinHeapOrCheckStatus (m : MergingIterator κ α ε n) (i : Fin n) :
    MergingIterator κ α ε n :=
  match (m.children i).position with
  | some p => { m with minHeap := m.minHeap.push HeapItem.cmp ⟨p.key, i, .iterator⟩ }
  | none => m.considerStatus (m.children i).status

def insertRangeTombstoneAtLevel (m : MergingIterator κ α ε n) (i : Fin n) :
    MergingIterator κ α ε n :=
  match m.tombstones i with
  | k :: _ => { m with minHeap := m.minHeap.push HeapItem.cmp ⟨k, i, .deleteRangeStart⟩ }
  | [] => m

/-- `Next` of the child at the top of the heap, and the heap after it (lines 301-335). -/
def advance (m : MergingIterator κ α ε n) (i : Fin n) : MergingIterator κ α ε n :=
  let (child, tombstones) := (m.children i).next (m.tombstones i)
  let m := { m with
    children := Function.update m.children i child
    tombstones := Function.update m.tombstones i tombstones }
  match child.position with
  | some p => { m with minHeap := m.minHeap.replaceTop HeapItem.cmp ⟨p.key, i, .iterator⟩ }
  | none => { m.considerStatus child.status with minHeap := m.minHeap.pop HeapItem.cmp }

/-- `Next` of the range tombstones at the top of the heap. -/
def advanceTombstone (m : MergingIterator κ α ε n) (i : Fin n) : MergingIterator κ α ε n :=
  let rest := (m.tombstones i).tail
  { m with
    tombstones := Function.update m.tombstones i rest
    minHeap := match rest with
      | k :: _ => m.minHeap.replaceTop HeapItem.cmp ⟨k, i, .deleteRangeStart⟩
      | [] => m.minHeap.pop HeapItem.cmp }

end MergingIterator

/-! ### Skipping sentinels ends -/

def LevelIterator.ends (it : LevelIterator κ α ε) : ℕ :=
  2 * it.files.length + it.toReturnSentinel.toNat

def Child.ends : Child κ α ε → ℕ
  | .table _ _ => 0
  | .level it => it.ends

def Child.atSentinel (c : Child κ α ε) : Bool :=
  match c.position with
  | some (.sentinel _) => true
  | _ => false

theorem LevelIterator.enter_ends (f : SstFile κ α ε) (files : List (SstFile κ α ε)) :
    (enter f files).ends ≤ 2 * files.length + 1 := by
  unfold enter trySetDeleteRangeSentinel
  split <;> simp [ends]

theorem LevelIterator.skipEmptyFileForward_ends (it : LevelIterator κ α ε) (tombstones : List κ) :
    (it.skipEmptyFileForward tombstones).1.ends ≤ it.ends := by
  fun_induction skipEmptyFileForward it tombstones with
  | case1 => exact le_rfl
  | case2 it tombstones h f files hfiles ih =>
    have henter := enter_ends f files
    have hends : it.ends = 2 * (files.length + 1) := by
      have hsent : it.toReturnSentinel = false := by simpa using h.1
      rw [ends, hfiles, hsent]
      rfl
    omega
  | case3 => exact le_rfl

theorem LevelIterator.atSentinel_iff (it : LevelIterator κ α ε) :
    (Child.level it).atSentinel = true ↔ it.toReturnSentinel = true := by
  cases hsent : it.toReturnSentinel with
  | true => simp [Child.atSentinel, Child.position, LevelIterator.position, hsent]
  | false =>
    cases hpoints : it.points <;>
      simp [Child.atSentinel, Child.position, LevelIterator.position, hsent, hpoints]

theorem Child.next_ends {c : Child κ α ε} (h : c.atSentinel = true) (tombstones : List κ) :
    (c.next tombstones).1.ends < c.ends := by
  cases c with
  | table points error => cases points <;> simp [atSentinel, position] at h
  | level it =>
    have hsent := it.atSentinel_iff.mp h
    change (it.next tombstones).1.ends < it.ends
    have hle := LevelIterator.skipEmptyFileForward_ends { it with toReturnSentinel := false }
      tombstones
    rw [LevelIterator.next, if_pos hsent]
    refine hle.trans_lt ?_
    simp [LevelIterator.ends, hsent]

namespace MergingIterator

variable [LinearOrder κ] {n : ℕ}

def ends (m : MergingIterator κ α ε n) : ℕ := ∑ i, (m.children i).ends

theorem advance_children (m : MergingIterator κ α ε n) (i : Fin n) :
    (m.advance i).children =
      Function.update m.children i ((m.children i).next (m.tombstones i)).1 := by
  unfold advance considerStatus
  dsimp only
  split <;> rfl

theorem insertRangeTombstoneAtLevel_children (m : MergingIterator κ α ε n) (i : Fin n) :
    (m.insertRangeTombstoneAtLevel i).children = m.children := by
  unfold insertRangeTombstoneAtLevel
  split <;> rfl

theorem advance_ends {m : MergingIterator κ α ε n} {i : Fin n}
    (h : (m.children i).atSentinel = true) :
    ((m.advance i).insertRangeTombstoneAtLevel i).ends < m.ends := by
  unfold ends
  rw [insertRangeTombstoneAtLevel_children, advance_children]
  refine Finset.sum_lt_sum (fun j _ => ?_) ⟨i, Finset.mem_univ i, ?_⟩
  · by_cases hj : j = i
    · subst hj
      rw [Function.update_self]
      exact (Child.next_ends h _).le
    · rw [Function.update_of_ne hj]
  · rw [Function.update_self]
    exact Child.next_ends h _

/-! ### The operations -/

/-- Lines 337-363; `none` where the assertion fails that the range tombstones of a file are
exhausted when its sentinel is reached. -/
def findNextVisibleKey (m : MergingIterator κ α ε n) : Option (MergingIterator κ α ε n) :=
  match m.minHeap.top with
  | none => some m
  | some item =>
    if _h : item.type = .iterator ∧ (m.children item.level).atSentinel = true then
      if (m.tombstones item.level).isEmpty then
        findNextVisibleKey ((m.advance item.level).insertRangeTombstoneAtLevel item.level)
      else none
    else some m
termination_by m.ends
decreasing_by exact advance_ends _h.2

/-- All children at their first keys, nothing in the heap. -/
def positioned (sources : Fin n → Source κ α ε) : MergingIterator κ α ε n :=
  ⟨fun i => (Child.seekToFirst (sources i)).1, fun i => (Child.seekToFirst (sources i)).2,
    .empty, none⟩

def seekToFirst (sources : Fin n → Source κ α ε) : Option (MergingIterator κ α ε n) :=
  let m := (List.finRange n).foldl addToMinHeapOrCheckStatus (positioned sources)
  let m := (List.finRange n).foldl insertRangeTombstoneAtLevel m
  m.findNextVisibleKey

/-- What the iterator stands at when it is valid. -/
def current (m : MergingIterator κ α ε n) : Option (Merged κ α) :=
  match m.status, m.minHeap.top with
  | none, some item =>
    match item.type, (m.children item.level).position with
    | .iterator, some (.point k v) => some (.point k v)
    | .iterator, _ => none
    | .deleteRangeStart, _ => some (.rangeStart item.key)
  | _, _ => none

def next (m : MergingIterator κ α ε n) : Option (MergingIterator κ α ε n) :=
  match m.minHeap.top with
  | none => none
  | some item =>
    match item.type with
    | .iterator => (m.advance item.level).findNextVisibleKey
    | .deleteRangeStart => (m.advanceTombstone item.level).findNextVisibleKey

/-- The keys from here to where the iterator stops being valid, and its status there;
`none` when an assertion fails or `fuel` runs out. -/
def drain : ℕ → MergingIterator κ α ε n → Option (List (Merged κ α) × Option ε)
  | 0, _ => none
  | fuel + 1, m =>
    match m.current with
    | none => some ([], m.status)
    | some y => m.next.bind fun m => (drain fuel m).map fun r => (y :: r.1, r.2)

end MergingIterator

end PnmCompaction.Merge

import PnmCompaction.Compaction.Fates
import PnmCompaction.Lib.Versions

/-!
# What a reader finds

A point read at a snapshot is answered by the newest version of its key the snapshot sees:
first in the files of the compaction, then in the levels below its output level. Range
tombstones of the compaction delete the versions they cover; which of them stay is
`CompactionOutputs::AddRangeDels` (db/compaction/compaction_outputs.cc 467-762).
`Admissible` says which inputs a compaction is meant for.
-/

namespace PnmCompaction.Compaction

open Lib (Versions)

variable {K V : Type*}

/-! ### The input as a list of versions -/

def Item.userKey? : Item K V → Option K
  | .entry e => some e.userKey
  | .rangeDelSentinel k _ => some k
  | .corrupt _ => none

def Item.entry? : Item K V → Option (Entry K V)
  | .entry e => some e
  | _ => none

def entries (l : List (Item K V)) : List (Entry K V) := l.filterMap Item.entry?

@[simp]
theorem entries_nil : entries ([] : List (Item K V)) = [] :=
  rfl

@[simp]
theorem entries_entry (e : Entry K V) (l : List (Item K V)) :
    entries (.entry e :: l) = e :: entries l :=
  rfl

@[simp]
theorem entries_sentinel (k : K) (seq : ℕ) (l : List (Item K V)) :
    entries (.rangeDelSentinel k seq :: l) = entries l :=
  rfl

theorem mem_entries {x : Entry K V} {l : List (Item K V)} : x ∈ entries l ↔ .entry x ∈ l := by
  rw [entries, List.mem_filterMap]
  constructor
  · rintro ⟨item, hmem, hitem⟩
    cases item with
    | entry e => cases hitem; exact hmem
    | rangeDelSentinel k seq => cases hitem
    | corrupt message => cases hitem
  · exact fun h => ⟨_, h, rfl⟩

theorem entries_suffix {l l' : List (Item K V)} (h : l <:+ l') : entries l <:+ entries l' :=
  h.filterMap _

variable [LinearOrder K]

theorem entries_skipSentinels (k : K) (l : List (Item K V)) :
    entries (skipSentinels k l) = entries l := by
  fun_induction skipSentinels k l with
  | case1 seq rest ih => exact ih
  | case2 => rfl
  | case3 => rfl

theorem entries_skipStripe (k : K) (prev : ℕ) (l : List (Item K V)) :
    ∃ skipped, entries l = skipped ++ entries (skipStripe k prev l) ∧
      ∀ x ∈ skipped, x.userKey = k ∧ (prev = 0 ∨ prev < x.sequence) := by
  fun_induction skipStripe k prev l with
  | case1 next rest h ih =>
    obtain ⟨skipped, heq, hall⟩ := ih
    refine ⟨next :: skipped, by rw [entries_entry, heq]; rfl, ?_⟩
    intro x hx
    rcases List.mem_cons.mp hx with rfl | hx
    · exact h
    · exact hall x hx
  | case2 => exact ⟨[], rfl, by simp⟩
  | case3 seq rest ih => exact ih
  | case4 => exact ⟨[], rfl, by simp⟩
  | case5 => exact ⟨[], rfl, by simp⟩

/-- Internal key order, newest version first. -/
def Item.Before (a b : Item K V) : Prop :=
  (∀ k ∈ a.userKey?, ∀ k' ∈ b.userKey?, k ≤ k') ∧
    ∀ x y, a = .entry x → b = .entry y → x.userKey = y.userKey → y.sequence < x.sequence

/-- Behind an item of another key nothing of the key `k` follows. -/
theorem not_mem_entries_of_not_standsAt {k : K} {l : List (Item K V)}
    (hparses : ∀ item ∈ l, item.userKey? ≠ none) (hordered : l.Pairwise Item.Before)
    (hfrom : ∀ item ∈ l, ∀ k' ∈ item.userKey?, k ≤ k') (hstands : standsAt k l = false) :
    ∀ x ∈ entries l, x.userKey ≠ k := by
  cases l with
  | nil => simp
  | cons item rest =>
    obtain ⟨k', hk'⟩ := Option.ne_none_iff_exists'.mp (hparses item List.mem_cons_self)
    have hne : k' ≠ k := by
      rintro rfl
      cases item with
      | entry e => cases hk'; simp [standsAt] at hstands
      | rangeDelSentinel k seq => cases hk'; simp [standsAt] at hstands
      | corrupt message => cases hk'
    have hlt : k < k' := lt_of_le_of_ne (hfrom item List.mem_cons_self k' hk') hne.symm
    intro x hx
    rcases List.mem_cons.mp (mem_entries.mp hx) with rfl | hx
    · cases hk'
      exact hne
    · have hle := ((List.pairwise_cons.mp hordered).1 _ hx).1 k' hk' x.userKey rfl
      exact (hlt.trans_le hle).ne'

/-! ### Point reads -/

def Entry.payload (c : Config K V) (e : Entry K V) : Option (ValueType × V) :=
  match e.type with
  | .deletion | .singleDeletion => none
  | .valuePreferredSeqno => some (.value, (c.parsePackedValueWithSeqno e.value).1)
  | t => some (t, e.value)

/-- A tombstone of `T` that a reader at `s` sees deletes `e`. -/
def coveredBy (T : List (Tombstone K)) (e : Entry K V) (s : ℕ) : Bool :=
  T.any fun t => t.covers e.userKey && decide (e.sequence < t.sequence) && decide (t.sequence ≤ s)

def versions (c : Config K V) (T : List (Tombstone K)) :
    Versions (Entry K V) K (ValueType × V) where
  key := Entry.userKey
  stamp := Entry.sequence
  answer e s := if coveredBy T e s then none else e.payload c

/-- `KeyRangeNotExistsBeyondOutputLevel` of the range of a tombstone. -/
def Config.rangeNotExistsBeyondOutputLevel (c : Config K V) (t : Tombstone K) : Bool :=
  c.compactionBottommost || c.absentRangeBelow t.startKey t.endKey

/-- The tombstones `CompactionOutputs::AddRangeDels` writes. -/
def Config.keptRangeDels (c : Config K V) : List (Tombstone K) :=
  c.rangeDels.filter fun t =>
    !(decide (t.sequence ≤ c.earliestSnapshot) && c.rangeNotExistsBeyondOutputLevel t)

/-- A reader: a snapshot of the job, or one that sees all of the input. -/
def Config.Reader (c : Config K V) (input : List (Item K V)) (s : ℕ) : Prop :=
  s ∈ c.snapshots.seqs ∨
    (∀ e ∈ entries input, e.sequence ≤ s) ∧ ∀ t ∈ c.rangeDels, t.sequence ≤ s

/-! ### Which inputs a compaction is meant for -/

/-- The versions of a key, newest first, use `SingleDelete` as documented: below one comes
another one or a put, and the put is the only one since the single deletion before it. -/
def singleDeletesMatch : List ValueType → Prop
  | .singleDeletion :: t :: ts =>
    (t = .singleDeletion ∨ t.isPut = true ∧ ∀ u ∈ ts.head?, u = .singleDeletion) ∧
      singleDeletesMatch (t :: ts)
  | _ :: ts => singleDeletesMatch ts
  | [] => True

theorem singleDeletesMatch_tail {t : ValueType} {ts : List ValueType}
    (h : singleDeletesMatch (t :: ts)) : singleDeletesMatch ts := by
  cases ts with
  | nil => trivial
  | cons u us => cases t <;> first | exact h | exact h.2

theorem singleDeletesMatch_suffix {l l' : List ValueType} (h : singleDeletesMatch l')
    (hsuf : l <:+ l') : singleDeletesMatch l := by
  obtain ⟨pre, rfl⟩ := hsuf
  induction pre with
  | nil => exact h
  | cons t pre ih => exact ih (singleDeletesMatch_tail h)

theorem singleDeletesMatch_of_none {l : List ValueType}
    (h : ∀ t ∈ l, t ≠ .singleDeletion) : singleDeletesMatch l := by
  induction l with
  | nil => trivial
  | cons t ts ih =>
    have hts := ih fun u hu => h u (List.mem_cons_of_mem _ hu)
    cases t with
    | singleDeletion => exact absurd rfl (h _ List.mem_cons_self)
    | _ => exact hts

def versionsOf (k : K) (l : List (Entry K V)) : List (Entry K V) :=
  l.filter fun x => x.userKey = k

structure Admissible (c : Config K V) (input : List (Item K V)) (below : List (Entry K V)) :
    Prop where
  parses : ∀ item ∈ input, item.userKey? ≠ none
  ordered : input.Pairwise Item.Before
  numbered : ∀ e ∈ entries input, e.sequence < kMaxSequenceNumber
  -- a merge operand needs a merge operator
  noMerge : ∀ e ∈ entries input, e.type ≠ .merge
  entities : ∀ e ∈ entries input, e.type = .wideColumnEntity → c.deserializeV2 e.value = .ok
  preferred : ∀ e ∈ entries input, e.type = .valuePreferredSeqno →
    e.sequence = 0 ∨ (c.parsePackedValueWithSeqno e.value).2 < e.sequence
  rangeNumbered : ∀ t ∈ c.rangeDels, t.sequence ≤ kMaxSequenceNumber
  -- the levels below hold older versions, and none that the level search excludes
  older : ∀ e ∈ entries input, ∀ x ∈ below, x.userKey = e.userKey → x.sequence < e.sequence
  absent : ∀ e ∈ entries input, c.keyNotExistsBeyondOutputLevel e.userKey = true →
    ∀ x ∈ below, x.userKey ≠ e.userKey
  absentRange : ∀ t ∈ c.rangeDels, c.rangeNotExistsBeyondOutputLevel t = true →
    ∀ x ∈ below, t.covers x.userKey = false
  contract : ∀ k, singleDeletesMatch ((versionsOf k (entries input ++ below)).map Entry.type)
  conflict : c.earliestSnapshot ≤ c.earliestWriteConflictSnapshot

end PnmCompaction.Compaction

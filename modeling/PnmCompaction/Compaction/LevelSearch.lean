import PnmCompaction.Compaction.Compact

/-!
# The search in the levels below

`Compaction::KeyNotExistsBeyondOutputLevel` and `KeyRangeNotExistsBeyondOutputLevel`
(db/compaction/compaction.cc 642-723) ask whether a file below the output level can hold a
key. The iterator asks for keys in ascending order, so each level is searched from where the
last search ended (`level_ptrs`). A compaction at the bottommost level does not search: no
file below overlaps the range of its input files (`IsBottommostLevel`, compaction.cc 201-221,
over `RangeMightExistAfterSortedRun` and `SomeFileOverlapsRange`, db/version_set.cc 5342-5371
and 930-965).
-/

namespace PnmCompaction.Compaction

structure FileMetaData (K : Type*) [LinearOrder K] where
  smallest : K
  largest : K
  ordered : smallest ≤ largest

/-- `LevelFiles` of a level other than 0: the files follow one another, and neighbours may
share the user key at their boundary. -/
structure Level (K : Type*) [LinearOrder K] where
  files : List (FileMetaData K)
  disjoint : files.Pairwise fun f g => f.largest ≤ g.smallest

/-- The members of `Compaction` the search reads. -/
structure LevelSearch (K : Type*) [LinearOrder K] where
  bottommostLevel : Bool
  outputLevel : ℕ
  /-- The files of level 0 behind the last input file, for an output to level 0. -/
  olderL0 : List (FileMetaData K)
  olderL0_nil : outputLevel ≠ 0 → olderL0 = []
  /-- `compaction_style == kCompactionStyleLevel`. -/
  levelStyle : Bool
  /-- The levels from `output_level_ + 1` on. -/
  below : List (Level K)

/-- What is asked for: a key, or the range of a tombstone. -/
inductive Query (K : Type*)
  | key (k : K)
  | range (start stop : K)

section

variable {K : Type*} [LinearOrder K]

def Query.start : Query K → K
  | .key k => k
  | .range start _ => start

/-- The second test of the loops, at a file that does not end before the query starts. -/
def Query.hits : Query K → FileMetaData K → Bool
  | .key k, f => decide (f.smallest ≤ k)
  | .range _ stop, f => decide (f.smallest < stop)

def Query.overlaps (q : Query K) (f : FileMetaData K) : Bool :=
  decide (q.start ≤ f.largest) && q.hits f

/-- The loop over the files of a level from `ptr` on. -/
def searchLevel (files : List (FileMetaData K)) (q : Query K) (ptr : ℕ) : Bool × ℕ :=
  if h : ptr < files.length then
    if q.start ≤ files[ptr].largest then (q.hits files[ptr], ptr)
    else searchLevel files q (ptr + 1)
  else (false, ptr)
termination_by files.length - ptr

/-- The loop over the levels; it ends at the first level with a file that overlaps. -/
def searchLevels (q : Query K) : List (Level K) → List ℕ → Bool × List ℕ
  | lvl :: lvls, ptr :: ptrs =>
    let (found, ptr) := searchLevel lvl.files q ptr
    if found then (true, ptr :: ptrs)
    else
      let (found, ptrs) := searchLevels q lvls ptrs
      (found, ptr :: ptrs)
  | _, ptrs => (false, ptrs)

namespace LevelSearch

def notExistsBeyondOutputLevel (s : LevelSearch K) (q : Query K) (ptrs : List ℕ) :
    Bool × List ℕ :=
  if s.bottommostLevel then (true, ptrs)
  else if s.outputLevel ≠ 0 ∧ s.levelStyle then
    let (found, ptrs) := searchLevels q s.below ptrs
    (!found, ptrs)
  else (false, ptrs)

/-- The answers to queries asked one after the other. -/
def answers (s : LevelSearch K) : List (Query K) → List ℕ → List Bool
  | [], _ => []
  | q :: qs, ptrs =>
    let (answer, ptrs) := s.notExistsBeyondOutputLevel q ptrs
    answer :: s.answers qs ptrs

/-- The answer to one query by a search of all files. -/
def plain (s : LevelSearch K) (q : Query K) : Bool :=
  s.bottommostLevel || (decide (s.outputLevel ≠ 0) && s.levelStyle &&
    !s.below.any fun lvl => lvl.files.any q.overlaps)

end LevelSearch

/-- `OverlapInLevel`: only the first file that does not end before the range is looked at. -/
def Level.overlapInLevel (lvl : Level K) (smallest largest : K) : Bool :=
  match lvl.files.find? fun f => decide (smallest ≤ f.largest) with
  | none => false
  | some f => decide (f.smallest ≤ largest)

namespace LevelSearch

def rangeMightExistAfterSortedRun (s : LevelSearch K) (smallest largest : K) : Bool :=
  !s.olderL0.isEmpty || s.below.any fun lvl =>
    !lvl.files.isEmpty && (decide (s.outputLevel = 0) || lvl.overlapInLevel smallest largest)

/-- For input files between the user keys `smallest` and `largest`. -/
def isBottommostLevel (s : LevelSearch K) (smallest largest : K) : Bool :=
  !s.rangeMightExistAfterSortedRun smallest largest

end LevelSearch

/-! ### One level -/

variable {files : List (FileMetaData K)} {q : Query K} {ptr : ℕ}

/-- The files before the pointer end before the keys still to be asked for. -/
def Passed (files : List (FileMetaData K)) (k : K) (ptr : ℕ) : Prop :=
  ∀ f ∈ files.take ptr, f.largest < k

theorem Passed.mono {k k' : K} (h : Passed files k ptr) (hle : k ≤ k') : Passed files k' ptr :=
  fun f hf => (h f hf).trans_le hle

theorem Query.hits_mono {f g : FileMetaData K} (hlt : f.largest ≤ g.smallest)
    (h : q.hits f = false) : q.hits g = false := by
  have hle := f.ordered
  cases q with
  | key k =>
    simp only [Query.hits, decide_eq_false_iff_not, not_le] at h ⊢
    exact (h.trans_le hle).trans_le hlt
  | range start stop =>
    simp only [Query.hits, decide_eq_false_iff_not, not_lt] at h ⊢
    exact (h.trans hle).trans hlt

theorem Passed.succ {k : K} (hpassed : Passed files k ptr) (h : ptr < files.length)
    (hlt : files[ptr].largest < k) : Passed files k (ptr + 1) := by
  intro f hf
  rw [List.take_add_one, List.getElem?_eq_getElem h] at hf
  rcases List.mem_append.mp hf with hf | hf
  · exact hpassed f hf
  · rw [List.mem_singleton.mp hf]
    exact hlt

theorem Passed.any_overlaps (hpassed : Passed files q.start ptr) :
    files.any q.overlaps = (files.drop ptr).any q.overlaps := by
  have hnone : (files.take ptr).any q.overlaps = false := by
    rw [List.any_eq_false]
    intro f hf
    simp [Query.overlaps, hpassed f hf]
  conv_lhs => rw [← List.take_append_drop ptr files]
  rw [List.any_append, hnone, Bool.false_or]

theorem searchLevel_passed (hpassed : Passed files q.start ptr) :
    Passed files q.start (searchLevel files q ptr).2 := by
  fun_induction searchLevel files q ptr with
  | case1 => exact hpassed
  | case2 ptr h hle ih => exact ih (hpassed.succ h (not_le.mp hle))
  | case3 => exact hpassed

theorem searchLevel_eq (hdisjoint : files.Pairwise fun f g => f.largest ≤ g.smallest)
    (hpassed : Passed files q.start ptr) :
    (searchLevel files q ptr).1 = files.any q.overlaps := by
  fun_induction searchLevel files q ptr with
  | case1 ptr h hle =>
    rw [hpassed.any_overlaps, List.drop_eq_getElem_cons h, List.any_cons]
    cases hhit : q.hits files[ptr] with
    | true => simp [Query.overlaps, hle, hhit]
    | false =>
      -- the files behind the first that does not end before the query start after it
      have hpair := hdisjoint.sublist (List.drop_sublist ptr files)
      rw [List.drop_eq_getElem_cons h, List.pairwise_cons] at hpair
      have hrest : (files.drop (ptr + 1)).any q.overlaps = false := by
        rw [List.any_eq_false]
        intro g hg
        simp [Query.overlaps, Query.hits_mono (hpair.1 g hg) hhit]
      simp [Query.overlaps, hhit, hrest]
  | case2 ptr h hle ih => exact ih (hpassed.succ h (not_le.mp hle))
  | case3 ptr h =>
    rw [hpassed.any_overlaps, List.drop_eq_nil_of_le (not_lt.mp h)]
    rfl

/-! ### All levels -/

theorem searchLevels_spec {lvls : List (Level K)} {ptrs : List ℕ}
    (hpassed : List.Forall₂ (fun lvl ptr => Passed lvl.files q.start ptr) lvls ptrs) :
    (searchLevels q lvls ptrs).1 = (lvls.any fun lvl => lvl.files.any q.overlaps) ∧
      List.Forall₂ (fun lvl ptr => Passed lvl.files q.start ptr) lvls
        (searchLevels q lvls ptrs).2 := by
  induction hpassed with
  | nil => exact ⟨rfl, .nil⟩
  | @cons lvl ptr lvls ptrs hp hps ih =>
    have heq := searchLevel_eq lvl.disjoint hp
    have hnext := searchLevel_passed hp
    simp only [searchLevels, List.any_cons]
    split
    · next hfound =>
      rw [← heq, hfound]
      exact ⟨rfl, .cons hnext hps⟩
    · next hfound =>
      have hfound : (searchLevel lvl.files q ptr).1 = false := by simpa using hfound
      rw [← heq, hfound]
      exact ⟨by simpa using ih.1, .cons hnext ih.2⟩

namespace LevelSearch

variable {s : LevelSearch K}

theorem notExists_spec {ptrs : List ℕ}
    (hpassed : List.Forall₂ (fun lvl ptr => Passed lvl.files q.start ptr) s.below ptrs) :
    (s.notExistsBeyondOutputLevel q ptrs).1 = s.plain q ∧
      List.Forall₂ (fun lvl ptr => Passed lvl.files q.start ptr) s.below
        (s.notExistsBeyondOutputLevel q ptrs).2 := by
  obtain ⟨heq, hnext⟩ := searchLevels_spec hpassed
  unfold notExistsBeyondOutputLevel plain
  split
  · next hbottom => exact ⟨by simp [hbottom], hpassed⟩
  split
  · next hbottom hstyle => exact ⟨by simp [hbottom, hstyle, heq], hnext⟩
  · next hbottom hstyle =>
    refine ⟨?_, hpassed⟩
    by_cases hzero : s.outputLevel = 0
    · simp [hbottom, hzero]
    · have hother : s.levelStyle = false := by simpa [hzero] using hstyle
      simp [hbottom, hother]

/-- A step of the run: the pointers found for one query serve the next one. -/
theorem answers_of_passed (qs : List (Query K))
    (hasc : (qs.map Query.start).Pairwise (· ≤ ·)) {ptrs : List ℕ}
    (hpassed : ∀ q ∈ qs.head?, List.Forall₂ (fun lvl ptr => Passed lvl.files q.start ptr)
      s.below ptrs) : s.answers qs ptrs = qs.map s.plain := by
  induction qs generalizing ptrs with
  | nil => rfl
  | cons q qs ih =>
    obtain ⟨hle, hasc⟩ := List.pairwise_cons.mp hasc
    obtain ⟨heq, hnext⟩ := notExists_spec (hpassed q rfl)
    simp only [answers, List.map_cons, heq]
    congr 1
    refine ih hasc fun q' hq' => ?_
    have hmem : q'.start ∈ qs.map Query.start :=
      List.mem_map_of_mem (List.mem_of_mem_head? hq')
    exact hnext.imp fun lvl ptr hp => hp.mono (hle _ hmem)

/-- Queries asked in ascending order get the answers of a search of all files. -/
theorem answers_ascending (s : LevelSearch K) (qs : List (Query K))
    (hasc : (qs.map Query.start).Pairwise (· ≤ ·)) :
    s.answers qs (s.below.map fun _ => 0) = qs.map s.plain := by
  refine answers_of_passed qs hasc fun q _ => ?_
  rw [List.forall₂_map_right_iff, List.forall₂_same]
  intro lvl _ f hf
  simp at hf

/-- Levels 2 and 3 below an output level 1; the files of level 2 share the key 4. -/
def sampleSearch : LevelSearch ℕ where
  bottommostLevel := false
  outputLevel := 1
  olderL0 := []
  olderL0_nil _ := rfl
  levelStyle := true
  below := [⟨[⟨2, 4, by decide⟩, ⟨4, 9, by decide⟩], by simp⟩, ⟨[⟨11, 11, by decide⟩], by simp⟩]

theorem answers_ascending_sample :
    sampleSearch.answers [.key 1, .key 3, .key 4, .range 10 11, .key 11] [0, 0] =
      [.key 1, .key 3, .key 4, .range 10 11, .key 11].map sampleSearch.plain :=
  answers_ascending sampleSearch _ (by decide)

example : sampleSearch.answers [.key 1, .key 3, .key 4, .range 10 11, .key 11] [0, 0] =
    [true, false, false, true, false] := by
  decide +kernel

/-! ### The bottommost level -/

theorem overlapInLevel_eq_false {lvl : Level K} {smallest largest : K}
    (h : lvl.overlapInLevel smallest largest = false) {f : FileMetaData K} (hf : f ∈ lvl.files) :
    f.largest < smallest ∨ largest < f.smallest := by
  obtain ⟨files, hdisjoint⟩ := lvl
  unfold Level.overlapInLevel at h
  induction files with
  | nil => cases hf
  | cons g rest ih =>
    dsimp only at h hf ih
    obtain ⟨hnext, hrest⟩ := List.pairwise_cons.mp hdisjoint
    by_cases hg : smallest ≤ g.largest
    · -- the first file to be looked at starts behind the range, and so do those after it
      rw [List.find?_cons_of_pos (by simpa using hg)] at h
      have hlt : largest < g.smallest := not_le.mp (of_decide_eq_false h)
      rcases List.mem_cons.mp hf with rfl | hf
      · exact .inr hlt
      · exact .inr (hlt.trans_le (g.ordered.trans (hnext f hf)))
    · rw [List.find?_cons_of_neg (by simpa using hg)] at h
      rcases List.mem_cons.mp hf with rfl | hf
      · exact .inl (not_le.mp hg)
      · exact ih hrest h hf

/-- A file below a bottommost level lies outside the range of the input files. -/
theorem outside_of_isBottommostLevel {smallest largest : K}
    (h : s.isBottommostLevel smallest largest = true) :
    s.olderL0 = [] ∧ ∀ lvl ∈ s.below, ∀ f ∈ lvl.files,
      f.largest < smallest ∨ largest < f.smallest := by
  simp only [isBottommostLevel, rangeMightExistAfterSortedRun, Bool.not_eq_true',
    Bool.or_eq_false_iff, Bool.not_eq_false', List.isEmpty_iff, List.any_eq_false] at h
  refine ⟨h.1, fun lvl hlvl f hf => ?_⟩
  have hne : lvl.files.isEmpty = false := by
    rw [← Bool.not_eq_true, List.isEmpty_iff]
    exact List.ne_nil_of_mem hf
  have hlevel := h.2 lvl hlvl
  rw [hne, Bool.not_false, Bool.true_and, Bool.or_eq_true, not_or] at hlevel
  exact overlapInLevel_eq_false (Bool.eq_false_iff.mpr hlevel.2) hf

/-! ### What the iterator relies on -/

/-- Every version of `below` lies in a file of level 0 behind the input or of the levels
searched. The input files lie between `smallest` and `largest`, and a compaction that calls
its output level the bottommost one has found it so for them. -/
structure Stores (s : LevelSearch K) (smallest largest : K) {V : Type*}
    (below : List (Entry K V)) : Prop where
  held : ∀ x ∈ below, ∃ f : FileMetaData K,
    (f ∈ s.olderL0 ∨ ∃ lvl ∈ s.below, f ∈ lvl.files) ∧
      f.smallest ≤ x.userKey ∧ x.userKey ≤ f.largest
  bottommost : s.bottommostLevel = true → s.isBottommostLevel smallest largest = true

/-- The iterator with its level searches. -/
def config {V : Type*} (s : LevelSearch K) (c : Config K V) : Config K V :=
  { c with
    compactionBottommost := s.bottommostLevel
    absentBelow := fun k => s.plain (.key k)
    absentRangeBelow := fun start stop => s.plain (.range start stop) }

theorem Stores.outside {V : Type*} {smallest largest : K} {below : List (Entry K V)}
    (h : s.Stores smallest largest below) (hbottom : s.bottommostLevel = true) {x : Entry K V}
    (hx : x ∈ below) : x.userKey < smallest ∨ largest < x.userKey := by
  obtain ⟨hnil, hout⟩ := outside_of_isBottommostLevel (h.bottommost hbottom)
  obtain ⟨f, hf, hlow, hhigh⟩ := h.held x hx
  rcases hf with hf | ⟨lvl, hlvl, hf⟩
  · rw [hnil] at hf
    cases hf
  · rcases hout lvl hlvl f hf with hlt | hlt
    · exact .inl (hhigh.trans_lt hlt)
    · exact .inr (hlt.trans_le hlow)

theorem Stores.not_overlaps {V : Type*} {smallest largest : K} {below : List (Entry K V)}
    (h : s.Stores smallest largest below) (hbottom : s.bottommostLevel = false)
    (hplain : s.plain q = true) {x : Entry K V} (hx : x ∈ below) :
    ∃ f : FileMetaData K, f.smallest ≤ x.userKey ∧ x.userKey ≤ f.largest ∧
      q.overlaps f = false := by
  obtain ⟨f, hf, hlow, hhigh⟩ := h.held x hx
  refine ⟨f, hlow, hhigh, ?_⟩
  simp only [plain, hbottom, Bool.false_or, Bool.and_eq_true, decide_eq_true_eq] at hplain
  obtain ⟨⟨hlevel, -⟩, hnone⟩ := hplain
  have hall : ∀ lvl ∈ s.below, ∀ f ∈ lvl.files, q.overlaps f = false := by simpa using hnone
  rcases hf with hf | ⟨lvl, hlvl, hf⟩
  · rw [s.olderL0_nil hlevel] at hf
    cases hf
  · exact hall lvl hlvl f hf

/-- A key of the input files, or a range of theirs, that the search calls absent has no
version in the levels below. -/
theorem config_absent {V : Type*} (s : LevelSearch K) (c : Config K V) (smallest largest : K)
    (below : List (Entry K V)) (h : s.Stores smallest largest below) :
    (∀ k, smallest ≤ k → k ≤ largest → (s.config c).keyNotExistsBeyondOutputLevel k = true →
      ∀ x ∈ below, x.userKey ≠ k) ∧
    ∀ t : Tombstone K, smallest ≤ t.startKey → t.endKey ≤ largest →
      (s.config c).rangeNotExistsBeyondOutputLevel t = true →
      ∀ x ∈ below, t.covers x.userKey = false := by
  cases hbottom : s.bottommostLevel with
  | true =>
    constructor
    · rintro k hlow hhigh - x hx rfl
      rcases h.outside hbottom hx with hlt | hlt
      · exact absurd hlow (not_le.mpr hlt)
      · exact absurd hhigh (not_le.mpr hlt)
    · intro t hlow hhigh _ x hx
      rw [Bool.eq_false_iff]
      intro hcov
      simp only [Tombstone.covers, Bool.and_eq_true, decide_eq_true_eq] at hcov
      rcases h.outside hbottom hx with hlt | hlt
      · exact absurd (hlow.trans hcov.1) (not_le.mpr hlt)
      · exact absurd (hcov.2.le.trans hhigh) (not_le.mpr hlt)
  | false =>
    constructor
    · rintro k - - hk x hx rfl
      have hplain : s.plain (.key x.userKey) = true := by
        simpa [Config.keyNotExistsBeyondOutputLevel, config, hbottom] using hk
      obtain ⟨f, hlow, hhigh, hnot⟩ := h.not_overlaps hbottom hplain hx
      simp [Query.overlaps, Query.start, Query.hits, hlow, hhigh] at hnot
    · intro t _ _ ht x hx
      have hplain : s.plain (.range t.startKey t.endKey) = true := by
        simpa [Config.rangeNotExistsBeyondOutputLevel, config, hbottom] using ht
      obtain ⟨f, hlow, hhigh, hnot⟩ := h.not_overlaps hbottom hplain hx
      rw [Bool.eq_false_iff]
      intro hcov
      simp only [Tombstone.covers, Bool.and_eq_true, decide_eq_true_eq] at hcov
      have hstart : t.startKey ≤ f.largest := hcov.1.trans hhigh
      have hend : f.smallest < t.endKey := hlow.trans_lt hcov.2
      simp [Query.overlaps, Query.start, Query.hits, hstart, hend] at hnot

/-- The same levels below a compaction of the keys from 12 to 20: it is bottommost,
although there are files below. -/
def sampleBottommost : LevelSearch ℕ := { sampleSearch with bottommostLevel := true }

theorem config_absent_sample :
    (∀ k, 12 ≤ k → k ≤ 20 →
      (sampleBottommost.config sampleConfig).keyNotExistsBeyondOutputLevel k = true →
      ∀ x ∈ sampleBelow, x.userKey ≠ k) ∧
    ∀ t : Tombstone ℕ, 12 ≤ t.startKey → t.endKey ≤ 20 →
      (sampleBottommost.config sampleConfig).rangeNotExistsBeyondOutputLevel t = true →
      ∀ x ∈ sampleBelow, t.covers x.userKey = false :=
  config_absent sampleBottommost sampleConfig 12 20 sampleBelow
    ⟨by simp [sampleBelow, sampleBottommost, sampleSearch], fun _ => by decide +kernel⟩

end LevelSearch

end

end PnmCompaction.Compaction

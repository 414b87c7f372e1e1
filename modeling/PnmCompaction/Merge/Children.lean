import PnmCompaction.Merge.Iterator

/-!
# The children of the merging iterator

What one child (`LevelIterator`, db/version_set.cc 1555-1711, or the iterator of a table)
and the range tombstones of its level still hold, how `Next` takes from it, and which key
bounds it from below.
-/

namespace PnmCompaction.Merge

variable {κ α ε : Type*}

def pointKeys (points : List (κ × α)) : Multiset (Merged κ α) :=
  ↑(points.map fun p => Merged.point p.1 p.2)

def startKeys (tombstones : List κ) : Multiset (Merged κ α) :=
  ((tombstones.map Merged.rangeStart : List (Merged κ α)) : Multiset (Merged κ α))

@[simp]
theorem pointKeys_nil : pointKeys ([] : List (κ × α)) = 0 := rfl

@[simp]
theorem pointKeys_cons (p : κ × α) (points : List (κ × α)) :
    pointKeys (p :: points) = .point p.1 p.2 ::ₘ pointKeys points := rfl

@[simp]
theorem startKeys_nil : startKeys ([] : List κ) = (0 : Multiset (Merged κ α)) := rfl

@[simp]
theorem startKeys_cons (k : κ) (tombstones : List κ) :
    startKeys (k :: tombstones) =
      (.rangeStart k ::ₘ startKeys tombstones : Multiset (Merged κ α)) :=
  rfl

theorem mem_pointKeys {points : List (κ × α)} {y : Merged κ α} :
    y ∈ pointKeys points ↔ ∃ p ∈ points, Merged.point p.1 p.2 = y := by
  rw [pointKeys, Multiset.mem_coe, List.mem_map]

theorem mem_startKeys {tombstones : List κ} {y : Merged κ α} :
    y ∈ startKeys tombstones ↔ ∃ k ∈ tombstones, Merged.rangeStart k = y := by
  rw [startKeys, Multiset.mem_coe, List.mem_map]

/-! ### What is left -/

def SstFile.content (f : SstFile κ α ε) : Multiset (Merged κ α) :=
  pointKeys f.points + startKeys f.tombstones

def filesContent (files : List (SstFile κ α ε)) : Multiset (Merged κ α) :=
  (files.map SstFile.content).sum

def filesErrors (files : List (SstFile κ α ε)) : Multiset ε :=
  ↑(files.filterMap SstFile.error)

def Child.content : Child κ α ε → Multiset (Merged κ α)
  | .table points _ => pointKeys points
  | .level it => pointKeys it.points + filesContent it.files

/-- The errors its files still hold. -/
def Child.errors : Child κ α ε → Multiset ε
  | .table _ error => ↑error.toList
  | .level it => ↑it.error.toList + filesErrors it.files

theorem filesErrors_cons (f : SstFile κ α ε) (files : List (SstFile κ α ε)) :
    filesErrors (f :: files) = ↑f.error.toList + filesErrors files := by
  unfold filesErrors
  cases h : f.error <;> simp [h]

theorem mem_filesContent {files : List (SstFile κ α ε)} {y : Merged κ α}
    (h : y ∈ filesContent files) : ∃ f ∈ files, y ∈ f.content := by
  induction files with
  | nil => simp [filesContent] at h
  | cons f files ih =>
    rw [filesContent, List.map_cons, List.sum_cons, Multiset.mem_add] at h
    rcases h with h | h
    · exact ⟨f, List.mem_cons_self, h⟩
    · obtain ⟨g, hg, hy⟩ := ih h
      exact ⟨g, List.mem_cons_of_mem f hg, hy⟩

namespace LevelIterator

variable {it : LevelIterator κ α ε} {tombstones : List κ} {k : κ} {v : α}

theorem trySet_fields (it : LevelIterator κ α ε) :
    it.trySetDeleteRangeSentinel.points = it.points ∧
      it.trySetDeleteRangeSentinel.error = it.error ∧
      it.trySetDeleteRangeSentinel.files = it.files := by
  unfold trySetDeleteRangeSentinel
  split <;> exact ⟨rfl, rfl, rfl⟩

/-- A file is not left where it was just looked at. -/
theorem skipEmptyFileForward_trySet (it : LevelIterator κ α ε) (tombstones : List κ) :
    it.trySetDeleteRangeSentinel.skipEmptyFileForward tombstones =
      (it.trySetDeleteRangeSentinel, tombstones) := by
  unfold skipEmptyFileForward
  rw [if_neg]
  unfold trySetDeleteRangeSentinel
  split <;> simp_all

theorem seekToFirst_eq (f : SstFile κ α ε) (files : List (SstFile κ α ε)) :
    seekToFirst f files = (enter f files, f.tombstones) :=
  skipEmptyFileForward_trySet _ _

theorem next_of_point (tombstones : List κ) (hpos : it.position = some (.point k v)) :
    ∃ rest, it.toReturnSentinel = false ∧ it.points = (k, v) :: rest ∧
      it.next tombstones =
        (trySetDeleteRangeSentinel { it with points := rest }, tombstones) := by
  unfold position at hpos
  split at hpos
  · cases hpos
  · next hsent =>
    have hsent : it.toReturnSentinel = false := by simpa using hsent
    cases hpoints : it.points with
    | nil => simp [hpoints] at hpos
    | cons p rest =>
      obtain ⟨k', v'⟩ := p
      simp only [hpoints, List.head?_cons, Option.map_some, Option.some.injEq,
        Position.point.injEq] at hpos
      obtain ⟨rfl, rfl⟩ := hpos
      refine ⟨rest, hsent, rfl, ?_⟩
      rw [next, if_neg (by simp [hsent]), hpoints]
      exact skipEmptyFileForward_trySet _ _

/-- Past the sentinel comes the next file, if there is one. -/
theorem next_of_sentinel (tombstones : List κ) (hsent : it.toReturnSentinel = true)
    (hpoints : it.points = []) (herror : it.error = none) :
    it.next tombstones = match it.files with
      | [] => ({ it with toReturnSentinel := false }, [])
      | f :: files => (enter f files, f.tombstones) := by
  rw [next, if_pos hsent, skipEmptyFileForward, if_pos (by simp [hpoints, herror])]
  cases it.files with
  | nil => rfl
  | cons f files => exact skipEmptyFileForward_trySet _ _

end LevelIterator

/-! ### Order -/

variable [LinearOrder κ]

/-- The keys of a file are in order and its range tombstones start before its last key. -/
structure SstFile.Ordered (f : SstFile κ α ε) : Prop where
  points : f.points.Pairwise fun p q => p.1 ≤ q.1
  tombstones : f.tombstones.Pairwise (· ≤ ·)
  largest : ∀ p ∈ f.points, p.1 ≤ f.largest
  starts : ∀ k ∈ f.tombstones, k < f.largest

/-- The files of a level follow one another. -/
def Follow (f g : SstFile κ α ε) : Prop := ∀ y ∈ g.content, f.largest ≤ y.key

def Source.Ordered : Source κ α ε → Prop
  | .table f => f.Ordered
  | .level f files => (∀ g ∈ f :: files, g.Ordered) ∧ (f :: files).Pairwise Follow

def Source.content : Source κ α ε → Multiset (Merged κ α)
  | .table f => f.content
  | .level f files => filesContent (f :: files)

def Source.errors : Source κ α ε → Multiset ε
  | .table f => ↑f.error.toList
  | .level f files => filesErrors (f :: files)

structure LevelIterator.Ordered (it : LevelIterator κ α ε) (tombstones : List κ) : Prop where
  points : it.points.Pairwise fun p q => p.1 ≤ q.1
  starts : tombstones.Pairwise (· ≤ ·)
  largest : ∀ p ∈ it.points, p.1 ≤ it.largest
  before : ∀ k ∈ tombstones, k < it.largest
  files : ∀ f ∈ it.files, f.Ordered ∧ ∀ y ∈ f.content, it.largest ≤ y.key
  follow : it.files.Pairwise Follow
  sentinel : it.toReturnSentinel = true → it.points = [] ∧ it.error = none

/-- It stands at a key or a sentinel, or it met an error, or nothing is left. -/
def LevelIterator.Paused (it : LevelIterator κ α ε) : Prop :=
  it.position = none → it.points = [] ∧ (it.error = none → it.files = [])

def Child.Ordered : Child κ α ε → List κ → Prop
  | .table points _, tombstones =>
    (points.Pairwise fun p q => p.1 ≤ q.1) ∧ tombstones.Pairwise (· ≤ ·)
  | .level it, tombstones => it.Ordered tombstones ∧ it.Paused

namespace LevelIterator

variable {it : LevelIterator κ α ε} {tombstones : List κ} {f : SstFile κ α ε}
  {files : List (SstFile κ α ε)}

theorem Ordered.trySet (h : it.Ordered tombstones) :
    it.trySetDeleteRangeSentinel.Ordered tombstones := by
  unfold trySetDeleteRangeSentinel
  split
  · next hend =>
    exact ⟨h.points, h.starts, h.largest, h.before, h.files, h.follow,
      fun _ => ⟨by simpa using hend.1, by simpa using hend.2⟩⟩
  · exact h

theorem enter_ordered (hf : f.Ordered) (hfiles : ∀ g ∈ files, g.Ordered)
    (hfollow : (f :: files).Pairwise Follow) : (enter f files).Ordered f.tombstones := by
  obtain ⟨hnext, hrest⟩ := List.pairwise_cons.mp hfollow
  refine Ordered.trySet ⟨hf.points, hf.tombstones, hf.largest, hf.starts, fun g hg => ?_, hrest, ?_⟩
  · exact ⟨hfiles g hg, hnext g hg⟩
  · exact fun hs => by cases hs

omit [LinearOrder κ] in
theorem trySet_paused (it : LevelIterator κ α ε) : it.trySetDeleteRangeSentinel.Paused := by
  intro hpos
  unfold trySetDeleteRangeSentinel at hpos ⊢
  split at hpos
  · simp [position] at hpos
  · next hend =>
    rw [if_neg hend]
    unfold position at hpos
    split at hpos
    · cases hpos
    · have hpoints : it.points = [] := by simpa using hpos
      exact ⟨hpoints, fun herror => absurd (by simp [hpoints, herror]) hend⟩

end LevelIterator

namespace Child

variable {c : Child κ α ε} {tombstones : List κ} {k : κ} {v : α}

theorem Ordered.tail {ks : List κ} (h : c.Ordered (k :: ks)) : c.Ordered ks := by
  cases c with
  | table points error => exact ⟨h.1, (List.pairwise_cons.mp h.2).2⟩
  | level it =>
    obtain ⟨hord, hpaused⟩ := h
    exact ⟨⟨hord.points, (List.pairwise_cons.mp hord.starts).2, hord.largest,
      fun x hx => hord.before x (List.mem_cons_of_mem k hx), hord.files, hord.follow,
      hord.sentinel⟩, hpaused⟩

/-- `Next` at a point key takes this key and nothing else. -/
theorem next_point (h : c.Ordered tombstones) (hpos : c.position = some (.point k v)) :
    (c.next tombstones).2 = tombstones ∧
      c.content = .point k v ::ₘ (c.next tombstones).1.content ∧
      (c.next tombstones).1.errors = c.errors ∧ (c.next tombstones).1.Ordered tombstones := by
  cases c with
  | table points error =>
    cases points with
    | nil => simp [position] at hpos
    | cons p rest =>
      simp only [position, List.head?_cons, Option.map_some, Option.some.injEq,
        Position.point.injEq] at hpos
      obtain ⟨rfl, rfl⟩ := hpos
      exact ⟨rfl, rfl, rfl, (List.pairwise_cons.mp h.1).2, h.2⟩
  | level it =>
    obtain ⟨hord, -⟩ := h
    obtain ⟨rest, hsent, hpoints, hnext⟩ := LevelIterator.next_of_point tombstones hpos
    obtain ⟨hp, he, hf⟩ := LevelIterator.trySet_fields { it with points := rest }
    have hrest : ({ it with points := rest } : LevelIterator κ α ε).Ordered tombstones := by
      refine ⟨?_, hord.starts, fun p hmem => hord.largest p ?_, hord.before, hord.files,
        hord.follow, fun hs => ?_⟩
      · have hpair := hord.points
        rw [hpoints] at hpair
        exact (List.pairwise_cons.mp hpair).2
      · rw [hpoints]
        exact List.mem_cons_of_mem _ hmem
      · rw [hsent] at hs
        cases hs
    simp only [next, hnext, content, errors, hp, he, hf, hpoints, pointKeys_cons,
      Multiset.cons_add]
    exact ⟨trivial, trivial, trivial, hrest.trySet, LevelIterator.trySet_paused _⟩

/-- `Next` at a sentinel takes nothing: the keys of the next file come into view. -/
theorem next_sentinel (h : c.Ordered []) (hat : c.atSentinel = true) :
    c.content = (c.next []).1.content + startKeys (c.next []).2 ∧
      (c.next []).1.errors = c.errors ∧ (c.next []).1.Ordered (c.next []).2 := by
  cases c with
  | table points error => cases points <;> simp [atSentinel, position] at hat
  | level it =>
    obtain ⟨hord, -⟩ := h
    have hsent := it.atSentinel_iff.mp hat
    obtain ⟨hpoints, herror⟩ := hord.sentinel hsent
    have hnext := LevelIterator.next_of_sentinel [] hsent hpoints herror
    cases hfiles : it.files with
    | nil =>
      simp only [hfiles] at hnext
      simp only [next, hnext, content, errors, hfiles, startKeys_nil, add_zero, true_and]
      exact ⟨⟨hord.points, .nil, hord.largest, by simp, by simp, .nil, fun hs => by cases hs⟩,
        fun _ => ⟨hpoints, fun _ => rfl⟩⟩
    | cons f files =>
      simp only [hfiles] at hnext
      obtain ⟨hp, he, hf⟩ := LevelIterator.trySet_fields
        (⟨f.points, f.error, f.largest, false, files⟩ : LevelIterator κ α ε)
      have hall := hord.files
      have hfollow := hord.follow
      rw [hfiles] at hall hfollow
      simp only [next, hnext, content, errors, LevelIterator.enter, hp, he, hf, hpoints, herror,
        hfiles, filesErrors_cons, pointKeys_nil, zero_add, Option.toList_none]
      refine ⟨?_, by simp, ?_⟩
      · rw [filesContent, List.map_cons, List.sum_cons, SstFile.content, filesContent]
        exact add_right_comm _ _ _
      · refine ⟨LevelIterator.enter_ordered (hall f List.mem_cons_self).1
          (fun g hg => (hall g (List.mem_cons_of_mem f hg)).1) hfollow, ?_⟩
        exact LevelIterator.trySet_paused _

theorem seekToFirst_spec (src : Source κ α ε) (h : src.Ordered) :
    (seekToFirst src).1.content + startKeys (seekToFirst src).2 = src.content ∧
      (seekToFirst src).1.errors = src.errors ∧
      (seekToFirst src).1.Ordered (seekToFirst src).2 := by
  cases src with
  | table f => exact ⟨rfl, rfl, h.points, h.tombstones⟩
  | level f files =>
    obtain ⟨hall, hfollow⟩ := h
    obtain ⟨hp, he, hf⟩ := LevelIterator.trySet_fields
      (⟨f.points, f.error, f.largest, false, files⟩ : LevelIterator κ α ε)
    simp only [seekToFirst, LevelIterator.seekToFirst_eq, content, errors, Source.content,
      Source.errors, LevelIterator.enter, hp, he, hf, filesErrors_cons]
    refine ⟨?_, trivial, ?_⟩
    · rw [filesContent, filesContent, List.map_cons, List.sum_cons, SstFile.content]
      exact add_right_comm _ _ _
    · refine ⟨LevelIterator.enter_ordered (hall f List.mem_cons_self)
        (fun g hg => hall g (List.mem_cons_of_mem f hg)) hfollow, ?_⟩
      exact LevelIterator.trySet_paused _

/-! ### The least key of a child -/

/-- What a child without a position still has to report. -/
theorem position_none (h : c.Ordered tombstones) (hpos : c.position = none)
    (hstatus : c.status = none) : c.content = 0 ∧ c.errors = 0 := by
  cases c with
  | table points error =>
    have hpoints : points = [] := by simpa [position] using hpos
    have herror : error = none := by simpa [status, hpoints] using hstatus
    exact ⟨by rw [content, hpoints]; rfl, by rw [errors, herror]; rfl⟩
  | level it =>
    obtain ⟨hpoints, hfiles⟩ := h.2 hpos
    have herror : it.error = none := by simpa [status, hpoints] using hstatus
    have hnone := hfiles herror
    exact ⟨by rw [content, hpoints, hnone]; rfl, by rw [errors, herror, hnone]; rfl⟩

omit [LinearOrder κ] in
/-- A child that is not at a key has the error of its file to report, if any. -/
theorem status_mem_errors {e : ε} (hstatus : c.status = some e) : e ∈ c.errors := by
  cases c with
  | table points error =>
    change (if points.isEmpty then error else none) = some e at hstatus
    split at hstatus
    · simp [errors, hstatus]
    · cases hstatus
  | level it =>
    change (if it.points.isEmpty then it.error else none) = some e at hstatus
    split at hstatus
    · simp [errors, hstatus]
    · cases hstatus

theorem starts_le {ks : List κ} (h : c.Ordered (k :: ks)) {y : Merged κ α}
    (hy : y ∈ startKeys (k :: ks)) : k ≤ y.key := by
  have hpair : (k :: ks).Pairwise (· ≤ ·) := by
    cases c with
    | table points error => exact h.2
    | level it => exact h.1.starts
  obtain ⟨k', hk', rfl⟩ := mem_startKeys.mp hy
  rcases List.mem_cons.mp hk' with rfl | hk'
  · exact le_rfl
  · exact (List.pairwise_cons.mp hpair).1 k' hk'

/-- Everything a child still holds is at or behind its position. -/
theorem position_le {p : Position κ α} (h : c.Ordered tombstones) (hpos : c.position = some p)
    {y : Merged κ α} (hy : y ∈ c.content) : p.key ≤ y.key := by
  cases c with
  | table points error =>
    cases points with
    | nil => simp [position] at hpos
    | cons q rest =>
      cases hpos
      obtain ⟨q', hq', rfl⟩ := mem_pointKeys.mp hy
      rcases List.mem_cons.mp hq' with rfl | hq'
      · exact le_rfl
      · exact (List.pairwise_cons.mp h.1).1 q' hq'
  | level it =>
    obtain ⟨hord, -⟩ := h
    have hbehind : ∀ z ∈ filesContent it.files, it.largest ≤ z.key := by
      intro z hz
      obtain ⟨f, hf, hz⟩ := mem_filesContent hz
      exact (hord.files f hf).2 z hz
    change it.position = some p at hpos
    unfold LevelIterator.position at hpos
    split at hpos
    · next hsent =>
      cases hpos
      rcases Multiset.mem_add.mp hy with hy | hy
      · rw [(hord.sentinel hsent).1] at hy
        exact absurd hy (Multiset.notMem_zero y)
      · exact hbehind y hy
    · cases hpoints : it.points with
      | nil => simp [hpoints] at hpos
      | cons q rest =>
        rw [hpoints] at hpos
        cases hpos
        rcases Multiset.mem_add.mp hy with hy | hy
        · obtain ⟨q', hq', rfl⟩ := mem_pointKeys.mp hy
          have hpair := hord.points
          rw [hpoints] at hq' hpair
          rcases List.mem_cons.mp hq' with rfl | hq'
          · exact le_rfl
          · exact (List.pairwise_cons.mp hpair).1 q' hq'
        · have hle := hord.largest q (by rw [hpoints]; exact List.mem_cons_self)
          exact hle.trans (hbehind y hy)

/-- The range tombstones of a file start before its sentinel. -/
theorem starts_lt_sentinel (h : c.Ordered tombstones) (hpos : c.position = some (.sentinel k)) :
    ∀ x ∈ tombstones, x < k := by
  cases c with
  | table points error => cases points <;> simp [position] at hpos
  | level it =>
    change it.position = some (.sentinel k) at hpos
    unfold LevelIterator.position at hpos
    split at hpos
    · cases hpos
      exact h.1.before
    · cases hpoints : it.points with
      | nil => simp [hpoints] at hpos
      | cons q rest => simp [hpoints] at hpos

end Child

end PnmCompaction.Merge

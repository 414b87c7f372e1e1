import PnmCompaction.Compaction.Iterator

/-!
# What a pass does to a version

Every branch of the loop body in `NextFromInput` (db/compaction/compaction_iterator.cc
747-1370) as a constructor with the tests that lead to it. The invariants of a compaction
are proved from these, not from the code.
-/

namespace PnmCompaction.Compaction

variable {K V : Type*} [LinearOrder K]

/-- Rule (A): a version of the current key that no snapshot sees apart from a newer one. -/
def State.Hides (st : State K V) (c : Config K V) (e : Entry K V) : Prop :=
  st.currentUserKey = some e.userKey ∧
    st.currentUserKeySnapshot ≤ c.snapshots.visible e.sequence

/-- The test for two versions in one stripe. -/
def Config.Together (c : Config K V) (e next : Entry K V) : Prop :=
  c.snapshots.previous e.sequence = 0 ∨ c.snapshots.previous e.sequence < next.sequence

/-- Nothing of the key is left behind the output level and no snapshot needs it. -/
def Config.Obsolete (c : Config K V) (e : Entry K V) : Prop :=
  c.allowIngestBehind = false ∧ e.sequence ≤ c.earliestSnapshot ∧
    c.keyNotExistsBeyondOutputLevel e.userKey = true

/-- A single deletion with the input at `rest`, past the sentinels of its key. -/
inductive SingleFate (c : Config K V) (st : State K V) (e : Entry K V)
    (rest : List (Item K V)) : Pass K V → Prop
  | zeroed (next : Entry K V) (rest' : List (Item K V)) (hrest : rest = .entry next :: rest')
      (hkey : next.userKey = e.userKey) (hzero : st.lastKeySeqZeroed = true) :
      SingleFate c st e rest (.again { st with input := rest' })
  | doubled (next : Entry K V) (rest' : List (Item K V)) (hrest : rest = .entry next :: rest')
      (hkey : next.userKey = e.userKey) (hzero : st.lastKeySeqZeroed = false)
      (hstripe : c.Together e next)
      (htype : next.type = .singleDeletion ∨
        next.type = .deletion ∧ c.enforceSingleDelContracts = false) :
      SingleFate c st e rest (.again { st with input := rest })
  | pair (next : Entry K V) (rest' : List (Item K V)) (hrest : rest = .entry next :: rest')
      (hkey : next.userKey = e.userKey) (hzero : st.lastKeySeqZeroed = false)
      (hstripe : c.Together e next) (hsd : next.type ≠ .singleDeletion)
      (hdel : next.type ≠ .deletion) : SingleFate c st e rest (.again { st with input := rest' })
  | keptForConflict (next : Entry K V) (rest' : List (Item K V))
      (hrest : rest = .entry next :: rest') (hkey : next.userKey = e.userKey)
      (hzero : st.lastKeySeqZeroed = false) (hstripe : c.Together e next)
      (hsd : next.type ≠ .singleDeletion) (hdel : next.type ≠ .deletion)
      (hconflict : c.earliestWriteConflictSnapshot < e.sequence)
      (hearliest : c.earliestSnapshot < c.earliestWriteConflictSnapshot →
        c.earliestSnapshot < e.sequence) :
      SingleFate c st e rest
        (.valid { st with input := rest, clearAndOutputNextKey := true, atNext := true }
          (.entry e .keepSDForConflictCheck))
  | keptForSnapshot (next : Entry K V) (rest' : List (Item K V))
      (hrest : rest = .entry next :: rest') (hkey : next.userKey = e.userKey)
      (hzero : st.lastKeySeqZeroed = false) (hstripe : ¬ c.Together e next) :
      SingleFate c st e rest
        (.valid { st with input := rest, atNext := true } (.entry e .keepSDForSnapshot))
  | obsolete (hstands : standsAt e.userKey rest = false) (hobs : c.Obsolete e) :
      SingleFate c st e rest (.again { st with currentUserKey := none, input := rest })
  | lastZeroed (hstands : standsAt e.userKey rest = false) (hzero : st.lastKeySeqZeroed = true) :
      SingleFate c st e rest (.again { st with currentUserKey := none, input := rest })
  | kept (hstands : standsAt e.userKey rest = false) (hzero : st.lastKeySeqZeroed = false)
      (hobs : ¬ c.Obsolete e) :
      SingleFate c st e rest
        (.valid { st with currentUserKey := none, input := rest, atNext := true }
          (.entry e .keepSD))
  | contract (next : Entry K V) (rest' : List (Item K V)) (hrest : rest = .entry next :: rest')
      (hkey : next.userKey = e.userKey) (hdel : next.type = .deletion) :
      SingleFate c st e rest (.failed singleDelContract)

/-- The loop body at the version `e`, with `rest` behind it. -/
inductive Fate (c : Config K V) (st : State K V) (e : Entry K V) (rest : List (Item K V)) :
    Pass K V → Prop
  | cleared (hclear : st.clearAndOutputNextKey = true) (hput : e.type.isPut = true) :
      Fate c st e rest (.valid { st.seeing c e with clearAndOutputNextKey := false }
        (.entry { e with type := .value, value := c.cleared } .keepSDAndClearPut))
  | single {p : Pass K V} (hclear : st.clearAndOutputNextKey = false)
      (htype : e.type = .singleDeletion)
      (h : SingleFate c (st.seeing c e) e (skipSentinels e.userKey rest) p) : Fate c st e rest p
  | hidden (hclear : st.clearAndOutputNextKey = false) (htype : e.type ≠ .singleDeletion)
      (hhides : st.Hides c e) :
      Fate c st e rest (.again { st.seeing c e with input := rest })
  | deleted (hclear : st.clearAndOutputNextKey = false) (htype : e.type = .deletion)
      (hfresh : st.currentUserKeySequence ≠ kMaxSequenceNumber → ¬ st.Hides c e)
      (hobs : c.Obsolete e) : Fate c st e rest (.again { st.seeing c e with input := rest })
  | deletedStripe (hclear : st.clearAndOutputNextKey = false) (htype : e.type = .deletion)
      (hfresh : st.currentUserKeySequence ≠ kMaxSequenceNumber → ¬ st.Hides c e)
      (hbottom : c.bottommostLevel = true)
      (hstands : standsAt e.userKey
        (skipStripe e.userKey (c.snapshots.previous e.sequence) rest) = false) :
      Fate c st e rest (.again { st.seeing c e with
        input := skipStripe e.userKey (c.snapshots.previous e.sequence) rest })
  | keptDelete (hclear : st.clearAndOutputNextKey = false) (htype : e.type = .deletion)
      (hfresh : st.currentUserKeySequence ≠ kMaxSequenceNumber → ¬ st.Hides c e)
      (hobs : ¬ c.Obsolete e) (hbottom : c.bottommostLevel = true) :
      Fate c st e rest (.valid { st.seeing c e with
          input := skipStripe e.userKey (c.snapshots.previous e.sequence) rest
          atNext := true } (.entry e .keepDel))
  | covered (hclear : st.clearAndOutputNextKey = false) (htype : e.type ≠ .singleDeletion)
      (hfresh : st.currentUserKeySequence ≠ kMaxSequenceNumber → ¬ st.Hides c e)
      (hrange : c.shouldDelete e.userKey e.sequence = true) :
      Fate c st e rest (.again { st.seeing c e with input := rest })
  | swapped (hclear : st.clearAndOutputNextKey = false) (htype : e.type = .valuePreferredSeqno)
      (hfresh : st.currentUserKeySequence ≠ kMaxSequenceNumber → ¬ st.Hides c e)
      (hearliest : e.sequence ≤ c.earliestSnapshot)
      (hbelow : c.keyNotExistsBeyondOutputLevel e.userKey = true)
      (hrange : c.shouldDelete e.userKey
        (min (c.parsePackedValueWithSeqno e.value).2 e.sequence) = false) :
      Fate c st e rest (.valid (st.seeing c e) (.entry
        { e with
          sequence := if e.sequence ≠ 0 then (c.parsePackedValueWithSeqno e.value).2 else e.sequence
          type := .value
          value := (c.parsePackedValueWithSeqno e.value).1 } .swapPreferredSeqno))
  | kept (hclear : st.clearAndOutputNextKey = false) (htype : e.type ≠ .singleDeletion)
      (hmerge : e.type ≠ .merge) (hbottom : ¬ (e.type = .deletion ∧ c.bottommostLevel = true))
      (hfresh : st.currentUserKeySequence ≠ kMaxSequenceNumber → ¬ st.Hides c e)
      (hrange : c.shouldDelete e.userKey e.sequence = false) :
      Fate c st e rest (.valid (st.seeing c e) (.entry e .newUserKey))
  | unexpected (hclear : st.clearAndOutputNextKey = true)
      (hbad : e.type.isPut = false ∨ c.snapshots.visible e.sequence <
        (st.enter e.userKey).currentUserKeySnapshot) (message : String) :
      Fate c st e rest (.failed (.fatal message))
  | unordered (hcur : st.currentUserKey = some e.userKey)
      (hseq : st.currentUserKeySequence < e.sequence) (message : String) :
      Fate c st e rest (.failed (.fatal message))
  | merge (htype : e.type = .merge) (message : String) :
      Fate c st e rest (.failed (.invalidArgument message))

theorem State.enter_of_current {st : State K V} {k : K} (h : st.currentUserKey = some k) :
    st.enter k = st := by
  rw [State.enter, if_pos h]

theorem State.enter_of_ne {st : State K V} {k : K} (h : st.currentUserKey ≠ some k) :
    (st.enter k).currentUserKeySequence = kMaxSequenceNumber := by
  rw [State.enter, if_neg h]

/-- What rule (A) tests, before the sequence number of `e` is recorded. -/
theorem hides_iff (c : Config K V) (st : State K V) (e : Entry K V) :
    ((st.enter e.userKey).currentUserKeySequence ≠ kMaxSequenceNumber ∧
      ((st.enter e.userKey).currentUserKeySnapshot = (st.seeing c e).currentUserKeySnapshot ∨
        (st.enter e.userKey).currentUserKeySnapshot < (st.seeing c e).currentUserKeySnapshot)) ↔
    st.currentUserKeySequence ≠ kMaxSequenceNumber ∧ st.Hides c e := by
  rw [← le_iff_eq_or_lt]
  constructor
  · rintro ⟨hseq, hsnap⟩
    have hcur : st.currentUserKey = some e.userKey := by
      by_contra hne
      exact hseq (State.enter_of_ne hne)
    rw [State.enter_of_current hcur] at hseq hsnap
    exact ⟨hseq, hcur, hsnap⟩
  · rintro ⟨hseq, hcur, hsnap⟩
    rw [State.enter_of_current hcur]
    exact ⟨hseq, hsnap⟩

theorem standsAt_skipSentinels {k : K} {l : List (Item K V)}
    (h : standsAt k (skipSentinels k l) = true) :
    ∃ next rest, skipSentinels k l = .entry next :: rest ∧ next.userKey = k := by
  fun_induction skipSentinels k l with
  | case1 seq rest ih => exact ih h
  | case2 k' seq rest hne => exact absurd (by simpa [standsAt] using h) hne
  | case3 l hne =>
    cases l with
    | nil => cases h
    | cons item rest =>
      cases item with
      | entry next => exact ⟨next, rest, rfl, by simpa [standsAt] using h⟩
      | rangeDelSentinel k' seq => exact absurd rfl (hne k' seq rest)
      | corrupt message => cases h

theorem matchSingleDelete_fate (c : Config K V) (st : State K V) (e next : Entry K V)
    (rest' : List (Item K V)) (hkey : next.userKey = e.userKey) :
    SingleFate c st e (.entry next :: rest') (matchSingleDelete c st e next rest') := by
  unfold matchSingleDelete
  split
  · next hzero => exact .zeroed next rest' rfl hkey hzero
  next hzero =>
  have hzero : st.lastKeySeqZeroed = false := by simpa using hzero
  split
  · next hstripe =>
    split
    · next hsd => exact .doubled next rest' rfl hkey hzero hstripe (.inl hsd)
    next hsd =>
    split
    · next hdel =>
      split
      · exact .contract next rest' rfl hkey hdel
      · next henf =>
        exact .doubled next rest' rfl hkey hzero hstripe (.inr ⟨hdel, by simpa using henf⟩)
    next hdel =>
    split
    · exact .pair next rest' rfl hkey hzero hstripe hsd hdel
    · next hrule2 =>
      push Not at hrule2
      exact .keptForConflict next rest' rfl hkey hzero hstripe hsd hdel hrule2.2.1 hrule2.2.2
  · next hstripe => exact .keptForSnapshot next rest' rfl hkey hzero hstripe

theorem unmatchedSingleDelete_fate (c : Config K V) (st : State K V) (e : Entry K V)
    (rest : List (Item K V)) (hstands : standsAt e.userKey rest = false) :
    SingleFate c st e rest (unmatchedSingleDelete c st e rest) := by
  unfold unmatchedSingleDelete
  dsimp only
  split
  · next hobs => exact .obsolete hstands ⟨by simpa using hobs.1, hobs.2⟩
  next hobs =>
  have hobs : ¬ c.Obsolete e := fun h => hobs ⟨by simpa using h.1, h.2⟩
  split
  · next hzero => exact .lastZeroed hstands hzero
  · next hzero => exact .kept hstands (by simpa using hzero) hobs

theorem singleDelete_fate (c : Config K V) (st : State K V) (e : Entry K V)
    (rest : List (Item K V)) :
    SingleFate c st e (skipSentinels e.userKey rest) (singleDelete c st e rest) := by
  unfold singleDelete
  split
  · next next rest' heq =>
    rw [heq]
    split
    · next hkey => exact matchSingleDelete_fate c st e next rest' hkey
    · next hkey => exact unmatchedSingleDelete_fate c st e _ (by simpa [standsAt] using hkey)
  · next rest' hne =>
    refine unmatchedSingleDelete_fate c st e _ ?_
    by_contra hstands
    obtain ⟨next, rest', heq, -⟩ := standsAt_skipSentinels (by simpa using hstands)
    exact hne next rest' heq

theorem passEntry_fate (c : Config K V) (st : State K V) (e : Entry K V)
    (rest : List (Item K V)) : Fate c st e rest (passEntry c st e rest) := by
  have hclearSeen : (st.seeing c e).clearAndOutputNextKey = st.clearAndOutputNextKey := by
    unfold State.seeing State.enter
    split <;> rfl
  simp only [passEntry]
  split
  · next hclear =>
    rw [hclearSeen] at hclear
    unfold clearPut
    split
    · next hput => exact .unexpected hclear (.inl (by simpa using hput)) _
    next hput =>
    split
    · next hsnap => exact .unexpected hclear (.inr hsnap) _
    · exact .cleared hclear (by simpa using hput)
  next hclear =>
  have hclear : st.clearAndOutputNextKey = false := by simpa [hclearSeen] using hclear
  split
  · next htype => exact .single hclear htype (singleDelete_fate c _ e rest)
  next htype =>
  split
  · next hhides =>
    rw [hides_iff] at hhides
    split
    · next hseq =>
      rw [State.enter_of_current hhides.2.1] at hseq
      exact .unordered hhides.2.1 hseq _
    · exact .hidden hclear htype hhides.2
  next hfresh =>
  rw [hides_iff] at hfresh
  have hfresh : st.currentUserKeySequence ≠ kMaxSequenceNumber → ¬ st.Hides c e :=
    fun hseq hh => hfresh ⟨hseq, hh⟩
  split
  · next hobs => exact .deleted hclear hobs.1 hfresh ⟨by simpa using hobs.2.1, hobs.2.2⟩
  next hobs =>
  split
  · next hdel =>
    have hobs : ¬ c.Obsolete e := fun h => hobs ⟨hdel.1, by simpa using h.1, h.2⟩
    unfold bottommostDelete
    dsimp only
    split
    · exact .keptDelete hclear hdel.1 hfresh hobs hdel.2
    · next hstands =>
      exact .deletedStripe hclear hdel.1 hfresh hdel.2 (by simpa using hstands)
  next hdel =>
  split
  · next hpref =>
    have hbelow : c.keyNotExistsBeyondOutputLevel e.userKey = true := by
      rcases hpref.2.2 with hb | hb
      · simp only [Config.bottommostLevel, Bool.and_eq_true] at hb
        simp [Config.keyNotExistsBeyondOutputLevel, hb.1]
      · exact hb
    unfold preferredSeqno
    dsimp only
    split
    · next hrange => exact .covered hclear htype hfresh hrange
    next hrange =>
    split
    · exact .kept hclear htype (by simp [hpref.1]) (by simp [hpref.1]) hfresh
        (by simpa using hrange)
    · next hswap =>
      exact .swapped hclear hpref.1 hfresh hpref.2.1 hbelow (by simpa using hswap)
  split
  · next hmerge => exact .merge hmerge _
  next hmerge =>
  unfold newUserKey
  split
  · next hrange => exact .covered hclear htype hfresh hrange
  · next hrange => exact .kept hclear htype hmerge hdel hfresh (by simpa using hrange)

end PnmCompaction.Compaction

import PnmCompaction.Compaction.Snapshots

/-!
# The compaction iterator

`CompactionIterator` of `db/compaction/compaction_iterator.cc`, as the worker's
`CompactWithoutInstallation` runs it over the merged input of a job: without a snapshot
checker, a compaction filter, a merge operator, blob files and user-defined timestamps.
`nextFromInput` (lines 699-1387) is the loop that looks for the next record to keep,
`prepareOutput` (1857-1958) clears sequence numbers at the bottommost level, `seekToFirst`
and `next` (269-343) run the two, and `compact` drives them as
`CompactionJob::ProcessKeyValue` does (db/compaction/compaction_job.cc 1646-1749).
-/

namespace PnmCompaction.Compaction

inductive ValueType
  | deletion
  | value
  | merge
  | singleDeletion
  | blobIndex
  | wideColumnEntity
  | valuePreferredSeqno
  deriving DecidableEq, Repr

/-- The types `NextFromInput` accepts below a single deletion. -/
def ValueType.isPut : ValueType → Bool
  | .value | .blobIndex | .wideColumnEntity | .valuePreferredSeqno => true
  | .deletion | .merge | .singleDeletion => false

/-- A `ParsedInternalKey` with its value. -/
structure Entry (K V : Type*) where
  userKey : K
  sequence : ℕ
  type : ValueType
  value : V
  deriving DecidableEq, Repr

/-- What the input iterator stands at: a point key, the start key of a range tombstone
(`IsDeleteRangeSentinelKey`) or a key `ParseInternalKey` refuses. -/
inductive Item (K V : Type*)
  | entry (e : Entry K V)
  | rangeDelSentinel (userKey : K) (sequence : ℕ)
  | corrupt (message : String)
  deriving DecidableEq, Repr

structure Tombstone (K : Type*) where
  startKey : K
  endKey : K
  sequence : ℕ

inductive Status
  | ok
  | corruption (message : String)
  | invalidArgument (message : String)
  /-- `ROCKS_LOG_FATAL` followed by `assert(false)`. -/
  | fatal (message : String)
  deriving DecidableEq, Repr

/-- The constant members of the iterator. -/
structure Config (K V : Type*) where
  snapshots : Snapshots
  earliestWriteConflictSnapshot : ℕ
  preserveSeqnoAfter : ℕ
  /-- `compaction_->bottommost_level()`. -/
  compactionBottommost : Bool
  allowIngestBehind : Bool
  /-- The search in the levels below by `Compaction::KeyNotExistsBeyondOutputLevel`. -/
  absentBelow : K → Bool
  /-- The same by `Compaction::KeyRangeNotExistsBeyondOutputLevel`. -/
  absentRangeBelow : K → K → Bool
  enforceSingleDelContracts : Bool
  /-- What `range_del_agg_` was given. -/
  rangeDels : List (Tombstone K)
  /-- The value after `value_.clear()`. -/
  cleared : V
  parsePackedValueWithSeqno : V → V × ℕ
  /-- The status of `WideColumnSerialization::DeserializeV2`. -/
  deserializeV2 : V → Status

inductive ValidContext
  | keepSDAndClearPut
  | keepSDForConflictCheck
  | keepSDForSnapshot
  | keepSD
  | keepDel
  | newUserKey
  | swapPreferredSeqno
  deriving DecidableEq, Repr

/-- What the iterator stands at when it is valid. -/
inductive Record (K V : Type*)
  | entry (e : Entry K V) (context : ValidContext)
  | rangeDeletion (userKey : K) (sequence : ℕ)
  deriving DecidableEq, Repr

structure State (K V : Type*) where
  input : List (Item K V)
  /-- `current_user_key_`, `none` while `has_current_user_key_` is false. -/
  currentUserKey : Option K
  currentUserKeySequence : ℕ
  currentUserKeySnapshot : ℕ
  hasOutputtedKey : Bool
  clearAndOutputNextKey : Bool
  lastKeySeqZeroed : Bool
  atNext : Bool

def State.init {K V : Type*} (input : List (Item K V)) : State K V :=
  ⟨input, none, 0, 0, false, false, false, false⟩

/-- What one pass of the loop in `NextFromInput` leaves. -/
inductive Pass (K V : Type*)
  | again (st : State K V)
  | valid (st : State K V) (r : Record K V)
  | failed (s : Status)

/-- What `SeekToFirst` and `Next` leave: `Valid()` or not, and the status. -/
inductive Outcome (K V : Type*)
  | finished
  | record (st : State K V) (r : Record K V)
  | failed (s : Status)

section

variable {K V : Type*} [LinearOrder K]

def Tombstone.covers (t : Tombstone K) (k : K) : Bool := t.startKey ≤ k && k < t.endKey

namespace Config

def earliestSnapshot (c : Config K V) : ℕ := c.snapshots.earliest

/-- `bottommost_level_`. -/
def bottommostLevel (c : Config K V) : Bool := c.compactionBottommost && !c.allowIngestBehind

def keyNotExistsBeyondOutputLevel (c : Config K V) (k : K) : Bool :=
  c.compactionBottommost || c.absentBelow k

/-- `CompactionRangeDelAggregator::ShouldDelete`: the aggregator keeps the tombstones by
stripe and asks those of the stripe of the key (db/range_del_aggregator.cc 405-412). -/
def shouldDelete (c : Config K V) (k : K) (seq : ℕ) : Bool :=
  c.rangeDels.any fun t =>
    t.covers k && decide (seq < t.sequence) &&
      decide (c.snapshots.visible t.sequence = c.snapshots.visible seq)

end Config

/-- The key changed: the first part of the loop body, lines 747-835. -/
def State.enter (st : State K V) (k : K) : State K V :=
  if st.currentUserKey = some k then st
  else
    { st with
      currentUserKey := some k
      currentUserKeySequence := kMaxSequenceNumber
      currentUserKeySnapshot := 0
      hasOutputtedKey := false
      lastKeySeqZeroed := false }

/-- `current_user_key_sequence_` and `current_user_key_snapshot_` of the key at hand. -/
def State.seeing (st : State K V) (c : Config K V) (e : Entry K V) : State K V :=
  { st.enter e.userKey with
    currentUserKeySequence := e.sequence
    currentUserKeySnapshot := c.snapshots.visible e.sequence }

/-! ### The branches of the loop body -/

/-- Lines 857-885, the put after a single deletion that had to stay. -/
def clearPut (c : Config K V) (st : State K V) (lastSnapshot : ℕ) (e : Entry K V) : Pass K V :=
  if !e.type.isPut then .failed (.fatal "Unexpected key for compaction output")
  else if st.currentUserKeySnapshot < lastSnapshot then
    .failed (.fatal "current_user_key_snapshot_ < last_snapshot")
  else
    .valid { st with clearAndOutputNextKey := false }
      (.entry { e with type := .value, value := c.cleared } .keepSDAndClearPut)

/-- Range tombstone start keys of the same user key are not point keys. -/
def skipSentinels (k : K) : List (Item K V) → List (Item K V)
  | .rangeDelSentinel k' seq :: rest =>
    if k' = k then skipSentinels k rest else .rangeDelSentinel k' seq :: rest
  | rest => rest

def singleDelContract : Status :=
  .corruption ("Found SD and type: 0 on the same key, violating the contract of " ++
    "SingleDelete. Check your application to make sure the application does not mix " ++
    "SingleDelete and Delete for the same key. If you are using " ++
    "write-prepared/write-unprepared transactions, and use SingleDelete to delete certain " ++
    "keys, then make sure TransactionDBOptions::rollback_deletion_type_callback is " ++
    "configured properly. Mixing SD and DEL can lead to undefined behaviors")

/-- Lines 966-1081, a single deletion `e` with the next version `next` of its key behind it;
the input stands at `next`. -/
def matchSingleDelete (c : Config K V) (st : State K V) (e next : Entry K V)
    (rest : List (Item K V)) : Pass K V :=
  if st.lastKeySeqZeroed then .again { st with input := rest }
  else if c.snapshots.previous e.sequence = 0 ∨
      c.snapshots.previous e.sequence < next.sequence then
    if next.type = .singleDeletion then .again { st with input := .entry next :: rest }
    else if next.type = .deletion then
      if c.enforceSingleDelContracts then .failed singleDelContract
      else .again { st with input := .entry next :: rest }
    else if st.hasOutputtedKey ∨ e.sequence ≤ c.earliestWriteConflictSnapshot ∨
        c.earliestSnapshot < c.earliestWriteConflictSnapshot ∧
          e.sequence ≤ c.earliestSnapshot then
      .again { st with input := rest }
    else
      .valid { st with
          input := .entry next :: rest, clearAndOutputNextKey := true, atNext := true }
        (.entry e .keepSDForConflictCheck)
  else .valid { st with input := .entry next :: rest, atNext := true } (.entry e .keepSDForSnapshot)

/-- Lines 1082-1116, a single deletion without a version of its key behind it in the input. -/
def unmatchedSingleDelete (c : Config K V) (st : State K V) (e : Entry K V)
    (rest : List (Item K V)) : Pass K V :=
  let st := { st with currentUserKey := none, input := rest }
  if !c.allowIngestBehind ∧ e.sequence ≤ c.earliestSnapshot ∧
      c.keyNotExistsBeyondOutputLevel e.userKey then .again st
  else if st.lastKeySeqZeroed then .again st
  else .valid { st with atNext := true } (.entry e .keepSD)

def singleDelete (c : Config K V) (st : State K V) (e : Entry K V) (rest : List (Item K V)) :
    Pass K V :=
  match skipSentinels e.userKey rest with
  | .entry next :: rest' =>
    if next.userKey = e.userKey then matchSingleDelete c st e next rest'
    else unmatchedSingleDelete c st e (.entry next :: rest')
  | rest' => unmatchedSingleDelete c st e rest'

/-- The versions of `k` that no snapshot at or below `prev` sees, and sentinels of `k`. -/
def skipStripe (k : K) (prev : ℕ) : List (Item K V) → List (Item K V)
  | .entry next :: rest =>
    if next.userKey = k ∧ (prev = 0 ∨ prev < next.sequence) then skipStripe k prev rest
    else .entry next :: rest
  | .rangeDelSentinel k' seq :: rest =>
    if k' = k then skipStripe k prev rest else .rangeDelSentinel k' seq :: rest
  | rest => rest

/-- Whether the input stands at a key that parses and has the user key `k`. -/
def standsAt (k : K) : List (Item K V) → Bool
  | .entry next :: _ => next.userKey = k
  | .rangeDelSentinel k' _ :: _ => k' = k
  | _ => false

/-- Lines 1188-1233. -/
def bottommostDelete (c : Config K V) (st : State K V) (e : Entry K V)
    (rest : List (Item K V)) : Pass K V :=
  let rest' := skipStripe e.userKey (c.snapshots.previous e.sequence) rest
  if standsAt e.userKey rest' then
    .valid { st with input := rest', atNext := true } (.entry e .keepDel)
  else .again { st with input := rest' }

/-- Lines 1234-1294, a timed put whose preferred sequence number can be swapped in. -/
def preferredSeqno (c : Config K V) (st : State K V) (e : Entry K V) (rest : List (Item K V)) :
    Pass K V :=
  let (unpacked, preferred) := c.parsePackedValueWithSeqno e.value
  if c.shouldDelete e.userKey e.sequence then .again { st with input := rest }
  else if c.shouldDelete e.userKey (min preferred e.sequence) then
    .valid st (.entry e .newUserKey)
  else
    .valid st (.entry
      { e with
        sequence := if e.sequence ≠ 0 then preferred else e.sequence
        type := .value
        value := unpacked }
      .swapPreferredSeqno)

/-- Lines 1349-1370. -/
def newUserKey (c : Config K V) (st : State K V) (e : Entry K V) (rest : List (Item K V)) :
    Pass K V :=
  if c.shouldDelete e.userKey e.sequence then .again { st with input := rest }
  else .valid st (.entry e .newUserKey)

/-- The loop body at a point key, lines 747-1370. -/
def passEntry (c : Config K V) (st : State K V) (e : Entry K V) (rest : List (Item K V)) :
    Pass K V :=
  let lastSequence := (st.enter e.userKey).currentUserKeySequence
  let lastSnapshot := (st.enter e.userKey).currentUserKeySnapshot
  let st := st.seeing c e
  if st.clearAndOutputNextKey then clearPut c st lastSnapshot e
  else if e.type = .singleDeletion then singleDelete c st e rest
  else if lastSequence ≠ kMaxSequenceNumber ∧
      (lastSnapshot = st.currentUserKeySnapshot ∨ lastSnapshot < st.currentUserKeySnapshot) then
    -- rule (A): hidden by a newer version that the same snapshots see
    if lastSequence < e.sequence then .failed (.fatal "last_sequence < current_user_key_sequence_")
    else .again { st with input := rest }
  else if e.type = .deletion ∧ !c.allowIngestBehind ∧ e.sequence ≤ c.earliestSnapshot ∧
      c.keyNotExistsBeyondOutputLevel e.userKey then
    .again { st with input := rest }
  else if e.type = .deletion ∧ c.bottommostLevel then bottommostDelete c st e rest
  else if e.type = .valuePreferredSeqno ∧ e.sequence ≤ c.earliestSnapshot ∧
      (c.bottommostLevel ∨ c.keyNotExistsBeyondOutputLevel e.userKey) then
    preferredSeqno c st e rest
  else if e.type = .merge then
    .failed (.invalidArgument "merge_operator is not properly initialized.")
  else newUserKey c st e rest

def pass (c : Config K V) (st : State K V) : Item K V → List (Item K V) → Pass K V
  | .entry e, rest => passEntry c st e rest
  | .rangeDelSentinel k seq, _ => .valid st (.rangeDeletion k seq)
  | .corrupt message, _ => .failed (.corruption message)

/-! ### Every pass consumes input -/

/-- The input when `Next` enters the loop: past the current record unless the iterator
already looked ahead. -/
def State.pending (st : State K V) : List (Item K V) :=
  if st.atNext then st.input else st.input.tail

theorem skipSentinels_suffix (k : K) (l : List (Item K V)) : skipSentinels k l <:+ l := by
  fun_induction skipSentinels k l with
  | case1 seq rest ih => exact ih.trans (List.suffix_cons _ _)
  | case2 => exact List.suffix_rfl
  | case3 => exact List.suffix_rfl

theorem skipStripe_suffix (k : K) (prev : ℕ) (l : List (Item K V)) :
    skipStripe k prev l <:+ l := by
  fun_induction skipStripe k prev l with
  | case1 next rest h ih => exact ih.trans (List.suffix_cons _ _)
  | case2 => exact List.suffix_rfl
  | case3 seq rest ih => exact ih.trans (List.suffix_cons _ _)
  | case4 => exact List.suffix_rfl
  | case5 => exact List.suffix_rfl

/-- What is left of the input after a pass at `item :: rest`: the loop continues behind
`item`, or the record is returned with the input at it or behind it. -/
def Pass.Consumes (rest : List (Item K V)) (ahead : Bool) : Pass K V → Prop
  | .again st => st.input <:+ rest ∧ st.atNext = ahead
  | .valid st _ => ahead = false → st.pending <:+ rest
  | .failed _ => True

omit [LinearOrder K] in
theorem State.pending_of_not_atNext {st : State K V} {item : Item K V} {rest : List (Item K V)}
    (h : st.atNext = false) (hin : st.input = item :: rest) : st.pending = rest := by
  rw [State.pending, h, hin]
  rfl

omit [LinearOrder K] in
theorem Pass.Consumes.mono {rest rest' : List (Item K V)} {ahead : Bool} {p : Pass K V}
    (h : p.Consumes rest' ahead) (hle : rest' <:+ rest) : p.Consumes rest ahead := by
  cases p with
  | again st => exact ⟨h.1.trans hle, h.2⟩
  | valid st r => exact fun hat => (h hat).trans hle
  | failed s => exact trivial

omit [LinearOrder K] in
theorem matchSingleDelete_consumes (c : Config K V) (st : State K V) (e next : Entry K V)
    (rest : List (Item K V)) :
    (matchSingleDelete c st e next rest).Consumes (.entry next :: rest) st.atNext := by
  unfold matchSingleDelete
  repeat' split
  all_goals first
    | exact trivial
    | exact ⟨List.suffix_rfl, rfl⟩
    | exact ⟨List.suffix_cons _ _, rfl⟩
    | exact fun _ => List.suffix_rfl

omit [LinearOrder K] in
theorem unmatchedSingleDelete_consumes (c : Config K V) (st : State K V) (e : Entry K V)
    (rest : List (Item K V)) :
    (unmatchedSingleDelete c st e rest).Consumes rest st.atNext := by
  unfold unmatchedSingleDelete
  dsimp only
  repeat' split
  all_goals first
    | exact ⟨List.suffix_rfl, rfl⟩
    | exact fun _ => List.suffix_rfl

theorem singleDelete_consumes (c : Config K V) (st : State K V) (e : Entry K V)
    (rest : List (Item K V)) : (singleDelete c st e rest).Consumes rest st.atNext := by
  have hskip := skipSentinels_suffix e.userKey rest
  unfold singleDelete
  split
  · next next rest' heq =>
    rw [heq] at hskip
    split
    · exact (matchSingleDelete_consumes c st e next rest').mono hskip
    · exact (unmatchedSingleDelete_consumes c st e _).mono hskip
  · exact (unmatchedSingleDelete_consumes c st e _).mono hskip

theorem State.seeing_input (st : State K V) (c : Config K V) (e : Entry K V) :
    (st.seeing c e).input = st.input ∧ (st.seeing c e).atNext = st.atNext := by
  unfold State.seeing State.enter
  split <;> exact ⟨rfl, rfl⟩

theorem passEntry_consumes (c : Config K V) {st : State K V} {e : Entry K V}
    {rest : List (Item K V)} (hin : st.input = .entry e :: rest) :
    (passEntry c st e rest).Consumes rest st.atNext := by
  obtain ⟨hseen, hseenAt⟩ := st.seeing_input c e
  have hstay (hat : st.atNext = false) : (st.seeing c e).pending <:+ rest :=
    (State.pending_of_not_atNext (hseenAt.trans hat) (hseen.trans hin)).symm ▸ List.suffix_rfl
  have hdrop : ∀ l : List (Item K V), l <:+ rest →
      (Pass.again { st.seeing c e with input := l }).Consumes rest st.atNext :=
    fun l hl => ⟨hl, hseenAt⟩
  simp only [passEntry]
  split
  · unfold clearPut
    repeat' split
    all_goals first | exact trivial | exact hstay
  split
  · exact hseenAt ▸ singleDelete_consumes c (st.seeing c e) e rest
  split
  · split
    · exact trivial
    · exact hdrop rest List.suffix_rfl
  split
  · exact hdrop rest List.suffix_rfl
  split
  · unfold bottommostDelete
    dsimp only
    split
    · exact fun _ => skipStripe_suffix _ _ _
    · exact hdrop _ (skipStripe_suffix _ _ _)
  split
  · unfold preferredSeqno
    dsimp only
    repeat' split
    · exact hdrop rest List.suffix_rfl
    all_goals exact hstay
  split
  · exact trivial
  · unfold newUserKey
    split
    · exact hdrop rest List.suffix_rfl
    · exact hstay

theorem pass_consumes (c : Config K V) {st : State K V} {item : Item K V}
    {rest : List (Item K V)} (hin : st.input = item :: rest) :
    (pass c st item rest).Consumes rest st.atNext := by
  cases item with
  | rangeDelSentinel k seq =>
    exact fun hat => (State.pending_of_not_atNext hat hin).symm ▸ List.suffix_rfl
  | corrupt message => exact trivial
  | entry e => exact passEntry_consumes c hin

/-! ### The loop and its driver -/

def nextFromInput (c : Config K V) (st : State K V) : Outcome K V :=
  match _hin : st.input with
  | [] => .finished
  | item :: rest =>
    match _hpass : pass c st item rest with
    | .again st' => nextFromInput c st'
    | .valid st' r => .record st' r
    | .failed s => .failed s
termination_by st.input.length
decreasing_by
  have hcons := pass_consumes c _hin
  rw [_hpass] at hcons
  rw [_hin]
  exact Nat.lt_succ_of_le hcons.1.length_le

def prepareOutput (c : Config K V) (st : State K V) (r : Record K V) : Outcome K V :=
  match r with
  | .rangeDeletion k seq => .record st (.rangeDeletion k seq)
  | .entry e context =>
    if e.type = .wideColumnEntity ∧ c.deserializeV2 e.value ≠ .ok then
      .failed (c.deserializeV2 e.value)
    else if c.bottommostLevel ∧ e.sequence ≤ c.earliestSnapshot ∧ e.type ≠ .merge ∧
        e.sequence ≤ c.preserveSeqnoAfter then
      if e.type = .deletion ∨ e.type = .singleDeletion then
        .failed (.fatal "Unexpected key for seq-zero optimization")
      else
        .record { st with lastKeySeqZeroed := true } (.entry { e with sequence := 0 } context)
    else .record st (.entry e context)

def Outcome.bind (o : Outcome K V) (f : State K V → Record K V → Outcome K V) : Outcome K V :=
  match o with
  | .finished => .finished
  | .record st r => f st r
  | .failed s => .failed s

def seekToFirst (c : Config K V) (st : State K V) : Outcome K V :=
  (nextFromInput c { st with atNext := false }).bind (prepareOutput c)

def next (c : Config K V) (st : State K V) : Outcome K V :=
  (nextFromInput c { st with input := st.pending, atNext := false }).bind fun st r =>
    prepareOutput c { st with hasOutputtedKey := true } r

/-- The record returned leaves less input pending than the loop was entered with. -/
theorem nextFromInput_pending {c : Config K V} {st st' : State K V} {r : Record K V}
    (hat : st.atNext = false) (h : nextFromInput c st = .record st' r) :
    st'.pending.length < st.input.length := by
  fun_induction nextFromInput c st with
  | case1 => cases h
  | case2 st item rest hin st₁ hpass ih =>
    have hcons := pass_consumes c hin
    rw [hpass] at hcons
    have hlt := ih (hcons.2.trans hat) h
    have hle := hcons.1.length_le
    rw [hin, List.length_cons]
    omega
  | case3 st item rest hin st₁ r₁ hpass =>
    cases h
    have hcons := pass_consumes c hin
    rw [hpass] at hcons
    rw [hin, List.length_cons]
    exact Nat.lt_succ_of_le (hcons hat).length_le
  | case4 => cases h

omit [LinearOrder K] in
theorem prepareOutput_record {c : Config K V} {st st' : State K V} {r r' : Record K V}
    (h : prepareOutput c st r = .record st' r') : st'.pending = st.pending := by
  unfold prepareOutput at h
  repeat' split at h
  all_goals cases h
  all_goals rfl

omit [LinearOrder K] in
theorem Outcome.bind_record {o : Outcome K V} {f : State K V → Record K V → Outcome K V}
    {st : State K V} {r : Record K V} (h : o.bind f = .record st r) :
    ∃ st₁ r₁, o = .record st₁ r₁ ∧ f st₁ r₁ = .record st r := by
  cases o with
  | finished => cases h
  | failed s => cases h
  | record st₁ r₁ => exact ⟨st₁, r₁, rfl, h⟩

theorem next_pending {c : Config K V} {st st' : State K V} {r : Record K V}
    (h : next c st = .record st' r) : st'.pending.length < st.pending.length := by
  obtain ⟨st₁, r₁, hscan, hprep⟩ := Outcome.bind_record h
  rw [prepareOutput_record hprep]
  exact nextFromInput_pending rfl hscan

structure Result (K V : Type*) where
  records : List (Record K V)
  status : Status

/-- The loop of `CompactionJob::ProcessKeyValue` from what the iterator stands at. -/
def collect (c : Config K V) (o : Outcome K V) : Result K V :=
  match o with
  | .finished => ⟨[], .ok⟩
  | .failed s => ⟨[], s⟩
  | .record st r =>
    match _hnext : next c st with
    | .finished => ⟨[r], .ok⟩
    | .failed s => ⟨[r], s⟩
    | .record st' r' =>
      let rest := collect c (.record st' r')
      ⟨r :: rest.records, rest.status⟩
termination_by match o with | .record st _ => st.pending.length | _ => 0
decreasing_by exact next_pending _hnext

def compact (c : Config K V) (input : List (Item K V)) : Result K V :=
  collect c (seekToFirst c (State.init input))

/-! ### Invariants of the loop and of a run -/

/-- The loop keeps `I` and what it returns has `Q`. -/
def Pass.Leaves (I : State K V → Prop) (Q : Outcome K V → Prop) : Pass K V → Prop
  | .again st => I st
  | .valid st r => Q (.record st r)
  | .failed s => Q (.failed s)

theorem nextFromInput_rule {c : Config K V} {I : State K V → Prop} {Q : Outcome K V → Prop}
    (hend : ∀ st, I st → st.input = [] → Q .finished)
    (hpass : ∀ st item rest, I st → st.input = item :: rest →
      (pass c st item rest).Leaves I Q) {st : State K V} (hst : I st) :
    Q (nextFromInput c st) := by
  fun_induction nextFromInput c st with
  | case1 st hin => exact hend st hst hin
  | case2 st item rest hin st' hagain ih =>
    have hleaves := hpass st item rest hst hin
    rw [hagain] at hleaves
    exact ih hleaves
  | case3 st item rest hin st' r hvalid =>
    have hleaves := hpass st item rest hst hin
    rw [hvalid] at hleaves
    exact hleaves
  | case4 st item rest hin status hfailed =>
    have hleaves := hpass st item rest hst hin
    rw [hfailed] at hleaves
    exact hleaves

omit [LinearOrder K] in
theorem Outcome.bind_rule {o : Outcome K V} {f : State K V → Record K V → Outcome K V}
    {P Q : Outcome K V → Prop} (hend : P .finished → Q .finished)
    (hfailed : ∀ s, P (.failed s) → Q (.failed s))
    (hrecord : ∀ st r, P (.record st r) → Q (f st r)) (h : P o) : Q (o.bind f) := by
  cases o with
  | finished => exact hend h
  | record st r => exact hrecord st r h
  | failed s => exact hfailed s h

/-- `A` relates the records written so far to what `SeekToFirst` or `Next` left. -/
theorem collect_rule {c : Config K V} {A : List (Record K V) → Outcome K V → Prop}
    {Q : List (Record K V) → Status → Prop} (hend : ∀ out, A out .finished → Q out .ok)
    (hfailed : ∀ out s, A out (.failed s) → Q out s)
    (hnext : ∀ out st r, A out (.record st r) → A (out ++ [r]) (next c st))
    {out : List (Record K V)} {o : Outcome K V} (h : A out o) :
    Q (out ++ (collect c o).records) (collect c o).status := by
  fun_induction collect c o generalizing out with
  | case1 => simpa using hend out h
  | case2 s => simpa using hfailed out s h
  | case3 st r hat =>
    have hstep := hnext out st r h
    rw [hat] at hstep
    exact hend _ hstep
  | case4 st r s hat =>
    have hstep := hnext out st r h
    rw [hat] at hstep
    exact hfailed _ s hstep
  | case5 st r st' r' hat rest =>
    rename_i ih
    have hstep := hnext out st r h
    rw [hat] at hstep
    rw [List.append_cons]
    exact ih hstep

theorem compact_rule {c : Config K V} {A : List (Record K V) → Outcome K V → Prop}
    {Q : List (Record K V) → Status → Prop} {input : List (Item K V)}
    (hend : ∀ out, A out .finished → Q out .ok) (hfailed : ∀ out s, A out (.failed s) → Q out s)
    (hnext : ∀ out st r, A out (.record st r) → A (out ++ [r]) (next c st))
    (hseek : A [] (seekToFirst c (State.init input))) :
    Q (compact c input).records (compact c input).status :=
  collect_rule hend hfailed hnext hseek

end

end PnmCompaction.Compaction

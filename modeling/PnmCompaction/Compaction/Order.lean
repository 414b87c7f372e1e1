import PnmCompaction.Compaction.Compact

/-!
# The order of the written keys

A table file takes keys only in strictly ascending internal key order. The iterator changes
numbers on the way (it clears them at the bottommost level,
db/compaction/compaction_iterator.cc 1857-1958, and swaps preferred ones in, 1234-1294), so
the order of its output is not the order of its input: it rests on the iterator writing
nothing more of a key once it wrote a version of it from the earliest stripe with nothing
left below.
-/

namespace PnmCompaction.Compaction

open Lib (Versions)

variable {K V : Type*} [LinearOrder K] {c : Config K V} {input : List (Item K V)}
  {out : List (Entry K V)} {st st' : State K V} {e f g x : Entry K V} {rest : List (Item K V)}

def KeyBefore (f g : Entry K V) : Prop :=
  f.userKey < g.userKey ∨ f.userKey = g.userKey ∧ g.sequence < f.sequence

instance (f g : Entry K V) : Decidable (KeyBefore f g) :=
  inferInstanceAs (Decidable (_ ∨ _))

theorem KeyBefore.trans (h : KeyBefore f g) (h' : KeyBefore g x) : KeyBefore f x := by
  rcases h with hlt | ⟨heq, hseq⟩
  · rcases h' with hlt' | ⟨heq', -⟩
    · exact .inl (hlt.trans hlt')
    · exact .inl (heq' ▸ hlt)
  · rcases h' with hlt' | ⟨heq', hseq'⟩
    · exact .inl (heq ▸ hlt')
    · exact .inr ⟨heq.trans heq', hseq'.trans hseq⟩

/-- What of `Admissible` the order needs, and that no file is ever ingested behind. -/
structure Sortable (c : Config K V) (input : List (Item K V)) : Prop where
  parses : ∀ item ∈ input, item.userKey? ≠ none
  ordered : input.Pairwise Item.Before
  numbered : ∀ e ∈ entries input, e.sequence < kMaxSequenceNumber
  preferred : ∀ e ∈ entries input, e.type = .valuePreferredSeqno →
    e.sequence = 0 ∨ (c.parsePackedValueWithSeqno e.value).2 < e.sequence
  notIngestBehind : c.allowIngestBehind = false
  conflict : c.earliestSnapshot ≤ c.earliestWriteConflictSnapshot

theorem Admissible.sortable {below : List (Entry K V)} (h : Admissible c input below)
    (hbehind : c.allowIngestBehind = false) : Sortable c input :=
  ⟨h.parses, h.ordered, h.numbered, h.preferred, hbehind, h.conflict⟩

theorem Sortable.keyBefore (h : Sortable c input) (hsuf : st.input <:+ input)
    (hin : st.input = .entry e :: rest) (hx : x ∈ entries rest) : KeyBefore e x := by
  rcases (behind_le h.ordered hsuf hin hx).lt_or_eq with hlt | heq
  · exact .inl hlt
  · exact .inr ⟨heq, (behind h.ordered hsuf hin).2 x hx heq.symm⟩

/-- Nothing more of the key `k` is written. -/
structure Settled (c : Config K V) (st : State K V) (k : K) : Prop where
  current : st.currentUserKey = some k
  clear : st.clearAndOutputNextKey = false
  numbered : st.currentUserKeySequence ≠ kMaxSequenceNumber
  snapshot : st.currentUserKeySnapshot = c.earliestSnapshot
  absent : c.keyNotExistsBeyondOutputLevel k = true
  early : ∀ x ∈ entries st.input, x.userKey = k → x.sequence ≤ c.earliestSnapshot

omit [LinearOrder K] in
theorem Settled.hides (hset : Settled c st e.userKey) (hin : st.input = .entry e :: rest) :
    st.Hides c e := by
  have hle := hset.early e (by rw [hin]; exact List.mem_cons_self) rfl
  refine ⟨hset.current, ?_⟩
  rw [hset.snapshot, c.snapshots.visible_eq_earliest hle]
  exact le_rfl

theorem Settled.not_valid (h : Sortable c input) (hset : Settled c st e.userKey)
    (hin : st.input = .entry e :: rest) {r : Record K V} :
    ¬ Fate c st e rest (.valid st' r) := by
  have hle := hset.early e (by rw [hin]; exact List.mem_cons_self) rfl
  have hobs : c.Obsolete e := ⟨h.notIngestBehind, hle, hset.absent⟩
  have hhides := hset.hides hin
  intro hf
  cases hf with
  | cleared hclear hput =>
    rw [hset.clear] at hclear
    cases hclear
  | keptDelete hclear htype hfresh hobs hbottom => exact hfresh hset.numbered hhides
  | swapped hclear htype hfresh hearliest hbelow hrange => exact hfresh hset.numbered hhides
  | kept hclear htype hmerge hbottom hfresh hrange => exact hfresh hset.numbered hhides
  | single hclear htype hf =>
    cases hf with
    | keptForConflict next rest' hrest hkey hzero hstripe hsd hdel hconflict hearliest =>
      have hle' := hle.trans h.conflict
      omega
    | keptForSnapshot next rest' hrest hkey hzero hstripe =>
      exact hstripe (.inl (c.snapshots.previous_eq_zero hle))
    | kept hstands hzero hnot => exact hnot hobs

/-- The state behind `e`: its key is the current one, or gone from the input. -/
def Follows (c : Config K V) (e : Entry K V) (st : State K V) : Prop :=
  st.currentUserKey = some e.userKey ∧ st.clearAndOutputNextKey = false ∧
    st.currentUserKeySequence = e.sequence ∧
    st.currentUserKeySnapshot = c.snapshots.visible e.sequence

theorem Follows.settled (h : Sortable c input) (hsuf : st.input <:+ input)
    (hin : st.input = .entry e :: rest) (hfol : Follows c e st') (hrest : st'.input <:+ rest)
    (hle : e.sequence ≤ c.earliestSnapshot)
    (habsent : c.keyNotExistsBeyondOutputLevel e.userKey = true) :
    Settled c st' e.userKey := by
  obtain ⟨hcur, hclear, hseq, hsnap⟩ := hfol
  refine ⟨hcur, hclear, ?_, ?_, habsent, fun x hx hkey => ?_⟩
  · rw [hseq]
    exact (h.numbered e (mem_input hsuf hin)).ne
  · rw [hsnap]
    exact c.snapshots.visible_eq_earliest hle
  · exact ((behind h.ordered hsuf hin).2 x ((entries_suffix hrest).subset hx) hkey).le.trans hle

theorem seeing_follows (hclear : st.clearAndOutputNextKey = false) : Follows c e (st.seeing c e) :=
  ⟨seeing_currentUserKey c st e, (seeing_clear c st e).trans hclear, rfl, rfl⟩

theorem Fate.again_follows (h : Sortable c input) (hsuf : st.input <:+ input)
    (hin : st.input = .entry e :: rest) (hf : Fate c st e rest (.again st')) :
    Follows c e st' ∨ ∀ x ∈ entries st'.input, x.userKey ≠ e.userKey := by
  have hskip := skipSentinels_suffix e.userKey rest
  cases hf with
  | hidden hclear htype hhides => exact .inl (seeing_follows hclear)
  | deleted hclear htype hfresh hobs => exact .inl (seeing_follows hclear)
  | deletedStripe hclear htype hfresh hbottom hstands => exact .inl (seeing_follows hclear)
  | covered hclear htype hfresh hrange => exact .inl (seeing_follows hclear)
  | single hclear htype hf =>
    cases hf with
    | zeroed next rest' hrest hkey hzero => exact .inl (seeing_follows hclear)
    | doubled next rest' hrest hkey hzero hstripe htype => exact .inl (seeing_follows hclear)
    | pair next rest' hrest hkey hzero hstripe hsd hdel => exact .inl (seeing_follows hclear)
    | obsolete hstands hobs => exact .inr (not_mem_behind h.parses h.ordered hsuf hin hskip hstands)
    | lastZeroed hstands hzero =>
      exact .inr (not_mem_behind h.parses h.ordered hsuf hin hskip hstands)

/-! ### The loop -/

/-- What is written is in order, and what is to come follows it or is not written. -/
structure Ascends (c : Config K V) (input : List (Item K V)) (out : List (Entry K V))
    (st : State K V) : Prop where
  suffix : st.input <:+ input
  sorted : out.Pairwise KeyBefore
  bound : ∀ f ∈ out, ∀ x ∈ entries st.input,
    KeyBefore f x ∨ f.userKey = x.userKey ∧ Settled c st x.userKey

theorem Ascends.settled_head (hasc : Ascends c input out st) (h : Sortable c input)
    (hin : st.input = .entry e :: rest) (hf : f ∈ out) (hx : x ∈ entries rest)
    (hkey : f.userKey = x.userKey) : e.userKey = x.userKey := by
  have hle := behind_le h.ordered hasc.suffix hin hx
  rcases hasc.bound f hf e (by rw [hin]; exact List.mem_cons_self) with (hlt | ⟨heq, -⟩) | ⟨heq, -⟩
  · exact absurd (hlt.trans_le hle) (hkey ▸ lt_irrefl _)
  · exact heq.symm.trans hkey
  · exact heq.symm.trans hkey

theorem Fate.again_ascends (h : Sortable c input) (hasc : Ascends c input out st)
    (hin : st.input = .entry e :: rest) (hrest : st'.input <:+ rest)
    (hf : Fate c st e rest (.again st')) : Ascends c input out st' := by
  have hsuf : rest <:+ st.input := hin ▸ List.suffix_cons _ _
  refine ⟨(hrest.trans hsuf).trans hasc.suffix, hasc.sorted, fun f hmem x hx => ?_⟩
  have hx' : x ∈ entries rest := (entries_suffix hrest).subset hx
  rcases hasc.bound f hmem x ((entries_suffix hsuf).subset hx') with hbefore | ⟨hkey, hset⟩
  · exact .inl hbefore
  refine .inr ⟨hkey, ?_⟩
  rw [← hasc.settled_head h hin hmem hx' hkey] at hset ⊢
  rcases hf.again_follows h hasc.suffix hin with hfol | hgone
  · have hle := hset.early e (by rw [hin]; exact List.mem_cons_self) rfl
    exact hfol.settled h hasc.suffix hin hrest hle hset.absent
  · exact absurd (hasc.settled_head h hin hmem hx' hkey).symm (hgone x hx)

/-- What a pass returns for `e`, before `PrepareOutput`. -/
structure Emitted (c : Config K V) (e g : Entry K V) (st : State K V) : Prop where
  key : g.userKey = e.userKey
  below : g.sequence ≤ e.sequence
  swapped : g.sequence = e.sequence ∨ e.sequence ≤ c.earliestSnapshot ∧
    c.keyNotExistsBeyondOutputLevel e.userKey = true ∧ Follows c e st
  follows : g.type ≠ .deletion → g.type ≠ .singleDeletion → Follows c e st

omit [LinearOrder K] in
theorem Emitted.same (hfol : e.type ≠ .deletion → e.type ≠ .singleDeletion → Follows c e st) :
    Emitted c e e st :=
  ⟨rfl, le_rfl, .inl rfl, hfol⟩

theorem Fate.valid_emitted (h : Sortable c input) (hmem : e ∈ entries input) {r : Record K V}
    (hf : Fate c st e rest (.valid st' r)) :
    ∃ g context, r = .entry g context ∧ Emitted c e g st' := by
  cases hf with
  | cleared hclear hput =>
    refine ⟨_, _, rfl, rfl, le_rfl, .inl rfl, fun _ _ => ?_⟩
    exact ⟨seeing_currentUserKey c st e, rfl, rfl, rfl⟩
  | keptDelete hclear htype hfresh hobs hbottom =>
    exact ⟨e, _, rfl, .same fun hd _ => absurd htype hd⟩
  | kept hclear htype hmerge hbottom hfresh hrange =>
    exact ⟨e, _, rfl, .same fun _ _ => seeing_follows hclear⟩
  | swapped hclear htype hfresh hearliest hbelow hrange =>
    refine ⟨_, _, rfl, rfl, ?_, .inr ⟨hearliest, hbelow, seeing_follows hclear⟩,
      fun _ _ => seeing_follows hclear⟩
    dsimp only
    split
    · rcases h.preferred e hmem htype with h0 | hlt
      · contradiction
      · exact hlt.le
    · exact le_rfl
  | single hclear htype hf =>
    have hsame : ∀ st', Emitted c e e st' := fun st' => .same fun _ hsd => absurd htype hsd
    cases hf with
    | keptForConflict => exact ⟨e, _, rfl, hsame _⟩
    | keptForSnapshot => exact ⟨e, _, rfl, hsame _⟩
    | kept => exact ⟨e, _, rfl, hsame _⟩

/-! ### A whole run -/

/-- The place of the version `e` that is being returned. -/
structure Placed (c : Config K V) (input : List (Item K V)) (out : List (Entry K V))
    (e : Entry K V) (st : State K V) : Prop where
  sorted : out.Pairwise KeyBefore
  before : ∀ f ∈ out, KeyBefore f e
  suffix : st.pending <:+ input
  after : ∀ x ∈ entries st.pending, KeyBefore e x
  settles : Follows c e st → e.sequence ≤ c.earliestSnapshot →
    c.keyNotExistsBeyondOutputLevel e.userKey = true →
    Settled c { st with input := st.pending } e.userKey

theorem Placed.ascends (hp : Placed c input out e st) (hkey : f.userKey = e.userKey)
    (hle : f.sequence ≤ e.sequence)
    (hset : f.sequence = e.sequence ∨ Settled c { st with input := st.pending } e.userKey) :
    Ascends c input (out ++ [f]) { st with input := st.pending } := by
  refine ⟨hp.suffix, ?_, fun f' hf' x hx => ?_⟩
  · refine List.pairwise_append.mpr ⟨hp.sorted, List.pairwise_singleton _ _, ?_⟩
    intro f' hf' g hg
    rw [List.mem_singleton.mp hg]
    rcases hp.before f' hf' with hlt | ⟨heq, hseq⟩
    · exact .inl (hkey ▸ hlt)
    · exact .inr ⟨heq.trans hkey.symm, by omega⟩
  · have hex := hp.after x hx
    rcases List.mem_append.mp hf' with hf' | hf'
    · exact .inl ((hp.before f' hf').trans hex)
    · rw [List.mem_singleton.mp hf']
      rcases hex with hlt | ⟨heq, hseq⟩
      · exact .inl (.inl (hkey ▸ hlt))
      · rcases hset with hsame | hset
        · exact .inl (.inr ⟨hkey.trans heq, hsame ▸ hseq⟩)
        · exact .inr ⟨hkey.trans heq, heq ▸ hset⟩

/-- What `NextFromInput` returns when `out` is written. -/
def Finds (c : Config K V) (input : List (Item K V)) (out : List (Entry K V)) :
    Outcome K V → Prop
  | .record st (.entry g _) => ∃ e, Emitted c e g st ∧ Placed c input out e st
  | .record st (.rangeDeletion _ _) => Ascends c input out { st with input := st.pending }
  | _ => out.Pairwise KeyBefore

/-- What `SeekToFirst` and `Next` leave when `out` is written. -/
def Orders (c : Config K V) (input : List (Item K V)) (out : List (Entry K V)) :
    Outcome K V → Prop
  | .record st r => Ascends c input (out ++ r.entry?.toList) { st with input := st.pending }
  | _ => out.Pairwise KeyBefore

theorem pass_finds (h : Sortable c input) (hasc : Ascends c input out st)
    (hat : st.atNext = false) {item : Item K V} (hin : st.input = item :: rest) :
    (pass c st item rest).Leaves (fun st => Ascends c input out st ∧ st.atNext = false)
      (Finds c input out) := by
  have hsuf : rest <:+ st.input := hin ▸ List.suffix_cons _ _
  have hcons := pass_consumes c hin
  cases item with
  | rangeDelSentinel k' seq =>
    change Ascends c input out { st with input := st.pending }
    rw [State.pending_of_not_atNext hat hin]
    refine ⟨hsuf.trans hasc.suffix, hasc.sorted, fun f hf x hx => ?_⟩
    have hsub := (entries_suffix hsuf).subset
    refine (hasc.bound f hf x (hsub hx)).imp_right fun hset => ⟨hset.1, ?_⟩
    exact ⟨hset.2.current, hset.2.clear, hset.2.numbered, hset.2.snapshot, hset.2.absent,
      fun y hy => hset.2.early y (hsub hy)⟩
  | corrupt message => exact hasc.sorted
  | entry e =>
    have hfate := passEntry_fate c st e rest
    change (passEntry c st e rest).Consumes rest st.atNext at hcons
    change (passEntry c st e rest).Leaves _ _
    cases hpass : passEntry c st e rest with
    | failed status => exact hasc.sorted
    | again st' =>
      rw [hpass] at hfate hcons
      exact ⟨hfate.again_ascends h hasc hin hcons.1, hcons.2.trans hat⟩
    | valid st' r =>
      rw [hpass] at hfate hcons
      have hpend := hcons hat
      obtain ⟨g, context, rfl, hemit⟩ := hfate.valid_emitted h (mem_input hasc.suffix hin)
      refine ⟨e, hemit, hasc.sorted, fun f hf => ?_, (hpend.trans hsuf).trans hasc.suffix,
        fun x hx => ?_, fun hfol hle habsent => ?_⟩
      · rcases hasc.bound f hf e (by rw [hin]; exact List.mem_cons_self) with hb | ⟨-, hset⟩
        · exact hb
        · exact absurd hfate (hset.not_valid h hin)
      · exact h.keyBefore hasc.suffix hin ((entries_suffix hpend).subset hx)
      · have hfol' : Follows c e { st' with input := st'.pending } := hfol
        exact hfol'.settled h hasc.suffix hin hpend hle habsent

/-- Only `current_user_key_` and its numbers matter. -/
theorem Ascends.flags (hasc : Ascends c input out st) (outputted zeroed ahead : Bool) :
    Ascends c input out { st with
      hasOutputtedKey := outputted, lastKeySeqZeroed := zeroed, atNext := ahead } := by
  refine ⟨hasc.suffix, hasc.sorted, fun f hf x hx => ?_⟩
  refine (hasc.bound f hf x hx).imp_right fun hset => ⟨hset.1, ?_⟩
  exact ⟨hset.2.current, hset.2.clear, hset.2.numbered, hset.2.snapshot, hset.2.absent,
    hset.2.early⟩

theorem prepareOutput_orders {r : Record K V} (hfind : Finds c input out (.record st r)) :
    Orders c input out (prepareOutput c st r) := by
  cases r with
  | rangeDeletion k' seq =>
    have hasc : Ascends c input out { st with input := st.pending } := hfind
    simpa [Orders, prepareOutput, Record.entry?] using hasc
  | entry g context =>
    obtain ⟨e, hemit, hplaced⟩ := hfind
    unfold prepareOutput
    dsimp only
    split
    · exact hplaced.sorted
    split
    · next hzero =>
      split
      · exact hplaced.sorted
      next htype =>
      push Not at htype
      -- cleared to 0: the key is settled
      have hearly : e.sequence ≤ c.earliestSnapshot := by
        rcases hemit.swapped with hsame | ⟨hle, -⟩
        · exact hsame ▸ hzero.2.1
        · exact hle
      have habsent : c.keyNotExistsBeyondOutputLevel e.userKey = true := by
        have hbottom := hzero.1
        simp only [Config.bottommostLevel, Bool.and_eq_true] at hbottom
        simp [Config.keyNotExistsBeyondOutputLevel, hbottom.1]
      have hset := hplaced.settles (hemit.follows htype.1 htype.2) hearly habsent
      exact (hplaced.ascends (f := { g with sequence := 0 }) hemit.key (Nat.zero_le _)
        (.inr hset)).flags st.hasOutputtedKey true st.atNext
    · refine hplaced.ascends hemit.key hemit.below ?_
      exact hemit.swapped.imp_right fun hsw => hplaced.settles hsw.2.2 hsw.1 hsw.2.1

theorem nextFromInput_finds (h : Sortable c input) (hasc : Ascends c input out st)
    (hat : st.atNext = false) : Finds c input out (nextFromInput c st) :=
  nextFromInput_rule (fun _ hst _ => hst.1.sorted)
    (fun _ _ _ hst hin => pass_finds h hst.1 hst.2 hin) ⟨hasc, hat⟩

theorem Finds.outputted {r : Record K V} (hfind : Finds c input out (.record st r)) :
    Finds c input out (.record { st with hasOutputtedKey := true } r) := by
  cases r with
  | rangeDeletion k' seq =>
    have hasc : Ascends c input out { st with input := st.pending } := hfind
    exact hasc.flags true st.lastKeySeqZeroed st.atNext
  | entry g context =>
    obtain ⟨e, hemit, hplaced⟩ := hfind
    refine ⟨e, ⟨hemit.key, hemit.below, hemit.swapped, hemit.follows⟩, ?_⟩
    refine ⟨hplaced.sorted, hplaced.before, hplaced.suffix, hplaced.after, fun hfol hle hab => ?_⟩
    have hset := hplaced.settles hfol hle hab
    exact ⟨hset.current, hset.clear, hset.numbered, hset.snapshot, hset.absent, hset.early⟩

theorem Ascends.init (c : Config K V) (input : List (Item K V)) :
    Ascends c input [] (State.init input) :=
  ⟨List.suffix_rfl, .nil, by simp⟩

theorem written_sorted (h : Sortable c input) :
    (written (compact c input).records).Pairwise KeyBefore := by
  refine compact_rule (A := fun out o => Orders c input (written out) o)
    (Q := fun out _ => (written out).Pairwise KeyBefore) ?_ ?_ ?_ ?_
  · exact fun out hout => hout
  · exact fun out s hout => hout
  · intro out st r hasc
    rw [written_concat]
    have hstart := Ascends.flags hasc st.hasOutputtedKey st.lastKeySeqZeroed false
    exact Outcome.bind_rule (P := Finds c input _) (Q := Orders c input _) id (fun _ => id)
      (fun _ _ hfind => prepareOutput_orders hfind.outputted) (nextFromInput_finds h hstart rfl)
  · exact Outcome.bind_rule (P := Finds c input []) (Q := Orders c input []) id (fun _ => id)
      (fun _ _ => prepareOutput_orders) (nextFromInput_finds h (Ascends.init c input) rfl)

/-- A job of a database that files are not ingested behind hands its keys to the table
builder in strictly ascending internal key order. -/
theorem compact_ascending (c : Config K V) (input : List (Item K V)) (h : Sortable c input) :
    (written (compact c input).records).Pairwise KeyBefore :=
  written_sorted h

theorem sample_sortable : Sortable sampleConfig sampleInput := sample_admissible.sortable rfl

theorem compact_ascending_sample :
    (written (compact sampleConfig sampleInput).records).Pairwise KeyBefore :=
  compact_ascending sampleConfig sampleInput sample_sortable

/-! ### What readers find in the result -/

/-- No snapshot and no later reader can tell the written versions and tombstones from the
input, whatever the levels below hold; and the written version that answers is the one with
the largest sequence number. -/
theorem compact_reads (c : Config K V) (input : List (Item K V)) (below : List (Entry K V))
    (h : Admissible c input below) (hbehind : c.allowIngestBehind = false) (k : K) (s : ℕ)
    (hs : c.Reader input s) :
    (versions c c.keptRangeDels).read k s (written (compact c input).records ++ below) =
      (versions c c.rangeDels).read k s (entries input ++ below) ∧
    ∀ x, (versions c c.keptRangeDels).newest k s (written (compact c input).records) = some x →
      ∀ y ∈ written (compact c input).records,
        (versions c c.keptRangeDels).Visible k s y → y.sequence ≤ x.sequence := by
  obtain ⟨-, raw, hdone, hall⟩ := compact_written h
  refine ⟨by rw [hdone.reads_written h hall hs, hdone.reads k s hs], fun x hx y hy hvis => ?_⟩
  refine Versions.newest_stamp_le ?_ hx hy hvis
  refine (written_sorted (h.sortable hbehind)).imp fun {f g} hbefore hkey => ?_
  rcases hbefore with hlt | ⟨-, hseq⟩
  · exact absurd hkey hlt.ne
  · exact hseq.le

theorem compact_reads_sample :
    (versions sampleConfig sampleConfig.keptRangeDels).read 2 5
        (written (compact sampleConfig sampleInput).records ++ sampleBelow) =
      (versions sampleConfig sampleConfig.rangeDels).read 2 5
        (entries sampleInput ++ sampleBelow) :=
  (compact_reads sampleConfig sampleInput sampleBelow sample_admissible rfl 2 5
    (.inl (by decide))).1

-- where files are ingested behind, a preferred number can fall behind a single deletion
example : (written (compact { sampleConfig with
      allowIngestBehind := true
      snapshots := ⟨[12], by decide, by decide, by decide⟩
      parsePackedValueWithSeqno := fun v => (v, 2) }
    [.entry ⟨1, 10, .valuePreferredSeqno, 7⟩, .entry ⟨1, 5, .singleDeletion, 0⟩]).records).map
      (fun e => (e.sequence, e.type)) = [(2, .value), (5, .singleDeletion)] := by
  decide +kernel

end PnmCompaction.Compaction

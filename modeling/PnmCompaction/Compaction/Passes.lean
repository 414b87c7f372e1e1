import PnmCompaction.Compaction.Preserve

/-!
# Every pass keeps the invariant

One lemma for each fate a version can have in `NextFromInput`
(db/compaction/compaction_iterator.cc 857-1370). A pass never fails on an admissible input.
-/

namespace PnmCompaction.Compaction

open Lib (Versions)

variable {K V : Type*} [LinearOrder K] {c : Config K V} {input : List (Item K V)}
  {below raw : List (Entry K V)} {st : State K V} {e x : Entry K V} {rest : List (Item K V)}
  {k : K} {s : ℕ}

/-! ### Versions that say nothing -/

theorem answer_eq_none (T : List (Tombstone K)) (s : ℕ) (h : e.payload c = none) :
    (versions c T).answer e s = none := by
  simp only [versions]
  rw [h]
  split <;> rfl

omit [LinearOrder K] in
theorem payload_singleDeletion (h : e.type = .singleDeletion) : e.payload c = none := by
  simp [Entry.payload, h]

omit [LinearOrder K] in
theorem payload_deletion (h : e.type = .deletion) : e.payload c = none := by
  simp [Entry.payload, h]

/-- The tombstone `ShouldDelete` found hides the version and all older ones of the key from
every reader that sees the version. -/
theorem answer_of_shouldDelete (h : Admissible c input below)
    (hrange : c.shouldDelete e.userKey e.sequence = true) (hs : c.Reader input s)
    (hle : e.sequence ≤ s) (hkey : x.userKey = e.userKey) (holder : x.sequence ≤ e.sequence) :
    (versions c c.rangeDels).answer x s = none := by
  simp only [Config.shouldDelete, List.any_eq_true, Bool.and_eq_true, decide_eq_true_eq] at hrange
  obtain ⟨t, ht, ⟨hcov, hlt⟩, heq⟩ := hrange
  have hts : t.sequence ≤ s := by
    rcases hs with hs | ⟨-, hs⟩
    · exact c.snapshots.le_of_visible_eq heq.symm (h.rangeNumbered t ht) hs hle
    · exact hs t ht
  have hcovered : coveredBy c.rangeDels x s = true := by
    simp only [coveredBy, List.any_eq_true, Bool.and_eq_true, decide_eq_true_eq]
    exact ⟨t, ht, ⟨hkey ▸ hcov, by omega⟩, hts⟩
  simp [versions, hcovered]

/-! ### Nothing is left to say -/

theorem mem_survivors {l : List (Entry K V)} (hx : x ∈ survivors c st l) :
    x ∈ l ∧ ¬ st.Dooms c x := by
  rw [survivors, List.mem_filter] at hx
  exact ⟨hx.1, by simpa using hx.2⟩

theorem silent_of_obsolete (h : Admissible c input below) (hsuf : st.input <:+ input)
    (hin : st.input = .entry e :: rest) (hobs : c.Obsolete e) (s : ℕ) :
    (versions c c.rangeDels).read e.userKey s
      (survivors c (st.seeing c e) (entries rest) ++ below) = none := by
  have hmem := mem_input hsuf hin
  refine Versions.read_eq_none fun x hx hvis => ?_
  have hkey : x.userKey = e.userKey := hvis.1
  rcases List.mem_append.mp hx with hx | hx
  · obtain ⟨hx, hkept⟩ := mem_survivors hx
    have hlt := (behind h.ordered hsuf hin).2 x hx hkey
    have hsame : c.snapshots.visible x.sequence = c.snapshots.visible e.sequence := by
      rw [c.snapshots.visible_eq_earliest hobs.2.1,
        c.snapshots.visible_eq_earliest (hlt.le.trans hobs.2.1)]
    -- every version left in the earliest stripe is doomed, unless it is a single deletion
    have htype : x.type = .singleDeletion := by
      by_contra hne
      exact hkept (seeing_dooms_iff.mpr ⟨⟨hkey, hsame.ge⟩, hne⟩)
    exact answer_eq_none _ _ (payload_singleDeletion htype)
  · exact absurd hkey (h.absent e hmem hobs.2.2 x hx)

theorem silent_of_covered (h : Admissible c input below) (hsuf : st.input <:+ input)
    (hin : st.input = .entry e :: rest)
    (hrange : c.shouldDelete e.userKey e.sequence = true) (hs : c.Reader input s)
    (hle : e.sequence ≤ s) :
    (versions c c.rangeDels).read e.userKey s
      (survivors c (st.seeing c e) (entries rest) ++ below) = none := by
  refine Versions.read_eq_none fun x hx hvis => ?_
  have hkey : x.userKey = e.userKey := hvis.1
  refine answer_of_shouldDelete h hrange hs hle hkey ?_
  rcases List.mem_append.mp hx with hx | hx
  · exact ((behind h.ordered hsuf hin).2 x (mem_survivors hx).1 hkey).le
  · exact (h.older e (mem_input hsuf hin) x hx hkey).le

/-- A single deletion is never doomed, so it stays the newest version left. -/
theorem head_survivors (c : Config K V) (st : State K V) {l : List (Entry K V)}
    (hhead : ∀ u ∈ (versionsOf k (l ++ below)).head?, u.type = .singleDeletion) :
    ∀ u ∈ (versionsOf k (survivors c st l ++ below)).head?, u.type = .singleDeletion := by
  have hcomm : versionsOf k (survivors c st l) = survivors c st (versionsOf k l) := by
    rw [versionsOf, survivors, survivors, versionsOf, List.filter_comm]
  rw [versionsOf, List.filter_append, ← versionsOf, ← versionsOf] at hhead ⊢
  rw [hcomm]
  cases hl : versionsOf k l with
  | nil => rwa [hl] at hhead
  | cons v vs =>
    rw [hl] at hhead
    have hv : v.type = .singleDeletion := hhead v rfl
    have hkeep : ¬ st.Dooms c v := fun hd => hd.2 hv
    rw [survivors, List.filter_cons_of_pos (by simp [hkeep])]
    intro u hu
    cases hu
    exact hv

theorem silent_of_head (h : Admissible c input below) (hsuf : st.input <:+ input)
    (hin : st.input = .entry e :: rest) {l : List (Entry K V)} (hl : l ⊆ entries rest)
    (hhead : ∀ u ∈ (versionsOf e.userKey (l ++ below)).head?, u.type = .singleDeletion)
    (hle : e.sequence ≤ s) :
    (versions c c.rangeDels).read e.userKey s (survivors c (st.seeing c e) l ++ below) = none := by
  have hall : ∀ x ∈ survivors c (st.seeing c e) l ++ below,
      x.userKey = e.userKey → x.sequence ≤ s := by
    intro x hx hkey
    rcases List.mem_append.mp hx with hx | hx
    · exact ((behind h.ordered hsuf hin).2 x (hl (mem_survivors hx).1) hkey).le.trans hle
    · exact (h.older e (mem_input hsuf hin) x hx hkey).le.trans hle
  rw [Versions.read_eq_head hall]
  have hleft := head_survivors c (st.seeing c e) hhead
  change ((versionsOf e.userKey (survivors c (st.seeing c e) l ++ below)).head?).bind
    (fun x => (versions c c.rangeDels).answer x s) = none
  cases hh : (versionsOf e.userKey (survivors c (st.seeing c e) l ++ below)).head? with
  | none => rfl
  | some u => exact answer_eq_none c.rangeDels s (payload_singleDeletion (hleft u hh))

/-- What the contract says of the version behind a single deletion. -/
theorem contract_next (h : Admissible c input below) (hsuf : st.input <:+ input)
    (hin : st.input = .entry e :: rest) (htype : e.type = .singleDeletion) {next : Entry K V}
    {tail : List (Entry K V)} (hrest : entries rest = next :: tail)
    (hkey : next.userKey = e.userKey) :
    next.type = .singleDeletion ∨ next.type.isPut = true ∧
      ∀ u ∈ (versionsOf e.userKey (tail ++ below)).head?, u.type = .singleDeletion := by
  have hsuffix : entries st.input ++ below <:+ entries input ++ below := by
    obtain ⟨pre, hpre⟩ := entries_suffix hsuf
    exact ⟨pre, by rw [← List.append_assoc, hpre]⟩
  have hmatch := singleDeletesMatch_suffix (h.contract e.userKey)
    ((hsuffix.filter _).map Entry.type)
  rw [hin, entries_entry, hrest, List.cons_append, List.cons_append,
    List.filter_cons_of_pos (by simp), List.filter_cons_of_pos (by simpa using hkey),
    List.map_cons, List.map_cons, htype] at hmatch
  refine hmatch.1.imp_right fun hput => ⟨hput.1, fun u hu => ?_⟩
  refine hput.2 u.type ?_
  rw [versionsOf] at hu
  rw [List.head?_map, hu]
  rfl

/-! ### Passes that drop the version -/

theorem Inv.not_hides (hinv : Inv c input below raw st)
    (hfresh : st.currentUserKeySequence ≠ kMaxSequenceNumber → ¬ st.Hides c e) :
    ¬ st.Dooms c e := by
  rintro ⟨hhides, -⟩
  exact hfresh (hinv.current _ hhides.1).1.ne hhides

theorem Inv.reads_hidden (h : Admissible c input below) (hinv : Inv c input below raw st)
    (hin : st.input = .entry e :: rest) (hdoom : st.Dooms c e) (k : K)
    (hs : c.Reader input s) :
    (versions c c.rangeDels).read k s
        (raw ++ (survivors c (st.seeing c e) (entries rest) ++ below)) =
      (versions c c.rangeDels).read k s (entries input ++ below) := by
  have hsame : survivors c (st.seeing c e) (entries rest) = survivors c st (entries rest) := by
    refine List.filter_congr fun x hx => ?_
    have hiff : (st.seeing c e).Dooms c x ↔ st.Dooms c x := by
      refine ⟨fun hd => ?_, hinv.dooms_seeing h hin hx⟩
      obtain ⟨⟨hkey, hle⟩, htype⟩ := seeing_dooms_iff.mp hd
      exact ⟨⟨hdoom.1.1.trans (by rw [hkey]), hdoom.1.2.trans hle⟩, htype⟩
    simp [hiff]
  have hreads := hinv.reads k s hs
  rw [hin, entries_entry, survivors, List.filter_cons_of_neg (by simp [hdoom]),
    ← survivors] at hreads
  rw [hsame]
  exact hreads

/-- The pass goes on behind the version with what was kept so far. -/
theorem Inv.dropped (h : Admissible c input below) (hinv : Inv c input below raw st)
    (hin : st.input = .entry e :: rest) (hclear : st.clearAndOutputNextKey = false)
    {l : List (Item K V)} (hsuf : l <:+ rest)
    (hreads : ∀ k s, c.Reader input s → (versions c c.rangeDels).read k s
        (raw ++ (survivors c (st.seeing c e) (entries l) ++ below)) =
      (versions c c.rangeDels).read k s (entries input ++ below)) :
    Inv c input below raw { st.seeing c e with input := l } := by
  refine hinv.advance h hin rfl hsuf (seeing_currentUserKey c st e) rfl rfl rfl ?_
    (List.Subset.refl _) hinv.uncovered hreads
  intro hc
  exact absurd ((seeing_clear c st e).symm.trans hc) (by simp [hclear])

theorem skipSentinels_entry {next : Entry K V} {l : List (Item K V)}
    (hrest : skipSentinels e.userKey rest = .entry next :: l) :
    l <:+ rest ∧ entries rest = next :: entries l := by
  have hsuf := skipSentinels_suffix e.userKey rest
  have hent := entries_skipSentinels e.userKey rest
  rw [hrest] at hsuf hent
  exact ⟨(List.suffix_cons _ _).trans hsuf, hent.symm⟩

theorem together_iff (h : Admissible c input below) (hsuf : st.input <:+ input)
    (hin : st.input = .entry e :: rest) (hx : x ∈ entries rest)
    (hkey : x.userKey = e.userKey) :
    c.Together e x ↔ c.snapshots.visible x.sequence = c.snapshots.visible e.sequence :=
  c.snapshots.sameStripe_iff ((behind h.ordered hsuf hin).2 x hx hkey).le
    (h.numbered e (mem_input hsuf hin)).le

/-- The version a single deletion is matched with is doomed by it. -/
theorem survivors_pair (h : Admissible c input below) (hsuf : st.input <:+ input)
    (hin : st.input = .entry e :: rest) {next : Entry K V} {tail : List (Entry K V)}
    (hrest : entries rest = next :: tail) (hkey : next.userKey = e.userKey)
    (hstripe : c.Together e next) (hsd : next.type ≠ .singleDeletion) :
    (st.seeing c e).Dooms c next ∧
      survivors c (st.seeing c e) (entries rest) = survivors c (st.seeing c e) tail := by
  have hmem : next ∈ entries rest := hrest ▸ List.mem_cons_self
  have heq := (together_iff h hsuf hin hmem hkey).mp hstripe
  have hdoom : (st.seeing c e).Dooms c next :=
    seeing_dooms_iff.mpr ⟨⟨hkey, heq.ge⟩, hsd⟩
  refine ⟨hdoom, ?_⟩
  rw [hrest, survivors, List.filter_cons_of_neg (by simp [hdoom])]
  rfl

/-- Nothing of the key is behind a single deletion that found no version to match. -/
theorem not_mem_behind (hparses : ∀ item ∈ input, item.userKey? ≠ none)
    (hord : input.Pairwise Item.Before) (hsuf : st.input <:+ input)
    (hin : st.input = .entry e :: rest) {l : List (Item K V)} (hl : l <:+ rest)
    (hstands : standsAt e.userKey l = false) : ∀ x ∈ entries l, x.userKey ≠ e.userKey := by
  have hlin : l <:+ input :=
    hl.trans ((hin ▸ List.suffix_cons _ _ : rest <:+ st.input).trans hsuf)
  refine not_mem_entries_of_not_standsAt (fun item hi => hparses item (hlin.subset hi))
    (hord.sublist hlin.sublist) ?_ hstands
  exact fun item hi => (behind hord hsuf hin).1 item (hl.subset hi)

theorem SingleFate.again_inv (h : Admissible c input below) (hinv : Inv c input below raw st)
    (hin : st.input = .entry e :: rest) (hclear : st.clearAndOutputNextKey = false)
    (htype : e.type = .singleDeletion) {st' : State K V}
    (hf : SingleFate c (st.seeing c e) e (skipSentinels e.userKey rest) (.again st')) :
    Inv c input below raw st' := by
  have hkeep : ¬ st.Dooms c e := fun hd => hd.2 htype
  have hnone : ∀ s, (versions c c.rangeDels).answer e s = none :=
    fun s => answer_eq_none _ s (payload_singleDeletion htype)
  have hskip := skipSentinels_suffix e.userKey rest
  have hent := entries_skipSentinels e.userKey rest
  cases hf with
  | zeroed next rest' hrest hkey hzero =>
    obtain ⟨hsuf, heq⟩ := skipSentinels_entry hrest
    obtain ⟨a, ha, hak, hall⟩ := hinv.zeroed_seeing hzero
    refine hinv.dropped h hin hclear hsuf fun k s hs => ?_
    -- the version cleared to 0 stands in for both
    rw [← hinv.reads_drop h hin hkeep (fun s hs _ => .inl ⟨a, ha, hak, hall s hs⟩) k hs, heq]
    have hcons : survivors c (st.seeing c e) (next :: entries rest') =
        survivors c (st.seeing c e) [next] ++ survivors c (st.seeing c e) (entries rest') :=
      List.filter_append [next] (entries rest')
    rw [hcons, List.append_assoc]
    refine Versions.read_append_hidden (fun x hx hvis => ?_) _
    have hx : x = next := List.mem_singleton.mp (mem_survivors hx).1
    exact ⟨a, ha, hak.trans (hkey.symm.trans (hx ▸ hvis.1)), hall s hs⟩
  | doubled next rest' hrest hkey hzero hstripe hbad =>
    obtain ⟨hsuf, heq⟩ := skipSentinels_entry hrest
    have hsd : next.type = .singleDeletion := by
      rcases hbad with hsd | ⟨hdel, -⟩
      · exact hsd
      · rcases contract_next h hinv.suffix hin htype heq hkey with hc | ⟨hput, -⟩
        · exact hc
        · simp [hdel, ValueType.isPut] at hput
    refine hinv.dropped h hin hclear hskip fun k s hs => ?_
    rw [hent]
    refine hinv.reads_drop h hin hkeep (fun s _ hle => .inr ⟨hnone s, ?_⟩) k hs
    refine silent_of_head h hinv.suffix hin (List.Subset.refl _) (fun u hu => ?_) hle
    rw [heq, List.cons_append, versionsOf, List.filter_cons_of_pos (by simpa using hkey)] at hu
    cases hu
    exact hsd
  | pair next rest' hrest hkey hzero hstripe hsd hdel =>
    obtain ⟨hsuf, heq⟩ := skipSentinels_entry hrest
    obtain ⟨-, hsurv⟩ := survivors_pair h hinv.suffix hin heq hkey hstripe hsd
    have hhead := (contract_next h hinv.suffix hin htype heq hkey).resolve_left hsd
    refine hinv.dropped h hin hclear hsuf fun k s hs => ?_
    rw [← hsurv]
    refine hinv.reads_drop h hin hkeep (fun s _ hle => .inr ⟨hnone s, ?_⟩) k hs
    rw [hsurv]
    refine silent_of_head h hinv.suffix hin ?_ hhead.2 hle
    rw [heq]
    exact List.subset_cons_self _ _
  | obsolete hstands hobs =>
    refine hinv.leave hin rfl hskip rfl ((seeing_clear c st e).trans hclear)
      (not_mem_behind h.parses h.ordered hinv.suffix hin hskip hstands) hinv.uncovered
      fun k s hs => ?_
    rw [hent]
    exact hinv.reads_drop h hin hkeep (fun s _ _ =>
      .inr ⟨hnone s, silent_of_obsolete h hinv.suffix hin hobs s⟩) k hs
  | lastZeroed hstands hzero =>
    obtain ⟨a, ha, hak, hall⟩ := hinv.zeroed_seeing hzero
    refine hinv.leave hin rfl hskip rfl ((seeing_clear c st e).trans hclear)
      (not_mem_behind h.parses h.ordered hinv.suffix hin hskip hstands) hinv.uncovered
      fun k s hs => ?_
    rw [hent]
    exact hinv.reads_drop h hin hkeep (fun s hs _ => .inl ⟨a, ha, hak, hall s hs⟩) k hs

/-- The versions a bottommost deletion skips are in its stripe. -/
theorem Inv.reads_skipStripe (h : Admissible c input below) (hinv : Inv c input below raw st)
    (hin : st.input = .entry e :: rest) (hkeep : ¬ st.Dooms c e) (k : K)
    (hs : c.Reader input s) :
    (versions c c.rangeDels).read k s (entries input ++ below) =
      (versions c c.rangeDels).read k s (raw ++ e :: (survivors c (st.seeing c e)
        (entries (skipStripe e.userKey (c.snapshots.previous e.sequence) rest)) ++ below)) := by
  obtain ⟨skipped, heq, hall⟩ :=
    entries_skipStripe e.userKey (c.snapshots.previous e.sequence) rest
  have hsplit : ∀ l, survivors c (st.seeing c e) (skipped ++ l) =
      survivors c (st.seeing c e) skipped ++ survivors c (st.seeing c e) l :=
    fun l => List.filter_append _ _
  rw [← hinv.reads_seeing h hin hkeep k hs, heq, hsplit, List.append_assoc,
    List.append_cons raw e (_ ++ (_ ++ below)), List.append_cons raw e (_ ++ below)]
  refine (Versions.read_append_hidden (fun x hx hvis => ⟨e, by simp, ?_⟩) _).symm
  have hx := (mem_survivors hx).1
  have hrest : x ∈ entries rest := heq ▸ List.mem_append_left _ hx
  have hstripe := (together_iff h hinv.suffix hin hrest (hall x hx).1).mp (hall x hx).2
  have hshadow := shadows_of_visible_eq h (mem_input hinv.suffix hin) (hall x hx).1.symm hstripe
  exact hshadow.visible hs hvis

theorem Fate.again_inv (h : Admissible c input below) (hinv : Inv c input below raw st)
    (hin : st.input = .entry e :: rest) {st' : State K V}
    (hf : Fate c st e rest (.again st')) : Inv c input below raw st' := by
  have hmem := mem_input hinv.suffix hin
  cases hf with
  | single hclear htype hf => exact hf.again_inv h hinv hin hclear htype
  | hidden hclear htype hhides =>
    exact hinv.dropped h hin hclear List.suffix_rfl fun k s hs =>
      hinv.reads_hidden h hin ⟨hhides, htype⟩ k hs
  | deleted hclear htype hfresh hobs =>
    refine hinv.dropped h hin hclear List.suffix_rfl fun k s hs => ?_
    refine hinv.reads_drop h hin (hinv.not_hides hfresh) (fun s _ _ => .inr ⟨?_, ?_⟩) k hs
    · exact answer_eq_none _ s (payload_deletion htype)
    · exact silent_of_obsolete h hinv.suffix hin hobs s
  | covered hclear htype hfresh hrange =>
    refine hinv.dropped h hin hclear List.suffix_rfl fun k s hs => ?_
    refine hinv.reads_drop h hin (hinv.not_hides hfresh) (fun s hs hle => .inr ⟨?_, ?_⟩) k hs
    · exact answer_of_shouldDelete h hrange hs hle rfl le_rfl
    · exact silent_of_covered h hinv.suffix hin hrange hs hle
  | deletedStripe hclear htype hfresh hbottom hstands =>
    have hsuf := skipStripe_suffix e.userKey (c.snapshots.previous e.sequence) rest
    have hgone := not_mem_behind h.parses h.ordered hinv.suffix hin hsuf hstands
    have habsent : ∀ x ∈ below, x.userKey ≠ e.userKey := by
      refine h.absent e hmem ?_
      simp only [Config.bottommostLevel, Bool.and_eq_true] at hbottom
      simp [Config.keyNotExistsBeyondOutputLevel, hbottom.1]
    refine hinv.dropped h hin hclear hsuf fun k s hs => ?_
    rw [hinv.reads_skipStripe h hin (hinv.not_hides hfresh) k hs]
    refine Versions.read_drop fun hvis => .inr ⟨?_, ?_⟩
    · exact answer_eq_none _ s (payload_deletion htype)
    · refine Versions.read_eq_none fun x hx hvx => ?_
      have hkey : x.userKey = e.userKey := hvx.1.trans hvis.1.symm
      rcases List.mem_append.mp hx with hx | hx
      · exact absurd hkey (hgone x (mem_survivors hx).1)
      · exact absurd hkey (habsent x hx)

/-! ### Passes that keep a version -/

/-- The record `a` is returned with the state `st'`; `Next` goes on with the input pending
then. `prepareOutput` may clear the number of `a` at the bottommost level. -/
structure Emits (c : Config K V) (input : List (Item K V)) (below raw : List (Entry K V))
    (st' : State K V) (a : Entry K V) : Prop where
  inv : Inv c input below (raw ++ [a]) { st' with input := st'.pending }
  key : ∀ k, st'.currentUserKey = some k → a.userKey = k
  seen : a.sequence ≤ c.earliestSnapshot → ∀ s, c.Reader input s → a.sequence ≤ s
  zeroable : c.bottommostLevel = true → a.sequence ≤ c.earliestSnapshot →
    a.type ≠ .deletion ∧ a.type ≠ .singleDeletion
  entity : a.type = .wideColumnEntity → c.deserializeV2 a.value = .ok

theorem Uncovered.concat {a : Entry K V} (h : Uncovered c input raw)
    (ha : a.payload c ≠ none → c.shouldDelete a.userKey a.sequence = false ∨
      ∃ b ∈ raw, Shadows c input b a) : Uncovered c input (raw ++ [a]) := by
  intro pre y post heq hy
  rcases List.eq_nil_or_concat post with rfl | ⟨post', z, rfl⟩
  · obtain ⟨rfl, hlast⟩ := List.append_inj' heq rfl
    cases hlast
    exact ha hy
  · rw [List.concat_eq_append, ← List.cons_append, ← List.append_assoc] at heq
    obtain ⟨rfl, -⟩ := List.append_inj' heq rfl
    exact h pre y post' rfl hy

theorem pending_seeing (hat : st.atNext = false) (hin : st.input = .entry e :: rest) :
    (st.seeing c e).pending = rest := by
  obtain ⟨hseen, hseenAt⟩ := st.seeing_input c e
  exact State.pending_of_not_atNext (hseenAt.trans hat) (hseen.trans hin)

theorem not_clear_seeing (c : Config K V) (e : Entry K V)
    (hclear : st.clearAndOutputNextKey = false) {P : Prop}
    (hc : (st.seeing c e).clearAndOutputNextKey = true) : P :=
  absurd ((seeing_clear c st e).symm.trans hc) (by simp [hclear])

theorem SingleFate.valid_emits (h : Admissible c input below)
    (hinv : Inv c input below raw st) (hin : st.input = .entry e :: rest)
    (hclear : st.clearAndOutputNextKey = false) (htype : e.type = .singleDeletion)
    {st' : State K V} {r : Record K V}
    (hf : SingleFate c (st.seeing c e) e (skipSentinels e.userKey rest) (.valid st' r)) :
    ∃ context, r = .entry e context ∧ Emits c input below raw st' e := by
  have hkeep : ¬ st.Dooms c e := fun hd => hd.2 htype
  have hmem := mem_input hinv.suffix hin
  have hskip := skipSentinels_suffix e.userKey rest
  have hunc : Uncovered c input (raw ++ [e]) :=
    hinv.uncovered.concat fun hp => absurd (payload_singleDeletion htype) hp
  have hreads : ∀ k s, c.Reader input s → (versions c c.rangeDels).read k s ((raw ++ [e]) ++
      (survivors c (st.seeing c e) (entries (skipSentinels e.userKey rest)) ++ below)) =
      (versions c c.rangeDels).read k s (entries input ++ below) := by
    intro k s hs
    rw [entries_skipSentinels]
    exact hinv.reads_keep h hin hkeep rfl (fun s _ => ⟨Iff.rfl, rfl⟩) k hs
  have hseen : e.sequence ≤ c.earliestSnapshot → ∀ s, c.Reader input s → e.sequence ≤ s :=
    fun hle s hs => reader_of_le_earliest hs hmem hle
  have hent : e.type = .wideColumnEntity → c.deserializeV2 e.value = .ok := h.entities e hmem
  cases hf with
  | keptForConflict next rest' hrest hkey hzero hstripe hsd hdel hconflict hearliest =>
    obtain ⟨hsuf, heq⟩ := skipSentinels_entry hrest
    have hnext : next ∈ entries rest := heq ▸ List.mem_cons_self
    have hdoom := (survivors_pair h hinv.suffix hin heq hkey hstripe hsd).1
    refine ⟨_, rfl, ?_, ?_, hseen, ?_, hent⟩
    · refine hinv.advance h hin rfl hskip (seeing_currentUserKey c st e) rfl rfl rfl ?_
        (List.subset_append_left _ _) hunc hreads
      intro _
      exact ⟨next, rest', hrest, hdoom, hdel, e, by simp,
        seeing_dooms_shadows h hinv.suffix hin hnext hdoom⟩
    · intro k hk
      exact Option.some.inj ((seeing_currentUserKey c st e).symm.trans hk)
    · -- a single deletion kept for conflict checking is newer than the earliest snapshot
      intro _ hle
      have := h.conflict
      rcases this.lt_or_eq with hlt | heq
      · exact absurd hle (not_le.mpr (hearliest hlt))
      · exact absurd hle (not_le.mpr (heq ▸ hconflict))
  | keptForSnapshot next rest' hrest hkey hzero hstripe =>
    refine ⟨_, rfl, ?_, ?_, hseen, ?_, hent⟩
    · exact hinv.advance h hin rfl hskip (seeing_currentUserKey c st e) rfl rfl rfl
        (fun hc => not_clear_seeing c e hclear hc) (List.subset_append_left _ _) hunc hreads
    · intro k hk
      exact Option.some.inj ((seeing_currentUserKey c st e).symm.trans hk)
    · intro _ hle
      have hprev : c.snapshots.previous e.sequence ≠ 0 := fun h0 => hstripe (.inl h0)
      have hin := (c.snapshots.previous_mem e.sequence).resolve_left hprev
      have hlt := (c.snapshots.previous_lt e.sequence).resolve_left hprev
      exact absurd (hle.trans (c.snapshots.earliest_le hin)) (not_le.mpr hlt)
  | kept hstands hzero hobs =>
    refine ⟨_, rfl, ?_, ?_, hseen, ?_, hent⟩
    · exact hinv.leave hin rfl hskip rfl ((seeing_clear c st e).trans hclear)
        (not_mem_behind h.parses h.ordered hinv.suffix hin hskip hstands) hunc hreads
    · intro k hk
      cases hk
    · intro hbottom hle
      simp only [Config.bottommostLevel, Bool.and_eq_true, Bool.not_eq_true'] at hbottom
      refine absurd ⟨hbottom.2, hle, ?_⟩ hobs
      simp [Config.keyNotExistsBeyondOutputLevel, hbottom.1]

/-- A timed put with its preferred number swapped in. -/
def swap (c : Config K V) (e : Entry K V) : Entry K V :=
  { e with
    sequence := if e.sequence ≠ 0 then (c.parsePackedValueWithSeqno e.value).2 else e.sequence
    type := .value
    value := (c.parsePackedValueWithSeqno e.value).1 }

theorem swap_sequence (h : Admissible c input below) (hmem : e ∈ entries input)
    (htype : e.type = .valuePreferredSeqno) :
    (swap c e).sequence = min (c.parsePackedValueWithSeqno e.value).2 e.sequence := by
  simp only [swap]
  rcases h.preferred e hmem htype with h0 | hlt
  · simp [h0]
  · rw [if_pos (by omega), min_eq_left hlt.le]

/-- No reader notices the swap: tombstones between the two numbers are ruled out. -/
theorem swap_same (h : Admissible c input below) (hmem : e ∈ entries input)
    (htype : e.type = .valuePreferredSeqno) (hearliest : e.sequence ≤ c.earliestSnapshot)
    (hrange : c.shouldDelete e.userKey
      (min (c.parsePackedValueWithSeqno e.value).2 e.sequence) = false)
    (hs : c.Reader input s) :
    ((swap c e).sequence ≤ s ↔ e.sequence ≤ s) ∧
      (versions c c.rangeDels).answer (swap c e) s = (versions c c.rangeDels).answer e s := by
  have hseq := swap_sequence h hmem htype
  have hle : (swap c e).sequence ≤ e.sequence := hseq ▸ min_le_right _ _
  have hes := reader_of_le_earliest hs hmem hearliest
  refine ⟨⟨fun _ => hes, fun _ => hle.trans hes⟩, ?_⟩
  have hpay : (swap c e).payload c = e.payload c := by simp [swap, Entry.payload, htype]
  have hcov : coveredBy c.rangeDels (swap c e) s = coveredBy c.rangeDels e s := by
    rw [Bool.eq_iff_iff]
    simp only [coveredBy, List.any_eq_true, Bool.and_eq_true, decide_eq_true_eq]
    refine exists_congr fun t => and_congr_right fun ht => and_congr_left fun _ =>
      and_congr_right fun hc => ⟨fun hlt => ?_, fun hlt => by omega⟩
    by_contra hnot
    have hold : t.sequence ≤ c.earliestSnapshot := (not_lt.mp hnot).trans hearliest
    have hboth : c.snapshots.visible t.sequence = c.snapshots.visible (swap c e).sequence := by
      rw [c.snapshots.visible_eq_earliest hold,
        c.snapshots.visible_eq_earliest (hlt.le.trans hold)]
    have hdel : c.shouldDelete e.userKey (swap c e).sequence = true := by
      simp only [Config.shouldDelete, List.any_eq_true, Bool.and_eq_true, decide_eq_true_eq]
      exact ⟨t, ht, ⟨hc, hlt⟩, hboth⟩
    rw [hseq, hrange] at hdel
    cases hdel
  simp only [versions]
  rw [hpay, hcov]

theorem Fate.valid_emits (h : Admissible c input below) (hinv : Inv c input below raw st)
    (hat : st.atNext = false) (hin : st.input = .entry e :: rest) {st' : State K V}
    {r : Record K V} (hf : Fate c st e rest (.valid st' r)) :
    ∃ a context, r = .entry a context ∧ Emits c input below raw st' a := by
  have hmem := mem_input hinv.suffix hin
  have hseen : e.sequence ≤ c.earliestSnapshot → ∀ s, c.Reader input s → e.sequence ≤ s :=
    fun hle s hs => reader_of_le_earliest hs hmem hle
  have hcurrent : ∀ k, (st.seeing c e).currentUserKey = some k → e.userKey = k :=
    fun k hk => Option.some.inj ((seeing_currentUserKey c st e).symm.trans hk)
  have hpend := pending_seeing (c := c) hat hin
  cases hf with
  | single hclear htype hf =>
    obtain ⟨context, rfl, hemit⟩ := hf.valid_emits h hinv hin hclear htype
    exact ⟨e, context, rfl, hemit⟩
  | kept hclear htype hmerge hbottom hfresh hrange =>
    refine ⟨e, _, rfl, ?_, hcurrent, hseen, ?_, h.entities e hmem⟩
    · refine hinv.advance h hin hpend List.suffix_rfl (seeing_currentUserKey c st e) rfl rfl rfl
        (fun hc => not_clear_seeing c e hclear hc) (List.subset_append_left _ _)
        (hinv.uncovered.concat fun _ => .inl hrange) fun k s hs => ?_
      exact hinv.reads_keep h hin (hinv.not_hides hfresh) rfl (fun s _ => ⟨Iff.rfl, rfl⟩) k hs
    · exact fun hb _ => ⟨fun hd => hbottom ⟨hd, hb⟩, htype⟩
  | swapped hclear htype hfresh hearliest hbelow hrange =>
    have hseq := swap_sequence h hmem htype
    refine ⟨swap c e, _, rfl, ?_, hcurrent, ?_, ?_, ?_⟩
    · refine hinv.advance h hin hpend List.suffix_rfl (seeing_currentUserKey c st e) rfl rfl rfl
        (fun hc => not_clear_seeing c e hclear hc) (List.subset_append_left _ _)
        (hinv.uncovered.concat fun _ => .inl (hseq ▸ hrange)) fun k s hs => ?_
      exact hinv.reads_keep (a := swap c e) h hin (hinv.not_hides hfresh) rfl
        (fun s hs => swap_same h hmem htype hearliest hrange hs) k hs
    · exact fun _ s hs => (swap_same h hmem htype hearliest hrange hs).1.mpr (hseen hearliest s hs)
    · exact fun _ _ => ⟨by simp [swap], by simp [swap]⟩
    · intro hw
      simp [swap] at hw
  | keptDelete hclear htype hfresh hobs hbottom =>
    refine ⟨e, _, rfl, ?_, hcurrent, hseen, ?_, h.entities e hmem⟩
    · refine hinv.advance h hin rfl (skipStripe_suffix _ _ _) (seeing_currentUserKey c st e) rfl
        rfl rfl (fun hc => not_clear_seeing c e hclear hc) (List.subset_append_left _ _)
        (hinv.uncovered.concat fun hp => absurd (payload_deletion htype) hp) fun k s hs => ?_
      rw [← List.append_cons raw e (_ ++ below)]
      exact (hinv.reads_skipStripe h hin (hinv.not_hides hfresh) k hs).symm
    · intro _ hle
      simp only [Config.bottommostLevel, Bool.and_eq_true, Bool.not_eq_true'] at hbottom
      refine absurd ⟨hbottom.2, hle, ?_⟩ hobs
      simp [Config.keyNotExistsBeyondOutputLevel, hbottom.1]
  | cleared hclear hput =>
    obtain ⟨e', rest', hin', hdoom, hdel, b, hb, hshadow⟩ := hinv.clear hclear
    cases hin.symm.trans hin'
    refine ⟨{ e with type := .value, value := c.cleared }, _, rfl, ?_, hcurrent, hseen, ?_, ?_⟩
    · refine hinv.advance h hin ?_ List.suffix_rfl (seeing_currentUserKey c st e) rfl rfl rfl
        (fun hc => by cases hc) (List.subset_append_left _ _)
        (hinv.uncovered.concat fun _ => .inr ⟨b, hb, hshadow⟩) fun k s hs => ?_
      · exact hpend
      · rw [← hinv.reads_hidden h hin hdoom k hs, ← List.append_cons]
        refine (Versions.read_drop fun hvis => .inl ⟨b, hb, ?_⟩).symm
        exact ⟨hshadow.1.trans hvis.1, hshadow.2 s hs hvis.2⟩
    · exact fun _ _ => ⟨by simp, by simp⟩
    · intro hw
      cases hw

/-- The branches that stop the process or fail the job are out of reach. -/
theorem Fate.not_failed (h : Admissible c input below) (hinv : Inv c input below raw st)
    (hin : st.input = .entry e :: rest) {status : Status} :
    ¬ Fate c st e rest (.failed status) := by
  have hmem := mem_input hinv.suffix hin
  intro hf
  cases hf with
  | merge htype message => exact h.noMerge e hmem htype
  | unordered hcur hseq message =>
    have hlt := ((hinv.current _ hcur).2.2 e (by rw [hin]; exact List.mem_cons_self)).2 rfl
    omega
  | unexpected hclear hbad message =>
    obtain ⟨e', rest', hin', hdoom, hdel, -⟩ := hinv.clear hclear
    cases hin.symm.trans hin'
    rcases hbad with hput | hsnap
    · cases ht : e.type with
      | merge => exact h.noMerge e hmem ht
      | deletion => exact hdel ht
      | singleDeletion => exact hdoom.2 ht
      | _ => simp [ht, ValueType.isPut] at hput
    · rw [State.enter_of_current hdoom.1.1] at hsnap
      exact absurd hdoom.1.2 (not_le.mpr hsnap)
  | single hclear htype hf =>
    cases hf with
    | contract next rest' hrest hkey hdel =>
      obtain ⟨-, heq⟩ := skipSentinels_entry hrest
      rcases contract_next h hinv.suffix hin htype heq hkey with hsd | ⟨hput, -⟩
      · rw [hdel] at hsd
        cases hsd
      · simp [hdel, ValueType.isPut] at hput

end PnmCompaction.Compaction

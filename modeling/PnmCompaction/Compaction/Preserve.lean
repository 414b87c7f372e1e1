import PnmCompaction.Compaction.Reads

/-!
# A compaction keeps every read

The invariant of the loop: the versions kept so far, the ones still to come without those
that rule (A) (db/compaction/compaction_iterator.cc 1120-1151) will drop, and the levels
below answer every reader as the whole input does.
-/

namespace PnmCompaction.Compaction

variable {K V : Type*} [LinearOrder K]

/-- The versions still to come that the loop will drop by rule (A). -/
def State.Dooms (st : State K V) (c : Config K V) (x : Entry K V) : Prop :=
  st.Hides c x ∧ x.type ≠ .singleDeletion

instance (st : State K V) (c : Config K V) (x : Entry K V) : Decidable (st.Dooms c x) :=
  inferInstanceAs (Decidable ((st.currentUserKey = some x.userKey ∧
    st.currentUserKeySnapshot ≤ c.snapshots.visible x.sequence) ∧ x.type ≠ .singleDeletion))

def survivors (c : Config K V) (st : State K V) (l : List (Entry K V)) : List (Entry K V) :=
  l.filter fun x => !decide (st.Dooms c x)

/-- Every reader that sees `x` sees `a`, a version of the same key. -/
def Shadows (c : Config K V) (input : List (Item K V)) (a x : Entry K V) : Prop :=
  a.userKey = x.userKey ∧ ∀ s, c.Reader input s → x.sequence ≤ s → a.sequence ≤ s

/-- A kept version that says something is not covered in its stripe, unless it is never
looked at. -/
def Uncovered (c : Config K V) (input : List (Item K V)) (raw : List (Entry K V)) : Prop :=
  ∀ pre a post, raw = pre ++ a :: post → a.payload c ≠ none →
    c.shouldDelete a.userKey a.sequence = false ∨ ∃ b ∈ pre, Shadows c input b a

structure Inv (c : Config K V) (input : List (Item K V)) (below : List (Entry K V))
    (raw : List (Entry K V)) (st : State K V) : Prop where
  suffix : st.input <:+ input
  reads : ∀ k s, c.Reader input s →
    (versions c c.rangeDels).read k s (raw ++ (survivors c st (entries st.input) ++ below)) =
      (versions c c.rangeDels).read k s (entries input ++ below)
  current : ∀ k, st.currentUserKey = some k →
    st.currentUserKeySequence < kMaxSequenceNumber ∧
      st.currentUserKeySnapshot = c.snapshots.visible st.currentUserKeySequence ∧
      ∀ x ∈ entries st.input, k ≤ x.userKey ∧
        (x.userKey = k → x.sequence < st.currentUserKeySequence)
  zeroed : st.lastKeySeqZeroed = true → ∀ k, st.currentUserKey = some k →
    ∃ a ∈ raw, a.userKey = k ∧ ∀ s, c.Reader input s → a.sequence ≤ s
  clear : st.clearAndOutputNextKey = true → ∃ e rest, st.input = .entry e :: rest ∧
    st.Dooms c e ∧ e.type ≠ .deletion ∧ ∃ a ∈ raw, Shadows c input a e
  uncovered : Uncovered c input raw

section

variable {c : Config K V} {input : List (Item K V)} {below raw : List (Entry K V)}
  {st : State K V} {e x : Entry K V} {rest : List (Item K V)} {k : K} {s : ℕ}

/-! ### Readers and stripes -/

theorem Shadows.visible (h : Shadows c input e x) (hs : c.Reader input s)
    {T : List (Tombstone K)} (hvis : (versions c T).Visible k s x) :
    (versions c T).Visible k s e :=
  ⟨h.1.trans hvis.1, h.2 s hs hvis.2⟩

/-- A newer version in the same stripe. -/
theorem shadows_of_visible_eq (h : Admissible c input below) (he : e ∈ entries input)
    (hkey : e.userKey = x.userKey)
    (heq : c.snapshots.visible x.sequence = c.snapshots.visible e.sequence) :
    Shadows c input e x := by
  refine ⟨hkey, fun s hs hle => ?_⟩
  rcases hs with hs | ⟨hs, -⟩
  · exact c.snapshots.le_of_visible_eq heq (h.numbered e he).le hs hle
  · exact hs e he

omit [LinearOrder K] in
theorem reader_of_le_earliest (hs : c.Reader input s) (he : e ∈ entries input)
    (hle : e.sequence ≤ c.earliestSnapshot) : e.sequence ≤ s := by
  rcases hs with hs | ⟨hs, -⟩
  · exact hle.trans (c.snapshots.earliest_le hs)
  · exact hs e he

/-! ### The version at hand -/

omit [LinearOrder K] in
theorem mem_input (hsuf : st.input <:+ input) (hin : st.input = .entry e :: rest) :
    e ∈ entries input := by
  refine (entries_suffix hsuf).subset ?_
  rw [hin]
  exact List.mem_cons_self

theorem behind (hord : input.Pairwise Item.Before) (hsuf : st.input <:+ input)
    (hin : st.input = .entry e :: rest) :
    (∀ item ∈ rest, ∀ k' ∈ item.userKey?, e.userKey ≤ k') ∧
      ∀ x ∈ entries rest, x.userKey = e.userKey → x.sequence < e.sequence := by
  have hpair := hord.sublist hsuf.sublist
  rw [hin] at hpair
  obtain ⟨hhead, -⟩ := List.pairwise_cons.mp hpair
  refine ⟨fun item hitem => (hhead item hitem).1 e.userKey rfl, fun x hx hkey => ?_⟩
  exact (hhead _ (mem_entries.mp hx)).2 e x rfl rfl hkey.symm

theorem behind_le (hord : input.Pairwise Item.Before) (hsuf : st.input <:+ input)
    (hin : st.input = .entry e :: rest) (hx : x ∈ entries rest) : e.userKey ≤ x.userKey :=
  (behind hord hsuf hin).1 _ (mem_entries.mp hx) _ rfl

theorem seeing_currentUserKey (c : Config K V) (st : State K V) (e : Entry K V) :
    (st.seeing c e).currentUserKey = some e.userKey := by
  unfold State.seeing State.enter
  split
  · assumption
  · rfl

theorem seeing_dooms_iff : (st.seeing c e).Dooms c x ↔
    (x.userKey = e.userKey ∧
      c.snapshots.visible e.sequence ≤ c.snapshots.visible x.sequence) ∧
      x.type ≠ .singleDeletion := by
  rw [State.Dooms, State.Hides, seeing_currentUserKey, Option.some.injEq, eq_comm (a := e.userKey)]
  rfl

/-- What the version at hand dooms lies in its stripe. -/
theorem seeing_dooms_shadows (h : Admissible c input below) (hsuf : st.input <:+ input)
    (hin : st.input = .entry e :: rest) (hx : x ∈ entries rest)
    (hdoom : (st.seeing c e).Dooms c x) : Shadows c input e x := by
  obtain ⟨⟨hkey, hle⟩, -⟩ := seeing_dooms_iff.mp hdoom
  have hlt := (behind h.ordered hsuf hin).2 x hx hkey
  have hmem := mem_input hsuf hin
  have hmono := c.snapshots.visible_mono hlt.le (h.numbered e hmem).le
  exact shadows_of_visible_eq h hmem hkey.symm (hmono.antisymm hle)

/-- What the current key dooms behind `e`, the version at hand dooms as well. -/
theorem Inv.dooms_seeing (h : Admissible c input below) (hinv : Inv c input below raw st)
    (hin : st.input = .entry e :: rest) (hx : x ∈ entries rest) (hdoom : st.Dooms c x) :
    (st.seeing c e).Dooms c x := by
  obtain ⟨⟨hcur, hsnap⟩, htype⟩ := hdoom
  obtain ⟨-, hcsnap, hall⟩ := hinv.current _ hcur
  have he := hall e (by rw [hin]; exact List.mem_cons_self)
  have hle := behind_le h.ordered hinv.suffix hin hx
  have hkey : x.userKey = e.userKey := he.1.antisymm hle
  have hmem := mem_input hinv.suffix hin
  have hlt := (behind h.ordered hinv.suffix hin).2 x hx hkey
  refine seeing_dooms_iff.mpr ⟨⟨hkey, ?_⟩, htype⟩
  -- the version at hand is in the stripe of the current key, or older than it
  have hmono := c.snapshots.visible_mono (he.2 hkey.symm).le (hinv.current _ hcur).1.le
  exact (hmono.trans hcsnap.symm.le).trans hsnap

theorem Inv.survivors_seeing (h : Admissible c input below) (hinv : Inv c input below raw st)
    (hin : st.input = .entry e :: rest) :
    survivors c (st.seeing c e) (survivors c st (entries rest)) =
      survivors c (st.seeing c e) (entries rest) := by
  rw [survivors, survivors, survivors, List.filter_filter]
  refine List.filter_congr fun x hx => ?_
  by_cases hdoom : st.Dooms c x
  · simp [hdoom, hinv.dooms_seeing h hin hx hdoom]
  · simp [hdoom]

/-- Nothing changes for a reader when the versions in the stripe of the version at hand
are gone from behind it. -/
theorem Inv.reads_seeing (h : Admissible c input below) (hinv : Inv c input below raw st)
    (hin : st.input = .entry e :: rest) (hkeep : ¬ st.Dooms c e) (k : K)
    (hs : c.Reader input s) :
    (versions c c.rangeDels).read k s
        (raw ++ e :: (survivors c (st.seeing c e) (entries rest) ++ below)) =
      (versions c c.rangeDels).read k s (entries input ++ below) := by
  have hreads := hinv.reads k s hs
  rw [hin, entries_entry, survivors, List.filter_cons_of_pos (by simp [hkeep]), ← survivors,
    List.cons_append, List.append_cons] at hreads
  rw [← hreads, List.append_cons, ← hinv.survivors_seeing h hin]
  refine Lib.Versions.read_filter (fun x hx hdoom hvis => ?_) below
  have hx : x ∈ entries rest := List.mem_of_mem_filter hx
  have hdoom : (st.seeing c e).Dooms c x := by simpa using hdoom
  exact ⟨e, by simp, (seeing_dooms_shadows h hinv.suffix hin hx hdoom).visible hs hvis⟩

/-! ### The state after a version -/

@[simp]
theorem seeing_zeroed (hzero : (st.seeing c e).lastKeySeqZeroed = true) :
    st.currentUserKey = some e.userKey ∧ st.lastKeySeqZeroed = true := by
  unfold State.seeing State.enter at hzero
  split at hzero
  · next hcur => exact ⟨hcur, hzero⟩
  · cases hzero

theorem seeing_clear (c : Config K V) (st : State K V) (e : Entry K V) :
    (st.seeing c e).clearAndOutputNextKey = st.clearAndOutputNextKey := by
  unfold State.seeing State.enter
  split <;> rfl

theorem Inv.zeroed_seeing (hinv : Inv c input below raw st)
    (hzero : (st.seeing c e).lastKeySeqZeroed = true) :
    ∃ a ∈ raw, a.userKey = e.userKey ∧ ∀ s, c.Reader input s → a.sequence ≤ s := by
  obtain ⟨hcur, hz⟩ := seeing_zeroed hzero
  exact hinv.zeroed hz e.userKey hcur

/-- The invariant behind the version at hand, from what the readers find there. -/
theorem Inv.advance (h : Admissible c input below) (hinv : Inv c input below raw st)
    (hin : st.input = .entry e :: rest) {raw' : List (Entry K V)} {l : List (Item K V)}
    {st' : State K V} (hl : st'.input = l) (hsuf : l <:+ rest)
    (hcur : st'.currentUserKey = some e.userKey)
    (hseq : st'.currentUserKeySequence = e.sequence)
    (hsnap : st'.currentUserKeySnapshot = c.snapshots.visible e.sequence)
    (hzero : st'.lastKeySeqZeroed = (st.seeing c e).lastKeySeqZeroed)
    (hclear : st'.clearAndOutputNextKey = true → ∃ x rest', l = .entry x :: rest' ∧
      (st.seeing c e).Dooms c x ∧ x.type ≠ .deletion ∧ ∃ a ∈ raw', Shadows c input a x)
    (hraw : raw ⊆ raw') (hunc : Uncovered c input raw')
    (hreads : ∀ k s, c.Reader input s → (versions c c.rangeDels).read k s
        (raw' ++ (survivors c (st.seeing c e) (entries l) ++ below)) =
      (versions c c.rangeDels).read k s (entries input ++ below)) :
    Inv c input below raw' st' := by
  have hdooms : ∀ x, st'.Dooms c x ↔ (st.seeing c e).Dooms c x := by
    intro x
    rw [State.Dooms, State.Dooms, State.Hides, State.Hides, hcur, hsnap, seeing_currentUserKey]
    rfl
  have hsurv : survivors c st' = survivors c (st.seeing c e) := by
    funext m
    exact List.filter_congr fun x _ => by simp [hdooms x]
  have hmem : rest <:+ input := (hin ▸ List.suffix_cons _ _ : rest <:+ st.input).trans hinv.suffix
  refine ⟨hl ▸ hsuf.trans hmem, ?_, ?_, ?_, ?_, hunc⟩
  · intro k s hs
    rw [hsurv, hl]
    exact hreads k s hs
  · intro k hk
    cases hcur.symm.trans hk
    rw [hseq, hsnap, hl]
    refine ⟨h.numbered e (mem_input hinv.suffix hin), rfl, fun x hx => ?_⟩
    have hx : x ∈ entries rest := (entries_suffix hsuf).subset hx
    exact ⟨behind_le h.ordered hinv.suffix hin hx, (behind h.ordered hinv.suffix hin).2 x hx⟩
  · intro hz k hk
    cases hcur.symm.trans hk
    obtain ⟨a, ha, hkey, hall⟩ := hinv.zeroed_seeing (hzero.symm.trans hz)
    exact ⟨a, hraw ha, hkey, hall⟩
  · intro hc
    obtain ⟨x, rest', hx, hdoom, hdel, ha⟩ := hclear hc
    exact ⟨x, rest', hl.trans hx, (hdooms x).mpr hdoom, hdel, ha⟩

/-- The same when the key of the version at hand is left behind. -/
theorem Inv.leave (hinv : Inv c input below raw st)
    (hin : st.input = .entry e :: rest) {raw' : List (Entry K V)} {l : List (Item K V)}
    {st' : State K V} (hl : st'.input = l) (hsuf : l <:+ rest)
    (hcur : st'.currentUserKey = none) (hclear : st'.clearAndOutputNextKey = false)
    (hgone : ∀ x ∈ entries l, x.userKey ≠ e.userKey) (hunc : Uncovered c input raw')
    (hreads : ∀ k s, c.Reader input s → (versions c c.rangeDels).read k s
        (raw' ++ (survivors c (st.seeing c e) (entries l) ++ below)) =
      (versions c c.rangeDels).read k s (entries input ++ below)) :
    Inv c input below raw' st' := by
  have hmem : rest <:+ input := (hin ▸ List.suffix_cons _ _ : rest <:+ st.input).trans hinv.suffix
  have hsurv : survivors c st' (entries l) = survivors c (st.seeing c e) (entries l) := by
    refine List.filter_congr fun x hx => ?_
    have hold : ¬ (st.seeing c e).Dooms c x := fun hd => hgone x hx (seeing_dooms_iff.mp hd).1.1
    have hnew : ¬ st'.Dooms c x := by
      rintro ⟨⟨hk, -⟩, -⟩
      rw [hcur] at hk
      cases hk
    simp [hold, hnew]
  refine ⟨hl ▸ hsuf.trans hmem, ?_, ?_, ?_, ?_, hunc⟩
  · intro k s hs
    rw [hl, hsurv]
    exact hreads k s hs
  · intro k hk
    rw [hcur] at hk
    cases hk
  · intro _ k hk
    rw [hcur] at hk
    cases hk
  · intro hc
    rw [hclear] at hc
    cases hc

/-! ### Dropping and keeping the version at hand -/

/-- Dropping it is noticed by nobody when a kept version stands in for it, or when it says
nothing and nothing is left to say. -/
theorem Inv.reads_drop (h : Admissible c input below) (hinv : Inv c input below raw st)
    (hin : st.input = .entry e :: rest) (hkeep : ¬ st.Dooms c e)
    (hgone : ∀ s, c.Reader input s → e.sequence ≤ s →
      (∃ a ∈ raw, a.userKey = e.userKey ∧ a.sequence ≤ s) ∨
      (versions c c.rangeDels).answer e s = none ∧ (versions c c.rangeDels).read e.userKey s
        (survivors c (st.seeing c e) (entries rest) ++ below) = none) (k : K)
    (hs : c.Reader input s) :
    (versions c c.rangeDels).read k s
        (raw ++ (survivors c (st.seeing c e) (entries rest) ++ below)) =
      (versions c c.rangeDels).read k s (entries input ++ below) := by
  rw [← hinv.reads_seeing h hin hkeep k hs]
  refine Lib.Versions.read_drop fun hvis => ?_
  have hkey : e.userKey = k := hvis.1
  subst hkey
  rcases hgone s hs hvis.2 with ⟨a, ha, hvisa⟩ | hnone
  · exact .inl ⟨a, ha, hvisa⟩
  · exact .inr hnone

/-- Keeping `a` in its place. -/
theorem Inv.reads_keep (h : Admissible c input below) (hinv : Inv c input below raw st)
    (hin : st.input = .entry e :: rest) (hkeep : ¬ st.Dooms c e) {a : Entry K V}
    (hkey : a.userKey = e.userKey)
    (hsame : ∀ s, c.Reader input s → (a.sequence ≤ s ↔ e.sequence ≤ s) ∧
      (versions c c.rangeDels).answer a s = (versions c c.rangeDels).answer e s) (k : K)
    (hs : c.Reader input s) :
    (versions c c.rangeDels).read k s
        ((raw ++ [a]) ++ (survivors c (st.seeing c e) (entries rest) ++ below)) =
      (versions c c.rangeDels).read k s (entries input ++ below) := by
  rw [← hinv.reads_seeing h hin hkeep k hs, ← List.append_cons]
  refine Lib.Versions.read_append_congr (.inr ?_)
  obtain ⟨hvis, hans⟩ := hsame s hs
  by_cases hv : (versions c c.rangeDels).Visible k s e
  · have hva : (versions c c.rangeDels).Visible k s a := ⟨hkey.trans hv.1, hvis.mpr hv.2⟩
    rw [Lib.Versions.read_cons_of_visible hv, Lib.Versions.read_cons_of_visible hva, hans]
  · have hva : ¬ (versions c c.rangeDels).Visible k s a :=
      fun hva => hv ⟨hkey.symm.trans hva.1, hvis.mp hva.2⟩
    rw [Lib.Versions.read_cons_of_not_visible hv, Lib.Versions.read_cons_of_not_visible hva]

end

end PnmCompaction.Compaction

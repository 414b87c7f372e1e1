import PnmCompaction.Cache.Turns

/-!
# Targets that have been answered before

A packet can still be a target after it has been turned into a response. The
service loop drops such a target without a second response, but the tests that
were added for it stand behind calls that assert a request: `satisfyRequest`,
the failed upgrade, and the check of the first target on the write half of a
locked access.
-/

namespace PnmCompaction.Cache

open PnmCompaction.Lib.Checked

def answered (h : Heap) (t : Target) : Prop :=
  t.source = .fromCPU ∧ (h t.pkt).isRequest = false

instance (h : Heap) (t : Target) : Decidable (answered h t) := by
  unfold answered
  infer_instance

variable (c : Params) (o : Surroundings) (resp : Packet)

/-- What is asked of a call: no assertion fails in the turn of an answered
target, it gets no response, and when the call returns every other request of
the CPU that needs a response has got it. A software prefetch was acknowledged
when it missed and needs none. -/
structure AnsweredSafe (h : Heap) (next : PacketId) (m : Mshr) (blk : Option Blk) : Prop where
  no_fault : ∀ f, serviceMSHRTargets c o resp h next m blk = .error f →
    ∀ t ∈ m.targets.list, answered h t → f.target ≠ some t.pkt
  no_response : ∀ s, serviceMSHRTargets c o resp h next m blk = .ok s →
    ∀ t ∈ m.targets.list, answered h t → t.pkt ∉ s.scheduled
  others : ∀ s, serviceMSHRTargets c o resp h next m blk = .ok s →
    ∀ ready left, Mshr.serviceable h resp.cmd (unlockedTargets resp m) = .ok (ready, left) →
      ∀ t ∈ ready, t.source = .fromCPU → (h t.pkt).isRequest = true →
        (h t.pkt).cmd.needsResponse = true → (h t.pkt).cmd.isSWPrefetch = false →
          t.pkt ∈ s.scheduled

/-- The condition on the state before the call: the first target is not an
answered one on the write half of a locked access, and no answered target other
than a software prefetch is serviced from the block or by a failed upgrade. The
block is in use until a target ahead takes it away. -/
structure Harmless (h : Heap) (m : Mshr) (blk : Option Blk) : Prop where
  first : resp.cmd = .lockedRMWWriteResp → ∀ t rest, m.targets.list = t :: rest → ¬answered h t
  ready : ∀ ready left, Mshr.serviceable h resp.cmd (unlockedTargets resp m) = .ok (ready, left) →
    ∀ pre t post, ready = pre ++ t :: post → answered h t → (h t.pkt).cmd.isSWPrefetch = false →
      resp.cmd ≠ .upgradeFailResp ∧
        (useBlock resp m blk = true → ∃ d ∈ pre, drops h d = true)

variable {c o resp} {inv : Bool}

/-! ### The turn of an answered target -/

theorem answered.cmd_ne {h : Heap} {t : Target} (ha : answered h t) {cmd : MemCmd}
    (hc : cmd.isRequest = true) : (h t.pkt).cmd ≠ cmd := by
  intro he
  have hreq := ha.2
  rw [Packet.isRequest, he, hc] at hreq
  cases hreq

theorem respondTo_response {s : Loop} {t : Target} (h : (s.heap t.pkt).isRequest = false) :
    respondTo resp inv s t = .ok s := by
  unfold respondTo
  simp only [h, Bool.false_and, Bool.false_eq_true, if_false]
  rfl

theorem forwardResponse_response {s : Loop} {t : Target} (h : (s.heap t.pkt).isRequest = false) :
    forwardResponse resp inv s t = .ok { s with
      blk := if inv && blkValid s.blk then s.blk.map Blk.invalidate else s.blk } := by
  unfold forwardResponse
  simp only [h, Bool.and_false, Bool.false_eq_true, if_false]
  show Except.ok { s with heap := Function.update s.heap t.pkt (s.heap t.pkt), blk := _ } = _
  rw [Function.update_eq_self]

theorem serviceTarget_response {s : Loop} {t : Target} (ha : answered s.heap t)
    (hsw : (s.heap t.pkt).cmd.isSWPrefetch = false) :
    serviceTarget c o resp inv s t = (satisfyTarget c o resp inv { s with fromCore := true } t >>=
      fun s => respondTo resp inv s t) := by
  have hwl : checkWriteLine resp s.blk (s.heap t.pkt) = .ok ⟨⟩ := by
    unfold checkWriteLine
    rw [if_neg (ha.cmd_ne rfl)]
    rfl
  unfold serviceTarget serviceCPU
  simp only [ha.1, hsw, Bool.false_eq_true, if_false]
  rw [hwl]
  rfl

/-- Neither `satisfyRequest` nor a failed upgrade takes a response. -/
theorem satisfyTarget_response_inv {s s' : Loop} {t : Target} (ha : answered s.heap t)
    (h : satisfyTarget c o resp inv s t = .ok s') :
    useBlock resp s.mshr s.blk = false ∧ resp.cmd ≠ .upgradeFailResp := by
  unfold satisfyTarget at h
  split at h
  · unfold fromBlock at h
    split at h
    · cases h
    · simp only [bind_ok_iff] at h
      obtain ⟨_, _, ⟨q, b⟩, hs, _⟩ := h
      have hr := (satisfyRequest_spec hs).isRequest
      rw [ha.2] at hr
      cases hr
  · next hu =>
    refine ⟨Bool.eq_false_iff.mpr hu, ?_⟩
    intro hf
    rw [if_pos hf] at h
    simp only [bind_ok_iff, ensure_ok_iff, exists_const, pure_ok_iff] at h
    rcases h.1 with he | he | he
    · exact ha.cmd_ne rfl he
    · exact ha.cmd_ne rfl he
    · exact ha.cmd_ne rfl he

theorem satisfyTarget_response_ok {s : Loop} {t : Target} (ha : answered s.heap t)
    (hu : useBlock resp s.mshr s.blk = false) (hf : resp.cmd ≠ .upgradeFailResp) :
    ∃ s', satisfyTarget c o resp inv s t = .ok s' ∧ (s'.heap t.pkt).isRequest = false := by
  unfold satisfyTarget
  rw [if_neg (by rw [hu]; exact Bool.false_ne_true), if_neg hf]
  split
  · exact ⟨s, rfl, ha.2⟩
  · exact ⟨_, forwardResponse_response ha.2, ha.2⟩

/-- The turn of an answered target goes through exactly if it is a software
prefetch, or neither serviced from the block nor by a failed upgrade. -/
theorem serviceTarget_answered {s : Loop} {t : Target} (ha : answered s.heap t) :
    (∃ s', serviceTarget c o resp inv s t = .ok s') ↔
      (s.heap t.pkt).cmd.isSWPrefetch = true ∨
        (useBlock resp s.mshr s.blk = false ∧ resp.cmd ≠ .upgradeFailResp) := by
  cases hsw : (s.heap t.pkt).cmd.isSWPrefetch with
  | true =>
    refine iff_of_true ⟨{ s with fromCore := true, deleted := s.deleted ++ [t.pkt] }, ?_⟩
      (Or.inl rfl)
    simp only [serviceTarget, ha.1, serviceCPU, hsw, if_true, softPrefetch, ha.2, Bool.false_and,
      Bool.false_eq_true, if_false]
    rfl
  | false =>
    rw [serviceTarget_response ha hsw]
    constructor
    · rintro ⟨s', hs'⟩
      obtain ⟨s₁, h₁, _⟩ := bind_ok_iff.mp hs'
      exact Or.inr (satisfyTarget_response_inv (s := { s with fromCore := true }) ha h₁)
    · intro h
      obtain ⟨hu, hf⟩ := h.resolve_left Bool.false_ne_true
      obtain ⟨s₁, h₁, hreq⟩ :=
        satisfyTarget_response_ok (c := c) (o := o) (s := { s with fromCore := true }) ha hu hf
      exact ⟨s₁, bind_ok_iff.mpr ⟨s₁, h₁, respondTo_response hreq⟩⟩

theorem serviceAll_error {s : Loop} {ts : List Target} {f : Fault}
    (h : serviceAll c o resp inv s ts = .error f) :
    ∃ pre t post s₁, ts = pre ++ t :: post ∧ serviceAll c o resp inv s pre = .ok s₁ ∧
      (∀ s₂, serviceTarget c o resp inv s₁ t ≠ .ok s₂) ∧ f.target = some t.pkt := by
  induction ts generalizing s with
  | nil => cases h
  | cons t ts ih =>
    simp only [serviceAll, bind_error_iff] at h
    rcases h with h | ⟨s₁, h₁, h⟩
    · refine ⟨[], t, ts, s, rfl, rfl, ?_, ?_⟩
      · intro s₂ hs
        rw [hs] at h
        cases h
      · cases hs : serviceTarget c o resp inv s t with
        | ok s₂ =>
          rw [hs] at h
          cases h
        | error a =>
          rw [hs] at h
          cases h
          rfl
    · obtain ⟨pre, u, post, s₂, rfl, hpre, hu, hf⟩ := ih h
      refine ⟨t :: pre, u, post, s₂, rfl, ?_, hu, hf⟩
      simp only [serviceAll, bind_ok_iff]
      exact ⟨s₁, h₁, hpre⟩

/-- Before the turn of a ready target, the packet is as the call found it and
the block is in use as long as no target ahead has taken it away. -/
theorem serviceAll_before {s s₁ : Loop} {pre post : List Target} {t : Target}
    (hnd : ((pre ++ t :: post).map Target.pkt).Nodup)
    (hlt : ∀ u ∈ pre ++ t :: post, u.pkt < s.next) (h : serviceAll c o resp inv s pre = .ok s₁) :
    s₁.heap t.pkt = s.heap t.pkt ∧
      useBlock resp s₁.mshr s₁.blk = (useBlock resp s.mshr s.blk && !pre.any (drops s.heap)) := by
  rw [List.map_append, List.map_cons] at hnd
  have hpre : (pre.map Target.pkt).Nodup := hnd.of_append_left
  have hr := serviceAll_run hpre (fun u hu => hlt u (List.mem_append_left _ hu)) h
  refine ⟨hr.heap t.pkt ?_ (hlt t (List.mem_append_right _ List.mem_cons_self)), hr.useBlock⟩
  intro hmem
  exact (List.nodup_append.mp hnd).2.2 _ hmem _ List.mem_cons_self rfl

theorem target_eq_of_pkt {l : List Target} (hnd : (l.map Target.pkt).Nodup) {t u : Target}
    (ht : t ∈ l) (hu : u ∈ l) (he : t.pkt = u.pkt) : t = u :=
  List.inj_on_of_nodup_map hnd ht hu he

theorem harmless_of_ok {h : Heap} {next : PacketId} {m : Mshr} {blk : Option Blk} {s : Loop}
    (hnd : (m.targets.list.map Target.pkt).Nodup) (hlt : ∀ t ∈ m.targets.list, t.pkt < next)
    (hr : serviceMSHRTargets c o resp h next m blk = .ok s) : Harmless resp h m blk := by
  obtain ⟨ready, m', s₁, he, _, hs, hloop, _, first, rest, hl, hfirst⟩ := serviceMSHRTargets_ok hr
  refine ⟨?_, ?_⟩
  · rintro hc t ts ht ⟨_, hreq⟩
    rw [hl] at ht
    cases ht
    rw [Packet.isRequest, hfirst hc] at hreq
    cases hreq
  · rintro ready' left' hs' pre t post hready ha hsw
    rw [hs] at hs'
    cases hs'
    subst hready
    obtain ⟨hnd', hmem⟩ := ready_of_serviceable hnd hs
    obtain ⟨s₂, h₂, h₃⟩ := serviceAll_append.mp hloop
    obtain ⟨hheap, hub⟩ := serviceAll_before hnd' (fun u hu => hlt u (hmem u hu)) h₂
    simp only [serviceAll, bind_ok_iff, mapError_ok_iff] at h₃
    obtain ⟨s₃, h₃, _⟩ := h₃
    have ha' : answered s₂.heap t := ⟨ha.1, by rw [hheap]; exact ha.2⟩
    have hturn := (serviceTarget_answered ha').mp ⟨s₃, h₃⟩
    rw [hheap, hsw] at hturn
    obtain ⟨hu, hf⟩ := hturn.resolve_left Bool.false_ne_true
    refine ⟨hf, ?_⟩
    intro hblk
    rw [hu] at hub
    have hblk' : useBlock resp m' blk = true := by rwa [useBlock_congr he.isForward rfl]
    simp only [hblk', Bool.true_and] at hub
    have hany : pre.any (drops h) = true := by
      cases hd : pre.any (drops h) with
      | true => rfl
      | false =>
        rw [hd] at hub
        cases hub
    exact List.any_eq_true.mp hany

theorem serviceMSHRTargets_error {h : Heap} {next : PacketId} {m : Mshr} {blk : Option Blk}
    {f : Fault} {i : PacketId} (hr : serviceMSHRTargets c o resp h next m blk = .error f)
    (hi : f.target = some i) :
    (resp.cmd = .lockedRMWWriteResp ∧ ∃ first rest, m.targets.list = first :: rest ∧
        first.pkt = i) ∨
      ∃ ready m', Mshr.SameEntry m m' ∧
        Mshr.serviceable h resp.cmd (unlockedTargets resp m) = .ok (ready, m'.targets.list) ∧
        serviceAll c o resp (isInvalidateFor resp m)
          ⟨h, next, m', blk, [], [], [], false, false⟩ ready = .error f := by
  have nameless : ∀ {α : Type} {x : Except Assertion α} {g : Fault},
      x.mapError (fun a => (⟨a, none⟩ : Fault)) = .error g → g.target ≠ some i := by
    intro α x g hg hs
    obtain ⟨a, _, rfl⟩ := mapError_error_iff.mp hg
    cases hs
  simp only [serviceMSHRTargets, bind_error_iff] at hr
  rcases hr with hr | ⟨m₁, h₁, hr | ⟨⟨l, m₂⟩, h₂, hr | ⟨s, _, hr | ⟨b, _, hr⟩⟩⟩⟩
  · simp only [popLocked, bind_error_iff] at hr
    rcases hr with hr | ⟨first, hf, hr⟩
    · exact absurd hi (nameless hr)
    · split at hr
      · next hc =>
        rw [mapError_ok_iff] at hf
        obtain ⟨rest, hl⟩ := Mshr.front_ok hf
        refine Or.inl ⟨hc, first, rest, hl, ?_⟩
        simp only [bind_error_iff] at hr
        rcases hr with hr | ⟨_, _, hr⟩
        · unfold ensure at hr
          split at hr
          · cases hr
          · cases hr
            exact Option.some.inj hi
        · cases hr
      · cases hr
  · exact absurd hi (nameless hr)
  · obtain ⟨e₁, _, l₁, _⟩ := popLocked_spec h₁
    rw [mapError_ok_iff] at h₂
    obtain ⟨e₂, _, l₂⟩ := Mshr.extractServiceableTargets_spec h₂
    rw [l₁] at l₂
    exact Or.inr ⟨l.list, m₂, e₁.trans e₂, l₂, hr⟩
  · exact absurd hi (nameless hr)
  · cases hr

theorem Harmless.safe {h : Heap} {next : PacketId} {m : Mshr} {blk : Option Blk}
    (hnd : (m.targets.list.map Target.pkt).Nodup) (hlt : ∀ t ∈ m.targets.list, t.pkt < next)
    (hh : Harmless resp h m blk) : AnsweredSafe c o resp h next m blk := by
  refine ⟨?_, ?_, ?_⟩
  · intro f hf t ht ha hft
    rcases serviceMSHRTargets_error hf hft with
      ⟨hc, first, rest, hl, hp⟩ | ⟨ready, m', he, hs, hloop⟩
    · have hfirst : first = t :=
        target_eq_of_pkt hnd (hl ▸ List.mem_cons_self) ht hp
      exact hh.first hc first rest hl (hfirst ▸ ha)
    · obtain ⟨hnd', hmem⟩ := ready_of_serviceable hnd hs
      obtain ⟨pre, u, post, s₁, hready, hpre, hno, hfu⟩ := serviceAll_error hloop
      subst hready
      have hu : u = t := by
        refine target_eq_of_pkt hnd (hmem u (List.mem_append_right _ List.mem_cons_self)) ht ?_
        exact Option.some.inj (hfu.symm.trans hft)
      subst hu
      obtain ⟨hheap, hub⟩ := serviceAll_before hnd' (fun x hx => hlt x (hmem x hx)) hpre
      have ha' : answered s₁.heap u := ⟨ha.1, by rw [hheap]; exact ha.2⟩
      have hok : ∃ s₂, serviceTarget c o resp (isInvalidateFor resp m) s₁ u = .ok s₂ := by
        rw [serviceTarget_answered ha', hheap]
        cases hsw : (h u.pkt).cmd.isSWPrefetch with
        | true => exact Or.inl rfl
        | false =>
          obtain ⟨hf', hdrop⟩ := hh.ready _ _ hs pre u post rfl ha hsw
          refine Or.inr ⟨?_, hf'⟩
          rw [hub]
          cases hb : useBlock resp m blk with
          | false => rw [useBlock_congr he.isForward rfl, hb, Bool.false_and]
          | true => rw [List.any_eq_true.mpr (hdrop hb), Bool.not_true, Bool.and_false]
      obtain ⟨s₂, hs₂⟩ := hok
      exact hno s₂ hs₂
  · intro s hs t ht ha hmem
    obtain ⟨ready, m', s₁, _, _, hready, hloop, hse, _⟩ := serviceMSHRTargets_ok hs
    obtain ⟨hnd', hsub⟩ := ready_of_serviceable hnd hready
    have hrun := serviceAll_run hnd' (fun x hx => hlt x (hsub x hx)) hloop
    rw [hse, show ({ s₁ with blk := s.blk } : Loop).scheduled = s₁.scheduled from rfl,
      hrun.scheduled, List.nil_append, List.mem_map] at hmem
    obtain ⟨u, hu, hup⟩ := hmem
    obtain ⟨hu, hans⟩ := List.mem_filter.mp hu
    have hut : u = t := target_eq_of_pkt hnd (hsub u hu) ht hup
    subst hut
    simp only [answers, ha.2, Bool.false_and, Bool.and_false] at hans
    cases hans
  · intro s hs ready left hready t ht hsrc hreq hneeds hsw
    obtain ⟨ready', m', s₁, _, _, hready', hloop, hse, _⟩ := serviceMSHRTargets_ok hs
    rw [hready] at hready'
    cases hready'
    obtain ⟨hnd', hsub⟩ := ready_of_serviceable hnd hready
    have hrun := serviceAll_run hnd' (fun x hx => hlt x (hsub x hx)) hloop
    rw [hse, show ({ s₁ with blk := s.blk } : Loop).scheduled = s₁.scheduled from rfl,
      hrun.scheduled, List.nil_append]
    refine List.mem_map_of_mem (List.mem_filter.mpr ⟨ht, ?_⟩)
    simp only [answers, hsrc, hreq, hneeds, hsw, decide_true, Bool.not_false, Bool.and_self]

/-- The condition is enough; and where no other target fails an assertion of its
own, and nothing outside the loop does, it is also needed. -/
theorem answered_targets_safe_iff_harmless (h : Heap) (next : PacketId) (m : Mshr)
    (blk : Option Blk) (hnd : (m.targets.list.map Target.pkt).Nodup)
    (hlt : ∀ t ∈ m.targets.list, t.pkt < next) :
    (Harmless resp h m blk → AnsweredSafe c o resp h next m blk) ∧
      ((∀ f, serviceMSHRTargets c o resp h next m blk = .error f →
          ∃ t ∈ m.targets.list, answered h t ∧ f.target = some t.pkt) →
        AnsweredSafe c o resp h next m blk → Harmless resp h m blk) := by
  refine ⟨Harmless.safe hnd hlt, ?_⟩
  intro hown hsafe
  cases hr : serviceMSHRTargets c o resp h next m blk with
  | ok s => exact harmless_of_ok hnd hlt hr
  | error f =>
    obtain ⟨t, ht, ha, hft⟩ := hown f hr
    exact absurd hft (hsafe.no_fault f hr t ht ha)

/-- The heap and the MSHR of a locked read that was answered with forwarded
data and stayed a target, with a plain read behind it; the fresh request for it
has been sent. -/
def stale : Heap := fun i => Packet.plain (if i = 0 then .lockedRMWReadResp else .readReq) true

def staleMshr : Mshr :=
  { Mshr.allocate 0 0 1 stale 0 false with
    inService := true
    isForward := true
    targets := ((TargetList.init 1).add stale ⟨0, .fromCPU, false⟩).add stale ⟨1, .fromCPU, false⟩ }

/-- Data that is passed on: the answered target is dropped, the other one gets
its response. -/
theorem stale_target_dropped :
    AnsweredSafe .plain .silent (Packet.plain .readResp true) stale 2 staleMshr (some .plain) := by
  refine (answered_targets_safe_iff_harmless stale 2 staleMshr (some .plain) (by decide)
    (by decide)).1 ⟨?_, ?_⟩
  · intro hc
    cases hc
  · intro ready left _ pre t post _ _ _
    exact ⟨by decide, fun hu => absurd hu (by decide)⟩

/-- An error without data while the line is in the cache: the answered target is
handed to `satisfyRequest`, which asserts a request. -/
theorem stale_target_fails_assertion :
    ¬AnsweredSafe .plain .silent (Packet.plain .readError true) stale 2 staleMshr
      (some .plain) := by
  intro hsafe
  exact hsafe.no_fault ⟨.satisfyResponse, some 0⟩ rfl ⟨0, .fromCPU, false⟩ (by decide) (by decide)
    rfl

end PnmCompaction.Cache

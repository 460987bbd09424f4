import Wraft.WebrtcRpc.Correlation

/-!
# Every call returns

A call of `Client::call` waits until somebody sends on its sender, or drops it. As long as the
request manager goes on, a call that has not returned is on its way to the manager, or in flight
with a timer: no path through `handle_request`, `handle_response` and `handle_timeout` forgets a
sender (`Endpoint.Accounted`). So a call ends at the latest when its timer is processed, and with
the manager all calls end (`every_call_returns`).
-/

namespace Wraft

namespace RingBuf

variable {w : ℕ} {α : Type*} {b : RingBuf w α}

theorem slot_skip (fuel : ℕ) (b : RingBuf w α) (idx : Usize w) :
    (b.skip fuel).slot idx = b.slot idx := by
  induction fuel generalizing b with
  | zero => rfl
  | succ fuel ih =>
    rw [skip]
    split_ifs
    · exact ih _
    · rfl

/-- What is removed is found under its index, and nothing else is removed. -/
theorem slot_remove {idx j : Usize w} {val v : α} (hslot : b.slot idx = some (idx, val))
    (hj : b.slot j = some (j, v)) (hne : j ≠ idx) :
    (b.remove idx).1 = some val ∧ (b.remove idx).2.slot j = some (j, v) := by
  have hremove : b.remove idx =
      (some val, skip (b.nextIdx.toNat - b.minIdx.toNat) (b.setSlot idx none)) := by
    simp [remove, hslot]
  rw [hremove]
  refine ⟨rfl, ?_⟩
  rw [slot_skip, slot_setSlot_none_iff hslot]
  exact ⟨hne, hj⟩

end RingBuf

namespace WebrtcRpc

variable {w : ℕ} {Req Resp : Type}

namespace Endpoint

variable {e e' : Endpoint w Req Resp} {m : Window ℕ} {issued : List ℕ}

/-- The call is in flight, and there is a timer for it. -/
def Timed (e : Endpoint w Req Resp) (tx : ℕ) : Prop :=
  ∃ idx ∈ e.timeoutRx, e.inFlight.slot idx = some (idx, tx)

/-- Every call has returned, or the manager is going to answer it. -/
def Accounted (e : Endpoint w Req Resp) : Prop :=
  ∀ tx < e.calls, tx ∈ e.returned ∨ e.stopped = false ∧ (tx ∈ e.queued ∨ e.Timed tx)

theorem accounted_started (hw : 10 < w) : (started hw : Endpoint w Req Resp).Accounted :=
  fun _ htx => absurd htx (Nat.not_lt_zero _)

/-- What the parts of an end are that matter here. -/
theorem Accounted.of_eq (h : e.Accounted) (hcalls : e'.calls = e.calls)
    (hresults : e'.results = e.results) (hstopped : e'.stopped = e.stopped)
    (hreqRx : e'.reqRx = e.reqRx) (htimeoutRx : e'.timeoutRx = e.timeoutRx)
    (hinFlight : e'.inFlight = e.inFlight) : e'.Accounted := by
  intro tx htx
  rw [returned, hresults, hstopped, queued, hreqRx, Timed, htimeoutRx, hinFlight]
  exact h tx (hcalls ▸ htx)

/-- A new call returns at once, or is queued. -/
theorem Accounted.call (h : e.Accounted) (hclosed : e.stopped = true → e.closed = true)
    (req : Req) : (e.call req).Accounted := by
  have hback : ∀ {e' : Endpoint w Req Resp},
      e'.results = e.results ++ [(e.calls, .error .disconnected)] →
      e'.requests = e.requests ++ [req] → e'.stopped = e.stopped → e'.reqRx = e.reqRx →
      e'.timeoutRx = e.timeoutRx → e'.inFlight = e.inFlight → e'.Accounted := by
    intro e' hresults hrequests hstopped hreqRx htimeoutRx hinFlight tx htx
    rw [returned, hresults, hstopped, queued, hreqRx, Timed, htimeoutRx, hinFlight]
    rw [calls, hrequests, List.length_append, List.length_singleton,
      Nat.lt_succ_iff_lt_or_eq] at htx
    obtain htx | rfl := htx
    · exact (h tx htx).imp_left fun hmem => by
        rw [List.map_append]
        exact List.mem_append_left _ hmem
    · exact .inl (by simp [calls])
  simp only [Endpoint.call]
  split_ifs with hconnected hclosed'
  · exact hback rfl rfl rfl rfl rfl rfl
  · exact hback rfl rfl rfl rfl rfl rfl
  · intro tx htx
    rw [calls, List.length_append, List.length_singleton, Nat.lt_succ_iff_lt_or_eq] at htx
    obtain htx | rfl := htx
    · refine (h tx htx).imp_right (And.imp_right (Or.imp_left fun hmem => ?_))
      rw [queued, List.map_append]
      exact List.mem_append_left _ hmem
    · refine .inr ⟨?_, .inl (by simp [queued, calls])⟩
      have : e.stopped ≠ true := fun hstopped => hclosed' (hclosed hstopped)
      simpa using this

/-- The manager takes an index, with its timer or without, and completes what is in flight under
it. -/
theorem accounted_finish (idx : Usize w) (result : Except TransportError Resp)
    (h : ∀ tx < e.calls, tx ∈ e.returned ∨ e.stopped = false ∧ (tx ∈ e.queued ∨
      e.Timed tx ∨ e.inFlight.slot idx = some (idx, tx))) :
    (e.finish idx result).Accounted := by
  by_cases hfound : ∃ val, e.inFlight.slot idx = some (idx, val)
  · obtain ⟨val, hslot⟩ := hfound
    have hfinish : e.finish idx result =
        { e with inFlight := (e.inFlight.remove idx).2 }.complete val result := by
      have hremove : e.inFlight.remove idx = (some val, (e.inFlight.remove idx).2) := by
        refine Prod.ext ?_ rfl
        simp [RingBuf.remove, hslot]
      rw [finish, hremove]
    rw [hfinish]
    intro tx htx
    rw [returned_complete, List.mem_append, List.mem_singleton]
    obtain hmem | ⟨hstopped, hmem | ⟨j, hj, hjslot⟩ | hidx⟩ := h tx htx
    · exact .inl (.inl hmem)
    · exact .inr ⟨hstopped, .inl hmem⟩
    · by_cases hne : j = idx
      · subst hne
        obtain ⟨-, rfl⟩ := Prod.mk.inj (Option.some.inj (hslot.symm.trans hjslot))
        exact .inl (.inr rfl)
      · exact .inr ⟨hstopped, .inr ⟨j, hj, (RingBuf.slot_remove hslot hjslot hne).2⟩⟩
    · obtain ⟨-, rfl⟩ := Prod.mk.inj (Option.some.inj (hslot.symm.trans hidx))
      exact .inl (.inr rfl)
  · -- nothing is in flight under the index
    have hremove : e.inFlight.remove idx = (none, e.inFlight) :=
      RingBuf.remove_of_slot_ne fun val hslot => hfound ⟨val, hslot⟩
    rw [finish, hremove]
    exact fun tx htx => (h tx htx).imp_right (And.imp_right (Or.imp_right fun hor =>
      hor.resolve_right fun hslot => hfound ⟨tx, hslot⟩))

/-- The manager takes a request: it gets an index and a timer, or it returns an error. -/
theorem Accounted.handleRequest (h : e.Accounted) (htracks : e.Tracks m issued) {req : Req}
    {tx : ℕ} {reqRx : List (Req × ℕ)} (hreq : e.reqRx = (req, tx) :: reqRx)
    (hst : e.stopped = false) (sent : Bool) :
    (({ e with reqRx } : Endpoint w Req Resp).handleRequest req tx sent).1.Accounted := by
  obtain ⟨-, -, hissued, -, hasked⟩ := htracks.tail hreq
  have hlt : tx < e.calls := (List.getElem?_eq_some_iff.mp hasked).1
  -- the calls but for the one that is taken
  have hrest : ∀ u < e.calls, u = tx ∨ u ∈ e.returned ∨ u ∈ reqRx.map Prod.snd ∨ e.Timed u := by
    intro u hu
    obtain hmem | ⟨-, hmem | htimed⟩ := h u hu
    · exact .inr (.inl hmem)
    · rw [queued, hreq, List.map_cons, List.mem_cons] at hmem
      exact hmem.imp_right fun hmem => .inr (.inl hmem)
    · exact .inr (.inr (.inr htimed))
  rw [Endpoint.handleRequest]
  by_cases hfull : e.inFlight.capacity ≤ e.inFlight.nextIdx - e.inFlight.minIdx
  · rw [RingBuf.add_of_full hfull]
    intro u hu
    rw [returned_complete, List.mem_append, List.mem_singleton]
    obtain rfl | hmem | hmem | htimed := hrest u hu
    · exact .inl (.inr rfl)
    · exact .inl (.inl hmem)
    · exact .inr ⟨hst, .inl hmem⟩
    · exact .inr ⟨hst, .inr htimed⟩
  · have hlength := htracks.length_lt hissued hlt
    have hroom : m.next - m.first < e.inFlight.capacity.toNat := by
      rw [htracks.represents.full_iff] at hfull
      omega
    have hfree := htracks.represents.slot_next hroom
    have hadd : e.inFlight.add tx = (.ok e.inFlight.nextIdx,
        { e.inFlight.setSlot e.inFlight.nextIdx (some (e.inFlight.nextIdx, tx)) with
          nextIdx := e.inFlight.nextIdx + 1 }) := if_neg hfull
    set inFlight : RingBuf w ℕ :=
      { e.inFlight.setSlot e.inFlight.nextIdx (some (e.inFlight.nextIdx, tx)) with
        nextIdx := e.inFlight.nextIdx + 1 } with hinFlight
    have hslot : ∀ {j u}, inFlight.slot j = some (j, u) ↔
        if j = e.inFlight.nextIdx then tx = u else e.inFlight.slot j = some (j, u) :=
      RingBuf.slot_setSlot_some_iff hfree
    have hkeep : ∀ {j u}, e.inFlight.slot j = some (j, u) → inFlight.slot j = some (j, u) := by
      intro j u hj
      rw [hslot]
      split_ifs with hne
      · rw [hne, hfree] at hj
        cases hj
      · exact hj
    rw [hadd]
    simp only
    split_ifs with hsent
    · intro u hu
      obtain rfl | hmem | hmem | ⟨j, hj, hjslot⟩ := hrest u hu
      · refine .inr ⟨hst, .inr ⟨e.inFlight.nextIdx, List.mem_append_right _ (by simp), ?_⟩⟩
        rw [hslot, if_pos rfl]
      · exact .inl hmem
      · exact .inr ⟨hst, .inl hmem⟩
      · exact .inr ⟨hst, .inr ⟨j, List.mem_append_left _ hj, hkeep hjslot⟩⟩
    · -- sending failed, and what was just added is completed
      have hfinish := accounted_finish (e := { e with reqRx, inFlight }) e.inFlight.nextIdx
        (.error .js) fun u hu => by
          obtain rfl | hmem | hmem | ⟨j, hj, hjslot⟩ := hrest u hu
          · exact .inr ⟨hst, .inr (.inr (by rw [hslot, if_pos rfl]))⟩
          · exact .inl hmem
          · exact .inr ⟨hst, .inl hmem⟩
          · exact .inr ⟨hst, .inr (.inl ⟨j, hj, hkeep hjslot⟩)⟩
      have hfound : inFlight.slot e.inFlight.nextIdx = some (e.inFlight.nextIdx, tx) := by
        rw [hslot, if_pos rfl]
      have hremove : inFlight.remove e.inFlight.nextIdx =
          (some tx, (inFlight.remove e.inFlight.nextIdx).2) := by
        refine Prod.ext ?_ rfl
        simp [RingBuf.remove, hfound]
      rw [finish, hremove] at hfinish
      rw [hremove]
      exact hfinish

/-- The manager returns, and with it all calls. -/
theorem Accounted.stop (h : e.Accounted) : e.stop.Accounted := by
  intro tx htx
  refine .inl ?_
  rw [returned, Endpoint.stop, List.map_append, List.mem_append]
  obtain hmem | ⟨-, hmem | ⟨idx, -, hslot⟩⟩ := h tx htx
  · exact .inl hmem
  · refine .inr ?_
    rw [List.map_map]
    exact List.mem_map.mpr ⟨tx, List.mem_append_left _ hmem, rfl⟩
  · refine .inr ?_
    rw [List.map_map]
    refine List.mem_map.mpr ⟨tx, List.mem_append_right _ ?_, rfl⟩
    exact List.mem_filterMap.mpr ⟨some (idx, tx), hslot ▸ List.get_mem _ _, rfl⟩

end Endpoint

namespace Transport

variable {c c' : Transport w Req Resp} {s : Side}

/-- A step at the other end. -/
theorem accounted_setEnd {u : Side} {e : Endpoint w Req Resp} (h : (c.ends s).Accounted)
    (he : s = u → e.Accounted) : ((c.setEnd u e).ends s).Accounted := by
  by_cases hu : s = u
  · subst hu
    rw [ends_setEnd]
    exact he rfl
  · rwa [ends_setEnd_of_ne hu]

/-- **Step lemma.** No call is forgotten. -/
theorem accounted_exec (h : (c.ends s).Accounted) (hcor : c.Correlated s)
    {a : Action Req Resp} (hexec : c.exec a = some c') : (c'.ends s).Accounted := by
  cases a with
  | call u req =>
    obtain rfl := Option.some.inj hexec
    refine accounted_setEnd h fun hu => ?_
    subst hu
    exact h.call hcor.closed req
  | request u sent =>
    simp only [Transport.exec] at hexec
    split_ifs at hexec with hst
    split at hexec
    · cases hexec
    · rename_i req tx reqRx hreq
      have hst' : (c.ends u).stopped = false := by simpa using hst
      have hnext : s = u → (({ c.ends u with reqRx } : Endpoint w Req Resp).handleRequest
          req tx sent).1.Accounted := by
        rintro rfl
        obtain ⟨m, issued, htracks, -⟩ := hcor.tracked hst'
        exact h.handleRequest htracks hreq hst' sent
      split at hexec
      · rename_i e p hrun
        obtain rfl := Option.some.inj hexec
        rw [hrun] at hnext
        exact accounted_setEnd h hnext
      · rename_i e hrun
        obtain rfl := Option.some.inj hexec
        rw [hrun] at hnext
        exact accounted_setEnd h hnext
  | response u k =>
    simp only [Transport.exec] at hexec
    split_ifs at hexec with hst
    obtain ⟨r, -, rfl⟩ := Option.map_eq_some_iff.mp hexec
    refine accounted_setEnd h fun hu => ?_
    subst hu
    exact Endpoint.accounted_finish _ _ fun tx htx =>
      (h tx htx).imp_right (And.imp_right (Or.imp_right .inl))
  | timeout u k =>
    simp only [Transport.exec] at hexec
    split_ifs at hexec with hst
    obtain ⟨idx, hidx, rfl⟩ := Option.map_eq_some_iff.mp hexec
    refine accounted_setEnd h fun hu => ?_
    subst hu
    refine Endpoint.accounted_finish _ _ fun tx htx =>
      (h tx htx).imp_right (And.imp_right (Or.imp_right ?_))
    -- the timer that is taken is that of the call, or the call has another one
    rintro ⟨j, hj, hslot⟩
    by_cases hne : j = idx
    · exact .inr (hne ▸ hslot)
    · obtain ⟨i, hi⟩ := List.mem_iff_getElem?.mp hj
      refine .inl ⟨j, List.mem_eraseIdx_iff_getElem?.mpr ⟨i, ?_, hi⟩, hslot⟩
      rintro rfl
      exact hne (Option.some.inj (hi.symm.trans hidx))
  | deliver u k =>
    obtain ⟨p, hp, rfl⟩ := Option.map_eq_some_iff.mp hexec
    refine accounted_setEnd h fun hu => ?_
    subst hu
    rw [Endpoint.onMessage]
    split <;> exact h.of_eq rfl rfl rfl rfl rfl rfl
  | lose u k =>
    obtain ⟨p, -, rfl⟩ := Option.map_eq_some_iff.mp hexec
    exact h
  | handle u k resp sent =>
    obtain ⟨p, hp, rfl⟩ := Option.map_eq_some_iff.mp hexec
    have hnext : ((c.handle u k p resp).ends s).Accounted :=
      accounted_setEnd h fun hu => by
        subst hu
        exact h.of_eq rfl rfl rfl rfl rfl rfl
    split_ifs <;> exact hnext
  | close u =>
    obtain rfl := Option.some.inj hexec
    refine accounted_setEnd h fun hu => ?_
    subst hu
    exact h.of_eq rfl rfl rfl rfl rfl rfl
  | stop u =>
    simp only [Transport.exec] at hexec
    split_ifs at hexec with hst
    obtain rfl := Option.some.inj hexec
    refine accounted_setEnd h fun hu => ?_
    subst hu
    exact h.stop

/-! ### Runs -/

/-- **Run lemma.** -/
theorem accounted_of_mem {hw : 10 < w} {r : List (Transport w Req Resp)} (hr : IsRun hw r)
    (hc : c ∈ r) (s : Side) (hcalls : (c.ends s).calls < 2 ^ w) :
    c.Correlated s ∧ (c.ends s).Accounted := by
  have hinv : ∀ c ∈ r, (c.ends s).calls < 2 ^ w → c.Correlated s ∧ (c.ends s).Accounted :=
    TransitionSystem.IsRun.invariant
      (I := fun c => (c.ends s).calls < 2 ^ w → c.Correlated s ∧ (c.ends s).Accounted)
      (fun c h _ => h ▸ ⟨correlated_started hw s, Endpoint.accounted_started hw⟩)
      (fun c c' h ⟨a, _, hexec⟩ hlt => by
        have hbefore := (calls_le_of_exec hexec).trans_lt hlt
        obtain ⟨hcor, hacc⟩ := h hbefore
        exact ⟨hcor.exec hexec hbefore, accounted_exec hacc hcor hexec⟩) hr
  exact hinv c hc hcalls

/-- The timer of a call that is in flight ends it. -/
theorem exists_timeout {tx : ℕ} (hst : (c.ends s).stopped = false) (h : (c.ends s).Timed tx) :
    ∃ k c', c.exec (.timeout s k) = some c' ∧
      (tx, .error .requestTimeout) ∈ (c'.ends s).results := by
  obtain ⟨idx, hidx, hslot⟩ := h
  obtain ⟨k, hk⟩ := List.mem_iff_getElem?.mp hidx
  have hremove : (c.ends s).inFlight.remove idx =
      (some tx, ((c.ends s).inFlight.remove idx).2) := by
    refine Prod.ext ?_ rfl
    simp [RingBuf.remove, hslot]
  refine ⟨k, _, by simp only [Transport.exec, hst, hk, Option.map_some]; rfl, ?_⟩
  rw [ends_setEnd, Endpoint.handleTimeout, Endpoint.finish, hremove]
  simp [Endpoint.complete]

/-- **No call waits for ever.** While an end has made fewer than `2 ^ w` calls, each of its calls
has returned, or the manager goes on and has the call before it: in its queue, or in flight with a
timer that ends the call. When the manager has returned, or has no request and no timer left,
every call has returned, and once. -/
theorem every_call_returns {hw : 10 < w} {r : List (Transport w Req Resp)} (hr : IsRun hw r)
    (hc : c ∈ r) (s : Side) (hcalls : (c.ends s).calls < 2 ^ w) :
    (∀ tx < (c.ends s).calls, tx ∈ (c.ends s).returned ∨ (c.ends s).stopped = false ∧
      (tx ∈ (c.ends s).queued ∨ ∃ k c', c.exec (.timeout s k) = some c' ∧
        (tx, .error .requestTimeout) ∈ (c'.ends s).results)) ∧
    ((c.ends s).stopped = true ∨ (c.ends s).reqRx = [] ∧ (c.ends s).timeoutRx = [] →
      (c.ends s).returned.Perm (List.range (c.ends s).calls)) := by
  obtain ⟨hcor, hacc⟩ := accounted_of_mem hr hc s hcalls
  refine ⟨fun tx htx => ?_, fun hdone => ?_⟩
  · refine (hacc tx htx).imp_right fun ⟨hst, hwaits⟩ => ⟨hst, hwaits.imp_right ?_⟩
    exact exists_timeout hst
  · rw [List.perm_ext_iff_of_nodup hcor.returns.nodup List.nodup_range]
    intro tx
    rw [List.mem_range]
    refine ⟨hcor.returns.lt_calls tx, fun htx => (hacc tx htx).resolve_right ?_⟩
    rintro ⟨hst, hwaits⟩
    obtain hstopped | ⟨hreqRx, htimeoutRx⟩ := hdone
    · rw [hst] at hstopped
      cases hstopped
    · obtain hqueued | ⟨idx, hidx, -⟩ := hwaits
      · simp [Endpoint.queued, hreqRx] at hqueued
      · simp [htimeoutRx] at hidx

/-- A call times out, one is answered, one cannot be sent, and the last waits when the channel is
closed and the manager returns. -/
def fourEndings : List (Action ℕ ℕ) :=
  [.call .left 5, .call .left 6, .call .left 7, .request .left true, .request .left true,
    .request .left false, .deliver .right 1, .handle .right 0 (.ok 60) true, .timeout .left 0,
    .deliver .left 0, .response .left 0, .call .left 8, .close .left, .stop .left]

theorem every_call_returns_run : ∃ (r : List (Transport 32 ℕ ℕ)) (c : Transport 32 ℕ ℕ),
    IsRun (by decide) r ∧ c ∈ r ∧ (c.ends .left).results =
      [(2, .error .js), (0, .error .requestTimeout), (1, .ok 60), (3, .error .disconnected)] ∧
    (∀ tx < (c.ends .left).calls, tx ∈ (c.ends .left).returned ∨ (c.ends .left).stopped = false ∧
      (tx ∈ (c.ends .left).queued ∨ ∃ k c', c.exec (.timeout .left k) = some c' ∧
        (tx, .error .requestTimeout) ∈ (c'.ends .left).results)) ∧
    ((c.ends .left).stopped = true ∨ (c.ends .left).reqRx = [] ∧ (c.ends .left).timeoutRx = [] →
      (c.ends .left).returned.Perm (List.range (c.ends .left).calls)) := by
  obtain ⟨r, -, hr, hf⟩ := TransitionSystem.exists_run_of_play (· = started (by decide)) exec
    (fun (_ : Transport 32 ℕ ℕ) _ => false) rfl fourEndings
    (fun r => r.any fun c => decide ((c.ends .left).calls < 2 ^ 32 ∧ (c.ends .left).results =
      [(2, .error .js), (0, .error .requestTimeout), (1, .ok 60), (3, .error .disconnected)]))
    (by decide +kernel)
  obtain ⟨c, hc, hcheck⟩ := List.any_eq_true.mp hf
  obtain ⟨hcalls, hresults⟩ := of_decide_eq_true hcheck
  have hrun : IsRun (by decide) r :=
    TransitionSystem.IsRun.mono (fun _ _ => TransitionSystem.Acts.mono fun _ _ _ => trivial) hr
  exact ⟨r, c, hrun, hc, hresults, every_call_returns hrun hc .left hcalls⟩

end Transport

end WebrtcRpc

end Wraft

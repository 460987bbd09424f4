import Mathlib.Data.List.Nodup
import Mathlib.Data.List.Perm.Subperm
import Wraft.WebrtcRpc.Transport

/-!
# Requests and their responses

However requests, responses and timers of a connection are interleaved, a call returns at most
once, and it returns what the other end has computed from the request of this very call, or an
error (`call_correlated`).

Indices of the ring buffer are never handed out twice as long as there are fewer than `2 ^ w`
calls, so that an index stands for the call that got it (`Endpoint.Tracks`, whose `issued` lists
the calls by their indices), and a response that comes late finds nothing under its index.
-/

namespace Wraft.WebrtcRpc

variable {w : ℕ} {Req Resp : Type}

namespace Endpoint

/-- The calls that are on their way to the manager. -/
def queued (e : Endpoint w Req Resp) : List ℕ := e.reqRx.map Prod.snd

/-- The calls that have returned. -/
def returned (e : Endpoint w Req Resp) : List ℕ := e.results.map Prod.fst

/-- The request manager goes on, `m` is the window of the calls in flight, and `issued` are the
calls to which an index was given. A call is in one place at most: on its way to the manager, in
flight, or back. -/
structure Tracks (e : Endpoint w Req Resp) (m : Window ℕ) (issued : List ℕ) : Prop where
  represents : e.inFlight.Represents m
  next : m.next = issued.length
  issued_of_get : ∀ k tx, m.get k = some tx → issued[k]? = some tx
  nodup_issued : issued.Nodup
  nodup_queued : e.queued.Nodup
  nodup_returned : e.returned.Nodup
  not_issued : ∀ tx ∈ e.queued, tx ∉ issued
  not_returned : ∀ tx ∈ e.queued, tx ∉ e.returned
  not_back : ∀ k tx, m.get k = some tx → tx ∉ e.returned
  lt_calls : ∀ tx, tx ∈ e.queued ∨ tx ∈ issued ∨ tx ∈ e.returned → tx < e.calls
  asked : ∀ req tx, (req, tx) ∈ e.reqRx → e.requests[tx]? = some req

variable {e e' : Endpoint w Req Resp} {m m' : Window ℕ} {issued : List ℕ}

theorem returned_complete (tx : ℕ) (result : Except TransportError Resp) :
    (e.complete tx result).returned = e.returned ++ [tx] := by
  simp [returned, complete]

theorem tracks_started (hw : 10 < w) : (started hw : Endpoint w Req Resp).Tracks .empty [] where
  represents := RingBuf.represents_withCapacity _ _
  next := rfl
  issued_of_get k tx h := by simp [Window.empty] at h
  nodup_issued := List.nodup_nil
  nodup_queued := List.nodup_nil
  nodup_returned := List.nodup_nil
  not_issued tx h := by simp [queued, started] at h
  not_returned tx h := by simp [queued, started] at h
  not_back k tx h := by simp [Window.empty] at h
  lt_calls tx h := by simp [queued, returned, started] at h
  asked req tx h := by simp [started] at h

/-- A call that is nowhere any more returns. -/
theorem Tracks.complete (h : e.Tracks m issued) {tx : ℕ} (hqueued : tx ∉ e.queued)
    (hflight : ∀ k, m.get k ≠ some tx) (hback : tx ∉ e.returned) (hlt : tx < e.calls)
    (result : Except TransportError Resp) : (e.complete tx result).Tracks m issued where
  represents := h.represents
  next := h.next
  issued_of_get := h.issued_of_get
  nodup_issued := h.nodup_issued
  nodup_queued := h.nodup_queued
  nodup_returned := by
    rw [returned_complete, ← List.concat_eq_append]
    exact h.nodup_returned.concat hback
  not_issued := h.not_issued
  not_returned u hu hmem := by
    rw [returned_complete, List.mem_append, List.mem_singleton] at hmem
    obtain hmem | rfl := hmem
    · exact h.not_returned u hu hmem
    · exact hqueued hu
  not_back k u hu hmem := by
    rw [returned_complete, List.mem_append, List.mem_singleton] at hmem
    obtain hmem | rfl := hmem
    · exact h.not_back k u hu hmem
    · exact hflight k hu
  lt_calls u hu := by
    rw [returned_complete, List.mem_append, List.mem_singleton] at hu
    obtain hu | hu | hu | rfl := hu
    · exact h.lt_calls u (.inl hu)
    · exact h.lt_calls u (.inr (.inl hu))
    · exact h.lt_calls u (.inr (.inr hu))
    · exact hlt
  asked := h.asked

/-- The request in flight under an index is completed, if there is one: it is the call to which the
index was given. -/
theorem Tracks.finish (h : e.Tracks m issued) (idx : Usize w)
    (result : Except TransportError Resp) :
    ∃ m', (e.finish idx result).Tracks m' issued ∧
      ((e.finish idx result).results = e.results ∨ ∃ tx, issued[idx.toNat]? = some tx ∧
        (e.finish idx result).results = e.results ++ [(tx, result)]) := by
  obtain hget | ⟨tx, hget⟩ := (m.get idx.toNat).eq_none_or_eq_some
  · refine ⟨m, ?_, .inl ?_⟩
    · rw [Endpoint.finish, RingBuf.remove_of_get_eq_none h.represents hget]
      exact h
    · rw [Endpoint.finish, RingBuf.remove_of_get_eq_none h.represents hget]
  · obtain ⟨hres, hrep⟩ := h.represents.remove hget
    have hfinish : e.finish idx result =
        { e with inFlight := (e.inFlight.remove idx).2 }.complete tx result := by
      rw [Endpoint.finish]
      split
      · rename_i tx' inFlight heq
        rw [heq] at hres ⊢
        rw [Option.some.inj hres]
      · rename_i inFlight heq
        rw [heq] at hres
        simp at hres
    have hissued := h.issued_of_get _ _ hget
    have hmem : tx ∈ issued := List.mem_of_getElem? hissued
    have hothers : ∀ k u, (m.erase idx.toNat).get k = some u →
      m.get k = some u ∧ k ≠ idx.toNat := by
      intro k u hu
      by_cases hk : k = idx.toNat
      · simp [hk] at hu
      · exact ⟨by rwa [Window.get_erase_of_ne hk] at hu, hk⟩
    have herase : ({ e with inFlight := (e.inFlight.remove idx).2 } : Endpoint w Req Resp).Tracks
        (m.erase idx.toNat) issued :=
      { h with
        represents := hrep
        next := h.next
        issued_of_get := fun k u hu => h.issued_of_get k u (hothers k u hu).1
        not_back := fun k u hu => h.not_back k u (hothers k u hu).1 }
    refine ⟨m.erase idx.toNat, ?_, .inr ⟨tx, hissued, by rw [hfinish]; rfl⟩⟩
    rw [hfinish]
    refine herase.complete (fun hq => h.not_issued tx hq hmem) (fun k hk => ?_)
      (h.not_back _ _ hget) (h.lt_calls tx (.inr (.inl hmem))) result
    -- the call had one index only
    obtain ⟨hk, hne⟩ := hothers k tx hk
    refine hne ((List.getElem?_inj (List.getElem?_eq_some_iff.mp hissued).1 h.nodup_issued).mp
      ?_).symm
    rw [hissued, h.issued_of_get _ _ hk]

/-- The call is new. -/
theorem Tracks.call (h : e.Tracks m issued) (req : Req) : (e.call req).Tracks m issued := by
  have hnew : e.calls ∉ e.queued ∧ e.calls ∉ issued ∧ e.calls ∉ e.returned :=
    ⟨fun hmem => (h.lt_calls _ (.inl hmem)).ne rfl,
      fun hmem => (h.lt_calls _ (.inr (.inl hmem))).ne rfl,
      fun hmem => (h.lt_calls _ (.inr (.inr hmem))).ne rfl⟩
  have hlt : e.calls < calls { e with requests := e.requests ++ [req] } := by simp [calls]
  have hgrows : e.calls ≤ calls { e with requests := e.requests ++ [req] } := hlt.le
  have hasked : ∀ q tx, (q, tx) ∈ e.reqRx → (e.requests ++ [req])[tx]? = some q := by
    intro q tx hmem
    have hq := h.asked q tx hmem
    rw [List.getElem?_append_left (List.getElem?_eq_some_iff.mp hq).1, hq]
  have hnext : Tracks { e with requests := e.requests ++ [req] } m issued :=
    { h with
      lt_calls := fun tx htx => (h.lt_calls tx htx).trans_le hgrows
      asked := hasked }
  have hback : ∀ result,
      Tracks ({ e with requests := e.requests ++ [req] }.complete e.calls result) m issued :=
    fun result => hnext.complete hnew.1
      (fun k hk => hnew.2.1 (List.mem_of_getElem? (h.issued_of_get k _ hk))) hnew.2.2 hlt result
  simp only [Endpoint.call]
  split_ifs
  · exact hback _
  · exact { hback (.error .disconnected) with }
  · -- the call waits for its index at the end of the queue
    have hqueued : Endpoint.queued { e with
        requests := e.requests ++ [req]
        reqRx := e.reqRx ++ [(req, e.calls)] } = e.queued ++ [e.calls] := by
      simp [queued]
    exact
      { hnext with
        nodup_queued := by
          rw [hqueued, ← List.concat_eq_append]
          exact h.nodup_queued.concat hnew.1
        not_issued := fun tx htx => by
          rw [hqueued, List.mem_append, List.mem_singleton] at htx
          obtain htx | rfl := htx
          · exact h.not_issued tx htx
          · exact hnew.2.1
        not_returned := fun tx htx => by
          rw [hqueued, List.mem_append, List.mem_singleton] at htx
          obtain htx | rfl := htx
          · exact h.not_returned tx htx
          · exact hnew.2.2
        lt_calls := fun tx htx => by
          rw [hqueued, List.mem_append, List.mem_singleton] at htx
          obtain (htx | rfl) | htx := htx
          · exact (h.lt_calls tx (.inl htx)).trans_le hgrows
          · exact hlt
          · exact (h.lt_calls tx (.inr htx)).trans_le hgrows
        asked := fun q tx htx => by
          rw [List.mem_append, List.mem_singleton] at htx
          obtain htx | hnew := htx
          · exact hasked q tx htx
          · obtain ⟨rfl, rfl⟩ := Prod.mk.inj hnew
            exact List.getElem?_concat_length }

/-- An end without the first of its requests. -/
theorem Tracks.tail (h : e.Tracks m issued) {req : Req} {tx : ℕ} {reqRx : List (Req × ℕ)}
    (hreq : e.reqRx = (req, tx) :: reqRx) :
    ({ e with reqRx } : Endpoint w Req Resp).Tracks m issued ∧
    tx ∉ reqRx.map Prod.snd ∧ tx ∉ issued ∧ tx ∉ e.returned ∧ e.requests[tx]? = some req := by
  have hqueued : e.queued = tx :: reqRx.map Prod.snd := by simp [queued, hreq]
  have hmem : tx ∈ e.queued := by simp [hqueued]
  have hsub : ∀ u ∈ reqRx.map Prod.snd, u ∈ e.queued := fun u hu => by simp [hqueued, hu]
  have hnodup := hqueued ▸ h.nodup_queued
  rw [List.nodup_cons] at hnodup
  refine ⟨?_, hnodup.1, h.not_issued tx hmem, h.not_returned tx hmem,
    h.asked req tx (hreq ▸ List.mem_cons_self)⟩
  exact
    { h with
      nodup_queued := hnodup.2
      not_issued := fun u hu => h.not_issued u (hsub u hu)
      not_returned := fun u hu => h.not_returned u (hsub u hu)
      lt_calls := fun u hu => h.lt_calls u (hu.imp_left (hsub u))
      asked := fun q u hu => h.asked q u (hreq ▸ List.mem_cons_of_mem _ hu) }

/-- There are at most as many indices as calls. -/
theorem Tracks.length_lt (h : e.Tracks m issued) {tx : ℕ} (hissued : tx ∉ issued)
    (hlt : tx < e.calls) :
    issued.length + 1 ≤ e.calls := by
  have hnodup : (tx :: issued).Nodup := List.nodup_cons.mpr ⟨hissued, h.nodup_issued⟩
  -- the calls are numbered from `0` on
  have hsub : tx :: issued ⊆ List.range e.calls := by
    intro u hu
    rw [List.mem_range]
    obtain rfl | hu := List.mem_cons.mp hu
    · exact hlt
    · exact h.lt_calls u (.inr (.inl hu))
  have hle := (List.subperm_of_subset hnodup hsub).length_le
  rwa [List.length_cons, List.length_range] at hle

/-- An index is given to a call. -/
theorem Tracks.push (h : e.Tracks m issued) {tx : ℕ} (hqueued : tx ∉ e.queued)
    (hissued : tx ∉ issued)
    (hback : tx ∉ e.returned) (hlt : tx < e.calls) {inFlight : RingBuf w ℕ}
    (hrep : inFlight.Represents (m.push tx)) :
    ({ e with inFlight } : Endpoint w Req Resp).Tracks (m.push tx) (issued ++ [tx]) := by
  -- only the new index has come to the window
  have hget : ∀ k u, (m.push tx).get k = some u → m.get k = some u ∨ k = m.next ∧ u = tx := by
    intro k u hu
    by_cases hk : k = m.next
    · rw [hk, Window.get_push_next] at hu
      exact .inr ⟨hk, (Option.some.inj hu).symm⟩
    · rw [Window.get_push_of_ne hk] at hu
      exact .inl hu
  exact
    { h with
      represents := hrep
      next := by simp [h.next]
      issued_of_get := fun k u hu => by
        obtain hu | ⟨rfl, rfl⟩ := hget k u hu
        · exact List.getElem?_append_left
            (List.getElem?_eq_some_iff.mp (h.issued_of_get k u hu)).1 ▸
            h.issued_of_get k u hu
        · simp [h.next]
      nodup_issued := by
        rw [← List.concat_eq_append]
        exact h.nodup_issued.concat hissued
      not_issued := fun u hu hmem => by
        rw [List.mem_append, List.mem_singleton] at hmem
        obtain hmem | rfl := hmem
        · exact h.not_issued u hu hmem
        · exact hqueued hu
      not_back := fun k u hu => by
        obtain hu | ⟨-, rfl⟩ := hget k u hu
        · exact h.not_back k u hu
        · exact hback
      lt_calls := fun u hu => by
        rw [List.mem_append, List.mem_singleton] at hu
        obtain hu | (hu | rfl) | hu := hu
        · exact h.lt_calls u (.inl hu)
        · exact h.lt_calls u (.inr (.inl hu))
        · exact hlt
        · exact h.lt_calls u (.inr (.inr hu)) }

/-- What `handle_request` does: the packet that it sends has the index that was given to the call,
and otherwise the call returns an error. -/
theorem Tracks.handleRequest (h : e.Tracks m issued) {req : Req} {tx : ℕ} {reqRx : List (Req × ℕ)}
    (hreq : e.reqRx = (req, tx) :: reqRx) (hcalls : e.calls < 2 ^ w) (sent : Bool)
    {e' : Endpoint w Req Resp} {p : Option (Packet w Req Resp)}
    (hrun : ({ e with reqRx } : Endpoint w Req Resp).handleRequest req tx sent = (e', p)) :
    ∃ m' issued', e'.Tracks m' issued' ∧ issued <+: issued' ∧ e'.panicked = e.panicked ∧
      ((e'.results = e.results ∧ ∃ idx, p = some ⟨.request idx req, tx⟩ ∧
          issued'[idx.toNat]? = some tx) ∨
        p = none ∧ ∃ err, e'.results = e.results ++ [(tx, .error err)]) := by
  obtain ⟨htail, hqueued, hissued, hback, hasked⟩ := h.tail hreq
  have hlt : tx < e.calls := (List.getElem?_eq_some_iff.mp hasked).1
  have hflight : ∀ k, m.get k ≠ some tx :=
    fun k hk => hissued (List.mem_of_getElem? (h.issued_of_get k tx hk))
  rw [Endpoint.handleRequest] at hrun
  by_cases hfull : e.inFlight.capacity ≤ e.inFlight.nextIdx - e.inFlight.minIdx
  · -- there is no room
    rw [RingBuf.add_of_full hfull] at hrun
    obtain ⟨rfl, rfl⟩ := Prod.mk.inj hrun
    exact ⟨m, issued, htail.complete hqueued hflight hback hlt _, List.prefix_rfl, rfl,
      .inr ⟨rfl, _, rfl⟩⟩
  · have hlength := h.length_lt hissued hlt
    have hroom : m.next - m.first < e.inFlight.capacity.toNat := by
      rw [h.represents.full_iff] at hfull
      omega
    obtain ⟨hadd, hrep⟩ := h.represents.add hroom (by rw [h.next]; omega) tx
    have hpush := htail.push hqueued hissued hback hlt hrep
    have hidx : (issued ++ [tx])[e.inFlight.nextIdx.toNat]? = some tx := by
      simp [h.represents.next, h.next]
    split at hrun
    · rename_i idx inFlight heq
      rw [heq] at hadd hrep hpush
      obtain rfl := Except.ok.inj hadd
      split_ifs at hrun with hsent
      · obtain ⟨rfl, rfl⟩ := Prod.mk.inj hrun
        exact ⟨m.push tx, issued ++ [tx], { hpush with }, List.prefix_append _ _, rfl,
          .inl ⟨rfl, _, rfl, hidx⟩⟩
      · -- sending failed, and what was just added is taken out again
        have hget : (m.push tx).get e.inFlight.nextIdx.toNat = some tx := by
          rw [h.represents.next, Window.get_push_next]
        have hremove : inFlight.remove e.inFlight.nextIdx =
            (some tx, (inFlight.remove e.inFlight.nextIdx).2) := Prod.ext (hrep.remove hget).1 rfl
        obtain ⟨m', hfinish, -⟩ := hpush.finish e.inFlight.nextIdx (.error .js)
        rw [Endpoint.finish, hremove] at hfinish
        rw [hremove] at hrun
        obtain ⟨rfl, rfl⟩ := Prod.mk.inj hrun
        exact ⟨m', issued ++ [tx], hfinish, List.prefix_append _ _, rfl, .inr ⟨rfl, _, rfl⟩⟩
    · rename_i tx' inFlight heq
      rw [heq] at hadd
      cases hadd

/-- The senders that are dropped with the manager are those of different calls that have not
returned. -/
theorem Tracks.waiting (h : e.Tracks m issued) :
    e.waiting.Nodup ∧ ∀ tx ∈ e.waiting, tx ∉ e.returned ∧ tx < e.calls := by
  have hstored : ∀ tx ∈ e.inFlight.data.filterMap (Option.map Prod.snd),
      ∃ k, m.get k = some tx := by
    intro tx htx
    obtain ⟨p, hp, hsome⟩ := List.mem_filterMap.mp htx
    obtain ⟨⟨i, u⟩, rfl, rfl⟩ := Option.map_eq_some_iff.mp hsome
    obtain ⟨k, hk, hdata⟩ := List.mem_iff_getElem.mp hp
    exact ⟨_, (h.represents.get_of_getElem hk hdata).1⟩
  have hissued : ∀ {k tx}, m.get k = some tx → tx ∈ issued :=
    fun hk => List.mem_of_getElem? (h.issued_of_get _ _ hk)
  refine ⟨List.nodup_append.mpr ⟨h.nodup_queued, ?_, ?_⟩, fun tx htx => ?_⟩
  · -- two slots hold different indices, and so different calls
    rw [List.Nodup, List.pairwise_filterMap, List.pairwise_iff_getElem]
    intro k k' hk hk' hlt tx htx tx' htx' heq
    obtain ⟨⟨i, u⟩, hi, rfl⟩ := Option.map_eq_some_iff.mp htx
    obtain ⟨⟨i', u'⟩, hi', rfl⟩ := Option.map_eq_some_iff.mp htx'
    obtain ⟨hget, hidx⟩ := h.represents.get_of_getElem hk hi
    obtain ⟨hget', hidx'⟩ := h.represents.get_of_getElem hk' hi'
    have hu := h.issued_of_get _ _ hget
    have hinj : i.toNat = i'.toNat := by
      refine (List.getElem?_inj (List.getElem?_eq_some_iff.mp hu).1 h.nodup_issued).mp ?_
      rw [hu, h.issued_of_get _ _ hget']
      exact congrArg some heq
    rw [BitVec.eq_of_toNat_eq hinj, hidx'] at hidx
    omega
  · rintro tx htx tx' htx' rfl
    obtain ⟨k, hk⟩ := hstored tx htx'
    exact h.not_issued tx htx (hissued hk)
  · obtain htx | htx := List.mem_append.mp htx
    · exact ⟨h.not_returned tx htx, h.lt_calls tx (.inl htx)⟩
    · obtain ⟨k, hk⟩ := hstored tx htx
      exact ⟨h.not_back k tx hk, h.lt_calls tx (.inr (.inl (hissued hk)))⟩

/-! ### What is left as it is -/

/-- A step of the client or the manager leaves the rest of its end as it is. -/
structure Frame (e e' : Endpoint w Req Resp) : Prop where
  respRx : e'.respRx = e.respRx
  serverReqRx : e'.serverReqRx = e.serverReqRx
  closed : e'.closed = e.closed
  stopped : e'.stopped = e.stopped
  requests : e.requests <+: e'.requests

theorem Frame.calls (h : Frame e e') : e.calls ≤ e'.calls := h.requests.length_le

theorem frame_call (req : Req) : Frame e (e.call req) := by
  simp only [Endpoint.call]
  split_ifs <;> exact ⟨rfl, rfl, rfl, rfl, List.prefix_append _ _⟩

theorem frame_finish (idx : Usize w) (result : Except TransportError Resp) :
    Frame e (e.finish idx result) ∧ (e.finish idx result).panicked = e.panicked := by
  rw [Endpoint.finish]
  split <;> exact ⟨⟨rfl, rfl, rfl, rfl, List.prefix_rfl⟩, rfl⟩

theorem frame_handleRequest (req : Req) (tx : ℕ) (sent : Bool) :
    Frame e (e.handleRequest req tx sent).1 ∧
      ∀ p, (e.handleRequest req tx sent).2 = some p → ∃ idx, p = ⟨.request idx req, tx⟩ := by
  rw [Endpoint.handleRequest]
  split
  · rename_i idx inFlight _
    split_ifs
    · exact ⟨⟨rfl, rfl, rfl, rfl, List.prefix_rfl⟩, fun p hp => ⟨idx, (Option.some.inj hp).symm⟩⟩
    · split <;> exact ⟨⟨rfl, rfl, rfl, rfl, List.prefix_rfl⟩, by simp⟩
  · exact ⟨⟨rfl, rfl, rfl, rfl, List.prefix_rfl⟩, by simp⟩

/-- Calls return once, and they return an error or what `handled` says of them. -/
structure Returns (e : Endpoint w Req Resp) (handled : ℕ → Except TransportError Resp → Prop) :
    Prop where
  nodup : e.returned.Nodup
  lt_calls : ∀ tx ∈ e.returned, tx < e.calls
  answered : ∀ tx result, (tx, result) ∈ e.results →
    handled tx result ∨ ∃ err, result = .error err

variable {handled : ℕ → Except TransportError Resp → Prop}

theorem Returns.of_eq (h : e.Returns handled) (hresults : e'.results = e.results)
    (hcalls : e.calls ≤ e'.calls) : e'.Returns handled where
  nodup := by
    rw [returned, hresults]
    exact h.nodup
  lt_calls tx htx := by
    rw [returned, hresults] at htx
    exact (h.lt_calls tx htx).trans_le hcalls
  answered tx result hmem := h.answered tx result (hresults ▸ hmem)

/-- More calls return. -/
theorem Returns.append (h : e.Returns handled) {more : List (ℕ × Except TransportError Resp)}
    (hresults : e'.results = e.results ++ more) (hcalls : e.calls ≤ e'.calls)
    (hnodup : (more.map Prod.fst).Nodup)
    (hnew : ∀ p ∈ more, p.1 ∉ e.returned ∧ p.1 < e'.calls ∧
      (handled p.1 p.2 ∨ ∃ err, p.2 = .error err)) :
    e'.Returns handled where
  nodup := by
    rw [returned, hresults, List.map_append]
    refine List.nodup_append.mpr ⟨h.nodup, hnodup, ?_⟩
    rintro tx htx tx' htx' rfl
    obtain ⟨p, hp, rfl⟩ := List.mem_map.mp htx'
    exact (hnew p hp).1 htx
  lt_calls tx htx := by
    rw [returned, hresults, List.map_append, List.mem_append] at htx
    obtain htx | htx := htx
    · exact (h.lt_calls tx htx).trans_le hcalls
    · obtain ⟨p, hp, rfl⟩ := List.mem_map.mp htx
      exact (hnew p hp).2.1
  answered tx result hmem := by
    rw [hresults, List.mem_append] at hmem
    exact hmem.elim (h.answered tx result) fun hp => (hnew _ hp).2.2

theorem Returns.mono (h : e.Returns handled) {handled' : ℕ → Except TransportError Resp → Prop}
    (hsub : ∀ tx result, handled tx result → handled' tx result) : e.Returns handled' :=
  { h with answered := fun tx result hmem => (h.answered tx result hmem).imp_left (hsub _ _) }

/-- A call returns at once, when its client is not connected. -/
theorem Returns.call (h : e.Returns handled) (req : Req) : (e.call req).Returns handled := by
  have hback : ∀ e' : Endpoint w Req Resp,
      e'.results = e.results ++ [(e.calls, .error .disconnected)] →
      e'.requests = e.requests ++ [req] → e'.Returns handled := by
    intro e' hresults hrequests
    have hcalls : e'.calls = e.calls + 1 := by simp [calls, hrequests]
    refine h.append hresults (by omega) (List.nodup_singleton _) fun p hp => ?_
    rw [List.mem_singleton.mp hp]
    exact ⟨fun hmem => (h.lt_calls _ hmem).ne rfl, by rw [hcalls]; exact Nat.lt_succ_self _,
      .inr ⟨_, rfl⟩⟩
  simp only [Endpoint.call]
  split_ifs
  · exact hback _ rfl rfl
  · exact hback _ rfl rfl
  · exact h.of_eq rfl (by simp [calls])

end Endpoint

namespace Transport

variable {c c' : Transport w Req Resp} {s : Side}

/-! ### Both ends -/

/-- A request of an end is in flight or waits for its handler. -/
def Asks (c : Transport w Req Resp) (s : Side) (idx : Usize w) (req : Req) (origin : ℕ) : Prop :=
  ⟨.request idx req, origin⟩ ∈ c.dataChannel s.other ∨
    ⟨idx, req, origin⟩ ∈ (c.ends s.other).serverReqRx

/-- A response for an end is in flight or waits for the manager. -/
def Answers (c : Transport w Req Resp) (s : Side) (idx : Usize w) (origin : ℕ)
    (resp : Except TransportError Resp) : Prop :=
  ⟨.response idx resp, origin⟩ ∈ c.dataChannel s ∨ ⟨idx, resp, origin⟩ ∈ (c.ends s).respRx

/-- The handler of the other end has computed the response from the request of the call. -/
def Computed (c : Transport w Req Resp) (s : Side) (tx : ℕ) (resp : Except TransportError Resp) :
    Prop :=
  ∃ req, (c.ends s).requests[tx]? = some req ∧ ⟨tx, req, resp⟩ ∈ c.handled s

/-- While the manager of an end goes on, what is in flight for it carries the indices of the calls
that it was sent for, the requests are those of these calls, and the responses those that were
computed for them. -/
structure Tagged (c : Transport w Req Resp) (s : Side) (issued : List ℕ) : Prop where
  asks : ∀ idx req origin, c.Asks s idx req origin →
    issued[idx.toNat]? = some origin ∧ (c.ends s).requests[origin]? = some req
  answers : ∀ idx origin resp, c.Answers s idx origin resp →
    issued[idx.toNat]? = some origin ∧ c.Computed s origin resp

/-- Calls return once, and what they return is for them. -/
structure Correlated (c : Transport w Req Resp) (s : Side) : Prop where
  returns : (c.ends s).Returns (c.Computed s)
  panicked : (c.ends s).panicked = false
  closed : (c.ends s).stopped = true → (c.ends s).closed = true
  tracked : (c.ends s).stopped = false →
    ∃ m issued, (c.ends s).Tracks m issued ∧ c.Tagged s issued

theorem correlated_started (hw : 10 < w) (s : Side) :
    (started hw : Transport w Req Resp).Correlated s where
  returns :=
    { nodup := List.nodup_nil
      lt_calls := fun tx h => by simp [started, Endpoint.returned, Endpoint.started] at h
      answered := fun tx result h => by simp [started, Endpoint.started] at h }
  panicked := rfl
  closed h := by simp [started, Endpoint.started] at h
  tracked _ := by
    refine ⟨_, _, Endpoint.tracks_started hw,
      ⟨fun idx req origin h => ?_, fun idx origin resp h => ?_⟩⟩
    · simp [Asks, started, Endpoint.started] at h
    · simp [Answers, started, Endpoint.started] at h

theorem Tagged.extend {issued issued' : List ℕ} (h : c.Tagged s issued)
    (hpre : issued <+: issued') :
    c.Tagged s issued' where
  asks idx req origin hask :=
    (h.asks idx req origin hask).imp_left fun hidx => hpre.getElem?_eq_some hidx
  answers idx origin resp hans :=
    (h.answers idx origin resp hans).imp_left fun hidx => hpre.getElem?_eq_some hidx

/-- What is in flight for an end, or has arrived, is among what was, or answers what was asked. -/
structure Flows (c c' : Transport w Req Resp) (s : Side) : Prop where
  asks : ∀ idx req origin, c'.Asks s idx req origin → c.Asks s idx req origin
  answers : ∀ idx origin resp, c'.Answers s idx origin resp → c.Answers s idx origin resp ∨
    ∃ req, c.Asks s idx req origin ∧ ⟨origin, req, resp⟩ ∈ c'.handled s
  handled : ∀ p ∈ c.handled s, p ∈ c'.handled s
  requests : (c.ends s).requests <+: (c'.ends s).requests

theorem Flows.computed (hf : c.Flows c' s) {tx : ℕ} {resp : Except TransportError Resp}
    (h : c.Computed s tx resp) : c'.Computed s tx resp :=
  h.imp fun _ h => ⟨hf.requests.getElem?_eq_some h.1, hf.handled _ h.2⟩

theorem Tagged.flow {issued : List ℕ} (h : c.Tagged s issued) (hf : c.Flows c' s) :
    c'.Tagged s issued where
  asks idx req origin hask := (h.asks idx req origin (hf.asks idx req origin hask)).imp_right
    fun hreq => hf.requests.getElem?_eq_some hreq
  answers idx origin resp hans := by
    obtain hans | ⟨req, hask, hmem⟩ := hf.answers idx origin resp hans
    · exact (h.answers idx origin resp hans).imp_right hf.computed
    · obtain ⟨hidx, hreq⟩ := h.asks idx req origin hask
      exact ⟨hidx, req, hf.requests.getElem?_eq_some hreq, hmem⟩

/-- The parts of an end that only its client and its manager change. -/
structure Idle (e e' : Endpoint w Req Resp) : Prop where
  requests : e'.requests = e.requests
  results : e'.results = e.results
  panicked : e'.panicked = e.panicked
  stopped : e'.stopped = e.stopped
  closed : e.closed = true → e'.closed = true
  reqRx : e'.reqRx = e.reqRx
  inFlight : e'.inFlight = e.inFlight

theorem Idle.refl (e : Endpoint w Req Resp) : Idle e e := ⟨rfl, rfl, rfl, rfl, id, rfl, rfl⟩

theorem Idle.calls {e e' : Endpoint w Req Resp} (hi : Idle e e') : e'.calls = e.calls :=
  congrArg List.length hi.requests

theorem Idle.tracks {e e' : Endpoint w Req Resp} (hi : Idle e e') {m : Window ℕ} {issued : List ℕ}
    (h : e.Tracks m issued) : e'.Tracks m issued := by
  have hqueued : e'.queued = e.queued := congrArg (List.map Prod.snd) hi.reqRx
  have hreturned : e'.returned = e.returned := congrArg (List.map Prod.fst) hi.results
  exact
    { h with
      represents := hi.inFlight ▸ h.represents
      nodup_queued := hqueued ▸ h.nodup_queued
      nodup_returned := hreturned ▸ h.nodup_returned
      not_issued := hqueued ▸ h.not_issued
      not_returned := hqueued ▸ hreturned ▸ h.not_returned
      not_back := hreturned ▸ h.not_back
      lt_calls := hqueued ▸ hreturned ▸ hi.calls ▸ h.lt_calls
      asked := hi.reqRx ▸ hi.requests ▸ h.asked }

/-- A step that is not one of the client or the manager of the end. -/
theorem Correlated.idle (h : c.Correlated s) (hi : Idle (c.ends s) (c'.ends s))
    (hf : c.Flows c' s) :
    c'.Correlated s where
  returns := (h.returns.of_eq hi.results hi.calls.ge).mono fun _ _ => hf.computed
  panicked := hi.panicked.trans h.panicked
  closed hst := hi.closed (h.closed (hi.stopped ▸ hst))
  tracked hst := by
    obtain ⟨m, issued, htracks, htagged⟩ := h.tracked (hi.stopped ▸ hst)
    exact ⟨m, issued, hi.tracks htracks, htagged.flow hf⟩

@[simp] theorem ends_setEnd (s : Side) (e : Endpoint w Req Resp) : (c.setEnd s e).ends s = e :=
  Function.update_self ..

theorem ends_setEnd_of_ne {s u : Side} (h : s ≠ u) (e : Endpoint w Req Resp) :
    (c.setEnd u e).ends s = c.ends s :=
  Function.update_of_ne h ..

/-- One end changes, but not what has arrived there. -/
theorem flows_setEnd {u : Side} {e : Endpoint w Req Resp} (hresp : e.respRx ⊆ (c.ends u).respRx)
    (hreq : e.serverReqRx ⊆ (c.ends u).serverReqRx)
    (hrequests : (c.ends u).requests <+: e.requests) (s : Side) : c.Flows (c.setEnd u e) s where
  asks idx req origin := by
    refine Or.imp_right fun hmem => ?_
    by_cases hu : s.other = u
    · subst hu
      rw [ends_setEnd] at hmem
      exact hreq hmem
    · rwa [ends_setEnd_of_ne hu] at hmem
  answers idx origin resp hans := by
    refine .inl (hans.imp_right fun hmem => ?_)
    by_cases hu : s = u
    · subst hu
      rw [ends_setEnd] at hmem
      exact hresp hmem
    · rwa [ends_setEnd_of_ne hu] at hmem
  handled _ hp := hp
  requests := by
    by_cases hu : s = u
    · subst hu
      rwa [ends_setEnd]
    · rw [ends_setEnd_of_ne hu]

/-- A step of the client or the manager of one end leaves the calls of the other one alone. -/
theorem Correlated.setEnd_of_ne {u : Side} (h : c.Correlated s) (hu : s ≠ u)
    {e : Endpoint w Req Resp}
    (hframe : Endpoint.Frame (c.ends u) e) (hresp : e.respRx ⊆ (c.ends u).respRx) :
    (c.setEnd u e).Correlated s :=
  h.idle (ends_setEnd_of_ne hu e ▸ .refl _)
    (flows_setEnd hresp (hframe.serverReqRx ▸ List.Subset.refl _) hframe.requests s)

/-- A packet is sent, and its tag is right. -/
theorem Flows.send (hf : c.Flows c' s) (u : Side) (p : Packet w Req Resp)
    (hreq : ∀ idx req, p.message = .request idx req → u ≠ s.other)
    (hresp : ∀ idx resp, p.message = .response idx resp → u = s →
      ∃ req, c.Asks s idx req p.origin ∧ ⟨p.origin, req, resp⟩ ∈ c'.handled s) :
    c.Flows (c'.send u p) s where
  asks idx req origin := by
    rintro (hmem | hmem)
    · refine hf.asks idx req origin (.inl ?_)
      by_cases hu : s.other = u
      · simp only [Transport.send, setDataChannel, hu, Function.update_self, List.mem_append,
          List.mem_singleton] at hmem
        obtain hmem | rfl := hmem
        · exact hu ▸ hmem
        · exact absurd hu.symm (hreq idx req rfl)
      · simpa only [Transport.send, setDataChannel, Function.update_of_ne hu] using hmem
    · exact hf.asks idx req origin (.inr hmem)
  answers idx origin resp := by
    rintro (hmem | hmem)
    · by_cases hu : s = u
      · simp only [Transport.send, setDataChannel, hu, Function.update_self, List.mem_append,
          List.mem_singleton] at hmem
        obtain hmem | rfl := hmem
        · exact hf.answers idx origin resp (.inl (hu ▸ hmem))
        · exact .inr (hresp idx resp rfl hu.symm)
      · refine hf.answers idx origin resp (.inl ?_)
        simpa only [Transport.send, setDataChannel, Function.update_of_ne hu] using hmem
    · exact hf.answers idx origin resp (.inr hmem)
  handled := hf.handled
  requests := hf.requests

/-- Packets are lost. -/
theorem flows_setDataChannel {u : Side} {ps : List (Packet w Req Resp)} (hps : ps ⊆ c.dataChannel u)
    (s : Side) : c.Flows (c.setDataChannel u ps) s where
  asks idx req origin := by
    refine Or.imp_left fun hmem => ?_
    by_cases hu : s.other = u
    · rw [hu] at hmem ⊢
      exact hps (by simpa only [setDataChannel, Function.update_self] using hmem)
    · simpa only [setDataChannel, Function.update_of_ne hu] using hmem
  answers idx origin resp := by
    refine fun hans => .inl (hans.imp_left fun hmem => ?_)
    by_cases hu : s = u
    · rw [hu] at hmem ⊢
      exact hps (by simpa only [setDataChannel, Function.update_self] using hmem)
    · simpa only [setDataChannel, Function.update_of_ne hu] using hmem
  handled _ hp := hp
  requests := List.prefix_rfl

/-- A packet arrives. -/
theorem flows_deliver {u : Side} {k : ℕ} {p : Packet w Req Resp}
    (hp : (c.dataChannel u)[k]? = some p)
    (s : Side) : c.Flows ((c.setDataChannel u ((c.dataChannel u).eraseIdx k)).setEnd u
      ((c.ends u).onMessage p)) s where
  asks idx req origin := by
    rintro (hmem | hmem)
    · exact (flows_setDataChannel List.eraseIdx_subset s).asks idx req origin (.inl hmem)
    · by_cases hu : s.other = u
      · subst hu
        -- a request becomes one that is to be handled, a response stays what it was
        rw [ends_setEnd, Endpoint.onMessage] at hmem
        split at hmem
        · rename_i i q hpm
          rw [List.mem_append, List.mem_singleton] at hmem
          obtain hmem | heq := hmem
          · exact .inr hmem
          · obtain ⟨rfl, rfl, rfl⟩ := Pending.mk.inj heq
            refine .inl ?_
            rw [← hpm]
            exact List.mem_of_getElem? hp
        · exact .inr hmem
      · rw [ends_setEnd_of_ne hu] at hmem
        exact .inr hmem
  answers idx origin resp := by
    rintro (hmem | hmem)
    · exact (flows_setDataChannel List.eraseIdx_subset s).answers idx origin resp (.inl hmem)
    · refine .inl ?_
      by_cases hu : s = u
      · subst hu
        rw [ends_setEnd, Endpoint.onMessage] at hmem
        split at hmem
        · exact .inr hmem
        · rename_i i q hpm
          rw [List.mem_append, List.mem_singleton] at hmem
          obtain hmem | heq := hmem
          · exact .inr hmem
          · obtain ⟨rfl, rfl, rfl⟩ := Reply.mk.inj heq
            refine .inl ?_
            rw [← hpm]
            exact List.mem_of_getElem? hp
      · rw [ends_setEnd_of_ne hu] at hmem
        exact .inr hmem
  handled _ hp := hp
  requests := by
    by_cases hu : s = u
    · subst hu
      rw [ends_setEnd, Endpoint.onMessage]
      split <;> exact List.prefix_rfl
    · rw [ends_setEnd_of_ne hu]
      exact List.prefix_rfl

/-- A handler returns. -/
theorem flows_handle (u : Side) (k : ℕ) (p : Pending w Req) (resp : Except TransportError Resp)
    (s : Side) : c.Flows (c.handle u k p resp) s := by
  have hflow : c.Flows (c.setEnd u
      { c.ends u with serverReqRx := (c.ends u).serverReqRx.eraseIdx k }) s := by
    refine flows_setEnd ?_ ?_ ?_ s
    · exact List.Subset.refl _
    · exact List.eraseIdx_subset
    · exact List.prefix_rfl
  have hsub : ∀ q ∈ c.handled s, q ∈ (c.handle u k p resp).handled s := by
    intro q hq
    by_cases hu : s = u.other
    · subst hu
      simpa only [Transport.handle, Function.update_self, List.mem_append] using .inl hq
    · simpa only [Transport.handle, Function.update_of_ne hu] using hq
  exact ⟨hflow.asks, fun idx origin resp' hans => (hflow.answers idx origin resp' hans).imp_right
    (Exists.imp fun _ => And.imp_right (hsub _)), hsub, hflow.requests⟩

/-! ### Steps -/

/-- A step of the client or the manager of the end itself. -/
theorem Correlated.own (h : c.Correlated s) {e : Endpoint w Req Resp}
    (hframe : Endpoint.Frame { c.ends s with respRx := e.respRx } e)
    (hresp : e.respRx ⊆ (c.ends s).respRx) (hreturns : e.Returns (c.Computed s))
    (hpanicked : e.panicked = false)
    (htracked : (c.ends s).stopped = false → ∃ m issued, e.Tracks m issued ∧ c.Tagged s issued) :
    (c.setEnd s e).Correlated s where
  returns := by
    rw [ends_setEnd]
    exact hreturns.mono fun _ _ => (flows_setEnd hresp (hframe.serverReqRx ▸ List.Subset.refl _)
      hframe.requests s).computed
  panicked := by rwa [ends_setEnd]
  closed hst := by
    rw [ends_setEnd] at hst ⊢
    rw [hframe.closed]
    exact h.closed (hframe.stopped ▸ hst)
  tracked hst := by
    rw [ends_setEnd] at hst ⊢
    obtain ⟨m, issued, htracks, htagged⟩ := htracked (hframe.stopped ▸ hst)
    exact ⟨m, issued, htracks,
      htagged.flow (flows_setEnd hresp (hframe.serverReqRx ▸ List.Subset.refl _)
        hframe.requests s)⟩

theorem Correlated.call (h : c.Correlated s) (u : Side) (req : Req) :
    (c.setEnd u ((c.ends u).call req)).Correlated s := by
  have hframe := Endpoint.frame_call (e := c.ends u) req
  have hresp : ((c.ends u).call req).respRx ⊆ (c.ends u).respRx := by
    rw [hframe.respRx]
    exact List.Subset.refl _
  by_cases hu : s = u
  · subst hu
    refine h.own { hframe with respRx := rfl } hresp (h.returns.call req) ?_ fun hst => ?_
    · rw [← h.panicked, Endpoint.call]
      dsimp only
      split_ifs <;> rfl
    · obtain ⟨m, issued, htracks, htagged⟩ := h.tracked hst
      exact ⟨m, issued, htracks.call req, htagged⟩
  · exact h.setEnd_of_ne hu hframe hresp

/-- The manager takes an index, from a response or a timer, and completes what is in flight under
it with a result that is right for the call to which the index was given. -/
theorem Correlated.finish (h : c.Correlated s) {u : Side} {e : Endpoint w Req Resp}
    (hidle : Idle (c.ends u) e) (hclosed : e.closed = (c.ends u).closed)
    (hresp : e.respRx ⊆ (c.ends u).respRx) (hreq : e.serverReqRx = (c.ends u).serverReqRx)
    (hst : (c.ends u).stopped = false) (idx : Usize w) {result : Except TransportError Resp}
    (hresult : ∀ tx issued, c.Tagged u issued → issued[idx.toNat]? = some tx →
      c.Computed u tx result ∨ ∃ err, result = .error err) :
    (c.setEnd u (e.finish idx result)).Correlated s := by
  obtain ⟨hframe, hpanicked⟩ := Endpoint.frame_finish (e := e) idx result
  have hresp' : (e.finish idx result).respRx ⊆ (c.ends u).respRx := hframe.respRx ▸ hresp
  have hreq' := hframe.serverReqRx.trans hreq
  by_cases hu : s = u
  · subst hu
    obtain ⟨m, issued, htracks, htagged⟩ := h.tracked hst
    obtain ⟨m', hfinish, hresults⟩ := (hidle.tracks htracks).finish idx result
    refine h.own ⟨rfl, hreq', hframe.closed.trans hclosed, hframe.stopped.trans hidle.stopped,
      hidle.requests ▸ hframe.requests⟩ hresp' ⟨hfinish.nodup_returned,
      fun tx htx => hfinish.lt_calls tx (.inr (.inr htx)),
        fun tx res hmem => ?_⟩ (hpanicked.trans (hidle.panicked.trans h.panicked))
      fun _ => ⟨m', issued, hfinish, htagged⟩
    obtain heq | ⟨tx', hissued, heq⟩ := hresults
    · exact h.returns.answered tx res (by rwa [← hidle.results, ← heq])
    · rw [heq, List.mem_append, List.mem_singleton] at hmem
      obtain hmem | hnew := hmem
      · exact h.returns.answered tx res (hidle.results ▸ hmem)
      · -- the new result is for the call that the index was given to
        obtain ⟨rfl, rfl⟩ := Prod.mk.inj hnew
        exact hresult tx issued htagged hissued
  · refine h.idle (ends_setEnd_of_ne hu _ ▸ .refl _)
      (flows_setEnd hresp' (hreq' ▸ List.Subset.refl _) (hidle.requests ▸ hframe.requests) s)

/-- The request of a call is sent under the index that was given to the call. -/
theorem Tagged.sendRequest {issued : List ℕ} (h : c.Tagged s issued) {idx : Usize w} {tx : ℕ}
    (hidx : issued[idx.toNat]? = some tx) {req : Req}
    (hreq : (c.ends s).requests[tx]? = some req) :
    (c.send s.other ⟨.request idx req, tx⟩).Tagged s issued where
  asks i q origin := by
    rintro (hmem | hmem)
    · simp only [Transport.send, setDataChannel, Function.update_self, List.mem_append,
        List.mem_singleton, Packet.mk.injEq, Message.request.injEq] at hmem
      obtain hmem | ⟨⟨rfl, rfl⟩, rfl⟩ := hmem
      · exact h.asks i q origin (.inl hmem)
      · exact ⟨hidx, hreq⟩
    · exact h.asks i q origin (.inr hmem)
  answers i origin resp hans := by
    refine h.answers i origin resp (hans.imp_left fun hmem => ?_)
    simpa only [Transport.send, setDataChannel, Function.update_of_ne s.other_ne.symm] using hmem

/-- The manager takes a request. -/
theorem Correlated.request (h : c.Correlated s) {u : Side} {req : Req} {tx : ℕ}
    {reqRx : List (Req × ℕ)} (hst : (c.ends u).stopped = false)
    (hreq : (c.ends u).reqRx = (req, tx) :: reqRx) (sent : Bool) {e : Endpoint w Req Resp}
    {p : Option (Packet w Req Resp)} (hcalls : s = u → (c.ends u).calls < 2 ^ w)
    (hrun : ({ c.ends u with reqRx } : Endpoint w Req Resp).handleRequest req tx sent = (e, p)) :
    (∀ q, p = some q → ((c.setEnd u e).send u.other q).Correlated s) ∧
      (p = none → (c.setEnd u e).Correlated s) := by
  obtain ⟨hframe, hpacket⟩ := Endpoint.frame_handleRequest
    (e := ({ c.ends u with reqRx } : Endpoint w Req Resp)) req tx sent
  rw [hrun] at hframe hpacket
  have hresp : e.respRx ⊆ (c.ends u).respRx := by
    rw [hframe.respRx]
    exact List.Subset.refl _
  by_cases hu : s = u
  · subst hu
    obtain ⟨m, issued, htracks, htagged⟩ := h.tracked hst
    obtain ⟨m', issued', htracks', hpre, hpanicked, hcase⟩ :=
      htracks.handleRequest hreq (hcalls rfl) sent hrun
    have hown : (c.setEnd s e).Correlated s := by
      refine h.own ⟨rfl, hframe.serverReqRx, hframe.closed, hframe.stopped, hframe.requests⟩ hresp
        ⟨htracks'.nodup_returned, fun u hu => htracks'.lt_calls u (.inr (.inr hu)),
          fun u res hmem => ?_⟩ (hpanicked.trans h.panicked)
        fun _ => ⟨m', issued', htracks', htagged.extend hpre⟩
      obtain ⟨heq, -⟩ | ⟨-, err, heq⟩ := hcase
      · exact h.returns.answered u res (heq ▸ hmem)
      · rw [heq, List.mem_append, List.mem_singleton] at hmem
        obtain hmem | hnew := hmem
        · exact h.returns.answered u res hmem
        · exact .inr ⟨err, (Prod.mk.inj hnew).2⟩
    -- a packet is sent under the index that was given to this call
    refine ⟨fun q hq => ?_, fun _ => hown⟩
    obtain ⟨-, idx, hp, hidx⟩ | ⟨hnone, -⟩ := hcase
    · obtain rfl := Option.some.inj (hq.symm.trans hp)
      have htagged' : (c.setEnd s e).Tagged s issued' :=
        (htagged.extend hpre).flow (flows_setEnd hresp (hframe.serverReqRx ▸ List.Subset.refl _)
          hframe.requests s)
      refine ⟨hown.returns, hown.panicked, hown.closed, fun _ => ⟨m', issued', ?_, ?_⟩⟩
      · change ((c.setEnd s e).ends s).Tracks m' issued'
        rwa [ends_setEnd]
      · refine htagged'.sendRequest hidx ?_
        rw [ends_setEnd]
        exact hframe.requests.getElem?_eq_some
          (htracks.asked req tx (hreq ▸ List.mem_cons_self))
    · cases hq.symm.trans hnone
  · have hother := h.setEnd_of_ne hu (e := e)
      ⟨hframe.respRx, hframe.serverReqRx, hframe.closed, hframe.stopped, hframe.requests⟩ hresp
    refine ⟨fun q hq => ?_, fun _ => hother⟩
    obtain ⟨idx, rfl⟩ := hpacket q hq
    refine hother.idle (.refl _)
      (Flows.send ⟨fun _ _ _ => id, fun _ _ _ => .inl, fun _ => id, List.prefix_rfl⟩ u.other _
      (fun _ _ _ hs => ?_) fun _ _ hmsg => by cases hmsg)
    rw [Side.eq_other hu, Side.other_other] at hs
    exact u.other_ne hs

/-- The manager returns. -/
theorem Correlated.stop (h : c.Correlated s) {u : Side} (hclosed : (c.ends u).closed = true)
    (hst : (c.ends u).stopped = false) : (c.setEnd u (c.ends u).stop).Correlated s := by
  by_cases hu : s = u
  · subst hu
    obtain ⟨m, issued, htracks, -⟩ := h.tracked hst
    obtain ⟨hnodup, hwaiting⟩ := htracks.waiting
    constructor
    · rw [ends_setEnd]
      have hreturns := h.returns.mono fun _ _ => (flows_setEnd (e := (c.ends s).stop)
        (List.Subset.refl _) (List.Subset.refl _) List.prefix_rfl s).computed
      refine hreturns.append rfl le_rfl (by simpa [Function.comp_def] using hnodup) fun p hp => ?_
      obtain ⟨tx, htx, rfl⟩ := List.mem_map.mp hp
      exact ⟨(hwaiting tx htx).1, (hwaiting tx htx).2, .inr ⟨_, rfl⟩⟩
    · rw [ends_setEnd]
      exact h.panicked
    · rw [ends_setEnd]
      exact fun _ => hclosed
    · rw [ends_setEnd]
      intro hgoing
      cases hgoing
  · refine h.idle (ends_setEnd_of_ne hu _ ▸ .refl _) (flows_setEnd ?_ ?_ ?_ s)
    · exact List.Subset.refl _
    · exact List.Subset.refl _
    · exact List.prefix_rfl

/-- **One step** keeps requests and responses together. -/
theorem Correlated.exec (h : c.Correlated s) {a : Action Req Resp} (hexec : c.exec a = some c')
    (hcalls : (c.ends s).calls < 2 ^ w) : c'.Correlated s := by
  cases a with
  | call u req =>
    obtain rfl := Option.some.inj hexec
    exact h.call u req
  | request u sent =>
    simp only [Transport.exec] at hexec
    split_ifs at hexec with hst
    split at hexec
    · cases hexec
    · rename_i req tx reqRx hreq
      have hst' : (c.ends u).stopped = false := by simpa using hst
      split at hexec
      · rename_i e p hrun
        obtain rfl := Option.some.inj hexec
        exact (h.request hst' hreq sent (fun hu => hu ▸ hcalls) hrun).1 p rfl
      · rename_i e hrun
        obtain rfl := Option.some.inj hexec
        exact (h.request hst' hreq sent (fun hu => hu ▸ hcalls) hrun).2 rfl
  | response u k =>
    simp only [Transport.exec] at hexec
    split_ifs at hexec with hst
    obtain ⟨r, hr, rfl⟩ := Option.map_eq_some_iff.mp hexec
    refine h.finish (e := { c.ends u with respRx := (c.ends u).respRx.eraseIdx k })
      ⟨rfl, rfl, rfl, rfl, id, rfl, rfl⟩ rfl List.eraseIdx_subset rfl (by simpa using hst) r.idx
      fun tx issued htagged hissued => .inl ?_
    -- a response on its way names the call that its index was given to
    obtain ⟨horigin, hmem⟩ := htagged.answers r.idx r.origin r.resp
      (.inr (List.mem_of_getElem? hr))
    rw [horigin] at hissued
    exact Option.some.inj hissued ▸ hmem
  | timeout u k =>
    simp only [Transport.exec] at hexec
    split_ifs at hexec with hst
    obtain ⟨idx, -, rfl⟩ := Option.map_eq_some_iff.mp hexec
    exact h.finish (e := { c.ends u with timeoutRx := (c.ends u).timeoutRx.eraseIdx k })
      ⟨rfl, rfl, rfl, rfl, id, rfl, rfl⟩ rfl (List.Subset.refl _) rfl (by simpa using hst) idx
      fun _ _ _ _ => .inr ⟨_, rfl⟩
  | deliver u k =>
    obtain ⟨p, hp, rfl⟩ := Option.map_eq_some_iff.mp hexec
    refine h.idle ?_ (flows_deliver hp s)
    by_cases hu : s = u
    · subst hu
      rw [ends_setEnd, Endpoint.onMessage]
      split <;> exact ⟨rfl, rfl, rfl, rfl, id, rfl, rfl⟩
    · rw [ends_setEnd_of_ne hu]
      exact .refl _
  | lose u k =>
    obtain ⟨p, -, rfl⟩ := Option.map_eq_some_iff.mp hexec
    exact h.idle (.refl _) (flows_setDataChannel List.eraseIdx_subset s)
  | handle u k resp sent =>
    obtain ⟨p, hp, rfl⟩ := Option.map_eq_some_iff.mp hexec
    have hidle : Idle (c.ends s) ((c.handle u k p resp).ends s) := by
      by_cases hu : s = u
      · subst hu
        simp only [Transport.handle, ends_setEnd]
        exact ⟨rfl, rfl, rfl, rfl, id, rfl, rfl⟩
      · simp only [Transport.handle, ends_setEnd_of_ne hu]
        exact .refl _
    have hflow := flows_handle u k p resp s (c := c)
    split_ifs
    · refine h.idle hidle (hflow.send u.other _ (fun _ _ hmsg => by cases hmsg)
      fun idx res hmsg hu => ?_)
      -- the response is for the end whose request was handled
      obtain ⟨rfl, rfl⟩ := Message.response.inj hmsg
      subst hu
      refine ⟨p.req, .inr ?_, ?_⟩
      · rw [Side.other_other]
        exact List.mem_of_getElem? hp
      · simp [Transport.handle]
    · exact h.idle hidle hflow
  | close u =>
    obtain rfl := Option.some.inj hexec
    refine h.idle ?_ (flows_setEnd ?_ ?_ ?_ s)
    · by_cases hu : s = u
      · subst hu
        rw [ends_setEnd]
        exact ⟨rfl, rfl, rfl, rfl, fun _ => rfl, rfl, rfl⟩
      · rw [ends_setEnd_of_ne hu]
        exact .refl _
    · exact List.Subset.refl _
    · exact List.Subset.refl _
    · exact List.prefix_rfl
  | stop u =>
    simp only [Transport.exec] at hexec
    split_ifs at hexec with hst
    obtain rfl := Option.some.inj hexec
    exact h.stop hst.1 (by simpa using hst.2)

theorem calls_le_setEnd {u : Side} {e : Endpoint w Req Resp} (h : (c.ends u).calls ≤ e.calls) :
    (c.ends s).calls ≤ ((c.setEnd u e).ends s).calls := by
  by_cases hu : s = u
  · subst hu
    rwa [ends_setEnd]
  · rw [ends_setEnd_of_ne hu]

/-- The number of calls grows. -/
theorem calls_le_of_exec {a : Action Req Resp} (hexec : c.exec a = some c') :
    (c.ends s).calls ≤ (c'.ends s).calls := by
  cases a with
  | call u req =>
    obtain rfl := Option.some.inj hexec
    exact calls_le_setEnd (Endpoint.frame_call req).calls
  | request u sent =>
    simp only [Transport.exec] at hexec
    split_ifs at hexec
    split at hexec
    · cases hexec
    · rename_i req tx reqRx _
      have hframe := (Endpoint.frame_handleRequest
        (e := ({ c.ends u with reqRx } : Endpoint w Req Resp)) req tx sent).1
      split at hexec
      · rename_i e p hrun
        obtain rfl := Option.some.inj hexec
        rw [hrun] at hframe
        exact calls_le_setEnd hframe.calls
      · rename_i e hrun
        obtain rfl := Option.some.inj hexec
        rw [hrun] at hframe
        exact calls_le_setEnd hframe.calls
  | response u k =>
    simp only [Transport.exec] at hexec
    split_ifs at hexec
    obtain ⟨r, -, rfl⟩ := Option.map_eq_some_iff.mp hexec
    exact calls_le_setEnd (Endpoint.frame_finish
      (e := { c.ends u with respRx := (c.ends u).respRx.eraseIdx k }) r.idx r.resp).1.calls
  | timeout u k =>
    simp only [Transport.exec] at hexec
    split_ifs at hexec
    obtain ⟨idx, -, rfl⟩ := Option.map_eq_some_iff.mp hexec
    exact calls_le_setEnd (Endpoint.frame_finish
      (e := { c.ends u with timeoutRx := (c.ends u).timeoutRx.eraseIdx k }) idx _).1.calls
  | deliver u k =>
    obtain ⟨p, -, rfl⟩ := Option.map_eq_some_iff.mp hexec
    refine calls_le_setEnd (c := c.setDataChannel u _) ?_
    rw [Endpoint.onMessage]
    split <;> exact le_rfl
  | lose u k =>
    obtain ⟨p, -, rfl⟩ := Option.map_eq_some_iff.mp hexec
    exact le_rfl
  | handle u k resp sent =>
    obtain ⟨p, -, rfl⟩ := Option.map_eq_some_iff.mp hexec
    have hle : (c.ends s).calls ≤ ((c.handle u k p resp).ends s).calls :=
      calls_le_setEnd (e := { c.ends u with
        serverReqRx := (c.ends u).serverReqRx.eraseIdx k }) le_rfl
    split_ifs <;> exact hle
  | close u =>
    obtain rfl := Option.some.inj hexec
    exact calls_le_setEnd (by exact le_rfl)
  | stop u =>
    simp only [Transport.exec] at hexec
    split_ifs at hexec
    obtain rfl := Option.some.inj hexec
    exact calls_le_setEnd (by exact le_rfl)

/-- **Requests and responses are correlated.** While an end has made fewer than `2 ^ w` calls, each
of its calls has returned at most once, with what the handler of the other end has computed for this
call from the very request that the call was made with, or with an error; and the removal of a
request that could not be sent has not panicked. -/
theorem call_correlated {hw : 10 < w} {r : List (Transport w Req Resp)} (hr : IsRun hw r)
    (hc : c ∈ r) (s : Side) (hcalls : (c.ends s).calls < 2 ^ w) :
    (c.ends s).returned.Nodup ∧
      (∀ tx result, (tx, result) ∈ (c.ends s).results →
        (∃ req, (c.ends s).requests[tx]? = some req ∧ ⟨tx, req, result⟩ ∈ c.handled s) ∨
          ∃ err, result = .error err) ∧
      (c.ends s).panicked = false := by
  have hinv : ∀ c ∈ r, (c.ends s).calls < 2 ^ w → c.Correlated s :=
    TransitionSystem.IsRun.invariant (I := fun c => (c.ends s).calls < 2 ^ w → c.Correlated s)
      (fun c h _ => h ▸ correlated_started hw s)
      (fun c c' h ⟨a, _, hexec⟩ hlt =>
        (h ((calls_le_of_exec hexec).trans_lt hlt)).exec hexec
          ((calls_le_of_exec hexec).trans_lt hlt))
      hr
  have h := hinv c hc hcalls
  exact ⟨h.returns.nodup, h.returns.answered, h.panicked⟩

/-- A call times out, and its response comes while the next call is in flight. -/
def lateResponse : List (Action ℕ ℕ) :=
  [.call .left 5, .request .left true, .deliver .right 0, .timeout .left 0, .call .left 7,
    .request .left true, .handle .right 0 (.ok 50) true, .deliver .left 0, .response .left 0,
    .deliver .right 0, .handle .right 0 (.ok 70) true, .deliver .left 0, .response .left 0]

theorem call_correlated_run : ∃ (r : List (Transport 32 ℕ ℕ)) (c : Transport 32 ℕ ℕ),
    IsRun (by decide) r ∧ c ∈ r ∧
    (c.ends .left).results = [(0, .error .requestTimeout), (1, .ok 70)] ∧
    (c.ends .left).requests = [5, 7] ∧ c.handled .left = [⟨0, 5, .ok 50⟩, ⟨1, 7, .ok 70⟩] ∧
    (c.ends .left).returned.Nodup ∧
    (∀ tx result, (tx, result) ∈ (c.ends .left).results →
      (∃ req, (c.ends .left).requests[tx]? = some req ∧ ⟨tx, req, result⟩ ∈ c.handled .left) ∨
        ∃ err, result = .error err) ∧
    (c.ends .left).panicked = false := by
  obtain ⟨r, -, hr, hf⟩ := TransitionSystem.exists_run_of_play (· = started (by decide)) exec
    (fun (_ : Transport 32 ℕ ℕ) _ => false) rfl lateResponse
    (fun r => r.any fun c => decide ((c.ends .left).calls < 2 ^ 32 ∧
      (c.ends .left).results = [(0, .error .requestTimeout), (1, .ok 70)] ∧
      (c.ends .left).requests = [5, 7] ∧ c.handled .left = [⟨0, 5, .ok 50⟩, ⟨1, 7, .ok 70⟩]))
    (by decide +kernel)
  obtain ⟨c, hc, hcheck⟩ := List.any_eq_true.mp hf
  obtain ⟨hcalls, hresults, hrequests, hhandled⟩ := of_decide_eq_true hcheck
  have hrun : IsRun (by decide) r :=
    TransitionSystem.IsRun.mono (fun _ _ => TransitionSystem.Acts.mono fun _ _ _ => trivial) hr
  exact ⟨r, c, hrun, hc, hresults, hrequests, hhandled, call_correlated hrun hc .left hcalls⟩

end Transport

end Wraft.WebrtcRpc

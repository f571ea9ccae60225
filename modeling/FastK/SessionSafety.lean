import FastK.SessionLink
/-!
# What a session promises its callers

The invariant of the calls on a session (`ControlOk`), over any interleaving of their steps with those of the IO
thread and of the worker, and what follows from it.  The worker carries out requests one at a time, in the order of
their numbers and each at most once; a call that returns gives the response to its own request; a call that raises an
error "before dispatch" raises it for a request that the worker never got (`session_exchanges`).  The queue never
refuses a task, and a call of `close` never waits for an IO thread that cannot end (`session_closes`).
-/
namespace FastK

open Framing Transitions

variable {σ V : Type} {client : ClientJson V} {wire : Wire V}
    {dispatch : σ → Request V → σ × Except BridgeError (List Nat)} {store : σ}

def Outcome.request : Outcome V → Option (Request V)
  | .closed => none
  | .raised request _ => request
  | .returned request _ => some request

/-- The request that a call has numbered. -/
def CallPoint.request : CallPoint V → Option (Request V)
  | .entering _ _ | .checking _ _ => none
  | .enqueueing request | .waiting request _ => some request
  | .closing _ outcome | .finished outcome => outcome.request

/-- A call that has not let go of the exchange. -/
def CallPoint.Holds (exchange : Nat) : CallPoint V → Prop
  | .waiting _ k => k = exchange
  | .closing _ _ => True
  | _ => False

/-- How far `close` has come. -/
def CloseStep.rank : CloseStep → Nat
  | .locking => 0
  | .marking => 1
  | .stopping => 2
  | .killing => 3
  | .draining => 4
  | .waking => 5
  | .joining => 6

/-- An outcome tells the truth about what the worker did. -/
def Outcome.Ok (l : Link σ V) : Outcome V → Prop
  | .closed => True
  | .raised request why => why ≠ .queueFull ∧ ∀ r ∈ request, why.beforeDispatch = true →
      ∀ x ∈ l.exchanges, x.request.id = r.id →
      x.error = some .closedBeforeDispatch ∧ x.done = true
  | .returned r response => (r, some response) ∈ l.log

/-- No exchange waits in the queue. -/
def Link.Drained (l : Link σ V) : Prop := ∀ k, some k ∉ l.tasks

/-- What `close` leaves. -/
structure Session.Shut (s : Session σ V) : Prop where
  stop : s.stop = true
  dead : s.link.alive = false
  drained : s.link.Drained
  /-- The IO thread does not wait for a task that never comes. -/
  awake : s.link.io = .taking → s.link.tasks ≠ []

theorem Session.Shut.same {s s' : Session σ V} (h : s.Shut) (hstop : s'.stop = s.stop)
    (hlink : s'.link = s.link) : s'.Shut :=
  ⟨hstop ▸ h.stop, hlink ▸ h.dead, hlink ▸ h.drained, hlink ▸ h.awake⟩

/-- What holds of the call that stands there. -/
def Session.CallOk (client : ClientJson V) (s : Session σ V) (c : Nat) : CallPoint V → Prop
  | .entering _ _ => True
  | .checking _ _ => s.serial = some c
  | .enqueueing r => s.serial = some c ∧ r.id = s.sequence ∧ sessionPrefix.Fits (client.body r) ∧
      ∀ x ∈ s.link.exchanges, x.request.id < r.id
  | .waiting r k => s.serial = some c ∧ ∃ x, s.link.exchanges[k]? = some x ∧ x.request = r
  | .closing point outcome => outcome.Ok s.link ∧ (0 < point.rank → s.cleanup = some c) ∧
      (1 < point.rank → s.closed = true) ∧
      (2 < point.rank → s.stop = true) ∧ (3 < point.rank → s.link.alive = false) ∧ (4 < point.rank → s.link.Drained) ∧
      (point = .joining → s.link.io = .taking → s.link.tasks ≠ [])
  | .finished outcome => outcome.Ok s.link

theorem Session.CallOk.locking {s : Session σ V} {c : Nat} {outcome : Outcome V} (hok : outcome.Ok s.link) :
    s.CallOk client c (.closing .locking outcome) :=
  ⟨hok, fun hr => absurd hr (by decide), fun hr => absurd hr (by decide), fun hr => absurd hr (by decide), fun hr =>
    absurd hr (by decide), fun hr => absurd hr (by decide), fun he => by cases he⟩

/-- The invariant of the calls, the locks and the numbers. -/
structure ControlOk (client : ClientJson V) (s : Session σ V) : Prop where
  calls : ∀ (c : Nat) (point : CallPoint V), s.calls[c]? = some point → s.CallOk client c point
  numbers : ∀ (c : Nat) (point : CallPoint V) (r : Request V), s.calls[c]? = some point → point.request = some r →
    r.id ≤ s.sequence
  distinct : ∀ (c d : Nat) (point point' : CallPoint V) (r q : Request V), c ≠ d → s.calls[c]? = some point →
    s.calls[d]? = some point' →
    point.request = some r → point'.request = some q → r.id ≠ q.id
  undone : ∀ (k : Nat) (x : Exchange V), s.link.exchanges[k]? = some x → x.done = false → s.closed = true ∨
    ∃ (c : Nat) (point : CallPoint V), s.serial = some c ∧ s.calls[c]? = some point ∧ point.Holds k
  exchanges : ∀ x ∈ s.link.exchanges, x.request.id ≤ s.sequence
  mark : none ∈ s.link.tasks → s.closed = true
  shut : s.closed = true → s.cleanup = none → s.Shut
  asked : ∀ x ∈ s.link.exchanges, ∃ (c : Nat) (point : CallPoint V), s.calls[c]? = some point ∧
    point.request = some x.request

theorem LinkOk.unique {l : Link σ V} (h : LinkOk client wire dispatch store l) {x y : Exchange V}
    (hx : x ∈ l.exchanges) (hy : y ∈ l.exchanges) (hid : x.request.id = y.request.id) : x = y := by
  obtain ⟨i, hi⟩ := List.mem_iff_getElem?.1 hx
  obtain ⟨j, hj⟩ := List.mem_iff_getElem?.1 hy
  obtain ⟨hilen, rfl⟩ := List.getElem?_eq_some_iff.1 hi
  obtain ⟨hjlen, rfl⟩ := List.getElem?_eq_some_iff.1 hj
  rcases Nat.lt_trichotomy i j with hij | rfl | hij
  · have hlt := List.pairwise_iff_getElem.1 h.order i j hilen hjlen hij
    omega
  · rfl
  · have hlt := List.pairwise_iff_getElem.1 h.order j i hjlen hilen hij
    omega

theorem Outcome.Ok.grows {l l' : Link σ V} {outcome : Outcome V} (h : outcome.Ok l) (hg : l.Grows l') :
    outcome.Ok l' := by
  cases outcome with
  | closed => trivial
  | returned r response => exact hg.log.subset h
  | raised request why =>
    refine ⟨h.1, fun r hr hwhy y hy hid => ?_⟩
    obtain ⟨k, hk⟩ := List.mem_iff_getElem?.1 hy
    obtain ⟨x, hx, hreq, hsame⟩ := hg.back hk
    have hxok := h.2 r hr hwhy x (List.mem_of_getElem? hx) (hreq ▸ hid)
    rw [hsame hxok.2]
    exact hxok

/-- A refusal of a request that has no exchange. -/
theorem Outcome.ok_of_lt {l : Link σ V} {r : Request V} {why : Refusal} (hwhy : why ≠ .queueFull)
    (h : ∀ x ∈ l.exchanges, x.request.id < r.id) :
    (Outcome.raised (some r) why).Ok l :=
  ⟨hwhy, fun q hq _ x hx hid => by
    have hlt := h x hx
    rw [Option.mem_some_iff.1 hq] at hlt
    omega⟩

theorem Outcome.ok_of_after {l : Link σ V} {request : Option (Request V)} {why : Refusal}
    (h : why.beforeDispatch = false) :
    (Outcome.raised request why).Ok l := by
  refine ⟨?_, fun r _ hwhy => ?_⟩
  · rintro rfl
    cases h
  · rw [h] at hwhy
    cases hwhy

theorem Outcome.ok_none {l : Link σ V} {why : Refusal} (h : why ≠ .queueFull) : (Outcome.raised none why).Ok l :=
  ⟨h, fun r hr => by cases hr⟩

namespace ControlOk

variable {s s' : Session σ V} {c : Nat} {old new : CallPoint V}

theorem getElem?_set_call {calls : List (CallPoint V)} (h : calls[c]? = some old) (d : Nat) :
    (calls.set c new)[d]? = if d = c then some new else calls[d]? := by
  rw [List.getElem?_set]
  have hlt : c < calls.length := (List.getElem?_eq_some_iff.1 h).1
  by_cases hd : d = c
  · simp [hd, hlt]
  · simp [hd, Ne.symm hd]

theorem shut_of_joining (h : ControlOk client s) {outcome : Outcome V}
    (hold : s.calls[c]? = some (.closing .joining outcome)) : s.Shut := by
  obtain ⟨_, _, _, hstop, hdead, hdrained, hawake⟩ := h.calls c _ hold
  exact ⟨hstop (by decide), hdead (by decide), hdrained (by decide), hawake rfl⟩

/-- **A call goes on while nothing else changes.** -/
theorem move (h : ControlOk client s) (hold : s.calls[c]? = some old) (hcalls : s'.calls = s.calls.set c new)
    (hlink : s'.link = s.link) (hseq : s'.sequence = s.sequence) (hclosed : s.closed = true → s'.closed = true)
    (hstop : s.stop = true → s'.stop = true) (hserial : ∀ d, d ≠ c → s.serial = some d → s'.serial = some d)
    (hcleanup : ∀ d, d ≠ c → s.cleanup = some d → s'.cleanup = some d) (hreq : new.request = old.request)
    (hok : s'.CallOk client c new) (hholds : ∀ k, s.serial = some c → old.Holds k →
      (∃ x, s.link.exchanges[k]? = some x ∧ x.done = false) →
      s'.closed = true ∨ s'.serial = some c ∧ new.Holds k) (hshut : s'.closed = true → s'.cleanup = none →
        s'.Shut) : ControlOk client s' := by
  have hafter (d : Nat) : s'.calls[d]? = if d = c then some new else s.calls[d]? := by
    rw [hcalls, getElem?_set_call hold]
  have hrequest (d : Nat) (point : CallPoint V) (hd : s'.calls[d]? = some point) :
    ∃ before, s.calls[d]? = some before ∧ before.request = point.request := by
    rw [hafter] at hd
    by_cases hdc : d = c
    · subst hdc
      rw [if_pos rfl] at hd
      exact ⟨old, hold, by rw [← Option.some.inj hd, hreq]⟩
    · rw [if_neg hdc] at hd
      exact ⟨point, hd, rfl⟩
  constructor
  · intro d point hd
    rw [hafter] at hd
    by_cases hdc : d = c
    · subst hdc
      rw [if_pos rfl] at hd
      exact Option.some.inj hd ▸ hok
    · rw [if_neg hdc] at hd
      have hbefore := h.calls d point hd
      cases point with
      | entering => trivial
      | checking => exact hserial d hdc hbefore
      | enqueueing r => exact ⟨hserial d hdc hbefore.1, by rw [hseq]; exact hbefore.2.1, hbefore.2.2.1,
          by rw [hlink]; exact hbefore.2.2.2⟩
      | waiting r k => exact ⟨hserial d hdc hbefore.1, by rw [hlink]; exact hbefore.2⟩
      | closing point outcome =>
        obtain ⟨hout, hclean, hmark, hhalt, hdead, hdrained, htask⟩ := hbefore
        exact ⟨hlink ▸ hout, fun hr => hcleanup d hdc (hclean hr), fun hr => hclosed (hmark hr), fun hr =>
          hstop (hhalt hr), hlink ▸ hdead, hlink ▸ hdrained, hlink ▸ htask⟩
      | finished outcome => exact (show outcome.Ok s'.link from hlink ▸ hbefore)
  · intro d point r hd hr
    obtain ⟨before, hbefore, hsame⟩ := hrequest d point hd
    rw [hseq]
    exact h.numbers d before r hbefore (hsame.trans hr)
  · intro d e point point' r q hne hd he hr hq
    obtain ⟨before, hbefore, hsame⟩ := hrequest d point hd
    obtain ⟨before', hbefore', hsame'⟩ := hrequest e point' he
    exact h.distinct d e before before' r q hne hbefore hbefore' (hsame.trans hr) (hsame'.trans hq)
  · intro k x hx hd
    rw [hlink] at hx
    rcases h.undone k x hx hd with hdone | ⟨e, point, hser, hcall, hhold⟩
    · exact .inl (hclosed hdone)
    · by_cases hec : e = c
      · subst hec
        rw [hold] at hcall
        obtain rfl := Option.some.inj hcall
        rcases hholds k hser hhold ⟨x, hx, hd⟩ with hdone | ⟨hser', hhold'⟩
        · exact .inl hdone
        · exact .inr ⟨e, new, hser', by rw [hafter, if_pos rfl], hhold'⟩
      · exact .inr ⟨e, point, hserial e hec hser, by rw [hafter, if_neg hec, hcall], hhold⟩
  · rw [hlink, hseq]
    exact h.exchanges
  · intro hmem
    rw [hlink] at hmem
    exact hclosed (h.mark hmem)
  · exact hshut
  · intro x hx
    rw [hlink] at hx
    obtain ⟨e, point, hcall, hreq'⟩ := h.asked x hx
    by_cases hec : e = c
    · subst hec
      rw [hold] at hcall
      exact ⟨e, new, by rw [hafter, if_pos rfl], by rw [hreq, Option.some.inj hcall, hreq']⟩
    · exact ⟨e, point, by rw [hafter, if_neg hec, hcall], hreq'⟩

/-- **The link goes on while the calls stand.** -/
theorem link (h : ControlOk client s) {l : Link σ V} (hg : s.link.Grows l) (failure : Bool)
    (hmark : none ∈ l.tasks → none ∈ s.link.tasks ∨ s.closed = true)
    (hsome : ∀ k, some k ∈ l.tasks → some k ∈ s.link.tasks)
    (htask : ((∃ (c : Nat) (outcome : Outcome V), s.calls[c]? = some (CallPoint.closing .joining outcome)) ∨
      s.closed = true ∧ s.cleanup = none) →
      l.io = .taking → l.tasks ≠ []) :
    ControlOk client { s with link := l, failure := failure } where
  calls d point hd := by
    have hbefore := h.calls d point hd
    cases point with
    | entering => trivial
    | checking => exact hbefore
    | enqueueing r =>
      refine ⟨hbefore.1, hbefore.2.1, hbefore.2.2.1, fun y hy => ?_⟩
      obtain ⟨x, hx, hreq⟩ := hg.mem_requests.1 ⟨y, hy, rfl⟩
      exact hreq ▸ hbefore.2.2.2 x hx
    | waiting r k =>
      obtain ⟨hser, x, hx, hreq⟩ := hbefore
      obtain ⟨y, hy, hsame⟩ := hg.forth hx
      exact ⟨hser, y, hy, hsame.trans hreq⟩
    | closing point outcome =>
      obtain ⟨hout, hclean, hclosed, hhalt, hdead, hdrained, _⟩ := hbefore
      exact ⟨hout.grows hg, hclean, hclosed, hhalt, fun hr => hg.alive (hdead hr), fun hr k hk =>
        hdrained hr k (hsome k hk), fun hp => htask (.inl ⟨d, outcome, hp ▸ hd⟩)⟩
    | finished outcome => exact hbefore.grows hg
  numbers := h.numbers
  distinct := h.distinct
  mark hm := (hmark hm).elim h.mark id
  shut hc hn := ⟨(h.shut hc hn).stop, hg.alive (h.shut hc hn).dead, fun k hk => (h.shut hc hn).drained k (hsome k hk),
    htask (.inr ⟨hc, hn⟩)⟩
  undone k y hy hd := by
    obtain ⟨x, hx, _, hsame⟩ := hg.back hy
    have hxd : x.done = false := by
      cases hdone : x.done with
      | false => rfl
      | true =>
        rw [hsame hdone, hdone] at hd
        cases hd
    exact h.undone k x hx hxd
  exchanges y hy := by
    obtain ⟨x, hx, hreq⟩ := hg.mem_requests.1 ⟨y, hy, rfl⟩
    exact hreq ▸ h.exchanges x hx
  asked y hy := by
    obtain ⟨x, hx, hreq⟩ := hg.mem_requests.1 ⟨y, hy, rfl⟩
    exact hreq ▸ h.asked x hx

theorem starts (h : ControlOk client s) (hreq : new.request = none) (hok : s.CallOk client s.calls.length new) :
    ControlOk client { s with calls := s.calls ++ [new] } := by
  have hafter {d : Nat} {point : CallPoint V} (hd : (s.calls ++ [new])[d]? = some point) : s.calls[d]? = some point ∨
    d = s.calls.length ∧ point = new := by
    rw [List.getElem?_append] at hd
    by_cases hlt : d < s.calls.length
    · rw [if_pos hlt] at hd
      exact .inl hd
    · rw [if_neg hlt] at hd
      obtain ⟨hz, rfl⟩ := List.getElem?_eq_some_iff.1 hd
      rw [List.length_singleton] at hz
      exact .inr ⟨by omega, by simp⟩
  have hbefore {d : Nat} {point : CallPoint V} (hd : s.calls[d]? = some point) : (s.calls ++ [new])[d]? = some point :=
    (List.getElem?_append_left (List.getElem?_eq_some_iff.1 hd).1).trans hd
  constructor
  · intro d point hd
    rcases hafter hd with hd | ⟨rfl, rfl⟩
    · exact h.calls d point hd
    · exact hok
  · intro d point r hd hr
    rcases hafter hd with hd | ⟨rfl, rfl⟩
    · exact h.numbers d point r hd hr
    · rw [hreq] at hr
      cases hr
  · intro d e point point' r q hne hd he hr hq
    rcases hafter hd with hd | ⟨rfl, rfl⟩
    · rcases hafter he with he | ⟨rfl, rfl⟩
      · exact h.distinct d e point point' r q hne hd he hr hq
      · rw [hreq] at hq
        cases hq
    · rw [hreq] at hr
      cases hr
  · intro k x hx hd
    exact (h.undone k x hx hd).imp id (fun ⟨c, point, hser, hcall, hhold⟩ => ⟨c, point, hser, hbefore hcall, hhold⟩)
  · exact h.exchanges
  · exact h.mark
  · exact fun hc hn => (h.shut hc hn).same rfl rfl
  · intro x hx
    obtain ⟨c, point, hcall, hr⟩ := h.asked x hx
    exact ⟨c, point, hbefore hcall, hr⟩

/-- **A call that has the serial lock takes the next number**, and goes on with it or gives up. -/
theorem numbered (h : ControlOk client s) {args : List Text} {payload : Option V}
    (hold : s.calls[c]? = some (.checking args payload)) (hcalls : s'.calls = s.calls.set c new)
    (hseq : s'.sequence = s.sequence + 1) (hsame : s'.link = s.link ∧ s'.closed = s.closed ∧ s'.stop = s.stop ∧
      s'.cleanup = s.cleanup)
    (hnew : new.request = some ⟨s.sequence + 1, args, payload⟩)
    (hok : (∀ x ∈ s'.link.exchanges, x.request.id < s.sequence + 1) → s'.CallOk client c new)
    (hdone : ∀ x ∈ s.link.exchanges, x.done = true) :
    ControlOk client s' := by
  have hlock : s.serial = some c := h.calls c _ hold
  obtain ⟨hlink, hclosed, hstop, hcleanup⟩ := hsame
  have hafter (d : Nat) : s'.calls[d]? = if d = c then some new else s.calls[d]? := by
    rw [hcalls, getElem?_set_call hold]
  have hids : ∀ x ∈ s'.link.exchanges, x.request.id < s.sequence + 1 :=
    fun x hx => Nat.lt_succ_of_le (h.exchanges x (hlink ▸ hx))
  have hlocked {d : Nat} (hdc : d ≠ c) (hd : s.serial = some d) : False := hdc (Option.some.inj (hd.symm.trans hlock))
  constructor
  · intro d point hd
    rw [hafter] at hd
    by_cases hdc : d = c
    · subst hdc
      rw [if_pos rfl] at hd
      exact Option.some.inj hd ▸ hok hids
    · rw [if_neg hdc] at hd
      have hbefore := h.calls d point hd
      cases point with
      | entering => trivial
      | checking => exact (hlocked hdc hbefore).elim
      | enqueueing r => exact (hlocked hdc hbefore.1).elim
      | waiting r k => exact (hlocked hdc hbefore.1).elim
      | closing point outcome =>
        show _ ∧ _
        rw [hlink, hclosed, hstop, hcleanup]
        exact hbefore
      | finished outcome => exact (show outcome.Ok s'.link from hlink ▸ hbefore)
  · intro d point r hd hr
    rw [hafter] at hd
    rw [hseq]
    by_cases hdc : d = c
    · rw [if_pos hdc] at hd
      rw [← Option.some.inj hd, hnew] at hr
      rw [← Option.some.inj hr]
    · rw [if_neg hdc] at hd
      exact Nat.le_succ_of_le (h.numbers d point r hd hr)
  · intro d e point point' r q hne hd he hr hq
    have hids' {d : Nat} {point : CallPoint V} {r : Request V} (hdc : d ≠ c)
      (hd : (if d = c then some new else s.calls[d]?) = some point)
        (hr : point.request = some r) : r.id < s.sequence + 1 := by
      rw [if_neg hdc] at hd
      exact Nat.lt_succ_of_le (h.numbers d point r hd hr)
    have hidNew {point : CallPoint V} {r : Request V} (hd : some new = some point) (hr : point.request = some r) :
      r.id = s.sequence + 1 := by
      rw [← Option.some.inj hd, hnew] at hr
      rw [← Option.some.inj hr]
    rw [hafter] at hd he
    by_cases hdc : d = c
    · have hlt := hids' (fun hec => hne (hdc.trans hec.symm)) he hq
      rw [if_pos hdc] at hd
      have hr := hidNew hd hr
      omega
    · have hlt := hids' hdc hd hr
      by_cases hec : e = c
      · rw [if_pos hec] at he
        have hq := hidNew he hq
        omega
      · rw [if_neg hdc] at hd
        rw [if_neg hec] at he
        exact h.distinct d e point point' r q hne hd he hr hq
  · intro k x hx hd
    rw [hlink] at hx
    rw [hdone x (List.mem_of_getElem? hx)] at hd
    cases hd
  · intro x hx
    rw [hseq]
    exact Nat.le_of_lt (hids x hx)
  · intro hm
    rw [hlink] at hm
    rw [hclosed]
    exact h.mark hm
  · intro hc hn
    rw [hclosed] at hc
    rw [hcleanup] at hn
    exact (h.shut hc hn).same hstop hlink
  · intro x hx
    rw [hlink] at hx
    obtain ⟨e, point, hcall, hr⟩ := h.asked x hx
    by_cases hec : e = c
    · rw [hec, hold] at hcall
      rw [← Option.some.inj hcall] at hr
      cases hr
    · exact ⟨e, point, by rw [hafter, if_neg hec, hcall], hr⟩

/-- Where a call is before its wait and the session is not closed, the exchanges are all done. -/
theorem all_done (h : ControlOk client s) (hopen : s.closed = false) (hold : s.calls[c]? = some old)
    (hser : s.serial = some c) (hpoint : ∀ k, ¬ old.Holds k) : ∀ x ∈ s.link.exchanges, x.done = true := by
  intro x hx
  obtain ⟨k, hk⟩ := List.mem_iff_getElem?.1 hx
  cases hd : x.done with
  | true => rfl
  | false =>
    rcases h.undone k x hk hd with hclosed | ⟨d, point, hd, hcall, hhold⟩
    · rw [hopen] at hclosed
      cases hclosed
    · obtain rfl := Option.some.inj (hd.symm.trans hser)
      rw [hold] at hcall
      exact absurd (Option.some.inj hcall ▸ hhold) (hpoint k)

/-- **A call leaves its exchange in the queue.** -/
theorem enqueues (h : ControlOk client s) {r : Request V} (hold : s.calls[c]? = some (.enqueueing r)) (hopen : s.closed = false) : ControlOk client
    { s.goto c (.waiting r s.link.exchanges.length) with
      link := { s.link with tasks := [some s.link.exchanges.length], exchanges := s.link.exchanges ++ [⟨r, false, [], none, false⟩] } } := by
  obtain ⟨hlock, hid, _, hids⟩ := h.calls c _ hold
  have hafter (d : Nat) : (s.calls.set c (.waiting r s.link.exchanges.length))[d]? =
      if d = c then some (.waiting r s.link.exchanges.length) else s.calls[d]? := getElem?_set_call hold d
  have hlocked {d : Nat} (hdc : d ≠ c) (hd : s.serial = some d) : False := hdc (Option.some.inj (hd.symm.trans hlock))
  have hnew : (s.link.exchanges ++ [⟨r, false, [], none, false⟩])[s.link.exchanges.length]? = some
    ⟨r, false, [], none, false⟩ := by simp
  have hrequest {d : Nat} {point : CallPoint V} (hd : (s.calls.set c (.waiting r s.link.exchanges.length))[d]? =
    some point) :
      ∃ before, s.calls[d]? = some before ∧ before.request = point.request := by
    rw [hafter] at hd
    by_cases hdc : d = c
    · rw [if_pos hdc] at hd
      exact ⟨_, hdc ▸ hold, by rw [← Option.some.inj hd]; rfl⟩
    · rw [if_neg hdc] at hd
      exact ⟨point, hd, rfl⟩
  -- an outcome of another call is about another request
  have hout {d : Nat} {point : CallPoint V} (hdc : d ≠ c) (hd : s.calls[d]? = some point) {outcome : Outcome V} (hreq : point.request = outcome.request)
      (hok : outcome.Ok s.link) :
      outcome.Ok { s.link with tasks := [some s.link.exchanges.length], exchanges := s.link.exchanges ++ [⟨r, false, [], none, false⟩] } := by
    cases outcome with
    | closed => trivial
    | returned q response => exact hok
    | raised request why =>
      refine ⟨hok.1, fun q hq hwhy x hx hxq => ?_⟩
      rcases List.mem_append.1 hx with hx | hx
      · exact hok.2 q hq hwhy x hx hxq
      · rw [List.mem_singleton.1 hx] at hxq
        exact absurd hxq (h.distinct c d _ point r q (Ne.symm hdc) hold hd rfl (hreq.trans hq))
  constructor
  · intro d point hd
    rw [show (s.goto c (.waiting r s.link.exchanges.length)).calls = s.calls.set c
      (.waiting r s.link.exchanges.length) from rfl, hafter] at hd
    by_cases hdc : d = c
    · subst hdc
      rw [if_pos rfl] at hd
      exact Option.some.inj hd ▸ ⟨hlock, _, hnew, rfl⟩
    · rw [if_neg hdc] at hd
      have hbefore := h.calls d point hd
      cases point with
      | entering => trivial
      | checking => exact (hlocked hdc hbefore).elim
      | enqueueing q => exact (hlocked hdc hbefore.1).elim
      | waiting q k => exact (hlocked hdc hbefore.1).elim
      | closing point outcome =>
        obtain ⟨hok, hclean, hmark, hhalt, hdead, _⟩ := hbefore
        refine ⟨hout hdc hd rfl hok, hclean, hmark, hhalt, hdead, fun hr => ?_, fun _ _ => List.cons_ne_nil _ _⟩
        rw [hmark (by omega)] at hopen
        cases hopen
      | finished outcome => exact hout hdc hd rfl hbefore
  · intro d point q hd hq
    obtain ⟨before, hbefore, hsame⟩ := hrequest hd
    exact h.numbers d before q hbefore (hsame.trans hq)
  · intro d e point point' q q' hne hd he hq hq'
    obtain ⟨before, hbefore, hsame⟩ := hrequest hd
    obtain ⟨before', hbefore', hsame'⟩ := hrequest he
    exact h.distinct d e before before' q q' hne hbefore hbefore' (hsame.trans hq) (hsame'.trans hq')
  · intro k x hx hd
    by_cases hk : k < s.link.exchanges.length
    · rw [List.getElem?_append_left hk] at hx
      rcases h.undone k x hx hd with hclosed | ⟨e, point, hser, hcall, hhold⟩
      · exact .inl hclosed
      · obtain rfl := Option.some.inj (hser.symm.trans hlock)
        rw [hold] at hcall
        rw [← Option.some.inj hcall] at hhold
        exact hhold.elim
    · obtain rfl : s.link.exchanges.length = k := by
        have hlen := (List.getElem?_eq_some_iff.1 hx).1
        rw [List.length_append, List.length_singleton] at hlen
        omega
      exact .inr ⟨c, _, hlock, (hafter c).trans (if_pos rfl), rfl⟩
  · intro x hx
    rcases List.mem_append.1 hx with hx | hx
    · exact h.exchanges x hx
    · rw [List.mem_singleton.1 hx]
      exact Nat.le_of_eq hid
  · intro hm
    cases List.mem_singleton.1 hm
  · intro hc
    rw [show s.closed = true from hc] at hopen
    cases hopen
  · intro x hx
    rcases List.mem_append.1 hx with hx | hx
    · obtain ⟨e, point, hcall, hr⟩ := h.asked x hx
      by_cases hec : e = c
      · rw [hec, hold] at hcall
        exact ⟨c, _, (hafter c).trans (if_pos rfl), by rw [← hr, ← Option.some.inj hcall]; rfl⟩
      · exact ⟨e, point, ((hafter e).trans (if_neg hec)).trans hcall, hr⟩
    · rw [List.mem_singleton.1 hx]
      exact ⟨c, _, (hafter c).trans (if_pos rfl), rfl⟩

/-- A call ends. -/
theorem finishes (h : ControlOk client s) (hold : s.calls[c]? = some old) {outcome : Outcome V}
    (hreq : outcome.request = old.request) (hok : outcome.Ok s.link) (hdone : s.closed = true ∨ ∀ k x, old.Holds k →
      s.link.exchanges[k]? = some x → x.done = true)
    {cleanup : Option Nat} (hclean : ∀ d, d ≠ c → s.cleanup = some d → cleanup = some d)
    (hshut : s.closed = true → cleanup = none → s.Shut) :
    ControlOk client { s.finish c outcome with cleanup := cleanup } :=
  h.move hold rfl rfl rfl (fun hc => hc) (fun hc => hc)
    (fun d hd hs => by simp [Session.finish, hs, hd]) hclean hreq hok
    (fun k _ hhold ⟨x, hx, hd⟩ => .inl (by
      rcases hdone with hclosed | hdone
      · exact hclosed
      · rw [hdone k x hhold hx] at hd
        cases hd))
    (fun hc hn => (hshut hc hn).same rfl rfl)

/-- A call goes on to `close`, on its way out. -/
theorem closes (h : ControlOk client s) (hold : s.calls[c]? = some old) {outcome : Outcome V}
    (hreq : outcome.request = old.request) (hok : outcome.Ok s.link) {failure : Bool} :
    ControlOk client { s.goto c (.closing .locking outcome) with failure := failure } :=
  h.move hold rfl rfl rfl (fun hc => hc) (fun hc => hc) (fun _ _ hs => hs) (fun _ _ hs => hs) hreq (.locking hok)
    (fun _ hs _ _ => .inr ⟨hs, trivial⟩) (fun hc hn => (h.shut hc hn).same rfl rfl)

end ControlOk
/-! ## The steps of a session -/

/-- The invariant of a session. -/
structure SessionOk (client : ClientJson V) (wire : Wire V)
    (dispatch : σ → Request V → σ × Except BridgeError (List Nat)) (store : σ) (s : Session σ V) : Prop where
  link : LinkOk client wire dispatch store s.link
  control : ControlOk client s

/-- The worker reads the requests as the client wrote them. -/
def Understood (client : ClientJson V) (wire : Wire V) (s : Session σ V) : Prop :=
  ∀ x ∈ s.link.exchanges, wire.request (client.body x.request) = some x.request

namespace Link

variable {l l' : Link σ V}

/-- An IO thread that is told to stop takes no further task. -/
theorem ioStep_ne_taking {amount : Nat} (hs : l.ioStep client true amount = some l') : l'.io ≠ .taking := by
  unfold Link.ioStep at hs
  intro hio
  split at hs
  · rw [← Option.some.inj hs] at hio
    cases hio
  · split at hs
    · cases hs
    · rw [← Option.some.inj hs] at hio
      cases hio
    · rw [← Option.some.inj hs] at hio
      cases hio
  · rw [if_pos rfl] at hs
    rw [← Option.some.inj hs] at hio
    cases hio
  · rw [← Option.some.inj hs] at hio
    cases hio
  · split at hs
    · rw [← Option.some.inj hs] at hio
      cases hio
    · cases hs
  · split at hs
    · rw [← Option.some.inj hs] at hio
      cases hio
    · cases hs
  · cases hs

/-- The IO thread takes tasks, and leaves none. -/
theorem ioStep_tasks {stop : Bool} {amount : Nat} (hs : l.ioStep client stop amount = some l') :
    ∀ task ∈ l'.tasks, task ∈ l.tasks := by
  unfold Link.ioStep at hs
  split at hs
  · exact Option.some.inj hs ▸ fun _ ht => ht
  · split at hs
    · cases hs
    · rename_i htasks
      exact Option.some.inj hs ▸ fun _ ht => by rw [htasks]; exact List.mem_cons_of_mem _ ht
    · rename_i htasks
      exact Option.some.inj hs ▸ fun _ ht => by rw [htasks]; exact List.mem_cons_of_mem _ ht
  · split at hs
    · exact Option.some.inj hs ▸ fun _ ht => ht
    · split at hs
      · cases hs
      · exact Option.some.inj hs ▸ fun _ ht => ht
  · exact Option.some.inj hs ▸ fun _ ht => ht
  · split at hs
    · exact Option.some.inj hs ▸ fun _ ht => ht
    · cases hs
  · split at hs
    · exact Option.some.inj hs ▸ fun _ ht => ht
    · cases hs
  · cases hs

theorem ioFail_io (hs : l.ioFail = some l') : l'.io = .ended ∧ l'.tasks = l.tasks := by
  unfold Link.ioFail at hs
  split at hs
  · exact Option.some.inj hs ▸ ⟨rfl, rfl⟩
  · exact Option.some.inj hs ▸ ⟨rfl, rfl⟩
  · cases hs

theorem work_io (hs : l.work wire dispatch = some l') : l'.io = l.io ∧ l'.tasks = l.tasks := by
  unfold Link.work at hs
  split at hs
  · split at hs
    · split at hs
      · exact Option.some.inj hs ▸ ⟨rfl, rfl⟩
      · split at hs
        · exact Option.some.inj hs ▸ ⟨rfl, rfl⟩
        · split at hs <;> exact Option.some.inj hs ▸ ⟨rfl, rfl⟩
    · exact Option.some.inj hs ▸ ⟨rfl, rfl⟩
    · cases hs
  · cases hs

theorem workDies_io {after : σ} (hs : l.workDies wire after = some l') : l'.io = l.io ∧ l'.tasks = l.tasks := by
  unfold Link.workDies at hs
  split at hs
  · split at hs
    · split at hs
      · cases hs
      · split at hs
        · cases hs
        · exact Option.some.inj hs ▸ ⟨rfl, rfl⟩
    · cases hs
  · cases hs

theorem flush_io {amount : Nat} (hs : l.flush amount = some l') : l'.io = l.io ∧ l'.tasks = l.tasks := by
  unfold Link.flush at hs
  split at hs
  · exact Option.some.inj hs ▸ ⟨rfl, rfl⟩
  · cases hs

end Link

namespace SessionOk

variable {s s' : Session σ V} {c : Nat} {old : CallPoint V}

theorem start : SessionOk client wire dispatch store (Session.start store) where
  link := {
    order := .nil
    fits := by simp [Session.start]
    tasks := Nat.zero_le 1
    queued := by simp [Session.start]
    took := by simp [Session.start]
    busy := by simp [Session.start]
    line := ⟨.nothing, ⟨rfl, rfl, rfl⟩, trivial⟩
    answered := by simp [Session.start]
    held := by simp [Session.start]
    unsent := by simp [Session.start]
    logged := by simp [Session.start]
    ids := .nil
    replied := ⟨[], [], rfl, rfl, .inl ⟨rfl, rfl⟩⟩ }
  control := by constructor <;> simp [Session.start]

/-- A step of the link, with the calls where they are. -/
theorem ofLink (h : SessionOk client wire dispatch store s) {l : Link σ V} (hl : LinkOk client wire dispatch store l ∧
      s.link.Grows l) {failure : Bool}
    (hsub : ∀ task ∈ l.tasks, task ∈ s.link.tasks) (htask : s.stop = true → l.io = .taking → s.link.io = .taking ∧
      l.tasks = s.link.tasks) :
    SessionOk client wire dispatch store { s with link := l, failure := failure } where
  link := hl.1
  control := h.control.link hl.2 failure (fun hm => .inl (hsub none hm)) (fun k => hsub (some k)) (fun hend hio => by
    have hshut : s.Shut := by
      rcases hend with ⟨c, outcome, hcall⟩ | ⟨hc, hn⟩
      · exact h.control.shut_of_joining hcall
      · exact h.control.shut hc hn
    obtain ⟨hold, htasks⟩ := htask hshut.stop hio
    rw [htasks]
    exact hshut.awake hold)

/-- The lock of `close` belongs to one call. -/
theorem one_closer (h : SessionOk client wire dispatch store s) {point : CloseStep} {outcome outcome' : Outcome V}
    (hold : s.calls[c]? = some (.closing point outcome)) (hrank : 0 < point.rank) {d : Nat}
    (hd : s.calls[d]? = some (.closing .joining outcome')) : d = c := by
  have hmine := (h.control.calls c _ hold).2.1 hrank
  have hother := (h.control.calls d _ hd).2.1 (by decide)
  exact Option.some.inj (hother.symm.trans hmine)

/-- A call that has the lock of `close` goes on with it. -/
theorem closing (h : ControlOk client s) {point next : CloseStep} {outcome : Outcome V}
    (hold : s.calls[c]? = some (.closing point outcome)) {closed stop : Bool}
    (hclosed : s.closed = true → closed = true) (hstop : s.stop = true → stop = true) (hclean : s.cleanup = some c)
    (hok : ({ s.goto c (.closing next outcome) with closed := closed, stop := stop } : Session σ V).CallOk client c
      (.closing next outcome)) :
    ControlOk client { s.goto c (.closing next outcome) with closed := closed, stop := stop } :=
  h.move hold rfl rfl rfl hclosed hstop (fun _ _ hd => hd) (fun _ _ hd => hd) rfl hok (fun _ hd _ _ =>
    .inr ⟨hd, trivial⟩)
    (fun _ hn => by
      rw [show s.cleanup = none from hn] at hclean
      cases hclean)

theorem drained_drain (h : LinkOk client wire dispatch store s.link) : s.link.drain.Drained := by
  have hlen := h.tasks
  intro k hk
  unfold Link.drain at hk
  split at hk
  · rename_i ht
    rw [ht] at hk
    cases hk
  all_goals
    rename_i rest ht
    rw [ht] at hlen
    obtain rfl : rest = [] := by simpa using hlen
    cases hk

theorem closeStep (h : SessionOk client wire dispatch store s) {point : CloseStep} {outcome : Outcome V}
    (hold : s.calls[c]? = some (.closing point outcome)) (hs : s.closeStep c outcome point = some s') :
    SessionOk client wire dispatch store s' := by
  obtain ⟨hok, hclean, hmark, hhalt, hdead, hdrained, hkeep⟩ := h.control.calls c _ hold
  have hnotJoining (hp : 0 < point.rank) (hne : point ≠ .joining) :
      ¬ ((∃ (d : Nat) (outcome' : Outcome V), s.calls[d]? = some (CallPoint.closing .joining outcome')) ∨
        s.closed = true ∧ s.cleanup = none) := by
    rintro (⟨d, outcome', hd⟩ | ⟨_, hn⟩)
    · obtain rfl := h.one_closer hold hp hd
      rw [hold] at hd
      exact hne (CallPoint.closing.inj (Option.some.inj hd)).1
    · rw [hclean hp] at hn
      cases hn
  unfold Session.closeStep at hs
  cases point with
  | locking =>
    simp only at hs
    split at hs
    · cases hs
    rename_i hfree
    split at hs
    · rename_i hclosed
      obtain rfl := Option.some.inj hs
      exact ⟨h.link, h.control.finishes hold rfl hok (.inl hclosed) (fun _ _ hd => hd) h.control.shut⟩
    · rename_i hopen
      obtain rfl := Option.some.inj hs
      refine ⟨h.link, h.control.move hold rfl rfl rfl (fun hc => hc) (fun hc => hc)
        (fun _ _ hd => hd) (fun d _ hd => ?_) rfl
        ⟨hok, fun _ => rfl, fun hr => absurd hr (by decide), fun hr => absurd hr (by decide), fun hr =>
          absurd hr (by decide), fun hr => absurd hr (by decide), fun he => by cases he⟩
        (fun _ hd _ _ => .inr ⟨hd, trivial⟩) (fun hc => absurd hc hopen)⟩
      rw [hd] at hfree
      cases hfree rfl
  | marking =>
    obtain rfl := Option.some.inj hs
    exact ⟨h.link, closing h.control hold (fun _ => rfl) (fun hc => hc) (hclean (by decide))
      ⟨hok, fun _ => hclean (by decide), fun _ => rfl, fun hr => absurd hr (by decide), fun hr =>
        absurd hr (by decide), fun hr => absurd hr (by decide), fun he => by cases he⟩⟩
  | stopping =>
    obtain rfl := Option.some.inj hs
    exact ⟨h.link, closing h.control hold (fun hc => hc) (fun _ => rfl) (hclean (by decide))
      ⟨hok, fun _ => hclean (by decide), fun _ => hmark (by decide), fun _ => rfl, fun hr => absurd hr (by decide),
        fun hr => absurd hr (by decide), fun he => by cases he⟩⟩
  | killing =>
    obtain rfl := Option.some.inj hs
    have hcontrol := h.control.link (LinkOk.die_grows (l := s.link)) s.failure .inl (fun _ hk => hk)
      (fun hend => absurd hend (hnotJoining (by decide) (by decide)))
    exact ⟨h.link.died, closing hcontrol hold (fun hc => hc) (fun hc => hc) (hclean (by decide))
      ⟨hok.grows LinkOk.die_grows, fun _ => hclean (by decide), fun _ => hmark (by decide), fun _ =>
        hhalt (by decide), fun _ => rfl, fun hr => absurd hr (by decide), fun he => by cases he⟩⟩
  | draining =>
    obtain rfl := Option.some.inj hs
    have hsub (task : Option Nat) (ht : task ∈ s.link.drain.tasks) : task ∈ s.link.tasks := by
      unfold Link.drain at ht
      split at ht
      · exact ht
      all_goals
        rename_i htasks
        rw [htasks]
        exact List.mem_cons_of_mem _ ht
    have hcontrol := h.control.link h.link.drain_grows s.failure (fun hm => .inl (hsub none hm)) (fun k =>
      hsub (some k))
      (fun hend => absurd hend (hnotJoining (by decide) (by decide)))
    exact ⟨h.link.drained, closing hcontrol hold (fun hc => hc) (fun hc => hc) (hclean (by decide))
      ⟨hok.grows h.link.drain_grows, fun _ => hclean (by decide), fun _ => hmark (by decide), fun _ =>
        hhalt (by decide), fun _ => h.link.drain_grows.alive (hdead (by decide)), fun _ =>
          drained_drain h.link, fun he => by cases he⟩⟩
  | waking =>
    obtain rfl := Option.some.inj hs
    have htasks : s.link.wakeIo.tasks ≠ [] ∧ (none ∈ s.link.wakeIo.tasks → none ∈ s.link.tasks ∨ s.closed = true) ∧
        ∀ k, some k ∈ s.link.wakeIo.tasks → some k ∈ s.link.tasks := by
      unfold Link.wakeIo
      split
      · exact ⟨List.cons_ne_nil _ _, fun _ => .inr (hmark (by decide)), by simp⟩
      · rename_i hne
        exact ⟨hne, .inl, fun _ hk => hk⟩
    have hcontrol := h.control.link (LinkOk.wakeIo_grows (l := s.link)) s.failure htasks.2.1 htasks.2.2
      (fun hend => absurd hend (hnotJoining (by decide) (by decide)))
    exact ⟨h.link.woken, closing hcontrol hold (fun hc => hc) (fun hc => hc) (hclean (by decide))
      ⟨hok.grows LinkOk.wakeIo_grows, fun _ => hclean (by decide), fun _ => hmark (by decide), fun _ =>
        hhalt (by decide), fun _ => LinkOk.wakeIo_grows.alive (hdead (by decide)), fun _ k hk =>
          hdrained (by decide) k (htasks.2.2 k hk), fun _ _ => htasks.1⟩⟩
  | joining =>
    simp only at hs
    split at hs
    · obtain rfl := Option.some.inj hs
      refine ⟨h.link, h.control.finishes hold rfl hok (.inl (hmark (by decide))) (fun d hd hcd => ?_)
        (fun _ _ => h.control.shut_of_joining hold)⟩
      exact absurd (Option.some.inj (hcd.symm.trans (hclean (by decide)))) hd
    · cases hs

theorem waits (h : SessionOk client wire dispatch store s) {r : Request V} {k : Nat}
    (hold : s.calls[c]? = some (.waiting r k)) {x : Exchange V} (hx : s.link.exchanges[k]? = some x) :
    x.request = r := by
  obtain ⟨_, y, hy, hreq⟩ := h.control.calls c _ hold
  rw [hx] at hy
  rw [Option.some.inj hy, hreq]

/-- A call that waits hears that its exchange is over. -/
theorem wakes (h : SessionOk client wire dispatch store s) {r : Request V} {k : Nat}
    (hold : s.calls[c]? = some (.waiting r k)) {x : Exchange V} (hx : s.link.exchanges[k]? = some x)
    (hd : x.done = true) {outcome : Outcome V} (hreq : outcome.request = some r) (hok : outcome.Ok s.link) :
    SessionOk client wire dispatch store (s.finish c outcome) :=
  ⟨h.link, h.control.finishes hold hreq hok (.inr (fun j y hj hy => by
    obtain rfl : k = j := hj
    rw [hx] at hy
    exact Option.some.inj hy ▸ hd)) (fun _ _ hc => hc) h.control.shut⟩

theorem check (h : SessionOk client wire dispatch store s) {args : List Text} {payload : Option V}
    (hold : s.calls[c]? = some (.checking args payload)) (hopen : s.closed = false) :
    (maxFrameBytes < (client.body ⟨s.sequence + 1, args, payload⟩).length →
      SessionOk client wire dispatch store { s.finish c (.raised (some ⟨s.sequence + 1, args, payload⟩) .frameLimit)
        with sequence := s.sequence + 1 }) ∧
    (¬ maxFrameBytes < (client.body ⟨s.sequence + 1, args, payload⟩).length →
      SessionOk client wire dispatch store { s.goto c (.enqueueing ⟨s.sequence + 1, args, payload⟩)
        with sequence := s.sequence + 1 }) := by
  have hlock : s.serial = some c := h.control.calls c _ hold
  have hdone := h.control.all_done hopen hold hlock (fun _ hh => hh)
  refine ⟨fun _ => ⟨h.link, ?_⟩, fun hlen => ⟨h.link, ?_⟩⟩
  · exact h.control.numbered hold rfl rfl ⟨rfl, rfl, rfl, rfl⟩ rfl (fun hids => Outcome.ok_of_lt (by decide) hids) hdone
  · have hpos : 0 < (client.body ⟨s.sequence + 1, args, payload⟩).length :=
      List.length_pos_of_ne_nil (client.body_ne_nil _)
    exact h.control.numbered hold rfl rfl ⟨rfl, rfl, rfl, rfl⟩ rfl
      (fun hids => ⟨hlock, rfl, ⟨hpos, Nat.not_lt.1 hlen⟩, hids⟩) hdone

theorem step_acquire (h : SessionOk client wire dispatch store s) {call : Nat}
    (hs : s.step client wire dispatch (.acquire call) = some s') :
    SessionOk client wire dispatch store s' := by
  simp only [Session.step] at hs
  split at hs
  · rename_i args payload hold
    split at hs
    · cases hs
    rename_i hfree
    obtain rfl := Option.some.inj hs
    refine ⟨h.link, h.control.move hold rfl rfl rfl (fun hc => hc) (fun hc => hc)
      (fun d _ hd => ?_) (fun _ _ hd => hd) rfl rfl
      (fun _ _ hh _ => hh.elim) (fun hc hn => (h.control.shut hc hn).same rfl rfl)⟩
    rw [hd] at hfree
    cases hfree rfl
  · cases hs

theorem step_giveUp (h : SessionOk client wire dispatch store s) {call : Nat}
    (hs : s.step client wire dispatch (.giveUp call) = some s') :
    SessionOk client wire dispatch store s' := by
  simp only [Session.step] at hs
  split at hs
  · rename_i args payload hold
    obtain rfl := Option.some.inj hs
    have hok : (Outcome.raised none .timeoutBeforeDispatch).Ok s.link := Outcome.ok_none (by decide)
    exact ⟨h.link, h.control.move hold rfl rfl rfl (fun hc => hc) (fun hc => hc)
      (fun _ _ hd => hd) (fun _ _ hd => hd) rfl hok
      (fun _ _ hh _ => hh.elim) (fun hc hn => (h.control.shut hc hn).same rfl rfl)⟩
  · cases hs

theorem step_check (h : SessionOk client wire dispatch store s) {call : Nat}
    (hs : s.step client wire dispatch (.check call) = some s') :
    SessionOk client wire dispatch store s' := by
  simp only [Session.step] at hs
  split at hs
  · rename_i args payload hold
    split at hs
    · obtain rfl := Option.some.inj hs
      have hok : (Outcome.raised none .sessionClosed).Ok s.link := Outcome.ok_none (by decide)
      exact ⟨h.link, h.control.closes hold rfl hok⟩
    rename_i hcan
    have hopen : s.closed = false := by
      simp only [Bool.or_eq_true, not_or, Bool.not_eq_true] at hcan
      exact hcan.1.1
    split at hs
    · rename_i hlen
      obtain rfl := Option.some.inj hs
      exact (h.check hold hopen).1 hlen
    · rename_i hlen
      obtain rfl := Option.some.inj hs
      exact (h.check hold hopen).2 hlen
  · cases hs

theorem step_late (h : SessionOk client wire dispatch store s) {call : Nat}
    (hs : s.step client wire dispatch (.late call) = some s') :
    SessionOk client wire dispatch store s' := by
  simp only [Session.step] at hs
  split at hs
  · rename_i r hold
    obtain rfl := Option.some.inj hs
    exact ⟨h.link, h.control.finishes hold rfl (Outcome.ok_of_lt (by decide) (h.control.calls _ _ hold).2.2.2)
      (.inr (fun _ _ hh => hh.elim))
      (fun _ _ hd => hd) h.control.shut⟩
  · cases hs

theorem step_enqueue (h : SessionOk client wire dispatch store s) {call : Nat}
    (hs : s.step client wire dispatch (.enqueue call) = some s') :
    SessionOk client wire dispatch store s' := by
  simp only [Session.step] at hs
  split at hs
  · rename_i r hold
    obtain ⟨hlock, _, hfits, hids⟩ := h.control.calls call _ hold
    split at hs
    · cases hs
    split at hs
    · obtain rfl := Option.some.inj hs
      exact ⟨h.link, h.control.finishes hold rfl (Outcome.ok_of_lt (by decide) hids) (.inr (fun _ _ hh =>
        hh.elim)) (fun _ _ hd => hd) h.control.shut⟩
    rename_i hclosed
    have hopen : s.closed = false := by simpa using hclosed
    have hdone := h.control.all_done hopen hold hlock (fun _ hh => hh)
    -- a task in the queue is not done, or marks that the session is closed
    have hempty : s.link.tasks = [] := by
      refine List.eq_nil_iff_forall_not_mem.2 (fun task ht => ?_)
      cases task with
      | none => exact hclosed (h.control.mark ht)
      | some k =>
        obtain ⟨_, x, hx, hd, _⟩ := h.link.queued k ht
        rw [hdone x (List.mem_of_getElem? hx)] at hd
        cases hd
    rw [if_neg (not_not.2 hempty)] at hs
    obtain rfl := Option.some.inj hs
    exact ⟨h.link.enqueued hdone hids hfits, h.control.enqueues hold hopen⟩
  · cases hs

theorem step_wake (h : SessionOk client wire dispatch store s) {call : Nat}
    (hs : s.step client wire dispatch (.wake call) = some s') :
    SessionOk client wire dispatch store s' := by
  simp only [Session.step] at hs
  split at hs
  · rename_i r k hold
    split at hs
    · cases hs
    rename_i x hx
    split at hs
    · cases hs
    rename_i hd
    have hdone : x.done = true := by simpa using hd
    have hreq := h.waits hold hx
    have hmem := List.mem_of_getElem? hx
    split at hs
    · rename_i he
      obtain rfl := Option.some.inj hs
      have hok : (Outcome.raised (some r) .closedBeforeDispatch).Ok s.link := ⟨by decide, fun q hq _ y hy hid => by
        rw [h.link.unique hy hmem (hid.trans (by rw [hreq, Option.mem_some_iff.1 hq]))]
        exact ⟨he, hdone⟩⟩
      exact ⟨h.link, h.control.closes hold rfl hok⟩
    · obtain rfl := Option.some.inj hs
      exact ⟨h.link, h.control.closes hold rfl (Outcome.ok_of_after rfl)⟩
    · rename_i he
      split at hs
      · obtain rfl := Option.some.inj hs
        exact h.wakes hold hx hdone rfl (hreq ▸ h.link.answered x hmem hdone he)
      · obtain rfl := Option.some.inj hs
        exact ⟨h.link, h.control.closes hold rfl (Outcome.ok_of_after rfl)⟩
  · cases hs

theorem step_expire (h : SessionOk client wire dispatch store s) {call : Nat}
    (hs : s.step client wire dispatch (.expire call) = some s') :
    SessionOk client wire dispatch store s' := by
  simp only [Session.step] at hs
  split at hs
  · rename_i r k hold
    split at hs
    · cases hs
    obtain rfl := Option.some.inj hs
    exact ⟨h.link, h.control.closes hold rfl (Outcome.ok_of_after rfl)⟩
  · cases hs

theorem step_interrupt (h : SessionOk client wire dispatch store s) {call : Nat}
    (hs : s.step client wire dispatch (.interrupt call) = some s') :
    SessionOk client wire dispatch store s' := by
  have hfinish {point : CallPoint V} (hold : s.calls[call]? = some point) {request : Option (Request V)}
    (hreq : request = point.request)
      (hdone : s.closed = true ∨ ∀ k, ¬ point.Holds k) :
        SessionOk client wire dispatch store (s.finish call (.raised request .interrupted)) := by
    have hasked : (Outcome.raised request .interrupted).request = point.request := hreq
    exact ⟨h.link, h.control.finishes hold hasked (Outcome.ok_of_after rfl) (hdone.imp id (fun hno k _ hh =>
      absurd hh (hno k))) (fun _ _ hd => hd)
      h.control.shut⟩
  simp only [Session.step] at hs
  split at hs
  · rename_i hold
    exact Option.some.inj hs ▸ hfinish hold rfl (.inr (fun _ hh => hh))
  · rename_i hold
    exact Option.some.inj hs ▸ hfinish hold rfl (.inr (fun _ hh => hh))
  · rename_i hold
    exact Option.some.inj hs ▸ hfinish hold rfl (.inr (fun _ hh => hh))
  · rename_i r k hold
    split at hs
    · rename_i hclosed
      exact Option.some.inj hs ▸ hfinish hold rfl (.inl hclosed)
    · obtain rfl := Option.some.inj hs
      exact ⟨h.link, h.control.closes hold rfl (Outcome.ok_of_after rfl)⟩
  · cases hs

theorem step_giveUpJoin (h : SessionOk client wire dispatch store s) {call : Nat}
    (hs : s.step client wire dispatch (.giveUpJoin call) = some s') :
    SessionOk client wire dispatch store s' := by
  simp only [Session.step] at hs
  split at hs
  · rename_i outcome hold
    obtain rfl := Option.some.inj hs
    obtain ⟨_, hclean, hmark, _⟩ := h.control.calls call _ hold
    have hreq : outcome.joinFailed.request = outcome.request := by cases outcome <;> rfl
    have hjoin : outcome.joinFailed.Ok s.link := by cases outcome <;> exact Outcome.ok_of_after rfl
    refine ⟨h.link, h.control.finishes hold hreq hjoin (.inl (hmark (by decide))) (fun d hd hcd => ?_)
      (fun _ _ => h.control.shut_of_joining hold)⟩
    exact absurd (Option.some.inj (hcd.symm.trans (hclean (by decide)))) hd
  · cases hs

/-- **Every step of a session keeps the invariant.** -/
theorem step (h : SessionOk client wire dispatch store s) (hread : Understood client wire s) {a : SessionStep σ V}
    (hs : s.step client wire dispatch a = some s') : SessionOk client wire dispatch store s' := by
  cases a with
  | request args payload =>
    obtain rfl := Option.some.inj hs
    exact ⟨h.link, h.control.starts rfl trivial⟩
  | close =>
    obtain rfl := Option.some.inj hs
    have hok : (Outcome.closed : Outcome V).Ok s.link := trivial
    exact ⟨h.link, h.control.starts rfl (.locking hok)⟩
  | acquire call => exact h.step_acquire hs
  | giveUp call => exact h.step_giveUp hs
  | check call => exact h.step_check hs
  | late call => exact h.step_late hs
  | enqueue call => exact h.step_enqueue hs
  | wake call => exact h.step_wake hs
  | expire call => exact h.step_expire hs
  | interrupt call => exact h.step_interrupt hs
  | closeStep call =>
    simp only [Session.step] at hs
    split at hs
    · rename_i hold
      exact h.closeStep hold hs
    · cases hs
  | giveUpJoin call => exact h.step_giveUpJoin hs
  | io amount =>
    simp only [Session.step, Option.map_eq_some_iff] at hs
    obtain ⟨l, hl, rfl⟩ := hs
    exact h.ofLink (h.link.ioStep hl) (Link.ioStep_tasks hl) (fun hstop hio =>
      absurd hio (Link.ioStep_ne_taking (hstop ▸ hl)))
  | ioFail =>
    simp only [Session.step, Option.map_eq_some_iff] at hs
    obtain ⟨l, hl, rfl⟩ := hs
    have hsame := Link.ioFail_io hl
    exact h.ofLink (h.link.ioFailed hl) (fun task ht => hsame.2 ▸ ht) (fun _ hio => by rw [hsame.1] at hio; cases hio)
  | work =>
    simp only [Session.step, Option.map_eq_some_iff] at hs
    obtain ⟨l, hl, rfl⟩ := hs
    have hsame := Link.work_io hl
    exact h.ofLink (h.link.worksOn hread hl) (fun task ht => hsame.2 ▸ ht) (fun _ hio => ⟨hsame.1 ▸ hio, hsame.2⟩)
  | workDies after =>
    simp only [Session.step, Option.map_eq_some_iff] at hs
    obtain ⟨l, hl, rfl⟩ := hs
    have hsame := Link.workDies_io hl
    exact h.ofLink (h.link.diesIn hread hl) (fun task ht => hsame.2 ▸ ht) (fun _ hio => ⟨hsame.1 ▸ hio, hsame.2⟩)
  | flush amount =>
    simp only [Session.step, Option.map_eq_some_iff] at hs
    obtain ⟨l, hl, rfl⟩ := hs
    have hsame := Link.flush_io hl
    exact h.ofLink (h.link.flushes hl) (fun task ht => hsame.2 ▸ ht) (fun _ hio => ⟨hsame.1 ▸ hio, hsame.2⟩)
  | die =>
    obtain rfl := Option.some.inj hs
    exact h.ofLink ⟨h.link.died, LinkOk.die_grows⟩ (fun _ ht => ht) (fun _ hio => ⟨hio, rfl⟩)

end SessionOk
end FastK

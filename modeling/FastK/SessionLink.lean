import FastK.SessionClient
/-!
# The exchanges of a session

The invariant of what lies between the calls of a session and its worker: the queue, the IO thread, the pipes and the
worker (`LinkOk`).  At any time the pipes hold nothing, a part of one request or a part of one response, and it is the
request or the response of the exchange that the IO thread is about; so the frame that the worker takes is the request
of that exchange (`LinkOk.taken`), the frame that the IO thread reads is its response (`LinkOk.ioRead`), and an
exchange that is taken back was never sent (`LinkOk.unsent`).
-/
namespace FastK

open Framing

variable {σ V : Type} {client : ClientJson V} {wire : Wire V}
    {dispatch : σ → Request V → σ × Except BridgeError (List Nat)} {store : σ}

/-! ## The pipes -/

/-- What is on the pipes. -/
inductive Carried where
  | nothing
  | request (exchange : Nat) (left : List Nat)
  | response (exchange : Nat)

/-- The pipes hold just that: nothing, the part of a request before `left`, or a part of the response to a request. -/
def Carried.On (client : ClientJson V) (l : Link σ V) : Carried → Prop
  | .nothing => l.toWorker = [] ∧ l.pending = [] ∧ l.fromWorker = []
  | .request k left => ∃ x, l.exchanges[k]? = some x ∧ x.sent = true ∧
      l.toWorker ++ left = sessionPrefix.frame (client.body x.request) ∧
      l.pending = [] ∧ l.fromWorker = [] ∧ ∀ entry ∈ l.log, entry.1.id < x.request.id
  | .response k => ∃ x response, l.exchanges[k]? = some x ∧ x.sent = true ∧ (x.request, some response) ∈ l.log ∧
      sessionPrefix.Fits response ∧
      l.toWorker = [] ∧ l.fromWorker ++ l.pending <+: sessionPrefix.frame response

/-- What the IO thread is about agrees with what is on the pipes. -/
def Carried.Fits (alive : Bool) : Carried → IoPoint → Prop
  | .nothing, .writing _ left => left = [] ∧ alive = false
  | .nothing, .reading _ => alive = false
  | .nothing, _ => True
  | .request k left, .writing j rest => j = k ∧ rest = left
  | .request k left, .reading j => j = k ∧ left = []
  | .request _ _, .ended => True
  | .response k, .writing j left => j = k ∧ left = []
  | .response k, .reading j => j = k
  | .response _, .ended => True
  | _, _ => False

/-- The exchange is the last one, and nothing was done about it. -/
def Link.Fresh (l : Link σ V) (k : Nat) : Prop := k + 1 = l.exchanges.length ∧ ∃ x, l.exchanges[k]? = some x ∧
    x.done = false ∧ x.sent = false

/-- The exchange is in the queue, or the IO thread is about it. -/
def Held (tasks : List (Option Nat)) (io : IoPoint) (k : Nat) : Prop :=
  some k ∈ tasks ∨ io = .took k ∨ (∃ left, io = .writing k left) ∨ io = .reading k

theorem Held.queued {tasks : List (Option Nat)} {io : IoPoint} {k : Nat} (h : Held tasks io k) (ht : io ≠ .took k)
    (hw : ∀ left, io ≠ .writing k left) (hr : io ≠ .reading k) : some k ∈ tasks := by
  rcases h with h | h | ⟨left, h⟩ | h
  · exact h
  · exact absurd h ht
  · exact absurd h (hw left)
  · exact absurd h hr

/-- The log is a run of the requests one after another, but for the last one where the worker died in it. -/
def Link.Replied (wire : Wire V) (dispatch : σ → Request V → σ × Except BridgeError (List Nat)) (store : σ)
    (l : Link σ V) : Prop :=
  ∃ whole last, l.log = whole ++ last ∧
    whole.map Prod.snd = (carryOut wire dispatch store (whole.map Prod.fst)).2.map some ∧
    (last = [] ∧ l.worker.store = (carryOut wire dispatch store (whole.map Prod.fst)).1 ∨ l.alive = false ∧ ∃ r,
      last = [(r, none)])

/-- The invariant of the queue, the IO thread, the pipes and the worker. -/
structure LinkOk (client : ClientJson V) (wire : Wire V)
    (dispatch : σ → Request V → σ × Except BridgeError (List Nat)) (store : σ) (l : Link σ V) : Prop where
  order : l.exchanges.Pairwise (fun x y => x.request.id < y.request.id)
  fits : ∀ x ∈ l.exchanges, sessionPrefix.Fits (client.body x.request)
  tasks : l.tasks.length ≤ 1
  queued : ∀ k, some k ∈ l.tasks → l.Fresh k
  took : ∀ k, l.io = .took k → l.Fresh k ∧ ∀ j, some j ∉ l.tasks
  busy : ∀ k, ((∃ left, l.io = .writing k left) ∨ l.io = .reading k) → ∃ x, l.exchanges[k]? = some x ∧
    x.done = false ∧ x.sent = true
  held : ∀ (k : Nat) (x : Exchange V), l.exchanges[k]? = some x → x.done = false → Held l.tasks l.io k
  line : ∃ carried : Carried, carried.On client l ∧ carried.Fits l.alive l.io
  answered : ∀ x ∈ l.exchanges, x.done = true → x.error = none → (x.request, some x.response) ∈ l.log
  unsent : ∀ x ∈ l.exchanges, x.error = some .closedBeforeDispatch → x.sent = false ∧ x.done = true
  logged : ∀ entry ∈ l.log, ∃ x ∈ l.exchanges, x.request = entry.1 ∧ x.sent = true
  ids : (l.log.map (fun entry => entry.1.id)).Pairwise (· < ·)
  replied : l.Replied wire dispatch store

/-- An exchange changes only as long as it is not done, and keeps its request. -/
structure Link.Grows (l l' : Link σ V) : Prop where
  requests : l'.exchanges.map Exchange.request = l.exchanges.map Exchange.request
  done : ∀ (k : Nat) (x : Exchange V), l.exchanges[k]? = some x → x.done = true → l'.exchanges[k]? = some x
  sent : ∀ (k : Nat) (x y : Exchange V), l.exchanges[k]? = some x → l'.exchanges[k]? = some y → x.sent = true →
    y.sent = true
  log : l.log <+: l'.log
  alive : l.alive = false → l'.alive = false

namespace Link

variable {l l' : Link σ V} {k : Nat} {x : Exchange V}

theorem Grows.refl : l.Grows l :=
  ⟨Eq.refl _, fun _ _ h _ => h, fun _ _ _ hx hy hs => Option.some.inj (hx.symm.trans hy) ▸ hs, List.prefix_rfl,
    fun h => h⟩

/-- The exchanges where one that is not done is changed. -/
theorem grows_modify {f : Exchange V → Exchange V} (hex : l'.exchanges = l.exchanges.modify k f)
    (hk : ∀ x, l.exchanges[k]? = some x → x.done = false)
    (hf : ∀ x, (f x).request = x.request ∧ (x.sent = true → (f x).sent = true)) (hlog : l.log <+: l'.log)
    (halive : l.alive = false → l'.alive = false) : l.Grows l' where
  requests := by
    rw [hex]
    apply List.ext_getElem?
    intro j
    rw [List.getElem?_map, List.getElem?_map, List.getElem?_modify]
    cases l.exchanges[j]? with
    | none => rfl
    | some y => by_cases hj : k = j <;> simp [hj, (hf y).1]
  done j y hy hd := by
    have hne : k ≠ j := by
      rintro rfl
      rw [hk y hy] at hd
      cases hd
    rw [hex, List.getElem?_modify, hy]
    simp [hne]
  sent j y z hy hz hs := by
    rw [hex, List.getElem?_modify, hy] at hz
    obtain rfl := Option.some.inj hz
    split
    · exact (hf y).2 hs
    · exact hs
  log := hlog
  alive := halive

theorem grows_of_exchanges (hex : l'.exchanges = l.exchanges) (hlog : l.log <+: l'.log)
    (halive : l.alive = false → l'.alive = false) : l.Grows l' where
  requests := by rw [hex]
  done _ _ h _ := by rwa [hex]
  sent _ _ _ hx hy hs := by
    rw [hex, hx] at hy
    exact Option.some.inj hy ▸ hs
  log := hlog
  alive := halive

theorem Grows.back (h : l.Grows l') {y : Exchange V} (hy : l'.exchanges[k]? = some y) :
    ∃ x, l.exchanges[k]? = some x ∧ x.request = y.request ∧ (x.done = true → y = x) := by
  have hreq := congrArg (fun rs => rs[k]?) h.requests
  simp only [List.getElem?_map, hy, Option.map_some] at hreq
  cases hx : l.exchanges[k]? with
  | none => rw [hx] at hreq; cases hreq
  | some x =>
    rw [hx] at hreq
    refine ⟨x, rfl, (Option.some.inj hreq).symm, fun hd => ?_⟩
    rw [h.done k x hx hd] at hy
    exact (Option.some.inj hy).symm

theorem Grows.forth (h : l.Grows l') (hx : l.exchanges[k]? = some x) : ∃ y, l'.exchanges[k]? = some y ∧
    y.request = x.request := by
  have hreq := congrArg (fun rs => rs[k]?) h.requests
  simp only [List.getElem?_map, hx, Option.map_some] at hreq
  cases hy : l'.exchanges[k]? with
  | none => rw [hy] at hreq; cases hreq
  | some y =>
    rw [hy] at hreq
    exact ⟨y, rfl, Option.some.inj hreq⟩

theorem Grows.mem_requests (h : l.Grows l') {r : Request V} : (∃ x ∈ l'.exchanges, x.request = r) ↔
    ∃ x ∈ l.exchanges, x.request = r := by
  have hmem : r ∈ l'.exchanges.map Exchange.request ↔ r ∈ l.exchanges.map Exchange.request := by rw [h.requests]
  simpa only [List.mem_map] using hmem

theorem Grows.order (h : l.Grows l') (ho : l.exchanges.Pairwise (fun x y => x.request.id < y.request.id)) :
    l'.exchanges.Pairwise (fun x y => x.request.id < y.request.id) := by
  have hmap : (l'.exchanges.map Exchange.request).Pairwise (fun r q => r.id < q.id) := by
    rw [h.requests]
    exact List.pairwise_map.2 ho
  exact List.Pairwise.of_map Exchange.request (fun _ _ hid => hid) hmap

theorem Grows.fits (h : l.Grows l') (hf : ∀ x ∈ l.exchanges, sessionPrefix.Fits (client.body x.request)) :
    ∀ y ∈ l'.exchanges, sessionPrefix.Fits (client.body y.request) := by
  intro y hy
  obtain ⟨x, hx, hreq⟩ := h.mem_requests.1 ⟨y, hy, Eq.refl _⟩
  exact hreq ▸ hf x hx

theorem Grows.logged (h : l.Grows l') {r : Request V} (hr : ∃ x ∈ l.exchanges, x.request = r ∧ x.sent = true) :
    ∃ y ∈ l'.exchanges, y.request = r ∧ y.sent = true := by
  obtain ⟨x, hx, hreq, hs⟩ := hr
  obtain ⟨k, hk⟩ := List.mem_iff_getElem?.1 hx
  obtain ⟨y, hy, hreq'⟩ := h.forth hk
  exact ⟨y, List.mem_of_getElem? hy, hreq'.trans hreq, h.sent k x y hk hy hs⟩

/-- An exchange of the changed list is the changed one, or an old one. -/
theorem mem_modify {α : Type} {f : α → α} {as : List α} {k : Nat} {b : α} (h : b ∈ as.modify k f) :
    (∃ a, as[k]? = some a ∧ b = f a) ∨ b ∈ as := by
  obtain ⟨j, hj⟩ := List.mem_iff_getElem?.1 h
  rw [List.getElem?_modify] at hj
  cases ha : as[j]? with
  | none => rw [ha] at hj; cases hj
  | some a =>
    rw [ha] at hj
    by_cases hk : k = j
    · subst hk
      exact .inl ⟨a, ha, by simpa using hj.symm⟩
    · obtain rfl : a = b := by simpa [hk] using hj
      exact .inr (List.mem_of_getElem? ha)

end Link

/-- The pipes hold what they held where the exchanges change. -/
theorem Carried.On.grows {l l' : Link σ V} {carried : Carried} (h : carried.On client l) (hg : l.Grows l')
    (htw : l'.toWorker = l.toWorker) (hp : l'.pending = l.pending) (hf : l'.fromWorker = l.fromWorker)
    (hlog : l'.log = l.log) : carried.On client l' := by
  cases carried with
  | nothing => exact ⟨htw ▸ h.1, hp ▸ h.2.1, hf ▸ h.2.2⟩
  | request k left =>
    obtain ⟨x, hx, hs, hframe, hpend, hfrom, hids⟩ := h
    obtain ⟨y, hy, hreq⟩ := hg.forth hx
    exact ⟨y, hy, hg.sent k x y hx hy hs, by rw [hreq, htw, hframe], by rw [hp, hpend], by rw [hf, hfrom],
      by rw [hlog, hreq]; exact hids⟩
  | response k =>
    obtain ⟨x, response, hx, hs, hmem, hfits, hto, hpre⟩ := h
    obtain ⟨y, hy, hreq⟩ := hg.forth hx
    exact ⟨y, response, hy, hg.sent k x y hx hy hs, by rw [hlog, hreq]; exact hmem, hfits, by rw [htw, hto],
      by rw [hf, hp]; exact hpre⟩

/-! ## The steps of the IO thread and of the worker -/

namespace LinkOk

variable {l l' : Link σ V} {k : Nat}

/-- Between two exchanges nothing is on the pipes. -/
theorem nothing (h : LinkOk client wire dispatch store l) (hio : l.io = .top ∨ l.io = .taking ∨ ∃ k, l.io = .took k) :
    (Carried.nothing).On client l := by
  obtain ⟨carried, hon, hfits⟩ := h.line
  cases carried with
  | nothing => exact hon
  | request j left => rcases hio with hio | hio | ⟨k, hio⟩ <;> rw [hio] at hfits <;> exact hfits.elim
  | response j => rcases hio with hio | hio | ⟨k, hio⟩ <;> rw [hio] at hfits <;> exact hfits.elim

theorem ioTop (h : LinkOk client wire dispatch store l) (hio : l.io = .top) {point : IoPoint}
    (hp : point = .ended ∨ point = .taking) :
    LinkOk client wire dispatch store { l with io := point } := by
  refine { h with took := ?_, busy := ?_, held := fun k x hx hd => ?_, line := ⟨.nothing, h.nothing (.inl hio), ?_⟩ }
  · rcases hp with rfl | rfl <;> intro k hk <;> cases hk
  · rcases hp with rfl | rfl <;> rintro k (⟨left, hk⟩ | hk) <;> cases hk
  · exact .inl ((h.held k x hx hd).queued (by simp [hio]) (by simp [hio]) (by simp [hio]))
  · rcases hp with rfl | rfl <;> trivial

theorem ioTaken (h : LinkOk client wire dispatch store l) (hio : l.io = .taking) {rest : List (Option Nat)}
    {task : Option Nat}
    (ht : l.tasks = task :: rest) : LinkOk client wire dispatch store { l with tasks := rest, io := task.elim .ended .took } := by
  obtain rfl : rest = [] := by
    have hlen := h.tasks
    rw [ht] at hlen
    simpa using hlen
  refine { h with tasks := Nat.zero_le 1, queued := by simp, took := ?_, busy := ?_, held := fun k x hx hd => ?_,
                  line := ⟨.nothing, h.nothing (.inr (.inl hio)), ?_⟩ }
  · intro k hk
    cases task with
    | none => cases hk
    | some j =>
      obtain rfl : j = k := by simpa using hk
      exact ⟨h.queued j (by rw [ht]; simp), by simp⟩
  · cases task <;> rintro k (⟨left, hk⟩ | hk) <;> cases hk
  · have hmem := (h.held k x hx hd).queued (by simp [hio]) (by simp [hio]) (by simp [hio])
    rw [ht, List.mem_singleton] at hmem
    exact .inr (.inl (hmem ▸ rfl))
  · cases task <;> trivial

/-- An exchange that is not done fails: the IO thread ends with it, or goes on with what it was about. -/
theorem fail (h : LinkOk client wire dispatch store l) {x : Exchange V} (hx : l.exchanges[k]? = some x)
    (hd : x.done = false) {e : ExchangeError} (he : e = .closedBeforeDispatch → x.sent = false)
    {tasks : List (Option Nat)} {point : IoPoint} (hlen : tasks.length ≤ 1)
    (hq : ∀ j, some j ∈ tasks → some j ∈ l.tasks ∧ j ≠ k) (hpoint : point = .ended ∨ point = l.io ∧
      (∀ j, l.io ≠ .took j) ∧ ∀ j, ((∃ left, l.io = .writing j left) ∨ l.io = .reading j) → j ≠ k)
    (hkeep : ∀ j, j ≠ k → Held l.tasks l.io j → Held tasks point j) :
    LinkOk client wire dispatch store { l.fail k e with tasks := tasks, io := point } := by
  have hother (j : Nat) (hj : j ≠ k) : (l.exchanges.modify k (fun x => { x with error := some e, done := true }))[j]? = l.exchanges[j]? := by
    rw [List.getElem?_modify]
    cases l.exchanges[j]? <;> simp [Ne.symm hj]
  have hg : l.Grows { l.fail k e with tasks := tasks, io := point } :=
    Link.grows_modify rfl (fun y hy => by rw [hx] at hy; exact Option.some.inj hy ▸ hd)
      (fun _ => ⟨rfl, fun hs => hs⟩) List.prefix_rfl (fun ha => ha)
  refine { order := hg.order h.order, fits := hg.fits h.fits, tasks := hlen, queued := ?_, took := ?_, busy := ?_, held := ?_, line := ?_,
           answered := ?_, unsent := ?_, logged := fun entry hentry => hg.logged (h.logged entry hentry), ids := h.ids, replied := h.replied }
  · intro j hj
    obtain ⟨hmem, hne⟩ := hq j hj
    obtain ⟨hlast, y, hy, hyd, hys⟩ := h.queued j hmem
    exact ⟨by simpa [Link.fail] using hlast, y, by simpa [Link.fail, hother j hne] using hy, hyd, hys⟩
  · rintro j hj
    rcases hpoint with rfl | ⟨rfl, hnot, _⟩
    · cases hj
    · exact absurd hj (hnot j)
  · rintro j hj
    rcases hpoint with rfl | ⟨rfl, _, hne⟩
    · rcases hj with ⟨left, hj⟩ | hj <;> cases hj
    · obtain ⟨y, hy, hyd, hys⟩ := h.busy j hj
      exact ⟨y, by simpa [Link.fail, hother j (hne j hj)] using hy, hyd, hys⟩
  · intro j y hy hyd
    by_cases hjk : j = k
    · obtain rfl : y = { x with error := some e, done := true } := by
        simpa [Link.fail, hjk, List.getElem?_modify, hx] using hy.symm
      cases hyd
    · exact hkeep j hjk (h.held j y (by rw [← hother j hjk]; exact hy) hyd)
  · obtain ⟨carried, hon, hfits⟩ := h.line
    refine ⟨carried, hon.grows hg rfl rfl rfl rfl, ?_⟩
    rcases hpoint with rfl | ⟨rfl, _⟩
    · cases carried <;> trivial
    · exact hfits
  · intro y hy hyd hye
    rcases Link.mem_modify hy with ⟨z, _, rfl⟩ | hy
    · cases hye
    · exact h.answered y hy hyd hye
  · intro y hy hye
    rcases Link.mem_modify hy with ⟨z, hz, rfl⟩ | hy
    · rw [hx] at hz
      obtain rfl := Option.some.inj hz
      exact ⟨he (Option.some.inj hye), rfl⟩
    · exact h.unsent y hy hye

/-- The IO thread goes about writing the frame of the exchange that it took. -/
theorem ioSend (h : LinkOk client wire dispatch store l) (hio : l.io = .took k) {x : Exchange V}
    (hx : l.exchanges[k]? = some x) :
    LinkOk client wire dispatch store { l with
      io := .writing k (sessionPrefix.frame (client.body x.request)), exchanges :=
  l.exchanges.modify k (fun x => { x with sent := true }) } := by
  obtain ⟨⟨hlast, y, hy, hd, hs⟩, hnone⟩ := h.took k hio
  obtain rfl : x = y := by
    rw [hx] at hy
    exact Option.some.inj hy
  have hg : l.Grows { l with
      io := .writing k (sessionPrefix.frame (client.body x.request)), exchanges := l.exchanges.modify k (fun x => { x with sent := true }) } :=
    Link.grows_modify rfl (fun z hz => by rw [hx] at hz; exact Option.some.inj hz ▸ hd)
      (fun _ => ⟨rfl, fun _ => rfl⟩) List.prefix_rfl (fun ha => ha)
  obtain ⟨hto, hpend, hfrom⟩ := h.nothing (.inr (.inr ⟨k, hio⟩))
  have hafter : (l.exchanges.modify k (fun x => { x with sent := true }))[k]? = some { x with sent := true } := by
    rw [List.getElem?_modify, hx]
    simp
  refine { order := hg.order h.order, fits := hg.fits h.fits, tasks := h.tasks, queued := fun j hj => absurd hj (hnone j), took := ?_, busy := ?_,
           held := ?_,
           line := ⟨.request k (sessionPrefix.frame (client.body x.request)), ⟨_, hafter, rfl, ?_, hpend, hfrom, ?_⟩, rfl, rfl⟩,
           answered := ?_, unsent := ?_, logged := fun entry hentry => hg.logged (h.logged entry hentry), ids := h.ids, replied := h.replied }
  · rintro j hj
    cases hj
  · rintro j (⟨left, hj⟩ | hj)
    · cases hj
      exact ⟨_, hafter, hd, rfl⟩
    · cases hj
  · intro j z hz hzd
    obtain ⟨y, hy, _, hsame⟩ := hg.back hz
    have hyd : y.done = false := Bool.eq_false_iff.2 (fun hyd => by rw [hsame hyd, hyd] at hzd; cases hzd)
    rcases h.held j y hy hyd with hj | hj | ⟨left, hj⟩ | hj <;> rw [hio] at *
    · exact .inl hj
    · cases hj
      exact .inr (.inr (.inl ⟨_, rfl⟩))
    · cases hj
    · cases hj
  · simp [hto]
  · -- what was carried out belongs to an exchange that was sent, and the one that is sent now is the last
    intro entry hentry
    obtain ⟨z, hz, hreq, hzs⟩ := h.logged entry hentry
    obtain ⟨j, hj⟩ := List.mem_iff_getElem?.1 hz
    have hjk : j ≠ k := by
      rintro rfl
      rw [hx] at hj
      rw [← Option.some.inj hj, hs] at hzs
      cases hzs
    obtain ⟨hjlen, hjz⟩ := List.getElem?_eq_some_iff.1 hj
    obtain ⟨hklen, hkx⟩ := List.getElem?_eq_some_iff.1 hx
    have hlt := List.pairwise_iff_getElem.1 h.order j k hjlen hklen (by omega)
    rw [hjz, hkx] at hlt
    exact hreq ▸ hlt
  · intro y hy hyd hye
    rcases Link.mem_modify hy with ⟨z, hz, rfl⟩ | hy
    · rw [hx] at hz
      rw [← Option.some.inj hz, hd] at hyd
      cases hyd
    · exact h.answered y hy hyd hye
  · intro y hy hye
    rcases Link.mem_modify hy with ⟨z, hz, rfl⟩ | hy
    · obtain ⟨_, hzd⟩ := h.unsent z (List.mem_of_getElem? hz) hye
      rw [hx] at hz
      rw [← Option.some.inj hz, hd] at hzd
      cases hzd
    · exact h.unsent y hy hye

theorem ioWritten (h : LinkOk client wire dispatch store l) (hio : l.io = .writing k []) :
    LinkOk client wire dispatch store { l with io := .reading k } := by
  obtain ⟨carried, hon, hfits⟩ := h.line
  rw [hio] at hfits
  refine { h with took := ?_, busy := ?_, held := fun j x hx hd => ?_, line := ⟨carried, hon, ?_⟩ }
  · intro j hj
    cases hj
  · rintro j (⟨left, hj⟩ | hj)
    · cases hj
    · cases hj
      exact h.busy k (.inl ⟨[], hio⟩)
  · rcases h.held j x hx hd with hj | hj | ⟨left, hj⟩ | hj
    · exact .inl hj
    · rw [hio] at hj
      cases hj
    · rw [hio] at hj
      cases hj
      exact .inr (.inr (.inr rfl))
    · rw [hio] at hj
      cases hj
  · cases carried with
    | nothing => exact hfits.2
    | request j left => exact ⟨hfits.1, hfits.2.symm⟩
    | response j => exact hfits.1

theorem ioWrite (h : LinkOk client wire dispatch store l) {left : List Nat} (hio : l.io = .writing k left)
    (hne : left ≠ []) (amount : Nat) :
    LinkOk client wire dispatch store { l with io := .writing k (left.drop amount), toWorker := l.toWorker ++ left.take amount } := by
  obtain ⟨carried, hon, hfits⟩ := h.line
  rw [hio] at hfits
  refine { h with took := ?_, busy := ?_, held := fun j x hx hd => ?_, line := ?_ }
  · intro j hj
    cases hj
  · rintro j (⟨rest, hj⟩ | hj)
    · cases hj
      exact h.busy k (.inl ⟨left, hio⟩)
    · cases hj
  · rcases h.held j x hx hd with hj | hj | ⟨rest, hj⟩ | hj
    · exact .inl hj
    · rw [hio] at hj
      cases hj
    · rw [hio] at hj
      cases hj
      exact .inr (.inr (.inl ⟨_, rfl⟩))
    · rw [hio] at hj
      cases hj
  · cases carried with
    | nothing => exact absurd hfits.1 hne
    | response j => exact absurd hfits.2 hne
    | request j rest =>
      obtain ⟨rfl, rfl⟩ := hfits
      obtain ⟨x, hx, hs, hframe, hpend, hfrom, hids⟩ := hon
      exact ⟨.request k (left.drop amount), ⟨x, hx, hs, by rw [← hframe]; simp, hpend, hfrom, hids⟩, rfl, rfl⟩

/-- **The frame that the IO thread reads is the response to the request of its exchange.** -/
theorem ioRead (h : LinkOk client wire dispatch store l) (hio : l.io = .reading k) {body rest : List Nat}
    (hnext : sessionPrefix.next l.fromWorker = .got body rest) : LinkOk client wire dispatch store { l with
      io := .top, fromWorker := rest, exchanges := l.exchanges.modify k (fun x => { x with response := body, done := true }) } := by
  obtain ⟨x, hx, hd, hs⟩ := h.busy k (.inr hio)
  obtain ⟨carried, hon, hfits⟩ := h.line
  rw [hio] at hfits
  obtain ⟨y, response, hy, _, hmem, hrfits, hto, hpre⟩ : (Carried.response k).On client l := by
    cases carried with
    | nothing =>
      rw [hon.2.2] at hnext
      cases hnext
    | request j left =>
      obtain ⟨z, _, _, _, _, hfrom, _⟩ := hon
      rw [hfrom] at hnext
      cases hnext
    | response j => exact (show k = j from hfits) ▸ hon
  obtain rfl : x = y := by
    rw [hx] at hy
    exact Option.some.inj hy
  obtain ⟨hwhole, rfl, rfl⟩ := Prefix.next_got_prefix hrfits ((List.prefix_append _ _).trans hpre) hnext
  have hpend : l.pending = [] := by
    rw [hwhole] at hpre
    have hlen := hpre.length_le
    rw [List.length_append] at hlen
    exact List.eq_nil_of_length_eq_zero (by omega)
  have hg : l.Grows { l with
      io := .top, fromWorker := [], exchanges := l.exchanges.modify k (fun x => { x with response := body, done := true }) } :=
    Link.grows_modify rfl (fun z hz => by rw [hx] at hz; exact Option.some.inj hz ▸ hd)
      (fun _ => ⟨rfl, fun hs => hs⟩) List.prefix_rfl (fun ha => ha)
  refine { order := hg.order h.order, fits := hg.fits h.fits, tasks := h.tasks, queued := ?_, took := ?_, busy := ?_, held := ?_,
           line := ⟨.nothing, ⟨hto, hpend, rfl⟩, trivial⟩, answered := ?_, unsent := ?_,
           logged := fun entry hentry => hg.logged (h.logged entry hentry), ids := h.ids, replied := h.replied }
  · intro j hj
    obtain ⟨hlast, z, hz, hzd, hzs⟩ := h.queued j hj
    have hjk : k ≠ j := by
      rintro rfl
      rw [hx] at hz
      rw [← Option.some.inj hz, hs] at hzs
      cases hzs
    exact ⟨by simpa using hlast, z, by rw [List.getElem?_modify, hz]; simp [hjk], hzd, hzs⟩
  · intro j hj
    cases hj
  · rintro j (⟨left, hj⟩ | hj) <;> cases hj
  · intro j z hz hzd
    rw [List.getElem?_modify] at hz
    by_cases hkj : k = j
    · subst hkj
      obtain rfl : z = { x with response := body, done := true } := by simpa [hx] using hz.symm
      cases hzd
    · have hz' : l.exchanges[j]? = some z := by simpa [hkj] using hz
      exact .inl ((h.held j z hz' hzd).queued (by simp [hio]) (by simp [hio]) (by simpa [hio] using hkj))
  · intro z hz hzd hze
    rcases Link.mem_modify hz with ⟨u, hu, rfl⟩ | hz
    · rw [hx] at hu
      obtain rfl := Option.some.inj hu
      exact hmem
    · exact h.answered z hz hzd hze
  · intro z hz hze
    rcases Link.mem_modify hz with ⟨u, hu, rfl⟩ | hz
    · have hunsent := h.unsent u (List.mem_of_getElem? hu) hze
      rw [hx] at hu
      rw [← Option.some.inj hu, hs] at hunsent
      cases hunsent.1
    · exact h.unsent z hz hze

theorem flushed (h : LinkOk client wire dispatch store l) (hne : l.pending ≠ []) (amount : Nat) :
    LinkOk client wire dispatch store { l with pending := l.pending.drop amount, fromWorker := l.fromWorker ++ l.pending.take amount } := by
  obtain ⟨carried, hon, hfits⟩ := h.line
  refine { h with line := ?_ }
  cases carried with
  | nothing => exact absurd hon.2.1 hne
  | request k left =>
    obtain ⟨_, _, _, _, hpend, _⟩ := hon
    exact absurd hpend hne
  | response k =>
    obtain ⟨x, response, hx, hs, hmem, hrfits, hto, hpre⟩ := hon
    exact ⟨.response k, ⟨x, response, hx, hs, hmem, hrfits, hto, by simpa using hpre⟩, hfits⟩

theorem died (h : LinkOk client wire dispatch store l) : LinkOk client wire dispatch store l.die := by
  obtain ⟨carried, hon, hfits⟩ := h.line
  obtain ⟨whole, last, hlog, hwhole, hlast⟩ := h.replied
  refine { h with line := ⟨carried, ?_, ?_⟩, replied := ⟨whole, last, hlog, hwhole,
    hlast.imp id (fun hl => ⟨rfl, hl.2⟩)⟩ }
  · cases carried with
    | nothing => exact ⟨hon.1, rfl, hon.2.2⟩
    | request k left =>
      obtain ⟨x, hx, hs, hframe, _, hfrom, hids⟩ := hon
      exact ⟨x, hx, hs, hframe, rfl, hfrom, hids⟩
    | response k =>
      obtain ⟨x, response, hx, hs, hmem, hrfits, hto, hpre⟩ := hon
      exact ⟨x, response, hx, hs, hmem, hrfits, hto, by simpa [Link.die] using (List.prefix_append _ _).trans hpre⟩
  · show carried.Fits false l.io
    cases carried <;> cases hio : l.io <;> rw [hio] at hfits <;> simp_all [Carried.Fits]

/-- **The frame that the worker takes is the request of the exchange that is on its way.** -/
theorem taken (h : LinkOk client wire dispatch store l) {body rest : List Nat}
    (hnext : sessionPrefix.next l.toWorker = .got body rest) :
    ∃ k x, l.exchanges[k]? = some x ∧ x.sent = true ∧ body = client.body x.request ∧ rest = [] ∧ l.pending = [] ∧
      l.fromWorker = [] ∧
      (∀ entry ∈ l.log, entry.1.id < x.request.id) ∧ (Carried.request k []).Fits l.alive l.io := by
  obtain ⟨carried, hon, hfits⟩ := h.line
  cases carried with
  | nothing =>
    rw [hon.1] at hnext
    cases hnext
  | response k =>
    obtain ⟨_, _, _, _, _, _, hto, _⟩ := hon
    rw [hto] at hnext
    cases hnext
  | request k left =>
    obtain ⟨x, hx, hs, hframe, hpend, hfrom, hids⟩ := hon
    obtain ⟨hwhole, hbody, hrest⟩ := Prefix.next_got_prefix (h.fits x (List.mem_of_getElem? hx)) ⟨left, hframe⟩ hnext
    obtain rfl : left = [] := by
      rw [hwhole] at hframe
      exact List.append_right_eq_self.1 hframe
    exact ⟨k, x, hx, hs, hbody, hrest, hpend, hfrom, hids, hfits⟩

/-- The worker gives up on what it took. -/
theorem quits (h : LinkOk client wire dispatch store l) {body rest : List Nat}
    (hnext : sessionPrefix.next l.toWorker = .got body rest) :
    LinkOk client wire dispatch store { l with alive := false, toWorker := rest } := by
  obtain ⟨k, x, hx, hs, rfl, rfl, hpend, hfrom, hids, hfits⟩ := h.taken hnext
  obtain ⟨whole, last, hlog, hwhole, hlast⟩ := h.replied
  refine { h with line := ⟨.nothing, ⟨rfl, hpend, hfrom⟩, ?_⟩, replied := ⟨whole, last, hlog, hwhole,
    hlast.imp id (fun hl => ⟨rfl, hl.2⟩)⟩ }
  show Carried.nothing.Fits false l.io
  cases hio : l.io <;> rw [hio] at hfits <;> simp_all [Carried.Fits]

/-- The worker carries out what it took, or dies in it. -/
theorem worked (h : LinkOk client wire dispatch store l)
    (hread : ∀ x ∈ l.exchanges, wire.request (client.body x.request) = some x.request) {body rest : List Nat}
    (hnext : sessionPrefix.next l.toWorker = .got body rest) {r : Request V} (hr : wire.request body = some r)
    (halive : l.alive = true) {l' : Link σ V} (hsame : l'.tasks = l.tasks ∧ l'.exchanges = l.exchanges ∧
      l'.io = l.io ∧ l'.toWorker = rest ∧ l'.fromWorker = l.fromWorker)
    (hcase : (l'.log = l.log ++ [(r, some (l.worker.run wire dispatch r).2)] ∧ l'.worker = (l.worker.run wire dispatch r).1 ∧
        (l'.alive = false ∧ l'.pending = [] ∨ sessionPrefix.Fits (l.worker.run wire dispatch r).2 ∧ l'.alive = true ∧
          l'.pending = sessionPrefix.frame (l.worker.run wire dispatch r).2)) ∨
      (l'.log = l.log ++ [(r, none)] ∧ l'.alive = false ∧ l'.pending = [])) : LinkOk client wire dispatch store l' := by
  obtain ⟨k, x, hx, hs, rfl, rfl, hpend, hfrom, hids, hfits⟩ := h.taken hnext
  obtain rfl : x.request = r := by
    rw [hread x (List.mem_of_getElem? hx)] at hr
    exact Option.some.inj hr
  obtain ⟨htasks, hex, hio, hto, hfrom'⟩ := hsame
  obtain ⟨entry, hlog, hid⟩ : ∃ entry, l'.log = l.log ++ [entry] ∧ entry.1 = x.request := by
    rcases hcase with ⟨hlog, _⟩ | ⟨hlog, _⟩ <;> exact ⟨_, hlog, rfl⟩
  have hdead (hd : l'.alive = false) (hp : l'.pending = []) : ∃ carried : Carried, carried.On client l' ∧ carried.Fits l'.alive l'.io := by
    refine ⟨.nothing, ⟨hto, hp, hfrom'.trans hfrom⟩, ?_⟩
    rw [hd, hio]
    cases hpoint : l.io <;> rw [hpoint] at hfits <;> simp_all [Carried.Fits]
  refine { order := hex ▸ h.order, fits := hex ▸ h.fits, tasks := htasks ▸ h.tasks, queued := ?_, took := ?_, busy := ?_, held := ?_, line := ?_,
           answered := ?_, unsent := hex ▸ h.unsent, logged := ?_, ids := ?_, replied := ?_ }
  · intro j hj
    rw [htasks] at hj
    have hfresh := h.queued j hj
    rwa [Link.Fresh, ← hex] at hfresh
  · intro j hj
    rw [hio] at hj
    obtain ⟨hfresh, hnone⟩ := h.took j hj
    rw [Link.Fresh, ← hex] at hfresh
    exact ⟨hfresh, htasks ▸ hnone⟩
  · intro j hj
    rw [hio] at hj
    exact hex ▸ h.busy j hj
  · intro j y hy hyd
    rw [htasks, hio]
    exact h.held j y (hex ▸ hy) hyd
  · rcases hcase with ⟨hlog, _, ⟨hd, hp⟩ | ⟨hrfits, ha, hp⟩⟩ | ⟨_, hd, hp⟩
    · exact hdead hd hp
    · refine ⟨.response k, ⟨x, _, hex ▸ hx, hs, ?_, hrfits, hto, ?_⟩, ?_⟩
      · rw [hlog]
        exact List.mem_append_right _ (List.mem_singleton_self _)
      · rw [hfrom', hfrom, hp]
        exact List.prefix_rfl
      · rw [hio]
        cases hpoint : l.io <;> rw [hpoint] at hfits <;> simp_all [Carried.Fits]
    · exact hdead hd hp
  · intro y hy hyd hye
    rw [hlog]
    exact List.mem_append_left _ (h.answered y (hex ▸ hy) hyd hye)
  · intro e he
    rw [hlog] at he
    rw [hex]
    rcases List.mem_append.1 he with he | he
    · exact h.logged e he
    · rw [List.mem_singleton.1 he]
      exact ⟨x, List.mem_of_getElem? hx, hid.symm, hs⟩
  · rw [hlog, List.map_append, List.pairwise_append]
    refine ⟨h.ids, List.pairwise_singleton _ _, fun i hi j hj => ?_⟩
    obtain ⟨e, he, rfl⟩ := List.mem_map.1 hi
    obtain rfl : j = entry.1.id := by simpa using hj
    rw [hid]
    exact hids e he
  · obtain ⟨whole, last, hwholeLog, hwhole, hlast⟩ := h.replied
    obtain ⟨rfl, hstore⟩ : last = [] ∧ l.worker.store = (carryOut wire dispatch store (whole.map Prod.fst)).1 := by
      rcases hlast with hlast | ⟨hd, _⟩
      · exact hlast
      · rw [halive] at hd
        cases hd
    rw [List.append_nil] at hwholeLog
    rcases hcase with ⟨hlog, hworker, _⟩ | ⟨hlog, hd, _⟩
    · refine ⟨whole ++ [(x.request, some (l.worker.run wire dispatch x.request).2)], [],
        by rw [hlog, hwholeLog, List.append_nil], ?_, .inl ⟨rfl, ?_⟩⟩
      · simp [carryOut_concat, hwhole, Worker.run, hstore]
      · simp [carryOut_concat, hworker, Worker.run, hstore]
    · exact ⟨whole, [(x.request, none)], by rw [hlog, hwholeLog], hwhole, .inr ⟨hd, _, rfl⟩⟩

/-- A new exchange, where the ones before are done with. -/
theorem enqueued (h : LinkOk client wire dispatch store l) (hdone : ∀ x ∈ l.exchanges, x.done = true) {r : Request V}
    (hid : ∀ x ∈ l.exchanges, x.request.id < r.id) (hfits : sessionPrefix.Fits (client.body r)) : LinkOk client wire dispatch store
      { l with tasks := [some l.exchanges.length], exchanges := l.exchanges ++ [⟨r, false, [], none, false⟩] } := by
  have hold {k : Nat} {x : Exchange V} (hx : l.exchanges[k]? = some x) :
    (l.exchanges ++ [⟨r, false, [], none, false⟩])[k]? = some x := by
    rw [List.getElem?_append_left (List.getElem?_eq_some_iff.1 hx).1, hx]
  have hnew : (l.exchanges ++ [⟨r, false, [], none, false⟩])[l.exchanges.length]? = some ⟨r, false, [], none, false⟩ := by simp
  obtain ⟨carried, hon, hcarried⟩ := h.line
  refine { order := ?_, fits := ?_, tasks := Nat.le_refl 1, queued := ?_, took := ?_, busy := ?_, held := ?_, line := ⟨carried, ?_, hcarried⟩,
           answered := ?_, unsent := ?_, logged := ?_, ids := h.ids, replied := h.replied }
  · rw [List.pairwise_append]
    exact ⟨h.order, List.pairwise_singleton _ _, fun x hx y hy => by rw [List.mem_singleton.1 hy]; exact hid x hx⟩
  · intro x hx
    rcases List.mem_append.1 hx with hx | hx
    · exact h.fits x hx
    · rw [List.mem_singleton.1 hx]
      exact hfits
  · intro k hk
    obtain rfl : k = l.exchanges.length := by simpa using hk
    exact ⟨by simp, _, hnew, rfl, rfl⟩
  · intro k hk
    obtain ⟨⟨_, x, hx, hd, _⟩, _⟩ := h.took k hk
    rw [hdone x (List.mem_of_getElem? hx)] at hd
    cases hd
  · intro k hk
    obtain ⟨x, hx, hd, _⟩ := h.busy k hk
    rw [hdone x (List.mem_of_getElem? hx)] at hd
    cases hd
  · intro k x hx hd
    rw [List.getElem?_append] at hx
    by_cases hk : k < l.exchanges.length
    · rw [if_pos hk] at hx
      rw [hdone x (List.mem_of_getElem? hx)] at hd
      cases hd
    · rw [if_neg hk] at hx
      have hlen := (List.getElem?_eq_some_iff.1 hx).1
      rw [List.length_singleton] at hlen
      obtain rfl : k = l.exchanges.length := by omega
      exact .inl (List.mem_singleton_self _)
  · cases carried with
    | nothing => exact hon
    | request k left =>
      obtain ⟨x, hx, hrest⟩ := hon
      exact ⟨x, hold hx, hrest⟩
    | response k =>
      obtain ⟨x, response, hx, hrest⟩ := hon
      exact ⟨x, response, hold hx, hrest⟩
  · intro x hx hd he
    rcases List.mem_append.1 hx with hx | hx
    · exact h.answered x hx hd he
    · rw [List.mem_singleton.1 hx] at hd
      cases hd
  · intro x hx he
    rcases List.mem_append.1 hx with hx | hx
    · exact h.unsent x hx he
    · rw [List.mem_singleton.1 hx] at he
      cases he
  · intro entry hentry
    obtain ⟨x, hx, hrest⟩ := h.logged entry hentry
    exact ⟨x, List.mem_append_left _ hx, hrest⟩

theorem drained (h : LinkOk client wire dispatch store l) : LinkOk client wire dispatch store l.drain := by
  unfold Link.drain
  split
  · exact h
  · rename_i rest ht
    refine { h with tasks := ?_, queued := fun k hk => ?_, took := fun k hk => ?_, held := fun k x hx hd => ?_ }
    · have hlen := h.tasks
      rw [ht, List.length_cons] at hlen
      exact Nat.le_of_succ_le hlen
    · exact h.queued k (by rw [ht]; exact List.mem_cons_of_mem _ hk)
    · exact ⟨(h.took k hk).1, fun j hj => (h.took k hk).2 j (by rw [ht]; exact List.mem_cons_of_mem _ hj)⟩
    · exact (h.held k x hx hd).imp (fun hk => by simpa [ht] using hk) id
  · rename_i k rest ht
    have hmem : some k ∈ l.tasks := by simp [ht]
    obtain ⟨_, x, hx, hd, hs⟩ := h.queued k hmem
    obtain rfl : rest = [] := by
      have hlen := h.tasks
      rw [ht] at hlen
      simpa using hlen
    refine h.fail hx hd (fun _ => hs) (Nat.zero_le 1) (by simp) (.inr
      ⟨rfl, fun j hj => (h.took j hj).2 k hmem, fun j hj => ?_⟩)
      (fun j hjk hj => hj.imp (fun hj => absurd (by simpa [ht] using hj) hjk) id)
    rintro rfl
    obtain ⟨y, hy, _, hys⟩ := h.busy j hj
    rw [hx] at hy
    rw [← Option.some.inj hy, hs] at hys
    cases hys

theorem woken (h : LinkOk client wire dispatch store l) : LinkOk client wire dispatch store l.wakeIo := by
  unfold Link.wakeIo
  split
  · rename_i ht
    exact { h with tasks := Nat.le_refl 1, queued := by simp, took := fun k hk => ⟨(h.took k hk).1, by simp⟩,
                   held := fun k x hx hd => (h.held k x hx hd).imp (fun hk => by simp [ht] at hk) id }
  · exact h

/-- **Every step of the IO thread keeps the invariant.** -/
theorem ioStep {stop : Bool} {amount : Nat} (h : LinkOk client wire dispatch store l) (hs : l.ioStep client stop amount = some l') :
    LinkOk client wire dispatch store l' ∧ l.Grows l' := by
  unfold Link.ioStep at hs
  split at hs
  · rename_i hio
    obtain rfl := Option.some.inj hs
    exact ⟨h.ioTop hio (by cases stop <;> simp), Link.grows_of_exchanges rfl List.prefix_rfl (fun ha => ha)⟩
  · rename_i hio
    split at hs
    · cases hs
    · rename_i rest ht
      obtain rfl := Option.some.inj hs
      exact ⟨h.ioTaken hio ht, Link.grows_of_exchanges rfl List.prefix_rfl (fun ha => ha)⟩
    · rename_i k rest ht
      obtain rfl := Option.some.inj hs
      exact ⟨h.ioTaken hio ht, Link.grows_of_exchanges rfl List.prefix_rfl (fun ha => ha)⟩
  · rename_i k hio
    obtain ⟨⟨_, x, hx, hd, hsent⟩, hnone⟩ := h.took k hio
    have hundone (y : Exchange V) (hy : l.exchanges[k]? = some y) : y.done = false := by
      rw [hx] at hy
      exact Option.some.inj hy ▸ hd
    split at hs
    · obtain rfl := Option.some.inj hs
      exact ⟨h.fail hx hd (fun _ => hsent) h.tasks (fun j hj => absurd hj (hnone j)) (.inl rfl)
          (fun j hjk hj => .inl (hj.queued (by simpa [hio] using Ne.symm hjk) (by simp [hio]) (by simp [hio]))),
        Link.grows_modify rfl hundone (fun _ => ⟨rfl, fun hs => hs⟩) List.prefix_rfl (fun ha => ha)⟩
    · rw [hx] at hs
      obtain rfl := Option.some.inj hs
      exact ⟨h.ioSend hio hx, Link.grows_modify rfl hundone (fun _ => ⟨rfl, fun _ => rfl⟩) List.prefix_rfl (fun ha => ha)⟩
  · rename_i k hio
    obtain rfl := Option.some.inj hs
    exact ⟨h.ioWritten hio, Link.grows_of_exchanges rfl List.prefix_rfl (fun ha => ha)⟩
  · rename_i k b left hio
    split at hs
    · obtain rfl := Option.some.inj hs
      exact ⟨h.ioWrite hio (List.cons_ne_nil b left) amount, Link.grows_of_exchanges rfl List.prefix_rfl (fun ha => ha)⟩
    · cases hs
  · rename_i k hio
    obtain ⟨x, hx, hd, _⟩ := h.busy k (.inr hio)
    split at hs
    · rename_i body rest hnext
      obtain rfl := Option.some.inj hs
      exact ⟨h.ioRead hio hnext, Link.grows_modify rfl
        (fun y hy => by rw [hx] at hy; exact Option.some.inj hy ▸ hd) (fun _ => ⟨rfl, fun hs => hs⟩)
        List.prefix_rfl (fun ha => ha)⟩
    · cases hs
  · cases hs

theorem ioFailed (h : LinkOk client wire dispatch store l) (hs : l.ioFail = some l') :
    LinkOk client wire dispatch store l' ∧ l.Grows l' := by
  have hone (k : Nat) (hio : (∃ left, l.io = .writing k left) ∨ l.io = .reading k) :
      LinkOk client wire dispatch store { l.fail k .failed with io := .ended } ∧
        l.Grows { l.fail k .failed with io := .ended } := by
    obtain ⟨x, hx, hd, hsent⟩ := h.busy k hio
    refine ⟨h.fail hx hd (fun he => by cases he) h.tasks (fun j hj => ⟨hj, ?_⟩) (.inl rfl)
      (fun j hjk hj => .inl (hj.queued ?_ ?_ ?_)), Link.grows_modify rfl
      (fun y hy => by rw [hx] at hy; exact Option.some.inj hy ▸ hd)
        (fun _ => ⟨rfl, fun hs => hs⟩) List.prefix_rfl (fun ha => ha)⟩
    · rintro rfl
      obtain ⟨_, y, hy, _, hys⟩ := h.queued j hj
      rw [hx] at hy
      rw [← Option.some.inj hy, hsent] at hys
      cases hys
    · rcases hio with ⟨left, hio⟩ | hio <;> simp [hio]
    · rcases hio with ⟨left, hio⟩ | hio <;> simp [hio, Ne.symm hjk]
    · rcases hio with ⟨left, hio⟩ | hio <;> simp [hio, Ne.symm hjk]
  unfold Link.ioFail at hs
  split at hs
  · rename_i k left hio
    obtain rfl := Option.some.inj hs
    exact hone k (.inl ⟨left, hio⟩)
  · rename_i k hio
    obtain rfl := Option.some.inj hs
    exact hone k (.inr hio)
  · cases hs

theorem worksOn (h : LinkOk client wire dispatch store l)
    (hread : ∀ x ∈ l.exchanges, wire.request (client.body x.request) = some x.request)
    (hs : l.work wire dispatch = some l') : LinkOk client wire dispatch store l' ∧ l.Grows l' := by
  unfold Link.work at hs
  split at hs
  · rename_i hcan
    split at hs
    · rename_i body rest hnext
      split at hs
      · obtain rfl := Option.some.inj hs
        exact ⟨h.quits hnext, Link.grows_of_exchanges rfl List.prefix_rfl (fun _ => rfl)⟩
      · rename_i r hr
        split at hs
        · obtain rfl := Option.some.inj hs
          exact ⟨h.quits hnext, Link.grows_of_exchanges rfl List.prefix_rfl (fun _ => rfl)⟩
        · split at hs
          · obtain rfl := Option.some.inj hs
            exact ⟨h.worked hread hnext hr hcan.1 ⟨rfl, rfl, rfl, rfl, rfl⟩ (.inl ⟨rfl, rfl, .inl ⟨rfl, hcan.2⟩⟩),
              Link.grows_of_exchanges rfl (List.prefix_append _ _) (fun _ => rfl)⟩
          · rename_i bytes hbytes
            obtain ⟨hfits, rfl⟩ := writeFrame_ok.1 hbytes
            obtain rfl := Option.some.inj hs
            exact ⟨h.worked hread hnext hr hcan.1 ⟨rfl, rfl, rfl, rfl,
              rfl⟩ (.inl ⟨rfl, rfl, .inr ⟨hfits, hcan.1, rfl⟩⟩),
              Link.grows_of_exchanges rfl (List.prefix_append _ _) (fun ha => ha)⟩
    · obtain rfl := Option.some.inj hs
      rename_i hbad
      obtain ⟨carried, hon, _⟩ := h.line
      cases carried with
      | nothing =>
        rw [hon.1] at hbad
        cases hbad
      | response k =>
        obtain ⟨_, _, _, _, _, _, hto, _⟩ := hon
        rw [hto] at hbad
        cases hbad
      | request k left =>
        obtain ⟨x, hx, _, hframe, _⟩ := hon
        exact absurd hbad (Prefix.next_prefix_ne_badSize (h.fits x (List.mem_of_getElem? hx)) ⟨left, hframe⟩)
    · cases hs
  · cases hs

theorem diesIn (h : LinkOk client wire dispatch store l)
    (hread : ∀ x ∈ l.exchanges, wire.request (client.body x.request) = some x.request) {after : σ}
    (hs : l.workDies wire after = some l') : LinkOk client wire dispatch store l' ∧ l.Grows l' := by
  unfold Link.workDies at hs
  split at hs
  · rename_i hcan
    split at hs
    · rename_i body rest hnext
      split at hs
      · cases hs
      · rename_i r hr
        split at hs
        · cases hs
        · obtain rfl := Option.some.inj hs
          exact ⟨h.worked hread hnext hr hcan.1 ⟨rfl, rfl, rfl, rfl, rfl⟩ (.inr ⟨rfl, rfl, hcan.2⟩),
            Link.grows_of_exchanges rfl (List.prefix_append _ _) (fun _ => rfl)⟩
    · cases hs
  · cases hs

theorem flushes {amount : Nat} (h : LinkOk client wire dispatch store l) (hs : l.flush amount = some l') :
    LinkOk client wire dispatch store l' ∧ l.Grows l' := by
  unfold Link.flush at hs
  split at hs
  · rename_i hcan
    obtain rfl := Option.some.inj hs
    exact ⟨h.flushed hcan.2.2 amount, Link.grows_of_exchanges rfl List.prefix_rfl (fun ha => ha)⟩
  · cases hs

theorem drain_grows (h : LinkOk client wire dispatch store l) : l.Grows l.drain := by
  unfold Link.drain
  split
  · exact Link.Grows.refl
  · exact Link.grows_of_exchanges rfl List.prefix_rfl (fun ha => ha)
  · rename_i k rest ht
    obtain ⟨_, x, hx, hd, _⟩ := h.queued k (by simp [ht])
    exact Link.grows_modify rfl (fun y hy => by rw [hx] at hy; exact Option.some.inj hy ▸ hd)
      (fun _ => ⟨rfl, fun hs => hs⟩) List.prefix_rfl (fun ha => ha)

theorem wakeIo_grows : l.Grows l.wakeIo := by
  unfold Link.wakeIo
  split
  · exact Link.grows_of_exchanges rfl List.prefix_rfl (fun ha => ha)
  · exact Link.Grows.refl

theorem die_grows : l.Grows l.die := Link.grows_of_exchanges rfl List.prefix_rfl (fun _ => rfl)

end LinkOk
end FastK

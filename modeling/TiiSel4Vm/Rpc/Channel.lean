import TiiSel4Vm.Queue.Sequential
import TiiSel4Vm.Rpc.Circulation

/-!
# A driver rpc channel: buffers in circulation

A driver, an in-kernel device part and a user device part share one message table and three queues:
requests, forwarded requests and responses.  Every queue operation is one step here; the parties
make them in any order.

Next to the code's state the channel keeps an observer's record.  It numbers the requests and lets
the number of a request travel with its queue entry: what is enqueued last is dequeued last.  No
operation reads the record.

* `AnswersInv` — the record of requests and responses fits the tickets in circulation;
* `channel_circulation` — what holds in every reachable state.
-/

namespace TiiSel4Vm.RpcQueue

open TiiSel4Vm.Transition TiiSel4Vm.Ownership

/-! ### The operations -/

/-- What became of a call of `rpcmsg_request`. -/
inductive RequestResult where
  | done (ret : ℤ) (state : Bitmap) (q : Queue) (buf : RpcMsgBuffer)
  /-- the words are written through the NULL that `rpcmsg_lend_buffer` returned -/
  | nullWrite
  /-- `rpcmsg_enqueue` has not returned -/
  | waiting

/-- `rpcmsg_request`. -/
def rpcmsgRequest (v : CasVariant) (state : Bitmap) (q : Queue) (buf : RpcMsgBuffer)
    (words : RpcMsg) : RequestResult :=
  match rpcmsgLendBuffer state with
  | (none, _) => .nullWrite
  | (some msg, state') =>
      match rpcmsgEnqueue v q (Function.update buf msg words) msg with
      | none => .waiting
      | some (q', buf', ret, _) =>
          if ret = 0 then .done (rpcmsgMsgToId msg).toNat state' q' buf'
          else .done (-1) (rpcmsgReclaimBuffer state' msg) q' buf'

/-- `rpcmsg_receive`; the message is `none` for NULL. -/
def rpcmsgReceive (v : CasVariant) (q : Queue) (buf : RpcMsgBuffer) :
    Option (Queue × Option (Fin rpcmsgBufferSize)) :=
  match rpcmsgDequeue v q buf with
  | none => none
  | some (q', _, ret, .pointer msg) => some (q', if ret = 0 then some msg else none)
  | some (q', _, _, _) => some (q', none)

/-- `rpcmsg_receive_response`: the message and its transaction id. -/
def rpcmsgReceiveResponse (v : CasVariant) (q : Queue) (buf : RpcMsgBuffer) :
    Option (Queue × Option (Fin rpcmsgBufferSize × BitVec 16)) :=
  match rpcmsgDequeue v q buf with
  | none => none
  | some (q', _, ret, .pointer msg) =>
      some (q', if ret = 0 then some (msg, rpcmsgMsgToId msg) else none)
  | some (q', _, _, _) => some (q', none)

/-- `rpcmsg_reply`. -/
def rpcmsgReply (v : CasVariant) (q : Queue) (buf : RpcMsgBuffer) (msg : Fin rpcmsgBufferSize) :
    Option (Queue × ℤ) :=
  (rpcmsgEnqueue v q buf msg).map fun r => (r.1, r.2.2.1)

/-- `rpcmsg_forward`. -/
def rpcmsgForward (v : CasVariant) (q : Queue) (buf : RpcMsgBuffer) (msg : Fin rpcmsgBufferSize) :
    Option (Queue × ℤ) :=
  (rpcmsgEnqueue v q buf msg).map fun r => (r.1, r.2.2.1)

/-! ### The channel -/

/-- The queues of a channel. -/
inductive Link where
  | request
  | forward
  | response
  deriving DecidableEq

/-- The parties of a channel. -/
inductive Party where
  | driver
  | kernel
  | user
  deriving DecidableEq

/-- Where a lent message can be. -/
inductive Place where
  | queue (l : Link)
  | hand (p : Party)
  deriving DecidableEq

/-- A response the driver received. -/
structure Response where
  serial : ℕ
  transactionId : BitVec 16
  words : RpcMsg

/-- A channel with its record. -/
structure Channel where
  /-- `rpcmsg_buffer_state_t` -/
  state : Bitmap
  buffer : RpcMsgBuffer
  queue : Link → Queue
  /-- the messages a party has received and not yet passed on -/
  hand : Party → List Ticket
  /-- the numbers of the requests in a queue -/
  serials : Link → List ℕ
  /-- result and words of the requests so far -/
  requests : List (ℤ × RpcMsg)
  /-- the words an owner wrote last for a request -/
  written : ℕ → RpcMsg
  responses : List Response

def Channel.initial : Channel where
  state := rpcmsgBufferStateInit
  buffer := rpcmsgBufferInit
  queue _ := rpcmsgQueueInit
  hand _ := []
  serials _ := []
  requests := []
  written _ _ := 0#64
  responses := []

inductive ChannelAct where
  /-- the driver calls `rpcmsg_request` -/
  | request (words : RpcMsg)
  /-- the kernel part calls `rpcmsg_receive` on the request queue -/
  | receive
  /-- the user part calls `rpcmsg_receive` on the forward queue -/
  | receiveForwarded
  /-- the driver calls `rpcmsg_receive_response` -/
  | receiveResponse
  /-- the kernel part calls `rpcmsg_forward` on a message it received -/
  | forward (t : Ticket)
  /-- a device part calls `rpcmsg_reply` on a message it received -/
  | reply (p : Party) (t : Ticket)
  /-- a device part writes a message it received -/
  | write (p : Party) (t : Ticket) (words : RpcMsg)
  /-- the driver calls `rpcmsg_reclaim_buffer` on a response it received -/
  | reclaim (t : Ticket)

namespace Channel

/-- Party `p` received message `msg` from queue `l`, which is `q` now. -/
def accept (c : Channel) (l : Link) (p : Party) (q : Queue) (msg : Fin rpcmsgBufferSize) :
    Channel :=
  { c with
    queue := Function.update c.queue l q
    hand := Function.update c.hand p (c.hand p ++ [⟨msg, (c.serials l).headD 0⟩])
    serials := Function.update c.serials l (c.serials l).tail }

/-- Party `p` enqueued its message `t` to `l`, with the result `r`. -/
def dispatch (c : Channel) (l : Link) (p : Party) (t : Ticket) (r : Queue × ℤ) : Channel :=
  if r.2 = 0 then
    { c with
      queue := Function.update c.queue l r.1
      hand := Function.update c.hand p ((c.hand p).erase t)
      serials := Function.update c.serials l (c.serials l ++ [t.serial]) }
  else { c with queue := Function.update c.queue l r.1 }

/-- A request took effect, with the result `ret`. -/
def issue (c : Channel) (words : RpcMsg) (ret : ℤ) (state : Bitmap) (q : Queue)
    (buf : RpcMsgBuffer) : Channel :=
  { c with
    state := state
    buffer := buf
    queue := Function.update c.queue .request q
    serials := Function.update c.serials .request (c.serials .request ++ [c.requests.length])
    requests := c.requests ++ [(ret, words)]
    written := Function.update c.written c.requests.length words }

end Channel

/-- One step of the channel; `variant` is the build of each party. -/
def channelStep (variant : Party → CasVariant) (c : Channel) : ChannelAct → Option Channel
  | .request words =>
      if ∃ id, ¬ Lent c.state id then
        match rpcmsgRequest (variant .driver) c.state (c.queue .request) c.buffer words with
        | .done ret state q buf =>
            if 0 ≤ ret then some (c.issue words ret state q buf)
            else some { c with state := state, buffer := buf
                               queue := Function.update c.queue .request q }
        | _ => none
      else none
  | .receive =>
      (rpcmsgReceive (variant .kernel) (c.queue .request) c.buffer).map fun r =>
        match r.2 with
        | some msg => c.accept .request .kernel r.1 msg
        | none => { c with queue := Function.update c.queue .request r.1 }
  | .receiveForwarded =>
      (rpcmsgReceive (variant .user) (c.queue .forward) c.buffer).map fun r =>
        match r.2 with
        | some msg => c.accept .forward .user r.1 msg
        | none => { c with queue := Function.update c.queue .forward r.1 }
  | .receiveResponse =>
      (rpcmsgReceiveResponse (variant .driver) (c.queue .response) c.buffer).map fun r =>
        match r.2 with
        | some (msg, id) =>
            { c.accept .response .driver r.1 msg with
              responses := c.responses ++ [⟨(c.serials .response).headD 0, id, c.buffer msg⟩] }
        | none => { c with queue := Function.update c.queue .response r.1 }
  | .forward t =>
      if t ∈ c.hand .kernel then
        (rpcmsgForward (variant .kernel) (c.queue .forward) c.buffer t.id).map
          (c.dispatch .forward .kernel t)
      else none
  | .reply p t =>
      if t ∈ c.hand p ∧ p ≠ .driver then
        (rpcmsgReply (variant p) (c.queue .response) c.buffer t.id).map (c.dispatch .response p t)
      else none
  | .write p t words =>
      if t ∈ c.hand p ∧ p ≠ .driver then
        some { c with buffer := Function.update c.buffer t.id words
                      written := Function.update c.written t.serial words }
      else none
  | .reclaim t =>
      if t ∈ c.hand .driver then
        some { c with state := rpcmsgReclaimBuffer c.state t.id
                      hand := Function.update c.hand .driver ((c.hand .driver).erase t) }
      else none

/-- The channel under any order of steps. -/
def channelLts (variant : Party → CasVariant) : Lts Channel ChannelAct :=
  .ofFun (fun c => c = .initial) (channelStep variant)

/-! ### The operations on represented queues -/

section Operations

variable (v : CasVariant) {q : Queue} (buf : RpcMsgBuffer) {k : ℕ} {msg : Fin rpcmsgBufferSize}
  {xs : List (Fin rpcmsgBufferSize)} {state : Bitmap}

theorem receive_empty (h : Represents q k []) : rpcmsgReceive v q buf = some (q, none) := by
  simp only [rpcmsgReceive, dequeue_empty h]

theorem receive_represents (h : Represents q k (msg :: xs)) :
    ∃ q', rpcmsgReceive v q buf = some (q', some msg) ∧ Represents q' (k + 1) xs := by
  obtain ⟨q', hq, hrep⟩ := dequeue_represents v buf h
  exact ⟨q', by simp only [rpcmsgReceive, hq, if_true], hrep⟩

theorem receiveResponse_empty (h : Represents q k []) :
    rpcmsgReceiveResponse v q buf = some (q, none) := by
  simp only [rpcmsgReceiveResponse, dequeue_empty h]

theorem receiveResponse_represents (h : Represents q k (msg :: xs)) :
    ∃ q', rpcmsgReceiveResponse v q buf = some (q', some (msg, rpcmsgMsgToId msg)) ∧
      Represents q' (k + 1) xs := by
  obtain ⟨q', hq, hrep⟩ := dequeue_represents v buf h
  exact ⟨q', by simp only [rpcmsgReceiveResponse, hq, if_true], hrep⟩

theorem reply_represents (msg : Fin rpcmsgBufferSize) (h : Represents q k xs)
    (hroom : xs.length < rpcmsgBufferSize) :
    ∃ q', rpcmsgReply v q buf msg = some (q', 0) ∧ Represents q' k (xs ++ [msg]) := by
  obtain ⟨q', hq, hrep⟩ := enqueue_represents v buf msg h hroom
  exact ⟨q', by simp only [rpcmsgReply, hq, Option.map_some], hrep⟩

/-- A request lends a free message, writes its words and enqueues it. -/
theorem request_represents (hc : CoversBuffers state) (hfree : ∃ id, ¬ Lent state id)
    (h : Represents q k xs) (hroom : xs.length < rpcmsgBufferSize) (words : RpcMsg) :
    ∃ id q', ¬ Lent state id ∧
      rpcmsgRequest v state q buf words
        = .done ((id : ℕ) : ℤ) (setBit id state) q' (Function.update buf id words) ∧
      Represents q' k (xs ++ [id]) := by
  cases hscan : lendScan state with
  | none =>
      obtain ⟨id, hid⟩ := hfree
      exact absurd (lent_of_lendScan_none hc hscan id) hid
  | some id =>
      obtain ⟨q', hq, hrep⟩ := enqueue_represents v (Function.update buf id words) id h hroom
      refine ⟨id, q', not_lent_of_lendScan hc hscan, ?_, hrep⟩
      simp only [rpcmsgRequest, rpcmsgLendBuffer, hscan, hq, if_true, rpcmsgMsgToId_toNat]

end Operations

/-! ### Requests and answers -/

/-- The record of a channel fits the tickets in circulation. -/
structure AnswersInv (c : Channel) (place : Place → List Ticket) : Prop where
  /-- a ticket carries the request that returned its id -/
  requested : ∀ t, Circulates place t →
    ∃ words, c.requests[t.serial]? = some (((t.id : ℕ) : ℤ), words)
  /-- and its message holds the words written last for that request -/
  content : ∀ t, Circulates place t → c.buffer t.id = c.written t.serial
  answered : ∀ r ∈ c.responses,
    (∃ words, c.requests[r.serial]? = some ((r.transactionId.toNat : ℤ), words)) ∧
      r.words = c.written r.serial
  /-- the tickets of answered requests are in the driver's hand, and only those are -/
  settled : ∀ P t, t ∈ place P →
    (P = .hand .driver ↔ ∃ r ∈ c.responses, r.serial = t.serial)
  once : (c.responses.map Response.serial).Nodup
  /-- a request that is not answered is in circulation -/
  pending : ∀ n, n < c.requests.length →
    (∃ r ∈ c.responses, r.serial = n) ∨ ∃ t, Circulates place t ∧ t.serial = n

section Answers

variable {c c' : Channel} {place : Place → List Ticket} {P Q : Place} {t : Ticket}

theorem answersInv_initial : AnswersInv .initial fun _ => [] where
  requested _ h := absurd h.choose_spec List.not_mem_nil
  content _ h := absurd h.choose_spec List.not_mem_nil
  answered _ h := absurd h List.not_mem_nil
  settled _ _ h := absurd h List.not_mem_nil
  once := List.nodup_nil
  pending _ h := absurd h (Nat.not_lt_zero _)

theorem AnswersInv.serial_lt (h : AnswersInv c place) (ht : Circulates place t) :
    t.serial < c.requests.length := by
  obtain ⟨words, hw⟩ := h.requested t ht
  exact (List.getElem?_eq_some_iff.mp hw).1

/-- Tickets of one request are one ticket. -/
theorem AnswersInv.serial_inj (h : AnswersInv c place) (hi : CirculationInv c.state place)
    {u : Ticket} (ht : Circulates place t) (hu : Circulates place u) (he : t.serial = u.serial) :
    t = u := by
  obtain ⟨w, hw⟩ := h.requested t ht
  obtain ⟨w', hw'⟩ := h.requested u hu
  rw [he, hw'] at hw
  refine hi.distinct t u ht hu ?_
  have hid : ((u.id : ℕ) : ℤ) = ((t.id : ℕ) : ℤ) := congrArg Prod.fst (Option.some.inj hw)
  exact Fin.ext (Int.ofNat.inj hid.symm)

/-- A ticket moves between two places outside the driver's hand. -/
theorem AnswersInv.move (h : AnswersInv c place) (hi : CirculationInv c.state place)
    (ht : t ∈ place P) (hP : P ≠ .hand .driver) (hQ : Q ≠ .hand .driver)
    (hrequests : c'.requests = c.requests) (hbuffer : c'.buffer = c.buffer)
    (hwritten : c'.written = c.written) (hresponses : c'.responses = c.responses) :
    AnswersInv c' (move place P Q t) := by
  have hsame : ∀ u, Circulates (Ownership.move place P Q t) u ↔ Circulates place u :=
    fun u => hi.exclusive.exists_mem_move ht
  refine
    { requested := fun u hu => ?_, content := fun u hu => ?_, answered := fun r hr => ?_,
      settled := fun R u hu => ?_, once := ?_, pending := fun n hn => ?_ }
  · rw [hrequests]
    exact h.requested u ((hsame u).mp hu)
  · rw [hbuffer, hwritten]
    exact h.content u ((hsame u).mp hu)
  · rw [hresponses] at hr
    rw [hrequests, hwritten]
    exact h.answered r hr
  · rw [hresponses]
    rcases (hi.exclusive.mem_move ht).mp hu with ⟨rfl, rfl⟩ | ⟨_, hold⟩
    · rw [← h.settled P u ht]
      exact ⟨fun he => absurd he hQ, fun he => absurd he hP⟩
    · exact h.settled R u hold
  · rw [hresponses]
    exact h.once
  · rw [hrequests] at hn
    simp only [hresponses, hsame]
    exact h.pending n hn

/-- The driver receives the response `t`. -/
theorem AnswersInv.answer (h : AnswersInv c place) (hi : CirculationInv c.state place)
    (ht : t ∈ place P) (hP : P ≠ .hand .driver)
    (hrequests : c'.requests = c.requests) (hbuffer : c'.buffer = c.buffer)
    (hwritten : c'.written = c.written)
    (hresponses : c'.responses
      = c.responses ++ [⟨t.serial, rpcmsgMsgToId t.id, c.buffer t.id⟩]) :
    AnswersInv c' (Ownership.move place P (.hand .driver) t) := by
  have hsame : ∀ u, Circulates (Ownership.move place P (.hand .driver) t) u ↔ Circulates place u :=
    fun u => hi.exclusive.exists_mem_move ht
  have hnew : ∀ r ∈ c.responses, r.serial ≠ t.serial := fun r hr he =>
    hP ((h.settled P t ht).mpr ⟨r, hr, he⟩)
  have hmem : ∀ n, (∃ r ∈ c'.responses, r.serial = n) ↔
      (∃ r ∈ c.responses, r.serial = n) ∨ t.serial = n := by
    intro n
    rw [hresponses]
    simp only [List.mem_append, List.mem_singleton, or_and_right, exists_or, exists_eq_left]
  refine
    { requested := fun u hu => ?_, content := fun u hu => ?_, answered := fun r hr => ?_,
      settled := fun R u hu => ?_, once := ?_, pending := fun n hn => ?_ }
  · rw [hrequests]
    exact h.requested u ((hsame u).mp hu)
  · rw [hbuffer, hwritten]
    exact h.content u ((hsame u).mp hu)
  · rw [hresponses, List.mem_append, List.mem_singleton] at hr
    rw [hrequests, hwritten]
    rcases hr with hr | rfl
    · exact h.answered r hr
    · refine ⟨?_, h.content t ⟨P, ht⟩⟩
      rw [rpcmsgMsgToId_toNat]
      exact h.requested t ⟨P, ht⟩
  · rw [hmem]
    rcases (hi.exclusive.mem_move ht).mp hu with ⟨rfl, rfl⟩ | ⟨hne, hold⟩
    · exact ⟨fun _ => Or.inr rfl, fun _ => rfl⟩
    · rw [h.settled R u hold]
      constructor
      · exact Or.inl
      · rintro (hr | he)
        · exact hr
        · exact absurd (h.serial_inj hi ⟨P, ht⟩ ⟨R, hold⟩ he).symm hne
  · rw [hresponses, List.map_append, List.map_singleton]
    refine List.nodup_append.mpr ⟨h.once, List.nodup_singleton _, fun n hn m hm => ?_⟩
    obtain ⟨r, hr, rfl⟩ := List.mem_map.mp hn
    rw [List.mem_singleton.mp hm]
    exact hnew r hr
  · rw [hrequests] at hn
    rw [hmem]
    simp only [hsame]
    exact (h.pending n hn).imp Or.inl id

/-- The driver issues a request on the free id of `t`. -/
theorem AnswersInv.issue (h : AnswersInv c place) (hi : CirculationInv c.state place)
    (hfree : ¬ Lent c.state t.id) (hserial : t.serial = c.requests.length) {words : RpcMsg}
    {P : Place} (hP : P ≠ .hand .driver)
    (hrequests : c'.requests = c.requests ++ [(((t.id : ℕ) : ℤ), words)])
    (hbuffer : c'.buffer = Function.update c.buffer t.id words)
    (hwritten : c'.written = Function.update c.written t.serial words)
    (hresponses : c'.responses = c.responses) : AnswersInv c' (take place P t) := by
  have hid : ∀ u, Circulates place u → u.id ≠ t.id := fun u hu he =>
    hfree ((hi.lent t.id).mpr ⟨u, hu, he⟩)
  have hold : ∀ u, Circulates place u → u.serial ≠ t.serial := by
    intro u hu
    have := h.serial_lt hu
    omega
  have hkeep : ∀ (n : ℕ) (a : ℤ × RpcMsg), c.requests[n]? = some a → c'.requests[n]? = some a := by
    intro n a ha
    rw [hrequests, List.getElem?_append_left (List.getElem?_eq_some_iff.mp ha).1]
    exact ha
  have hanswered : ∀ r ∈ c.responses, r.serial ≠ t.serial := by
    intro r hr
    obtain ⟨w, hw⟩ := (h.answered r hr).1
    have := (List.getElem?_eq_some_iff.mp hw).1
    omega
  refine
    { requested := fun u hu => ?_, content := fun u hu => ?_, answered := fun r hr => ?_,
      settled := fun R u hu => ?_, once := ?_, pending := fun n hn => ?_ }
  · rcases circulates_take.mp hu with rfl | hu'
    · exact ⟨words, by rw [hrequests, hserial, List.getElem?_concat_length]⟩
    · obtain ⟨w, hw⟩ := h.requested u hu'
      exact ⟨w, hkeep _ _ hw⟩
  · rw [hbuffer, hwritten]
    rcases circulates_take.mp hu with rfl | hu'
    · rw [Function.update_self, Function.update_self]
    · rw [Function.update_of_ne (hid u hu'), Function.update_of_ne (hold u hu')]
      exact h.content u hu'
  · rw [hresponses] at hr
    obtain ⟨⟨w, hw⟩, hwords⟩ := h.answered r hr
    refine ⟨⟨w, hkeep _ _ hw⟩, ?_⟩
    rw [hwritten, Function.update_of_ne (hanswered r hr)]
    exact hwords
  · rw [hresponses]
    rcases mem_take.mp hu with ⟨rfl, rfl⟩ | hu'
    · constructor
      · intro he
        exact absurd he hP
      · rintro ⟨r, hr, he⟩
        exact absurd he (hanswered r hr)
    · exact h.settled R u hu'
  · rw [hresponses]
    exact h.once
  · rw [hrequests, List.length_append, List.length_singleton] at hn
    rw [hresponses]
    by_cases hlast : n = c.requests.length
    · exact Or.inr ⟨t, circulates_take.mpr (Or.inl rfl), by rw [hserial, hlast]⟩
    · refine (h.pending n (by omega)).imp (fun hr => hr) ?_
      rintro ⟨u, hu, he⟩
      exact ⟨u, circulates_take.mpr (Or.inr hu), he⟩

/-- A device part writes the message of `t`. -/
theorem AnswersInv.write (h : AnswersInv c place) (hi : CirculationInv c.state place)
    (ht : t ∈ place P) (hP : P ≠ .hand .driver) (words : RpcMsg) :
    AnswersInv { c with buffer := Function.update c.buffer t.id words
                        written := Function.update c.written t.serial words } place := by
  refine
    { requested := h.requested, content := fun u hu => ?_, answered := fun r hr => ?_,
      settled := h.settled, once := h.once, pending := h.pending }
  · show Function.update c.buffer t.id words u.id
      = Function.update c.written t.serial words u.serial
    by_cases hut : u = t
    · rw [hut, Function.update_self, Function.update_self]
    · have hid : u.id ≠ t.id := fun he => hut (hi.distinct u t hu ⟨P, ht⟩ he)
      have hserial : u.serial ≠ t.serial := fun he => hut (h.serial_inj hi hu ⟨P, ht⟩ he)
      rw [Function.update_of_ne hid, Function.update_of_ne hserial]
      exact h.content u hu
  · refine ⟨(h.answered r hr).1, ?_⟩
    show r.words = Function.update c.written t.serial words r.serial
    have hne : r.serial ≠ t.serial := fun he => hP ((h.settled P t ht).mpr ⟨r, hr, he⟩)
    rw [Function.update_of_ne hne]
    exact (h.answered r hr).2

/-- The driver reclaims the message of `t`. -/
theorem AnswersInv.reclaim (h : AnswersInv c place) (hi : CirculationInv c.state place)
    (ht : t ∈ place (.hand .driver)) (hrequests : c'.requests = c.requests)
    (hbuffer : c'.buffer = c.buffer) (hwritten : c'.written = c.written)
    (hresponses : c'.responses = c.responses) : AnswersInv c' (drop place (.hand .driver) t) := by
  have hgone := fun u => hi.circulates_drop ht (u := u)
  refine
    { requested := fun u hu => ?_, content := fun u hu => ?_, answered := fun r hr => ?_,
      settled := fun R u hu => ?_, once := ?_, pending := fun n hn => ?_ }
  · rw [hrequests]
    exact h.requested u ((hgone u).mp hu).1
  · rw [hbuffer, hwritten]
    exact h.content u ((hgone u).mp hu).1
  · rw [hresponses] at hr
    rw [hrequests, hwritten]
    exact h.answered r hr
  · rw [hresponses]
    exact h.settled R u (mem_of_mem_drop hu)
  · rw [hresponses]
    exact h.once
  · rw [hrequests] at hn
    rw [hresponses]
    rcases h.pending n hn with hr | ⟨u, hu, he⟩
    · exact Or.inl hr
    · by_cases hut : u = t
      · subst hut
        obtain ⟨r, hr, hser⟩ := (h.settled _ u ht).mp rfl
        exact Or.inl ⟨r, hr, hser.trans he⟩
      · exact Or.inr ⟨u, (hgone u).mpr ⟨hu, hut⟩, he⟩

end Answers

/-! ### The channel's state and its places -/

/-- The queues and hands of the channel hold the tickets of their places. -/
structure Matches (c : Channel) (place : Place → List Ticket) : Prop where
  queue : ∀ l, ∃ k, Represents (c.queue l) k ((place (.queue l)).map Ticket.id)
  serials : ∀ l, c.serials l = (place (.queue l)).map Ticket.serial
  hand : ∀ p, c.hand p = place (.hand p)

section Matching

variable {c : Channel} {place : Place → List Ticket} {l : Link} {p : Party} {t : Ticket}
  {q : Queue} {k : ℕ} {rest : List Ticket}

theorem matches_initial : Matches .initial fun _ => [] where
  queue _ := ⟨0, represents_init⟩
  serials _ := rfl
  hand _ := rfl

theorem Matches.accept (h : Matches c place) (hq : place (.queue l) = t :: rest)
    (hrep : Represents q k (rest.map Ticket.id)) :
    Matches (c.accept l p q t.id) (move place (.queue l) (.hand p) t) := by
  have hsource : move place (.queue l) (.hand p) t (.queue l) = rest := by
    rw [move_source (by simp), hq, List.erase_cons_head]
  have hserials : c.serials l = t.serial :: rest.map Ticket.serial := by
    rw [h.serials, hq, List.map_cons]
  refine ⟨fun l' => ?_, fun l' => ?_, fun p' => ?_⟩
  · by_cases hl : l' = l
    · subst hl
      refine ⟨k, ?_⟩
      rw [hsource]
      show Represents (Function.update c.queue l' q l') k _
      rw [Function.update_self]
      exact hrep
    · rw [move_other (by simpa using hl) (by simp)]
      show ∃ k, Represents (Function.update c.queue l q l') k _
      rw [Function.update_of_ne hl]
      exact h.queue l'
  · by_cases hl : l' = l
    · subst hl
      rw [hsource]
      show Function.update c.serials l' (c.serials l').tail l' = _
      rw [Function.update_self, hserials, List.tail_cons]
    · rw [move_other (by simpa using hl) (by simp)]
      show Function.update c.serials l _ l' = _
      rw [Function.update_of_ne hl]
      exact h.serials l'
  · by_cases hp : p' = p
    · subst hp
      rw [move_target (by simp)]
      show Function.update c.hand p' _ p' = _
      rw [Function.update_self, hserials, List.headD_cons, h.hand]
    · rw [move_other (by simp) (by simpa using hp)]
      show Function.update c.hand p _ p' = _
      rw [Function.update_of_ne hp]
      exact h.hand p'

theorem Matches.dispatch (h : Matches c place)
    (hrep : Represents q k ((place (.queue l)).map Ticket.id ++ [t.id])) :
    Matches (c.dispatch l p t (q, 0)) (move place (.hand p) (.queue l) t) := by
  rw [Channel.dispatch, if_pos rfl]
  refine ⟨fun l' => ?_, fun l' => ?_, fun p' => ?_⟩
  · by_cases hl : l' = l
    · subst hl
      rw [move_target (by simp), List.map_append, List.map_singleton]
      refine ⟨k, ?_⟩
      show Represents (Function.update c.queue l' q l') k _
      rw [Function.update_self]
      exact hrep
    · rw [move_other (by simp) (by simpa using hl)]
      show ∃ k, Represents (Function.update c.queue l q l') k _
      rw [Function.update_of_ne hl]
      exact h.queue l'
  · by_cases hl : l' = l
    · subst hl
      rw [move_target (by simp), List.map_append, List.map_singleton]
      show Function.update c.serials l' _ l' = _
      rw [Function.update_self, h.serials]
    · rw [move_other (by simp) (by simpa using hl)]
      show Function.update c.serials l _ l' = _
      rw [Function.update_of_ne hl]
      exact h.serials l'
  · by_cases hp : p' = p
    · subst hp
      rw [move_source (by simp)]
      show Function.update c.hand p' _ p' = _
      rw [Function.update_self, h.hand]
    · rw [move_other (by simpa using hp) (by simp)]
      show Function.update c.hand p _ p' = _
      rw [Function.update_of_ne hp]
      exact h.hand p'

theorem Matches.issue (h : Matches c place) {words : RpcMsg} {ret : ℤ} {state : Bitmap}
    {buf : RpcMsgBuffer} {id : Fin rpcmsgBufferSize}
    (hrep : Represents q k ((place (.queue .request)).map Ticket.id ++ [id])) :
    Matches (c.issue words ret state q buf)
      (take place (.queue .request) ⟨id, c.requests.length⟩) := by
  refine ⟨fun l' => ?_, fun l' => ?_, fun p' => ?_⟩
  · by_cases hl : l' = .request
    · subst hl
      rw [take, Function.update_self, List.map_append, List.map_singleton]
      refine ⟨k, ?_⟩
      show Represents (Function.update c.queue .request q .request) k _
      rw [Function.update_self]
      exact hrep
    · rw [take, Function.update_of_ne (by simpa using hl)]
      show ∃ k, Represents (Function.update c.queue .request q l') k _
      rw [Function.update_of_ne hl]
      exact h.queue l'
  · by_cases hl : l' = .request
    · subst hl
      rw [take, Function.update_self, List.map_append, List.map_singleton]
      show Function.update c.serials .request (c.serials .request ++ [c.requests.length]) .request
        = _
      rw [Function.update_self, h.serials]
    · rw [take, Function.update_of_ne (by simpa using hl)]
      show Function.update c.serials .request _ l' = _
      rw [Function.update_of_ne hl]
      exact h.serials l'
  · rw [take, Function.update_of_ne (by simp)]
    exact h.hand p'

theorem Matches.reclaim (h : Matches c place) (state : Bitmap) :
    Matches { c with state := state
                     hand := Function.update c.hand .driver ((c.hand .driver).erase t) }
      (drop place (.hand .driver) t) := by
  refine ⟨fun l' => ?_, fun l' => ?_, fun p' => ?_⟩
  · rw [drop, Function.update_of_ne (by simp)]
    exact h.queue l'
  · rw [drop, Function.update_of_ne (by simp)]
    exact h.serials l'
  · by_cases hp : p' = .driver
    · subst hp
      rw [drop, Function.update_self]
      show Function.update c.hand .driver ((c.hand .driver).erase t) .driver = _
      rw [Function.update_self, h.hand]
    · rw [drop, Function.update_of_ne (by simpa using hp)]
      show Function.update c.hand .driver _ p' = _
      rw [Function.update_of_ne hp]
      exact h.hand p'

end Matching

/-- **The invariant of a channel.** -/
structure ChannelInv (c : Channel) (place : Place → List Ticket) : Prop where
  fits : Matches c place
  circulation : CirculationInv c.state place
  answers : AnswersInv c place

theorem channelInv_initial : ChannelInv .initial fun _ => [] :=
  ⟨matches_initial, circulationInv_initial, answersInv_initial⟩

section Steps

variable {variant : Party → CasVariant} {c c' : Channel} {place : Place → List Ticket}

/-- The request queue has room for a free id. -/
theorem ChannelInv.request (h : ChannelInv c place) (v : CasVariant) (words : RpcMsg)
    (hfree : ∃ id, ¬ Lent c.state id) :
    ∃ id q k, ¬ Lent c.state id ∧
      rpcmsgRequest v c.state (c.queue .request) c.buffer words
        = .done ((id : ℕ) : ℤ) (setBit id c.state) q (Function.update c.buffer id words) ∧
      Represents q k ((place (.queue .request)).map Ticket.id ++ [id]) := by
  obtain ⟨k, hrep⟩ := h.fits.queue .request
  obtain ⟨free, hfree'⟩ := hfree
  have hnot : free ∉ (place (.queue .request)).map Ticket.id := fun hid =>
    hfree' ((h.circulation.lending.lent_iff free).mpr ⟨.queue .request, hid⟩)
  have hroom := h.circulation.lending.length_lt hnot
  obtain ⟨id, q, hid, hreq, hq⟩ :=
    request_represents v c.buffer h.circulation.covers ⟨free, hfree'⟩ hrep hroom words
  exact ⟨id, q, k, hid, hreq, hq⟩

/-- A queue has room for a message that a party holds. -/
theorem ChannelInv.send (h : ChannelInv c place) (v : CasVariant) (l : Link) {p : Party}
    {t : Ticket}
    (ht : t ∈ c.hand p) :
    ∃ q k, rpcmsgReply v (c.queue l) c.buffer t.id = some (q, 0) ∧
      Represents q k ((place (.queue l)).map Ticket.id ++ [t.id]) := by
  obtain ⟨k, hrep⟩ := h.fits.queue l
  rw [h.fits.hand] at ht
  obtain ⟨q, hq, hrep'⟩ := reply_represents v c.buffer t.id hrep
    (h.circulation.length_lt_of_elsewhere ht (by simp))
  exact ⟨q, k, hq, hrep'⟩

/-- A party passes a message on. -/
theorem ChannelInv.dispatch (h : ChannelInv c place) {v : CasVariant} {l : Link} {p : Party}
    {t : Ticket} (ht : t ∈ c.hand p) (hp : p ≠ .driver) {r : Queue × ℤ}
    (hr : rpcmsgReply v (c.queue l) c.buffer t.id = some r) :
    ChannelInv (c.dispatch l p t r) (move place (.hand p) (.queue l) t) := by
  obtain ⟨q, k, hq, hrep⟩ := h.send v l ht
  rw [hq] at hr
  cases hr
  have ht' : t ∈ place (.hand p) := h.fits.hand p ▸ ht
  have hstate : (c.dispatch l p t (q, 0)).state = c.state := by
    rw [Channel.dispatch, if_pos rfl]
  refine ⟨h.fits.dispatch hrep, ?_, ?_⟩
  · rw [hstate]
    exact h.circulation.move ht'
  · rw [Channel.dispatch, if_pos rfl]
    exact h.answers.move h.circulation ht' (by simpa using hp) (by simp) rfl rfl rfl rfl

/-- A device part receives from queue `l`. -/
theorem ChannelInv.receive (h : ChannelInv c place) {v : CasVariant} {l : Link} {p : Party}
    (hp : p ≠ .driver) {r : Queue × Option (Fin rpcmsgBufferSize)}
    (hr : rpcmsgReceive v (c.queue l) c.buffer = some r) :
    ∃ place', ChannelInv
      (match r.2 with
        | some msg => c.accept l p r.1 msg
        | none => { c with queue := Function.update c.queue l r.1 }) place' := by
  obtain ⟨k, hrep⟩ := h.fits.queue l
  cases hq : place (.queue l) with
  | nil =>
      rw [hq] at hrep
      rw [receive_empty v c.buffer hrep] at hr
      cases hr
      simp only [Function.update_eq_self]
      exact ⟨place, h⟩
  | cons t rest =>
      rw [hq, List.map_cons] at hrep
      obtain ⟨q, hreceive, hrep'⟩ := receive_represents v c.buffer hrep
      rw [hreceive] at hr
      cases hr
      have ht : t ∈ place (.queue l) := by simp [hq]
      exact ⟨_, h.fits.accept hq hrep', h.circulation.move ht,
        h.answers.move h.circulation ht (by simp) (by simpa using hp) rfl rfl rfl rfl⟩

/-- The driver receives a response. -/
theorem ChannelInv.receiveResponse (h : ChannelInv c place) {v : CasVariant}
    {r : Queue × Option (Fin rpcmsgBufferSize × BitVec 16)}
    (hr : rpcmsgReceiveResponse v (c.queue .response) c.buffer = some r) :
    ∃ place', ChannelInv
      (match r.2 with
        | some (msg, id) =>
            { c.accept .response .driver r.1 msg with
              responses := c.responses ++ [⟨(c.serials .response).headD 0, id, c.buffer msg⟩] }
        | none => { c with queue := Function.update c.queue .response r.1 }) place' := by
  obtain ⟨k, hrep⟩ := h.fits.queue .response
  cases hq : place (.queue .response) with
  | nil =>
      rw [hq] at hrep
      rw [receiveResponse_empty v c.buffer hrep] at hr
      cases hr
      simp only [Function.update_eq_self]
      exact ⟨place, h⟩
  | cons t rest =>
      rw [hq, List.map_cons] at hrep
      obtain ⟨q, hreceive, hrep'⟩ := receiveResponse_represents v c.buffer hrep
      rw [hreceive] at hr
      cases hr
      have ht : t ∈ place (.queue .response) := by simp [hq]
      have hserial : (c.serials .response).headD 0 = t.serial := by
        rw [h.fits.serials, hq, List.map_cons, List.headD_cons]
      have hfits := h.fits.accept (p := .driver) hq hrep'
      refine ⟨move place (.queue .response) (.hand .driver) t,
        ⟨hfits.queue, hfits.serials, hfits.hand⟩, h.circulation.move ht, ?_⟩
      refine h.answers.answer h.circulation ht (by simp) rfl rfl rfl ?_
      show c.responses ++ [⟨(c.serials .response).headD 0, rpcmsgMsgToId t.id, c.buffer t.id⟩] = _
      rw [hserial]

/-- **The step lemma.** -/
theorem ChannelInv.step (h : ChannelInv c place) {act : ChannelAct}
    (hs : channelStep variant c act = some c') : ∃ place', ChannelInv c' place' := by
  cases act with
  | request words =>
      simp only [channelStep] at hs
      split at hs
      · rename_i hfree
        obtain ⟨id, q, k, hid, hreq, hrep⟩ := h.request (variant .driver) words hfree
        rw [hreq] at hs
        simp only [Int.natCast_nonneg, if_true, Option.some.injEq] at hs
        subst hs
        exact ⟨_, h.fits.issue hrep, h.circulation.issue (t := ⟨id, _⟩) hid,
          h.answers.issue (t := ⟨id, _⟩) h.circulation hid rfl (by simp) rfl rfl rfl rfl⟩
      · cases hs
  | receive =>
      obtain ⟨r, hr, rfl⟩ := Option.map_eq_some_iff.mp hs
      exact h.receive (by simp) hr
  | receiveForwarded =>
      obtain ⟨r, hr, rfl⟩ := Option.map_eq_some_iff.mp hs
      exact h.receive (by simp) hr
  | receiveResponse =>
      obtain ⟨r, hr, rfl⟩ := Option.map_eq_some_iff.mp hs
      exact h.receiveResponse hr
  | forward t =>
      simp only [channelStep] at hs
      split at hs
      · rename_i ht
        obtain ⟨r, hr, rfl⟩ := Option.map_eq_some_iff.mp hs
        exact ⟨_, h.dispatch ht (by simp) hr⟩
      · cases hs
  | reply p t =>
      simp only [channelStep] at hs
      split at hs
      · rename_i ht
        obtain ⟨r, hr, rfl⟩ := Option.map_eq_some_iff.mp hs
        exact ⟨_, h.dispatch ht.1 ht.2 hr⟩
      · cases hs
  | write p t words =>
      simp only [channelStep] at hs
      split at hs
      · rename_i ht
        cases hs
        have ht' : t ∈ place (.hand p) := h.fits.hand p ▸ ht.1
        exact ⟨place, ⟨h.fits.queue, h.fits.serials, h.fits.hand⟩, h.circulation,
          h.answers.write h.circulation ht' (by simpa using ht.2) words⟩
      · cases hs
  | reclaim t =>
      simp only [channelStep] at hs
      split at hs
      · rename_i ht
        cases hs
        have ht' : t ∈ place (.hand .driver) := h.fits.hand .driver ▸ ht
        exact ⟨_, h.fits.reclaim _, h.circulation.reclaim ht',
          h.answers.reclaim h.circulation ht' rfl rfl rfl rfl⟩
      · cases hs

theorem channelInv_of_reachable (h : (channelLts variant).Reachable c) :
    ∃ place, ChannelInv c place := by
  refine h.invariant (I := fun c => ∃ place, ChannelInv c place) (fun c hc => ?_)
    fun c act c' _ hi hs => ?_
  · cases hc
    exact ⟨_, channelInv_initial⟩
  · obtain ⟨place, hp⟩ := hi
    exact hp.step hs

end Steps

/-! ### What holds in every reachable state -/

/-- The ids in a place, as the queue or the hand has them. -/
def Channel.holds (c : Channel) : Place → List (BitVec 16)
  | .queue l => (c.queue l).contents
  | .hand p => (c.hand p).map fun t => rpcmsgMsgToId t.id

/-- What a channel promises. -/
structure ChannelHolds (variant : Party → CasVariant) (c : Channel) : Prop where
  /-- a lent id is in one place -/
  lent : ∀ id, Lent c.state id → ∃ P, rpcmsgMsgToId id ∈ c.holds P ∧
    ∀ Q, rpcmsgMsgToId id ∈ c.holds Q → Q = P
  /-- a free id is in none -/
  free : ∀ id, ¬ Lent c.state id → ∀ P, rpcmsgMsgToId id ∉ c.holds P
  /-- and no place has an id twice -/
  nodup : ∀ P, (c.holds P).Nodup
  requestSucceeds : ∀ words, (∃ id, ¬ Lent c.state id) → ∃ (id : Fin rpcmsgBufferSize) (state : _)
    (q : _) (buf : _), rpcmsgRequest (variant .driver) c.state (c.queue .request) c.buffer words
      = .done ((id : ℕ) : ℤ) state q buf
  forwardSucceeds : ∀ t ∈ c.hand .kernel,
    ∃ q, rpcmsgForward (variant .kernel) (c.queue .forward) c.buffer t.id = some (q, 0)
  replySucceeds : ∀ p, ∀ t ∈ c.hand p,
    ∃ q, rpcmsgReply (variant p) (c.queue .response) c.buffer t.id = some (q, 0)
  /-- a response answers the request that returned its transaction id, with the words written last
  for that request -/
  answers : ∀ r ∈ c.responses,
    (∃ words, c.requests[r.serial]? = some ((r.transactionId.toNat : ℤ), words)) ∧
      r.words = c.written r.serial
  once : (c.responses.map Response.serial).Nodup
  /-- a request that is not answered is still in circulation, outside the driver's hand -/
  pending : ∀ n, n < c.requests.length → (∃ r ∈ c.responses, r.serial = n) ∨
    (∃ l, n ∈ c.serials l) ∨ ∃ p ≠ .driver, ∃ t ∈ c.hand p, t.serial = n

theorem rpcmsgMsgToId_inj {msg msg' : Fin rpcmsgBufferSize}
    (h : rpcmsgMsgToId msg = rpcmsgMsgToId msg') : msg = msg' := by
  have := congrArg BitVec.toNat h
  rw [rpcmsgMsgToId_toNat, rpcmsgMsgToId_toNat] at this
  exact Fin.ext this

theorem Matches.holds {c : Channel} {place : Place → List Ticket} (h : Matches c place)
    (P : Place) :
    c.holds P = ((place P).map Ticket.id).map rpcmsgMsgToId := by
  cases P with
  | queue l =>
      obtain ⟨k, hrep⟩ := h.queue l
      exact hrep.contents
  | hand p =>
      show (c.hand p).map _ = _
      rw [h.hand, List.map_map]
      rfl

theorem Matches.mem_holds {c : Channel} {place : Place → List Ticket} (h : Matches c place)
    {P : Place} {id : Fin rpcmsgBufferSize} :
    rpcmsgMsgToId id ∈ c.holds P ↔ ∃ t ∈ place P, t.id = id := by
  rw [h.holds, List.mem_map]
  constructor
  · rintro ⟨x, hx, he⟩
    obtain ⟨t, ht, hid⟩ := List.mem_map.mp hx
    exact ⟨t, ht, hid.trans (rpcmsgMsgToId_inj he)⟩
  · rintro ⟨t, ht, rfl⟩
    exact ⟨t.id, List.mem_map.mpr ⟨t, ht, rfl⟩, rfl⟩

/-- A message is marked lent exactly when it is in circulation. -/
theorem ChannelInv.lent_iff {c : Channel} {place : Place → List Ticket} (hi : ChannelInv c place)
    (id : Fin rpcmsgBufferSize) :
    Lent c.state id ↔ ∃ P, rpcmsgMsgToId id ∈ c.holds P := by
  rw [hi.circulation.lent id]
  constructor
  · rintro ⟨t, ⟨P, hP⟩, rfl⟩
    exact ⟨P, hi.fits.mem_holds.mpr ⟨t, hP, rfl⟩⟩
  · rintro ⟨P, hm⟩
    obtain ⟨t, ht, rfl⟩ := hi.fits.mem_holds.mp hm
    exact ⟨t, ⟨P, ht⟩, rfl⟩

/-- **Buffers circulate.**  In every reachable state each of the 32 ids is free and nowhere, or lent
and in exactly one queue or hand; requests, forwards and replies find room; a response answers the
request that returned its transaction id, with the words its last owner wrote, and no request is
answered twice or lost. -/
theorem channel_circulation {variant : Party → CasVariant} {c : Channel}
    (h : (channelLts variant).Reachable c) : ChannelHolds variant c := by
  obtain ⟨place, hi⟩ := channelInv_of_reachable h
  refine
    { lent := fun id hid => ?_, free := fun id hid P hm => ?_, nodup := fun P => ?_,
      requestSucceeds := fun words hfree => ?_, forwardSucceeds := fun t ht => ?_,
      replySucceeds := fun p t ht => ?_, answers := hi.answers.answered, once := hi.answers.once,
      pending := fun n hn => ?_ }
  · obtain ⟨t, ⟨P, hP⟩, rfl⟩ := (hi.circulation.lent id).mp hid
    refine ⟨P, hi.fits.mem_holds.mpr ⟨t, hP, rfl⟩, fun Q hQ => ?_⟩
    obtain ⟨u, hu, he⟩ := hi.fits.mem_holds.mp hQ
    have hut : u = t := hi.circulation.distinct u t ⟨Q, hu⟩ ⟨P, hP⟩ he
    subst hut
    exact hi.circulation.exclusive.owner Q P u hu hP
  · exact hid ((hi.lent_iff id).mpr ⟨P, hm⟩)
  · rw [hi.fits.holds]
    exact (hi.circulation.nodup_ids P).map_on fun _ _ _ _ he => rpcmsgMsgToId_inj he
  · obtain ⟨id, q, _, _, hreq, _⟩ := hi.request (variant .driver) words hfree
    exact ⟨id, _, q, _, hreq⟩
  · obtain ⟨q, _, hq, _⟩ := hi.send (variant .kernel) .forward ht
    exact ⟨q, hq⟩
  · obtain ⟨q, _, hq, _⟩ := hi.send (variant p) .response ht
    exact ⟨q, hq⟩
  · rcases hi.answers.pending n hn with hr | ⟨t, ⟨P, hP⟩, rfl⟩
    · exact Or.inl hr
    · cases P with
      | queue l =>
          refine Or.inr (Or.inl ⟨l, ?_⟩)
          rw [hi.fits.serials]
          exact List.mem_map.mpr ⟨t, hP, rfl⟩
      | hand p =>
          by_cases hp : p = .driver
          · subst hp
            exact Or.inl ((hi.answers.settled _ t hP).mp rfl)
          · exact Or.inr (Or.inr ⟨p, hp, t, (hi.fits.hand p).symm ▸ hP, rfl⟩)

/-- One request, forwarded by the kernel part, answered by the user part and reclaimed. -/
def roundTrip : List ChannelAct :=
  let t : Ticket := ⟨⟨0, by decide⟩, 0⟩
  [.request fun _ => 5#64, .receive, .forward t, .receiveForwarded, .write .user t fun _ => 6#64,
    .reply .user t, .receiveResponse, .reclaim t]

/-- `channel_circulation` after a round trip: the request is answered, with the id it returned. -/
theorem channel_circulation_roundTrip :
    ∃ r words, (play (channelStep fun _ => .user) .initial roundTrip).responses = [r] ∧
      (play (channelStep fun _ => .user) .initial roundTrip).requests[r.serial]?
        = some ((r.transactionId.toNat : ℤ), words) := by
  have hreach : (channelLts fun _ => .user).Reachable
      (play (channelStep fun _ => .user) .initial roundTrip) :=
    Lts.Reachable.play (fun _ _ _ hs => hs) (.init rfl) roundTrip
  have h := channel_circulation hreach
  have hlen : (play (channelStep fun _ => .user) .initial roundTrip).responses.length = 1 := by
    decide +kernel
  obtain ⟨r, hr⟩ := List.length_eq_one_iff.mp hlen
  obtain ⟨⟨words, hw⟩, _⟩ := h.answers r (by rw [hr]; exact List.mem_singleton_self r)
  exact ⟨r, words, hr, hw⟩

end TiiSel4Vm.RpcQueue

import TiiSel4Vm.Vmm.IoProxy

/-!
# What holds between the steps of I/O requests

A requester leaves its slot armed before it sends a message; every message before its callback
carries the live request of one requester, and no two carry the same.

* `SlotOk`, `MessageOk`, `RecordInv`, `NotifierOk` — what is true of a slot, a message, the record
  and the notification thread;
* `ProxyInv` — all of it;
* `MessageOk.frame`, `CarryInv.move`, `.mark`, `.spend` — what becomes of the messages when one of
  them is touched.
-/

namespace TiiSel4Vm.IoProxy

open TiiSel4Vm.Transition TiiSel4Vm.Ownership TiiSel4Vm.RpcQueue

/-! ### What holds between the steps -/

/-- Where a lent message can be. -/
inductive Spot where
  | requester (slot : Slot)
  | request
  | device
  | response
  /-- with the notification thread, before the callback runs -/
  | notifier
  /-- with the notification thread, after the callback has run -/
  | spent
  deriving DecidableEq

/-- The message that a requester has. -/
def RequesterPc.holds : RequesterPc → List (Fin rpcmsgBufferSize)
  | .writing msg => [msg]
  | .enqueuing msg => [msg]
  | _ => []

/-- The requester has started a request and lent no message for it. -/
def RequesterPc.Preparing : RequesterPc → Prop
  | .checked => True
  | .storing => True
  | .scanning => True
  | .marking _ => True
  | _ => False

/-- The requester has sent its message. -/
def RequesterPc.Sent : RequesterPc → Prop
  | .ringing => True
  | .waiting => True
  | _ => False

/-- The response the notification thread has, before the callback runs. -/
def NotifierPc.pending : NotifierPc → List (Fin rpcmsgBufferSize)
  | .checking msg => [msg]
  | .calling msg _ _ => [msg]
  | _ => []

/-- The response the notification thread has, after the callback has run. -/
def NotifierPc.spent : NotifierPc → List (Fin rpcmsgBufferSize)
  | .clearing msg _ => [msg]
  | .reclaiming msg => [msg]
  | _ => []

/-- The slot has the callback and the cookie of its requester. -/
def Armed (slot : Slot) (a : Ioack) (t : Requester) : Prop :=
  a.callback = some (ioackFor slot t.args.direction) ∧ a.cookie = some slot

/-- What the steps of a requester leave in its slot. -/
def SlotOk (slot : Slot) (a : Ioack) (t : Requester) : Prop :=
  match t.pc with
  | .idle => t.live = none ∧ t.signal = 0
  | .checked => t.live ≠ none ∧ t.signal = 0 ∧ a.callback = none
  | .storing =>
      t.live ≠ none ∧ t.signal = 0 ∧ a.callback = some (ioackFor slot t.args.direction)
  | .ringing => (t.live ≠ none ∧ t.signal = 0 ∧ Armed slot a t) ∨ (t.live = none ∧ t.signal = 1)
  | .waiting => (t.live ≠ none ∧ t.signal = 0 ∧ Armed slot a t) ∨ (t.live = none ∧ t.signal = 1)
  | .aborted => False
  | .gaveUp => False
  | _ => t.live ≠ none ∧ t.signal = 0 ∧ Armed slot a t

/-- The message carries a request whose requester has sent it. -/
def SentFor (w : Proxy) (msg : Fin rpcmsgBufferSize) : Prop :=
  ∃ slot, (w.requester slot).live = some (w.carries msg) ∧ (w.requester slot).pc.Sent ∧
    w.buffer msg mr0 = (w.requester slot).args.mr0 slot

/-- The message has the data of the answer to its request. -/
def Answered (w : Proxy) (msg : Fin rpcmsgBufferSize) : Prop :=
  w.answers (w.carries msg) = some (w.buffer msg mr2)

/-- What is true of a message at a spot. -/
def MessageOk (w : Proxy) : Spot → Fin rpcmsgBufferSize → Prop
  | .requester slot, msg =>
      (w.requester slot).live = some (w.carries msg) ∧
        ((w.requester slot).pc = .enqueuing msg →
          w.buffer msg mr0 = (w.requester slot).args.mr0 slot)
  | .request, msg => SentFor w msg
  | .device, msg => SentFor w msg
  | .response, msg => SentFor w msg ∧ Answered w msg
  | .notifier, msg => SentFor w msg ∧ Answered w msg
  | .spent, _ => True

/-- The queues and the parties have the messages of their spots. -/
structure Fits (w : Proxy) (held : Spot → List (Fin rpcmsgBufferSize)) : Prop where
  request : ∃ k, Represents w.request k (held .request)
  response : ∃ k, Represents w.response k (held .response)
  device : w.device = held .device
  pending : held .notifier = w.notifier.pending
  spent : held .spent = w.notifier.spent
  requester : ∀ slot, held (.requester slot) = (w.requester slot).pc.holds

/-- Messages carry requests, no two the same, and a live request that has a message is carried. -/
structure CarryInv (w : Proxy) (held : Spot → List (Fin rpcmsgBufferSize)) : Prop where
  message : ∀ P msg, msg ∈ held P → MessageOk w P msg
  distinct : ∀ P Q msg msg', P ≠ .spent → Q ≠ .spent → msg ∈ held P → msg' ∈ held Q →
    w.carries msg = w.carries msg' → msg = msg'
  located : ∀ slot k, (w.requester slot).live = some k →
    (w.requester slot).pc.Preparing ∨ ∃ P msg, P ≠ .spent ∧ msg ∈ held P ∧ w.carries msg = k

/-- The record fits the requesters. -/
structure RecordInv (w : Proxy) : Prop where
  own : ∀ slot k, (w.requester slot).live = some k →
    w.started[k]? = some (slot, (w.requester slot).args) ∧ ∀ c ∈ w.completions, c.serial ≠ k
  complete : ∀ c ∈ w.completions, ∃ r, w.started[c.serial]? = some (c.cookie, r) ∧
    c.callback = ioackFor c.cookie r.direction ∧ w.answers c.serial = some c.data
  once : (w.completions.map Completion.serial).Nodup
  pending : ∀ n < w.started.length, (∃ c ∈ w.completions, c.serial = n) ∨
    ∃ slot, (w.requester slot).live = some n

/-- What the notification thread has made sure of. -/
structure NotifierOk (w : Proxy) : Prop where
  calling : ∀ msg slot data, w.notifier = .calling msg slot data →
    (w.requester slot).live = some (w.carries msg) ∧ w.answers (w.carries msg) = some data
  clearing : ∀ msg slot, w.notifier = .clearing msg slot →
    (w.requester slot).live = none ∧ (w.ioacks slot).callback ≠ none
  running : w.notifier ≠ .aborted ∧ w.notifier ≠ .astray

/-- Nothing is asked of the thread where it neither calls nor clears. -/
theorem notifierOk_of_other {w : Proxy}
    (hcalling : ∀ msg slot data, w.notifier ≠ .calling msg slot data)
    (hclearing : ∀ msg slot, w.notifier ≠ .clearing msg slot)
    (hrunning : w.notifier ≠ .aborted ∧ w.notifier ≠ .astray) : NotifierOk w where
  calling msg slot data h := absurd h (hcalling msg slot data)
  clearing msg slot h := absurd h (hclearing msg slot)
  running := hrunning

/-- **The invariant.** -/
structure ProxyInv (w : Proxy) (held : Spot → List (Fin rpcmsgBufferSize)) : Prop where
  lending : LendInv w.state held
  fits : Fits w held
  carry : CarryInv w held
  record : RecordInv w
  slots : ∀ slot, SlotOk slot (w.ioacks slot) (w.requester slot)
  /-- without a live request the slot is clear, or about to be cleared -/
  quiet : ∀ slot, (w.requester slot).live = none →
    (w.ioacks slot).callback = none ∨ w.notifier.clears = some slot
  notifier : NotifierOk w

theorem proxyInv_initial : ProxyInv .initial fun _ => [] where
  lending := lendInv_initial
  fits := ⟨⟨0, represents_init⟩, ⟨0, represents_init⟩, rfl, rfl, rfl, fun _ => rfl⟩
  carry :=
    { message := fun _ _ h => absurd h List.not_mem_nil
      distinct := fun _ _ _ _ _ _ h => absurd h List.not_mem_nil
      located := fun _ _ h => nomatch h }
  record :=
    { own := fun _ _ h => nomatch h
      complete := fun _ h => absurd h List.not_mem_nil
      once := List.nodup_nil
      pending := fun _ h => absurd h (Nat.not_lt_zero _) }
  slots _ := ⟨rfl, rfl⟩
  quiet _ _ := Or.inl rfl
  notifier := notifierOk_of_other (by simp [Proxy.initial]) (by simp [Proxy.initial])
    (by simp [Proxy.initial])

section Pieces

variable {w w' : Proxy} {held : Spot → List (Fin rpcmsgBufferSize)} {P Q : Spot}
  {msg : Fin rpcmsgBufferSize} {slot : Slot}

/-- Without a live request the slot may hold anything. -/
theorem SlotOk.of_live_none {a a' : Ioack} {t : Requester} (h : SlotOk slot a t)
    (hlive : t.live = none) : SlotOk slot a' t := by
  unfold SlotOk at h ⊢
  split at h
  · exact h
  · exact absurd hlive h.1
  · exact absurd hlive h.1
  · exact Or.inr (h.resolve_left fun hs => hs.1 hlive)
  · exact Or.inr (h.resolve_left fun hs => hs.1 hlive)
  · exact h
  · exact h
  · exact absurd hlive h.1

/-- A requester that has sent a live request has armed its slot and is not woken. -/
theorem SlotOk.armed_of_sent {a : Ioack} {t : Requester} (h : SlotOk slot a t) (hpc : t.pc.Sent)
    (hlive : t.live ≠ none) : t.signal = 0 ∧ Armed slot a t := by
  unfold SlotOk at h
  split at h
  · exact absurd h.1 hlive
  all_goals first
    | exact h.2
    | exact (h.resolve_right fun hs => hlive hs.1).2
    | exact h.elim
    | (rename_i hp; rw [hp] at hpc; exact hpc.elim)

theorem RecordInv.slot_inj (h : RecordInv w) {slot' : Slot} {k : ℕ}
    (hs : (w.requester slot).live = some k) (hs' : (w.requester slot').live = some k) :
    slot = slot' := by
  have h₁ := (h.own slot k hs).1
  rw [(h.own slot' k hs').1] at h₁
  exact (congrArg Prod.fst (Option.some.inj h₁)).symm

/-- The list fits what the state says of the spot. -/
def FitsAt (w : Proxy) (l : List (Fin rpcmsgBufferSize)) : Spot → Prop
  | .requester slot => l = (w.requester slot).pc.holds
  | .request => ∃ k, Represents w.request k l
  | .device => w.device = l
  | .response => ∃ k, Represents w.response k l
  | .notifier => l = w.notifier.pending
  | .spent => l = w.notifier.spent

theorem fits_iff : Fits w held ↔ ∀ P, FitsAt w (held P) P := by
  constructor
  · intro h P
    cases P with
    | requester slot => exact h.requester slot
    | request => exact h.request
    | device => exact h.device
    | response => exact h.response
    | notifier => exact h.pending
    | spent => exact h.spent
  · intro h
    exact ⟨h .request, h .response, h .device, h .notifier, h .spent,
      fun slot => h (.requester slot)⟩

/-- After a message was lent, only its spot has to be looked at. -/
theorem Fits.take (h : Fits w held) (hP : FitsAt w' (held P ++ [msg]) P)
    (hother : ∀ R ≠ P, FitsAt w (held R) R → FitsAt w' (held R) R) :
    Fits w' (Ownership.take held P msg) := by
  refine fits_iff.mpr fun R => ?_
  by_cases hR : R = P
  · subst hR
    rw [Ownership.take, Function.update_self]
    exact hP
  · rw [Ownership.take, Function.update_of_ne hR]
    exact hother R hR (fits_iff.mp h R)

/-- After a message was given up, only its spot has to be looked at. -/
theorem Fits.drop (h : Fits w held) (hP : FitsAt w' ((held P).erase msg) P)
    (hother : ∀ R ≠ P, FitsAt w (held R) R → FitsAt w' (held R) R) :
    Fits w' (Ownership.drop held P msg) := by
  refine fits_iff.mpr fun R => ?_
  by_cases hR : R = P
  · subst hR
    rw [Ownership.drop, Function.update_self]
    exact hP
  · rw [Ownership.drop, Function.update_of_ne hR]
    exact hother R hR (fits_iff.mp h R)

/-- After a message moved, only the two spots have to be looked at. -/
theorem Fits.move (h : Fits w held) (hPQ : P ≠ Q) (hP : FitsAt w' ((held P).erase msg) P)
    (hQ : FitsAt w' (held Q ++ [msg]) Q)
    (hother : ∀ R, R ≠ P → R ≠ Q → FitsAt w (held R) R → FitsAt w' (held R) R) :
    Fits w' (Ownership.move held P Q msg) := by
  refine fits_iff.mpr fun R => ?_
  by_cases hRP : R = P
  · subst hRP
    rw [move_source hPQ]
    exact hP
  by_cases hRQ : R = Q
  · subst hRQ
    rw [move_target hPQ]
    exact hQ
  · rw [move_other hRP hRQ]
    exact hother R hRP hRQ (fits_iff.mp h R)

/-- The message whose callback is to run is with the thread. -/
theorem Fits.mem_of_calling (h : Fits w held) {data : Word}
    (hn : w.notifier = .calling msg slot data) : msg ∈ held .notifier := by
  rw [h.pending, hn]
  exact List.mem_singleton_self msg

/-- The thread stays sure while the requests and the answer it is about stay the same. -/
theorem NotifierOk.keep (h : NotifierOk w) (hnotifier : w'.notifier = w.notifier)
    (hlive : ∀ s, (w'.requester s).live = (w.requester s).live) (hioacks : w'.ioacks = w.ioacks)
    (hanswer : ∀ u s data, w.notifier = .calling u s data → w'.carries u = w.carries u ∧
      w'.answers (w.carries u) = w.answers (w.carries u)) : NotifierOk w' where
  calling u s data hn := by
    rw [hnotifier] at hn
    obtain ⟨hcarries, hanswers⟩ := hanswer u s data hn
    rw [hlive, hcarries, hanswers]
    exact h.calling u s data hn
  clearing u s hn := by
    rw [hnotifier] at hn
    rw [hlive, hioacks]
    exact h.clearing u s hn
  running := by
    rw [hnotifier]
    exact h.running

/-- A requester goes on with its live request as before. -/
structure SameRole (t t' : Requester) : Prop where
  live : t'.live = t.live
  args : t'.args = t.args
  preparing : t.pc.Preparing → t'.pc.Preparing
  sent : t.pc.Sent → t'.pc.Sent
  enqueuing : ∀ msg, t'.pc = .enqueuing msg → t.pc = .enqueuing msg

theorem SameRole.refl (t : Requester) : SameRole t t :=
  ⟨rfl, rfl, id, id, fun _ => id⟩

/-- What is true of a message stays true while nobody touches it or its request. -/
theorem MessageOk.frame (h : MessageOk w P msg) (hcarries : w'.carries msg = w.carries msg)
    (hbuffer : w'.buffer msg = w.buffer msg)
    (hanswers : w'.answers (w.carries msg) = w.answers (w.carries msg))
    (hreq : ∀ slot, (w.requester slot).live = some (w.carries msg) →
      SameRole (w.requester slot) (w'.requester slot)) : MessageOk w' P msg := by
  have hsent : SentFor w msg → SentFor w' msg := by
    rintro ⟨slot, hlive, hpc, hmr0⟩
    have hrole := hreq slot hlive
    refine ⟨slot, ?_, hrole.sent hpc, ?_⟩
    · rw [hrole.live, hcarries]
      exact hlive
    · rw [hbuffer, hrole.args]
      exact hmr0
  have hanswered : Answered w msg → Answered w' msg := by
    intro ha
    rw [Answered, hcarries, hbuffer, hanswers]
    exact ha
  cases P with
  | requester slot =>
      have hrole := hreq slot h.1
      refine ⟨?_, fun hpc => ?_⟩
      · rw [hrole.live, hcarries]
        exact h.1
      · rw [hbuffer, hrole.args]
        exact h.2 (hrole.enqueuing msg hpc)
  | request => exact hsent h
  | device => exact hsent h
  | response => exact ⟨hsent h.1, hanswered h.2⟩
  | notifier => exact ⟨hsent h.1, hanswered h.2⟩
  | spent => trivial

/-- Requesters go on; no message moves. -/
theorem CarryInv.keep (h : CarryInv w held) (hcarries : w'.carries = w.carries)
    (hbuffer : w'.buffer = w.buffer) (hanswers : w'.answers = w.answers)
    (hreq : ∀ slot, (w.requester slot).live ≠ none →
      SameRole (w.requester slot) (w'.requester slot))
    (hlive : ∀ slot, (w'.requester slot).live = (w.requester slot).live) : CarryInv w' held where
  message P msg hmsg := by
    refine (h.message P msg hmsg).frame (by rw [hcarries]) (by rw [hbuffer]) (by rw [hanswers])
      fun slot hs => hreq slot ?_
    rw [hs]
    exact Option.some_ne_none _
  distinct P Q msg msg' := by
    rw [hcarries]
    exact h.distinct P Q msg msg'
  located slot k hk := by
    rw [hlive] at hk
    rw [hcarries]
    have hne : (w.requester slot).live ≠ none := by
      rw [hk]
      exact Option.some_ne_none _
    exact (h.located slot k hk).imp_left (hreq slot hne).preparing

/-- A message moves. -/
theorem CarryInv.move (h : CarryInv w held) (he : Exclusive held) (hmsg : msg ∈ held P)
    (hP : P ≠ .spent) (hQ : Q ≠ .spent) (hcarries : w'.carries = w.carries)
    (hold : ∀ R u, u ≠ msg → u ∈ held R → MessageOk w' R u) (hnew : MessageOk w' Q msg)
    (hreq : ∀ slot k, (w'.requester slot).live = some k → (w.requester slot).live = some k ∧
      ((w.requester slot).pc.Preparing → (w'.requester slot).pc.Preparing)) :
    CarryInv w' (Ownership.move held P Q msg) where
  message R u hu := by
    rcases (he.mem_move hmsg).mp hu with ⟨rfl, rfl⟩ | ⟨hne, hold'⟩
    · exact hnew
    · exact hold R u hne hold'
  distinct R S u u' hR hS hu hu' := by
    rw [hcarries]
    have hback : ∀ {R u}, R ≠ .spent → u ∈ Ownership.move held P Q msg R →
        ∃ R', R' ≠ .spent ∧ u ∈ held R' := by
      intro R u hR hu
      rcases (he.mem_move hmsg).mp hu with ⟨rfl, rfl⟩ | ⟨_, hold'⟩
      · exact ⟨P, hP, hmsg⟩
      · exact ⟨R, hR, hold'⟩
    obtain ⟨R', hR', hu₁⟩ := hback hR hu
    obtain ⟨S', hS', hu₂⟩ := hback hS hu'
    exact h.distinct R' S' u u' hR' hS' hu₁ hu₂
  located slot k hk := by
    rw [hcarries]
    obtain ⟨hk', hprep⟩ := hreq slot k hk
    refine (h.located slot k hk').imp hprep ?_
    rintro ⟨R, u, hR, hu, hc⟩
    by_cases hut : u = msg
    · subst hut
      exact ⟨Q, u, hQ, (he.mem_move hmsg).mpr (Or.inl ⟨rfl, rfl⟩), hc⟩
    · exact ⟨R, u, hR, (he.mem_move hmsg).mpr (Or.inr ⟨hut, hu⟩), hc⟩

/-- A message is lent for a live request of a requester that has none. -/
theorem CarryInv.mark (h : CarryInv w held) (hfree : ∀ R, msg ∉ held R) {k : ℕ}
    (hk : (w.requester slot).live = some k) (hnone : ∀ R u, R ≠ .spent → u ∈ held R →
      w.carries u ≠ k)
    (hcarries : w'.carries = Function.update w.carries msg k)
    (hold : ∀ R u, u ≠ msg → u ∈ held R → MessageOk w' R u)
    (hnew : MessageOk w' (.requester slot) msg)
    (hreq : ∀ slot' k', (w'.requester slot').live = some k' →
      (w.requester slot').live = some k' ∧
      (slot' ≠ slot → (w.requester slot').pc.Preparing → (w'.requester slot').pc.Preparing)) :
    CarryInv w' (take held (.requester slot) msg) where
  message R u hu := by
    rcases mem_take.mp hu with ⟨rfl, rfl⟩ | hu'
    · exact hnew
    · refine hold R u ?_ hu'
      rintro rfl
      exact hfree R hu'
  distinct R S u u' hR hS hu hu' := by
    rw [hcarries]
    have hcase : ∀ {R u}, R ≠ .spent → u ∈ take held (.requester slot) msg R →
        u = msg ∨ (u ≠ msg ∧ w.carries u ≠ k ∧ u ∈ held R) := by
      intro R u hR hu
      rcases mem_take.mp hu with ⟨_, rfl⟩ | hold'
      · exact Or.inl rfl
      · refine Or.inr ⟨?_, hnone R u hR hold', hold'⟩
        rintro rfl
        exact hfree R hold'
    rcases hcase hR hu with rfl | ⟨hne, hc, hu₁⟩
    · rcases hcase hS hu' with rfl | ⟨hne', hc', _⟩
      · exact fun _ => rfl
      · rw [Function.update_self, Function.update_of_ne hne']
        exact fun he => absurd he.symm hc'
    · rcases hcase hS hu' with rfl | ⟨hne', _, hu₂⟩
      · rw [Function.update_self, Function.update_of_ne hne]
        exact fun he => absurd he hc
      · rw [Function.update_of_ne hne, Function.update_of_ne hne']
        exact h.distinct R S u u' hR hS hu₁ hu₂
  located slot' k' hk' := by
    rw [hcarries]
    obtain ⟨hlive, hprep⟩ := hreq slot' k' hk'
    by_cases hslot : slot' = slot
    · subst hslot
      refine Or.inr ⟨.requester slot', msg, by simp, mem_take.mpr (Or.inl ⟨rfl, rfl⟩), ?_⟩
      rw [Function.update_self]
      exact Option.some.inj (hk.symm.trans hlive)
    · refine (h.located slot' k' hlive).imp (hprep hslot) ?_
      rintro ⟨R, u, hR, hu, hc⟩
      refine ⟨R, u, hR, mem_take.mpr (Or.inr hu), ?_⟩
      rw [Function.update_of_ne (fun he : u = msg => hfree R (he ▸ hu))]
      exact hc

/-- The callback for a message has run. -/
theorem CarryInv.spend (h : CarryInv w held) (he : Exclusive held) (hmsg : msg ∈ held .notifier)
    (hcarries : w'.carries = w.carries)
    (hold : ∀ R u, u ≠ msg → u ∈ held R → MessageOk w' R u)
    (hreq : ∀ slot k, (w'.requester slot).live = some k → k ≠ w.carries msg ∧
      (w.requester slot).live = some k ∧
      ((w.requester slot).pc.Preparing → (w'.requester slot).pc.Preparing)) :
    CarryInv w' (Ownership.move held .notifier .spent msg) where
  message R u hu := by
    rcases (he.mem_move hmsg).mp hu with ⟨rfl, rfl⟩ | ⟨hne, hold'⟩
    · trivial
    · exact hold R u hne hold'
  distinct R S u u' hR hS hu hu' := by
    rw [hcarries]
    rcases (he.mem_move hmsg).mp hu with ⟨rfl, _⟩ | ⟨_, hu₁⟩
    · exact absurd rfl hR
    · rcases (he.mem_move hmsg).mp hu' with ⟨rfl, _⟩ | ⟨_, hu₂⟩
      · exact absurd rfl hS
      · exact h.distinct R S u u' hR hS hu₁ hu₂
  located slot k hk := by
    rw [hcarries]
    obtain ⟨hne, hk', hprep⟩ := hreq slot k hk
    refine (h.located slot k hk').imp hprep ?_
    rintro ⟨R, u, hR, hu, hc⟩
    refine ⟨R, u, hR, (he.mem_move hmsg).mpr (Or.inr ⟨?_, hu⟩), hc⟩
    rintro rfl
    exact hne hc.symm

/-- What is true of the other messages while one message and its requester go on. -/
theorem CarryInv.message_other (h : CarryInv w held) (hmsg : msg ∈ held P) (hP : P ≠ .spent)
    (hk : (w.requester slot).live = some (w.carries msg)) {u : Fin rpcmsgBufferSize}
    (hu : u ∈ held Q)
    (hne : u ≠ msg) (hcarries : w'.carries = w.carries) (hbuffer : w'.buffer u = w.buffer u)
    (hanswers : ∀ n ≠ w.carries msg, w'.answers n = w.answers n)
    (hreq : ∀ s ≠ slot, w'.requester s = w.requester s) : MessageOk w' Q u := by
  by_cases hQ : Q = .spent
  · subst hQ
    trivial
  have hc : w.carries u ≠ w.carries msg := fun he => hne (h.distinct Q P u msg hQ hP hu hmsg he)
  refine (h.message Q u hu).frame (by rw [hcarries]) hbuffer (hanswers _ hc) fun s hs => ?_
  have hslot : s ≠ slot := by
    rintro rfl
    rw [hk] at hs
    exact hc (Option.some.inj hs).symm
  rw [hreq s hslot]
  exact SameRole.refl _

/-- A requester in preparation has no message that carries its request. -/
theorem CarryInv.not_carried (h : CarryInv w held) (hr : RecordInv w) (hf : Fits w held) {k : ℕ}
    (hk : (w.requester slot).live = some k) (hprep : (w.requester slot).pc.Preparing)
    (hP : P ≠ .spent) (hmsg : msg ∈ held P) : w.carries msg ≠ k := by
  have hholds : ∀ pc : RequesterPc, pc.Preparing → pc.holds = [] ∧ ¬ pc.Sent := by
    intro pc hpc
    cases pc <;> first | exact hpc.elim | exact ⟨rfl, id⟩
  obtain ⟨hnone, hnot⟩ := hholds _ hprep
  have hsent : SentFor w msg → w.carries msg ≠ k := by
    rintro ⟨s, hs, hpc, _⟩ rfl
    rw [hr.slot_inj hs hk] at hpc
    exact hnot hpc
  have hm := h.message P msg hmsg
  cases P with
  | requester s =>
      rintro rfl
      have hslot : s = slot := hr.slot_inj hm.1 hk
      subst hslot
      rw [hf.requester, hnone] at hmsg
      exact List.not_mem_nil hmsg
  | request => exact hsent hm
  | device => exact hsent hm
  | response => exact hsent hm.1
  | notifier => exact hsent hm.1
  | spent => exact absurd rfl hP

end Pieces

end TiiSel4Vm.IoProxy

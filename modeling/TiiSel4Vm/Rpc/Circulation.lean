import TiiSel4Vm.Rpc.Lend

/-!
# Messages in circulation

A lent message is a ticket: its id and the number of the request it carries.  Tickets are in places
(a queue, the hands of a party), of whatever kind the system at hand has.

* `CirculationInv` — an id is lent exactly when it is in circulation, and then in one place with one
  request;
* `CirculationInv.lending` — the ids alone are lent exclusively;
* `CirculationInv.issue`, `.move`, `.reclaim` — the three things that happen to a ticket.
-/

namespace TiiSel4Vm.RpcQueue

open TiiSel4Vm.Ownership

/-- A message in circulation, and the number of the request it carries. -/
structure Ticket where
  id : Fin rpcmsgBufferSize
  serial : ℕ
  deriving DecidableEq

variable {ι : Type} [DecidableEq ι]

/-- The ticket is in some place. -/
def Circulates (place : ι → List Ticket) (t : Ticket) : Prop := ∃ P, t ∈ place P

/-- An id is lent exactly when it is in circulation, and then in one place with one request. -/
structure CirculationInv (state : Bitmap) (place : ι → List Ticket) : Prop where
  covers : CoversBuffers state
  exclusive : Exclusive place
  distinct : ∀ t u, Circulates place t → Circulates place u → t.id = u.id → t = u
  lent : ∀ id, Lent state id ↔ ∃ t, Circulates place t ∧ t.id = id

section Circulation

variable {state : Bitmap} {place : ι → List Ticket} {P Q : ι} {t : Ticket}

omit [DecidableEq ι] in
theorem circulationInv_initial : CirculationInv rpcmsgBufferStateInit fun _ : ι => [] where
  covers := coversBuffers_init
  exclusive := exclusive_nil
  distinct _ _ h := absurd h.choose_spec List.not_mem_nil
  lent id := by
    constructor
    · intro h
      exact absurd h (not_lent_init id)
    · rintro ⟨t, ht, _⟩
      exact absurd ht.choose_spec List.not_mem_nil

omit [DecidableEq ι] in
/-- The ids in a place are different. -/
theorem CirculationInv.nodup_ids (h : CirculationInv state place) (P : ι) :
    ((place P).map Ticket.id).Nodup :=
  (h.exclusive.nodup P).map_on fun t ht u hu => h.distinct t u ⟨P, ht⟩ ⟨P, hu⟩

omit [DecidableEq ι] in
/-- **The ids alone are lent exclusively.** -/
theorem CirculationInv.lending (h : CirculationInv state place) :
    LendInv state fun P => (place P).map Ticket.id where
  covers := h.covers
  lent_iff id := by
    rw [h.lent]
    constructor
    · rintro ⟨t, ⟨P, ht⟩, rfl⟩
      exact ⟨P, List.mem_map_of_mem ht⟩
    · rintro ⟨P, hid⟩
      obtain ⟨t, ht, rfl⟩ := List.mem_map.mp hid
      exact ⟨t, ⟨P, ht⟩, rfl⟩
  exclusive := by
    refine ⟨h.nodup_ids, fun P Q id hP hQ => ?_⟩
    obtain ⟨t, ht, rfl⟩ := List.mem_map.mp hP
    obtain ⟨u, hu, hid⟩ := List.mem_map.mp hQ
    have hut : u = t := h.distinct u t ⟨Q, hu⟩ ⟨P, ht⟩ hid
    subst hut
    exact h.exclusive.owner P Q u ht hu

omit [DecidableEq ι] in
/-- A ticket elsewhere leaves room. -/
theorem CirculationInv.length_lt_of_elsewhere (h : CirculationInv state place) (ht : t ∈ place Q)
    (hne : P ≠ Q) : ((place P).map Ticket.id).length < rpcmsgBufferSize := by
  have hnot : t.id ∉ (place P).map Ticket.id := fun hid =>
    hne (h.lending.exclusive.owner P Q t.id hid (List.mem_map_of_mem ht))
  exact h.lending.length_lt hnot

theorem CirculationInv.move (h : CirculationInv state place) (ht : t ∈ place P) :
    CirculationInv state (move place P Q t) := by
  have hsame : ∀ u, Circulates (Ownership.move place P Q t) u ↔ Circulates place u :=
    fun u => h.exclusive.exists_mem_move ht
  refine ⟨h.covers, h.exclusive.move ht, fun u w hu hw => ?_, fun id => ?_⟩
  · exact h.distinct u w ((hsame u).mp hu) ((hsame w).mp hw)
  · rw [h.lent id]
    simp only [hsame]

theorem circulates_take {u : Ticket} :
    Circulates (take place P t) u ↔ u = t ∨ Circulates place u := by
  constructor
  · rintro ⟨Q, hQ⟩
    exact (mem_take.mp hQ).imp And.right fun h => ⟨Q, h⟩
  · rintro (rfl | ⟨Q, hQ⟩)
    · exact ⟨P, mem_take.mpr (Or.inl ⟨rfl, rfl⟩)⟩
    · exact ⟨Q, mem_take.mpr (Or.inr hQ)⟩

/-- A new ticket with a free id. -/
theorem CirculationInv.issue (h : CirculationInv state place) (hfree : ¬ Lent state t.id) :
    CirculationInv (setBit t.id state) (take place P t) := by
  have hnew : ∀ u, Circulates place u → u.id ≠ t.id := by
    intro u hu he
    exact hfree ((h.lent t.id).mpr ⟨u, hu, he⟩)
  refine ⟨h.covers.setBit _, h.exclusive.take_iff.mpr fun R hR => hnew t ⟨R, hR⟩ rfl,
    fun u w hu hw he => ?_, fun id => ?_⟩
  · rcases circulates_take.mp hu with rfl | hu'
    · rcases circulates_take.mp hw with rfl | hw'
      · rfl
      · exact absurd he.symm (hnew w hw')
    · rcases circulates_take.mp hw with rfl | hw'
      · exact absurd he (hnew u hu')
      · exact h.distinct u w hu' hw' he
  · rw [lent_setBit h.covers, h.lent]
    constructor
    · rintro (rfl | ⟨u, hu, rfl⟩)
      · exact ⟨t, circulates_take.mpr (Or.inl rfl), rfl⟩
      · exact ⟨u, circulates_take.mpr (Or.inr hu), rfl⟩
    · rintro ⟨u, hu, rfl⟩
      rcases circulates_take.mp hu with rfl | hu'
      · exact Or.inl rfl
      · exact Or.inr ⟨u, hu', rfl⟩

theorem CirculationInv.circulates_drop (h : CirculationInv state place) (ht : t ∈ place P)
    {u : Ticket} : Circulates (drop place P t) u ↔ Circulates place u ∧ u ≠ t := by
  constructor
  · rintro ⟨Q, hQ⟩
    refine ⟨⟨Q, mem_of_mem_drop hQ⟩, ?_⟩
    rintro rfl
    exact h.exclusive.not_mem_drop ht Q hQ
  · rintro ⟨⟨Q, hQ⟩, hne⟩
    exact ⟨Q, mem_drop_of_ne hne hQ⟩

/-- A ticket leaves circulation and its id is free again. -/
theorem CirculationInv.reclaim (h : CirculationInv state place) (ht : t ∈ place P) :
    CirculationInv (rpcmsgReclaimBuffer state t.id) (drop place P t) := by
  have hgone := fun u => h.circulates_drop ht (u := u)
  refine ⟨h.covers.reclaim _, h.exclusive.drop, fun u w hu hw => ?_, fun id => ?_⟩
  · exact h.distinct u w ((hgone u).mp hu).1 ((hgone w).mp hw).1
  · rw [lent_reclaim h.covers, h.lent]
    constructor
    · rintro ⟨⟨u, hu, rfl⟩, hne⟩
      refine ⟨u, (hgone u).mpr ⟨hu, ?_⟩, rfl⟩
      rintro rfl
      exact hne rfl
    · rintro ⟨u, hu, rfl⟩
      obtain ⟨hold, hne⟩ := (hgone u).mp hu
      exact ⟨⟨u, hold, rfl⟩, fun he => hne (h.distinct u t hold ⟨P, ht⟩ he)⟩

end Circulation

end TiiSel4Vm.RpcQueue

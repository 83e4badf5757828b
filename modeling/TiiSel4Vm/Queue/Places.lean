import TiiSel4Vm.Queue.EventQueue

/-!
# The positions of a queue, whatever operations are called

Every position a side acquired is held by the thread that acquired it or committed, and by nobody
else; a call that is past its acquisition stays at the position it acquired.  Nothing here depends
on what the element functions do.

* `step_kinds` — a step is quiet, an acquisition or a commit;
* `PlacesInv.step`, `placesInv_of_reachable` — one step, and every run.
-/

namespace TiiSel4Vm.RpcQueue

open TiiSel4Vm.Transition

variable {τ : Type}

/-- The operation whose acquisition a thread is past. -/
def Pc.pastOp : Pc → Option Op
  | .body op _ _ => some op
  | .committing op _ _ => some op
  | .returned op ret _ => if ret = 0 then some op else none
  | _ => none

/-- **The position invariant.** -/
structure PlacesInv (w : World τ) : Prop where
  /-- an acquired position is committed or held -/
  covered : ∀ s p, p < w.hist.acquired s →
    p ∈ w.hist.commits s ∨ ∃ t, (w.sys.pc t).InFlight s ∧ w.hist.place t = p
  commits_lt : ∀ s p, p ∈ w.hist.commits s → p < w.hist.acquired s
  commits_nodup : ∀ s, (w.hist.commits s).Nodup
  held : ∀ s t, (w.sys.pc t).InFlight s → w.hist.place t ∉ w.hist.commits s
  /-- the positions of a side are acquired by operations of that side -/
  side : ∀ s, ∀ a ∈ w.hist.acquirers s, a.2.side = s
  acquirer : ∀ t op, (w.sys.pc t).pastOp = some op →
    (w.hist.acquirers op.side)[w.hist.place t]? = some (t, op)
  received : w.hist.received.map Prod.fst = w.hist.commits .cons
  /-- a call that returned 0 has committed the position it acquired -/
  returned : ∀ t op out, w.sys.pc t = .returned op 0 out →
    w.hist.place t ∈ w.hist.commits op.side ∧
      (op.side = .cons → (w.hist.place t, out) ∈ w.hist.received)

theorem placesInv_initial : PlacesInv (World.initial : World τ) where
  covered _ _ h := absurd h (Nat.not_lt_zero _)
  commits_lt _ _ h := absurd h List.not_mem_nil
  commits_nodup _ := List.nodup_nil
  held _ _ h := h.elim
  side _ _ h := absurd h List.not_mem_nil
  acquirer _ _ h := by cases h
  received := rfl
  returned _ _ _ h := by cases h

/-- Everything below the head position of a side is committed. -/
theorem PlacesInv.committed_of_lt [Fintype τ] {w : World τ} (hp : PlacesInv w) (hi : Inv w)
    {s : Side} {p : ℕ} (h : p < w.hist.published s) : p ∈ w.hist.commits s := by
  have hle : w.hist.published s ≤ w.hist.acquired s :=
    le_trans (hi.published_le s) (hi.committed_le s)
  rcases hp.covered s p (by omega) with hc | ⟨t, hfly, rfl⟩
  · exact hc
  · have := (hi.place_range s t hfly).1
    omega

/-- A thread in flight is past the acquisition of an operation of that side. -/
theorem Pc.pastOp_of_inFlight {pc : Pc} {s : Side} (h : pc.InFlight s) :
    ∃ op, pc.pastOp = some op ∧ op.side = s := by
  cases pc with
  | body op entry b => exact ⟨op, rfl, h⟩
  | committing op out c => exact ⟨op, rfl, h⟩
  | _ => exact h.elim

section Step

variable [Fintype τ] [DecidableEq τ] {w w' : World τ} {t : τ}

/-- A quiet step that leaves a thread past an acquisition only where it was before. -/
structure QuietKind (w w' : World τ) (t : τ) (pc' : Pc) : Prop where
  quiet : Quiet w w' t pc'
  received : w'.hist.received = w.hist.received
  pastOp : ∀ op, pc'.pastOp = some op → (w.sys.pc t).pastOp = some op
  running : ∀ op out, pc' ≠ .returned op 0 out

/-- **What a step can be**: quiet, an acquisition or a commit. -/
theorem step_kinds {variant : τ → CasVariant} {act : Act} (hi : Inv w)
    (h : (worldLts variant).step w (t, act) w') :
    (∃ pc', QuietKind w w' t pc') ∨
      (∃ op ot, w.sys.pc t = .acquiring op (.cas ot) ∧ w' = w.afterAcquire t op ot) ∨
      ∃ op out oh tl, w.sys.pc t = .committing op out (.cas oh tl) ∧
        w.hist.committed op.side - w.hist.stamp t < freshBound ∧
        (w.sys.queue.bound op.side).head = oh ∧ w' = w.afterCommit t op out oh tl := by
  obtain ⟨hfresh, s', e, hstep, rfl⟩ := h
  obtain ⟨q', buf', pc', rfl, hmove⟩ := sysStep_moves hstep
  generalize hpc : w.sys.pc t = pc at hmove
  simp only [Fresh, hpc] at hfresh
  cases hmove with
  | acquire op ot heq => exact Or.inr (Or.inl ⟨op, ot, rfl, rfl⟩)
  | commit op out oh tl heq => exact Or.inr (Or.inr ⟨op, out, oh, tl, rfl, hfresh, heq, rfl⟩)
  | @body op entry b word _ _ r hbody =>
      obtain ⟨hbound, hring⟩ := bodyStep_frame hbody
      obtain ⟨hring', hnoabort⟩ := hring hi.ring
      refine Or.inl ⟨_, quiet_of_event trivial hbound rfl (fun s => ?_) fun _ => hring', rfl,
        fun o ho => ?_, fun o out => ?_⟩
      · rw [BodyResult.pc_inFlight hnoabort, hpc]
        rfl
      · rw [hpc]
        cases r with
        | more b' => exact ho
        | finished out => exact ho
        | abort => exact absurd rfl hnoabort
      · cases r <;> simp [BodyResult.pc]
  | acquireLost op ot hne =>
      refine Or.inl ⟨_, quiet_of_event (casEvent_isQuiet trivial) (fun _ => rfl) rfl
        (fun s => ?_) id, ?_, fun o ho => ?_, fun o out => by simp⟩
      · simp [hpc, Pc.InFlight]
      · cases variant t <;> rfl
      · cases ho
  | commitLost op out oh tl hne =>
      refine Or.inl ⟨_, quiet_of_event (casEvent_isQuiet trivial) (fun _ => rfl) rfl
        (fun s => ?_) id, ?_, fun o ho => ?_, fun o out => by simp⟩
      · simp [hpc, Pc.InFlight]
      · cases variant t <;> rfl
      · rw [hpc]
        exact ho
  | loadHead op out =>
      refine Or.inl ⟨_, quiet_of_event trivial (fun _ => rfl) rfl (fun s => ?_) id, rfl,
        fun o ho => ?_, fun o out => by simp⟩
      · simp [hpc, Pc.InFlight]
      · rw [hpc]
        exact ho
  | sampleTail op out oh =>
      refine Or.inl ⟨_, quiet_of_event trivial (fun _ => rfl) rfl (fun s => ?_) id, rfl,
        fun o ho => ?_, fun o out => by simp⟩
      · simp [hpc, Pc.InFlight]
      · rw [hpc]
        exact ho
  | _ =>
      refine Or.inl ⟨_, quiet_of_event trivial (fun _ => rfl) rfl (fun s => ?_) id, rfl,
        fun o ho => ?_, fun o out => by simp⟩
      · simp [hpc, Pc.InFlight]
      · simp [Pc.pastOp] at ho

omit [Fintype τ] in
theorem PlacesInv.quiet {pc' : Pc} (hp : PlacesInv w) (hq : QuietKind w w' t pc') :
    PlacesInv w' := by
  obtain ⟨hquiet, hrec, hop, hrun⟩ := hq
  refine
    { covered := fun s p hlt => ?_, commits_lt := fun s p hm => ?_, commits_nodup := fun s => ?_,
      held := fun s u hu => ?_, side := fun s => ?_, acquirer := fun u op hu => ?_,
      received := ?_, returned := fun u op out hu => ?_ }
  · rw [hquiet.acquired] at hlt
    rw [hquiet.commits, hquiet.place]
    refine (hp.covered s p hlt).imp id ?_
    rintro ⟨u, hu, hpl⟩
    exact ⟨u, (hquiet.inFlight_iff s u).mpr hu, hpl⟩
  · rw [hquiet.commits] at hm
    rw [hquiet.acquired]
    exact hp.commits_lt s p hm
  · rw [hquiet.commits]
    exact hp.commits_nodup s
  · rw [hquiet.commits, hquiet.place]
    exact hp.held s u ((hquiet.inFlight_iff s u).mp hu)
  · rw [hquiet.acquirers]
    exact hp.side s
  · rw [hquiet.acquirers, hquiet.place]
    by_cases hut : u = t
    · subst hut
      rw [hquiet.pc, Function.update_self] at hu
      exact hp.acquirer u op (hop op hu)
    · rw [hquiet.pc, Function.update_of_ne hut] at hu
      exact hp.acquirer u op hu
  · rw [hrec, hquiet.commits]
    exact hp.received
  · rw [hrec, hquiet.commits, hquiet.place]
    by_cases hut : u = t
    · subst hut
      rw [hquiet.pc, Function.update_self] at hu
      exact absurd hu (hrun op out)
    · rw [hquiet.pc, Function.update_of_ne hut] at hu
      exact hp.returned u op out hu

omit [Fintype τ] in
/-- An acquisition adds the next position, held by the thread. -/
theorem PlacesInv.afterAcquire {op : Op} {ot : Marker} (hp : PlacesInv w)
    (hpc : w.sys.pc t = .acquiring op (.cas ot)) : PlacesInv (w.afterAcquire t op ot) := by
  have hext : Extends w.hist (w.afterAcquire t op ot).hist :=
    extends_record w.hist t (.acquired op)
  have hadv : Advance w (w.afterAcquire t op ot) t := afterAcquire_advance
  have hplace : (w.afterAcquire t op ot).hist.place t = w.hist.acquired op.side :=
    Function.update_self ..
  have hself : (w.afterAcquire t op ot).sys.pc t = .body op ot.pos op.body :=
    Function.update_self ..
  have hne : ∀ s u, (w.sys.pc u).InFlight s → u ≠ t := by
    rintro s u hu rfl
    simp [hpc, Pc.InFlight] at hu
  refine
    { covered := fun s p hlt => ?_, commits_lt := fun s p hm => ?_,
      commits_nodup := hp.commits_nodup, held := fun s u hu => ?_, side := fun s a ha => ?_,
      acquirer := fun u o hu => ?_, received := hp.received, returned := fun u o out hu => ?_ }
  · have hold : p < w.hist.acquired s ∨ (op.side = s ∧ p = w.hist.acquired s) := by
      by_cases hs : s = op.side
      · subst hs
        have hgrown : (w.afterAcquire t op ot).hist.acquired op.side
            = w.hist.acquired op.side + 1 := record_acquired_same _
        rw [hgrown] at hlt
        exact (Nat.lt_succ_iff_lt_or_eq.mp hlt).imp id fun he => ⟨rfl, he⟩
      · have hsame : (w.afterAcquire t op ot).hist.acquired s = w.hist.acquired s :=
          record_acquired_ne _ hs
        exact Or.inl (hsame ▸ hlt)
    rcases hold with hold | ⟨rfl, rfl⟩
    · refine (hp.covered s p hold).imp id ?_
      rintro ⟨u, hu, hpl⟩
      have hut := hne s u hu
      exact ⟨u, by rw [hadv.pc u hut]; exact hu, by rw [hadv.place u hut]; exact hpl⟩
    · exact Or.inr ⟨t, (afterAcquire_inFlight _).mpr rfl, hplace⟩
  · exact lt_of_lt_of_le (hp.commits_lt s p hm) (hext.acquired_le s)
  · by_cases hut : u = t
    · subst hut
      rw [afterAcquire_inFlight] at hu
      subst hu
      rw [hplace]
      exact fun hm => absurd (hp.commits_lt _ _ hm) (Nat.lt_irrefl _)
    · rw [hadv.pc u hut] at hu
      rw [hadv.place u hut]
      exact hp.held s u hu
  · have ha' : a ∈ Function.update w.hist.acquirers op.side
        (w.hist.acquirers op.side ++ [(t, op)]) s := ha
    by_cases hs : s = op.side
    · subst hs
      rw [Function.update_self, List.mem_append, List.mem_singleton] at ha'
      rcases ha' with hold | rfl
      · exact hp.side _ a hold
      · rfl
    · rw [Function.update_of_ne hs] at ha'
      exact hp.side s a ha'
  · by_cases hut : u = t
    · subst hut
      rw [hself] at hu
      simp only [Pc.pastOp, Option.some.injEq] at hu
      subst hu
      rw [hplace]
      simp [World.afterAcquire, Hist.record, Hist.acquired]
    · rw [hadv.pc u hut] at hu
      rw [hadv.place u hut]
      exact hext.acquirer (hp.acquirer u o hu)
  · by_cases hut : u = t
    · subst hut
      rw [hself] at hu
      cases hu
    · rw [hadv.pc u hut] at hu
      rw [hadv.place u hut]
      exact hp.returned u o out hu

omit [Fintype τ] in
/-- What is committed after a commit. -/
theorem mem_afterCommit_commits {op : Op} {out : Out} {oh tl : Marker} {s : Side} {p : ℕ} :
    p ∈ (w.afterCommit t op out oh tl).hist.commits s ↔
      p ∈ w.hist.commits s ∨ (op.side = s ∧ p = w.hist.place t) := by
  show p ∈ Function.update w.hist.commits op.side (w.hist.commits op.side ++ [w.hist.place t]) s ↔ _
  by_cases hs : s = op.side
  · subst hs
    simp
  · simp [Function.update_of_ne hs, Ne.symm hs]

/-- A commit turns the position held by the thread into a committed one. -/
theorem PlacesInv.afterCommit {op : Op} {out : Out} {oh tl : Marker} (hp : PlacesInv w)
    (hi : Inv w) (hpc : w.sys.pc t = .committing op out (.cas oh tl)) :
    PlacesInv (w.afterCommit t op out oh tl) := by
  have hfly : (w.sys.pc t).InFlight op.side := by simp [hpc, Pc.InFlight]
  have hacq := hp.acquirer t op (by simp [hpc, Pc.pastOp])
  have hext : Extends w.hist (w.afterCommit t op out oh tl).hist :=
    extends_record w.hist t (.committed op (decide (LastCommitter oh tl)) out)
  have hadv : Advance w (w.afterCommit t op out oh tl) t := afterCommit_advance hi
  have hself : (w.afterCommit t op out oh tl).sys.pc t = .returned op 0 out :=
    Function.update_self ..
  have hcommits : (w.afterCommit t op out oh tl).hist.commits
      = Function.update w.hist.commits op.side (w.hist.commits op.side ++ [w.hist.place t]) := rfl
  refine
    { covered := fun s p hlt => ?_, commits_lt := fun s p hm => ?_, commits_nodup := fun s => ?_,
      held := fun s u hu => ?_, side := hp.side, acquirer := fun u o hu => ?_,
      received := ?_, returned := fun u o out' hu => ?_ }
  · rw [mem_afterCommit_commits]
    rcases hp.covered s p hlt with hc | ⟨u, hu, rfl⟩
    · exact Or.inl (Or.inl hc)
    · by_cases hut : u = t
      · subst hut
        refine Or.inl (Or.inr ⟨?_, rfl⟩)
        simpa [hpc, Pc.InFlight] using hu
      · exact Or.inr ⟨u, by rw [hadv.pc u hut]; exact hu, rfl⟩
  · rcases mem_afterCommit_commits.mp hm with hc | ⟨rfl, rfl⟩
    · exact hp.commits_lt s p hc
    · exact (hi.place_range op.side t hfly).2
  · rw [hcommits]
    by_cases hs : s = op.side
    · subst hs
      rw [Function.update_self]
      refine List.nodup_append.mpr ⟨hp.commits_nodup _, List.nodup_singleton _, fun a ha b hb => ?_⟩
      rw [List.mem_singleton.mp hb]
      exact fun he => hp.held _ t hfly (he ▸ ha)
    · rw [Function.update_of_ne hs]
      exact hp.commits_nodup s
  · obtain ⟨hut, hbefore⟩ := afterCommit_inFlight s u hu
    rw [mem_afterCommit_commits, not_or]
    refine ⟨hp.held s u hbefore, ?_⟩
    rintro ⟨rfl, he⟩
    exact hut (hi.place_inj op.side u t hbefore hfly he)
  · by_cases hut : u = t
    · subst hut
      rw [hself] at hu
      cases hu
      exact hacq
    · rw [hadv.pc u hut] at hu
      exact hp.acquirer u o hu
  · have hrec := hp.received
    cases hside : op.side <;>
      simpa [World.afterCommit, Hist.record, hside] using hrec
  · by_cases hut : u = t
    · subst hut
      rw [hself] at hu
      cases hu
      refine ⟨mem_afterCommit_commits.mpr (Or.inr ⟨rfl, rfl⟩), fun hside => ?_⟩
      simp [World.afterCommit, Hist.record, hside]
    · rw [hadv.pc u hut] at hu
      obtain ⟨hc, hr⟩ := hp.returned u o out' hu
      exact ⟨mem_afterCommit_commits.mpr (Or.inl hc), fun hside => hext.received _ (hr hside)⟩

/-- **The step lemma.** -/
theorem PlacesInv.step {variant : τ → CasVariant} {l : τ × Act} (hp : PlacesInv w) (hi : Inv w)
    (h : (worldLts variant).step w l w') : PlacesInv w' := by
  obtain ⟨t, act⟩ := l
  rcases step_kinds hi h with ⟨pc', hq⟩ | ⟨op, ot, hpc, rfl⟩ | ⟨op, out, oh, tl, hpc, _, _, rfl⟩
  · exact hp.quiet hq
  · exact hp.afterAcquire hpc
  · exact hp.afterCommit hi hpc

theorem placesInv_of_reachable {variant : τ → CasVariant} (h : (worldLts variant).Reachable w) :
    PlacesInv w := by
  refine h.invariant (I := PlacesInv) (fun w hw => ?_) fun u l v hr hp hs => ?_
  · cases hw
    exact placesInv_initial
  · exact hp.step (inv_of_reachable hr) hs

end Step

end TiiSel4Vm.RpcQueue

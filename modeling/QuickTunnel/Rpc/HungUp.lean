import QuickTunnel.Rpc.Driver

/-!
# A driver whose caller has hung up

The command channel is closed when its sender is dropped, which is all that
becomes of a `register_connection` that fails or is cancelled behind the
start of its driver; a dropped `ControlSession` sends `Immediate` first.

* `Unasked.step`: without a graceful command nothing is ever sent about
  unregistering.
* `HungUp.run`: behind the hang-up there can be none.
* `HungUp.ends`: the driver's own polls lead it out of its loop.
-/
namespace QuickTunnel.Rpc

/-- Nobody has asked the driver to unregister, and it has not tried to. -/
structure Unasked (s : St) : Prop where
  rx : ∀ grace, s.rx ≠ .sent (.graceful grace)
  pc : ∀ grace, s.pc ≠ .waitAck grace
  queue : Request.unregister ∉ s.queue
  wire : Request.unregister ∉ s.wire

section Unasked
variable {s s' : St}

/-- A change of anything else. -/
theorem Unasked.congr (h : Unasked s) (hrx : s'.rx = s.rx) (hpc : s'.pc = s.pc)
    (hq : s'.queue = s.queue) (hw : s'.wire = s.wire) : Unasked s' :=
  ⟨hrx ▸ h.rx, hpc ▸ h.pc, hq ▸ h.queue, hw ▸ h.wire⟩

theorem report_rx (s : St) (r : Except TunnelError RegistrationDetails) : (s.report r).rx = s.rx := by
  unfold St.report
  split <;> rfl

theorem Unasked.report (h : Unasked s) (r : Except TunnelError RegistrationDetails) :
    Unasked (s.report r) := by
  obtain ⟨hpc, hq, hw, -⟩ := report_fields s r
  exact h.congr (report_rx s r) hpc hq hw

theorem leave_rx (s : St) (kind : Option ShutdownCommand) : (s.leave kind).rx = s.rx := by
  rcases leave_cases s kind with ⟨grace, -, -, he⟩ | he <;> rw [he]

theorem Unasked.leave (h : Unasked s) {kind : Option ShutdownCommand}
    (hk : ∀ grace, kind ≠ some (.graceful grace)) : Unasked (s.leave kind) := by
  rcases leave_cases s kind with ⟨grace, hg, -⟩ | he
  · exact absurd hg (hk grace)
  · rw [he]
    exact ⟨h.rx, nofun, h.queue, h.wire⟩

theorem pollRpc_rx (s : St) (flushed replies : Nat) : (s.pollRpc flushed replies).rx = s.rx := by
  obtain ⟨call, ack, he⟩ := pollRpc_eq s flushed replies
  rw [he]

theorem Unasked.pollRpc (h : Unasked s) (flushed replies : Nat) : Unasked (s.pollRpc flushed replies) := by
  obtain ⟨call, ack, he⟩ := pollRpc_eq s flushed replies
  rw [he]
  refine ⟨h.rx, h.pc, fun hm => h.queue (List.mem_of_mem_drop hm), fun hm => ?_⟩
  rcases List.mem_append.mp hm with hm | hm
  · exact h.wire hm
  · exact h.queue (List.mem_of_mem_take hm)

theorem rpcArm_rx (s : St) : s.rpcArm.rx = s.rx := by
  unfold St.rpcArm
  split
  · rw [leave_rx]
    split
    · rfl
    · rw [report_rx]
  · rfl

theorem Unasked.rpcArm (h : Unasked s) : Unasked s.rpcArm := by
  unfold St.rpcArm
  split
  · refine Unasked.leave ?_ nofun
    split
    · exact h.congr rfl rfl rfl rfl
    · refine Unasked.report ?_ _
      exact h.congr rfl rfl rfl rfl
  · exact h

/-- What the command channel asks for. -/
def Rx.command : Rx → Option ShutdownCommand
  | .sent c => some c
  | _ => none

/-- A poll behind the hang-up hands out what the register call has returned,
or leaves the loop. -/
theorem pollSelect_hungUp (hrx : s.rx ≠ .waiting) (flushed replies : Nat) :
    (∃ r, s.sentDone = false ∧ s.call = some r ∧ s.pollSelect flushed replies =
        { St.report { s with overPolled := s.overPolled || s.callDone } r with
          sentDone := true, callDone := true }) ∨
    ∃ o, s.pollSelect flushed replies =
      St.leave { s with overPolled := o, rxDone := true } s.rx.command := by
  unfold St.pollSelect
  cases hd : s.sentDone with
  | true =>
    refine .inr ⟨s.overPolled || s.rxDone, ?_⟩
    cases hx : s.rx with
    | waiting => exact absurd hx hrx
    | sent c => simp only [if_true, hd, hx, Rx.command]
    | closed => simp only [if_true, hd, hx, Rx.command]
  | false =>
    rw [if_neg Bool.false_ne_true]
    cases hc : s.call with
    | some r => exact .inl ⟨r, rfl, rfl, rfl⟩
    | none =>
      refine .inr ⟨(s.overPolled || s.callDone) || s.rxDone, ?_⟩
      cases hx : s.rx with
      | waiting => exact absurd hx hrx
      | sent c => simp only [Rx.command]
      | closed => simp only [Rx.command]

theorem pollSelect_rx (s : St) (flushed replies : Nat) : (s.pollSelect flushed replies).rx = s.rx := by
  by_cases hrx : s.rx = .waiting
  · rcases pollSelect_waiting hrx flushed replies with ⟨r, -, -, he⟩ | ⟨o, he⟩
    · rw [he]
      exact report_rx _ r
    · rw [he, rpcArm_rx, pollRpc_rx]
  · rcases pollSelect_hungUp hrx flushed replies with ⟨r, -, -, he⟩ | ⟨o, he⟩
    · rw [he]
      exact report_rx _ r
    · rw [he, leave_rx]

theorem Unasked.pollSelect (h : Unasked s) (flushed replies : Nat) :
    Unasked (s.pollSelect flushed replies) := by
  by_cases hrx : s.rx = .waiting
  · rcases pollSelect_waiting hrx flushed replies with ⟨r, -, -, he⟩ | ⟨o, he⟩
    · rw [he]
      have hr : Unasked (St.report { s with overPolled := s.overPolled || s.callDone } r) := by
        refine Unasked.report ?_ r
        exact h.congr rfl rfl rfl rfl
      exact hr.congr rfl rfl rfl rfl
    · rw [he]
      refine Unasked.rpcArm (Unasked.pollRpc ?_ flushed replies)
      exact h.congr rfl rfl rfl rfl
  · rcases pollSelect_hungUp hrx flushed replies with ⟨r, -, -, he⟩ | ⟨o, he⟩
    · rw [he]
      have hr : Unasked (St.report { s with overPolled := s.overPolled || s.callDone } r) := by
        refine Unasked.report ?_ r
        exact h.congr rfl rfl rfl rfl
      exact hr.congr rfl rfl rfl rfl
    · rw [he]
      refine Unasked.leave ?_ ?_
      · exact h.congr rfl rfl rfl rfl
      intro grace hg
      cases hx : s.rx with
      | sent c =>
        rw [hx] at hg
        cases hg
        exact h.rx grace hx
      | _ =>
        rw [hx] at hg
        cases hg

/-- **Without a graceful command the driver never unregisters.** -/
theorem Unasked.step {l : Label} (h : Unasked s) (hl : ∀ grace, l ≠ .command (.graceful grace))
    (hs : Rpc.step s l = some s') : Unasked s' := by
  cases l with
  | poll flushed replies =>
    simp only [Rpc.step] at hs
    split at hs
    · cases hs
      exact h.pollSelect flushed replies
    · rename_i hpc
      exact absurd hpc (h.pc _)
    · cases hs
  | expire =>
    simp only [Rpc.step] at hs
    split at hs <;> cases hs
    exact ⟨h.rx, by simp, h.queue, h.wire⟩
  | command c =>
    simp only [Rpc.step] at hs
    split at hs <;> cases hs
    refine ⟨?_, h.pc, h.queue, h.wire⟩
    intro grace hg
    cases hg
    exact hl grace rfl
  | dropSender =>
    simp only [Rpc.step] at hs
    split at hs <;> cases hs
    exact ⟨by simp, h.pc, h.queue, h.wire⟩
  | reply r =>
    simp only [Rpc.step] at hs
    split at hs <;> cases hs
    exact h.congr rfl rfl rfl rfl
  | endStream =>
    cases hs
    exact h.congr rfl rfl rfl rfl

end Unasked

/-- The caller has gone, without asking for anything. -/
structure HungUp (s : St) : Prop where
  rx : s.rx ≠ .waiting
  unasked : Unasked s

section HungUp
variable {s s' : St}

theorem HungUp.step {l : Label} (h : HungUp s) (hs : Rpc.step s l = some s') : HungUp s' := by
  have hcommand : ∀ c, l ≠ .command c := by
    intro c heq
    subst heq
    simp only [Rpc.step, if_neg h.rx, reduceCtorEq] at hs
  refine ⟨?_, h.unasked.step (fun grace => hcommand _) hs⟩
  cases l with
  | poll flushed replies =>
    simp only [Rpc.step] at hs
    split at hs
    · cases hs
      rw [pollSelect_rx]
      exact h.rx
    · split at hs <;> cases hs
      exact h.rx
    · cases hs
  | expire =>
    simp only [Rpc.step] at hs
    split at hs <;> cases hs
    exact h.rx
  | command c => exact absurd rfl (hcommand c)
  | dropSender => simp only [Rpc.step, if_neg h.rx, reduceCtorEq] at hs
  | reply r =>
    simp only [Rpc.step] at hs
    split at hs <;> cases hs
    exact h.rx
  | endStream =>
    cases hs
    exact h.rx

/-- Whatever happens from then on. -/
theorem HungUp.run {ls : List Label} (h : HungUp s) (hr : driver.Run s ls s') : HungUp s' :=
  hr.preserves (fun _ _ _ hi hs => hi.step hs) h

/-- **It leaves its loop**, in one poll, or in two where the result of the
register call is still to be handed out. -/
theorem HungUp.ends (h : HungUp s) : driver.Inevitable Own (fun t => t.pc = .ended) s := by
  refine LTS.inevitable_of_measure (M := driver) (I := HungUp) (fun s => if s.sentDone then 0 else 1)
    ?_ ?_ h
  · intro s hi
    cases hpc : s.pc with
    | select =>
      refine .inr ⟨.poll 0 0, s.pollSelect 0 0, trivial, ?_⟩
      simp only [driver, LTS.ofFn, Rpc.step, hpc]
    | waitAck grace => exact absurd hpc (hi.unasked.pc grace)
    | ended => exact .inl rfl
  · intro s l s' hi ho hs
    cases l with
    | poll flushed replies =>
      simp only [driver, LTS.ofFn, Rpc.step] at hs
      split at hs
      · cases hs
        have hi' : HungUp (s.pollSelect flushed replies) :=
          ⟨by rw [pollSelect_rx]; exact hi.rx, hi.unasked.pollSelect flushed replies⟩
        rcases pollSelect_hungUp hi.rx flushed replies with ⟨r, hd, -, he⟩ | ⟨o, he⟩
        · refine .inr ⟨hi', ?_⟩
          rw [he, hd]
          simp
        · left
          rw [he]
          rcases leave_cases { s with overPolled := o, rxDone := true } s.rx.command with
            ⟨grace, hg, -⟩ | hl
          · cases hx : s.rx with
            | sent c =>
              rw [hx] at hg
              cases hg
              exact absurd hx (hi.unasked.rx grace)
            | _ =>
              rw [hx] at hg
              cases hg
          · rw [hl]
      · rename_i grace hpc
        exact absurd hpc (hi.unasked.pc grace)
      · cases hs
    | expire =>
      simp only [driver, LTS.ofFn, Rpc.step] at hs
      split at hs <;> cases hs
      exact .inl rfl
    | _ => cases ho

end HungUp
end QuickTunnel.Rpc

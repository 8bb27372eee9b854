import QuickTunnel.Core.LTS
import QuickTunnel.Error
import QuickTunnel.Core.Bytes

/-!
# The control-stream driver

`register_connection` runs the RPC system on a thread of its own: a biased
`select!` over the register call, the command channel and the RPC system,
then the graceful unregister. The capnp-rpc crate is modelled by what the
driver relies on: `send()` queues a message, and only polling the
`RpcSystem` writes queued messages to the control stream and reads replies.

* `quiet_reachable`: no reachable state has the unregister request on the
  wire, or its acknowledgement read.
* `ends_unsent`: from the moment a graceful command has been sent behind a
  finished register call, the driver ends without either.
* `unregister_never_sent`: so the edge is never told.
-/
namespace QuickTunnel.Rpc

/-- mirrors src/rpc.rs:117-122 -/
structure RegistrationDetails where
  uuid : Bytes
  location : Bytes
  tunnelIsRemotelyManaged : Bool
  deriving DecidableEq, Repr

/-- mirrors src/rpc.rs:141-147; the grace in milliseconds -/
inductive ShutdownCommand
  | immediate
  | graceful (grace : Nat)
  deriving DecidableEq, Repr

/-- What the driver sends on the control stream. -/
inductive Request
  | bootstrap
  | register
  | unregister
  deriving DecidableEq, Repr

/-- What the edge answers: the register call, as `decode_connection_response`
reads it, and the unregister call. -/
inductive Reply
  | registered (r : Except TunnelError RegistrationDetails)
  | unregistered

/-- The receiving end of the command channel. -/
inductive Rx
  | waiting
  | sent (c : ShutdownCommand)
  | closed
  deriving DecidableEq, Repr

/-- The awaits of the driver: the `select!`, the wait for the
acknowledgement, the end of the thread. -/
inductive Pc
  | select
  | waitAck (grace : Nat)
  | ended
  deriving DecidableEq, Repr

/-- `queue`: sent, not yet written; `wire`: written to the control stream;
`arrived`: on the stream, not yet read. `call` and `ack` are the resolved
promises. `results` is what went out on `done_tx`. The three `Done` flags
and `overPolled` (a finished future was polled again) are ghosts. -/
structure St where
  pc : Pc := .select
  queue : List Request := [.bootstrap, .register]
  wire : List Request := []
  arrived : List Reply := []
  streamEnded : Bool := false
  call : Option (Except TunnelError RegistrationDetails) := none
  ack : Bool := false
  sentDone : Bool := false
  doneTx : Bool := true
  results : List (Except TunnelError RegistrationDetails) := []
  rx : Rx := .waiting
  kind : Option ShutdownCommand := none
  driverDone : Bool := false
  callDone : Bool := false
  rxDone : Bool := false
  rpcDone : Bool := false
  overPolled : Bool := false

/-- `done_tx.take()` and `send`. -/
def St.report (s : St) (r : Except TunnelError RegistrationDetails) : St :=
  if s.doneTx then { s with doneTx := false, results := s.results ++ [r] } else s

/-- Behind the loop: queue the unregister request and wait, or end.
mirrors src/rpc.rs:313-323 -/
def St.leave (s : St) (kind : Option ShutdownCommand) : St :=
  match kind with
  | some (.graceful grace) =>
    if s.sentDone then { s with kind := kind, queue := s.queue ++ [.unregister], pc := .waitAck grace }
    else { s with kind := kind, pc := .ended, driverDone := true }
  | _ => { s with kind := kind, pc := .ended, driverDone := true }

/-- One reply read off the stream. -/
def St.receive (s : St) : Reply → St
  | .registered r => { s with call := s.call <|> some r }
  | .unregistered => { s with ack := true }

/-- Polling the RPC system writes `flushed` queued messages and reads
`replies` arrived ones. -/
def St.pollRpc (s : St) (flushed replies : Nat) : St :=
  (s.arrived.take replies).foldl St.receive
    { s with
      overPolled := s.overPolled || s.rpcDone
      queue := s.queue.drop flushed
      wire := s.wire ++ s.queue.take flushed
      arrived := s.arrived.drop replies }

/-- The RPC system has terminated when the stream has ended and all of it is
read. mirrors src/rpc.rs:296-305 -/
def St.rpcArm (s : St) : St :=
  if s.streamEnded ∧ s.arrived = [] then
    let s := { s with rpcDone := true }
    let s := if s.sentDone then s else
      s.report (.error (.register "RPC system terminated before call completed"))
    s.leave none
  else s

/-- One poll of the `select!`; its arms in order, the first ready one taken.
mirrors src/rpc.rs:279-305 -/
def St.pollSelect (s : St) (flushed replies : Nat) : St :=
  let s := if s.sentDone then s else { s with overPolled := s.overPolled || s.callDone }
  match s.sentDone, s.call with
  | false, some r => { s.report r with sentDone := true, callDone := true }
  | _, _ =>
    let s := { s with overPolled := s.overPolled || s.rxDone }
    match s.rx with
    | .sent c => { s with rxDone := true }.leave (some c)
    | .closed => { s with rxDone := true }.leave none
    | .waiting => (s.pollRpc flushed replies).rpcArm

/-- `poll`: the driver's thread polls the future it is at; `expire`: the
grace has passed; the rest is the caller (`command`, `dropSender`) and the
edge (`reply`, `endStream`). -/
inductive Label
  | poll (flushed replies : Nat)
  | expire
  | command (c : ShutdownCommand)
  | dropSender
  | reply (r : Reply)
  | endStream

/-- The edge answers what it has received. -/
def answerable (s : St) : Reply → Bool
  | .registered _ => s.wire.contains .register
  | .unregistered => s.wire.contains .unregister

/-- mirrors src/rpc.rs:278-323; a poll of the wait that finds the promise
unresolved changes nothing and is left out -/
def step (s : St) : Label → Option St
  | .poll flushed replies =>
    match s.pc with
    | .select => some (s.pollSelect flushed replies)
    | .waitAck _ => if s.ack then some { s with pc := .ended, driverDone := true } else none
    | .ended => none
  | .expire =>
    match s.pc with
    | .waitAck _ => some { s with pc := .ended, driverDone := true }
    | _ => none
  | .command c => if s.rx = .waiting then some { s with rx := .sent c } else none
  | .dropSender => if s.rx = .waiting then some { s with rx := .closed } else none
  | .reply r => if s.streamEnded = false ∧ answerable s r = true then
      some { s with arrived := s.arrived ++ [r] } else none
  | .endStream => some { s with streamEnded := true }

def driver : LTS St Label := LTS.ofFn (· = {}) step

/-! ## Field lemmas -/

/-- Reporting changes nothing but the result channel. -/
theorem report_fields (s : St) (r : Except TunnelError RegistrationDetails) :
    (s.report r).pc = s.pc ∧ (s.report r).queue = s.queue ∧ (s.report r).wire = s.wire ∧
      (s.report r).arrived = s.arrived ∧ (s.report r).ack = s.ack ∧ (s.report r).kind = s.kind := by
  unfold St.report
  split <;> exact ⟨rfl, rfl, rfl, rfl, rfl, rfl⟩

/-- Reading replies changes nothing but the promises. -/
theorem receive_eq (rs : List Reply) (s : St) :
    ∃ call ack, rs.foldl St.receive s = { s with call, ack } := by
  induction rs generalizing s with
  | nil => exact ⟨s.call, s.ack, rfl⟩
  | cons r rs ih =>
    obtain ⟨call, ack, h⟩ := ih (s.receive r)
    rw [List.foldl_cons, h]
    cases r <;> exact ⟨call, ack, rfl⟩

theorem receive_ack {rs : List Reply} (h : ∀ r ∈ rs, r ≠ .unregistered) (s : St) :
    (rs.foldl St.receive s).ack = s.ack := by
  induction rs generalizing s with
  | nil => rfl
  | cons r rs ih =>
    rw [List.foldl_cons, ih fun x hx => h x (List.mem_cons_of_mem _ hx)]
    cases r with
    | registered r => rfl
    | unregistered => exact absurd rfl (h _ List.mem_cons_self)

/-- Polling the RPC system touches the queue, the stream and the promises. -/
theorem pollRpc_eq (s : St) (flushed replies : Nat) :
    ∃ call ack, s.pollRpc flushed replies =
      { s with
        overPolled := s.overPolled || s.rpcDone
        queue := s.queue.drop flushed
        wire := s.wire ++ s.queue.take flushed
        arrived := s.arrived.drop replies
        call := call
        ack := ack } := by
  obtain ⟨call, ack, h⟩ := receive_eq (s.arrived.take replies)
    { s with
      overPolled := s.overPolled || s.rpcDone
      queue := s.queue.drop flushed
      wire := s.wire ++ s.queue.take flushed
      arrived := s.arrived.drop replies }
  exact ⟨call, ack, h⟩

/-- Behind the loop the driver waits for the acknowledgement or has ended. -/
theorem leave_cases (s : St) (kind : Option ShutdownCommand) :
    (∃ grace, kind = some (.graceful grace) ∧ s.sentDone = true ∧
      s.leave kind = { s with kind := kind, queue := s.queue ++ [.unregister], pc := .waitAck grace }) ∨
    s.leave kind = { s with kind := kind, pc := .ended, driverDone := true } := by
  unfold St.leave
  split
  · split
    · rename_i grace h
      exact .inl ⟨grace, rfl, h, rfl⟩
    · exact .inr rfl
  · exact .inr rfl

/-! ## The loop while nobody asks -/

/-- Details have gone out on `done_tx`. -/
def St.handedOut (s : St) : Bool := s.results.any Except.toBool

section Waiting
variable {s : St}

/-- The RPC arm with the channel silent. -/
theorem rpcArm_waiting {t : St} (hpc : t.pc = .select) (hrx : t.rx = .waiting) :
    t.rpcArm.rx = .waiting ∧ t.rpcArm.sentDone = t.sentDone ∧ t.rpcArm.handedOut = t.handedOut ∧
      (t.rpcArm.pc = .select ∧ ¬ (t.streamEnded = true ∧ t.arrived = []) ∨
        t.rpcArm.pc = .ended ∧ t.streamEnded = true ∧ t.arrived = []) := by
  unfold St.rpcArm
  by_cases hend : t.streamEnded = true ∧ t.arrived = []
  · rw [if_pos hend]
    cases hd : t.sentDone with
    | true => exact ⟨hrx, rfl, rfl, .inr ⟨rfl, hend⟩⟩
    | false =>
      simp only [Bool.false_eq_true, if_false, St.report]
      split
      · exact ⟨hrx, rfl, by simp [St.handedOut, St.leave, Except.toBool], .inr ⟨rfl, hend⟩⟩
      · exact ⟨hrx, rfl, rfl, .inr ⟨rfl, hend⟩⟩
  · rw [if_neg hend]
    exact ⟨hrx, rfl, rfl, .inl ⟨hpc, hend⟩⟩

/-- A poll with the command channel silent hands out what the register call
has returned, or polls the RPC system. -/
theorem pollSelect_waiting (hrx : s.rx = .waiting) (flushed replies : Nat) :
    (∃ r, s.sentDone = false ∧ s.call = some r ∧ s.pollSelect flushed replies =
        { St.report { s with overPolled := s.overPolled || s.callDone } r with
          sentDone := true, callDone := true }) ∨
    ∃ o, s.pollSelect flushed replies = (St.pollRpc { s with overPolled := o } flushed replies).rpcArm := by
  unfold St.pollSelect
  cases hd : s.sentDone with
  | true =>
    refine .inr ⟨s.overPolled || s.rxDone, ?_⟩
    simp only [if_true, hd, hrx]
  | false =>
    rw [if_neg Bool.false_ne_true]
    cases hc : s.call with
    | some r => exact .inl ⟨r, rfl, rfl, rfl⟩
    | none =>
      refine .inr ⟨(s.overPolled || s.callDone) || s.rxDone, ?_⟩
      simp only [hrx]

/-- The driver of a session nobody has asked to end. -/
structure Silent (s : St) : Prop where
  rx : s.rx = .waiting
  pc : s.pc = .select ∨ s.pc = .ended
  sent : s.handedOut = true → s.sentDone = true

/-- The poll that finds the stream ended and everything on it read, with
the details handed out. -/
def St.outlived (s : St) (replies : Nat) : Bool :=
  s.handedOut && s.pc == .select && s.streamEnded && decide (s.arrived.length ≤ replies)

/-- **A poll with the command channel silent** ends a driver that has handed
out details exactly when it finds the stream ended. -/
theorem Silent.poll (h : Silent s) (flushed replies : Nat) (hpc : s.pc = .select) :
    Silent (s.pollSelect flushed replies) ∧
      (s.handedOut = true → (s.pollSelect flushed replies).handedOut = true) ∧
      ((s.pollSelect flushed replies).handedOut = true ∧ (s.pollSelect flushed replies).pc = .ended ↔
        s.outlived replies = true) := by
  simp only [St.outlived, Bool.and_eq_true, beq_iff_eq, decide_eq_true_eq]
  rcases pollSelect_waiting h.rx flushed replies with
    ⟨r, hd, -, he⟩ | ⟨o, he⟩
  · have hpc' := (report_fields { s with overPolled := s.overPolled || s.callDone } r).1.trans hpc
    have hnot : ¬ s.handedOut = true := fun ho => by
      rw [h.sent ho] at hd
      cases hd
    rw [he]
    refine ⟨⟨?_, .inl hpc', fun _ => rfl⟩, fun ho => absurd ho hnot, ?_, fun ho => absurd ho.1.1.1 hnot⟩
    · unfold St.report
      split <;> exact h.rx
    · intro hboth
      obtain ⟨-, hended⟩ := hboth
      simp only [hpc', reduceCtorEq] at hended
  · rw [he]
    obtain ⟨call, ack, ht⟩ := pollRpc_eq { s with overPolled := o } flushed replies
    have hread : (St.pollRpc { s with overPolled := o } flushed replies).arrived = [] ↔
        s.arrived.length ≤ replies := by
      rw [ht]
      exact List.drop_eq_nil_iff
    obtain ⟨hrx, hd, ho, hend⟩ := rpcArm_waiting
      (t := St.pollRpc { s with overPolled := o } flushed replies)
      (by rw [ht]; exact hpc) (by rw [ht]; exact h.rx)
    rw [hread] at hend
    generalize (St.pollRpc { s with overPolled := o } flushed replies).rpcArm = u at hrx hd ho hend ⊢
    rw [ht] at hd ho hend
    have hsent : u.handedOut = true → u.sentDone = true := fun hu => hd.trans (h.sent (ho.symm.trans hu))
    rcases hend with ⟨hsel, hne⟩ | ⟨hended, hs, hlen⟩
    · refine ⟨⟨hrx, .inl hsel, hsent⟩, fun hu => ho.trans hu, ?_, ?_⟩
      · intro hboth
        obtain ⟨-, hended⟩ := hboth
        rw [hsel] at hended
        cases hended
      · intro hboth
        obtain ⟨⟨-, hs⟩, hlen⟩ := hboth
        exact absurd ⟨hs, hlen⟩ hne
    · refine ⟨⟨hrx, .inr hended, hsent⟩, fun hu => ho.trans hu, ?_, ?_⟩
      · intro hboth
        obtain ⟨hu, -⟩ := hboth
        exact ⟨⟨⟨ho.symm.trans hu, hpc⟩, hs⟩, hlen⟩
      · intro hboth
        obtain ⟨⟨⟨hu, -⟩, -⟩, -⟩ := hboth
        exact ⟨ho.trans hu, hended⟩

end Waiting

/-! ## Nothing about unregistering is ever on the stream -/

/-- While the loop runs nobody has asked; behind it nothing is written. -/
structure Quiet (s : St) : Prop where
  wire : Request.unregister ∉ s.wire
  arrived : ∀ r ∈ s.arrived, r ≠ .unregistered
  ack : s.ack = false
  queue : s.pc = .select → Request.unregister ∉ s.queue
  kind : s.pc = .select → s.kind = none

section Quiet
variable {s s' : St}

theorem Quiet.report (h : Quiet s) (r : Except TunnelError RegistrationDetails) :
    Quiet (s.report r) := by
  obtain ⟨h₁, h₂, h₃, h₄, h₅, h₆⟩ := report_fields s r
  exact ⟨h₃ ▸ h.wire, h₄ ▸ h.arrived, h₅ ▸ h.ack, by rw [h₁, h₂]; exact h.queue,
    by rw [h₁, h₆]; exact h.kind⟩

theorem Quiet.leave (h : Quiet s) (kind : Option ShutdownCommand) : Quiet (s.leave kind) := by
  rcases leave_cases s kind with ⟨grace, -, -, he⟩ | he
  · rw [he]
    exact ⟨h.wire, h.arrived, h.ack, nofun, nofun⟩
  · rw [he]
    exact ⟨h.wire, h.arrived, h.ack, nofun, nofun⟩

theorem Quiet.pollRpc (h : Quiet s) (hpc : s.pc = .select) (flushed replies : Nat) :
    Quiet (s.pollRpc flushed replies) := by
  have hq := h.queue hpc
  have hack : (s.pollRpc flushed replies).ack = s.ack :=
    receive_ack (fun r hr => h.arrived r (List.mem_of_mem_take hr)) _
  obtain ⟨call, ack, he⟩ := pollRpc_eq s flushed replies
  rw [he] at hack ⊢
  refine ⟨?_, ?_, hack.trans h.ack, ?_, h.kind⟩
  · simp only [List.mem_append, not_or]
    exact ⟨h.wire, fun hm => hq (List.mem_of_mem_take hm)⟩
  · exact fun r hr => h.arrived r (List.mem_of_mem_drop hr)
  · exact fun _ hm => hq (List.mem_of_mem_drop hm)

/-- A change of the ghosts and of the flags of the select only. -/
theorem Quiet.congr (h : Quiet s) (hpc : s'.pc = s.pc) (hq : s'.queue = s.queue)
    (hw : s'.wire = s.wire) (ha : s'.arrived = s.arrived) (hk : s'.ack = s.ack)
    (hkind : s'.kind = s.kind) : Quiet s' :=
  ⟨hw ▸ h.wire, ha ▸ h.arrived, hk ▸ h.ack, by rw [hpc, hq]; exact h.queue,
    by rw [hpc, hkind]; exact h.kind⟩

theorem Quiet.rpcArm (h : Quiet s) : Quiet s.rpcArm := by
  unfold St.rpcArm
  split
  · refine Quiet.leave ?_ _
    split
    · exact h.congr rfl rfl rfl rfl rfl rfl
    · refine Quiet.report ?_ _
      exact h.congr rfl rfl rfl rfl rfl rfl
  · exact h

theorem Quiet.pollSelect (h : Quiet s) (hpc : s.pc = .select) (flushed replies : Nat) :
    Quiet (s.pollSelect flushed replies) := by
  unfold St.pollSelect
  have h₁ : Quiet (if s.sentDone then s else { s with overPolled := s.overPolled || s.callDone }) ∧
      (if s.sentDone then s else { s with overPolled := s.overPolled || s.callDone }).pc = .select := by
    split
    · exact ⟨h, hpc⟩
    · exact ⟨h.congr rfl rfl rfl rfl rfl rfl, hpc⟩
  generalize (if s.sentDone then s else { s with overPolled := s.overPolled || s.callDone }) = t at h₁
  obtain ⟨h₁, hpc₁⟩ := h₁
  simp only
  split
  · rename_i r _ _
    exact (h₁.report r).congr rfl rfl rfl rfl rfl rfl
  · split
    · refine Quiet.leave ?_ _
      exact h₁.congr rfl rfl rfl rfl rfl rfl
    · refine Quiet.leave ?_ _
      exact h₁.congr rfl rfl rfl rfl rfl rfl
    · apply Quiet.rpcArm
      exact Quiet.pollRpc (s := { t with overPolled := t.overPolled || t.rxDone })
        (h₁.congr rfl rfl rfl rfl rfl rfl) hpc₁ flushed replies

theorem Quiet.step {l : Label} (h : Quiet s) (hs : Rpc.step s l = some s') : Quiet s' := by
  cases l with
  | poll flushed replies =>
    simp only [Rpc.step] at hs
    split at hs
    · rename_i hpc
      cases hs
      exact h.pollSelect hpc flushed replies
    · rw [h.ack] at hs
      cases hs
    · cases hs
  | expire =>
    simp only [Rpc.step] at hs
    split at hs <;> cases hs
    exact ⟨h.wire, h.arrived, h.ack, nofun, nofun⟩
  | command c =>
    simp only [Rpc.step] at hs
    split at hs <;> cases hs
    exact h.congr rfl rfl rfl rfl rfl rfl
  | dropSender =>
    simp only [Rpc.step] at hs
    split at hs <;> cases hs
    exact h.congr rfl rfl rfl rfl rfl rfl
  | reply r =>
    simp only [Rpc.step] at hs
    split at hs
    · rename_i hr
      cases hs
      refine ⟨h.wire, fun x hx => ?_, h.ack, h.queue, h.kind⟩
      rcases List.mem_append.mp hx with hx | hx
      · exact h.arrived x hx
      · rw [List.mem_singleton.mp hx]
        intro heq
        subst heq
        exact h.wire (by simpa [answerable] using hr.2)
    · cases hs
  | endStream =>
    cases hs
    exact h.congr rfl rfl rfl rfl rfl rfl

theorem quiet_reachable (h : driver.Reachable s) : Quiet s := by
  refine LTS.Inductive.reachable (M := driver) ⟨?_, ?_⟩ h
  · intro s heq
    subst heq
    exact ⟨by simp, by simp, rfl, by simp, fun _ => rfl⟩
  · exact fun s l s' hi hs => hi.step hs

end Quiet

/-! ## Graceful shutdown -/

/-- `shutdown_graceful(grace)` has been called: the command waits to be
taken, or has been. -/
def GracefulSent (s : St) (grace : Nat) : Prop :=
  (s.pc = .select ∧ s.rx = .sent (.graceful grace)) ∨ s.kind = some (.graceful grace)

/-- The register call has completed and its details have been handed out. -/
def Registered (s : St) : Prop := s.sentDone = true ∧ ∃ d, Except.ok d ∈ s.results

/-- From here on the driver ends only with the request on the wire, and
waits for the reply only where a reply can still end the wait. -/
structure TellsEdge (s : St) : Prop where
  written : ∀ ls t, driver.Run s ls t → t.pc = .ended → Request.unregister ∈ t.wire
  awaited : ∀ ls t grace, driver.Run s ls t → t.pc = .waitAck grace →
    ∃ ms u, driver.Run t ms u ∧ Label.expire ∉ ms ∧ u.pc = .ended

/-- The driver's own steps. -/
def Own (_ : St) : Label → Prop
  | .poll _ _ | .expire => True
  | _ => False

section Graceful
variable {s s' : St} {grace : Nat}

/-- The next poll takes the command. -/
theorem graceful_taken (hpc : s.pc = .select) (hd : s.sentDone = true)
    (hrx : s.rx = .sent (.graceful grace)) (flushed replies : Nat) :
    ∃ t, step s (.poll flushed replies) = some t ∧ t.pc = .waitAck grace ∧ t.wire = s.wire := by
  refine ⟨_, by rw [step, hpc], ?_, ?_⟩
  · simp [St.pollSelect, hd, hrx, St.leave]
  · simp [St.pollSelect, hd, hrx, St.leave]

/-- Without the timer the wait has no end. -/
theorem waits_forever {g : Nat} (hs : driver.Reachable s) (hpc : s.pc = .waitAck g) {ls : List Label}
    (hrun : driver.Run s ls s') (hne : Label.expire ∉ ls) : s'.pc = .waitAck g := by
  induction hrun with
  | nil s => exact hpc
  | @cons s s₁ s' l ls hst _ ih =>
    rw [List.mem_cons, not_or] at hne
    refine ih (hs.step hst) ?_ hne.2
    have hq := quiet_reachable hs
    cases l with
    | poll flushed replies => simp [driver, LTS.ofFn, step, hpc, hq.ack] at hst
    | expire => exact absurd rfl hne.1
    | command c =>
      simp only [driver, LTS.ofFn, step] at hst
      split at hst <;> cases hst
      exact hpc
    | dropSender =>
      simp only [driver, LTS.ofFn, step] at hst
      split at hst <;> cases hst
      exact hpc
    | reply r =>
      simp only [driver, LTS.ofFn, step] at hst
      split at hst <;> cases hst
      exact hpc
    | endStream =>
      cases hst
      exact hpc

/-- The driver ends with the request unwritten. -/
theorem ends_unsent (hs : driver.Reachable s) (hreg : Registered s) (hg : GracefulSent s grace) :
    driver.Inevitable Own (fun t => t.pc = .ended ∧ Request.unregister ∉ t.wire) s := by
  -- at the wait only the timer can fire
  have hwait : ∀ {t g}, driver.Reachable t → t.pc = .waitAck g →
      driver.Inevitable Own (fun t => t.pc = .ended ∧ Request.unregister ∉ t.wire) t := by
    intro t g ht hpc
    have hq := quiet_reachable ht
    have hexp : step t .expire = some { t with pc := .ended, driverDone := true } := by
      simp [step, hpc]
    refine .next (l := .expire) trivial hexp ?_
    · intro l u ho hst
      cases l with
      | poll flushed replies => simp [driver, LTS.ofFn, step, hpc, hq.ack] at hst
      | expire =>
        simp only [driver, LTS.ofFn, step, hpc, Option.some.injEq] at hst
        subst hst
        exact .now ⟨rfl, hq.wire⟩
      | _ => cases ho
  have hq := quiet_reachable hs
  cases hpc : s.pc with
  | waitAck g => exact hwait hs hpc
  | ended => exact .now ⟨hpc, hq.wire⟩
  | select =>
    have hrx : s.rx = .sent (.graceful grace) := by
      rcases hg with ⟨-, hrx⟩ | hk
      · exact hrx
      · rw [hq.kind hpc] at hk
        cases hk
    obtain ⟨t, ht, -⟩ := graceful_taken hpc hreg.1 hrx 0 0
    refine .next (l := .poll 0 0) trivial ht ?_
    intro l u ho hst
    cases l with
    | poll flushed replies =>
      obtain ⟨t, ht, htpc, -⟩ := graceful_taken hpc hreg.1 hrx flushed replies
      obtain rfl : t = u := Option.some.inj (ht.symm.trans hst)
      exact hwait (hs.step hst) htpc
    | expire => simp [driver, LTS.ofFn, step, hpc] at hst
    | _ => cases ho

/-- **The edge is never told**: in no run does a graceful shutdown behind a
successful registration transmit `unregisterConnection`. -/
theorem unregister_never_sent (hs : driver.Reachable s) (hreg : Registered s)
    (hg : GracefulSent s grace) : ¬ TellsEdge s := by
  intro htell
  have hq := quiet_reachable hs
  have hwait : ∀ {ls t g}, driver.Run s ls t → t.pc = .waitAck g → False := by
    intro ls t g hrun hpc
    obtain ⟨ms, u, hrun', hne, hu⟩ := htell.awaited ls t g hrun hpc
    have := waits_forever (hs.run hrun) hpc hrun' hne
    rw [hu] at this
    cases this
  cases hpc : s.pc with
  | waitAck g => exact hwait (.nil s) hpc
  | ended => exact hq.wire (htell.written [] s (.nil s) hpc)
  | select =>
    have hrx : s.rx = .sent (.graceful grace) := by
      rcases hg with ⟨-, hrx⟩ | hk
      · exact hrx
      · rw [hq.kind hpc] at hk
        cases hk
    obtain ⟨t, ht, htpc, -⟩ := graceful_taken hpc hreg.1 hrx 0 0
    exact hwait (.single ht) htpc

end Graceful

/-- The register call completes, then a graceful command is sent. -/
def registeredRun (d : RegistrationDetails) (grace : Nat) : List Label :=
  [.poll 2 0, .reply (.registered (.ok d)), .poll 0 1, .poll 0 0, .command (.graceful grace)]

def pop : RegistrationDetails := ⟨[0], ascii "bog01", false⟩

theorem registered_of_toBool {s : St} (hd : s.sentDone = true)
    (h : s.results.any Except.toBool = true) : Registered s := by
  obtain ⟨r, hr, hok⟩ := List.any_eq_true.mp h
  cases r with
  | ok d => exact ⟨hd, d, hr⟩
  | error e => cases hok

/-- A registered session that is shut down gracefully, on a healthy stream. -/
theorem graceful_session (grace : Nat) : ∃ s, driver.Reachable s ∧ Registered s ∧
    GracefulSent s grace ∧ s.streamEnded = false := by
  have hs := LTS.reachable_of_exec step {} (registeredRun pop grace) rfl
  exact ⟨_, hs, registered_of_toBool rfl rfl, .inl ⟨rfl, rfl⟩, rfl⟩

theorem five_second_grace : ∃ s, driver.Reachable s ∧ GracefulSent s 5000 ∧ ¬ TellsEdge s := by
  obtain ⟨s, hs, hreg, hg, -⟩ := graceful_session 5000
  exact ⟨s, hs, hg, unregister_never_sent hs hreg hg⟩

/-- The same run ends without the request on the wire. -/
theorem five_second_grace_unsent : ∃ s t ls, driver.Reachable s ∧ Registered s ∧
    GracefulSent s 5000 ∧ s.streamEnded = false ∧ driver.Run s ls t ∧ t.pc = .ended ∧
    Request.unregister ∉ t.wire := by
  have hs := LTS.reachable_of_exec step {} (registeredRun pop 5000) rfl
  refine ⟨_, _, [.poll 9 9, .expire], hs, registered_of_toBool rfl rfl, .inl ⟨rfl, rfl⟩, rfl,
    LTS.run_of_exec rfl, rfl, by decide⟩

end QuickTunnel.Rpc

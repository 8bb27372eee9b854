import QuickTunnel.Manager.Reconnect
import QuickTunnel.Edge
import QuickTunnel.Rpc.HungUp

/-!
# `start()` and its deadline

`start` runs `start_inner` under `discovery_timeout`: at any of its awaits
the deadline can drop it. From `register_connection` on it owns a driver
thread through the sending end of the driver's command channel, and through
nothing else; behind the driver's reply there is no further await.

The driver is the one of `Rpc.Driver`. It runs on, whatever becomes of
`start`.

* `owns_step`: what `start` owns, await by await.
* `all_or_nothing`: an error leaves no task behind and no driver that would
  unregister; success leaves a task for every leg.
-/
namespace QuickTunnel.Manager.Start

open Rpc (RegistrationDetails)

/-- `QuickTunnel`, as far as `start_inner` reads it. mirrors src/api.rs:33-42 -/
structure Tunnel where
  id : Bytes
  hostname : Bytes
  accountTag : Bytes
  deriving DecidableEq, Repr

/-- `reactors`: the `conn_index` of each task spawned. -/
structure QuickTunnelHandle where
  url : Bytes
  tunnelId : Bytes
  accountTag : Bytes
  location : Bytes
  reactors : List UInt8
  deriving DecidableEq, Repr

/-- What `thread::Builder::spawn` comes to. A thread whose runtime cannot be
built panics at once. -/
inductive Spawn
  | failed (e : String)
  | running
  | panicked
  deriving DecidableEq, Repr

/-- The awaits of `start_inner`. -/
inductive Pc
  | requestTunnel
  | discover (tunnel : Tunnel) (tunnelId : Bytes)
  | dialAny (tunnel : Tunnel) (tunnelId : Bytes) (edges : List EdgeAddr)
  | openBi (tunnel : Tunnel) (tunnelId : Bytes)
  | doneRx (tunnel : Tunnel) (tunnelId : Bytes)
  | returned (r : Except TunnelError QuickTunnelHandle)

/-- The driver thread of one registration and the `conn_index` it registers
on. -/
structure Driver where
  connIndex : UInt8
  rpc : Rpc.St

structure St where
  pc : Pc := .requestTunnel
  drivers : List Driver := []
  reactors : List UInt8 := []

/-- What the awaits of `start_inner` resolve to (`endpoint` and `spawn`: what
the calls right behind them give), `rpcTimeout`: `DEFAULT_RPC_TIMEOUT` has
passed, `deadline`: `discovery_timeout` has, and `driver`: a step of a
driver's thread, or of the edge on its control stream. -/
inductive Label
  | requested (r : Except TunnelError Tunnel) (endpoint : Except TunnelError Unit)
  | discovered (primary dot : SrvAnswer)
  | dialed (handshake : Nat → Handshake)
  | opened (r : Except String Spawn)
  | replied
  | rpcTimeout
  | deadline
  | driver (i : Nat) (l : Rpc.Label)

/-- The sending end of the command channel is dropped. -/
def hangUp (d : Rpc.St) : Rpc.St := if d.rx = .waiting then { d with rx := .closed } else d

/-- `start` returns an error, or is dropped: with it goes what
`register_connection` holds. -/
def St.fail (s : St) (e : TunnelError) : St :=
  { s with
    pc := .returned (.error e)
    drivers := s.drivers.map fun d => { d with rpc := hangUp d.rpc } }

/-- mirrors src/manager.rs:171-175 -/
def tunnelUrl (hostname : Bytes) : Bytes :=
  if (ascii "https://").isPrefixOf hostname then hostname else ascii "https://" ++ hostname

/-- The legs `start_inner` spawns a task for. mirrors src/manager.rs:212-259 -/
def spawned (haConnections : UInt8) : List UInt8 :=
  0 :: (List.range' 1 (haConnections.toNat - 1)).map UInt8.ofNat

/-- Behind the first registration nothing is awaited any more.
mirrors src/manager.rs:196-271 -/
def St.succeed (s : St) (haConnections : UInt8) (tunnel : Tunnel) (tunnelId : Bytes)
    (details : RegistrationDetails) : St :=
  { s with
    pc := .returned (.ok ⟨tunnelUrl tunnel.hostname, tunnelId, tunnel.accountTag, details.location,
      spawned haConnections⟩)
    reactors := s.reactors ++ spawned haConnections }

/-- A driver at its start, or dead with both its channel ends dropped. -/
def newDriver (connIndex : UInt8) : Spawn → List Driver
  | .failed _ => []
  | .running => [⟨connIndex, {}⟩]
  | .panicked => [⟨connIndex, { pc := .ended, doneTx := false }⟩]

section Step
variable (parseUuid : Bytes → Except String Bytes) (haConnections : UInt8)

/-- mirrors src/manager.rs:155-297 and src/rpc.rs:186-343 -/
def step (s : St) : Label → Option St
  | .requested r endpoint =>
    match s.pc, r with
    | .requestTunnel, .error e => some (s.fail e)
    | .requestTunnel, .ok tunnel =>
      match parseUuid tunnel.id, endpoint with
      | .error e, _ => some (s.fail (.internal ("tunnel.id is not a uuid: " ++ e)))
      | .ok _, .error e => some (s.fail e)
      | .ok tunnelId, .ok _ => some { s with pc := .discover tunnel tunnelId }
    | _, _ => none
  | .discovered primary dot =>
    match s.pc with
    | .discover tunnel tunnelId =>
      match discover .auto primary dot with
      | .error e => some (s.fail e)
      | .ok edges => some { s with pc := .dialAny tunnel tunnelId (edges.take (min edges.length 5)) }
    | _ => none
  | .dialed handshake =>
    match s.pc with
    | .dialAny tunnel tunnelId edges =>
      match dialAny handshake edges with
      | .error e => some (s.fail e)
      | .ok _ => some { s with pc := .openBi tunnel tunnelId }
    | _ => none
  | .opened r =>
    match s.pc, r with
    | .openBi _ _, .error e => some (s.fail (.register ("open_bi on control stream: " ++ e)))
    | .openBi _ _, .ok (.failed e) => some (s.fail (.internal ("spawn rpc driver thread: " ++ e)))
    -- `connect_cycle` is called with `conn_index` 0
    | .openBi tunnel tunnelId, .ok spawn =>
      some { s with pc := .doneRx tunnel tunnelId, drivers := s.drivers ++ newDriver 0 spawn }
    | _, _ => none
  | .replied =>
    match s.pc, s.drivers.getLast? with
    | .doneRx tunnel tunnelId, some d =>
      match d.rpc.results.head? with
      | some (.ok details) => some (s.succeed haConnections tunnel tunnelId details)
      | some (.error e) => some (s.fail e)
      | none =>
        if d.rpc.pc = .ended then some (s.fail (.register "RPC driver dropped result channel")) else none
    | _, _ => none
  | .rpcTimeout =>
    match s.pc with
    | .doneRx _ _ => some (s.fail (.register "register_connection RPC timed out"))
    | _ => none
  | .deadline =>
    match s.pc with
    | .returned _ => none
    | _ => some (s.fail (.internal "start() exceeded discovery_timeout"))
  -- the command channel belongs to `start`
  | .driver _ (.command _) | .driver _ .dropSender => none
  | .driver i l => (s.drivers[i]?).bind fun d => (Rpc.step d.rpc l).map fun rpc =>
      { s with drivers := s.drivers.set i { d with rpc := rpc } }

def starting : LTS St Label := LTS.ofFn (· = {}) (step parseUuid haConnections)

end Step

/-- The tasks are those the legs' model starts from. -/
theorem spawned_eq (haConnections : UInt8) :
    spawned haConnections = (Reconnect.start haConnections).tasks.map Reconnect.Task.connIndex := by
  simp [spawned, Reconnect.start, Function.comp_def]

theorem spawned_length (haConnections : UInt8) :
    (spawned haConnections).length = max 1 haConnections.toNat := by
  simp only [spawned, List.length_cons, List.length_map, List.length_range']
  omega

/-! ## The driver's reply -/

section Reply
variable {d d' : Rpc.St}

/-- The edge's answer to the register call has come, and is on its way to
`start`. -/
def Heard (d : Rpc.St) : Prop :=
  (∃ r, Rpc.Reply.registered r ∈ d.arrived) ∨ d.call.isSome = true ∨ d.handedOut = true

theorem heard_receive {rs : List Rpc.Reply} :
    (rs.foldl Rpc.St.receive d).call.isSome = true →
      d.call.isSome = true ∨ ∃ r, Rpc.Reply.registered r ∈ rs := by
  induction rs generalizing d with
  | nil => exact .inl
  | cons x rs ih =>
    intro h
    rw [List.foldl_cons] at h
    cases x with
    | registered r => exact .inr ⟨r, List.mem_cons_self⟩
    | unregistered =>
      rcases ih h with h | ⟨r, hr⟩
      · exact .inl h
      · exact .inr ⟨r, List.mem_cons_of_mem _ hr⟩

theorem heard_pollRpc (flushed replies : Nat) (h : Heard (d.pollRpc flushed replies)) : Heard d := by
  have hcall : (d.pollRpc flushed replies).call.isSome = true →
      d.call.isSome = true ∨ ∃ r, Rpc.Reply.registered r ∈ d.arrived.take replies := heard_receive
  obtain ⟨call, ack, he⟩ := Rpc.pollRpc_eq d flushed replies
  rw [he] at h hcall
  rcases h with ⟨r, hr⟩ | h | h
  · exact .inl ⟨r, List.mem_of_mem_drop hr⟩
  · rcases hcall h with h | ⟨r, hr⟩
    · exact .inr (.inl h)
    · exact .inl ⟨r, List.mem_of_mem_take hr⟩
  · exact .inr (.inr h)

theorem heard_leave {kind : Option Rpc.ShutdownCommand} (h : Heard (d.leave kind)) : Heard d := by
  rcases Rpc.leave_cases d kind with ⟨grace, -, -, he⟩ | he <;> rw [he] at h <;> exact h

theorem heard_rpcArm (h : Heard d.rpcArm) : Heard d := by
  unfold Rpc.St.rpcArm at h
  split at h
  · have h := heard_leave h
    split at h
    · exact h
    · unfold Rpc.St.report at h
      split at h
      · simpa [Heard, Rpc.St.handedOut, Except.toBool] using h
      · exact h
  · exact h

theorem heard_pollSelect (flushed replies : Nat) (h : Heard (d.pollSelect flushed replies)) : Heard d := by
  by_cases hrx : d.rx = .waiting
  · rcases Rpc.pollSelect_waiting hrx flushed replies with ⟨r, -, hc, -⟩ | ⟨o, he⟩
    · exact .inr (.inl (by rw [hc]; rfl))
    · rw [he] at h
      exact heard_pollRpc (d := { d with overPolled := o }) flushed replies (heard_rpcArm h)
  · rcases Rpc.pollSelect_hungUp hrx flushed replies with ⟨r, -, hc, -⟩ | ⟨o, he⟩
    · exact .inr (.inl (by rw [hc]; rfl))
    · rw [he] at h
      exact heard_leave (d := { d with overPolled := o, rxDone := true }) h

theorem leave_keeps (kind : Option Rpc.ShutdownCommand) :
    (d.leave kind).wire = d.wire ∧ (d.leave kind).results = d.results := by
  rcases Rpc.leave_cases d kind with ⟨grace, -, -, he⟩ | he <;> rw [he] <;> exact ⟨rfl, rfl⟩

theorem report_grows (r : Except TunnelError RegistrationDetails) :
    (d.report r).wire = d.wire ∧ d.results ⊆ (d.report r).results := by
  refine ⟨(Rpc.report_fields d r).2.2.1, ?_⟩
  unfold Rpc.St.report
  split
  · exact List.subset_append_left _ _
  · exact List.Subset.refl _

theorem rpcArm_grows : d.rpcArm.wire = d.wire ∧ d.results ⊆ d.rpcArm.results := by
  unfold Rpc.St.rpcArm
  split
  · rw [(leave_keeps _).1, (leave_keeps _).2]
    split
    · exact ⟨rfl, List.Subset.refl _⟩
    · exact report_grows _
  · exact ⟨rfl, List.Subset.refl _⟩

/-- Nothing is taken back from the control stream, or from `start`. -/
theorem pollSelect_grows (flushed replies : Nat) : d.wire ⊆ (d.pollSelect flushed replies).wire ∧
    d.results ⊆ (d.pollSelect flushed replies).results := by
  have hreport : ∀ r, d.wire ⊆ (Rpc.St.report { d with overPolled := d.overPolled || d.callDone } r).wire ∧
      d.results ⊆ (Rpc.St.report { d with overPolled := d.overPolled || d.callDone } r).results := by
    intro r
    have := report_grows (d := { d with overPolled := d.overPolled || d.callDone }) r
    rw [this.1]
    exact ⟨List.Subset.refl _, this.2⟩
  by_cases hrx : d.rx = .waiting
  · rcases Rpc.pollSelect_waiting hrx flushed replies with ⟨r, -, -, he⟩ | ⟨o, he⟩
    · rw [he]
      exact hreport r
    · obtain ⟨call, ack, hp⟩ := Rpc.pollRpc_eq { d with overPolled := o } flushed replies
      have := rpcArm_grows (d := Rpc.St.pollRpc { d with overPolled := o } flushed replies)
      rw [he, this.1]
      rw [hp] at this ⊢
      exact ⟨List.subset_append_left _ _, this.2⟩
  · rcases Rpc.pollSelect_hungUp hrx flushed replies with ⟨r, -, -, he⟩ | ⟨o, he⟩
    · rw [he]
      exact hreport r
    · rw [he, (leave_keeps _).1, (leave_keeps _).2]
      exact ⟨List.Subset.refl _, List.Subset.refl _⟩

/-- The results a driver has handed out stay. -/
theorem results_step {l : Rpc.Label} (hs : Rpc.step d l = some d') : d.results ⊆ d'.results := by
  cases l with
  | poll flushed replies =>
    simp only [Rpc.step] at hs
    split at hs
    · cases hs
      exact (pollSelect_grows flushed replies).2
    · split at hs <;> cases hs
      exact List.Subset.refl _
    · cases hs
  | endStream =>
    cases hs
    exact List.Subset.refl _
  | _ =>
    simp only [Rpc.step] at hs
    split at hs <;> cases hs
    exact List.Subset.refl _

/-- The edge answers nothing but a register request it has. -/
theorem answered_step {l : Rpc.Label} (hi : Heard d → .register ∈ d.wire) (hs : Rpc.step d l = some d') :
    Heard d' → .register ∈ d'.wire := by
  cases l with
  | poll flushed replies =>
    simp only [Rpc.step] at hs
    split at hs
    · cases hs
      exact fun h => (pollSelect_grows flushed replies).1 (hi (heard_pollSelect flushed replies h))
    · split at hs <;> cases hs
      exact hi
    · cases hs
  | expire =>
    simp only [Rpc.step] at hs
    split at hs <;> cases hs
    exact hi
  | command c =>
    simp only [Rpc.step] at hs
    split at hs <;> cases hs
    exact hi
  | dropSender =>
    simp only [Rpc.step] at hs
    split at hs <;> cases hs
    exact hi
  | reply r =>
    simp only [Rpc.step] at hs
    split at hs
    · rename_i hr
      cases hs
      intro h
      cases r with
      | registered r => simpa [Rpc.answerable] using hr.2
      | unregistered =>
        apply hi
        rcases h with ⟨r, h⟩ | h
        · exact .inl ⟨r, by simpa using h⟩
        · exact .inr h
    · cases hs
  | endStream =>
    cases hs
    exact hi

end Reply

/-! ## What `start` owns -/

theorem hangUp_hungUp {d : Rpc.St} (h : Rpc.Unasked d) : Rpc.HungUp (hangUp d) := by
  unfold hangUp
  split
  · exact ⟨nofun, nofun, h.pc, h.queue, h.wire⟩
  · rename_i hrx
    exact ⟨hrx, h⟩

/-- A driver of the first registration. -/
structure Registers (d : Driver) : Prop where
  index : d.connIndex = 0
  unasked : Rpc.Unasked d.rpc
  answered : Heard d.rpc → .register ∈ d.rpc.wire

/-- The drivers and tasks there are, by where `start` is. -/
def Owns (haConnections : UInt8) (s : St) : Pc → Prop
  | .requestTunnel => s.drivers = [] ∧ s.reactors = []
  | .discover _ _ => s.drivers = [] ∧ s.reactors = []
  | .dialAny _ _ _ => s.drivers = [] ∧ s.reactors = []
  | .openBi _ _ => s.drivers = [] ∧ s.reactors = []
  | .doneRx _ _ => (∀ d ∈ s.drivers, Registers d) ∧ s.reactors = []
  | .returned (.error _) => (∀ d ∈ s.drivers, Rpc.HungUp d.rpc) ∧ s.reactors = []
  | .returned (.ok handle) => s.reactors = spawned haConnections ∧ handle.reactors = spawned haConnections ∧
      ∃ d ∈ s.drivers, Registers d ∧
        ∃ details, .ok details ∈ d.rpc.results ∧ details.location = handle.location

section Owns
variable {parseUuid : Bytes → Except String Bytes} {n : UInt8} {s s' : St}

theorem owns_fail {e : TunnelError} (hd : ∀ d ∈ s.drivers, Rpc.Unasked d.rpc) (hr : s.reactors = []) :
    Owns n (s.fail e) (s.fail e).pc := by
  refine ⟨?_, hr⟩
  intro d hmem
  obtain ⟨x, hx, rfl⟩ := List.mem_map.mp hmem
  exact hangUp_hungUp (hd x hx)

theorem owns_fail_nil {e : TunnelError} (hd : s.drivers = []) (hr : s.reactors = []) :
    Owns n (s.fail e) (s.fail e).pc := by
  have hu : ∀ d ∈ s.drivers, Rpc.Unasked d.rpc := by
    intro d hmem
    rw [hd] at hmem
    cases hmem
  exact owns_fail hu hr

theorem registers_new {d : Rpc.St} (hd : d.pc = .select ∨ d.pc = .ended)
    (h : d = { pc := d.pc, doneTx := d.doneTx }) : Registers ⟨0, d⟩ where
  index := rfl
  unasked := by
    refine ⟨?_, ?_, ?_, ?_⟩
    · rw [h]
      exact nofun
    · intro grace hpc
      rcases hd with hd | hd <;> rw [hd] at hpc <;> cases hpc
    · rw [h]
      simp
    · rw [h]
      simp
  answered := by
    intro hheard
    rw [h] at hheard
    rcases hheard with ⟨r, hr⟩ | hc | ho
    · cases hr
    · cases hc
    · cases ho

theorem newDriver_registers {spawn : Spawn} : ∀ d ∈ newDriver 0 spawn, Registers d := by
  intro d hd
  cases spawn with
  | failed e => cases hd
  | running =>
    obtain rfl := List.mem_singleton.mp hd
    exact registers_new (.inl rfl) rfl
  | panicked =>
    obtain rfl := List.mem_singleton.mp hd
    exact registers_new (.inr rfl) rfl

/-- A driver steps, by its thread or by the edge. -/
theorem owns_driver {i : Nat} {l : Rpc.Label} {d : Driver} {rpc : Rpc.St} (hi : Owns n s s.pc)
    (hl : ∀ c, l ≠ .command c) (hd : s.drivers[i]? = some d) (hs : Rpc.step d.rpc l = some rpc) :
    Owns n { s with drivers := s.drivers.set i { d with rpc := rpc } } s.pc := by
  have hmem : d ∈ s.drivers := List.mem_of_getElem? hd
  have hregisters : Registers d → Registers { d with rpc := rpc } := fun h =>
    ⟨h.index, h.unasked.step (fun grace => hl _) hs, answered_step h.answered hs⟩
  cases hpc : s.pc with
  | doneRx tunnel tunnelId =>
    rw [hpc] at hi
    refine ⟨?_, hi.2⟩
    intro x hx
    rcases List.mem_or_eq_of_mem_set hx with hx | rfl
    · exact hi.1 x hx
    · exact hregisters (hi.1 d hmem)
  | returned r =>
    rw [hpc] at hi
    cases r with
    | error e =>
      refine ⟨?_, hi.2⟩
      intro x hx
      rcases List.mem_or_eq_of_mem_set hx with hx | rfl
      · exact hi.1 x hx
      · exact (hi.1 d hmem).step hs
    | ok handle =>
      obtain ⟨hr, hh, x, hx, hreg, details, hdet, hloc⟩ := hi
      obtain ⟨j, hj⟩ := List.mem_iff_getElem?.mp hx
      refine ⟨hr, hh, ?_⟩
      by_cases hij : j = i
      · obtain rfl : x = d := by
          rw [hij] at hj
          exact Option.some.inj (hj.symm.trans hd)
        have hlt : i < s.drivers.length := (List.getElem?_eq_some_iff.mp hd).1
        exact ⟨_, List.mem_set hlt _, hregisters hreg, details, results_step hs hdet, hloc⟩
      · have hj' : (s.drivers.set i { d with rpc := rpc })[j]? = some x := by
          rw [List.getElem?_set_ne (Ne.symm hij)]
          exact hj
        exact ⟨x, List.mem_of_getElem? hj', hreg, details, hdet, hloc⟩
  | _ =>
    rw [hpc] at hi
    rw [hi.1] at hmem
    cases hmem

theorem owns_step {l : Label} (hi : Owns n s s.pc) (hs : step parseUuid n s l = some s') :
    Owns n s' s'.pc := by
  cases l with
  | requested r endpoint =>
    simp only [step] at hs
    split at hs
    · rename_i hpc
      cases hs
      rw [hpc] at hi
      exact owns_fail_nil hi.1 hi.2
    · rename_i hpc
      rw [hpc] at hi
      split at hs <;> cases hs
      · exact owns_fail_nil hi.1 hi.2
      · exact owns_fail_nil hi.1 hi.2
      · exact hi
    · cases hs
  | discovered primary dot =>
    simp only [step] at hs
    split at hs
    · rename_i hpc
      rw [hpc] at hi
      split at hs <;> cases hs
      · exact owns_fail_nil hi.1 hi.2
      · exact hi
    · cases hs
  | dialed handshake =>
    simp only [step] at hs
    split at hs
    · rename_i hpc
      rw [hpc] at hi
      split at hs <;> cases hs
      · exact owns_fail_nil hi.1 hi.2
      · exact hi
    · cases hs
  | opened r =>
    simp only [step] at hs
    split at hs
    · rename_i hpc
      cases hs
      rw [hpc] at hi
      exact owns_fail_nil hi.1 hi.2
    · rename_i hpc
      cases hs
      rw [hpc] at hi
      exact owns_fail_nil hi.1 hi.2
    · rename_i hpc
      cases hs
      rw [hpc] at hi
      refine ⟨?_, hi.2⟩
      rw [hi.1]
      exact newDriver_registers
    · cases hs
  | replied =>
    simp only [step] at hs
    split at hs
    · rename_i tunnel tunnelId d hpc hlast
      rw [hpc] at hi
      have hmem : d ∈ s.drivers := List.mem_of_getLast? hlast
      have hunasked : ∀ d ∈ s.drivers, Rpc.Unasked d.rpc := fun d hd => (hi.1 d hd).unasked
      split at hs
      · rename_i details hhead
        cases hs
        refine ⟨?_, rfl, d, hmem, hi.1 d hmem, details, List.mem_of_head? hhead, rfl⟩
        simp only [St.succeed, hi.2, List.nil_append]
      · cases hs
        exact owns_fail hunasked hi.2
      · split at hs <;> cases hs
        exact owns_fail hunasked hi.2
    · cases hs
  | rpcTimeout =>
    simp only [step] at hs
    split at hs
    · rename_i hpc
      cases hs
      rw [hpc] at hi
      exact owns_fail (fun d hd => (hi.1 d hd).unasked) hi.2
    · cases hs
  | deadline =>
    simp only [step] at hs
    split at hs
    · cases hs
    · rename_i hpc
      cases hs
      cases hpc' : s.pc with
      | doneRx tunnel tunnelId =>
        rw [hpc'] at hi
        exact owns_fail (fun d hd => (hi.1 d hd).unasked) hi.2
      | returned r => exact absurd hpc' (hpc r)
      | _ =>
        rw [hpc'] at hi
        exact owns_fail_nil hi.1 hi.2
  | driver i l =>
    have hl : ∀ c, l ≠ .command c := by
      intro c heq
      subst heq
      cases hs
    have hs' : (s.drivers[i]?).bind (fun d => (Rpc.step d.rpc l).map fun rpc =>
        { s with drivers := s.drivers.set i { d with rpc := rpc } }) = some s' := by
      cases l <;> first | exact hs | cases hs
    simp only [Option.bind_eq_some_iff, Option.map_eq_some_iff] at hs'
    obtain ⟨d, hd, rpc, hst, rfl⟩ := hs'
    exact owns_driver hi hl hd hst

theorem owns_reachable (h : (starting parseUuid n).Reachable s) : Owns n s s.pc := by
  refine LTS.Inductive.reachable (M := starting parseUuid n) (I := fun s => Owns n s s.pc) ⟨?_, ?_⟩ h
  · intro s heq
    subst heq
    exact ⟨rfl, rfl⟩
  · exact fun s l s' hi hs => owns_step hi hs

/-- A driver nobody will ask to unregister, and nobody keeps: its command
channel is used or closed, and however it runs on it only leaves its loop. -/
structure Abandoned (d : Rpc.St) : Prop where
  rx : d.rx ≠ .waiting
  silent : ∀ ls d', Rpc.driver.Run d ls d' → (∀ grace, d'.pc ≠ .waitAck grace) ∧
    .unregister ∉ d'.queue ∧ .unregister ∉ d'.wire
  ends : Rpc.driver.Inevitable Rpc.Own (fun d' => d'.pc = .ended) d

/-- What there is once `start` has returned. -/
structure AllOrNothing (haConnections : UInt8) (s : St) : Prop where
  nothing : ∀ e, s.pc = .returned (.error e) → s.reactors = [] ∧ ∀ d ∈ s.drivers, Abandoned d.rpc
  all : ∀ handle, s.pc = .returned (.ok handle) →
    s.reactors.length = max 1 haConnections.toNat ∧ s.reactors = handle.reactors ∧
      ∃ d ∈ s.drivers, d.connIndex = 0 ∧ .register ∈ d.rpc.wire ∧
        ∃ details, .ok details ∈ d.rpc.results ∧ details.location = handle.location

theorem abandoned_of_hungUp {d : Rpc.St} (h : Rpc.HungUp d) : Abandoned d where
  rx := h.rx
  silent := by
    intro ls d' hr
    have hu := (h.run hr).unasked
    exact ⟨hu.pc, hu.queue, hu.wire⟩
  ends := h.ends

/-- **All or nothing**, however the steps of `start_inner` end and wherever
the deadline strikes. -/
theorem all_or_nothing (h : (starting parseUuid n).Reachable s) : AllOrNothing n s where
  nothing := by
    intro e hpc
    have hi := owns_reachable h
    rw [hpc] at hi
    exact ⟨hi.2, fun d hd => abandoned_of_hungUp (hi.1 d hd)⟩
  all := by
    intro handle hpc
    have hi := owns_reachable h
    rw [hpc] at hi
    obtain ⟨hr, hh, d, hd, hreg, details, hdet, hloc⟩ := hi
    have hheard : Heard d.rpc := .inr (.inr (List.any_eq_true.mpr ⟨_, hdet, rfl⟩))
    refine ⟨?_, hr.trans hh.symm, d, hd, hreg.index, hreg.answered hheard, details, hdet, hloc⟩
    rw [hr]
    exact spawned_length n

end Owns

def nilTunnel : Tunnel :=
  ⟨ascii "00000000-0000-0000-0000-000000000000", ascii "a.trycloudflare.com", ascii "tag"⟩

/-- `Uuid::parse_str` on the nil UUID. -/
def parseNil (_ : Bytes) : Except String Bytes := .ok (List.replicate 16 0)

/-- Everything up to the driver's first poll. -/
def registering : List Label :=
  [.requested (.ok nilTunnel) (.ok ()), .discovered (.ok [⟨7844, .ok [.v4 0xC629C01B#32]⟩]) (.ok []),
    .dialed fun _ => .done, .opened (.ok .running), .driver 0 (.poll 2 0)]

/-- The edge registers the connection and the driver reports it. -/
def answered : List Label :=
  [.driver 0 (.reply (.registered (.ok ⟨List.replicate 16 0, ascii "bog01", false⟩))),
    .driver 0 (.poll 0 1), .driver 0 (.poll 0 0), .replied]

/-- Has failed, with a driver running. -/
def failedRunning (s : St) : Bool :=
  match s.pc with
  | .returned (.error _) => s.drivers.any fun d => d.rpc.pc == .select
  | _ => false

/-- Has succeeded, with a leg for each connection. -/
def runsAll (haConnections : UInt8) (s : St) : Bool :=
  match s.pc with
  | .returned (.ok handle) => handle.reactors == spawned haConnections && s.reactors == spawned haConnections
  | _ => false

/-- The deadline passes while `register_connection` waits for its driver, or
the driver's reply is there before it. -/
theorem deadline_or_reply :
    (∃ s, (starting parseNil 2).Reachable s ∧ failedRunning s = true ∧ AllOrNothing 2 s) ∧
    ∃ s, (starting parseNil 3).Reachable s ∧ runsAll 3 s = true ∧ AllOrNothing 3 s := by
  constructor
  · obtain ⟨s, hs, hq⟩ := LTS.exists_of_exec (step parseNil 2) (fun _ _ => True) {}
      (registering ++ [.deadline]) failedRunning (by decide)
    exact ⟨s, hs.of_guard, hq, all_or_nothing hs.of_guard⟩
  · obtain ⟨s, hs, hq⟩ := LTS.exists_of_exec (step parseNil 3) (fun _ _ => True) {}
      (registering ++ answered) (runsAll 3) (by decide)
    exact ⟨s, hs.of_guard, hq, all_or_nothing hs.of_guard⟩

end QuickTunnel.Manager.Start

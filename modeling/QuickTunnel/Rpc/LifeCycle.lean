import QuickTunnel.Rpc.HungUp

/-!
# The life cycle of the driver

`Driver` has the register call resolve by a reply that the RPC system reads.
Here the events come in any order: the call can resolve at any time, with
success or an error, and the RPC system can fail with replies unread.

* `Sound.step`: what holds between any two steps.
* `ends_run`: a command, a dropped sender or the end of the RPC system, and
  two polls, end the loop.
* `life_cycle`: the driver's discipline in every reachable state.
-/
namespace QuickTunnel.Rpc

/-- `resolve`: the register call completes; `collapse`: the RPC system fails. -/
inductive Event
  | driver (l : Label)
  | resolve (r : Except TunnelError RegistrationDetails)
  | collapse

def react (s : St) : Event → Option St
  | .driver l => step s l
  | .resolve r => some { s with call := s.call <|> some r }
  | .collapse => some { s with streamEnded := true, arrived := [] }

def lifeCycle : LTS St Event := LTS.ofFn (· = {}) react

/-- The runs of `Driver` are among these. -/
theorem reachable_of_driver {s : St} (h : driver.Reachable s) : lifeCycle.Reachable s :=
  LTS.Inductive.reachable (M := driver)
    ⟨fun _ hs => .of_init hs, fun _ l _ hr hs => hr.step (l := .driver l) hs⟩ h

/-- The driver's own steps. -/
def OwnEvent (s : St) : Event → Prop
  | .driver l => Own s l
  | _ => False

def Event.isPoll : Event → Bool
  | .driver (.poll _ _) => true
  | _ => false

/-- The books: nothing finished was polled, and the result channel was used
once its sender was taken. -/
structure Ledger (s : St) : Prop where
  polled : s.overPolled = false
  called : s.callDone = s.sentDone
  sent : s.results.length = if s.doneTx then 0 else 1
  handed : s.sentDone = true → s.doneTx = false
  rpc : s.rpcDone = true → s.doneTx = false

structure Sound (s : St) : Prop extends Ledger s where
  quiet : Quiet s
  looping : s.pc = .select → s.rxDone = false ∧ s.rpcDone = false
  asked : s.queue.count .unregister ≤ 1
  graceful : Request.unregister ∈ s.queue →
    (∃ grace, s.rx = .sent (.graceful grace)) ∧ s.sentDone = true
  done : s.driverDone = true ↔ s.pc = .ended

/-- A command has been sent, the sender dropped, or the RPC system is over. -/
def Asked (s : St) : Prop := s.rx ≠ .waiting ∨ s.streamEnded = true ∧ s.arrived = []

/-- What an event does: it polls the loop, ends the wait, or is one of the
caller's and the edge's, which takes no demand back. -/
theorem react_cases {s s' : St} {e : Event} (hs : react s e = some s') :
    (∃ flushed replies, e = .driver (.poll flushed replies) ∧ s.pc = .select ∧
      s' = s.pollSelect flushed replies) ∨
    (∃ grace, s.pc = .waitAck grace ∧ s' = { s with pc := .ended, driverDone := true }) ∨
    (¬ OwnEvent s e ∧ e.isPoll = false ∧ ∃ rx arrived streamEnded call,
      s' = { s with rx, arrived, streamEnded, call } ∧ (s.rx = .waiting ∨ rx = s.rx) ∧
        (Asked s → Asked s')) := by
  cases e with
  | resolve r =>
    right; right
    cases hs
    exact ⟨not_false, rfl, _, _, _, _, rfl, .inr rfl, id⟩
  | collapse =>
    right; right
    cases hs
    exact ⟨not_false, rfl, _, _, _, _, rfl, .inr rfl, fun _ => .inr ⟨rfl, rfl⟩⟩
  | driver l =>
    cases l with
    | poll flushed replies =>
      simp only [react, step] at hs
      split at hs
      · rename_i hpc
        cases hs
        exact .inl ⟨flushed, replies, rfl, hpc, rfl⟩
      · rename_i grace hpc
        split at hs
        · cases hs
          exact .inr (.inl ⟨grace, hpc, rfl⟩)
        · cases hs
      · cases hs
    | expire =>
      simp only [react, step] at hs
      split at hs
      · rename_i grace hpc
        cases hs
        exact .inr (.inl ⟨grace, hpc, rfl⟩)
      · cases hs
    | command c =>
      right; right
      simp only [react, step, Option.ite_none_right_eq_some, Option.some.injEq] at hs
      obtain ⟨hw, rfl⟩ := hs
      exact ⟨not_false, rfl, _, _, _, _, rfl, .inl hw, fun _ => .inl (by simp)⟩
    | dropSender =>
      right; right
      simp only [react, step, Option.ite_none_right_eq_some, Option.some.injEq] at hs
      obtain ⟨hw, rfl⟩ := hs
      exact ⟨not_false, rfl, _, _, _, _, rfl, .inl hw, fun _ => .inl (by simp)⟩
    | reply r =>
      right; right
      simp only [react, step, Option.ite_none_right_eq_some, Option.some.injEq] at hs
      obtain ⟨hopen, rfl⟩ := hs
      refine ⟨not_false, rfl, _, _, _, _, rfl, .inr rfl, fun ha => ?_⟩
      -- replies come in only while the stream is open
      exact ha.imp_right fun hover => absurd hover.1 (by simp [hopen.1])
    | endStream =>
      right; right
      cases hs
      exact ⟨not_false, rfl, _, _, _, _, rfl, .inr rfl,
        fun ha => ha.imp_right fun hover => ⟨rfl, hover.2⟩⟩

section Operations
variable {s : St}

theorem report_eq (s : St) (r : Except TunnelError RegistrationDetails) :
    s.report r = { s with
      doneTx := false
      results := if s.doneTx then s.results ++ [r] else s.results } := by
  unfold St.report
  cases h : s.doneTx with
  | true => rfl
  | false =>
    rw [if_neg Bool.false_ne_true, if_neg Bool.false_ne_true, ← h]

/-- The result goes out, unless one has. -/
theorem report_sent (h : s.results.length = if s.doneTx then 0 else 1)
    (r : Except TunnelError RegistrationDetails) : (s.report r).results.length = 1 := by
  rw [report_eq]
  cases hd : s.doneTx with
  | true =>
    rw [hd, if_pos rfl] at h
    simp [h]
  | false =>
    rw [hd, if_neg Bool.false_ne_true] at h
    simpa using h

/-- With its result reported the driver's books stay in order, whether the
call or the RPC system was the one to complete. -/
theorem Ledger.report (h : Ledger s) (r : Except TunnelError RegistrationDetails) (sent rpc : Bool) :
    Ledger { s.report r with sentDone := sent, callDone := sent, rpcDone := rpc } := by
  have hlen := report_sent h.sent r
  rw [report_eq] at hlen ⊢
  exact ⟨h.polled, rfl, hlen, fun _ => rfl, fun _ => rfl⟩

theorem Ledger.leave (h : Ledger s) (kind : Option ShutdownCommand) : Ledger (s.leave kind) := by
  rcases leave_cases s kind with ⟨grace, -, -, he⟩ | he
  · rw [he]
    exact ⟨h.polled, h.called, h.sent, h.handed, h.rpc⟩
  · rw [he]
    exact ⟨h.polled, h.called, h.sent, h.handed, h.rpc⟩

/-- Out of the loop. -/
theorem Sound.leave (hl : Ledger s) (hq : Quiet s) (hpc : s.pc = .select) (hd : s.driverDone = false)
    {kind : Option ShutdownCommand}
    (hkind : ∀ grace, kind = some (.graceful grace) → s.rx = .sent (.graceful grace)) :
    Sound (s.leave kind) := by
  have hnone := hq.queue hpc
  have hl' := hl.leave kind
  have hq' := hq.leave kind
  rcases leave_cases s kind with ⟨grace, hk, hsent, he⟩ | he
  · rw [he] at hl' hq' ⊢
    refine ⟨hl', hq', nofun, ?_, fun _ => ⟨⟨grace, hkind grace hk⟩, hsent⟩, by simp [hd]⟩
    simp [List.count_eq_zero_of_not_mem hnone]
  · rw [he] at hl' hq' ⊢
    refine ⟨hl', hq', nofun, ?_, fun hm => absurd hm hnone, by simp⟩
    simp [List.count_eq_zero_of_not_mem hnone]

/-- One poll of the `select!`: the register call, the command channel, the
RPC system. -/
theorem Sound.poll_cases (h : Sound s) (hpc : s.pc = .select) (flushed replies : Nat) :
    (∃ r, s.sentDone = false ∧ s.call = some r ∧
      s.pollSelect flushed replies = { s.report r with sentDone := true, callDone := true }) ∨
    (s.rx ≠ .waiting ∧
      s.pollSelect flushed replies = St.leave { s with rxDone := true } s.rx.command) ∨
    (s.rx = .waiting ∧ s.pollSelect flushed replies = (s.pollRpc flushed replies).rpcArm) := by
  obtain ⟨hrx, -⟩ := h.looping hpc
  have hpolled := h.polled
  have hcalled := h.called
  obtain ⟨pc, queue, wire, arrived, streamEnded, call, ack, sentDone, doneTx, results, rx, kind,
    driverDone, callDone, rxDone, rpcDone, overPolled⟩ := s
  simp only at hrx hpolled hcalled
  subst hrx hpolled hcalled
  cases callDone with
  | true =>
    right
    cases rx with
    | sent c => exact .inl ⟨nofun, rfl⟩
    | closed => exact .inl ⟨nofun, rfl⟩
    | waiting => exact .inr ⟨rfl, rfl⟩
  | false =>
    cases call with
    | some r => exact .inl ⟨r, rfl, rfl, rfl⟩
    | none =>
      right
      cases rx with
      | sent c => exact .inl ⟨nofun, rfl⟩
      | closed => exact .inl ⟨nofun, rfl⟩
      | waiting => exact .inr ⟨rfl, rfl⟩

theorem command_eq_some {rx : Rx} {c : ShutdownCommand} (h : rx.command = some c) : rx = .sent c := by
  cases rx with
  | sent c' => exact congrArg Rx.sent (Option.some.inj h)
  | waiting => cases h
  | closed => cases h

/-- The RPC arm goes on, or reports what has not been reported and leaves. -/
theorem rpcArm_cases (t : St) :
    (¬ (t.streamEnded = true ∧ t.arrived = []) ∧ t.rpcArm = t) ∨
    ((t.streamEnded = true ∧ t.arrived = []) ∧
      (t.sentDone = true ∧ t.rpcArm = St.leave { t with rpcDone := true } none ∨
        ∃ r, t.sentDone = false ∧ t.rpcArm = St.leave (St.report { t with rpcDone := true } r) none)) := by
  unfold St.rpcArm
  by_cases hend : t.streamEnded = true ∧ t.arrived = []
  · right
    refine ⟨hend, ?_⟩
    rw [if_pos hend]
    cases hd : t.sentDone with
    | true => exact .inl ⟨rfl, rfl⟩
    | false => exact .inr ⟨_, rfl, rfl⟩
  · left
    rw [if_neg hend]
    exact ⟨hend, rfl⟩

end Operations

section Step
variable {s s' : St}

theorem Sound.driverDone_eq (h : Sound s) (hpc : s.pc = .select) : s.driverDone = false := by
  cases hd : s.driverDone with
  | false => rfl
  | true =>
    rw [h.done.1 hd] at hpc
    cases hpc

theorem Sound.pollRpc (h : Sound s) (hpc : s.pc = .select) (flushed replies : Nat) :
    Sound (s.pollRpc flushed replies) := by
  have hq := h.quiet.pollRpc hpc flushed replies
  obtain ⟨hrx, hrpc⟩ := h.looping hpc
  obtain ⟨call, ack, he⟩ := pollRpc_eq s flushed replies
  rw [he] at hq ⊢
  have hnone : Request.unregister ∉ s.queue.drop flushed := hq.queue hpc
  refine ⟨⟨?_, h.called, h.sent, h.handed, h.rpc⟩, hq, fun _ => ⟨hrx, hrpc⟩, ?_,
    fun hm => absurd hm hnone, h.done⟩
  · rw [h.polled, hrpc]
    rfl
  · rw [List.count_eq_zero_of_not_mem hnone]
    exact Nat.zero_le 1

theorem Sound.rpcArm (h : Sound s) (hpc : s.pc = .select) : Sound s.rpcArm := by
  have hd := h.driverDone_eq hpc
  have hq : Quiet { s with rpcDone := true } := h.quiet.congr rfl rfl rfl rfl rfl rfl
  rcases rpcArm_cases s with ⟨-, he⟩ | ⟨-, ⟨hsent, he⟩ | ⟨r, hsent, he⟩⟩
  · rw [he]
    exact h
  · rw [he]
    have hl : Ledger { s with rpcDone := true } :=
      ⟨h.polled, h.called, h.sent, h.handed, fun _ => h.handed hsent⟩
    exact Sound.leave hl hq hpc hd nofun
  · rw [he]
    have hl := h.report r s.sentDone true
    have hfields := report_eq { s with rpcDone := true } r
    refine Sound.leave ?_ (hq.report r) ?_ ?_ nofun
    · rw [hfields]
      rw [report_eq] at hl
      exact ⟨hl.polled, h.called, hl.sent, hl.handed, hl.rpc⟩
    · rw [hfields]
      exact hpc
    · rw [hfields]
      exact hd

theorem Sound.pollSelect (h : Sound s) (hpc : s.pc = .select) (flushed replies : Nat) :
    Sound (s.pollSelect flushed replies) := by
  rcases h.poll_cases hpc flushed replies with ⟨r, hd, -, he⟩ | ⟨-, he⟩ | ⟨-, he⟩
  · rw [he]
    have hl := h.report r true s.rpcDone
    have hq := h.quiet.report r
    rw [report_eq] at hl hq ⊢
    refine ⟨⟨hl.polled, rfl, hl.sent, hl.handed, hl.rpc⟩, ?_, h.looping, h.asked, ?_, h.done⟩
    · exact hq.congr rfl rfl rfl rfl rfl rfl
    · exact fun hm => ⟨(h.graceful hm).1, rfl⟩
  · rw [he]
    have hl : Ledger { s with rxDone := true } := ⟨h.polled, h.called, h.sent, h.handed, h.rpc⟩
    have hq : Quiet { s with rxDone := true } := h.quiet.congr rfl rfl rfl rfl rfl rfl
    exact Sound.leave hl hq hpc (h.driverDone_eq hpc) fun grace hk => command_eq_some hk
  · rw [he]
    refine (h.pollRpc hpc flushed replies).rpcArm ?_
    obtain ⟨call, ack, hp⟩ := pollRpc_eq s flushed replies
    rw [hp]
    exact hpc

/-- A change of what the caller and the edge bring. -/
theorem Sound.congr (h : Sound s) {rx : Rx} {arrived : List Reply} {streamEnded : Bool}
    {call : Option (Except TunnelError RegistrationDetails)}
    (hq : Quiet { s with rx, arrived, streamEnded, call }) (hrx : s.rx = .waiting ∨ rx = s.rx) :
    Sound { s with rx, arrived, streamEnded, call } := by
  refine ⟨⟨h.polled, h.called, h.sent, h.handed, h.rpc⟩, hq, h.looping, h.asked, fun hm => ?_, h.done⟩
  obtain ⟨⟨grace, hg⟩, hsent⟩ := h.graceful hm
  rcases hrx with hw | heq
  · rw [hw] at hg
    cases hg
  · exact ⟨⟨grace, heq.trans hg⟩, hsent⟩

theorem Sound.end (h : Sound s) (hq : Quiet { s with pc := .ended, driverDone := true }) :
    Sound { s with pc := .ended, driverDone := true } :=
  ⟨⟨h.polled, h.called, h.sent, h.handed, h.rpc⟩, hq, nofun, h.asked, h.graceful, by simp⟩

theorem Quiet.react {e : Event} (h : Quiet s) (hs : react s e = some s') : Quiet s' := by
  cases e with
  | driver l => exact h.step hs
  | resolve r =>
    cases hs
    exact h.congr rfl rfl rfl rfl rfl rfl
  | collapse =>
    cases hs
    exact ⟨h.wire, nofun, h.ack, h.queue, h.kind⟩

theorem Sound.step {e : Event} (h : Sound s) (hs : react s e = some s') : Sound s' := by
  have hq := h.quiet.react hs
  rcases react_cases hs with ⟨flushed, replies, -, hpc, rfl⟩ | ⟨grace, -, rfl⟩ |
    ⟨-, -, rx, arrived, streamEnded, call, rfl, hrx, -⟩
  · exact h.pollSelect hpc flushed replies
  · exact h.end hq
  · exact h.congr hq hrx

theorem sound_reachable (h : lifeCycle.Reachable s) : Sound s := by
  refine LTS.Inductive.reachable (M := lifeCycle) ⟨?_, fun _ _ _ hi hs => hi.step hs⟩ h
  intro s hs
  obtain rfl : s = {} := hs
  exact ⟨⟨rfl, rfl, rfl, nofun, nofun⟩, quiet_reachable (.of_init rfl), fun _ => ⟨rfl, rfl⟩, by decide,
    fun hm => absurd hm (by decide), by simp⟩

end Step

/-! ## The loop ends -/

/-- The polls that the loop can take once it is asked to end: one may hand
out the result of the register call. -/
def St.left (s : St) : Nat := if s.pc = .select then if s.sentDone then 1 else 2 else 0

section Ends
variable {s s' : St}

theorem left_of_ne (hpc : s.pc ≠ .select) : s.left = 0 := if_neg hpc

theorem left_pos (hpc : s.pc = .select) : 0 < s.left := by
  unfold St.left
  rw [if_pos hpc]
  split
  · decide
  · decide

theorem leave_pc (s : St) (kind : Option ShutdownCommand) : (s.leave kind).pc ≠ .select := by
  rcases leave_cases s kind with ⟨grace, -, -, he⟩ | he
  · rw [he]
    exact nofun
  · rw [he]
    exact nofun

/-- **A poll that finds the loop asked to end** leaves it, or hands out the
result of the register call and is the last to do so. -/
theorem Asked.pollSelect (h : Sound s) (ha : Asked s) (hpc : s.pc = .select) (flushed replies : Nat) :
    ((s.pollSelect flushed replies).pc = .select → Asked (s.pollSelect flushed replies)) ∧
      (s.pollSelect flushed replies).left < s.left := by
  have hleaves : ∀ t kind, s.pollSelect flushed replies = St.leave t kind →
      ((s.pollSelect flushed replies).pc = .select → Asked (s.pollSelect flushed replies)) ∧
        (s.pollSelect flushed replies).left < s.left := by
    intro t kind he
    rw [he, left_of_ne (leave_pc t kind)]
    exact ⟨fun hsel => absurd hsel (leave_pc t kind), left_pos hpc⟩
  rcases h.poll_cases hpc flushed replies with ⟨r, hd, -, he⟩ | ⟨-, he⟩ | ⟨hrx, he⟩
  · rw [he, report_eq]
    refine ⟨fun _ => ha, ?_⟩
    simp [St.left, hpc, hd]
  · exact hleaves _ _ he
  · obtain ⟨hend, harr⟩ := ha.resolve_left (not_not_intro hrx)
    obtain ⟨call, ack, hp⟩ := pollRpc_eq s flushed replies
    have hover : (s.pollRpc flushed replies).streamEnded = true ∧
        (s.pollRpc flushed replies).arrived = [] := by
      rw [hp]
      exact ⟨hend, by simp [harr]⟩
    rcases rpcArm_cases (s.pollRpc flushed replies) with ⟨hnot, -⟩ | ⟨-, ⟨-, hl⟩ | ⟨r, -, hl⟩⟩
    · exact absurd hover hnot
    · exact hleaves _ _ (he.trans hl)
    · exact hleaves _ _ (he.trans hl)

/-- No event takes the demand back, or puts off the end. -/
theorem Asked.step {e : Event} (h : Sound s) (ha : s.pc = .select → Asked s) (hs : react s e = some s') :
    (s'.pc = .select → Asked s') ∧ s'.left ≤ s.left - if e.isPoll then 1 else 0 := by
  rcases react_cases hs with ⟨flushed, replies, rfl, hpc, rfl⟩ | ⟨grace, -, rfl⟩ |
    ⟨-, he, rx, arrived, streamEnded, call, rfl, -, hasked⟩
  · obtain ⟨hasked, hlt⟩ := (ha hpc).pollSelect h hpc flushed replies
    exact ⟨hasked, Nat.le_sub_one_of_lt hlt⟩
  · exact ⟨by simp, Nat.zero_le _⟩
  · rw [he]
    exact ⟨fun hpc => hasked (ha hpc), Nat.le_refl _⟩

theorem ends_run {es : List Event} (hrun : lifeCycle.Run s es s') (h : Sound s)
    (ha : s.pc = .select → Asked s) : s'.left ≤ s.left - es.countP Event.isPoll := by
  refine hrun.measure_le (I := fun s => Sound s ∧ (s.pc = .select → Asked s)) St.left Event.isPoll
    ?_ ⟨h, ha⟩
  intro t e t' hi hs
  obtain ⟨hasked, hle⟩ := Asked.step hi.1 hi.2 hs
  exact ⟨⟨hi.1.step hs, hasked⟩, hle⟩

/-- The done signal is sent in the end. -/
theorem done_inevitable (h : Sound s) (ha : s.pc = .select → Asked s) :
    lifeCycle.Inevitable OwnEvent (fun t => t.driverDone = true) s := by
  refine LTS.inevitable_of_measure (M := lifeCycle)
    (I := fun s => Sound s ∧ (s.pc = .select → Asked s)) (fun s => s.left) ?_ ?_ ⟨h, ha⟩
  · intro s hi
    cases hpc : s.pc with
    | select =>
      refine .inr ⟨.driver (.poll 0 0), s.pollSelect 0 0, trivial, ?_⟩
      simp only [lifeCycle, LTS.ofFn, react, Rpc.step, hpc]
    | waitAck grace =>
      refine .inr ⟨.driver .expire, { s with pc := .ended, driverDone := true }, trivial, ?_⟩
      simp only [lifeCycle, LTS.ofFn, react, Rpc.step, hpc]
    | ended => exact .inl (hi.1.done.2 hpc)
  · intro s e s' hi ho hs
    have hi' := hi.1.step hs
    rcases react_cases hs with ⟨flushed, replies, -, hpc, rfl⟩ | ⟨grace, -, rfl⟩ | ⟨hown, -⟩
    · obtain ⟨hasked, hlt⟩ := (hi.2 hpc).pollSelect hi.1 hpc flushed replies
      exact .inr ⟨⟨hi', hasked⟩, hlt⟩
    · exact .inl rfl
    · exact absurd ho hown

/-- Behind the done signal the driver does nothing. -/
theorem ended_step {e : Event} (hpc : s.pc = .ended) (hs : react s e = some s') :
    s'.pc = .ended ∧ s'.results = s.results ∧ s'.queue = s.queue ∧ s'.wire = s.wire := by
  rcases react_cases hs with ⟨flushed, replies, -, hsel, -⟩ | ⟨grace, hwait, -⟩ |
    ⟨-, -, rx, arrived, streamEnded, call, rfl, -⟩
  · rw [hpc] at hsel
    cases hsel
  · rw [hpc] at hwait
    cases hwait
  · exact ⟨hpc, rfl, rfl, rfl⟩

theorem ended_run {es : List Event} (hrun : lifeCycle.Run s es s') (hpc : s.pc = .ended) :
    s'.pc = .ended ∧ s'.results = s.results ∧ s'.queue = s.queue ∧ s'.wire = s.wire := by
  refine hrun.preserves (I := fun t => t.pc = .ended ∧ t.results = s.results ∧ t.queue = s.queue ∧
    t.wire = s.wire) ?_ ⟨hpc, rfl, rfl, rfl⟩
  intro t e t' hi hs
  obtain ⟨ht, hres, hq, hw⟩ := hi
  obtain ⟨ht', hres', hq', hw'⟩ := ended_step ht hs
  exact ⟨ht', hres'.trans hres, hq'.trans hq, hw'.trans hw⟩

end Ends

/-! ## The discipline -/

/-- `reported`, `exactly`: the registration result is sent once at most, and
once if the RPC system ended the loop. `polled`: nothing is polled again
once it is finished. `enabled`, `ends`: the loop can always be polled, and
two polls end it once it is asked to. `unregister`, `graceful`: the request
is issued once at most, on a graceful command behind a finished call.
`done`, `inevitable`, `last`: the done signal is sent at the end of the
driver, on every path, and behind everything else. -/
structure LifeCycle (s : St) : Prop where
  reported : s.results.length ≤ 1
  exactly : s.rpcDone = true → s.results.length = 1
  polled : s.overPolled = false
  enabled : s.pc = .select → ∀ flushed replies, ∃ t, react s (.driver (.poll flushed replies)) = some t
  ends : Asked s → ∀ es t, lifeCycle.Run s es t → 2 ≤ es.countP Event.isPoll → t.pc ≠ .select
  unregister : (s.queue ++ s.wire).count .unregister ≤ 1
  graceful : Request.unregister ∈ s.queue ++ s.wire →
    (∃ grace, s.rx = .sent (.graceful grace)) ∧ s.callDone = true
  done : s.driverDone = true ↔ s.pc = .ended
  inevitable : s.pc ≠ .select ∨ Asked s →
    lifeCycle.Inevitable OwnEvent (fun t => t.driverDone = true) s
  last : s.driverDone = true → ∀ es t, lifeCycle.Run s es t →
    t.driverDone = true ∧ t.results = s.results ∧ t.queue = s.queue ∧ t.wire = s.wire

/-- **The life cycle** of the driver, under every order of the events. -/
theorem life_cycle {s : St} (hs : lifeCycle.Reachable s) : LifeCycle s := by
  have h := sound_reachable hs
  have hwire : s.wire.count .unregister = 0 := List.count_eq_zero_of_not_mem h.quiet.wire
  refine
    { reported := ?_, exactly := fun hr => ?_, polled := h.polled, enabled := fun hpc flushed replies => ?_,
      ends := fun ha es t hrun htwo => ?_, unregister := ?_, graceful := fun hm => ?_, done := h.done,
      inevitable := fun hor => ?_, last := fun hd es t hrun => ?_ }
  · rw [h.sent]
    split
    · exact Nat.zero_le 1
    · exact Nat.le_refl 1
  · rw [h.sent, h.rpc hr]
    rfl
  · simp only [react, Rpc.step, hpc]
    exact ⟨_, rfl⟩
  · intro hpc
    have hle := ends_run hrun h fun _ => ha
    have hpos := left_pos hpc
    have htop : s.left ≤ 2 := by
      unfold St.left
      split
      · split <;> decide
      · decide
    omega
  · rw [List.count_append, hwire]
    exact h.asked
  · rcases List.mem_append.1 hm with hq | hw
    · exact ⟨(h.graceful hq).1, h.called.trans (h.graceful hq).2⟩
    · exact absurd hw h.quiet.wire
  · refine done_inevitable h fun hpc => ?_
    exact hor.resolve_left (not_not_intro hpc)
  · obtain ⟨hpc, hres, hq, hw⟩ := ended_run hrun (h.done.1 hd)
    exact ⟨(sound_reachable (hs.run hrun)).done.2 hpc, hres, hq, hw⟩

/-- The register call completes, a graceful command comes in and the RPC
system fails, all before the driver's next poll. -/
def allAtOnce : List Event :=
  [.driver (.poll 2 0), .resolve (.ok pop), .driver (.command (.graceful 5000)), .collapse,
    .driver (.poll 0 0), .driver (.poll 0 0)]

theorem life_cycle_allAtOnce :
    ∃ s, LTS.exec react {} allAtOnce = some s ∧ s.pc = .waitAck 5000 ∧ LifeCycle s :=
  ⟨_, rfl, rfl, life_cycle (LTS.reachable_of_exec react {} allAtOnce rfl)⟩

end QuickTunnel.Rpc

import QuickTunnel.Rpc.LifeCycle
import QuickTunnel.Rpc.Registration

/-!
# A registration and its control session

`register_connection` next to the driver it has started: the caller waits
for the result under a timeout, and goes away with an error or gets the
`ControlSession`, which it drops or shuts down. The driver is the one of
`LifeCycle`, the edge answers with any message at all.

* `Heard.poll`: a poll makes no result up.
* `inv_reachable`: what the caller knows and what the driver has been told.
* `session_agrees`: a session stands on an answer of the edge, an error is
  one of four, and no driver outlives its caller.
-/
namespace QuickTunnel.Rpc.Session

/-- Where the caller is: at `timeout(DEFAULT_RPC_TIMEOUT, done_rx)`, behind
an error, holding the session, in `shutdown_graceful`, or behind that or a
drop of the session. -/
inductive Caller
  | waiting
  | failed (e : TunnelError)
  | holding (d : RegistrationDetails)
  | draining (d : RegistrationDetails)
  | released (d : RegistrationDetails)
  deriving DecidableEq, Repr

/-- `replies` is a ghost: all that the edge has answered to the call. -/
structure St where
  driver : Rpc.St := {}
  caller : Caller := .waiting
  replies : List RegisterReply := []

/-- The driver polls or its wait is over (`poll`, `expire`); the edge answers
the register call (`reply`) or the other one (`acked`), ends the stream, or
the RPC system fails; the caller gets the result, finds the channel closed,
times out, drops the session, or shuts it down and is done with that. -/
inductive Label
  | poll (flushed replies : Nat)
  | expire
  | reply (r : RegisterReply)
  | acked
  | endStream
  | collapse
  | received
  | channelClosed
  | timedOut
  | dropSession
  | shutdownGraceful (grace : Nat)
  | drained

/-- An event of the driver. -/
def St.react (s : St) (e : Event) (caller : Caller) : Option St :=
  (Rpc.react s.driver e).map fun driver => { s with driver := driver, caller := caller }

/-- All that `register_connection` has is dropped with its error. -/
def St.fail (s : St) (e : TunnelError) : Option St := s.react (.driver .dropSender) (.failed e)

/-- mirrors src/rpc.rs:149-175,327-343 -/
def step (s : St) : Label → Option St
  | .poll flushed replies => s.react (.driver (.poll flushed replies)) s.caller
  | .expire => s.react (.driver .expire) s.caller
  | .reply r => ({ s with replies := s.replies ++ [r] } : St).react
      -- a rejected promise is no message on the stream
      (match r with
        | .rejected _ => .resolve r.outcome
        | _ => .driver (.reply (.registered r.outcome))) s.caller
  | .acked => s.react (.driver (.reply .unregistered)) s.caller
  | .endStream => s.react (.driver .endStream) s.caller
  | .collapse => s.react .collapse s.caller
  | .received =>
    match s.caller, s.driver.results with
    | .waiting, .ok d :: _ => some { s with caller := .holding d }
    | .waiting, .error e :: _ => s.fail e
    | _, _ => none
  | .channelClosed =>
    if s.caller = .waiting ∧ s.driver.results = [] ∧ s.driver.driverDone = true then
      s.fail (.register "RPC driver dropped result channel")
    else none
  | .timedOut =>
    -- the timeout polls the channel first
    if s.caller = .waiting ∧ s.driver.results = [] then
      s.fail (.register "register_connection RPC timed out")
    else none
  | .dropSession =>
    match s.caller with
    | .holding d => s.react (.driver (.command .immediate)) (.released d)
    | _ => none
  | .shutdownGraceful grace =>
    match s.caller with
    | .holding d => s.react (.driver (.command (.graceful grace))) (.draining d)
    | _ => none
  | .drained =>
    match s.caller with
    | .draining d => some { s with caller := .released d }
    | _ => none

def session : LTS St Label := LTS.ofFn (· = {}) step

/-! ## Nothing is made up -/

def terminated : TunnelError := .register "RPC system terminated before call completed"

/-- All that the driver has to report is among `K`. -/
structure Heard (K : Except TunnelError RegistrationDetails → Prop) (t : Rpc.St) : Prop where
  arrived : ∀ r, .registered r ∈ t.arrived → K r
  call : ∀ r, t.call = some r → K r
  results : ∀ r ∈ t.results, K r ∨ r = .error terminated

section Heard
variable {K K' : Except TunnelError RegistrationDetails → Prop} {t t' : Rpc.St}

theorem Heard.mono (h : Heard K t) (hK : ∀ r, K r → K' r) : Heard K' t :=
  ⟨fun r hr => hK r (h.arrived r hr), fun r hr => hK r (h.call r hr),
    fun r hr => (h.results r hr).imp_left (hK r)⟩

theorem Heard.congr (h : Heard K t) (ha : t'.arrived = t.arrived) (hc : t'.call = t.call)
    (hr : t'.results = t.results) : Heard K t' :=
  ⟨ha ▸ h.arrived, hc ▸ h.call, hr ▸ h.results⟩

theorem Heard.report (h : Heard K t) {r : Except TunnelError RegistrationDetails}
    (hr : K r ∨ r = .error terminated) : Heard K (t.report r) := by
  rw [report_eq]
  refine ⟨h.arrived, h.call, ?_⟩
  intro x hx
  cases hd : t.doneTx with
  | true =>
    simp only [hd, if_true, List.mem_append, List.mem_singleton] at hx
    rcases hx with hx | rfl
    · exact h.results x hx
    · exact hr
  | false =>
    simp only [hd, Bool.false_eq_true, if_false] at hx
    exact h.results x hx

theorem Heard.leave (h : Heard K t) (kind : Option ShutdownCommand) : Heard K (t.leave kind) := by
  rcases leave_cases t kind with ⟨grace, -, -, he⟩ | he <;> rw [he] <;> exact h.congr rfl rfl rfl

theorem receive_call (rs : List Reply) (t : Rpc.St) {r : Except TunnelError RegistrationDetails}
    (h : (rs.foldl St.receive t).call = some r) : t.call = some r ∨ .registered r ∈ rs := by
  induction rs generalizing t with
  | nil => exact .inl h
  | cons x rs ih =>
    rcases ih (t.receive x) h with hc | hm
    · cases x with
      | registered r' =>
        cases htc : t.call with
        | some r'' =>
          simp only [Rpc.St.receive, htc] at hc
          exact .inl hc
        | none =>
          simp only [Rpc.St.receive, htc] at hc
          cases hc
          exact .inr List.mem_cons_self
      | unregistered => exact .inl hc
    · exact .inr (List.mem_cons_of_mem _ hm)

theorem Heard.pollRpc (h : Heard K t) (flushed replies : Nat) : Heard K (t.pollRpc flushed replies) := by
  obtain ⟨call, ack, he⟩ := pollRpc_eq t flushed replies
  have hcall : (t.pollRpc flushed replies).call = call := by rw [he]
  refine ⟨?_, ?_, ?_⟩
  · rw [he]
    exact fun r hr => h.arrived r (List.mem_of_mem_drop hr)
  · intro r hr
    rcases receive_call _ _ hr with hc | hm
    · exact h.call r hc
    · exact h.arrived r (List.mem_of_mem_take hm)
  · rw [he]
    exact h.results

theorem Heard.rpcArm (h : Heard K t) : Heard K t.rpcArm := by
  unfold Rpc.St.rpcArm
  split
  · refine Heard.leave ?_ _
    have h' : Heard K { t with rpcDone := true } := h.congr rfl rfl rfl
    split
    · exact h'
    · exact h'.report (.inr rfl)
  · exact h

/-- **A poll makes no result up.** -/
theorem Heard.poll (h : Heard K t) (hs : Sound t) (hpc : t.pc = .select) (flushed replies : Nat) :
    Heard K (t.pollSelect flushed replies) := by
  rcases hs.poll_cases hpc flushed replies with ⟨r, -, hc, he⟩ | ⟨-, he⟩ | ⟨-, he⟩
  · rw [he]
    exact (h.report (.inl (h.call r hc))).congr rfl rfl rfl
  · have h' : Heard K { t with rxDone := true } := h.congr rfl rfl rfl
    rw [he]
    exact h'.leave _
  · rw [he]
    exact (h.pollRpc flushed replies).rpcArm

/-- What the edge's answer and a failed call bring is among `K`. -/
def Brings (K : Except TunnelError RegistrationDetails → Prop) : Event → Prop
  | .driver (.reply (.registered r)) => K r
  | .resolve r => K r
  | _ => True

theorem Heard.react {e : Event} (h : Heard K t) (hs : Sound t) (hK : Brings K e)
    (hr : Rpc.react t e = some t') : Heard K t' := by
  cases e with
  | resolve r =>
    cases hr
    refine ⟨h.arrived, ?_, h.results⟩
    intro x hx
    cases hc : t.call with
    | some y =>
      rw [hc] at hx
      exact h.call x (hc.trans hx)
    | none =>
      rw [hc] at hx
      cases hx
      exact hK
  | collapse =>
    cases hr
    exact ⟨by simp, h.call, h.results⟩
  | driver l =>
    cases l with
    | poll flushed replies =>
      simp only [Rpc.react, Rpc.step] at hr
      split at hr
      · rename_i hpc
        cases hr
        exact h.poll hs hpc flushed replies
      · split at hr <;> cases hr
        exact h.congr rfl rfl rfl
      · cases hr
    | expire =>
      simp only [Rpc.react, Rpc.step] at hr
      split at hr <;> cases hr
      exact h.congr rfl rfl rfl
    | endStream =>
      cases hr
      exact h.congr rfl rfl rfl
    | reply r =>
      simp only [Rpc.react, Rpc.step, Option.ite_none_right_eq_some, Option.some.injEq] at hr
      obtain ⟨-, rfl⟩ := hr
      refine ⟨?_, h.call, h.results⟩
      intro x hx
      rcases List.mem_append.mp hx with hx | hx
      · exact h.arrived x hx
      · cases List.mem_singleton.mp hx
        exact hK
    | command | dropSender =>
      simp only [Rpc.react, Rpc.step, Option.ite_none_right_eq_some, Option.some.injEq] at hr
      obtain ⟨-, rfl⟩ := hr
      exact h.congr rfl rfl rfl

end Heard

/-! ## What the driver has been told -/

section Told
variable {t t' : Rpc.St} {e : Event}

/-- Out of the loop the driver has been asked to end, or has seen the RPC
system end. -/
def Left (t : Rpc.St) : Prop := t.pc ≠ .select → t.rx ≠ .waiting ∨ t.rpcDone = true

theorem leave_rpcDone (t : Rpc.St) (kind : Option ShutdownCommand) : (t.leave kind).rpcDone = t.rpcDone := by
  rcases leave_cases t kind with ⟨grace, -, -, he⟩ | he <;> rw [he]

theorem leave_results (t : Rpc.St) (kind : Option ShutdownCommand) : (t.leave kind).results = t.results := by
  rcases leave_cases t kind with ⟨grace, -, -, he⟩ | he <;> rw [he]

theorem Left.react (h : Left t) (hs : Sound t) (hr : Rpc.react t e = some t') : Left t' := by
  rcases react_cases hr with ⟨flushed, replies, -, hpc, rfl⟩ | ⟨grace, hpc, rfl⟩ |
    ⟨-, -, rx, arrived, streamEnded, call, rfl, hrx, -⟩
  · rcases hs.poll_cases hpc flushed replies with ⟨r, -, -, he⟩ | ⟨hrx, -⟩ | ⟨-, he⟩
    · intro hne
      rw [he] at hne
      exact absurd ((report_fields t r).1.trans hpc) hne
    · rw [← pollSelect_rx t flushed replies] at hrx
      exact fun _ => .inl hrx
    · rw [he]
      have hsel : (t.pollRpc flushed replies).pc = .select := by
        obtain ⟨call, ack, hp⟩ := pollRpc_eq t flushed replies
        rw [hp]
        exact hpc
      rcases rpcArm_cases (t.pollRpc flushed replies) with ⟨-, ha⟩ | ⟨-, ⟨-, ha⟩ | ⟨r, -, ha⟩⟩ <;> rw [ha]
      · exact fun hne => absurd hsel hne
      · exact fun _ => .inr (leave_rpcDone _ _)
      · refine fun _ => .inr ?_
        rw [leave_rpcDone, report_eq]
  · exact fun _ => h (by rw [hpc]; simp)
  · intro hne
    rcases h hne with hw | hd
    · exact .inl (by rw [hrx.resolve_left hw]; exact hw)
    · exact .inr hd

theorem report_kept (hd : t.doneTx = false) (r : Except TunnelError RegistrationDetails) :
    (t.report r).results = t.results := by
  rw [report_eq, hd]
  rfl

/-- The result channel is used once. -/
theorem results_kept (hs : Sound t) (hr : Rpc.react t e = some t')
    {x : Except TunnelError RegistrationDetails} (hx : t.results = [x]) : t'.results = [x] := by
  have hd : t.doneTx = false := by
    have hlen := hs.sent
    rw [hx] at hlen
    cases hd : t.doneTx with
    | true => simp [hd] at hlen
    | false => rfl
  rcases react_cases hr with ⟨flushed, replies, -, hpc, rfl⟩ | ⟨grace, -, rfl⟩ |
    ⟨-, -, rx, arrived, streamEnded, call, rfl, -⟩
  · rw [← hx]
    rcases hs.poll_cases hpc flushed replies with ⟨r, -, -, he⟩ | ⟨-, he⟩ | ⟨-, he⟩
    · rw [he]
      exact report_kept hd r
    · rw [he]
      exact leave_results _ _
    · obtain ⟨call, ack, hp⟩ := pollRpc_eq t flushed replies
      have hres : (t.pollRpc flushed replies).results = t.results := by rw [hp]
      have hdone : (t.pollRpc flushed replies).doneTx = false := by rw [hp]; exact hd
      rw [he]
      generalize t.pollRpc flushed replies = u at hres hdone
      rcases rpcArm_cases u with ⟨-, ha⟩ | ⟨-, ⟨-, ha⟩ | ⟨r, -, ha⟩⟩ <;> rw [ha]
      · exact hres
      · rw [leave_results]
        exact hres
      · rw [leave_results]
        exact (report_kept (t := { u with rpcDone := true }) hdone r).trans hres
  · exact hx
  · exact hx

/-- The caller's own events. -/
def isCallers : Event → Bool
  | .driver (.command _) => true
  | .driver .dropSender => true
  | _ => false

theorem rx_kept (he : isCallers e = false) (hr : Rpc.react t e = some t') : t'.rx = t.rx := by
  cases e with
  | resolve r => cases hr; rfl
  | collapse => cases hr; rfl
  | driver l =>
    cases l with
    | poll flushed replies =>
      simp only [Rpc.react, Rpc.step] at hr
      split at hr
      · cases hr
        exact pollSelect_rx t flushed replies
      · split at hr <;> cases hr
        rfl
      · cases hr
    | expire =>
      simp only [Rpc.react, Rpc.step] at hr
      split at hr <;> cases hr
      rfl
    | endStream => cases hr; rfl
    | reply r =>
      simp only [Rpc.react, Rpc.step, Option.ite_none_right_eq_some, Option.some.injEq] at hr
      obtain ⟨-, rfl⟩ := hr
      rfl
    | command | dropSender => cases he

end Told

/-! ## The two together -/

/-- What the caller has been given. -/
def Caller.details : Caller → Option RegistrationDetails
  | .holding d => some d
  | .draining d => some d
  | .released d => some d
  | _ => none

/-- An outcome that some answer of the edge has. -/
def Known (s : St) (r : Except TunnelError RegistrationDetails) : Prop := ∃ m ∈ s.replies, m.outcome = r

/-- The command channel and the result channel as the caller has used them. -/
def Agrees (t : Rpc.St) : Caller → Prop
  | .waiting => t.rx = .waiting
  | .failed _ => t.rx = .closed
  | .holding d => t.rx = .waiting ∧ t.results = [.ok d]
  | .draining d => (∃ grace, t.rx = .sent (.graceful grace)) ∧ t.results = [.ok d]
  | .released d => (∃ c, t.rx = .sent c) ∧ t.results = [.ok d]

/-- Why a registration has failed. -/
def Explained (s : St) (e : TunnelError) : Prop :=
  e = .register "register_connection RPC timed out" ∨ e = terminated ∨ Known s (.error e)

structure Inv (s : St) : Prop where
  sound : Sound s.driver
  heard : Heard (Known s) s.driver
  left : Left s.driver
  agrees : Agrees s.driver s.caller
  failed : ∀ e, s.caller = .failed e → Explained s e

section Steps
variable {s s' : St} {e : Event} {c : Caller}

theorem react_eq (h : s.react e c = some s') :
    ∃ t, Rpc.react s.driver e = some t ∧ s' = { s with driver := t, caller := c } := by
  simp only [St.react, Option.map_eq_some_iff] at h
  obtain ⟨t, ht, rfl⟩ := h
  exact ⟨t, ht, rfl⟩

/-- An event of the driver, with what the caller makes of it. -/
theorem Inv.react (h : Inv s) (hs : s.react e c = some s') (hK : Brings (Known s) e)
    (hc : ∀ t, Rpc.react s.driver e = some t → Agrees t c) (hf : ∀ err, c = .failed err → Explained s err) :
    Inv s' := by
  obtain ⟨t, ht, rfl⟩ := react_eq hs
  exact ⟨h.sound.step ht, h.heard.react h.sound hK ht, h.left.react h.sound ht, hc t ht, hf⟩

/-- The driver and the edge do not touch the command channel. -/
theorem Inv.others (h : Inv s) (hs : s.react e s.caller = some s') (hK : Brings (Known s) e)
    (he : isCallers e = false) : Inv s' := by
  refine h.react hs hK ?_ h.failed
  intro t ht
  have hrx := rx_kept he ht
  have ha := h.agrees
  cases hc : s.caller <;> rw [hc] at ha
  case waiting => exact hrx.trans ha
  case failed => exact hrx.trans ha
  case holding => exact ⟨hrx.trans ha.1, results_kept h.sound ht ha.2⟩
  case draining =>
    obtain ⟨⟨grace, hg⟩, hres⟩ := ha
    exact ⟨⟨grace, hrx.trans hg⟩, results_kept h.sound ht hres⟩
  case released =>
    obtain ⟨⟨cmd, hg⟩, hres⟩ := ha
    exact ⟨⟨cmd, hrx.trans hg⟩, results_kept h.sound ht hres⟩

theorem Inv.fail {err : TunnelError} (h : Inv s) (hs : s.fail err = some s') (he : Explained s err) :
    Inv s' := by
  refine h.react hs trivial ?_ ?_
  · intro t ht
    simp only [Rpc.react, Rpc.step, Option.ite_none_right_eq_some, Option.some.injEq] at ht
    obtain ⟨-, rfl⟩ := ht
    rfl
  · intro err' he'
    cases he'
    exact he

/-- A command goes out on the channel. -/
theorem Inv.command {cmd : ShutdownCommand} {d : RegistrationDetails} (h : Inv s) (hc : s.caller = .holding d)
    (hs : s.react (.driver (.command cmd)) c = some s')
    (hagree : ∀ t : Rpc.St, t.rx = .sent cmd → t.results = [.ok d] → Agrees t c)
    (hf : ∀ err, c ≠ .failed err) : Inv s' := by
  have ha := h.agrees
  rw [hc] at ha
  refine h.react hs trivial ?_ fun err he => absurd he (hf err)
  intro t ht
  have hres := results_kept h.sound ht ha.2
  simp only [Rpc.react, Rpc.step, Option.ite_none_right_eq_some, Option.some.injEq] at ht
  obtain ⟨-, rfl⟩ := ht
  exact hagree _ rfl hres

/-- A driver that has ended behind a caller that waits has reported. -/
theorem Inv.reported (h : Inv s) (hc : s.caller = .waiting) (hd : s.driver.driverDone = true) :
    s.driver.results ≠ [] := by
  intro hnil
  have ha := h.agrees
  rw [hc] at ha
  have hpc : s.driver.pc ≠ .select := by
    rw [h.sound.done.1 hd]
    simp
  rcases h.left hpc with hrx | hrpc
  · exact hrx ha
  · have hlen := h.sound.sent
    rw [h.sound.rpc hrpc, hnil] at hlen
    cases hlen

theorem inv_step {l : Label} (h : Inv s) (hs : step s l = some s') : Inv s' := by
  cases l with
  | poll flushed replies => exact h.others hs trivial rfl
  | expire => exact h.others hs trivial rfl
  | acked => exact h.others hs trivial rfl
  | endStream => exact h.others hs trivial rfl
  | collapse => exact h.others hs trivial rfl
  | reply r =>
    have h' : Inv { s with replies := s.replies ++ [r] } := by
      have hmono : ∀ x, Known s x → Known { s with replies := s.replies ++ [r] } x := by
        intro x hx
        obtain ⟨m, hm, he⟩ := hx
        exact ⟨m, List.mem_append_left _ hm, he⟩
      exact ⟨h.sound, h.heard.mono hmono, h.left, h.agrees,
        fun err he => (h.failed err he).imp_right fun he => he.imp_right (hmono _)⟩
    have hnew : Known { s with replies := s.replies ++ [r] } r.outcome :=
      ⟨r, List.mem_append_right _ (List.mem_singleton_self r), rfl⟩
    cases r <;> exact h'.others hs hnew rfl
  | received =>
    simp only [step] at hs
    split at hs
    · rename_i d rest hc hres
      cases hs
      have hlen := h.sound.sent
      rw [hres, List.length_cons] at hlen
      have hrest : rest = [] := by
        apply List.eq_nil_of_length_eq_zero
        split at hlen <;> omega
      have ha := h.agrees
      rw [hc] at ha
      exact ⟨h.sound, h.heard, h.left, ⟨ha, by rw [hres, hrest]⟩, by simp⟩
    · rename_i err rest hc hres
      refine h.fail hs ?_
      rcases h.heard.results (.error err) (by rw [hres]; exact List.mem_cons_self) with hk | ht
      · exact .inr (.inr hk)
      · cases ht
        exact .inr (.inl rfl)
    · cases hs
  | channelClosed =>
    simp only [step, Option.ite_none_right_eq_some] at hs
    obtain ⟨⟨hc, hnil, hd⟩, -⟩ := hs
    exact absurd hnil (h.reported hc hd)
  | timedOut =>
    simp only [step, Option.ite_none_right_eq_some] at hs
    exact h.fail hs.2 (.inl rfl)
  | dropSession =>
    simp only [step] at hs
    split at hs
    · rename_i d hc
      exact h.command hc hs (fun t hrx hres => ⟨⟨_, hrx⟩, hres⟩) (by simp)
    · cases hs
  | shutdownGraceful grace =>
    simp only [step] at hs
    split at hs
    · rename_i d hc
      exact h.command hc hs (fun t hrx hres => ⟨⟨_, hrx⟩, hres⟩) (by simp)
    · cases hs
  | drained =>
    simp only [step] at hs
    split at hs
    · rename_i d hc
      cases hs
      have ha := h.agrees
      rw [hc] at ha
      obtain ⟨⟨grace, hg⟩, hres⟩ := ha
      exact ⟨h.sound, h.heard, h.left, ⟨⟨_, hg⟩, hres⟩, by simp⟩
    · cases hs

theorem inv_reachable (h : session.Reachable s) : Inv s := by
  refine LTS.Inductive.reachable (M := session) ⟨?_, fun _ _ _ hi hs => inv_step hi hs⟩ h
  intro s hs
  obtain rfl : s = {} := hs
  exact ⟨sound_reachable (.of_init rfl), ⟨by simp, by simp, by simp⟩, fun hne => absurd rfl hne, rfl, by simp⟩

/-- The steps that the driver's thread takes by itself. -/
def Own (_ : St) : Label → Prop
  | .poll _ _ => True
  | .expire => True
  | _ => False

end Steps

end QuickTunnel.Rpc.Session

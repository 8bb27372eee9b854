import QuickTunnel.Pool.Concurrent

/-!
# Expired entries in the idle list

`acquire` looks at the list from its newest end and stops at the first entry
that is young enough, so what is older stays below it; and `release` counts
every entry, expired or not. The list is tidy as long as its oldest entry
tells the age of all of them: it is live, or the newest one has expired too.

**Results.**
* `tidy_step_iff`: which steps leave no expired entry behind and drop no
  socket for one.
* `tidy_iff`: the runs all of whose steps are tidy.
-/
namespace QuickTunnel.Pool.Concurrent

/-- After an `acquire` no entry is too old, and a `release` drops its socket
only if the list is full of entries that are not. -/
structure Tidy (p : Pool Nat) (s : St) (l : Label) (s' : St) : Prop where
  reaped : ∀ i delays, l = .examine i delays → ∀ e ∈ s'.pool.idle, e.elapsed s'.clock ≤ p.idleTtl
  dropped : ∀ k, l = .store k → k ∉ s'.idleSockets →
    s.pool.idle.length = p.maxIdle ∧ ∀ e ∈ s.pool.idle, e.elapsed s.clock ≤ p.idleTtl

/-- The oldest entry is live at `now`. -/
def OldestLive (p : Pool Nat) (s : St) (now : Nat) : Prop :=
  ∀ e ∈ s.pool.idle.getLast?, e.elapsed now ≤ p.idleTtl

/-- Where `acquire` looks at the list, the oldest entry is live or the newest
has expired; where `release` does, there is room or the oldest is live. -/
def Uniform (p : Pool Nat) (s : St) : Label → Prop
  | .examine _ delays => OldestLive p s (s.clock + delays.headD 0) ∨
    ∀ e ∈ s.pool.idle.head?, p.idleTtl < e.elapsed (s.clock + delays.headD 0)
  | .store _ => s.pool.idle.length < p.maxIdle ∨ OldestLive p s s.clock
  | _ => True

theorem Ordered.last_le {idle : List (Idle Nat)} (h : Ordered idle) {e : Idle Nat}
    (he : idle.getLast? = some e) : ∀ e' ∈ idle, e.releasedAt ≤ e'.releasedAt := by
  obtain ⟨front, rfl⟩ := List.getLast?_eq_some_iff.1 he
  intro e' he'
  rcases List.mem_append.1 he' with hf | hl
  · exact (List.pairwise_append.1 h).2.2 e' hf e (List.mem_singleton_self e)
  · exact Nat.le_of_eq (congrArg Idle.releasedAt (List.mem_singleton.1 hl).symm)

section Step
variable {p : Pool Nat} {s s' : St} {now : Nat}

/-- The oldest entry speaks for all. -/
theorem oldestLive_iff (hi : Inv p s) :
    OldestLive p s now ↔ ∀ e ∈ s.pool.idle, e.elapsed now ≤ p.idleTtl := by
  refine ⟨fun h e he => ?_, fun h e he => h e (List.mem_of_mem_getLast? he)⟩
  obtain ⟨last, hlast⟩ : ∃ last, s.pool.idle.getLast? = some last :=
    Option.isSome_iff_exists.1 (by rw [List.getLast?_isSome]; exact List.ne_nil_of_mem he)
  have hage := h last hlast
  have hle := Ordered.last_le hi.ordered hlast e he
  unfold Idle.elapsed at *
  omega

theorem tidy_examine_iff {i : Nat} {delays : List Nat} (hi : Inv p s)
    (h : step s (.examine i delays) = some s') :
    Tidy p s (.examine i delays) s' ↔ Uniform p s (.examine i delays) := by
  obtain ⟨-, ⟨e, rest, he, hage, rfl⟩ | ⟨hall, now, -, rfl⟩⟩ := examine_cases hi h
  · -- a hit: the entries below the newest stay
    have hnewest : ¬ ∀ e ∈ s.pool.idle.head?, p.idleTtl < e.elapsed (s.clock + delays.headD 0) := by
      intro hexp
      have := hexp e (by rw [he]; rfl)
      omega
    simp only [Uniform]
    rw [or_iff_left hnewest, oldestLive_iff hi, he, List.forall_mem_cons]
    refine ⟨fun ht => ⟨hage, ht.reaped i delays rfl⟩, fun hlive => ⟨?_, nofun⟩⟩
    intro j ds _
    exact hlive.2
  · refine ⟨fun _ => .inr fun e he => hall e (List.mem_of_mem_head? he), fun _ => ⟨?_, nofun⟩⟩
    intro j ds _ e he
    cases he

theorem tidy_store_iff {k : Nat} (hi : Inv p s) (h : step s (.store k) = some s') :
    Tidy p s (.store k) s' ↔ Uniform p s (.store k) := by
  simp only [step, Option.ite_none_right_eq_some, Option.some.injEq] at h
  obtain ⟨hk, rfl⟩ := h
  have hidle : k ∉ s.idleSockets := fun hmem =>
    (List.nodup_append.1 hi.nodup).2.2 k hmem k (List.mem_append_right _ hk) rfl
  have hlen := hi.length
  have hcap := hi.cap
  by_cases hroom : s.pool.idle.length < p.maxIdle
  · have hkept : k ∈ (s.pool.release k s.clock).idle.map Idle.stream := by
      unfold Pool.release
      rw [if_neg (by omega)]
      exact List.mem_cons_self
    refine ⟨fun _ => .inl hroom, fun _ => ⟨by simp, ?_⟩⟩
    intro j hj hgone
    cases hj
    exact absurd hkept hgone
  · have hfull : s.pool.release k s.clock = s.pool := by
      unfold Pool.release
      rw [if_pos (by omega)]
    simp only [Uniform, hroom, false_or, oldestLive_iff hi]
    refine ⟨fun ht => (ht.dropped k rfl ?_).2, fun hlive => ⟨by simp, fun j _ _ => ⟨by omega, hlive⟩⟩⟩
    simpa only [St.idleSockets, hfull] using hidle

/-- **One step.** -/
theorem tidy_step_iff {l : Label} (hi : Inv p s) (h : step s l = some s') :
    Tidy p s l s' ↔ Uniform p s l := by
  cases l with
  | examine i delays => exact tidy_examine_iff hi h
  | store k => exact tidy_store_iff hi h
  | _ => exact ⟨fun _ => trivial, fun _ => ⟨nofun, nofun⟩⟩

end Step

/-- **Expired sockets never displace live ones** in exactly the runs in which
every list looked at is uniform. -/
theorem tidy_iff {p : Pool Nat} {ls : List Label} {s : St} :
    ((system p).restrict (Tidy p)).Run (start p) ls s ↔
      ((system p).guard (Uniform p)).Run (start p) ls s := by
  constructor
  · intro h
    refine h.map (I := Inv p) ?_ (inv_start p)
    intro s l s' hi hstep
    obtain ⟨hs, ht⟩ := hstep
    exact ⟨⟨hs, (tidy_step_iff hi hs).1 ht⟩, inv_step hi hs⟩
  · intro h
    refine h.map (I := Inv p) ?_ (inv_start p)
    intro s l s' hi hstep
    obtain ⟨hs, hu⟩ := hstep
    exact ⟨⟨hs, (tidy_step_iff hi hs).2 hu⟩, inv_step hi hs⟩

/-- A burst of two, of which one comes back half a minute later. -/
def lateReturn : List Label :=
  [.acquire 0, .examine 0 [], .connected 0, .acquire 1, .examine 1 [], .connected 1, .release 0,
    .store 0, .tick (31 * 10 ^ 9), .release 1]

/-- An `acquire` leaves an expired entry behind; and where there is room for
one socket only, a `release` drops its socket for an expired one. -/
theorem expired_stays :
    (∃ s s', (system (new 8080)).Run (start (new 8080)) (lateReturn ++ [.store 1, .acquire 2]) s ∧
      step s (.examine 2 []) = some s' ∧ ¬ Tidy (new 8080) s (.examine 2 []) s') ∧
    ∃ s s', (system ⟨8080, defaultIdleTtl, 1, []⟩).Run (start ⟨8080, defaultIdleTtl, 1, []⟩) lateReturn s ∧
      step s (.store 1) = some s' ∧ ¬ Tidy ⟨8080, defaultIdleTtl, 1, []⟩ s (.store 1) s' := by
  refine ⟨⟨_, _, LTS.run_of_exec rfl, rfl, fun ht => ?_⟩, ⟨_, _, LTS.run_of_exec rfl, rfl, fun ht => ?_⟩⟩
  · exact absurd (ht.reaped 2 [] rfl ⟨0, 0⟩ (by decide)) (by decide)
  · exact absurd ((ht.dropped 1 rfl (by decide)).2 ⟨0, 0⟩ (by decide)) (by decide)

end QuickTunnel.Pool.Concurrent

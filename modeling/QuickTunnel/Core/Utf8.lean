import QuickTunnel.Core.Bytes

/-!
# Well-formed UTF-8

`isUtf8` is `str::from_utf8(s).is_ok()`, over the same tables as
`fromUtf8Lossy`: the two read a byte string alike up to the first byte that
cannot stand where it stands.

* `isUtf8_fromUtf8Lossy`: the lossy conversion yields well-formed text.
* `fromUtf8Lossy_eq_iff`: it keeps exactly the well-formed strings.
-/
namespace QuickTunnel

/-- `pend` is the prefix of a multi-byte sequence read so far. -/
def isUtf8Go : Bytes → Bytes → Bool
  | pend, [] => pend == []
  | pend, b :: rest =>
    if pend = [] then
      if b < 128 then isUtf8Go [] rest else isLead b && isUtf8Go [b] rest
    else
      continues pend b &&
        if (pend ++ [b]).length = width (pend.headD 0) then isUtf8Go [] rest
        else isUtf8Go (pend ++ [b]) rest

def isUtf8 (s : Bytes) : Bool := isUtf8Go [] s

example : isUtf8 [0x63, 0xC3, 0xA9] = true ∧ isUtf8 [0x63, 0xE9] = false ∧
    isUtf8 [0xED, 0xA0, 0x80] = false := by
  decide

theorem lossyGo_of_isUtf8Go {s : Bytes} : ∀ {pend}, isUtf8Go pend s = true → lossyGo pend s = pend ++ s := by
  induction s with
  | nil =>
    intro pend h
    have hp : pend = [] := by simpa [isUtf8Go] using h
    rw [hp]
    rfl
  | cons b s ih =>
    intro pend h
    unfold isUtf8Go at h
    unfold lossyGo
    split at h
    · rename_i hp
      subst hp
      rw [if_neg (by simp)]
      split at h
      · rename_i hb
        simp [hb, ih h]
      · rename_i hb
        rw [Bool.and_eq_true] at h
        simp [hb, h.1, ih h.2]
    · rename_i hp
      rw [Bool.and_eq_true] at h
      rw [if_pos ⟨hp, h.1⟩]
      split
      · rename_i hw
        rw [if_pos hw] at h
        simp [ih h.2]
      · rename_i hw
        rw [if_neg hw] at h
        simp [ih h.2]

/-- Well-formed text is kept. -/
theorem fromUtf8Lossy_of_isUtf8 {s : Bytes} (h : isUtf8 s = true) : fromUtf8Lossy s = s :=
  lossyGo_of_isUtf8Go h

/-- The bytes `pend`, read from between two characters, leave the checker
with `pend` pending. -/
def Pending (pend : Bytes) : Prop := ∀ t, isUtf8Go [] (pend ++ t) = isUtf8Go pend t

theorem pending_lead {b : UInt8} (h : isLead b = true) : Pending [b] := by
  intro t
  have hb : ¬ b < 128 := UInt8.not_lt.2 (isLead_ge h)
  simp [isUtf8Go, hb, h]

/-- A byte that continues the sequence ends it, or is pending with it. -/
theorem Pending.snoc {pend : Bytes} {b : UInt8} (h : Pending pend) (hp : pend ≠ [])
    (hc : continues pend b = true) (t : Bytes) :
    isUtf8Go [] (pend ++ [b] ++ t) =
      if (pend ++ [b]).length = width (pend.headD 0) then isUtf8Go [] t else isUtf8Go (pend ++ [b]) t := by
  rw [List.append_assoc, h]
  simp only [List.singleton_append]
  rw [isUtf8Go, if_neg hp, hc, Bool.true_and]

theorem isUtf8Go_lossyGo {s : Bytes} : ∀ {pend}, Pending pend → isUtf8Go [] (lossyGo pend s) = true := by
  induction s with
  | nil =>
    intro pend _
    unfold lossyGo
    split
    · rfl
    · rfl
  | cons b s ih =>
    intro pend h
    have hnil : Pending [] := fun t => rfl
    unfold lossyGo
    split
    · rename_i hc
      split
      · rename_i hw
        rw [h.snoc hc.1 hc.2, if_pos hw]
        exact ih hnil
      · rename_i hw
        refine ih fun t => ?_
        rw [h.snoc hc.1 hc.2, if_neg hw]
    · -- whatever was pending is replaced, and `b` starts afresh
      have hstart : isUtf8Go [] (if b < 128 then b :: lossyGo [] s
          else if isLead b then lossyGo [b] s else replacement ++ lossyGo [] s) = true := by
        split
        · rename_i hb
          rw [isUtf8Go, if_pos rfl, if_pos hb]
          exact ih hnil
        · split
          · rename_i hl
            exact ih (pending_lead hl)
          · -- `isUtf8Go` runs through the replacement character
            exact ih hnil
      split
      · exact hstart
      · exact hstart

/-- What the lossy conversion yields is well formed. -/
theorem isUtf8_fromUtf8Lossy (s : Bytes) : isUtf8 (fromUtf8Lossy s) = true :=
  isUtf8Go_lossyGo fun _ => rfl

theorem fromUtf8Lossy_eq_iff {s : Bytes} : fromUtf8Lossy s = s ↔ isUtf8 s = true := by
  constructor
  · intro h
    rw [← h]
    exact isUtf8_fromUtf8Lossy s
  · exact fromUtf8Lossy_of_isUtf8

end QuickTunnel

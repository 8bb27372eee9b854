import Mathlib.Algebra.Group.Nat.Defs
import Mathlib.Data.List.Infix

/-!
# Byte strings and the Rust string functions the crate uses

A Rust `String`, `&str` or `&[u8]` is its list of bytes (`Bytes`): every
function the crate calls on strings (`strip_prefix`, `to_ascii_lowercase`,
`contains`, `find`, `parse::<u64>`) works byte by byte, and what travels on
a socket is bytes anyway. String literals are written `ascii "…"`.

`fromUtf8Lossy` is `String::from_utf8_lossy`: each maximal prefix of an
ill-formed sequence becomes one U+FFFD (`EF BF BD`).

* `contains_iff`: `contains` is "is an infix of".
* `parseU64_some`: what `parse::<u64>()` accepts, and with which value.
* `fromUtf8Lossy_ascii`, `fromUtf8Lossy_isInfix`, `ascii_of_fromUtf8Lossy`:
  the lossy conversion keeps ASCII text, keeps ASCII infixes, and only
  ASCII text converts to ASCII text.
-/
namespace QuickTunnel

abbrev Bytes := List UInt8

/-- A string literal as bytes. -/
def ascii (s : String) : Bytes := s.toList.map fun c => c.toNat.toUInt8

/-- `u8::to_ascii_lowercase`. -/
def lowerByte (b : UInt8) : UInt8 := if 65 ≤ b ∧ b ≤ 90 then b + 32 else b

/-- `str::to_ascii_lowercase`. -/
def toAsciiLowercase (s : Bytes) : Bytes := s.map lowerByte

/-- `str::eq_ignore_ascii_case`. -/
def eqIgnoreAsciiCase (s t : Bytes) : Bool := toAsciiLowercase s == toAsciiLowercase t

/-- `str::strip_prefix`. -/
def stripPrefix (pre : Bytes) (s : Bytes) : Option Bytes :=
  if pre.isPrefixOf s then some (s.drop pre.length) else none

/-- `str::find` of a pattern: the index of its first occurrence. -/
def find : Bytes → Bytes → Option Nat
  | [], pat => if pat = [] then some 0 else none
  | b :: rest, pat =>
    if pat <+: b :: rest then some 0 else (find rest pat).map (· + 1)

/-- `str::contains`. -/
def contains (s pat : Bytes) : Bool := (find s pat).isSome

def isDigit (b : UInt8) : Bool := 48 ≤ b && b ≤ 57

/-- The value of a nonempty string of decimal digits, of any size. -/
def decimal? (s : Bytes) : Option Nat :=
  if s ≠ [] ∧ s.all isDigit then some (s.foldl (fun n b => 10 * n + (b.toNat - 48)) 0) else none

/-- One past `u64::MAX`. -/
def U64_BOUND : Nat := 2 ^ 64

/-- `str::parse::<u64>().ok()`: an optional `+`, then digits, without
overflow. -/
def parseU64 (s : Bytes) : Option Nat :=
  let digits := match s with
    | 43 :: rest => rest
    | _ => s
  (decimal? digits).filter (· < U64_BOUND)

/-- `u16::to_string`. -/
def decimal (n : Nat) : Bytes := (Nat.toDigits 10 n).map fun c => c.toNat.toUInt8

theorem toAsciiLowercase_isInfix {s t : Bytes} (h : s <:+: t) :
    toAsciiLowercase s <:+: toAsciiLowercase t := h.map lowerByte

theorem find_isSome_iff (s pat : Bytes) : (find s pat).isSome = true ↔ pat <:+: s := by
  induction s with
  | nil =>
    unfold find
    split <;> simp_all
  | cons b s ih =>
    unfold find
    rw [List.infix_cons_iff]
    split
    · rename_i h
      simp [h]
    · rename_i h
      simp only [Option.isSome_map, ih, h, false_or]

theorem contains_iff (s pat : Bytes) : contains s pat = true ↔ pat <:+: s :=
  find_isSome_iff s pat

/-! ## Positions found by `find` -/

theorem find_spec {s pat : Bytes} {i : Nat} (h : find s pat = some i) : pat <+: s.drop i := by
  induction s generalizing i with
  | nil =>
    unfold find at h
    split at h
    · rename_i hp
      simp [hp]
    · cases h
  | cons b s ih =>
    unfold find at h
    split at h
    · rename_i hp
      cases h
      exact hp
    · simp only [Option.map_eq_some_iff] at h
      obtain ⟨j, hj, rfl⟩ := h
      exact ih hj

theorem find_le {s pat : Bytes} {i : Nat} (hpat : pat ≠ []) (h : find s pat = some i) :
    i + pat.length ≤ s.length := by
  have hp := (find_spec h).length_le
  have : 0 < pat.length := List.length_pos_iff.mpr hpat
  rw [List.length_drop] at hp
  omega

theorem find_nil_pat (s : Bytes) : find s [] = some 0 := by
  cases s <;> simp [find]

/-- Bytes behind a found occurrence do not move it. -/
theorem find_append {s pat : Bytes} {i : Nat} (h : find s pat = some i) (x : Bytes) :
    find (s ++ x) pat = some i := by
  induction s generalizing i with
  | nil =>
    unfold find at h
    split at h
    · rename_i hp
      rw [hp, find_nil_pat, ← h]
    · cases h
  | cons b s ih =>
    rw [List.cons_append]
    unfold find at h ⊢
    split at h
    · rename_i hp
      have hpx : pat <+: b :: (s ++ x) := hp.trans (List.prefix_append (b :: s) x)
      rw [if_pos hpx, ← h]
    · rename_i hp
      simp only [Option.map_eq_some_iff] at h
      obtain ⟨j, hj, rfl⟩ := h
      rw [if_neg, ih hj]
      · rfl
      · -- a match at 0 that needs bytes of `x` would overlap the one at `j + 1`
        intro hp'
        have hlen := (find_spec hj).length_le
        rw [List.length_drop] at hlen
        exact hp (List.prefix_of_prefix_length_le hp' (List.prefix_append (b :: s) x)
          (by simp only [List.length_cons]; omega))

theorem find_take_of_le {s pat : Bytes} {i k : Nat} (h : find s pat = some i)
    (hk : i + pat.length ≤ k) : find (s.take k) pat = some i := by
  have hin : pat <:+: s.take k := by
    have hp : pat <+: (s.take k).drop i := by
      rw [List.drop_take]
      exact List.prefix_take_iff.mpr ⟨find_spec h, by omega⟩
    exact hp.isInfix.trans (List.drop_suffix i _).isInfix
  obtain ⟨j, hj⟩ := Option.isSome_iff_exists.mp ((find_isSome_iff _ _).mpr hin)
  have := find_append hj (s.drop k)
  rw [List.take_append_drop, h, Option.some.injEq] at this
  rw [hj, this]

theorem find_take_of_lt {s pat : Bytes} {i k : Nat} (hpat : pat ≠ []) (h : find s pat = some i)
    (hk : k < i + pat.length) : find (s.take k) pat = none := by
  cases hj : find (s.take k) pat with
  | none => rfl
  | some j =>
    have happ := find_append hj (s.drop k)
    rw [List.take_append_drop, h, Option.some.injEq] at happ
    have hle := find_le hpat hj
    rw [List.length_take] at hle
    omega

/-- The pattern does not start inside bytes other than its first. -/
theorem find_skip {p : UInt8} {pat w : Bytes} (hw : ∀ b ∈ w, b ≠ p) (s : Bytes) :
    find (w ++ s) (p :: pat) = (find s (p :: pat)).map (· + w.length) := by
  induction w with
  | nil => simp
  | cons b w ih =>
    have hb : ¬ (p :: pat) <+: b :: (w ++ s) :=
      fun h => hw b List.mem_cons_self (List.cons_prefix_cons.1 h).1.symm
    rw [List.cons_append, find, if_neg hb, ih fun x hx => hw x (List.mem_cons_of_mem _ hx), Option.map_map]
    rfl

/-! ## Decimal numbers -/

theorem decimal?_digits {s : Bytes} {n : Nat} (h : decimal? s = some n) :
    s ≠ [] ∧ ∀ b ∈ s, isDigit b = true := by
  unfold decimal? at h
  split at h
  · rename_i hs
    exact ⟨hs.1, List.all_eq_true.mp hs.2⟩
  · cases h

/-- A digit string below the bound parses to its value. -/
theorem parseU64_of_decimal? {s : Bytes} {n : Nat} (h : decimal? s = some n)
    (hn : n < U64_BOUND) : parseU64 s = some n := by
  obtain ⟨hne, hd⟩ := decimal?_digits h
  unfold parseU64
  split
  · rename_i rest
    exact absurd (hd 43 List.mem_cons_self) (by decide)
  · simp [h, hn]

theorem parseU64_some {s : Bytes} {n : Nat} (h : parseU64 s = some n) :
    n < U64_BOUND ∧ (decimal? s = some n ∨ ∃ rest, s = 43 :: rest ∧ decimal? rest = some n) := by
  unfold parseU64 at h
  split at h
  · rename_i rest
    rw [Option.filter_eq_some_iff] at h
    exact ⟨by simpa using h.2, .inr ⟨rest, rfl, h.1⟩⟩
  · rw [Option.filter_eq_some_iff] at h
    exact ⟨by simpa using h.2, .inl h.1⟩

theorem parseU64_of_overflow {s : Bytes} {n : Nat} (h : decimal? s = some n)
    (hn : U64_BOUND ≤ n) : parseU64 s = none := by
  cases hp : parseU64 s with
  | none => rfl
  | some m =>
    obtain ⟨hm, hd | ⟨rest, rfl, -⟩⟩ := parseU64_some hp
    · rw [h, Option.some.injEq] at hd
      omega
    · exact absurd ((decimal?_digits h).2 43 List.mem_cons_self) (by decide)

/-- The digits of a number, as `char`s. -/
theorem decimal_toNat (n : Nat) : (decimal n).map UInt8.toNat = (Nat.toDigits 10 n).map Char.toNat := by
  unfold decimal
  rw [List.map_map]
  apply List.map_congr_left
  intro c hc
  have hd := Nat.isDigit_of_mem_toDigits (by decide) (by decide) hc
  have hlt : c.toNat < 256 := by
    simp only [Char.isDigit, Bool.and_eq_true, decide_eq_true_eq, ge_iff_le] at hd
    have h := UInt32.le_iff_toNat_le.mp hd.2
    have h57 : ('9' : Char).val.toNat = 57 := rfl
    simp only [Char.toNat]
    omega
  simp only [Function.comp_apply, Nat.toUInt8, UInt8.toNat_ofNat']
  exact Nat.mod_eq_of_lt hlt

theorem decimal_inj {n m : Nat} (h : decimal n = decimal m) : n = m := by
  have hmap : (Nat.toDigits 10 n).map Char.toNat = (Nat.toDigits 10 m).map Char.toNat := by
    rw [← decimal_toNat, ← decimal_toNat, h]
  have hinj : Function.Injective Char.toNat := fun a b hab => Char.toNat_inj.mp hab
  have hdigits := List.map_injective_iff.2 hinj hmap
  calc n = Nat.ofDigitChars 10 (Nat.toDigits 10 n) 0 :=
        (Nat.ofDigitChars_toDigits (by decide) (by decide)).symm
    _ = Nat.ofDigitChars 10 (Nat.toDigits 10 m) 0 := by rw [hdigits]
    _ = m := Nat.ofDigitChars_toDigits (by decide) (by decide)

/-! ## ASCII text and the lossy UTF-8 conversion -/

def IsAscii (s : Bytes) : Prop := ∀ b ∈ s, b < 128

theorem isAscii_of_all {s : Bytes} (h : (s.all fun b => decide (b < 128)) = true) : IsAscii s :=
  fun b hb => of_decide_eq_true (List.all_eq_true.mp h b hb)

theorem digit_lt {b : UInt8} (h : isDigit b = true) : b < 128 := by
  simp only [isDigit, Bool.and_eq_true, decide_eq_true_eq, UInt8.le_iff_toNat_le] at h
  rw [UInt8.lt_iff_toNat_lt]
  have : (57 : UInt8).toNat = 57 := rfl
  have : (128 : UInt8).toNat = 128 := rfl
  omega

theorem decimal?_ascii {s : Bytes} {n : Nat} (h : decimal? s = some n) : IsAscii s :=
  fun b hb => digit_lt ((decimal?_digits h).2 b hb)

theorem parseU64_ascii {s : Bytes} {n : Nat} (h : parseU64 s = some n) : IsAscii s := by
  obtain ⟨-, hd | ⟨rest, rfl, hd⟩⟩ := parseU64_some h
  · exact decimal?_ascii hd
  · intro b hb
    rcases List.mem_cons.mp hb with rfl | hb
    · decide
    · exact decimal?_ascii hd b hb

/-- U+FFFD in UTF-8. -/
def replacement : Bytes := [0xEF, 0xBF, 0xBD]

/-- A byte that starts a multi-byte sequence. -/
def isLead (b : UInt8) : Bool := 0xC2 ≤ b && b ≤ 0xF4

/-- Length of the sequence a lead byte starts. -/
def width (b : UInt8) : Nat := if b < 0xE0 then 2 else if b < 0xF0 then 3 else 4

/-- May `b` follow the ill-terminated prefix `pend` of a sequence? -/
def continues (pend : Bytes) (b : UInt8) : Bool :=
  match pend with
  | [0xE0] => 0xA0 ≤ b && b ≤ 0xBF
  | [0xED] => 0x80 ≤ b && b ≤ 0x9F
  | [0xF0] => 0x90 ≤ b && b ≤ 0xBF
  | [0xF4] => 0x80 ≤ b && b ≤ 0x8F
  | _ => 0x80 ≤ b && b ≤ 0xBF

/-- The decoder: `pend` is the prefix of a multi-byte sequence read so far. -/
def lossyGo : Bytes → Bytes → Bytes
  | pend, [] => if pend = [] then [] else replacement
  | pend, b :: rest =>
    if pend ≠ [] ∧ continues pend b then
      if (pend ++ [b]).length = width (pend.headD 0) then pend ++ [b] ++ lossyGo [] rest
      else lossyGo (pend ++ [b]) rest
    else
      (if pend = [] then [] else replacement) ++
        (if b < 128 then b :: lossyGo [] rest
         else if isLead b then lossyGo [b] rest
         else replacement ++ lossyGo [] rest)

/-- `String::from_utf8_lossy`. -/
def fromUtf8Lossy (s : Bytes) : Bytes := lossyGo [] s

theorem continues_ge {pend : Bytes} {b : UInt8} (h : continues pend b = true) : 128 ≤ b := by
  have key : ∀ x : UInt8, 128 ≤ x → x ≤ b → 128 ≤ b := fun x h1 h2 => UInt8.le_trans h1 h2
  unfold continues at h
  split at h <;> simp only [Bool.and_eq_true, decide_eq_true_eq] at h <;>
    exact key _ (by decide) h.1

/-- An ASCII byte ends whatever sequence was pending. -/
theorem lossyGo_ascii_byte {a : UInt8} (ha : a < 128) (u v : Bytes) :
    ∀ pend, lossyGo pend (u ++ a :: v) = lossyGo pend u ++ a :: lossyGo [] v := by
  have hnot : ∀ pend, ¬ (pend ≠ [] ∧ continues pend a = true) := by
    intro pend h
    have := continues_ge h.2
    exact absurd ha (UInt8.not_lt.mpr this)
  induction u with
  | nil =>
    intro pend
    simp only [List.nil_append, lossyGo, if_neg (hnot pend), if_pos ha]
  | cons b u ih =>
    intro pend
    have hstart :
        (if b < 128 then b :: lossyGo [] (u ++ a :: v)
          else if isLead b then lossyGo [b] (u ++ a :: v)
          else replacement ++ lossyGo [] (u ++ a :: v)) =
        (if b < 128 then b :: lossyGo [] u
          else if isLead b then lossyGo [b] u
          else replacement ++ lossyGo [] u) ++ a :: lossyGo [] v := by
      split
      · simp [ih]
      · split
        · rw [ih]
        · simp [ih]
    simp only [List.cons_append, lossyGo]
    split
    · split
      · simp [ih]
      · rw [ih]
    · rw [hstart, List.append_assoc]

theorem lossyGo_ascii {w : Bytes} (hw : IsAscii w) (v : Bytes) :
    lossyGo [] (w ++ v) = w ++ lossyGo [] v := by
  induction w with
  | nil => rfl
  | cons a w ih =>
    have ha : a < 128 := hw a List.mem_cons_self
    have := lossyGo_ascii_byte ha [] (w ++ v) []
    rw [List.nil_append, show lossyGo [] [] = [] from rfl, List.nil_append] at this
    rw [List.cons_append, this, ih fun b hb => hw b (List.mem_cons_of_mem _ hb), List.cons_append]

theorem fromUtf8Lossy_ascii {w : Bytes} (hw : IsAscii w) : fromUtf8Lossy w = w := by
  have := lossyGo_ascii hw []
  simpa [fromUtf8Lossy, lossyGo] using this

/-- ASCII text inside a byte string survives the conversion. -/
theorem fromUtf8Lossy_isInfix {w s : Bytes} (hw : IsAscii w) (h : w <:+: s) :
    w <:+: fromUtf8Lossy s := by
  obtain ⟨u, v, rfl⟩ := h
  cases w with
  | nil => exact List.nil_infix
  | cons a w =>
    have ha : a < 128 := hw a List.mem_cons_self
    have hw' : IsAscii w := fun b hb => hw b (List.mem_cons_of_mem _ hb)
    have : u ++ a :: w ++ v = u ++ a :: (w ++ v) := by simp
    rw [fromUtf8Lossy, this, lossyGo_ascii_byte ha, lossyGo_ascii hw']
    exact ⟨lossyGo [] u, lossyGo [] v, by simp⟩

/-- A pending sequence leaves a byte above ASCII in the output. -/
theorem lossyGo_pending (s : Bytes) :
    ∀ pend, pend ≠ [] → (∀ b ∈ pend, 128 ≤ b) → ¬ IsAscii (lossyGo pend s) := by
  have hrep : ∀ t, ¬ IsAscii (replacement ++ t) := fun t h =>
    absurd (h 0xEF (by simp [replacement])) (by decide)
  induction s with
  | nil =>
    intro pend hp _
    rw [lossyGo, if_neg hp]
    simpa using hrep []
  | cons b s ih =>
    intro pend hp hge
    rw [lossyGo]
    split
    · rename_i hc
      split
      · intro h
        obtain ⟨x, hx⟩ := List.exists_mem_of_ne_nil _ hp
        exact absurd (h x (by simp [hx])) (UInt8.not_lt.mpr (hge x hx))
      · refine ih _ (by simp) fun x hx => ?_
        rcases List.mem_append.mp hx with hx | hx
        · exact hge x hx
        · rw [List.mem_singleton.mp hx]
          exact continues_ge hc.2
    · exact hrep _

theorem isLead_ge {b : UInt8} (h : isLead b = true) : 128 ≤ b := by
  simp only [isLead, Bool.and_eq_true, decide_eq_true_eq] at h
  exact UInt8.le_trans (by decide) h.1

/-- Only ASCII text is converted to ASCII text. -/
theorem ascii_of_fromUtf8Lossy {s : Bytes} (h : IsAscii (fromUtf8Lossy s)) : IsAscii s := by
  unfold fromUtf8Lossy at h
  induction s with
  | nil => intro b hb; cases hb
  | cons b s ih =>
    simp only [lossyGo, ne_eq, not_true_eq_false, false_and, if_false, if_true,
      List.nil_append] at h
    split at h
    · rename_i hb
      intro x hx
      rcases List.mem_cons.mp hx with rfl | hx
      · exact hb
      · exact ih (fun y hy => h y (List.mem_cons_of_mem _ hy)) x hx
    · split at h
      · rename_i hl
        refine absurd h (lossyGo_pending s [b] (by simp) fun x hx => ?_)
        rw [List.mem_singleton.mp hx]
        exact isLead_ge hl
      · exact absurd (h 0xEF (by simp [replacement])) (by decide)

/-- A value the crate parses as a number is the field's own bytes. -/
theorem parseU64_fromUtf8Lossy {s : Bytes} {n : Nat} (h : parseU64 (fromUtf8Lossy s) = some n) :
    fromUtf8Lossy s = s :=
  fromUtf8Lossy_ascii (ascii_of_fromUtf8Lossy (parseU64_ascii h))

/-- The two-byte sequence `C3 A9` is kept, a lone `E9` is replaced. -/
example : fromUtf8Lossy [0x61, 0xC3, 0xA9, 0xE9, 0x62] =
    [0x61, 0xC3, 0xA9, 0xEF, 0xBF, 0xBD, 0x62] := by decide

end QuickTunnel

import QuickTunnel.Http.Request

/-!
# Printing and parsing a request head

`RequestHead.print` writes a head the way a client does, and the reference
parser reads it back. The parser works from the front: what it has read does
not depend on the bytes that follow, so it reads nothing from a head that
is not complete.

* `parse_print`: the round trip, in front of any bytes.
* `parseRequestHead_append`: bytes behind a head stay behind it.
* `parse_prefix`: a proper prefix of a printed head is no head.
-/
namespace QuickTunnel.Http

def printField (f : Field) : Bytes := f.1 ++ ascii ": " ++ f.2 ++ crlf

def printFields (fs : List Field) : Bytes := fs.flatMap printField

def RequestHead.print (h : RequestHead) : Bytes :=
  h.method ++ ascii " " ++ h.target ++ ascii " HTTP/1.1\r\n" ++ printFields h.fields ++ crlf

/-- A field that is printed as one line and read back as it is. -/
def printable (f : Field) : Bool := isToken f.1 && isValue f.2 && trim f.2 == f.2

def RequestHead.valid (h : RequestHead) : Bool :=
  isToken h.method && isTarget h.target && h.fields.all printable

/-! ## Lines -/

theorem takeLine_append {s line rest : Bytes} (h : takeLine s = some (line, rest)) (x : Bytes) :
    takeLine (s ++ x) = some (line, rest ++ x) := by
  induction s using takeLine.induct generalizing line with
  | case1 => cases h
  | case2 b => cases h
  | case3 b c s hbc =>
    simp only [takeLine, if_pos hbc, Option.some.injEq, Prod.mk.injEq] at h
    obtain ⟨rfl, rfl⟩ := h
    simp only [List.cons_append, takeLine, if_pos hbc]
  | case4 b c s hbc ih =>
    simp only [takeLine, if_neg hbc, Option.map_eq_some_iff, Prod.mk.injEq] at h
    obtain ⟨⟨line', rest'⟩, h, rfl, rfl⟩ := h
    have := ih h
    simp only [List.cons_append] at this ⊢
    simp only [takeLine, if_neg hbc, this, Option.map_some]

theorem takeLine_length {s line rest : Bytes} (h : takeLine s = some (line, rest)) :
    s.length = line.length + 2 + rest.length := by
  induction s using takeLine.induct generalizing line with
  | case1 => cases h
  | case2 b => cases h
  | case3 b c s hbc =>
    simp only [takeLine, if_pos hbc, Option.some.injEq, Prod.mk.injEq] at h
    obtain ⟨rfl, rfl⟩ := h
    simp only [List.length_cons, List.length_nil]
    omega
  | case4 b c s hbc ih =>
    simp only [takeLine, if_neg hbc, Option.map_eq_some_iff, Prod.mk.injEq] at h
    obtain ⟨⟨line', rest'⟩, h, rfl, rfl⟩ := h
    have := ih h
    simp only [List.length_cons] at this ⊢
    omega

theorem takeLine_line {line : Bytes} (h : ∀ b ∈ line, b ≠ 13) (rest : Bytes) :
    takeLine (line ++ crlf ++ rest) = some (line, rest) := by
  induction line with
  | nil => rfl
  | cons b line ih =>
    have ih := ih fun x hx => h x (List.mem_cons_of_mem _ hx)
    obtain ⟨c, t, ht⟩ : ∃ c t, line ++ crlf ++ rest = c :: t :=
      List.exists_cons_of_ne_nil (by simp [crlf])
    have hb : ¬ (b = 13 ∧ c = 10) := fun hbc => h b List.mem_cons_self hbc.1
    simp only [List.cons_append, ht] at ih ⊢
    simp only [takeLine, if_neg hb, ih, Option.map_some]

/-! ## Fields -/

/-- More fuel does not change what is read, nor do bytes behind it. -/
theorem parseFields_append {k : Nat} {s rest : Bytes} {fs : List Field}
    (h : parseFields k s = some (fs, rest)) {j : Nat} (hj : k ≤ j) (x : Bytes) :
    parseFields j (s ++ x) = some (fs, rest ++ x) := by
  induction k generalizing s fs j with
  | zero => cases h
  | succ k ih =>
    obtain ⟨j, rfl⟩ : ∃ i, j = i + 1 := ⟨j - 1, by omega⟩
    simp only [parseFields, Option.bind_eq_some_iff] at h ⊢
    obtain ⟨⟨line, s'⟩, hl, h⟩ := h
    refine ⟨(line, s' ++ x), takeLine_append hl x, ?_⟩
    simp only at h ⊢
    split at h
    · rename_i hnil
      cases h
      rw [if_pos hnil]
    · rename_i hnil
      rw [if_neg hnil]
      simp only [Option.bind_eq_some_iff, Option.map_eq_some_iff, Prod.mk.injEq] at h ⊢
      obtain ⟨f, hf, ⟨fs', rest'⟩, hr, rfl, rfl⟩ := h
      exact ⟨f, hf, (fs', rest' ++ x), ih hr (by omega), rfl, rfl⟩

theorem parseFields_length {k : Nat} {s rest : Bytes} {fs : List Field}
    (h : parseFields k s = some (fs, rest)) : rest.length < s.length := by
  induction k generalizing s fs with
  | zero => cases h
  | succ k ih =>
    simp only [parseFields, Option.bind_eq_some_iff] at h
    obtain ⟨⟨line, s'⟩, hl, h⟩ := h
    have hlen := takeLine_length hl
    simp only at h
    split at h
    · cases h
      omega
    · simp only [Option.bind_eq_some_iff, Option.map_eq_some_iff, Prod.mk.injEq] at h
      obtain ⟨f, -, ⟨fs', rest'⟩, hr, rfl, rfl⟩ := h
      have := ih hr
      omega

theorem splitAtByte_append {sep : UInt8} {s : Bytes} (h : ∀ b ∈ s, b ≠ sep) (rest : Bytes) :
    splitAtByte sep (s ++ sep :: rest) = some (s, rest) := by
  have hs : ∀ b ∈ s, (b != sep) = true := fun b hb => by simpa using h b hb
  unfold splitAtByte
  rw [List.dropWhile_append_of_pos hs, List.takeWhile_append_of_pos hs]
  simp

theorem trim_cons_blank {b : UInt8} (hb : isBlank b = true) (v : Bytes) : trim (b :: v) = trim v := by
  simp only [trim, List.dropWhile_cons, hb, if_true]

theorem isTchar_ne {b : UInt8} (h : isTchar b = true) : b ≠ 58 ∧ b ≠ 32 ∧ b ≠ 13 := by
  refine ⟨?_, ?_, ?_⟩ <;> rintro rfl <;> exact absurd h (by decide)

theorem token_mem {s : Bytes} (h : isToken s = true) : ∀ b ∈ s, isTchar b = true := by
  simp only [isToken, Bool.and_eq_true, List.all_eq_true] at h
  exact h.2

theorem value_mem {v : Bytes} (h : isValue v = true) : ∀ b ∈ v, b ≠ 13 := by
  simp only [isValue, List.all_eq_true, Bool.and_eq_true, bne_iff_ne, ne_eq] at h
  exact fun b hb => (h b hb).1.1

theorem target_mem {s : Bytes} (h : isTarget s = true) : ∀ b ∈ s, b ≠ 32 ∧ b ≠ 13 := by
  simp only [isTarget, Bool.and_eq_true, List.all_eq_true, decide_eq_true_eq] at h
  intro b hb
  have := (h.2 b hb).1
  constructor <;> rintro rfl <;> exact absurd this (by decide)

section Field
variable {f : Field}

theorem printable_iff : printable f = true ↔
    isToken f.1 = true ∧ isValue f.2 = true ∧ trim f.2 = f.2 := by
  simp only [printable, Bool.and_eq_true, beq_iff_eq, and_assoc]

theorem forall_ne_of_all {s : Bytes} {c : UInt8} (h : (s.all fun b => b != c) = true) :
    ∀ b ∈ s, b ≠ c :=
  fun b hb => bne_iff_ne.mp (List.all_eq_true.mp h b hb)

theorem fieldLine_mem (h : printable f = true) : ∀ b ∈ f.1 ++ ascii ": " ++ f.2, b ≠ 13 := by
  obtain ⟨hn, hv, -⟩ := printable_iff.mp h
  have hsep : ∀ b ∈ ascii ": ", b ≠ 13 := forall_ne_of_all (by decide)
  intro b hb
  rcases List.mem_append.mp hb with hb | hb
  · rcases List.mem_append.mp hb with hb | hb
    · exact (isTchar_ne (token_mem hn b hb)).2.2
    · exact hsep b hb
  · exact value_mem hv b hb

theorem parseField_print (h : printable f = true) : parseField (f.1 ++ ascii ": " ++ f.2) = some f := by
  obtain ⟨hn, hv, ht⟩ := printable_iff.mp h
  have hsplit : splitAtByte 58 (f.1 ++ ascii ": " ++ f.2) = some (f.1, 32 :: f.2) := by
    have := splitAtByte_append (fun b hb => (isTchar_ne (token_mem hn b hb)).1) (32 :: f.2)
    simpa [ascii] using this
  have hv' : isValue (32 :: f.2) = true := by
    simp only [isValue, List.all_cons, Bool.and_eq_true] at hv ⊢
    exact ⟨by decide, hv⟩
  unfold parseField
  rw [hsplit, Option.bind_some, if_pos ⟨hn, hv'⟩, trim_cons_blank (by decide), ht]

theorem fieldLine_ne_nil : f.1 ++ ascii ": " ++ f.2 ≠ [] := by
  have : (ascii ": ").length = 2 := by decide
  intro h
  have := congrArg List.length h
  simp only [List.length_append, List.length_nil] at this
  omega

end Field

theorem parseFields_print {fs : List Field} (h : ∀ f ∈ fs, printable f = true) {k : Nat}
    (hk : fs.length < k) (rest : Bytes) :
    parseFields k (printFields fs ++ crlf ++ rest) = some (fs, rest) := by
  induction fs generalizing k with
  | nil =>
    obtain ⟨k, rfl⟩ : ∃ i, k = i + 1 := ⟨k - 1, by simp at hk; omega⟩
    simp only [printFields, List.flatMap_nil, List.nil_append, parseFields]
    rw [show crlf ++ rest = [] ++ crlf ++ rest from rfl, takeLine_line (by simp)]
    rfl
  | cons f fs ih =>
    rw [List.length_cons] at hk
    obtain ⟨k, rfl⟩ : ∃ i, k = i + 1 := ⟨k - 1, by omega⟩
    have hf := h f List.mem_cons_self
    have ih := ih (fun g hg => h g (List.mem_cons_of_mem _ hg)) (k := k) (by omega)
    have hline : printFields (f :: fs) ++ crlf ++ rest =
        (f.1 ++ ascii ": " ++ f.2) ++ crlf ++ (printFields fs ++ crlf ++ rest) := by
      simp [printFields, printField]
    rw [parseFields, hline, takeLine_line (fieldLine_mem hf), Option.bind_some]
    simp only [if_neg fieldLine_ne_nil, parseField_print hf, Option.bind_some, ih, Option.map_some]

/-! ## Heads -/

theorem parseRequestHead_append {s rest : Bytes} {h : RequestHead}
    (hp : parseRequestHead s = some (h, rest)) (x : Bytes) :
    parseRequestHead (s ++ x) = some (h, rest ++ x) := by
  simp only [parseRequestHead, Option.bind_eq_some_iff, Option.map_eq_some_iff, Prod.mk.injEq] at hp ⊢
  obtain ⟨⟨line, s'⟩, hl, m, hm, ⟨fs, rest'⟩, hf, rfl, rfl⟩ := hp
  exact ⟨(line, s' ++ x), takeLine_append hl x, m, hm, (fs, rest' ++ x),
    parseFields_append hf (by simp) x, rfl, rfl⟩

theorem parseRequestHead_length {s rest : Bytes} {h : RequestHead}
    (hp : parseRequestHead s = some (h, rest)) : rest.length < s.length := by
  simp only [parseRequestHead, Option.bind_eq_some_iff, Option.map_eq_some_iff, Prod.mk.injEq] at hp
  obtain ⟨⟨line, s'⟩, hl, m, -, ⟨fs, rest'⟩, hf, rfl, rfl⟩ := hp
  have := takeLine_length hl
  have := parseFields_length hf
  simp only at *
  omega

theorem printFields_length (fs : List Field) : fs.length ≤ (printFields fs).length := by
  induction fs with
  | nil => exact Nat.zero_le _
  | cons f fs ih =>
    have hc : crlf.length = 2 := rfl
    have : (printFields (f :: fs)).length = (printField f).length + (printFields fs).length := by
      simp [printFields]
    simp only [printField, List.length_append] at this
    rw [List.length_cons]
    omega

section Head
variable {h : RequestHead}

theorem valid_iff : h.valid = true ↔
    isToken h.method = true ∧ isTarget h.target = true ∧ ∀ f ∈ h.fields, printable f = true := by
  simp only [RequestHead.valid, Bool.and_eq_true, List.all_eq_true, and_assoc]

theorem parseRequestLine_print (hv : h.valid = true) :
    parseRequestLine (h.method ++ ascii " " ++ h.target ++ ascii " HTTP/1.1") =
      some (h.method, h.target) := by
  obtain ⟨hm, ht, -⟩ := valid_iff.mp hv
  have h₁ : splitAtByte 32 (h.method ++ ascii " " ++ h.target ++ ascii " HTTP/1.1") =
      some (h.method, h.target ++ 32 :: ascii "HTTP/1.1") := by
    have := splitAtByte_append (fun b hb => (isTchar_ne (token_mem hm b hb)).2.1)
      (h.target ++ 32 :: ascii "HTTP/1.1")
    simpa [ascii] using this
  have h₂ := splitAtByte_append (fun b hb => (target_mem ht b hb).1) (ascii "HTTP/1.1")
  unfold parseRequestLine
  rw [h₁, Option.bind_some]
  simp only [h₂, Option.bind_some, hm, ht, and_self, if_true]

/-- **The round trip**, in front of any bytes. -/
theorem parse_print (hv : h.valid = true) (rest : Bytes) :
    parseRequestHead (h.print ++ rest) = some (h, rest) := by
  obtain ⟨hm, ht, hf⟩ := valid_iff.mp hv
  have hver : ascii " HTTP/1.1\r\n" = ascii " HTTP/1.1" ++ crlf := by decide
  have hline : h.print ++ rest = (h.method ++ ascii " " ++ h.target ++ ascii " HTTP/1.1") ++ crlf ++
      (printFields h.fields ++ crlf ++ rest) := by
    simp only [RequestHead.print, hver, List.append_assoc]
  have hcr : ∀ b ∈ h.method ++ ascii " " ++ h.target ++ ascii " HTTP/1.1", b ≠ 13 := by
    have hsp : ∀ b ∈ ascii " ", b ≠ 13 := forall_ne_of_all (by decide)
    have hv : ∀ b ∈ ascii " HTTP/1.1", b ≠ 13 := forall_ne_of_all (by decide)
    intro b hb
    simp only [List.mem_append] at hb
    rcases hb with ((hb | hb) | hb) | hb
    · exact (isTchar_ne (token_mem hm b hb)).2.2
    · exact hsp b hb
    · exact (target_mem ht b hb).2
    · exact hv b hb
  have hlen := printFields_length h.fields
  unfold parseRequestHead
  rw [hline, takeLine_line hcr, Option.bind_some]
  simp only [parseRequestLine_print hv, Option.bind_some]
  rw [parseFields_print hf (by simp only [List.length_append]; omega)]
  rfl

theorem parse_prefix (hv : h.valid = true) {p : Bytes} (hp : p <+: h.print)
    (hlt : p.length < h.print.length) : parseRequestHead p = none := by
  cases hq : parseRequestHead p with
  | none => rfl
  | some q =>
    obtain ⟨x, hx⟩ := hp
    have happ := parseRequestHead_append hq x
    have hprint := parse_print hv []
    rw [List.append_nil, ← hx, happ, Option.some.injEq, Prod.mk.injEq] at hprint
    have hnil := hprint.2
    rw [List.append_eq_nil_iff] at hnil
    rw [hnil.2, List.append_nil] at hx
    rw [hx] at hlt
    exact absurd hlt (Nat.lt_irrefl _)

end Head

end QuickTunnel.Http

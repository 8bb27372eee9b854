import QuickTunnel.Core.Bytes

/-!
# HTTP/1.x header fields

What a recipient reads out of a list of header fields: the comma-separated
elements of the fields of one name, the connection options, the announced
content length and whether the connection persists after the message.

* `elements` joins all fields of one name, splits at commas and trims blanks.
* `contentLength`: absent, one number (repeats must agree), or invalid.
* `persistent`: the default of the version, overridden by an option.

* `hasOption_isInfix`: a connection option is a substring of its field's value.
* `contentLength_of_mem`: a field holding one number announces that number,
  or the message is invalid.
-/
namespace QuickTunnel.Http

abbrev Field := Bytes × Bytes

def isBlank (b : UInt8) : Bool := b == 32 || b == 9

/-- Without leading and trailing blanks. -/
def trim (s : Bytes) : Bytes := ((s.dropWhile isBlank).reverse.dropWhile isBlank).reverse

def splitComma : Bytes → List Bytes
  | [] => [[]]
  | b :: rest =>
    if b = 44 then [] :: splitComma rest
    else match splitComma rest with
      | [] => [[b]]
      | x :: xs => (b :: x) :: xs

/-- The values of the fields called `name`, in order. -/
def values (name : Bytes) (fs : List Field) : List Bytes :=
  (fs.filter fun f => eqIgnoreAsciiCase f.1 name).map Prod.snd

/-- The list elements of the fields called `name`. -/
def elements (name : Bytes) (fs : List Field) : List Bytes :=
  (values name fs).flatMap fun v => (splitComma v).map trim

def hasOption (fs : List Field) (opt : Bytes) : Bool :=
  (elements (ascii "connection") fs).any fun e => eqIgnoreAsciiCase e opt

/-- Does the connection persist after a message of version 1.`version`? -/
def persistent (version : Nat) (fs : List Field) : Bool :=
  (version == 1 && !hasOption fs (ascii "close")) ||
    (version == 0 && hasOption fs (ascii "keep-alive"))

inductive ContentLength
  | absent
  | length (n : Nat)
  | invalid
  deriving DecidableEq, Repr

def agree : List (Option Nat) → ContentLength
  | [] => .absent
  | none :: _ => .invalid
  | some n :: rest => if rest.all (· == some n) then .length n else .invalid

/-- The announced length of the body: every element of every Content-Length
field is a decimal number, and all of them are the same. -/
def contentLength (fs : List Field) : ContentLength :=
  agree ((elements (ascii "content-length") fs).map decimal?)

/-! ## Elements are substrings of the value -/

theorem trim_isInfix (s : Bytes) : trim s <:+: s := by
  have h1 : s.dropWhile isBlank <:+ s := List.dropWhile_suffix _
  have h2 : (s.dropWhile isBlank).reverse.dropWhile isBlank <:+ (s.dropWhile isBlank).reverse :=
    List.dropWhile_suffix _
  have h3 : trim s <+: s.dropWhile isBlank := by
    have := List.reverse_prefix.mpr h2
    simpa [trim] using this
  exact h3.isInfix.trans h1.isInfix

theorem splitComma_ne_nil (v : Bytes) : splitComma v ≠ [] := by
  cases v with
  | nil => simp [splitComma]
  | cons b v =>
    simp only [splitComma]
    split
    · simp
    · split <;> simp

/-- The first element is a prefix, every later one a substring. -/
theorem splitComma_spec (v : Bytes) :
    ∀ x xs, splitComma v = x :: xs → x <+: v ∧ ∀ y ∈ xs, y <:+: v := by
  induction v with
  | nil =>
    intro x xs h
    simp only [splitComma, List.cons.injEq] at h
    obtain ⟨rfl, rfl⟩ := h
    simp
  | cons b v ih =>
    intro x xs h
    simp only [splitComma] at h
    obtain ⟨z, zs, hz⟩ : ∃ z zs, splitComma v = z :: zs :=
      List.exists_cons_of_ne_nil (splitComma_ne_nil v)
    obtain ⟨hp, hrest⟩ := ih z zs hz
    split at h
    · rw [hz, List.cons.injEq] at h
      obtain ⟨rfl, rfl⟩ := h
      refine ⟨List.nil_prefix, fun y hy => ?_⟩
      rcases List.mem_cons.mp hy with rfl | hy
      · exact hp.isInfix.trans (List.suffix_cons b v).isInfix
      · exact (hrest y hy).trans (List.suffix_cons b v).isInfix
    · rw [hz] at h
      simp only [List.cons.injEq] at h
      obtain ⟨rfl, rfl⟩ := h
      exact ⟨List.cons_prefix_cons.mpr ⟨rfl, hp⟩,
        fun y hy => (hrest y hy).trans (List.suffix_cons b v).isInfix⟩

theorem splitComma_isInfix {v x : Bytes} (h : x ∈ splitComma v) : x <:+: v := by
  obtain ⟨z, zs, hz⟩ : ∃ z zs, splitComma v = z :: zs :=
    List.exists_cons_of_ne_nil (splitComma_ne_nil v)
  obtain ⟨hp, hrest⟩ := splitComma_spec v z zs hz
  rw [hz] at h
  rcases List.mem_cons.mp h with rfl | h
  · exact hp.isInfix
  · exact hrest x h

theorem mem_values {name v : Bytes} {fs : List Field} :
    v ∈ values name fs ↔ ∃ k, (k, v) ∈ fs ∧ eqIgnoreAsciiCase k name = true := by
  simp only [values, List.mem_map, List.mem_filter, Prod.exists]
  exact ⟨fun ⟨k, _, h, rfl⟩ => ⟨k, h.1, h.2⟩, fun ⟨k, h, he⟩ => ⟨k, v, ⟨h, he⟩, rfl⟩⟩

/-- A connection option occurs, in lower case, in the lower-cased value of
some Connection field. -/
theorem hasOption_isInfix {fs : List Field} {opt : Bytes} (h : hasOption fs opt = true) :
    ∃ k v, (k, v) ∈ fs ∧ eqIgnoreAsciiCase k (ascii "connection") = true ∧
      ∃ w, w <:+: v ∧ toAsciiLowercase w = toAsciiLowercase opt := by
  simp only [hasOption, List.any_eq_true, elements, List.mem_flatMap, List.mem_map] at h
  obtain ⟨e, ⟨v, hv, x, hx, rfl⟩, he⟩ := h
  obtain ⟨k, hk, hn⟩ := mem_values.mp hv
  refine ⟨k, v, hk, hn, trim x, (trim_isInfix x).trans (splitComma_isInfix hx), ?_⟩
  simpa [eqIgnoreAsciiCase] using he

/-! ## Content-Length -/

/-- A value without commas and blanks is its own only element. -/
theorem splitComma_of_no_comma {v : Bytes} (h : ∀ b ∈ v, b ≠ 44) : splitComma v = [v] := by
  induction v with
  | nil => rfl
  | cons b v ih =>
    simp only [splitComma]
    rw [if_neg (h b List.mem_cons_self), ih fun x hx => h x (List.mem_cons_of_mem _ hx)]

theorem dropWhile_blank_of_none {v : Bytes} (h : ∀ b ∈ v, isBlank b = false) :
    v.dropWhile isBlank = v := by
  cases v with
  | nil => rfl
  | cons b v => rw [List.dropWhile_cons, h b List.mem_cons_self]; rfl

theorem trim_of_no_blank {v : Bytes} (h : ∀ b ∈ v, isBlank b = false) : trim v = v := by
  unfold trim
  rw [dropWhile_blank_of_none h, dropWhile_blank_of_none (by simpa using h), List.reverse_reverse]

theorem elements_of_plain {v : Bytes} (h : ∀ b ∈ v, b ≠ 44 ∧ isBlank b = false) :
    (splitComma v).map trim = [v] := by
  rw [splitComma_of_no_comma fun b hb => (h b hb).1, List.map_singleton,
    trim_of_no_blank fun b hb => (h b hb).2]

theorem digit_plain {b : UInt8} (h : isDigit b = true) : b ≠ 44 ∧ isBlank b = false := by
  simp only [isDigit, Bool.and_eq_true, decide_eq_true_eq, UInt8.le_iff_toNat_le] at h
  have h48 : (48 : UInt8).toNat = 48 := rfl
  refine ⟨fun e => ?_, ?_⟩
  · subst e
    exact absurd h.1 (by decide)
  · simp only [isBlank, Bool.or_eq_false_iff, beq_eq_false_iff_ne, ne_eq]
    constructor <;> rintro rfl <;> exact absurd h.1 (by decide)

theorem elements_of_decimal {v : Bytes} {n : Nat} (h : decimal? v = some n) :
    (splitComma v).map trim = [v] :=
  elements_of_plain fun b hb => digit_plain ((decimal?_digits h).2 b hb)

theorem agree_eq_length {l : List (Option Nat)} {n : Nat} (h : agree l = .length n) :
    l ≠ [] ∧ ∀ o ∈ l, o = some n := by
  unfold agree at h
  split at h
  · cases h
  · cases h
  · rename_i m rest
    split at h
    · rename_i hall
      cases h
      refine ⟨by simp, fun o ho => ?_⟩
      rcases List.mem_cons.mp ho with rfl | ho
      · rfl
      · simpa using List.all_eq_true.mp hall o ho
    · cases h

/-- Every element of every Content-Length field is the announced number. -/
theorem contentLength_elements {fs : List Field} {n : Nat} (h : contentLength fs = .length n)
    {k v e : Bytes} (hf : (k, v) ∈ fs) (hk : eqIgnoreAsciiCase k (ascii "content-length") = true)
    (he : e ∈ (splitComma v).map trim) : decimal? e = some n := by
  refine (agree_eq_length h).2 _ (List.mem_map_of_mem ?_)
  simp only [elements, List.mem_flatMap]
  exact ⟨v, mem_values.mpr ⟨k, hf, hk⟩, he⟩

/-- A Content-Length field that parses to a number announces that number. -/
theorem contentLength_of_mem {fs : List Field} {n m : Nat} (h : contentLength fs = .length n)
    {k v : Bytes} (hf : (k, v) ∈ fs) (hk : eqIgnoreAsciiCase k (ascii "content-length") = true)
    (hm : parseU64 v = some m) : m = n := by
  obtain ⟨-, hd | ⟨rest, rfl, hd⟩⟩ := parseU64_some hm
  · have := contentLength_elements h hf hk (by rw [elements_of_decimal hd]; exact List.mem_singleton_self v)
    rw [hd, Option.some.injEq] at this
    exact this
  · -- a leading `+` is not a decimal number for HTTP
    have hplain : ∀ b ∈ (43 :: rest : Bytes), b ≠ 44 ∧ isBlank b = false := by
      intro b hb
      rcases List.mem_cons.mp hb with rfl | hb
      · decide
      · exact digit_plain ((decimal?_digits hd).2 b hb)
    have := contentLength_elements h hf hk
      (by rw [elements_of_plain hplain]; exact List.mem_singleton_self _)
    exact absurd ((decimal?_digits this).2 43 List.mem_cons_self) (by decide)

theorem contentLength_ne_absent {fs : List Field} {k v : Bytes} (hf : (k, v) ∈ fs)
    (hk : eqIgnoreAsciiCase k (ascii "content-length") = true) : contentLength fs ≠ .absent := by
  intro h
  have hv := mem_values.mpr ⟨k, hf, hk⟩
  obtain ⟨x, xs, hx⟩ : ∃ x xs, splitComma v = x :: xs :=
    List.exists_cons_of_ne_nil (splitComma_ne_nil v)
  have hmem : trim x ∈ elements (ascii "content-length") fs := by
    simp only [elements, List.mem_flatMap]
    exact ⟨v, hv, by rw [hx]; simp⟩
  unfold contentLength agree at h
  split at h
  · rename_i hnil
    rw [List.map_eq_nil_iff] at hnil
    rw [hnil] at hmem
    cases hmem
  · cases h
  · split at h <;> cases h

end QuickTunnel.Http

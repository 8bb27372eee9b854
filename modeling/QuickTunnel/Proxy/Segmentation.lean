import QuickTunnel.Http.Print
import QuickTunnel.Proxy.PooledRuns

/-!
# The head reader under different segmentations

`read_http_response_head` gets the origin's bytes in pieces. The cap on the
head is compared with the buffer, which also holds the body bytes that came
with the end of the head; so a head that fits is accepted or refused by how
much of the body one read brought along.

* `readHead_of_head`, `readHead_unfinished`: the outcome on every cut.
* `segmentless_iff`: the streams on which the cut does not matter.
-/
namespace QuickTunnel.Proxy

open Pooled (Sized exists_reads)

/-- The reader stops at an end of file. -/
def eofError : TunnelError := .internal "local origin closed before sending response head"

def sizeError : TunnelError :=
  .internal ("response header exceeds " ++ toString MAX_HEADER_BYTES ++ " bytes")

/-- `read_http_response_head` where the origin's bytes come in the reads `ts`
and then end, with `buf` read so far; the second component is what is left
unread.
mirrors src/proxy.rs:441-486 -/
def readHead (P : Httparse) : Bytes → List Bytes → Except TunnelError ResponseHead × List Bytes
  | _, [] => (.error eofError, [])
  | buf, t :: ts =>
    match onHeadRead P buf t with
    | .more buf' => readHead P buf' ts
    | .returned h => (.ok h, ts)
    | .failed e => (.error e, ts)

/-- `S` as nonempty reads of at most 2048 bytes. -/
def Cut (S : Bytes) (ts : List Bytes) : Prop := Sized HEAD_BUF ts ∧ ts.flatten = S

/-- Both fail, or both give the same status and headers and leave the same
bytes behind the head. -/
def Agree (P : Httparse) (S : Bytes) : Except TunnelError ResponseHead × List Bytes →
    Except TunnelError ResponseHead × List Bytes → Prop
  | (.error _, _), (.error _, _) => True
  | (.ok h, ts), (.ok h', ts') => h.status = h'.status ∧ h.headers = h'.headers ∧
    ∃ raw hd, P.IsHead raw hd ∧ raw ++ (h.leftover ++ ts.flatten) = S ∧
      raw ++ (h'.leftover ++ ts'.flatten) = S
  | _, _ => False

/-- The length of the head `S` begins with; an unfinished head is all of `S`. -/
inductive HeadLength (P : Httparse) (S : Bytes) : Nat → Prop
  | whole {raw : Bytes} {hd : Http.Head} : P.IsHead raw hd → raw <+: S → HeadLength P S raw.length
  | unfinished : (∀ k, P.parse (S.take k) = .incomplete) → HeadLength P S S.length

/-- The outcome does not depend on the cut, and the size of the head alone
decides whether it is refused for its size. -/
def Segmentless (P : Httparse) (S : Bytes) : Prop :=
  (∀ ts ts', Cut S ts → Cut S ts' → Agree P S (readHead P [] ts) (readHead P [] ts')) ∧
  ∀ n, HeadLength P S n → ∀ ts, Cut S ts →
    ((readHead P [] ts).1 = .error sizeError ↔ MAX_HEADER_BYTES < n)

theorem eofError_ne_sizeError : eofError ≠ sizeError := by decide

/-! ## One turn -/

section Turn
variable {P : Httparse} {buf t : Bytes}

theorem onHeadRead_of_size (ht : t ≠ []) (hm : MAX_HEADER_BYTES < (buf ++ t).length) :
    onHeadRead P buf t = .failed sizeError := by
  unfold onHeadRead
  rw [if_neg ht]
  simp only [if_pos hm]
  rfl

theorem onHeadRead_of_incomplete (ht : t ≠ []) (hp : P.parse (buf ++ t) = .incomplete) :
    onHeadRead P buf t =
      if MAX_HEADER_BYTES < (buf ++ t).length then .failed sizeError else .more (buf ++ t) := by
  unfold onHeadRead
  rw [if_neg ht]
  simp only [hp]
  rfl

end Turn

/-! ## Every cut -/

section Cuts
variable {P : Httparse} {raw body buf : Bytes} {hd : Http.Head}

/-- **On a stream that begins with a head**: the head is returned, or the
buffer was too long with the bytes that came behind it. -/
theorem readHead_of_head (hh : P.IsHead raw hd) : ∀ {ts : List Bytes} {buf : Bytes}, Sized HEAD_BUF ts →
    buf ++ ts.flatten = raw ++ body → buf.length < raw.length →
    (∃ lo rest, readHead P buf ts = (.ok ⟨hd.status, lossyHeaders hd.fields, lo⟩, rest) ∧
      lo ++ rest.flatten = body ∧ raw.length ≤ MAX_HEADER_BYTES) ∨
    ∃ rest, readHead P buf ts = (.error sizeError, rest) ∧
      MAX_HEADER_BYTES < min (raw ++ body).length (raw.length + (HEAD_BUF - 1)) := by
  intro ts
  induction ts with
  | nil =>
    intro buf _ he hlt
    have := congrArg List.length he
    simp only [List.flatten_nil, List.append_nil, List.length_append] at this
    omega
  | cons t ts ih =>
    intro buf hsz he hlt
    obtain ⟨ht, hle⟩ := hsz t List.mem_cons_self
    have hsplit : buf ++ t ++ ts.flatten = raw ++ body := by simpa using he
    have hlen := congrArg List.length hsplit
    have hlong : (buf ++ t).length ≤ raw.length + (HEAD_BUF - 1) := by
      rw [List.length_append]
      omega
    by_cases hm : MAX_HEADER_BYTES < (buf ++ t).length
    · refine .inr ⟨ts, by simp only [readHead, onHeadRead_of_size ht hm], ?_⟩
      rw [List.length_append] at hlen
      omega
    · by_cases hreach : raw.length ≤ (buf ++ t).length
      · -- the end of the head is in the buffer, with `lo` behind it
        obtain ⟨lo, hlo⟩ := List.prefix_of_prefix_length_le (List.prefix_append raw body)
          (hsplit ▸ List.prefix_append _ _) hreach
        have hr := onHeadRead_of_head hh ht hlo.symm (by rw [hlo]; omega)
        refine .inl ⟨lo, ts, by simp only [readHead, hr], ?_, by omega⟩
        rw [← hlo, List.append_assoc] at hsplit
        exact List.append_cancel_left hsplit
      · have hpre : buf ++ t <+: raw := List.prefix_of_prefix_length_le
          (hsplit ▸ List.prefix_append _ _) (List.prefix_append raw body) (by omega)
        have hp := Httparse.parse_of_prefix hh (List.prefix_refl raw) hpre
        rw [if_neg hreach] at hp
        have hr : onHeadRead P buf t = .more (buf ++ t) := by
          rw [onHeadRead_of_incomplete ht hp, if_neg hm]
        simp only [readHead, hr]
        exact ih hsz.tail hsplit (by omega)

/-- **On an unfinished head**: refused once it is too long, or at its end. -/
theorem readHead_unfinished {S : Bytes} (hS : ∀ k, P.parse (S.take k) = .incomplete) :
    ∀ {ts : List Bytes} {buf : Bytes}, Sized HEAD_BUF ts → buf ++ ts.flatten = S →
      buf.length ≤ MAX_HEADER_BYTES → ∃ rest, readHead P buf ts =
        (.error (if MAX_HEADER_BYTES < S.length then sizeError else eofError), rest) := by
  intro ts
  induction ts with
  | nil =>
    intro buf _ he hle
    rw [List.flatten_nil, List.append_nil] at he
    subst he
    exact ⟨[], by rw [if_neg (by omega)]; rfl⟩
  | cons t ts ih =>
    intro buf hsz he hle
    obtain ⟨ht, -⟩ := hsz t List.mem_cons_self
    have hsplit : buf ++ t ++ ts.flatten = S := by simpa using he
    have hp : P.parse (buf ++ t) = .incomplete := by
      have := hS (buf ++ t).length
      rwa [← hsplit, List.take_left] at this
    have hr := onHeadRead_of_incomplete ht hp
    by_cases hm : MAX_HEADER_BYTES < (buf ++ t).length
    · rw [if_pos hm] at hr
      refine ⟨ts, ?_⟩
      have : MAX_HEADER_BYTES < S.length := by
        rw [← hsplit, List.length_append]
        omega
      simp only [readHead, hr, if_pos this]
    · rw [if_neg hm] at hr
      simp only [readHead, hr]
      exact ih hsz.tail hsplit (by omega)

/-- Without a head nothing is returned. -/
theorem readHead_error {S : Bytes} (hno : ∀ raw hd, P.IsHead raw hd → ¬ raw <+: S) :
    ∀ {ts : List Bytes} {buf : Bytes}, Sized HEAD_BUF ts → buf ++ ts.flatten = S →
      ∃ e rest, readHead P buf ts = (.error e, rest) := by
  intro ts
  induction ts with
  | nil => exact fun _ _ => ⟨_, _, rfl⟩
  | cons t ts ih =>
    intro buf hsz he
    obtain ⟨-, hle⟩ := hsz t List.mem_cons_self
    have hsplit : buf ++ t ++ ts.flatten = S := by simpa using he
    have hread : readHttpResponseHead P buf (.read t) = some (onHeadRead P buf t) := by
      simp only [readHttpResponseHead, if_pos hle]
    rcases readHead_cases hread with ⟨err, ho, -⟩ | ⟨tmp, htmp, -, ho, -⟩ |
      ⟨tmp, r, raw, hd, htmp, -, ho, hg, hraw⟩
    · exact ⟨err, ts, by simp only [readHead, ho]⟩
    · cases htmp
      simp only [readHead, ho]
      exact ih hsz.tail hsplit
    · cases htmp
      refine absurd ?_ (hno raw hd hg.isHead)
      rw [← hsplit, hraw]
      exact (List.prefix_append _ _).trans (List.prefix_append _ _)

/-- Reads that stay inside the head are put together. -/
theorem readHead_append (hh : P.IsHead raw hd) (hm : raw.length ≤ MAX_HEADER_BYTES) (rest : List Bytes) :
    ∀ {ts : List Bytes} {buf : Bytes}, Sized HEAD_BUF ts → buf ++ ts.flatten <+: raw →
      (buf ++ ts.flatten).length < raw.length →
      readHead P buf (ts ++ rest) = readHead P (buf ++ ts.flatten) rest := by
  intro ts
  induction ts with
  | nil => exact fun _ _ _ => by simp
  | cons t ts ih =>
    intro buf hsz hpre hlt
    obtain ⟨ht, -⟩ := hsz t List.mem_cons_self
    have hfl : buf ++ (t :: ts).flatten = buf ++ t ++ ts.flatten := by simp
    rw [hfl] at hpre hlt ⊢
    have hpre' : buf ++ t <+: raw := (List.prefix_append _ _).trans hpre
    have hlt' : (buf ++ t).length < raw.length := by
      rw [List.length_append] at hlt
      omega
    simp only [List.cons_append, readHead, onHeadRead_of_lt hh ht hpre' hlt' hm]
    exact ih hsz.tail hpre hlt

theorem cut_append {S T : Bytes} {ts us : List Bytes} (h : Cut S ts) (h' : Cut T us) :
    Cut (S ++ T) (ts ++ us) := by
  refine ⟨fun b hb => ?_, by rw [List.flatten_append, h.2, h'.2]⟩
  rcases List.mem_append.1 hb with hb | hb
  · exact h.1 b hb
  · exact h'.1 b hb

theorem exists_cut (S : Bytes) : ∃ ts, Cut S ts := by
  obtain ⟨ts, hsz, hfl, -⟩ := exists_reads (k := HEAD_BUF) (by decide) S
  exact ⟨ts, hsz, hfl⟩

theorem cut_single {t : Bytes} (ht : t ≠ []) (hle : t.length ≤ HEAD_BUF) : Cut t [t] := by
  refine ⟨fun b hb => ?_, by simp⟩
  rw [List.mem_singleton.1 hb]
  exact ⟨ht, hle⟩

/-- **A head near the cap** is accepted when its end is read alone, and
refused when as much as possible is read with it. -/
theorem exists_disagreeing (hh : P.IsHead raw hd) (hm : raw.length ≤ MAX_HEADER_BYTES)
    (hover : MAX_HEADER_BYTES < min (raw ++ body).length (raw.length + (HEAD_BUF - 1))) :
    ∃ ts ts', Cut (raw ++ body) ts ∧ Cut (raw ++ body) ts' ∧
      (∃ h rest, readHead P [] ts = (.ok h, rest)) ∧
      ∃ rest, readHead P [] ts' = (.error sizeError, rest) := by
  have hpos := hh.pos
  have hsplit : raw.take (raw.length - 1) ++ raw.drop (raw.length - 1) = raw := List.take_append_drop _ _
  have hfront : (raw.take (raw.length - 1)).length = raw.length - 1 := by
    rw [List.length_take]
    omega
  have hlast : (raw.drop (raw.length - 1)).length = 1 := by
    rw [List.length_drop]
    omega
  generalize raw.take (raw.length - 1) = front at hsplit hfront
  generalize raw.drop (raw.length - 1) = last at hsplit hlast
  have hne : last ≠ [] := List.ne_nil_of_length_pos (by omega)
  obtain ⟨ps, hps⟩ := exists_cut front
  obtain ⟨bs, hbs⟩ := exists_cut body
  obtain ⟨cs, hcs⟩ := exists_cut ((last ++ body).drop HEAD_BUF)
  have hchunk : (last ++ body).take HEAD_BUF ≠ [] := by
    apply List.ne_nil_of_length_pos
    rw [List.length_take, List.length_append]
    simp only [HEAD_BUF]
    omega
  have hto : ∀ rest, readHead P [] (ps ++ rest) = readHead P front rest := by
    intro rest
    have : readHead P [] (ps ++ rest) = readHead P ([] ++ ps.flatten) rest :=
      readHead_append hh hm rest hps.1 (by simpa [hps.2] using hsplit ▸ List.prefix_append _ _)
        (by rw [List.nil_append, hps.2]; omega)
    rwa [List.nil_append, hps.2] at this
  refine ⟨ps ++ last :: bs, ps ++ (last ++ body).take HEAD_BUF :: cs, ?_, ?_, ?_, ?_⟩
  · have := cut_append hps (cut_append (cut_single hne (hlast ▸ by decide)) hbs)
    rwa [← List.append_assoc, hsplit] at this
  · have := cut_append hps (cut_append (cut_single hchunk (List.length_take_le _ _)) hcs)
    rwa [List.take_append_drop, ← List.append_assoc, hsplit] at this
  · have hr := onHeadRead_of_head hh hne (show front ++ last = raw ++ [] by rw [hsplit, List.append_nil])
      (by rwa [List.append_nil])
    exact ⟨⟨hd.status, lossyHeaders hd.fields, []⟩, bs, by rw [hto]; simp only [readHead, hr]⟩
  · have hlong : MAX_HEADER_BYTES < (front ++ (last ++ body).take HEAD_BUF).length := by
      rw [List.length_append] at hover
      rw [List.length_append, List.length_take, List.length_append]
      simp only [HEAD_BUF] at hover ⊢
      omega
    have hr := onHeadRead_of_size (P := P) hchunk hlong
    exact ⟨cs, by rw [hto]; simp only [readHead, hr]⟩

/-- The head of a stream, with its length. -/
theorem HeadLength.cases_of_head (hh : P.IsHead raw hd) {n : Nat} (h : HeadLength P (raw ++ body) n) :
    n = raw.length := by
  cases h with
  | whole hh' hpre =>
    obtain ⟨rfl, -⟩ := Httparse.head_unique hh hh' (List.prefix_append raw body) hpre
    rfl
  | unfinished hall =>
    have hp : P.parse raw = .complete raw.length ⟨some hd.version, some hd.status, hd.fields⟩ := hh
    have := hall raw.length
    rw [List.take_left, hp] at this
    cases this

end Cuts

/-- A head that is too long, or that leaves room for what one read can bring
behind it. -/
def Roomy (P : Httparse) (S : Bytes) : Prop :=
  ∀ raw hd, P.IsHead raw hd → raw <+: S →
    MAX_HEADER_BYTES < raw.length ∨ min S.length (raw.length + (HEAD_BUF - 1)) ≤ MAX_HEADER_BYTES

section Roomy
variable {P : Httparse} {S : Bytes}

theorem segmentless_of_roomy (h : Roomy P S) : Segmentless P S := by
  by_cases hex : ∃ raw hd, P.IsHead raw hd ∧ raw <+: S
  · obtain ⟨raw, hd, hh, body, rfl⟩ := hex
    have hall : ∀ ts, Cut (raw ++ body) ts →
        (∃ lo rest, readHead P [] ts = (.ok ⟨hd.status, lossyHeaders hd.fields, lo⟩, rest) ∧
          lo ++ rest.flatten = body ∧ raw.length ≤ MAX_HEADER_BYTES) ∨
        ∃ rest, readHead P [] ts = (.error sizeError, rest) ∧ MAX_HEADER_BYTES < raw.length := by
      intro ts hts
      have hall : [] ++ ts.flatten = raw ++ body := hts.2
      rcases readHead_of_head hh hts.1 hall hh.pos with hok | ⟨rest, hr, hover⟩
      · exact .inl hok
      · rcases h raw hd hh (List.prefix_append _ _) with hlong | hroom
        · exact .inr ⟨rest, hr, hlong⟩
        · omega
    refine ⟨fun ts ts' hts hts' => ?_, fun n hn ts hts => ?_⟩
    · rcases hall ts hts with ⟨lo, rest, hr, hlo, hle⟩ | ⟨rest, hr, hlt⟩ <;>
        rcases hall ts' hts' with ⟨lo', rest', hr', hlo', hle'⟩ | ⟨rest', hr', hlt'⟩
      · rw [hr, hr']
        exact ⟨rfl, rfl, raw, hd, hh, by rw [hlo], by rw [hlo']⟩
      · omega
      · omega
      · rw [hr, hr']
        trivial
    · rw [HeadLength.cases_of_head hh hn]
      rcases hall ts hts with ⟨lo, rest, hr, -, hle⟩ | ⟨rest, hr, hlt⟩
      · rw [hr]
        simp only [reduceCtorEq, false_iff, Nat.not_lt]
        exact hle
      · rw [hr]
        simp only [true_iff]
        exact hlt
  · have hno : ∀ raw hd, P.IsHead raw hd → ¬ raw <+: S := fun raw hd hh hp => hex ⟨raw, hd, hh, hp⟩
    refine ⟨fun ts ts' hts hts' => ?_, fun n hn ts hts => ?_⟩
    · obtain ⟨e, rest, hr⟩ := readHead_error hno hts.1 (show [] ++ ts.flatten = S from hts.2)
      obtain ⟨e', rest', hr'⟩ := readHead_error hno hts'.1 (show [] ++ ts'.flatten = S from hts'.2)
      rw [hr, hr']
      trivial
    · cases hn with
      | whole hh hp => exact absurd hp (hno _ _ hh)
      | unfinished hall =>
        obtain ⟨rest, hr⟩ := readHead_unfinished hall hts.1 (show [] ++ ts.flatten = S from hts.2)
          (Nat.zero_le _)
        rw [hr]
        split
        · rename_i hlt
          simp only [true_iff]
          exact hlt
        · rename_i hle
          simp only [Except.error.injEq, eofError_ne_sizeError, false_iff]
          exact hle

theorem not_segmentless {raw body : Bytes} {hd : Http.Head} (hh : P.IsHead raw hd)
    (hm : raw.length ≤ MAX_HEADER_BYTES)
    (hover : MAX_HEADER_BYTES < min (raw ++ body).length (raw.length + (HEAD_BUF - 1))) :
    ¬ Segmentless P (raw ++ body) := by
  intro h
  obtain ⟨ts, ts', hts, hts', ⟨r, rest, hr⟩, rest', hr'⟩ := exists_disagreeing hh hm hover
  have := h.1 ts ts' hts hts'
  rw [hr, hr'] at this
  exact this

/-- **Reading the head does not depend on the segmentation**, over all cuts,
iff the head is too long or leaves room for what one read can bring behind
it. -/
theorem segmentless_iff : Segmentless P S ↔ Roomy P S := by
  refine ⟨fun h raw hd hh hpre => ?_, segmentless_of_roomy⟩
  by_contra hcon
  rw [not_or, Nat.not_lt, Nat.not_le] at hcon
  obtain ⟨body, rfl⟩ := hpre
  exact not_segmentless hh hcon.1 hcon.2 h

end Roomy

/-! ## A head at the cap -/

def paddedField (n : Nat) : Http.Field := (ascii "A", List.replicate n 97)

/-- A head with one field of `n` bytes. -/
def paddedRaw (n : Nat) : Bytes :=
  ascii "HTTP/1.1 200 OK" ++ Http.crlf ++ (Http.printFields [paddedField n] ++ Http.crlf)

theorem paddedRaw_length (n : Nat) : (paddedRaw n).length = n + 24 := by
  have h₁ : (ascii "HTTP/1.1 200 OK" ++ Http.crlf).length = 17 := by decide
  have h₂ : (ascii "A" ++ ascii ": ").length = 3 := by decide
  have h₃ : Http.crlf.length = 2 := by decide
  simp only [paddedRaw, paddedField, Http.printFields, Http.printField, List.flatMap_cons,
    List.flatMap_nil, List.append_nil, List.length_append, List.length_replicate] at h₁ h₂ ⊢
  omega

theorem paddedField_printable (n : Nat) : Http.printable (paddedField n) = true := by
  have hpad : ∀ b ∈ List.replicate n (97 : UInt8), b = 97 := fun b hb => (List.mem_replicate.1 hb).2
  refine Http.printable_iff.2 ⟨(by decide : Http.isToken (ascii "A") = true), ?_, ?_⟩
  · rw [Http.isValue, List.all_eq_true]
    intro b hb
    rw [hpad b hb]
    decide
  · apply Http.trim_of_no_blank
    intro b hb
    rw [hpad b hb]
    decide

theorem statusLine_mem : ∀ b ∈ ascii "HTTP/1.1 200 OK", b ≠ 13 := Http.forall_ne_of_all (by decide)

/-- The first empty line is the one at the end. -/
theorem find_paddedRaw (n : Nat) : find (paddedRaw n) emptyLine = some (n + 20) := by
  have hraw : paddedRaw n = ascii "HTTP/1.1 200 OK" ++
      13 :: (10 :: ((paddedField n).1 ++ ascii ": " ++ (paddedField n).2) ++ emptyLine) := by
    simp [paddedRaw, Http.printFields, Http.printField, Http.crlf, emptyLine]
  have hrest : ∀ b ∈ 10 :: ((paddedField n).1 ++ ascii ": " ++ (paddedField n).2), b ≠ (13 : UInt8) := by
    intro b hb
    rcases List.mem_cons.1 hb with rfl | hb
    · decide
    · exact Http.fieldLine_mem (paddedField_printable n) b hb
  have hlen : (10 :: ((paddedField n).1 ++ ascii ": " ++ (paddedField n).2)).length = n + 4 := by
    have : (ascii "A" ++ ascii ": ").length = 3 := by decide
    simp only [paddedField, List.length_cons, List.length_append, List.length_replicate] at this ⊢
    omega
  have hno : ¬ emptyLine <+:
      13 :: (10 :: ((paddedField n).1 ++ ascii ": " ++ (paddedField n).2) ++ emptyLine) := by
    intro h
    simp [emptyLine, paddedField, ascii] at h
  have hend : find emptyLine emptyLine = some 0 := by decide
  have hst : (ascii "HTTP/1.1 200 OK").length = 15 := by decide
  rw [hraw, emptyLine, find_skip statusLine_mem, ← emptyLine, find, if_neg hno, emptyLine,
    find_skip hrest, ← emptyLine, hend, hlen]
  simp only [Option.map_some, hst, Option.some.injEq]
  omega

theorem parseBlock_paddedRaw (n : Nat) :
    parseBlock (paddedRaw n) = some ⟨some 1, some 200, [paddedField n]⟩ := by
  have hst : parseStatusLine (ascii "HTTP/1.1 200 OK") = some (1, 200) := by decide
  have hlen := Http.printFields_length [paddedField n]
  have hfs := @Http.parseFields_print [paddedField n]
    (fun f hf => by rw [List.mem_singleton.1 hf]; exact paddedField_printable n)
    ((Http.printFields [paddedField n] ++ Http.crlf).length + 1)
    (by rw [List.length_append]; omega) []
  rw [List.append_nil] at hfs
  unfold parseBlock paddedRaw
  rw [Http.takeLine_line statusLine_mem, Option.bind_some]
  simp only [hst, Option.bind_some, hfs]
  rfl

theorem paddedRaw_isHead (n : Nat) : refHttparse.IsHead (paddedRaw n) ⟨1, 200, [paddedField n]⟩ := by
  have hparse := refParse_of_find (find_paddedRaw n) (r := ⟨some 1, some 200, [paddedField n]⟩) (by
    rw [← parseBlock_paddedRaw n, ← paddedRaw_length n, List.take_length])
  unfold Httparse.IsHead
  rw [paddedRaw_length]
  exact hparse

/-- A head of 32768 bytes with one byte of body behind it. -/
theorem segmentation_matters : ¬ Segmentless refHttparse (paddedRaw 32744 ++ [33]) := by
  refine not_segmentless (paddedRaw_isHead 32744) ?_ ?_
  · rw [paddedRaw_length, MAX_HEADER_BYTES]
  · rw [List.length_append, paddedRaw_length]
    decide

end QuickTunnel.Proxy

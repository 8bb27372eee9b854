import QuickTunnel.Core.Bytes
import Mathlib.Logic.Function.Basic

/-!
# Messages made of structs

What code generated from a Cap'n Proto schema builds on. A struct has a data
section, in which every number and boolean has a place of its own, and a
pointer section. The crate that lays both out is a parameter: its accessors,
and what is promised of a field that was written. A builder may panic
(`none`) on a text, data or list that a pointer cannot count; a message comes
to its reader as it was built, or is refused on the way, for its size or for
anything else.

`refCrate` is a small crate with these properties, used to evaluate messages
of a few words.

* `fillList_ok`, `mapM_read`: a list written, and read, element by element.
* `utf8_of_toStr`: a text as a string.
-/
namespace QuickTunnel.Message

/-- The accessors of the capnp crate that generated code calls. -/
structure Crate where
  Struct : Type
  Ptr : Type
  /-- words of the data section, pointers -/
  size : Struct → Nat × Nat
  /-- `init_*` of a struct of this size -/
  blank : Nat → Nat → Struct
  getU8 : Struct → Nat → UInt8
  getU16 : Struct → Nat → UInt16
  getBool : Struct → Nat → Bool
  getPtr : Struct → Nat → Ptr
  setU8 : Struct → Nat → UInt8 → Struct
  setU16 : Struct → Nat → UInt16 → Struct
  setBool : Struct → Nat → Bool → Struct
  setPtr : Struct → Nat → Ptr → Struct
  newText : Bytes → Option Ptr
  newData : Bytes → Option Ptr
  newStruct : Struct → Ptr
  /-- `init_*` of a list of so many elements of so many words each -/
  initList : (words n : Nat) → Option (List Ptr)
  newList : List Ptr → Ptr
  asText : Ptr → Except String Bytes
  asData : Ptr → Except String Bytes
  asStruct : Ptr → Except String Struct
  asList : Ptr → Except String (List Ptr)
  /-- an element of a list of structs -/
  element : Ptr → Struct
  notInSchema : UInt16 → String
  /-- the root that is read from the message of this root -/
  deliver : Struct → Except String Struct
  size_blank : ∀ words ptrs, size (blank words ptrs) = (words, ptrs)
  size_setU8 : ∀ s i v, size (setU8 s i v) = size s
  size_setU16 : ∀ s i v, size (setU16 s i v) = size s
  size_setBool : ∀ s i v, size (setBool s i v) = size s
  size_setPtr : ∀ s i p, size (setPtr s i p) = size s
  /-- a field inside its section is read as it was written last -/
  getU8_setU8 : ∀ {s i}, i < 8 * (size s).1 → ∀ v, getU8 (setU8 s i v) i = v
  getU16_setU16 : ∀ {s i}, i < 4 * (size s).1 → ∀ v, getU16 (setU16 s i v) i = v
  getBool_setBool : ∀ {s i}, i < 64 * (size s).1 → ∀ v, getBool (setBool s i v) i = v
  getPtr_setPtr : ∀ {s i}, i < (size s).2 → ∀ p, getPtr (setPtr s i p) i = p
  /-- and writing it does not touch another one -/
  getU8_setU8_ne : ∀ {s i j}, i < 8 * (size s).1 → i ≠ j → ∀ v, getU8 (setU8 s i v) j = getU8 s j
  getBool_setU8_ne : ∀ {s i j}, i < 8 * (size s).1 → i ≠ j / 8 → ∀ v,
    getBool (setU8 s i v) j = getBool s j
  getPtr_setPtr_ne : ∀ {s i j}, i < (size s).2 → i ≠ j → ∀ p, getPtr (setPtr s i p) j = getPtr s j
  getU8_setPtr : ∀ {s i}, i < (size s).2 → ∀ p j, getU8 (setPtr s i p) j = getU8 s j
  getU16_setPtr : ∀ {s i}, i < (size s).2 → ∀ p j, getU16 (setPtr s i p) j = getU16 s j
  getBool_setPtr : ∀ {s i}, i < (size s).2 → ∀ p j, getBool (setPtr s i p) j = getBool s j
  getPtr_setU8 : ∀ {s i}, i < 8 * (size s).1 → ∀ v j, getPtr (setU8 s i v) j = getPtr s j
  getPtr_setU16 : ∀ {s i}, i < 4 * (size s).1 → ∀ v j, getPtr (setU16 s i v) j = getPtr s j
  getPtr_setBool : ∀ {s i}, i < 64 * (size s).1 → ∀ v j, getPtr (setBool s i v) j = getPtr s j
  /-- what a pointer can count, up to 2^29 bytes or words, is stored; a text
  has a NUL behind it -/
  newText_ok : ∀ {t}, t.length + 1 < 2 ^ 29 → ∃ p, newText t = some p ∧ asText p = .ok t
  newData_ok : ∀ {d}, d.length < 2 ^ 29 → ∃ p, newData d = some p ∧ asData p = .ok d
  initList_ok : ∀ {words n}, words * n < 2 ^ 29 → ∃ elems, initList words n = some elems ∧ elems.length = n
  asStruct_newStruct : ∀ s, asStruct (newStruct s) = .ok s
  asList_newList : ∀ l, asList (newList l) = .ok l
  element_newStruct : ∀ s, element (newStruct s) = s
  /-- what arrives is what was built -/
  deliver_eq : ∀ {s s'}, deliver s = .ok s' → s' = s

attribute [simp] Crate.size_blank Crate.size_setU8 Crate.size_setU16 Crate.size_setBool
  Crate.size_setPtr Crate.getU8_setU8 Crate.getU16_setU16 Crate.getBool_setBool
  Crate.getPtr_setPtr Crate.getU8_setU8_ne Crate.getBool_setU8_ne Crate.getPtr_setPtr_ne
  Crate.getU8_setPtr Crate.getU16_setPtr Crate.getBool_setPtr Crate.getPtr_setU8
  Crate.getPtr_setU16 Crate.getPtr_setBool Crate.asStruct_newStruct Crate.asList_newList
  Crate.element_newStruct

/-! ## Texts and data -/

def utf8 (s : String) : Bytes := s.toByteArray.data.toList

/-- The text as a string, if it is well formed. -/
def toStr (t : Bytes) : Option String := String.fromUTF8? (ByteArray.mk t.toArray)

/-- A pointer can count the bytes of the text, and its NUL. -/
def fitsText (t : Bytes) : Bool := decide (t.length + 1 < 2 ^ 29)

def fitsData (d : Bytes) : Bool := decide (d.length < 2 ^ 29)

/-! ## Lists -/

section Lists
variable {α β Ptr : Type}

/-- A loop that sets the elements of a list: the index is a `u32`, and there
is a panic outside the list. -/
def setElems (make : α → Option Ptr) : Nat → List Ptr → List α → Option (List Ptr)
  | _, elems, [] => some elems
  | i, elems, a :: as =>
    if i % 2 ^ 32 < elems.length then
      (make a).bind fun p => setElems make (i + 1) (elems.set (i % 2 ^ 32) p) as
    else none

/-- `init_*` of a list and the loop over its elements. -/
def Crate.fillList (K : Crate) (words : Nat) (make : α → Option K.Ptr) (as : List α) : Option K.Ptr :=
  (K.initList words (as.length % 2 ^ 32)).bind fun elems => (setElems make 0 elems as).map K.newList

theorem setElems_ok {make : α → Option Ptr} {R : α → Ptr → Prop} (as : List α) (done elems : List Ptr)
    (hmake : ∀ a ∈ as, ∃ p, make a = some p ∧ R a p) (hlen : elems.length = as.length)
    (h : done.length + as.length < 2 ^ 32) :
    ∃ ps, setElems make done.length (done ++ elems) as = some (done ++ ps) ∧ List.Forall₂ R as ps := by
  induction as generalizing done elems with
  | nil =>
    rw [List.length_eq_zero_iff.mp hlen]
    exact ⟨[], rfl, .nil⟩
  | cons a as ih =>
    cases elems with
    | nil => cases hlen
    | cons x elems =>
      obtain ⟨p, hp, hr⟩ := hmake a List.mem_cons_self
      have hmod : done.length % 2 ^ 32 = done.length := Nat.mod_eq_of_lt (by omega)
      have hin : done.length < (done ++ x :: elems).length := by simp
      have hset : (done ++ x :: elems).set done.length p = (done ++ [p]) ++ elems := by simp
      obtain ⟨ps, hps, hall⟩ := ih (done ++ [p]) elems (fun b hb => hmake b (List.mem_cons_of_mem _ hb))
        (by simpa using hlen) (by
          simp only [List.length_append, List.length_cons, List.length_nil] at h ⊢
          omega)
      refine ⟨p :: ps, ?_, .cons hr hall⟩
      rw [setElems, hmod, if_pos hin, hp, Option.bind_some, hset]
      rw [List.length_append, List.length_singleton] at hps
      rw [hps, List.append_assoc]
      rfl

/-- **A list** that a pointer can count is built element by element. -/
theorem Crate.fillList_ok {K : Crate} {words : Nat} {make : α → Option K.Ptr} {R : α → K.Ptr → Prop}
    {as : List α} (hw : 0 < words) (hlen : words * as.length < 2 ^ 29)
    (hmake : ∀ a ∈ as, ∃ p, make a = some p ∧ R a p) :
    ∃ ps, K.fillList words make as = some (K.newList ps) ∧ List.Forall₂ R as ps := by
  have hle : as.length ≤ words * as.length := Nat.le_mul_of_pos_left _ hw
  obtain ⟨elems, hinit, hsize⟩ := K.initList_ok hlen
  obtain ⟨ps, hps, hall⟩ := setElems_ok as [] elems hmake hsize (by simp only [List.length_nil]; omega)
  rw [List.length_nil, List.nil_append, List.nil_append] at hps
  refine ⟨ps, ?_, hall⟩
  unfold Crate.fillList
  rw [Nat.mod_eq_of_lt (by omega), hinit, Option.bind_some, hps, Option.map_some]

/-- What every element was made from is read back. -/
theorem mapM_read {read : Ptr → Except String β} {f : α → β} {as : List α} {ps : List Ptr}
    (h : List.Forall₂ (fun a p => read p = .ok (f a)) as ps) : ps.mapM read = .ok (as.map f) := by
  induction h with
  | nil => rfl
  | cons ha _ ih =>
    rw [List.mapM_cons, ha, ih]
    rfl

theorem map_read {read : Ptr → β} {f : α → β} {as : List α} {ps : List Ptr}
    (h : List.Forall₂ (fun a p => read p = f a) as ps) : ps.map read = as.map f := by
  induction h with
  | nil => rfl
  | cons ha _ ih => rw [List.map_cons, List.map_cons, ha, ih]

end Lists

/-! ## A crate -/

inductive RefPtr
  | null
  | text (t : Bytes)
  | data (d : Bytes)
  | struct (size : Nat × Nat) (u8 : Nat → UInt8) (u16 : Nat → UInt16) (bool : Nat → Bool)
      (ptr : Nat → RefPtr)
  | list (elems : List RefPtr)

/-- The fields of each kind are kept apart, which is the same for structs
whose fields do not overlap. -/
structure RefStruct where
  size : Nat × Nat
  u8 : Nat → UInt8 := fun _ => 0
  u16 : Nat → UInt16 := fun _ => 0
  bool : Nat → Bool := fun _ => false
  ptr : Nat → RefPtr := fun _ => .null

def RefPtr.toStruct : RefPtr → Except String RefStruct
  | .null => .ok { size := (0, 0) }
  | .struct size u8 u16 bool ptr => .ok { size, u8, u16, bool, ptr }
  | _ => .error "Message contains non-struct pointer where struct pointer was expected."

def RefPtr.toBytes : RefPtr → Except String Bytes
  | .null => .ok []
  | .text t => .ok t
  | .data d => .ok d
  | _ => .error "Message contains non-list pointer where data was expected."

def RefPtr.toList : RefPtr → Except String (List RefPtr)
  | .null => .ok []
  | .list elems => .ok elems
  | _ => .error "Message contains non-list pointer where list pointer was expected"

def refCrate : Crate where
  Struct := RefStruct
  Ptr := RefPtr
  size := RefStruct.size
  blank words ptrs := { size := (words, ptrs) }
  getU8 s := s.u8
  getU16 s := s.u16
  getBool s := s.bool
  getPtr s := s.ptr
  setU8 s i v := { s with u8 := Function.update s.u8 i v }
  setU16 s i v := { s with u16 := Function.update s.u16 i v }
  setBool s i v := { s with bool := Function.update s.bool i v }
  setPtr s i p := { s with ptr := Function.update s.ptr i p }
  newText t := if t.length + 1 < 2 ^ 29 then some (.text t) else none
  newData d := if d.length < 2 ^ 29 then some (.data d) else none
  newStruct s := .struct s.size s.u8 s.u16 s.bool s.ptr
  initList words n := if words * n < 2 ^ 29 then some (List.replicate n .null) else none
  newList := .list
  asText := RefPtr.toBytes
  asData := RefPtr.toBytes
  asStruct := RefPtr.toStruct
  asList := RefPtr.toList
  element p := (RefPtr.toStruct p).toOption.getD { size := (0, 0) }
  notInSchema type :=
    "Enum value or union discriminant " ++ toString type.toNat ++ " was not present in the schema."
  deliver s := .ok s
  size_blank _ _ := rfl
  size_setU8 _ _ _ := rfl
  size_setU16 _ _ _ := rfl
  size_setBool _ _ _ := rfl
  size_setPtr _ _ _ := rfl
  getU8_setU8 _ _ := Function.update_self ..
  getU16_setU16 _ _ := Function.update_self ..
  getBool_setBool _ _ := Function.update_self ..
  getPtr_setPtr _ _ := Function.update_self ..
  getU8_setU8_ne _ h _ := Function.update_of_ne (Ne.symm h) ..
  getBool_setU8_ne _ _ _ := rfl
  getPtr_setPtr_ne _ h _ := Function.update_of_ne (Ne.symm h) ..
  getU8_setPtr _ _ _ := rfl
  getU16_setPtr _ _ _ := rfl
  getBool_setPtr _ _ _ := rfl
  getPtr_setU8 _ _ _ := rfl
  getPtr_setU16 _ _ _ := rfl
  getPtr_setBool _ _ _ := rfl
  newText_ok h := ⟨_, if_pos h, rfl⟩
  newData_ok h := ⟨_, if_pos h, rfl⟩
  initList_ok h := ⟨_, if_pos h, List.length_replicate⟩
  asStruct_newStruct _ := rfl
  asList_newList _ := rfl
  element_newStruct _ := rfl
  deliver_eq h := (Except.ok.inj h).symm

end QuickTunnel.Message

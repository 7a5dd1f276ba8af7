import Barline.Json.Reader
import Barline.Proofs.Decimal.Scaled
import Barline.Proofs.Json.Printer

/-!
# Readers of what was written

Numbers, texts and records that a writer puts into a value are given back by the readers of
their kind.  A record with distinct names has for each name the field that was written under
it, or none (`fields?_record`).  What is written can be printed (`Writable`), and also kept
whole while it is read (`isSound`).
-/

namespace Barline

namespace Json

/-! ## Texts and lists -/

@[simp]
theorem string?_text (s : String) : string? (text s) = some s := rfl

theorem list?_map {α : Type} (f : α → Json) (g : α → α) {read : Json → Option α} {xs : List α}
    (h : ∀ x ∈ xs, read (f x) = some (g x)) : list? read (.array (xs.map f)) = some (xs.map g) := by
  rw [list?]
  induction xs with
  | nil => rfl
  | cons x xs ih =>
    rw [List.map_cons, List.mapM_cons, h x List.mem_cons_self,
      ih fun y hy => h y (List.mem_cons_of_mem x hy)]
    rfl

/-! ## Integers -/

theorem ofInt_natCast (n : Nat) : ofInt n = ofNat n := by
  rw [ofInt, ofNat, Numeral.ofInt, Numeral.ofNat, decide_eq_false (by omega), Int.natAbs_natCast]

theorem toInt?_ofInt (i : Int) : (Numeral.ofInt i).toInt? = some i := by
  have hvalue := Text.digitsValue_decimal i.natAbs
  have hintegral : (Numeral.ofInt i).integral = true := by
    rw [Numeral.integral, Numeral.ofInt]
    simp only [hvalue, Option.isNone_none, Bool.true_and, Bool.not_eq_true', Bool.and_eq_false_iff,
      decide_eq_false_iff_not, beq_eq_false_iff_ne]
    omega
  rw [Numeral.toInt?, if_pos hintegral]
  simp only [Numeral.ofInt, hvalue, decide_eq_true_eq, Option.some.injEq]
  split <;> omega

theorem integerIn?_ofInt {bottom top i : Int} (hlow : bottom ≤ i) (hhigh : i ≤ top) :
    integerIn? bottom top (ofInt i) = some i := by
  rw [ofInt, integerIn?, toInt?_ofInt, Option.filter_some, if_pos (decide_eq_true ⟨hlow, hhigh⟩)]

theorem natural?_ofNat {top n : Nat} (h : n ≤ top) : natural? top (ofNat n) = some n := by
  rw [natural?, ← ofInt_natCast, integerIn?_ofInt (by omega) (by omega)]
  rfl

@[simp]
theorem uint8?_ofNat (n : UInt8) : uint8? (ofNat n.toNat) = some n := by
  rw [uint8?, natural?_ofNat (Nat.le_of_lt_succ n.toNat_lt), Option.map_some]
  exact congrArg some (UInt8.ofNat_toNat)

@[simp]
theorem uint16?_ofNat (n : UInt16) : uint16? (ofNat n.toNat) = some n := by
  rw [uint16?, natural?_ofNat (Nat.le_of_lt_succ n.toNat_lt), Option.map_some]
  exact congrArg some (UInt16.ofNat_toNat)

@[simp]
theorem uint32?_ofNat (n : UInt32) : uint32? (ofNat n.toNat) = some n := by
  rw [uint32?, natural?_ofNat (Nat.le_of_lt_succ n.toNat_lt), Option.map_some]
  exact congrArg some (UInt32.ofNat_toNat)

@[simp]
theorem uint64?_ofNat (n : UInt64) : uint64? (ofNat n.toNat) = some n := by
  rw [uint64?, natural?_ofNat (Nat.le_of_lt_succ n.toNat_lt), Option.map_some]
  exact congrArg some (UInt64.ofNat_toNat)

@[simp]
theorem int8?_ofInt (n : Int8) : int8? (ofInt n.toInt) = some n := by
  have hlow : -128 ≤ n.toInt := n.le_toInt
  have hhigh : n.toInt ≤ 127 := n.toInt_le
  rw [int8?, integerIn?_ofInt hlow hhigh, Option.map_some, Int8.ofInt_toInt]

@[simp]
theorem int16?_ofInt (n : Int16) : int16? (ofInt n.toInt) = some n := by
  have hlow : -32768 ≤ n.toInt := n.le_toInt
  have hhigh : n.toInt ≤ 32767 := n.toInt_le
  rw [int16?, integerIn?_ofInt hlow hhigh, Option.map_some, Int16.ofInt_toInt]

/-! ## Records -/

/-- The field of a name among members. -/
def fieldOf (members : List (String × Json)) (name : String) : Field :=
  match members.lookup name with
  | some v => .given v
  | none => .unnamed

section

variable {members : List (String × Json)}

/-- What a record holds, as the members of an object. -/
theorem record_eq : record members = .object (members.map fun (name, v) => (some name, v)) := rfl

theorem filter_record (h : (members.map Prod.fst).Nodup) (name : String) :
    (members.map fun (name, v) => (some name, v)).filter (fun m => m.1 == some name) =
      ((members.lookup name).map fun v => (some name, v)).toList := by
  induction members with
  | nil => rfl
  | cons m members ih =>
    obtain ⟨first, v⟩ := m
    obtain ⟨hnot, hrest⟩ := List.nodup_cons.1 h
    by_cases hname : first = name
    · subst hname
      have hlookup : members.lookup first = none := by
        rw [List.lookup_eq_none_iff]
        intro m hm
        rw [bne_iff_ne]
        exact fun heq => hnot (List.mem_map.2 ⟨m, hm, heq.symm⟩)
      rw [List.map_cons, List.filter_cons_of_pos (by simp), ih hrest, hlookup, List.lookup_cons_self]
      rfl
    · rw [List.map_cons, List.filter_cons_of_neg (by simpa using hname), ih hrest, List.lookup_cons,
        beq_eq_false_iff_ne.2 (Ne.symm hname)]

@[simp]
theorem fieldOf_cons_self (members : List (String × Json)) (name : String) (v : Json) :
    fieldOf ((name, v) :: members) name = .given v := by
  rw [fieldOf, List.lookup_cons_self]

@[simp]
theorem fieldOf_cons_of_ne (members : List (String × Json)) {first name : String} (v : Json)
    (h : first ≠ name) : fieldOf ((first, v) :: members) name = fieldOf members name := by
  rw [fieldOf, List.lookup_cons, beq_eq_false_iff_ne.2 (Ne.symm h), fieldOf]

@[simp]
theorem fieldOf_nil (name : String) : fieldOf [] name = .unnamed := rfl

@[simp]
theorem required?_given {α : Type} (read : Json → Option α) (v : Json) :
    (Field.given v).required? read = read v := rfl

@[simp]
theorem orElse?_given {α : Type} (missing : α) (read : Json → Option α) (v : Json) :
    (Field.given v).orElse? missing read = read v := rfl

/-- A name that occurs at most once has the field that was written under it. -/
theorem namedField?_record (h : (members.map Prod.fst).Nodup) (name : String) :
    namedField? (members.map fun (name, v) => (some name, v)) name =
      some (fieldOf members name) := by
  rw [namedField?, filter_record h, fieldOf]
  cases members.lookup name <;> rfl

/-- The fields of a record that was written with distinct names. -/
theorem fields?_record (h : (members.map Prod.fst).Nodup) (names : List String) :
    fields? names (record members) = some (names.map (fieldOf members)) := by
  have hnames : (members.map fun (name, v) => (some name, v)).all (fun m => m.1.isSome) = true := by
    rw [List.all_map, List.all_eq_true]
    exact fun m _ => rfl
  rw [record_eq, fields?, objectFields?, if_pos hnames]
  · induction names with
    | nil => rfl
    | cons name names ih =>
      rw [List.mapM_cons, namedField?_record h, ih]
      rfl
  · exact fun items heq => by cases heq

/-- The tag of a record that was written first, and what comes after it. -/
theorem tagged?_record {tagName : String} (h : tagName ∉ members.map Prod.fst) (tag : String) :
    tagged? tagName (record ((tagName, text tag) :: members)) = some (tag, record members) := by
  have hother : ∀ m ∈ members.map fun (name, v) => (some name, v),
      (m.1 == some tagName) = false := by
    intro m hm
    obtain ⟨⟨name, v⟩, hmem, rfl⟩ := List.mem_map.1 hm
    refine beq_eq_false_iff_ne.2 fun heq => h ?_
    exact List.mem_map.2 ⟨(name, v), hmem, Option.some.inj heq⟩
  have htagged : (members.map fun (name, v) => (some name, v)).filter
      (fun m => m.1 == some tagName) = [] :=
    List.filter_eq_nil_iff.2 fun m hm => by simp [hother m hm]
  have hrest : (members.map fun (name, v) => (some name, v)).filter
      (fun m => !(m.1 == some tagName)) = members.map fun (name, v) => (some name, v) :=
    List.filter_eq_self.2 fun m hm => by simp [hother m hm]
  rw [record_eq, tagged?, List.map_cons, List.partition_eq_filter_filter,
    List.filter_cons_of_pos (by simp), htagged, List.filter_cons_of_neg (by simp)]
  show some (tag, Json.object (List.filter (fun m => !(m.1 == some tagName)) _)) = _
  rw [hrest, record_eq]

theorem writable_record (h : ∀ m ∈ members, Writable m.2) : Writable (record members) := by
  rw [record_eq]
  refine .object (fun m hm => ?_) fun m hm => ?_ <;>
    obtain ⟨⟨name, v⟩, hmem, rfl⟩ := List.mem_map.1 hm
  · rfl
  · exact h (name, v) hmem

/-- A record can be kept when its fields can, with one level less. -/
theorem isSound_record {depth : Nat} (h : ∀ m ∈ members, isSound depth m.2 = true) :
    isSound (depth + 1) (record members) = true := by
  rw [record_eq, isSound]
  induction members with
  | nil => rfl
  | cons m members ih =>
    rw [List.map_cons, membersAreSound, h m List.mem_cons_self,
      ih fun m' hm' => h m' (List.mem_cons_of_mem m hm')]
    rfl

end

/-! ## What can be written and kept -/

/-- A value that the fields of an event are written as: an integer of a size that some
machine word has, or a text. -/
inductive Scalar : Json → Prop where
  | integer {i : Int} (h : i.natAbs < 2 ^ 64) : Scalar (ofInt i)
  | text (s : String) : Scalar (text s)

theorem Scalar.natural {n : Nat} (h : n < 2 ^ 64) : Scalar (ofNat n) := by
  rw [← ofInt_natCast]
  exact .integer (by omega)

attribute [simp] Scalar.text

@[simp]
theorem scalar_uint8 (n : UInt8) : Scalar (ofNat n.toNat) :=
  .natural (Nat.lt_trans n.toNat_lt (by omega))

@[simp]
theorem scalar_uint16 (n : UInt16) : Scalar (ofNat n.toNat) :=
  .natural (Nat.lt_trans n.toNat_lt (by omega))

@[simp]
theorem scalar_uint32 (n : UInt32) : Scalar (ofNat n.toNat) :=
  .natural (Nat.lt_trans n.toNat_lt (by omega))

@[simp]
theorem scalar_uint64 (n : UInt64) : Scalar (ofNat n.toNat) :=
  .natural n.toNat_lt

@[simp]
theorem scalar_int8 (n : Int8) : Scalar (ofInt n.toInt) := by
  have hlow : -128 ≤ n.toInt := n.le_toInt
  have hhigh : n.toInt ≤ 127 := n.toInt_le
  exact .integer (by omega)

@[simp]
theorem scalar_int16 (n : Int16) : Scalar (ofInt n.toInt) := by
  have hlow : -32768 ≤ n.toInt := n.le_toInt
  have hhigh : n.toInt ≤ 32767 := n.toInt_le
  exact .integer (by omega)

theorem Scalar.writable {v : Json} (h : Scalar v) : Writable v := by
  cases h with
  | @integer i h => exact .number ⟨Text.plain_decimal i.natAbs, fun _ heq => by cases heq⟩
  | text s => exact .string s

theorem Scalar.isSound {v : Json} (h : Scalar v) (depth : Nat) : isSound depth v = true := by
  cases h with
  | @integer i h =>
    rw [ofInt, Json.isSound]
    exact Decimal.scaled?_decimal_isSome h (decide (i < 0))
  | text s =>
    rw [Json.text, Json.isSound]
    rfl

end Json

end Barline

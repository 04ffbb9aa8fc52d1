/-!
# `BoundedEquations.Variable.Basic`: named unknowns of a fixed bit width

A variable of width `w` stands for an unknown natural number below `2 ^ w`. Its name is its
identity. `==`, the order and the hash look at the name alone, so two variables of one name and
different widths are the same vertex of a graph and the same key of a table. Plain equality `=`
still tells their widths apart, and so does `Variable.debugText`.

Names are ordered by code point.
-/

set_option autoImplicit false

namespace BoundedEquations

/-- A named unknown with at least one bit. -/
structure Variable where
  name : String
  width : Nat
  width_pos : 0 < width
deriving DecidableEq

namespace Variable

/-- Variables are compared by name. -/
instance : BEq Variable := ⟨fun x y => x.name == y.name⟩

/-- Variables are ordered by name. -/
instance : LT Variable := ⟨fun x y => x.name < y.name⟩

/-- The order is decided by the names. -/
instance (x y : Variable) : Decidable (x < y) := inferInstanceAs (Decidable (x.name < y.name))

/-- The hash is that of the name. -/
instance : Hashable Variable := ⟨fun x => hash x.name⟩

/-- A variable is written as its name. -/
instance : ToString Variable := ⟨name⟩

/-- Variables are the same for `==` when their names are equal. -/
theorem beq_iff {x y : Variable} : (x == y) = true ↔ x.name = y.name :=
  show (x.name == y.name) = true ↔ _ from beq_iff_eq

/-- A variable comes before another when its name does. -/
theorem lt_iff {x y : Variable} : x < y ↔ x.name < y.name := Iff.rfl

/-- Every name is that of some variable. -/
theorem exists_name_eq (n : String) : ∃ x : Variable, x.name = n := ⟨⟨n, 1, Nat.one_pos⟩, rfl⟩

/-- Comparison by name is an equivalence. -/
instance : EquivBEq Variable where
  rfl := beq_iff.mpr rfl
  symm h := beq_iff.mpr (beq_iff.mp h).symm
  trans h h' := beq_iff.mpr ((beq_iff.mp h).trans (beq_iff.mp h'))

/-- Variables of one name have one hash. -/
instance : LawfulHashable Variable where
  hash_eq _ _ h := congrArg (fun name : String => hash name) (beq_iff.mp h)

/-! ### The full text -/

/-- A character between quotation marks. What counts as printable depends on the version of Unicode.
A character that is not printable is written by its number. -/
def escaped (printable : Char → Bool) (c : Char) : String :=
  match c with
  | '\x00' => "\\0"
  | '\t' => "\\t"
  | '\r' => "\\r"
  | '\n' => "\\n"
  | '\"' => "\\\""
  | '\\' => "\\\\"
  | _ =>
    if printable c then String.singleton c
    else "\\u\x7b" ++ String.ofList (Nat.toDigits 16 c.toNat) ++ "\x7d"

/-- The variable with its width and the name in quotation marks. -/
def debugText (printable : Char → Bool) (x : Variable) : String :=
  "Var \x7b name: \"" ++ String.join (x.name.toList.map (escaped printable)) ++ "\", width: " ++
    toString x.width ++ " \x7d"

end Variable

end BoundedEquations

import QuantumRegister.Proofs.Exact
import QuantumRegister.Scalar.Lanes

/-!
Exact arithmetic that may leave the numbers: beside them stand two infinities and an undefined result. What is undefined
stays so in everything computed from it, and compares false with everything. Zero has no sign.
-/

set_option autoImplicit false

namespace QuantumRegister

inductive Extended where
  | number (x : ℝ)
  | infinite (negative : Bool)
  | undefined

namespace Extended

noncomputable section

def plus : Extended → Extended → Extended
  | number x, number y => number (x + y)
  | number _, infinite s => infinite s
  | infinite s, number _ => infinite s
  | infinite s, infinite t => if s = t then infinite s else undefined
  | undefined, _ => undefined
  | _, undefined => undefined

def opposite : Extended → Extended
  | number x => number (-x)
  | infinite s => infinite !s
  | undefined => undefined

def times : Extended → Extended → Extended
  | number x, number y => number (x * y)
  | number x, infinite s => if x = 0 then undefined else infinite (s ^^ decide (x < 0))
  | infinite s, number y => if y = 0 then undefined else infinite (s ^^ decide (y < 0))
  | infinite s, infinite t => infinite (s ^^ t)
  | undefined, _ => undefined
  | _, undefined => undefined

def per : Extended → Extended → Extended
  | number x, number y => if y ≠ 0 then number (x / y) else if x = 0 then undefined else infinite (decide (x < 0))
  | number _, infinite _ => number 0
  | infinite s, number y => infinite (s ^^ decide (y < 0))
  | infinite _, infinite _ => undefined
  | undefined, _ => undefined
  | _, undefined => undefined

def Below : Extended → Extended → Prop
  | number x, number y => x < y
  | number _, infinite s => s = false
  | infinite s, number _ => s = true
  | infinite s, infinite t => s = true ∧ t = false
  | undefined, _ => False
  | _, undefined => False

def Within : Extended → Extended → Prop
  | number x, number y => x ≤ y
  | number _, infinite s => s = false
  | infinite s, number _ => s = true
  | infinite s, infinite t => s = true ∨ t = false
  | undefined, _ => False
  | _, undefined => False

-- Negative numbers have no root.
def root : Extended → Extended
  | number x => if x < 0 then undefined else number (Real.sqrt x)
  | infinite s => if s then undefined else infinite false
  | undefined => undefined

-- Infinities have no angle.
def onNumbers (f : ℝ → ℝ) : Extended → Extended
  | number x => number (f x)
  | _ => undefined

-- A side without end makes the whole so, whatever the other one is.
def distance : Extended → Extended → Extended
  | number x, number y => number (Scalar.hypot x y)
  | infinite _, _ => infinite false
  | _, infinite _ => infinite false
  | undefined, _ => undefined
  | _, undefined => undefined

-- The number, if it is one.
def value : Extended → ℝ
  | number x => x
  | _ => 0

def text (f : ℝ → String) : Extended → String
  | number x => f x
  | infinite s => if s then "-inf" else "inf"
  | undefined => "NaN"

instance : Scalar Extended where
  add := plus
  sub x y := plus x (opposite y)
  mul := times
  div := per
  neg := opposite
  zero := number 0
  one := number 1
  ofScientific m s e := number (OfScientific.ofScientific m s e)
  lt := Below
  le := Within
  decLT := Classical.decRel Below
  decLE := Classical.decRel Within
  sqrt := root
  sin := onNumbers Real.sin
  cos := onNumbers Real.cos
  hypot := distance
  dyadic m e := number (Scalar.dyadic m e)
  invSqrtTwo := number Scalar.invSqrtTwo
  invSqrtTwoPow k := number (Scalar.invSqrtTwoPow k)
  eighthTurn := number Scalar.eighthTurn
  below x := x
  plain := text Scalar.plain
  scientific := text Scalar.scientific

end

/-! Numbers stay numbers. -/

theorem number_zero : number 0 = 0 := rfl

theorem number_one : number 1 = 1 := rfl

theorem number_add (x y : ℝ) : number x + number y = number (x + y) := rfl

theorem number_sub (x y : ℝ) : number x - number y = number (x - y) := congrArg number (sub_eq_add_neg x y).symm

theorem number_mul (x y : ℝ) : number x * number y = number (x * y) := rfl

theorem number_lt (x y : ℝ) : number x < number y ↔ x < y := Iff.rfl

theorem number_le (x y : ℝ) : number x ≤ number y ↔ x ≤ y := Iff.rfl

theorem number_sqrt (x : ℝ) (root : 0 ≤ x) : Scalar.sqrt (number x) = number (Real.sqrt x) := if_neg root.not_gt

theorem number_magnitude (x : ℝ) : Scalar.magnitude (number x) = number |x| := by
  by_cases negative : x < 0
  · rw [abs_of_neg negative]
    exact if_pos negative
  · rw [abs_of_nonneg (not_lt.mp negative)]
    exact if_neg negative

/-! What is undefined stays undefined. -/

theorem undefined_add (x : Extended) : undefined + x = undefined := by cases x <;> rfl

theorem add_undefined (x : Extended) : x + undefined = undefined := by cases x <;> rfl

theorem undefined_sub (x : Extended) : undefined - x = undefined := undefined_add (-x)

theorem sub_undefined (x : Extended) : x - undefined = undefined := add_undefined x

theorem undefined_mul (x : Extended) : undefined * x = undefined := by cases x <;> rfl

theorem mul_undefined (x : Extended) : x * undefined = undefined := by cases x <;> rfl

theorem lt_undefined (x : Extended) : ¬x < undefined := by cases x <;> exact id

theorem undefined_lt (x : Extended) : ¬undefined < x := by cases x <;> exact id

theorem zero_mul_infinite (s : Bool) : 0 * infinite s = undefined := if_pos rfl

-- Adding up takes what is undefined first, then two infinities that oppose each other, then an infinity.
instance : Scalar.ExactAddition Extended where
  assoc a b c := by
    change plus (plus a b) c = plus a (plus b c)
    rcases a with x | ⟨_ | _⟩ | _ <;> rcases b with y | ⟨_ | _⟩ | _ <;> rcases c with z | ⟨_ | _⟩ | _ <;>
      simp [plus, add_assoc]
  comm a b := by
    change plus a b = plus b a
    rcases a with x | ⟨_ | _⟩ | _ <;> rcases b with y | ⟨_ | _⟩ | _ <;> simp [plus, add_comm]
  zero_left a := by
    change plus (number 0) a = a
    cases a <;> simp [plus]

theorem sum_number (xs : List ℝ) : Scalar.sum (xs.map number) = number xs.sum := by
  induction xs with
  | nil => rfl
  | cons x xs ih => rw [List.map_cons, Scalar.sum_cons, ih, number_add, List.sum_cons]

theorem sum_undefined (xs : List Extended) (member : undefined ∈ xs) : Scalar.sum xs = undefined := by
  induction xs with
  | nil => cases member
  | cons x xs ih =>
      rw [Scalar.sum_cons]
      rcases List.mem_cons.mp member with rfl | later
      · exact undefined_add _
      · rw [ih later, add_undefined]

/-! Sums of what is a number or grows beyond all of them. -/

def Unsigned (x : Extended) : Prop := (∃ y, x = number y) ∨ x = infinite false

theorem Unsigned.add {x y : Extended} (first : Unsigned x) (second : Unsigned y) : Unsigned (x + y) := by
  obtain ⟨u, rfl⟩ | rfl := first <;> obtain ⟨v, rfl⟩ | rfl := second
  · exact .inl ⟨u + v, rfl⟩
  · exact .inr rfl
  · exact .inr rfl
  · exact .inr rfl

theorem Unsigned.sum (xs : List Extended) (each : ∀ x ∈ xs, Unsigned x) : Unsigned (Scalar.sum xs) := by
  induction xs with
  | nil => exact .inl ⟨0, rfl⟩
  | cons x xs ih =>
      obtain ⟨first, later⟩ := List.forall_mem_cons.mp each
      rw [Scalar.sum_cons]
      exact first.add (ih later)

theorem Unsigned.square (x : Extended) (known : x ≠ undefined) : Unsigned (x * x) := by
  rcases x with y | s | _
  · exact .inl ⟨y * y, number_mul y y⟩
  · exact .inr (congrArg infinite (Bool.xor_self s))
  · exact absurd rfl known

theorem sqrt_number (x : Extended) (y : ℝ) (root : Scalar.sqrt x = number y) : ∃ z, x = number z ∧ 0 ≤ z := by
  rcases x with z | s | _
  · by_cases negative : z < 0
    · have none : Scalar.sqrt (number z) = undefined := if_pos negative
      rw [none] at root
      cases root
    · exact ⟨z, rfl, not_lt.mp negative⟩
  · cases s <;> cases root
  · cases root

end Extended

end QuantumRegister

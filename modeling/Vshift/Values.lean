import Mathlib.Data.Rat.Defs
import Mathlib.Algebra.Group.Nat.Defs

/- The plain values the program passes around: UUIDs, instants, Python floats,
   positive integers, exceptions, and the string operations the validators use.

   An instant is a UTC datetime in microseconds. A Python float is an exact
   rational or one of the non-finite values; no modelled function rounds. -/
namespace Vshift

abbrev Uuid := BitVec 128

/-- `datetime.now(tz=UTC)`, in microseconds. -/
abbrev DateTime := Nat

/-- Microseconds in `n` seconds. -/
def seconds (n : Nat) : Nat := n * 1000000

inductive PyFloat where
  | finite (value : Rat)
  | infinity (negative : Bool)
  | nan
  deriving DecidableEq, Repr

/-- `x < 0`, which NaN never satisfies. -/
def PyFloat.isNegative : PyFloat → Bool
  | .finite q => q < 0
  | .infinity negative => negative
  | .nan => false

def PyFloat.Finite (x : PyFloat) : Prop := ∃ q, x = .finite q

instance : (x : PyFloat) → Decidable x.Finite
  | .finite q => isTrue ⟨q, rfl⟩
  | .infinity _ => isFalse (by rintro ⟨_, h⟩; cases h)
  | .nan => isFalse (by rintro ⟨_, h⟩; cases h)

/-- pydantic's `PositiveInt`. -/
abbrev PositiveInt := {n : Nat // 1 ≤ n}

instance (n : Nat) : OfNat PositiveInt (n + 1) := ⟨⟨n + 1, Nat.le_add_left 1 n⟩⟩

/-- What a use case can raise: the program's own `VShiftException` with its message, or
    another exception by its class name. -/
inductive Exn where
  | vshift (message : String)
  | other (name : String)
  deriving DecidableEq, Repr

/-- A sequence that succeeds succeeded in both parts. -/
theorem except_bind_ok {ε α β : Type} {x : Except ε α} {f : α → Except ε β} {b : β}
    (h : (x >>= f) = .ok b) : ∃ a, x = .ok a ∧ f a = .ok b := by
  cases x with
  | error e => cases h
  | ok a => exact ⟨a, rfl, h⟩

def hexDigit (n : Nat) : Char := "0123456789abcdef".toList.getD n '0'

/-- The 32 hexadecimal digits of a UUID, most significant first. -/
def Uuid.hex (id : Uuid) : List Char :=
  (List.range 32).map (fun i => hexDigit (id.toNat / 16 ^ (31 - i) % 16))

/-- `str(id)`: the canonical 36-character form. -/
def Uuid.str (id : Uuid) : String :=
  let h := Uuid.hex id
  String.ofList (h.take 8 ++ '-' :: (h.drop 8).take 4 ++ '-' :: (h.drop 12).take 4 ++
    '-' :: (h.drop 16).take 4 ++ '-' :: h.drop 20)

/-- The characters `str.strip` removes. -/
def isSpace (c : Char) : Bool :=
  let n := c.toNat
  (9 ≤ n && n ≤ 13) || (28 ≤ n && n ≤ 32) || n == 0x85 || n == 0xa0 || n == 0x1680 ||
    (0x2000 ≤ n && n ≤ 0x200a) || n == 0x2028 || n == 0x2029 || n == 0x202f || n == 0x205f ||
    n == 0x3000

/-- `text.strip()` -/
def strip (text : String) : String :=
  String.ofList ((text.toList.dropWhile isSpace).reverse.dropWhile isSpace).reverse

/-- `not value.strip()` -/
def isBlank (value : String) : Bool := value.toList.all isSpace

end Vshift

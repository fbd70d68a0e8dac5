/-
Numbers in hexadecimal digits.
-/

namespace ThreeMachines.Text

/-- a number in lower-case hexadecimal digits, without leading zeros -/
def hex (n : Nat) : String := String.ofList (Nat.toDigits 16 n)

end ThreeMachines.Text

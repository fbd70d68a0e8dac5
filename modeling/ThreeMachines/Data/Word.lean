/-
Machine words.

A word is a signed number of 64 bits, held as an integer.
-/

namespace ThreeMachines

/-- how many words there are -/
def wordCount : Nat := 18446744073709551616

/-- the least word -/
def leastWord : Int := -9223372036854775808

/-- the greatest word -/
def greatestWord : Int := 9223372036854775807

/-- whether a word holds an integer -/
def isWord (value : Int) : Bool := leastWord ≤ value && value ≤ greatestWord

/-- the word that agrees with an integer in its lowest 64 bits -/
def wrap (value : Int) : Int := value.bmod wordCount

end ThreeMachines

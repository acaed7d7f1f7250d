/-!
Offsets and counts fit a machine word of 64 bits; a sum that does not fit wraps around.
-/
namespace CallChain.Word

/-- Number of values of a word. -/
def bound : Nat := Nat.pow 2 64

def add (a b : Nat) : Nat := (a + b) % bound

end CallChain.Word

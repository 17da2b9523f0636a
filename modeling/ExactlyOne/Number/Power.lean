/-!
Powers of two and of ten, the two bases in which this library counts.
-/

namespace ExactlyOne

def twoTo (n : Nat) : Nat := Nat.pow 2 n

def tenTo (n : Nat) : Nat := Nat.pow 10 n

end ExactlyOne

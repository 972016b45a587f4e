/-!
# Powers of two and ten

The two families of powers that decimals and binary numbers are built from.
-/

namespace RouteContract

/-- A power of two. -/
def twoTo (n : Nat) : Nat := Nat.pow 2 n

/-- A power of ten. -/
def tenTo (n : Nat) : Nat := Nat.pow 10 n

end RouteContract

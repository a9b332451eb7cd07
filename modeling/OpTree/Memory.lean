/-!
# Memory

Addresses have 48 bits. A table that is asked for as a whole, by the number of its entries, cannot be
had if it would be larger than that, and asking is fatal. This goes for every such table: the shape of
an array, a slab, the queue of the optimizer, a set with room for a given number. A table that takes
one entry after the other is never asked for as a whole, and memory for it is taken to be unlimited.
-/

namespace OpTree

set_option autoImplicit false

namespace Memory

/-- Can a table of `count` entries of `width` bytes each be asked for. -/
def holds (width : Nat) (count : Int) : Bool := count * width ≤ Nat.pow 2 48

end Memory

end OpTree

set_option autoImplicit false

namespace Aggregation

-- Halves `[low, high)` until it is empty; the test holds left of `low` and fails from `high` on.
def narrow (test : Nat → Bool) : Nat → Nat → Nat → Nat
  | 0, low, _ => low
  | fuel + 1, low, high =>
      if low < high then
        let middle := (low + high) / 2
        if test middle then narrow test fuel (middle + 1) high else narrow test fuel low middle
      else low

def partitionPoint (test : Nat → Bool) (size : Nat) : Nat :=
  narrow test (size.log2 + 1) 0 size

inductive Slot where
  | hit (index : Nat)
  | gap (index : Nat)
deriving DecidableEq

variable {α ε : Type}

def probe (order : α → Except ε Ordering) (items : Array α) : Nat → Nat → Nat → Except ε Slot
  | 0, low, _ => .ok (.gap low)
  | fuel + 1, low, high =>
      if low < high then
        let middle := (low + high) / 2
        match items[middle]? with
        | none => .ok (.gap low)
        | some item =>
            match order item with
            | .error failure => .error failure
            | .ok .eq => .ok (.hit middle)
            | .ok .lt => probe order items fuel (middle + 1) high
            | .ok .gt => probe order items fuel low middle
      else .ok (.gap low)

-- Finds the slot of a key in an array that ascends. The first comparison that fails ends the search; a search that
-- goes on, as `Probing.descending` does, refuses the same keys but may report the failure of another item.
def search (order : α → Except ε Ordering) (items : Array α) : Except ε Slot :=
  probe order items (items.size.log2 + 1) 0 items.size

end Aggregation

import LoxMachine.Put
import LoxMachine.Value

/-!
# Hash tables keyed by interned strings

An open-addressing table with linear probing. A key carries the hash of its string, and probing
starts at the slot the hash selects. Deleting leaves a tombstone, so that a probe running through
the slot still reaches what was placed further along; tombstones count as used until the table
grows.

* `Table.find` is the slot of a key, or the slot where it should go.
* `Table.get?`, `set`, `delete`, `retain` and `addAll` are the operations of a finite map.
* `Table.candidates` is the chain of keys of one hash, in probe order, and `Table.findBy` the first
  of them that satisfies a predicate.
* `Table.entries` lists the pairs in slot order.
-/

namespace LoxMachine

/-- A key: the handle of an interned string and the hash of its contents. -/
structure Key where
  handle : Handle
  hash : UInt32
  deriving DecidableEq, Inhabited, Repr

/-- One place of a table. -/
inductive Slot where
  | empty
  /-- The place of a deleted entry. -/
  | tombstone
  | entry (key : Key) (value : Value)
  deriving DecidableEq, Inhabited, Repr

namespace Slot

/-- The pair in the slot, if it holds one. -/
def pair? : Slot → Option (Key × Value)
  | entry key value => some (key, value)
  | _ => none

end Slot

/-- A map from interned strings to values. -/
structure Table where
  slots : Array Slot := #[]
  /-- How many slots have been filled since the table last grew, tombstones included. -/
  used : Nat := 0
  /-- How many entries there are. -/
  live : Nat := 0
  deriving Inhabited

namespace Table

/-- How many slots there are. -/
def capacity (t : Table) : Nat := t.slots.size

def isEmpty (t : Table) : Bool := t.live == 0

/-- The pairs of the table, in slot order. -/
def entries (t : Table) : List (Key × Value) := t.slots.toList.filterMap Slot.pair?

/-! ## Probing -/

/-- The slot after `i`, the last one being followed by the first. -/
def after (slots : Array Slot) (i : Nat) : Nat := (i + 1) % slots.size

/-- Look at up to `steps` slots from `i` on. The answer is the slot that holds `handle`; if an empty
slot comes first, the first tombstone passed, or that empty slot. -/
def probe (slots : Array Slot) (handle : Handle) : (steps i : Nat) → Option Nat → Option Nat
  | 0, _, grave => grave
  | steps + 1, i, grave =>
    match slots[i]? with
    | none => grave
    | some .empty => some (grave.getD i)
    | some .tombstone => probe slots handle steps (after slots i) (grave.or (some i))
    | some (.entry key _) =>
      if key.handle = handle then some i else probe slots handle steps (after slots i) grave

/-- The slot of a key, or the slot where it should go. -/
def find (slots : Array Slot) (key : Key) : Option Nat :=
  probe slots key.handle slots.size (key.hash.toNat % slots.size) none

/-- The handles with a given hash, on a walk of up to `steps` slots from `i` to the first empty
slot. -/
def chain (slots : Array Slot) (hash : UInt32) : (steps i : Nat) → List Handle
  | 0, _ => []
  | steps + 1, i =>
    match slots[i]? with
    | none | some .empty => []
    | some .tombstone => chain slots hash steps (after slots i)
    | some (.entry key _) =>
      if key.hash = hash then key.handle :: chain slots hash steps (after slots i)
      else chain slots hash steps (after slots i)

/-- The handles with a given hash, in probe order. -/
def candidates (t : Table) (hash : UInt32) : List Handle :=
  if t.live = 0 then []
  else chain t.slots hash t.slots.size (hash.toNat % t.slots.size)

/-- The first key with the given hash that satisfies `p`. -/
def findBy (t : Table) (hash : UInt32) (p : Handle → Bool) : Option Handle :=
  (t.candidates hash).find? p

/-! ## Growing -/

/-- Put an entry into its slot, counting it as new. -/
def place (t : Table) (key : Key) (value : Value) : Table :=
  match find t.slots key with
  | some i =>
    { slots := put t.slots i (.entry key value), used := t.used + 1, live := t.live + 1 }
  | none => t

/-- A table of `capacity` slots with the entries of `t`, placed in slot order. -/
def resize (t : Table) (capacity : Nat) : Table :=
  t.entries.foldl (fun t (key, value) => t.place key value)
    { slots := Array.replicate capacity .empty }

/-- The number of slots after growing. -/
def grown (capacity : Nat) : Nat := if capacity < 8 then 8 else 2 * capacity

/-- Grow if one more used slot would fill more than three quarters of the table. -/
def reserve (t : Table) : Table :=
  if 3 * t.capacity < 4 * (t.used + 1) then t.resize (grown t.capacity) else t

/-! ## The operations of a map -/

/-- The value of a key. -/
def get? (t : Table) (key : Key) : Option Value :=
  if t.live = 0 then none
  else
    match find t.slots key with
    | none => none
    | some i =>
      match t.slots[i]? with
      | some (.entry _ value) => some value
      | _ => none

/-- Insert or overwrite. The answer says whether the key was absent. An entry that goes where a
tombstone was uses no new slot. -/
def set (t : Table) (key : Key) (value : Value) : Bool × Table :=
  let t := t.reserve
  match find t.slots key with
  | none => (false, t)
  | some i =>
    match t.slots[i]? with
    | some (.entry _ _) =>
      (false, { t with slots := put t.slots i (.entry key value) })
    | some .tombstone =>
      (true, { t with slots := put t.slots i (.entry key value), live := t.live + 1 })
    | _ =>
      (true,
        { slots := put t.slots i (.entry key value)
          used := t.used + 1
          live := t.live + 1 })

/-- Insert or overwrite. -/
def insert (t : Table) (key : Key) (value : Value) : Table := (t.set key value).2

/-- Remove a key, leaving a tombstone. The answer says whether the key was present. -/
def delete (t : Table) (key : Key) : Bool × Table :=
  if t.live = 0 then (false, t)
  else
    match find t.slots key with
    | none => (false, t)
    | some i =>
      match t.slots[i]? with
      | some (.entry _ _) =>
        (true, { t with slots := put t.slots i .tombstone, live := t.live - 1 })
      | _ => (false, t)

/-- Copy every entry of `source` into `target`, overwriting what is there. -/
def addAll (source target : Table) : Table :=
  source.entries.foldl (fun t (key, value) => t.insert key value) target

/-- Delete every entry whose handle does not satisfy `keep`. -/
def retain (t : Table) (keep : Handle → Bool) : Table :=
  let dropped : Slot → Bool
    | .entry key _ => !keep key.handle
    | _ => false
  { slots := t.slots.map fun slot => if dropped slot then .tombstone else slot
    used := t.used
    live := t.live - t.slots.countP dropped }

/-! ## Handles held by a table -/

/-- Every handle that the table holds: for each entry the key's, then the value's. -/
def handles (t : Table) : List Handle :=
  t.entries.flatMap fun (key, value) => key.handle :: value.handle?.toList

/-- The bytes charged for a table: thirty-two for a slot. -/
def storage (t : Table) : Nat := 32 * t.capacity

end Table

end LoxMachine

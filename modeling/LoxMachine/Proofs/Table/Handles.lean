import LoxMachine.Proofs.Table.Sound

/-!
# The handles held by a table

* `Table.Within P t`: every handle that the table holds satisfies `P`. Said of the slots, it is kept
  by every operation as long as the new entries satisfy it.
* `Table.within_iff` ties it to `Table.handles`.
-/

namespace LoxMachine

variable {P : Handle → Prop} {t : Table} {key : Key} {v : Value}

/-- A value that is no object, or one that satisfies `P`. -/
def Value.In (P : Handle → Prop) (v : Value) : Prop := ∀ h, v = .obj h → P h

/-- The handles in a slot satisfy `P`. -/
def Slot.Within (P : Handle → Prop) : Slot → Prop
  | .entry key value => P key.handle ∧ value.In P
  | _ => True

namespace Table

/-- The handles in a table satisfy `P`. -/
def Within (P : Handle → Prop) (t : Table) : Prop := ∀ slot ∈ t.slots, slot.Within P

theorem within_iff : t.Within P ↔ ∀ h ∈ t.handles, P h := by
  constructor
  · intro ht h hh
    obtain ⟨pair, hpair, hm⟩ := List.mem_flatMap.1 hh
    obtain ⟨hkey, hvalue⟩ := ht _ (mem_entries.1 hpair)
    rcases List.mem_cons.1 hm with rfl | hm
    · exact hkey
    · rw [Option.mem_toList, Value.handle?_eq_some_iff] at hm
      exact hvalue h hm
  · intro ht slot hslot
    cases slot with
    | entry key value =>
      have hpair : (key, value) ∈ t.entries := mem_entries.2 hslot
      refine ⟨ht _ (List.mem_flatMap.2 ⟨_, hpair, List.mem_cons_self⟩), ?_⟩
      rintro h rfl
      exact ht _ (List.mem_flatMap.2 ⟨_, hpair, List.mem_cons_of_mem _ (by simp [Value.handle?])⟩)
    | _ => trivial

theorem within_put {slots : Array Slot} {i : Nat} {slot : Slot}
    (hs : ∀ s ∈ slots, Slot.Within P s) (hslot : slot.Within P) :
    ∀ s ∈ put slots i slot, Slot.Within P s := by
  intro s hm
  obtain ⟨j, hj⟩ := Array.getElem?_of_mem hm
  rcases getElem?_put_eq_some hj with ⟨-, rfl⟩ | ⟨-, hj⟩
  · exact hslot
  · exact hs s (Array.mem_of_getElem? hj)

theorem Within.place (ht : t.Within P) (hkey : P key.handle) (hv : v.In P) :
    (t.place key v).Within P := by
  unfold Table.place
  split
  · exact within_put ht ⟨hkey, hv⟩
  · exact ht

/-- Entries that satisfy `P` are added one after another. -/
theorem Within.foldl {f : Table → Key × Value → Table}
    (hf : ∀ t key v, t.Within P → P key.handle → v.In P → (f t (key, v)).Within P)
    (entries : List (Key × Value)) : ∀ {t : Table}, t.Within P →
      (∀ pair ∈ entries, P pair.1.handle ∧ pair.2.In P) → (entries.foldl f t).Within P := by
  induction entries with
  | nil => exact fun ht _ => ht
  | cons pair rest ih =>
    intro t ht hall
    obtain ⟨hkey, hv⟩ := hall pair List.mem_cons_self
    exact ih (hf t pair.1 pair.2 ht hkey hv) fun p hp => hall p (List.mem_cons_of_mem _ hp)

theorem Within.entries (ht : t.Within P) (pair : Key × Value) (hp : pair ∈ t.entries) :
    P pair.1.handle ∧ pair.2.In P := ht _ (mem_entries.1 hp)

theorem Within.resize (ht : t.Within P) (capacity : Nat) : (t.resize capacity).Within P := by
  refine Within.foldl (fun t key v ht hkey hv => ht.place hkey hv) _ (fun slot hslot => ?_)
    ht.entries
  rw [(Array.mem_replicate.1 hslot).2]
  trivial

theorem Within.reserve (ht : t.Within P) : t.reserve.Within P := by
  unfold Table.reserve
  split
  · exact ht.resize _
  · exact ht

theorem Within.set (ht : t.Within P) (hkey : P key.handle) (hv : v.In P) :
    (t.set key v).2.Within P := by
  unfold Table.set
  dsimp only
  split
  · exact ht.reserve
  · split
    · exact within_put ht.reserve ⟨hkey, hv⟩
    · exact within_put ht.reserve ⟨hkey, hv⟩
    · exact within_put ht.reserve ⟨hkey, hv⟩

theorem Within.insert (ht : t.Within P) (hkey : P key.handle) (hv : v.In P) :
    (t.insert key v).Within P := ht.set hkey hv

theorem Within.delete (ht : t.Within P) (key : Key) : (t.delete key).2.Within P := by
  unfold Table.delete
  split
  · exact ht
  · split
    · exact ht
    · split
      · exact within_put ht trivial
      · exact ht

theorem Within.addAll {source : Table} (hs : source.Within P) (ht : t.Within P) :
    (source.addAll t).Within P :=
  Within.foldl (fun _ _ _ ht hkey hv => ht.insert hkey hv) _ ht hs.entries

theorem Within.get? (ht : t.Within P) (hv : t.get? key = some v) : v.In P := by
  unfold Table.get? at hv
  split at hv
  · cases hv
  · split at hv
    · cases hv
    · split at hv
      · rename_i hslot
        cases hv
        exact (ht _ (Array.mem_of_getElem? hslot)).2
      · cases hv

theorem within_empty : ({} : Table).Within P := fun slot hslot => absurd hslot (by simp)

end Table

end LoxMachine

import LoxMachine.Table
import Mathlib.Data.Nat.Find
import Mathlib.Data.Nat.ModEq

/-!
# Probing

A probe for a key starts at the slot that its hash selects, and visits one slot after another until
it meets the key or an empty slot.

* `Table.position slots hash n` is the slot that the probe visits after `n` others; every slot is
  visited once within as many steps as there are slots.
* `Table.Clear slots hash n`: none of the first `n` slots of the probe is empty. The slot of an entry
  is reached through such slots (`Table.Chained`), and as no operation makes a slot empty again, it
  stays so.
* `Table.find_of_entry` and `Table.find_of_absent`: what a probe finds. Without an entry of the key
  it ends at a slot that is free, and reached through slots that are not empty.
* `Table.mem_chain_iff`: the walk that looks for a hash meets exactly the entries of that hash.
-/

namespace LoxMachine

namespace Slot

/-- Whether the slot holds an entry. -/
def isEntry : Slot → Bool
  | entry _ _ => true
  | _ => false

/-- Whether the slot has been filled, by an entry or by one that was deleted. -/
def isUsed : Slot → Bool
  | empty => false
  | _ => true

/-- The slot holds an entry of the handle. -/
def Has (h : Handle) (s : Slot) : Prop := ∃ key v, s = .entry key v ∧ key.handle = h

@[simp] theorem has_entry {h : Handle} {key : Key} {v : Value} :
    (entry key v).Has h ↔ key.handle = h := by
  simp [Has]

@[simp] theorem not_has_empty {h : Handle} : ¬Slot.empty.Has h := by
  simp [Has]

theorem isEntry_iff {s : Slot} : s.isEntry = true ↔ ∃ key v, s = .entry key v := by
  cases s <;> simp [isEntry]

end Slot

namespace Table

variable {slots slots' : Array Slot} {key : Key} {hash : UInt32} {v : Value} {i n d : Nat}

/-! ## Positions -/

/-- The slot that a probe for a hash visits after `n` others. -/
def position (slots : Array Slot) (hash : UInt32) (n : Nat) : Nat := (hash.toNat + n) % slots.size

theorem position_zero (slots : Array Slot) (hash : UInt32) :
    position slots hash 0 = hash.toNat % slots.size := rfl

theorem position_lt (hash : UInt32) (n : Nat) (h : 0 < slots.size) :
    position slots hash n < slots.size := Nat.mod_lt _ h

theorem after_position (slots : Array Slot) (hash : UInt32) (n : Nat) :
    after slots (position slots hash n) = position slots hash (n + 1) := by
  simp [after, position, Nat.add_assoc]

/-- A probe does not come back to a slot before it has visited all of them. -/
theorem position_injective {a b : Nat} (ha : a < slots.size) (hb : b < slots.size)
    (h : position slots hash a = position slots hash b) : a = b := by
  have hmod : a ≡ b [MOD slots.size] := Nat.ModEq.add_left_cancel' hash.toNat h
  rwa [Nat.ModEq, Nat.mod_eq_of_lt ha, Nat.mod_eq_of_lt hb] at hmod

/-- Every slot is visited. -/
theorem exists_position (hash : UInt32) (hi : i < slots.size) :
    ∃ n < slots.size, position slots hash n = i := by
  have hpos : 0 < slots.size := by omega
  have hlt := Nat.mod_lt hash.toNat hpos
  refine ⟨(i + (slots.size - hash.toNat % slots.size)) % slots.size, Nat.mod_lt _ hpos, ?_⟩
  have hsum : hash.toNat % slots.size + (i + (slots.size - hash.toNat % slots.size)) =
      i + slots.size := by omega
  rw [position, Nat.add_mod_mod, ← Nat.mod_add_mod, hsum, Nat.add_mod_right, Nat.mod_eq_of_lt hi]

/-! ## The slots before an entry -/

/-- The first `n` slots of a probe for a hash are not empty. -/
def Clear (slots : Array Slot) (hash : UInt32) (n : Nat) : Prop :=
  ∀ e < n, slots[position slots hash e]? ≠ some .empty

/-- A probe for the hash reaches slot `i` through slots that are not empty. -/
def Reaches (slots : Array Slot) (hash : UInt32) (i : Nat) : Prop :=
  ∃ d < slots.size, position slots hash d = i ∧ Clear slots hash d

/-- Every entry is reached by a probe for its hash. -/
def Chained (slots : Array Slot) : Prop :=
  ∀ (i : Nat) (key : Key) (v : Value), slots[i]? = some (.entry key v) → Reaches slots key.hash i

/-- A handle has at most one entry. -/
def Distinct (slots : Array Slot) : Prop :=
  ∀ (i j : Nat) (s s' : Slot) (h : Handle), slots[i]? = some s → slots[j]? = some s' → s.Has h → s'.Has h → i = j

/-- Slots that are filled later do not end a probe earlier. -/
theorem Reaches.mono (hsize : slots'.size = slots.size)
    (hempty : ∀ j : Nat, slots'[j]? = some .empty → slots[j]? = some .empty)
    (h : Reaches slots hash i) : Reaches slots' hash i := by
  obtain ⟨d, hd, hi, hclear⟩ := h
  have hposition : ∀ n, position slots' hash n = position slots hash n := fun n => by
    rw [position, position, hsize]
  refine ⟨d, by omega, by rw [hposition, hi], fun e he hslot => ?_⟩
  rw [hposition] at hslot
  exact hclear e he (hempty _ hslot)

/-! ## What a probe finds -/

/-- A probe goes on through slots that neither are empty nor hold the handle. On the way it
remembers a tombstone, if it has passed one. -/
theorem probe_walk (h : Handle) (hpos : 0 < slots.size)
    (hpass : ∀ e < d, ∀ s, slots[position slots hash e]? = some s → s ≠ .empty ∧ ¬s.Has h)
    (steps : Nat) :
    ∃ grave, probe slots h (d + steps) (position slots hash 0) none =
        probe slots h steps (position slots hash d) grave ∧
      ∀ g, grave = some g → ∃ e < d, g = position slots hash e ∧ slots[g]? = some .tombstone := by
  induction d generalizing steps with
  | zero => exact ⟨none, by rw [Nat.zero_add], by simp⟩
  | succ d ih =>
    obtain ⟨grave, hwalk, hgrave⟩ := ih (fun e he => hpass e (by omega)) (steps + 1)
    have hsteps : d + 1 + steps = d + (steps + 1) := by omega
    rw [hsteps, hwalk, probe]
    have hlt := position_lt hash d hpos
    obtain ⟨hne, hnot⟩ := hpass d (by omega) _ (Array.getElem?_eq_getElem hlt)
    rw [Array.getElem?_eq_getElem hlt]
    cases hslot : slots[position slots hash d] with
    | empty => exact absurd hslot hne
    | tombstone =>
      refine ⟨grave.or (some (position slots hash d)), by rw [← after_position], fun g hg => ?_⟩
      cases hgr : grave with
      | none =>
        obtain rfl : position slots hash d = g := by simpa [hgr] using hg
        exact ⟨d, by omega, rfl, by rw [Array.getElem?_eq_getElem hlt, hslot]⟩
      | some g' =>
        obtain rfl : g' = g := by simpa [hgr] using hg
        obtain ⟨e, he, hpos', hstone⟩ := hgrave g' hgr
        exact ⟨e, by omega, hpos', hstone⟩
    | entry k w =>
      have hk : k.handle ≠ h := by simpa [hslot] using hnot
      refine ⟨grave, ?_, fun g hg => ?_⟩
      · simp only [if_neg hk]
        rw [← after_position]
      · obtain ⟨e, he, hpos', hstone⟩ := hgrave g hg
        exact ⟨e, by omega, hpos', hstone⟩

/-- **The slot of an entry is found.** -/
theorem find_of_entry {k : Key} (hc : Chained slots) (hd : Distinct slots)
    (hslot : slots[i]? = some (.entry k v)) (hk : k.handle = key.handle) (hh : k.hash = key.hash) :
    find slots key = some i := by
  obtain ⟨d, hlt, rfl, hclear⟩ := hc i k v hslot
  rw [hh] at hslot hclear ⊢
  have hpass : ∀ e < d, ∀ s, slots[position slots key.hash e]? = some s →
      s ≠ .empty ∧ ¬s.Has key.handle := by
    intro e he s hs
    refine ⟨fun hempty => hclear e he (hempty ▸ hs), fun hhas => ?_⟩
    have heq := hd _ _ _ _ _ hs hslot hhas (Slot.has_entry.2 hk)
    exact he.ne (position_injective (by omega) hlt heq)
  obtain ⟨grave, hwalk, -⟩ := probe_walk key.handle (by omega) hpass (slots.size - d)
  have hsteps : d + (slots.size - d) = slots.size := by omega
  obtain ⟨steps, hleft⟩ := Nat.exists_eq_add_of_lt hlt
  rw [hsteps] at hwalk
  have hleft : slots.size - d = steps + 1 := by omega
  rw [find, ← position_zero, hwalk, hleft, probe, hslot]
  simp [hk]

/-- A probe ends: there is a first slot that is empty or holds the handle. -/
theorem exists_stop (hash : UInt32) (h : Handle) (hempty : ∃ j : Nat, slots[j]? = some .empty) :
    ∃ d < slots.size, ∃ s, slots[position slots hash d]? = some s ∧ (s = .empty ∨ s.Has h) ∧
      ∀ e < d, ∀ s, slots[position slots hash e]? = some s → s ≠ .empty ∧ ¬s.Has h := by
  classical
  obtain ⟨j, hj⟩ := hempty
  obtain ⟨n, hn, rfl⟩ := exists_position hash (Array.getElem?_eq_some_iff.1 hj).1
  have hex : ∃ d, ∃ s, slots[position slots hash d]? = some s ∧ (s = .empty ∨ s.Has h) :=
    ⟨n, _, hj, Or.inl rfl⟩
  obtain ⟨s, hs, hstop⟩ := Nat.find_spec hex
  refine ⟨Nat.find hex, (Nat.find_min' hex ⟨_, hj, Or.inl rfl⟩).trans_lt hn, s, hs, hstop, ?_⟩
  intro e he s' hs'
  have hnot := Nat.find_min hex he
  exact ⟨fun hemp => hnot ⟨s', hs', Or.inl hemp⟩, fun hhas => hnot ⟨s', hs', Or.inr hhas⟩⟩

/-- **Without an entry of the handle, a free slot is found**, and reached by the probe. -/
theorem find_of_absent (key : Key) (hempty : ∃ j : Nat, slots[j]? = some .empty)
    (habsent : ∀ (j : Nat) (s : Slot), slots[j]? = some s → ¬s.Has key.handle) :
    ∃ j : Nat, find slots key = some j ∧ Reaches slots key.hash j ∧
      (slots[j]? = some .empty ∨ slots[j]? = some .tombstone) := by
  obtain ⟨d, hd, s, hs, hstop, hpass⟩ := exists_stop key.hash key.handle hempty
  obtain rfl : s = .empty := hstop.resolve_right (habsent _ _ hs)
  obtain ⟨grave, hwalk, hgrave⟩ := probe_walk key.handle (by omega) hpass (slots.size - d)
  obtain ⟨steps, hleft⟩ := Nat.exists_eq_add_of_lt hd
  have hsteps : d + (slots.size - d) = slots.size := by omega
  have hleft : slots.size - d = steps + 1 := by omega
  have hfind : find slots key = some (grave.getD (position slots key.hash d)) := by
    rw [hsteps] at hwalk
    rw [find, ← position_zero, hwalk, hleft, probe, hs]
  have hclear : Clear slots key.hash d := fun e he hslot => (hpass e he _ hslot).1 rfl
  refine ⟨_, hfind, ?_⟩
  cases hgr : grave with
  | none => exact ⟨⟨d, hd, rfl, hclear⟩, Or.inl hs⟩
  | some g =>
    obtain ⟨e, he, rfl, hstone⟩ := hgrave g hgr
    exact ⟨⟨e, by omega, rfl, fun e' he' => hclear e' (by omega)⟩, Or.inr hstone⟩

/-! ## Looking for a hash -/

/-- The walk for a hash goes on through slots that are not empty, and collects the handles of the
hash. -/
theorem chain_walk (hpos : 0 < slots.size) (hclear : Clear slots hash d) (steps : Nat) :
    ∃ met, chain slots hash (d + steps) (position slots hash 0) =
        met ++ chain slots hash steps (position slots hash d) := by
  induction d generalizing steps with
  | zero => exact ⟨[], by simp⟩
  | succ d ih =>
    obtain ⟨met, hwalk⟩ := ih (fun e he => hclear e (by omega)) (steps + 1)
    have hsteps : d + 1 + steps = d + (steps + 1) := by omega
    rw [hsteps, hwalk, chain]
    have hlt := position_lt hash d hpos
    have hne := hclear d (by omega)
    rw [Array.getElem?_eq_getElem hlt] at hne ⊢
    cases hslot : slots[position slots hash d] with
    | empty => exact absurd (by rw [hslot]) hne
    | tombstone => exact ⟨met, by simp only [after_position]⟩
    | entry k w =>
      by_cases hk : k.hash = hash
      · exact ⟨met ++ [k.handle], by simp [hk, after_position]⟩
      · exact ⟨met, by simp only [if_neg hk, after_position]⟩

/-- The walk for a hash meets entries of that hash only. -/
theorem entry_of_mem_chain {h : Handle} {steps : Nat} (hmem : h ∈ chain slots hash steps i) :
    ∃ (j : Nat) (key : Key) (v : Value), slots[j]? = some (.entry key v) ∧ key.handle = h ∧
      key.hash = hash := by
  induction steps generalizing i with
  | zero => simp [chain] at hmem
  | succ steps ih =>
    rw [chain] at hmem
    split at hmem
    · simp at hmem
    · simp at hmem
    · exact ih hmem
    · rename_i k w hslot
      split at hmem
      · rename_i hk
        rcases List.mem_cons.1 hmem with rfl | hmem
        · exact ⟨i, k, w, hslot, rfl, hk⟩
        · exact ih hmem
      · exact ih hmem

/-- **The walk for a hash meets exactly the entries of that hash.** -/
theorem mem_chain_iff (hc : Chained slots) {h : Handle} :
    h ∈ chain slots hash slots.size (hash.toNat % slots.size) ↔
      ∃ (j : Nat) (key : Key) (v : Value), slots[j]? = some (.entry key v) ∧ key.handle = h ∧
        key.hash = hash := by
  constructor
  · exact entry_of_mem_chain
  · rintro ⟨j, key, v, hslot, rfl, rfl⟩
    obtain ⟨d, hd, rfl, hclear⟩ := hc j key v hslot
    obtain ⟨met, hwalk⟩ := chain_walk (by omega) hclear (slots.size - d)
    obtain ⟨steps, hleft⟩ := Nat.exists_eq_add_of_lt hd
    have hsteps : d + (slots.size - d) = slots.size := by omega
    have hleft : slots.size - d = steps + 1 := by omega
    rw [hsteps] at hwalk
    rw [← position_zero, hwalk, hleft, chain, hslot]
    simp

end Table

end LoxMachine

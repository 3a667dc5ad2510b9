import LoxMachine.Proofs.Table.FiniteMap

/-!
# Searches end, whatever the keys are

A search goes from slot to slot and has no bound of its own: it ends because some slot is empty. That
is a matter of the counts of a table, and holds for any keys, even for a handle that comes with
different hashes.

* `Table.Counted t`: what the counts of a table say about its slots. Every operation keeps it:
  `Counted.set`, `delete`, `retain`, `addAll`.
* `Table.Walk slots stops i n j`: the walk from slot `i` to the first slot where it stops, which is slot
  `j`, after `n` others.
* `Table.Search` is one search, for the slot of a key or for a key that satisfies a predicate, and
  `Search.Ends` says that it ends before it comes round.
* `Table.Command` is an operation or a look-up on a family of tables, and `Command.searches` are the
  searches it makes, those of a growing table included.
* `Search.Finds` is what stands in the slot where a search stops, and `get?_of_walk` and `findBy_of_walk`
  say that this is what the look-ups of a table answer.
* `Command.searches_end`: after any commands the counts are right, every further search ends, and the
  look-ups answer what their searches find.
-/

namespace LoxMachine

namespace Slot

/-- Whether the slot is the place of a deleted entry. -/
def isTombstone : Slot → Bool
  | tombstone => true
  | _ => false

end Slot

namespace Table

variable {t source : Table} {key : Key} {i j n : Nat}

/-! ## Counts -/

/-- The counts of a table fit its slots, and a quarter of the slots has never been filled. A handle that
comes with different hashes may be counted more than once. -/
structure Counted (t : Table) : Prop where
  capacity : t.capacity = 0 ∨ 8 ≤ t.capacity ∧ ∃ k, t.capacity = 2 ^ k
  used_eq : t.used = t.live + t.slots.countP Slot.isTombstone
  keyed : t.slots.countP Slot.isEntry ≤ t.live
  load : 4 * t.used ≤ 3 * t.capacity

theorem countP_isUsed (slots : Array Slot) :
    slots.countP Slot.isUsed = slots.countP Slot.isEntry + slots.countP Slot.isTombstone := by
  rw [← Array.countP_toList, ← Array.countP_toList, ← Array.countP_toList]
  induction slots.toList with
  | nil => rfl
  | cons s rest ih =>
    rw [List.countP_cons, List.countP_cons, List.countP_cons, ih]
    cases s <;> simp [Slot.isUsed, Slot.isEntry, Slot.isTombstone] <;> omega

theorem counted_empty : ({} : Table).Counted where
  capacity := .inl rfl
  used_eq := rfl
  keyed := Nat.le_refl _
  load := Nat.le_refl _

namespace Counted

theorem isUsed_le (h : t.Counted) : t.slots.countP Slot.isUsed ≤ t.used := by
  have hkeyed := h.keyed
  rw [countP_isUsed, h.used_eq]
  omega

/-- **A table with slots has an empty one.** -/
theorem exists_empty (h : t.Counted) (hpos : 0 < t.capacity) :
    ∃ i : Nat, t.slots[i]? = some .empty := by
  by_contra hnone
  have hall : ∀ s ∈ t.slots, s.isUsed = true := by
    intro s hs
    obtain ⟨i, hi⟩ := Array.getElem?_of_mem hs
    cases s with
    | empty => exact absurd ⟨i, hi⟩ hnone
    | _ => rfl
  have hfull := Array.countP_eq_size.2 hall
  have hused := h.isUsed_le
  have hload := h.load
  unfold Table.capacity at hload hpos
  omega

theorem length_entries_le (h : t.Counted) : t.entries.length ≤ t.live := by
  refine le_trans (le_of_eq ?_) h.keyed
  rw [entries, List.length_filterMap_eq_countP, Array.countP_toList]
  refine Array.countP_congr fun s _ => ?_
  cases s <;> simp [Slot.pair?, Slot.isEntry]

/-- The bits of a hash that a table of this size goes by are its remainder. -/
theorem mask (h : t.Counted) (hpos : 0 < t.capacity) (n : Nat) :
    n &&& (t.capacity - 1) = n % t.capacity := by
  obtain hzero | ⟨-, k, hk⟩ := h.capacity
  · omega
  · rw [hk, Nat.and_two_pow_sub_one_eq_mod]

end Counted

/-! ## Walks -/

section Walks

variable {slots : Array Slot} {stops : Slot → Bool} {hash : UInt32}

/-- A walk goes on from slot to slot until it stops. The one from slot `i` stops at slot `j`, after `n`
others. -/
inductive Walk (slots : Array Slot) (stops : Slot → Bool) : (i n j : Nat) → Prop
  | stop {i : Nat} {s : Slot} (hs : slots[i]? = some s) (h : stops s = true) : Walk slots stops i 0 i
  | pass {i n j : Nat} {s : Slot} (hs : slots[i]? = some s) (h : stops s = false)
    (more : Walk slots stops (after slots i) n j) : Walk slots stops i (n + 1) j

/-- The walk for a hash, if it passes the slots before the one that stops it. -/
theorem walk_of_passes {d : Nat} {s : Slot} (hpos : 0 < slots.size)
    (hs : slots[position slots hash d]? = some s) (hstop : stops s = true)
    (hpass : ∀ e < d, ∀ s, slots[position slots hash e]? = some s → stops s = false) :
    ∀ k ≤ d, Walk slots stops (position slots hash (d - k)) k (position slots hash d) := by
  intro k
  induction k with
  | zero => exact fun _ => .stop hs hstop
  | succ k ih =>
    intro hk
    have hlt := position_lt hash (d - (k + 1)) hpos
    refine .pass (Array.getElem?_eq_getElem hlt)
      (hpass _ (by omega) _ (Array.getElem?_eq_getElem hlt)) ?_
    have hnext : d - (k + 1) + 1 = d - k := by omega
    rw [after_position, hnext]
    exact ih (by omega)

/-- **A walk that stops at empty slots ends before it comes round**, if there is one. -/
theorem exists_walk (hempty : ∃ i : Nat, slots[i]? = some .empty) (hstops : stops .empty = true)
    (hash : UInt32) : ∃ n < slots.size, ∃ j, Walk slots stops (hash.toNat % slots.size) n j := by
  classical
  obtain ⟨i, hi⟩ := hempty
  obtain ⟨n, hn, rfl⟩ := exists_position hash (Array.getElem?_eq_some_iff.1 hi).1
  have hex : ∃ d, ∃ s, slots[position slots hash d]? = some s ∧ stops s = true := ⟨n, _, hi, hstops⟩
  obtain ⟨s, hs, hstop⟩ := Nat.find_spec hex
  have hpass : ∀ e < Nat.find hex, ∀ s, slots[position slots hash e]? = some s → stops s = false := by
    intro e he s hs
    by_contra hne
    exact Nat.find_min hex he ⟨s, hs, by simpa using hne⟩
  have hwalk := walk_of_passes (by omega) hs hstop hpass _ le_rfl
  rw [Nat.sub_self, position_zero] at hwalk
  exact ⟨_, (Nat.find_min' hex ⟨_, hi, hstops⟩).trans_lt hn, _, hwalk⟩

end Walks

/-! ## Searches -/

/-- A search in the slots of a table. -/
inductive Search where
  /-- For the slot of a key, or the slot where it should go. -/
  | place (slots : Array Slot) (key : Key)
  /-- For a key of a hash that satisfies a predicate. -/
  | content (slots : Array Slot) (hash : UInt32) (p : Handle → Bool)

namespace Search

def slots : Search → Array Slot
  | place slots _ | content slots _ _ => slots

/-- The hash that selects the slot where the search starts. -/
def hash : Search → UInt32
  | place _ key => key.hash
  | content _ hash _ => hash

/-- Where the search stops. -/
def stops : Search → Slot → Bool
  | _, .empty => true
  | _, .tombstone => false
  | place _ key, .entry k _ => k.handle = key.handle
  | content _ hash p, .entry k _ => k.hash = hash && p k.handle

/-- The answer of the search when it looks at up to `steps` slots: a slot, or a handle. -/
def answer (steps : Nat) : Search → Option (Nat ⊕ Handle)
  | place slots key =>
    (probe slots key.handle steps (key.hash.toNat % slots.size) none).map .inl
  | content slots hash p =>
    ((chain slots hash steps (hash.toNat % slots.size)).find? p).map .inr

/-- The search ends before it comes round, so that a bound on the number of slots it looks at would not
change its answer. -/
structure Ends (s : Search) : Prop where
  walk : ∃ n < s.slots.size, ∃ j, Walk s.slots s.stops (s.hash.toNat % s.slots.size) n j
  answer : ∀ steps, s.slots.size ≤ steps → s.answer steps = s.answer s.slots.size

/-- The search ends before it comes round, at a slot with this entry, or at an empty one. -/
def Finds (s : Search) (found : Option (Key × Value)) : Prop :=
  ∃ n < s.slots.size, ∃ j, Walk s.slots s.stops (s.hash.toNat % s.slots.size) n j ∧
    s.slots[j]?.bind Slot.pair? = found

end Search

section Searches

variable {slots : Array Slot} {hash : UInt32}

/-- More steps than the walk has do not change what is found. -/
theorem Walk.probe_eq (h : Walk slots (Search.stops (.place slots key)) i n j) :
    ∀ {steps : Nat} (grave : Option Nat), n < steps →
      probe slots key.handle steps i grave = probe slots key.handle (n + 1) i grave := by
  induction h with
  | @stop i s hs h =>
    intro steps grave hsteps
    obtain ⟨steps, rfl⟩ := Nat.exists_eq_add_of_lt hsteps
    rw [Nat.zero_add, probe, probe, hs]
    cases s with
    | empty => rfl
    | tombstone => cases h
    | entry k v =>
      have hk : k.handle = key.handle := of_decide_eq_true h
      simp [hk]
  | @pass i n j s hs h _ ih =>
    intro steps grave hsteps
    obtain ⟨steps, rfl⟩ : ∃ k, steps = k + 1 := ⟨steps - 1, by omega⟩
    rw [probe, probe, hs]
    cases s with
    | empty => cases h
    | tombstone => exact ih _ (by omega)
    | entry k v =>
      have hk : k.handle ≠ key.handle := of_decide_eq_false h
      simp only [if_neg hk]
      exact ih _ (by omega)

/-- More steps than the walk to an empty slot has do not change what is met. -/
theorem Walk.chain_eq (h : Walk slots (· = .empty) i n j) : ∀ {steps : Nat}, n < steps →
    chain slots hash steps i = chain slots hash (n + 1) i := by
  induction h with
  | @stop i s hs h =>
    intro steps hsteps
    obtain ⟨steps, rfl⟩ := Nat.exists_eq_add_of_lt hsteps
    rw [Nat.zero_add, chain, chain, hs, of_decide_eq_true h]
  | @pass i n j s hs h _ ih =>
    intro steps hsteps
    obtain ⟨steps, rfl⟩ : ∃ k, steps = k + 1 := ⟨steps - 1, by omega⟩
    rw [chain, chain, hs, ih (by omega)]

/-- **Every search in slots of which one is empty ends.** -/
theorem Search.ends (s : Search) (hempty : ∃ i : Nat, s.slots[i]? = some .empty) : s.Ends := by
  have hstops : s.stops .empty = true := by cases s <;> rfl
  refine ⟨exists_walk hempty hstops s.hash, fun steps hsteps => ?_⟩
  cases s with
  | place slots key =>
    dsimp only [Search.slots] at hempty hsteps ⊢
    obtain ⟨n, hn, j, hj⟩ := exists_walk hempty hstops key.hash
    rw [Search.answer, Search.answer, hj.probe_eq _ (hn.trans_le hsteps), hj.probe_eq _ hn]
  | content slots hash p =>
    dsimp only [Search.slots] at hempty hsteps ⊢
    have hwalk : ∃ n < slots.size, ∃ j, Walk slots (· = .empty) (hash.toNat % slots.size) n j :=
      exists_walk hempty (decide_eq_true rfl) hash
    obtain ⟨n, hn, j, hj⟩ := hwalk
    rw [Search.answer, Search.answer, hj.chain_eq (hn.trans_le hsteps), hj.chain_eq hn]

/-- The slot of a key has the entry that the walk stops at. If that slot is empty, a tombstone that was
passed has no entry either. -/
theorem Walk.pair?_probe (h : Walk slots (Search.stops (.place slots key)) i n j) :
    ∀ {steps : Nat} {grave : Option Nat}, n < steps → (∀ g ∈ grave, slots[g]? = some .tombstone) →
      ((probe slots key.handle steps i grave).bind (slots[·]?)).bind Slot.pair? =
        slots[j]?.bind Slot.pair? := by
  induction h with
  | @stop i s hs h =>
    intro steps grave hsteps hgrave
    obtain ⟨steps, rfl⟩ := Nat.exists_eq_add_of_lt hsteps
    rw [Nat.zero_add, probe, hs]
    cases s with
    | empty =>
      cases grave with
      | none => simp [hs]
      | some g => simp [hgrave g rfl, Slot.pair?]
    | tombstone => cases h
    | entry k v =>
      have hk : k.handle = key.handle := of_decide_eq_true h
      simp [hk, hs]
  | @pass i n j s hs h _ ih =>
    intro steps grave hsteps hgrave
    obtain ⟨steps, rfl⟩ : ∃ k, steps = k + 1 := ⟨steps - 1, by omega⟩
    rw [probe, hs]
    cases s with
    | empty => cases h
    | tombstone =>
      refine ih (by omega) fun g hg => ?_
      cases grave with
      | none => exact Option.some.inj hg ▸ hs
      | some g' => exact hgrave g hg
    | entry k v =>
      have hk : k.handle ≠ key.handle := of_decide_eq_false h
      simp only [if_neg hk]
      exact ih (by omega) hgrave

/-- The first key of a chain that satisfies the predicate is the one the walk stops at. -/
theorem Walk.find?_chain {p : Handle → Bool} (h : Walk slots (Search.stops (.content slots hash p)) i n j) :
    ∀ {steps : Nat}, n < steps →
      (chain slots hash steps i).find? p = (slots[j]?.bind Slot.pair?).map (·.1.handle) := by
  induction h with
  | @stop i s hs h =>
    intro steps hsteps
    obtain ⟨steps, rfl⟩ := Nat.exists_eq_add_of_lt hsteps
    rw [Nat.zero_add, chain, hs]
    cases s with
    | empty => rfl
    | tombstone => cases h
    | entry k v =>
      obtain ⟨hk, hp⟩ : k.hash = hash ∧ p k.handle = true := by simpa [Search.stops] using h
      simp [hk, hp, Slot.pair?]
  | @pass i n j s hs h _ ih =>
    intro steps hsteps
    obtain ⟨steps, rfl⟩ : ∃ k, steps = k + 1 := ⟨steps - 1, by omega⟩
    rw [chain, hs]
    cases s with
    | empty => cases h
    | tombstone => exact ih (by omega)
    | entry k v =>
      have hp : k.hash = hash → p k.handle = false := by simpa [Search.stops] using h
      dsimp only
      split
      · rename_i hk
        rw [List.find?_cons_of_neg (by simp [hp hk])]
        exact ih (by omega)
      · exact ih (by omega)

/-- **Looking up a key** answers what stands where the search for its slot stops. -/
theorem get?_of_walk (hlive : t.live ≠ 0) (hn : n < t.slots.size)
    (h : Walk t.slots (Search.stops (.place t.slots key)) (key.hash.toNat % t.slots.size) n j) :
    t.get? key = (t.slots[j]?.bind Slot.pair?).map (·.2) := by
  have hfind : ((find t.slots key).bind (t.slots[·]?)).bind Slot.pair? = t.slots[j]?.bind Slot.pair? :=
    h.pair?_probe hn nofun
  rw [get?, if_neg hlive, ← hfind]
  cases find t.slots key with
  | none => rfl
  | some i =>
    dsimp only [Option.bind_some]
    cases t.slots[i]? with
    | none => rfl
    | some s => cases s <;> rfl

/-- **Looking up a content** answers what stands where the search for it stops. -/
theorem findBy_of_walk {p : Handle → Bool} (hlive : t.live ≠ 0) (hn : n < t.slots.size)
    (h : Walk t.slots (Search.stops (.content t.slots hash p)) (hash.toNat % t.slots.size) n j) :
    t.findBy hash p = (t.slots[j]?.bind Slot.pair?).map (·.1.handle) := by
  rw [findBy, candidates, if_neg hlive]
  exact h.find?_chain hn

theorem Counted.search_ends {s : Search} (h : t.Counted) (hpos : 0 < t.capacity)
    (hs : s.slots = t.slots) : s.Ends :=
  s.ends (hs ▸ h.exists_empty hpos)

/-! ## What is found -/

theorem probe_lt {h : Handle} {steps : Nat} {grave : Option Nat} (hgrave : ∀ g ∈ grave, g < slots.size)
    (hj : probe slots h steps i grave = some j) : j < slots.size := by
  induction steps generalizing i grave with
  | zero => exact hgrave j hj
  | succ steps ih =>
    rw [probe] at hj
    split at hj
    · exact hgrave j hj
    · rename_i hi
      have hlt := (Array.getElem?_eq_some_iff.1 hi).1
      cases grave with
      | none => exact Option.some.inj hj ▸ hlt
      | some g => exact Option.some.inj hj ▸ hgrave g rfl
    · rename_i hi
      refine ih (fun g hg => ?_) hj
      cases grave with
      | none => exact Option.some.inj hg ▸ (Array.getElem?_eq_some_iff.1 hi).1
      | some g' => exact hgrave g hg
    · rename_i hi
      split at hj
      · exact Option.some.inj hj ▸ (Array.getElem?_eq_some_iff.1 hi).1
      · exact ih hgrave hj

theorem exists_slot_of_find (hfind : find slots key = some i) : ∃ s, slots[i]? = some s :=
  ⟨_, Array.getElem?_eq_getElem (probe_lt (by simp) hfind)⟩

end Searches

/-! ## Growing -/

/-- The searches that are made when entries are placed one after another. -/
def placing : List (Key × Value) → Table → List Search
  | [], _ => []
  | (key, v) :: rest, t => .place t.slots key :: placing rest (t.place key v)

/-- An entry placed in a table without tombstones that has room. -/
theorem Counted.place (h : t.Counted) (hclean : t.slots.countP Slot.isTombstone = 0)
    (hroom : 4 * (t.used + 1) ≤ 3 * t.capacity) (key : Key) (v : Value) :
    (t.place key v).Counted ∧ (t.place key v).slots.countP Slot.isTombstone = 0 ∧
      (t.place key v).capacity = t.capacity ∧ (t.place key v).used ≤ t.used + 1 := by
  unfold Table.place
  split
  · rename_i i hfind
    obtain ⟨s, hs⟩ := exists_slot_of_find hfind
    have hgraves := countP_put Slot.isTombstone (.entry key v) hs
    have hentries := countP_put Slot.isEntry (.entry key v) hs
    have hused := h.used_eq
    have hkeyed := h.keyed
    have hcapacity := size_put t.slots i (.entry key v)
    have hlast := Bool.toNat_le s.isTombstone
    simp only [Slot.isTombstone, Slot.isEntry, Bool.toNat_false, Bool.toNat_true] at hgraves hentries
    refine ⟨⟨?_, ?_, ?_, ?_⟩, ?_, hcapacity, Nat.le_refl _⟩
    · simpa only [Table.capacity, hcapacity] using h.capacity
    · dsimp only
      omega
    · dsimp only
      omega
    · simpa only [Table.capacity, hcapacity] using hroom
    · dsimp only
      omega
  · exact ⟨h, hclean, rfl, Nat.le_succ _⟩

/-- Entries placed one after another in a table without tombstones that has room for them. -/
theorem Counted.foldl_place (entries : List (Key × Value)) : ∀ {t : Table}, t.Counted →
    t.slots.countP Slot.isTombstone = 0 → 0 < t.capacity →
    4 * (t.used + entries.length) ≤ 3 * t.capacity →
    ∃ t', entries.foldl (fun t (key, value) => t.place key value) t = t' ∧ t'.Counted ∧
      t'.capacity = t.capacity ∧ t'.used ≤ t.used + entries.length ∧
      ∀ s ∈ placing entries t, s.Ends := by
  induction entries with
  | nil => exact fun h _ _ _ => ⟨_, rfl, h, rfl, Nat.le_refl _, nofun⟩
  | cons pair rest ih =>
    obtain ⟨key, v⟩ := pair
    intro t h hclean hpos hroom
    rw [List.length_cons] at hroom
    obtain ⟨h', hclean', hcapacity, hused⟩ := h.place hclean (by omega) key v
    obtain ⟨t', hfold, ht', hcapacity', hused', hends⟩ := ih h' hclean' (by omega) (by omega)
    refine ⟨t', hfold, ht', hcapacity'.trans hcapacity, by rw [List.length_cons]; omega, ?_⟩
    exact List.forall_mem_cons.2 ⟨h.search_ends hpos rfl, hends⟩

/-- The searches that are made when a table is resized. -/
def resizing (t : Table) (capacity : Nat) : List Search :=
  placing t.entries { slots := Array.replicate capacity .empty }

theorem Counted.resize (h : t.Counted) {capacity : Nat} (hcapacity : 8 ≤ capacity ∧ ∃ k, capacity = 2 ^ k)
    (hroom : 4 * t.live ≤ 3 * capacity) :
    (t.resize capacity).Counted ∧ (t.resize capacity).capacity = capacity ∧
      (t.resize capacity).used ≤ t.live ∧ ∀ s ∈ t.resizing capacity, s.Ends := by
  let start : Table := { slots := Array.replicate capacity .empty }
  have hsize : start.capacity = capacity := by simp [start, Table.capacity]
  have hstart : start.Counted := by
    refine ⟨.inr (hsize.symm ▸ hcapacity), ?_, ?_, Nat.zero_le _⟩ <;>
      simp [start, Array.countP_replicate, Slot.isTombstone, Slot.isEntry]
  have hclean : start.slots.countP Slot.isTombstone = 0 := by
    simp [start, Array.countP_replicate, Slot.isTombstone]
  have hlength := h.length_entries_le
  have hzero : start.used = 0 := rfl
  obtain ⟨t', hfold, ht', hcapacity', hused, hends⟩ := hstart.foldl_place t.entries hclean (by omega)
    (by omega)
  have hresize : t.resize capacity = t' := hfold
  rw [hresize]
  exact ⟨ht', hcapacity'.trans hsize, by omega, hends⟩

/-- The searches that are made when room is made for one more entry. -/
def reserving (t : Table) : List Search :=
  if 3 * t.capacity < 4 * (t.used + 1) then t.resizing (grown t.capacity) else []

theorem grown_eq {capacity : Nat} (h : capacity = 0 ∨ 8 ≤ capacity ∧ ∃ k, capacity = 2 ^ k) :
    8 ≤ grown capacity ∧ ∃ k, grown capacity = 2 ^ k := by
  obtain rfl | ⟨hle, k, rfl⟩ := h
  · exact ⟨Nat.le_refl _, 3, rfl⟩
  · rw [grown, if_neg (by omega)]
    exact ⟨by omega, k + 1, by rw [Nat.pow_succ, Nat.mul_comm]⟩

/-- Room is made for one more entry. -/
theorem Counted.reserve (h : t.Counted) :
    t.reserve.Counted ∧ 4 * (t.reserve.used + 1) ≤ 3 * t.reserve.capacity ∧
      ∀ s ∈ t.reserving, s.Ends := by
  unfold Table.reserve reserving
  split
  · have hload := h.load
    have hused := h.used_eq
    have hgrown : 4 * (t.live + 1) ≤ 3 * grown t.capacity := by
      unfold grown
      split <;> omega
    obtain ⟨h', hcapacity, hused', hends⟩ := h.resize (grown_eq h.capacity) (by omega)
    exact ⟨h', by omega, hends⟩
  · exact ⟨h, by omega, nofun⟩

/-! ## Operations -/

/-- An entry written in place of a slot, counted as far as it is new there. -/
theorem Counted.write {s : Slot} (h : t.Counted) (hs : t.slots[i]? = some s)
    (hroom : 4 * (t.used + 1) ≤ 3 * t.capacity) (key : Key) (v : Value) :
    Counted ⟨put t.slots i (.entry key v), t.used + (!s.isUsed).toNat, t.live + (!s.isEntry).toNat⟩ := by
  have hgraves := countP_put Slot.isTombstone (.entry key v) hs
  have hentries := countP_put Slot.isEntry (.entry key v) hs
  have hcapacity := size_put t.slots i (.entry key v)
  have hload := h.load
  have hused := h.used_eq
  have hkeyed := h.keyed
  have hsize := h.capacity
  simp only [Table.capacity] at hroom hload hsize
  cases s <;>
    simp only [Slot.isTombstone, Slot.isEntry, Bool.toNat_false, Bool.toNat_true] at hgraves hentries <;>
    constructor <;>
    simp only [Table.capacity, hcapacity, Slot.isUsed, Slot.isEntry, Bool.toNat_false, Bool.toNat_true,
      Bool.not_true, Bool.not_false] <;>
    first | exact hsize | omega

/-- The searches that an insertion makes. -/
def setting (t : Table) (key : Key) : List Search := t.reserving ++ [.place t.reserve.slots key]

/-- **Writing** keeps the counts right, and its searches end. -/
theorem Counted.set (h : t.Counted) (key : Key) (v : Value) :
    (t.set key v).2.Counted ∧ ∀ s ∈ t.setting key, s.Ends := by
  obtain ⟨h', hroom, hends⟩ := h.reserve
  constructor
  · unfold Table.set
    dsimp only
    split
    · exact h'
    · rename_i i hfind
      obtain ⟨s, hs⟩ := exists_slot_of_find hfind
      rw [hs]
      have hwrite := h'.write hs hroom key v
      cases s <;> exact hwrite
  · intro s hs
    rcases List.mem_append.1 hs with hs | hs
    · exact hends s hs
    · obtain rfl := List.mem_singleton.1 hs
      exact h'.search_ends (by omega) rfl

/-- The searches that copying entries makes. -/
def inserting : List (Key × Value) → Table → List Search
  | [], _ => []
  | (key, v) :: rest, t => t.setting key ++ inserting rest (t.insert key v)

theorem Counted.foldl_insert (entries : List (Key × Value)) : ∀ {t : Table}, t.Counted →
    (entries.foldl (fun t (key, value) => t.insert key value) t).Counted ∧
      ∀ s ∈ inserting entries t, s.Ends := by
  induction entries with
  | nil => exact fun h => ⟨h, nofun⟩
  | cons pair rest ih =>
    obtain ⟨key, v⟩ := pair
    intro t h
    obtain ⟨h', hends⟩ := h.set key v
    obtain ⟨h'', hends'⟩ := ih h'
    exact ⟨h'', List.forall_mem_append.2 ⟨hends, hends'⟩⟩

/-- **Copying** keeps the counts right, and its searches end. -/
theorem Counted.addAll (h : t.Counted) (source : Table) :
    (source.addAll t).Counted ∧ ∀ s ∈ inserting source.entries t, s.Ends :=
  h.foldl_insert source.entries

/-- The searches that looking up a key makes. -/
def looking (t : Table) (s : Search) : List Search := if t.live = 0 then [] else [s]

theorem Counted.capacity_pos (h : t.Counted) (hlive : t.live ≠ 0) : 0 < t.capacity := by
  have hused := h.used_eq
  have hload := h.load
  omega

theorem Counted.looking_ends {s : Search} (h : t.Counted) (hs : s.slots = t.slots) :
    ∀ s' ∈ t.looking s, s'.Ends := by
  unfold looking
  split
  · exact nofun
  · rename_i hlive
    intro s' hs'
    obtain rfl := List.mem_singleton.1 hs'
    exact h.search_ends (h.capacity_pos hlive) hs

/-- A key has the value that the search for its slot finds. -/
theorem Counted.get?_eq (h : t.Counted) (hlive : t.live ≠ 0) (key : Key) :
    ∃ found, (Search.place t.slots key).Finds found ∧ t.get? key = found.map (·.2) := by
  have hends : (Search.place t.slots key).Ends := h.search_ends (h.capacity_pos hlive) rfl
  obtain ⟨n, hn, j, hwalk⟩ := hends.walk
  exact ⟨_, ⟨n, hn, j, hwalk, rfl⟩, get?_of_walk hlive hn hwalk⟩

/-- The key looked up by its content is the one that the search finds. -/
theorem Counted.findBy_eq (h : t.Counted) (hlive : t.live ≠ 0) (hash : UInt32) (p : Handle → Bool) :
    ∃ found, (Search.content t.slots hash p).Finds found ∧
      t.findBy hash p = found.map (·.1.handle) := by
  have hends : (Search.content t.slots hash p).Ends := h.search_ends (h.capacity_pos hlive) rfl
  obtain ⟨n, hn, j, hwalk⟩ := hends.walk
  exact ⟨_, ⟨n, hn, j, hwalk, rfl⟩, findBy_of_walk hlive hn hwalk⟩

/-- **Deleting** keeps the counts right: there is an entry to be taken off. -/
theorem Counted.delete (h : t.Counted) (key : Key) :
    (t.delete key).2.Counted ∧ ((t.delete key).1 = true → 0 < t.live) := by
  unfold Table.delete
  split
  · exact ⟨h, nofun⟩
  · split
    · exact ⟨h, nofun⟩
    · rename_i hlive _ i hfind
      split
      · rename_i hs
        have hgraves := countP_put Slot.isTombstone .tombstone hs
        have hentries := countP_put Slot.isEntry .tombstone hs
        have hcapacity := size_put t.slots i .tombstone
        have hused := h.used_eq
        have hkeyed := h.keyed
        simp only [Slot.isTombstone, Slot.isEntry, Bool.toNat_false, Bool.toNat_true] at hgraves hentries
        refine ⟨⟨?_, ?_, ?_, ?_⟩, fun _ => Nat.pos_of_ne_zero hlive⟩
        · simpa only [Table.capacity, hcapacity] using h.capacity
        · dsimp only
          omega
        · dsimp only
          omega
        · simpa only [Table.capacity, hcapacity] using h.load
      · exact ⟨h, nofun⟩

theorem countP_isTombstone_retain (keep : Handle → Bool) (slots : List Slot) :
    (slots.map (Slot.retain keep)).countP Slot.isTombstone =
      slots.countP Slot.isTombstone + slots.countP (Slot.isDropped keep) := by
  induction slots with
  | nil => rfl
  | cons s rest ih =>
    rw [List.map_cons, List.countP_cons, List.countP_cons, List.countP_cons, ih]
    cases s with
    | entry key v =>
      cases hk : keep key.handle <;> simp [Slot.retain, Slot.isDropped, Slot.isTombstone, hk]
      omega
    | empty => simp [Slot.retain, Slot.isDropped, Slot.isTombstone]
    | tombstone => simpa [Slot.retain, Slot.isDropped, Slot.isTombstone] using Nat.add_right_comm _ _ _

/-- **Dropping** keeps the counts right: there are as many entries as are taken off. -/
theorem Counted.retain (h : t.Counted) (keep : Handle → Bool) :
    (t.retain keep).Counted ∧ t.slots.countP (Slot.isDropped keep) ≤ t.live := by
  have hentries := Slot.countP_isEntry_retain keep t.slots.toList
  have hgraves := countP_isTombstone_retain keep t.slots.toList
  simp only [← Array.toList_map, Array.countP_toList] at hentries hgraves
  have hused := h.used_eq
  have hkeyed := h.keyed
  refine ⟨?_, by omega⟩
  rw [retain_eq]
  refine ⟨?_, ?_, ?_, ?_⟩
  · simpa only [Table.capacity, Array.size_map] using h.capacity
  · dsimp only
    omega
  · dsimp only
    omega
  · simpa only [Table.capacity, Array.size_map] using h.load

/-! ## Sequences of operations and look-ups -/

/-- An operation or a look-up on a family of tables. -/
inductive Command where
  | change (op : Operation)
  | get (table : Nat) (key : Key)
  | findBy (table : Nat) (hash : UInt32) (p : Handle → Bool)

namespace Command

/-- The key that is written or deleted. -/
def key? : Command → Option Key
  | change op => op.key?
  | _ => none

/-- The tables after a command. -/
def perform (tables : Nat → Table) : Command → Nat → Table
  | change op => (op.run tables).2
  | _ => tables

/-- The searches that a command makes, in order. -/
def searches (tables : Nat → Table) : Command → List Search
  | change (.set n key _) => (tables n).setting key
  | change (.delete n key) | get n key => (tables n).looking (.place (tables n).slots key)
  | change (.addAll source target) => inserting (tables source).entries (tables target)
  | change (.retain _ _) => []
  | findBy n hash p => (tables n).looking (.content (tables n).slots hash p)

/-- One command after another. -/
def performAll (tables : Nat → Table) (commands : List Command) : Nat → Table :=
  commands.foldl perform tables

theorem counted_update {tables : Nat → Table} (h : ∀ n, (tables n).Counted) {n : Nat} (ht : t.Counted)
    (k : Nat) : (Function.update tables n t k).Counted := by
  by_cases hk : k = n
  · subst hk
    simpa using ht
  · simpa [Function.update_of_ne hk] using h k

/-- One command keeps the counts right, and its searches end. -/
theorem perform_counted {tables : Nat → Table} (h : ∀ n, (tables n).Counted) (command : Command) :
    (∀ n, (command.perform tables n).Counted) ∧ ∀ s ∈ command.searches tables, s.Ends := by
  cases command with
  | change op =>
    cases op with
    | set n key v =>
      obtain ⟨ht, hends⟩ := (h n).set key v
      exact ⟨counted_update h ht, hends⟩
    | delete n key => exact ⟨counted_update h ((h n).delete key).1, (h n).looking_ends rfl⟩
    | addAll source target =>
      obtain ⟨ht, hends⟩ := (h target).addAll (tables source)
      exact ⟨counted_update h ht, hends⟩
    | retain n keep => exact ⟨counted_update h ((h n).retain keep).1, nofun⟩
  | get n key => exact ⟨h, (h n).looking_ends rfl⟩
  | findBy n hash p => exact ⟨h, (h n).looking_ends rfl⟩

theorem performAll_counted (commands : List Command) : ∀ {tables : Nat → Table},
    (∀ n, (tables n).Counted) → ∀ n, (performAll tables commands n).Counted := by
  induction commands with
  | nil => exact fun h => h
  | cons command rest ih => exact fun h => ih (perform_counted h command).1

/-- Tables stay sound as long as a handle comes with one hash. -/
theorem performAll_sound {hash : Handle → UInt32} (commands : List Command) : ∀ {tables : Nat → Table},
    (∀ n, (tables n).Sound hash) →
    (∀ command ∈ commands, ∀ key ∈ command.key?, key.hash = hash key.handle) →
    ∀ n, (performAll tables commands n).Sound hash := by
  induction commands with
  | nil => exact fun h _ => h
  | cons command rest ih =>
    intro tables h hkeys
    have hrest := fun command hc => hkeys command (List.mem_cons_of_mem _ hc)
    cases command with
    | change op => exact ih (Operation.run_sound h (hkeys _ List.mem_cons_self)).1 hrest
    | get n key => exact ih h hrest
    | findBy n hash p => exact ih h hrest

/-- **Searches end, whatever the keys are.** Take tables that any commands lead to from empty ones. Their
counts are right, and exact if every handle came with one hash. A table with slots has an empty one, so
that all the searches of any further command end before they come round. The bits of an index that are
left by a mask are its remainder, so that a walk goes where masked indices lead. What a look-up answers is
what its search finds. And there is always an entry to be taken off the count when one is deleted. -/
theorem searches_end (commands : List Command) :
    let tables := performAll (fun _ => {}) commands
    (∀ n, (tables n).Counted ∧ (0 < (tables n).capacity → ∃ i : Nat, (tables n).slots[i]? = some .empty)) ∧
    (∀ hash : Handle → UInt32, (∀ command ∈ commands, ∀ key ∈ command.key?, key.hash = hash key.handle) →
      ∀ n, (tables n).live = (tables n).slots.countP Slot.isEntry) ∧
    (∀ command : Command, ∀ s ∈ command.searches tables, s.Ends) ∧
    (∀ n, 0 < (tables n).capacity →
      ∀ i, i &&& ((tables n).capacity - 1) = i % (tables n).capacity) ∧
    (∀ n, (tables n).live ≠ 0 →
      (∀ key, ∃ found, (Search.place (tables n).slots key).Finds found ∧
        (tables n).get? key = found.map (·.2)) ∧
      ∀ hash p, ∃ found, (Search.content (tables n).slots hash p).Finds found ∧
        (tables n).findBy hash p = found.map (·.1.handle)) ∧
    (∀ n key, ((tables n).delete key).1 = true → 0 < (tables n).live) ∧
    ∀ n keep, (tables n).slots.countP (Slot.isDropped keep) ≤ (tables n).live := by
  have h : ∀ n, (performAll (fun _ => {}) commands n).Counted :=
    performAll_counted commands fun _ => counted_empty
  refine ⟨fun n => ⟨h n, (h n).exists_empty⟩, fun hash hkeys n => ?_, fun command => ?_,
    fun n => (h n).mask, fun n hlive => ?_, fun n key => ?_, fun n keep => ?_⟩
  · exact (performAll_sound commands (fun _ => sound_empty) hkeys n).live_eq
  · exact (perform_counted h command).2
  · exact ⟨(h n).get?_eq hlive, (h n).findBy_eq hlive⟩
  · exact ((h n).delete key).2
  · exact ((h n).retain keep).2

/-- A handle that comes with two hashes, so that it has two entries. The last insertion lets the table
grow, and the two become one, which is counted twice. -/
example :
    let key (n : Nat) (hash : UInt32) : Command := .change (.set 0 ⟨⟨n, 0⟩, hash⟩ .nil)
    let t := performAll (fun _ => {})
      [key 0 15, key 0 0, key 1 15, key 2 2, key 3 3, key 4 4, key 5 5] 0
    t.live = 7 ∧ t.slots.countP Slot.isEntry = 6 := by
  decide

end Command

end Table

end LoxMachine

import LoxMachine.Proofs.Table.Searches

/-!
# Looking for contents

A search for contents goes through the slots as one for a key does, but it does not know the handle it
looks for. It asks a predicate about each key of the hash that it passes, and takes the first one that
the predicate accepts.

* `Table.seek` is the loop, with a predicate that may be any action, so that it can be seen which keys
  it is asked about; `Table.findByM` is the search of a table.
* `Table.chain_nodup`: no key is met twice.
* `Table.Operation.findBy_complete`: what is found is there, what is there is found, and the predicate
  is asked about keys of the hash only, about each of them at most once.
-/

namespace LoxMachine

namespace Table

variable {hash : Handle → UInt32} {slots : Array Slot} {code : UInt32} {t : Table}

/-! ## The loop -/

/-- Look at up to `steps` slots from `i` on, and ask `p` about each key of the hash. The answer is the
first handle that `p` accepts; an empty slot ends the search. -/
def seek {m : Type → Type} [Monad m] (slots : Array Slot) (code : UInt32) (p : Handle → m Bool) :
    (steps i : Nat) → m (Option Handle)
  | 0, _ => return none
  | steps + 1, i =>
    match slots[i]? with
    | none | some .empty => return none
    | some .tombstone => seek slots code p steps (after slots i)
    | some (.entry key _) => do
      if key.hash = code then
        if ← p key.handle then return some key.handle
      seek slots code p steps (after slots i)

/-- The first key with the given hash that `p` accepts, looking at up to `steps` slots. -/
def findByM {m : Type → Type} [Monad m] (t : Table) (code : UInt32) (p : Handle → m Bool)
    (steps : Nat) : m (Option Handle) :=
  if t.live = 0 then return none else seek t.slots code p steps (code.toNat % t.slots.size)

/-- The predicate `p`, which notes what it is asked about. -/
def noting (p : Handle → Bool) (h : Handle) : StateM (List Handle) Bool := do
  modify (· ++ [h])
  return p h

/-- The loop asks about the keys of the hash that it meets, until one is accepted. -/
theorem seek_eq {m : Type → Type} [Monad m] [LawfulMonad m] (p : Handle → m Bool) (steps : Nat) :
    ∀ i, seek slots code p steps i = (chain slots code steps i).findM? p := by
  induction steps with
  | zero => exact fun _ => rfl
  | succ steps ih =>
    intro i
    rw [seek, chain]
    cases slots[i]? with
    | none => rfl
    | some slot =>
      cases slot with
      | empty => rfl
      | tombstone => exact ih _
      | entry key v =>
        by_cases hk : key.hash = code
        · simp only [if_pos hk, List.findM?, ih]
          refine bind_congr fun accepted => ?_
          cases accepted <;> simp
        · simpa [hk] using ih _

/-- Noting what a predicate is asked about does not change what is found; what is noted is a first part
of the list. -/
theorem findM?_noting (p : Handle → Bool) (handles : List Handle) : ∀ noted : List Handle,
    ∃ asked, asked <+: handles ∧
      (handles.findM? (noting p)).run noted = (handles.find? p, noted ++ asked) := by
  induction handles with
  | nil => exact fun noted => ⟨[], List.prefix_refl _, by rw [List.append_nil]; rfl⟩
  | cons h rest ih =>
    intro noted
    have hrun : ((h :: rest).findM? (noting p)).run noted =
        if p h then (some h, noted ++ [h]) else (rest.findM? (noting p)).run (noted ++ [h]) := by
      cases hp : p h <;> simp [List.findM?, noting, hp]
      rfl
    rw [hrun, List.find?_cons]
    cases hp : p h with
    | true => exact ⟨[h], by simp, rfl⟩
    | false =>
      obtain ⟨asked, hasked, hrest⟩ := ih (noted ++ [h])
      refine ⟨h :: asked, (List.prefix_cons_inj h).2 hasked, ?_⟩
      simpa using hrest

/-! ## The keys that are met -/

/-- What is met from the slot after `d` others on, is met there or later. -/
theorem exists_position_of_mem_chain {h : Handle} {steps : Nat} : ∀ {d : Nat},
    h ∈ chain slots code steps (position slots code d) →
    ∃ e, d ≤ e ∧ e < d + steps ∧ ∃ s, slots[position slots code e]? = some s ∧ s.Has h := by
  induction steps with
  | zero => simp [chain]
  | succ steps ih =>
    intro d hmem
    have hlater : h ∈ chain slots code steps (position slots code (d + 1)) →
        ∃ e, d ≤ e ∧ e < d + (steps + 1) ∧ ∃ s, slots[position slots code e]? = some s ∧ s.Has h := by
      intro hmem
      obtain ⟨e, hle, hlt, hslot⟩ := ih hmem
      exact ⟨e, by omega, by omega, hslot⟩
    rw [chain, after_position] at hmem
    split at hmem
    · simp at hmem
    · simp at hmem
    · exact hlater hmem
    · rename_i key v hslot
      split at hmem
      · rcases List.mem_cons.1 hmem with rfl | hmem
        · exact ⟨d, Nat.le_refl d, by omega, _, hslot, Slot.has_entry.2 rfl⟩
        · exact hlater hmem
      · exact hlater hmem

/-- **No key is met twice.** -/
theorem chain_nodup (hd : Distinct slots) {steps : Nat} : ∀ {d : Nat}, d + steps ≤ slots.size →
    (chain slots code steps (position slots code d)).Nodup := by
  induction steps with
  | zero => simp [chain]
  | succ steps ih =>
    intro d hle
    have hrest := ih (d := d + 1) (by omega)
    rw [chain, after_position]
    split
    · exact List.nodup_nil
    · exact List.nodup_nil
    · exact hrest
    · rename_i key v hslot
      split
      · refine List.nodup_cons.2 ⟨fun hmem => ?_, hrest⟩
        obtain ⟨e, hde, he, s, hs, hhas⟩ := exists_position_of_mem_chain hmem
        have hsame := hd _ _ _ _ _ hslot hs (Slot.has_entry.2 rfl) hhas
        have := position_injective (by omega) (by omega) hsame
        omega
      · exact hrest

theorem Sound.nodup_candidates (ht : t.Sound hash) (code : UInt32) : (t.candidates code).Nodup := by
  unfold candidates
  split
  · exact List.nodup_nil
  · rw [← position_zero]
    exact chain_nodup ht.indexed.distinct (by omega)

/-- The search asks about the candidates, however many slots it may look at: it ends before it comes
round. -/
theorem Sound.findByM_eq {m : Type → Type} [Monad m] [LawfulMonad m] (ht : t.Sound hash)
    (p : Handle → m Bool) {steps : Nat} (hsteps : t.capacity ≤ steps) :
    t.findByM code p steps = (t.candidates code).findM? p := by
  unfold findByM candidates
  split
  · rfl
  · rename_i hlive
    obtain ⟨n, hn, j, hwalk⟩ : ∃ n < t.slots.size, ∃ j, Walk t.slots (· = .empty) _ n j :=
      exists_walk (ht.exists_empty (ht.capacity_pos hlive)) rfl code
    rw [seek_eq, hwalk.chain_eq (hn.trans_le hsteps), ← hwalk.chain_eq hn]

theorem Sound.mem_candidates_iff_toMap (ht : t.Sound hash) {h : Handle} :
    h ∈ t.candidates code ↔ (t.toMap h).isSome ∧ hash h = code := by
  rw [ht.mem_candidates_iff, Option.isSome_iff_exists, and_comm]
  simp only [toMap_eq_some_iff ht.indexed]

namespace Operation

/-- **Looking for contents is complete.** Take tables that any operations lead to from empty ones, with
keys that carry one hash for each handle. A search for a hash and a predicate finds only a key that is
present, has the hash and satisfies the predicate, and finds nothing only if there is no such key. It
asks the predicate about present keys of the hash only, about each at most once; and it ends by itself,
as a larger bound on the number of slots it looks at does not change what it does. -/
theorem findBy_complete (hash : Handle → UInt32) (ops : List Operation)
    (hkeys : ∀ op ∈ ops, ∀ key ∈ op.key?, key.hash = hash key.handle) (n : Nat) (code : UInt32)
    (p : Handle → Bool) :
    let t := (runAll ops).2 n
    let Present (h : Handle) : Prop := ((modelAll ops).2 n h).isSome ∧ hash h = code
    (∀ r, t.findBy code p = some r → Present r ∧ p r = true) ∧
    (t.findBy code p = none → ∀ h, Present h → p h = false) ∧
    ∃ asked : List Handle, asked.Nodup ∧ (∀ h ∈ asked, Present h) ∧
      ∀ steps, t.capacity ≤ steps →
        (t.findByM code (noting p) steps).run [] = (t.findBy code p, asked) := by
  obtain ⟨hsound, hmaps⟩ := perform_sound ops (fun _ => {}) (fun _ => sound_empty) hkeys
  have ht : ((runAll ops).2 n).Sound hash := hsound n
  have hmodel : (modelAll ops).2 n = ((runAll ops).2 n).toMap :=
    (congrFun (congrArg Prod.snd hmaps) n).symm
  intro t Present
  have hpresent : ∀ h, h ∈ t.candidates code ↔ Present h := by
    intro h
    rw [ht.mem_candidates_iff_toMap, ← hmodel]
  refine ⟨fun r hr => ?_, fun hnone h hh => ?_, ?_⟩
  · exact ⟨(hpresent r).1 (List.mem_of_find?_eq_some hr), List.find?_some hr⟩
  · have hnot := List.find?_eq_none.1 hnone h ((hpresent h).2 hh)
    simpa using hnot
  · obtain ⟨asked, hasked, hrun⟩ := findM?_noting p (t.candidates code) []
    refine ⟨asked, (ht.nodup_candidates code).sublist hasked.sublist,
      fun h hh => (hpresent h).1 (hasked.subset hh), fun steps hsteps => ?_⟩
    rw [ht.findByM_eq (noting p) hsteps, hrun]
    rfl

/-- Among seven keys of one hash, one that was deleted is not found, and one that was set again behind
the tombstones is. -/
theorem findBy_complete_colliding :
    (∀ op ∈ colliding, ∀ key ∈ op.key?, key.hash = 5) ∧
      ((runAll colliding).2 0).findBy 5 (·.index == 2) = none ∧
      ((runAll colliding).2 0).findBy 5 (·.index == 6) = some ⟨6, 0⟩ ∧
      ((modelAll colliding).2 0 ⟨6, 0⟩).isSome ∧
      ∀ h : Handle, ((modelAll colliding).2 0 h).isSome ∧ (5 : UInt32) = 5 → (h.index == 2) = false := by
  have hkeys : ∀ op ∈ colliding, ∀ key ∈ op.key?, key.hash = 5 := by
    simp [colliding, key?]
  have hnone : ((runAll colliding).2 0).findBy 5 (·.index == 2) = none := by decide
  have hsome : ((runAll colliding).2 0).findBy 5 (·.index == 6) = some ⟨6, 0⟩ := by decide
  have hfound := (findBy_complete (fun _ => 5) colliding hkeys 0 5 (·.index == 6)).1 _ hsome
  exact ⟨hkeys, hnone, hsome, hfound.1.1,
    (findBy_complete (fun _ => 5) colliding hkeys 0 5 (·.index == 2)).2.1 hnone⟩

end Operation

end Table

end LoxMachine

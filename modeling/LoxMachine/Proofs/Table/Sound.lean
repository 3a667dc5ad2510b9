import LoxMachine.Proofs.Table.Probing

/-!
# Sound tables

* `Table.Indexed hash slots`: every entry carries the hash of its handle, stands where a probe for it
  gets to, and is the only one of its handle.
* `Table.Sound hash t`: the slots are indexed, the two counts are right, and a quarter of the slots is
  free, so that a probe ends.
* `Table.Maps slots h v`: some entry takes the handle `h` to `v`.
* `Table.find_place`: a probe finds the place of its key (`Table.PlaceOf`): the one slot that may hold
  an entry of the handle. An entry written there (`Table.Indexed.write`), or buried there
  (`Table.Indexed.bury`), leaves the slots indexed.
* `Table.Sound.mem_candidates_iff`: what is found when looking for a hash.
-/

namespace LoxMachine

namespace Table

variable {hash : Handle → UInt32} {slots slots' : Array Slot} {key : Key} {v w : Value} {h : Handle}
  {i : Nat}

/-! ## Entries of a handle -/

theorem mem_entries {t : Table} {pair : Key × Value} :
    pair ∈ t.entries ↔ .entry pair.1 pair.2 ∈ t.slots := by
  obtain ⟨key, value⟩ := pair
  constructor
  · intro h
    obtain ⟨slot, hslot, hpair⟩ := List.mem_filterMap.1 h
    cases slot with
    | entry key' value' =>
      cases hpair
      exact Array.mem_toList_iff.1 hslot
    | _ => cases hpair
  · intro h
    exact List.mem_filterMap.2 ⟨_, Array.mem_toList_iff.2 h, rfl⟩

/-- Some entry takes the handle `h` to `v`. -/
def Maps (slots : Array Slot) (h : Handle) (v : Value) : Prop :=
  ∃ (i : Nat) (key : Key), slots[i]? = some (.entry key v) ∧ key.handle = h

/-- Every entry carries the hash of its handle, is reached by a probe for it, and is the only one of
its handle. -/
structure Indexed (hash : Handle → UInt32) (slots : Array Slot) : Prop where
  keyed : ∀ (i : Nat) (key : Key) (v : Value), slots[i]? = some (.entry key v) →
    key.hash = hash key.handle
  distinct : Distinct slots
  chained : Chained slots

theorem Indexed.maps_unique (hs : Indexed hash slots) (hv : Maps slots h v) (hw : Maps slots h w) :
    v = w := by
  obtain ⟨i, key, hi, rfl⟩ := hv
  obtain ⟨j, key', hj, hk⟩ := hw
  obtain rfl := hs.distinct _ _ _ _ _ hi hj (Slot.has_entry.2 rfl) (Slot.has_entry.2 hk)
  rw [hi] at hj
  cases hj
  rfl

theorem indexed_replicate (n : Nat) : Indexed hash (Array.replicate n .empty) := by
  have hslot : ∀ (i : Nat) (s : Slot), (Array.replicate n Slot.empty)[i]? = some s → s = .empty := by
    intro i s hs
    rw [Array.getElem?_replicate] at hs
    split at hs
    · exact (Option.some.inj hs).symm
    · cases hs
  refine ⟨fun i key v hi => ?_, fun i j s s' h hi hj hhas => ?_, fun i key v hi => ?_⟩
  · cases hslot i _ hi
  · obtain rfl := hslot i _ hi
    exact absurd hhas Slot.not_has_empty
  · cases hslot i _ hi

/-- Entries that are dropped, without emptying their slots, leave the others reached. -/
theorem Indexed.sparser (hs : Indexed hash slots) (hsize : slots'.size = slots.size)
    (hentry : ∀ (j : Nat) (key : Key) (v : Value), slots'[j]? = some (.entry key v) →
      slots[j]? = some (.entry key v))
    (hempty : ∀ j : Nat, slots'[j]? = some .empty → slots[j]? = some .empty) :
    Indexed hash slots' := by
  refine ⟨fun i key v hi => hs.keyed i key v (hentry i key v hi), ?_,
    fun i key v hi => (hs.chained i key v (hentry i key v hi)).mono hsize hempty⟩
  rintro i j s s' h hi hj ⟨key, v, rfl, hk⟩ ⟨key', v', rfl, hk'⟩
  exact hs.distinct _ _ _ _ _ (hentry i key v hi) (hentry j key' v' hj) (Slot.has_entry.2 hk)
    (Slot.has_entry.2 hk')

/-! ## The place of a key -/

/-- Slot `i` is the place of a key: a probe for the key reaches it, and it is the one slot that may
hold an entry of the handle, and of no other. -/
structure PlaceOf (slots : Array Slot) (key : Key) (i : Nat) : Prop where
  lt : i < slots.size
  reached : Reaches slots key.hash i
  only : ∀ (j : Nat) (s : Slot), slots[j]? = some s → s.Has key.handle → j = i
  own : ∀ (key' : Key) (v : Value), slots[i]? = some (.entry key' v) → key'.handle = key.handle

/-- **A probe finds the place of its key.** -/
theorem find_place (hs : Indexed hash slots) (hempty : ∃ j : Nat, slots[j]? = some .empty)
    (hkey : key.hash = hash key.handle) : ∃ i, find slots key = some i ∧ PlaceOf slots key i := by
  by_cases hhas : ∃ (j : Nat) (s : Slot), slots[j]? = some s ∧ s.Has key.handle
  · obtain ⟨j, _, hj, k, v, rfl, hk⟩ := hhas
    have hhash : k.hash = key.hash := by rw [hs.keyed j k v hj, hk, hkey]
    refine ⟨j, find_of_entry hs.chained hs.distinct hj hk hhash,
      (Array.getElem?_eq_some_iff.1 hj).1, hhash ▸ hs.chained j k v hj, fun i s hi hhas => ?_,
      fun k' v' hj' => ?_⟩
    · exact hs.distinct _ _ _ _ _ hi hj hhas (Slot.has_entry.2 hk)
    · rw [hj] at hj'
      cases hj'
      exact hk
  · have habsent : ∀ (j : Nat) (s : Slot), slots[j]? = some s → ¬s.Has key.handle :=
      fun j s hj hs => hhas ⟨j, s, hj, hs⟩
    obtain ⟨j, hfind, hreach, hfree⟩ := find_of_absent key hempty habsent
    have hlt : j < slots.size := by
      rcases hfree with hj | hj
      · exact (Array.getElem?_eq_some_iff.1 hj).1
      · exact (Array.getElem?_eq_some_iff.1 hj).1
    refine ⟨j, hfind, hlt, hreach, fun i s hi hs => absurd hs (habsent i s hi), fun k' v' hj => ?_⟩
    rcases hfree with hj' | hj' <;> rw [hj'] at hj <;> cases hj

theorem PlaceOf.exists_slot (hp : PlaceOf slots key i) : ∃ s, slots[i]? = some s :=
  ⟨_, Array.getElem?_eq_getElem hp.lt⟩

theorem PlaceOf.maps_iff (hp : PlaceOf slots key i) :
    Maps slots key.handle v ↔ ∃ key', slots[i]? = some (.entry key' v) := by
  constructor
  · rintro ⟨j, k, hj, hk⟩
    obtain rfl := hp.only j _ hj (Slot.has_entry.2 hk)
    exact ⟨k, hj⟩
  · rintro ⟨k, hi⟩
    exact ⟨i, k, hi, hp.own k v hi⟩

/-- An entry written at the place of its key. -/
theorem Indexed.write (hs : Indexed hash slots) (hp : PlaceOf slots key i)
    (hkey : key.hash = hash key.handle) : Indexed hash (put slots i (.entry key v)) := by
  have hempty : ∀ j : Nat, (put slots i (.entry key v))[j]? = some .empty →
      slots[j]? = some .empty := by
    intro j hj
    rcases getElem?_put_eq_some hj with ⟨-, hbad⟩ | ⟨-, hj⟩
    · cases hbad
    · exact hj
  refine ⟨fun j k u hj => ?_, fun j l s s' h hj hl hhas hhas' => ?_, fun j k u hj => ?_⟩
  · rcases getElem?_put_eq_some hj with ⟨-, heq⟩ | ⟨-, hj⟩
    · cases heq
      exact hkey
    · exact hs.keyed j k u hj
  · rcases getElem?_put_eq_some hj with ⟨hji, rfl⟩ | ⟨-, hold⟩ <;>
      rcases getElem?_put_eq_some hl with ⟨hli, rfl⟩ | ⟨-, hold'⟩
    · rw [hji, hli]
    · rw [Slot.has_entry] at hhas
      rw [hji, hp.only l s' hold' (hhas ▸ hhas')]
    · rw [Slot.has_entry] at hhas'
      rw [hli, hp.only j s hold (hhas' ▸ hhas)]
    · exact hs.distinct _ _ _ _ _ hold hold' hhas hhas'
  · refine Reaches.mono (size_put _ _ _) hempty ?_
    rcases getElem?_put_eq_some hj with ⟨rfl, heq⟩ | ⟨-, hj⟩
    · cases heq
      exact hp.reached
    · exact hs.chained j k u hj

theorem PlaceOf.maps_write (hp : PlaceOf slots key i) :
    Maps (put slots i (.entry key v)) h w ↔ if h = key.handle then w = v else Maps slots h w := by
  split
  case isTrue heq =>
    subst heq
    constructor
    · rintro ⟨j, k, hj, hk⟩
      rcases getElem?_put_eq_some hj with ⟨-, heq⟩ | ⟨hne, hj⟩
      · cases heq
        rfl
      · exact absurd (hp.only j _ hj (Slot.has_entry.2 hk)) hne
    · rintro rfl
      exact ⟨i, key, getElem?_put_self _ hp.lt, rfl⟩
  case isFalse hne =>
    constructor
    · rintro ⟨j, k, hj, hk⟩
      rcases getElem?_put_eq_some hj with ⟨-, heq⟩ | ⟨-, hj⟩
      · cases heq
        exact absurd hk.symm hne
      · exact ⟨j, k, hj, hk⟩
    · rintro ⟨j, k, hj, hk⟩
      have hij : i ≠ j := by
        rintro rfl
        exact hne (hk.symm.trans (hp.own k w hj))
      exact ⟨j, k, by rw [getElem?_put_ne _ _ hij, hj], hk⟩

/-- The entry at the place of a key, deleted. -/
theorem Indexed.bury (hs : Indexed hash slots) (i : Nat) : Indexed hash (put slots i .tombstone) := by
  have hold : ∀ (j : Nat) (s : Slot), s ≠ .tombstone → (put slots i .tombstone)[j]? = some s →
      slots[j]? = some s := by
    intro j s hne hj
    rcases getElem?_put_eq_some hj with ⟨-, heq⟩ | ⟨-, hj⟩
    · exact absurd heq hne
    · exact hj
  exact hs.sparser (size_put _ _ _) (fun j k u => hold j _ (by simp)) fun j => hold j _ (by simp)

theorem PlaceOf.maps_bury (hp : PlaceOf slots key i) :
    Maps (put slots i .tombstone) h w ↔ h ≠ key.handle ∧ Maps slots h w := by
  constructor
  · rintro ⟨j, k, hj, rfl⟩
    rcases getElem?_put_eq_some hj with ⟨-, heq⟩ | ⟨hne, hj⟩
    · cases heq
    · exact ⟨fun hk => hne (hp.only j _ hj (Slot.has_entry.2 hk)), j, k, hj, rfl⟩
  · rintro ⟨hne, j, k, hj, rfl⟩
    have hij : i ≠ j := by
      rintro rfl
      exact hne (hp.own k w hj)
    exact ⟨j, k, by rw [getElem?_put_ne _ _ hij, hj], rfl⟩

/-! ## Counts -/

/-- A count after one slot has been overwritten. -/
theorem countP_put (p : Slot → Bool) {s : Slot} (s' : Slot) (hi : slots[i]? = some s) :
    (put slots i s').countP p + (p s).toNat = slots.countP p + (p s').toNat := by
  obtain ⟨hlt, rfl⟩ := Array.getElem?_eq_some_iff.1 hi
  rw [put, Array.setIfInBounds_def, dif_pos hlt, Array.countP_set]
  cases hp : p slots[i] with
  | false => cases p s' <;> simp
  | true =>
    have hpos : 0 < slots.countP p := Array.countP_pos_iff.2 ⟨_, Array.getElem_mem hlt, hp⟩
    cases p s' <;> simp <;> omega

/-- The slots are indexed, the counts are right, and a quarter of the slots is free. -/
structure Sound (hash : Handle → UInt32) (t : Table) : Prop where
  indexed : Indexed hash t.slots
  used_eq : t.used = t.slots.countP Slot.isUsed
  live_eq : t.live = t.slots.countP Slot.isEntry
  load : 4 * t.used ≤ 3 * t.capacity

namespace Sound

variable {t : Table}

theorem live_le_used (ht : t.Sound hash) : t.live ≤ t.used := by
  rw [ht.used_eq, ht.live_eq]
  refine Array.countP_mono_left fun s _ hs => ?_
  cases s <;> simp_all [Slot.isEntry, Slot.isUsed]

theorem live_eq_zero_iff (ht : t.Sound hash) :
    t.live = 0 ↔ ∀ h v, ¬Maps t.slots h v := by
  rw [ht.live_eq, Array.countP_eq_zero]
  constructor
  · rintro hnone h v ⟨i, key, hi, -⟩
    exact hnone _ (Array.mem_of_getElem? hi) rfl
  · intro hnone s hs hentry
    obtain ⟨key, v, rfl⟩ := Slot.isEntry_iff.1 hentry
    obtain ⟨i, hi⟩ := Array.getElem?_of_mem hs
    exact hnone key.handle v ⟨i, key, hi, rfl⟩

/-- A table with slots has an empty one. -/
theorem exists_empty (ht : t.Sound hash) (hpos : 0 < t.capacity) :
    ∃ j : Nat, t.slots[j]? = some .empty := by
  by_contra hnone
  have hall : ∀ s ∈ t.slots, s.isUsed = true := by
    intro s hs
    obtain ⟨j, hj⟩ := Array.getElem?_of_mem hs
    cases s with
    | empty => exact absurd ⟨j, hj⟩ hnone
    | _ => rfl
  have hload := ht.load
  have hfull := Array.countP_eq_size.2 hall
  rw [ht.used_eq, hfull] at hload
  unfold capacity at hload hpos
  omega

theorem capacity_pos (ht : t.Sound hash) (hlive : t.live ≠ 0) : 0 < t.capacity := by
  have hle := ht.live_le_used
  have hload := ht.load
  omega

/-- **A probe finds the place of its key.** -/
theorem find_place (ht : t.Sound hash) (hpos : 0 < t.capacity) (hkey : key.hash = hash key.handle) :
    ∃ i, find t.slots key = some i ∧ PlaceOf t.slots key i :=
  Table.find_place ht.indexed (ht.exists_empty hpos) hkey

/-- Only the hashes of the handles in the table matter. -/
theorem rehash {hash' : Handle → UInt32} (ht : t.Sound hash)
    (hsame : ∀ h v, Maps t.slots h v → hash' h = hash h) : t.Sound hash' where
  indexed := by
    refine ⟨fun i key v hi => ?_, ht.indexed.distinct, ht.indexed.chained⟩
    rw [ht.indexed.keyed i key v hi, hsame key.handle v ⟨i, key, hi, rfl⟩]
  used_eq := ht.used_eq
  live_eq := ht.live_eq
  load := ht.load

/-- **Looking for a hash meets exactly the handles of that hash.** -/
theorem mem_candidates_iff (ht : t.Sound hash) (code : UInt32) :
    h ∈ t.candidates code ↔ hash h = code ∧ ∃ v, Maps t.slots h v := by
  unfold candidates
  split
  · rename_i hlive
    have hnone := ht.live_eq_zero_iff.1 hlive h
    simp [hnone]
  · rw [mem_chain_iff ht.indexed.chained]
    constructor
    · rintro ⟨j, key, v, hj, rfl, rfl⟩
      exact ⟨(ht.indexed.keyed j key v hj).symm, v, j, key, hj, rfl⟩
    · rintro ⟨rfl, v, j, key, hj, rfl⟩
      exact ⟨j, key, v, hj, rfl, ht.indexed.keyed j key v hj⟩

end Sound

theorem sound_empty : ({} : Table).Sound hash where
  indexed := indexed_replicate 0
  used_eq := rfl
  live_eq := rfl
  load := Nat.le_refl _

end Table

end LoxMachine

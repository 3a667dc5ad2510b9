import LoxMachine.Proofs.Table.Sound
import Mathlib.Data.Set.Card

/-!
# Tables are finite maps

* `Table.toMap t` is the map that a table stands for, read off its entries.
* One equation for each operation says what it does to the map: `Table.Sound.set`, `delete`, `retain`
  and `addAll`; growing does nothing to it (`Table.Sound.resize`). All of them keep a table sound.
* `Table.Operation` is one operation on a family of tables, `Table.Operation.run` what it does to
  the tables and `Table.Operation.model` what it does to maps.
-/

namespace LoxMachine

namespace Slot

/-- Whether the slot has an entry that is not to be kept. -/
def isDropped (keep : Handle → Bool) : Slot → Bool
  | entry key _ => !keep key.handle
  | _ => false

/-- The slot after the entries that are not to be kept have been deleted. -/
def retain (keep : Handle → Bool) : Slot → Slot
  | entry key v => if keep key.handle then entry key v else tombstone
  | s => s

variable {keep : Handle → Bool} {key : Key} {v : Value} {s : Slot}

theorem retain_eq_entry : s.retain keep = entry key v ↔ s = entry key v ∧ keep key.handle = true := by
  cases s with
  | entry k w => cases hk : keep k.handle <;> grind [retain]
  | _ => simp [retain]

theorem retain_eq_empty : s.retain keep = empty ↔ s = empty := by
  cases s with
  | entry k w => cases hk : keep k.handle <;> simp [retain, hk]
  | _ => simp [retain]

theorem isUsed_retain (keep : Handle → Bool) (s : Slot) : (s.retain keep).isUsed = s.isUsed := by
  cases s with
  | entry key v =>
    simp only [retain]
    split <;> rfl
  | _ => rfl

theorem countP_isEntry_retain (keep : Handle → Bool) (slots : List Slot) :
    (slots.map (retain keep)).countP isEntry + slots.countP (isDropped keep) =
      slots.countP isEntry := by
  induction slots with
  | nil => rfl
  | cons s rest ih =>
    rw [List.map_cons, List.countP_cons, List.countP_cons, List.countP_cons, ← ih]
    cases s with
    | entry key v =>
      cases hk : keep key.handle <;> simp [retain, isDropped, isEntry, hk] <;> omega
    | _ => simp [retain, isDropped, isEntry]

end Slot

namespace Table

variable {hash : Handle → UInt32} {t source : Table} {key : Key} {v w : Value} {h : Handle}

/-! ## The map of a table -/

/-- What the table takes a handle to. -/
def toMap (t : Table) (h : Handle) : Option Value :=
  (t.entries.find? fun pair => pair.1.handle = h).map Prod.snd

theorem mem_entries_iff_slot : (key, v) ∈ t.entries ↔ ∃ i : Nat, t.slots[i]? = some (.entry key v) := by
  rw [mem_entries]
  exact Array.mem_iff_getElem?

theorem maps_iff_mem_entries : Maps t.slots h v ↔ ∃ key, (key, v) ∈ t.entries ∧ key.handle = h := by
  simp only [mem_entries_iff_slot]
  constructor
  · rintro ⟨i, key, hi, hk⟩
    exact ⟨key, ⟨i, hi⟩, hk⟩
  · rintro ⟨key, ⟨i, hi⟩, hk⟩
    exact ⟨i, key, hi, hk⟩

theorem toMap_eq_some_iff (hs : Indexed hash t.slots) : t.toMap h = some v ↔ Maps t.slots h v := by
  have hfound : ∀ w, t.toMap h = some w → Maps t.slots h w := by
    intro w hw
    obtain ⟨⟨key, u⟩, hfind, rfl⟩ := Option.map_eq_some_iff.1 hw
    refine maps_iff_mem_entries.2 ⟨key, List.mem_of_find?_eq_some hfind, ?_⟩
    simpa using List.find?_some hfind
  refine ⟨hfound v, fun hmaps => ?_⟩
  obtain ⟨key, hmem, hk⟩ := maps_iff_mem_entries.1 hmaps
  have hsome : (t.entries.find? fun pair => pair.1.handle = h).isSome :=
    List.find?_isSome.2 ⟨(key, v), hmem, by simpa using hk⟩
  obtain ⟨pair, hfind⟩ := Option.isSome_iff_exists.1 hsome
  have hpair : t.toMap h = some pair.2 := by rw [toMap, hfind, Option.map_some]
  rw [hpair, hs.maps_unique hmaps (hfound _ hpair)]

theorem toMap_eq_none_iff (hs : Indexed hash t.slots) :
    t.toMap h = none ↔ ∀ v, ¬Maps t.slots h v := by
  rw [Option.eq_none_iff_forall_ne_some]
  exact forall_congr' fun v => not_congr (toMap_eq_some_iff hs)

/-- Two tables stand for the same map if their slots take the handles to the same values. -/
theorem toMap_eq_of_maps {t' : Table} {m : Handle → Option Value} (hs : Indexed hash t'.slots)
    (hmaps : ∀ h v, Maps t'.slots h v ↔ m h = some v) : t'.toMap = m := by
  funext h
  ext v
  exact (toMap_eq_some_iff hs).trans (hmaps h v)

theorem nodup_handles (hd : Distinct t.slots) : (t.entries.map fun pair => pair.1.handle).Nodup := by
  rw [List.Nodup, List.pairwise_map, entries, List.pairwise_filterMap, List.pairwise_iff_getElem]
  rintro i j hi hj hij ⟨key, v⟩ hv ⟨key', v'⟩ hv' heq
  refine hij.ne (hd i j _ _ key.handle (Array.getElem?_eq_getElem hi) (Array.getElem?_eq_getElem hj) ?_ ?_)
  · cases hs : t.slots.toList[i] <;> rw [hs] at hv <;> simp_all [Slot.pair?]
  · cases hs : t.slots.toList[j] <;> rw [hs] at hv' <;> simp_all [Slot.pair?]

theorem Sound.length_entries (ht : t.Sound hash) : t.entries.length = t.live := by
  rw [entries, List.length_filterMap_eq_countP, Array.countP_toList, ht.live_eq]
  refine Array.countP_congr fun s _ => ?_
  cases s <;> simp [Slot.pair?, Slot.isEntry]

/-! ## Writing at the place of a key -/

/-- An entry written at the place of its key, counted as far as it is new there. -/
theorem Sound.write {i : Nat} {s : Slot} (ht : t.Sound hash) (hp : PlaceOf t.slots key i)
    (hslot : t.slots[i]? = some s) (hkey : key.hash = hash key.handle) (v : Value)
    (hroom : 4 * (t.used + 1) ≤ 3 * t.capacity) :
    Sound hash ⟨put t.slots i (.entry key v), t.used + (!s.isUsed).toNat,
      t.live + (!s.isEntry).toNat⟩ := by
  have hused := countP_put Slot.isUsed (.entry key v) hslot
  have hlive := countP_put Slot.isEntry (.entry key v) hslot
  refine ⟨ht.indexed.write hp hkey, ?_, ?_, ?_⟩
  · rw [ht.used_eq]
    cases s <;> simpa [Slot.isUsed] using hused.symm
  · rw [ht.live_eq]
    cases s <;> simpa [Slot.isEntry] using hlive.symm
  · have hle := Bool.toNat_le (!s.isUsed)
    simp only [capacity, size_put] at hroom ⊢
    omega

theorem PlaceOf.toMap_write {i used live : Nat} (hs : Indexed hash t.slots)
    (hp : PlaceOf t.slots key i) (hkey : key.hash = hash key.handle) (v : Value) :
    toMap ⟨put t.slots i (.entry key v), used, live⟩ =
      Function.update t.toMap key.handle (some v) := by
  refine toMap_eq_of_maps (hs.write hp hkey) fun h w => hp.maps_write.trans ?_
  rw [Function.update_apply]
  split
  · rw [Option.some_inj, eq_comm]
  · exact (toMap_eq_some_iff hs).symm

/-- What the slot at the place of a key says about the key. -/
theorem PlaceOf.toMap_eq {i : Nat} {s : Slot} (hs : Indexed hash t.slots) (hp : PlaceOf t.slots key i)
    (hslot : t.slots[i]? = some s) : t.toMap key.handle = s.pair?.map Prod.snd := by
  ext w
  rw [toMap_eq_some_iff hs, hp.maps_iff, hslot]
  cases s <;> simp [Slot.pair?]

/-! ## Growing -/

/-- An entry placed in a table without tombstones that does not have its key, and has room. -/
theorem Sound.place (ht : t.Sound hash) (hclean : .tombstone ∉ t.slots)
    (hkey : key.hash = hash key.handle) (habsent : t.toMap key.handle = none)
    (hroom : 4 * (t.used + 1) ≤ 3 * t.capacity) :
    (t.place key v).Sound hash ∧ .tombstone ∉ (t.place key v).slots ∧
      (t.place key v).capacity = t.capacity ∧ (t.place key v).used = t.used + 1 ∧
      (t.place key v).toMap = Function.update t.toMap key.handle (some v) := by
  obtain ⟨i, hfind, hp⟩ := ht.find_place (by omega) hkey
  obtain ⟨s, hslot⟩ := hp.exists_slot
  have hnone := hp.toMap_eq ht.indexed hslot
  rw [habsent] at hnone
  obtain rfl : s = .empty := by
    cases s with
    | empty => rfl
    | tombstone => exact absurd (Array.mem_of_getElem? hslot) hclean
    | entry k u => cases hnone
  unfold Table.place
  rw [hfind]
  refine ⟨ht.write hp hslot hkey v hroom, fun hmem => ?_, size_put _ _ _, rfl,
    hp.toMap_write ht.indexed hkey v⟩
  obtain ⟨j, hj⟩ := Array.getElem?_of_mem hmem
  rcases getElem?_put_eq_some hj with ⟨-, heq⟩ | ⟨-, hj⟩
  · cases heq
  · exact hclean (Array.mem_of_getElem? hj)

/-- The map of a list of entries, over another one. -/
def overlay (entries : List (Key × Value)) (m : Handle → Option Value) (h : Handle) : Option Value :=
  ((entries.find? fun pair => pair.1.handle = h).map Prod.snd).or (m h)

theorem overlay_entries (m : Handle → Option Value) :
    overlay t.entries m = fun h => (t.toMap h).or (m h) := rfl

/-- With one entry for a key, it does not matter when it is added. -/
theorem overlay_cons {rest : List (Key × Value)} {m : Handle → Option Value}
    (hnew : key.handle ∉ rest.map fun pair => pair.1.handle) :
    overlay ((key, v) :: rest) m = overlay rest (Function.update m key.handle (some v)) := by
  funext h
  unfold overlay
  rw [List.find?_cons]
  by_cases hk : key.handle = h
  · subst hk
    have hrest : rest.find? (fun pair => decide (pair.1.handle = key.handle)) = none := by
      refine List.find?_eq_none.2 fun pair hp heq => hnew ?_
      rw [← of_decide_eq_true heq]
      exact List.mem_map_of_mem (f := fun pair => pair.1.handle) hp
    simp [hrest]
  · simp [hk, Function.update_of_ne (Ne.symm hk)]

/-- Entries of different keys placed one after another. -/
theorem Sound.foldl_place (entries : List (Key × Value)) : ∀ {t : Table}, t.Sound hash →
    .tombstone ∉ t.slots → (∀ pair ∈ entries, pair.1.hash = hash pair.1.handle) →
    (entries.map fun pair => pair.1.handle).Nodup →
    (∀ pair ∈ entries, t.toMap pair.1.handle = none) →
    4 * (t.used + entries.length) ≤ 3 * t.capacity →
    ∃ t', entries.foldl (fun t (key, value) => t.place key value) t = t' ∧ t'.Sound hash ∧
      t'.capacity = t.capacity ∧ t'.used = t.used + entries.length ∧
      t'.toMap = overlay entries t.toMap := by
  induction entries with
  | nil =>
    intro t ht _ _ _ _ _
    exact ⟨t, rfl, ht, rfl, rfl, rfl⟩
  | cons pair rest ih =>
    obtain ⟨key, v⟩ := pair
    intro t ht hclean hkeys hnodup habsent hroom
    rw [List.map_cons, List.nodup_cons] at hnodup
    rw [List.length_cons] at hroom
    obtain ⟨hs, hclean', hcap, hused, hmap⟩ :=
      ht.place (v := v) hclean (hkeys _ List.mem_cons_self) (habsent _ List.mem_cons_self) (by omega)
    have habsent' : ∀ pair ∈ rest, (t.place key v).toMap pair.1.handle = none := by
      intro pair hpair
      have hne : pair.1.handle ≠ key.handle := fun heq =>
        hnodup.1 (heq ▸ List.mem_map_of_mem (f := fun pair => pair.1.handle) hpair)
      rw [hmap, Function.update_of_ne hne]
      exact habsent pair (List.mem_cons_of_mem _ hpair)
    obtain ⟨t', hfold, ht', hcap', hused', hmap'⟩ := ih hs hclean'
      (fun pair hp => hkeys pair (List.mem_cons_of_mem _ hp)) hnodup.2 habsent' (by omega)
    refine ⟨t', hfold, ht', hcap'.trans hcap, by rw [hused', hused, List.length_cons]; omega, ?_⟩
    rw [hmap', hmap, overlay_cons hnodup.1]

theorem Sound.keyed (ht : t.Sound hash) (pair : Key × Value) (hp : pair ∈ t.entries) :
    pair.1.hash = hash pair.1.handle := by
  obtain ⟨i, hi⟩ := mem_entries_iff_slot.1 hp
  exact ht.indexed.keyed i _ _ hi

/-- **A table keeps its map when it is resized.** -/
theorem Sound.resize (ht : t.Sound hash) (capacity : Nat) (hroom : 4 * t.live ≤ 3 * capacity) :
    (t.resize capacity).Sound hash ∧ (t.resize capacity).capacity = capacity ∧
      (t.resize capacity).used = t.live ∧ (t.resize capacity).toMap = t.toMap := by
  let start : Table := { slots := Array.replicate capacity .empty }
  have hstart : start.Sound hash := by
    refine ⟨indexed_replicate capacity, ?_, ?_, Nat.zero_le _⟩ <;>
      simp [start, Array.countP_replicate, Slot.isUsed, Slot.isEntry]
  have hnone : start.toMap = fun _ => none := by
    refine toMap_eq_of_maps hstart.indexed fun h v => ⟨?_, by simp⟩
    rintro ⟨i, key, hi, -⟩
    simp [start, Array.getElem?_replicate] at hi
  have hclean : .tombstone ∉ start.slots := by simp [start, Array.mem_replicate]
  have hcap : start.capacity = capacity := by simp [start, Table.capacity]
  obtain ⟨t', hfold, ht', hcap', hused, hmap⟩ := hstart.foldl_place t.entries hclean ht.keyed
    (nodup_handles ht.indexed.distinct) (fun pair _ => by rw [hnone])
    (by rw [ht.length_entries, hcap]; simpa [start] using hroom)
  have hresize : t.resize capacity = t' := hfold
  rw [hresize]
  refine ⟨ht', hcap'.trans hcap, by rw [hused, ht.length_entries]; exact Nat.zero_add _, ?_⟩
  rw [hmap, overlay_entries, hnone]
  simp

/-- Room is made for one more entry. -/
theorem Sound.reserve (ht : t.Sound hash) :
    t.reserve.Sound hash ∧ 4 * (t.reserve.used + 1) ≤ 3 * t.reserve.capacity ∧
      t.reserve.toMap = t.toMap := by
  unfold Table.reserve
  split
  · have hload := ht.load
    have hlive := ht.live_le_used
    have hgrown : 4 * (t.live + 1) ≤ 3 * grown t.capacity := by
      unfold grown
      split <;> omega
    obtain ⟨hs, hcap, hused, hmap⟩ := ht.resize (grown t.capacity) (by omega)
    exact ⟨hs, by rw [hcap, hused]; exact hgrown, hmap⟩
  · exact ⟨ht, by omega, rfl⟩

/-! ## One equation for each operation -/

/-- Reading. -/
theorem Sound.get? (ht : t.Sound hash) (hkey : key.hash = hash key.handle) :
    t.get? key = t.toMap key.handle := by
  unfold Table.get?
  split
  · rename_i hlive
    exact ((toMap_eq_none_iff ht.indexed).2 (ht.live_eq_zero_iff.1 hlive _)).symm
  · rename_i hlive
    obtain ⟨i, hfind, hp⟩ := ht.find_place (ht.capacity_pos hlive) hkey
    obtain ⟨s, hslot⟩ := hp.exists_slot
    rw [hp.toMap_eq ht.indexed hslot, hfind]
    dsimp only
    rw [hslot]
    cases s <;> rfl

/-- **Writing**: the key gets the value, and the answer says whether it was absent. -/
theorem Sound.set (ht : t.Sound hash) (hkey : key.hash = hash key.handle) (v : Value) :
    (t.set key v).2.Sound hash ∧ (t.set key v).1 = (t.toMap key.handle).isNone ∧
      (t.set key v).2.toMap = Function.update t.toMap key.handle (some v) := by
  obtain ⟨hs, hroom, hmap⟩ := ht.reserve
  obtain ⟨i, hfind, hp⟩ := hs.find_place (by omega) hkey
  obtain ⟨s, hslot⟩ := hp.exists_slot
  have hwrite := hs.write hp hslot hkey v hroom
  rw [← hmap, hp.toMap_eq hs.indexed hslot]
  simp only [Table.set, hfind, hslot]
  cases s with
  | empty => exact ⟨hwrite, rfl, hp.toMap_write hs.indexed hkey v⟩
  | tombstone => exact ⟨hwrite, rfl, hp.toMap_write hs.indexed hkey v⟩
  | entry k u => exact ⟨hwrite, rfl, hp.toMap_write hs.indexed hkey v⟩

/-- **Deleting**: the key is gone, and the answer says whether it was present. -/
theorem Sound.delete (ht : t.Sound hash) (hkey : key.hash = hash key.handle) :
    (t.delete key).2.Sound hash ∧ (t.delete key).1 = (t.toMap key.handle).isSome ∧
      (t.delete key).2.toMap = Function.update t.toMap key.handle none := by
  have hunchanged : t.toMap key.handle = none →
      t.toMap = Function.update t.toMap key.handle none := fun hnone => by
    rw [← hnone, Function.update_eq_self]
  by_cases hlive : t.live = 0
  · have hnone := (toMap_eq_none_iff ht.indexed).2 (ht.live_eq_zero_iff.1 hlive key.handle)
    rw [Table.delete, if_pos hlive, hnone]
    exact ⟨ht, rfl, hunchanged hnone⟩
  · obtain ⟨i, hfind, hp⟩ := ht.find_place (ht.capacity_pos hlive) hkey
    obtain ⟨s, hslot⟩ := hp.exists_slot
    have hmap := hp.toMap_eq ht.indexed hslot
    simp only [Table.delete, if_neg hlive, hfind, hslot]
    cases s with
    | empty => exact ⟨ht, by rw [hmap]; rfl, hunchanged hmap⟩
    | tombstone => exact ⟨ht, by rw [hmap]; rfl, hunchanged hmap⟩
    | entry k u =>
      have hused := countP_put Slot.isUsed .tombstone hslot
      have hcount := countP_put Slot.isEntry .tombstone hslot
      simp only [Slot.isUsed, Slot.isEntry, Bool.toNat_true, Bool.toNat_false] at hused hcount
      have hbury := ht.indexed.bury i
      refine ⟨⟨hbury, ?_, ?_, ?_⟩, by rw [hmap]; rfl, ?_⟩
      · rw [ht.used_eq]
        dsimp only
        omega
      · rw [ht.live_eq]
        dsimp only
        omega
      · simpa [capacity] using ht.load
      · refine toMap_eq_of_maps hbury fun h w => hp.maps_bury.trans ?_
        rw [Function.update_apply, ← toMap_eq_some_iff ht.indexed]
        split <;> simp_all

/-- Entries of different keys written one after another. -/
theorem Sound.foldl_insert (entries : List (Key × Value)) : ∀ {t : Table}, t.Sound hash →
    (∀ pair ∈ entries, pair.1.hash = hash pair.1.handle) →
    (entries.map fun pair => pair.1.handle).Nodup →
    ∃ t', entries.foldl (fun t (key, value) => t.insert key value) t = t' ∧ t'.Sound hash ∧
      t'.toMap = overlay entries t.toMap := by
  induction entries with
  | nil => exact fun ht _ _ => ⟨_, rfl, ht, rfl⟩
  | cons pair rest ih =>
    obtain ⟨key, v⟩ := pair
    intro t ht hkeys hnodup
    rw [List.map_cons, List.nodup_cons] at hnodup
    obtain ⟨hset, -, hmap⟩ := ht.set (hkeys _ List.mem_cons_self) v
    obtain ⟨t', hfold, ht', hmap'⟩ :=
      ih hset (fun pair hp => hkeys pair (List.mem_cons_of_mem _ hp)) hnodup.2
    refine ⟨t', hfold, ht', ?_⟩
    rw [hmap', hmap, overlay_cons hnodup.1]

/-- **Copying**: the entries of the source, over those of the target. -/
theorem Sound.addAll (hs : source.Sound hash) (ht : t.Sound hash) :
    (source.addAll t).Sound hash ∧
      (source.addAll t).toMap = fun h => (source.toMap h).or (t.toMap h) := by
  obtain ⟨t', hfold, ht', hmap⟩ :=
    ht.foldl_insert source.entries hs.keyed (nodup_handles hs.indexed.distinct)
  have hadd : source.addAll t = t' := hfold
  rw [hadd]
  exact ⟨ht', hmap⟩

theorem retain_eq (t : Table) (keep : Handle → Bool) :
    t.retain keep = ⟨t.slots.map (Slot.retain keep), t.used,
      t.live - t.slots.countP (Slot.isDropped keep)⟩ := by
  have hslot : (fun slot => if Slot.isDropped keep slot then .tombstone else slot) =
      Slot.retain keep := by
    funext s
    cases s with
    | entry k w => cases hk : keep k.handle <;> simp [Slot.isDropped, Slot.retain, hk]
    | _ => rfl
  rw [← hslot]
  rfl

theorem maps_retain {keep : Handle → Bool} :
    Maps (t.slots.map (Slot.retain keep)) h v ↔ keep h = true ∧ Maps t.slots h v := by
  simp only [Maps, Array.getElem?_map, Option.map_eq_some_iff, Slot.retain_eq_entry]
  constructor
  · rintro ⟨i, key, ⟨_, hi, rfl, hk⟩, rfl⟩
    exact ⟨hk, i, key, hi, rfl⟩
  · rintro ⟨hk, i, key, hi, rfl⟩
    exact ⟨i, key, ⟨_, hi, rfl, hk⟩, rfl⟩

/-- **Dropping**: the keys that do not satisfy `keep` are gone. -/
theorem Sound.retain (ht : t.Sound hash) (keep : Handle → Bool) :
    (t.retain keep).Sound hash ∧
      (t.retain keep).toMap = fun h => if keep h then t.toMap h else none := by
  have hindexed : Indexed hash (t.slots.map (Slot.retain keep)) := by
    refine ht.indexed.sparser Array.size_map (fun j key v hj => ?_) fun j hj => ?_
    · rw [Array.getElem?_map, Option.map_eq_some_iff] at hj
      obtain ⟨s, hs, hkept⟩ := hj
      rw [hs, (Slot.retain_eq_entry.1 hkept).1]
    · rw [Array.getElem?_map, Option.map_eq_some_iff] at hj
      obtain ⟨s, hs, hkept⟩ := hj
      rw [hs, Slot.retain_eq_empty.1 hkept]
  rw [retain_eq]
  refine ⟨⟨hindexed, ?_, ?_, ?_⟩, toMap_eq_of_maps hindexed fun h v => maps_retain.trans ?_⟩
  · rw [ht.used_eq, Array.countP_map]
    exact congrArg (fun p => t.slots.countP p) (funext fun s => (Slot.isUsed_retain keep s).symm)
  · rw [ht.live_eq, ← Array.countP_toList, ← Array.countP_toList, ← Array.countP_toList,
      Array.toList_map, ← Slot.countP_isEntry_retain keep, Nat.add_sub_cancel]
  · simpa [capacity] using ht.load
  · rw [← toMap_eq_some_iff ht.indexed]
    split <;> simp_all

/-! ## Sequences of operations -/

/-- An operation on a family of tables. -/
inductive Operation where
  | set (table : Nat) (key : Key) (value : Value)
  | delete (table : Nat) (key : Key)
  | addAll (source target : Nat)
  | retain (table : Nat) (keep : Handle → Bool)

namespace Operation

/-- The key that the operation is given. -/
def key? : Operation → Option Key
  | set _ key _ | delete _ key => some key
  | _ => none

/-- The answer of an operation, and the tables after it. -/
def run (tables : Nat → Table) : Operation → Option Bool × (Nat → Table)
  | set n key value =>
    (((tables n).set key value).1, Function.update tables n ((tables n).set key value).2)
  | delete n key => (((tables n).delete key).1, Function.update tables n ((tables n).delete key).2)
  | addAll source target =>
    (none, Function.update tables target ((tables source).addAll (tables target)))
  | retain n keep => (none, Function.update tables n ((tables n).retain keep))

/-- The answer of an operation on finite maps, and the maps after it. -/
def model (maps : Nat → Handle → Option Value) :
    Operation → Option Bool × (Nat → Handle → Option Value)
  | set n key value =>
    (some (maps n key.handle).isNone,
      Function.update maps n (Function.update (maps n) key.handle (some value)))
  | delete n key =>
    (some (maps n key.handle).isSome,
      Function.update maps n (Function.update (maps n) key.handle none))
  | addAll source target =>
    (none, Function.update maps target fun h => (maps source h).or (maps target h))
  | retain n keep => (none, Function.update maps n fun h => if keep h then maps n h else none)

/-- One operation after another, with their answers. -/
def perform {σ : Type} (step : σ → Operation → Option Bool × σ) :
    σ → List Operation → List (Option Bool) × σ
  | s, [] => ([], s)
  | s, op :: ops =>
    let (answer, s) := step s op
    let (answers, s) := perform step s ops
    (answer :: answers, s)

variable {tables : Nat → Table} {op : Operation}

theorem update_toMap (tables : Nat → Table) (n : Nat) (t : Table) :
    (fun k => (Function.update tables n t k).toMap) =
      Function.update (fun k => (tables k).toMap) n t.toMap := by
  funext k
  by_cases hk : k = n
  · subst hk
    simp
  · simp [Function.update_of_ne hk]

theorem sound_update (ht : ∀ n, (tables n).Sound hash) {n : Nat} (hs : t.Sound hash) (k : Nat) :
    (Function.update tables n t k).Sound hash := by
  by_cases hk : k = n
  · subst hk
    simpa using hs
  · simpa [Function.update_of_ne hk] using ht k

/-- One operation does to the tables what it does to their maps. -/
theorem run_sound (ht : ∀ n, (tables n).Sound hash)
    (hkey : ∀ key ∈ op.key?, key.hash = hash key.handle) :
    (∀ n, ((op.run tables).2 n).Sound hash) ∧
      ((op.run tables).1, fun n => ((op.run tables).2 n).toMap) =
        op.model fun n => (tables n).toMap := by
  cases op with
  | set n key value =>
    obtain ⟨hs, hanswer, hmap⟩ := (ht n).set (hkey key rfl) value
    refine ⟨sound_update ht hs, ?_⟩
    simp only [run, model, update_toMap, hanswer, hmap]
  | delete n key =>
    obtain ⟨hs, hanswer, hmap⟩ := (ht n).delete (hkey key rfl)
    refine ⟨sound_update ht hs, ?_⟩
    simp only [run, model, update_toMap, hanswer, hmap]
  | addAll source target =>
    obtain ⟨hs, hmap⟩ := (ht source).addAll (ht target)
    refine ⟨sound_update ht hs, ?_⟩
    simp only [run, model, update_toMap, hmap]
  | retain n keep =>
    obtain ⟨hs, hmap⟩ := (ht n).retain keep
    refine ⟨sound_update ht hs, ?_⟩
    simp only [run, model, update_toMap, hmap]

/-- A sequence of operations does to the tables what it does to their maps. -/
theorem perform_sound (ops : List Operation) : ∀ tables : Nat → Table,
    (∀ n, (tables n).Sound hash) →
    (∀ op ∈ ops, ∀ key ∈ op.key?, key.hash = hash key.handle) →
    (∀ n, ((perform run tables ops).2 n).Sound hash) ∧
      ((perform run tables ops).1, fun n => ((perform run tables ops).2 n).toMap) =
        perform model (fun n => (tables n).toMap) ops := by
  induction ops with
  | nil => exact fun _ ht _ => ⟨ht, rfl⟩
  | cons op rest ih =>
    intro tables ht hkeys
    obtain ⟨hs, hstep⟩ := run_sound ht (hkeys op List.mem_cons_self)
    obtain ⟨hall, hrest⟩ := ih _ hs fun op hop => hkeys op (List.mem_cons_of_mem _ hop)
    refine ⟨hall, ?_⟩
    simp only [perform, ← hstep, ← hrest]

end Operation

/-- A table stands for a map: it answers with the map's values, its entries are the pairs of the map,
each of them once, and it counts them. -/
structure Represents (hash : Handle → UInt32) (t : Table) (m : Handle → Option Value) : Prop where
  get : ∀ key : Key, key.hash = hash key.handle → t.get? key = m key.handle
  mem_entries : ∀ key v, (key, v) ∈ t.entries ↔ key.hash = hash key.handle ∧ m key.handle = some v
  nodup : (t.entries.map fun pair => pair.1.handle).Nodup
  finite : {h | (m h).isSome}.Finite
  live : t.live = {h | (m h).isSome}.ncard

theorem Sound.represents (ht : t.Sound hash) : t.Represents hash t.toMap := by
  have hmem : ∀ key v, (key, v) ∈ t.entries ↔
      key.hash = hash key.handle ∧ t.toMap key.handle = some v := by
    intro key v
    rw [toMap_eq_some_iff ht.indexed, maps_iff_mem_entries]
    constructor
    · exact fun h => ⟨ht.keyed _ h, key, h, rfl⟩
    · rintro ⟨hkey, k, hk, heq⟩
      have hhash : k.hash = key.hash := by rw [ht.keyed _ hk, hkey, heq]
      obtain rfl : k = key := by
        cases k
        cases key
        simp_all
      exact hk
  have hnodup := nodup_handles ht.indexed.distinct
  have hset : {h | (t.toMap h).isSome} =
      ((t.entries.map fun pair => pair.1.handle).toFinset : Set Handle) := by
    ext h
    simp only [Set.mem_ofPred_eq, Option.isSome_iff_exists, toMap_eq_some_iff ht.indexed,
      maps_iff_mem_entries, List.coe_toFinset, List.mem_map, Prod.exists]
    constructor
    · rintro ⟨v, key, hm, hk⟩
      exact ⟨key, v, hm, hk⟩
    · rintro ⟨key, v, hm, hk⟩
      exact ⟨v, key, hm, hk⟩
  refine ⟨fun key => ht.get?, hmem, hnodup, ?_, ?_⟩
  · rw [hset]
    exact Finset.finite_toSet _
  · rw [hset, Set.ncard_coe_finset, List.toFinset_card_of_nodup hnodup, List.length_map,
      ht.length_entries]

namespace Operation

/-- The answers of operations on empty tables, and the tables at the end. -/
def runAll (ops : List Operation) : List (Option Bool) × (Nat → Table) :=
  perform run (fun _ => {}) ops

/-- The answers of operations on empty maps, and the maps at the end. -/
def modelAll (ops : List Operation) : List (Option Bool) × (Nat → Handle → Option Value) :=
  perform model (fun _ _ => none) ops

/-- **Tables are finite maps.** Over any sequence of operations on empty tables, with keys that carry
one hash for each handle, the answers are those of the same operations on finite maps, and at the end
each table stands for its map. -/
theorem runAll_represents (hash : Handle → UInt32) (ops : List Operation)
    (hkeys : ∀ op ∈ ops, ∀ key ∈ op.key?, key.hash = hash key.handle) :
    (runAll ops).1 = (modelAll ops).1 ∧
      ∀ n, Represents hash ((runAll ops).2 n) ((modelAll ops).2 n) := by
  obtain ⟨hs, heq⟩ := perform_sound ops (fun _ => {}) (fun _ => sound_empty) hkeys
  have hmodel : modelAll ops = ((runAll ops).1, fun n => ((runAll ops).2 n).toMap) := heq.symm
  rw [hmodel]
  exact ⟨rfl, fun n => (hs n).represents⟩

/-- Seven keys of one hash, of which two are deleted and one of these set again; the table is copied
over another one, which then drops a key. -/
def colliding : List Operation :=
  let key (n : Nat) : Key := ⟨⟨n, 0⟩, 5⟩
  [set 0 (key 0) .nil, set 0 (key 1) (.bool true), set 0 (key 2) .nil, set 0 (key 3) .nil,
    delete 0 (key 1), delete 0 (key 2), delete 0 (key 2), set 0 (key 1) (.bool false),
    set 0 (key 4) .nil, set 0 (key 5) .nil, set 0 (key 6) .nil, set 0 (key 3) (.bool true),
    set 1 (key 0) (.bool true), set 1 (key 9) .nil, addAll 0 1, retain 1 fun h => h.index != 4]

theorem runAll_represents_colliding :
    (∀ op ∈ colliding, ∀ key ∈ op.key?, key.hash = 5) ∧
      (runAll colliding).1 =
        [true, true, true, true, true, true, false, true, true, true, true, false, true, true].map some ++
          [none, none] ∧
      ((runAll colliding).2 1).get? ⟨⟨1, 0⟩, 5⟩ = some (.bool false) ∧
      ((runAll colliding).2 1).get? ⟨⟨4, 0⟩, 5⟩ = none := by
  have hkeys : ∀ op ∈ colliding, ∀ key ∈ op.key?, key.hash = 5 := by
    simp [colliding, key?]
  obtain ⟨hanswers, hmaps⟩ := runAll_represents (fun _ => 5) colliding hkeys
  refine ⟨hkeys, ?_, ?_, ?_⟩
  · rw [hanswers]
    decide
  · rw [(hmaps 1).get _ rfl]
    decide
  · rw [(hmaps 1).get _ rfl]
    decide

end Operation

end Table

end LoxMachine

import LoxMachine.Object
import Mathlib.Data.List.Forall2

/-!
# Objects that differ in their handles

Two machines that run the same program make the same objects, but the handles of these objects are not
the same. A pairing says which handles of the one machine go with which of the other; data is *twin*
under a pairing if it is the same except for handles, and these are paired.

* `Value.Twin`, `Table.Twin`, `Object.Twin` are the relations for values, tables and objects. Each has
  a lemma `mono`, by which only the pairs that occur in the data matter.
* `Table.Twin.get?`, `set`, `delete` and `addAll`: the operations on twin tables do the same, as a
  handle has one partner at most.
-/

namespace LoxMachine

open Relator (BiUnique)

/-- Which handles of one heap go with which handles of another. -/
abbrev Pairing := Handle → Handle → Prop

variable {R S : Pairing}

/-! ## Lists and arrays -/

section Arrays

variable {α β : Type} {A B : α → β → Prop}

/-- Only the pairs that occur matter. -/
theorem forall₂_mono {l : List α} {l' : List β} (h : List.Forall₂ A l l')
    (hAB : ∀ a ∈ l, ∀ b ∈ l', A a b → B a b) : List.Forall₂ B l l' := by
  induction h with
  | nil => exact .nil
  | cons hab _ ih =>
    refine .cons (hAB _ List.mem_cons_self _ List.mem_cons_self hab) (ih fun a ha b hb => ?_)
    exact hAB a (List.mem_cons_of_mem _ ha) b (List.mem_cons_of_mem _ hb)

theorem optionRel_mono {a : Option α} {b : Option β} (h : Option.Rel A a b)
    (hAB : ∀ x ∈ a, ∀ y ∈ b, A x y → B x y) : Option.Rel B a b := by
  cases h with
  | none => exact .none
  | some hxy => exact .some (hAB _ rfl _ rfl hxy)

/-- Arrays whose items are related, one by one. -/
abbrev Paired (A : α → β → Prop) (xs : Array α) (ys : Array β) : Prop :=
  List.Forall₂ A xs.toList ys.toList

namespace Paired

variable {xs : Array α} {ys : Array β} {a : α} {b : β}

theorem mono (h : Paired A xs ys) (hAB : ∀ a ∈ xs, ∀ b ∈ ys, A a b → B a b) : Paired B xs ys :=
  forall₂_mono h fun a ha b hb => hAB a (Array.mem_toList_iff.1 ha) b (Array.mem_toList_iff.1 hb)

theorem size_eq (h : Paired A xs ys) : xs.size = ys.size := by
  simpa using h.length_eq

theorem getElem? (h : Paired A xs ys) (i : Nat) :
    (xs[i]? = none ∧ ys[i]? = none) ∨ ∃ a b, xs[i]? = some a ∧ ys[i]? = some b ∧ A a b := by
  have hlength := h.length_eq
  rw [← Array.getElem?_toList, ← Array.getElem?_toList]
  by_cases hi : i < xs.toList.length
  · exact Or.inr ⟨_, _, List.getElem?_eq_getElem hi, List.getElem?_eq_getElem (hlength ▸ hi),
      h.get hi (hlength ▸ hi)⟩
  · exact Or.inl ⟨List.getElem?_eq_none (Nat.le_of_not_lt hi),
      List.getElem?_eq_none (hlength ▸ Nat.le_of_not_lt hi)⟩

theorem exists_of_mem (h : Paired A xs ys) (ha : a ∈ xs) : ∃ b ∈ ys, A a b := by
  obtain ⟨i, hi⟩ := Array.getElem?_of_mem ha
  rcases h.getElem? i with ⟨hnone, -⟩ | ⟨a', b, ha', hb, hab⟩
  · rw [hi] at hnone
    cases hnone
  · rw [hi] at ha'
    cases ha'
    exact ⟨b, Array.mem_of_getElem? hb, hab⟩

theorem flip (h : Paired A xs ys) : Paired (fun b a => A a b) ys xs := List.Forall₂.flip h

theorem push (h : Paired A xs ys) (hab : A a b) : Paired A (xs.push a) (ys.push b) := by
  rw [Paired, Array.toList_push, Array.toList_push]
  exact List.rel_append h (.cons hab .nil)

theorem take (h : Paired A xs ys) (n : Nat) : Paired A (xs.shrink n) (ys.shrink n) := by
  rw [Paired, Array.toList_shrink, Array.toList_shrink]
  exact List.forall₂_take n h

theorem pop (h : Paired A xs ys) : Paired A xs.pop ys.pop := by
  rw [Paired, Array.toList_pop, Array.toList_pop, List.dropLast_eq_take, List.dropLast_eq_take,
    h.length_eq]
  exact List.forall₂_take _ h

theorem extract (h : Paired A xs ys) (start stop : Nat) :
    Paired A (xs.extract start stop) (ys.extract start stop) := by
  rw [Paired, Array.toList_extract, Array.toList_extract]
  exact List.forall₂_take _ (List.forall₂_drop _ h)

theorem put (h : Paired A xs ys) (i : Nat) (hab : A a b) : Paired A (put xs i a) (put ys i b) := by
  have hset : ∀ {l : List α} {l' : List β}, List.Forall₂ A l l' → ∀ i,
      List.Forall₂ A (l.set i a) (l'.set i b) := by
    intro l l' hl
    induction hl with
    | nil => exact fun _ => .nil
    | cons hc hl ih =>
      intro i
      cases i with
      | zero => exact .cons hab hl
      | succ i => exact .cons hc (ih i)
  rw [Paired, LoxMachine.put, LoxMachine.put, Array.toList_setIfInBounds, Array.toList_setIfInBounds]
  exact hset h i

theorem replicate (hab : A a b) (n : Nat) :
    Paired A (Array.replicate n a) (Array.replicate n b) := by
  rw [Paired, Array.toList_replicate, Array.toList_replicate]
  induction n with
  | zero => exact .nil
  | succ n ih => exact .cons hab ih

end Paired

end Arrays

/-! ## Values -/

/-- The same value, or paired objects. -/
inductive Value.Twin (R : Pairing) : Value → Value → Prop
  | nil : Twin R .nil .nil
  | bool (b : Bool) : Twin R (.bool b) (.bool b)
  | number (n : Number) : Twin R (.number n) (.number n)
  | obj {x y : Handle} : R x y → Twin R (.obj x) (.obj y)

namespace Value.Twin

variable {v w v' w' : Value}

theorem mono (h : v.Twin R w) (hRS : ∀ x y, v = .obj x → w = .obj y → R x y → S x y) :
    v.Twin S w := by
  cases h with
  | nil => exact .nil
  | bool b => exact .bool b
  | number n => exact .number n
  | obj hxy => exact .obj (hRS _ _ rfl rfl hxy)

theorem isFalsey (h : v.Twin R w) : v.isFalsey = w.isFalsey := by
  cases h <;> rfl

/-- **Equality of the language does not depend on the handles.** -/
theorem equals (hR : BiUnique R) (h : v.Twin R w) (h' : v'.Twin R w') :
    v.equals v' = w.equals w' := by
  cases h with
  | obj hxy =>
    cases h' with
    | obj hxy' =>
      rw [Value.equals_obj, Value.equals_obj, Bool.eq_iff_iff, beq_iff_eq, beq_iff_eq]
      exact Relator.rel_eq hR hxy hxy'
    | _ => rfl
  | _ => cases h' <;> rfl

end Value.Twin

/-! ## Tables -/

/-- The same slot, except for handles. -/
inductive Slot.Twin (R : Pairing) : Slot → Slot → Prop
  | empty : Twin R .empty .empty
  | tombstone : Twin R .tombstone .tombstone
  | entry {x y : Handle} {v w : Value} (hash : UInt32) : R x y → v.Twin R w →
    Twin R (.entry ⟨x, hash⟩ v) (.entry ⟨y, hash⟩ w)

/-- The same table, except for handles. -/
structure Table.Twin (R : Pairing) (t t' : Table) : Prop where
  slots : Paired (Slot.Twin R) t.slots t'.slots
  used : t.used = t'.used
  live : t.live = t'.live

namespace Table

variable {t t' source source' : Table} {x y : Handle} {v w : Value} {hash : UInt32}

/-- Twin pairs of a key and a value. -/
structure PairTwin (R : Pairing) (p q : Key × Value) : Prop where
  handle : R p.1.handle q.1.handle
  hash : p.1.hash = q.1.hash
  value : p.2.Twin R q.2

theorem twin_empty : Table.Twin R {} {} := ⟨.nil, rfl, rfl⟩

theorem Twin.entries (h : t.Twin R t') : List.Forall₂ (PairTwin R) t.entries t'.entries := by
  refine List.rel_filterMap (fun s s' hs => ?_) h.slots
  cases hs with
  | empty => exact .none
  | tombstone => exact .none
  | entry hash hxy hv => exact .some ⟨hxy, rfl, hv⟩

theorem Twin.mono (h : t.Twin R t')
    (hRS : ∀ x ∈ t.handles, ∀ y ∈ t'.handles, R x y → S x y) : t.Twin S t' := by
  refine ⟨h.slots.mono fun s hs s' hs' hss => ?_, h.used, h.live⟩
  cases hss with
  | empty => exact .empty
  | tombstone => exact .tombstone
  | @entry x y v w hash hxy hv =>
    have hmem : (⟨x, hash⟩, v) ∈ t.entries :=
      List.mem_filterMap.2 ⟨_, Array.mem_toList_iff.2 hs, rfl⟩
    have hmem' : (⟨y, hash⟩, w) ∈ t'.entries :=
      List.mem_filterMap.2 ⟨_, Array.mem_toList_iff.2 hs', rfl⟩
    refine .entry hash ?_ (hv.mono fun a b ha hb hab => ?_)
    · exact hRS x (List.mem_flatMap.2 ⟨_, hmem, List.mem_cons_self⟩) y
        (List.mem_flatMap.2 ⟨_, hmem', List.mem_cons_self⟩) hxy
    · subst ha hb
      exact hRS a (List.mem_flatMap.2 ⟨_, hmem, by simp [Value.handle?]⟩) b
        (List.mem_flatMap.2 ⟨_, hmem', by simp [Value.handle?]⟩) hab

/-! ### Probing -/

/-- **A probe for paired keys ends at the same slot.** -/
theorem probe_twin (hR : BiUnique R) {s s' : Array Slot} (hs : Paired (Slot.Twin R) s s')
    (hxy : R x y) (steps i : Nat) (grave : Option Nat) :
    probe s x steps i grave = probe s' y steps i grave := by
  induction steps generalizing i grave with
  | zero => rfl
  | succ steps ih =>
    have hafter : after s i = after s' i := by rw [after, after, hs.size_eq]
    rcases hs.getElem? i with ⟨hi, hi'⟩ | ⟨a, b, hi, hi', hab⟩
    · simp only [probe, hi, hi']
    · cases hab with
      | empty => simp only [probe, hi, hi']
      | tombstone => simp only [probe, hi, hi', hafter, ih]
      | @entry x' y' v w hash hxy' hv =>
        have hiff : x' = x ↔ y' = y := Relator.rel_eq hR hxy' hxy
        simp only [probe, hi, hi', hafter, ih, hiff]

theorem find_twin (hR : BiUnique R) {s s' : Array Slot} (hs : Paired (Slot.Twin R) s s')
    (hxy : R x y) (hash : UInt32) : find s ⟨x, hash⟩ = find s' ⟨y, hash⟩ := by
  simp only [find, hs.size_eq]
  exact probe_twin hR hs hxy _ _ _

/-! ### Operations -/

theorem Twin.get? (hR : BiUnique R) (h : t.Twin R t') (hxy : R x y) (hash : UInt32) :
    Option.Rel (Value.Twin R) (t.get? ⟨x, hash⟩) (t'.get? ⟨y, hash⟩) := by
  unfold Table.get?
  rw [h.live, find_twin hR h.slots hxy]
  split
  · exact .none
  · cases find t'.slots ⟨y, hash⟩ with
    | none => exact .none
    | some i =>
      rcases h.slots.getElem? i with ⟨hi, hi'⟩ | ⟨a, b, hi, hi', hab⟩
      · simp only [hi, hi']
        exact .none
      · simp only [hi, hi']
        cases hab with
        | empty => exact .none
        | tombstone => exact .none
        | entry hash hxy hv => exact .some hv

theorem Twin.place (hR : BiUnique R) (h : t.Twin R t') (hxy : R x y) (hv : v.Twin R w) :
    (t.place ⟨x, hash⟩ v).Twin R (t'.place ⟨y, hash⟩ w) := by
  unfold Table.place
  rw [find_twin hR h.slots hxy]
  cases find t'.slots ⟨y, hash⟩ with
  | none => exact h
  | some i =>
    exact ⟨h.slots.put i (.entry hash hxy hv), congrArg (· + 1) h.used, congrArg (· + 1) h.live⟩

/-- Twin pairs are worked into twin tables one after another. -/
theorem Twin.foldl {f : Table → Key × Value → Table} {l l' : List (Key × Value)}
    (hf : ∀ {t t' : Table} {x y : Handle} {hash : UInt32} {v w : Value}, t.Twin R t' → R x y →
      v.Twin R w → (f t (⟨x, hash⟩, v)).Twin R (f t' (⟨y, hash⟩, w)))
    (hl : List.Forall₂ (PairTwin R) l l') (h : t.Twin R t') :
    (l.foldl f t).Twin R (l'.foldl f t') := by
  refine List.rel_foldl (fun t t' ht p q hpq => ?_) h hl
  obtain ⟨⟨x, hash⟩, v⟩ := p
  obtain ⟨⟨y, hash'⟩, w⟩ := q
  obtain ⟨hxy, hhash, hv⟩ := hpq
  dsimp only at hhash
  subst hhash
  exact hf ht hxy hv

theorem Twin.resize (hR : BiUnique R) (h : t.Twin R t') (capacity : Nat) :
    (t.resize capacity).Twin R (t'.resize capacity) := by
  unfold Table.resize
  exact Twin.foldl (fun ht hxy hv => ht.place hR hxy hv) h.entries
    ⟨.replicate .empty capacity, rfl, rfl⟩

theorem Twin.reserve (hR : BiUnique R) (h : t.Twin R t') : t.reserve.Twin R t'.reserve := by
  unfold Table.reserve capacity
  rw [h.slots.size_eq, h.used]
  split
  · exact h.resize hR _
  · exact h

/-- **An entry is set.** -/
theorem Twin.set (hR : BiUnique R) (h : t.Twin R t') (hxy : R x y) (hv : v.Twin R w) :
    (t.set ⟨x, hash⟩ v).1 = (t'.set ⟨y, hash⟩ w).1 ∧
      (t.set ⟨x, hash⟩ v).2.Twin R (t'.set ⟨y, hash⟩ w).2 := by
  have hres := h.reserve hR
  unfold Table.set
  dsimp only
  generalize t.reserve = r at hres
  generalize t'.reserve = r' at hres
  rw [find_twin hR hres.slots hxy]
  cases find r'.slots ⟨y, hash⟩ with
  | none => exact ⟨rfl, hres⟩
  | some i =>
    have hput := hres.slots.put i (.entry hash hxy hv)
    rcases hres.slots.getElem? i with ⟨hi, hi'⟩ | ⟨a, b, hi, hi', hab⟩
    · simp only [hi, hi']
      exact ⟨trivial, hput, congrArg (· + 1) hres.used, congrArg (· + 1) hres.live⟩
    · simp only [hi, hi']
      cases hab with
      | empty => exact ⟨rfl, hput, congrArg (· + 1) hres.used, congrArg (· + 1) hres.live⟩
      | tombstone => exact ⟨rfl, hput, hres.used, congrArg (· + 1) hres.live⟩
      | entry hash hxy hv => exact ⟨rfl, hput, hres.used, hres.live⟩

theorem Twin.insert (hR : BiUnique R) (h : t.Twin R t') (hxy : R x y) (hv : v.Twin R w) :
    (t.insert ⟨x, hash⟩ v).Twin R (t'.insert ⟨y, hash⟩ w) := (h.set hR hxy hv).2

/-- **An entry is deleted.** -/
theorem Twin.delete (hR : BiUnique R) (h : t.Twin R t') (hxy : R x y) :
    (t.delete ⟨x, hash⟩).2.Twin R (t'.delete ⟨y, hash⟩).2 := by
  unfold Table.delete
  rw [h.live, find_twin hR h.slots hxy]
  split
  · exact h
  · cases find t'.slots ⟨y, hash⟩ with
    | none => exact h
    | some i =>
      rcases h.slots.getElem? i with ⟨hi, hi'⟩ | ⟨a, b, hi, hi', hab⟩
      · simp only [hi, hi']
        exact h
      · simp only [hi, hi']
        cases hab with
        | empty => exact h
        | tombstone => exact h
        | entry hash hxy hv =>
          exact ⟨h.slots.put i .tombstone, h.used, rfl⟩

/-- **The entries of a table are copied into another one.** -/
theorem Twin.addAll (hR : BiUnique R) (hs : source.Twin R source') (h : t.Twin R t') :
    (source.addAll t).Twin R (source'.addAll t') := by
  unfold Table.addAll
  exact Twin.foldl (fun ht hxy hv => ht.insert hR hxy hv) hs.entries h

end Table

/-! ## Functions and other objects -/

/-- The same code, with twin constants. -/
structure Chunk.Twin (R : Pairing) (c c' : Chunk) : Prop where
  code : c.code = c'.code
  lines : c.lines = c'.lines
  constants : Paired (Value.Twin R) c.constants c'.constants

/-- The same function, except for handles. -/
structure Function.Twin (R : Pairing) (f f' : Function) : Prop where
  name : Option.Rel R f.name f'.name
  arity : f.arity = f'.arity
  upvalueCount : f.upvalueCount = f'.upvalueCount
  chunk : f.chunk.Twin R f'.chunk

/-- The result of a native function depends on the arguments only as values. -/
def Native.Uniform (n : Native) : Prop :=
  ∀ (R : Pairing) (reading : Number) (a b : Array Value), Paired (Value.Twin R) a b →
    (n.apply reading a).Twin R (n.apply reading b)

/-- The same place of a captured variable, except for handles. -/
inductive Upvalue.Twin (R : Pairing) : Upvalue → Upvalue → Prop
  | stacked (slot : Nat) : Twin R (.stacked slot) (.stacked slot)
  | closed {v w : Value} : v.Twin R w → Twin R (.closed v) (.closed w)

/-- The same object, except for handles. -/
inductive Object.Twin (R : Pairing) : Object → Object → Prop
  | string (text : Text) : Twin R (.string text) (.string text)
  | function {f f' : Function} : f.Twin R f' → Twin R (.function f) (.function f')
  | native {n : Native} : n.Uniform → Twin R (.native n) (.native n)
  | closure {c c' : Closure} : R c.function c'.function → Paired R c.upvalues c'.upvalues →
    Twin R (.closure c) (.closure c')
  | upvalue {u u' : Upvalue} : u.Twin R u' → Twin R (.upvalue u) (.upvalue u')
  | cls {c c' : Class} : R c.name c'.name → c.methods.Twin R c'.methods →
    Twin R (.cls c) (.cls c')
  | inst {i i' : Instance} : R i.cls i'.cls → i.fields.Twin R i'.fields →
    Twin R (.inst i) (.inst i')
  | bound {b b' : Bound} : b.receiver.Twin R b'.receiver → R b.method b'.method →
    Twin R (.bound b) (.bound b')

theorem Chunk.Twin.mono {c c' : Chunk} (h : c.Twin R c')
    (hRS : ∀ x y, .obj x ∈ c.constants → .obj y ∈ c'.constants → R x y → S x y) : c.Twin S c' := by
  refine ⟨h.code, h.lines, h.constants.mono fun v hv w hw hvw => hvw.mono fun x y hx hy hxy => ?_⟩
  subst hx hy
  exact hRS x y hv hw hxy

theorem Chunk.Twin.read8 {c c' : Chunk} (h : c.Twin R c') (offset : Nat) :
    c.read8 offset = c'.read8 offset := by
  rw [Chunk.read8, Chunk.read8, h.code]

theorem Chunk.Twin.read16 {c c' : Chunk} (h : c.Twin R c') (offset : Nat) :
    c.read16 offset = c'.read16 offset := by
  rw [Chunk.read16, Chunk.read16, h.read8, h.read8]

theorem Chunk.Twin.lineAt {c c' : Chunk} (h : c.Twin R c') (offset : Nat) :
    c.lineAt offset = c'.lineAt offset := by
  rw [Chunk.lineAt, Chunk.lineAt, h.lines]

theorem Chunk.Twin.addConstant {c c' : Chunk} {v w : Value} (h : c.Twin R c') (hv : v.Twin R w) :
    (c.addConstant v).Twin R (c'.addConstant w) := { h with constants := h.constants.push hv }

namespace Object.Twin

variable {o o' : Object}

theorem kind_eq (h : o.Twin R o') : o.kind = o'.kind := by
  cases h <;> rfl

/-- **Only the references matter.** -/
theorem mono (h : o.Twin R o')
    (hRS : ∀ x ∈ o.references, ∀ y ∈ o'.references, R x y → S x y) : o.Twin S o' := by
  cases h with
  | string text => exact .string text
  | @function f f' hf =>
    refine .function ⟨?_, hf.arity, hf.upvalueCount, hf.chunk.mono fun x y hx hy hxy => ?_⟩
    · refine optionRel_mono hf.name fun x hx y hy hxy => hRS x ?_ y ?_ hxy
      · exact List.mem_append_left _ (Option.mem_toList.2 hx)
      · exact List.mem_append_left _ (Option.mem_toList.2 hy)
    · refine hRS x (List.mem_append_right _ ?_) y (List.mem_append_right _ ?_) hxy
      · exact List.mem_filterMap.2 ⟨_, Array.mem_toList_iff.2 hx, rfl⟩
      · exact List.mem_filterMap.2 ⟨_, Array.mem_toList_iff.2 hy, rfl⟩
  | native hn => exact .native hn
  | closure hf hu =>
    refine .closure (hRS _ List.mem_cons_self _ List.mem_cons_self hf)
      (hu.mono fun x hx y hy hxy => ?_)
    exact hRS x (List.mem_cons_of_mem _ (Array.mem_toList_iff.2 hx)) y
      (List.mem_cons_of_mem _ (Array.mem_toList_iff.2 hy)) hxy
  | upvalue hu =>
    cases hu with
    | stacked slot => exact .upvalue (.stacked slot)
    | closed hv =>
      refine .upvalue (.closed (hv.mono fun x y hx hy hxy => ?_))
      subst hx hy
      exact hRS x (by simp [references, Value.handle?]) y (by simp [references, Value.handle?]) hxy
  | cls hn hm =>
    refine .cls (hRS _ List.mem_cons_self _ List.mem_cons_self hn) (hm.mono fun x hx y hy hxy => ?_)
    exact hRS x (List.mem_cons_of_mem _ hx) y (List.mem_cons_of_mem _ hy) hxy
  | inst hc hf =>
    refine .inst (hRS _ List.mem_cons_self _ List.mem_cons_self hc) (hf.mono fun x hx y hy hxy => ?_)
    exact hRS x (List.mem_cons_of_mem _ hx) y (List.mem_cons_of_mem _ hy) hxy
  | bound hr hm =>
    refine .bound (hr.mono fun x y hx hy hxy => ?_)
      (hRS _ (List.mem_append_right _ List.mem_cons_self) _
        (List.mem_append_right _ List.mem_cons_self) hm)
    exact hRS x (List.mem_append_left _ (by simp [hx, Value.handle?])) y
      (List.mem_append_left _ (by simp [hy, Value.handle?])) hxy

end Object.Twin

end LoxMachine

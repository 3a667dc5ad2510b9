import LoxMachine.Proofs.Machine.Cellular

/-!
# Captured variables are shared cells

* `Cellular.Reflects r m`: each slot of the stack and each captured variable of `m`, whether it is on
  the stack or has been moved off it, has the value of its cell, and different variables have different
  cells.
* `InStep x y m r Q`: two actions, one on each machine, both end with the same answer and `Q`, or both
  fail in the same way.
* `lift_inStep`: an action that overlooks captured variables, and its lifted form.
-/

namespace LoxMachine

namespace Cellular

/-- **Each variable of `m` has the value of its cell.** -/
structure Reflects (r : Cellular) (m : Machine) : Prop where
  heap : r.heap = m.heap.blank
  frames : r.frames = m.frames
  globals : r.globals = m.globals
  initName : r.initName = m.initName
  sink : r.sink = m.sink
  clock : r.clock = m.clock
  nativeCalls : r.nativeCalls = m.nativeCalls
  /-- Each slot has the value of its cell. -/
  stack : r.stack.map r.cells = m.stack.toList
  /-- Different slots are different cells. -/
  nodup : r.stack.Nodup
  used : ∀ c ∈ r.stack, c < r.next
  /-- A captured variable on the stack is the cell of its slot. -/
  opened : ∀ {u : Handle} {slot : Nat}, m.heap.OnStack u slot →
    u ∈ m.openUpvalues ∧ r.stack[slot]? = some (r.cellOf u)
  /-- A captured variable off the stack has the value of its cell, which no slot is. -/
  closed : ∀ {u : Handle} {v : Value} {bytes : Nat},
    m.heap.cell? u = some ⟨.upvalue (.closed v), bytes⟩ →
      r.value u = v ∧ r.cellOf u < r.next ∧ r.cellOf u ∉ r.stack
  /-- Different captured variables are different cells. -/
  distinct : ∀ {u u' : Handle}, m.heap.kind? u = some .upvalue → m.heap.kind? u' = some .upvalue →
    r.cellOf u = r.cellOf u' → u = u'
  billed : m.heap.Billed

/-! ## Absorbing -/

variable {r : Cellular} {m m' : Machine} {height i c : Nat}

@[simp] theorem length_slots (r : Cellular) (height : Nat) : (r.slots height).length = height := by
  simp only [slots, List.length_append, List.length_take, List.length_range']
  omega

/-- A slot that stays keeps its cell. -/
theorem getElem?_slots_of_lt (hi : i < r.stack.length) (hh : i < height) :
    (r.slots height)[i]? = r.stack[i]? := by
  rw [slots, List.getElem?_append_left (by simp; omega), List.getElem?_take_of_lt hh]

theorem mem_slots : c ∈ r.slots height ↔ c ∈ r.stack.take height ∨
    (r.next ≤ c ∧ c < r.next + (height - r.stack.length)) := by
  rw [slots, List.mem_append, List.mem_range'_1]

theorem nodup_slots (hn : r.stack.Nodup) (hu : ∀ c ∈ r.stack, c < r.next) (height : Nat) :
    (r.slots height).Nodup := by
  refine List.nodup_append.2 ⟨hn.sublist (List.take_sublist _ _), List.nodup_range', ?_⟩
  rintro a ha b hb rfl
  have hlt := hu a (List.mem_of_mem_take ha)
  rw [List.mem_range'_1] at hb
  omega

/-- The cell of a slot has the value that is there. -/
theorem cells_absorb_of_slot (hn : r.stack.Nodup) (hu : ∀ c ∈ r.stack, c < r.next) {v : Value}
    (hi : (r.slots m.stack.size)[i]? = some c) (hv : m.stack[i]? = some v) :
    (r.absorb m).cells c = v := by
  obtain ⟨hlt, rfl⟩ := List.getElem?_eq_some_iff.1 hi
  simp only [absorb]
  rw [(nodup_slots hn hu _).idxOf_getElem, hv]
  rfl

/-- A cell that is no slot keeps its value. -/
theorem cells_absorb_of_notMem (hc : c ∉ r.slots m.stack.size) :
    (r.absorb m).cells c = r.cells c := by
  simp only [absorb]
  rw [List.idxOf_eq_length hc, length_slots, Array.getElem?_eq_none (Nat.le_refl _)]
  rfl

theorem stack_absorb (hn : r.stack.Nodup) (hu : ∀ c ∈ r.stack, c < r.next) (m : Machine) :
    (r.absorb m).stack.map (r.absorb m).cells = m.stack.toList := by
  refine List.ext_getElem? fun i => ?_
  rw [List.getElem?_map, Array.getElem?_toList]
  change (r.slots m.stack.size)[i]?.map _ = _
  by_cases hi : i < m.stack.size
  · have hlt : i < (r.slots m.stack.size).length := by simpa using hi
    have hc : (r.slots m.stack.size)[i]? = some (r.slots m.stack.size)[i] :=
      List.getElem?_eq_getElem hlt
    have hv : m.stack[i]? = some m.stack[i] := Array.getElem?_eq_getElem hi
    rw [hc, hv, Option.map_some, cells_absorb_of_slot hn hu hc hv]
  · rw [List.getElem?_eq_none (by simpa using hi), Array.getElem?_eq_none (by omega)]
    rfl

namespace Reflects

theorem length_stack (h : r.Reflects m) : r.stack.length = m.stack.size := by
  have hlength := congrArg List.length h.stack
  simpa using hlength

theorem cell_of_slot (h : r.Reflects m) (hc : r.stack[i]? = some c) :
    m.stack[i]? = some (r.cells c) := by
  have hi := congrArg (·[i]?) h.stack
  simp only [List.getElem?_map, hc, Option.map_some, Array.getElem?_toList] at hi
  exact hi.symm

/-- A captured variable on the stack has the value of its cell. -/
theorem value_of_slot (h : r.Reflects m) {u : Handle} {slot : Nat} (hu : m.heap.OnStack u slot) :
    m.stack[slot]? = some (r.value u) := h.cell_of_slot (h.opened hu).2

theorem slot_lt (h : r.Reflects m) {u : Handle} {slot : Nat} (hu : m.heap.OnStack u slot) :
    slot < m.stack.size := (Array.getElem?_eq_some_iff.1 (h.value_of_slot hu)).1

theorem kind?_blank (heap : Heap) (u : Handle) : heap.blank.kind? u = heap.kind? u := by
  rw [Heap.kind?, Heap.kind?, Heap.blank, Heap.cell?_fill, Option.map_map]
  cases heap.cell? u with
  | none => rfl
  | some cell => simp [Cell.fill]

/-- The captured variables with cells on the stack are those that are open. -/
theorem mem_captured_iff (h : r.Reflects m) {live : Handle → Prop} (hs : m.Safe live) (u : Handle) :
    u ∈ r.captured ↔ u ∈ m.openUpvalues := by
  have hobjects : r.heap.objects = m.heap.objects := by
    rw [h.heap]
    exact Heap.objects_fill _ m.heap
  simp only [captured, List.mem_filter, hobjects, decide_eq_true_eq]
  rw [h.heap, kind?_blank]
  constructor
  · rintro ⟨-, hk, hc⟩
    obtain ⟨o, bytes, hcell, hk⟩ := Heap.cell?_of_kind? hk
    cases o with
    | upvalue w =>
      cases w with
      | stacked slot => exact (h.opened ⟨bytes, hcell⟩).1
      | closed v => exact absurd hc (h.closed hcell).2.2
    | _ => cases hk
  · intro hu
    obtain ⟨-, slot, hslot⟩ := hs.opened u hu
    obtain ⟨bytes, hcell⟩ := hslot
    refine ⟨(h.billed.tidy.mem_objects u).2 (Heap.contains_of_cell? hcell),
      Heap.kind?_of_cell? hcell, List.mem_of_getElem? (h.opened ⟨bytes, hcell⟩).2⟩

/-- What is seen of the cells is the machine with the values of the cells in its captured
variables. -/
theorem view_eq (h : r.Reflects m) : r.view = m.veil r.value r.captured := by
  obtain ⟨heap, stack, frames, globals, openUpvalues, initName, sink, clock, nativeCalls⟩ := m
  unfold view Machine.veil
  have hheap := h.heap
  have hstack := h.stack
  dsimp only at hheap hstack ⊢
  rw [hstack, Array.toArray_toList, h.frames, h.globals, h.initName, h.sink, h.clock, h.nativeCalls]
  congr 1
  rw [hheap, Heap.fill_blank]

theorem covers (h : r.Reflects m) {live : Handle → Prop} (hs : m.Safe live) :
    m.Covers r.value r.captured :=
  ⟨h.billed.tidy, fun hc => (h.closed hc).1.symm, fun hu => h.value_of_slot hu,
    h.mem_captured_iff hs⟩

/-- **The stack, the calls or the objects change**, but no captured variable does. -/
theorem absorb (h : r.Reflects m) (hf : m.Follows m') (opened : List Handle)
    (hslots : ∀ u slot, m'.heap.OnStack u slot → slot < m'.stack.size) :
    (r.absorb (m'.veil r.value opened)).Reflects m' := by
  have hstack := stack_absorb h.nodup h.used (m'.veil r.value opened)
  have hclosed : ∀ {u : Handle}, r.cellOf u < r.next → r.cellOf u ∉ r.stack →
      r.cellOf u ∉ r.slots m'.stack.size := by
    intro u hlt hnot hmem
    rcases mem_slots.1 hmem with hmem | hmem
    · exact hnot (List.mem_of_mem_take hmem)
    · omega
  have hkind : ∀ {u : Handle}, m'.heap.kind? u = some .upvalue → m.heap.kind? u = some .upvalue := by
    intro u hu
    obtain ⟨o, bytes, hc, hk⟩ := Heap.cell?_of_kind? hu
    exact (Heap.kind?_of_cell? (hf.upvalues hc hk)).trans (congrArg some hk)
  refine ⟨Heap.blank_fill _ _, rfl, rfl, rfl, rfl, rfl, rfl, hstack, nodup_slots h.nodup h.used _,
    fun c hc => ?_, fun {u slot} hu => ?_, fun {u v bytes} hu => ?_, fun {u u'} hu hu' heq => ?_,
    hf.billed h.billed⟩
  · change c < r.next + (m'.stack.size - r.stack.length)
    rcases mem_slots.1 hc with hc | hc
    · have := h.used c (List.mem_of_mem_take hc)
      omega
    · exact hc.2
  · obtain ⟨bytes, hcell⟩ := hu
    have hold : m.heap.OnStack u slot := ⟨bytes, hf.upvalues hcell rfl⟩
    obtain ⟨hmem, hc⟩ := h.opened hold
    refine ⟨hf.opened ▸ hmem, ?_⟩
    exact (getElem?_slots_of_lt (List.getElem?_eq_some_iff.1 hc).1 (hslots u slot ⟨bytes, hcell⟩)).trans
      hc
  · obtain ⟨hv, hlt, hnot⟩ := h.closed (hf.upvalues hu rfl)
    refine ⟨?_, ?_, hclosed hlt hnot⟩
    · exact (cells_absorb_of_notMem (hclosed hlt hnot)).trans hv
    · change r.cellOf u < r.next + _
      omega
  · exact h.distinct (hkind hu) (hkind hu') heq

end Reflects

end Cellular

/-! ## Two machines -/

section InStep

variable {α β : Type} {x : Run α} {y : Cells α} {m : Machine} {r : Cellular}
  {Q Q' : α → Machine → Cellular → Prop} {R : β → Machine → Cellular → Prop}

/-- Both actions end with the same answer and `Q`, or both fail in the same way. -/
def InStep (x : Run α) (y : Cells α) (m : Machine) (r : Cellular)
    (Q : α → Machine → Cellular → Prop) : Prop :=
  match x m, y r with
  | .ok a m', .ok b r' => a = b ∧ Q a m' r'
  | .error e m', .error e' r' => e = e' ∧ m'.sink = r'.sink
  | _, _ => False

namespace InStep

theorem ok {a : α} {n : Machine} {s : Cellular} (hx : x m = .ok a n) (hy : y r = .ok a s)
    (hQ : Q a n s) : InStep x y m r Q := by
  unfold InStep
  rw [hx, hy]
  exact ⟨rfl, hQ⟩

theorem error {e : Failure} {n : Machine} {s : Cellular} (hx : x m = .error e n)
    (hy : y r = .error e s) (hs : n.sink = s.sink) : InStep x y m r Q := by
  unfold InStep
  rw [hx, hy]
  exact ⟨rfl, hs⟩

theorem cases (h : InStep x y m r Q) :
    (∃ a m' r', x m = .ok a m' ∧ y r = .ok a r' ∧ Q a m' r') ∨
      ∃ e m' r', x m = .error e m' ∧ y r = .error e r' ∧ m'.sink = r'.sink := by
  unfold InStep at h
  split at h
  · rename_i a m' b r' hx hy
    obtain ⟨rfl, hQ⟩ := h
    exact Or.inl ⟨a, m', r', hx, hy, hQ⟩
  · rename_i e m' e' r' hx hy
    obtain ⟨rfl, hs⟩ := h
    exact Or.inr ⟨e, m', r', hx, hy, hs⟩
  · exact h.elim

theorem mono (h : InStep x y m r Q) (hQ : ∀ a m' r', x m = .ok a m' → Q a m' r' → Q' a m' r') :
    InStep x y m r Q' := by
  rcases h.cases with ⟨a, m', r', hx, hy, h⟩ | ⟨e, m', r', hx, hy, hs⟩
  · exact .ok hx hy (hQ a m' r' hx h)
  · exact .error hx hy hs

theorem bind {g : α → Run β} {k : α → Cells β} (h : InStep x y m r Q)
    (hg : ∀ a m' r', x m = .ok a m' → Q a m' r' → InStep (g a) (k a) m' r' R) :
    InStep (x >>= g) (y >>= k) m r R := by
  rcases h.cases with ⟨a, m', r', hx, hy, h⟩ | ⟨e, m', r', hx, hy, hs⟩
  · have hleft : (x >>= g) m = g a m' := by simp [Bind.bind, EStateM.bind, hx]
    have hright : (y >>= k) r = k a r' := by simp [Bind.bind, EStateM.bind, hy]
    have hnext := hg a m' r' hx h
    unfold InStep at hnext ⊢
    rw [hleft, hright]
    exact hnext
  · refine .error (n := m') (s := r') (e := e) ?_ ?_ hs
    · simp [Bind.bind, EStateM.bind, hx]
    · simp [Bind.bind, EStateM.bind, hy]

theorem pure {a : α} (h : Q a m r) : InStep (pure a) (pure a) m r Q := ⟨rfl, h⟩

/-- Something happens on the first machine only. -/
theorem left {a : α} {m' : Machine} {g : α → Run β} {k : Cells β} (hx : x m = .ok a m')
    (h : InStep (g a) k m' r R) : InStep (x >>= g) k m r R := by
  have hleft : (x >>= g) m = g a m' := by simp [Bind.bind, EStateM.bind, hx]
  unfold InStep at h ⊢
  rw [hleft]
  exact h

/-- The states are read. -/
theorem get {g : Machine → Run β} {k : Cellular → Cells β} (h : InStep (g m) (k r) m r R) :
    InStep (MonadState.get >>= g) (MonadState.get >>= k) m r R := h

theorem modify {f : Machine → Machine} {k : Cellular → Cellular}
    {Q : Unit → Machine → Cellular → Prop} (h : Q () (f m) (k r)) :
    InStep (modify f) (modify k) m r Q := ⟨rfl, h⟩

/-- What is known of the first action. -/
theorem meets (h : InStep x y m r Q) {P : α → Machine → Prop} (hx : Run.Meets x m P) :
    InStep x y m r fun a m' r' => P a m' ∧ Q a m' r' :=
  h.mono fun a m' r' hxm hQ => by
    unfold Run.Meets Run.Ends at hx
    rw [hxm] at hx
    exact ⟨hx, hQ⟩

end InStep

end InStep

namespace Cellular

variable {α : Type} {x : Run α} {r : Cellular} {m : Machine}

theorem lift_of_ok {a : α} (hx : x r.view = .ok a m) : lift x r = .ok a (r.absorb m) := by
  unfold lift
  rw [hx]

theorem lift_of_error {e : Failure} (hx : x r.view = .error e m) :
    lift x r = .error e (r.absorb m) := by
  unfold lift
  rw [hx]

/-- **An action that overlooks captured variables, and its lifted form.** -/
theorem lift_inStep (h : r.Reflects m) (hx : Run.Overlooks r.value r.captured x m)
    (hslots : ∀ a m', x m = .ok a m' → m.Follows m' → ∀ u ∈ m'.openUpvalues, ∀ slot,
      m'.heap.OnStack u slot → slot < m'.stack.size) :
    InStep x (lift x) m r fun _ m' r' => r'.Reflects m' := by
  unfold Run.Overlooks at hx
  cases hm : x m with
  | error e m' =>
    rw [hm] at hx
    have hx : x r.view = .error e (m'.veil r.value r.captured) := h.view_eq ▸ hx
    exact .error hm (lift_of_error hx) rfl
  | ok a m' =>
    rw [hm] at hx
    obtain ⟨hx, hfollows⟩ := hx
    have hx : x r.view = .ok a (m'.veil r.value r.captured) := h.view_eq ▸ hx
    refine .ok hm (lift_of_ok hx) (h.absorb hfollows _ fun u slot hu => ?_)
    refine hslots a m' hm hfollows u ?_ slot hu
    obtain ⟨bytes, hcell⟩ := hu
    rw [hfollows.opened]
    exact (h.opened ⟨bytes, hfollows.upvalues hcell rfl⟩).1

/-- An action that reads. -/
theorem reading_inStep [hx : Run.Reading x] (h : r.Reflects m) :
    InStep x (lift x) m r fun _ m' r' => r'.Reflects m' ∧ m'.heap = m.heap ∧
      m'.stack = m.stack ∧ m'.openUpvalues = m.openUpvalues := by
  refine (lift_inStep h (Run.Overlooking.overlooks _ _ m) fun a m' hm _ u _ slot hu => ?_).mono
    fun a m' r' hm hr => ⟨hr, hx.same hm⟩
  obtain ⟨hheap, hstack, -⟩ := hx.same hm
  rw [hstack]
  exact h.slot_lt (hheap ▸ hu)

end Cellular

end LoxMachine

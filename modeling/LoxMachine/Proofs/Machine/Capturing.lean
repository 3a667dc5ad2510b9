import LoxMachine.Proofs.Machine.Variables

/-!
# Making closures on both machines

A local function can capture the variable that will hold it, which is in a slot that is not there yet.
The machine with cells has that slot already, so the two are compared with a slot more on the first.

* `Machine.pad`: the machine with one more slot on its stack. `Stackless` actions do not see it.
* `captureUpvalue_inStep`: a variable that is captured again is found, by its slot on one machine and
  by its cell on the other.
* `makeClosure_inStep`: a closure is made.
-/

namespace LoxMachine

variable {α β : Type} {m m' : Machine} {r : Cellular}

/-! ## A slot more -/

/-- The machine with one more slot on its stack, whose value is yet to come. -/
def Machine.pad (m : Machine) : Machine := { m with stack := m.stack.push .nil }

namespace Run

/-- The action does not see a slot more on the stack. -/
class Stackless (x : Run α) : Prop where
  pad : ∀ m, x m.pad = match x m with
    | .ok a m' => .ok a m'.pad
    | .error e m' => .error e m'.pad

theorem Stackless.bind {x : Run α} {g : α → Run β} [hx : Stackless x] (hg : ∀ a, Stackless (g a)) :
    Stackless (x >>= g) where
  pad m := by
    have h := hx.pad m
    cases hm : x m with
    | error e m' =>
      rw [hm] at h
      simp [Bind.bind, EStateM.bind, hm, h]
    | ok a m' =>
      rw [hm] at h
      have hnext := (hg a).pad m'
      simp only [Bind.bind, EStateM.bind, hm, h, hnext]

instance {x : Run α} {g : α → Run β} [Stackless x] [hg : ∀ a, Stackless (g a)] :
    Stackless (x >>= g) := .bind hg

instance (a : α) : Stackless (pure a : Run α) := ⟨fun _ => rfl⟩

instance (e : RuntimeError) : Stackless (fail e : Run α) := ⟨fun _ => rfl⟩

theorem Stackless.get {g : Machine → Run β} (hpad : ∀ m, g m.pad = g m)
    (hg : ∀ m, Stackless (g m)) : Stackless (MonadState.get >>= g) where
  pad m := by
    have h := (hg m).pad m
    change g m.pad m.pad = match g m m with
      | .ok a m' => .ok a m'.pad
      | .error e m' => .error e m'.pad
    rw [hpad, h]

instance (q : Heap → Except Fault α) : Stackless (look q) := by
  unfold look
  refine .get (fun _ => rfl) fun m => ?_
  cases q m.heap with
  | ok a => exact inferInstanceAs (Stackless (pure a))
  | error e => exact ⟨fun _ => rfl⟩

instance : Stackless frame := by
  unfold frame
  refine .get (fun _ => rfl) fun m => ?_
  cases m.frames <;> infer_instance

instance (ip : Nat) : Stackless (jumpTo ip) where
  pad m := by
    obtain ⟨heap, stack, frames, globals, openUpvalues, initName, sink, clock, nativeCalls⟩ := m
    cases frames <;> rfl

instance : Stackless readByte := by
  unfold readByte runningChunk
  refine .bind fun f => ?_
  simp only [bind_assoc, pure_bind]
  refine .bind fun g => ?_
  cases g.chunk.read8 f.ip <;> infer_instance

instance (kind : ObjectKind) : Stackless (readObject kind) := by
  unfold readObject runningChunk requireKind asKind
  refine .bind fun index => .bind fun f => ?_
  simp only [bind_assoc, pure_bind]
  refine .bind fun g => ?_
  cases g.chunk.constants[index.toNat]? with
  | none => infer_instance
  | some v => exact .bind fun h => by cases h <;> infer_instance

instance (index : UInt8) : Stackless (frameUpvalue index) := by
  unfold frameUpvalue
  refine .bind fun f => .bind fun c => ?_
  cases c.upvalues[index.toNat]? <;> infer_instance

theorem roots_pad (m : Machine) : m.pad.roots = m.roots := by
  simp [Machine.roots, Machine.handles, Machine.pad, Value.handle?]

instance (o : Object) : Stackless (alloc o) where
  pad m := by
    have hroots : (Thunk.mk fun _ => m.pad.roots) = Thunk.mk fun _ => m.roots := by
      rw [roots_pad]
    change (let p := m.heap.alloc (.mk fun _ => m.pad.roots) o;
      EStateM.Result.ok p.1 { m.pad with heap := p.2 }) = _
    rw [hroots]
    rfl

end Run

/-- Two actions, one of which does not see the slot that the other machine has more. -/
theorem InStep.padded {x : Run α} {y : Cells α} [hx : Run.Stackless x]
    {Q : α → Machine → Cellular → Prop} (h : InStep x y m.pad r Q) :
    InStep x y m r fun a m' r' => Q a m'.pad r' := by
  have hpad := hx.pad m
  unfold InStep at h ⊢
  rw [hpad] at h
  cases hm : x m with
  | ok a m' =>
    rw [hm] at h
    cases hy : y r with
    | ok b r' =>
      rw [hy] at h
      exact h
    | error e r' =>
      rw [hy] at h
      exact h.elim
  | error e m' =>
    rw [hm] at h
    cases hy : y r with
    | ok b r' =>
      rw [hy] at h
      exact h.elim
    | error e' r' =>
      rw [hy] at h
      exact h

namespace Cellular

/-- A slot is there for a variable whose value is yet to come. -/
theorem Reflects.reserve (hr : r.Reflects m) :
    { r with cells := Function.update r.cells r.next .nil, next := r.next + 1,
             stack := r.stack ++ [r.next] }.Reflects m.pad := by
  have hne : ∀ c, c < r.next → Function.update r.cells r.next .nil c = r.cells c :=
    fun c hc => Function.update_of_ne hc.ne _ _
  refine ⟨hr.heap, hr.frames, hr.globals, hr.initName, hr.sink, hr.clock, hr.nativeCalls, ?_, ?_,
    fun c hc => ?_, fun {u slot} hu => ?_, fun {u v bytes} hu => ?_, hr.distinct, hr.billed⟩
  · change (r.stack ++ [r.next]).map _ = (m.stack.push .nil).toList
    rw [List.map_append, Array.toList_push, ← hr.stack]
    congr 1
    · exact List.map_congr_left fun c hc => hne c (hr.used c hc)
    · simp
  · refine List.nodup_append.2 ⟨hr.nodup, List.nodup_singleton _, ?_⟩
    rintro a ha b hb rfl
    rw [List.mem_singleton] at hb
    exact (hr.used a ha).ne hb
  · change c < r.next + 1
    rcases List.mem_append.1 hc with hc | hc
    · exact Nat.lt_succ_of_lt (hr.used c hc)
    · rw [List.mem_singleton.1 hc]
      exact Nat.lt_succ_self _
  · obtain ⟨hmem, hc⟩ := hr.opened hu
    exact ⟨hmem, (List.getElem?_append_left (List.getElem?_eq_some_iff.1 hc).1).trans hc⟩
  · obtain ⟨hv, hlt, hnot⟩ := hr.closed hu
    refine ⟨(hne _ hlt).trans hv, Nat.lt_succ_of_lt hlt, fun hmem => ?_⟩
    rcases List.mem_append.1 hmem with hmem | hmem
    · exact hnot hmem
    · exact hlt.ne (List.mem_singleton.1 hmem)

/-- An action that reads, before a slot is filled. -/
theorem reading_padded {x : Run α} [Run.Reading x] [Run.Stackless x] (hr : r.Reflects m.pad) :
    InStep x (lift x) m r fun _ m' r' => r'.Reflects m'.pad :=
  (reading_inStep hr).padded.mono fun _ _ _ _ h => h.1

/-! ## Capturing -/

variable {live : Handle → Prop} {k : Call} {outer : List Call} {marks : Shape} {n : Nat}

theorem safe_pad (hs : m.Safe live) : m.pad.Safe live :=
  hs.stack_to fun x hx => by
    rcases Array.mem_push.1 hx with hx | hx
    · exact hs.stack x hx
    · cases hx

theorem kind?_of_onStack {heap : Heap} {u : Handle} {slot : Nat} (hu : heap.OnStack u slot) :
    heap.kind? u = some .upvalue := by
  obtain ⟨bytes, hc⟩ := hu
  exact Heap.kind?_of_cell? hc

/-- The variables whose cells are on the stack are in slots of the stack. -/
theorem Reflects.slot_of_captured (hr : r.Reflects m) (hs : m.Safe live) {u : Handle}
    (hu : u ∈ r.captured) : ∃ slot, m.heap.OnStack u slot ∧ r.stack[slot]? = some (r.cellOf u) := by
  obtain ⟨-, slot, hslot⟩ := hs.opened u ((hr.mem_captured_iff hs u).1 hu)
  exact ⟨slot, hslot, (hr.opened hslot).2⟩

/-- A captured variable is found by its cell. -/
theorem Reflects.find_captured (hr : r.Reflects m) (hs : m.Safe live) {u : Handle} {index c : Nat}
    (hu : m.heap.OnStack u index) (hc : r.stack[index]? = some c) :
    r.captured.find? (r.cellOf · = c) = some u := by
  obtain ⟨hopen, hcell⟩ := hr.opened hu
  rw [hc] at hcell
  have hcu : r.cellOf u = c := (Option.some.inj hcell).symm
  cases hfind : r.captured.find? (r.cellOf · = c) with
  | none =>
    have hnone := List.find?_eq_none.1 hfind u ((hr.mem_captured_iff hs u).2 hopen)
    simp [hcu] at hnone
  | some u' =>
    have hcu' : r.cellOf u' = c := by simpa using List.find?_some hfind
    obtain ⟨slot, hslot, -⟩ := hr.slot_of_captured hs (List.mem_of_find?_eq_some hfind)
    rw [hr.distinct (kind?_of_onStack hslot) (kind?_of_onStack hu) (hcu'.trans hcu.symm)]

/-- A cell on the stack that no slot of a captured variable is belongs to none. -/
theorem Reflects.cellOf_ne (hr : r.Reflects m) {u : Handle} {index c : Nat}
    (hc : r.stack[index]? = some c) (hnone : ¬m.heap.OnStack u index)
    (hu : m.heap.kind? u = some .upvalue) : r.cellOf u ≠ c := by
  rintro rfl
  obtain ⟨o, bytes, hcell, hk⟩ := Heap.cell?_of_kind? hu
  cases o with
  | upvalue w =>
    cases w with
    | stacked slot =>
      have hslot := (hr.opened ⟨bytes, hcell⟩).2
      have hlt := (List.getElem?_eq_some_iff.1 hc).1
      obtain rfl := (List.getElem?_inj hlt hr.nodup).1 (hc.trans hslot.symm)
      exact hnone ⟨bytes, hcell⟩
    | closed v => exact (hr.closed hcell).2.2 (List.mem_of_getElem? hc)
  | _ => cases hk

theorem Reflects.find_none (hr : r.Reflects m) (hs : m.Safe live) {index c : Nat}
    (hnone : ∀ u, ¬m.heap.OnStack u index) (hc : r.stack[index]? = some c) :
    r.captured.find? (r.cellOf · = c) = none := by
  refine List.find?_eq_none.2 fun u hu => ?_
  obtain ⟨slot, hslot, -⟩ := hr.slot_of_captured hs hu
  simpa using hr.cellOf_ne hc (hnone u) (kind?_of_onStack hslot)

/-- **A captured variable is made** for a slot that has none. -/
theorem Reflects.open (hr : r.Reflects m) {index c : Nat} (hc : r.stack[index]? = some c)
    (hnone : ∀ u, ¬m.heap.OnStack u index) (roots : Thunk (List Handle)) {opened : List Handle}
    (hopened : ∀ u, u ∈ m.openUpvalues → u ∈ opened)
    (hnew : (m.heap.alloc roots (.upvalue (.stacked index))).1 ∈ opened) :
    { r with heap := (m.heap.alloc roots (.upvalue (.stacked index))).2.blank,
             cellOf := Function.update r.cellOf
               (m.heap.alloc roots (.upvalue (.stacked index))).1 c }.Reflects
      { m with heap := (m.heap.alloc roots (.upvalue (.stacked index))).2, openUpvalues := opened } := by
  have ha := Heap.alloc_allocates hr.billed.tidy roots (.upvalue (.stacked index))
  have hbilled := hr.billed.alloc roots (.upvalue (.stacked index))
  generalize m.heap.alloc roots (.upvalue (.stacked index)) = made at *
  obtain ⟨h, heap⟩ := made
  dsimp only at *
  have hkind : ∀ {u : Handle}, u ≠ h → heap.kind? u = some .upvalue →
      m.heap.kind? u = some .upvalue := by
    intro u hne hu
    obtain ⟨o, bytes, hcell, hk⟩ := Heap.cell?_of_kind? hu
    exact (Heap.kind?_of_cell? (ha.old hne hcell)).trans (congrArg some hk)
  have hother : ∀ {u : Handle}, u ≠ h → Function.update r.cellOf h c u = r.cellOf u :=
    fun hne => Function.update_of_ne hne _ _
  refine ⟨rfl, hr.frames, hr.globals, hr.initName, hr.sink, hr.clock, hr.nativeCalls, hr.stack,
    hr.nodup, hr.used, fun {u slot} hu => ?_, fun {u v bytes} hu => ?_, fun {u u'} hu hu' heq => ?_,
    hbilled⟩
  · obtain ⟨bytes, hcell⟩ := hu
    by_cases hne : u = h
    · subst hne
      change heap.cell? u = _ at hcell
      rw [ha.new] at hcell
      cases hcell
      exact ⟨hnew, by simpa using hc⟩
    · obtain ⟨hmem, hslot⟩ := hr.opened ⟨bytes, ha.old hne hcell⟩
      exact ⟨hopened u hmem, by simpa [hother hne] using hslot⟩
  · by_cases hne : u = h
    · subst hne
      change heap.cell? u = _ at hu
      rw [ha.new] at hu
      cases hu
    · have hclosed := hr.closed (ha.old hne hu)
      simpa [value, hother hne] using hclosed
  · change heap.kind? u = _ at hu
    change heap.kind? u' = _ at hu'
    by_cases hne : u = h
    · by_cases hne' : u' = h
      · rw [hne, hne']
      · simp only [hne, Function.update_self, hother hne'] at heq
        exact absurd heq.symm (hr.cellOf_ne hc (hnone u') (hkind hne' hu'))
    · by_cases hne' : u' = h
      · simp only [hne', Function.update_self, hother hne] at heq
        exact absurd heq (hr.cellOf_ne hc (hnone u) (hkind hne hu))
      · simp only [hother hne, hother hne'] at heq
        exact hr.distinct (hkind hne hu) (hkind hne' hu') heq

/-- Something that leaves the stack as it is happens to the view. -/
theorem Reflects.absorb_same (hr : r.Reflects m) (hstack : m'.stack = r.view.stack) :
    r.absorb m' = { heap := m'.heap.blank, cells := r.cells, next := r.next, stack := r.stack,
                    cellOf := r.cellOf, frames := m'.frames, globals := m'.globals,
                    initName := m'.initName, sink := m'.sink, clock := m'.clock,
                    nativeCalls := m'.nativeCalls } := by
  have hview : r.view.stack = m.stack := by rw [hr.view_eq]; rfl
  have hshrink : m'.stack = r.view.stack.shrink m.stack.size := by
    rw [hstack, hview]
    apply Array.ext'
    rw [Array.toList_shrink, ← Array.length_toList, List.take_length]
  rw [hr.absorb_shrink le_rfl hshrink, ← hr.length_stack, List.take_length]

/-- A captured variable is made with a cell that none has. -/
theorem capture_new (hr : r.Reflects m) (hs : m.Safe live) {index c : Nat}
    (hc : r.stack[index]? = some c) (hnone : ∀ u, ¬m.heap.OnStack u index) :
    capture c r = .ok (m.heap.alloc (.mk fun _ => m.roots) (.upvalue (.stacked index))).1
      { r with
        heap := (m.heap.alloc (.mk fun _ => m.roots) (.upvalue (.stacked index))).2.blank
        cellOf := Function.update r.cellOf
          (m.heap.alloc (.mk fun _ => m.roots) (.upvalue (.stacked index))).1 c } := by
  have hfill := Heap.alloc_fill (hr.covers hs).tidy (.mk fun _ => m.roots)
    (.mk fun _ => (m.veil r.value r.captured).roots) (.upvalue (.stacked index)) .nil
    ((hr.covers hs).fills [])
  set made := m.heap.alloc (.mk fun _ => m.roots) (.upvalue (.stacked index)) with hmade
  have halloc : Run.alloc (.upvalue (.closed .nil)) r.view = .ok made.1
      { r.view with heap := made.2.fill (Function.update r.value made.1 .nil) } := by
    rw [hr.view_eq]
    exact congrArg (fun p : Handle × Heap => EStateM.Result.ok p.1
      { m.veil r.value r.captured with heap := p.2 }) hfill
  have hlift := (lift_of_ok halloc).trans (congrArg _ (hr.absorb_same rfl))
  have hunfold : capture c r = (lift (Run.alloc (.upvalue (.closed .nil))) >>= fun h => do
      modify fun r => { r with cellOf := Function.update r.cellOf h c }
      return h) r := by
    unfold capture
    rw [Run.get_bind, hr.find_none hs hnone hc]
    rfl
  rw [hunfold]
  simp only [bind, EStateM.bind, hlift]
  change EStateM.Result.ok _ ({ r with heap := (Heap.fill _ _).blank, cellOf := _ } : Cellular) = _
  rw [Heap.blank_fill]

/-- **The variable of a slot is captured**, and found again if it has been captured before. -/
theorem captureUpvalue_inStep {index : Nat} (hr : r.Reflects m.pad) (hs : m.Safe live)
    (hindex : index ≤ m.stack.size) :
    InStep (Run.captureUpvalue index) (captureAt index) m r fun _ m' r' => r'.Reflects m'.pad := by
  have hlt : index < r.stack.length := by
    rw [hr.length_stack]
    change index < (m.stack.push .nil).size
    rw [Array.size_push]
    omega
  obtain ⟨c, hc⟩ : ∃ c, r.stack[index]? = some c := ⟨_, List.getElem?_eq_getElem hlt⟩
  have hright : (cellAt index >>= capture) r = capture c r := by
    rw [cellAt_bind, hc]
  have hs' := safe_pad hs
  rcases Run.searchOpen_spec index (fun u hu => (hs.opened u hu).2) hs.sorted with
    ⟨u, before, hfound, -, hslot⟩ | ⟨high, low, hsplit, hnone, hhigh, hlow⟩
  · refine .ok (a := u) (n := m) (s := r) ?_ (hright.trans ?_) hr
    · unfold Run.captureUpvalue
      change (Run.look (Run.searchOpen · index m.openUpvalues) >>= _) m = _
      rw [Run.look_bind_ok hfound]
      rfl
    · unfold capture
      rw [Run.get_bind, hr.find_captured hs' hslot hc]
      rfl
  · have hno : ∀ u, ¬m.heap.OnStack u index := by
      intro u hu
      have hmem := (hr.opened hu).1
      change u ∈ m.openUpvalues at hmem
      rw [hsplit] at hmem
      rcases List.mem_append.1 hmem with hmem | hmem
      · exact lt_irrefl _ (hhigh u hmem index hu)
      · exact lt_irrefl _ (hlow u hmem index hu)
    have hnew := capture_new hr hs' hc hno
    have hroots : (Thunk.mk fun _ => m.pad.roots) = Thunk.mk fun _ => m.roots := by
      rw [Run.roots_pad]
    rw [hroots] at hnew
    change capture c r = .ok (m.heap.alloc (.mk fun _ => m.roots) _).1 _ at hnew
    refine .ok (n := { m with
      heap := (m.heap.alloc (.mk fun _ => m.roots) (.upvalue (.stacked index))).2
      openUpvalues := m.openUpvalues.insertIdx high.length
        (m.heap.alloc (.mk fun _ => m.roots) (.upvalue (.stacked index))).1 }) ?_
      (hright.trans hnew) ?_
    · unfold Run.captureUpvalue
      change (Run.look (Run.searchOpen · index m.openUpvalues) >>= _) m = _
      rw [Run.look_bind_ok hnone]
      rfl
    · have hle : high.length ≤ m.openUpvalues.length := by simp [hsplit]
      exact hr.open hc hno _ (fun u hu => (List.mem_insertIdx hle).2 (Or.inr hu))
        ((List.mem_insertIdx hle).2 (Or.inl rfl))

/-! ## Closures -/

/-- **The variables that a closure captures**, one after another. -/
theorem captures_inStep (caps : List Capture) {base : Nat} {upvalues : Array Handle}
    (h : m.Busy live k outer marks n) (hmarks : marks.length ≤ n + 1) (hbase : k.frame.base = base)
    (hb : k.Reads (caps.flatMap Capture.bytes)) (hoffers : ∀ c ∈ caps, Run.Offers k marks c)
    (hr : r.Reflects m.pad) :
    InStep (Run.captures base caps.length upvalues) (captures base caps.length upvalues) m r
      fun _ m' r' => r'.Reflects m'.pad := by
  induction caps generalizing k m r live upvalues with
  | nil => exact .pure hr
  | cons c caps ih =>
    have hb' : k.Reads ((if c.isLocal then 1 else 0) :: c.index :: caps.flatMap Capture.bytes) := hb
    have hoffer := hoffers c List.mem_cons_self
    unfold Run.captures captures
    refine ((reading_padded hr).meets (Run.readByte_meets h hb')).bind fun origin m₁ r₁ _ h₁ => ?_
    obtain ⟨⟨rfl, h₁, -⟩, hr₁⟩ := h₁
    refine ((reading_padded hr₁).meets (Run.readByte_meets h₁ hb'.tail)).bind
      fun index m₂ r₂ _ h₂ => ?_
    obtain ⟨⟨rfl, h₂, -⟩, hr₂⟩ := h₂
    have hnext : ∀ {u : Handle} {m₃ : Machine} {r₃ : Cellular},
        (∃ live, m₃.Busy live ((k.skip 1).skip 1) outer marks n) → r₃.Reflects m₃.pad →
        InStep (Run.captures base caps.length (upvalues.push u))
          (captures base caps.length (upvalues.push u)) m₃ r₃ fun _ m' r' => r'.Reflects m'.pad := by
      rintro u m₃ r₃ ⟨live', h₃⟩ hr₃
      exact ih h₃ hbase hb'.tail.tail (fun c' hc' => hoffers c' (List.mem_cons_of_mem _ hc')) hr₃
    unfold Run.Offers at hoffer
    cases hlocal : c.isLocal with
    | true =>
      rw [hlocal, if_pos rfl, hbase] at hoffer
      have hindex : base + c.index.toNat ≤ m₂.stack.size := by
        have := Shape.lt_length_of_slot? hoffer
        rw [h₂.size_eq]
        omega
      refine ((captureUpvalue_inStep hr₂ h₂.toSafe hindex).meets
        (Run.captureUpvalue_meets h₂ hoffer)).bind fun u m₃ r₃ _ h₃ => ?_
      exact hnext h₃.1.1.busy h₃.2
    | false =>
      rw [hlocal] at hoffer
      refine ((reading_padded hr₂).meets (Run.frameUpvalue_meets h₂ hoffer)).bind
        fun u m₃ r₃ _ h₃ => ?_
      obtain ⟨⟨rfl, -⟩, hr₃⟩ := h₃
      exact hnext ⟨live, h₂⟩ hr₃

/-- The slot that was there before its value gets it. -/
theorem fill_inStep (hr : r.Reflects m.pad) (v : Value) :
    InStep (Run.push v) (do
      lift (Run.poke 0 v)
      if maxStack < (← get).stack.length then throw (.error .stackOverflow)) m r
      fun _ m' r' => r'.Reflects m' := by
  have hpoke : Run.poke 0 v m.pad = .ok () { m with stack := m.stack.push v } := by
    have hbelow : Run.below 0 m.pad = .ok m.stack.size m.pad := by
      unfold Run.below
      change (if 0 < m.pad.stack.size then _ else _ : Run Nat) m.pad = _
      have hsize : m.pad.stack.size = m.stack.size + 1 := Array.size_push _
      rw [if_pos (by omega)]
      change EStateM.Result.ok (m.pad.stack.size - 1 - 0) m.pad = _
      rw [hsize]
      rfl
    have hput : put m.pad.stack m.stack.size v = m.stack.push v := by
      refine Array.ext_getElem? fun i => ?_
      by_cases hi : m.stack.size = i
      · subst hi
        rw [getElem?_put_self _ (by simp [Machine.pad])]
        simp
      · rw [getElem?_put_ne _ _ hi]
        simp [Machine.pad, Array.getElem?_push, Ne.symm hi]
    unfold Run.poke
    simp only [bind, EStateM.bind, hbelow, setSlot_eq]
    rw [if_pos (by simp [Machine.pad]), hput]
    rfl
  have hlift := lift_inStep hr (Run.Overlooking.overlooks (x := Run.poke 0 v) _ _ m.pad)
    fun _ m' hm _ u _ slot hu => ?_
  · rcases hlift.cases with ⟨_, m', r', hm, hy, hr'⟩ | ⟨e, m', r', hm, -⟩
    · rw [hpoke] at hm
      cases hm
      have hlength : r'.stack.length = m.stack.size + 1 := by
        rw [hr'.length_stack]
        exact Array.size_push _
      have hpush := push_eq m v
      by_cases hfull : maxStack ≤ m.stack.size
      · rw [if_pos hfull] at hpush
        refine .error hpush (s := r') ?_ ?_
        · simp only [bind, EStateM.bind, hy]
          change (if maxStack < r'.stack.length then _ else _ : Cells Unit) r' = _
          rw [if_pos (by omega)]
          rfl
        · exact hr'.sink.symm
      · rw [if_neg hfull] at hpush
        refine .ok hpush (s := r') ?_ hr'
        simp only [bind, EStateM.bind, hy]
        change (if maxStack < r'.stack.length then _ else _ : Cells Unit) r' = _
        rw [if_neg (by omega)]
        rfl
    · rw [hpoke] at hm
      cases hm
  · rw [hpoke] at hm
    cases hm
    change slot < (m.stack.push v).size
    have hlt := hr.slot_lt (m := m.pad) hu
    change slot < (m.stack.push .nil).size at hlt
    rw [Array.size_push] at hlt ⊢
    exact hlt

/-- **A closure is made.** -/
theorem makeClosure_inStep {i : UInt8} {caps : List Capture} (h : m.Busy live k outer marks n)
    (hmarks : marks.length ≤ n + 1) (hb : k.Reads (i :: caps.flatMap Capture.bytes))
    (hi : k.pool.constants[i.toNat]? = some (.function caps.length))
    (hoffers : ∀ c ∈ caps, Run.Offers k marks c) (hr : r.Reflects m) :
    InStep Run.makeClosure makeClosure m r fun _ m' r' => r'.Reflects m' := by
  unfold makeClosure
  -- on the machine with cells the variable of the closure is there first
  have hreserve : InStep (pure ()) reserve m r fun _ m' r' => r'.Reflects m'.pad ∧ m' = m :=
    .ok (n := m) rfl rfl ⟨hr.reserve, rfl⟩
  refine hreserve.bind (g := fun _ => Run.makeClosure) fun _ m₀ r₀ _ h₀ => ?_
  obtain ⟨hr₀, rfl⟩ := h₀
  unfold Run.makeClosure
  have hkind : ∀ v, m₀.heap.constantKind v = .function caps.length → ∃ x cell, v = .obj x ∧
      m₀.heap.cell? x = some cell ∧ cell.object.kind = .function := by
    intro v hv
    cases v with
    | obj x =>
      obtain ⟨f, bytes, hcell, -⟩ := Heap.constantKind_eq_function_iff.1 hv
      exact ⟨x, _, rfl, hcell, rfl⟩
    | _ => simp [Heap.constantKind] at hv
  refine ((reading_padded hr₀).meets (Run.readObject_meets h hb hi hkind)).bind fun function m₁ r₁ _ h₁ => ?_
  obtain ⟨⟨-, h₁, -, -, hx⟩, hr₁⟩ := h₁
  obtain ⟨-, -, hkind⟩ := Run.function_of_pool h₁ hi hx
  obtain ⟨f, bytes, hcell, hcount⟩ := Heap.constantKind_eq_function_iff.1 hkind
  have hfunction : Run.Meets (Run.look (·.function function)) m₁ fun f' m' => f' = f ∧ m' = m₁ :=
    .look (Heap.function_eq_ok_iff.2 ⟨bytes, hcell⟩) ⟨rfl, rfl⟩
  refine ((reading_padded hr₁).meets hfunction).bind fun f' m₂ r₂ _ h₂ => ?_
  obtain ⟨⟨rfl, rfl⟩, hr₂⟩ := h₂
  refine ((reading_padded hr₂).meets (Run.frame_meets h₁)).bind fun fr m₃ r₃ _ h₃ => ?_
  obtain ⟨⟨rfl, rfl⟩, hr₃⟩ := h₃
  dsimp only
  rw [hcount]
  refine ((captures_inStep caps h₁ hmarks rfl hb.tail hoffers hr₃).meets
    (Run.captures_meets caps h₁ rfl hb.tail hoffers (by simp))).bind fun us m₄ r₄ _ h₄ => ?_
  obtain ⟨⟨⟨live', h₄⟩, -⟩, hr₄⟩ := h₄
  have halloc : InStep (Run.alloc (.closure { function, upvalues := us }))
      (lift (Run.alloc (.closure { function, upvalues := us }))) m₄ r₄
      fun _ m' r' => r'.Reflects m'.pad := by
    refine (lift_inStep hr₄ (Run.alloc_overlooks (hr₄.covers (safe_pad h₄.toSafe))
      (by simp [Object.kind])) fun a m' hm hf u _ slot hu => ?_).padded
    cases hm
    refine hr₄.slot_lt (u := u) ?_
    obtain ⟨bytes', hu⟩ := hu
    exact ⟨bytes', hf.upvalues hu rfl⟩
  exact halloc.bind fun closure m₅ r₅ _ hr₅ => fill_inStep hr₅ (.obj closure)

end Cellular

end LoxMachine

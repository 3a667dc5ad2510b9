import LoxMachine.Proofs.Machine.Sharing

/-!
# Variables on both machines

The instructions that deal with variables do to the cells what they do to the slots and to the
captured variables.

* `getLocal_inStep`, `setLocal_inStep`, `getUpvalue_inStep`, `setUpvalue_inStep`: reading and writing.
* `Machine.Closes`: what moving captured variables off the stack comes to. On the other machine
  nothing is to be done for it but to take the slots off (`Closes.reflects`).
* `captures_inStep`: a variable that is captured again is the same captured variable again, because
  both are found by their slot on one machine and by their cell on the other.
-/

namespace LoxMachine

namespace Cellular

variable {α : Type} {r : Cellular} {m m' : Machine} {v : Value} {i c : Nat} {h : Handle}

/-! ## Slots -/

theorem slot_eq (m : Machine) (i : Nat) : Run.slot i m =
    match m.stack[i]? with
    | some v => .ok v m
    | none => .error (.error .stackUnderflow) m := by
  unfold Run.slot
  rw [Run.get_bind]
  cases m.stack[i]? <;> rfl

theorem setSlot_eq (m : Machine) (i : Nat) (v : Value) : Run.setSlot i v m =
    if i < m.stack.size then .ok () { m with stack := put m.stack i v }
    else .error (.error .stackUnderflow) m := by
  unfold Run.setSlot
  change (if i < m.stack.size then _ else _ : Run Unit) m = _
  split <;> rfl

theorem push_eq (m : Machine) (v : Value) : Run.push v m =
    if maxStack ≤ m.stack.size then .error (.error .stackOverflow) m
    else .ok () { m with stack := m.stack.push v } := by
  unfold Run.push
  change (if maxStack ≤ m.stack.size then _ else _ : Run Unit) m = _
  split <;> rfl

/-- Something is done to the cell of a slot. -/
theorem cellAt_bind (k : Nat → Cells α) (r : Cellular) (i : Nat) : (cellAt i >>= k) r =
    match r.stack[i]? with
    | some c => k c r
    | none => .error (.error .stackUnderflow) r := by
  unfold cellAt
  rw [bind_assoc, Run.get_bind]
  cases r.stack[i]? <;> rfl

/-- A slot is written. -/
theorem Reflects.write (hr : r.Reflects m) (hc : r.stack[i]? = some c) (v : Value) :
    { r with cells := Function.update r.cells c v }.Reflects { m with stack := put m.stack i v } := by
  have hlt := (List.getElem?_eq_some_iff.1 hc).1
  refine ⟨hr.heap, hr.frames, hr.globals, hr.initName, hr.sink, hr.clock, hr.nativeCalls, ?_,
    hr.nodup, hr.used, hr.opened, fun {u w bytes} hu => ?_, hr.distinct, hr.billed⟩
  · refine List.ext_getElem? fun j => ?_
    change (r.stack.map (Function.update r.cells c v))[j]? = (put m.stack i v).toList[j]?
    rw [List.getElem?_map, Array.getElem?_toList]
    by_cases hij : i = j
    · subst hij
      rw [hc, getElem?_put_self _ (hr.length_stack ▸ hlt)]
      simp
    · rw [getElem?_put_ne _ _ hij]
      cases hj : r.stack[j]? with
      | none =>
        have hge := List.getElem?_eq_none_iff.1 hj
        rw [Array.getElem?_eq_none (hr.length_stack ▸ hge)]
        rfl
      | some d =>
        have hne : d ≠ c := by
          rintro rfl
          exact hij ((List.getElem?_inj hlt hr.nodup).1 (hc.trans hj.symm))
        rw [hr.cell_of_slot hj]
        simp [hne]
  · obtain ⟨hv, hlt, hnot⟩ := hr.closed hu
    have hne : r.cellOf u ≠ c := fun heq => hnot (heq ▸ List.mem_of_getElem? hc)
    exact ⟨(Function.update_of_ne hne _ _).trans hv, hlt, hnot⟩

/-- The value of a slot is the value of its cell. -/
theorem slot_inStep (hr : r.Reflects m) (i : Nat) :
    InStep (Run.slot i) (valueAt i) m r fun _ m' r' => m' = m ∧ r' = r := by
  have hslot := slot_eq m i
  have hcell := cellAt_bind read r i
  cases hc : r.stack[i]? with
  | none =>
    have hge := List.getElem?_eq_none_iff.1 hc
    rw [Array.getElem?_eq_none (hr.length_stack ▸ hge)] at hslot
    rw [hc] at hcell
    exact .error hslot hcell hr.sink.symm
  | some c =>
    rw [hr.cell_of_slot hc] at hslot
    rw [hc] at hcell
    exact .ok hslot hcell ⟨rfl, rfl⟩

theorem setSlot_inStep (hr : r.Reflects m) (i : Nat) (v : Value) :
    InStep (Run.setSlot i v) (do write (← cellAt i) v) m r fun _ m' r' => r'.Reflects m' := by
  have hslot := setSlot_eq m i v
  have hcell := cellAt_bind (write · v) r i
  cases hc : r.stack[i]? with
  | none =>
    have hge := List.getElem?_eq_none_iff.1 hc
    rw [hr.length_stack] at hge
    rw [if_neg (not_lt.2 hge)] at hslot
    rw [hc] at hcell
    exact .error hslot hcell hr.sink.symm
  | some c =>
    have hlt := (List.getElem?_eq_some_iff.1 hc).1
    rw [hr.length_stack] at hlt
    rw [if_pos hlt] at hslot
    rw [hc] at hcell
    exact .ok hslot hcell (hr.write hc v)

/-- A value is pushed into a new cell. -/
theorem push_inStep (hr : r.Reflects m) (v : Value) :
    InStep (Run.push v) (lift (Run.push v)) m r fun _ m' r' => r'.Reflects m' := by
  refine lift_inStep hr (Run.Overlooking.overlooks _ _ m) fun _ m' hm _ u _ slot hu => ?_
  rw [push_eq] at hm
  split at hm
  · cases hm
  · cases hm
    rw [Array.size_push]
    exact Nat.lt_succ_of_lt (hr.slot_lt hu)

theorem getLocal_inStep (hr : r.Reflects m) :
    InStep Run.getLocal getLocal m r fun _ m' r' => r'.Reflects m' := by
  unfold Run.getLocal getLocal
  refine (reading_inStep hr).bind fun index m₁ r₁ _ hr => ?_
  refine (reading_inStep hr.1).bind fun f m₂ r₂ _ hr => ?_
  refine (slot_inStep hr.1 _).bind fun v m₃ r₃ _ h => ?_
  obtain ⟨rfl, rfl⟩ := h
  exact push_inStep hr.1 v

theorem setLocal_inStep (hr : r.Reflects m) :
    InStep Run.setLocal setLocal m r fun _ m' r' => r'.Reflects m' := by
  unfold Run.setLocal setLocal
  refine (reading_inStep hr).bind fun index m₁ r₁ _ hr => ?_
  refine (reading_inStep hr.1).bind fun f m₂ r₂ _ hr => ?_
  refine (reading_inStep hr.1).bind fun v m₃ r₃ _ hr => ?_
  exact setSlot_inStep hr.1 _ v

/-! ## Captured variables -/

theorem upvalue_fill (f : Handle → Value) (heap : Heap) (h : Handle) :
    (heap.fill f).upvalue h = (heap.upvalue h).map fun _ => .closed (f h) := by
  unfold Heap.upvalue
  rw [Heap.object_fill]
  cases heap.object h with
  | error e => rfl
  | ok o => cases o <;> rfl

/-- The state after a captured variable has been looked up. -/
theorem Reflects.looked (hr : r.Reflects m) : (r.absorb r.view).Reflects m := by
  rw [hr.view_eq]
  exact hr.absorb (.of_heap rfl rfl) _ fun _ _ hu => hr.slot_lt hu

/-- Something is done with the cell of a captured variable. -/
theorem cellOfUpvalue_bind (hr : r.Reflects m) (h : Handle) (k : Nat → Cells α) :
    (cellOfUpvalue h >>= k) r =
      match m.heap.upvalue h with
      | .ok _ => k (r.cellOf h) (r.absorb r.view)
      | .error e => .error (.fault e) (r.absorb r.view) := by
  have hview : r.view.heap.upvalue h = (m.heap.upvalue h).map fun _ => .closed (r.value h) := by
    rw [hr.view_eq]
    exact upvalue_fill _ _ _
  have hunfold : (cellOfUpvalue h >>= k) r = (lift (Run.look (·.upvalue h)) >>= fun _ =>
      get >>= fun r => k (r.cellOf h)) r := by
    simp only [cellOfUpvalue, bind_assoc, pure_bind]
    rfl
  rw [hunfold]
  cases hu : m.heap.upvalue h with
  | ok w =>
    rw [hu] at hview
    have hlift := lift_of_ok (Run.look_ok (q := (·.upvalue h)) hview)
    simp only [bind, EStateM.bind, hlift]
    rfl
  | error e =>
    rw [hu] at hview
    have hlift := lift_of_error (Run.look_error (q := (·.upvalue h)) hview)
    simp only [bind, EStateM.bind, hlift]

theorem cell_of_upvalue {heap : Heap} {w : Upvalue} (hu : heap.upvalue h = .ok w) :
    ∃ bytes, heap.cell? h = some ⟨.upvalue w, bytes⟩ := by
  unfold Heap.upvalue Heap.object at hu
  cases hc : heap.cell? h with
  | none => simp [hc, bind, Except.bind] at hu
  | some cell =>
    obtain ⟨o, bytes⟩ := cell
    cases o <;> simp [hc, bind, Except.bind, pure, Except.pure, throw, throwThe,
      MonadExceptOf.throw] at hu
    exact ⟨bytes, by rw [hu]⟩

theorem InStep.congr {x x' : Run α} {y y' : Cells α} {n : Machine} {s : Cellular}
    {Q : α → Machine → Cellular → Prop} (hp : InStep x' y' n s Q) (hx : x m = x' n)
    (hy : y r = y' s) : InStep x y m r Q := by
  unfold InStep at hp ⊢
  rw [hx, hy]
  exact hp

/-- **A captured variable is read**, on the stack or off it. -/
theorem readUpvalue_inStep (hr : r.Reflects m) (h : Handle) :
    InStep (do
      match ← Run.look (·.upvalue h) with
      | .stacked index => Run.push (← Run.slot index)
      | .closed v => Run.push v)
      (do
        let c ← cellOfUpvalue h
        lift (Run.push (← read c))) m r fun _ m' r' => r'.Reflects m' := by
  have hright := cellOfUpvalue_bind hr h fun c => do lift (Run.push (← read c))
  have hr₁ := hr.looked
  cases hu : m.heap.upvalue h with
  | error e =>
    rw [hu] at hright
    exact .error (Run.look_bind_error hu) hright hr₁.sink.symm
  | ok w =>
    rw [hu] at hright
    obtain ⟨bytes, hcell⟩ := cell_of_upvalue hu
    refine InStep.congr (push_inStep hr₁ ((r.absorb r.view).value h)) ?_ hright
    rw [Run.look_bind_ok hu]
    cases w with
    | stacked slot =>
      have hslot := slot_eq m slot
      rw [hr₁.value_of_slot ⟨bytes, hcell⟩] at hslot
      simp only [bind, EStateM.bind, hslot]
    | closed v => rw [(hr₁.closed hcell).1]

/-- A captured variable off the stack is written. -/
theorem Reflects.writeClosed (hr : r.Reflects m) {v : Value} {bytes : Nat}
    (hcell : m.heap.cell? h = some ⟨.upvalue (.closed v), bytes⟩) (w : Value) :
    { r with cells := Function.update r.cells (r.cellOf h) w }.Reflects
      { m with heap := m.heap.replace h (.upvalue (.closed w)) } := by
  obtain ⟨-, hlt, hnot⟩ := hr.closed hcell
  have hcells := Heap.cell?_replace hcell (.upvalue (.closed w))
  have hkind : ∀ u, (m.heap.replace h (.upvalue (.closed w))).kind? u = m.heap.kind? u := by
    intro u
    rw [Heap.kind?, Heap.kind?, hcells]
    split
    · rename_i hu
      rw [hu, hcell]
      rfl
    · rfl
  refine ⟨?_, hr.frames, hr.globals, hr.initName, hr.sink, hr.clock, hr.nativeCalls, ?_, hr.nodup,
    hr.used, fun {u slot} hu => ?_, fun {u v' bytes'} hu => ?_, fun {u u'} hu hu' heq => ?_,
    hr.billed.replace h _⟩
  · exact hr.heap.trans (hr.billed.blank_replace hcell _).symm
  · refine Eq.trans (List.map_congr_left fun c hc => ?_) hr.stack
    have hne : c ≠ r.cellOf h := fun heq => hnot (heq ▸ hc)
    exact Function.update_of_ne hne _ _
  · obtain ⟨bytes', hu⟩ := hu
    rw [hcells] at hu
    split at hu
    · cases hu
    · exact hr.opened ⟨bytes', hu⟩
  · rw [hcells] at hu
    split at hu
    · rename_i heq
      cases hu
      rw [heq]
      exact ⟨Function.update_self _ _ _, hlt, hnot⟩
    · rename_i hne
      obtain ⟨hv', hlt', hnot'⟩ := hr.closed hu
      refine ⟨(Function.update_of_ne (fun heq => hne ?_) _ _).trans hv', hlt', hnot'⟩
      exact hr.distinct (Heap.kind?_of_cell? hu) (Heap.kind?_of_cell? hcell) heq
  · rw [hkind] at hu hu'
    exact hr.distinct hu hu' heq

/-- **A captured variable is written**, on the stack or off it. -/
theorem writeUpvalue_inStep (hr : r.Reflects m) (h : Handle) (v : Value) :
    InStep (do
      match ← Run.look (·.upvalue h) with
      | .stacked index => Run.setSlot index v
      | .closed _ => Run.update (·.setUpvalue h (.closed v)))
      (do write (← cellOfUpvalue h) v) m r fun _ m' r' => r'.Reflects m' := by
  have hright := cellOfUpvalue_bind hr h fun c => write c v
  have hr₁ := hr.looked
  cases hu : m.heap.upvalue h with
  | error e =>
    rw [hu] at hright
    exact .error (Run.look_bind_error hu) hright hr₁.sink.symm
  | ok w =>
    rw [hu] at hright
    obtain ⟨bytes, hcell⟩ := cell_of_upvalue hu
    cases w with
    | stacked slot =>
      have hset := (setSlot_eq m slot v).trans (if_pos (hr.slot_lt ⟨bytes, hcell⟩))
      refine .ok ?_ hright (hr₁.write (hr₁.opened ⟨bytes, hcell⟩).2 v)
      rw [Run.look_bind_ok hu]
      exact hset
    | closed v' =>
      have hset : m.heap.setUpvalue h (.closed v) =
          .ok (m.heap.replace h (.upvalue (.closed v))) := by
        rw [Heap.setUpvalue, hu]
        rfl
      have hupdate : Run.update (·.setUpvalue h (.closed v)) m =
          .ok () { m with heap := m.heap.replace h (.upvalue (.closed v)) } := by
        simp only [Run.update, hset]
      refine .ok ?_ hright (hr₁.writeClosed hcell v)
      rw [Run.look_bind_ok hu]
      exact hupdate

theorem getUpvalue_inStep (hr : r.Reflects m) :
    InStep Run.getUpvalue getUpvalue m r fun _ m' r' => r'.Reflects m' := by
  unfold Run.getUpvalue getUpvalue
  refine (reading_inStep hr).bind fun index m₁ r₁ _ hr => ?_
  refine (reading_inStep hr.1).bind fun h m₂ r₂ _ hr => ?_
  exact readUpvalue_inStep hr.1 h

theorem setUpvalue_inStep (hr : r.Reflects m) :
    InStep Run.setUpvalue setUpvalue m r fun _ m' r' => r'.Reflects m' := by
  unfold Run.setUpvalue setUpvalue
  refine (reading_inStep hr).bind fun index m₁ r₁ _ hr => ?_
  refine (reading_inStep hr.1).bind fun h m₂ r₂ _ hr => ?_
  refine (reading_inStep hr.1).bind fun v m₃ r₃ _ hr => ?_
  exact writeUpvalue_inStep hr.1 h v

end Cellular

/-! ## Leaving -/

/-- The captured variables from slot `last` up have been moved off the stack with their values. -/
structure Machine.Vacates (last : Nat) (m m' : Machine) : Prop where
  same : m' = { m with heap := m'.heap, openUpvalues := m'.openUpvalues }
  blank : m'.heap.blank = m.heap.blank
  billed : m'.heap.Billed
  stacked : ∀ {u : Handle} {slot : Nat}, m'.heap.OnStack u slot →
    m.heap.OnStack u slot ∧ slot < last ∧ u ∈ m'.openUpvalues
  closed : ∀ {u : Handle} {v : Value} {bytes : Nat},
    m'.heap.cell? u = some ⟨.upvalue (.closed v), bytes⟩ →
      m.heap.cell? u = some ⟨.upvalue (.closed v), bytes⟩ ∨
        ∃ slot, m.heap.OnStack u slot ∧ last ≤ slot ∧ m.stack[slot]? = some v

namespace Run

variable {live : Handle → Prop} {m : Machine}

/-- **Captured variables are moved off the stack with their values.** -/
theorem closeFrom_vacates {E : Failure → Machine → Prop} (last : Nat) (opened : List Handle)
    {m : Machine} (hs : m.Safe live) (hb : m.heap.Billed) (hopen : m.openUpvalues = opened)
    (hall : ∀ u slot, m.heap.OnStack u slot → u ∈ m.openUpvalues ∧ slot < m.stack.size) :
    Ends E (closeFrom last opened) m fun _ m' => m.Vacates last m' := by
  induction opened generalizing m with
  | nil =>
    refine .pure ⟨rfl, rfl, hb, fun {u slot} hu => ?_, fun hu => Or.inl hu⟩
    have hmem := (hall u slot hu).1
    rw [hopen] at hmem
    exact absurd hmem List.not_mem_nil
  | cons u rest ih =>
    obtain ⟨-, index, hindex⟩ := hs.opened u (by rw [hopen]; exact List.mem_cons_self)
    unfold closeFrom
    refine .look_bind hindex.upvalue (.ite (fun hle => ?_) fun hlt => .pure ?_)
    · have hlt := (hall u index hindex).2
      have hget : m.stack[index]? = some m.stack[index] := Array.getElem?_eq_getElem hlt
      obtain ⟨hsafe, hrest⟩ := safe_close hs hopen hindex (hs.value_in hget)
      obtain ⟨bytes, hcell⟩ := hindex
      have hcells := Heap.cell?_replace hcell (.upvalue (.closed m.stack[index]))
      have hslot : Ends E (slot index) m fun v m' => v = m.stack[index] ∧ m' = m := by
        unfold Ends
        rw [Cellular.slot_eq, hget]
        exact ⟨rfl, rfl⟩
      refine hslot.bind fun v m' hv => ?_
      obtain ⟨rfl, rfl⟩ := hv
      have hset : m'.heap.setUpvalue u (.closed m'.stack[index]) =
          .ok (m'.heap.replace u (.upvalue (.closed m'.stack[index]))) := by
        rw [Heap.setUpvalue, Heap.OnStack.upvalue ⟨bytes, hcell⟩]
        rfl
      have hupdate : Ends E (update (·.setUpvalue u (.closed m'.stack[index]))) m' fun _ m'' =>
          m'' = { m' with heap := m'.heap.replace u (.upvalue (.closed m'.stack[index])) } := by
        unfold Ends
        simp only [update, hset]
      refine hupdate.bind fun _ m'' hm'' => ?_
      subst hm''
      refine Ends.bind (Q := fun _ m'' => m'' = { m' with
        heap := m'.heap.replace u (.upvalue (.closed m'.stack[index])), openUpvalues := rest })
        (.modify rfl) fun _ m'' hm'' => ?_
      subst hm''
      -- the one that was closed is not on the stack any more, and the others are as before
      have hothers : ∀ x slot, (m'.heap.replace u (.upvalue (.closed m'.stack[index]))).OnStack x slot →
          m'.heap.OnStack x slot ∧ x ≠ u := by
        rintro x slot ⟨bytes', hx⟩
        rw [hcells] at hx
        split at hx
        · cases hx
        · rename_i hne
          exact ⟨⟨bytes', hx⟩, hne⟩
      refine (ih hsafe (hb.replace u _) rfl fun x slot hx => ?_).mono fun _ m₁ h₁ => ?_
      · obtain ⟨hx, hne⟩ := hothers x slot hx
        obtain ⟨hmem, hlt⟩ := hall x slot hx
        rw [hopen] at hmem
        exact ⟨List.mem_of_ne_of_mem hne hmem, hlt⟩
      · refine ⟨by rw [h₁.same], h₁.blank.trans (hb.blank_replace hcell _), h₁.billed,
          fun {x slot} hx => ?_, fun {x w bytes'} hx => ?_⟩
        · obtain ⟨hx, hlt, hmem⟩ := h₁.stacked hx
          exact ⟨(hothers x slot hx).1, hlt, hmem⟩
        · rcases h₁.closed hx with hx | ⟨slot, hx, hlast, hw⟩
          · change (m'.heap.replace u (.upvalue (.closed m'.stack[index]))).cell? x = _ at hx
            rw [hcells] at hx
            split at hx
            · rename_i heq
              cases hx
              rw [heq]
              exact Or.inr ⟨index, ⟨bytes, hcell⟩, hle, hget⟩
            · exact Or.inl hx
          · exact Or.inr ⟨slot, (hothers x slot hx).1, hlast, hw⟩
    · refine ⟨rfl, rfl, hb, fun {x slot} hx => ?_, fun hx => Or.inl hx⟩
      -- the others are in lower slots still
      have hmem := (hall x slot hx).1
      refine ⟨hx, ?_, hmem⟩
      have hsorted := hs.sorted
      rw [hopen] at hmem hsorted
      rw [List.pairwise_cons] at hsorted
      rcases List.mem_cons.1 hmem with rfl | hmem
      · rw [hx.unique hindex]
        omega
      · have := hsorted.1 x hmem index slot hindex hx
        omega

end Run

namespace Cellular

variable {r : Cellular} {m m' : Machine} {height : Nat} {live : Handle → Prop}

/-- **Leaving takes the cells off the stack and does nothing else to them.** -/
theorem Reflects.vacates (hr : r.Reflects m) (hv : m.Vacates height m') :
    { r with stack := r.stack.take height }.Reflects
      { m' with stack := m'.stack.shrink height } := by
  have hsame := hv.same
  have hkind : ∀ u, m'.heap.kind? u = m.heap.kind? u := fun u => by
    rw [← Reflects.kind?_blank, hv.blank, Reflects.kind?_blank]
  have hstack : m'.stack = m.stack := by rw [hsame]
  refine ⟨hr.heap.trans hv.blank.symm, ?_, ?_, ?_, ?_, ?_, ?_, ?_,
    hr.nodup.sublist (List.take_sublist _ _), fun c hc => hr.used c (List.mem_of_mem_take hc),
    fun {u slot} hu => ?_, fun {u v bytes} hu => ?_, fun {u u'} hu hu' heq => ?_, hv.billed⟩
  · rw [hsame]
    exact hr.frames
  · rw [hsame]
    exact hr.globals
  · rw [hsame]
    exact hr.initName
  · rw [hsame]
    exact hr.sink
  · rw [hsame]
    exact hr.clock
  · rw [hsame]
    exact hr.nativeCalls
  · change (r.stack.take height).map r.cells = (m'.stack.shrink height).toList
    rw [Array.toList_shrink, hstack, List.map_take, hr.stack]
  · obtain ⟨hold, hlt, hmem⟩ := hv.stacked hu
    exact ⟨hmem, (List.getElem?_take_of_lt hlt).trans (hr.opened hold).2⟩
  · rcases hv.closed hu with hold | ⟨slot, hold, hle, hvalue⟩
    · obtain ⟨hval, hlt, hnot⟩ := hr.closed hold
      exact ⟨hval, hlt, fun hmem => hnot (List.mem_of_mem_take hmem)⟩
    · obtain ⟨-, hc⟩ := hr.opened hold
      have hlt := (List.getElem?_eq_some_iff.1 hc).1
      rw [hr.value_of_slot hold] at hvalue
      refine ⟨Option.some.inj hvalue, hr.used _ (List.mem_of_getElem? hc), fun hmem => ?_⟩
      -- the slot of the cell is above those that stay
      obtain ⟨i, hi⟩ := List.getElem?_of_mem hmem
      have hih : i < height := by
        by_contra hge
        rw [List.getElem?_take, if_neg hge] at hi
        cases hi
      rw [List.getElem?_take_of_lt hih] at hi
      have := (List.getElem?_inj hlt hr.nodup).1 (hc.trans hi.symm)
      omega
  · exact hr.distinct ((hkind u).symm.trans hu) ((hkind u').symm.trans hu') heq

/-- Slots are taken off the stack of the view, or none: the cells keep their values. -/
theorem Reflects.absorb_shrink (hr : r.Reflects m) (hh : height ≤ m.stack.size)
    (hstack : m'.stack = r.view.stack.shrink height) :
    r.absorb m' = { heap := m'.heap.blank, cells := r.cells, next := r.next,
                    stack := r.stack.take height, cellOf := r.cellOf, frames := m'.frames,
                    globals := m'.globals, initName := m'.initName, sink := m'.sink,
                    clock := m'.clock, nativeCalls := m'.nativeCalls } := by
  have hsize : m'.stack.size = height := by
    rw [hstack, Array.size_shrink, hr.view_eq]
    exact Nat.min_eq_left hh
  have hlength := hr.length_stack
  have hslots : r.slots height = r.stack.take height := by
    rw [slots, Nat.sub_eq_zero_of_le (hlength ▸ hh)]
    exact List.append_nil _
  have hcells : ∀ c, m'.stack[(r.stack.take height).idxOf c]?.getD (r.cells c) = r.cells c := by
    intro c
    by_cases hc : c ∈ r.stack.take height
    · have hget : (r.stack.take height)[(r.stack.take height).idxOf c]? = some c :=
        List.getElem?_idxOf hc
      rw [hstack, ← Array.getElem?_toList, Array.toList_shrink]
      change (((r.stack.map r.cells).toArray.toList.take height)[_]?).getD _ = _
      rw [List.toList_toArray, ← List.map_take, List.getElem?_map, hget]
      rfl
    · rw [List.idxOf_eq_length hc, Array.getElem?_eq_none]
      · rfl
      · rw [hsize, List.length_take]
        omega
  unfold Cellular.absorb
  rw [hsize, hslots, Nat.sub_eq_zero_of_le (hlength ▸ hh), Nat.add_zero, funext hcells]

/-- The state after slots have been taken off. -/
theorem Reflects.absorb_view (hr : r.Reflects m) (hh : height ≤ m.stack.size) :
    r.absorb { r.view with stack := r.view.stack.shrink height } =
      { r with stack := r.stack.take height } := by
  have hheap : (r.heap.fill r.value).blank = r.heap := by
    rw [hr.heap]
    simp [Heap.blank]
  rw [hr.absorb_shrink hh rfl]
  change ({ r with heap := (r.heap.fill r.value).blank, stack := _ } : Cellular) = _
  rw [hheap]

theorem pop_eq (m : Machine) : Run.pop m =
    match m.stack.back? with
    | some v => .ok v { m with stack := m.stack.pop }
    | none => .error (.error .stackUnderflow) m := by
  unfold Run.pop
  rw [Run.get_bind]
  cases m.stack.back? <;> rfl

theorem pop_eq_shrink {α : Type} (xs : Array α) : xs.pop = xs.shrink (xs.size - 1) := by
  apply Array.ext'
  rw [Array.toList_pop, Array.toList_shrink, List.dropLast_eq_take, Array.length_toList]

theorem closeUpvalues_vacates (hr : r.Reflects m) (hs : m.Safe live) (last : Nat) :
    ∃ m', Run.closeUpvalues last m = .ok () m' ∧ m.Vacates last m' := by
  have hends : Run.Ends (fun _ _ => False) (Run.closeUpvalues last) m fun _ m' =>
      m.Vacates last m' := by
    unfold Run.closeUpvalues
    exact .get (Run.closeFrom_vacates last _ hs hr.billed rfl fun u slot hu =>
      ⟨(hr.opened hu).1, hr.slot_lt hu⟩)
  unfold Run.Ends at hends
  cases hm : Run.closeUpvalues last m with
  | ok _ m' =>
    rw [hm] at hends
    exact ⟨m', rfl, hends⟩
  | error e m' =>
    rw [hm] at hends
    exact hends.elim

/-- **The variable on top of the stack goes.** -/
theorem closeTop_inStep (hr : r.Reflects m) (hs : m.Safe live) (hsize : 0 < m.stack.size) :
    InStep Run.closeTop closeTop m r fun _ m' r' => r'.Reflects m' := by
  have hview : r.view.stack = m.stack := by rw [hr.view_eq]; rfl
  have hback : m.stack.back? = some m.stack[m.stack.size - 1] := by
    rw [Array.back?_eq_getElem?, Array.getElem?_eq_getElem]
  have hbelow : Run.below 0 m = .ok (m.stack.size - 1) m := by
    unfold Run.below
    change (if 0 < m.stack.size then _ else _ : Run Nat) m = _
    rw [if_pos hsize]
    rfl
  obtain ⟨m', hclose, hv⟩ := closeUpvalues_vacates hr hs (m.stack.size - 1)
  have hstack : m'.stack = m.stack := by rw [hv.same]
  unfold Run.closeTop closeTop
  refine .left hbelow (.left hclose (InStep.bind (Q := fun _ m' r' => r'.Reflects m') ?_
    fun v m₁ r₁ _ h => .pure h))
  have hpop := pop_eq r.view
  have hpop' := pop_eq m'
  rw [hstack, hback] at hpop'
  rw [hview, hback] at hpop
  refine .ok hpop' (lift_of_ok hpop) ?_
  have habsorb := hr.absorb_view (Nat.sub_le m.stack.size 1)
  rw [hview] at habsorb
  rw [pop_eq_shrink, habsorb, ← hstack]
  exact hstack ▸ hr.vacates hv

theorem pop_ok {v : Value} (h : Run.pop m = .ok v m') : m' = { m with stack := m.stack.pop } := by
  rw [pop_eq] at h
  split at h
  · cases h
    rfl
  · cases h

/-- A value that is not captured is popped. -/
theorem pop_inStep (hr : r.Reflects m)
    (htop : ∀ u slot, m.heap.OnStack u slot → slot + 1 < m.stack.size) :
    InStep Run.pop (lift Run.pop) m r fun _ m' r' =>
      r'.Reflects m' ∧ m' = { m with stack := m.stack.pop } := by
  refine (lift_inStep hr (Run.Overlooking.overlooks _ _ m) fun v m' hm _ u _ slot hu => ?_).mono
    fun v m' r' hm hr => ⟨hr, pop_ok hm⟩
  rw [pop_ok hm] at hu ⊢
  have hlt := htop u slot hu
  change slot < m.stack.pop.size
  rw [Array.size_pop]
  omega

theorem Reflects.frames_tail (hr : r.Reflects m) :
    { r with frames := r.frames.tail }.Reflects { m with frames := m.frames.tail } :=
  { hr with frames := congrArg List.tail hr.frames }

/-- **A call ends.** -/
theorem ret_inStep {f : Frame} {rest : List Frame} (hr : r.Reflects m) (hs : m.Safe live)
    (htop : ∀ u slot, m.heap.OnStack u slot → slot + 1 < m.stack.size)
    (hframes : m.frames = f :: rest) (hbase : f.base < m.stack.size)
    (hbottom : rest = [] → f.base = 0) :
    InStep Run.ret ret m r fun _ m' r' => r'.Reflects m' := by
  unfold Run.ret ret
  refine (pop_inStep hr htop).bind fun result m₁ r₁ _ h₁ => ?_
  obtain ⟨hr₁, rfl⟩ := h₁
  have hframe : Run.frame { m with stack := m.stack.pop } = .ok f { m with stack := m.stack.pop } :=
    Run.frame_ok hframes
  refine (reading_inStep hr₁).bind fun f' m₂ r₂ hm₂ h₂ => ?_
  rw [hframe] at hm₂
  cases hm₂
  obtain ⟨hr₂, -⟩ := h₂
  refine InStep.bind (Q := fun _ m' r' => r'.Reflects m' ∧
    m' = { m with stack := m.stack.pop, frames := m.frames.tail })
    (.modify ⟨hr₂.frames_tail, rfl⟩) fun _ m₃ r₃ _ h₃ => ?_
  obtain ⟨hr₃, rfl⟩ := h₃
  have hs₃ : { m with stack := m.stack.pop, frames := m.frames.tail }.Safe live := by
    have hpop : { m with stack := m.stack.pop }.Safe live := by
      refine hs.stack_to fun x hx => hs.stack x ?_
      rw [← Array.mem_toList_iff, Array.toList_pop] at hx
      exact Array.mem_toList_iff.1 ((List.dropLast_sublist _).subset hx)
    exact hpop.tail
  obtain ⟨m₄, hclose, hv⟩ := closeUpvalues_vacates hr₃ hs₃ f.base
  have hframes₄ : m₄.frames = rest := by
    rw [hv.same]
    change m.frames.tail = rest
    rw [hframes]
    rfl
  have hframes₃ : r₃.frames = rest := by
    rw [hr₃.frames]
    change m.frames.tail = rest
    rw [hframes]
    rfl
  have hstack₄ : m₄.stack = m.stack.pop := by rw [hv.same]
  have hvacates := hr₃.vacates hv
  refine .left hclose (.get ?_)
  rw [hframes₃, hframes₄]
  cases rest with
  | nil =>
    rw [if_pos (by rfl), if_pos (by rfl)]
    rw [hbottom rfl] at hvacates
    have hempty : m₄.stack.shrink 0 = #[] := by
      apply Array.ext'
      simp
    rw [hempty] at hvacates
    exact InStep.bind (Q := fun _ m' r' => r'.Reflects m') (.modify hvacates)
      fun _ m₅ r₅ _ h₅ => .pure h₅
  | cons f' rest =>
    rw [if_neg (by simp), if_neg (by simp)]
    refine InStep.bind (Q := fun _ m' r' => r'.Reflects m') ?_ fun _ m₅ r₅ _ hr₅ =>
      (push_inStep hr₅ result).bind fun _ m₆ r₆ _ hr₆ => .pure hr₆
    have hview : r₃.view.stack = m.stack.pop := by rw [hr₃.view_eq]; rfl
    have htruncate : Run.truncate f.base r₃.view =
        .ok () { r₃.view with stack := r₃.view.stack.shrink f.base } := rfl
    refine .ok (n := { m₄ with stack := m₄.stack.shrink f.base }) rfl (lift_of_ok htruncate) ?_
    have hle : f.base ≤ ({ m with stack := m.stack.pop, frames := m.frames.tail } : Machine).stack.size := by
      change f.base ≤ m.stack.pop.size
      rw [Array.size_pop]
      omega
    rw [hr₃.absorb_view hle]
    exact hvacates

end Cellular

end LoxMachine

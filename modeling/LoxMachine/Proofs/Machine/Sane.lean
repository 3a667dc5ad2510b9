import LoxMachine.Proofs.Heap.Healthy
import LoxMachine.Proofs.Machine.Listing

/-!
# Sane states

What holds of the machine on any code, and what the basic actions do to it.

* `Machine.Sane m`: the heap is healthy, everything that the machine refers to is there and of the
  right kind, and the stack and the calls are within their limits.
* `Run.Tame x m Q`: the action `x` ends with `Q`, or fails with a runtime error in a sane state; it
  meets no fault.
* Nothing is assumed of the code or of the number of values on the stack: where an operand or a value
  is missing, there is an error.
-/

namespace LoxMachine

namespace Machine

variable {m : Machine} {v : Value} {x : Handle}

/-- What holds of the machine between two instructions, and where an instruction fails. -/
structure Sane (m : Machine) : Prop where
  heap : m.heap.Healthy
  size_le : m.stack.size ≤ maxStack
  length_le : m.frames.length ≤ maxFrames
  stack : ∀ h, .obj h ∈ m.stack → m.heap.Live h
  frames : ∀ f ∈ m.frames,
    ∃ c bytes, m.heap.cell? f.closure = some ⟨.closure c, bytes⟩ ∧ c.function = f.function
  globals : m.globals.Within m.heap.Live
  keyed : m.heap.Keyed m.globals
  opened : ∀ u ∈ m.openUpvalues, m.heap.kind? u = some .upvalue
  initName : m.heap.IsString m.initName

namespace Sane

theorem roots (hs : m.Sane) (hx : x ∈ m.roots) : m.heap.Live x := by
  rcases mem_roots.1 hx with hv | ⟨f, hf, rfl⟩ | hu | hg | rfl
  · exact hs.stack x hv
  · obtain ⟨c, bytes, hc, -⟩ := hs.frames f hf
    exact Heap.contains_of_cell? hc
  · exact Heap.live_of_kind? (hs.opened x hu)
  · exact Table.within_iff.1 hs.globals x hg
  · exact hs.initName.contains

theorem reachable_root (hs : m.Sane) (hx : x ∈ m.roots) : m.heap.Reachable m.roots x :=
  .root hx (hs.roots hx)

theorem reachable_reference (hs : m.Sane) {r : Handle} {cell : Cell}
    (hx : m.heap.Reachable m.roots x) (hc : m.heap.cell? x = some cell)
    (hr : r ∈ cell.object.references) : m.heap.Reachable m.roots r :=
  .reference hx hc hr (hs.heap.closed hc hr)

/-- **Another heap**, in which what can be reached has not changed, except for the contents of
objects that can change. -/
theorem heap_to {heap : Heap} (hs : m.Sane) (hh : heap.Healthy)
    (hsteady : m.heap.Steady (m.heap.Reachable m.roots) heap) : { m with heap }.Sane := by
  have hroot : ∀ x ∈ m.roots, heap.kind? x = m.heap.kind? x := fun x hx =>
    hsteady.kind x (hs.reachable_root hx)
  have hlive : ∀ x ∈ m.roots, heap.Live x := by
    intro x hx
    obtain ⟨cell, hc⟩ := Heap.contains_iff.1 (hs.roots hx)
    exact Heap.live_of_kind? ((hroot x hx).trans (Heap.kind?_of_cell? hc))
  refine ⟨hh, hs.size_le, hs.length_le, fun x hx => hlive x (mem_roots.2 (Or.inl hx)),
    fun f hf => ?_, Table.within_iff.2 fun x hx => ?_, ?_, fun u hu => ?_, ?_⟩
  · obtain ⟨c, bytes, hc, hfun⟩ := hs.frames f hf
    have hmem : f.closure ∈ m.roots := mem_roots.2 (Or.inr (Or.inl ⟨f, hf, rfl⟩))
    exact ⟨c, bytes, hsteady.fixed _ _ (hs.reachable_root hmem) hc rfl, hfun⟩
  · exact hlive x (mem_roots.2 (Or.inr (Or.inr (Or.inr (Or.inl hx)))))
  · refine hs.keyed.steady hsteady (Table.within_iff.2 fun x hx => hs.reachable_root ?_)
    exact mem_roots.2 (Or.inr (Or.inr (Or.inr (Or.inl hx))))
  · exact (hroot u (mem_roots.2 (Or.inr (Or.inr (Or.inl hu))))).trans (hs.opened u hu)
  · have hmem : m.initName ∈ m.roots := mem_roots.2 (Or.inr (Or.inr (Or.inr (Or.inr rfl))))
    exact hsteady.isString (hs.reachable_root hmem) hs.initName

/-- Another stack. -/
theorem stack_to {stack : Array Value} (hs : m.Sane) (hlive : ∀ x, .obj x ∈ stack → m.heap.Live x)
    (hsize : stack.size ≤ maxStack) : { m with stack }.Sane :=
  ⟨hs.heap, hsize, hs.length_le, hlive, hs.frames, hs.globals, hs.keyed, hs.opened, hs.initName⟩

/-- The innermost call is left. -/
theorem tail (hs : m.Sane) : { m with frames := m.frames.tail }.Sane := by
  refine ⟨hs.heap, hs.size_le, ?_, hs.stack, fun f hf => hs.frames f (List.mem_of_mem_tail hf),
    hs.globals, hs.keyed, hs.opened, hs.initName⟩
  have hle := hs.length_le
  rw [List.length_tail]
  omega

theorem value_in (hs : m.Sane) {i : Nat} (hv : m.stack[i]? = some v) : v.In m.heap.Live := by
  rintro h rfl
  exact hs.stack h (Array.mem_of_getElem? hv)

/-- The function of an active call. -/
theorem function (hs : m.Sane) {f : Frame} (hf : f ∈ m.frames) :
    ∃ fn bytes, m.heap.cell? f.function = some ⟨.function fn, bytes⟩ ∧
      m.heap.Reachable m.roots f.function := by
  obtain ⟨c, bytes, hc, hfun⟩ := hs.frames f hf
  obtain ⟨fn, bytes', hfn⟩ := Heap.function_of_kind? (hs.heap.fit hc).1
  rw [hfun] at hfn
  refine ⟨fn, bytes', hfn, ?_⟩
  rw [← hfun]
  exact hs.reachable_reference (hs.reachable_root (mem_roots.2 (Or.inr (Or.inl ⟨f, hf, rfl⟩)))) hc
    List.mem_cons_self

end Sane

end Machine

/-- A failure that leaves the machine sane. -/
structure Failure.Harmless (e : Failure) (m : Machine) : Prop where
  error : ∃ r, e = .error r
  sane : m.Sane

namespace Run

variable {α : Type} {m : Machine} {v : Value} {x : Handle} {f : Frame}

/-- The action ends with `Q`, or fails with a runtime error in a sane state. -/
abbrev Tame (x : Run α) (m : Machine) (Q : α → Machine → Prop) : Prop := Ends Failure.Harmless x m Q

theorem tame_fail {Q : α → Machine → Prop} (hs : m.Sane) (r : RuntimeError) :
    Tame (fail r : Run α) m Q := ⟨⟨r, rfl⟩, hs⟩

theorem tame_fail_bind {β : Type} {Q : β → Machine → Prop} {g : α → Run β} (hs : m.Sane)
    (r : RuntimeError) : Tame ((fail r : Run α) >>= g) m Q := ⟨⟨r, rfl⟩, hs⟩

/-! ## The stack -/

/-- A value is pushed; the heap stays the same. -/
theorem push_same_heap (hs : m.Sane) (hv : v.In m.heap.Live) :
    Tame (push v) m fun _ m' => m'.Sane ∧ m'.heap = m.heap := by
  unfold push
  refine .get (.ite (fun _ => tame_fail_bind hs _) fun hlt => .modify ⟨?_, rfl⟩)
  refine hs.stack_to (fun x hx => ?_) (by simp only [Array.size_push]; omega)
  rcases Array.mem_push.1 hx with hx | hx
  · exact hs.stack x hx
  · exact hv x hx.symm

theorem push_tame (hs : m.Sane) (hv : v.In m.heap.Live) : Tame (push v) m fun _ m' => m'.Sane :=
  (push_same_heap hs hv).mono fun _ _ h => h.1

theorem pop_tame (hs : m.Sane) :
    Tame pop m fun v m' => v.In m.heap.Live ∧ m'.Sane ∧ m'.heap = m.heap := by
  unfold pop
  refine .get ?_
  cases hback : m.stack.back? with
  | none => exact tame_fail hs _
  | some v =>
    rw [Array.back?_eq_getElem?] at hback
    refine .bind (Q := fun _ m' => m'.Sane ∧ m'.heap = m.heap) (.modify ⟨?_, rfl⟩)
      fun _ m' hm' => .pure ⟨hs.value_in hback, hm'⟩
    refine hs.stack_to (fun x hx => hs.stack x ?_) ?_
    · rw [← Array.mem_toList_iff, Array.toList_pop] at hx
      exact Array.mem_toList_iff.1 ((List.dropLast_sublist _).subset hx)
    · have hle := hs.size_le
      rw [Array.size_pop]
      omega

theorem slot_tame (hs : m.Sane) (i : Nat) :
    Tame (slot i) m fun v m' => m' = m ∧ v.In m.heap.Live := by
  unfold slot
  refine .get ?_
  cases hv : m.stack[i]? with
  | none => exact tame_fail hs _
  | some v => exact .pure ⟨rfl, hs.value_in hv⟩

theorem setSlot_tame (hs : m.Sane) (i : Nat) (hv : v.In m.heap.Live) :
    Tame (setSlot i v) m fun _ m' => m'.Sane ∧ m'.heap = m.heap := by
  unfold setSlot
  refine .get (.ite (fun _ => .modify ⟨?_, rfl⟩) fun _ => tame_fail hs _)
  refine hs.stack_to (fun x hx => ?_) (by simpa using hs.size_le)
  obtain ⟨j, hj⟩ := Array.getElem?_of_mem hx
  rcases getElem?_put_eq_some hj with ⟨-, rfl⟩ | ⟨-, hj⟩
  · exact hv x rfl
  · exact hs.value_in hj x rfl

theorem below_tame (hs : m.Sane) (d : Nat) : Tame (below d) m fun _ m' => m' = m := by
  unfold below
  refine .get ?_
  dsimp only
  exact .ite (fun _ => .pure rfl) fun _ => tame_fail hs _

theorem peek_tame (hs : m.Sane) (d : Nat) :
    Tame (peek d) m fun v m' => m' = m ∧ v.In m.heap.Live := by
  unfold peek
  refine (below_tame hs d).bind fun i m' hm' => ?_
  subst hm'
  exact slot_tame hs i

theorem poke_tame (hs : m.Sane) (d : Nat) (hv : v.In m.heap.Live) :
    Tame (poke d v) m fun _ m' => m'.Sane ∧ m'.heap = m.heap := by
  unfold poke
  refine (below_tame hs d).bind fun i m' hm' => ?_
  subst hm'
  exact setSlot_tame hs i hv

theorem truncate_tame (hs : m.Sane) (size : Nat) :
    Tame (truncate size) m fun _ m' => m'.Sane ∧ m'.heap = m.heap := by
  refine .modify ⟨hs.stack_to (fun x hx => hs.stack x ?_) ?_, rfl⟩
  · rw [← Array.mem_toList_iff, Array.toList_shrink] at hx
    exact Array.mem_toList_iff.1 (List.mem_of_mem_take hx)
  · have hle := hs.size_le
    rw [Array.size_shrink]
    omega

/-! ## Objects -/

/-- **A new object.** What it refers to, and what the machine refers to, is kept. -/
theorem alloc_tame (hs : m.Sane) {o : Object} (hkind : o.kind ≠ .string)
    (hrefs : ∀ r ∈ o.references, m.heap.Live r) (hfit : m.heap.Fit o) :
    Tame (alloc o) m fun x m' => m'.Sane ∧ m' = { m with heap := m'.heap } ∧
      m'.heap.cell? x = some ⟨o, o.storage⟩ ∧ m.heap.Keeps (o.references ++ m.roots) m'.heap := by
  let roots : Thunk (List Handle) :=
    .mk fun _ => Machine.handles m.stack m.frames m.openUpvalues m.globals m.initName
  have ha := Heap.alloc_allocates hs.heap.tidy roots o
  have hkeeps := ha.keeps
  refine ⟨hs.heap_to (hs.heap.alloc roots hkind hrefs hfit) ?_, rfl, ha.new, hkeeps⟩
  exact Heap.steady_of_cells fun x hx => hkeeps x (hx.mono fun r hr => List.mem_append_right _ hr)

theorem intern_tame (hs : m.Sane) (s : String) :
    Tame (intern s) m fun x m' => m'.Sane ∧ m'.heap.IsString x := by
  let roots : Thunk (List Handle) :=
    .mk fun _ => Machine.handles m.stack m.frames m.openUpvalues m.globals m.initName
  refine ⟨hs.heap_to (hs.heap.intern roots s) ?_, Heap.isString_intern hs.heap.tidy roots s⟩
  exact Heap.steady_of_cells fun x hx => Heap.keeps_intern hs.heap.tidy roots s x hx

/-- **An object is changed.** -/
theorem update_tame (hs : m.Sane) {g : Heap → Except Fault Heap} {cell : Cell} {o : Object}
    (hg : g m.heap = .ok (m.heap.replace x o)) (hcell : m.heap.cell? x = some cell)
    (hkind : o.kind = cell.object.kind) (hmutable : o.kind.isFixed = false)
    (hrefs : ∀ r ∈ o.references, m.heap.Live r) (hfit : m.heap.Fit o) :
    Tame (update g) m fun _ m' => m'.Sane ∧ m' = { m with heap := m.heap.replace x o } := by
  have hrun : update g m = .ok () { m with heap := m.heap.replace x o } := by
    simp only [update, hg]
  unfold Tame Ends
  rw [hrun]
  exact ⟨hs.heap_to (hs.heap.replace hcell hkind hmutable hrefs hfit)
    (Heap.steady_replace _ hcell hkind hmutable), rfl⟩

/-- The handle of a value, if it is an object of the kind. -/
theorem asKind_tame (hv : v.In m.heap.Live) (kind : ObjectKind) :
    Tame (asKind kind v) m fun x m' => m' = m ∧
      ∀ y, x = some y → v = .obj y ∧ m.heap.kind? y = some kind := by
  unfold asKind
  cases v with
  | obj x =>
    obtain ⟨cell, hcell⟩ := Heap.contains_iff.1 (hv x rfl)
    refine .look (asKind_of_cell? hcell kind) ⟨rfl, fun y hy => ?_⟩
    by_cases hk : cell.object.kind = kind
    · rw [if_pos hk] at hy
      cases hy
      exact ⟨rfl, by rw [Heap.kind?_of_cell? hcell, hk]⟩
    · rw [if_neg hk] at hy
      cases hy
  | _ => exact .look rfl ⟨rfl, fun y hy => by cases hy⟩

theorem requireKind_tame (hs : m.Sane) (hv : v.In m.heap.Live) (kind : ObjectKind)
    (e : RuntimeError) :
    Tame (requireKind kind v e) m fun x m' => m' = m ∧ v = .obj x ∧ m.heap.kind? x = some kind := by
  unfold requireKind
  refine (asKind_tame hv kind).bind fun x m' hx => ?_
  obtain ⟨rfl, hx⟩ := hx
  cases x with
  | none => exact tame_fail hs e
  | some y => exact .pure ⟨rfl, hx y rfl⟩

/-! ## Code -/

theorem frame_tame (hs : m.Sane) : Tame frame m fun f m' => m' = m ∧ m.frames.head? = some f := by
  unfold frame
  refine .get ?_
  cases hf : m.frames with
  | nil => exact tame_fail hs _
  | cons f rest => exact .pure ⟨rfl, rfl⟩

/-- The running call goes to another offset. -/
theorem jumpTo_tame (hs : m.Sane) (ip : Nat) :
    Tame (jumpTo ip) m fun _ m' => m'.Sane ∧ m.Alike m' ∧
      ∀ f, m.frames.head? = some f → m'.frames.head? = some { f with ip } := by
  refine .modify ?_
  cases hf : m.frames with
  | nil => exact ⟨hs, ⟨rfl, rfl, rfl⟩, by simp⟩
  | cons f rest =>
    have hframes := hs.frames
    have hlength := hs.length_le
    rw [hf] at hframes hlength
    refine ⟨⟨hs.heap, hs.size_le, hlength, hs.stack, fun g hg => ?_, hs.globals, hs.keyed, hs.opened,
      hs.initName⟩, ⟨rfl, rfl, ?_⟩, by simp⟩
    · rcases List.mem_cons.1 hg with rfl | hg
      · exact hframes f List.mem_cons_self
      · exact hframes g (List.mem_cons_of_mem _ hg)
    · simp [Machine.roots, Machine.handles, hf]

/-- The code of an active call. What its constants refer to can be reached. -/
theorem runningChunk_ends {E : Failure → Machine → Prop} (hs : m.Sane) (hf : f ∈ m.frames) :
    Ends E (runningChunk f) m fun c m' => m' = m ∧
      ∀ h, .obj h ∈ c.constants → m.heap.Reachable m.roots h := by
  obtain ⟨fn, bytes, hfn, hreach⟩ := hs.function hf
  unfold runningChunk
  refine .look_bind (Heap.function_eq_ok_iff.2 ⟨bytes, hfn⟩) (.pure ⟨rfl, fun h hh => ?_⟩)
  exact hs.reachable_reference hreach hfn (Heap.mem_references_of_constant hh)

/-- What is left unchanged when bytes of code are read. -/
structure Advances (m m' : Machine) : Prop extends m.Alike m' where
  sane : m'.Sane
  running : ∀ f, m.frames.head? = some f →
    ∃ f', m'.frames.head? = some f' ∧ f'.closure = f.closure

theorem readByte_tame (hs : m.Sane) : Tame readByte m fun _ m' => Advances m m' := by
  unfold readByte
  refine (frame_tame hs).bind fun f m₁ hf => ?_
  obtain ⟨rfl, hf⟩ := hf
  refine (runningChunk_ends hs (List.mem_of_mem_head? hf)).bind fun c m₂ hc => ?_
  obtain ⟨rfl, -⟩ := hc
  cases c.read8 f.ip with
  | error e => exact tame_fail hs _
  | ok byte =>
    refine (jumpTo_tame hs _).bind fun _ m' hm' => .pure ?_
    exact ⟨hm'.2.1, hm'.1, fun f hf => ⟨_, hm'.2.2 f hf, rfl⟩⟩

theorem readDistance_tame (hs : m.Sane) : Tame readDistance m fun _ m' => m'.Sane := by
  unfold readDistance
  refine (frame_tame hs).bind fun f m₁ hf => ?_
  obtain ⟨rfl, hf⟩ := hf
  refine (runningChunk_ends hs (List.mem_of_mem_head? hf)).bind fun c m₂ hc => ?_
  obtain ⟨rfl, -⟩ := hc
  cases c.read16 f.ip with
  | error e => exact tame_fail hs _
  | ok distance => exact (jumpTo_tame hs _).bind fun _ m' hm' => .pure hm'.1

theorem readOpcode_tame (hs : m.Sane) : Tame readOpcode m fun _ m' => m'.Sane := by
  unfold readOpcode
  refine (readByte_tame hs).bind fun byte m' hm' => ?_
  cases Opcode.ofByte? byte with
  | none => exact tame_fail hm'.sane _
  | some op => exact .pure hm'.sane

theorem readConstant_tame (hs : m.Sane) :
    Tame readConstant m fun v m' => m'.Sane ∧ v.In m'.heap.Live := by
  unfold readConstant
  refine (readByte_tame hs).bind fun byte m₁ hm₁ => ?_
  refine (frame_tame hm₁.sane).bind fun f m₂ hf => ?_
  obtain ⟨rfl, hf⟩ := hf
  refine (runningChunk_ends hm₁.sane (List.mem_of_mem_head? hf)).bind fun c m₃ hc => ?_
  obtain ⟨rfl, hc⟩ := hc
  cases hv : c.constants[byte.toNat]? with
  | none => exact tame_fail hm₁.sane _
  | some v =>
    refine .pure ⟨hm₁.sane, ?_⟩
    rintro h rfl
    exact (hc h (Array.mem_of_getElem? hv)).contains

/-- **A constant that is an object of a kind.** -/
theorem readObject_tame (hs : m.Sane) (kind : ObjectKind) :
    Tame (readObject kind) m fun x m' => Advances m m' ∧ m'.heap.kind? x = some kind ∧
      m'.heap.Reachable m'.roots x := by
  unfold readObject
  refine (readByte_tame hs).bind fun byte m₁ hm₁ => ?_
  refine (frame_tame hm₁.sane).bind fun f m₂ hf => ?_
  obtain ⟨rfl, hf⟩ := hf
  refine (runningChunk_ends hm₁.sane (List.mem_of_mem_head? hf)).bind fun c m₃ hc => ?_
  obtain ⟨rfl, hc⟩ := hc
  cases hv : c.constants[byte.toNat]? with
  | none => exact tame_fail hm₁.sane _
  | some v =>
    have hlive : v.In m₃.heap.Live := by
      rintro h rfl
      exact (hc h (Array.mem_of_getElem? hv)).contains
    refine (requireKind_tame hm₁.sane hlive kind _).mono fun x m' hx => ?_
    obtain ⟨rfl, rfl, hkind⟩ := hx
    exact ⟨hm₁, hkind, hc x (Array.mem_of_getElem? hv)⟩

theorem readName_tame (hs : m.Sane) :
    Tame readName m fun x m' => Advances m m' ∧ m'.heap.IsString x :=
  (readObject_tame hs .string).mono fun _ _ hx => ⟨hx.1, Heap.isString_of_kind hx.2.1⟩

/-! ## Reports -/

/-- **A report changes nothing but the journal.** It fails only if nothing is active. -/
theorem report_ends {E : Failure → Machine → Prop} (hs : m.Sane)
    (hE : m.frames = [] → E (.error .noActiveFrame) m) :
    Ends E report m fun _ m' => ∃ texts text,
      m' = { m with heap := (m.heap.record (.operands texts)).record (.executes text) } := by
  unfold report
  have hframe : Ends E frame m fun f m' => m' = m ∧ f ∈ m.frames := by
    unfold frame
    refine .get ?_
    cases hf : m.frames with
    | nil => exact .fail (hE hf)
    | cons f rest => exact .pure ⟨rfl, List.mem_cons_self⟩
  refine hframe.bind fun f m₁ hf => ?_
  obtain ⟨rfl, hf⟩ := hf
  refine .get ?_
  dsimp only
  obtain ⟨texts, htexts⟩ := mapM_ok (f := m₁.heap.display) (l := m₁.stack.toList) fun v hv =>
    hs.heap.display fun x hx => hs.stack x (hx ▸ Array.mem_toList_iff.1 hv)
  refine .look_bind htexts ((runningChunk_ends hs hf).bind fun c m₂ hc => ?_)
  obtain ⟨rfl, hc⟩ := hc
  have hdisplays : Listing.Displays m₂.heap c := by
    intro v hv
    have hlive : v.In m₂.heap.Live := by
      rintro h rfl
      exact (hc h hv).contains
    exact ⟨hs.heap.display hlive, hlive⟩
  obtain ⟨r, hr⟩ := Listing.instruction_ok hdisplays f.ip
  exact .look_bind hr (.modify ⟨texts, r.1, rfl⟩)

theorem report_tame (hs : m.Sane) : Tame report m fun _ m' => m'.Sane := by
  refine (report_ends hs fun _ => ⟨⟨_, rfl⟩, hs⟩).mono fun _ m' hm' => ?_
  obtain ⟨texts, text, rfl⟩ := hm'
  refine hs.heap_to ((hs.heap.record (by simp)).record (by simp)) ?_
  exact Heap.steady_of_cells fun x _ => by simp

end Run

end LoxMachine

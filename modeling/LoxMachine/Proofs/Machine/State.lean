import LoxMachine.Machine.Execution
import LoxMachine.Proofs.Heap.Sound
import LoxMachine.Proofs.Machine.Logic
import LoxMachine.Proofs.Table.Handles

/-!
# States of the machine

* `Machine.Safe live m`: the heap is sound, everything that the machine refers to is live, and the
  captured variables that are open are on the stack, the highest first. That is kept also by
  instructions that fail.
* `Call` is what is known of an active call: its function, the layout of its code, and the shape of
  the slots it has on the stack. `Nest` puts the calls that wait for a result on top of each other.
* `Machine.Busy` is a state inside of an instruction and `Machine.Ready` one between two.
* `Run.Meets x m Q`: the action `x` either ends with `Q`, or fails with an error of the user, and
  then in a safe state.
-/

namespace LoxMachine

/-- Whether an error is one that a compiled program can have. -/
def RuntimeError.isUser : RuntimeError → Bool
  | .stackUnderflow | .noActiveFrame | .decode _ => false
  | _ => true

namespace Machine

/-- Everything that the machine refers to is live. -/
structure Safe (live : Handle → Prop) (m : Machine) : Prop where
  heap : m.heap.Sound live m.openUpvalues
  stack : ∀ h, .obj h ∈ m.stack → live h
  closures : ∀ f ∈ m.frames, live f.closure ∧
    ∃ c bytes, m.heap.cell? f.closure = some ⟨.closure c, bytes⟩ ∧ c.function = f.function
  globals : m.globals.Within live
  initName : live m.initName ∧ m.heap.IsString m.initName
  opened : ∀ u ∈ m.openUpvalues, live u ∧ ∃ slot, m.heap.OnStack u slot
  sorted : m.openUpvalues.Pairwise fun u u' =>
    ∀ slot slot', m.heap.OnStack u slot → m.heap.OnStack u' slot' → slot' < slot

theorem mem_roots {m : Machine} {h : Handle} : h ∈ m.roots ↔ .obj h ∈ m.stack ∨
    (∃ f ∈ m.frames, f.closure = h) ∨ h ∈ m.openUpvalues ∨ h ∈ m.globals.handles ∨
      h = m.initName := by
  simp [roots, handles]

theorem Safe.roots {live : Handle → Prop} {m : Machine} (hs : m.Safe live) {h : Handle}
    (hh : h ∈ m.roots) : live h := by
  rcases mem_roots.1 hh with hv | ⟨f, hf, rfl⟩ | hu | hg | rfl
  · exact hs.stack h hv
  · exact (hs.closures f hf).1
  · exact (hs.opened h hu).1
  · exact Table.within_iff.1 hs.globals h hg
  · exact hs.initName.1

end Machine

/-! ## Calls -/

/-- What is known of an active call. -/
structure Call where
  frame : Frame
  function : Function
  pool : Pool
  layout : Layout
  /-- The slots that the call has on the stack. -/
  shape : Shape

namespace Call

/-- The call at another offset. -/
def goto (k : Call) (ip : Nat) : Call := { k with frame := { k.frame with ip } }

/-- The call after `n` more bytes. -/
def skip (k : Call) (n : Nat) : Call := k.goto (k.frame.ip + n)

@[simp] theorem skip_skip (k : Call) (a b : Nat) : (k.skip a).skip b = k.skip (a + b) := by
  simp [skip, goto, Nat.add_assoc]

@[simp] theorem skip_ip (k : Call) (n : Nat) : (k.skip n).frame.ip = k.frame.ip + n := rfl

@[simp] theorem skip_base (k : Call) (n : Nat) : (k.skip n).frame.base = k.frame.base := rfl

@[simp] theorem skip_function (k : Call) (n : Nat) : (k.skip n).function = k.function := rfl

@[simp] theorem skip_goto (k : Call) (n ip : Nat) : (k.skip n).goto ip = k.goto ip := rfl

/-- The bytes stand where the call goes on. -/
def Reads (k : Call) (bytes : List UInt8) : Prop :=
  Holds k.function.chunk.code k.frame.ip bytes

theorem Reads.head {k : Call} {b : UInt8} {bytes : List UInt8} (h : k.Reads (b :: bytes)) :
    k.function.chunk.code[k.frame.ip]? = some b := h 0 (Nat.zero_lt_succ _)

theorem Reads.tail {k : Call} {b : UInt8} {bytes : List UInt8} (h : k.Reads (b :: bytes)) :
    (k.skip 1).Reads bytes := by
  intro i hi
  have hb := h (i + 1) (Nat.succ_lt_succ hi)
  rw [List.getElem?_cons_succ] at hb
  rw [← hb, skip_function, skip_ip, Nat.add_assoc, Nat.add_comm 1]

/-- The code of the function is laid out. -/
def Laid (k : Call) : Prop := ∃ entry, Lays k.pool k.function.chunk.written { entry } none k.layout

/-- The call is what it is known to be. -/
structure Known (heap : Heap) (k : Call) : Prop where
  function : ∃ bytes, heap.cell? k.frame.function = some ⟨.function k.function, bytes⟩
  pool : k.function.pool heap = k.pool

theorem Known.keep {heap heap' : Heap} {k : Call} (hk : k.Known heap)
    (hfunction : heap'.cell? k.frame.function = heap.cell? k.frame.function)
    (hconstants : ∀ x, .obj x ∈ k.function.chunk.constants → heap'.cell? x = heap.cell? x) :
    k.Known heap' := by
  obtain ⟨bytes, hcell⟩ := hk.function
  exact ⟨⟨bytes, hfunction.trans hcell⟩, (Heap.pool_congr hconstants).trans hk.pool⟩

/-- A call stays known while its function and the constants of that do not change. -/
theorem Known.steady {live : Handle → Prop} {heap heap' : Heap} {k : Call} (hk : k.Known heap)
    (hs : heap.Steady live heap')
    (hclosed : ∀ x cell r, live x → heap.cell? x = some cell → r ∈ cell.object.references → live r)
    (hl : live k.frame.function) (hcompiled : heap.Compiled k.frame.function) : k.Known heap' := by
  obtain ⟨bytes, hcell⟩ := hk.function
  cases hcompiled with
  | intro hcell' _ hconstants =>
    rw [hcell] at hcell'
    cases hcell'
    refine hk.keep ?_ fun x hx => hs.constants hclosed hcell hl hconstants hx
    rw [hcell]
    exact hs.fixed _ _ hl hcell rfl

end Call

/-- Calls that wait for a result, the innermost first, and the shape of the stack they take. -/
inductive Nest : List Call → Shape → Prop
  | nil : Nest [] []
  | cons {k : Call} {ks : List Call} {below : Shape} (laid : k.Laid)
      (leads : k.layout.Leads k.frame.ip (false :: k.shape)) (base : k.frame.base = below.length)
      (rest : Nest ks below) : Nest (k :: ks) (k.shape ++ below)

namespace Machine

variable {live : Handle → Prop} {k : Call} {outer : List Call} {marks : Shape} {n : Nat}
  {m : Machine}

/-- A state inside of an instruction: the calls are known, the stack has `n` values, and the open
variables are in slots that `marks` has marked. -/
structure Busy (live : Handle → Prop) (k : Call) (outer : List Call) (marks : Shape) (n : Nat)
    (m : Machine) : Prop extends m.Safe live where
  frames_eq : m.frames = k.frame :: outer.map Call.frame
  known : ∀ c ∈ k :: outer, c.Known m.heap
  size_eq : m.stack.size = n
  marked : ∀ u ∈ m.openUpvalues, ∀ slot, m.heap.OnStack u slot → marks.slot? slot = some true

/-- The function of a known call is compiled and live. -/
theorem Busy.function (h : m.Busy live k outer marks n) {c : Call} (hc : c ∈ k :: outer) :
    live c.frame.function ∧ m.heap.Compiled c.frame.function := by
  have hf : c.frame ∈ m.frames := by
    rw [h.frames_eq]
    exact List.mem_map_of_mem hc
  obtain ⟨hl, closure, bytes, hcell, hfunction⟩ := h.closures _ hf
  rw [← hfunction]
  exact ⟨h.heap.references hl hcell List.mem_cons_self, (h.heap.proper hl hcell).1⟩

theorem Safe.reachable_reference (hs : m.Safe live) {x r : Handle} {cell : Cell}
    (hx : m.heap.Reachable m.roots x) (hcell : m.heap.cell? x = some cell)
    (hr : r ∈ cell.object.references) : m.heap.Reachable m.roots r := by
  have hl : live x := hs.heap.reachable (fun _ hr => hs.roots hr) hx
  exact .reference hx hcell hr (hs.heap.contains (hs.heap.references hl hcell hr))

theorem Safe.reachable (hs : m.Safe live) {x : Handle} (hx : m.heap.Reachable m.roots x) :
    live x := hs.heap.reachable (fun _ hr => hs.roots hr) hx

theorem Safe.reachable_root (hs : m.Safe live) {x : Handle} (hx : x ∈ m.roots) :
    m.heap.Reachable m.roots x := .root hx (hs.heap.contains (hs.roots hx))

/-- **Another heap**, in which what can be reached has not changed, except for the contents of
objects that can change. -/
theorem Safe.heap_to {live' : Handle → Prop} {heap : Heap} (hs : m.Safe live)
    (hsound : heap.Sound live' m.openUpvalues) (hroots : ∀ x ∈ m.roots, live' x)
    (hsteady : m.heap.Steady (m.heap.Reachable m.roots) heap)
    (hstack : ∀ u ∈ m.openUpvalues, ∀ slot, heap.OnStack u slot ↔ m.heap.OnStack u slot) :
    { m with heap }.Safe live' := by
  refine ⟨hsound, fun x hx => ?_, fun f hf => ?_, Table.within_iff.2 fun x hx => ?_, ⟨?_, ?_⟩,
    fun u hu => ⟨?_, ?_⟩, ?_⟩
  · exact hroots x (mem_roots.2 (Or.inl hx))
  · have hroot : f.closure ∈ m.roots := mem_roots.2 (Or.inr (Or.inl ⟨f, hf, rfl⟩))
    obtain ⟨-, c, bytes, hcell, hc⟩ := hs.closures f hf
    exact ⟨hroots _ hroot, c, bytes, hsteady.fixed _ _ (hs.reachable_root hroot) hcell rfl, hc⟩
  · exact hroots x (mem_roots.2 (Or.inr (Or.inr (Or.inr (Or.inl hx)))))
  · exact hroots _ (mem_roots.2 (Or.inr (Or.inr (Or.inr (Or.inr rfl)))))
  · have hroot : m.initName ∈ m.roots := mem_roots.2 (Or.inr (Or.inr (Or.inr (Or.inr rfl))))
    exact hsteady.isString (hs.reachable_root hroot) hs.initName.2
  · exact hroots u (mem_roots.2 (Or.inr (Or.inr (Or.inl hu))))
  · obtain ⟨-, slot, hslot⟩ := hs.opened u hu
    exact ⟨slot, (hstack u hu slot).2 hslot⟩
  · refine List.Pairwise.imp_of_mem (fun {u u'} hu hu' hlt slot slot' hs hs' => ?_) hs.sorted
    exact hlt slot slot' ((hstack u hu slot).1 hs) ((hstack u' hu' slot').1 hs')

theorem Busy.heap_to {live' : Handle → Prop} {heap : Heap} (h : m.Busy live k outer marks n)
    (hsound : heap.Sound live' m.openUpvalues) (hroots : ∀ x ∈ m.roots, live' x)
    (hsteady : m.heap.Steady (m.heap.Reachable m.roots) heap)
    (hstack : ∀ u ∈ m.openUpvalues, ∀ slot, heap.OnStack u slot ↔ m.heap.OnStack u slot) :
    { m with heap }.Busy live' k outer marks n := by
  refine ⟨h.toSafe.heap_to hsound hroots hsteady hstack, h.frames_eq, fun c hc => ?_, h.size_eq,
    fun u hu slot hslot => h.marked u hu slot ((hstack u hu slot).1 hslot)⟩
  have hf : c.frame ∈ m.frames := by
    rw [h.frames_eq]
    exact List.mem_map_of_mem hc
  obtain ⟨-, closure, bytes, hclosure, hfunction⟩ := h.closures _ hf
  have hroot : c.frame.closure ∈ m.roots := mem_roots.2 (Or.inr (Or.inl ⟨_, hf, rfl⟩))
  have hreach : m.heap.Reachable m.roots c.frame.function := by
    rw [← hfunction]
    exact h.reachable_reference (h.reachable_root hroot) hclosure List.mem_cons_self
  exact (h.known c hc).steady hsteady (fun x cell r hx hcell hr => h.reachable_reference hx hcell hr)
    hreach (h.function hc).2

/-- A state between two instructions. -/
structure Ready (live : Handle → Prop) (k : Call) (outer : List Call) (below : Shape)
    (m : Machine) : Prop extends
    m.Busy live k outer (k.shape ++ below) (k.shape ++ below).length where
  laid : k.Laid
  place : k.layout k.frame.ip = some k.shape
  base : k.frame.base = below.length
  nest : Nest outer below

end Machine

/-! ## Actions -/

/-- A failure that a compiled program can have. -/
structure Failure.Allowed (e : Failure) (m : Machine) : Prop where
  error : ∃ r, e = .error r ∧ r.isUser = true
  safe : ∃ live, m.Safe live

namespace Run

variable {α β : Type} {x : Run α} {m : Machine} {Q Q' : α → Machine → Prop}

/-- The action ends with `Q`, or fails with an error of the user in a safe state. -/
def Meets (x : Run α) (m : Machine) (Q : α → Machine → Prop) : Prop := Ends Failure.Allowed x m Q

namespace Meets

theorem mono (h : Meets x m Q) (hQ : ∀ a m', Q a m' → Q' a m') : Meets x m Q' := Ends.mono h hQ

theorem bind {f : α → Run β} {R : β → Machine → Prop} (h : Meets x m Q)
    (hf : ∀ a m', Q a m' → Meets (f a) m' R) : Meets (x >>= f) m R := Ends.bind h hf

theorem pure {a : α} (h : Q a m) : Meets (pure a) m Q := h

/-- Reading the state. -/
theorem get {f : Machine → Run β} {R : β → Machine → Prop} (h : Meets (f m) m R) :
    Meets (MonadState.get >>= f) m R := h

/-- Changing the state. -/
theorem modify {f : Machine → Machine} {Q : Unit → Machine → Prop} (h : Q () (f m)) :
    Meets (modify f) m Q := h

/-- An error of the user. -/
theorem fail {live : Handle → Prop} {r : RuntimeError} (hr : r.isUser = true) (hs : m.Safe live) :
    Meets (fail r : Run α) m Q := ⟨⟨r, rfl, hr⟩, live, hs⟩

/-- Nothing has to be shown of what follows an error. -/
theorem fail_bind {live : Handle → Prop} {r : RuntimeError} {f : α → Run β}
    {R : β → Machine → Prop} (hr : r.isUser = true) (hs : m.Safe live) :
    Meets ((Run.fail r : Run α) >>= f) m R := ⟨⟨r, rfl, hr⟩, live, hs⟩

theorem ite {p : Prop} [Decidable p] {y : Run α} (hx : p → Meets x m Q) (hy : ¬p → Meets y m Q) :
    Meets (if p then x else y) m Q := Ends.ite hx hy

/-- A choice before something else. -/
theorem ite_bind {p : Prop} [Decidable p] {y : Run α} {f : α → Run β} {R : β → Machine → Prop}
    (h : Meets (if p then x else y) m Q) (hf : ∀ a m', Q a m' → Meets (f a) m' R) :
    Meets (if p then x >>= f else y >>= f) m R := Ends.ite_bind h hf

/-- Reading the heap. -/
theorem look {f : Heap → Except Fault α} {a : α} (ha : f m.heap = .ok a) (h : Q a m) :
    Meets (look f) m Q := Ends.look ha h

theorem look_bind {f : Heap → Except Fault α} {a : α} {g : α → Run β} {R : β → Machine → Prop}
    (ha : f m.heap = .ok a) (h : Meets (g a) m R) : Meets (Run.look f >>= g) m R :=
  Ends.look_bind ha h

end Meets

end Run

end LoxMachine

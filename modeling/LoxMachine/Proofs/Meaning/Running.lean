import LoxMachine.Proofs.Machine.Fetching
import LoxMachine.Proofs.Machine.Holding
import LoxMachine.Proofs.Meaning.Data
import LoxMachine.Proofs.Meaning.Desks

/-!
# Data on the machine

* `Desk.Shown clock code g d m`: the machine is executing the function `g`, which has the code, and has come to the
  state `d` on data.
* It is shown what becomes of `Shown` when the stack is used, a global variable is assigned to and code is read.
-/

namespace LoxMachine

/-- Global variables and their values are held by the table. -/
theorem Machine.Sane.mem_globals {m : Machine} {c : Handle} {v : Value} (hs : m.Sane)
    (hc : m.globals.toMap c = some v) : c ∈ m.globals.handles ∧ ∀ y, v = .obj y → y ∈ m.globals.handles := by
  have hwithin : m.globals.Within (· ∈ m.globals.handles) := Table.within_iff.2 fun _ => id
  obtain ⟨i, key, hi, rfl⟩ := (Table.toMap_eq_some_iff hs.keyed.sound.indexed).1 hc
  exact hwithin _ (Array.mem_of_getElem? hi)

namespace Symbolic

variable {clock : Handle} {code : Code} {g : Function} {d d' : Desk} {m m' : Machine} {i : Instruction}
  {x y : Datum} {rest : List Datum} {v w : Value}

/-- After an action that does not fail. -/
theorem after_ok {α β : Type} {E : Failure → Machine → Prop} {Q : β → Machine → Prop} {x : Run α} {f : α → Run β}
    {a : α} (hx : x m = .ok a m') (hf : Run.Ends E (f a) m' Q) : Run.Ends E (x >>= f) m Q := by
  unfold Run.Ends
  rw [Run.bind_of_ok hx]
  exact hf

theorem ends_ok {α : Type} {E : Failure → Machine → Prop} {Q : α → Machine → Prop} {x : Run α} {a : α}
    (hx : x m = .ok a m') (hq : Q a m') : Run.Ends E x m Q := by
  unfold Run.Ends
  rw [hx]
  exact hq

/-- Lines as they are printed. -/
def printed (lines : List String) : ByteArray := (String.join (lines.map (· ++ "\n"))).toUTF8

theorem printed_append (lines : List String) (line : String) :
    printed (lines ++ [line]) = printed lines ++ (line ++ "\n").toUTF8 := by
  simp [printed, String.join_append]

/-- A script that is in execution on data is so on the machine. -/
structure Desk.Shown (clock : Handle) (code : Code) (g : Function) (d : Desk) (m : Machine) : Prop where
  sane : m.Sane
  frames : ∃ f, m.frames = [f] ∧ f.ip = d.ip ∧ f.base = 0 ∧ m.heap.function f.function = .ok g
  spells : Spells ⟨m.heap, g.chunk.constants.toList, [], 0⟩ code g.chunk.code.toList
  stack : ∃ v vs, m.stack = (v :: vs.reverse).toArray ∧ List.Forall₂ (m.heap.Denotes clock) vs d.stack
  globals : ∀ x name, .obj x ∈ g.chunk.constants → m.heap.hasContents name x = true →
    Option.Rel (m.heap.Denotes clock) (m.globals.toMap x) (d.globals name)
  output : m.sink = { written := printed d.output }
  opened : m.openUpvalues = []

/-- The stack is full. -/
def Full (e : Failure) (_ : Machine) : Prop := e = .error .stackOverflow

namespace Desk.Shown

/-- The constants of the function can be reached. -/
theorem reachable (h : d.Shown clock code g m) {c : Handle} (hc : .obj c ∈ g.chunk.constants) :
    m.heap.Reachable m.roots c := by
  obtain ⟨f, hf, -, -, hg⟩ := h.frames
  obtain ⟨fn, bytes, hcell, hreach⟩ := h.sane.function (f := f) (by rw [hf]; exact List.mem_singleton_self f)
  obtain rfl : fn = g := Except.ok.inj ((Heap.function_eq_ok_iff.2 ⟨bytes, hcell⟩).symm.trans hg)
  exact h.sane.reachable_reference hreach hcell (Heap.mem_references_of_constant hc)

/-- **Another heap**, in which everything that can be reached is the same. -/
theorem heap_to (h : d.Shown clock code g m) {heap : Heap} (hs : { m with heap }.Sane)
    (hkeeps : m.heap.Keeps m.roots heap) : d.Shown clock code g { m with heap } := by
  obtain ⟨f, hf, hip, hbase, hg⟩ := h.frames
  obtain ⟨fn, bytes, hcell, hreach⟩ := h.sane.function (f := f) (by rw [hf]; exact List.mem_singleton_self f)
  obtain ⟨w, vs, hstack, hdata⟩ := h.stack
  obtain rfl : fn = g := Except.ok.inj ((Heap.function_eq_ok_iff.2 ⟨bytes, hcell⟩).symm.trans hg)
  refine ⟨hs, ⟨f, hf, hip, hbase, ?_⟩, ?_, ⟨w, vs, hstack, ?_⟩, fun c name hc hname => ?_, h.output, h.opened⟩
  · rw [← hg]
    exact Heap.function_eq_ok_iff.2 ⟨bytes, (hkeeps _ hreach).trans hcell⟩ |>.trans
      (Heap.function_eq_ok_iff.2 ⟨bytes, hcell⟩).symm
  · exact h.spells.mono ⟨List.prefix_rfl, List.prefix_rfl, rfl, fun y hy =>
      hkeeps y (reachable_of_constants hreach hcell hy)⟩
  · refine Heap.Denotes.keep_all hdata fun y hy => hkeeps y (h.sane.reachable_root (Machine.mem_roots.2 (.inl ?_)))
    rw [hstack]
    simp [hy]
  · rw [Heap.hasContents_congr (hkeeps _ (h.reachable hc))] at hname
    refine optionRel_mono (h.globals c name hc hname) fun v hv x _ hd => hd.keep fun y hy => ?_
    subst hy
    exact hkeeps y (h.sane.reachable_root
      (Machine.mem_roots.2 (.inr (.inr (.inr (.inl ((h.sane.mem_globals hv).2 y rfl)))))))

/-! ## The stack -/

theorem live (hd : m.heap.Denotes clock v x) : v.In m.heap.Live := by
  rintro y rfl
  obtain ⟨cell, hc⟩ := hd.cell
  exact Heap.contains_of_cell? hc

/-- The same machine with another stack. -/
theorem stack_to (h : d.Shown clock code g m) {stack : List Datum} {vs : List Value} {w : Value}
    {values : Array Value} (hs : { m with stack := values }.Sane) (hvalues : values = (w :: vs.reverse).toArray)
    (hdata : List.Forall₂ (m.heap.Denotes clock) vs stack) :
    { d with stack }.Shown clock code g { m with stack := values } :=
  ⟨hs, h.frames, h.spells, ⟨w, vs, hvalues, hdata⟩, h.globals, h.output, h.opened⟩

theorem push (h : d.Shown clock code g m) (hd : m.heap.Denotes clock v x) :
    Run.Ends Full (Run.push v) m fun _ m' => { d with stack := x :: d.stack }.Shown clock code g m' := by
  obtain ⟨w, vs, hstack, hdata⟩ := h.stack
  unfold Run.push
  refine .get (.ite (fun _ => .fail_bind rfl) fun hlt => .modify ?_)
  have hpush : m.stack.push v = (w :: (v :: vs).reverse).toArray := by
    rw [hstack]
    simp
  refine h.stack_to (h.sane.stack_to (fun y hy => ?_) (by rw [Array.size_push]; omega)) hpush (.cons hd hdata)
  rcases Array.mem_push.1 hy with hy | hy
  · exact h.sane.stack y hy
  · exact live hd y hy.symm

theorem pop (h : d.Shown clock code g m) (hs : d.stack = x :: rest) : ∃ v, m.heap.Denotes clock v x ∧
    Run.pop m = .ok v { m with stack := m.stack.pop } ∧
      { d with stack := rest }.Shown clock code g { m with stack := m.stack.pop } := by
  obtain ⟨w, vs, hstack, hdata⟩ := h.stack
  rw [hs] at hdata
  cases hdata with
  | @cons v _ vs _ hd hdata =>
    have hvalues : w :: (v :: vs).reverse = (w :: vs.reverse) ++ [v] := by simp
    rw [hvalues] at hstack
    have hpop : m.stack.pop = (w :: vs.reverse).toArray := by rw [hstack, List.pop_toArray, List.dropLast_concat]
    have hback : m.stack.back? = some v := by rw [hstack, List.back?_toArray, List.getLast?_concat]
    refine ⟨v, hd, by rw [Cellular.pop_eq, hback], h.stack_to ?_ hpop hdata⟩
    exact ((Run.pop_tame h.sane).of_ok (a := v) (by rw [Cellular.pop_eq, hback])).2.1

/-- The value some way below the top. -/
theorem slot (h : d.Shown clock code g m) {j k : Nat} (hj : j + k = d.stack.length) (hx : d.stack[j]? = some x) :
    ∃ v, m.heap.Denotes clock v x ∧ m.stack[k]? = some v := by
  obtain ⟨w, vs, hstack, hdata⟩ := h.stack
  have hlt := (List.getElem?_eq_some_iff.1 hx).1
  have hlength := hdata.length_eq
  obtain ⟨i, rfl⟩ := Nat.exists_eq_add_one.2 (show 0 < k by omega)
  refine ⟨vs[j], ?_, ?_⟩
  · have hrel := List.forall₂_iff_get.1 hdata
    obtain ⟨hlt', rfl⟩ := List.getElem?_eq_some_iff.1 hx
    exact hrel.2 j (by omega) hlt'
  · rw [hstack]
    simp only [List.getElem?_toArray, List.getElem?_cons_succ]
    rw [List.getElem?_reverse (by omega), List.getElem?_eq_getElem (by omega)]
    congr 2
    omega

theorem below (h : d.Shown clock code g m) {j : Nat} (hlt : j < d.stack.length) :
    Run.below j m = .ok (d.stack.length - j) m := by
  obtain ⟨w, vs, hstack, hdata⟩ := h.stack
  have hsize : m.stack.size = d.stack.length + 1 := by simp [hstack, hdata.length_eq]
  unfold Run.below
  rw [Run.get_bind, hsize, show d.stack.length + 1 - 1 - j = d.stack.length - j by omega]
  exact congrFun (if_pos (by omega)) m

theorem peek (h : d.Shown clock code g m) {j : Nat} (hx : d.stack[j]? = some x) :
    ∃ v, m.heap.Denotes clock v x ∧ Run.peek j m = .ok v m := by
  have hlt := (List.getElem?_eq_some_iff.1 hx).1
  obtain ⟨v, hd, hv⟩ := h.slot (k := d.stack.length - j) (by omega) hx
  refine ⟨v, hd, ?_⟩
  unfold Run.peek
  rw [Run.bind_of_ok (h.below hlt), Cellular.slot_eq, hv]

/-- A value below the top is overwritten. -/
theorem overwrite (h : d.Shown clock code g m) {j k : Nat} (hj : j + k = d.stack.length) (hlt : j < d.stack.length)
    (hd : m.heap.Denotes clock v x) : Run.setSlot k v m = .ok () { m with stack := put m.stack k v } ∧
      { d with stack := d.stack.set j x }.Shown clock code g { m with stack := put m.stack k v } := by
  obtain ⟨w, vs, hstack, hdata⟩ := h.stack
  have hlength := hdata.length_eq
  have hsize : m.stack.size = d.stack.length + 1 := by simp [hstack, hlength]
  have hset : Run.setSlot k v m = .ok () { m with stack := put m.stack k v } := by
    rw [Cellular.setSlot_eq, if_pos (by omega)]
  refine ⟨hset, @stack_to _ _ _ _ _ h _ (vs.set j v) w _ ((Run.setSlot_tame h.sane k (live hd)).of_ok hset).1 ?_ ?_⟩
  · obtain ⟨i, rfl⟩ := Nat.exists_eq_add_one.2 (show 0 < k by omega)
    rw [hstack, put, List.setIfInBounds_toArray, List.set_cons_succ]
    refine congrArg (fun l => (w :: l).toArray) (List.ext_getElem (by simp) fun n hn _ => ?_)
    have hn : n < vs.length := by simpa using hn
    have hsame : i = n ↔ j = vs.length - 1 - n := by omega
    simp only [List.getElem_reverse, List.getElem_set, List.length_set, hsame]
  · refine List.forall₂_iff_get.2 ⟨by simpa using hlength, fun i hi hi' => ?_⟩
    rw [List.length_set] at hi hi'
    simp only [List.get_eq_getElem, List.getElem_set]
    split
    · exact hd
    · exact (List.forall₂_iff_get.1 hdata).2 i hi hi'

/-- The value on top is overwritten. -/
theorem poke (h : d.Shown clock code g m) (hs : d.stack = y :: rest) (hd : m.heap.Denotes clock v x) :
    ∃ values, Run.poke 0 v m = .ok () { m with stack := values } ∧
      { d with stack := x :: rest }.Shown clock code g { m with stack := values } := by
  have hlt : 0 < d.stack.length := by simp [hs]
  obtain ⟨hset, hshown⟩ := h.overwrite (k := d.stack.length) (Nat.zero_add _) hlt hd
  rw [hs, List.set_cons_zero, ← hs] at hshown
  refine ⟨_, ?_, hshown⟩
  unfold Run.poke
  rw [Run.bind_of_ok (h.below hlt)]
  exact hset

/-! ## Strings -/

theorem intern (h : d.Shown clock code g m) (s : String) : ∃ z heap, Run.intern s m = .ok z { m with heap } ∧
    d.Shown clock code g { m with heap } ∧ heap.hasContents s z = true := by
  let roots : Thunk (List Handle) :=
    .mk fun _ => Machine.handles m.stack m.frames m.openUpvalues m.globals m.initName
  exact ⟨_, _, rfl, h.heap_to ((Run.intern_tame h.sane s).of_ok rfl).1 (Heap.keeps_intern h.sane.heap.tidy roots s),
    Heap.hasContents_intern h.sane.heap.tidy roots s⟩

/-! ## Global variables -/

/-- The key of a name. -/
theorem key_of_hasContents {heap : Heap} {name : String} {c : Handle} (hname : heap.hasContents name c = true) :
    heap.key c = .ok ⟨c, heap.hashOf c⟩ := by
  obtain ⟨text, bytes, hc, -⟩ := (Heap.hasContents_iff heap _ _).1 hname
  exact Heap.key_eq ⟨text, bytes, hc⟩

/-- A global variable that is there. -/
theorem global_some (h : d.Shown clock code g m) {c : Handle} {name : String} (hc : .obj c ∈ g.chunk.constants)
    (hname : m.heap.hasContents name c = true) (hx : d.globals name = some x) :
    ∃ v, m.heap.Denotes clock v x ∧ m.globals.toMap c = some v := by
  have hrel := h.globals c name hc hname
  rw [hx] at hrel
  cases hv : m.globals.toMap c with
  | none =>
    rw [hv] at hrel
    cases hrel
  | some v =>
    rw [hv] at hrel
    cases hrel with
    | some hd => exact ⟨v, hd, rfl⟩

/-- A global variable that is not there. -/
theorem global_none (h : d.Shown clock code g m) {c : Handle} {name : String} (hc : .obj c ∈ g.chunk.constants)
    (hname : m.heap.hasContents name c = true) (hx : d.globals name = none) : m.globals.toMap c = none := by
  have hrel := h.globals c name hc hname
  rw [hx] at hrel
  cases hv : m.globals.toMap c with
  | none => rfl
  | some v =>
    rw [hv] at hrel
    cases hrel

/-- A global variable gets a value. -/
theorem assign (h : d.Shown clock code g m) {c : Handle} {name : String}
    (hname : m.heap.hasContents name c = true) (hd : m.heap.Denotes clock v x) :
    { d with globals := Plain.extend d.globals name x }.Shown clock code g
      { m with globals := (m.globals.set ⟨c, m.heap.hashOf c⟩ v).2 } := by
  obtain ⟨text, bytes, hcell, -⟩ := (Heap.hasContents_iff m.heap _ _).1 hname
  have hs := h.sane
  obtain ⟨-, -, hmap⟩ := hs.keyed.sound.set (show (⟨c, m.heap.hashOf c⟩ : Key).hash = _ from rfl) v
  refine ⟨⟨hs.heap, hs.size_le, hs.length_le, hs.stack, hs.frames,
    hs.globals.set (Heap.contains_of_cell? hcell) (live hd), hs.keyed.set ⟨text, bytes, hcell⟩ v, hs.opened,
    hs.initName⟩, h.frames, h.spells, h.stack, fun y other hy hother => ?_, h.output, h.opened⟩
  simp only [hmap, Function.update_apply, Plain.extend]
  by_cases hyc : y = c
  · subst hyc
    rw [if_pos rfl, if_pos (Heap.hasContents_inj hother hname)]
    exact .some hd
  · have hne : other ≠ name := fun heq => hyc (hs.heap.interned.unique _ _ _ hother (heq.symm ▸ hname))
    rw [if_neg hyc, if_neg hne]
    exact h.globals y other hy hother

/-! ## Code -/

/-- The machine after bytes of code have been read. -/
theorem consumes (h : d.Shown clock code g m) {piece : List UInt8} (hholds : Holds g.chunk.code d.ip piece) :
    ∃ m₁, m.Consumes piece m₁ ∧ { d with ip := d.ip + piece.length }.Shown clock code g m₁ ∧ m₁.heap = m.heap ∧
      m₁.stack = m.stack ∧ m₁.sink = m.sink ∧ m₁.globals = m.globals := by
  obtain ⟨f, hf, hip, hbase, hg⟩ := h.frames
  refine ⟨{ m with frames := [{ f with ip := f.ip + piece.length }] },
    ⟨f, [], hf, ⟨g, hg, hip ▸ hholds⟩, rfl⟩, ⟨?_, ⟨_, rfl, by rw [hip], hbase, hg⟩, h.spells, h.stack, h.globals,
      h.output, h.opened⟩, rfl, rfl, rfl, rfl⟩
  have hsane := ((Run.jumpTo_tame h.sane (f.ip + piece.length)).of_ok (Run.jumpTo_of_frames hf _)).1
  exact hsane

/-- A constant of the function. -/
theorem constant (h : d.Shown clock code g m) {c : UInt8} (hv : g.chunk.constants[c.toNat]? = some v) :
    m.HasConstant c v := by
  obtain ⟨f, hf, -, -, hg⟩ := h.frames
  exact ⟨f, [], g, hf, hg, hv⟩

/-- An operation without operands is read. -/
theorem read_op (h : d.Shown clock code g m) {op : Opcode} (hat : Lies code d.ip [.op op]) : ∃ m₁,
    Run.readOpcode m = .ok op m₁ ∧ { d with ip := d.ip + 1 }.Shown clock code g m₁ ∧ m₁.sink = m.sink := by
  obtain ⟨piece, hpiece, hholds⟩ := h.spells.encodes hat nofun
  cases hpiece
  obtain ⟨m₁, hconsumes, hshown, -, -, hsink, -⟩ := h.consumes hholds
  exact ⟨m₁, Run.readOpcode_of_consumes hconsumes, hshown, hsink⟩

/-- An operation with one byte is read. -/
theorem read_byte (h : d.Shown clock code g m) {op : Opcode} {c : UInt8}
    (hholds : Holds g.chunk.code d.ip [op.toByte, c]) : ∃ m₁ m₂, Run.readOpcode m = .ok op m₁ ∧
      m₁.Consumes [c] m₂ ∧ m₁.heap = m.heap ∧ { d with ip := d.ip + 2 }.Shown clock code g m₂ ∧
        m₂.heap = m.heap ∧ m₂.sink = m.sink ∧
          ∀ v, g.chunk.constants.toList[c.toNat]? = some v → m₁.HasConstant c v := by
  obtain ⟨m₂, hconsumes, hshown, hheap, -, hsink, -⟩ := h.consumes hholds
  obtain ⟨m₁, hop, hbyte⟩ := hconsumes.uncons
  exact ⟨m₁, m₂, Run.readOpcode_of_consumes hop, hbyte, hop.heap_eq, hshown, hheap, hsink,
    fun v hv => (hshown.constant (Array.getElem?_toList ▸ hv)).before hbyte⟩

/-- An operation on a name is read. -/
theorem read_name (h : d.Shown clock code g m) {op : Opcode} {c : UInt8} {name : String}
    (hholds : Holds g.chunk.code d.ip [op.toByte, c])
    (hconst : Linkage.Says ⟨m.heap, g.chunk.constants.toList, [], 0⟩ c name) : ∃ m₁ m₂ z,
      Run.readOpcode m = .ok op m₁ ∧ Run.readName m₁ = .ok z m₂ ∧
        { d with ip := d.ip + 2 }.Shown clock code g m₂ ∧ .obj z ∈ g.chunk.constants ∧
          m₂.heap.hasContents name z = true ∧ m₂.sink = m.sink := by
  obtain ⟨z, hz, hname⟩ := hconst
  obtain ⟨m₁, m₂, hop, hbyte, hheap₁, hshown, hheap, hsink, hconst⟩ := h.read_byte hholds
  exact ⟨m₁, m₂, z, hop, Run.readName_of_consumes hbyte (hconst _ hz) (hheap₁ ▸ hname), hshown,
    Array.mem_toList_iff.1 (List.mem_of_getElem? hz), hheap ▸ hname, hsink⟩

end Desk.Shown

end Symbolic

end LoxMachine

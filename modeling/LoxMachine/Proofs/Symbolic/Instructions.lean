import LoxMachine.Proofs.Code.Functions
import LoxMachine.Proofs.Grammar.Rules
import LoxMachine.Proofs.Heap.Interning

/-!
# Symbolic code

Code in which the operands of instructions are names, literals and variables. The bytes of a function
stand for such code by way of its constants and of the variables that it captures.

* `Symbolic.Instruction` is an instruction, and `Symbolic.extent` the number of bytes of some of them.
* `Symbolic.Linkage` is what the operand bytes of a function refer to.
* `Symbolic.Spells L code bytes`: the bytes stand for the code, and so do those of every function that the
  code makes closures of.
* `Spells.mono`: bytes stand for the same code when constants and captured variables are added and the
  heap keeps what the constants refer to.
-/

namespace LoxMachine.Symbolic

/-! ## Instructions -/

/-- A variable, as the code of a function refers to it. -/
inductive Variable where
  /-- A local variable of the function. -/
  | own (slot : Nat) (name : String)
  /-- A local variable of an enclosing function, given by how many functions are around that one, and by
  its slot there. -/
  | outer (place : Nat × Nat) (name : String)
  | global (name : String)
  deriving DecidableEq, Repr

inductive Instruction where
  /-- An operation without operands. -/
  | op (op : Opcode)
  | number (n : Number)
  | string (s : String)
  | get (v : Variable)
  | set (v : Variable)
  /-- An operation on a name. -/
  | named (op : Opcode) (name : String)
  /-- A call of a property. -/
  | invoke (op : Opcode) (name : String) (count : Nat)
  | call (count : Nat)
  | jump (op : Opcode) (distance : Nat)
  /-- The closure of a function, with the places of the variables that it captures. -/
  | closure (kind : FunctionKind) (name : String) (arity : Nat) (captured : List (Nat × Nat))
    (body : List Instruction)

abbrev Code := List Instruction

namespace Variable

def getter : Variable → Opcode
  | own .. => .getLocal
  | outer .. => .getUpvalue
  | global _ => .getGlobal

def setter : Variable → Opcode
  | own .. => .setLocal
  | outer .. => .setUpvalue
  | global _ => .setGlobal

def name : Variable → String
  | own _ name | outer _ name | global name => name

end Variable

/-- How many bytes an instruction has. -/
def Instruction.size : Instruction → Nat
  | op _ => 1
  | number _ | string _ | get _ | set _ | named .. | call _ => 2
  | invoke .. | jump .. => 3
  | closure _ _ _ captured _ => 2 + 2 * captured.length

/-- How many bytes some instructions have. -/
def extent (code : Code) : Nat := (code.map Instruction.size).sum

@[simp] theorem extent_nil : extent [] = 0 := rfl

@[simp] theorem extent_cons (i : Instruction) (code : Code) :
    extent (i :: code) = i.size + extent code := rfl

@[simp] theorem extent_append (a b : Code) : extent (a ++ b) = extent a + extent b := by
  simp [extent]

/-! ## What bytes refer to -/

/-- What the operand bytes of a function refer to. -/
structure Linkage where
  heap : Heap
  constants : List Value
  /-- The places of the captured variables, in the order of their indices. -/
  captured : List (Nat × Nat)
  /-- How many functions are around. -/
  level : Nat

namespace Linkage

/-- A constant is a string. -/
def Says (L : Linkage) (index : UInt8) (s : String) : Prop :=
  ∃ h, L.constants[index.toNat]? = some (.obj h) ∧ L.heap.hasContents s h = true

/-- The operand of an instruction that reads or writes a variable. -/
def Refers (L : Linkage) (v : Variable) (operand : UInt8) : Prop :=
  match v with
  | .own slot _ => operand.toNat = slot
  | .outer place _ => L.captured[operand.toNat]? = some place
  | .global name => L.Says operand name

/-- The two bytes for a variable that an inner function captures. -/
def Hands (L : Linkage) (place : Nat × Nat) (pair : UInt8 × UInt8) : Prop :=
  pair.1 = 1 ∧ place = (L.level, pair.2.toNat) ∨
    pair.1 = 0 ∧ L.captured[pair.2.toNat]? = some place

/-- The linkage of the same function later on. -/
structure Le (L L' : Linkage) : Prop where
  constants : L.constants <+: L'.constants
  captured : L.captured <+: L'.captured
  level : L'.level = L.level
  heap : L.heap.Keeps (L.constants.filterMap Value.handle?) L'.heap

variable {L L' L'' : Linkage} {index : UInt8} {s : String} {v : Variable} {place : Nat × Nat}
  {pair : UInt8 × UInt8}

theorem getElem?_of_prefix {α : Type} {l l' : List α} (h : l <+: l') {i : Nat} {a : α}
    (ha : l[i]? = some a) : l'[i]? = some a := by
  obtain ⟨more, rfl⟩ := h
  rw [List.getElem?_append_left (List.getElem?_eq_some_iff.1 ha).1, ha]

theorem Le.trans (h : L.Le L') (h' : L'.Le L'') : L.Le L'' :=
  ⟨h.constants.trans h'.constants, h.captured.trans h'.captured, h'.level.trans h.level,
    h.heap.trans (h'.heap.mono fun _ hr => (h.constants.filterMap Value.handle?).subset hr)⟩

theorem Le.constant {i : Nat} {x : Value} (h : L.Le L') (hx : L.constants[i]? = some x) :
    L'.constants[i]? = some x :=
  getElem?_of_prefix h.constants hx

/-- A constant object can be reached. -/
theorem reachable {i : Nat} {h : Handle} (hi : L.constants[i]? = some (.obj h))
    (hc : L.heap.contains h = true) : L.heap.Reachable (L.constants.filterMap Value.handle?) h :=
  .root (List.mem_filterMap.2 ⟨_, List.mem_of_getElem? hi, rfl⟩) hc

theorem contains_of_hasContents {heap : Heap} {h : Handle} (hs : heap.hasContents s h = true) :
    heap.contains h = true := by
  obtain ⟨_, _, hc, -⟩ := (Heap.hasContents_iff heap s h).1 hs
  exact Heap.contains_of_cell? hc

theorem Says.mono (hs : L.Says index s) (h : L.Le L') : L'.Says index s := by
  obtain ⟨x, hx, hcontents⟩ := hs
  refine ⟨x, h.constant hx, ?_⟩
  rwa [Heap.hasContents_congr (h.heap x (reachable hx (contains_of_hasContents hcontents)))]

theorem Refers.mono (hv : L.Refers v index) (h : L.Le L') : L'.Refers v index := by
  cases v with
  | own slot name => exact hv
  | outer place name => exact getElem?_of_prefix h.captured hv
  | global name => exact Says.mono hv h

theorem Hands.mono (hp : L.Hands place pair) (h : L.Le L') : L'.Hands place pair :=
  hp.imp (fun hp => ⟨hp.1, h.level ▸ hp.2⟩) fun hp => ⟨hp.1, getElem?_of_prefix h.captured hp.2⟩

end Linkage

/-- What the constants of a function refer to can be reached from the function. -/
theorem reachable_of_constants {heap : Heap} {roots : List Handle} {h y : Handle} {f : Function} {charged : Nat}
    (hreach : heap.Reachable roots h) (hcell : heap.cell? h = some ⟨.function f, charged⟩)
    (hy : heap.Reachable (f.chunk.constants.toList.filterMap Value.handle?) y) : heap.Reachable roots y := by
  induction hy with
  | root hm hc => exact .reference hreach hcell (List.mem_append_right _ hm) hc
  | reference _ hcell hm hc ih => exact .reference ih hcell hm hc

/-! ## Bytes that stand for code -/

/-- The bytes of a jump. -/
def jumpBytes (op : Opcode) (distance : Nat) : List UInt8 :=
  [op.toByte, UInt8.ofNat (distance / 256), UInt8.ofNat distance]

/-- The bytes stand for an instruction that makes no closure. -/
inductive Encodes (L : Linkage) : Instruction → List UInt8 → Prop
  | op (op : Opcode) : Encodes L (.op op) [op.toByte]
  | number {n : Number} {i : UInt8} (h : L.constants[i.toNat]? = some (.number n)) :
    Encodes L (.number n) [Opcode.constant.toByte, i]
  | string {s : String} {i : UInt8} (h : L.Says i s) : Encodes L (.string s) [Opcode.constant.toByte, i]
  | get {v : Variable} {i : UInt8} (h : L.Refers v i) : Encodes L (.get v) [v.getter.toByte, i]
  | set {v : Variable} {i : UInt8} (h : L.Refers v i) : Encodes L (.set v) [v.setter.toByte, i]
  | named (op : Opcode) {name : String} {i : UInt8} (h : L.Says i name) :
    Encodes L (.named op name) [op.toByte, i]
  | invoke (op : Opcode) {name : String} {i : UInt8} {count : Nat} (h : L.Says i name)
    (few : count ≤ Compile.maxArity) : Encodes L (.invoke op name count) [op.toByte, i, UInt8.ofNat count]
  | call {count : Nat} (few : count ≤ Compile.maxArity) :
    Encodes L (.call count) [Opcode.call.toByte, UInt8.ofNat count]
  | jump (op : Opcode) {distance : Nat} (near : distance ≤ Compile.maxJump) :
    Encodes L (.jump op distance) (jumpBytes op distance)

/-- The bytes stand for the code, and the functions that it makes closures of are compiled to the code
that it says. -/
inductive Spells : Linkage → Code → List UInt8 → Prop
  | nil (L : Linkage) : Spells L [] []
  | plain {L : Linkage} {i : Instruction} {code : Code} {first bytes : List UInt8}
    (h : Encodes L i first) (more : Spells L code bytes) : Spells L (i :: code) (first ++ bytes)
  | closure {L : Linkage} {index : UInt8} {h x : Handle} {f : Function} {charged : Nat}
    {kind : FunctionKind} {name : String} {arity : Nat} {captured : List (Nat × Nat)}
    {body code : Code} {pairs : List (UInt8 × UInt8)} {bytes : List UInt8}
    (constant : L.constants[index.toNat]? = some (.obj h))
    (cell : L.heap.cell? h = some ⟨.function f, charged⟩)
    (named : f.name = some x ∧ L.heap.hasContents name x = true) (takes : f.arity = arity)
    (count : f.upvalueCount = captured.length)
    (inner : Spells ⟨L.heap, f.chunk.constants.toList, captured, L.level + 1⟩ body f.chunk.code.toList)
    (hands : List.Forall₂ L.Hands captured pairs) (more : Spells L code bytes) :
    Spells L (.closure kind name arity captured body :: code)
      (Opcode.closure.toByte :: index :: (pairs.flatMap fun p => [p.1, p.2]) ++ bytes)

section Spelling

variable {L L' : Linkage} {i : Instruction} {code a b : Code} {bytes x y : List UInt8}

theorem Encodes.length_eq (h : Encodes L i bytes) : bytes.length = i.size := by
  cases h <;> rfl

theorem Encodes.mono (h : Encodes L i bytes) (hle : L.Le L') : Encodes L' i bytes := by
  cases h with
  | op op => exact .op op
  | number h => exact .number (hle.constant h)
  | string h => exact .string (h.mono hle)
  | get h => exact .get (h.mono hle)
  | set h => exact .set (h.mono hle)
  | named op h => exact .named op (h.mono hle)
  | invoke op h few => exact .invoke op (h.mono hle) few
  | call few => exact .call few
  | jump op near => exact .jump op near

theorem Spells.single (h : Encodes L i bytes) : Spells L [i] bytes := by
  have hone := Spells.plain h (.nil L)
  rwa [List.append_nil] at hone

theorem Spells.append (h : Spells L a x) (h' : Spells L b y) : Spells L (a ++ b) (x ++ y) := by
  induction h with
  | nil => exact h'
  | plain h _ ih =>
    rw [List.append_assoc]
    exact .plain h (ih h')
  | closure constant cell named takes count inner hands _ _ ih =>
    rw [List.append_assoc]
    exact .closure constant cell named takes count inner hands (ih h')

theorem Spells.length_eq (h : Spells L code bytes) : bytes.length = extent code := by
  induction h with
  | nil => rfl
  | plain h _ ih => rw [List.length_append, extent_cons, h.length_eq, ih]
  | closure _ _ _ _ _ _ hands _ _ ih =>
    have hpairs : ∀ pairs : List (UInt8 × UInt8),
        (pairs.flatMap fun p => [p.1, p.2]).length = 2 * pairs.length := by
      intro pairs
      induction pairs with
      | nil => rfl
      | cons p pairs ih =>
        rw [List.flatMap_cons, List.length_append, ih, List.length_cons, List.length_cons]
        simp only [List.length_nil, List.length_cons]
        omega
    rw [List.length_append, List.length_cons, List.length_cons, extent_cons, ih, hpairs,
      ← hands.length_eq, Instruction.size]
    omega

theorem Spells.mono (h : Spells L code bytes) (hle : L.Le L') : Spells L' code bytes := by
  induction h generalizing L' with
  | nil => exact .nil L'
  | plain h _ ih => exact .plain (h.mono hle) (ih hle)
  | @closure L index h x f charged kind name arity captured body code pairs bytes constant cell named
      takes count inner hands more ih ih' =>
    have hself := Linkage.reachable constant (Heap.contains_of_cell? cell)
    have hkeeps : L.heap.Keeps (f.chunk.constants.toList.filterMap Value.handle?) L'.heap := fun y hy =>
      hle.heap y (reachable_of_constants hself cell hy)
    have hname : L'.heap.hasContents name x = true := by
      have hx := Linkage.contains_of_hasContents named.2
      rw [Heap.hasContents_congr (hle.heap x (.reference hself cell
        (List.mem_append_left _ (by simp [named.1])) hx))]
      exact named.2
    refine .closure (hle.constant constant) ((hle.heap h hself).trans cell) ⟨named.1, hname⟩ takes count
      ?_ (hands.imp fun _ _ hp => hp.mono hle) (ih' hle)
    exact ih ⟨List.prefix_rfl, List.prefix_rfl, by rw [hle.level], hkeeps⟩

end Spelling

end LoxMachine.Symbolic

import LoxMachine.Proofs.Symbolic.Reading

/-!
# Functions with the code that they stand for

* `Sheet` is the symbolic code of a function, with what its operands refer to, and `Sheet.Of` says that a function
  has been compiled to it.
* `Sheet.Of.closure`: the function of a closure instruction has a sheet if the function around it has one.
* `Spells.goes`: where control goes after an instruction is told by the symbolic one.
-/

namespace LoxMachine.Symbolic

/-- A function with symbolic code, and with the places of the variables that it captures. -/
structure Sheet where
  kind : FunctionKind
  name : Option String
  arity : Nat
  captured : List (Nat × Nat)
  /-- How many functions are around. -/
  level : Nat
  code : Code

/-- What may be said of the code of a function by its kind and the number of its parameters, and then of all
functions inside of it. -/
def Inward (Q : FunctionKind → Nat → Code → Prop) : Prop :=
  ∀ {kind arity code}, Q kind arity code → ∀ {inside name arity' captured body},
    Instruction.closure inside name arity' captured body ∈ code → Q inside arity' body

variable {Q : FunctionKind → Nat → Code → Prop} {K : ClassDeclaration → Prop} {heap : Heap} {s : Sheet}
  {g : Function} {i : Instruction} {o x t d : Nat} {mi : LoxMachine.Instruction} {L : Linkage}

theorem charted_inward (K : ClassDeclaration → Prop) : Inward (Charted K) := by
  intro kind arity code h inside name arity' captured body hmem
  cases h with
  | intro start boundary follows inner => exact inner _ _ _ _ _ hmem

namespace Sheet

def linkage (s : Sheet) (heap : Heap) (g : Function) : Linkage :=
  ⟨heap, g.chunk.constants.toList, s.captured, s.level⟩

/-- The function has been compiled to the sheet, and `Q` holds of its code. -/
structure Of (Q : FunctionKind → Nat → Code → Prop) (heap : Heap) (s : Sheet) (g : Function) : Prop where
  spells : Spells (s.linkage heap g) s.code g.chunk.code.toList
  named : ∀ name, s.name = some name → ∃ z, g.name = some z ∧ heap.hasContents name z = true
  takes : g.arity = s.arity
  count : g.upvalueCount = s.captured.length
  known : Q s.kind s.arity s.code

/-- What the machine reads where an instruction of the sheet stands. -/
theorem Of.reads {heap' : Heap} (h : s.Of Q heap g)
    (hold : ∀ {x k}, heap'.function x = .ok k → heap.function x = .ok k) (hat : Lies s.code o [i])
    (hformed : i.Formed) (hi : g.instructionAt? heap' o = some mi) :
    Spells (s.linkage heap g) [i] (mi.op.toByte :: mi.args) :=
  h.spells.instruction rfl hold hat hformed hi

end Sheet

theorem Lies.mem {code piece : Code} (h : Lies code o piece) (hi : i ∈ piece) : i ∈ code := by
  obtain ⟨done, rest, rfl, -⟩ := h
  simp [hi]

/-- **The function that a closure is made of** has a sheet. The bytes tell where the closure gets its captured
variables from. -/
theorem Sheet.Of.closure {kind : FunctionKind} {name : String} {arity : Nat} {captured : List (Nat × Nat)} {body : Code}
    (hQ : Inward Q) (h : s.Of Q heap g) (hmem : Instruction.closure kind name arity captured body ∈ s.code)
    (hi : Spells (s.linkage heap g) [.closure kind name arity captured body] (mi.op.toByte :: mi.args)) :
    ∃ c pairs y k, mi = ⟨.closure, c :: pairs.flatMap fun p => [p.1, p.2]⟩ ∧
      g.chunk.constants[c.toNat]? = some (.obj y) ∧ heap.function y = .ok k ∧
      Sheet.Of Q heap ⟨kind, some name, arity, captured, s.level + 1, body⟩ k ∧
      List.Forall₂ (s.linkage heap g).Hands captured pairs := by
  generalize hbytes : mi.op.toByte :: mi.args = bytes at hi
  cases hi with
  | plain hencodes more => cases hencodes
  | @closure _ index y z k charged _ _ _ _ _ _ pairs _ constant cell named takes count inner hands more =>
    cases more
    obtain ⟨op, args⟩ := mi
    rw [List.append_nil] at hbytes
    obtain ⟨hop, rfl⟩ := List.cons.inj hbytes
    obtain rfl := toByte_inj hop
    refine ⟨index, pairs, y, k, rfl, ?_, Heap.function_eq_ok_iff.2 ⟨charged, cell⟩,
      ⟨inner, fun _ hname => ?_, takes, count, hQ h.known hmem⟩, hands⟩
    · rw [← Array.getElem?_toList]
      exact constant
    · cases hname
      exact ⟨z, named⟩

/-! ## Plain instructions -/

namespace Instruction

theorem IsPlain.formed (h : i.IsPlain) : i.Formed := by
  cases i with
  | op o | named o name => exact h.1
  | invoke o name count => exact h
  | jump o distance => exact h.elim
  | _ => trivial

/-- Closures are made by closure instructions only. -/
theorem Formed.closure (h : i.Formed) (hop : i.opcode = .closure) :
    ∃ kind name arity captured body, i = .closure kind name arity captured body := by
  cases i with
  | closure kind name arity captured body => exact ⟨kind, name, arity, captured, body, rfl⟩
  | op o | named o name | invoke o name count =>
    obtain rfl : o = .closure := hop
    cases h
  | jump o distance =>
    obtain rfl : o = .closure := hop
    rcases h with h | h <;> cases h
  | get v | set v => cases v <;> cases hop
  | _ => cases hop

/-- An operation after which control goes on. -/
def Straight (op : Opcode) : Prop := op ≠ .ret ∧ op ≠ .jump ∧ op ≠ .jumpIfFalse ∧ op ≠ .loop

/-- An operation that neither makes nor changes a class. -/
def Classless (op : Opcode) : Prop := op ≠ .cls ∧ op ≠ .inherit ∧ op ≠ .method

/-- The instructions that have to do with classes. -/
theorem Formed.classy (h : i.Formed) (hclasses : ¬Classless i.opcode) :
    (∃ name, i = .named .cls name) ∨ i = .op .inherit ∨ ∃ name, i = .named .method name := by
  have hop : i.opcode = .cls ∨ i.opcode = .inherit ∨ i.opcode = .method := by
    by_contra hnot
    simp only [not_or] at hnot
    exact hclasses hnot
  cases i with
  | op o =>
    rcases hop with hop | hop | hop <;> obtain rfl : o = _ := hop
    · cases h
    · exact .inr (.inl rfl)
    · cases h
  | named o name =>
    rcases hop with hop | hop | hop <;> obtain rfl : o = _ := hop
    · exact .inl ⟨name, rfl⟩
    · cases h
    · exact .inr (.inr ⟨name, rfl⟩)
  | invoke o name count => rcases hop with hop | hop | hop <;> obtain rfl : o = _ := hop <;> cases h
  | jump o distance => rcases hop with hop | hop | hop <;> obtain rfl : o = _ := hop <;> rcases h with h | h <;> cases h
  | get v | set v => cases v <;> rcases hop with hop | hop | hop <;> cases hop
  | _ => rcases hop with hop | hop | hop <;> cases hop

theorem IsPlain.straight (h : i.IsPlain) : Straight i.opcode := by
  cases i with
  | op o =>
    obtain ⟨hoperands, hret, -⟩ := h
    refine ⟨hret, ?_, ?_, ?_⟩ <;> rintro rfl <;> cases hoperands
  | named o name => refine ⟨?_, ?_, ?_, ?_⟩ <;> rintro rfl <;> cases h.1
  | invoke o name count => refine ⟨?_, ?_, ?_, ?_⟩ <;> rintro rfl <;> cases h
  | jump o distance => exact h.elim
  | get v | set v => cases v <;> exact ⟨nofun, nofun, nofun, nofun⟩
  | _ => exact ⟨nofun, nofun, nofun, nofun⟩

theorem IsPlain.classless (h : i.IsPlain) : Classless i.opcode := by
  cases i with
  | op o =>
    obtain ⟨hoperands, -, hinherit⟩ := h
    refine ⟨?_, hinherit, ?_⟩ <;> rintro rfl <;> cases hoperands
  | named o name =>
    obtain ⟨hoperands, hcls, hmethod⟩ := h
    refine ⟨hcls, ?_, hmethod⟩
    rintro rfl
    cases hoperands
  | invoke o name count => refine ⟨?_, ?_, ?_⟩ <;> rintro rfl <;> cases h
  | jump o distance => exact h.elim
  | get v | set v => cases v <;> exact ⟨nofun, nofun, nofun⟩
  | _ => exact ⟨nofun, nofun, nofun⟩

end Instruction

/-! ## Where control goes -/

/-- After an instruction that neither jumps nor returns, control goes on. -/
theorem Spells.goes (h : Spells L [i] (mi.op.toByte :: mi.args)) (hformed : i.Formed)
    (hstraight : Instruction.Straight i.opcode) (hgoes : ((t : Int), d) ∈ mi.successors o x) :
    t = o + i.size ∧ d = i.after x := by
  obtain ⟨hret, hjump, hif, hloop⟩ := hstraight
  have hnext : mi.successors o x = [((o : Int) + mi.size, x - mi.op.pops mi.count + mi.op.pushes)] := by
    have hop := h.opcode
    unfold LoxMachine.Instruction.successors
    split <;> simp_all
  rw [hnext, h.size, h.opcode, h.count hformed, List.mem_singleton, Prod.mk.injEq] at hgoes
  exact ⟨by omega, hgoes.2⟩

theorem Spells.jump_goes {distance : Nat} (h : Spells L [.jump .jump distance] (mi.op.toByte :: mi.args))
    (hgoes : ((t : Int), d) ∈ mi.successors o x) : t = o + 3 + distance ∧ d = x := by
  obtain ⟨high, low, rfl, rfl⟩ := h.jumps
  rw [LoxMachine.Instruction.successors, LoxMachine.Instruction.targets, List.map_singleton, List.mem_singleton,
    Prod.mk.injEq] at hgoes
  exact ⟨by omega, hgoes.2⟩

theorem Spells.loop_goes {distance : Nat} (h : Spells L [.jump .loop distance] (mi.op.toByte :: mi.args))
    (hgoes : ((t : Int), d) ∈ mi.successors o x) : t + distance = o + 3 ∧ d = x := by
  obtain ⟨high, low, rfl, rfl⟩ := h.jumps
  rw [LoxMachine.Instruction.successors, LoxMachine.Instruction.targets, List.map_singleton, List.mem_singleton,
    Prod.mk.injEq] at hgoes
  exact ⟨by omega, hgoes.2⟩

theorem Spells.jumpIfFalse_goes {distance : Nat}
    (h : Spells L [.jump .jumpIfFalse distance] (mi.op.toByte :: mi.args))
    (hgoes : ((t : Int), d) ∈ mi.successors o x) : (t = o + 3 ∨ t = o + 3 + distance) ∧ d = x := by
  obtain ⟨high, low, rfl, rfl⟩ := h.jumps
  simp only [LoxMachine.Instruction.successors, LoxMachine.Instruction.targets, List.map_cons, List.map_nil,
    List.mem_cons, Prod.mk.injEq, List.not_mem_nil, or_false, LoxMachine.Instruction.size, List.length_cons,
    List.length_nil] at hgoes
  omega

end LoxMachine.Symbolic

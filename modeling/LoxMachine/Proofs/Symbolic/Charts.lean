import LoxMachine.Proofs.Symbolic.Declarations

/-!
# Charts of code

How high the stack of a call is at each instruction, and where class declarations begin and end. The code of
a class declaration has no jumps, and nothing jumps into it, so it is one step of a chart. So is the return of
an initializer, with the instruction before it that gets the receiver.

* `ClassDeclaration` is a class declaration, and `Declaration.classes` are those of a tree.
* `Symbolic.Onward K kind J o h code`: what the instruction at offset `o`, at height `h`, leads to is in the
  chart `J`. Every class declaration that begins there is one that `K` knows.
* `Symbolic.Leads K kind h code h'`: whatever offset the code stands at, it has a chart that goes from height
  `h` at its start to height `h'` at its end.
* `Symbolic.Charted K kind arity code`: the code of a function has a chart, and so have the functions in it.
* `charted_script`: the code of a program is charted.
-/

namespace LoxMachine

open Symbolic

/-! ## Class declarations -/

structure ClassDeclaration where
  name : String
  superclass : Option String
  methods : List Routine

namespace ClassDeclaration

variable (d : ClassDeclaration) (σ : Setting)

/-- The point where the methods stand. -/
def inner : Setting := methodsSetting d.name d.superclass σ

/-- The code of a class declaration, to where the class and its superclass are not needed any more. -/
def code (r : Receivers) : Code :=
  classCode d.name d.superclass σ ++ (Routine.listCode d.methods (d.inner σ) r ++ [.op .pop])

end ClassDeclaration

mutual

/-- The class declarations in a statement. -/
def Statement.classes : Statement → List ClassDeclaration
  | .expression _ | .print _ | .ret _ => []
  | .block body => Declaration.listClasses body
  | .ifThen _ body | .whileLoop _ body | .forLoop _ _ _ body => body.classes
  | .ifThenElse _ body otherwise => body.classes ++ otherwise.classes

def Declaration.classes : Declaration → List ClassDeclaration
  | .statement s => s.classes
  | .var .. => []
  | .function f => f.classes
  | .cls name superclass methods => ⟨name, superclass, methods⟩ :: Routine.listClasses methods

def Routine.classes : Routine → List ClassDeclaration
  | .mk _ _ body => Declaration.listClasses body

def Declaration.listClasses : List Declaration → List ClassDeclaration
  | [] => []
  | d :: more => d.classes ++ Declaration.listClasses more

def Routine.listClasses : List Routine → List ClassDeclaration
  | [] => []
  | .mk name parameters body :: more =>
    (Routine.mk name parameters body).classes ++ Routine.listClasses more

end

/-! ## Instructions -/

namespace Symbolic

namespace Instruction

def opcode : Instruction → Opcode
  | op o | named o _ | invoke o _ _ | jump o _ => o
  | number _ | string _ => .constant
  | get v => v.getter
  | set v => v.setter
  | call _ => .call
  | closure .. => .closure

/-- How many arguments there are. -/
def count : Instruction → Nat
  | invoke _ _ n | call n => n
  | _ => 0

/-- The height of the stack after an instruction. -/
def after (i : Instruction) (h : Nat) : Nat := h - i.opcode.pops i.count + i.opcode.pushes

/-- The instruction can stand outside class declarations, and the next one follows. -/
def IsPlain : Instruction → Prop
  | op o => o.operands = .none ∧ o ≠ .ret ∧ o ≠ .inherit
  | named o _ => o.operands = .constant ∧ o ≠ .cls ∧ o ≠ .method
  | invoke o _ _ => o.operands = .invocation
  | jump .. => False
  | _ => True

theorem size_pos (i : Instruction) : 0 < i.size := by
  cases i <;> simp [size]

end Instruction

theorem extent_pos {code : Code} (h : code ≠ []) : 0 < extent code := by
  cases code with
  | nil => exact absurd rfl h
  | cons i code => exact (i.size_pos).trans_le (Nat.le_add_right _ _)

/-! ## Charts -/

/-- Which heights the stack can have at which offsets. -/
abbrev Chart := Nat → Nat → Prop

/-- A single point. -/
def point (o h : Nat) : Chart := fun x s => x = o ∧ s = h

end Symbolic

/-- A class declaration that starts at the given height. The variable of the class is on top of the stack
there, or global. Its superclass is another variable. -/
structure ClassDeclaration.Fits (d : ClassDeclaration) (σ : Setting) (h : Nat) : Prop where
  height : σ.here.locals.length = h
  above : 0 < h
  target : (d.inner σ).variable d.name = if σ.here.depth = 0 then .global d.name else .own h d.name
  apart : ∀ s, d.superclass = some s → d.name ≠ s

namespace Symbolic

variable {K : ClassDeclaration → Prop} {kind : FunctionKind} {I I' J J' : Chart} {o h h' t : Nat}
  {a b code rest : Code} {i : Instruction}

/-- What the code at an offset leads to is in a chart. -/
inductive Onward (K : ClassDeclaration → Prop) (kind : FunctionKind) (J : Chart) (o h : Nat) : Code → Prop
  | plain {i : Instruction} {rest : Code} (plain : i.IsPlain) (enough : i.opcode.needs i.count < h)
    (next : J (o + i.size) (i.after h)) : Onward K kind J o h (i :: rest)
  | ret {rest : Code} (free : kind ≠ .initializer) : Onward K kind J o h (.op .ret :: rest)
  | receiver {rest : Code} : Onward K kind J o h (.get (.own 0 "this") :: .op .ret :: rest)
  | jump {distance : Nat} {rest : Code} (target : J (o + 3 + distance) h) :
    Onward K kind J o h (.jump .jump distance :: rest)
  | jumpIfFalse {distance : Nat} {rest : Code} (next : J (o + 3) h) (target : J (o + 3 + distance) h) :
    Onward K kind J o h (.jump .jumpIfFalse distance :: rest)
  | loop {distance t : Nat} {rest : Code} (back : t + distance = o + 3) (target : J t h) :
    Onward K kind J o h (.jump .loop distance :: rest)
  | declares {d : ClassDeclaration} {σ : Setting} {r : Receivers} {rest : Code} (known : K d)
    (fits : d.Fits σ h) (next : J (o + extent (d.code σ r)) (d.inner σ).here.locals.length) :
    Onward K kind J o h (d.code σ r ++ rest)

theorem Onward.append (hon : Onward K kind J o h code) (more : Code) : Onward K kind J o h (code ++ more) := by
  cases hon with
  | plain plain enough next => exact .plain plain enough next
  | ret free => exact .ret free
  | receiver => exact .receiver
  | jump target => exact .jump target
  | jumpIfFalse next target => exact .jumpIfFalse next target
  | loop back target => exact .loop back target
  | declares known fits next =>
    rw [List.append_assoc]
    exact .declares known fits next

/-- The points are at instructions of the code at an offset, and one of them is its start. -/
structure Covers (I : Chart) (o h : Nat) (code : Code) (h' : Nat) : Prop where
  boundary : ∀ x s, I x s → ∃ done rest, code = done ++ rest ∧ rest ≠ [] ∧ x = o + extent done
  start : code = [] ∧ h = h' ∨ I o h

/-- What the points lead to is in a chart. -/
def Follows (K : ClassDeclaration → Prop) (kind : FunctionKind) (I J : Chart) (o : Nat) (code : Code) : Prop :=
  ∀ done rest s, code = done ++ rest → rest ≠ [] → I (o + extent done) s →
    Onward K kind J (o + extent done) s rest

/-- Two charts in one. -/
def both (I I' : Chart) : Chart := fun x s => I x s ∨ I' x s

namespace Covers

theorem lt (hc : Covers I o h code h') {x s : Nat} (hx : I x s) : o ≤ x ∧ x < o + extent code := by
  obtain ⟨done, rest, rfl, hne, rfl⟩ := hc.boundary x s hx
  have := extent_pos hne
  rw [extent_append]
  omega

theorem nil (h : Nat) : Covers (fun _ _ => False) o h [] h := ⟨nofun, .inl ⟨rfl, rfl⟩⟩

theorem single (i : Instruction) (o h h' : Nat) : Covers (point o h) o h [i] h' :=
  ⟨fun _ _ hx => ⟨[], [i], rfl, nofun, hx.1⟩, .inr ⟨rfl, rfl⟩⟩

theorem append (ha : Covers I o h a t) (hb : Covers I' (o + extent a) t b h') :
    Covers (both I I') o h (a ++ b) h' := by
  refine ⟨fun x s hx => ?_, ?_⟩
  · rcases hx with hx | hx
    · obtain ⟨done, rest, rfl, hne, rfl⟩ := ha.boundary x s hx
      exact ⟨done, rest ++ b, by simp, by simp [hne], rfl⟩
    · obtain ⟨done, rest, rfl, hne, rfl⟩ := hb.boundary x s hx
      exact ⟨a ++ done, rest, by simp, hne, by simp [Nat.add_assoc]⟩
  · rcases ha.start with ⟨rfl, rfl⟩ | ha
    · rcases hb.start with ⟨rfl, rfl⟩ | hb
      · exact .inl ⟨rfl, rfl⟩
      · exact .inr (.inr hb)
    · exact .inr (.inl ha)

end Covers

theorem follows_nil : Follows K kind (fun _ _ => False) J o [] := fun _ _ _ _ _ hx => hx.elim

theorem follows_single (hon : Onward K kind J o h [i]) : Follows K kind (point o h) J o [i] := by
  intro done rest s hsplit hne hx
  obtain ⟨hzero, rfl⟩ := hx
  cases done with
  | nil =>
    obtain rfl : [i] = rest := hsplit
    exact hon
  | cons j done =>
    have := j.size_pos
    rw [extent_cons] at hzero
    omega

theorem Follows.append (hca : Covers I o h a t) (hcb : Covers I' (o + extent a) t b h')
    (ha : Follows K kind I J o a) (hb : Follows K kind I' J (o + extent a) b) :
    Follows K kind (both I I') J o (a ++ b) := by
  intro done rest s hsplit hne hx
  rcases List.append_eq_append_iff.1 hsplit with ⟨c, rfl, rfl⟩ | ⟨c, rfl, rfl⟩
  · have hin : I' (o + extent (a ++ c)) s := hx.resolve_left fun hx => by
      have := (hca.lt hx).2
      rw [extent_append] at this
      omega
    rw [extent_append, ← Nat.add_assoc] at hin ⊢
    exact hb c rest s rfl hne hin
  · by_cases hc : c = []
    · subst hc
      have hin : I' (o + extent done) s := hx.resolve_left fun hx => by
        have := (hca.lt hx).2
        simp at this
      rw [List.append_nil] at hb
      exact hb [] b s rfl hne hin
    · have hin : I (o + extent done) s := hx.resolve_right fun hx => by
        have hle := (hcb.lt hx).1
        have hpos := extent_pos hc
        rw [extent_append] at hle
        omega
      exact (ha done c s rfl hc hin).append b

/-! ## Charted code -/

/-- The code of a function has a chart, and so have the functions in it. -/
inductive Charted (K : ClassDeclaration → Prop) : FunctionKind → Nat → Code → Prop
  | intro {kind : FunctionKind} {arity : Nat} {code : Code} {J : Chart} (start : J 0 (arity + 1))
    (boundary : ∀ x s, J x s → ∃ done rest, code = done ++ rest ∧ x = extent done)
    (follows : Follows K kind J J 0 code)
    (inner : ∀ kind name arity captured body,
      Instruction.closure kind name arity captured body ∈ code → Charted K kind arity body) :
    Charted K kind arity code

/-- The functions in some code are charted. -/
def Inner (K : ClassDeclaration → Prop) (code : Code) : Prop := ∀ kind name arity captured body,
  Instruction.closure kind name arity captured body ∈ code → Charted K kind arity body

theorem Inner.append (ha : Inner K a) (hb : Inner K b) : Inner K (a ++ b) :=
  fun kind name arity captured body hi =>
    (List.mem_append.1 hi).elim (ha kind name arity captured body) (hb kind name arity captured body)

theorem Inner.single (hi : ∀ k n a c b, i ≠ .closure k n a c b) : Inner K [i] :=
  fun _ _ _ _ _ hmem => absurd (List.mem_singleton.1 hmem).symm (hi _ _ _ _ _)

theorem Inner.jump (op : Opcode) (distance : Nat) : Inner K [.jump op distance] := by simp [Inner]

/-- Code that goes from one height to another, wherever it stands. -/
structure Leads (K : ClassDeclaration → Prop) (kind : FunctionKind) (h : Nat) (code : Code) (h' : Nat) : Prop where
  inner : Inner K code
  chart : ∀ o, ∃ I : Chart, Covers I o h code h' ∧ ∀ J : Chart, (∀ x s, I x s → J x s) →
    J (o + extent code) h' → Follows K kind I J o code

namespace Leads

theorem nil : Leads K kind h [] h where
  inner := by simp [Inner]
  chart _ := ⟨_, .nil h, fun _ _ _ => follows_nil⟩

theorem append (ha : Leads K kind h a t) (hb : Leads K kind t b h') : Leads K kind h (a ++ b) h' where
  inner := ha.inner.append hb.inner
  chart o := by
    obtain ⟨I, hca, hI⟩ := ha.chart o
    obtain ⟨I', hcb, hI'⟩ := hb.chart (o + extent a)
    refine ⟨_, hca.append hcb, fun J hJ hend => ?_⟩
    rw [extent_append, ← Nat.add_assoc] at hend
    refine .append hca hcb (hI J (fun x s hx => hJ x s (.inl hx)) ?_)
      (hI' J (fun x s hx => hJ x s (.inr hx)) hend)
    rcases hcb.start with ⟨rfl, rfl⟩ | hstart
    · exact hend
    · exact hJ _ _ (.inr hstart)

theorem cons (hi : Leads K kind h [i] t) (hb : Leads K kind t b h') : Leads K kind h (i :: b) h' := hi.append hb

/-- A plain instruction that makes no closure. -/
theorem plain (hi : i.IsPlain) (hclosure : ∀ k n a c b, i ≠ .closure k n a c b)
    (henough : i.opcode.needs i.count < h) : Leads K kind h [i] (i.after h) where
  inner := .single hclosure
  chart o := ⟨_, .single i o h _, fun _ _ hend => follows_single (.plain hi henough hend)⟩

theorem isPlain_pop : (Instruction.op .pop).IsPlain := ⟨rfl, by simp, by simp⟩

theorem pop (hpos : 0 < h) : Leads K kind (h + 1) [.op .pop] h :=
  plain isPlain_pop (by simp) (Nat.succ_lt_succ hpos)

theorem closure {inside : FunctionKind} {name : String} {arity : Nat} {captured : List (Nat × Nat)}
    {body : Code} (hbody : Charted K inside arity body) (hpos : 0 < h) :
    Leads K kind h [.closure inside name arity captured body] (h + 1) where
  inner kind' name' arity' captured' body' hmem := by
    cases List.mem_singleton.1 hmem
    exact hbody
  chart o := ⟨_, .single _ o h _, fun _ _ hend => follows_single (.plain trivial hpos hend)⟩

/-- Nothing follows a return. -/
theorem ret (free : kind ≠ .initializer) (h h' : Nat) : Leads K kind h [.op .ret] h' where
  inner := by simp [Inner]
  chart o := ⟨_, .single _ o h _, fun _ _ _ => follows_single (.ret free)⟩

/-- Code that is one step of a chart, as nothing goes on inside of it. -/
theorem whole (hinner : Inner K a) (hne : a ≠ [])
    (hon : ∀ (o : Nat) (J : Chart), J (o + extent a) h' → Onward K kind J o h a) : Leads K kind h a h' where
  inner := hinner
  chart o := by
    refine ⟨point o h, ⟨fun x s hx => ⟨[], _, rfl, hne, hx.1⟩, .inr ⟨rfl, rfl⟩⟩, fun J _ hend => ?_⟩
    intro done rest s hsplit hne hx
    obtain ⟨hzero, rfl⟩ := hx
    obtain rfl : done = [] := by
      by_contra hdone
      have := extent_pos hdone
      omega
    exact (show a = rest from hsplit) ▸ hon o J hend

/-- The return of the receiver. -/
theorem receiver (h h' : Nat) : Leads K kind h [.get (.own 0 "this"), .op .ret] h' :=
  whole (by simp [Inner]) (by simp) fun _ _ _ => .receiver

/-- A class declaration up to its end. -/
theorem declares {d : ClassDeclaration} {σ : Setting} {r : Receivers} (known : K d) (fits : d.Fits σ h)
    (hinner : Inner K (d.code σ r)) : Leads K kind h (d.code σ r) (d.inner σ).here.locals.length :=
  whole hinner (by simp [ClassDeclaration.code, classCode]) fun o J hend => by
    have hon : Onward K kind J o h (d.code σ r ++ []) := .declares known fits hend
    rwa [List.append_nil] at hon

/-! ## Shapes of code -/

/-- Code that is executed only if the value on top counts as true. -/
theorem across_jumpIfFalse (hp : Leads K kind h a h) : Leads K kind h (across .jumpIfFalse a) h where
  inner := .append (.jump _ _) hp.inner
  chart o := by
    obtain ⟨I, hc, hI⟩ := hp.chart (o + 3)
    refine ⟨_, Covers.append (.single _ o h h) hc, fun J hJ hend => ?_⟩
    have hend : J (o + 3 + extent a) h := by rwa [across, extent_cons, ← Nat.add_assoc] at hend
    refine .append (.single _ o h h) hc (follows_single (.jumpIfFalse ?_ hend))
      (hI J (fun x s hx => hJ x s (.inr hx)) hend)
    rcases hc.start with ⟨rfl, -⟩ | hstart
    · exact hend
    · exact hJ _ _ (.inr hstart)

/-- One of two pieces of code is executed. -/
theorem branch (ha : Leads K kind h a t) (hb : Leads K kind h b t) : Leads K kind h (Symbolic.branch a b) t where
  inner := .append (.jump _ _) (ha.inner.append (.append (.jump _ _) hb.inner))
  chart o := by
    obtain ⟨I, hca, hI⟩ := ha.chart (o + 3)
    obtain ⟨I', hcb, hI'⟩ := hb.chart (o + 3 + extent a + 3)
    have hcjump := Covers.append (.single (.jump .jump (extent b)) (o + 3 + extent a) t h) hcb
    have hcrest := hca.append hcjump
    refine ⟨_, Covers.append (.single _ o h h) hcrest, fun J hJ hend => ?_⟩
    have hend : J (o + 3 + extent a + 3 + extent b) t := by
      rw [Symbolic.branch, across, extent_cons, extent_append, extent_cons] at hend
      simpa only [Instruction.size, Nat.add_assoc] using hend
    have hother : J (o + 3 + extent a + 3) h := by
      rcases hcb.start with ⟨rfl, rfl⟩ | hstart
      · exact hend
      · exact hJ _ _ (.inr (.inr (.inr hstart)))
    have hfirst : J (o + 3) h := by
      rcases hca.start with ⟨rfl, rfl⟩ | hstart
      · exact hJ _ _ (.inr (.inr (.inl ⟨rfl, rfl⟩)))
      · exact hJ _ _ (.inr (.inl hstart))
    refine .append (.single _ o h h) hcrest (follows_single (.jumpIfFalse hfirst ?_)) ?_
    · rwa [← Nat.add_assoc]
    refine .append hca hcjump (hI J (fun x s hx => hJ x s (.inr (.inl hx)))
      (hJ _ _ (.inr (.inr (.inl ⟨rfl, rfl⟩))))) ?_
    exact .append (.single _ _ t h) hcb (follows_single (.jump hend))
      (hI' J (fun x s hx => hJ x s (.inr (.inr (.inr hx)))) hend)

/-! ### Loops -/

section Loops

variable {p q body : Code} {next : Option Code}

/-- The end of a loop, or of its increment, leads back. -/
theorem loop_follows {distance back : Nat} (hback : back + distance = o + 3) (hJ : J back h) :
    Follows K kind (point o h) J o [.jump .loop distance] := follows_single (.loop hback hJ)

/-- A turn through a loop whose condition stands at `o`, and is `head` bytes before the turn. Nothing
follows. -/
theorem lap_none (hbody : Leads K kind h body h) (o head h' : Nat) :
    ∃ I : Chart, Covers I (o + head) h (Symbolic.lap head none body) h' ∧
      ∀ J : Chart, (∀ x s, I x s → J x s) → J o h →
        Follows K kind I J (o + head) (Symbolic.lap head none body) := by
  obtain ⟨I, hc, hI⟩ := hbody.chart (o + head)
  have hcode : Symbolic.lap head none body = body ++ [.jump .loop (head + extent body + 3)] := rfl
  rw [hcode]
  have hcend := Covers.single (.jump .loop (head + extent body + 3)) (o + head + extent body) h h'
  refine ⟨_, hc.append hcend, fun J hJ hstart => ?_⟩
  refine Follows.append hc hcend (hI J (fun x s hx => hJ x s (.inl hx)) (hJ _ _ (.inr ⟨rfl, rfl⟩)))
    (loop_follows ?_ hstart)
  omega

theorem lap_some (hpos : 0 < h) (hbody : Leads K kind h body h) (hq : Leads K kind h q (h + 1)) (o head h' : Nat) :
    ∃ I : Chart, Covers I (o + head) h (Symbolic.lap head (some q) body) h' ∧
      ∀ J : Chart, (∀ x s, I x s → J x s) → J o h →
        Follows K kind I J (o + head) (Symbolic.lap head (some q) body) := by
  have hnext := hq.append (pop hpos)
  set s := o + head with hs
  obtain ⟨Iq, hcq, hIq⟩ := hnext.chart (s + 3)
  obtain ⟨I, hc, hI⟩ := hbody.chart (s + 3 + extent (q ++ [.op .pop]) + 3)
  have hcode : Symbolic.lap head (some q) body =
      [.jump .jump (extent q + 1 + 3)] ++ ((q ++ [.op .pop]) ++
        ([.jump .loop (head + 3 + extent q + 1 + 3)] ++
          (body ++ [.jump .loop (extent q + 1 + 3 + extent body + 3)]))) := by
    simp [Symbolic.lap, increment, across, turn, Instruction.size, Nat.add_assoc]
  have hextent : extent (q ++ [.op .pop]) = extent q + 1 := by simp [Instruction.size]
  rw [hcode]
  have hcend := Covers.single (.jump .loop (extent q + 1 + 3 + extent body + 3))
    (s + 3 + extent (q ++ [.op .pop]) + 3 + extent body) h h'
  have hcbody := hc.append hcend
  have hcback := Covers.append (.single (.jump .loop (head + 3 + extent q + 1 + 3))
    (s + 3 + extent (q ++ [.op .pop])) h h) hcbody
  have hcnext := hcq.append hcback
  refine ⟨_, Covers.append (.single (.jump .jump (extent q + 1 + 3)) s h h) hcnext, fun J hJ hstart => ?_⟩
  have hskip : J (s + 3 + (extent q + 1 + 3)) h := by
    rw [show s + 3 + (extent q + 1 + 3) = s + 3 + extent (q ++ [.op .pop]) + 3 by omega]
    rcases hcbody.start with ⟨hnil, -⟩ | hstart
    · simp at hnil
    · exact hJ _ _ (.inr (.inr (.inr hstart)))
  have hincrement : J (s + 3) h := by
    rcases hcq.start with ⟨hnil, -⟩ | hstart
    · simp at hnil
    · exact hJ _ _ (.inr (.inl hstart))
  refine .append (.single _ s h h) hcnext (follows_single (.jump hskip)) ?_
  refine .append hcq hcback (hIq J (fun x s hx => hJ x s (.inr (.inl hx)))
    (hJ _ _ (.inr (.inr (.inl ⟨rfl, rfl⟩))))) ?_
  refine .append (.single _ _ h h) hcbody (loop_follows ?_ hstart) ?_
  · omega
  refine .append hc hcend (hI J (fun x s hx => hJ x s (.inr (.inr (.inr (.inl hx)))))
    (hJ _ _ (.inr (.inr (.inr (.inr ⟨rfl, rfl⟩)))))) (loop_follows ?_ hincrement)
  omega

theorem lap (hpos : 0 < h) (hbody : Leads K kind h body h) (hnext : ∀ q, next = some q → Leads K kind h q (h + 1)) (o head h' : Nat) :
    ∃ I : Chart, Covers I (o + head) h (Symbolic.lap head next body) h' ∧
      ∀ J : Chart, (∀ x s, I x s → J x s) → J o h →
        Follows K kind I J (o + head) (Symbolic.lap head next body) := by
  cases next with
  | none => exact lap_none hbody o head h'
  | some q => exact lap_some hpos hbody (hnext q rfl) o head h'

theorem inner_lap (hbody : Inner K body) (hnext : ∀ q, next = some q → Inner K q) (head : Nat) :
    Inner K (Symbolic.lap head next body) := by
  refine Inner.append ?_ (hbody.append (.jump _ _))
  cases next with
  | none => exact fun _ _ _ _ _ => nofun
  | some q =>
    exact .append (.jump _ _) ((hnext q rfl).append (.append (a := [_]) (.single nofun) (.jump _ _)))

/-- A loop. -/
theorem loop {condition : Option Code} (hpos : 0 < h)
    (hcondition : ∀ p, condition = some p → Leads K kind h p (h + 1))
    (hnext : ∀ q, next = some q → Leads K kind h q (h + 1)) (hbody : Leads K kind h body h) :
    Leads K kind h (Symbolic.loop condition next body) h := by
  have hinner := inner_lap hbody.inner fun q hq => (hnext q hq).inner
  cases condition with
  | none =>
    refine ⟨hinner 0, fun o => ?_⟩
    obtain ⟨I, hc, hI⟩ := lap hpos hbody hnext o 0 h
    refine ⟨I, hc, fun J hJ _ => hI J hJ ?_⟩
    rcases hc.start with ⟨hnil, -⟩ | hstart
    · simp [Symbolic.lap] at hnil
    · exact hJ _ _ hstart
  | some p =>
    have hp := hcondition p rfl
    have hpop : Leads K kind (h + 1) [.op .pop] h := pop hpos
    set head := extent p + 4 with hhead
    have hcode : Symbolic.loop (some p) next body =
        p ++ ([.jump .jumpIfFalse (1 + extent (Symbolic.lap head next body))] ++
          ([.op .pop] ++ (Symbolic.lap head next body ++ [.op .pop]))) := by
      simp [Symbolic.loop, across, Instruction.size, hhead]
    rw [hcode]
    refine ⟨hp.inner.append (.append (.jump _ _) (hpop.inner.append ((hinner head).append hpop.inner))),
      fun o => ?_⟩
    obtain ⟨Ip, hcp, hIp⟩ := hp.chart o
    obtain ⟨I, hc, hI⟩ := lap hpos hbody hnext o head (h + 1)
    have hcend := hc.append (.single (.op .pop) (o + head + extent (Symbolic.lap head next body)) (h + 1) h)
    have hoffset : o + extent p + 3 + 1 = o + head := by omega
    have hcturn := Covers.append (.single (.op .pop) (o + extent p + 3) (h + 1) h) (hoffset ▸ hcend)
    have hcjump := Covers.append (.single (.jump .jumpIfFalse (1 + extent (Symbolic.lap head next body)))
      (o + extent p) (h + 1) (h + 1)) hcturn
    refine ⟨_, hcp.append hcjump, fun J hJ hend => ?_⟩
    have hleave : J (o + extent p + 3 + (1 + extent (Symbolic.lap head next body))) (h + 1) :=
      hJ _ _ (.inr (.inr (.inr (.inr ⟨by omega, rfl⟩))))
    have hturn : J (o + extent p + 3 + 1) h := by
      rcases hcend.start with ⟨hnil, -⟩ | hstart
      · simp at hnil
      · rw [hoffset]
        exact hJ _ _ (.inr (.inr (.inr hstart)))
    have hback : J o h := by
      rcases hcp.start with ⟨-, hh⟩ | hstart
      · omega
      · exact hJ _ _ (.inl hstart)
    refine .append hcp hcjump (hIp J (fun x s hx => hJ x s (.inl hx)) (hJ _ _ (.inr (.inl ⟨rfl, rfl⟩)))) ?_
    refine .append (.single _ _ _ _) hcturn (follows_single (.jumpIfFalse
      (hJ _ _ (.inr (.inr (.inl ⟨rfl, rfl⟩)))) hleave)) ?_
    refine .append (.single _ _ _ _) (hoffset ▸ hcend) (follows_single (.plain isPlain_pop (Nat.succ_lt_succ hpos) hturn)) ?_
    change Follows K kind _ J (o + extent p + 3 + 1) _
    rw [hoffset]
    refine .append hc (.single _ _ _ h) (hI J (fun x s hx => hJ x s (.inr (.inr (.inr (.inl hx))))) hback)
      (follows_single (.plain isPlain_pop (Nat.succ_lt_succ hpos) ?_))
    have hsize : o + extent (p ++ ([.jump .jumpIfFalse (1 + extent (Symbolic.lap head next body))] ++
        ([.op .pop] ++ (Symbolic.lap head next body ++ [.op .pop])))) =
        o + head + extent (Symbolic.lap head next body) + 1 := by
      simp [Instruction.size]
      omega
    rwa [hsize] at hend

end Loops

end Leads

end Symbolic

end LoxMachine

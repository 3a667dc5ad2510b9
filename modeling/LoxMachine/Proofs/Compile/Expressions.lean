import LoxMachine.Proofs.Compile.Scopes

/-!
# Expressions push one value

* `Compiler.Pushes`: code has been written that pushes one value; `Compiler.Replaces`: code that
  replaces the value on top by another one.
* `Parses operand n`: the parser of operands pushes one value, if fewer than `n` tokens are left.
* There is a lemma for every rule, and `parsePrecedence_parses` ties them together. Every operand
  takes a token, so the number of steps is enough.
-/

namespace LoxMachine

variable {c c' : Compiler} {s : Shape}

namespace Compiler

/-- One value has been pushed. -/
structure Pushes (c c' : Compiler) : Prop extends c.Within c' where
  moves : ∀ s : Shape, settled c.draft.locals ≤ s.length →
    c.Moves c' (some s) (some (false :: s))

/-- The value on top has been replaced. -/
structure Replaces (c c' : Compiler) : Prop extends c.Within c' where
  moves : ∀ s : Shape, settled c.draft.locals ≤ s.length →
    c.Moves c' (some (false :: s)) (some (false :: s))

variable {c₁ c₂ : Compiler}

theorem Stays.pushes (h : c.Stays c₁) (hl : c.Later c₁) (h' : c₁.Pushes c₂) : c.Pushes c₂ :=
  ⟨h.toWithin.trans h'.toWithin, fun s hs =>
    (h.moves hl _).trans (h'.moves s (by rw [h.locals]; exact hs))⟩

theorem Pushes.stays (h : c.Pushes c₁) (h' : c₁.Stays c₂) (hl : c₁.Later c₂) : c.Pushes c₂ :=
  ⟨h.toWithin.trans h'.toWithin, fun s hs => (h.moves s hs).trans (h'.moves hl _)⟩

theorem Pushes.replaces (h : c.Pushes c₁) (h' : c₁.Replaces c₂) : c.Pushes c₂ :=
  ⟨h.toWithin.trans h'.toWithin, fun s hs =>
    (h.moves s hs).trans (h'.moves s (by rw [h.locals]; exact hs))⟩

theorem Stays.replaces (h : c.Stays c₁) (hl : c.Later c₁) (h' : c₁.Replaces c₂) : c.Replaces c₂ :=
  ⟨h.toWithin.trans h'.toWithin, fun s hs =>
    (h.moves hl _).trans (h'.moves s (by rw [h.locals]; exact hs))⟩

end Compiler

/-- A call takes its arguments and what it is called on off the stack, and pushes the result. -/
theorem Compiler.Writes.call {op : Opcode} {args : List UInt8} {k m : Nat}
    (h : c.Writes (op.toByte :: args) c')
    (hargs : c.pool.Operand op (List.replicate m false ++ s) args k) (hneeds : op.needs k = m)
    (hpops : op.pops k = m) (hpushes : op.pushes = 1) :
    c.Moves c' (some (List.replicate m false ++ s)) (some (false :: s)) := by
  have heffect : op.effect k (List.replicate m false ++ s) = false :: s := by
    rw [Opcode.effect, hpops, hpushes, List.drop_left' (by simp)]
    rfl
  rw [← heffect]
  refine h.plain hargs (by simp [hneeds]) fun _ b hb => ?_
  rw [hpops, List.take_left' (by simp)] at hb
  exact List.eq_of_mem_replicate hb

namespace Compile

/-! ## Rules for single tokens -/

set_option synthInstance.maxSize 4096

/-- The parser of operands pushes one value, if fewer than `n` tokens are left. -/
def Parses (operand : Precedence → Compile Unit) (n : Nat) : Prop :=
  ∀ (p : Precedence) (c : Compiler), p ≠ .none → c.left < n →
    Does (operand p) c fun _ c' => c.Pushes c'

section Rules

variable {operand : Precedence → Compile Unit} [∀ p, Orderly (operand p)] {fuel n : Nat}
  (hoperand : Parses operand n)

theorem emit_pushes {op : Opcode} (hop : op = .pushNil ∨ op = .pushTrue ∨ op = .pushFalse) :
    Does (emit op) c fun _ c' => c.Pushes c' := by
  refine (emit_does op).mono fun _ c₁ _ _ h₁ => ⟨h₁.toWithin, fun s _ => ?_⟩
  rcases hop with rfl | rfl | rfl <;>
    exact h₁.plain (n := 0) ⟨by simp, rfl⟩ (Nat.zero_le _) (by simp [Opcode.pops])

include hoperand in
omit [∀ (p : Precedence), (operand p).Orderly] in
theorem grouping_does (hleft : c.left < n) :
    Does (grouping operand) c fun _ c' => c.Pushes c' := by
  unfold grouping
  refine (hoperand .assignment c (by simp) hleft).bind fun _ c₁ _ _ h₁ => ?_
  exact (consume_does _ _).mono fun _ c₂ _ hl₂ h₂ => h₁.stays h₂ hl₂

include hoperand in
omit [∀ (p : Precedence), (operand p).Orderly] in
theorem unary_does (operator : TokenKind) (hleft : c.left < n) :
    Does (unary operand operator) c fun _ c' => c.Pushes c' := by
  unfold unary
  refine (hoperand .unary c (by simp) hleft).bind fun _ c₁ _ _ h₁ => ?_
  refine (emit_does _).mono fun _ c₂ _ _ h₂ => h₁.replaces ⟨h₂.toWithin, fun s _ => ?_⟩
  split at h₂
  · exact h₂.plain (n := 0) ⟨by simp, rfl⟩ (by simp [Opcode.needs, Opcode.pops])
      (by simp [Opcode.pops])
  · exact h₂.plain (n := 0) ⟨by simp, rfl⟩ (by simp [Opcode.needs, Opcode.pops])
      (by simp [Opcode.pops])

/-- A token that binds and is none of the others is a binary operator: it performs an operation on
two values, possibly followed by a negation. -/
theorem binaryOperations_spec {kind : TokenKind} (hkind : Precedence.ofToken kind ≠ .none)
    (hother : kind ≠ .leftParen ∧ kind ≠ .dot ∧ kind ≠ .kwAnd ∧ kind ≠ .kwOr) :
    (∃ op, (binaryOperations kind = [op] ∨ binaryOperations kind = [op, .not]) ∧
      op.operands = .none ∧ op ≠ .ret ∧ op.needs 0 = 2 ∧ op.pops 0 = 2 ∧ op.pushes = 1) ∧
      (Precedence.ofToken kind).next ≠ .none := by
  cases kind <;>
    simp_all [Precedence.ofToken, binaryOperations, Precedence.next, Opcode.operands,
      Opcode.needs, Opcode.pops, Opcode.pushes]

include hoperand in
omit [∀ (p : Precedence), (operand p).Orderly] in
theorem binary_does {kind : TokenKind} (hkind : Precedence.ofToken kind ≠ .none)
    (hother : kind ≠ .leftParen ∧ kind ≠ .dot ∧ kind ≠ .kwAnd ∧ kind ≠ .kwOr)
    (hleft : c.left < n) : Does (binary operand kind) c fun _ c' => c.Replaces c' := by
  obtain ⟨⟨op, hops, hoperands, hret, hneeds, hpops, hpushes⟩, hnext⟩ :=
    binaryOperations_spec hkind hother
  unfold binary
  refine (hoperand _ c hnext hleft).bind fun _ c₁ _ _ h₁ => ?_
  have hfirst : Does (emit op) c₁ fun _ c' => c.Replaces c' := by
    refine (emit_does op).mono fun _ c₂ _ _ h₂ => ⟨h₁.toWithin.trans h₂.toWithin, fun s hs => ?_⟩
    refine (h₁.moves (false :: s) (Nat.le_succ_of_le hs)).trans ?_
    refine h₂.call (s := s) (m := 2) (k := 0) ?_ hneeds hpops hpushes
    unfold Pool.Operand
    rw [hoperands]
    exact ⟨hret, rfl⟩
  rcases hops with hops | hops
  · rw [hops]
    exact hfirst.bind fun _ c₂ _ _ h₂ => .pure h₂
  · rw [hops]
    refine hfirst.bind fun _ c₂ _ _ h₂ => ?_
    refine Does.bind (emit_does .not) fun _ c₃ _ _ h₃ => .pure ?_
    refine ⟨h₂.toWithin.trans h₃.toWithin, fun s hs => (h₂.moves s hs).trans ?_⟩
    exact h₃.plain (n := 0) ⟨by simp, rfl⟩ (by simp [Opcode.needs, Opcode.pops])
      (by simp [Opcode.pops])

theorem number_does : Does number c fun _ c' => c.Pushes c' := by
  unfold number
  refine .get ?_
  split
  · refine (emitConstant_does _ (by simp)).mono fun _ c₁ _ _ h₁ => ⟨h₁.1, fun s _ => h₁.2 s⟩
  · exact .error

theorem string_does : Does string c fun _ c' => c.Pushes c' := by
  unfold string
  refine lexeme_does.bind fun text c₁ _ _ h₁ => ?_
  obtain rfl := h₁
  refine (intern_does _).bind fun h c₂ _ hl₂ h₂ => ?_
  refine (emitConstant_does (.obj h) fun x hx hs => ?_).mono fun _ c₃ _ _ h₃ => ?_
  · cases hx
    exact absurd h₂.2 hs
  · exact h₂.1.pushes hl₂ ⟨h₃.1, fun s _ => h₃.2 s⟩

theorem readVariable_pushes (name : String) :
    Does (readVariable name) c fun _ c' => c.Pushes c' :=
  (readVariable_does name).mono fun _ _ _ _ h => ⟨h.1, h.2⟩

include hoperand in
theorem name_does (canAssign : Bool) (hleft : c.left < n) :
    Does (name operand canAssign) c fun _ c' => c.Pushes c' := by
  unfold name
  refine lexeme_does.bind fun text c₁ _ _ h₁ => ?_
  obtain rfl := h₁
  refine (access_does text).bind fun a c₂ _ hl₂ h₂ => ?_
  refine (check_does .equal).bind fun b c₃ _ _ h₃ => ?_
  obtain ⟨rfl, -⟩ := h₃
  refine .ite (fun _ => ?_) fun _ => ?_
  · refine advance_does.bind fun _ c₄ _ hl₄ h₄ => ?_
    have hstays := h₂.1.trans h₄.1
    have hlater := hl₂.trans hl₄
    refine (hoperand .assignment c₄ (by simp) (hlater.left.trans_lt hleft)).bind
      fun _ c₅ _ hl₅ h₅ => ?_
    refine (emitWith_does a.setter a.operand).mono fun _ c₆ _ _ h₆ => ?_
    refine (hstays.pushes hlater h₅).replaces ⟨h₆.toWithin, fun s hs => ?_⟩
    refine (h₂.2.mono (hl₄.trans hl₅).pool).write h₆ ?_ (by simp)
    rw [← (h₄.1.toWithin.trans h₅.toWithin).locals]
    exact Nat.le_succ_of_le hs
  · refine (emitWith_does a.getter a.operand).mono fun _ c₄ _ _ h₄ => ?_
    exact h₂.1.pushes hl₂ ⟨h₄.toWithin, fun s hs => h₂.2.read h₄ hs⟩

theorem this_does : Does this c fun _ c' => c.Pushes c' := by
  unfold this
  refine .get (.ite (fun _ => .error) fun _ => ?_)
  refine lexeme_does.bind fun text c₁ _ _ h₁ => ?_
  obtain rfl := h₁
  exact readVariable_pushes text

/-! ## Calls -/

include hoperand in
/-- Arguments are pushed one after the other. There are never more than a byte can count. -/
theorem argumentsFrom_does (m count : Nat) (hcount : count ≤ maxArity) (hleft : c.left < n) :
    Does (argumentsFrom operand m count) c fun k c' => c.Within c' ∧ k ≤ maxArity ∧
      ∀ s : Shape, settled c.draft.locals ≤ s.length →
        c.Moves c' (some (List.replicate count false ++ s))
          (some (List.replicate k false ++ s)) := by
  induction m generalizing c count with
  | zero => exact .pure ⟨.refl c, hcount, fun s _ _ h => h⟩
  | succ m ih =>
    unfold argumentsFrom
    refine (hoperand .assignment c (by simp) hleft).bind fun _ c₁ _ hl₁ h₁ => ?_
    refine .ite (fun _ => .error_bind) fun hne => ?_
    have hlt : count + 1 ≤ maxArity := Nat.lt_of_le_of_ne hcount hne
    have hmoves : ∀ s : Shape, settled c.draft.locals ≤ s.length →
        c.Moves c₁ (some (List.replicate count false ++ s))
          (some (List.replicate (count + 1) false ++ s)) := by
      intro s hs
      rw [List.replicate_succ]
      exact h₁.moves _ (by simp; omega)
    refine (accept_does .comma).bind fun b c₂ _ hl₂ h₂ => ?_
    have hwithin := h₁.toWithin.trans h₂.1.toWithin
    refine .ite (fun _ => ?_) fun _ => ?_
    · refine (ih (count + 1) hlt ((hl₁.trans hl₂).left.trans_lt hleft)).mono
        fun k c₃ _ _ h₃ => ⟨hwithin.trans h₃.1, h₃.2.1, fun s hs => ?_⟩
      exact (hmoves s hs).trans ((h₂.1.moves hl₂ _).trans
        (h₃.2.2 s (by rw [hwithin.locals]; exact hs)))
    · exact .pure ⟨hwithin, hlt, fun s hs => (hmoves s hs).trans (h₂.1.moves hl₂ _)⟩

include hoperand in
theorem arguments_does (hleft : c.left < n) :
    Does (arguments operand fuel) c fun k c' => c.Within c' ∧
      ∀ s : Shape, settled c.draft.locals ≤ s.length →
        c.Moves c' (some s) (some (List.replicate k.toNat false ++ s)) := by
  have hend : ∀ (c₁ : Compiler) (k : Nat), c.Within c₁ → k ≤ maxArity →
      (∀ s : Shape, settled c.draft.locals ≤ s.length →
        c.Moves c₁ (some s) (some (List.replicate k false ++ s))) →
      Does (do
        consume .rightParen .rightParenAfterArguments
        return UInt8.ofNat (min k maxArity)) c₁ fun k c' => c.Within c' ∧
          ∀ s : Shape, settled c.draft.locals ≤ s.length →
            c.Moves c' (some s) (some (List.replicate k.toNat false ++ s)) := by
    intro c₁ k hwithin hk hmoves
    refine (consume_does _ _).bind fun _ c₂ _ hl₂ h₂ => .pure ⟨hwithin.trans h₂.toWithin, ?_⟩
    have hbyte : (UInt8.ofNat (min k maxArity)).toNat = k := by
      rw [min_eq_left hk, UInt8.toNat_ofNat_of_lt' (Nat.lt_succ_of_le hk)]
    intro s hs
    rw [hbyte]
    exact (hmoves s hs).trans (h₂.moves hl₂ _)
  unfold arguments
  refine (check_does .rightParen).bind fun b c₁ _ _ h₁ => ?_
  obtain ⟨rfl, -⟩ := h₁
  refine .ite (fun _ => ?_) fun _ => ?_
  · exact hend _ 0 (.refl _) (Nat.zero_le _) fun s _ _ h => h
  · refine (argumentsFrom_does hoperand fuel 0 (Nat.zero_le _) hleft).bind fun k c₂ _ _ h₂ => ?_
    exact hend c₂ k h₂.1 h₂.2.1 h₂.2.2

/-- Arguments and what is below them are values that can be popped. -/
theorem replicate_append_cons (k : Nat) (s : Shape) :
    List.replicate k false ++ false :: s = List.replicate (k + 1) false ++ s := by
  rw [List.replicate_succ', List.append_assoc]
  rfl

include hoperand in
theorem call_does (hleft : c.left < n) :
    Does (call operand fuel) c fun _ c' => c.Replaces c' := by
  unfold call
  refine (arguments_does hoperand hleft).bind fun k c₁ _ _ h₁ => ?_
  refine (emitWith_does .call k).mono fun _ c₂ _ _ h₂ => ⟨h₁.1.trans h₂.toWithin, fun s hs => ?_⟩
  refine (h₁.2 (false :: s) (Nat.le_succ_of_le hs)).trans ?_
  rw [replicate_append_cons]
  exact h₂.call (k := k.toNat) rfl rfl rfl rfl

include hoperand in
theorem property_does (canAssign : Bool) (hleft : c.left < n) :
    Does (property operand fuel canAssign) c fun _ c' => c.Replaces c' := by
  unfold property
  refine (consume_does _ _).bind fun _ c₁ _ hl₁ h₁ => ?_
  refine lexeme_does.bind fun text c₂ _ _ h₂ => ?_
  obtain rfl := h₂
  refine (nameConstant_does text).bind fun i c₃ _ hl₃ h₃ => ?_
  refine (check_does .equal).bind fun b c₄ _ _ h₄ => ?_
  obtain ⟨rfl, -⟩ := h₄
  have hstays := h₁.trans h₃.1
  have hlater := hl₁.trans hl₃
  have hname := h₃.2
  refine .ite (fun _ => ?_) fun _ => ?_
  · refine advance_does.bind fun _ c₅ _ hl₅ h₅ => ?_
    refine (hoperand .assignment c₅ (by simp)
      ((hlater.trans hl₅).left.trans_lt hleft)).bind fun _ c₆ _ hl₆ h₆ => ?_
    refine (emitWith_does .setProperty i).mono fun _ c₇ _ _ h₇ => ?_
    refine (hstays.trans h₅.1).replaces (hlater.trans hl₅)
      ⟨h₆.toWithin.trans h₇.toWithin, fun s hs => ?_⟩
    refine (h₆.moves (false :: s) (Nat.le_succ_of_le hs)).trans ?_
    exact h₇.call (s := s) (m := 2) (k := 0) ⟨rfl, (hl₅.trans hl₆).pool.constant hname⟩ rfl rfl rfl
  · refine (accept_does .leftParen).bind fun b c₅ _ hl₅ h₅ => ?_
    refine .ite (fun _ => ?_) fun _ => ?_
    · refine (arguments_does hoperand ((hlater.trans hl₅).left.trans_lt hleft)).bind
        fun k c₆ _ hl₆ h₆ => ?_
      refine (emitWith_does .invoke i).bind fun _ c₇ _ _ h₇ => ?_
      refine (emitByte_does k).mono fun _ c₈ _ _ h₈ => ?_
      have hwrites := h₇.trans h₈
      refine (hstays.trans h₅.1).replaces (hlater.trans hl₅)
        ⟨h₆.1.trans hwrites.toWithin, fun s hs => ?_⟩
      refine (h₆.2 (false :: s) (Nat.le_succ_of_le hs)).trans ?_
      rw [replicate_append_cons]
      exact hwrites.call (k := k.toNat) ⟨(hl₅.trans hl₆).pool.constant hname, rfl⟩ rfl rfl rfl
    · refine (emitWith_does .getProperty i).mono fun _ c₆ _ _ h₆ => ?_
      refine (hstays.trans h₅.1).replaces (hlater.trans hl₅) ⟨h₆.toWithin, fun s _ => ?_⟩
      exact h₆.call (s := s) (m := 1) (k := 0) ⟨rfl, hl₅.pool.constant hname⟩ rfl rfl rfl

include hoperand in
theorem super_does (hleft : c.left < n) :
    Does (super operand fuel) c fun _ c' => c.Pushes c' := by
  have hrest : Does (do
      consume .dot .dotAfterSuper
      consume .identifier .superclassMethodName
      let name ← nameConstant (← lexeme)
      readVariable "this"
      if ← accept .leftParen then
        let count ← arguments operand fuel
        readVariable "super"
        emitWith .superInvoke name
        emitByte count
      else
        readVariable "super"
        emitWith .getSuper name) c fun _ c' => c.Pushes c' := by
    refine (consume_does _ _).bind fun _ c₁ _ hl₁ h₁ => ?_
    refine (consume_does _ _).bind fun _ c₂ _ hl₂ h₂ => ?_
    refine lexeme_does.bind fun text c₃ _ _ h₃ => ?_
    obtain rfl := h₃
    refine (nameConstant_does text).bind fun i c₄ _ hl₄ h₄ => ?_
    refine (readVariable_pushes "this").bind fun _ c₅ _ hl₅ h₅ => ?_
    refine (accept_does .leftParen).bind fun b c₆ _ hl₆ h₆ => ?_
    have hthis := ((h₁.trans h₂).trans h₄.1).pushes ((hl₁.trans hl₂).trans hl₄) (h₅.stays h₆.1 hl₆)
    have hlater := (((hl₁.trans hl₂).trans hl₄).trans hl₅).trans hl₆
    have hname := h₄.2
    refine .ite (fun _ => ?_) fun _ => ?_
    · refine (arguments_does hoperand (hlater.left.trans_lt hleft)).bind fun k c₇ _ hl₇ h₇ => ?_
      refine (readVariable_pushes "super").bind fun _ c₈ _ hl₈ h₈ => ?_
      refine (emitWith_does .superInvoke i).bind fun _ c₉ _ _ h₉ => ?_
      refine (emitByte_does k).mono fun _ c₁₀ _ _ h₁₀ => ?_
      have hwrites := h₉.trans h₁₀
      refine hthis.replaces ⟨(h₇.1.trans h₈.toWithin).trans hwrites.toWithin, fun s hs => ?_⟩
      refine (h₇.2 (false :: s) (Nat.le_succ_of_le hs)).trans ((h₈.moves _ ?_).trans ?_)
      · rw [h₇.1.locals]
        simp
        omega
      · rw [replicate_append_cons, ← List.cons_append, ← List.replicate_succ]
        exact hwrites.call (k := k.toNat)
          ⟨(((hl₅.trans hl₆).trans hl₇).trans hl₈).pool.constant hname, rfl⟩ rfl rfl rfl
    · refine (readVariable_pushes "super").bind fun _ c₇ _ hl₇ h₇ => ?_
      refine (emitWith_does .getSuper i).mono fun _ c₈ _ _ h₈ => ?_
      refine hthis.replaces ⟨h₇.toWithin.trans h₈.toWithin, fun s hs => ?_⟩
      refine (h₇.moves (false :: s) (Nat.le_succ_of_le hs)).trans ?_
      exact h₈.call (s := s) (m := 2) (k := 0)
        ⟨rfl, ((hl₅.trans hl₆).trans hl₇).pool.constant hname⟩ rfl rfl rfl
  unfold super
  refine .get ?_
  dsimp only
  split
  · exact .error_bind
  · exact .ite (fun _ => .error_bind) fun _ => hrest

/-! ## Short circuits -/

include hoperand in
theorem conjunction_does (hleft : c.left < n) :
    Does (conjunction operand) c fun _ c' => c.Replaces c' := by
  unfold conjunction
  refine (emitJump_does .jumpIfFalse).bind fun o c₁ _ hl₁ h₁ => ?_
  obtain ⟨rfl, h₁⟩ := h₁
  refine (emit_does .pop).bind fun _ c₂ _ hl₂ h₂ => ?_
  refine (hoperand .and c₂ (by simp) ((hl₁.trans hl₂).left.trans_lt hleft)).bind
    fun _ c₃ _ hl₃ h₃ => ?_
  have hwithin := (h₁.toWithin.trans h₂.toWithin).trans h₃.toWithin
  refine (patchJump_does c.size).mono fun _ c₄ _ _ h₄ =>
    ⟨hwithin.trans h₄.toWithin, fun s hs sketch hlaid => ?_⟩
  have hjump := h₁.jumpIfFalse hlaid (by simp)
  have hpop : c₁.Moves c₂ (some (false :: s)) (some s) :=
    h₂.plain (n := 0) ⟨by simp, rfl⟩ (by simp [Opcode.needs, Opcode.pops]) (by simp [Opcode.pops])
  have hright := h₃.moves s (by rw [(h₁.toWithin.trans h₂.toWithin).locals]; exact hs) _
    (hpop _ hjump)
  exact h₄.last hright (.refl _)

include hoperand in
theorem disjunction_does (hleft : c.left < n) :
    Does (disjunction operand) c fun _ c' => c.Replaces c' := by
  unfold disjunction
  refine (emitJump_does .jumpIfFalse).bind fun o c₁ _ hl₁ h₁ => ?_
  obtain ⟨rfl, h₁⟩ := h₁
  refine (emitJump_does .jump).bind fun o c₂ _ hl₂ h₂ => ?_
  obtain ⟨rfl, h₂⟩ := h₂
  refine (patchJump_does c.size).bind fun _ c₃ _ hl₃ h₃ => ?_
  refine (emit_does .pop).bind fun _ c₄ _ hl₄ h₄ => ?_
  refine (hoperand .or c₄ (by simp)
    ((((hl₁.trans hl₂).trans hl₃).trans hl₄).left.trans_lt hleft)).bind fun _ c₅ _ hl₅ h₅ => ?_
  have hbefore := ((h₁.toWithin.trans h₂.toWithin).trans h₃.toWithin).trans h₄.toWithin
  refine (patchJump_does c₁.size).mono fun _ c₆ _ _ h₆ =>
    ⟨(hbefore.trans h₅.toWithin).trans h₆.toWithin, fun s hs sketch hlaid => ?_⟩
  have honFalse := h₁.jumpIfFalse hlaid (by simp)
  have hatEnd : c₂.Laid _ (some (false :: s)) := (h₂.jump honFalse).weaken (by simp)
  have hpatched := h₃.previous hatEnd (.refl _)
  have hpop : c₃.Moves c₄ (some (false :: s)) (some s) :=
    h₄.plain (n := 0) ⟨by simp, rfl⟩ (by simp [Opcode.needs, Opcode.pops]) (by simp [Opcode.pops])
  have hright := h₅.moves s (by rw [hbefore.locals]; exact hs) _ (hpop _ hpatched)
  exact h₆.last hright (.refl _)

/-! ## Starting and continuing an expression -/

include hoperand in
theorem startExpression_does (kind : TokenKind) (canAssign : Bool) (hleft : c.left < n) :
    Does (startExpression operand fuel kind canAssign) c fun b c' => b = true → c.Pushes c' := by
  have htrue : ∀ {x : Compile Unit}, (Does x c fun _ c' => c.Pushes c') →
      Does (do x; return true) c fun b c' => b = true → c.Pushes c' :=
    fun h => h.bind fun _ _ _ _ h => .pure fun _ => h
  unfold startExpression
  split
  · exact htrue (grouping_does hoperand hleft)
  · exact htrue (unary_does hoperand _ hleft)
  · exact htrue (unary_does hoperand _ hleft)
  · exact htrue number_does
  · exact htrue string_does
  · exact htrue (emit_pushes (by simp))
  · exact htrue (emit_pushes (by simp))
  · exact htrue (emit_pushes (by simp))
  · exact htrue (name_does hoperand canAssign hleft)
  · exact htrue this_does
  · exact htrue (super_does hoperand hleft)
  · exact .pure (by simp)

include hoperand in
theorem continueExpression_does {kind : TokenKind} (canAssign : Bool)
    (hkind : Precedence.ofToken kind ≠ .none) (hleft : c.left < n) :
    Does (continueExpression operand fuel kind canAssign) c fun _ c' => c.Replaces c' := by
  unfold continueExpression
  split
  · exact call_does hoperand hleft
  · exact property_does hoperand canAssign hleft
  · exact conjunction_does hoperand hleft
  · exact disjunction_does hoperand hleft
  · rename_i h₁ h₂ h₃ h₄
    exact binary_does hoperand hkind ⟨h₁, h₂, h₃, h₄⟩ hleft

end Rules

/-! ## The parser -/

/-- **An expression pushes one value.** -/
theorem parsePrecedence_parses (n : Nat) : Parses (parsePrecedence n) n := by
  induction n with
  | zero => exact fun p c _ hleft => absurd hleft (Nat.not_lt_zero _)
  | succ n ih =>
    intro p c hp hleft
    unfold parsePrecedence
    refine advance_does.bind fun _ c₁ _ hl₁ h₁ => .get ?_
    obtain ⟨hstays, hprevious, hless⟩ := h₁
    by_cases heof : c.current.kind = .eof
    · -- nothing starts with the end of the source
      rw [hprevious, heof]
      exact Does.bind (Q := fun b _ => b = false) (.pure rfl) fun b _ _ _ hb => by
        subst hb
        exact .error
    have hleft₁ : c₁.left < n := by
      have := hless heof
      omega
    refine (startExpression_does ih _ _ hleft₁).bind fun b c₂ _ hl₂ h₂ => ?_
    refine .ite (fun hb => ?_) fun _ => .error
    have hpushed : c.Pushes c₂ := hstays.pushes hl₁ (h₂ hb)
    -- what continues the expression replaces its value
    refine Does.bind (Q := fun _ c' => c.Pushes c') ?_ fun _ c₃ _ hl₃ h₃ => ?_
    · refine Does.mono (Does.loop
        (I := fun c' => c.Pushes c' ∧ c'.left < n)
        (J := fun c' => (c.Pushes c' ∧ c'.left < n) ∧ p ≤ Precedence.ofToken c'.current.kind)
        (fun c' hI => .get (.pure ?_)) (fun c' hJ => ?_) n
        ⟨hpushed, hl₂.left.trans_lt hleft₁⟩) fun _ _ _ _ h => h.1
      · split
        · rename_i hle
          exact ⟨hI, by simpa using hle⟩
        · exact hI
      · obtain ⟨⟨hpushes, hlt⟩, hle⟩ := hJ
        refine advance_does.bind fun _ c₄ _ hl₄ h₄ => .get ?_
        have hkind : Precedence.ofToken c₄.previous.kind ≠ .none := by
          rw [h₄.2.1]
          intro hnone
          rw [hnone] at hle
          cases p <;> first | exact hp rfl | exact absurd hle (by decide)
        refine (continueExpression_does ih _ hkind (hl₄.left.trans_lt hlt)).mono
          fun _ c₅ _ hl₅ h₅ => ⟨?_, (hl₄.trans hl₅).left.trans_lt hlt⟩
        exact hpushes.replaces (h₄.1.replaces hl₄ h₅)
    · refine (check_does .equal).bind fun b c₄ _ _ h₄ => ?_
      obtain ⟨rfl, -⟩ := h₄
      refine .ite (fun _ => ?_) fun _ => .pure h₃
      exact advance_does.bind fun _ _ _ _ _ => .error

theorem expression_does {n : Nat} (hleft : c.left < n) :
    Does (expression n) c fun _ c' => c.Pushes c' :=
  parsePrecedence_parses n .assignment c (by simp) hleft

end Compile

end LoxMachine

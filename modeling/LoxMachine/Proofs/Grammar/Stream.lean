import LoxMachine.Proofs.Compile.Declarations
import LoxMachine.Proofs.Grammar.Directed

/-!
# The tokens to come

* `Compiler.upcoming` are the tokens that are still to be read, the current one first.
* `Compiler.Expects`: which symbols these tokens are. They end with `eof`, and none is an error.
* `Compile.Reads x k`: the action reads `k` tokens, never takes errors back, and is in panic only after
  an error. The instances go through all actions of the compiler that do not look at tokens.
-/

namespace LoxMachine

/-! ## Streams -/

/-- What a scanned token looks like if it is no error. -/
structure Token.Proper (t : Token) : Prop where
  notError : ∀ reason, t.kind ≠ .error reason
  this : t.kind = .kwThis → t.text = "this"

/-- Tokens that end with `eof`. -/
inductive Stream : List Token → Prop
  | eof {t : Token} (h : t.kind = .eof) : Stream [t]
  | cons {t : Token} {ts : List Token} (h : t.kind ≠ .eof) (proper : t.Proper) (more : Stream ts) :
      Stream (t :: ts)

theorem Stream.drop {ts : List Token} (h : Stream ts) {k : Nat} (hk : k < ts.length) :
    Stream (ts.drop k) := by
  induction h generalizing k with
  | eof h =>
    obtain rfl : k = 0 := Nat.lt_one_iff.1 hk
    exact .eof h
  | @cons t ts h proper more ih =>
    cases k with
    | zero => exact .cons h proper more
    | succ k => exact ih (Nat.lt_of_succ_lt_succ hk)

namespace Compiler

/-- The tokens that are still to be read. -/
def upcoming (c : Compiler) : List Token :=
  if c.current.kind = .eof then [c.current] else c.current :: c.rest

/-- In panic only after an error. -/
def Calm (c : Compiler) : Prop := c.panicking = true → c.errors ≠ #[]

/-- The symbols to come. -/
structure Expects (c : Compiler) (symbols : List Symbol) : Prop where
  stream : Stream c.upcoming
  symbols_eq : c.upcoming.map Token.symbol = symbols

variable {c c' : Compiler} {s : Symbol} {symbols : List Symbol}

theorem upcoming_congr (hcurrent : c'.current = c.current) (hrest : c'.rest = c.rest) :
    c'.upcoming = c.upcoming := by
  unfold upcoming
  rw [hcurrent, hrest]

theorem head_upcoming (c : Compiler) : ∃ ts, c.upcoming = c.current :: ts := by
  unfold upcoming
  split <;> exact ⟨_, rfl⟩

theorem Expects.current (h : c.Expects (s :: symbols)) : c.current.symbol = s := by
  obtain ⟨ts, hts⟩ := c.head_upcoming
  have := h.symbols_eq
  rw [hts] at this
  exact (List.cons.inj this).1

theorem Expects.kind (h : c.Expects (s :: symbols)) : c.current.kind = s.kind := by
  rw [← h.current]
  rfl

end Compiler

/-! ## Reading -/

namespace Compile

variable {α β : Type}

/-- An action that reads `k` tokens. -/
class Reads (x : Compile α) (k : outParam Nat) : Prop where
  clean : ∀ c : Compiler, (x c).2.errors = #[] → c.errors = #[]
  calm : ∀ c : Compiler, c.Calm → (x c).2.Calm
  upcoming : ∀ c : Compiler, Stream c.upcoming → k < c.upcoming.length →
    (x c).2.upcoming = c.upcoming.drop k

/-- An action that reads no tokens. -/
class Still (x : Compile α) : Prop where
  clean : ∀ c : Compiler, (x c).2.errors = #[] → c.errors = #[]
  calm : ∀ c : Compiler, c.Calm → (x c).2.Calm
  same : ∀ c : Compiler, (x c).2.current = c.current ∧ (x c).2.rest = c.rest ∧
    (x c).2.previous = c.previous

theorem Reads.of_eq {x : Compile α} {k l : Nat} (h : Reads x k) (hkl : k = l) : Reads x l := hkl ▸ h

theorem Still.upcoming {x : Compile α} (h : Still x) (c : Compiler) :
    (x c).2.upcoming = c.upcoming :=
  Compiler.upcoming_congr (h.same c).1 (h.same c).2.1

theorem Still.expects {x : Compile α} (h : Still x) {c : Compiler} {symbols : List Symbol}
    (hc : c.Expects symbols) : (x c).2.Expects symbols := by
  refine ⟨?_, ?_⟩
  · rw [h.upcoming c]
    exact hc.stream
  · rw [h.upcoming c]
    exact hc.symbols_eq

/-- Where the stream is after tokens have been read. -/
theorem Reads.expects {x : Compile α} {c : Compiler} {w more : List Symbol}
    (hx : Reads x w.length) (h : c.Expects (w ++ more)) (hmore : more ≠ []) :
    (x c).2.Expects more := by
  have hlength : w.length < c.upcoming.length := by
    rw [← List.length_map Token.symbol, h.symbols_eq, List.length_append]
    exact Nat.lt_add_of_pos_right (List.length_pos_iff.2 hmore)
  refine ⟨?_, ?_⟩
  · rw [hx.upcoming c h.stream hlength]
    exact h.stream.drop hlength
  · rw [hx.upcoming c h.stream hlength, List.map_drop, h.symbols_eq, List.drop_left]

/-! ## Combinations -/

/-- The result of an action is known. -/
theorem bind_of {x : Compile α} {f : α → Compile β} {a : α} {c c' : Compiler} (hx : x c = (a, c')) :
    (x >>= f) c = f a c' := by
  change f (x c).1 (x c).2 = _
  rw [hx]

theorem snd_bind (x y : Compile Unit) (c : Compiler) : (y (x c).2).2 = ((do x; y) c).2 := rfl

instance (priority := low) (x : Compile α) [h : Still x] : Reads x 0 :=
  ⟨h.clean, h.calm, fun c _ _ => h.upcoming c⟩

theorem Reads.bind {x : Compile α} {f : α → Compile β} {k l : Nat} (hx : Reads x k)
    (hf : ∀ a, Reads (f a) l) : Reads (x >>= f) (k + l) := by
  refine ⟨fun c h => hx.clean c ((hf (x c).1).clean _ h),
    fun c h => (hf (x c).1).calm _ (hx.calm c h), fun c hs hlt => ?_⟩
  have hx' := hx.upcoming c hs (by omega)
  have hf' := (hf (x c).1).upcoming (x c).2
  rw [hx', List.length_drop, List.drop_drop] at hf'
  exact hf' (hs.drop (by omega)) (by omega)

instance (x : Compile α) (f : α → Compile β) {k l : Nat} [hx : Reads x k] [hf : ∀ a, Reads (f a) l] :
    Reads (x >>= f) (k + l) := hx.bind hf

theorem Still.bind {x : Compile α} {f : α → Compile β} (hx : Still x) (hf : ∀ a, Still (f a)) :
    Still (x >>= f) := by
  refine ⟨fun c h => hx.clean c ((hf (x c).1).clean _ h),
    fun c h => (hf (x c).1).calm _ (hx.calm c h), fun c => ?_⟩
  obtain ⟨h₁, h₂, h₃⟩ := hx.same c
  obtain ⟨h₁', h₂', h₃'⟩ := (hf (x c).1).same (x c).2
  exact ⟨h₁'.trans h₁, h₂'.trans h₂, h₃'.trans h₃⟩

instance (x : Compile α) (f : α → Compile β) [hx : Still x] [hf : ∀ a, Still (f a)] :
    Still (x >>= f) := hx.bind hf

/-- An action that changes neither tokens nor errors. -/
theorem still_of_same {x : Compile α} (htokens : ∀ c, (x c).2.current = c.current ∧
      (x c).2.rest = c.rest ∧ (x c).2.previous = c.previous)
    (herrors : ∀ c, (x c).2.errors = c.errors ∧ (x c).2.panicking = c.panicking) : Still x := by
  refine ⟨fun c h => ?_, fun c h => ?_, htokens⟩
  · rwa [← (herrors c).1]
  · unfold Compiler.Calm
    rw [(herrors c).1, (herrors c).2]
    exact h

instance (a : α) : Still (pure a : Compile α) :=
  still_of_same (fun _ => ⟨rfl, rfl, rfl⟩) fun _ => ⟨rfl, rfl⟩

instance : Still (get : Compile Compiler) :=
  still_of_same (fun _ => ⟨rfl, rfl, rfl⟩) fun _ => ⟨rfl, rfl⟩

instance (p : Prop) [Decidable p] (x y : Compile α) [Still x] [Still y] :
    Still (if p then x else y) := by
  split <;> infer_instance

instance (l : List α) (f : α → Compile Unit) [∀ a, Still (f a)] : Still (l.forM f) := by
  induction l with
  | nil => exact inferInstanceAs (Still (pure ()))
  | cons a l ih => exact inferInstanceAs (Still (f a >>= fun _ => l.forM f))

instance (l : Array α) (f : α → Compile Unit) [∀ a, Still (f a)] : Still (l.forM f) := by
  have hlist : Array.forM f l = l.toList.forM f := List.forM_toArray' l.toList f rfl
  rw [hlist]
  infer_instance

/-! ## Basic actions -/

/-- The next token. -/
theorem upcoming_advance {c : Compiler} {t u : Token} {us : List Token}
    (h : c.upcoming = t :: u :: us) (hs : Stream c.upcoming) :
    (advance c).2.upcoming = u :: us ∧ (advance c).2.previous = t ∧
      (advance c).2.errors = c.errors ∧ (advance c).2.panicking = c.panicking := by
  rw [h] at hs
  have hcurrent : c.current = t ∧ c.rest = u :: us := by
    unfold Compiler.upcoming at h
    split at h
    · simp at h
    · exact List.cons.inj h
  have hmore : Stream (u :: us) := by
    cases hs with
    | cons _ _ more => exact more
  have hpull : (advance c).2 = ({ c with previous := c.current } : Compiler).pull (u :: us) := by
    change ({ c with previous := c.current } : Compiler).pull c.rest = _
    rw [hcurrent.2]
  rw [hpull]
  cases hmore with
  | eof hu =>
    have hkind : u.kind = .eof := hu
    simp [Compiler.pull, hkind, Compiler.upcoming, hcurrent.1]
  | cons hu proper more =>
    unfold Compiler.pull
    split
    · exact absurd ‹_› (proper.notError _)
    · exact absurd ‹_› hu
    · exact ⟨if_neg hu, hcurrent.1, rfl, rfl⟩

theorem calm_errorAt {c : Compiler} (t : Token) (d : Diagnosis) (h : c.Calm) :
    (c.errorAt t d).Calm := by
  unfold Compiler.errorAt
  split
  · exact h
  · intro _
    simp

/-- Without errors there is no panic. -/
theorem panicking_eq_false {c : Compiler} (hc : c.Calm) (h : c.errors = #[]) : c.panicking = false := by
  by_contra hpanic
  exact hc (by simpa using hpanic) h

/-- What is reported is never taken back. -/
theorem errorAt_ne {c : Compiler} (hc : c.Calm) (t : Token) (d : Diagnosis) : (c.errorAt t d).errors ≠ #[] := by
  intro h
  have hnone := (precedes_errorAt c t d).errors h
  rw [Compiler.errorAt, if_neg (by simp [panicking_eq_false hc hnone])] at h
  simp at h

theorem calm_pull (ts : List Token) {c : Compiler} (h : c.Calm) : (c.pull ts).Calm := by
  induction ts generalizing c with
  | nil => exact h
  | cons t ts ih =>
    unfold Compiler.pull
    split
    · exact ih (calm_errorAt t _ h)
    · exact h
    · exact h

instance : Reads advance 1 := by
  refine ⟨fun c => (Orderly.precedes (x := advance) c).errors, fun c h => calm_pull c.rest h,
    fun c hs hlt => ?_⟩
  obtain ⟨t, u, us, h⟩ : ∃ t u us, c.upcoming = t :: u :: us := by
    match hu : c.upcoming with
    | [] | [_] => simp [hu] at hlt
    | t :: u :: us => exact ⟨t, u, us, rfl⟩
  rw [(upcoming_advance h hs).1, h]
  rfl

theorem errorAt_same (c : Compiler) (t : Token) (d : Diagnosis) :
    (c.errorAt t d).current = c.current ∧ (c.errorAt t d).rest = c.rest ∧
      (c.errorAt t d).previous = c.previous := by
  unfold Compiler.errorAt
  split <;> exact ⟨rfl, rfl, rfl⟩

instance (d : Diagnosis) : Still (error d) :=
  ⟨fun c => (Orderly.precedes (x := error d) c).errors, fun _ h => calm_errorAt _ d h,
    fun c => errorAt_same c c.previous d⟩

instance (d : Diagnosis) : Still (errorAtCurrent d) :=
  ⟨fun c => (Orderly.precedes (x := errorAtCurrent d) c).errors, fun _ h => calm_errorAt _ d h,
    fun c => errorAt_same c c.current d⟩

instance : Still lexeme := inferInstanceAs (Still (_ >>= _))

instance (s : String) : Still (intern s) :=
  still_of_same (fun _ => ⟨rfl, rfl, rfl⟩) fun _ => ⟨rfl, rfl⟩

instance (o : Object) : Still (alloc o) :=
  still_of_same (fun _ => ⟨rfl, rfl, rfl⟩) fun _ => ⟨rfl, rfl⟩

instance (f : Draft → Draft) : Still (modifyDraft f) :=
  still_of_same (fun _ => ⟨rfl, rfl, rfl⟩) fun _ => ⟨rfl, rfl⟩

instance (f : Chunk → Chunk) : Still (modifyChunk f) := inferInstanceAs (Still (modifyDraft _))

instance (classes : Compiler → List ClassScope) :
    Still (modify fun c => { c with classes := classes c } : Compile Unit) :=
  still_of_same (fun _ => ⟨rfl, rfl, rfl⟩) fun _ => ⟨rfl, rfl⟩

instance (draft : Compiler → Draft) (enclosing : Compiler → List Draft) :
    Still (modify fun c => { c with draft := draft c, enclosing := enclosing c } : Compile Unit) :=
  still_of_same (fun _ => ⟨rfl, rfl, rfl⟩) fun _ => ⟨rfl, rfl⟩

instance : Still codeSize := inferInstanceAs (Still (_ >>= _))

instance (byte : UInt8) : Still (emitByte byte) := inferInstanceAs (Still (_ >>= _))

instance (op : Opcode) : Still (emit op) := inferInstanceAs (Still (emitByte _))

instance (op : Opcode) (byte : UInt8) : Still (emitWith op byte) :=
  inferInstanceAs (Still (_ >>= _))

instance (op : Opcode) : Still (emitJump op) := inferInstanceAs (Still (_ >>= _))

instance (offset : Nat) : Still (patchJump offset) := by
  unfold patchJump
  dsimp only
  infer_instance

instance (start : Nat) : Still (emitLoop start) := by
  unfold emitLoop
  dsimp only
  infer_instance

instance (v : Value) : Still (makeConstant v) := by
  unfold makeConstant
  dsimp only
  infer_instance

instance (v : Value) : Still (emitConstant v) := inferInstanceAs (Still (_ >>= _))

instance (name : String) : Still (nameConstant name) := inferInstanceAs (Still (_ >>= _))

instance : Still emitReturn := by
  unfold emitReturn
  infer_instance

instance (kind : FunctionKind) : Still (beginFunction kind) := inferInstanceAs (Still (_ >>= _))

instance (d : Draft) : Still (reportListing d) := by
  have hsame : ∀ c, ∃ heap, (reportListing d c).2 = { c with heap } := fun c => by
    obtain ⟨heap, h, -⟩ := reportListing_eq d c
    exact ⟨heap, h⟩
  refine still_of_same (fun c => ?_) fun c => ?_
  · obtain ⟨heap, h⟩ := hsame c
    rw [h]
    exact ⟨rfl, rfl, rfl⟩
  · obtain ⟨heap, h⟩ := hsame c
    rw [h]
    exact ⟨rfl, rfl⟩

instance : Still endFunction := by
  have hleave : Still (modify fun c => match c.enclosing with
      | [] => { c with draft := .start .script none }
      | d :: enclosing => { c with draft := d, enclosing } : Compile Unit) := by
    refine still_of_same (fun c => ?_) fun c => ?_
    · rcases h : c.enclosing with _ | ⟨d, enclosing⟩ <;>
        simp [modify, modifyGet, MonadStateOf.modifyGet, StateT.modifyGet, pure, h]
    · rcases h : c.enclosing with _ | ⟨d, enclosing⟩ <;>
        simp [modify, modifyGet, MonadStateOf.modifyGet, StateT.modifyGet, pure, h]
  unfold endFunction
  infer_instance

/-! ## Variables -/

instance : Still beginScope := inferInstanceAs (Still (modifyDraft _))

instance : Still endScope := by
  unfold endScope
  dsimp only
  infer_instance

instance (name : String) : Still (addLocal name) := by
  unfold addLocal
  infer_instance

instance : Still declareVariable := by
  unfold declareVariable
  dsimp only
  infer_instance

instance : Still markInitialized := inferInstanceAs (Still (modifyDraft _))

instance (global : UInt8) : Still (defineVariable global) := by
  unfold defineVariable
  infer_instance

instance (name : String) : Still (access name) := by
  unfold access
  refine Still.bind inferInstance fun c => ?_
  split
  · infer_instance
  · split <;> infer_instance

instance (name : String) : Still (readVariable name) := inferInstanceAs (Still (_ >>= _))

end Compile

end LoxMachine

import LoxMachine.Proofs.Code.Functions
import LoxMachine.Proofs.Compile.Orderly

/-!
# States without errors

* `Draft.Sound` is what holds of every function under construction: its name and constants are
  live, and a byte names its variables.
* `Linked` ties the captured variables of a draft to the draft around it.
* `Compiler.Sound` is the invariant of a compilation that has met no error, and `Compiler.Later`
  how the drafts can change: what an instruction refers to stays, and the drafts of the enclosing
  functions change only by having more variables captured.
* `Compile.Does x c Q`: from a sound state `c` the action `x` comes, unless there are errors, to a
  later sound state with `Q`.
* `Compiler.Laid` is what the code of the innermost draft looks like, and `Compiler.Moves` how an
  action changes that.
-/

namespace LoxMachine

/-! ## Drafts -/

/-- A variable that has not changed, except that it may have been captured. -/
structure Local.Grows (l l' : Local) : Prop where
  name : l'.name = l.name
  depth : l'.depth = l.depth
  captured : l.captured = true → l'.captured = true

theorem Local.Grows.refl (l : Local) : l.Grows l := ⟨rfl, rfl, id⟩

theorem Local.Grows.trans {l₁ l₂ l₃ : Local} (h : l₁.Grows l₂) (h' : l₂.Grows l₃) : l₁.Grows l₃ :=
  ⟨h'.name.trans h.name, h'.depth.trans h.depth, h'.captured ∘ h.captured⟩

/-- Variables that have not changed, except that they may have been captured. -/
def LocalsGrow (ls ls' : List Local) : Prop := List.Forall₂ Local.Grows ls ls'

theorem LocalsGrow.refl (ls : List Local) : LocalsGrow ls ls :=
  List.forall₂_same.2 fun l _ => .refl l

theorem LocalsGrow.trans {ls₁ ls₂ ls₃ : List Local} (h : LocalsGrow ls₁ ls₂)
    (h' : LocalsGrow ls₂ ls₃) : LocalsGrow ls₁ ls₃ := by
  induction h generalizing ls₃ with
  | nil => exact h'
  | cons hl _ ih =>
    cases h' with
    | cons hl' h' => exact .cons (hl.trans hl') (ih h')

namespace Draft

/-- What the instructions of a draft can refer to. -/
def pool (heap : Heap) (d : Draft) : Pool := d.function.pool heap

/-- What holds of a function under construction. -/
structure Sound (heap : Heap) (d : Draft) : Prop where
  name : ∀ n, d.name = some n → heap.IsString n
  constants : ∀ x, .obj x ∈ d.chunk.constants → ¬heap.IsString x → heap.Compiled x
  locals_length : d.locals.length ≤ byteCount
  captures_size : d.captures.size ≤ byteCount
  counted : d.upvalueCount = d.captures.size

/-- The draft of an enclosing function while an inner one is compiled. -/
structure Waits (heap heap' : Heap) (d d' : Draft) : Prop where
  pool : (d.pool heap).Le (d'.pool heap')
  code : d'.chunk.written = d.chunk.written
  arity : d'.arity = d.arity
  depth : d'.depth = d.depth
  locals : LocalsGrow d.locals d'.locals

theorem Waits.trans {heap₁ heap₂ heap₃ : Heap} {d₁ d₂ d₃ : Draft} (h : d₁.Waits heap₁ heap₂ d₂)
    (h' : d₂.Waits heap₂ heap₃ d₃) : d₁.Waits heap₁ heap₃ d₃ :=
  ⟨h.pool.trans h'.pool, h'.code.trans h.code, h'.arity.trans h.arity, h'.depth.trans h.depth,
    h.locals.trans h'.locals⟩

variable {heap heap' : Heap} {d : Draft} {x : Handle}

theorem sound_start (kind : FunctionKind) {name : Option Handle}
    (hname : ∀ n, name = some n → heap.IsString n) : (Draft.start kind name).Sound heap :=
  ⟨hname, fun _ hx => absurd hx (Array.not_mem_empty _), by simp [start, byteCount],
    by simp [start, byteCount], rfl⟩

theorem Sound.contains_constant (hd : d.Sound heap) (hx : .obj x ∈ d.chunk.constants) :
    heap.contains x = true := by
  by_cases hs : heap.IsString x
  · exact hs.contains
  · exact (hd.constants x hx hs).contains

theorem Sound.reachable_constant (hd : d.Sound heap) (hx : .obj x ∈ d.chunk.constants) :
    heap.Reachable d.handles x := by
  refine .root ?_ (hd.contains_constant hx)
  exact List.mem_append_right _ (List.mem_filterMap.2 ⟨.obj x, Array.mem_toList_iff.2 hx, rfl⟩)

/-- A draft stays sound as long as what it refers to is kept. -/
theorem Sound.keep (hd : d.Sound heap) (hk : heap.Keeps d.handles heap') : d.Sound heap' := by
  refine ⟨fun n hn => ?_, fun x hx hs => ?_, hd.locals_length, hd.captures_size, hd.counted⟩
  · refine (hd.name n hn).congr (hk n (.root ?_ (hd.name n hn).contains))
    exact List.mem_append_left _ (by simp [hn])
  · have hreach := hd.reachable_constant hx
    have hs' : ¬heap.IsString x := fun hs' => hs (hs'.congr (hk x hreach))
    refine (hd.constants x hx hs').keep fun y hy => hk y ?_
    induction hy with
    | root hm hc =>
      rw [List.mem_singleton.1 hm]
      exact hreach
    | reference _ hcell hm hc ih => exact .reference ih hcell hm hc

theorem Sound.pool_keep (hd : d.Sound heap) (hk : heap.Keeps d.handles heap') :
    d.pool heap' = d.pool heap :=
  Heap.pool_congr fun x hx => hk x (hd.reachable_constant hx)

/-- A draft waits while the heap changes around it. -/
theorem Sound.waits (hd : d.Sound heap) (hk : heap.Keeps d.handles heap') :
    d.Waits heap heap' d :=
  ⟨by rw [hd.pool_keep hk]; exact .refl _, rfl, rfl, rfl, .refl _⟩

end Draft

/-- A captured variable is one of the draft around it: a local variable, marked as captured, or one
that this draft captures itself. -/
structure Capture.Tied (e : Draft) (c : Capture) : Prop where
  marked : c.isLocal = true →
    ∃ l, e.locals.reverse[c.index.toNat]? = some l ∧ l.captured = true
  index_lt : c.isLocal = false → c.index.toNat < e.upvalueCount

theorem LocalsGrow.captured {ls ls' : List Local} {slot : Nat} {l : Local} (h : LocalsGrow ls ls')
    (hget : ls.reverse[slot]? = some l) (hl : l.captured = true) :
    ∃ l', ls'.reverse[slot]? = some l' ∧ l'.captured = true := by
  have hr : List.Forall₂ Local.Grows ls.reverse ls'.reverse := List.forall₂_reverse_iff.2 h
  obtain ⟨hlt, rfl⟩ := List.getElem?_eq_some_iff.1 hget
  have hlt' : slot < ls'.reverse.length := by rw [← List.Forall₂.length_eq hr]; exact hlt
  exact ⟨_, List.getElem?_eq_getElem hlt',
    ((List.forall₂_iff_get.1 hr).2 slot hlt hlt').captured hl⟩

theorem Capture.Tied.mono {e e' : Draft} {c : Capture} (h : c.Tied e)
    (hlocals : LocalsGrow e.locals e'.locals) (hcount : e.upvalueCount ≤ e'.upvalueCount) :
    c.Tied e' := by
  refine ⟨fun hl => ?_, fun hl => (h.index_lt hl).trans_le hcount⟩
  obtain ⟨l, hget, hcaptured⟩ := h.marked hl
  exact hlocals.captured hget hcaptured

/-- The captured variables of every draft are those of the draft around it. -/
def Linked : Draft → List Draft → Prop
  | d, [] => d.captures = #[]
  | d, e :: outer => (∀ c ∈ d.captures, c.Tied e) ∧ Linked e outer

/-- Only the captured variables of the innermost draft are tied to the draft around it. -/
theorem Linked.congr {d d' : Draft} {outer : List Draft} (h : Linked d outer)
    (hcaptures : d'.captures = d.captures) : Linked d' outer := by
  cases outer with
  | nil => exact hcaptures.trans h
  | cons e outer =>
    refine ⟨?_, h.2⟩
    rw [hcaptures]
    exact h.1

/-! ## States -/

namespace Compiler

/-- How many tokens are left to be read. -/
def left (c : Compiler) : Nat := if c.current.kind = .eof then 0 else c.rest.length

/-- The tokens to come end with `eof`, and nothing but `eof` follows it. -/
structure Ended (rest : List Token) (current : Token) : Prop where
  mem : ∃ t ∈ rest, t.kind = .eof
  stays : current.kind = .eof → ∃ t ts, rest = t :: ts ∧ t.kind = .eof

/-- The invariant of a compilation that has met no error. -/
structure Sound (c : Compiler) : Prop where
  calm : c.panicking = false
  ended : Ended c.rest c.current
  tidy : c.heap.Tidy
  drafts : ∀ d ∈ c.draft :: c.enclosing, d.Sound c.heap
  linked : Linked c.draft c.enclosing

/-- What the instructions of the innermost draft can refer to. -/
def pool (c : Compiler) : Pool := c.draft.pool c.heap

/-- How a compilation without errors goes on inside of one function. -/
structure Later (c c' : Compiler) : Prop where
  pool : c.pool.Le c'.pool
  enclosing : List.Forall₂ (Draft.Waits c.heap c'.heap) c.enclosing c'.enclosing
  left : c'.left ≤ c.left

variable {c c' c'' : Compiler}

theorem Sound.draft (hc : c.Sound) : c.draft.Sound c.heap := hc.drafts _ List.mem_cons_self

theorem forall₂_waits_trans {heap₁ heap₂ heap₃ : Heap} {ds₁ ds₂ ds₃ : List Draft}
    (h : List.Forall₂ (Draft.Waits heap₁ heap₂) ds₁ ds₂)
    (h' : List.Forall₂ (Draft.Waits heap₂ heap₃) ds₂ ds₃) :
    List.Forall₂ (Draft.Waits heap₁ heap₃) ds₁ ds₃ := by
  induction h generalizing ds₃ with
  | nil =>
    cases h'
    exact .nil
  | cons hd _ ih =>
    cases h' with
    | cons hd' h' => exact .cons (hd.trans hd') (ih h')

theorem Later.trans (h : c.Later c') (h' : c'.Later c'') : c.Later c'' :=
  ⟨h.pool.trans h'.pool, forall₂_waits_trans h.enclosing h'.enclosing, h'.left.trans h.left⟩

/-- A draft waits while nothing happens. -/
theorem forall₂_waits_refl {heap : Heap} {ds : List Draft} :
    List.Forall₂ (Draft.Waits heap heap) ds ds :=
  List.forall₂_same.2 fun _ _ => ⟨.refl _, rfl, rfl, rfl, .refl _⟩

theorem Later.refl (c : Compiler) : c.Later c := ⟨.refl _, forall₂_waits_refl, le_rfl⟩

/-! ## Code -/

/-- How many bytes of code the innermost draft has. -/
def size (c : Compiler) : Nat := c.draft.chunk.code.size

/-- The code of the innermost draft is laid out, and goes on with the given shape. -/
def Laid (c : Compiler) (sketch : Sketch) (exit : Option Shape) : Prop :=
  WellLaid c.pool c.draft.chunk.written sketch exit

/-- Code that goes on with the first shape goes on with the second one now. -/
def Moves (c c' : Compiler) (exit exit' : Option Shape) : Prop :=
  ∀ sketch, c.Laid sketch exit → c'.Laid sketch exit'

theorem Moves.trans {e₁ e₂ e₃ : Option Shape} (h : c.Moves c' e₁ e₂) (h' : c'.Moves c'' e₂ e₃) :
    c.Moves c'' e₁ e₃ :=
  fun sketch hl => h' sketch (h sketch hl)

theorem Moves.weaken {e e' : Option Shape} {s : Shape} (h : c.Moves c' e e')
    (hle : ∀ s', e' = some s' → s'.Le s) : c.Moves c' e (some s) :=
  fun sketch hl => (h sketch hl).weaken hle

/-- Nothing is written. -/
theorem Later.moves (hl : c.Later c') (hcode : c'.draft.chunk.written = c.draft.chunk.written)
    (e : Option Shape) : c.Moves c' e e := by
  intro sketch hlaid
  unfold Laid
  rw [hcode]
  exact hlaid.pool_mono hl.pool

/-- The same variables are in scope. -/
structure Within (c c' : Compiler) : Prop where
  locals : c'.draft.locals = c.draft.locals
  arity : c'.draft.arity = c.draft.arity
  depth : c'.draft.depth = c.draft.depth
  classes : c'.classes = c.classes

theorem Within.refl (c : Compiler) : c.Within c := ⟨rfl, rfl, rfl, rfl⟩

theorem Within.trans (h : c.Within c') (h' : c'.Within c'') : c.Within c'' :=
  ⟨h'.locals.trans h.locals, h'.arity.trans h.arity, h'.depth.trans h.depth,
    h'.classes.trans h.classes⟩

/-- Nothing is written, and the same variables are in scope. -/
structure Stays (c c' : Compiler) : Prop extends Within c c' where
  code : c'.draft.chunk.written = c.draft.chunk.written

theorem Stays.refl (c : Compiler) : c.Stays c := ⟨.refl c, rfl⟩

theorem Stays.trans (h : c.Stays c') (h' : c'.Stays c'') : c.Stays c'' :=
  ⟨h.toWithin.trans h'.toWithin, h'.code.trans h.code⟩

theorem Stays.moves (h : c.Stays c') (hl : c.Later c') (e : Option Shape) : c.Moves c' e e :=
  hl.moves h.code e

end Compiler

/-! ## Actions -/

namespace Compile

variable {α β : Type} {x : Compile α} {c : Compiler} {Q Q' : α → Compiler → Prop}

/-- From a sound state the action comes, unless there are errors, to a later sound state with
`Q`. -/
def Does (x : Compile α) (c : Compiler) (Q : α → Compiler → Prop) : Prop :=
  c.Sound → Ends x c fun a c' => c'.Sound ∧ c.Later c' ∧ Q a c'

namespace Does

theorem mono (h : Does x c Q) (hQ : ∀ a c', c'.Sound → c.Later c' → Q a c' → Q' a c') :
    Does x c Q' :=
  fun hc => (h hc).mono fun a c' ⟨hs, hl, hq⟩ => ⟨hs, hl, hQ a c' hs hl hq⟩

theorem bind {f : α → Compile β} {R : β → Compiler → Prop} [∀ a, Orderly (f a)] (h : Does x c Q)
    (hf : ∀ a c', c'.Sound → c.Later c' → Q a c' → Does (f a) c' R) : Does (x >>= f) c R := by
  intro hc
  refine (h hc).bind fun a c₁ ⟨hs, hl, hq⟩ => ?_
  exact (hf a c₁ hs hl hq hs).mono fun b c₂ ⟨hs', hl', hr⟩ => ⟨hs', hl.trans hl', hr⟩

theorem pure {a : α} (h : Q a c) : Does (pure a) c Q := fun hc _ => ⟨hc, .refl c, h⟩

/-- Reading the state. -/
theorem get {f : Compiler → Compile β} {R : β → Compiler → Prop} (h : Does (f c) c R) :
    Does (MonadState.get >>= f) c R := h

/-- An error does not end without errors. -/
theorem error {d : Diagnosis} {Q : Unit → Compiler → Prop} : Does (error d) c Q := by
  intro hc herr
  change (c.errorAt c.previous d).errors = #[] at herr
  simp [Compiler.errorAt, hc.calm] at herr

theorem errorAtCurrent {d : Diagnosis} {Q : Unit → Compiler → Prop} :
    Does (errorAtCurrent d) c Q := by
  intro hc herr
  change (c.errorAt c.current d).errors = #[] at herr
  simp [Compiler.errorAt, hc.calm] at herr

/-- Nothing has to be shown of what follows an error. -/
theorem error_bind {d : Diagnosis} {f : Unit → Compile β} {R : β → Compiler → Prop}
    [∀ a, Orderly (f a)] : Does (Compile.error d >>= f) c R :=
  Does.bind (Q := fun _ _ => False) error fun _ _ _ _ hf => hf.elim

theorem ite {p : Prop} [Decidable p] {y : Compile α} (hx : p → Does x c Q) (hy : ¬p → Does y c Q) :
    Does (if p then x else y) c Q := by
  by_cases hp : p
  · rw [if_pos hp]
    exact hx hp
  · rw [if_neg hp]
    exact hy hp

/-- A loop keeps an invariant that its body keeps. The condition may read tokens. -/
theorem loop {condition : Compile Bool} {body : Compile Unit} [Orderly condition] [Orderly body]
    {I J : Compiler → Prop}
    (hcondition : ∀ c, I c → Does condition c fun b c' => if b then J c' else I c')
    (hbody : ∀ c, J c → Does body c fun _ c' => I c') (n : Nat) (hI : I c) :
    Does (Compile.loop condition body n) c fun _ c' => I c' := by
  induction n generalizing c with
  | zero => exact .pure hI
  | succ n ih =>
    unfold Compile.loop
    refine (hcondition c hI).bind fun b c₁ _ _ h₁ => ?_
    cases b with
    | false => exact .pure h₁
    | true => exact (hbody c₁ h₁).bind fun _ c₂ _ _ h₂ => ih h₂

end Does

end Compile

end LoxMachine

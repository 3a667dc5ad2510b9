import LoxMachine.Proofs.Compile.Declarations
import LoxMachine.Proofs.Heap.Healthy
import LoxMachine.Proofs.Twin.Heaps

/-!
# Compilations that differ in their handles

* `Compiler.Twin`: the same state of a compilation, except for handles. Both heaps are healthy, and
  keep what the callers need: `Origin` is what the compilations started from.
* `Compile.Blind x`: the action `x` does the same in twin states, with the same result. Its instances
  go through the actions of the compiler. An action may read the state, if what it reads is the same
  in twin states: `Blind.reads`.
* Only interning a string and making a function give handles, and these go into drafts at once:
  `makeConstant_agree`, `beginFunction` and `blind_closing`.
-/

namespace LoxMachine

variable {R S : Pairing} {heap heap' new new' : Heap} {x y : Handle} {v w : Value}

/-! ## Drafts -/

/-- The same draft, except for handles. Its name is a string. -/
structure Draft.Twin (R : Pairing) (heap : Heap) (d d' : Draft) : Prop where
  kind : d.kind = d'.kind
  name : Option.Rel (fun x y => R x y ∧ heap.IsString x) d.name d'.name
  arity : d.arity = d'.arity
  chunk : d.chunk.Twin R d'.chunk
  locals : d.locals = d'.locals
  captures : d.captures = d'.captures
  upvalueCount : d.upvalueCount = d'.upvalueCount
  depth : d.depth = d'.depth

namespace Draft

variable {d d' e e' : Draft}

theorem mem_handles : x ∈ d.handles ↔ d.name = some x ∨ .obj x ∈ d.chunk.constants := by
  unfold handles
  rw [List.mem_append, Option.mem_toList, List.mem_filterMap]
  refine or_congr Iff.rfl ⟨?_, fun hx => ⟨_, Array.mem_toList_iff.2 hx, rfl⟩⟩
  rintro ⟨v, hv, hx⟩
  cases v <;> cases hx
  exact Array.mem_toList_iff.1 hv

namespace Twin

theorem function (h : d.Twin R heap d') : d.function.Twin R d'.function where
  name := optionRel_mono h.name fun _ _ _ _ hxy => hxy.1
  arity := h.arity
  upvalueCount := h.upvalueCount
  chunk := h.chunk

theorem mono (h : d.Twin R heap d') (hRS : ∀ x ∈ d.handles, ∀ y ∈ d'.handles, R x y → S x y)
    (hcells : ∀ x ∈ d.handles, heap.IsString x → new.IsString x) : d.Twin S new d' := by
  refine ⟨h.kind, optionRel_mono h.name fun x hx y hy hxy => ?_, h.arity,
    h.chunk.mono fun x y hx hy hxy => ?_, h.locals, h.captures, h.upvalueCount, h.depth⟩
  · have hmem := mem_handles.2 (Or.inl hx)
    exact ⟨hRS x hmem y (mem_handles.2 (Or.inl hy)) hxy.1, hcells x hmem hxy.2⟩
  · exact hRS x (mem_handles.2 (Or.inr hx)) y (mem_handles.2 (Or.inr hy)) hxy

/-- The handles of a draft name objects. -/
theorem contains (h : d.Twin R heap d') (hh : heap.Twin R heap') (hx : x ∈ d.handles) :
    heap.contains x = true := by
  rcases mem_handles.1 hx with hname | hconst
  · have hrel := h.name
    rw [hname] at hrel
    generalize d'.name = name at hrel
    cases hrel with
    | some hxy => exact hh.contains hxy.1
  · obtain ⟨w, -, hw⟩ := h.chunk.constants.exists_of_mem hconst
    cases hw with
    | obj hxy => exact hh.contains hxy

theorem contains' (h : d.Twin R heap d') (hh : heap.Twin R heap') (hy : y ∈ d'.handles) :
    heap'.contains y = true := by
  rcases mem_handles.1 hy with hname | hconst
  · have hrel := h.name
    rw [hname] at hrel
    generalize d.name = name at hrel
    cases hrel with
    | some hxy => exact hh.contains' hxy.1
  · obtain ⟨w, -, hw⟩ := h.chunk.constants.flip.exists_of_mem hconst
    cases hw with
    | obj hxy => exact hh.contains' hxy

theorem fit (h : d.Twin R heap d') : heap.Fit (.function d.function) := by
  intro n hn
  have hrel := h.name
  rw [show d.name = some n from hn] at hrel
  generalize d'.name = name at hrel
  cases hrel with
  | some hxy => exact hxy.2

theorem fit' (h : d.Twin R heap d') (hh : heap.Twin R heap') :
    heap'.Fit (.function d'.function) := by
  intro n hn
  have hrel := h.name
  rw [show d'.name = some n from hn] at hrel
  generalize d.name = name at hrel
  cases hrel with
  | some hxy => exact hh.isString hxy.1 hxy.2

end Twin

end Draft

/-! ## States -/

/-- What two compilations started from. -/
structure Origin where
  pairing : Pairing
  heap : Heap
  heap' : Heap
  roots : Thunk (List Handle)
  roots' : Thunk (List Handle)

/-- The same state, except for handles. What the callers need has been kept. -/
structure Compiler.Twin (o : Origin) (R : Pairing) (c c' : Compiler) : Prop where
  rest : c.rest = c'.rest
  current : c.current = c'.current
  previous : c.previous = c'.previous
  panicking : c.panicking = c'.panicking
  errors : c.errors = c'.errors
  classes : c.classes = c'.classes
  roots : c.roots = o.roots
  roots' : c'.roots = o.roots'
  carries : Heap.Carries o.pairing R o.roots.get o.roots'.get o.heap o.heap' c.heap c'.heap
  healthy : c.heap.Healthy
  healthy' : c'.heap.Healthy
  draft : c.draft.Twin R c.heap c'.draft
  enclosing : List.Forall₂ (Draft.Twin R c.heap) c.enclosing c'.enclosing

namespace Compiler

variable {o : Origin} {c c' : Compiler} {roots roots' : List Handle}

theorem mem_handles {roots : Thunk (List Handle)} {d : Draft} {enclosing : List Draft} :
    x ∈ handles roots d enclosing ↔ x ∈ roots.get ∨ ∃ e ∈ d :: enclosing, x ∈ e.handles := by
  simp only [handles, List.mem_append, List.mem_flatMap, List.mem_reverse]

namespace Twin

/-- **The heaps have changed together**, and have kept what the compilers refer to. -/
theorem carry (h : c.Twin o R c') (hc : Heap.Carries R S roots roots' c.heap c'.heap new new')
    (hr : ∀ r ∈ handles c.roots c.draft c.enclosing, r ∈ roots)
    (hr' : ∀ r ∈ handles c'.roots c'.draft c'.enclosing, r ∈ roots') (hn : new.Healthy)
    (hn' : new'.Healthy) : { c with heap := new }.Twin o S { c' with heap := new' } := by
  have hroot : ∀ {e e' : Draft} {x : Handle}, e ∈ c.draft :: c.enclosing → e.Twin R c.heap e' →
      x ∈ e.handles → c.heap.Reachable roots x := fun he htwin hx =>
    .root (hr _ (mem_handles.2 (Or.inr ⟨_, he, hx⟩))) (htwin.contains h.carries.twin hx)
  have hroot' : ∀ {e e' : Draft} {y : Handle}, e' ∈ c'.draft :: c'.enclosing → e.Twin R c.heap e' →
      y ∈ e'.handles → c'.heap.Reachable roots' y := fun he htwin hy =>
    .root (hr' _ (mem_handles.2 (Or.inr ⟨_, he, hy⟩))) (htwin.contains' h.carries.twin hy)
  have hdraft : ∀ {e e' : Draft}, e ∈ c.draft :: c.enclosing → e' ∈ c'.draft :: c'.enclosing →
      e.Twin R c.heap e' → e.Twin S new e' := fun he he' htwin =>
    htwin.mono (fun x hx y hy hxy => hc.pairs hxy (hroot he htwin hx) (hroot' he' htwin hy))
      fun x hx hs => hs.congr (hc.kept x (hroot he htwin hx))
  refine ⟨h.rest, h.current, h.previous, h.panicking, h.errors, h.classes, h.roots, h.roots',
    h.carries.trans hc (fun r hmem => hr r ?_) (fun r hmem => hr' r ?_), hn, hn', ?_, ?_⟩
  · exact mem_handles.2 (Or.inl (h.roots ▸ hmem))
  · exact mem_handles.2 (Or.inl (h.roots' ▸ hmem))
  · exact hdraft List.mem_cons_self List.mem_cons_self h.draft
  · exact forall₂_mono h.enclosing fun e he e' he' htwin =>
      hdraft (List.mem_cons_of_mem _ he) (List.mem_cons_of_mem _ he') htwin

theorem errorAt (h : c.Twin o R c') (t : Token) (d : Diagnosis) :
    (c.errorAt t d).Twin o R (c'.errorAt t d) := by
  unfold Compiler.errorAt
  rw [h.panicking]
  split
  · exact h
  · exact { h with panicking := rfl, errors := congrArg (Array.push · _) h.errors }

theorem pull {ts ts' : List Token} (h : c.Twin o R c') (hts : ts = ts') :
    (c.pull ts).Twin o R (c'.pull ts') := by
  subst hts
  induction ts generalizing c c' with
  | nil => exact { h with rest := rfl }
  | cons t ts ih =>
    unfold Compiler.pull
    split
    · exact ih (h.errorAt t _)
    · exact { h with current := rfl, rest := rfl }
    · exact { h with current := rfl, rest := rfl }

end Twin

end Compiler

namespace Compile

variable {α β : Type} {o : Origin} {c c' : Compiler}

/-! ## Actions -/

/-- The results are the same, and the states twin. -/
def Agree (o : Origin) (x y : Compile α) (c c' : Compiler) : Prop :=
  (x c).1 = (y c').1 ∧ ∃ R, (x c).2.Twin o R (y c').2

/-- The action does the same in twin states. -/
class Blind (x : Compile α) : Prop where
  agree : ∀ {o : Origin} {R : Pairing} {c c' : Compiler}, c.Twin o R c' → Agree o x x c c'

/-- One action after another, when their results are not the same. -/
theorem Agree.step {x y : Compile α} {f g : α → Compile β}
    (h : Agree o (f (x c).1) (g (y c').1) (x c).2 (y c').2) :
    Agree o (x >>= f) (y >>= g) c c' := h

theorem Agree.bind {x y : Compile α} {f : α → Compile β} (h : Agree o x y c c')
    (hf : ∀ a, Blind (f a)) : Agree o (x >>= f) (y >>= f) c c' := by
  obtain ⟨hresult, R, htwin⟩ := h
  refine .step ?_
  rw [← hresult]
  exact (hf (x c).1).agree htwin

instance (a : α) : Blind (pure a : Compile α) := ⟨fun {_ R _ _} h => ⟨rfl, R, h⟩⟩

theorem Blind.bind {x : Compile α} {f : α → Compile β} (hx : Blind x) (hf : ∀ a, Blind (f a)) :
    Blind (x >>= f) := ⟨fun h => (hx.agree h).bind hf⟩

instance (x : Compile α) (f : α → Compile β) [hx : Blind x] [hf : ∀ a, Blind (f a)] :
    Blind (x >>= f) := hx.bind hf

theorem Agree.get {f g : Compiler → Compile α} (h : Agree o (f c) (g c') c c') :
    Agree o (MonadState.get >>= f) (MonadState.get >>= g) c c' := h

/-- Reading the state, if what depends on it is the same in twin states. -/
theorem Blind.reads {f : Compiler → Compile α} (hf : ∀ c, Blind (f c))
    (heq : ∀ {o : Origin} {R : Pairing} {c c' : Compiler}, c.Twin o R c' → f c = f c') :
    Blind (get >>= f) := by
  refine ⟨fun {o R c c'} h => .get ?_⟩
  rw [← heq h]
  exact (hf c).agree h

instance (p : Prop) [Decidable p] (x y : Compile α) [Blind x] [Blind y] :
    Blind (if p then x else y) := by
  split <;> infer_instance

theorem blind_modify {f : Compiler → Compiler}
    (hf : ∀ {o : Origin} {R : Pairing} {c c' : Compiler}, c.Twin o R c' → (f c).Twin o R (f c')) :
    Blind (modify f : Compile Unit) := ⟨fun {_ R _ _} h => ⟨rfl, R, hf h⟩⟩

instance (l : List α) (f : α → Compile Unit) [∀ a, Blind (f a)] : Blind (l.forM f) := by
  induction l with
  | nil => exact inferInstanceAs (Blind (pure ()))
  | cons a l ih => exact inferInstanceAs (Blind (f a >>= fun _ => l.forM f))

instance (l : Array α) (f : α → Compile Unit) [∀ a, Blind (f a)] : Blind (l.forM f) := by
  have hlist : Array.forM f l = l.toList.forM f := List.forM_toArray' l.toList f rfl
  rw [hlist]
  infer_instance

instance (condition : Compile Bool) (body : Compile Unit) (n : Nat) [Blind condition]
    [Blind body] : Blind (loop condition body n) := by
  induction n with
  | zero => exact inferInstanceAs (Blind (pure ()))
  | succ n ih =>
    unfold loop
    infer_instance

/-! ## Tokens -/

instance (d : Diagnosis) : Blind (error d) := blind_modify fun h => by
  rw [h.previous]
  exact h.errorAt _ d

instance (d : Diagnosis) : Blind (errorAtCurrent d) := blind_modify fun h => by
  rw [h.current]
  exact h.errorAt _ d

instance : Blind advance := blind_modify fun {o R c c'} h => by
  have hprevious : { c with previous := c.current }.Twin o R { c' with previous := c'.current } :=
    { h with previous := h.current }
  exact hprevious.pull h.rest

instance (kind : TokenKind) : Blind (check kind) :=
  .reads (fun _ => inferInstance) fun h => by rw [h.current]

instance (kind : TokenKind) : Blind (accept kind) := inferInstanceAs (Blind (_ >>= _))

instance (kind : TokenKind) (e : Expectation) : Blind (consume kind e) :=
  inferInstanceAs (Blind (_ >>= _))

instance : Blind lexeme := .reads (fun _ => inferInstance) fun h => by rw [h.previous]

instance (fuel : Nat) : Blind (synchronize fuel) := by
  have hcalm : Blind (modify fun c => { c with panicking := false } : Compile Unit) :=
    blind_modify fun h => { h with panicking := rfl }
  have hinside : Blind (do
      let c ← get
      return c.current.kind != .eof && c.previous.kind != .semicolon
        && !startsStatement c.current.kind : Compile Bool) :=
    .reads (fun _ => inferInstance) fun h => by rw [h.current, h.previous]
  unfold synchronize
  infer_instance

/-! ## Code -/

theorem blind_modifyDraft {f : Draft → Draft}
    (hf : ∀ {R : Pairing} {heap : Heap} {d d' : Draft}, d.Twin R heap d' → (f d).Twin R heap (f d')) :
    Blind (modifyDraft f) := blind_modify fun h => { h with draft := hf h.draft }

theorem blind_modifyChunk {f : Chunk → Chunk}
    (hf : ∀ {R : Pairing} {k k' : Chunk}, k.Twin R k' → (f k).Twin R (f k')) :
    Blind (modifyChunk f) := blind_modifyDraft fun h => { h with chunk := hf h.chunk }

instance : Blind codeSize :=
  .reads (fun _ => inferInstance) fun h => by simp only [Chunk.size, h.draft.chunk.code]

instance (byte : UInt8) : Blind (emitByte byte) := by
  refine .reads (fun c => ?_) fun h => by rw [h.previous]
  exact blind_modifyChunk fun h =>
    ⟨congrArg (Array.push · _) h.code, congrArg (Array.push · _) h.lines, h.constants⟩

instance (op : Opcode) : Blind (emit op) := inferInstanceAs (Blind (emitByte _))

instance (op : Opcode) (byte : UInt8) : Blind (emitWith op byte) := inferInstanceAs (Blind (_ >>= _))

instance (op : Opcode) : Blind (emitJump op) := inferInstanceAs (Blind (_ >>= _))

instance (offset : Nat) : Blind (patchJump offset) := by
  have hpatch : ∀ distance, Blind (modifyChunk (·.patch offset distance)) := fun distance =>
    blind_modifyChunk fun h => ⟨by simp only [Chunk.patch, h.code], h.lines, h.constants⟩
  unfold patchJump
  dsimp only
  infer_instance

instance (start : Nat) : Blind (emitLoop start) := by
  unfold emitLoop
  dsimp only
  infer_instance

instance : Blind emitReturn := by
  unfold emitReturn
  exact .reads (fun _ => inferInstance) fun h => by rw [h.draft.kind]

/-! ## Handles -/

/-- **Both compilers look for a string.** -/
theorem intern_twin (h : c.Twin o R c') (s : String) :
    ∃ S, S (intern s c).1 (intern s c').1 ∧ (intern s c).2.heap.IsString (intern s c).1 ∧
      (intern s c).2.Twin o S (intern s c').2 := by
  obtain ⟨S, hxy, hc⟩ := h.carries.twin.intern
    (.mk fun _ => Compiler.handles c.roots c.draft c.enclosing)
    (.mk fun _ => Compiler.handles c'.roots c'.draft c'.enclosing) s
  refine ⟨S, hxy, Heap.isString_intern h.healthy.tidy _ s, ?_⟩
  exact h.carry hc (fun _ hr => hr) (fun _ hr => hr) (h.healthy.intern _ s) (h.healthy'.intern _ s)

/-- **Both compilers make a function.** -/
theorem alloc_twin {d d' : Draft} (h : c.Twin o R c') (hd : d.Twin R c.heap d') :
    ∃ S, S (alloc (.function d.function) c).1 (alloc (.function d'.function) c').1 ∧
      (alloc (.function d.function) c).2.Twin o S (alloc (.function d'.function) c').2 := by
  have hheap := h.carries.twin
  obtain ⟨S, hxy, hc⟩ := hheap.alloc
    (.mk fun _ => Compiler.handles c.roots c.draft c.enclosing)
    (.mk fun _ => Compiler.handles c'.roots c'.draft c'.enclosing) (.function hd.function)
    (by simp [Object.kind])
  refine ⟨S, hxy, h.carry hc (fun _ hr => List.mem_append_right _ hr)
    (fun _ hr => List.mem_append_right _ hr) ?_ ?_⟩
  · exact h.healthy.alloc _ (by simp [Object.kind]) (fun r hr => hd.contains hheap hr) hd.fit
  · exact h.healthy'.alloc _ (by simp [Object.kind]) (fun r hr => hd.contains' hheap hr)
      (hd.fit' hheap)

/-- What follows when a constant has been added. -/
def constantIndex (index : Nat) : Compile UInt8 := do
  if byteCount ≤ index then
    error .tooManyConstants
    return 0
  return UInt8.ofNat index

instance (index : Nat) : Blind (constantIndex index) := by
  unfold constantIndex
  infer_instance

/-- **Twin values are added as constants**, with the same index. -/
theorem makeConstant_agree (h : c.Twin o R c') (hv : v.Twin R w) :
    Agree o (makeConstant v) (makeConstant w) c c' := by
  have hindex : Agree o (constantIndex c.draft.chunk.constants.size)
      (constantIndex c'.draft.chunk.constants.size)
      { c with draft := { c.draft with chunk := c.draft.chunk.addConstant v } }
      { c' with draft := { c'.draft with chunk := c'.draft.chunk.addConstant w } } := by
    rw [h.draft.chunk.constants.size_eq]
    exact Blind.agree { h with draft := { h.draft with chunk := h.draft.chunk.addConstant hv } }
  exact hindex

theorem emitConstant_agree (h : c.Twin o R c') (hv : v.Twin R w) :
    Agree o (emitConstant v) (emitConstant w) c c' :=
  (makeConstant_agree h hv).bind fun _ => inferInstance

instance (name : String) : Blind (nameConstant name) := by
  refine ⟨fun {o R c c'} h => ?_⟩
  obtain ⟨S, hxy, -, hc⟩ := intern_twin h name
  exact makeConstant_agree hc (.obj hxy)

instance (kind : FunctionKind) : Blind (beginFunction kind) := by
  refine Blind.bind inferInstance fun s => ⟨fun {o R c c'} h => ?_⟩
  obtain ⟨S, hxy, hstring, hc⟩ := intern_twin h s
  refine ⟨rfl, S, { hc with draft := ?_, enclosing := .cons hc.draft hc.enclosing }⟩
  exact ⟨rfl, .some ⟨hxy, hstring⟩, rfl, ⟨rfl, rfl, .nil⟩, rfl, rfl, rfl, rfl⟩

/-! ## Finished functions -/

theorem healthy_listed {heap : Heap} (hh : heap.Healthy) (texts : List String) :
    ((texts.map Event.compiled).foldl Heap.record heap).Healthy := by
  induction texts generalizing heap with
  | nil => exact hh
  | cons text texts ih => exact ih (hh.record (by simp))

/-- **The journals need not be the same.** -/
theorem reportListing_twin (h : c.Twin o R c') (d d' : Draft) :
    (reportListing d c).2.Twin o R (reportListing d' c').2 := by
  obtain ⟨texts, heq⟩ := reportListing_records d c
  obtain ⟨texts', heq'⟩ := reportListing_records d' c'
  rw [heq, heq']
  have hcarries : Heap.Carries R R (Compiler.handles c.roots c.draft c.enclosing)
      (Compiler.handles c'.roots c'.draft c'.enclosing) c.heap c'.heap
      ((texts.map Event.compiled).foldl Heap.record c.heap)
      ((texts'.map Event.compiled).foldl Heap.record c'.heap) :=
    ⟨h.carries.twin.recorded _ _, fun hab _ _ => hab, fun x _ => Heap.cell?_recorded _ _ x,
      fun x _ => Heap.cell?_recorded _ _ x⟩
  exact h.carry hcarries (fun _ hr => hr) (fun _ hr => hr) (healthy_listed h.healthy texts)
    (healthy_listed h.healthy' texts')

theorem leave_twin (h : c.Twin o R c') : c.leave.Twin o R c'.leave := by
  have henclosing := h.enclosing
  unfold Compiler.leave
  generalize c.enclosing = outer, c'.enclosing = outer' at henclosing
  cases henclosing with
  | nil =>
    exact { h with
      draft := ⟨rfl, .none, rfl, ⟨rfl, rfl, .nil⟩, rfl, rfl, rfl, rfl⟩
      enclosing := .nil }
  | cons hd hrest => exact { h with draft := hd, enclosing := hrest }

/-- **Both compilers finish a function.** -/
theorem endFunction_twin (h : c.Twin o R c') :
    ∃ S, (endFunction c).1.Twin S (endFunction c).2.heap (endFunction c').1 ∧
      (endFunction c).2.Twin o S (endFunction c').2 := by
  obtain ⟨-, S, h₁⟩ := Blind.agree (x := emitReturn) h
  refine ⟨S, h₁.draft.mono (fun _ _ _ _ hxy => hxy) fun x _ hx => ?_,
    reportListing_twin (leave_twin h₁) _ _⟩
  -- nothing but the journal has changed since
  have hcell : (endFunction c).2.heap.cell? x = (emitReturn c).2.heap.cell? x := by
    change (reportListing (emitReturn c).2.draft (emitReturn c).2.leave).2.heap.cell? x = _
    obtain ⟨texts, heq⟩ := reportListing_records (emitReturn c).2.draft (emitReturn c).2.leave
    rw [heq, Heap.cell?_recorded]
    unfold Compiler.leave
    split <;> rfl
  exact hx.congr hcell

/-- Write the instruction that makes the closure of a function. -/
def emitClosure (function : Handle) (captures : Array Capture) : Compile Unit := do
  emitWith .closure (← makeConstant (.obj function))
  captures.forM fun c => do
    emitByte (if c.isLocal then 1 else 0)
    emitByte c.index

theorem emitClosure_agree (h : c.Twin o R c') (hxy : R x y) (captures : Array Capture) :
    Agree o (emitClosure x captures) (emitClosure y captures) c c' :=
  (makeConstant_agree h (.obj hxy)).bind fun _ => inferInstance

/-- **A function is finished, and made an object.** Until it is a constant, only its references and
the drafts keep objects alive. -/
theorem blind_closing : Blind (do
    let d ← endFunction
    let h ← alloc (.function d.function)
    emitClosure h d.captures : Compile Unit) := by
  refine ⟨fun {o R c c'} h => ?_⟩
  obtain ⟨S, hd, h₁⟩ := endFunction_twin h
  obtain ⟨T, hxy, h₂⟩ := alloc_twin h₁ hd
  refine .step (.step ?_)
  rw [hd.captures]
  exact emitClosure_agree h₂ hxy _

end Compile

end LoxMachine

import LoxMachine.Proofs.Machine.Stack
import LoxMachine.Proofs.Twin.Heaps

/-!
# Machines that differ in their handles

* `Machine.Twin R m m'`: the same state, except for handles and for what the heaps collect.
* `Run.Agree x y m m' Q`: the actions `x` and `y`, performed in `m` and `m'`, both end, with `Q`; or
  both fail with the same runtime error, in twin states; or both meet a fault.
* There is one lemma for each basic action. Where objects are made, the pairing changes. What is
  paired and can be reached stays paired, which is said by `Held`.
-/

namespace LoxMachine

open Relator (BiUnique)

variable {R S : Pairing}

/-! ## States -/

/-- The same call, except for handles. The function is that of the closure. -/
structure Frame.Twin (R : Pairing) (heap heap' : Heap) (f f' : Frame) : Prop where
  closure : R f.closure f'.closure
  ip : f.ip = f'.ip
  base : f.base = f'.base
  function : ∃ c bytes, heap.cell? f.closure = some ⟨.closure c, bytes⟩ ∧ c.function = f.function
  function' : ∃ c bytes, heap'.cell? f'.closure = some ⟨.closure c, bytes⟩ ∧ c.function = f'.function

theorem Frame.Twin.functions {heap heap' : Heap} {f f' : Frame} (hf : f.Twin R heap heap' f')
    (h : heap.Twin R heap') : R f.function f'.function := by
  obtain ⟨c, bytes, hc, heq⟩ := hf.function
  obtain ⟨c', bytes', hc', heq'⟩ := hf.function'
  obtain ⟨cell, cell', hcell, hcell', htwin⟩ := h.objects hf.closure
  rw [hc] at hcell
  rw [hc'] at hcell'
  cases hcell
  cases hcell'
  cases htwin with
  | closure hfun _ =>
    rw [heq, heq'] at hfun
    exact hfun

namespace Machine

/-- The same state, except for handles. -/
structure Twin (R : Pairing) (m m' : Machine) : Prop where
  heap : m.heap.Twin R m'.heap
  stack : Paired (Value.Twin R) m.stack m'.stack
  frames : List.Forall₂ (Frame.Twin R m.heap m'.heap) m.frames m'.frames
  globals : m.globals.Twin R m'.globals
  opened : List.Forall₂ R m.openUpvalues m'.openUpvalues
  initName : R m.initName m'.initName
  sink : m.sink = m'.sink
  clock : m.clock = m'.clock
  nativeCalls : m.nativeCalls = m'.nativeCalls

namespace Twin

variable {m m' : Machine} {new new' : Heap} {roots roots' : List Handle} {x y : Handle}
  {o o' : Object}

theorem stack_to {stack stack' : Array Value} (h : m.Twin R m')
    (hs : Paired (Value.Twin R) stack stack') : { m with stack }.Twin R { m' with stack := stack' } :=
  { h with stack := hs }

theorem frames_to {frames frames' : List Frame} (h : m.Twin R m')
    (hf : List.Forall₂ (Frame.Twin R m.heap m'.heap) frames frames') :
    { m with frames }.Twin R { m' with frames := frames' } :=
  { h with frames := hf }

theorem globals_to {globals globals' : Table} (h : m.Twin R m') (hg : globals.Twin R globals') :
    { m with globals }.Twin R { m' with globals := globals' } :=
  { h with globals := hg }

theorem opened_to {opened opened' : List Handle} (h : m.Twin R m')
    (ho : List.Forall₂ R opened opened') :
    { m with openUpvalues := opened }.Twin R { m' with openUpvalues := opened' } :=
  { h with opened := ho }

/-- **The heaps have changed together**, and have kept what the machines refer to. -/
theorem carry (h : m.Twin R m') (hc : Heap.Carries R S roots roots' m.heap m'.heap new new')
    (hr : ∀ r ∈ m.roots, r ∈ roots) (hr' : ∀ r ∈ m'.roots, r ∈ roots') :
    { m with heap := new }.Twin S { m' with heap := new' } := by
  have hroot : ∀ {a b : Handle}, R a b → a ∈ m.roots → b ∈ m'.roots → S a b := fun hab ha hb =>
    hc.pairs hab (.root (hr _ ha) (h.heap.contains hab)) (.root (hr' _ hb) (h.heap.contains' hab))
  refine ⟨hc.twin, ?_, ?_, ?_, ?_, ?_, h.sink, h.clock, h.nativeCalls⟩
  · refine h.stack.mono fun v hv w hw hvw => hvw.mono fun a b ha hb hab => ?_
    subst ha hb
    exact hroot hab (mem_roots.2 (Or.inl hv)) (mem_roots.2 (Or.inl hw))
  · refine forall₂_mono h.frames fun f hf f' hf' htwin => ?_
    have hmem : f.closure ∈ m.roots := mem_roots.2 (Or.inr (Or.inl ⟨f, hf, rfl⟩))
    have hmem' : f'.closure ∈ m'.roots := mem_roots.2 (Or.inr (Or.inl ⟨f', hf', rfl⟩))
    refine ⟨hroot htwin.closure hmem hmem', htwin.ip, htwin.base, ?_, ?_⟩
    · obtain ⟨c, bytes, hcell, heq⟩ := htwin.function
      exact ⟨c, bytes, (hc.kept _ (.root (hr _ hmem) (Heap.contains_of_cell? hcell))).trans hcell,
        heq⟩
    · obtain ⟨c, bytes, hcell, heq⟩ := htwin.function'
      exact ⟨c, bytes, (hc.kept' _ (.root (hr' _ hmem') (Heap.contains_of_cell? hcell))).trans hcell,
        heq⟩
  · refine h.globals.mono fun a ha b hb hab => hroot hab ?_ ?_
    · exact mem_roots.2 (Or.inr (Or.inr (Or.inr (Or.inl ha))))
    · exact mem_roots.2 (Or.inr (Or.inr (Or.inr (Or.inl hb))))
  · refine forall₂_mono h.opened fun a ha b hb hab => hroot hab ?_ ?_
    · exact mem_roots.2 (Or.inr (Or.inr (Or.inl ha)))
    · exact mem_roots.2 (Or.inr (Or.inr (Or.inl hb)))
  · refine hroot h.initName ?_ ?_
    · exact mem_roots.2 (Or.inr (Or.inr (Or.inr (Or.inr rfl))))
    · exact mem_roots.2 (Or.inr (Or.inr (Or.inr (Or.inr rfl))))

/-- **Paired objects have changed**, which are no strings and no closures. -/
theorem replace (h : m.Twin R m') (hxy : R x y) (ho : o.Twin R o') (hmutable : o.kind.isFixed = false)
    (hkind : m.heap.kind? x = some o.kind) :
    { m with heap := m.heap.replace x o }.Twin R { m' with heap := m'.heap.replace y o' } := by
  have hstring : o.kind ≠ .string := by
    intro hs
    rw [hs] at hmutable
    cases hmutable
  obtain ⟨cell, cell', hc, hc', htwin⟩ := h.heap.objects hxy
  have hk : cell.object.kind = o.kind := by
    rw [Heap.kind?_of_cell? hc] at hkind
    exact Option.some.inj hkind
  -- a closure is not what has changed
  have hclosure : ∀ {a : Handle} {c : Closure} {bytes : Nat},
      m.heap.cell? a = some ⟨.closure c, bytes⟩ → a ≠ x := by
    rintro a c bytes hcell rfl
    rw [hc] at hcell
    cases hcell
    rw [← hk] at hmutable
    cases hmutable
  have hclosure' : ∀ {a : Handle} {c : Closure} {bytes : Nat},
      m'.heap.cell? a = some ⟨.closure c, bytes⟩ → a ≠ y := by
    rintro a c bytes hcell rfl
    rw [hc'] at hcell
    cases hcell
    rw [← hk, htwin.kind_eq] at hmutable
    cases hmutable
  have hheap := h.heap.replace hxy ho (by rw [hkind]; exact fun hs => hstring (Option.some.inj hs))
    hstring
  refine ⟨hheap, h.stack, h.frames.imp fun f f' hf => ⟨hf.closure, hf.ip, hf.base, ?_, ?_⟩, h.globals,
    h.opened, h.initName, h.sink, h.clock, h.nativeCalls⟩
  · obtain ⟨c, bytes, hcell, heq⟩ := hf.function
    exact ⟨c, bytes, by rw [Heap.cell?_replace hc, if_neg (hclosure hcell)]; exact hcell, heq⟩
  · obtain ⟨c, bytes, hcell, heq⟩ := hf.function'
    exact ⟨c, bytes, by rw [Heap.cell?_replace hc', if_neg (hclosure' hcell)]; exact hcell, heq⟩

/-- **Both machines write to their journals**, not necessarily the same. -/
theorem recorded (h : m.Twin R m') (events events' : List Event) :
    { m with heap := events.foldl Heap.record m.heap }.Twin R
      { m' with heap := events'.foldl Heap.record m'.heap } := by
  have hheap := h.heap.recorded events events'
  refine ⟨hheap, h.stack, h.frames.imp fun f f' hf => ⟨hf.closure, hf.ip, hf.base, ?_, ?_⟩, h.globals,
    h.opened, h.initName, h.sink, h.clock, h.nativeCalls⟩
  · simp only [Heap.cell?_recorded]
    exact hf.function
  · simp only [Heap.cell?_recorded]
    exact hf.function'

end Twin

end Machine

/-! ## Two runs -/

namespace Run

variable {α β γ δ : Type} {m m' n n' : Machine}

/-- How two actions end. -/
inductive Agrees (Q : α → β → Machine → Machine → Prop) :
    EStateM.Result Failure Machine α → EStateM.Result Failure Machine β → Prop
  | ok {a : α} {b : β} {m m' : Machine} : Q a b m m' → Agrees Q (.ok a m) (.ok b m')
  | error {R : Pairing} {m m' : Machine} (e : RuntimeError) : m.Twin R m' →
    Agrees Q (.error (.error e) m) (.error (.error e) m')
  | fault (f f' : Fault) (m m' : Machine) : Agrees Q (.error (.fault f) m) (.error (.fault f') m')

/-- Both actions end, with `Q`, or both fail with the same error, or both meet a fault. -/
def Agree (x : Run α) (y : Run β) (m m' : Machine) (Q : α → β → Machine → Machine → Prop) : Prop :=
  Agrees Q (x m) (y m')

namespace Agree

variable {x : Run α} {y : Run β} {Q Q' : α → β → Machine → Machine → Prop}
  {P : γ → δ → Machine → Machine → Prop}

theorem mono (h : Agree x y m m' Q) (hQ : ∀ a b n n', Q a b n n' → Q' a b n n') :
    Agree x y m m' Q' := by
  unfold Agree at h ⊢
  generalize x m = r, y m' = r' at h ⊢
  cases h with
  | ok h => exact .ok (hQ _ _ _ _ h)
  | error e h => exact .error e h
  | fault f f' n n' => exact .fault f f' n n'

theorem bind {f : α → Run γ} {g : β → Run δ} (h : Agree x y m m' Q)
    (hfg : ∀ a b n n', Q a b n n' → Agree (f a) (g b) n n' P) :
    Agree (x >>= f) (y >>= g) m m' P := by
  unfold Agree at h
  change Agrees P (EStateM.bind x f m) (EStateM.bind y g m')
  unfold EStateM.bind
  generalize x m = r, y m' = r' at h
  cases h with
  | ok h => exact hfg _ _ _ _ h
  | error e h => exact .error e h
  | fault f f' n n' => exact .fault f f' n n'

theorem pure {a : α} {b : β} (h : Q a b m m') : Agree (pure a) (pure b) m m' Q := .ok h

theorem get {f : Machine → Run γ} {g : Machine → Run δ} (h : Agree (f m) (g m') m m' P) :
    Agree (MonadState.get >>= f) (MonadState.get >>= g) m m' P := h

/-- Changing the states before something else. -/
theorem modify_bind {f g : Machine → Machine} {k : Unit → Run γ} {l : Unit → Run δ}
    (h : (f m).Twin R (g m')) (hkl : ∀ n n', n.Twin R n' → Agree (k ()) (l ()) n n' P) :
    Agree (modify f >>= k) (modify g >>= l) m m' P := hkl _ _ h

theorem modify {f g : Machine → Machine} {Q : Unit → Unit → Machine → Machine → Prop}
    (h : Q () () (f m) (g m')) : Agree (modify f) (modify g) m m' Q := .ok h

theorem modifyGet {f : Machine → α × Machine} {g : Machine → β × Machine}
    (h : Q (f m).1 (g m').1 (f m).2 (g m').2) : Agree (modifyGet f) (modifyGet g) m m' Q := .ok h

theorem fail (h : m.Twin R m') (e : RuntimeError) :
    Agree (Run.fail e : Run α) (Run.fail e : Run β) m m' Q := .error e h

theorem fail_bind {f : α → Run γ} {g : β → Run δ} (h : m.Twin R m') (e : RuntimeError) :
    Agree ((Run.fail e : Run α) >>= f) ((Run.fail e : Run β) >>= g) m m' P := .error e h

theorem ite {p q : Prop} [Decidable p] [Decidable q] {x' : Run α} {y' : Run β} (hpq : p ↔ q)
    (h : p → Agree x y m m' Q) (h' : ¬p → Agree x' y' m m' Q) :
    Agree (if p then x else x') (if q then y else y') m m' Q := by
  by_cases hp : p
  · rw [if_pos hp, if_pos (hpq.1 hp)]
    exact h hp
  · rw [if_neg hp, if_neg (fun hq => hp (hpq.2 hq))]
    exact h' hp

/-- A choice whose result is used. -/
theorem ite_bind {p : Prop} [Decidable p] {x' : Run α} {y' : Run β} {f : α → Run γ} {g : β → Run δ}
    (h : Agree (if p then x else x') (if p then y else y') m m' Q)
    (hfg : ∀ a b n n', Q a b n n' → Agree (f a) (g b) n n' P) :
    Agree (if p then x >>= f else x' >>= f) (if p then y >>= g else y' >>= g) m m' P := by
  split <;> rename_i hp
  · rw [if_pos hp, if_pos hp] at h
    exact h.bind hfg
  · rw [if_neg hp, if_neg hp] at h
    exact h.bind hfg

/-- Reading the heaps. -/
theorem look {f : Heap → Except Fault α} {g : Heap → Except Fault β} {A : α → β → Prop}
    (h : Alike A (f m.heap) (g m'.heap)) :
    Agree (look f) (look g) m m' fun a b n n' => A a b ∧ n = m ∧ n' = m' := by
  unfold Run.look
  refine .get ?_
  generalize f m.heap = r, g m'.heap = r' at h
  cases h with
  | ok hab => exact .ok ⟨hab, rfl, rfl⟩
  | error f g => exact .fault f g m m'

theorem look_bind {f : Heap → Except Fault α} {g : Heap → Except Fault β} {A : α → β → Prop}
    {k : α → Run γ} {l : β → Run δ} (h : Alike A (f m.heap) (g m'.heap))
    (hkl : ∀ a b, A a b → Agree (k a) (l b) m m' P) :
    Agree (Run.look f >>= k) (Run.look g >>= l) m m' P :=
  (Agree.look h).bind fun a b n n' hab => by
    obtain ⟨hab, rfl, rfl⟩ := hab
    exact hkl a b hab

/-- Changing the heaps. -/
theorem update {f g : Heap → Except Fault Heap}
    (h : Alike (fun new new' => { m with heap := new }.Twin R { m' with heap := new' })
      (f m.heap) (g m'.heap)) :
    Agree (update f) (update g) m m' fun _ _ n n' => n.Twin R n' := by
  unfold Agree Run.update
  generalize f m.heap = r, g m'.heap = r' at h
  cases h with
  | ok h => exact .ok h
  | error f g => exact .fault f g m m'

end Agree

/-! ## The stack -/

variable {v w : Value}

theorem push_agree (h : m.Twin R m') (hv : v.Twin R w) :
    Agree (push v) (push w) m m' fun _ _ n n' => n.Twin R n' := by
  unfold push
  have hsize := h.stack.size_eq
  refine .get (.ite (by rw [hsize]) (fun _ => .fail_bind h _) fun _ => .modify ?_)
  exact h.stack_to (h.stack.push hv)

theorem pop_agree (h : m.Twin R m') :
    Agree pop pop m m' fun v w n n' => v.Twin R w ∧ n.Twin R n' := by
  unfold pop
  refine .get ?_
  rw [Array.back?_eq_getElem?, Array.back?_eq_getElem?, h.stack.size_eq]
  rcases h.stack.getElem? (m'.stack.size - 1) with ⟨hv, hw⟩ | ⟨v, w, hv, hw, hvw⟩
  · rw [hv, hw]
    exact .fail h _
  · rw [hv, hw]
    exact .modify_bind (h.stack_to h.stack.pop) fun n n' hn => .pure ⟨hvw, hn⟩

theorem slot_agree (h : m.Twin R m') (i : Nat) :
    Agree (slot i) (slot i) m m' fun v w n n' => v.Twin R w ∧ n.Twin R n' := by
  unfold slot
  refine .get ?_
  rcases h.stack.getElem? i with ⟨hv, hw⟩ | ⟨v, w, hv, hw, hvw⟩
  · rw [hv, hw]
    exact .fail h _
  · rw [hv, hw]
    exact .pure ⟨hvw, h⟩

theorem setSlot_agree (h : m.Twin R m') (i : Nat) (hv : v.Twin R w) :
    Agree (setSlot i v) (setSlot i w) m m' fun _ _ n n' => n.Twin R n' := by
  unfold setSlot
  refine .get (.ite (by rw [h.stack.size_eq]) (fun _ => .modify ?_) fun _ => .fail h _)
  exact h.stack_to (h.stack.put i hv)

theorem below_agree (h : m.Twin R m') (d : Nat) :
    Agree (below d) (below d) m m' fun i j n n' => i = j ∧ n.Twin R n' := by
  unfold below
  refine .get ?_
  dsimp only
  rw [h.stack.size_eq]
  exact .ite Iff.rfl (fun _ => .pure ⟨rfl, h⟩) fun _ => .fail h _

theorem peek_agree (h : m.Twin R m') (d : Nat) :
    Agree (peek d) (peek d) m m' fun v w n n' => v.Twin R w ∧ n.Twin R n' := by
  unfold peek
  refine (below_agree h d).bind fun i j n n' hi => ?_
  obtain ⟨rfl, hn⟩ := hi
  exact slot_agree hn i

theorem poke_agree (h : m.Twin R m') (d : Nat) (hv : v.Twin R w) :
    Agree (poke d v) (poke d w) m m' fun _ _ n n' => n.Twin R n' := by
  unfold poke
  refine (below_agree h d).bind fun i j n n' hi => ?_
  obtain ⟨rfl, hn⟩ := hi
  exact setSlot_agree hn i hv

theorem truncate_agree (h : m.Twin R m') (size : Nat) :
    Agree (truncate size) (truncate size) m m' fun _ _ n n' => n.Twin R n' :=
  .modify (h.stack_to (h.stack.take size))

/-! ## Objects -/

variable {x y : Handle} {o o' : Object}

/-- **Both machines make an object.** -/
theorem alloc_agree (h : m.Twin R m') (ho : o.Twin R o') (hkind : o.kind ≠ .string) :
    Agree (alloc o) (alloc o') m m' fun x y n n' => ∃ S, S x y ∧ n.Twin S n' ∧
      n = { m with heap := n.heap } ∧ n' = { m' with heap := n'.heap } ∧
      Heap.Carries R S (o.references ++ m.roots) (o'.references ++ m'.roots) m.heap m'.heap n.heap
        n'.heap := by
  obtain ⟨S, hxy, hc⟩ := h.heap.alloc
    (.mk fun _ => Machine.handles m.stack m.frames m.openUpvalues m.globals m.initName)
    (.mk fun _ => Machine.handles m'.stack m'.frames m'.openUpvalues m'.globals m'.initName) ho hkind
  refine .ok ⟨S, hxy, h.carry hc (fun r hr => ?_) (fun r hr => ?_), rfl, rfl, hc⟩
  · exact List.mem_append_right _ hr
  · exact List.mem_append_right _ hr

/-- **Both machines look for a string.** -/
theorem intern_agree (h : m.Twin R m') (s : String) :
    Agree (intern s) (intern s) m m' fun x y n n' => ∃ S, S x y ∧ n.Twin S n' := by
  obtain ⟨S, hxy, hc⟩ := h.heap.intern
    (.mk fun _ => Machine.handles m.stack m.frames m.openUpvalues m.globals m.initName)
    (.mk fun _ => Machine.handles m'.stack m'.frames m'.openUpvalues m'.globals m'.initName) s
  exact .ok ⟨S, hxy, h.carry hc (fun _ hr => hr) fun _ hr => hr⟩

/-- The handle of twin values, if they are objects of the kind. -/
theorem asKind_agree (h : m.Twin R m') (hv : v.Twin R w) (kind : ObjectKind) :
    Agree (asKind kind v) (asKind kind w) m m' fun x y n n' =>
      Option.Rel (fun x y => R x y ∧ v = .obj x ∧ w = .obj y) x y ∧ n.Twin R n' := by
  refine (Agree.look (h.heap.asKind hv kind)).mono fun x y n n' hxy => ?_
  obtain ⟨hxy, rfl, rfl⟩ := hxy
  exact ⟨hxy, h⟩

theorem requireKind_agree (h : m.Twin R m') (hv : v.Twin R w) (kind : ObjectKind) (e : RuntimeError) :
    Agree (requireKind kind v e) (requireKind kind w e) m m' fun x y n n' =>
      (R x y ∧ v = .obj x ∧ w = .obj y) ∧ n = m ∧ n' = m' := by
  unfold requireKind asKind
  refine .look_bind (h.heap.asKind hv kind) fun x y hxy => ?_
  cases hxy with
  | none => exact .fail h e
  | some hxy => exact .pure ⟨hxy, rfl, rfl⟩

/-! ## Code -/

theorem frame_agree (h : m.Twin R m') : Agree frame frame m m' fun f f' n n' =>
    f.Twin R m.heap m'.heap f' ∧ f ∈ m.frames ∧ f' ∈ m'.frames ∧ n = m ∧ n' = m' := by
  unfold frame
  refine .get ?_
  have hframes := h.frames
  generalize m.frames = fs, m'.frames = fs' at hframes
  cases hframes with
  | nil => exact .fail h _
  | cons hf _ => exact .pure ⟨hf, List.mem_cons_self, List.mem_cons_self, rfl, rfl⟩

theorem jumpTo_agree (h : m.Twin R m') (ip : Nat) :
    Agree (jumpTo ip) (jumpTo ip) m m' fun _ _ n n' =>
      n.Twin R n' ∧ m.Alike n ∧ m'.Alike n' := by
  refine .modify ?_
  have hframes := h.frames
  cases hf : m.frames with
  | nil =>
    rw [hf] at hframes
    cases hf' : m'.frames with
    | nil => exact ⟨h, ⟨rfl, rfl, rfl⟩, ⟨rfl, rfl, rfl⟩⟩
    | cons f' fs' =>
      rw [hf'] at hframes
      cases hframes
  | cons f fs =>
    rw [hf] at hframes
    cases hf' : m'.frames with
    | nil =>
      rw [hf'] at hframes
      cases hframes
    | cons f' fs' =>
      rw [hf'] at hframes
      cases hframes with
      | cons htwin hrest =>
        refine ⟨h.frames_to (.cons ?_ hrest), ⟨rfl, rfl, ?_⟩, ⟨rfl, rfl, ?_⟩⟩
        · exact ⟨htwin.closure, rfl, htwin.base, htwin.function, htwin.function'⟩
        · simp [Machine.roots, Machine.handles, hf]
        · simp [Machine.roots, Machine.handles, hf']

/-- The function of an active call can be reached, and so can its constants. -/
theorem reachable_constant {heap : Heap} {roots : List Handle} {f : Frame} {fn : Function}
    (hf : ∃ c bytes, heap.cell? f.closure = some ⟨.closure c, bytes⟩ ∧ c.function = f.function)
    (hroot : f.closure ∈ roots) (hfn : heap.function f.function = .ok fn)
    (hx : .obj x ∈ fn.chunk.constants) (hc : heap.contains x = true) : heap.Reachable roots x := by
  obtain ⟨c, bytes, hcell, heq⟩ := hf
  obtain ⟨bytes', hcell'⟩ := Heap.function_eq_ok_iff.1 hfn
  have hfunction : heap.Reachable roots f.function :=
    .reference (.root hroot (Heap.contains_of_cell? hcell)) hcell
      (List.mem_cons.2 (Or.inl heq.symm)) (Heap.contains_of_cell? hcell')
  exact .reference hfunction hcell' (Heap.mem_references_of_constant hx) hc

/-- A pair that both machines refer to. -/
structure Held (R : Pairing) (m m' : Machine) (a b : Handle) : Prop where
  pair : R a b
  reach : m.heap.Reachable m.roots a
  reach' : m'.heap.Reachable m'.roots b

theorem Held.alike {a b : Handle} (h : Held R m m' a b) (ha : m.Alike n) (ha' : m'.Alike n') :
    Held R n n' a b := by
  refine ⟨h.pair, ?_, ?_⟩
  · rw [ha.heap, ha.roots]
    exact h.reach
  · rw [ha'.heap, ha'.roots]
    exact h.reach'

/-- The code of an active call. Its constants can be reached. -/
theorem runningChunk_agree {f f' : Frame} (h : m.Twin R m') (hf : f.Twin R m.heap m'.heap f')
    (hmem : f ∈ m.frames) (hmem' : f' ∈ m'.frames) :
    Agree (runningChunk f) (runningChunk f') m m' fun c c' n n' => c.Twin R c' ∧
      (∀ x y, .obj x ∈ c.constants → .obj y ∈ c'.constants → R x y → Held R m m' x y) ∧
      n = m ∧ n' = m' := by
  unfold runningChunk
  refine .look_bind (h.heap.function (hf.functions h.heap)).answers fun fn fn' hfn => .pure ?_
  obtain ⟨htwin, heq, heq'⟩ := hfn
  refine ⟨htwin.chunk, fun x y hx hy hxy => ⟨hxy, ?_, ?_⟩, rfl, rfl⟩
  · exact reachable_constant hf.function (Machine.mem_roots.2 (Or.inr (Or.inl ⟨f, hmem, rfl⟩))) heq hx
      (h.heap.contains hxy)
  · exact reachable_constant hf.function' (Machine.mem_roots.2 (Or.inr (Or.inl ⟨f', hmem', rfl⟩)))
      heq' hy (h.heap.contains' hxy)

theorem readByte_agree (h : m.Twin R m') : Agree readByte readByte m m' fun b b' n n' =>
    b = b' ∧ n.Twin R n' ∧ m.Alike n ∧ m'.Alike n' := by
  unfold readByte
  refine (frame_agree h).bind fun f f' n n' hf => ?_
  obtain ⟨hf, hmem, hmem', rfl, rfl⟩ := hf
  refine (runningChunk_agree h hf hmem hmem').bind fun c c' n n' hc => ?_
  obtain ⟨hc, -, rfl, rfl⟩ := hc
  rw [hc.read8, hf.ip]
  cases c'.read8 f'.ip with
  | error e => exact .fail h _
  | ok byte => exact (jumpTo_agree h _).bind fun _ _ n n' hn => .pure ⟨rfl, hn⟩

theorem readDistance_agree (h : m.Twin R m') : Agree readDistance readDistance m m' fun d d' n n' =>
    d = d' ∧ n.Twin R n' := by
  unfold readDistance
  refine (frame_agree h).bind fun f f' n n' hf => ?_
  obtain ⟨hf, hmem, hmem', rfl, rfl⟩ := hf
  refine (runningChunk_agree h hf hmem hmem').bind fun c c' n n' hc => ?_
  obtain ⟨hc, -, rfl, rfl⟩ := hc
  rw [hc.read16, hf.ip]
  cases c'.read16 f'.ip with
  | error e => exact .fail h _
  | ok distance => exact (jumpTo_agree h _).bind fun _ _ n n' hn => .pure ⟨rfl, hn.1⟩

theorem readOpcode_agree (h : m.Twin R m') : Agree readOpcode readOpcode m m' fun op op' n n' =>
    op = op' ∧ n.Twin R n' := by
  unfold readOpcode
  refine (readByte_agree h).bind fun b b' n n' hb => ?_
  obtain ⟨rfl, hn, -⟩ := hb
  cases Opcode.ofByte? b with
  | none => exact .fail hn _
  | some op => exact .pure ⟨rfl, hn⟩

theorem readConstant_agree (h : m.Twin R m') : Agree readConstant readConstant m m' fun v w n n' =>
    v.Twin R w ∧ n.Twin R n' := by
  unfold readConstant
  refine (readByte_agree h).bind fun b b' n n' hb => ?_
  obtain ⟨rfl, hn, -⟩ := hb
  refine (frame_agree hn).bind fun f f' m m' hf => ?_
  obtain ⟨hf, hmem, hmem', rfl, rfl⟩ := hf
  refine (runningChunk_agree hn hf hmem hmem').bind fun c c' n n' hc => ?_
  obtain ⟨hc, -, rfl, rfl⟩ := hc
  rcases hc.constants.getElem? b.toNat with ⟨hv, hw⟩ | ⟨v, w, hv, hw, hvw⟩
  · rw [hv, hw]
    exact .fail hn _
  · rw [hv, hw]
    exact .pure ⟨hvw, hn⟩

/-- **A constant that is an object of a kind.** -/
theorem readObject_agree (h : m.Twin R m') (kind : ObjectKind) :
    Agree (readObject kind) (readObject kind) m m' fun x y n n' =>
      Held R n n' x y ∧ n.Twin R n' := by
  unfold readObject
  refine (readByte_agree h).bind fun b b' n n' hb => ?_
  obtain ⟨rfl, hn, -⟩ := hb
  refine (frame_agree hn).bind fun f f' m m' hf => ?_
  obtain ⟨hf, hmem, hmem', rfl, rfl⟩ := hf
  refine (runningChunk_agree hn hf hmem hmem').bind fun c c' n n' hc => ?_
  obtain ⟨hc, hheld, rfl, rfl⟩ := hc
  rcases hc.constants.getElem? b.toNat with ⟨hv, hw⟩ | ⟨v, w, hv, hw, hvw⟩
  · rw [hv, hw]
    exact .fail hn _
  · rw [hv, hw]
    refine (requireKind_agree hn hvw kind _).mono fun x y k k' hxy => ?_
    obtain ⟨⟨hxy, rfl, rfl⟩, rfl, rfl⟩ := hxy
    exact ⟨hheld x y (Array.mem_of_getElem? hv) (Array.mem_of_getElem? hw) hxy, hn⟩

theorem readName_agree (h : m.Twin R m') : Agree readName readName m m' fun x y n n' =>
    R x y ∧ n.Twin R n' :=
  (readObject_agree h .string).mono fun _ _ _ _ hxy => ⟨hxy.1.pair, hxy.2⟩

end Run

end LoxMachine

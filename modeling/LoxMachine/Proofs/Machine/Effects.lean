import LoxMachine.Proofs.Machine.Footprints
import Mathlib.Logic.Relation

/-!
# What instructions do to objects

Whatever an instruction is performed on, and whether it ends or fails, it changes the objects of the
machine only in the ways that its operation has.

* `Effect` is a way to change objects, and `Opcode.effects` are those of an operation.
* `Machine.Change p` is one change with an effect that `p` allows, and `Machine.Changes p` any number of
  them.
* `Run.Effects p x`: the action `x` makes such changes only.
* `perform_effects`: an operation has the effects that it is said to have.
* `Changes.old`: objects of a kind that is neither made nor changed have been there before, as they are.
* `Machine.Recedes` and `perform_recedes`: instructions that write captured variables put none on the stack.
* `Machine.Names` and `perform_names`: the name of initializers is always the same string.
-/

namespace LoxMachine

/-- A way to change the objects of a machine. -/
inductive Effect where
  | makes (kind : ObjectKind)
  | changes (kind : ObjectKind)
  /-- The list of the captured variables that are on the stack changes. -/
  | opens
  deriving DecidableEq, Repr

/-- What an operation may do to objects. -/
def Opcode.effects : Opcode → List Effect
  | getProperty | getSuper => [.makes .bound]
  | setProperty => [.changes .inst]
  | setUpvalue => [.changes .upvalue]
  | add => [.makes .string]
  | call | invoke => [.makes .inst]
  | closure => [.makes .upvalue, .opens, .makes .closure]
  | closeUpvalue | ret => [.changes .upvalue, .opens]
  | cls => [.makes .cls]
  | inherit | method => [.changes .cls]
  | _ => []

namespace Machine

variable {p q : Effect → Prop} {m m' m'' : Machine}

/-- One change to the objects of a machine. -/
inductive Change (p : Effect → Prop) : Machine → Machine → Prop
  /-- The stack, the calls and the like may change freely. -/
  | control {m m' : Machine} (heap : m'.heap = m.heap) (opened : m'.openUpvalues = m.openUpvalues) :
    Change p m m'
  | record {m : Machine} (e : Event) : Change p m { m with heap := m.heap.record e }
  | make {m : Machine} (o : Object) (h : p (.makes o.kind)) (hkind : o.kind ≠ .string) :
    Change p m { m with heap := (m.heap.alloc (.mk fun _ => m.roots) o).2 }
  | intern {m : Machine} (s : String) (h : p (.makes .string)) :
    Change p m { m with heap := (m.heap.intern (.mk fun _ => m.roots) s).2 }
  | change {m : Machine} {x : Handle} {cell : Cell} (o : Object) (h : p (.changes o.kind))
    (hcell : m.heap.cell? x = some cell) (hkind : cell.object.kind = o.kind)
    (hmutable : o.kind.isFixed = false) : Change p m { m with heap := m.heap.replace x o }
  | opened {m : Machine} (opened : List Handle) (h : p .opens) : Change p m { m with openUpvalues := opened }

/-- Any number of changes. -/
abbrev Changes (p : Effect → Prop) : Machine → Machine → Prop := Relation.ReflTransGen (Change p)

theorem Changes.control (heap : m'.heap = m.heap) (opened : m'.openUpvalues = m.openUpvalues) :
    Changes p m m' := .single (.control heap opened)

/-! ## Changes and what actions are made of -/

instance : Shifts (Changes p) where
  refl _ := .refl
  trans := .trans
  moves _ _ _ _ _ := .control rfl rfl
  stack _ _ := .control rfl rfl
  frames _ _ := .control rfl rfl
  nativeCalls _ _ := .control rfl rfl

instance : Defines (Changes p) := ⟨fun _ _ => .control rfl rfl⟩

instance : Prints (Changes p) := ⟨fun _ _ => .control rfl rfl⟩

instance : Records (Changes p) := ⟨fun _ _ => .single (.record _)⟩

theorem makes_of_allowed {kind : ObjectKind} (h : p (.makes kind)) : Makes (Changes p) kind :=
  ⟨fun _ o ho hkind => .single (.make o (ho ▸ h) hkind)⟩

theorem interns_of_allowed (h : p (.makes .string)) : Interns (Changes p) := ⟨fun _ s => .single (.intern s h)⟩

theorem alters_of_allowed {kind : ObjectKind} (h : p (.changes kind)) : Alters (Changes p) kind :=
  ⟨fun o ho hcell hkind hmutable => .single (.change o (ho ▸ h) hcell hkind hmutable)⟩

theorem opens_of_allowed (h : p .opens) : Opens (Changes p) := ⟨fun _ opened => .single (.opened opened h)⟩

/-! ## Kinds of objects that are left alone -/

end Machine

/-- All objects of the kind have been there before, as they are. -/
structure Heap.Old (kind : ObjectKind) (heap heap' : Heap) : Prop where
  tidy : heap'.Tidy
  cells : ∀ {x : Handle} {o : Object} {bytes : Nat}, o.kind = kind → heap'.cell? x = some ⟨o, bytes⟩ →
    heap.cell? x = some ⟨o, bytes⟩

namespace Heap.Old

variable {heap heap' heap'' : Heap} {kind : ObjectKind} {x : Handle}

theorem refl (ht : heap.Tidy) : heap.Old kind heap := ⟨ht, fun _ h => h⟩

theorem trans (h : heap.Old kind heap') (h' : heap'.Old kind heap'') : heap.Old kind heap'' :=
  ⟨h'.tidy, fun ho hc => h.cells ho (h'.cells ho hc)⟩

theorem allocates {roots : List Handle} {made : Object} (ha : heap.Allocates roots made x heap')
    (hkind : made.kind ≠ kind) : heap.Old kind heap' := by
  refine ⟨ha.tidy, fun {y o bytes} ho hc => ?_⟩
  by_cases hy : y = x
  · rw [hy, ha.new] at hc
    cases hc
    exact absurd ho hkind
  · exact ha.old hy hc

theorem replace (ht : heap.Tidy) {new : Object} {cell : Cell} (hcell : heap.cell? x = some cell)
    (hkind : new.kind ≠ kind) : heap.Old kind (heap.replace x new) := by
  refine ⟨ht.replace hcell new, fun {y o bytes} ho hc => ?_⟩
  rw [cell?_replace hcell new] at hc
  split at hc
  · cases hc
    exact absurd ho hkind
  · exact hc

end Heap.Old

namespace Machine

variable {p : Effect → Prop} {m m' : Machine} {kind : ObjectKind}

theorem Change.old (h : Change p m m') (ht : m.heap.Tidy) (hmade : ¬p (.makes kind))
    (hchanged : ¬p (.changes kind)) : m.heap.Old kind m'.heap := by
  cases h with
  | control heap opened =>
    rw [heap]
    exact .refl ht
  | record e => exact ⟨ht.record e, fun _ hc => (Heap.cell?_record _ _ _).symm.trans hc⟩
  | make o h hkind =>
    exact .allocates (Heap.alloc_allocates ht _ o) fun ho => hmade (ho ▸ h)
  | intern s h =>
    rcases Heap.intern_spec ht (.mk fun _ => m.roots) s with ⟨-, heq⟩ | ⟨-, ha, -⟩
    · rw [heq]
      exact .refl ht
    · refine .allocates ha ?_
      rintro rfl
      exact hmade h
  | change o h hcell hkind hmutable => exact .replace ht hcell fun ho => hchanged (ho ▸ h)
  | opened opened h => exact .refl ht

/-- **Objects that are neither made nor changed** have been there before. -/
theorem Changes.old (h : Changes p m m') (ht : m.heap.Tidy) (hmade : ¬p (.makes kind))
    (hchanged : ¬p (.changes kind)) : m.heap.Old kind m'.heap := by
  induction h with
  | refl => exact .refl ht
  | tail _ h ih => exact ih.trans (h.old ih.tidy hmade hchanged)

end Machine

namespace Run

open Machine

variable {α : Type} {p : Effect → Prop}

/-- The action changes objects only in the ways that are allowed. -/
abbrev Effects (p : Effect → Prop) (x : Run α) : Prop := Along (Changes p) x

/-! ## Every instruction -/

/-- **An operation has the effects that it is said to have.** -/
theorem perform_effects (op : Opcode) (h : ∀ e ∈ op.effects, p e) : Effects p (perform op) := by
  cases op with
  | getProperty | getSuper =>
    have := makes_of_allowed (h (.makes .bound) (by decide))
    unfold perform
    infer_instance
  | setProperty =>
    have := alters_of_allowed (h (.changes .inst) (by decide))
    unfold perform
    infer_instance
  | setUpvalue =>
    have := alters_of_allowed (h (.changes .upvalue) (by decide))
    unfold perform
    infer_instance
  | add =>
    have := interns_of_allowed (h (.makes .string) (by decide))
    unfold perform
    infer_instance
  | call | invoke =>
    have := makes_of_allowed (h (.makes .inst) (by decide))
    unfold perform
    infer_instance
  | closure =>
    have := makes_of_allowed (h (.makes .upvalue) (by decide))
    have := opens_of_allowed (h .opens (by decide))
    have := makes_of_allowed (h (.makes .closure) (by decide))
    unfold perform
    infer_instance
  | closeUpvalue | ret =>
    have := alters_of_allowed (h (.changes .upvalue) (by decide))
    have := opens_of_allowed (h .opens (by decide))
    unfold perform
    infer_instance
  | cls =>
    have := makes_of_allowed (h (.makes .cls) (by decide))
    unfold perform
    infer_instance
  | inherit | method =>
    have := alters_of_allowed (h (.changes .cls) (by decide))
    unfold perform
    infer_instance
  | _ =>
    unfold perform
    infer_instance

/-- So has a step, whatever its operation is. -/
theorem execute_effects (h : ∀ op : Opcode, ∀ e ∈ op.effects, p e) : Effects p execute := by
  have hperform (op : Opcode) : Effects p (perform op) := perform_effects op (h op)
  unfold execute
  infer_instance

end Run

/-! ## Variables that leave the stack -/

/-- Variables that are on the stack have been there before. -/
def Machine.Recedes (m m' : Machine) : Prop := ∀ u p, m'.heap.OnStack u p → m.heap.OnStack u p

namespace Machine.Recedes

variable {m m' : Machine}

theorem of_heap (h : m'.heap = m.heap) : m.Recedes m' := fun _ _ hs => h ▸ hs

instance : Shifts Recedes where
  refl _ := of_heap rfl
  trans h h' u p hs := h u p (h' u p hs)
  moves _ _ _ _ _ := of_heap rfl
  stack _ _ := of_heap rfl
  frames _ _ := of_heap rfl
  nativeCalls _ _ := of_heap rfl

instance : Opens Recedes := ⟨fun _ _ => of_heap rfl⟩

end Machine.Recedes

namespace Run

open Machine

/-- A variable leaves the stack. -/
instance (x : Handle) (v : Value) : Along Recedes (update (·.setUpvalue x (.closed v))) := by
  refine .update fun {m heap} hset u p hs => ?_
  obtain ⟨w, hw, hset⟩ := Except.inv_bind hset
  cases hset
  obtain ⟨bytes, hc⟩ := Heap.upvalue_eq_ok_iff.1 hw
  obtain ⟨bytes', hs⟩ := hs
  rw [Heap.cell?_replace hc] at hs
  split at hs
  · cases hs
  · exact ⟨bytes', hs⟩

instance (last : Nat) (opened : List Handle) : Along Recedes (closeFrom last opened) := by
  induction opened with
  | nil => exact inferInstanceAs (Along Recedes (pure ()))
  | cons u rest ih =>
    have := along_opened (R := Recedes) fun _ => rest
    unfold closeFrom
    refine .bind fun u => ?_
    split <;> infer_instance

instance (last : Nat) : Along Recedes (closeUpvalues last) := by
  unfold closeUpvalues
  infer_instance

instance : Along Recedes setUpvalue := by
  unfold setUpvalue
  refine .bind fun i => .bind fun h => .bind fun v => .bind fun u => ?_
  split <;> infer_instance

instance : Along Recedes closeTop := by
  unfold closeTop
  infer_instance

set_option synthInstance.maxSize 1024 in
instance : Along Recedes ret := by
  have := Along.modify (R := Recedes) fun m => Enters.frames m m.frames.tail
  have := Along.modify (R := Recedes) fun m => Stacks.stack m #[]
  unfold ret
  infer_instance

/-- **No instruction puts a variable back on the stack.** -/
theorem perform_recedes {op : Opcode} (hop : op = .setUpvalue ∨ op = .closeUpvalue ∨ op = .ret) :
    Along Recedes (perform op) := by
  rcases hop with rfl | rfl | rfl
  · exact inferInstanceAs (Along Recedes (do setUpvalue; return false))
  · exact inferInstanceAs (Along Recedes (do closeTop; return false))
  · exact inferInstanceAs (Along Recedes ret)

end Run

/-! ## The name of initializers -/

/-- The name of initializers is the same string. -/
structure Machine.Names (m m' : Machine) : Prop where
  initName : m'.initName = m.initName
  tidy : m.heap.Tidy → m'.heap.Tidy
  contents : m.heap.Tidy → ∀ s, m.heap.hasContents s m.initName = true → m'.heap.hasContents s m.initName = true

namespace Machine.Names

variable {m m' : Machine}

theorem of_heap (h : m'.heap = m.heap) (hname : m'.initName = m.initName) : m.Names m' :=
  ⟨hname, fun ht => h ▸ ht, fun _ _ hs => h ▸ hs⟩

/-- The string cannot be collected. -/
theorem of_allocates {heap : Heap} {o : Object} {x : Handle} (h : m.heap.Tidy → m.heap.Allocates m.roots o x heap) :
    m.Names { m with heap } := by
  refine ⟨rfl, fun ht => (h ht).tidy, fun ht s hs => ?_⟩
  obtain ⟨text, bytes, hcell, -⟩ := (Heap.hasContents_iff _ _ _).1 hs
  have hroot : m.initName ∈ m.roots := mem_roots.2 (.inr (.inr (.inr (.inr rfl))))
  exact (Heap.hasContents_congr ((h ht).kept
    (.root (List.mem_append_right _ hroot) (Heap.contains_of_cell? hcell))).2).trans hs

instance : Shifts Names where
  refl _ := of_heap rfl rfl
  trans h h' := ⟨h'.initName.trans h.initName, fun ht => h'.tidy (h.tidy ht), fun ht s hs => by
    have hs' := h.contents ht s hs
    rw [← h.initName] at hs' ⊢
    exact h'.contents (h.tidy ht) s hs'⟩
  moves _ _ _ _ _ := of_heap rfl rfl
  stack _ _ := of_heap rfl rfl
  frames _ _ := of_heap rfl rfl
  nativeCalls _ _ := of_heap rfl rfl

instance : Opens Names := ⟨fun _ _ => of_heap rfl rfl⟩

instance : Defines Names := ⟨fun _ _ => of_heap rfl rfl⟩

instance : Prints Names := ⟨fun _ _ => of_heap rfl rfl⟩

instance : Records Names := ⟨fun _ e => ⟨rfl, fun ht => ht.record e, fun _ _ hs =>
  (Heap.hasContents_congr (Heap.cell?_record _ _ _)).trans hs⟩⟩

instance (kind : ObjectKind) : Makes Names kind :=
  ⟨fun m o _ _ => .of_allocates fun ht => Heap.alloc_allocates ht (.mk fun _ => m.roots) o⟩

instance : Interns Names where
  intern m s := by
    by_cases ht : m.heap.Tidy
    · rcases Heap.intern_spec ht (.mk fun _ => m.roots) s with ⟨-, heq⟩ | ⟨-, ha, -⟩
      · rw [heq]
        exact of_heap rfl rfl
      · exact .of_allocates fun _ => ha
    · exact ⟨rfl, fun ht' => absurd ht' ht, fun ht' => absurd ht' ht⟩

/-- A string is not changed. -/
instance (kind : ObjectKind) : Alters Names kind where
  change {m x cell} o _ hcell hkind hmutable := by
    refine ⟨rfl, fun ht => ht.replace hcell o, fun _ s hs => (Heap.hasContents_congr ?_).trans hs⟩
    refine (Heap.cell?_replace hcell o _).trans (if_neg ?_)
    rintro rfl
    obtain ⟨text, bytes, hcell', -⟩ := (Heap.hasContents_iff _ _ _).1 hs
    cases hcell'.symm.trans hcell
    rw [← hkind] at hmutable
    cases hmutable

end Machine.Names

namespace Run

open Machine

/-- **Every instruction** keeps the name of initializers. -/
theorem perform_names (op : Opcode) : Along Names (perform op) := by
  unfold perform
  cases op <;> infer_instance

instance : Along Names execute := by
  have := perform_names
  unfold execute
  infer_instance

end Run

end LoxMachine

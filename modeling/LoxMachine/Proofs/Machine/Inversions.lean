import LoxMachine.Proofs.Machine.Discipline
import LoxMachine.Proofs.Machine.Retained

/-!
# What instructions have done

What follows from an instruction having come to its end. The operand bytes are given.

* `push_inv`, `pop_inv`, `peek_inv`, `requireKind_inv`, `update_inv`: the actions that instructions are made of.
* `getLocal_inv`, `getGlobal_inv`, `getUpvalue_inv`: the value of a variable has been pushed.
* `makeClass_inv`, `defineGlobal_inv`, `inherit_inv`, `makeClosure_inv`, `method_inv`: the instructions of class
  declarations.
-/

namespace LoxMachine

/-- The value of a captured variable. -/
inductive Machine.Yields (m : Machine) : Upvalue → Value → Prop
  | stacked {p : Nat} {v : Value} (h : m.stack[p]? = some v) : Yields m (.stacked p) v
  | closed (v : Value) : Yields m (.closed v) v

namespace Run

variable {m m' m₁ : Machine} {v : Value} {x : Handle} {b : UInt8} {f : Frame} {rest : List Frame} {name : String}

/-! ## Actions -/

theorem push_inv (h : push v m = .ok () m') : m' = { m with stack := m.stack.push v } := by
  rw [Cellular.push_eq] at h
  split at h
  · cases h
  · cases h
    rfl

theorem pop_inv (h : pop m = .ok v m') : m.stack.back? = some v ∧ m' = { m with stack := m.stack.pop } := by
  rw [Cellular.pop_eq] at h
  split at h
  · rename_i w hw
    cases h
    exact ⟨hw, rfl⟩
  · cases h

theorem slot_inv {i : Nat} (h : slot i m = .ok v m') : m.stack[i]? = some v ∧ m' = m := by
  rw [Cellular.slot_eq] at h
  split at h
  · rename_i w hw
    cases h
    exact ⟨hw, rfl⟩
  · cases h

theorem peek_inv {d : Nat} (h : peek d m = .ok v m') :
    d < m.stack.size ∧ m.stack[m.stack.size - 1 - d]? = some v ∧ m' = m := by
  unfold peek below at h
  obtain ⟨i, m₁, hi, hslot⟩ := bind_ok h
  rw [get_bind] at hi
  split at hi
  · rename_i hlt
    cases hi
    exact ⟨hlt, slot_inv hslot⟩
  · cases hi

theorem asKind_inv {kind : ObjectKind} {y : Option Handle} (h : asKind kind v m = .ok y m') :
    (∀ x, y = some x → v = .obj x ∧ m.heap.kind? x = some kind) ∧ m' = m := by
  obtain ⟨hask, rfl⟩ := look_inv h
  refine ⟨?_, rfl⟩
  rintro x rfl
  cases v with
  | obj z =>
    obtain ⟨o, ho, hok⟩ := Except.inv_bind hask
    unfold Heap.object at ho
    split at ho
    · rename_i cell hcell
      cases ho
      split at hok
      · rename_i hkind
        cases hok
        exact ⟨rfl, by rw [Heap.kind?_of_cell? hcell, hkind]⟩
      · cases hok
    · cases ho
  | _ => cases hask

theorem requireKind_inv {kind : ObjectKind} {e : RuntimeError} (h : requireKind kind v e m = .ok x m') :
    v = .obj x ∧ m.heap.kind? x = some kind ∧ m' = m := by
  unfold requireKind at h
  obtain ⟨y, m₁, hy, h⟩ := bind_ok h
  obtain ⟨hy, rfl⟩ := asKind_inv hy
  cases y with
  | none => cases h
  | some y =>
    cases h
    exact ⟨(hy _ rfl).1, (hy _ rfl).2, rfl⟩

theorem update_inv {q : Heap → Except Fault Heap} (h : update q m = .ok () m') :
    ∃ heap, q m.heap = .ok heap ∧ m' = { m with heap } := by
  unfold update at h
  split at h
  · rename_i heap hq
    cases h
    exact ⟨heap, hq, rfl⟩
  · cases h

theorem alloc_inv {o : Object} (h : alloc o m = .ok x m') :
    m.heap.alloc (.mk fun _ => m.roots) o = (x, m'.heap) ∧ m' = { m with heap := m'.heap } := by
  cases h
  exact ⟨rfl, rfl⟩

theorem perform_inv {y : Run Unit} {done : Bool} (h : (do y; return false : Run Bool) m = .ok done m') :
    done = false ∧ y m = .ok () m' := by
  obtain ⟨_, m₁, hy, hpure⟩ := bind_ok h
  cases hpure
  exact ⟨rfl, hy⟩

/-- What comes after the operand of an instruction. -/
theorem after_read {α β : Type} {r : Run α} {q : α → Run β} {a : α} {c : β} (hr : r m = .ok a m₁)
    (h : (r >>= q) m = .ok c m') : q a m₁ = .ok c m' := by
  rwa [bind_of_ok hr] at h

theorem key_of_contents {heap : Heap} (h : heap.hasContents name x = true) : heap.key x = .ok ⟨x, heap.hashOf x⟩ := by
  obtain ⟨text, bytes, hcell, -⟩ := (Heap.hasContents_iff _ _ _).1 h
  exact Heap.key_eq ⟨text, bytes, hcell⟩

/-! ## Variables -/

theorem getLocal_inv (hc : m.Consumes [b] m₁) (hf : m₁.frames = f :: rest) (h : getLocal m = .ok () m') :
    ∃ v, m₁.stack[f.base + b.toNat]? = some v ∧ m' = { m₁ with stack := m₁.stack.push v } := by
  unfold getLocal at h
  have h₁ := after_read (readByte_of_consumes hc) h
  have h₂ := after_read (frame_of_frames hf) h₁
  obtain ⟨v, m₂, hslot, hpush⟩ := bind_ok h₂
  obtain ⟨hv, rfl⟩ := slot_inv hslot
  exact ⟨v, hv, push_inv hpush⟩

theorem getGlobal_inv (hc : m.Consumes [b] m₁) (hx : m.HasConstant b (.obj x))
    (hname : m.heap.hasContents name x = true) (h : getGlobal m = .ok () m') :
    ∃ v, m₁.globals.get? ⟨x, m₁.heap.hashOf x⟩ = some v ∧ m' = { m₁ with stack := m₁.stack.push v } := by
  have hname' : m₁.heap.hasContents name x = true := hc.heap_eq ▸ hname
  unfold getGlobal at h
  have h₁ := after_read (readName_of_consumes hc hx hname) h
  rw [look_bind_ok (key_of_contents hname'), get_bind] at h₁
  cases hv : m₁.globals.get? ⟨x, m₁.heap.hashOf x⟩ with
  | some v =>
    rw [hv] at h₁
    exact ⟨v, rfl, push_inv h₁⟩
  | none =>
    rw [hv] at h₁
    obtain ⟨_, _, -, hfail⟩ := bind_ok h₁
    cases hfail

theorem getUpvalue_inv (hc : m.Consumes [b] m₁) (hf : m₁.frames = f :: rest) (h : getUpvalue m = .ok () m') :
    ∃ c u w v, m₁.heap.closure f.closure = .ok c ∧ c.upvalues[b.toNat]? = some u ∧ m₁.heap.upvalue u = .ok w ∧
      m₁.Yields w v ∧ m' = { m₁ with stack := m₁.stack.push v } := by
  unfold getUpvalue at h
  have h₀ := after_read (readByte_of_consumes hc) h
  obtain ⟨u, m₂, hu, h₁⟩ := bind_ok h₀
  obtain ⟨c, hclosure, hget⟩ := frameUpvalue_inv hf hu
  have hsame : m₂ = m₁ := by
    unfold frameUpvalue at hu
    have hu' := after_read (frame_of_frames hf) hu
    rw [look_bind_ok hclosure, hget] at hu'
    cases hu'
    rfl
  rw [hsame] at h₁
  obtain ⟨w, m₃, hlook, h₂⟩ := bind_ok h₁
  obtain ⟨hw, rfl⟩ := look_inv hlook
  cases w with
  | stacked p =>
    obtain ⟨v, m₄, hslot, hpush⟩ := bind_ok h₂
    obtain ⟨hv, rfl⟩ := slot_inv hslot
    exact ⟨c, u, _, v, hclosure, hget, hw, .stacked hv, push_inv hpush⟩
  | closed v => exact ⟨c, u, _, v, hclosure, hget, hw, .closed v, push_inv h₂⟩

theorem defineGlobal_inv (hc : m.Consumes [b] m₁) (hx : m.HasConstant b (.obj x))
    (hname : m.heap.hasContents name x = true) (h : defineGlobal m = .ok () m') :
    ∃ v, m₁.stack.back? = some v ∧
      m' = { m₁ with globals := m₁.globals.insert ⟨x, m₁.heap.hashOf x⟩ v, stack := m₁.stack.pop } := by
  have hname' : m₁.heap.hasContents name x = true := hc.heap_eq ▸ hname
  unfold defineGlobal at h
  have h₀ := after_read (readName_of_consumes hc hx hname) h
  obtain ⟨v, m₂, hpeek, h₁⟩ := bind_ok h₀
  obtain ⟨hv, rfl⟩ := peek_zero_inv hpeek
  rw [look_bind_ok (key_of_contents hname')] at h₁
  obtain ⟨_, m₃, hmodify, h₂⟩ := bind_ok h₁
  cases hmodify
  obtain ⟨w, m₄, hpop, h₃⟩ := bind_ok h₂
  obtain ⟨-, rfl⟩ := pop_inv hpop
  cases h₃
  exact ⟨v, hv, rfl⟩

/-! ## Classes -/

theorem makeClass_inv (hc : m.Consumes [b] m₁) (hx : m.HasConstant b (.obj x))
    (hname : m.heap.hasContents name x = true) (h : makeClass m = .ok () m') :
    ∃ c heap, m₁.heap.alloc (.mk fun _ => m₁.roots) (.cls { name := x }) = (c, heap) ∧
      m' = { m₁ with heap, stack := m₁.stack.push (.obj c) } := by
  unfold makeClass at h
  have h₀ := after_read (readName_of_consumes hc hx hname) h
  obtain ⟨c, m₂, halloc, hpush⟩ := bind_ok h₀
  obtain ⟨halloc, hm₂⟩ := alloc_inv halloc
  refine ⟨c, m₂.heap, halloc, ?_⟩
  rw [push_inv hpush, hm₂]

/-- The class on top of the stack gets the methods of the one below. -/
theorem inherit_inv (h : inherit m = .ok () m') :
    ∃ super sub s c, 1 < m.stack.size ∧ m.stack[m.stack.size - 2]? = some (.obj super) ∧
      m.stack.back? = some (.obj sub) ∧ m.heap.cls super = .ok s ∧ m.heap.cls sub = .ok c ∧
      m' = { m with heap := m.heap.replace sub (.cls { c with methods := s.methods.addAll c.methods }),
                    stack := m.stack.pop } := by
  unfold inherit at h
  obtain ⟨v, m₁, hpeek, h₁⟩ := bind_ok h
  obtain ⟨super, m₂, hsuper, h₂⟩ := bind_ok h₁
  obtain ⟨w, m₃, htop, h₃⟩ := bind_ok h₂
  obtain ⟨sub, m₄, hsub, h₄⟩ := bind_ok h₃
  obtain ⟨_, m₅, hupdate, h₅⟩ := bind_ok h₄
  obtain ⟨_, m₆, hpop, h₆⟩ := bind_ok h₅
  obtain ⟨hlt, hv, rfl⟩ := peek_inv hpeek
  obtain ⟨rfl, -, rfl⟩ := requireKind_inv hsuper
  obtain ⟨hw, rfl⟩ := peek_zero_inv htop
  obtain ⟨rfl, -, rfl⟩ := requireKind_inv hsub
  obtain ⟨heap, hheap, rfl⟩ := update_inv hupdate
  obtain ⟨-, rfl⟩ := pop_inv hpop
  cases h₆
  obtain ⟨s, hs, hheap⟩ := Except.inv_bind hheap
  obtain ⟨c, hc, hheap⟩ := Except.inv_bind hheap
  cases hheap
  exact ⟨super, sub, s, c, hlt, hv, hw, hs, hc, rfl⟩

/-- The class below the closure on top of the stack gets it as a method. -/
theorem method_inv (hc : m.Consumes [b] m₁) (hx : m.HasConstant b (.obj x))
    (hname : m.heap.hasContents name x = true) (h : method m = .ok () m') :
    ∃ f cls c, 1 < m₁.stack.size ∧ m₁.stack.back? = some (.obj f) ∧
      m₁.stack[m₁.stack.size - 2]? = some (.obj cls) ∧ m₁.heap.cls cls = .ok c ∧
      m' = { m₁ with heap := m₁.heap.replace cls
                      (.cls { c with methods := c.methods.insert ⟨x, m₁.heap.hashOf x⟩ (.obj f) }),
                     stack := m₁.stack.pop } := by
  have hname' : m₁.heap.hasContents name x = true := hc.heap_eq ▸ hname
  unfold method at h
  have h₀ := after_read (readName_of_consumes hc hx hname) h
  obtain ⟨v, m₂, hpeek, h₁⟩ := bind_ok h₀
  obtain ⟨w, m₃, hbelow, h₂⟩ := bind_ok h₁
  obtain ⟨cls, m₄, hcls, h₃⟩ := bind_ok h₂
  obtain ⟨f, m₅, hclosure, h₄⟩ := bind_ok h₃
  obtain ⟨hv, rfl⟩ := peek_zero_inv hpeek
  obtain ⟨hlt, hw, rfl⟩ := peek_inv hbelow
  obtain ⟨rfl, -, rfl⟩ := requireKind_inv hcls
  obtain ⟨rfl, -, rfl⟩ := requireKind_inv hclosure
  rw [look_bind_ok (key_of_contents hname')] at h₄
  obtain ⟨_, m₆, hupdate, h₅⟩ := bind_ok h₄
  obtain ⟨_, m₇, hpop, h₆⟩ := bind_ok h₅
  obtain ⟨heap, hheap, rfl⟩ := update_inv hupdate
  obtain ⟨-, rfl⟩ := pop_inv hpop
  cases h₆
  obtain ⟨c, hcell, hheap⟩ := Except.inv_bind hheap
  cases hheap
  exact ⟨f, cls, c, hlt, hv, hw, hcell, rfl⟩

/-! ## Closures -/

end Run

theorem Machine.roots_moved {m : Machine} {f : Frame} {rest : List Frame} (hf : m.frames = f :: rest) (ip : Nat) :
    { m with frames := { f with ip } :: rest }.roots = m.roots := by
  simp [roots, handles, hf]

namespace Machine

/-- Where a closure has a captured variable from, by the two bytes for it. `c` is the running closure. -/
def Obtains (m : Machine) (c : Closure) (base : Nat) (pair : UInt8 × UInt8) (u : Handle) : Prop :=
  pair.1 ≠ 0 ∧ m.heap.OnStack u (base + pair.2.toNat) ∨ pair.1 = 0 ∧ c.upvalues[pair.2.toNat]? = some u

/-- What capturing variables does: it makes captured variables only, and leaves those on the stack where they
are. -/
structure Gathers (m m' : Machine) : Prop where
  orderly : m'.Orderly True
  heap : m.heap.Retains (fun _ k => k ≠ .upvalue) (fun _ => True) m'.heap
  stack : m'.stack = m.stack
  globals : m'.globals = m.globals
  opened : ∀ u ∈ m.openUpvalues, ∀ p, m.heap.OnStack u p → u ∈ m'.openUpvalues ∧ m'.heap.OnStack u p
  keeps : m.heap.Keeps m.roots m'.heap
  roots : ∀ x ∈ m.roots, x ∈ m'.roots

variable {m m' m'' : Machine} {f : Frame} {rest : List Frame} {c : Closure} {g : Function} {u : Handle}

theorem Gathers.refl (ho : m.Orderly True) : m.Gathers m :=
  ⟨ho, .refl ho.sane.heap.tidy, rfl, rfl, fun _ hu _ hs => ⟨hu, hs⟩, .refl _ _, fun _ => id⟩

theorem Gathers.trans (h : m.Gathers m') (h' : m'.Gathers m'') : m.Gathers m'' :=
  ⟨h'.orderly, h.heap.trans h'.heap, h'.stack.trans h.stack, h'.globals.trans h.globals, fun u hu p hs =>
    let ⟨hu', hs'⟩ := h.opened u hu p hs
    h'.opened u hu' p hs', h.keeps.trans (h'.keeps.mono h.roots), fun x hx => h'.roots x (h.roots x hx)⟩

/-- The running closure and its function are those of before. -/
theorem Gathers.running (h : m.Gathers m') (hc : m.heap.closure f.closure = .ok c)
    (hg : m.heap.function f.function = .ok g) (hf : f ∈ m'.frames) :
    m'.heap.closure f.closure = .ok c ∧ m'.heap.function f.function = .ok g := by
  obtain ⟨c', bytes, hc', hfunction⟩ := h.orderly.sane.frames f hf
  obtain ⟨g', bytes', hg', -⟩ := h.orderly.sane.function hf
  have hc₀ := Heap.closure_of_cell? (h.heap.cells (by simp [Object.kind]) hc')
  have hg₀ := Heap.function_eq_ok_iff.2 ⟨bytes', h.heap.cells (by simp [Object.kind]) hg'⟩
  obtain rfl := Except.ok.inj (hc₀.symm.trans hc)
  obtain rfl := Except.ok.inj (hg₀.symm.trans hg)
  exact ⟨Heap.closure_of_cell? hc', Heap.function_eq_ok_iff.2 ⟨bytes', hg'⟩⟩

end Machine

namespace Run

open Machine

variable {m m' : Machine} {f : Frame} {rest : List Frame} {c : Closure} {g : Function} {u : Handle}

theorem captureUpvalue_gathers {index : Nat} (ho : m.Orderly True) (h : captureUpvalue index m = .ok u m') :
    m.Gathers m' ∧ m'.frames = m.frames ∧ u ∈ m'.openUpvalues ∧ m'.heap.OnStack u index := by
  have horderly := ((captureUpvalue_neat ho index).of_ok h).1
  rcases captureUpvalue_cases ho.sane.heap.tidy ho.ordered index with
    ⟨v, hv, hindex, hrun⟩ | ⟨high, low, v, heap, hsplit, hhigh, hlow, ha, hrun⟩
  · cases hrun.symm.trans h
    exact ⟨.refl ho, rfl, hv, hindex⟩
  · cases hrun.symm.trans h
    have hnew := Heap.alloc_allocates ho.sane.heap.tidy (.mk fun _ => m.roots) (.upvalue (.stacked index))
    rw [ha] at hnew
    refine ⟨⟨horderly, .allocates hnew (by simp [Object.kind]), rfl, rfl, fun x hx p hs => ?_,
      fun x hx => (hnew.kept hx).2, fun x hx => ?_⟩, rfl, List.mem_append_right _ List.mem_cons_self, _, hnew.new⟩
    · rw [hsplit] at hx
      exact ⟨(List.mem_append.1 hx).elim (List.mem_append_left _) fun hx =>
        List.mem_append_right _ (List.mem_cons_of_mem _ hx),
        hs.congr (hnew.kept (.root (List.mem_append_right _ (opened_subset_roots x (hsplit ▸ hx))) hs.contains)).2⟩
    · rw [mem_roots, hsplit] at hx
      refine mem_roots.2 (hx.imp_right (.imp_right (.imp_left fun hx => ?_)))
      exact (List.mem_append.1 hx).elim (List.mem_append_left _) fun hx =>
        List.mem_append_right _ (List.mem_cons_of_mem _ hx)

/-- A byte has been read. -/
theorem readByte_inv {b : UInt8} {m₁ : Machine} (ho : m.Orderly True) (hf : m.frames = f :: rest)
    (hg : m.heap.function f.function = .ok g) (h : readByte m = .ok b m₁) :
    Holds g.chunk.code f.ip [b] ∧ m₁ = { m with frames := { f with ip := f.ip + 1 } :: rest } ∧ m.Gathers m₁ := by
  have horderly := ((readByte_neat ho).of_ok h).1
  obtain ⟨f', rest', hf', ⟨g', hg', hholds⟩, rfl⟩ := readByte_consumes.of_ok h
  cases hf'.symm.trans hf
  cases hg'.symm.trans hg
  refine ⟨hholds, rfl, horderly, .refl ho.sane.heap.tidy, rfl, rfl, fun _ hu _ hs => ⟨hu, hs⟩, .refl _ _, fun x hx => ?_⟩
  rwa [roots_moved hf]

/-- A captured variable of the running closure. -/
theorem frameUpvalue_found {b : UInt8} (h : frameUpvalue b m = .ok u m') (hf : m.frames = f :: rest)
    (hc : m.heap.closure f.closure = .ok c) : c.upvalues[b.toNat]? = some u ∧ m' = m := by
  obtain ⟨c', hc', hget⟩ := frameUpvalue_inv hf h
  cases hc'.symm.trans hc
  refine ⟨hget, ?_⟩
  unfold frameUpvalue at h
  have h₁ := after_read (frame_of_frames hf) h
  rw [look_bind_ok hc, hget] at h₁
  cases h₁
  rfl

/-- **Variables have been captured**, as the bytes say. -/
theorem captures_inv (base count : Nat) {us us' : Array Handle} (ho : m.Orderly True) (hf : m.frames = f :: rest)
    (hg : m.heap.function f.function = .ok g) (hc : m.heap.closure f.closure = .ok c)
    (h : captures base count us m = .ok us' m') : ∃ pairs new, pairs.length = count ∧
      Holds g.chunk.code f.ip (pairs.flatMap fun p => [p.1, p.2]) ∧
      m'.frames = { f with ip := f.ip + 2 * count } :: rest ∧ us'.toList = us.toList ++ new ∧
      List.Forall₂ (m'.Obtains c base) pairs new ∧ m.Gathers m' := by
  induction count generalizing m us f with
  | zero =>
    cases h
    exact ⟨[], [], rfl, fun i hi => absurd hi (Nat.not_lt_zero i), hf, (List.append_nil _).symm, .nil, .refl ho⟩
  | succ count ih =>
    unfold captures at h
    obtain ⟨origin, m₁, hread, h₁⟩ := bind_ok h
    obtain ⟨index, m₂, hread', h₂⟩ := bind_ok h₁
    obtain ⟨hholds, rfl, hgathers⟩ := readByte_inv ho hf hg hread
    obtain ⟨hc₁, hg₁⟩ := hgathers.running (f := { f with ip := f.ip + 1 }) hc hg List.mem_cons_self
    obtain ⟨hholds', rfl, hgathers'⟩ := readByte_inv hgathers.orderly rfl hg₁ hread'
    have hgathers := hgathers.trans hgathers'
    -- where the variable comes from
    obtain ⟨u, m₃, hu, hframes, hgathers', h₃⟩ : ∃ u m₃,
        (origin ≠ 0 ∧ u ∈ m₃.openUpvalues ∧ m₃.heap.OnStack u (base + index.toNat) ∨
          origin = 0 ∧ c.upvalues[index.toNat]? = some u) ∧
        m₃.frames = { f with ip := f.ip + 2 } :: rest ∧ m.Gathers m₃ ∧
        captures base count (us.push u) m₃ = .ok us' m' := by
      by_cases horigin : origin ≠ 0
      · rw [if_pos horigin] at h₂
        obtain ⟨u, m₃, hfound, h₃⟩ := bind_ok h₂
        obtain ⟨hstep, hframes, hmem, hstack⟩ := captureUpvalue_gathers hgathers.orderly hfound
        exact ⟨u, m₃, .inl ⟨horigin, hmem, hstack⟩, hframes, hgathers.trans hstep, h₃⟩
      · rw [if_neg horigin] at h₂
        obtain ⟨u, m₃, hfound, h₃⟩ := bind_ok h₂
        obtain ⟨hget, rfl⟩ := frameUpvalue_found hfound rfl hc
        exact ⟨u, _, .inr ⟨not_ne_iff.1 horigin, hget⟩, rfl, hgathers, h₃⟩
    obtain ⟨hc₃, hg₃⟩ := hgathers'.running (f := { f with ip := f.ip + 2 }) hc hg (hframes ▸ List.mem_cons_self)
    obtain ⟨pairs, new, rfl, hcode, hframes', hus, hobtains, hmore⟩ := ih hgathers'.orderly hframes hg₃ hc₃ h₃
    refine ⟨(origin, index) :: pairs, u :: new, rfl, hholds.concat (hholds'.concat hcode), ?_, ?_, .cons ?_ hobtains,
      hgathers'.trans hmore⟩
    · have hip : f.ip + 2 + 2 * pairs.length = f.ip + 2 * (pairs.length + 1) := by omega
      rw [hframes', ← hip]
    · rw [hus, Array.toList_push, List.append_assoc]
      rfl
    · exact hu.imp (fun hu => ⟨hu.1, (hmore.opened u hu.2.1 _ hu.2.2).2⟩) id

/-- **A closure has been made.** -/
theorem makeClosure_inv {b : UInt8} {m₁ : Machine} {k : Function} {x : Handle} (ho : m.Orderly True)
    (hf : m.frames = f :: rest) (hc : m.heap.closure f.closure = .ok c) (hr : m.Consumes [b] m₁)
    (hx : m.HasConstant b (.obj x)) (hk : m.heap.function x = .ok k) (h : makeClosure m = .ok () m') :
    ∃ y us pairs g, m'.stack = m.stack.push (.obj y) ∧ m'.globals = m.globals ∧
      m'.heap.closure y = .ok { function := x, upvalues := us } ∧ pairs.length = k.upvalueCount ∧
      m.heap.function f.function = .ok g ∧ Holds g.chunk.code (f.ip + 1) (pairs.flatMap fun p => [p.1, p.2]) ∧
      List.Forall₂ (m'.Obtains c f.base) pairs us.toList ∧ (∀ f ∈ m'.frames, f.closure ≠ y) ∧
      m.heap.Keeps m.roots m'.heap ∧ m.heap.Retains (fun z k => k ≠ .upvalue ∧ z ≠ y) (fun _ => True) m'.heap := by
  unfold makeClosure at h
  have hread := readObject_of_consumes hr hx hk
  have horderly := ((readObject_tame ho.sane .function).quiet (fun _ _ h => h.1.sane) ho).of_ok hread
  have h₁ := after_read hread h
  obtain ⟨f', rest', hf', ⟨g, hg, hholds⟩, rfl⟩ := hr
  cases hf'.symm.trans hf
  rw [look_bind_ok (show { m with frames := { f with ip := f.ip + 1 } :: rest }.heap.function x = .ok k from hk)] at h₁
  have h₂ := after_read (frame_of_frames rfl) h₁
  obtain ⟨us, m₂, hcaptures, h₃⟩ := bind_ok h₂
  obtain ⟨pairs, new, hlength, hcode, -, hus, hobtains, hgathers⟩ :=
    captures_inv (f := { f with ip := f.ip + 1 }) f.base _ horderly.2.1 rfl hg hc hcaptures
  obtain ⟨y, m₃, halloc, hpush⟩ := bind_ok h₃
  obtain ⟨halloc, hm₃⟩ := alloc_inv halloc
  have ha := Heap.alloc_allocates hgathers.orderly.sane.heap.tidy (.mk fun _ => m₂.roots)
    (.closure { function := x, upvalues := us })
  rw [halloc] at ha
  have hm' := push_inv hpush
  have hheap : m'.heap = m₃.heap := by rw [hm']
  have hretains : m₂.heap.Retains (fun z k => k ≠ .upvalue ∧ z ≠ y) (fun _ => True) m₃.heap :=
    .allocates ha fun hnot => hnot.2 rfl
  obtain rfl : us.toList = new := by simpa using hus
  refine ⟨y, us, pairs, g, ?_, ?_, ?_, hlength, hg, hcode, ?_, fun f' hf' => ?_, ?_, ?_⟩
  · rw [hm', hm₃]
    change m₂.stack.push _ = m.stack.push _
    rw [hgathers.stack]
  · rw [hm', hm₃]
    exact hgathers.globals
  · rw [hheap]
    exact Heap.closure_of_cell? ha.new
  · have hrefs : ∀ u ∈ us.toList, u ∈ (Object.closure { function := x, upvalues := us }).references :=
      fun u hu => List.mem_cons_of_mem _ hu
    obtain ⟨hlengths, hzip⟩ := List.forall₂_iff_zip.1 hobtains
    refine List.forall₂_iff_zip.2 ⟨hlengths, fun {pair u} hmem => ?_⟩
    have hu := hrefs u (List.of_mem_zip hmem).2
    refine (hzip hmem).imp_left fun hstack => ⟨hstack.1, ?_⟩
    rw [hheap]
    exact hstack.2.congr (ha.kept (.root (List.mem_append_left _ hu) hstack.2.contains)).2
  · have hmem : f' ∈ m₂.frames := by
      rw [hm', hm₃] at hf'
      exact hf'
    exact (ha.kept ((hgathers.orderly.sane.reachable_root (mem_roots.2 (.inr (.inl ⟨f', hmem, rfl⟩)))).mono
      fun _ h => List.mem_append_right _ h)).1
  · rw [hheap]
    have hroots : ∀ x ∈ m.roots, x ∈ m₂.roots := fun x hx => hgathers.roots x (by rwa [roots_moved hf])
    exact (hgathers.keeps.mono fun x hx => by rwa [roots_moved hf]).trans
      fun x hx => (ha.kept (hx.mono fun r hr => List.mem_append_right _ (hroots r hr))).2
  · rw [hheap]
    exact (hgathers.heap.mono (fun _ _ h => h.1) fun _ => id).trans hretains

end Run

end LoxMachine

import LoxMachine.Proofs.Machine.Captures

/-!
# Calls

* `Call.Begins k n count`: a call has just begun, with its callee and `count` arguments on top of
  `n` other values.
* `Machine.Called`: what an instruction that calls comes to. The call has ended at once, as that of
  a native function does, or has begun.
* `call_meets`, `callValue_meets`, `invoke_meets`, …: one lemma for each way to call.
-/

namespace LoxMachine

variable {live : Handle → Prop} {k : Call} {outer : List Call} {marks : Shape} {n count : Nat}
  {m : Machine} {v : Value}

/-- A call has just begun. -/
structure Call.Begins (k : Call) (n count : Nat) : Prop where
  laid : k.Laid
  ip : k.frame.ip = 0
  base : k.frame.base = n
  place : k.layout 0 = some k.shape
  shape : k.shape.length = count + 1
  arity : k.function.arity = count

/-- A value on top of `n` others has been called with `count` arguments: there is a result, or the
call has begun. -/
def Machine.Called (k : Call) (outer : List Call) (marks : Shape) (n count : Nat) (m : Machine) :
    Prop :=
  m.Done k outer marks (n + 1) ∨
    ∃ live k', m.Busy live k' (k :: outer) marks (n + 1 + count) ∧ k'.Begins n count

namespace Run

/-- **A call begins.** There may be no call around it. -/
theorem call_begins {closure : Handle} (h : m.Safe live) (hsize : m.stack.size = n + 1 + count)
    (hc : live closure) (hkind : m.heap.kind? closure = some .closure) (hcount : count < 256) :
    Meets (call closure count) m fun _ m' => ∃ k : Call, k.Begins n count ∧ k.Known m.heap ∧
      m' = { m with frames := k.frame :: m.frames } ∧ m'.Safe live := by
  obtain ⟨c, bytes, hcell⟩ := Heap.closure_of_kind? hkind
  obtain ⟨hcompiled, -, -⟩ := h.heap.proper hc hcell
  cases hcompiled with
  | @intro _ f bytes' entry hcell' _ _ harity hlaid =>
    unfold call
    refine .look_bind (Heap.closure_of_cell? hcell) ?_
    refine .look_bind (Heap.function_eq_ok_iff.2 ⟨bytes', hcell'⟩) ?_
    dsimp only
    refine .ite (fun _ => .fail_bind rfl h) fun hne => .get ?_
    have hcount' : count = f.arity := not_ne_iff.1 hne
    refine .ite (fun _ => .fail_bind rfl h) fun _ => ?_
    have hneeded : wrap (count + 1) = count + 1 :=
      wrap_of_lt ((Nat.succ_lt_succ hcount).trans (by decide))
    rw [hneeded, hsize, if_neg (by omega)]
    obtain ⟨layout, hlays⟩ := hlaid
    obtain ⟨s, hs, hle⟩ := hlays.entry
    refine .modify ⟨⟨{ closure, function := c.function, base := n + 1 + count - (count + 1) }, f,
      f.pool m.heap, layout, s⟩, ⟨⟨entry, hlays⟩, rfl, ?_, hs, ?_, hcount'.symm⟩, ⟨⟨bytes', hcell'⟩, rfl⟩, rfl, ?_⟩
    · change n + 1 + count - (count + 1) = n
      omega
    · rw [← hle.length_eq, harity, hcount']
    · refine ⟨h.heap, h.stack, fun fr hfr => ?_, h.globals, h.initName, h.opened, h.sorted⟩
      rcases List.mem_cons.1 hfr with rfl | hfr
      · exact ⟨hc, c, bytes, hcell, rfl⟩
      · exact h.closures fr hfr

/-- **A closure is called.** -/
theorem call_meets {closure : Handle} (h : m.Busy live k outer marks (n + 1 + count))
    (hc : live closure) (hkind : m.heap.kind? closure = some .closure) (hcount : count < 256) :
    Meets (call closure count) m fun _ m' => m'.Called k outer marks n count := by
  refine (call_begins h.toSafe h.size_eq hc hkind hcount).mono fun _ m' hm' => Or.inr ?_
  obtain ⟨k', hbegins, hknown, rfl, hsafe⟩ := hm'
  refine ⟨live, k', ⟨hsafe, ?_, fun c' hc' => ?_, h.size_eq, h.marked⟩, hbegins⟩
  · rw [h.frames_eq]
    rfl
  · rcases List.mem_cons.1 hc' with rfl | hc'
    · exact hknown
    · exact h.known c' hc'

/-- **A native function is called.** Its result is no object. -/
theorem callNative_meets {x : Handle} (h : m.Busy live k outer marks (n + 1 + count)) (hx : live x)
    {native : Native} {bytes : Nat} (hcell : m.heap.cell? x = some ⟨.native native, bytes⟩) :
    Meets (callNative x count) m fun _ m' => m'.Called k outer marks n count := by
  have hresult := h.heap.proper hx hcell
  unfold callNative
  refine .look_bind (Heap.native_of_cell? hcell) (.get ?_)
  dsimp only
  rw [h.size_eq, if_neg (by omega)]
  refine Meets.bind (Q := fun _ m => m.Busy live k outer marks (n + 1 + count)) (.modify ?_)
    fun _ m₁ h₁ => ?_
  · exact ⟨⟨h.heap, h.stack, h.closures, h.globals, h.initName, h.opened, h.sorted⟩, h.frames_eq,
      h.known, h.size_eq, h.marked⟩
  refine (truncate_meets h₁ (by omega)).bind fun _ m₂ h₂ => ?_
  have hsize : n + 1 + count - count - 1 = n := by omega
  rw [hsize] at h₂
  exact (push_done h₂ (in_of_handle? (hresult _ _))).mono fun _ _ h₃ => Or.inl h₃

/-- **A class is called**, and its initializer if it has one. -/
theorem instantiate_meets {cls : Handle} (h : m.Busy live k outer marks (n + 1 + count))
    (hc : live cls) (hkind : m.heap.kind? cls = some .cls) (hcount : count < 256) :
    Meets (instantiate cls count) m fun _ m' => m'.Called k outer marks n count := by
  unfold instantiate
  have hrefs : ∀ r ∈ (Object.inst { cls }).references, live r := by
    intro r hr
    rcases List.mem_cons.1 hr with rfl | hr
    · exact hc
    · exact absurd hr List.not_mem_nil
  refine (alloc_meets h (.inst { cls }) (by simp [Object.kind]) hrefs fun _ => hkind).bind
    fun target m₁ h₁ => ?_
  obtain ⟨live', h₁, htarget, -, -, hkeeps, hlive⟩ := h₁
  have hcls : live' cls := hlive cls List.mem_cons_self
  have hcell : m₁.heap.cell? cls = m.heap.cell? cls :=
    hkeeps cls (.root List.mem_cons_self (h.heap.contains hc))
  refine (poke_meets h₁ (by omega) fun y hy => ?_).bind fun _ m₂ h₂ => ?_
  · cases hy
    exact htarget
  obtain ⟨h₂, hheap⟩ := h₂
  have hkind₂ : m₂.heap.kind? cls = some .cls := by
    rw [hheap, Heap.kind?_congr hcell]
    exact hkind
  obtain ⟨c, bytes, hcell₂⟩ := Heap.cls_of_kind? hkind₂
  refine .look_bind (Heap.cls_of_cell? hcell₂) (.get ?_)
  obtain ⟨hash, hkey⟩ := Heap.key_of_isString h₂.initName.2
  refine .look_bind hkey ?_
  dsimp only
  -- without an initializer there must be no arguments
  have hnone : Meets (if count ≠ 0 then fail (.arityMismatch 0 count) else pure () : Run Unit) m₂
      fun _ m' => m'.Called k outer marks n count := by
    refine .ite (fun _ => .fail rfl h₂.toSafe) fun hzero => .pure (Or.inl ⟨live', ?_⟩)
    rw [not_ne_iff] at hzero
    rw [hzero] at h₂
    exact h₂
  cases hget : c.methods.get? ⟨m₂.initName, hash⟩ with
  | none => exact hnone
  | some v =>
    have hv := (methods_within h₂.toSafe hcls hcell₂).get? hget
    refine (asKind_meets h₂.toSafe hv .closure).bind fun x m₃ hx => ?_
    obtain ⟨rfl, hx⟩ := hx
    cases x with
    | none => exact hnone
    | some init => exact call_meets h₂ (hx init rfl).2.1 (hx init rfl).2.2 hcount

/-- **Any value is called.** -/
theorem callValue_meets (h : m.Busy live k outer marks (n + 1 + count)) (hv : v.In live)
    (hcount : count < 256) :
    Meets (callValue v count) m fun _ m' => m'.Called k outer marks n count := by
  unfold callValue
  cases v with
  | obj x =>
    have hx : live x := hv x rfl
    obtain ⟨cell, hcell, hrefs, hp⟩ := h.heap.object x hx
    obtain ⟨o, bytes⟩ := cell
    refine .look_bind (Heap.object_of_cell? hcell) ?_
    cases o with
    | bound b =>
      refine (poke_meets h (by omega) fun y hy => hrefs y ?_).bind fun _ m₁ h₁ => ?_
      · exact List.mem_append_left _ (by simp [hy, Value.handle?])
      · refine call_meets h₁.1 (hrefs _ (List.mem_append_right _ List.mem_cons_self)) ?_ hcount
        rw [h₁.2]
        exact hp
    | cls c => exact instantiate_meets h hx (Heap.kind?_of_cell? hcell) hcount
    | closure c => exact call_meets h hx (Heap.kind?_of_cell? hcell) hcount
    | native native => exact callNative_meets h hx hcell
    | _ => exact .fail rfl h.toSafe
  | _ => exact .fail rfl h.toSafe

theorem callInstruction_meets {b : UInt8} (h : m.Busy live k outer marks (n + 1 + b.toNat))
    (hb : k.Reads [b]) :
    Meets callInstruction m fun _ m' => m'.Called (k.skip 1) outer marks n b.toNat := by
  unfold callInstruction
  refine (readByte_meets h hb).bind fun b' m₁ h₁ => ?_
  obtain ⟨rfl, h₁, -⟩ := h₁
  refine (peek_meets h₁ (by omega)).bind fun v m₂ hv => ?_
  obtain ⟨rfl, hv⟩ := hv
  exact callValue_meets h₁ hv b'.toNat_lt

theorem invokeFromClass_meets {cls name : Handle} (h : m.Busy live k outer marks (n + 1 + count))
    (hc : live cls) (hkind : m.heap.kind? cls = some .cls) (hname : m.heap.IsString name)
    (hcount : count < 256) :
    Meets (invokeFromClass cls name count) m fun _ m' => m'.Called k outer marks n count := by
  unfold invokeFromClass
  refine (findMethod_meets h hc hkind hname).bind fun x m₁ hx => ?_
  obtain ⟨rfl, hx, hclosure⟩ := hx
  exact call_meets h hx hclosure hcount

theorem invoke_meets {i b : UInt8} (h : m.Busy live k outer marks (n + 1 + b.toNat))
    (hb : k.Reads [i, b]) (hi : k.pool.constants[i.toNat]? = some .string) :
    Meets invoke m fun _ m' => m'.Called (k.skip 2) outer marks n b.toNat := by
  unfold invoke
  refine (readName_meets h hb hi).bind fun name m₁ hx => ?_
  obtain ⟨-, hstring, h₁⟩ := hx
  refine (readByte_meets h₁ hb.tail).bind fun b' m₂ h₂ => ?_
  obtain ⟨rfl, h₂, halike⟩ := h₂
  have hstring : m₂.heap.IsString name := halike.heap ▸ hstring
  refine (peek_meets h₂ (by omega)).bind fun v m₃ hv => ?_
  obtain ⟨rfl, hv⟩ := hv
  refine (requireKind_meets h₂.toSafe hv .inst rfl).bind fun target m₃ ht => ?_
  obtain ⟨rfl, -, ht, hkind⟩ := ht
  refine (fieldOrClass_meets h₂ ht hkind hstring).bind fun x m₃ hx => ?_
  obtain ⟨rfl, hfield, hcls, hclskind⟩ := hx
  obtain ⟨field, cls⟩ := x
  cases field with
  | some v =>
    refine (poke_meets h₂ (by omega) (hfield v rfl)).bind fun _ m₄ h₄ => ?_
    exact callValue_meets h₄.1 (hfield v rfl) b'.toNat_lt
  | none => exact invokeFromClass_meets h₂ hcls hclskind hstring b'.toNat_lt

theorem superInvoke_meets {i b : UInt8} (h : m.Busy live k outer marks (n + 1 + b.toNat + 1))
    (hb : k.Reads [i, b]) (hi : k.pool.constants[i.toNat]? = some .string) :
    Meets superInvoke m fun _ m' => m'.Called (k.skip 2) outer marks n b.toNat := by
  unfold superInvoke
  refine (readName_meets h hb hi).bind fun name m₁ hx => ?_
  obtain ⟨-, hstring, h₁⟩ := hx
  refine (readByte_meets h₁ hb.tail).bind fun b' m₂ h₂ => ?_
  obtain ⟨rfl, h₂, halike⟩ := h₂
  refine (popClass_meets h₂).bind fun cls m₃ h₃ => ?_
  obtain ⟨hcls, hkind, h₃, hheap⟩ := h₃
  refine invokeFromClass_meets h₃ hcls hkind ?_ b'.toNat_lt
  rw [hheap, halike.heap]
  exact hstring

end Run

end LoxMachine

import LoxMachine.Proofs.Machine.Stack

/-!
# Variables, properties and operators

Each instruction that neither calls nor ends a call does what its opcode says to the height of the
stack, and can fail only with an error of the user.

* `Machine.Done k outer marks n m`: inside of the call `k`, the stack has `n` values.
* `getLocal_meets`, …, `print_meets`: one lemma for each instruction. The operand bytes are those
  that the layout of the code allows.
-/

namespace LoxMachine

variable {live : Handle → Prop} {k : Call} {outer : List Call} {marks : Shape} {n : Nat}
  {m : Machine} {v : Value}

/-- The machine is inside of the call `k`, with `n` values on the stack. -/
def Machine.Done (k : Call) (outer : List Call) (marks : Shape) (n : Nat) (m : Machine) : Prop :=
  ∃ live, m.Busy live k outer marks n

theorem Heap.key_of_isString {heap : Heap} {x : Handle} (hx : heap.IsString x) :
    ∃ hash, heap.key x = .ok ⟨x, hash⟩ := by
  obtain ⟨text, bytes, hc⟩ := hx
  exact ⟨text.hash, by rw [Heap.key, Heap.string_of_cell? hc]; rfl⟩

namespace Run

/-! ## Variables -/

theorem push_done (h : m.Busy live k outer marks n) (hv : v.In live) :
    Meets (push v) m fun _ m' => m'.Done k outer marks (n + 1) :=
  (push_meets h hv).mono fun _ _ hm' => ⟨live, hm'⟩

theorem pop_done (h : m.Busy live k outer marks (n + 1)) :
    Meets (do let _ ← pop) m fun _ m' => m'.Done k outer marks n :=
  (pop_meets h).bind fun _ _ hm' => .pure ⟨live, hm'.2.1⟩

theorem getLocal_meets {b : UInt8} (h : m.Busy live k outer marks n) (hb : k.Reads [b])
    (hslot : k.frame.base + b.toNat < n) :
    Meets getLocal m fun _ m' => m'.Done (k.skip 1) outer marks (n + 1) := by
  unfold getLocal
  refine (readByte_meets h hb).bind fun b' m' hb' => ?_
  obtain ⟨rfl, hm', -⟩ := hb'
  refine (frame_meets hm').bind fun f m'' hf => ?_
  obtain ⟨rfl, rfl⟩ := hf
  refine (slot_meets hm' hslot).bind fun v m'' hv => ?_
  obtain ⟨rfl, hv, -⟩ := hv
  exact push_done hm' hv

theorem setLocal_meets {b : UInt8} (h : m.Busy live k outer marks n) (hb : k.Reads [b])
    (hslot : k.frame.base + b.toNat < n) :
    Meets setLocal m fun _ m' => m'.Done (k.skip 1) outer marks n := by
  unfold setLocal
  refine (readByte_meets h hb).bind fun b' m' hb' => ?_
  obtain ⟨rfl, hm', -⟩ := hb'
  refine (frame_meets hm').bind fun f m'' hf => ?_
  obtain ⟨rfl, rfl⟩ := hf
  refine (peek_meets hm' (Nat.zero_lt_of_lt hslot)).bind fun v m'' hv => ?_
  obtain ⟨rfl, hv⟩ := hv
  exact (setSlot_meets hm' hslot hv).mono fun _ _ hm'' => ⟨live, hm''.1⟩

/-- Other global variables. -/
theorem busy_globals {globals : Table} (h : m.Busy live k outer marks n)
    (hg : globals.Within live) : { m with globals }.Busy live k outer marks n :=
  ⟨⟨h.heap, h.stack, h.closures, hg, h.initName, h.opened, h.sorted⟩, h.frames_eq, h.known,
    h.size_eq, h.marked⟩

/-- An error that names something. -/
theorem fail_contents {α : Type} {x : Handle} {Q : α → Machine → Prop} (hs : m.Safe live)
    (hx : m.heap.IsString x) (e : String → RuntimeError) (he : ∀ s, (e s).isUser = true) :
    Meets (do fail (e (← look (·.contents x))) : Run α) m Q := by
  obtain ⟨s, hcontents⟩ := Heap.contents_of_isString hx
  exact .look_bind hcontents (.fail (he s) hs)

theorem getGlobal_meets {i : UInt8} (h : m.Busy live k outer marks n) (hb : k.Reads [i])
    (hi : k.pool.constants[i.toNat]? = some .string) :
    Meets getGlobal m fun _ m' => m'.Done (k.skip 1) outer marks (n + 1) := by
  unfold getGlobal
  refine (readName_meets h hb hi).bind fun x m' hx => ?_
  obtain ⟨-, hstring, hm'⟩ := hx
  obtain ⟨hash, hkey⟩ := Heap.key_of_isString hstring
  refine .look_bind hkey (.get ?_)
  cases hv : m'.globals.get? ⟨x, hash⟩ with
  | some v => exact push_done hm' (hm'.globals.get? hv)
  | none => exact fail_contents hm'.toSafe hstring _ fun _ => rfl

theorem defineGlobal_meets {i : UInt8} (h : m.Busy live k outer marks (n + 1)) (hb : k.Reads [i])
    (hi : k.pool.constants[i.toNat]? = some .string) :
    Meets defineGlobal m fun _ m' => m'.Done (k.skip 1) outer marks n := by
  unfold defineGlobal
  refine (readName_meets h hb hi).bind fun x m' hx => ?_
  obtain ⟨hx, hstring, hm'⟩ := hx
  refine (peek_meets hm' n.succ_pos).bind fun v m'' hv => ?_
  obtain ⟨rfl, hv⟩ := hv
  obtain ⟨hash, hkey⟩ := Heap.key_of_isString hstring
  refine .look_bind hkey ?_
  have hg : (m''.globals.insert ⟨x, hash⟩ v).Within live := hm'.globals.insert hx hv
  have hbusy := busy_globals hm' hg
  exact Meets.bind (Q := fun _ m => m.Busy live (k.skip 1) outer marks (n + 1)) (.modify hbusy)
    fun _ _ hm => pop_done hm

theorem setGlobal_meets {i : UInt8} (h : m.Busy live k outer marks n) (hn : 0 < n)
    (hb : k.Reads [i]) (hi : k.pool.constants[i.toNat]? = some .string) :
    Meets setGlobal m fun _ m' => m'.Done (k.skip 1) outer marks n := by
  unfold setGlobal
  refine (readName_meets h hb hi).bind fun x m' hx => ?_
  obtain ⟨hx, hstring, hm'⟩ := hx
  obtain ⟨hash, hkey⟩ := Heap.key_of_isString hstring
  refine .look_bind hkey ?_
  refine (peek_meets hm' hn).bind fun v m'' hv => ?_
  obtain ⟨rfl, hv⟩ := hv
  have hg : (m''.globals.set ⟨x, hash⟩ v).2.Within live := hm'.globals.set hx hv
  have hset := busy_globals hm' hg
  refine Meets.bind (Q := fun _ m => m.Busy live (k.skip 1) outer marks n ∧ m.heap.IsString x)
    ⟨hset, hstring⟩ fun isNew m'' hm'' => ?_
  obtain ⟨hm'', hstring⟩ := hm''
  refine .ite (fun _ => ?_) fun _ => .pure ⟨live, hm''⟩
  have hdelete := busy_globals hm'' (hm''.globals.delete ⟨x, hash⟩)
  exact Meets.bind (Q := fun _ m => m.Safe live ∧ m.heap.IsString x)
    (.modify ⟨hdelete.toSafe, hstring⟩) fun _ _ hs => fail_contents hs.1 hs.2 _ fun _ => rfl

/-! ## Captured variables -/

/-- A captured variable that the machine holds on to: it is reachable, and open if it is on the
stack. -/
structure Retains (m : Machine) (u : Handle) : Prop where
  reachable : m.heap.Reachable m.roots u
  kind : m.heap.kind? u = some .upvalue
  opened : ∀ slot, m.heap.OnStack u slot → u ∈ m.openUpvalues

/-- **A captured variable of the running closure.** -/
theorem frameUpvalue_meets {b : UInt8} (h : m.Busy live k outer marks n)
    (hb : b.toNat < k.pool.upvalues) :
    Meets (frameUpvalue b) m fun u m' => m' = m ∧ Retains m u := by
  have hf : k.frame ∈ m.frames := by
    rw [h.frames_eq]
    exact List.mem_cons_self
  obtain ⟨hl, c, bytes, hcell, hfunction⟩ := h.closures _ hf
  obtain ⟨-, hcount, hup⟩ := h.heap.proper hl hcell
  have hlt : b.toNat < c.upvalues.size := by
    obtain ⟨bytes', hcell'⟩ := (h.known k List.mem_cons_self).function
    obtain ⟨f, bytes'', hcell'', hsize⟩ := Heap.constantKind_eq_function_iff.1 hcount
    rw [hfunction, hcell'] at hcell''
    cases hcell''
    rw [← hsize]
    rw [← (h.known k List.mem_cons_self).pool] at hb
    exact hb
  unfold frameUpvalue
  refine (frame_meets h).bind fun f m' hf => ?_
  obtain ⟨rfl, rfl⟩ := hf
  refine .look_bind (Heap.closure_of_cell? hcell) ?_
  have hget : c.upvalues[b.toNat]? = some c.upvalues[b.toNat] := Array.getElem?_eq_getElem hlt
  have hmem : c.upvalues[b.toNat] ∈ c.upvalues := Array.getElem_mem hlt
  rw [hget]
  obtain ⟨hkind, hopen⟩ := hup _ hmem
  have hroot : k.frame.closure ∈ m'.roots := Machine.mem_roots.2 (Or.inr (Or.inl ⟨_, hf, rfl⟩))
  refine .pure ⟨rfl, h.reachable_reference (h.reachable_root hroot) hcell ?_, hkind, hopen⟩
  exact List.mem_cons_of_mem _ (Array.mem_toList_iff.2 hmem)

/-- The slot of an open variable exists. -/
theorem slot_lt (h : m.Busy live k outer marks n) (hn : marks.length ≤ n) {u : Handle} {slot : Nat}
    (hu : u ∈ m.openUpvalues) (hs : m.heap.OnStack u slot) : slot < n := by
  have hmarked := h.marked u hu slot hs
  obtain ⟨hlt, -⟩ := List.getElem?_eq_some_iff.1 hmarked
  rw [List.length_reverse] at hlt
  exact hlt.trans_le hn

theorem getUpvalue_meets {b : UInt8} (h : m.Busy live k outer marks n) (hn : marks.length ≤ n)
    (hb : k.Reads [b]) (hi : b.toNat < k.pool.upvalues) :
    Meets getUpvalue m fun _ m' => m'.Done (k.skip 1) outer marks (n + 1) := by
  unfold getUpvalue
  refine (readByte_meets h hb).bind fun b' m' hb' => ?_
  obtain ⟨rfl, hm', -⟩ := hb'
  refine (frameUpvalue_meets hm' hi).bind fun u m'' hu => ?_
  obtain ⟨rfl, hr⟩ := hu
  obtain ⟨up, bytes, hcell⟩ := Heap.upvalue_of_kind? hr.kind
  refine .look_bind (Heap.upvalue_of_cell? hcell) ?_
  cases up with
  | stacked slot =>
    have hslot : slot < n := slot_lt hm' hn (hr.opened slot ⟨bytes, hcell⟩) ⟨bytes, hcell⟩
    refine (slot_meets hm' hslot).bind fun v m'' hv => ?_
    obtain ⟨rfl, hv, -⟩ := hv
    exact push_done hm' hv
  | closed v =>
    refine push_done hm' fun x hx => hm'.heap.references (hm'.reachable hr.reachable) hcell ?_
    simp [Object.references, hx, Value.handle?]

theorem setUpvalue_meets {b : UInt8} (h : m.Busy live k outer marks n) (hn : marks.length ≤ n)
    (hpos : 0 < n) (hb : k.Reads [b]) (hi : b.toNat < k.pool.upvalues) :
    Meets setUpvalue m fun _ m' => m'.Done (k.skip 1) outer marks n := by
  unfold setUpvalue
  refine (readByte_meets h hb).bind fun b' m' hb' => ?_
  obtain ⟨rfl, hm', -⟩ := hb'
  refine (frameUpvalue_meets hm' hi).bind fun u m'' hu => ?_
  obtain ⟨rfl, hr⟩ := hu
  obtain ⟨up, bytes, hcell⟩ := Heap.upvalue_of_kind? hr.kind
  refine (peek_meets hm' hpos).bind fun v m'' hv => ?_
  obtain ⟨rfl, hv⟩ := hv
  refine .look_bind (Heap.upvalue_of_cell? hcell) ?_
  cases up with
  | stacked slot =>
    have hslot : slot < n := slot_lt hm' hn (hr.opened slot ⟨bytes, hcell⟩) ⟨bytes, hcell⟩
    exact (setSlot_meets hm' hslot hv).mono fun _ _ hm'' => ⟨live, hm''.1⟩
  | closed old =>
    have hset : m''.heap.setUpvalue u (.closed v) =
        .ok (m''.heap.replace u (.upvalue (.closed v))) := by
      rw [Heap.setUpvalue, Heap.upvalue_of_cell? hcell]
      rfl
    refine (update_meets (o := .upvalue (.closed v)) hm' hset
      (hm'.reachable hr.reachable) hcell rfl rfl (fun r hr => ?_) trivial ?_ ?_).mono
      fun _ _ hm'' => ⟨live, hm''⟩
    · exact hv r (by simpa [Object.references] using hr)
    · intro slot hslot
      cases hslot
    · intro slot hslot
      cases hslot

/-! ## Properties -/

/-- **A method of a live class is a live closure.** -/
theorem findMethod_meets {cls name : Handle} (h : m.Busy live k outer marks n) (hc : live cls)
    (hkind : m.heap.kind? cls = some .cls) (hname : m.heap.IsString name) :
    Meets (findMethod cls name) m fun x m' => m' = m ∧ live x ∧
      m.heap.kind? x = some .closure := by
  obtain ⟨c, bytes, hcell⟩ := Heap.cls_of_kind? hkind
  obtain ⟨hash, hkey⟩ := Heap.key_of_isString hname
  have hmethods : c.methods.Within live := Table.within_iff.2 fun x hx =>
    h.heap.references hc hcell (List.mem_cons_of_mem _ hx)
  unfold findMethod
  refine .look_bind (Heap.cls_of_cell? hcell) (.look_bind hkey ?_)
  cases hv : c.methods.get? ⟨name, hash⟩ with
  | none => exact fail_contents h.toSafe hname _ fun _ => rfl
  | some v =>
    obtain ⟨s, hcontents⟩ := Heap.contents_of_isString hname
    refine .look_bind hcontents ((requireKind_meets h.toSafe (hmethods.get? hv) .closure rfl).mono
      fun x m' hx => ⟨hx.1, hx.2.2.1, hx.2.2.2⟩)

theorem bindMethod_meets {cls name : Handle} (h : m.Busy live k outer marks (n + 1))
    (hc : live cls) (hkind : m.heap.kind? cls = some .cls) (hname : m.heap.IsString name) :
    Meets (bindMethod cls name) m fun _ m' => m'.Done k outer marks (n + 1) := by
  unfold bindMethod
  refine (findMethod_meets h hc hkind hname).bind fun method m' hm => ?_
  obtain ⟨rfl, hmethod, hclosure⟩ := hm
  refine (peek_meets h n.succ_pos).bind fun receiver m' hv => ?_
  obtain ⟨rfl, hreceiver⟩ := hv
  have hrefs : ∀ r ∈ (Object.bound { receiver, method }).references, live r := by
    intro r hr
    rcases List.mem_append.1 hr with hr | hr
    · exact hreceiver r (by simpa using hr)
    · rw [List.mem_singleton.1 hr]
      exact hmethod
  refine (alloc_meets h (.bound { receiver, method }) (by simp [Object.kind]) hrefs
    fun _ => hclosure).bind fun x m' hx => ?_
  obtain ⟨live', hm', hx, -⟩ := hx
  refine (pop_meets hm').bind fun _ m'' hm'' => ?_
  refine push_done hm''.2.1 fun y hy => ?_
  cases hy
  exact hx

/-- The field of a live instance is live, and so is the class. -/
theorem fieldOrClass_meets {target name : Handle} (h : m.Busy live k outer marks n)
    (ht : live target) (hkind : m.heap.kind? target = some .inst) (hname : m.heap.IsString name) :
    Meets (fieldOrClass target name) m fun x m' => m' = m ∧ (∀ v, x.1 = some v → v.In live) ∧
      live x.2 ∧ m.heap.kind? x.2 = some .cls := by
  obtain ⟨o, bytes, hcell, hinst⟩ := Heap.cell?_of_kind? hkind
  cases o <;> simp only [Object.kind, reduceCtorEq] at hinst
  rename_i i
  obtain ⟨hash, hkey⟩ := Heap.key_of_isString hname
  have hfields : i.fields.Within live := Table.within_iff.2 fun x hx =>
    h.heap.references ht hcell (List.mem_cons_of_mem _ hx)
  unfold fieldOrClass
  refine .look_bind (Heap.inst_of_cell? hcell) (.look_bind hkey (.pure ⟨rfl, ?_, ?_, ?_⟩))
  · exact fun v hv => hfields.get? hv
  · exact h.heap.references ht hcell List.mem_cons_self
  · exact h.heap.proper ht hcell

theorem getProperty_meets {i : UInt8} (h : m.Busy live k outer marks (n + 1)) (hb : k.Reads [i])
    (hi : k.pool.constants[i.toNat]? = some .string) :
    Meets getProperty m fun _ m' => m'.Done (k.skip 1) outer marks (n + 1) := by
  unfold getProperty
  refine (readName_meets h hb hi).bind fun name m' hx => ?_
  obtain ⟨-, hstring, hm'⟩ := hx
  refine (peek_meets hm' n.succ_pos).bind fun v m'' hv => ?_
  obtain ⟨rfl, hv⟩ := hv
  refine (requireKind_meets hm'.toSafe hv .inst rfl).bind fun target m'' ht => ?_
  obtain ⟨rfl, -, ht, hkind⟩ := ht
  refine (fieldOrClass_meets hm' ht hkind hstring).bind fun x m'' hx => ?_
  obtain ⟨rfl, hfield, hcls, hclskind⟩ := hx
  obtain ⟨field, cls⟩ := x
  cases field with
  | some v => exact (pop_meets hm').bind fun _ m'' hm'' => push_done hm''.2.1 (hfield v rfl)
  | none => exact bindMethod_meets hm' hcls hclskind hstring

theorem setProperty_meets {i : UInt8} (h : m.Busy live k outer marks (n + 2)) (hb : k.Reads [i])
    (hi : k.pool.constants[i.toNat]? = some .string) :
    Meets setProperty m fun _ m' => m'.Done (k.skip 1) outer marks (n + 1) := by
  unfold setProperty
  refine (readName_meets h hb hi).bind fun name m' hx => ?_
  obtain ⟨hname, hstring, hm'⟩ := hx
  refine (peek_meets hm' (by omega)).bind fun v m'' hv => ?_
  obtain ⟨rfl, hv⟩ := hv
  refine (requireKind_meets hm'.toSafe hv .inst rfl).bind fun target m'' ht => ?_
  obtain ⟨rfl, -, ht, hkind⟩ := ht
  obtain ⟨hash, hkey⟩ := Heap.key_of_isString hstring
  refine .look_bind hkey ?_
  refine (peek_meets hm' (by omega)).bind fun v m'' hv => ?_
  obtain ⟨rfl, hv⟩ := hv
  obtain ⟨o, bytes, hcell, hinst⟩ := Heap.cell?_of_kind? hkind
  cases o <;> simp only [Object.kind, reduceCtorEq] at hinst
  rename_i i
  have hset : m''.heap.setField target ⟨name, hash⟩ v =
      .ok (m''.heap.replace target (.inst { i with fields := i.fields.insert ⟨name, hash⟩ v })) := by
    rw [Heap.setField, Heap.inst_of_cell? hcell]
    rfl
  have hfields : i.fields.Within live := Table.within_iff.2 fun x hx =>
    hm'.heap.references ht hcell (List.mem_cons_of_mem _ hx)
  refine (update_meets (o := .inst { i with fields := i.fields.insert ⟨name, hash⟩ v }) hm' hset ht
    hcell rfl rfl (fun r hr => ?_) (hm'.heap.proper ht hcell) (by simp) (by simp)).bind fun _ m'' hm'' => ?_
  · rcases List.mem_cons.1 hr with rfl | hr
    · exact hm'.heap.references ht hcell List.mem_cons_self
    · exact Table.within_iff.1 (hfields.insert hname hv) r hr
  · refine (pop_meets hm'').bind fun v m₁ hv => ?_
    exact (pop_meets hv.2.1).bind fun _ m₂ hm₂ => push_done hm₂.2.1 hv.1

theorem popClass_meets (h : m.Busy live k outer marks (n + 1)) :
    Meets popClass m fun x m' => live x ∧ m'.heap.kind? x = some .cls ∧
      m'.Busy live k outer marks n ∧ m'.heap = m.heap := by
  unfold popClass
  refine (pop_meets h).bind fun v m' hv => ?_
  obtain ⟨hv, hm', hheap⟩ := hv
  refine (requireKind_meets hm'.toSafe hv .cls rfl).mono fun x m'' hx => ?_
  obtain ⟨rfl, -, hx, hkind⟩ := hx
  exact ⟨hx, hkind, hm', hheap⟩

theorem getSuper_meets {i : UInt8} (h : m.Busy live k outer marks (n + 2)) (hb : k.Reads [i])
    (hi : k.pool.constants[i.toNat]? = some .string) :
    Meets getSuper m fun _ m' => m'.Done (k.skip 1) outer marks (n + 1) := by
  unfold getSuper
  refine (readName_meets h hb hi).bind fun name m' hx => ?_
  obtain ⟨-, hstring, hm'⟩ := hx
  refine (popClass_meets hm').bind fun cls m'' hc => ?_
  obtain ⟨hcls, hkind, hm'', hheap⟩ := hc
  exact bindMethod_meets hm'' hcls hkind (hheap ▸ hstring)

/-! ## Operators -/

/-- A value that is no object. -/
theorem in_of_handle? (hv : v.handle? = none) : v.In live := by
  rintro x rfl
  cases hv

theorem equal_meets (h : m.Busy live k outer marks (n + 2)) :
    Meets equal m fun _ m' => m'.Done k outer marks (n + 1) := by
  unfold equal
  refine (pop_meets h).bind fun b m' hb => ?_
  refine (pop_meets hb.2.1).bind fun a m'' ha => ?_
  exact push_done ha.2.1 (in_of_handle? rfl)

theorem popNumbers_meets (h : m.Busy live k outer marks (n + 2)) :
    Meets popNumbers m fun _ m' => m'.Busy live k outer marks n := by
  unfold popNumbers
  refine (peek_meets h (by omega)).bind fun a m' ha => ?_
  obtain ⟨rfl, -⟩ := ha
  refine (peek_meets h (by omega)).bind fun b m' hb => ?_
  obtain ⟨rfl, -⟩ := hb
  split
  · refine (pop_meets h).bind fun _ m' hm' => ?_
    exact (pop_meets hm'.2.1).bind fun _ m'' hm'' => .pure hm''.2.1
  · exact .fail rfl h.toSafe

theorem compare_meets (h : m.Busy live k outer marks (n + 2)) (below : Number → Number → Bool) :
    Meets (compare below) m fun _ m' => m'.Done k outer marks (n + 1) := by
  unfold compare
  exact (popNumbers_meets h).bind fun _ m' hm' => push_done hm' (in_of_handle? rfl)

theorem arithmetic_meets (h : m.Busy live k outer marks (n + 2))
    (op : Number → Number → Number) :
    Meets (arithmetic op) m fun _ m' => m'.Done k outer marks (n + 1) := by
  unfold arithmetic
  exact (popNumbers_meets h).bind fun _ m' hm' => push_done hm' (in_of_handle? rfl)

theorem concatenate_meets {a b : Handle} (h : m.Busy live k outer marks (n + 2))
    (ha : m.heap.IsString a) (hb : m.heap.IsString b) :
    Meets (concatenate a b) m fun _ m' => m'.Done k outer marks (n + 1) := by
  obtain ⟨s, hs⟩ := Heap.contents_of_isString ha
  obtain ⟨t, ht⟩ := Heap.contents_of_isString hb
  unfold concatenate
  refine .look_bind hs (.look_bind ht ?_)
  refine (intern_meets h (s ++ t)).bind fun x m' hx => ?_
  obtain ⟨live', hm', hx⟩ := hx
  refine (pop_meets hm').bind fun _ m₁ hm₁ => ?_
  refine (pop_meets hm₁.2.1).bind fun _ m₂ hm₂ => push_done hm₂.2.1 fun y hy => ?_
  cases hy
  exact hx

theorem isString_of_kind? {heap : Heap} {x : Handle} (hx : heap.kind? x = some .string) :
    heap.IsString x := by
  obtain ⟨o, bytes, hc, hkind⟩ := Heap.cell?_of_kind? hx
  cases o <;> simp only [Object.kind, reduceCtorEq] at hkind
  exact ⟨_, bytes, hc⟩

theorem add_meets (h : m.Busy live k outer marks (n + 2)) :
    Meets add m fun _ m' => m'.Done k outer marks (n + 1) := by
  unfold add
  refine (peek_meets h (by omega)).bind fun b m' hb => ?_
  obtain ⟨rfl, hb⟩ := hb
  refine (peek_meets h (by omega)).bind fun a m' ha => ?_
  obtain ⟨rfl, ha⟩ := ha
  split
  · refine (pop_meets h).bind fun _ m₁ hm₁ => ?_
    exact (pop_meets hm₁.2.1).bind fun _ m₂ hm₂ => push_done hm₂.2.1 (in_of_handle? rfl)
  · refine (asKind_meets h.toSafe ha .string).bind fun s m' hs => ?_
    obtain ⟨rfl, hs⟩ := hs
    refine (asKind_meets h.toSafe hb .string).bind fun t m' ht => ?_
    obtain ⟨rfl, ht⟩ := ht
    split
    · exact concatenate_meets h (isString_of_kind? (hs _ rfl).2.2)
        (isString_of_kind? (ht _ rfl).2.2)
    · exact .fail rfl h.toSafe

theorem not_meets (h : m.Busy live k outer marks (n + 1)) :
    Meets not m fun _ m' => m'.Done k outer marks (n + 1) := by
  unfold not
  exact (pop_meets h).bind fun _ m' hm' => push_done hm'.2.1 (in_of_handle? rfl)

theorem negate_meets (h : m.Busy live k outer marks (n + 1)) :
    Meets negate m fun _ m' => m'.Done k outer marks (n + 1) := by
  unfold negate
  refine (peek_meets h n.succ_pos).bind fun v m' hv => ?_
  obtain ⟨rfl, -⟩ := hv
  split
  · exact (poke_meets h n.succ_pos (in_of_handle? rfl)).mono fun _ m' hm' => ⟨live, hm'.1⟩
  · exact .fail rfl h.toSafe

theorem print_meets (h : m.Busy live k outer marks (n + 1)) :
    Meets print m fun _ m' => m'.Done k outer marks n := by
  unfold print
  refine (pop_meets h).bind fun v m' hv => ?_
  obtain ⟨hv, hm', -⟩ := hv
  obtain ⟨s, hs⟩ := hm'.heap.display hv
  refine .look_bind hs ?_
  refine Meets.bind (Q := fun _ m => m.Busy live k outer marks n) ?_ fun accepted m'' hm'' => ?_
  · exact ⟨⟨hm'.heap, hm'.stack, hm'.closures, hm'.globals, hm'.initName, hm'.opened, hm'.sorted⟩,
      hm'.frames_eq, hm'.known, hm'.size_eq, hm'.marked⟩
  · exact .ite (fun _ => .fail rfl hm''.toSafe) fun _ => .pure ⟨live, hm''⟩

/-! ## Classes -/

theorem makeClass_meets {i : UInt8} (h : m.Busy live k outer marks n) (hb : k.Reads [i])
    (hi : k.pool.constants[i.toNat]? = some .string) :
    Meets makeClass m fun _ m' => m'.Done (k.skip 1) outer marks (n + 1) := by
  unfold makeClass
  refine (readName_meets h hb hi).bind fun name m' hx => ?_
  obtain ⟨hname, hstring, hm'⟩ := hx
  refine (alloc_meets hm' (.cls { name }) (by simp [Object.kind]) (fun r hr => ?_)
    fun _ => hstring).bind fun x m'' hx => ?_
  · rcases List.mem_cons.1 hr with rfl | hr
    · exact hname
    · exact absurd hr List.not_mem_nil
  · obtain ⟨live', hm'', hx, -⟩ := hx
    refine push_done hm'' fun y hy => ?_
    cases hy
    exact hx

/-- A class gets other methods. -/
theorem update_methods {f : Heap → Except Fault Heap} {x : Handle} {c : Class} {bytes : Nat}
    {methods : Table} (h : m.Busy live k outer marks n) (hx : live x)
    (hcell : m.heap.cell? x = some ⟨.cls c, bytes⟩) (hmethods : methods.Within live)
    (hf : f m.heap = .ok (m.heap.replace x (.cls { c with methods }))) :
    Meets (update f) m fun _ m' => m'.Busy live k outer marks n := by
  refine update_meets h hf hx hcell rfl rfl (fun r hr => ?_) (h.heap.proper hx hcell) (by simp)
    (by simp)
  rcases List.mem_cons.1 hr with rfl | hr
  · exact h.heap.references hx hcell List.mem_cons_self
  · exact Table.within_iff.1 hmethods r hr

theorem methods_within (h : m.Safe live) {x : Handle} {c : Class} {bytes : Nat} (hx : live x)
    (hcell : m.heap.cell? x = some ⟨.cls c, bytes⟩) : c.methods.Within live :=
  Table.within_iff.2 fun _ hy => h.heap.references hx hcell (List.mem_cons_of_mem _ hy)

theorem inherit_meets (h : m.Busy live k outer marks (n + 2)) :
    Meets inherit m fun _ m' => m'.Done k outer marks (n + 1) := by
  unfold inherit
  refine (peek_meets h (by omega)).bind fun v m' hv => ?_
  obtain ⟨rfl, hv⟩ := hv
  refine (requireKind_meets h.toSafe hv .cls rfl).bind fun super m' hsuper => ?_
  obtain ⟨rfl, -, hsuper, hsuperkind⟩ := hsuper
  refine (peek_meets h (by omega)).bind fun v m' hv => ?_
  obtain ⟨rfl, hv⟩ := hv
  refine (requireKind_meets h.toSafe hv .cls rfl).bind fun sub m' hsub => ?_
  obtain ⟨rfl, -, hsub, hsubkind⟩ := hsub
  obtain ⟨c, bytes, hcell⟩ := Heap.cls_of_kind? hsuperkind
  obtain ⟨c', bytes', hcell'⟩ := Heap.cls_of_kind? hsubkind
  refine (update_methods h hsub hcell'
    ((methods_within h.toSafe hsuper hcell).addAll (methods_within h.toSafe hsub hcell')) ?_).bind
    fun _ m' hm' => pop_done hm'
  rw [Heap.inheritMethods, Heap.cls_of_cell? hcell, Heap.cls_of_cell? hcell']
  rfl

theorem method_meets {i : UInt8} (h : m.Busy live k outer marks (n + 2)) (hb : k.Reads [i])
    (hi : k.pool.constants[i.toNat]? = some .string) :
    Meets method m fun _ m' => m'.Done (k.skip 1) outer marks (n + 1) := by
  unfold method
  refine (readName_meets h hb hi).bind fun name m' hx => ?_
  obtain ⟨hname, hstring, hm'⟩ := hx
  refine (peek_meets hm' (by omega)).bind fun v m'' hv => ?_
  obtain ⟨rfl, hv⟩ := hv
  refine (peek_meets hm' (by omega)).bind fun w m'' hw => ?_
  obtain ⟨rfl, hw⟩ := hw
  refine (requireKind_meets hm'.toSafe hw .cls rfl).bind fun cls m'' hcls => ?_
  obtain ⟨rfl, -, hcls, hkind⟩ := hcls
  refine (requireKind_meets hm'.toSafe hv .closure rfl).bind fun _ m'' hclosure => ?_
  obtain ⟨rfl, -⟩ := hclosure
  obtain ⟨hash, hkey⟩ := Heap.key_of_isString hstring
  obtain ⟨c, bytes, hcell⟩ := Heap.cls_of_kind? hkind
  have hmethods : (c.methods.insert ⟨name, hash⟩ v).Within live :=
    (methods_within hm'.toSafe hcls hcell).insert hname hv
  refine .look_bind hkey ((update_methods hm' hcls hcell hmethods ?_).bind
    fun _ m' hm' => pop_done hm')
  rw [Heap.setMethod, Heap.cls_of_cell? hcell]
  rfl

/-! ## Control flow -/

theorem jump_meets {high low : UInt8} (h : m.Busy live k outer marks n)
    (hb : k.Reads [high, low]) :
    Meets jump m fun _ m' => m'.Done (k.skip (2 + distance high low)) outer marks n := by
  unfold jump
  refine (readDistance_meets h hb).bind fun d m' hd => ?_
  obtain ⟨rfl, hm'⟩ := hd
  refine (frame_meets hm').bind fun f m'' hf => ?_
  obtain ⟨rfl, rfl⟩ := hf
  refine (jumpTo_meets hm' _).mono fun _ m'' hm'' => ⟨live, ?_⟩
  rw [Call.skip_goto, Call.skip_ip, Nat.add_assoc] at hm''
  exact hm''.1

theorem jumpIfFalse_meets {high low : UInt8} (h : m.Busy live k outer marks n) (hn : 0 < n)
    (hb : k.Reads [high, low]) :
    Meets jumpIfFalse m fun _ m' => m'.Done (k.skip 2) outer marks n ∨
      m'.Done (k.skip (2 + distance high low)) outer marks n := by
  unfold jumpIfFalse
  refine (readDistance_meets h hb).bind fun d m' hd => ?_
  obtain ⟨rfl, hm'⟩ := hd
  refine (peek_meets hm' hn).bind fun v m'' hv => ?_
  obtain ⟨rfl, -⟩ := hv
  refine .ite (fun _ => ?_) fun _ => .pure (Or.inl ⟨live, hm'⟩)
  refine (frame_meets hm').bind fun f m'' hf => ?_
  obtain ⟨rfl, rfl⟩ := hf
  refine (jumpTo_meets hm' _).mono fun _ m'' hm'' => Or.inr ⟨live, ?_⟩
  rw [Call.skip_goto, Call.skip_ip, Nat.add_assoc] at hm''
  exact hm''.1

theorem jumpBack_meets {high low : UInt8} {t : Nat} (h : m.Busy live k outer marks n)
    (hb : k.Reads [high, low]) (ht : t + distance high low = k.frame.ip + 2) :
    Meets jumpBack m fun _ m' => m'.Done (k.goto t) outer marks n := by
  unfold jumpBack
  refine (readDistance_meets h hb).bind fun d m' hd => ?_
  obtain ⟨rfl, hm'⟩ := hd
  refine (frame_meets hm').bind fun f m'' hf => ?_
  obtain ⟨rfl, rfl⟩ := hf
  have hip : (k.skip 2).frame.ip - distance high low = t := by
    rw [Call.skip_ip]
    omega
  dsimp only
  rw [if_pos (by rw [Call.skip_ip]; omega), hip]
  refine (jumpTo_meets hm' t).mono fun _ m'' hm'' => ⟨live, ?_⟩
  rw [Call.skip_goto] at hm''
  exact hm''.1

end Run

end LoxMachine

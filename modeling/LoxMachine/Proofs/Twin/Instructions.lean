import LoxMachine.Machine.Instructions
import LoxMachine.Proofs.Twin.Machines

/-!
# Instructions of machines that differ in their handles

* `Blind x`: the action `x` does the same in twin states. Whether it ends or fails, the states are
  twin again, perhaps under another pairing.
* There is one lemma for each instruction on variables and properties, operator, jump and call, along
  its text. A new object refers to what it was made from, so `instantiate_agree` finds the class
  again.
-/

namespace LoxMachine

namespace Run

variable {R S : Pairing} {m m' : Machine} {v w : Value} {x y name name' cls cls' : Handle}

/-- The results are the same and the states are twin. -/
def Together {α : Type} (a b : α) (m m' : Machine) : Prop := a = b ∧ ∃ R, m.Twin R m'

/-- The action does the same in twin states. -/
def Blind {α : Type} (x : Run α) : Prop :=
  ∀ (R : Pairing) (m m' : Machine), m.Twin R m' → Agree x x m m' Together

theorem Agree.together {x y : Run Unit} (h : Agree x y m m' fun _ _ n n' => n.Twin R n') :
    Agree x y m m' Together := h.mono fun _ _ _ _ hn => ⟨rfl, R, hn⟩

/-! ## Variables -/

theorem getLocal_blind : Blind getLocal := by
  intro R m m' h
  unfold getLocal
  refine (readByte_agree h).bind fun i j n n' hi => ?_
  obtain ⟨rfl, hn, -⟩ := hi
  refine (frame_agree hn).bind fun f f' k k' hf => ?_
  obtain ⟨hf, -, -, rfl, rfl⟩ := hf
  rw [hf.base]
  exact (slot_agree hn _).bind fun v w l l' hv => (push_agree hv.2 hv.1).together

theorem setLocal_blind : Blind setLocal := by
  intro R m m' h
  unfold setLocal
  refine (readByte_agree h).bind fun i j n n' hi => ?_
  obtain ⟨rfl, hn, -⟩ := hi
  refine (frame_agree hn).bind fun f f' k k' hf => ?_
  obtain ⟨hf, -, -, rfl, rfl⟩ := hf
  rw [hf.base]
  refine (peek_agree hn 0).bind fun v w l l' hv => ?_
  exact (setSlot_agree hv.2 _ hv.1).together

/-- The error that names something. -/
theorem fail_name_agree {α : Type} {Q : α → α → Machine → Machine → Prop} (h : m.Twin R m')
    (hname : R name name') (e : String → RuntimeError) :
    Agree (do fail (e (← look (·.contents name))) : Run α)
      (do fail (e (← look (·.contents name'))) : Run α) m m' Q := by
  refine .look_bind (h.heap.contents hname) fun s s' hs => ?_
  rw [hs]
  exact .fail h _

theorem getGlobal_blind : Blind getGlobal := by
  intro R m m' h
  unfold getGlobal
  refine (readName_agree h).bind fun name name' n n' hname => ?_
  obtain ⟨hname, hn⟩ := hname
  refine .look_bind (hn.heap.key hname) fun key key' hkey => .get ?_
  obtain ⟨hash, rfl, rfl⟩ := hkey
  have hget := hn.globals.get? hn.heap.unique hname hash
  generalize n.globals.get? ⟨name, hash⟩ = r, n'.globals.get? ⟨name', hash⟩ = r' at hget
  cases hget with
  | none => exact fail_name_agree hn hname .undefinedVariable
  | some hv => exact (push_agree hn hv).together

theorem defineGlobal_blind : Blind defineGlobal := by
  intro R m m' h
  unfold defineGlobal
  refine (readName_agree h).bind fun name name' n n' hname => ?_
  obtain ⟨hname, hn⟩ := hname
  refine (peek_agree hn 0).bind fun v w k k' hv => ?_
  obtain ⟨hv, hk⟩ := hv
  refine .look_bind (hk.heap.key hname) fun key key' hkey => ?_
  obtain ⟨hash, rfl, rfl⟩ := hkey
  refine .modify_bind (hk.globals_to (hk.globals.insert hk.heap.unique hname hv)) fun l l' hl => ?_
  exact (pop_agree hl).bind fun _ _ _ _ hm => .pure ⟨rfl, R, hm.2⟩

theorem setGlobal_blind : Blind setGlobal := by
  intro R m m' h
  unfold setGlobal
  refine (readName_agree h).bind fun name name' n n' hname => ?_
  obtain ⟨hname, hn⟩ := hname
  refine .look_bind (hn.heap.key hname) fun key key' hkey => ?_
  obtain ⟨hash, rfl, rfl⟩ := hkey
  refine (peek_agree hn 0).bind fun v w k k' hv => ?_
  obtain ⟨hv, hk⟩ := hv
  refine .bind (Q := fun a b n n' => a = b ∧ n.Twin R n')
    (.modifyGet ((hk.globals.set hk.heap.unique hname hv).imp_right hk.globals_to))
    fun isNew isNew' l l' hl => ?_
  obtain ⟨rfl, hl⟩ := hl
  refine .ite Iff.rfl (fun _ => ?_) fun _ => .pure ⟨rfl, R, hl⟩
  refine .modify_bind (hl.globals_to (hl.globals.delete hl.heap.unique hname)) fun p p' hp => ?_
  exact fail_name_agree hp hname .undefinedVariable

/-- A captured variable of the running closure, which refers to it. -/
theorem frameUpvalue_agree (h : m.Twin R m') (index : UInt8) :
    Agree (frameUpvalue index) (frameUpvalue index) m m' fun x y n n' =>
      Held R m m' x y ∧ n = m ∧ n' = m' := by
  unfold frameUpvalue
  refine (frame_agree h).bind fun f f' n n' hf => ?_
  obtain ⟨hf, hmem, hmem', rfl, rfl⟩ := hf
  have hroot : f.closure ∈ n.roots := Machine.mem_roots.2 (Or.inr (Or.inl ⟨f, hmem, rfl⟩))
  have hroot' : f'.closure ∈ n'.roots := Machine.mem_roots.2 (Or.inr (Or.inl ⟨f', hmem', rfl⟩))
  obtain ⟨c, bytes, hc, -⟩ := hf.function
  obtain ⟨c', bytes', hc', -⟩ := hf.function'
  have hread := h.heap.closure hf.closure
  rw [Heap.closure_of_cell? hc, Heap.closure_of_cell? hc'] at hread
  refine .look_bind (A := fun d d' => (d = c ∧ d' = c') ∧ Paired R c.upvalues c'.upvalues) ?_
    fun d d' hd => ?_
  · rw [Heap.closure_of_cell? hc, Heap.closure_of_cell? hc']
    cases hread with
    | ok hcc => exact .ok ⟨⟨rfl, rfl⟩, hcc.2⟩
  obtain ⟨⟨rfl, rfl⟩, hu⟩ := hd
  rcases hu.getElem? index.toNat with ⟨hx, hy⟩ | ⟨x, y, hx, hy, hxy⟩
  · rw [hx, hy]
    exact .fail h _
  · rw [hx, hy]
    refine .pure ⟨⟨hxy, ?_, ?_⟩, rfl, rfl⟩
    · exact .reference (.root hroot (Heap.contains_of_cell? hc)) hc
        (List.mem_cons_of_mem _ (Array.mem_toList_iff.2 (Array.mem_of_getElem? hx)))
        (h.heap.contains hxy)
    · exact .reference (.root hroot' (Heap.contains_of_cell? hc')) hc'
        (List.mem_cons_of_mem _ (Array.mem_toList_iff.2 (Array.mem_of_getElem? hy)))
        (h.heap.contains' hxy)

theorem getUpvalue_blind : Blind getUpvalue := by
  intro R m m' h
  unfold getUpvalue
  refine (readByte_agree h).bind fun i j n n' hi => ?_
  obtain ⟨rfl, hn, -⟩ := hi
  refine (frameUpvalue_agree hn i).bind fun x y k k' hxy => ?_
  obtain ⟨hxy, rfl, rfl⟩ := hxy
  refine .look_bind (hn.heap.upvalue hxy.pair) fun u u' hu => ?_
  cases hu with
  | stacked index =>
    exact (slot_agree hn index).bind fun v w l l' hv => (push_agree hv.2 hv.1).together
  | closed hv => exact (push_agree hn hv).together

/-- Captured variables get another place or value. -/
theorem setUpvalue_heap_agree {u u' : Upvalue} (h : m.Twin R m') (hxy : R x y) (hu : u.Twin R u') :
    Agree (update (·.setUpvalue x u)) (update (·.setUpvalue y u')) m m' fun _ _ n n' =>
      n.Twin R n' := by
  refine .update ((h.heap.upvalue hxy).answers.bind fun a b hab => .ok ?_)
  obtain ⟨bytes, hc⟩ := Heap.upvalue_eq_ok_iff.1 hab.2.1
  exact h.replace hxy (.upvalue hu) rfl (Heap.kind?_of_cell? hc)

theorem setUpvalue_blind : Blind setUpvalue := by
  intro R m m' h
  unfold setUpvalue
  refine (readByte_agree h).bind fun i j n n' hi => ?_
  obtain ⟨rfl, hn, -⟩ := hi
  refine (frameUpvalue_agree hn i).bind fun x y k k' hxy => ?_
  obtain ⟨hxy, rfl, rfl⟩ := hxy
  refine (peek_agree hn 0).bind fun v w l l' hv => ?_
  obtain ⟨hv, hl⟩ := hv
  refine .look_bind (hl.heap.upvalue hxy.pair) fun u u' hu => ?_
  cases hu with
  | stacked index => exact (setSlot_agree hl index hv).together
  | closed _ =>
    exact (setUpvalue_heap_agree hl hxy.pair (.closed hv)).together

/-! ## Properties -/

theorem findMethod_agree (h : m.Twin R m') (hcls : R cls cls') (hname : R name name') :
    Agree (findMethod cls name) (findMethod cls' name') m m' fun x y n n' =>
      R x y ∧ n.Twin R n' := by
  unfold findMethod
  refine .look_bind (h.heap.cls hcls) fun c c' hc => ?_
  refine .look_bind (h.heap.key hname) fun key key' hkey => ?_
  obtain ⟨hash, rfl, rfl⟩ := hkey
  have hget := hc.2.get? h.heap.unique hname hash
  generalize c.methods.get? ⟨name, hash⟩ = r, c'.methods.get? ⟨name', hash⟩ = r' at hget
  cases hget with
  | none => exact fail_name_agree h hname .undefinedProperty
  | some hv =>
    refine .look_bind (h.heap.contents hname) fun s s' hs => ?_
    rw [hs]
    refine (requireKind_agree h hv .closure _).mono fun x y n n' hxy => ?_
    obtain ⟨⟨hxy, -⟩, rfl, rfl⟩ := hxy
    exact ⟨hxy, h⟩

theorem bindMethod_agree (h : m.Twin R m') (hcls : R cls cls') (hname : R name name') :
    Agree (bindMethod cls name) (bindMethod cls' name') m m' Together := by
  unfold bindMethod
  refine (findMethod_agree h hcls hname).bind fun x y n n' hxy => ?_
  refine (peek_agree hxy.2 0).bind fun v w k k' hv => ?_
  refine (alloc_agree hv.2 (.bound hv.1 hxy.1) (by simp [Object.kind])).bind fun b b' l l' hl => ?_
  obtain ⟨S, hb, hl, -⟩ := hl
  exact (pop_agree hl).bind fun _ _ _ _ hp => (push_agree hp.2 (.obj hb)).together

theorem fieldOrClass_agree (h : m.Twin R m') (hxy : R x y) (hname : R name name') :
    Agree (fieldOrClass x name) (fieldOrClass y name') m m' fun r r' n n' =>
      (Option.Rel (Value.Twin R) r.1 r'.1 ∧ R r.2 r'.2) ∧ n.Twin R n' := by
  unfold fieldOrClass
  refine .look_bind (h.heap.inst hxy) fun i i' hi => ?_
  refine .look_bind (h.heap.key hname) fun key key' hkey => ?_
  obtain ⟨hash, rfl, rfl⟩ := hkey
  exact .pure ⟨⟨hi.2.get? h.heap.unique hname hash, hi.1⟩, h⟩

theorem getProperty_blind : Blind getProperty := by
  intro R m m' h
  unfold getProperty
  refine (readName_agree h).bind fun name name' n n' hname => ?_
  obtain ⟨hname, hn⟩ := hname
  refine (peek_agree hn 0).bind fun v w k k' hv => ?_
  refine (requireKind_agree hv.2 hv.1 .inst _).bind fun x y l l' hxy => ?_
  obtain ⟨⟨hxy, -⟩, rfl, rfl⟩ := hxy
  refine (fieldOrClass_agree hv.2 hxy hname).bind fun r r' p p' hr => ?_
  obtain ⟨field, cls⟩ := r
  obtain ⟨field', cls'⟩ := r'
  obtain ⟨⟨hfield, hcls⟩, hp⟩ := hr
  cases hfield with
  | none => exact bindMethod_agree hp hcls hname
  | some hw => exact (pop_agree hp).bind fun _ _ _ _ hq => (push_agree hq.2 hw).together

theorem setProperty_blind : Blind setProperty := by
  intro R m m' h
  unfold setProperty
  refine (readName_agree h).bind fun name name' n n' hname => ?_
  obtain ⟨hname, hn⟩ := hname
  refine (peek_agree hn 1).bind fun v w k k' hv => ?_
  refine (requireKind_agree hv.2 hv.1 .inst _).bind fun x y l l' hxy => ?_
  obtain ⟨⟨hxy, -⟩, rfl, rfl⟩ := hxy
  refine .look_bind (hv.2.heap.key hname) fun key key' hkey => ?_
  obtain ⟨hash, rfl, rfl⟩ := hkey
  refine (peek_agree hv.2 0).bind fun u u' p p' hu => ?_
  obtain ⟨hu, hp⟩ := hu
  refine .bind (Q := fun _ _ n n' => n.Twin R n') (.update ((hp.heap.inst hxy).answers.bind
    fun i i' hi => .ok ?_)) fun _ _ q q' hq => ?_
  · obtain ⟨⟨hcls, hfields⟩, hi, -⟩ := hi
    obtain ⟨bytes, hc⟩ := Heap.inst_eq_ok_iff.1 hi
    exact hp.replace hxy (.inst hcls (hfields.insert hp.heap.unique hname hu)) rfl
      (Heap.kind?_of_cell? hc)
  · refine (pop_agree hq).bind fun _ _ _ _ ht => (pop_agree ht.2).bind fun _ _ _ _ hs => ?_
    exact (push_agree hs.2 ht.1).together

theorem popClass_agree (h : m.Twin R m') : Agree popClass popClass m m' fun x y n n' =>
    R x y ∧ n.Twin R n' := by
  unfold popClass
  refine (pop_agree h).bind fun v w n n' hv => ?_
  refine (requireKind_agree hv.2 hv.1 .cls _).mono fun x y k k' hxy => ?_
  obtain ⟨⟨hxy, -⟩, rfl, rfl⟩ := hxy
  exact ⟨hxy, hv.2⟩

theorem getSuper_blind : Blind getSuper := by
  intro R m m' h
  unfold getSuper
  refine (readName_agree h).bind fun name name' n n' hname => ?_
  exact (popClass_agree hname.2).bind fun cls cls' k k' hcls =>
    bindMethod_agree hcls.2 hcls.1 hname.1

/-! ## Operators -/

theorem equal_blind : Blind equal := by
  intro R m m' h
  unfold equal
  refine (pop_agree h).bind fun b b' n n' hb => (pop_agree hb.2).bind fun a a' k k' ha => ?_
  rw [ha.1.equals h.heap.unique hb.1]
  exact (push_agree ha.2 (.bool _)).together

theorem popNumbers_agree (h : m.Twin R m') : Agree popNumbers popNumbers m m' fun a b n n' =>
    a = b ∧ n.Twin R n' := by
  unfold popNumbers
  refine (peek_agree h 1).bind fun a a' n n' ha => (peek_agree ha.2 0).bind fun b b' k k' hb => ?_
  cases ha.1 with
  | number p =>
    cases hb.1 with
    | number q =>
      exact (pop_agree hb.2).bind fun _ _ _ _ hp => (pop_agree hp.2).bind fun _ _ _ _ hq =>
        .pure ⟨rfl, hq.2⟩
    | _ => exact .fail hb.2 _
  | _ => exact .fail hb.2 _

theorem compare_blind (below : Number → Number → Bool) : Blind (compare below) := by
  intro R m m' h
  unfold compare
  refine (popNumbers_agree h).bind fun p q n n' hp => ?_
  obtain ⟨rfl, hn⟩ := hp
  exact (push_agree hn (.bool _)).together

theorem arithmetic_blind (op : Number → Number → Number) : Blind (arithmetic op) := by
  intro R m m' h
  unfold arithmetic
  refine (popNumbers_agree h).bind fun p q n n' hp => ?_
  obtain ⟨rfl, hn⟩ := hp
  exact (push_agree hn (.number _)).together

theorem concatenate_agree {a a' b b' : Handle} (h : m.Twin R m') (ha : R a a') (hb : R b b') :
    Agree (concatenate a b) (concatenate a' b') m m' Together := by
  unfold concatenate
  refine .look_bind (h.heap.contents ha) fun s s' hs => ?_
  refine .look_bind (h.heap.contents hb) fun t t' ht => ?_
  rw [hs, ht]
  refine (intern_agree h _).bind fun x y n n' hxy => ?_
  obtain ⟨S, hxy, hn⟩ := hxy
  refine (pop_agree hn).bind fun _ _ _ _ hp => (pop_agree hp.2).bind fun _ _ _ _ hq => ?_
  exact (push_agree hq.2 (.obj hxy)).together

/-- Operands that are not both numbers. -/
theorem join_agree {a a' b b' : Value} (h : m.Twin R m') (ha : a.Twin R a') (hb : b.Twin R b') :
    Agree (do
      let s ← asKind .string a
      let t ← asKind .string b
      match s, t with
      | some s, some t => concatenate s t
      | _, _ => fail .operandsNotNumbersOrStrings : Run Unit) (do
      let s ← asKind .string a'
      let t ← asKind .string b'
      match s, t with
      | some s, some t => concatenate s t
      | _, _ => fail .operandsNotNumbersOrStrings : Run Unit) m m' Together := by
  refine (asKind_agree h ha .string).bind fun s s' n n' hs => ?_
  refine (asKind_agree hs.2 hb .string).bind fun t t' k k' ht => ?_
  cases hs.1 with
  | none => exact .fail ht.2 _
  | some hs' =>
    cases ht.1 with
    | none => exact .fail ht.2 _
    | some ht' => exact concatenate_agree ht.2 hs'.1 ht'.1

theorem add_blind : Blind add := by
  intro R m m' h
  unfold add
  refine (peek_agree h 0).bind fun b b' n n' hb => (peek_agree hb.2 1).bind fun a a' k k' ha => ?_
  obtain ⟨hb, -⟩ := hb
  obtain ⟨ha, hk⟩ := ha
  have hjoin := join_agree hk ha hb
  cases ha with
  | number p =>
    cases hb with
    | number q =>
      refine (pop_agree hk).bind fun _ _ _ _ hp => (pop_agree hp.2).bind fun _ _ _ _ hq => ?_
      exact (push_agree hq.2 (.number _)).together
    | _ => exact hjoin
  | _ => exact hjoin

theorem not_blind : Blind Run.not := by
  intro R m m' h
  unfold Run.not
  refine (pop_agree h).bind fun v w n n' hv => ?_
  rw [hv.1.isFalsey]
  exact (push_agree hv.2 (.bool _)).together

theorem negate_blind : Blind negate := by
  intro R m m' h
  unfold negate
  refine (peek_agree h 0).bind fun v w n n' hv => ?_
  obtain ⟨hv, hn⟩ := hv
  cases hv with
  | number p => exact (poke_agree hn 0 (.number _)).together
  | _ => exact .fail hn _

/-- **The same text is printed.** -/
theorem print_blind : Blind print := by
  intro R m m' h
  unfold print
  refine (pop_agree h).bind fun v w n n' hv => ?_
  obtain ⟨hv, hn⟩ := hv
  refine .look_bind (hn.heap.display hv) fun text text' htext => ?_
  subst htext
  refine .bind (Q := fun a b n n' => a = b ∧ n.Twin R n') (.modifyGet ?_) fun a b k k' hk => ?_
  · dsimp only
    rw [hn.sink]
    exact ⟨rfl, { hn with sink := rfl }⟩
  · obtain ⟨rfl, hk⟩ := hk
    exact .ite Iff.rfl (fun _ => .fail hk _) fun _ => .pure ⟨rfl, R, hk⟩

/-! ## Control flow -/

/-- Going on at another offset, which depends on the call. -/
theorem jump_from_frame {f : Nat → Nat} (h : m.Twin R m') :
    Agree (do jumpTo (f (← frame).ip)) (do jumpTo (f (← frame).ip)) m m' Together := by
  refine (frame_agree h).bind fun fr fr' k k' hf => ?_
  obtain ⟨hf, -, -, rfl, rfl⟩ := hf
  rw [hf.ip]
  exact (jumpTo_agree h _).mono fun _ _ _ _ hn => ⟨rfl, R, hn.1⟩

theorem jump_blind : Blind jump := by
  intro R m m' h
  unfold jump
  refine (readDistance_agree h).bind fun d d' n n' hd => ?_
  obtain ⟨rfl, hn⟩ := hd
  exact jump_from_frame (f := (· + d)) hn

theorem jumpIfFalse_blind : Blind jumpIfFalse := by
  intro R m m' h
  unfold jumpIfFalse
  refine (readDistance_agree h).bind fun d d' n n' hd => ?_
  obtain ⟨rfl, hn⟩ := hd
  refine (peek_agree hn 0).bind fun v w k k' hv => ?_
  rw [hv.1.isFalsey]
  exact .ite Iff.rfl (fun _ => jump_from_frame (f := (· + d)) hv.2) fun _ => .pure ⟨rfl, R, hv.2⟩

theorem jumpBack_blind : Blind jumpBack := by
  intro R m m' h
  unfold jumpBack
  refine (readDistance_agree h).bind fun d d' n n' hd => ?_
  obtain ⟨rfl, hn⟩ := hd
  refine (frame_agree hn).bind fun f f' k k' hf => ?_
  obtain ⟨hf, -, -, rfl, rfl⟩ := hf
  dsimp only
  rw [hf.ip]
  refine .ite Iff.rfl (fun _ => ?_) fun _ => .fail hn _
  exact (jumpTo_agree hn _).mono fun _ _ _ _ hn => ⟨rfl, R, hn.1⟩

/-! ## Calls -/

theorem call_agree (h : m.Twin R m') (hxy : R x y) (count : Nat) :
    Agree (call x count) (call y count) m m' Together := by
  unfold call
  refine .look_bind (h.heap.closure hxy).answers fun c c' hc => ?_
  obtain ⟨⟨hfun, -⟩, hc, hc'⟩ := hc
  refine .look_bind (h.heap.function hfun) fun f f' hf => ?_
  obtain ⟨bytes, hcell⟩ := Heap.closure_eq_ok_iff.1 hc
  obtain ⟨bytes', hcell'⟩ := Heap.closure_eq_ok_iff.1 hc'
  dsimp only
  rw [hf.arity]
  refine .ite Iff.rfl (fun _ => .fail_bind h _) fun _ => .get ?_
  rw [h.frames.length_eq, h.stack.size_eq]
  refine .ite Iff.rfl (fun _ => .fail_bind h _) fun _ => ?_
  refine .ite Iff.rfl (fun _ => .fail_bind h _) fun _ => .modify ⟨rfl, R, ?_⟩
  refine h.frames_to (.cons ?_ h.frames)
  exact ⟨hxy, rfl, rfl, ⟨c, bytes, hcell, rfl⟩, ⟨c', bytes', hcell', rfl⟩⟩

/-- The clocks are the same, so the results of a native function are twin. -/
theorem callNative_agree (h : m.Twin R m') (hxy : R x y) (count : Nat) :
    Agree (callNative x count) (callNative y count) m m' Together := by
  unfold callNative
  refine .look_bind (h.heap.native hxy) fun f f' hf => .get ?_
  obtain ⟨rfl, huniform⟩ := hf
  dsimp only
  rw [h.stack.size_eq, h.clock, h.nativeCalls]
  refine .ite Iff.rfl (fun _ => .fail_bind h _) fun _ => ?_
  have hresult := huniform R (m'.clock m'.nativeCalls) _ _
    (h.stack.extract (m'.stack.size - count) m'.stack.size)
  refine .modify_bind { h with nativeCalls := congrArg (· + 1) h.nativeCalls } fun n n' hn => ?_
  exact (truncate_agree hn _).bind fun _ _ _ _ hk => (push_agree hk hresult).together

/-- The class is kept by the new instance. -/
theorem instantiate_agree (h : m.Twin R m') (hcls : R cls cls') (count : Nat) :
    Agree (instantiate cls count) (instantiate cls' count) m m' Together := by
  unfold instantiate
  refine (alloc_agree h (.inst hcls Table.twin_empty) (by simp [Object.kind])).bind
    fun target target' n n' hn => ?_
  obtain ⟨S, htarget, hn, -, -, hcarries⟩ := hn
  have hkept : S cls cls' := hcarries.pairs hcls
    (.root (List.mem_append_left _ List.mem_cons_self) (h.heap.contains hcls))
    (.root (List.mem_append_left _ List.mem_cons_self) (h.heap.contains' hcls))
  refine (poke_agree hn count (.obj htarget)).bind fun _ _ k k' hk => ?_
  refine .look_bind (hk.heap.cls hkept) fun c c' hc => .get ?_
  refine .look_bind (hk.heap.key hk.initName) fun key key' hkey => ?_
  obtain ⟨hash, rfl, rfl⟩ := hkey
  dsimp only
  -- without an initializer there must be no arguments
  have hnone : Agree (if count ≠ 0 then fail (.arityMismatch 0 count) else pure () : Run Unit)
      (if count ≠ 0 then fail (.arityMismatch 0 count) else pure () : Run Unit) k k' Together :=
    .ite Iff.rfl (fun _ => .fail hk _) fun _ => .pure ⟨rfl, S, hk⟩
  have hget := hc.2.get? hk.heap.unique hk.initName hash
  generalize c.methods.get? ⟨k.initName, hash⟩ = r, c'.methods.get? ⟨k'.initName, hash⟩ = r' at hget
  cases hget with
  | none => exact hnone
  | some hv =>
    refine .look_bind (hk.heap.asKind hv .closure) fun init init' hinit => ?_
    cases hinit with
    | none => exact hnone
    | some hinit => exact call_agree hk hinit.1 count

theorem callValue_agree (h : m.Twin R m') (hv : v.Twin R w) (count : Nat) :
    Agree (callValue v count) (callValue w count) m m' Together := by
  unfold callValue
  cases hv with
  | obj hxy =>
    refine .look_bind (h.heap.object hxy) fun o o' ho => ?_
    cases ho with
    | bound hreceiver hmethod =>
      exact (poke_agree h count hreceiver).bind fun _ _ n n' hn => call_agree hn hmethod count
    | cls _ _ => exact instantiate_agree h hxy count
    | closure _ _ => exact call_agree h hxy count
    | native _ => exact callNative_agree h hxy count
    | _ => exact .fail h _
  | _ => exact .fail h _

theorem callInstruction_blind : Blind callInstruction := by
  intro R m m' h
  unfold callInstruction
  refine (readByte_agree h).bind fun count count' n n' hcount => ?_
  obtain ⟨rfl, hn, -⟩ := hcount
  exact (peek_agree hn _).bind fun v w k k' hv => callValue_agree hv.2 hv.1 _

theorem invokeFromClass_agree (h : m.Twin R m') (hcls : R cls cls') (hname : R name name')
    (count : Nat) :
    Agree (invokeFromClass cls name count) (invokeFromClass cls' name' count) m m' Together := by
  unfold invokeFromClass
  exact (findMethod_agree h hcls hname).bind fun x y n n' hxy => call_agree hxy.2 hxy.1 count

theorem invoke_blind : Blind invoke := by
  intro R m m' h
  unfold invoke
  refine (readName_agree h).bind fun name name' n n' hname => ?_
  obtain ⟨hname, hn⟩ := hname
  refine (readByte_agree hn).bind fun count count' k k' hcount => ?_
  obtain ⟨rfl, hk, -⟩ := hcount
  refine (peek_agree hk _).bind fun v w l l' hv => ?_
  refine (requireKind_agree hv.2 hv.1 .inst _).bind fun x y p p' hxy => ?_
  obtain ⟨⟨hxy, -⟩, rfl, rfl⟩ := hxy
  refine (fieldOrClass_agree hv.2 hxy hname).bind fun r r' q q' hr => ?_
  obtain ⟨field, cls⟩ := r
  obtain ⟨field', cls'⟩ := r'
  obtain ⟨⟨hfield, hcls⟩, hq⟩ := hr
  cases hfield with
  | none => exact invokeFromClass_agree hq hcls hname _
  | some hw => exact (poke_agree hq _ hw).bind fun _ _ t t' ht => callValue_agree ht hw _

theorem superInvoke_blind : Blind superInvoke := by
  intro R m m' h
  unfold superInvoke
  refine (readName_agree h).bind fun name name' n n' hname => ?_
  obtain ⟨hname, hn⟩ := hname
  refine (readByte_agree hn).bind fun count count' k k' hcount => ?_
  obtain ⟨rfl, hk, -⟩ := hcount
  exact (popClass_agree hk).bind fun cls cls' l l' hcls =>
    invokeFromClass_agree hcls.2 hcls.1 hname _

end Run

end LoxMachine

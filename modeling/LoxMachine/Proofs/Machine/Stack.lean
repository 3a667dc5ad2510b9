import LoxMachine.Proofs.Machine.State

/-!
# Basic actions of the machine

What the actions that use the stack, the heap and the code do inside of an instruction.

* `push_meets`, `pop_meets`, `peek_meets` and `poke_meets`: the stack has values enough, so only an
  overflow can happen.
* `alloc_meets` and `intern_meets`: a new object is live; other handles may have died.
* `readByte_meets` and the like: the bytes of the instruction are there.
-/

namespace LoxMachine

variable {live : Handle → Prop} {k : Call} {outer : List Call} {marks : Shape} {n : Nat}
  {m : Machine} {v : Value}

namespace Machine

/-- The same heap with the same roots. -/
structure Alike (m m' : Machine) : Prop where
  heap : m'.heap = m.heap
  openUpvalues : m'.openUpvalues = m.openUpvalues
  roots : m'.roots = m.roots

/-- Another stack. -/
theorem Busy.stack_to {n' : Nat} {stack : Array Value} (h : m.Busy live k outer marks n)
    (hlive : ∀ h, .obj h ∈ stack → live h) (hsize : stack.size = n') :
    { m with stack }.Busy live k outer marks n' :=
  ⟨⟨h.heap, hlive, h.closures, h.globals, h.initName, h.opened, h.sorted⟩, h.frames_eq, h.known,
    hsize, h.marked⟩

/-- More slots may be marked. -/
theorem Busy.marks_mono {marks' : Shape} (h : m.Busy live k outer marks n)
    (hle : ∀ slot, marks.slot? slot = some true → marks'.slot? slot = some true) :
    m.Busy live k outer marks' n :=
  ⟨h.toSafe, h.frames_eq, h.known, h.size_eq, fun u hu slot hs => hle slot (h.marked u hu slot hs)⟩

theorem Safe.value_in (hs : m.Safe live) {i : Nat} (hv : m.stack[i]? = some v) : v.In live := by
  rintro h rfl
  exact hs.stack h (Array.mem_of_getElem? hv)

end Machine

namespace Run

/-! ## The stack -/

theorem push_meets (h : m.Busy live k outer marks n) (hv : v.In live) :
    Meets (push v) m fun _ m' => m'.Busy live k outer marks (n + 1) := by
  unfold push
  refine .get (.ite (fun _ => .fail_bind rfl h.toSafe) fun _ => .modify ?_)
  refine h.stack_to (fun x hx => ?_) (by simp [h.size_eq])
  rcases Array.mem_push.1 hx with hx | hx
  · exact h.stack x hx
  · exact hv x hx.symm

theorem exists_slot (h : m.Busy live k outer marks n) {i : Nat} (hi : i < n) :
    ∃ v, m.stack[i]? = some v ∧ v.In live := by
  have hlt : i < m.stack.size := by rw [h.size_eq]; exact hi
  exact ⟨m.stack[i], Array.getElem?_eq_getElem hlt,
    h.value_in (Array.getElem?_eq_getElem hlt)⟩

theorem pop_meets (h : m.Busy live k outer marks (n + 1)) :
    Meets pop m fun v m' => v.In live ∧ m'.Busy live k outer marks n ∧ m'.heap = m.heap := by
  unfold pop
  refine .get ?_
  obtain ⟨v, hv, hlive⟩ := exists_slot h n.lt_succ_self
  have hback : m.stack.back? = some v := by
    rw [Array.back?_eq_getElem?, h.size_eq]
    exact hv
  rw [hback]
  refine Meets.bind (Q := fun _ m' => m'.Busy live k outer marks n ∧ m'.heap = m.heap)
    (.modify ⟨?_, rfl⟩) fun _ m' hm' => .pure ⟨hlive, hm'⟩
  refine h.stack_to (fun x hx => h.stack x ?_) (by simp [h.size_eq])
  rw [← Array.mem_toList_iff, Array.toList_pop] at hx
  exact Array.mem_toList_iff.1 ((List.dropLast_sublist _).subset hx)

theorem slot_meets (h : m.Busy live k outer marks n) {i : Nat} (hi : i < n) :
    Meets (slot i) m fun v m' => m' = m ∧ v.In live ∧ m.stack[i]? = some v := by
  unfold slot
  refine .get ?_
  obtain ⟨v, hv, hlive⟩ := exists_slot h hi
  rw [hv]
  exact .pure ⟨rfl, hlive, rfl⟩

theorem setSlot_meets (h : m.Busy live k outer marks n) {i : Nat} (hi : i < n) (hv : v.In live) :
    Meets (setSlot i v) m fun _ m' => m'.Busy live k outer marks n ∧ m'.heap = m.heap := by
  unfold setSlot
  refine .get (.ite (fun _ => .modify ⟨?_, rfl⟩) fun hn => absurd (h.size_eq ▸ hi) hn)
  refine h.stack_to (fun x hx => ?_) (by simp [h.size_eq])
  obtain ⟨j, hj⟩ := Array.getElem?_of_mem hx
  by_cases hij : i = j
  · subst hij
    rw [getElem?_put_self _ (by rw [h.size_eq]; exact hi)] at hj
    cases hj
    exact hv x rfl
  · rw [getElem?_put_ne _ _ hij] at hj
    exact h.value_in hj x rfl

theorem below_meets (h : m.Busy live k outer marks n) {d : Nat} (hd : d < n) :
    Meets (below d) m fun i m' => m' = m ∧ i = n - 1 - d := by
  unfold below
  refine .get ?_
  dsimp only
  rw [h.size_eq, if_pos hd]
  exact .pure ⟨rfl, rfl⟩

theorem peek_meets (h : m.Busy live k outer marks n) {d : Nat} (hd : d < n) :
    Meets (peek d) m fun v m' => m' = m ∧ v.In live := by
  unfold peek
  refine (below_meets h hd).bind fun i m' hi => ?_
  obtain ⟨rfl, rfl⟩ := hi
  exact (slot_meets h (by omega)).mono fun v m' hv => ⟨hv.1, hv.2.1⟩

theorem poke_meets (h : m.Busy live k outer marks n) {d : Nat} (hd : d < n) (hv : v.In live) :
    Meets (poke d v) m fun _ m' => m'.Busy live k outer marks n ∧ m'.heap = m.heap := by
  unfold poke
  refine (below_meets h hd).bind fun i m' hi => ?_
  obtain ⟨rfl, rfl⟩ := hi
  exact setSlot_meets h (by omega) hv

theorem truncate_meets (h : m.Busy live k outer marks n) {size : Nat} (hle : size ≤ n) :
    Meets (truncate size) m fun _ m' => m'.Busy live k outer marks size := by
  refine .modify (h.stack_to (fun x hx => h.stack x ?_) ?_)
  · rw [← Array.mem_toList_iff, Array.toList_shrink] at hx
    exact Array.mem_toList_iff.1 (List.mem_of_mem_take hx)
  · rw [Array.size_shrink, h.size_eq]
    omega

/-! ## Objects -/

/-- What can be reached is the same in another heap. -/
def Matches (live' : Handle → Prop) (heap : Heap) (m : Machine) : Prop :=
  ∀ x, m.heap.Reachable m.roots x → live' x ∧ heap.cell? x = m.heap.cell? x

theorem matches_joins {h : Handle} {live' : Handle → Prop} {roots : List Handle} {heap : Heap}
    (hs : m.Safe live) (hj : m.heap.Joins live m.openUpvalues roots h live' heap)
    (hroots : ∀ r ∈ m.roots, r ∈ roots) : Matches live' heap m :=
  fun x hx => hj.kept x (hs.reachable hx) (hx.mono hroots)

theorem Matches.onStack {live' : Handle → Prop} {heap : Heap} (h : Matches live' heap m)
    (hs : m.Safe live) {u : Handle} (hu : u ∈ m.openUpvalues) (slot : Nat) :
    heap.OnStack u slot ↔ m.heap.OnStack u slot := by
  have hcell := (h u (hs.reachable_root (Machine.mem_roots.2 (Or.inr (Or.inr (Or.inl hu)))))).2
  exact ⟨fun hs => hs.congr hcell.symm, fun hs => hs.congr hcell⟩

theorem safe_matches {live' : Handle → Prop} {heap : Heap} (hs : m.Safe live)
    (hsound : heap.Sound live' m.openUpvalues) (h : Matches live' heap m) :
    { m with heap }.Safe live' :=
  hs.heap_to hsound (fun x hx => (h x (hs.reachable_root hx)).1)
    (Heap.steady_of_cells fun x hx => (h x hx).2) fun _ hu slot => h.onStack hs hu slot

theorem busy_matches {live' : Handle → Prop} {heap : Heap} (hb : m.Busy live k outer marks n)
    (hsound : heap.Sound live' m.openUpvalues) (h : Matches live' heap m) :
    { m with heap }.Busy live' k outer marks n :=
  hb.heap_to hsound (fun x hx => (h x (hb.reachable_root hx)).1)
    (Heap.steady_of_cells fun x hx => (h x hx).2) fun _ hu slot => h.onStack hb.toSafe hu slot

/-- **A new object is live.** What it refers to is live too; other handles may not be any more. -/
theorem alloc_meets (hb : m.Busy live k outer marks n) (o : Object) (hkind : o.kind ≠ .function)
    (hrefs : ∀ r ∈ o.references, live r) (hp : ∀ h, m.heap.Proper m.openUpvalues h o) :
    Meets (alloc o) m fun h m' => ∃ live', m'.Busy live' k outer marks n ∧ live' h ∧
      m' = { m with heap := m'.heap } ∧ (∃ bytes, m'.heap.cell? h = some ⟨o, bytes⟩) ∧
      m.heap.Keeps (o.references ++ m.roots) m'.heap ∧ ∀ r ∈ o.references, live' r := by
  have ha := Heap.alloc_allocates hb.heap.tidy
    (.mk fun _ => Machine.handles m.stack m.frames m.openUpvalues m.globals m.initName) o
  obtain ⟨live', hj⟩ := hb.heap.joins ha hkind hrefs (hp _)
  have hmatches := matches_joins hb.toSafe hj fun r hr => List.mem_append_right _ hr
  refine ⟨live', busy_matches hb hj.sound hmatches, hj.new, rfl, ⟨_, ha.new⟩, ha.keeps,
    fun r hr => ?_⟩
  exact (hj.kept r (hrefs r hr)
    (.root (List.mem_append_left _ hr) (hb.heap.contains (hrefs r hr)))).1

theorem intern_meets (hb : m.Busy live k outer marks n) (s : String) :
    Meets (intern s) m fun h m' => ∃ live', m'.Busy live' k outer marks n ∧ live' h := by
  obtain ⟨live', hj⟩ := hb.heap.intern
    (.mk fun _ => Machine.handles m.stack m.frames m.openUpvalues m.globals m.initName) s
  exact ⟨live', busy_matches hb hj.sound (matches_joins hb.toSafe hj fun r hr => hr), hj.new⟩

/-- **An object is changed**, which is no captured variable on the stack. -/
theorem update_meets (hb : m.Busy live k outer marks n) {f : Heap → Except Fault Heap} {h : Handle}
    {cell : Cell} {o : Object} (hf : f m.heap = .ok (m.heap.replace h o)) (hl : live h)
    (hcell : m.heap.cell? h = some cell) (hkind : o.kind = cell.object.kind)
    (hmutable : o.kind.isFixed = false) (hrefs : ∀ r ∈ o.references, live r)
    (hp : m.heap.Proper m.openUpvalues h o) (hnew : ∀ slot, o ≠ .upvalue (.stacked slot))
    (hold : ∀ slot, cell.object ≠ .upvalue (.stacked slot)) :
    Meets (update f) m fun _ m' => m'.Busy live k outer marks n := by
  have hbusy : { m with heap := m.heap.replace h o }.Busy live k outer marks n := by
    refine hb.heap_to (hb.heap.replace hl hcell hkind hmutable hrefs hp hnew)
      (fun x hx => hb.roots hx) (Heap.steady_replace _ hcell hkind hmutable) fun u _ slot => ?_
    unfold Heap.OnStack
    rw [Heap.cell?_replace hcell]
    split
    · rename_i huh
      rw [huh, hcell]
      constructor
      · rintro ⟨bytes, hu⟩
        cases hu
        exact absurd rfl (hnew slot)
      · rintro ⟨bytes, hu⟩
        cases hu
        exact absurd rfl (hold slot)
    · exact Iff.rfl
  have hrun : update f m = .ok () { m with heap := m.heap.replace h o } := by
    simp only [update, hf]
  unfold Meets Ends
  rw [hrun]
  exact hbusy

/-! ## Code -/

theorem frame_meets (h : m.Busy live k outer marks n) :
    Meets frame m fun f m' => m' = m ∧ f = k.frame := by
  unfold frame
  refine .get ?_
  rw [h.frames_eq]
  exact .pure ⟨rfl, rfl⟩

/-- The running call goes to another offset. -/
theorem jumpTo_meets (h : m.Busy live k outer marks n) (ip : Nat) :
    Meets (jumpTo ip) m fun _ m' => m'.Busy live (k.goto ip) outer marks n ∧ m.Alike m' := by
  refine .modify ?_
  rw [h.frames_eq]
  refine ⟨⟨⟨h.heap, h.stack, fun f hf => ?_, h.globals, h.initName, h.opened, h.sorted⟩, rfl,
    fun c hc => ?_, h.size_eq, h.marked⟩, rfl, rfl, ?_⟩
  · have hclosures := h.closures
    rw [h.frames_eq] at hclosures
    rcases List.mem_cons.1 hf with rfl | hf
    · exact hclosures k.frame List.mem_cons_self
    · exact hclosures f (List.mem_cons_of_mem _ hf)
  · rcases List.mem_cons.1 hc with rfl | hc
    · have hk := h.known k List.mem_cons_self
      exact ⟨hk.function, hk.pool⟩
    · exact h.known c (List.mem_cons_of_mem _ hc)
  · simp [Machine.roots, Machine.handles, h.frames_eq]

theorem runningChunk_meets (h : m.Busy live k outer marks n) :
    Meets (runningChunk k.frame) m fun c m' => m' = m ∧ c = k.function.chunk := by
  obtain ⟨bytes, hcell⟩ := (h.known k List.mem_cons_self).function
  unfold runningChunk
  exact .look_bind (Heap.function_eq_ok_iff.2 ⟨bytes, hcell⟩) (.pure ⟨rfl, rfl⟩)

/-- **The next byte is read.** -/
theorem readByte_meets {b : UInt8} {bytes : List UInt8} (h : m.Busy live k outer marks n)
    (hb : k.Reads (b :: bytes)) :
    Meets readByte m fun b' m' => b' = b ∧ m'.Busy live (k.skip 1) outer marks n ∧
      m.Alike m' := by
  unfold readByte
  refine (frame_meets h).bind fun f m' hf => ?_
  obtain ⟨rfl, rfl⟩ := hf
  refine (runningChunk_meets h).bind fun c m' hc => ?_
  obtain ⟨rfl, rfl⟩ := hc
  have hread : k.function.chunk.read8 k.frame.ip = .ok b := by simp [Chunk.read8, hb.head]
  rw [hread]
  exact (jumpTo_meets h _).bind fun _ m' hm' => .pure ⟨rfl, hm'⟩

theorem readDistance_meets {high low : UInt8} (h : m.Busy live k outer marks n)
    (hb : k.Reads [high, low]) :
    Meets readDistance m fun d m' => d = distance high low ∧
      m'.Busy live (k.skip 2) outer marks n := by
  unfold readDistance
  refine (frame_meets h).bind fun f m' hf => ?_
  obtain ⟨rfl, rfl⟩ := hf
  refine (runningChunk_meets h).bind fun c m' hc => ?_
  obtain ⟨rfl, rfl⟩ := hc
  have hread : k.function.chunk.read16 k.frame.ip = .ok (distance high low) := by
    have hlow := hb.tail.head
    rw [Call.skip_function, Call.skip_ip] at hlow
    simp [Chunk.read16, Chunk.read8, hb.head, hlow, bind, Except.bind, distance, pure, Except.pure]
  rw [hread]
  exact (jumpTo_meets h _).bind fun _ m' hm' => .pure ⟨rfl, hm'.1⟩

theorem readOpcode_meets {op : Opcode} {bytes : List UInt8} (h : m.Busy live k outer marks n)
    (hb : k.Reads (op.toByte :: bytes)) :
    Meets readOpcode m fun op' m' => op' = op ∧ m'.Busy live (k.skip 1) outer marks n := by
  unfold readOpcode
  refine (readByte_meets h hb).bind fun b m' hb' => ?_
  rw [hb'.1, Opcode.ofByte?_toByte]
  exact .pure ⟨rfl, hb'.2.1⟩

/-! ## Constants -/

/-- A constant of the running function. -/
theorem constant_of_pool (h : m.Busy live k outer marks n) {i : Nat} {c : ConstantKind}
    (hi : k.pool.constants[i]? = some c) :
    ∃ v, k.function.chunk.constants[i]? = some v ∧ m.heap.constantKind v = c ∧ v.In live := by
  have hk := h.known k List.mem_cons_self
  rw [← hk.pool, Function.pool, List.getElem?_map, Option.map_eq_some_iff] at hi
  obtain ⟨v, hv, hkind⟩ := hi
  have hv' : k.function.chunk.constants[i]? = some v := by
    rw [← Array.getElem?_toList]
    exact hv
  refine ⟨v, hv', hkind, ?_⟩
  rintro x rfl
  obtain ⟨bytes, hcell⟩ := hk.function
  exact h.heap.references (h.function List.mem_cons_self).1 hcell
    (Heap.mem_references_of_constant (Array.mem_of_getElem? hv'))

theorem readConstant_meets {i : UInt8} (h : m.Busy live k outer marks n) (hb : k.Reads [i])
    (hi : i.toNat < k.pool.constants.length) :
    Meets readConstant m fun v m' => v.In live ∧ m'.Busy live (k.skip 1) outer marks n := by
  unfold readConstant
  refine (readByte_meets h hb).bind fun b m' hb' => ?_
  obtain ⟨rfl, hm', -⟩ := hb'
  refine (frame_meets hm').bind fun f m'' hf => ?_
  obtain ⟨rfl, rfl⟩ := hf
  refine (runningChunk_meets hm').bind fun c m'' hc => ?_
  obtain ⟨rfl, rfl⟩ := hc
  obtain ⟨v, hv, -, hlive⟩ := constant_of_pool hm' (List.getElem?_eq_getElem hi)
  rw [hv]
  exact .pure ⟨hlive, hm'⟩

theorem asKind_of_cell? {heap : Heap} {x : Handle} {cell : Cell} (hc : heap.cell? x = some cell)
    (kind : ObjectKind) :
    heap.asKind kind (.obj x) = .ok (if cell.object.kind = kind then some x else none) := by
  simp only [Heap.asKind, Heap.object_of_cell? hc]
  rfl

/-- The handle of a live value, if it is an object of the kind. -/
theorem asKind_meets (h : m.Safe live) (hv : v.In live) (kind : ObjectKind) :
    Meets (asKind kind v) m fun x m' => m' = m ∧
      ∀ y, x = some y → v = .obj y ∧ live y ∧ m.heap.kind? y = some kind := by
  have hother : (∀ x, v ≠ .obj x) → m.heap.asKind kind v = .ok none := by
    cases v with
    | obj x => exact fun hne => absurd rfl (hne x)
    | _ => exact fun _ => rfl
  unfold asKind
  by_cases hobj : ∃ x, v = .obj x
  · obtain ⟨x, rfl⟩ := hobj
    obtain ⟨cell, hcell, -⟩ := h.heap.object x (hv x rfl)
    refine .look (asKind_of_cell? hcell kind) ⟨rfl, fun y hy => ?_⟩
    by_cases hk : cell.object.kind = kind
    · rw [if_pos hk] at hy
      cases hy
      exact ⟨rfl, hv _ rfl, by rw [Heap.kind?_of_cell? hcell, hk]⟩
    · rw [if_neg hk] at hy
      cases hy
  · exact .look (hother fun x hx => hobj ⟨x, hx⟩) ⟨rfl, fun y hy => by cases hy⟩

theorem requireKind_meets (h : m.Safe live) (hv : v.In live) (kind : ObjectKind)
    {e : RuntimeError} (he : e.isUser = true) :
    Meets (requireKind kind v e) m fun x m' => m' = m ∧ v = .obj x ∧ live x ∧
      m.heap.kind? x = some kind := by
  unfold requireKind
  refine (asKind_meets h hv kind).bind fun x m' hx => ?_
  obtain ⟨rfl, hx⟩ := hx
  cases x with
  | none => exact .fail he h
  | some y => exact .pure ⟨rfl, hx y rfl⟩

/-- **A constant that is an object of a kind.** -/
theorem readObject_meets {i : UInt8} {bytes : List UInt8} {c : ConstantKind} {kind : ObjectKind}
    (h : m.Busy live k outer marks n) (hb : k.Reads (i :: bytes))
    (hi : k.pool.constants[i.toNat]? = some c)
    (hkind : ∀ v, m.heap.constantKind v = c → ∃ x cell, v = .obj x ∧ m.heap.cell? x = some cell ∧
      cell.object.kind = kind) :
    Meets (readObject kind) m fun x m' => live x ∧ m'.Busy live (k.skip 1) outer marks n ∧
      m.Alike m' ∧ m.heap.constantKind (.obj x) = c ∧
      k.function.chunk.constants[i.toNat]? = some (.obj x) := by
  unfold readObject
  refine (readByte_meets h hb).bind fun b m' hb' => ?_
  obtain ⟨rfl, hm', halike⟩ := hb'
  refine (frame_meets hm').bind fun f m'' hf => ?_
  obtain ⟨rfl, rfl⟩ := hf
  refine (runningChunk_meets hm').bind fun c m'' hc => ?_
  obtain ⟨rfl, rfl⟩ := hc
  obtain ⟨v, hv, hconstant, hlive⟩ := constant_of_pool h hi
  obtain ⟨x, cell, rfl, hcell, hk⟩ := hkind v hconstant
  rw [Call.skip_function, hv]
  have hread : m''.heap.asKind kind (.obj x) = .ok (some x) := by
    rw [halike.heap, asKind_of_cell? hcell, if_pos hk]
  exact .look_bind hread (.pure ⟨hlive x rfl, hm', halike, hconstant, rfl⟩)

theorem isString_of_constantKind {heap : Heap} (hv : heap.constantKind v = .string) :
    ∃ x, v = .obj x ∧ heap.IsString x := by
  cases v with
  | obj x =>
    refine ⟨x, rfl, ?_⟩
    cases hc : heap.cell? x with
    | none => simp [Heap.constantKind, hc] at hv
    | some cell =>
      obtain ⟨o, bytes⟩ := cell
      cases o <;> simp [Heap.constantKind, hc] at hv
      exact ⟨_, bytes, hc⟩
  | _ => simp [Heap.constantKind] at hv

/-- **A name is read.** -/
theorem readName_meets {i : UInt8} {bytes : List UInt8} (h : m.Busy live k outer marks n)
    (hb : k.Reads (i :: bytes)) (hi : k.pool.constants[i.toNat]? = some .string) :
    Meets readName m fun x m' => live x ∧ m'.heap.IsString x ∧
      m'.Busy live (k.skip 1) outer marks n := by
  refine (readObject_meets h hb hi fun v hv => ?_).mono fun x m' hx => ?_
  · obtain ⟨x, rfl, text, bytes, hcell⟩ := isString_of_constantKind hv
    exact ⟨x, _, rfl, hcell, rfl⟩
  · obtain ⟨hlive, hm', halike, hkind, -⟩ := hx
    obtain ⟨y, hy, hs⟩ := isString_of_constantKind hkind
    cases hy
    exact ⟨hlive, halike.heap ▸ hs, hm'⟩

end Run

end LoxMachine

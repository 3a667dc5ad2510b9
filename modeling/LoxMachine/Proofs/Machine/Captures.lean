import LoxMachine.Proofs.Machine.Values

/-!
# Captured variables

* `searchOpen_spec`: the open variables are searched from the highest slot down, so what is found is
  the one of the slot, or the place where it belongs.
* `makeClosure_meets`: a closure is made, and the variables that it captures are open or belong to
  the running closure. They are reachable while the others are looked for.
* `closeFrom_meets`: the variables from a slot up are moved off the stack. That also holds when a
  call has just been removed, so it is said of safe states.
-/

namespace LoxMachine

variable {live : Handle → Prop} {k : Call} {outer : List Call} {marks : Shape} {n : Nat}
  {m m' : Machine} {v : Value}

theorem Heap.OnStack.unique {heap : Heap} {u : Handle} {slot slot' : Nat}
    (h : heap.OnStack u slot) (h' : heap.OnStack u slot') : slot = slot' := by
  obtain ⟨bytes, hcell⟩ := h
  obtain ⟨bytes', hcell'⟩ := h'
  rw [hcell] at hcell'
  cases hcell'
  rfl

theorem Heap.OnStack.upvalue {heap : Heap} {u : Handle} {slot : Nat} (h : heap.OnStack u slot) :
    heap.upvalue u = .ok (.stacked slot) := by
  obtain ⟨bytes, hcell⟩ := h
  exact upvalue_of_cell? hcell

namespace Run

/-! ## Searching -/

/-- **The open variables are searched from the highest slot down.** -/
theorem searchOpen_spec {heap : Heap} (index : Nat) {opened : List Handle}
    (hopen : ∀ u ∈ opened, ∃ slot, heap.OnStack u slot)
    (hsorted : opened.Pairwise fun u u' =>
      ∀ slot slot', heap.OnStack u slot → heap.OnStack u' slot' → slot' < slot) :
    (∃ u before, searchOpen heap index opened = .ok (some u, before) ∧ u ∈ opened ∧
      heap.OnStack u index) ∨
    ∃ high low, opened = high ++ low ∧ searchOpen heap index opened = .ok (none, high.length) ∧
      (∀ u ∈ high, ∀ slot, heap.OnStack u slot → index < slot) ∧
      ∀ u ∈ low, ∀ slot, heap.OnStack u slot → slot < index := by
  induction opened with
  | nil => exact Or.inr ⟨[], [], rfl, rfl, by simp, by simp⟩
  | cons h rest ih =>
    obtain ⟨slot, hslot⟩ := hopen h List.mem_cons_self
    rw [List.pairwise_cons] at hsorted
    have hup := hslot.upvalue
    rcases Nat.lt_trichotomy slot index with hlt | heq | hgt
    · -- all others are in lower slots still
      refine Or.inr ⟨[], h :: rest, rfl, ?_, by simp, fun u hu slot' hslot' => ?_⟩
      · have hall : ¬index ≤ slot := by omega
        simp [searchOpen, hup, Upvalue.slot?, bind, Except.bind, hlt.ne, hall, pure, Except.pure]
      · rcases List.mem_cons.1 hu with rfl | hu
        · rw [hslot'.unique hslot]
          exact hlt
        · exact (hsorted.1 u hu slot slot' hslot hslot').trans hlt
    · subst heq
      refine Or.inl ⟨h, 0, ?_, List.mem_cons_self, hslot⟩
      simp [searchOpen, hup, Upvalue.slot?, bind, Except.bind, pure, Except.pure]
    · have hstep : ∀ found before, searchOpen heap index rest = .ok (found, before) →
          searchOpen heap index (h :: rest) = .ok (found, before + 1) := by
        intro found before hrest
        simp [searchOpen, hup, Upvalue.slot?, bind, Except.bind, hgt.ne', hgt.le, hrest, pure,
          Except.pure]
      rcases ih (fun u hu => hopen u (List.mem_cons_of_mem _ hu)) hsorted.2 with
        ⟨u, before, hrest, hu, hindex⟩ | ⟨high, low, rfl, hrest, hhigh, hlow⟩
      · exact Or.inl ⟨u, before + 1, hstep _ _ hrest, List.mem_cons_of_mem _ hu, hindex⟩
      · refine Or.inr ⟨h :: high, low, rfl, hstep _ _ hrest, fun u hu slot' hslot' => ?_, hlow⟩
        rcases List.mem_cons.1 hu with rfl | hu
        · rw [hslot'.unique hslot]
          exact hgt
        · exact hhigh u hu slot' hslot'

theorem insertIdx_length {α : Type} (high low : List α) (a : α) :
    (high ++ low).insertIdx high.length a = high ++ a :: low := by
  induction high with
  | nil => rfl
  | cons b high ih => simp [ih]

/-! ## Capturing -/

theorem Retains.keep {u : Handle} (h : Retains m u) (hk : m.heap.Keeps m.roots m'.heap)
    (hroots : ∀ r ∈ m.roots, r ∈ m'.roots) (hopen : ∀ u ∈ m.openUpvalues, u ∈ m'.openUpvalues) :
    Retains m' u := by
  have hcell := hk u h.reachable
  refine ⟨(hk.reachable h.reachable).mono hroots, (Heap.kind?_congr hcell).trans h.kind, ?_⟩
  exact fun slot hs => hopen u (h.opened slot (hs.congr hcell.symm))

/-- A new open variable takes its place among the others. -/
theorem busy_open {high low : List Handle} {u : Handle} {index : Nat}
    (h : m.Busy live k outer marks n) (hsplit : m.openUpvalues = high ++ low) (hu : live u)
    (hindex : m.heap.OnStack u index) (hmark : marks.slot? index = some true)
    (hhigh : ∀ u ∈ high, ∀ slot, m.heap.OnStack u slot → index < slot)
    (hlow : ∀ u ∈ low, ∀ slot, m.heap.OnStack u slot → slot < index) :
    { m with openUpvalues := high ++ u :: low }.Busy live k outer marks n := by
  have hmem : ∀ x, x ∈ high ++ u :: low ↔ x = u ∨ x ∈ m.openUpvalues := by
    intro x
    rw [hsplit]
    simp only [List.mem_append, List.mem_cons]
    tauto
  refine ⟨⟨h.heap.open_congr fun _ _ _ x _ _ _ _ _ hx => (hmem x).2 (Or.inr hx), h.stack, h.closures, h.globals,
    h.initName, fun x hx => ?_, ?_⟩, h.frames_eq, h.known, h.size_eq, fun x hx slot hs => ?_⟩
  · rcases (hmem x).1 hx with rfl | hx
    · exact ⟨hu, index, hindex⟩
    · exact h.opened x hx
  · have hsorted := h.sorted
    rw [hsplit, List.pairwise_append] at hsorted
    obtain ⟨hsorted₁, hsorted₂, hcross⟩ := hsorted
    refine List.pairwise_append.2 ⟨hsorted₁, List.pairwise_cons.2 ⟨?_, hsorted₂⟩, ?_⟩
    · intro y hy slot slot' hs hs'
      rw [← hindex.unique hs]
      exact hlow y hy slot' hs'
    · intro x hx y hy slot slot' hs hs'
      rcases List.mem_cons.1 hy with rfl | hy
      · rw [← hindex.unique hs']
        exact hhigh x hx slot hs
      · exact hcross x hx y hy slot slot' hs hs'
  · rcases (hmem x).1 hx with rfl | hx
    · rw [← hindex.unique hs]
      exact hmark
    · exact h.marked x hx slot hs

/-- What stays while a closure is being made. -/
structure Holding (k : Call) (outer : List Call) (marks : Shape) (n : Nat) (m m' : Machine) :
    Prop where
  busy : ∃ live, m'.Busy live k outer marks n
  retains : ∀ u, Retains m u → Retains m' u

/-- **The variable of a slot is captured.** -/
theorem captureUpvalue_meets {index : Nat} (h : m.Busy live k outer marks n)
    (hmark : marks.slot? index = some true) :
    Meets (captureUpvalue index) m fun u m' => Holding k outer marks n m m' ∧
      Retains m' u := by
  unfold captureUpvalue
  refine .get ?_
  dsimp only
  rcases searchOpen_spec index (fun u hu => (h.opened u hu).2) h.sorted with
    ⟨u, before, hfound, hu, hindex⟩ | ⟨high, low, hsplit, hnone, hhigh, hlow⟩
  · refine .look_bind hfound (.pure ⟨⟨⟨live, h⟩, fun _ hr => hr⟩, ?_⟩)
    have hroot : u ∈ m.roots := Machine.mem_roots.2 (Or.inr (Or.inr (Or.inl hu)))
    obtain ⟨bytes, hcell⟩ := hindex
    exact ⟨h.reachable_root hroot, Heap.kind?_of_cell? hcell, fun _ _ => hu⟩
  · refine .look_bind hnone ((alloc_meets h (.upvalue (.stacked index)) (by simp [Object.kind])
      (by simp [Object.references]) fun _ => trivial).bind fun u m' hu => ?_)
    obtain ⟨live', hm', hlive, heq, ⟨bytes, hcell⟩, hkeeps, -⟩ := hu
    have hopen : m'.openUpvalues = high ++ low := by rw [heq]; exact hsplit
    have hkeep : ∀ x ∈ high ++ low, m'.heap.cell? x = m.heap.cell? x := by
      intro x hx
      rw [← hsplit] at hx
      exact hkeeps x ((h.reachable_root (Machine.mem_roots.2 (Or.inr (Or.inr (Or.inl hx))))).mono
        fun r hr => List.mem_append_right _ hr)
    have hbusy := busy_open hm' hopen hlive ⟨bytes, hcell⟩ hmark
      (fun x hx slot hs => hhigh x hx slot (hs.congr (hkeep x (List.mem_append_left _ hx)).symm))
      (fun x hx slot hs => hlow x hx slot (hs.congr (hkeep x (List.mem_append_right _ hx)).symm))
    have hkeeps' : m.heap.Keeps m.roots m'.heap :=
      hkeeps.mono fun r hr => List.mem_append_right _ hr
    refine Meets.bind (Q := fun _ m'' => m'' = { m' with openUpvalues := high ++ u :: low })
      (.modify ?_) fun _ m'' hm'' => .pure ?_
    · rw [hopen, insertIdx_length]
    · rw [hm'']
      have hmem : ∀ x ∈ m.openUpvalues, x ∈ high ++ u :: low := by
        intro x hx
        rw [hsplit] at hx
        rcases List.mem_append.1 hx with hx | hx
        · exact List.mem_append_left _ hx
        · exact List.mem_append_right _ (List.mem_cons_of_mem _ hx)
      have hu : u ∈ high ++ u :: low := List.mem_append_right _ List.mem_cons_self
      refine ⟨⟨⟨live', hbusy⟩, fun x hx => hx.keep hkeeps' (fun r hr => ?_) hmem⟩, ?_⟩
      · rw [heq]
        rcases Machine.mem_roots.1 hr with hv | hf | ho | hg | hi
        · exact Machine.mem_roots.2 (Or.inl hv)
        · exact Machine.mem_roots.2 (Or.inr (Or.inl hf))
        · exact Machine.mem_roots.2 (Or.inr (Or.inr (Or.inl (hmem r ho))))
        · exact Machine.mem_roots.2 (Or.inr (Or.inr (Or.inr (Or.inl hg))))
        · exact Machine.mem_roots.2 (Or.inr (Or.inr (Or.inr (Or.inr hi))))
      · have hroot : u ∈ { m' with openUpvalues := high ++ u :: low }.roots :=
          Machine.mem_roots.2 (Or.inr (Or.inr (Or.inl hu)))
        exact ⟨hbusy.reachable_root hroot, Heap.kind?_of_cell? hcell, fun _ _ => hu⟩

theorem Retains.alike {u : Handle} (h : Retains m u) (ha : m.Alike m') : Retains m' u := by
  refine h.keep (fun x _ => by rw [ha.heap]) (fun r hr => ?_) fun u hu => ?_
  · rw [ha.roots]
    exact hr
  · rw [ha.openUpvalues]
    exact hu

/-- A captured variable exists where a closure is being made: it is in a marked slot of the running
call, or one of the running closure. -/
def Offers (k : Call) (marks : Shape) (c : Capture) : Prop :=
  if c.isLocal then marks.slot? (k.frame.base + c.index.toNat) = some true
  else c.index.toNat < k.pool.upvalues

/-- **The variables that a closure captures are found one after another**, and stay reachable. -/
theorem captures_meets (caps : List Capture) {base : Nat} {upvalues : Array Handle}
    (h : m.Busy live k outer marks n) (hbase : k.frame.base = base)
    (hb : k.Reads (caps.flatMap Capture.bytes)) (hoffers : ∀ c ∈ caps, Offers k marks c)
    (hretains : ∀ u ∈ upvalues, Retains m u) :
    Meets (captures base caps.length upvalues) m fun us m' =>
      (∃ live, m'.Busy live (k.skip (caps.flatMap Capture.bytes).length) outer marks n) ∧
        us.size = upvalues.size + caps.length ∧ ∀ u ∈ us, Retains m' u := by
  induction caps generalizing k m live upvalues with
  | nil => exact .pure ⟨⟨live, h⟩, rfl, hretains⟩
  | cons c caps ih =>
    unfold captures
    have hb' : k.Reads ((if c.isLocal then 1 else 0) :: c.index :: caps.flatMap Capture.bytes) := hb
    refine (readByte_meets h hb').bind fun origin m₁ h₁ => ?_
    obtain ⟨rfl, h₁, ha₁⟩ := h₁
    refine (readByte_meets h₁ hb'.tail).bind fun index m₂ h₂ => ?_
    obtain ⟨rfl, h₂, ha₂⟩ := h₂
    have hoffer := hoffers c List.mem_cons_self
    -- the variable is found, and those found before are still there
    have hfound : Meets (if (if c.isLocal then (1 : UInt8) else 0) ≠ 0
        then captureUpvalue (base + c.index.toNat) else frameUpvalue c.index) m₂
        fun u m' => Holding ((k.skip 1).skip 1) outer marks n m₂ m' ∧ Retains m' u := by
      unfold Offers at hoffer
      cases hlocal : c.isLocal with
      | true =>
        rw [hlocal, if_pos rfl, hbase] at hoffer
        exact captureUpvalue_meets h₂ hoffer
      | false =>
        rw [hlocal] at hoffer
        refine (frameUpvalue_meets h₂ hoffer).mono fun u m' hu => ?_
        obtain ⟨rfl, hu⟩ := hu
        exact ⟨⟨⟨live, h₂⟩, fun _ hr => hr⟩, hu⟩
    refine hfound.ite_bind fun u m₃ h₃ => ?_
    obtain ⟨⟨⟨live', h₃⟩, hretains₃⟩, hu⟩ := h₃
    have hread : ((k.skip 1).skip 1).Reads (caps.flatMap Capture.bytes) := hb'.tail.tail
    have hpushed : ∀ x ∈ upvalues.push u, Retains m₃ x := by
      intro x hx
      rcases Array.mem_push.1 hx with hx | rfl
      · exact hretains₃ x (((hretains x hx).alike ha₁).alike ha₂)
      · exact hu
    refine (ih h₃ hbase hread (fun c' hc' => hoffers c' (List.mem_cons_of_mem _ hc'))
      hpushed).mono fun us m' hus => ?_
    obtain ⟨⟨live'', hm'⟩, hsize, hall⟩ := hus
    have hlength : (List.flatMap Capture.bytes (c :: caps)).length =
        1 + 1 + (caps.flatMap Capture.bytes).length := by
      simp [Capture.bytes]
      omega
    refine ⟨⟨live'', ?_⟩, ?_, hall⟩
    · rw [hlength, ← Call.skip_skip, ← Call.skip_skip]
      exact hm'
    · rw [hsize, Array.size_push, List.length_cons]
      omega

/-- The function constant of a closure is compiled. -/
theorem function_of_pool {i : Nat} {count : Nat} {x : Handle} (h : m.Busy live k outer marks n)
    (hi : k.pool.constants[i]? = some (.function count))
    (hx : k.function.chunk.constants[i]? = some (.obj x)) :
    live x ∧ m.heap.Compiled x ∧ m.heap.constantKind (.obj x) = .function count := by
  obtain ⟨v, hv, hkind, hlive⟩ := constant_of_pool h hi
  rw [hx] at hv
  cases hv
  refine ⟨hlive x rfl, ?_, hkind⟩
  obtain ⟨bytes, hcell⟩ := (h.known k List.mem_cons_self).function
  cases (h.function List.mem_cons_self).2 with
  | intro hcell' _ hconstants =>
    rw [hcell] at hcell'
    cases hcell'
    refine hconstants x (Array.mem_of_getElem? hx) fun hs => ?_
    rw [Heap.constantKind_of_isString hs] at hkind
    cases hkind

/-- **A closure is made.** -/
theorem makeClosure_meets {i : UInt8} {caps : List Capture} (h : m.Busy live k outer marks n)
    (hb : k.Reads (i :: caps.flatMap Capture.bytes))
    (hi : k.pool.constants[i.toNat]? = some (.function caps.length))
    (hoffers : ∀ c ∈ caps, Offers k marks c) :
    Meets makeClosure m fun _ m' =>
      m'.Done (k.skip (1 + (caps.flatMap Capture.bytes).length)) outer marks (n + 1) := by
  unfold makeClosure
  refine (readObject_meets h hb hi fun v hv => ?_).bind fun function m₁ h₁ => ?_
  · cases v with
    | obj x =>
      obtain ⟨f, bytes, hcell, -⟩ := Heap.constantKind_eq_function_iff.1 hv
      exact ⟨x, _, rfl, hcell, rfl⟩
    | _ => simp [Heap.constantKind] at hv
  obtain ⟨-, h₁, -, -, hx⟩ := h₁
  obtain ⟨-, -, hkind⟩ := function_of_pool h₁ hi hx
  obtain ⟨f, bytes, hcell, hcount⟩ := Heap.constantKind_eq_function_iff.1 hkind
  refine .look_bind (Heap.function_eq_ok_iff.2 ⟨bytes, hcell⟩) ?_
  dsimp only
  rw [hcount]
  refine (frame_meets h₁).bind fun fr m₂ hf => ?_
  obtain ⟨rfl, rfl⟩ := hf
  refine (captures_meets caps h₁ rfl hb.tail hoffers (by simp)).bind fun us m₃ h₃ => ?_
  obtain ⟨⟨live', h₃⟩, hsize, hretains⟩ := h₃
  obtain ⟨hlive, hcompiled, hkind₃⟩ := function_of_pool h₃ hi hx
  have hrefs : ∀ r ∈ (Object.closure { function, upvalues := us }).references, live' r := by
    intro r hr
    rcases List.mem_cons.1 hr with rfl | hr
    · exact hlive
    · exact h₃.reachable (hretains r (Array.mem_toList_iff.1 hr)).reachable
  refine (alloc_meets h₃ (.closure { function, upvalues := us }) (by simp [Object.kind]) hrefs
    fun _ => ⟨hcompiled, ?_, fun u hu => ⟨(hretains u hu).kind, (hretains u hu).opened⟩⟩).bind
    fun x m₄ h₄ => ?_
  · rw [hkind₃, hsize]
    simp
  · obtain ⟨live'', h₄, hx, -⟩ := h₄
    rw [Call.skip_skip] at h₄
    refine push_done h₄ fun y hy => ?_
    cases hy
    exact hx

/-! ## Closing -/

/-- The open variables from slot `last` up have been moved off the stack. -/
structure Closes (live : Handle → Prop) (last : Nat) (m m' : Machine) : Prop where
  safe : m'.Safe live
  same : m' = { m with heap := m'.heap, openUpvalues := m'.openUpvalues }
  steady : m.heap.Steady live m'.heap
  opened : ∀ u ∈ m'.openUpvalues, u ∈ m.openUpvalues ∧
    ∀ slot, m'.heap.OnStack u slot → m.heap.OnStack u slot ∧ slot < last

/-- The highest open variable is moved off the stack. -/
theorem safe_close {u : Handle} {rest : List Handle} {index : Nat} (hs : m.Safe live)
    (hopen : m.openUpvalues = u :: rest) (hindex : m.heap.OnStack u index) (hv : v.In live) :
    { m with heap := m.heap.replace u (.upvalue (.closed v)), openUpvalues := rest }.Safe live ∧
      ∀ x ∈ rest, (m.heap.replace u (.upvalue (.closed v))).cell? x = m.heap.cell? x := by
  obtain ⟨bytes, hcell⟩ := hindex
  have hu : live u := (hs.opened u (by rw [hopen]; exact List.mem_cons_self)).1
  have hcells := Heap.cell?_replace hcell (.upvalue (.closed v))
  have hsteady := Heap.steady_replace (o := .upvalue (.closed v)) live hcell rfl rfl
  have hsorted := hs.sorted
  rw [hopen, List.pairwise_cons] at hsorted
  have hrest : ∀ x ∈ rest, (m.heap.replace u (.upvalue (.closed v))).cell? x = m.heap.cell? x := by
    intro x hx
    rw [hcells, if_neg]
    rintro rfl
    exact lt_irrefl _ (hsorted.1 x hx index index ⟨bytes, hcell⟩ ⟨bytes, hcell⟩)
  have hmem : ∀ x ∈ rest, x ∈ m.openUpvalues := fun x hx => by
    rw [hopen]
    exact List.mem_cons_of_mem _ hx
  have hsound : (m.heap.replace u (.upvalue (.closed v))).Sound live m.openUpvalues := by
    refine hs.heap.replace hu hcell rfl rfl (fun r hr => ?_) trivial fun slot hslot => ?_
    · exact hv r (by simpa [Object.references] using hr)
    · cases hslot
  refine ⟨⟨hsound.open_congr fun _ _ _ x slot _ _ _ hslot hx => ?_, hs.stack, fun f hf => ?_, hs.globals,
    ⟨hs.initName.1, hsteady.isString hs.initName.1 hs.initName.2⟩, fun x hx => ?_, ?_⟩, hrest⟩
  · rw [hopen] at hx
    rcases List.mem_cons.1 hx with rfl | hx
    · obtain ⟨bytes', hcell'⟩ := hslot
      rw [hcells, if_pos rfl] at hcell'
      cases hcell'
    · exact hx
  · obtain ⟨hl, c, bytes', hc, hfunction⟩ := hs.closures f hf
    exact ⟨hl, c, bytes', hsteady.fixed _ _ hl hc rfl, hfunction⟩
  · obtain ⟨hl, slot, hslot⟩ := hs.opened x (hmem x hx)
    exact ⟨hl, slot, hslot.congr (hrest x hx)⟩
  · refine List.Pairwise.imp_of_mem (fun {x y} hx hy hlt slot slot' hslot hslot' => ?_) hsorted.2
    exact hlt slot slot' (hslot.congr (hrest x hx).symm) (hslot'.congr (hrest y hy).symm)

/-- **The open variables from a slot up are moved off the stack.** -/
theorem closeFrom_meets (last : Nat) (opened : List Handle) {m : Machine} (hs : m.Safe live)
    (hopen : m.openUpvalues = opened)
    (hslots : ∀ u ∈ opened, ∀ slot, m.heap.OnStack u slot → slot < m.stack.size) :
    Meets (closeFrom last opened) m fun _ m' => Closes live last m m' := by
  induction opened generalizing m with
  | nil => exact .pure ⟨hs, rfl, .refl _ _, by simp [hopen]⟩
  | cons u rest ih =>
    obtain ⟨hu, index, hindex⟩ := hs.opened u (by rw [hopen]; exact List.mem_cons_self)
    unfold closeFrom
    refine .look_bind hindex.upvalue (.ite (fun hle => ?_) fun hlt => .pure ⟨hs, rfl, .refl _ _, ?_⟩)
    · have hlt := hslots u List.mem_cons_self index hindex
      have hget : m.stack[index]? = some m.stack[index] := Array.getElem?_eq_getElem hlt
      have hslot : Meets (slot index) m fun v m' => v = m.stack[index] ∧ m' = m := by
        unfold slot
        refine .get ?_
        rw [hget]
        exact .pure ⟨rfl, rfl⟩
      refine hslot.bind fun v m' hv => ?_
      obtain ⟨rfl, rfl⟩ := hv
      obtain ⟨hsafe, hrest⟩ := safe_close hs hopen hindex (hs.value_in hget)
      have hset : m'.heap.setUpvalue u (.closed m'.stack[index]) =
          .ok (m'.heap.replace u (.upvalue (.closed m'.stack[index]))) := by
        rw [Heap.setUpvalue, hindex.upvalue]
        rfl
      have hupdate : Meets (update (·.setUpvalue u (.closed m'.stack[index]))) m' fun _ m'' =>
          m'' = { m' with heap := m'.heap.replace u (.upvalue (.closed m'.stack[index])) } := by
        have hrun : update (·.setUpvalue u (.closed m'.stack[index])) m' =
            .ok () { m' with heap := m'.heap.replace u (.upvalue (.closed m'.stack[index])) } := by
          simp only [update, hset]
        unfold Meets Ends
        rw [hrun]
      refine hupdate.bind fun _ m'' hm'' => ?_
      subst hm''
      refine Meets.bind (Q := fun _ m'' => m'' = { m' with
        heap := m'.heap.replace u (.upvalue (.closed m'.stack[index])), openUpvalues := rest })
        (.modify rfl) fun _ m'' hm'' => ?_
      subst hm''
      refine (ih hsafe rfl fun x hx slot hslot => ?_).mono fun _ m₁ h₁ => ?_
      · exact hslots x (List.mem_cons_of_mem _ hx) slot (hslot.congr (hrest x hx).symm)
      · obtain ⟨bytes, hcell⟩ := hindex
        refine ⟨h₁.safe, ?_, ?_, fun x hx => ?_⟩
        · rw [h₁.same]
        · exact (Heap.steady_replace (o := .upvalue (.closed _)) live hcell rfl rfl).trans h₁.steady
        · obtain ⟨hmem, hslot⟩ := h₁.opened x hx
          refine ⟨by rw [hopen]; exact List.mem_cons_of_mem _ hmem, fun slot hs => ?_⟩
          obtain ⟨hs, hlast⟩ := hslot slot hs
          exact ⟨hs.congr (hrest x hmem).symm, hlast⟩
    · -- the others are in lower slots still
      intro x hx
      refine ⟨hx, fun slot hslot => ⟨hslot, ?_⟩⟩
      have hsorted := hs.sorted
      rw [hopen] at hx hsorted
      rw [List.pairwise_cons] at hsorted
      rcases List.mem_cons.1 hx with rfl | hx
      · rw [hslot.unique hindex]
        omega
      · have := hsorted.1 x hx index slot hindex hslot
        omega

/-- The slots of a shape above its lowest ones are left out. -/
theorem slot?_of_lt {s t : Shape} {i : Nat} (hi : Shape.slot? (s ++ t) i = some true)
    (hlt : i < t.length) : t.slot? i = some true := by
  rw [← Shape.slot?_append s t i hlt]
  exact hi

/-- The call goes on after variables have been moved off the stack. -/
theorem busy_closes {s t : Shape} (h : m.Busy live k outer (s ++ t) n)
    (hc : Closes live t.length m m') : m'.Busy live k outer t n := by
  have hsame := hc.same
  refine ⟨hc.safe, ?_, fun c hcall => ?_, ?_, fun u hu slot hslot => ?_⟩
  · rw [hsame]
    exact h.frames_eq
  · exact (h.known c hcall).steady hc.steady (fun x cell r hx hcell hr => h.heap.references hx hcell hr)
      (h.function hcall).1 (h.function hcall).2
  · rw [hsame]
    exact h.size_eq
  · obtain ⟨hmem, hs⟩ := hc.opened u hu
    exact slot?_of_lt (h.marked u hmem slot (hs slot hslot).1) (hs slot hslot).2

theorem closeTop_meets {b : Bool} (h : m.Busy live k outer (b :: marks) (n + 1))
    (hn : marks.length = n) :
    Meets closeTop m fun _ m' => m'.Done k outer marks n := by
  unfold closeTop
  refine (below_meets h n.succ_pos).bind fun top m' htop => ?_
  obtain ⟨rfl, htop⟩ := htop
  have htop : top = marks.length := by omega
  rw [htop]
  unfold closeUpvalues
  refine Meets.bind (Q := fun _ m₁ => m₁.Busy live k outer marks (n + 1)) (.get ?_)
    fun _ m₁ h₁ => pop_done h₁
  refine (closeFrom_meets marks.length _ h.toSafe rfl fun u hu slot hslot => ?_).mono
    fun _ m₁ h₁ => busy_closes (s := [b]) h h₁
  rw [h.size_eq]
  exact slot_lt h (by simp [hn]) hu hslot

/-! ## Returning -/

/-- The slots of a shape that are not marked can be left out. -/
theorem slot?_of_clear {s t : Shape} (hclear : ∀ b ∈ s, b = false) {i : Nat}
    (hi : Shape.slot? (s ++ t) i = some true) : t.slot? i = some true := by
  refine slot?_of_lt hi ?_
  by_contra hge
  rw [Shape.slot?, List.reverse_append, List.getElem?_append_right (by simpa using hge)] at hi
  have hmem := List.mem_of_getElem? hi
  rw [List.mem_reverse] at hmem
  cases hclear true hmem

end Run

namespace Machine

/-- Nothing is being executed. -/
structure Idle (live : Handle → Prop) (m : Machine) : Prop extends m.Safe live where
  stack_eq : m.stack = #[]
  frames_eq : m.frames = []
  open_eq : m.openUpvalues = []

theorem Safe.tail (hs : m.Safe live) : { m with frames := m.frames.tail }.Safe live :=
  ⟨hs.heap, hs.stack, fun f hf => hs.closures f (List.mem_of_mem_tail hf), hs.globals, hs.initName,
    hs.opened, hs.sorted⟩

/-- The innermost call has ended, and the one around it goes on. -/
theorem Busy.tail {k' : Call} {rest : List Call} (h : m.Busy live k (k' :: rest) marks n) :
    { m with frames := m.frames.tail }.Busy live k' rest marks n :=
  ⟨h.toSafe.tail, by rw [h.frames_eq]; rfl, fun c hc => h.known c (List.mem_cons_of_mem _ hc),
    h.size_eq, h.marked⟩

end Machine

namespace Run

/-- Without calls, no variable is open. -/
theorem Closes.idle (h : Closes live 0 m m') (hf : m.frames = []) :
    { m' with stack := #[] }.Idle live := by
  have hopen : m'.openUpvalues = [] := by
    refine List.eq_nil_iff_forall_not_mem.2 fun u hu => ?_
    obtain ⟨-, slot, hslot⟩ := h.safe.opened u hu
    exact Nat.not_lt_zero _ ((h.opened u hu).2 slot hslot).2
  have hs := h.safe
  have hframes : m'.frames = [] := by
    rw [h.same]
    exact hf
  exact ⟨⟨hs.heap, by simp, hs.closures, hs.globals, hs.initName, hs.opened, hs.sorted⟩, rfl,
    hframes, hopen⟩

/-- **A call ends.** Its variables have been moved off the stack, and the call around it goes on with
the result. -/
theorem ret_meets {s below : Shape} (h : m.Busy live k outer (s ++ below) (s ++ below).length)
    (hclear : s.head? = some false) (hbase : k.frame.base = below.length)
    (hbottom : outer = [] → below = []) :
    Meets ret m fun done m' => (outer = [] ∧ done = true ∧ ∃ live, m'.Idle live) ∨
      (done = false ∧ ∃ k' rest, outer = k' :: rest ∧
        m'.Done k' rest below (below.length + 1)) := by
  obtain ⟨s, rfl⟩ := List.head?_eq_some_iff.1 hclear
  unfold ret
  have h : m.Busy live k outer (s ++ below) ((s ++ below).length + 1) :=
    h.marks_mono fun slot hs => slot?_of_clear (s := [false]) (by simp) hs
  refine (pop_meets h).bind fun result m₁ h₁ => ?_
  obtain ⟨hresult, h₁, -⟩ := h₁
  refine (frame_meets h₁).bind fun f m₂ hf => ?_
  obtain ⟨rfl, rfl⟩ := hf
  refine Meets.bind (Q := fun _ m => m = { m₂ with frames := m₂.frames.tail }) (.modify rfl)
    fun _ m₃ h₃ => ?_
  subst h₃
  rw [hbase]
  have hslots : ∀ u ∈ m₂.openUpvalues, ∀ slot, m₂.heap.OnStack u slot → slot < m₂.stack.size := by
    intro u hu slot hslot
    rw [h₁.size_eq]
    exact slot_lt h₁ le_rfl hu hslot
  refine Meets.bind (Q := fun _ m' => Closes live below.length
    { m₂ with frames := m₂.frames.tail } m') ?_ fun _ m₃ h₃ => .get ?_
  · exact .get (closeFrom_meets below.length _ h₁.toSafe.tail rfl hslots)
  cases outer with
  | nil =>
    have hframes : m₂.frames.tail = [] := by rw [h₁.frames_eq]; rfl
    have hempty : m₃.frames = [] := by rw [h₃.same]; exact hframes
    rw [hempty, if_pos (by rfl)]
    rw [hbottom rfl] at h₃
    have hidle := h₃.idle hframes
    exact Meets.bind (Q := fun _ m' => m'.Idle live) (.modify hidle) fun _ m₄ h₄ =>
      .pure (Or.inl ⟨rfl, rfl, live, h₄⟩)
  | cons k' rest =>
    have hbusy := busy_closes h₁.tail h₃
    rw [hbusy.frames_eq, if_neg (by simp)]
    refine (truncate_meets hbusy (by simp)).bind fun _ m₄ h₄ => ?_
    refine (push_done h₄ hresult).bind fun _ m₅ h₅ => .pure (Or.inr ⟨rfl, k', rest, rfl, h₅⟩)

end Run

end LoxMachine

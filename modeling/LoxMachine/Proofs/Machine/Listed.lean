import LoxMachine.Proofs.Machine.Effects
import LoxMachine.Proofs.Compile.Verified
import LoxMachine.Proofs.Twin.Parsing

/-!
# The list of the variables on the stack

Captured variables that are still on the stack are in a list, the highest slot first.

* `Machine.Ordered m`: the list holds such variables only, each of another slot, in this order.
* `Machine.Tracked m`: a closure holds no other variables that are on the stack.
* `Machine.Quiet` is what the instructions have in common that neither capture nor close anything; it is
  read off their effects.
* `captureUpvalue_cases` and `closeUpvalues_closes`: what is done to an ordered list.
* `execute_neat`: every instruction keeps the list ordered, also where it fails, and complete.
-/

namespace LoxMachine

/-- Neither closures nor captured variables are made, and no captured variable is moved. -/
def Effect.Quiet : Effect → Prop
  | .makes .closure | .makes .upvalue | .changes .upvalue | .opens => False
  | _ => True

/-! ## Quiet changes -/

namespace Heap

variable {heap heap' heap'' : Heap} {opened : List Handle} {u x : Handle} {slot : Nat}

/-- No closure and no variable on the stack is new, and those in the list are still there. -/
structure Quiet (opened : List Handle) (heap heap' : Heap) : Prop where
  tidy : heap'.Tidy
  kept : ∀ u ∈ opened, ∀ slot, heap.OnStack u slot → heap'.OnStack u slot
  closures : ∀ {x : Handle} {c : Closure} {bytes : Nat},
    heap'.cell? x = some ⟨.closure c, bytes⟩ → heap.cell? x = some ⟨.closure c, bytes⟩
  stacked : ∀ {u : Handle} {slot : Nat}, heap'.OnStack u slot → heap.OnStack u slot

theorem OnStack.contains (h : heap.OnStack u slot) : heap.contains u = true := by
  obtain ⟨bytes, hcell⟩ := h
  exact contains_of_cell? hcell

namespace Quiet

theorem refl (ht : heap.Tidy) : heap.Quiet opened heap := ⟨ht, fun _ _ _ h => h, id, id⟩

theorem trans (h : heap.Quiet opened heap') (h' : heap'.Quiet opened heap'') :
    heap.Quiet opened heap'' :=
  ⟨h'.tidy, fun u hu slot hs => h'.kept u hu slot (h.kept u hu slot hs),
    fun hc => h.closures (h'.closures hc), fun hs => h.stacked (h'.stacked hs)⟩

theorem of_cells (ht : heap'.Tidy) (hcells : ∀ x, heap'.cell? x = heap.cell? x) : heap.Quiet opened heap' :=
  ⟨ht, fun _ _ _ hs => hs.congr (hcells _), fun hc => (hcells _).symm.trans hc, fun hs => hs.congr (hcells _).symm⟩

theorem record (ht : heap.Tidy) (e : Event) : heap.Quiet opened (heap.record e) :=
  of_cells (ht.record e) (cell?_record heap e)

theorem allocates {roots : List Handle} {o : Object} (ha : heap.Allocates roots o x heap')
    (hopened : ∀ u ∈ opened, u ∈ roots) (hclosure : o.kind ≠ .closure) (hupvalue : o.kind ≠ .upvalue) :
    heap.Quiet opened heap' := by
  refine ⟨ha.tidy, fun u hu slot hs => ?_, fun {y c bytes} hc => ?_, fun {u slot} hs => ?_⟩
  · have hreach : heap.Reachable (o.references ++ roots) u :=
      .root (List.mem_append_right _ (hopened u hu)) hs.contains
    exact hs.congr (ha.kept hreach).2
  · by_cases hy : y = x
    · rw [hy, ha.new] at hc
      cases hc
      exact absurd rfl hclosure
    · exact ha.old hy hc
  · obtain ⟨bytes, hc⟩ := hs
    by_cases hu : u = x
    · rw [hu, ha.new] at hc
      cases hc
      exact absurd rfl hupvalue
    · exact ⟨bytes, ha.old hu hc⟩

theorem alloc (ht : heap.Tidy) {roots : Thunk (List Handle)} {o : Object}
    (hopened : ∀ u ∈ opened, u ∈ roots.get) (hclosure : o.kind ≠ .closure)
    (hupvalue : o.kind ≠ .upvalue) : heap.Quiet opened (heap.alloc roots o).2 :=
  allocates (alloc_allocates ht roots o) hopened hclosure hupvalue

theorem intern (ht : heap.Tidy) {roots : Thunk (List Handle)} (hopened : ∀ u ∈ opened, u ∈ roots.get)
    (s : String) : heap.Quiet opened (heap.intern roots s).2 := by
  rcases intern_spec ht roots s with ⟨-, heq⟩ | ⟨-, ha, -⟩
  · rw [heq]
    exact refl ht
  · exact allocates ha hopened (by simp [Object.kind]) (by simp [Object.kind])

/-- Another object is changed. -/
theorem replace (ht : heap.Tidy) {o : Object} {cell : Cell} (hc : heap.cell? x = some cell)
    (hkind : cell.object.kind = o.kind) (hclosure : o.kind ≠ .closure) (hupvalue : o.kind ≠ .upvalue) :
    heap.Quiet opened (heap.replace x o) := by
  have hcells := cell?_replace hc o
  refine ⟨ht.replace hc o, fun u _ slot hs => ?_, fun {y c bytes} hy => ?_, fun {u slot} hs => ?_⟩
  · refine hs.congr ((hcells u).trans (if_neg ?_))
    rintro rfl
    obtain ⟨bytes, hs⟩ := hs
    rw [hc] at hs
    cases hs
    exact hupvalue hkind.symm
  · rw [hcells] at hy
    split at hy
    · cases hy
      exact absurd rfl hclosure
    · exact hy
  · obtain ⟨bytes, hs⟩ := hs
    rw [hcells] at hs
    split at hs
    · cases hs
      exact absurd rfl hupvalue
    · exact ⟨bytes, hs⟩

end Quiet

/-- Compiling makes strings and functions only. -/
theorem Allots.quiet {roots : List Handle} (ha : heap.Allots roots heap') (ht : heap.Tidy)
    (hopened : ∀ u ∈ opened, u ∈ roots) : heap.Quiet opened heap' := by
  induction ha with
  | refl => exact .refl ht
  | intern s _ hrs ih => exact ih.trans (.intern ih.tidy (fun u hu => hrs (hopened u hu)) s)
  | function f _ hrs ih =>
    exact ih.trans (.alloc ih.tidy (fun u hu => hrs (hopened u hu)) (by simp [Object.kind])
      (by simp [Object.kind]))
  | record e _ ih => exact ih.trans (.record ih.tidy e)

end Heap

namespace Machine

variable {m m' m'' : Machine} {u : Handle}

/-- The list of the variables on the stack is the same, and so is what it is about. -/
structure Quiet (m m' : Machine) : Prop where
  heap : m.heap.Quiet m.openUpvalues m'.heap
  opened : m'.openUpvalues = m.openUpvalues

theorem Quiet.trans (h : m.Quiet m') (h' : m'.Quiet m'') : m.Quiet m'' :=
  ⟨h.heap.trans (h.opened ▸ h'.heap), h'.opened.trans h.opened⟩

theorem opened_subset_roots : ∀ u ∈ m.openUpvalues, u ∈ m.roots :=
  fun _ hu => mem_roots.2 (Or.inr (Or.inr (Or.inl hu)))

theorem Change.quiet (h : Change Effect.Quiet m m') (ht : m.heap.Tidy) : m.Quiet m' := by
  cases h with
  | control heap opened => exact ⟨by rw [heap]; exact .refl ht, opened⟩
  | record e => exact ⟨.record ht e, rfl⟩
  | make o h hkind =>
    refine ⟨.alloc ht opened_subset_roots ?_ ?_, rfl⟩ <;> intro hk <;> rw [hk] at h <;> exact h
  | intern s h => exact ⟨.intern ht opened_subset_roots s, rfl⟩
  | change o h hcell hkind hmutable =>
    refine ⟨.replace ht hcell hkind ?_ ?_, rfl⟩ <;> intro hk <;> rw [hk] at h hmutable
    · cases hmutable
    · exact h
  | opened opened h => exact h.elim

theorem Changes.quiet (h : Changes Effect.Quiet m m') (ht : m.heap.Tidy) : m.Quiet m' := by
  induction h with
  | refl => exact ⟨.refl ht, rfl⟩
  | tail _ h ih => exact ih.trans (h.quiet ih.heap.tidy)

/-! ## Order -/

/-- The listed variables are on the stack, each in a lower slot than those before it. -/
structure Ordered (m : Machine) : Prop where
  opened : ∀ u ∈ m.openUpvalues, ∃ slot, m.heap.OnStack u slot
  sorted : m.openUpvalues.Pairwise fun u u' =>
    ∀ slot slot', m.heap.OnStack u slot → m.heap.OnStack u' slot' → slot' < slot

/-- A variable is in the list if it is on the stack. -/
def Lists (m : Machine) (u : Handle) : Prop := ∀ slot, m.heap.OnStack u slot → u ∈ m.openUpvalues

/-- The variables of all closures are in the list if they are on the stack. -/
def Tracked (m : Machine) : Prop :=
  ∀ x c bytes, m.heap.cell? x = some ⟨.closure c, bytes⟩ → ∀ u ∈ c.upvalues, m.Lists u

/-- What holds at every step; the list is complete as long as `clean` holds. -/
structure Orderly (clean : Prop) (m : Machine) : Prop where
  sane : m.Sane
  ordered : m.Ordered
  tracked : clean → m.Tracked

/-- Variables stay listed, and no closure is new. -/
structure Upholds (m m' : Machine) : Prop where
  closures : ∀ {x : Handle} {c : Closure} {bytes : Nat},
    m'.heap.cell? x = some ⟨.closure c, bytes⟩ → m.heap.cell? x = some ⟨.closure c, bytes⟩
  lists : ∀ {u : Handle}, m.Lists u → m'.Lists u

theorem Upholds.refl : m.Upholds m := ⟨id, id⟩

theorem Upholds.trans (h : m.Upholds m') (h' : m'.Upholds m'') : m.Upholds m'' :=
  ⟨fun hc => h.closures (h'.closures hc), fun hu => h'.lists (h.lists hu)⟩

theorem Tracked.uphold (ht : m.Tracked) (h : m.Upholds m') : m'.Tracked :=
  fun x c bytes hc u hu => h.lists (ht x c bytes (h.closures hc) u hu)

theorem Quiet.upholds (h : m.Quiet m') : m.Upholds m' where
  closures := h.heap.closures
  lists hu slot hs := by
    rw [h.opened]
    exact hu slot (h.heap.stacked hs)

theorem Quiet.ordered (h : m.Quiet m') (ho : m.Ordered) : m'.Ordered := by
  refine ⟨fun u hu => ?_, ?_⟩
  · rw [h.opened] at hu
    obtain ⟨slot, hs⟩ := ho.opened u hu
    exact ⟨slot, h.heap.kept u hu slot hs⟩
  · rw [h.opened]
    exact ho.sorted.imp fun hlt slot slot' hs hs' =>
      hlt slot slot' (h.heap.stacked hs) (h.heap.stacked hs')

/-! ## A new variable -/

theorem pairwise_insert {α : Type} {R : α → α → Prop} {high low : List α} {a : α}
    (h : (high ++ low).Pairwise R) (hhigh : ∀ b ∈ high, R b a) (hlow : ∀ b ∈ low, R a b) :
    (high ++ a :: low).Pairwise R := by
  obtain ⟨hh, hl, hcross⟩ := List.pairwise_append.1 h
  refine List.pairwise_append.2 ⟨hh, List.pairwise_cons.2 ⟨hlow, hl⟩, fun b hb c hc => ?_⟩
  rcases List.mem_cons.1 hc with rfl | hc
  · exact hhigh b hb
  · exact hcross b hb c hc

/-- **A new variable takes its place in the list.** -/
theorem Ordered.insert (ho : m.Ordered) {high low : List Handle} {index : Nat} {heap : Heap}
    (hsplit : m.openUpvalues = high ++ low)
    (ha : m.heap.Allocates m.roots (.upvalue (.stacked index)) u heap)
    (hhigh : ∀ x ∈ high, ∀ slot, m.heap.OnStack x slot → index < slot)
    (hlow : ∀ x ∈ low, ∀ slot, m.heap.OnStack x slot → slot < index) :
    { m with heap, openUpvalues := high ++ u :: low }.Ordered ∧
      m.Upholds { m with heap, openUpvalues := high ++ u :: low } := by
  have hnew : ∀ {slot}, heap.OnStack u slot → slot = index := by
    rintro slot ⟨bytes, hc⟩
    rw [ha.new] at hc
    cases hc
    rfl
  have hstays : ∀ x ∈ high ++ low, x ≠ u ∧ heap.cell? x = m.heap.cell? x := by
    intro x hx
    rw [← hsplit] at hx
    obtain ⟨slot, hs⟩ := ho.opened x hx
    exact ha.kept (.root (List.mem_append_right _ (opened_subset_roots x hx)) hs.contains)
  have hback : ∀ x ∈ high ++ low, ∀ {slot}, heap.OnStack x slot → m.heap.OnStack x slot :=
    fun x hx slot hs => hs.congr (hstays x hx).2.symm
  refine ⟨⟨fun x hx => ?_, ?_⟩, fun {x c bytes} hc => ?_, fun {x} hlists slot hs => ?_⟩
  · by_cases hxu : x = u
    · exact ⟨index, _, hxu ▸ ha.new⟩
    · have hx : x ∈ high ++ low := by simpa [hxu] using hx
      obtain ⟨slot, hs⟩ := ho.opened x (hsplit ▸ hx)
      exact ⟨slot, hs.congr (hstays x hx).2⟩
  · have hsorted := ho.sorted
    rw [hsplit] at hsorted
    refine pairwise_insert ?_ (fun x hx slot slot' hs hs' => ?_) fun x hx slot slot' hs hs' => ?_
    · refine hsorted.imp_of_mem fun {x y} hx hy hlt slot slot' hs hs' => ?_
      exact hlt slot slot' (hback x hx hs) (hback y hy hs')
    · rw [hnew hs']
      exact hhigh x hx slot (hback x (List.mem_append_left _ hx) hs)
    · rw [hnew hs]
      exact hlow x hx slot' (hback x (List.mem_append_right _ hx) hs')
  · by_cases hxu : x = u
    · rw [hxu] at hc
      have hc := ha.new.symm.trans hc
      cases hc
    · exact ha.old hxu hc
  · by_cases hxu : x = u
    · simp [hxu]
    · obtain ⟨bytes, hc⟩ := hs
      have hx := hlists slot ⟨bytes, ha.old hxu hc⟩
      rw [hsplit] at hx
      simpa [hxu] using hx

/-! ## Variables that leave the stack -/

/-- The highest variable is moved off the stack. -/
theorem Ordered.close {rest : List Handle} {index : Nat} (ho : m.Ordered)
    (hopen : m.openUpvalues = u :: rest) (hindex : m.heap.OnStack u index) (v : Value) :
    { m with heap := m.heap.replace u (.upvalue (.closed v)), openUpvalues := rest }.Ordered ∧
      m.Upholds { m with heap := m.heap.replace u (.upvalue (.closed v)), openUpvalues := rest } ∧
      ∀ x ∈ rest, x ≠ u := by
  have hsorted := ho.sorted
  rw [hopen, List.pairwise_cons] at hsorted
  have hne : ∀ x ∈ rest, x ≠ u := by
    rintro x hx rfl
    exact lt_irrefl _ (hsorted.1 x hx index index hindex hindex)
  obtain ⟨bytes, hcell⟩ := hindex
  have hcells := Heap.cell?_replace hcell (.upvalue (.closed v))
  have hback : ∀ {x slot}, (m.heap.replace u (.upvalue (.closed v))).OnStack x slot →
      x ≠ u ∧ m.heap.OnStack x slot := by
    rintro x slot ⟨bytes, hc⟩
    rw [hcells] at hc
    split at hc
    · cases hc
    · exact ⟨‹_›, bytes, hc⟩
  refine ⟨⟨fun x hx => ?_, ?_⟩, ⟨fun {x c bytes} hc => ?_, fun {x} hlists slot hs => ?_⟩, hne⟩
  · obtain ⟨slot, hs⟩ := ho.opened x (by rw [hopen]; exact List.mem_cons_of_mem _ hx)
    exact ⟨slot, hs.congr ((hcells x).trans (if_neg (hne x hx)))⟩
  · exact hsorted.2.imp fun hlt slot slot' hs hs' => hlt slot slot' (hback hs).2 (hback hs').2
  · dsimp only at hc
    rw [hcells] at hc
    split at hc
    · cases hc
    · exact hc
  · have hx := hlists slot (hback hs).2
    rw [hopen] at hx
    exact (List.mem_cons.1 hx).resolve_left (hback hs).1

theorem Orderly.to {clean : Prop} (ho : m.Orderly clean) (hs : m'.Sane) (ho' : m'.Ordered)
    (hu : m.Upholds m') : m'.Orderly clean := ⟨hs, ho', fun hc => (ho.tracked hc).uphold hu⟩

/-- The listed variables from a slot up have left the stack, each with what was in its slot; all other
objects are as they were, and the other variables stay in the list. -/
structure ClosesFrom (last : Nat) (m m' : Machine) : Prop where
  same : m' = { m with heap := m'.heap, openUpvalues := m'.openUpvalues }
  suffix : m'.openUpvalues <:+ m.openUpvalues
  stays : ∀ u ∈ m.openUpvalues, ∀ slot, m.heap.OnStack u slot → (u ∈ m'.openUpvalues ↔ slot < last)
  closed : ∀ u ∈ m.openUpvalues, ∀ slot, m.heap.OnStack u slot → last ≤ slot →
    ∃ v, m.stack[slot]? = some v ∧ m'.heap.upvalue u = .ok (.closed v)
  others : ∀ x, (x ∈ m.openUpvalues → ∀ slot, m.heap.OnStack x slot → slot < last) →
    m'.heap.cell? x = m.heap.cell? x

/-- All listed variables are in lower slots. -/
theorem ClosesFrom.none {last : Nat} 
    (hlow : ∀ u ∈ m.openUpvalues, ∀ slot, m.heap.OnStack u slot → slot < last) :
    m.ClosesFrom last m where
  same := rfl
  suffix := List.suffix_rfl
  stays u hu slot hs := ⟨fun _ => hlow u hu slot hs, fun _ => hu⟩
  closed u hu slot hs hle := absurd (hlow u hu slot hs) (Nat.not_lt.2 hle)
  others _ _ := rfl

/-- The highest listed variable leaves the stack, and then the others do. -/
theorem ClosesFrom.cons {rest : List Handle} {index last : Nat} {v : Value} (ho : m.Ordered)
    (hopen : m.openUpvalues = u :: rest) (hindex : m.heap.OnStack u index) (hle : last ≤ index)
    (hv : m.stack[index]? = some v)
    (h : { m with heap := m.heap.replace u (.upvalue (.closed v)), openUpvalues := rest }.ClosesFrom
      last m') : m.ClosesFrom last m' := by
  have hne := (ho.close hopen hindex v).2.2
  have hu : u ∉ m'.openUpvalues := fun hu => hne u (h.suffix.subset hu) rfl
  obtain ⟨bytes, hcell⟩ := id hindex
  have hcells := Heap.cell?_replace hcell (.upvalue (.closed v))
  have hon : ∀ x ∈ rest, ∀ slot, m.heap.OnStack x slot →
      (m.heap.replace u (.upvalue (.closed v))).OnStack x slot := fun x hx slot hs =>
    hs.congr ((hcells x).trans (if_neg (hne x hx)))
  have hkept : m'.heap.cell? u = some ⟨.upvalue (.closed v), (Object.upvalue (.closed v)).storage⟩ :=
    (h.others u fun hu => absurd rfl (hne u hu)).trans ((hcells u).trans (if_pos rfl))
  refine ⟨by rw [h.same], hopen ▸ h.suffix.trans (List.suffix_cons u rest), fun x hx slot hs => ?_,
    fun x hx slot hs hlast => ?_, fun x hx => ?_⟩
  · rw [hopen] at hx
    rcases List.mem_cons.1 hx with rfl | hx
    · rw [hs.unique hindex]
      exact ⟨fun hx => absurd hx hu, fun hlt => absurd hlt (Nat.not_lt.2 hle)⟩
    · exact h.stays x hx slot (hon x hx slot hs)
  · rw [hopen] at hx
    rcases List.mem_cons.1 hx with rfl | hx
    · rw [hs.unique hindex]
      exact ⟨v, hv, Heap.upvalue_of_cell? hkept⟩
    · exact h.closed x hx slot (hon x hx slot hs) hlast
  · have hxu : x ≠ u := by
      rintro rfl
      exact absurd (hx (by rw [hopen]; exact List.mem_cons_self) index hindex) (Nat.not_lt.2 hle)
    have hback : ∀ slot, (m.heap.replace u (.upvalue (.closed v))).OnStack x slot →
        m.heap.OnStack x slot := fun slot hs => hs.congr ((hcells x).trans (if_neg hxu)).symm
    refine (h.others x fun hmem slot hs => ?_).trans ((hcells x).trans (if_neg hxu))
    exact hx (by rw [hopen]; exact List.mem_cons_of_mem _ hmem) slot (hback slot hs)

end Machine

namespace Run

variable {α : Type} {x : Run α} {m m' : Machine} {clean : Prop} {Q : α → Machine → Prop}

/-- The action ends with `Q`, or fails in an orderly state. -/
abbrev Neat (clean : Prop) (x : Run α) (m : Machine) (Q : α → Machine → Prop) : Prop :=
  Ends (fun _ m' => m'.Orderly clean) x m Q

/-- **An action with quiet effects only.** -/
theorem Tame.quiet [Effects Effect.Quiet x] (h : Tame x m Q) (hQ : ∀ a m', Q a m' → m'.Sane)
    (ho : m.Orderly clean) :
    Neat clean x m fun a m' => Q a m' ∧ m'.Orderly clean ∧ m.Quiet m' := by
  have hquiet : ∀ {m'}, m'.Sane → Machine.Changes Effect.Quiet m m' →
      m'.Orderly clean ∧ m.Quiet m' := fun hs hc =>
    have hq := hc.quiet ho.sane.heap.tidy
    ⟨ho.to hs (hq.ordered ho.ordered) hq.upholds, hq⟩
  refine ((h.and (Along.ends (R := Machine.Changes Effect.Quiet))).weaken fun e m' he => ?_).mono fun a m' ha => ?_
  · exact (hquiet he.1.sane he.2).1
  · exact ⟨ha.1, hquiet (hQ a m' ha.1) ha.2⟩

/-! ## Capturing -/

/-- **The variable of a slot is listed, or it is made and listed.** -/
theorem captureUpvalue_cases (ht : m.heap.Tidy) (ho : m.Ordered) (index : Nat) :
    (∃ u ∈ m.openUpvalues, m.heap.OnStack u index ∧ captureUpvalue index m = .ok u m) ∨
    ∃ high low u heap, m.openUpvalues = high ++ low ∧
      (∀ x ∈ high, ∀ slot, m.heap.OnStack x slot → index < slot) ∧
      (∀ x ∈ low, ∀ slot, m.heap.OnStack x slot → slot < index) ∧
      m.heap.alloc (.mk fun _ => m.roots) (.upvalue (.stacked index)) = (u, heap) ∧
      captureUpvalue index m = .ok u { m with heap, openUpvalues := high ++ u :: low } := by
  rcases searchOpen_spec index ho.opened ho.sorted with
    ⟨u, before, hfound, hu, hindex⟩ | ⟨high, low, hsplit, hnone, hhigh, hlow⟩
  · refine Or.inl ⟨u, hu, hindex, ?_⟩
    have hends : Ends (fun _ _ => False) (captureUpvalue index) m fun a m' => a = u ∧ m' = m := by
      unfold captureUpvalue
      exact .get (.look_bind hfound (.pure ⟨rfl, rfl⟩))
    obtain ⟨_, _, hrun, rfl, rfl⟩ := hends.ok
    exact hrun
  · refine Or.inr ⟨high, low, _, _, hsplit, hhigh, hlow, rfl, ?_⟩
    have hends : Ends (fun _ _ => False) (captureUpvalue index) m fun a m' =>
        a = (m.heap.alloc (.mk fun _ => m.roots) (.upvalue (.stacked index))).1 ∧
        m' = { m with
          heap := (m.heap.alloc (.mk fun _ => m.roots) (.upvalue (.stacked index))).2
          openUpvalues := high ++
            (m.heap.alloc (.mk fun _ => m.roots) (.upvalue (.stacked index))).1 :: low } := by
      unfold captureUpvalue
      refine .get (.look_bind hnone (.bind (Q := fun a m' =>
        a = (m.heap.alloc (.mk fun _ => m.roots) (.upvalue (.stacked index))).1 ∧
        m' = { m with
          heap := (m.heap.alloc (.mk fun _ => m.roots) (.upvalue (.stacked index))).2 })
        (.modifyGet ⟨rfl, rfl⟩) fun a m' ha => ?_))
      obtain ⟨rfl, rfl⟩ := ha
      refine .bind (Q := fun _ m' => m' = _) (.modify rfl) fun _ m' hm' => .pure ⟨rfl, hm'.trans ?_⟩
      dsimp only
      rw [hsplit, insertIdx_length]
    obtain ⟨_, _, hrun, rfl, rfl⟩ := hends.ok
    exact hrun

theorem captureUpvalue_neat (ho : m.Orderly clean) (index : Nat) :
    Neat clean (captureUpvalue index) m fun u m' =>
      m'.Orderly clean ∧ m.Upholds m' ∧ m'.Lists u := by
  have htame := captureUpvalue_tame ho.sane index
  unfold Tame Ends at htame
  unfold Neat Ends
  rcases captureUpvalue_cases ho.sane.heap.tidy ho.ordered index with
    ⟨u, hu, -, hrun⟩ | ⟨high, low, u, heap, hsplit, hhigh, hlow, ha, hrun⟩
  · rw [hrun]
    exact ⟨ho, .refl, fun _ _ => hu⟩
  · have hnew := Heap.alloc_allocates ho.sane.heap.tidy (.mk fun _ => m.roots)
      (.upvalue (.stacked index))
    rw [ha] at hnew
    obtain ⟨hordered, hupholds⟩ := ho.ordered.insert hsplit hnew hhigh hlow
    rw [hrun] at htame ⊢
    exact ⟨ho.to htame.1.sane hordered hupholds, hupholds, fun _ _ =>
      List.mem_append_right _ List.mem_cons_self⟩

/-- A variable of the running closure is listed, as long as those of all closures are. -/
theorem frameUpvalue_neat (ho : m.Orderly clean) (i : UInt8) :
    Neat clean (frameUpvalue i) m fun u m' => m' = m ∧ m.heap.kind? u = some .upvalue ∧
      (clean → m.Lists u) := by
  unfold frameUpvalue
  refine ((frame_tame ho.sane).quiet (fun _ _ h => h.1 ▸ ho.sane) ho).bind fun f m₁ hf => ?_
  obtain ⟨⟨rfl, hf⟩, -⟩ := hf
  obtain ⟨c, bytes, hc, -⟩ := ho.sane.frames f (List.mem_of_mem_head? hf)
  refine .look_bind (Heap.closure_of_cell? hc) ?_
  cases hu : c.upvalues[i.toNat]? with
  | none => exact .fail ho
  | some u =>
    have hmem := Array.mem_of_getElem? hu
    exact .pure ⟨rfl, (ho.sane.heap.fit hc).2 u hmem, fun hclean => ho.tracked hclean _ c bytes hc u hmem⟩

theorem readByte_neat (ho : m.Orderly clean) :
    Neat clean readByte m fun _ m' => m'.Orderly clean ∧ m.Upholds m' :=
  ((readByte_tame ho.sane).quiet (fun _ _ h => h.sane) ho).mono fun _ _ h => ⟨h.2.1, h.2.2.upholds⟩

/-- **The variables that a closure captures are listed.** -/
theorem captures_neat (base count : Nat) {upvalues : Array Handle} (ho : m.Orderly clean)
    (hupvalues : clean → ∀ u ∈ upvalues, m.Lists u) :
    Neat clean (captures base count upvalues) m fun us m' => m'.Orderly clean ∧
      (clean → ∀ u ∈ us, m'.Lists u) := by
  induction count generalizing m upvalues with
  | zero => exact .pure ⟨ho, hupvalues⟩
  | succ count ih =>
    unfold captures
    refine (readByte_neat ho).bind fun origin m₁ h₁ => (readByte_neat h₁.1).bind fun index m₂ h₂ => ?_
    have hfound : Neat clean (if origin ≠ 0 then captureUpvalue (base + index.toNat)
        else frameUpvalue index) m₂
        fun u m' => m'.Orderly clean ∧ m₂.Upholds m' ∧ (clean → m'.Lists u) := by
      refine .ite (fun _ => ?_) fun _ => ?_
      · exact (captureUpvalue_neat h₂.1 _).mono fun u m' h => ⟨h.1, h.2.1, fun _ => h.2.2⟩
      · refine (frameUpvalue_neat h₂.1 index).mono fun u m' h => ?_
        obtain ⟨rfl, -, hlists⟩ := h
        exact ⟨h₂.1, .refl, hlists⟩
    refine hfound.ite_bind fun u m₃ h₃ => ih h₃.1 fun hclean y hy => ?_
    rcases Array.mem_push.1 hy with hy | rfl
    · exact h₃.2.1.lists (h₂.2.lists (h₁.2.lists (hupvalues hclean y hy)))
    · exact h₃.2.2 hclean

/-- An object is made; a closure is made of listed variables. -/
theorem alloc_neat {o : Object} (ho : m.Orderly clean) (hkind : o.kind ≠ .string)
    (hrefs : ∀ r ∈ o.references, m.heap.Live r) (hfit : m.heap.Fit o)
    (hlists : ∀ c, o = .closure c → clean → ∀ u ∈ c.upvalues, m.Lists u) :
    Neat clean (alloc o) m fun x m' => m'.Orderly clean ∧ m'.heap.cell? x = some ⟨o, o.storage⟩ := by
  obtain ⟨hs, -, hcell, -⟩ := alloc_tame ho.sane hkind hrefs hfit
  have ha := Heap.alloc_allocates ho.sane.heap.tidy (.mk fun _ => m.roots) o
  set x := (m.heap.alloc (.mk fun _ => m.roots) o).1
  set heap := (m.heap.alloc (.mk fun _ => m.roots) o).2
  have hback : ∀ {u slot}, u ≠ x → heap.OnStack u slot → m.heap.OnStack u slot :=
    fun hu ⟨bytes, hc⟩ => ⟨bytes, ha.old hu hc⟩
  have hkept : ∀ u ∈ m.openUpvalues, u ≠ x ∧ heap.cell? u = m.heap.cell? u := by
    intro u hu
    obtain ⟨slot, hslot⟩ := ho.ordered.opened u hu
    exact ha.kept (.root (List.mem_append_right _ (Machine.opened_subset_roots u hu)) hslot.contains)
  refine .modifyGet ⟨⟨hs, ⟨fun u hu => ?_, ?_⟩, fun hclean y c bytes hc u hu slot hslot => ?_⟩, hcell⟩
  · obtain ⟨slot, hslot⟩ := ho.ordered.opened u hu
    exact ⟨slot, hslot.congr (hkept u hu).2⟩
  · exact ho.ordered.sorted.imp_of_mem fun hu hu' hlt slot slot' hs hs' =>
      hlt slot slot' (hback (hkept _ hu).1 hs) (hback (hkept _ hu').1 hs')
  · have hmem : u ∈ (Object.closure c).references :=
      List.mem_cons_of_mem _ (Array.mem_toList_iff.2 hu)
    by_cases hy : y = x
    · rw [hy] at hc
      cases ha.new.symm.trans hc
      have hne := (ha.kept (.root (List.mem_append_left _ hmem) (hrefs u hmem))).1
      exact hlists c rfl hclean u hu slot (hback hne hslot)
    · have hold := ha.old hy hc
      have hne := (ha.closed hy hc hmem (ho.sane.heap.closed hold hmem)).1
      exact ho.tracked hclean y c bytes hold u hu slot (hback hne hslot)

theorem makeClosure_neat (ho : m.Orderly clean) :
    Neat clean makeClosure m fun _ m' => m'.Orderly clean := by
  unfold makeClosure
  refine ((readObject_tame ho.sane .function).quiet (fun _ _ h => h.1.sane) ho).bind fun x m₁ h₁ => ?_
  obtain ⟨⟨-, hkind, hreach⟩, ho₁, -⟩ := h₁
  obtain ⟨f, bytes, hf⟩ := Heap.function_of_kind? hkind
  refine .look_bind (Heap.function_eq_ok_iff.2 ⟨bytes, hf⟩) ?_
  refine ((frame_tame ho₁.sane).quiet (fun _ _ h => h.1 ▸ ho₁.sane) ho₁).bind fun fr m₂ hfr => ?_
  obtain ⟨⟨rfl, -⟩, -⟩ := hfr
  -- the variables are alive, and they are listed
  have hnone : ∀ u ∈ (#[] : Array Handle), Captured m₂ u := by simp
  have hcaptures := (captures_tame fr.base f.upvalueCount ho₁.sane hnone).and
    (captures_neat fr.base f.upvalueCount ho₁ (by simp))
  refine (hcaptures.weaken fun _ _ h => h.2).bind fun us m₃ h₃ => ?_
  obtain ⟨⟨hcarries, hus⟩, ho₃, hlists⟩ := h₃
  have hkind₃ : m₃.heap.kind? x = some .function := (hcarries.kind? hreach).trans hkind
  have hrefs : ∀ r ∈ (Object.closure { function := x, upvalues := us }).references,
      m₃.heap.Live r := by
    intro r hr
    rcases List.mem_cons.1 hr with rfl | hr
    · exact Heap.live_of_kind? hkind₃
    · exact Heap.live_of_kind? (hus r (Array.mem_toList_iff.1 hr)).1
  refine (alloc_neat ho₃ (by simp [Object.kind]) hrefs ⟨hkind₃, fun u hu => (hus u hu).1⟩
    fun c hc => by cases hc; exact hlists).bind fun y m₄ h₄ => ?_
  exact ((push_tame h₄.1.sane (in_obj (Heap.contains_of_cell? h₄.2))).quiet (fun _ _ h => h) h₄.1).mono fun _ _ h => h.2.1

/-! ## Variables that leave the stack -/

theorem setUpvalue_writes {E : Failure → Machine → Prop} {u : Handle} {w : Upvalue}
    (hw : m.heap.upvalue u = .ok w) (w' : Upvalue) :
    Ends E (update (·.setUpvalue u w')) m fun _ m' =>
      m' = { m with heap := m.heap.replace u (.upvalue w') } := by
  have hset : m.heap.setUpvalue u w' = .ok (m.heap.replace u (.upvalue w')) := by
    rw [Heap.setUpvalue, hw]
    rfl
  have hrun : update (·.setUpvalue u w') m = .ok () { m with heap := m.heap.replace u (.upvalue w') } := by
    simp only [update, hset]
  unfold Ends
  rw [hrun]

/-- **The listed variables from a slot up leave the stack**, until one of them is in a slot that is not
there. -/
theorem closeFrom_ends (last : Nat) {opened : List Handle} (ho : m.Ordered)
    (hopen : m.openUpvalues = opened) :
    Ends (fun _ m' => m'.Ordered ∧ m.Upholds m' ∧
        ∃ u ∈ opened, ∃ slot, m.heap.OnStack u slot ∧ m.stack.size ≤ slot)
      (closeFrom last opened) m fun _ m' => m'.Ordered ∧ m.Upholds m' ∧ m.ClosesFrom last m' := by
  induction opened generalizing m with
  | nil => exact .pure ⟨ho, .refl, .none (by simp [hopen])⟩
  | cons u rest ih =>
    have hmem : ∀ x ∈ u :: rest, x ∈ m.openUpvalues := fun x hx => hopen ▸ hx
    obtain ⟨index, hindex⟩ := ho.opened u (hmem u List.mem_cons_self)
    unfold closeFrom
    refine .look_bind hindex.upvalue (.ite (fun hle => ?_) fun hlt => ?_)
    · cases hv : m.stack[index]? with
      | none =>
        refine Ends.bind (Q := fun _ _ => False) ?_ fun _ _ h => h.elim
        unfold slot
        refine .get ?_
        rw [hv]
        exact .fail ⟨ho, .refl, u, List.mem_cons_self, index, hindex, Array.getElem?_eq_none_iff.1 hv⟩
      | some v =>
        obtain ⟨ho', hupholds, hne⟩ := ho.close hopen hindex v
        obtain ⟨bytes, hcell⟩ := id hindex
        have hcells := Heap.cell?_replace hcell (.upvalue (.closed v))
        refine Ends.bind (Q := fun w m' => w = v ∧ m' = m) ?_ fun w m' hw => ?_
        · unfold slot
          refine .get ?_
          rw [hv]
          exact .pure ⟨rfl, rfl⟩
        obtain ⟨rfl, rfl⟩ := hw
        refine (setUpvalue_writes hindex.upvalue (.closed w)).bind fun _ m₁ h₁ => ?_
        subst h₁
        refine .bind (Q := fun _ m₂ => m₂ = { m' with
          heap := m'.heap.replace u (.upvalue (.closed w)), openUpvalues := rest }) (.modify rfl)
          fun _ m₂ h₂ => ?_
        subst h₂
        refine ((ih ho' rfl).weaken fun _ m₃ h₃ => ?_).mono fun _ m₃ h₃ =>
          ⟨h₃.1, hupholds.trans h₃.2.1, .cons ho hopen hindex hle hv h₃.2.2⟩
        obtain ⟨ho₃, hupholds₃, x, hx, slot, hs, hsize⟩ := h₃
        refine ⟨ho₃, hupholds.trans hupholds₃, x, List.mem_cons_of_mem _ hx, slot, ?_, hsize⟩
        exact hs.congr ((hcells x).trans (if_neg (hne x hx))).symm
    · refine .pure ⟨ho, .refl, .none fun x hx slot hs => ?_⟩
      -- the others are in lower slots still
      have hsorted := ho.sorted
      rw [hopen] at hx hsorted
      rcases List.mem_cons.1 hx with rfl | hx
      · rw [hs.unique hindex]
        omega
      · have := (List.pairwise_cons.1 hsorted).1 x hx index slot hindex hs
        omega

/-- **The listed variables from a slot up leave the stack**, if all listed slots are there. -/
theorem closeUpvalues_closes (ho : m.Ordered) (last : Nat)
    (hslots : ∀ u ∈ m.openUpvalues, ∀ slot, m.heap.OnStack u slot → slot < m.stack.size) :
    ∃ m', closeUpvalues last m = .ok () m' ∧ m'.Ordered ∧ m.ClosesFrom last m' := by
  have hends : Ends (fun _ _ => False) (closeUpvalues last) m fun _ m' =>
      m'.Ordered ∧ m.ClosesFrom last m' := by
    unfold closeUpvalues
    refine .get (((closeFrom_ends last ho rfl).weaken fun _ m' h => ?_).mono fun _ m' h => ⟨h.1, h.2.2⟩)
    obtain ⟨-, -, u, hu, slot, hs, hsize⟩ := h
    exact absurd (hslots u hu slot hs) (Nat.not_lt.2 hsize)
  obtain ⟨_, m', hrun, hm'⟩ := hends.ok
  exact ⟨m', hrun, hm'⟩

theorem closeUpvalues_neat (ho : m.Orderly clean) (last : Nat) :
    Neat clean (closeUpvalues last) m fun _ m' => m'.Orderly clean ∧
      ∀ x, m.heap.Live x → m'.heap.Live x := by
  have hends : Ends (fun _ m' => m'.Ordered ∧ m.Upholds m') (closeUpvalues last) m fun _ m' =>
      m'.Ordered ∧ m.Upholds m' := by
    unfold closeUpvalues
    exact .get (((closeFrom_ends last ho.ordered rfl).weaken fun _ _ h => ⟨h.1, h.2.1⟩).mono
      fun _ _ h => ⟨h.1, h.2.1⟩)
  refine (((closeUpvalues_tame ho.sane last).and hends).weaken fun _ m' h => ?_).mono fun _ m' h => ?_
  · exact ho.to h.1.sane h.2.1 h.2.2
  · exact ⟨ho.to h.1.1 h.2.1 h.2.2, h.1.2⟩

theorem closeTop_neat (ho : m.Orderly clean) : Neat clean closeTop m fun _ m' => m'.Orderly clean := by
  unfold closeTop
  refine ((below_tame ho.sane 0).quiet (fun _ _ h => h ▸ ho.sane) ho).bind fun top m₁ h₁ => ?_
  refine (closeUpvalues_neat h₁.2.1 top).bind fun _ m₂ h₂ => ?_
  exact ((pop_tame h₂.1.sane).quiet (fun _ _ h => h.2.1) h₂.1).bind fun _ m₃ h₃ => .pure h₃.2.1

theorem ret_neat (ho : m.Orderly clean) : Neat clean ret m fun _ m' => m'.Orderly clean := by
  unfold ret
  refine ((pop_tame ho.sane).quiet (fun _ _ h => h.2.1) ho).bind fun result m₁ h₁ => ?_
  obtain ⟨⟨hresult, -, hheap⟩, ho₁, -⟩ := h₁
  refine ((frame_tame ho₁.sane).quiet (fun _ _ h => h.1 ▸ ho₁.sane) ho₁).bind fun f m₂ hf => ?_
  obtain ⟨⟨rfl, -⟩, -⟩ := hf
  have htail : { m₂ with frames := m₂.frames.tail }.Orderly clean :=
    ho₁.to ho₁.sane.tail ⟨ho₁.ordered.opened, ho₁.ordered.sorted⟩ ⟨id, id⟩
  refine .bind (Q := fun _ m' => m' = { m₂ with frames := m₂.frames.tail }) (.modify rfl)
    fun _ m₃ h₃ => ?_
  subst h₃
  refine (closeUpvalues_neat htail f.base).bind fun _ m₄ h₄ => .get ?_
  obtain ⟨ho₄, hlive⟩ := h₄
  refine .ite (fun _ => .bind (Q := fun _ m' => m'.Orderly clean) (.modify ?_) fun _ _ h => .pure h)
    fun _ => ?_
  · exact ho₄.to (ho₄.sane.stack_to (by simp) (Nat.zero_le _))
      ⟨ho₄.ordered.opened, ho₄.ordered.sorted⟩ ⟨id, id⟩
  · refine ((truncate_tame ho₄.sane f.base).quiet (fun _ _ h => h.1) ho₄).bind fun _ m₅ h₅ => ?_
    refine ((push_tame h₅.2.1.sane fun x hx => ?_).quiet (fun _ _ h => h) h₅.2.1).bind
      fun _ m₆ h₆ => .pure h₆.2.1
    rw [h₅.1.2]
    exact hlive x (hheap ▸ hresult x hx)

/-- A variable that has left the stack is assigned to. -/
theorem setUpvalue_neat (ho : m.Orderly clean) :
    Neat clean setUpvalue m fun _ m' => m'.Orderly clean := by
  unfold setUpvalue
  refine (readByte_neat ho).bind fun i m₁ h₁ => ?_
  refine (frameUpvalue_neat h₁.1 i).bind fun x m₂ hx => ?_
  obtain ⟨rfl, hkind, -⟩ := hx
  refine ((peek_tame h₁.1.sane 0).quiet (fun _ _ h => h.1 ▸ h₁.1.sane) h₁.1).bind fun v m₃ hv => ?_
  obtain ⟨⟨rfl, hv⟩, ho₃, -⟩ := hv
  obtain ⟨u, bytes, hc⟩ := Heap.upvalue_of_kind? hkind
  refine .look_bind (Heap.upvalue_of_cell? hc) ?_
  cases u with
  | stacked slot =>
    exact ((setSlot_tame ho₃.sane slot hv).quiet (fun _ _ h => h.1) ho₃).mono fun _ _ h => h.2.1
  | closed w =>
    have hcells := Heap.cell?_replace hc (.upvalue (.closed v))
    have hstack : ∀ {y slot}, (m₃.heap.replace x (.upvalue (.closed v))).OnStack y slot ↔
        m₃.heap.OnStack y slot := by
      intro y slot
      unfold Heap.OnStack
      rw [hcells]
      by_cases hy : y = x
      · simp [hy, hc]
      · rw [if_neg hy]
    have hs : Ends (fun _ _ => True) (update (·.setUpvalue x (.closed v))) m₃ fun _ m' => m'.Sane ∧
        m' = { m₃ with heap := m₃.heap.replace x (.upvalue (.closed v)) } :=
      (setUpvalue_heap_tame ho₃.sane hkind hv).weaken fun _ _ _ => trivial
    refine ((hs.and (setUpvalue_writes (E := fun _ _ => False) (Heap.upvalue_of_cell? hc)
      (.closed v))).weaken fun _ _ h => h.2.elim).mono fun _ m' h => ?_
    obtain ⟨⟨hs, -⟩, rfl⟩ := h
    refine ho₃.to hs ⟨fun y hy => ?_, ?_⟩ ⟨fun {y c bytes} hy => ?_, fun {y} hlists slot hs => ?_⟩
    · obtain ⟨slot, hs⟩ := ho₃.ordered.opened y hy
      exact ⟨slot, hstack.2 hs⟩
    · exact ho₃.ordered.sorted.imp fun hlt slot slot' hs hs' =>
        hlt slot slot' (hstack.1 hs) (hstack.1 hs')
    · dsimp only at hy
      rw [hcells] at hy
      split at hy
      · cases hy
      · exact hy
    · exact hlists slot (hstack.1 hs)

/-! ## Every instruction -/

/-- An operation with quiet effects only. -/
theorem perform_quiet {op : Opcode} (hop : ∀ e ∈ op.effects, e.Quiet) (ho : m.Orderly clean) :
    Neat clean (perform op) m fun _ m' => m'.Orderly clean :=
  have := perform_effects op hop
  ((perform_safe op m ho.sane).quiet (fun _ _ h => h) ho).mono fun _ _ h => h.2.1

theorem Ends.goOn {β : Type} {y : Run β} (h : Neat clean y m fun _ m' => m'.Orderly clean) :
    Neat clean (do let _ ← y; return false) m fun _ m' => m'.Orderly clean :=
  h.bind fun _ _ h => .pure h

/-- **Every instruction keeps the list of the variables on the stack in order.** -/
theorem perform_neat (ho : m.Orderly clean) (op : Opcode) :
    Neat clean (perform op) m fun _ m' => m'.Orderly clean := by
  cases op with
  | setUpvalue => exact (setUpvalue_neat ho).goOn
  | closure => exact (makeClosure_neat ho).goOn
  | closeUpvalue => exact (closeTop_neat ho).goOn
  | ret => exact ret_neat ho
  | _ => exact perform_quiet (by simp [Opcode.effects, Effect.Quiet]) ho

theorem execute_neat (ho : m.Orderly clean) :
    Neat clean execute m fun _ m' => m'.Orderly clean := by
  unfold execute
  have hnext : ∀ {m : Machine}, m.Orderly clean →
      Neat clean (do perform (← readOpcode)) m fun _ m' => m'.Orderly clean := fun {m} ho =>
    ((readOpcode_tame ho.sane).quiet (fun _ _ h => h) ho).bind fun op m' h => perform_neat h.2.1 op
  refine .get (.ite (fun _ => ?_) fun _ => hnext ho)
  exact ((report_tame ho.sane).quiet (fun _ _ h => h) ho).bind fun _ m₁ h₁ => hnext h₁.2.1

end Run

end LoxMachine

import LoxMachine.Proofs.Heap.Lifetimes

/-!
# Handles are never recycled

* `Heap.Rejects heap h`: the handle names nothing. Every way to look at its object fails, and neither as
  a root nor inside of an object does it keep anything alive, whatever is in its place by now.
* `Past.Dated.answered`: an operation answers a handle of an object there was, or one that was never
  issued.
* `Past.never_recycled`: a new object gets a handle that was never issued, and a handle whose object has
  been freed is rejected from then on.
-/

namespace LoxMachine

namespace Heap

variable {heap heap' : Heap} {h x : Handle} {roots : List Handle}

/-- What an object refers to, other than `h`. -/
def referencesBut (heap : Heap) (h x : Handle) : Option (List Handle) :=
  (heap.cell? x).map fun cell => cell.object.references.filter (· ≠ h)

/-- The handle names nothing, and counts for nothing. -/
structure Rejects (heap : Heap) (h : Handle) : Prop where
  contains : heap.contains h = false
  object : heap.object h = .error (.freed h)
  kinds : heap.kindOf (.obj h) = .error (.freed h) ∧
    ∀ kind, heap.asKind kind (.obj h) = .error (.freed h)
  string : heap.string h = .error (.freed h) ∧ heap.contents h = .error (.freed h) ∧
    heap.key h = .error (.freed h)
  function : heap.function h = .error (.freed h) ∧ heap.functionName h = .error (.freed h)
  native : heap.native h = .error (.freed h)
  closure : heap.closure h = .error (.freed h)
  upvalue : heap.upvalue h = .error (.freed h) ∧ ∀ u, heap.setUpvalue h u = .error (.freed h)
  cls : heap.cls h = .error (.freed h) ∧
    (∀ key v, heap.setMethod h key v = .error (.freed h)) ∧
    (∀ sub, heap.inheritMethods h sub = .error (.freed h)) ∧
    ∀ super c, heap.cls super = .ok c → heap.inheritMethods super h = .error (.freed h)
  inst : heap.inst h = .error (.freed h) ∧ ∀ key v, heap.setField h key v = .error (.freed h)
  bound : heap.bound h = .error (.freed h)
  display : heap.display (.obj h) = .error (.freed h)
  /-- As a root it keeps nothing alive. -/
  root : ∀ before after, heap.collect (before ++ h :: after) = heap.collect (before ++ after)
  /-- Inside of objects it keeps nothing alive, whatever else is marked. -/
  stored : ∀ heap' : Heap, heap'.Tidy → heap'.gray = heap.gray →
    (∀ x, heap'.referencesBut h x = heap.referencesBut h x) → ∀ roots x,
      (heap'.collect roots).contains x = (heap.collect roots).contains x

/-! ## Marking -/

theorem mark_of_gone (hgone : heap.contains h = false) (m : Marking) : heap.mark m h = m := by
  simp [mark, hgone]

/-- A root that names nothing is not marked. -/
theorem reach_of_gone (hgone : heap.contains h = false) (before after : List Handle) :
    heap.reach (before ++ h :: after) = heap.reach (before ++ after) := by
  unfold reach
  rw [List.foldl_append, List.foldl_cons, mark_of_gone hgone, ← List.foldl_append]

theorem collect_of_gone (hgone : heap.contains h = false) (before after : List Handle) :
    heap.collect (before ++ h :: after) = heap.collect (before ++ after) := by
  unfold collect
  rw [reach_of_gone hgone]

theorem contains_of_referencesBut (hsame : ∀ x, heap'.referencesBut h x = heap.referencesBut h x)
    (x : Handle) : heap'.contains x = heap.contains x := by
  have hx := congrArg Option.isSome (hsame x)
  simpa [referencesBut, contains] using hx

/-- A reference that names nothing is not followed. -/
theorem Reachable.of_referencesBut (hgone : heap.contains h = false)
    (hsame : ∀ x, heap'.referencesBut h x = heap.referencesBut h x)
    (hx : heap.Reachable roots x) : heap'.Reachable roots x := by
  induction hx with
  | root hm hc => exact .root hm ((contains_of_referencesBut hsame _).trans hc)
  | @reference y r cell _ hcell hr hc ih =>
    have hne : r ≠ h := by
      rintro rfl
      rw [hgone] at hc
      cases hc
    have hmem : r ∈ cell.object.references.filter (· ≠ h) := List.mem_filter.2 ⟨hr, by simpa using hne⟩
    have hy := hsame y
    simp only [referencesBut, hcell, Option.map_some, Option.map_eq_some_iff] at hy
    obtain ⟨cell', hcell', heq⟩ := hy
    rw [← heq] at hmem
    exact .reference ih hcell' (List.mem_filter.1 hmem).1
      ((contains_of_referencesBut hsame r).trans hc)

theorem contains_collect_of_gone (ht : heap.Tidy) (ht' : heap'.Tidy) (hgray : heap'.gray = heap.gray)
    (hgone : heap.contains h = false) (hsame : ∀ x, heap'.referencesBut h x = heap.referencesBut h x)
    (roots : List Handle) (x : Handle) :
    (heap'.collect roots).contains x = (heap.collect roots).contains x := by
  have hgone' : heap'.contains h = false := (contains_of_referencesBut hsame h).trans hgone
  rw [Bool.eq_iff_iff, (exact_collect ht' roots).contains, (exact_collect ht roots).contains, hgray]
  exact ⟨.of_referencesBut hgone' fun x => (hsame x).symm, .of_referencesBut hgone hsame⟩

/-- **A handle that names nothing is rejected.** -/
theorem rejects_of_gone (ht : heap.Tidy) (hgone : heap.contains h = false) : heap.Rejects h := by
  have hcell : heap.cell? h = none := by simpa [Heap.contains] using hgone
  have hobject : heap.object h = .error (.freed h) := by simp [Heap.object, hcell]
  have hcls : heap.cls h = .error (.freed h) := by simp [Heap.cls, hobject, bind, Except.bind]
  have hstring : heap.string h = .error (.freed h) := by simp [Heap.string, hobject, bind, Except.bind]
  have hfunction : heap.function h = .error (.freed h) := by
    simp [Heap.function, hobject, bind, Except.bind]
  have hupvalue : heap.upvalue h = .error (.freed h) := by
    simp [Heap.upvalue, hobject, bind, Except.bind]
  have hinst : heap.inst h = .error (.freed h) := by simp [Heap.inst, hobject, bind, Except.bind]
  refine ⟨hgone, hobject, ⟨?_, fun kind => ?_⟩, ⟨hstring, ?_, ?_⟩, ⟨hfunction, ?_⟩, ?_, ?_,
    ⟨hupvalue, fun u => ?_⟩, ⟨hcls, fun key v => ?_, fun sub => ?_, fun super c hsuper => ?_⟩,
    ⟨hinst, fun key v => ?_⟩, ?_, ?_, collect_of_gone hgone, fun heap' ht' hgray hsame =>
      contains_collect_of_gone ht ht' hgray hgone hsame⟩
  · simp [kindOf, hobject, bind, Except.bind]
  · simp [asKind, hobject, bind, Except.bind]
  · simp [contents, hstring, bind, Except.bind]
  · simp [key, hstring, bind, Except.bind]
  · simp [functionName, hfunction, bind, Except.bind]
  · simp [native, hobject, bind, Except.bind]
  · simp [closure, hobject, bind, Except.bind]
  · simp [setUpvalue, hupvalue, bind, Except.bind]
  · simp [setMethod, hcls, bind, Except.bind]
  · simp [inheritMethods, hcls, bind, Except.bind]
  · simp [inheritMethods, hcls, hsuper, bind, Except.bind]
  · simp [setField, hinst, bind, Except.bind]
  · simp [bound, hobject, bind, Except.bind]
  · simp [Heap.display, hobject, bind, Except.bind]

end Heap

/-! ## Histories -/

namespace Past

variable {past now : Past} {h : Handle}

/-- **An operation answers a handle of an object there was, or one that was never issued**, unless a
place has been freed so often that the generations wrap around. -/
theorem Dated.answered (hd : past.Dated) (allowed : Past → Handle → Prop) {answered : List Handle}
    {heap : Heap}
    (hp : past.heap.Performs (allowed past) answered heap)
    (hbound : ∀ i, (past.after answered heap).frees i < 2 ^ 32) (hh : h ∈ answered)
    (hknown : past.Knows h) : past.heap.contains h = true := by
  by_contra hdead
  have hgone := hd.not_revived (.step .refl hp) hbound hknown (Bool.eq_false_iff.2 hdead)
  have hgiven := (hp.turns hd.tidy).given h hh
  change heap.contains h = false at hgone
  rw [hgiven] at hgone
  cases hgone

/-- **Handles are never recycled.** As long as no place is freed `2 ^ 32` times, an allocation answers a
handle that was never issued before, and interning one of a string there is or such a handle. A handle
whose object has been freed is rejected by the heap from then on. -/
theorem never_recycled {config : GcConfig} {journal : Journal}
    (hl : (new config journal).Leads (fun _ _ => True) past) :
    (∀ roots o, (∀ i, (past.after [(past.heap.alloc roots o).1] (past.heap.alloc roots o).2).frees i <
        2 ^ 32) → ¬past.Knows (past.heap.alloc roots o).1) ∧
      (∀ roots s, (∀ i, (past.after [(past.heap.intern roots s).1]
          (past.heap.intern roots s).2).frees i < 2 ^ 32) →
        past.heap.contents (past.heap.intern roots s).1 = .ok s ∨
          ¬past.Knows (past.heap.intern roots s).1) ∧
      ∀ h now, past.Knows h → past.heap.contains h = false → past.Leads (fun _ _ => True) now →
        (∀ i, now.frees i < 2 ^ 32) → now.heap.Rejects h := by
  have hd := hl.dated (dated_new config journal)
  refine ⟨fun roots o hbound hknown => ?_, fun roots s hbound => ?_, fun h now hh hgone hlater hbound => ?_⟩
  · have hlive := hd.answered (fun _ _ => True) (.alloc roots fun _ _ => trivial) hbound
      List.mem_cons_self hknown
    rw [Heap.contains_alloc hd.tidy] at hlive
    cases hlive
  · rcases Heap.intern_spec hd.tidy roots s with ⟨hs, -⟩ | ⟨hnone, -⟩
    · exact .inl (Heap.contents_eq_ok_iff.2 hs)
    · refine .inr fun hknown => ?_
      have hlive := hd.answered (fun _ _ => True) (.intern roots s) hbound
        List.mem_cons_self hknown
      have hnew : (past.heap.intern roots s).1 =
          (past.heap.alloc roots (.string (Text.ofString s))).1 := by simp [Heap.intern, hnone]
      rw [hnew, Heap.contains_alloc hd.tidy] at hlive
      cases hlive
  · exact Heap.rejects_of_gone (hlater.dated hd).tidy (hd.not_revived hlater hbound hh hgone)

/-- An object has been made and collected. -/
def outlived : Past :=
  let made := (new {} {}).after [(Heap.alloc {} (Thunk.pure []) (.upvalue default)).1]
    (Heap.alloc {} (Thunk.pure []) (.upvalue default)).2
  made.after [] (made.heap.collect [])

/-- Another object has been made in its place. -/
def replaced : Past :=
  outlived.after [(outlived.heap.alloc (Thunk.pure []) (.upvalue default)).1]
    (outlived.heap.alloc (Thunk.pure []) (.upvalue default)).2

/-- A place is used again, under another handle: the old one neither names the new object nor keeps
it. -/
theorem never_recycled_replaced : replaced.heap.contains ⟨0, 1⟩ = true ∧ replaced.heap.Rejects ⟨0, 0⟩ := by
  have hmade : (new {} {}).Leads (fun _ _ => True) outlived :=
    .step (.step .refl (.alloc _ fun _ _ => trivial)) (.collect [])
  have hwhole : (new {} {}).Leads (fun _ _ => True) replaced := .step hmade (.alloc _ fun _ _ => trivial)
  have hbound : ∀ i, replaced.frees i < 2 ^ 32 := by
    intro i
    have hle := hwhole.frees_le_collections (dated_new {} {}) i
    have hfew : replaced.heap.collections ≤ 2 := by decide
    have hnone : (new {} {}).frees i = 0 := rfl
    omega
  have hknown : outlived.Knows ⟨0, 0⟩ := by
    show _ ∈ outlived.issued
    decide
  exact ⟨by decide, (never_recycled hmade).2.2 _ _ hknown (by decide)
    (.step .refl (.alloc _ fun _ _ => trivial)) hbound⟩

end Past

end LoxMachine

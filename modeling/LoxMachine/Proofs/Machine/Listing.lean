import LoxMachine.Proofs.Listing.Lines
import LoxMachine.Proofs.Machine.Steps

/-!
# Reports on the execution

* `Listing.instruction_ok`, `Listing.chunk_ok`: listing an instruction or a whole chunk does not fail, if
  the constants can be displayed.
* `report_meets`: reporting the stack and the next instruction changes nothing but the journal.
-/

namespace LoxMachine

namespace Listing

variable {α β : Type} {heap : Heap} {chunk : Chunk}

/-- The computation may meet bytes that cannot be decoded, but no fault. -/
def Answers (x : ExceptT DecodeError (Except Fault) α) : Prop := ∃ r, x.run = .ok r

theorem Answers.pure (a : α) : Answers (pure a) := ⟨.ok a, rfl⟩

theorem Answers.bind {x : ExceptT DecodeError (Except Fault) α}
    {f : α → ExceptT DecodeError (Except Fault) β} (hx : Answers x) (hf : ∀ a, Answers (f a)) :
    Answers (x >>= f) := by
  obtain ⟨r, hr⟩ := hx
  cases r with
  | error e =>
    refine ⟨.error e, ?_⟩
    rw [ExceptT.run_bind, hr]
    rfl
  | ok a =>
    obtain ⟨r, hr'⟩ := hf a
    refine ⟨r, ?_⟩
    rw [ExceptT.run_bind, hr]
    exact hr'

theorem answers_decode (e : Except DecodeError α) :
    Answers (liftM e : ExceptT DecodeError (Except Fault) α) := ⟨e, rfl⟩

theorem answers_lift {e : Except Fault α} (he : ∃ a, e = .ok a) :
    Answers (liftM e : ExceptT DecodeError (Except Fault) α) := by
  obtain ⟨a, rfl⟩ := he
  exact ⟨.ok a, rfl⟩

/-- The constants can be displayed. -/
def Displays (heap : Heap) (chunk : Chunk) : Prop :=
  ∀ v ∈ chunk.constants, (∃ s, heap.display v = .ok s) ∧ ∀ h, v = .obj h → heap.contains h = true

theorem constantText_ok (hc : Displays heap chunk) (i : UInt8) :
    ∃ s, constantText heap chunk i = .ok s := by
  unfold constantText
  cases hv : chunk.constants[i.toNat]? with
  | none => exact ⟨_, rfl⟩
  | some v => exact (hc v (Array.mem_of_getElem? hv)).1

theorem captureCount_ok (hc : Displays heap chunk) (i : UInt8) :
    ∃ n, captureCount heap chunk i = .ok n := by
  unfold captureCount
  split
  · rename_i h hv
    obtain ⟨cell, hcell⟩ := Heap.contains_iff.1 ((hc _ (Array.mem_of_getElem? hv)).2 h rfl)
    rw [Heap.object_of_cell? hcell]
    simp only [bind, Except.bind]
    split
    · exact ⟨_, rfl⟩
    · exact ⟨_, rfl⟩
  · exact ⟨_, rfl⟩

theorem operation_answers (hc : Displays heap chunk) (op : Opcode) (offset : Nat) :
    Answers (operation heap chunk op offset) := by
  unfold operation
  split
  · exact .pure _
  · exact (answers_decode _).bind fun _ => .pure _
  · exact (answers_decode _).bind fun i => (answers_lift (constantText_ok hc i)).bind
      fun _ => .pure _
  · exact (answers_decode _).bind fun _ => .pure _
  · exact (answers_decode _).bind fun _ => .pure _
  · exact (answers_decode _).bind fun i => (answers_decode _).bind fun _ =>
      (answers_lift (constantText_ok hc i)).bind fun _ => .pure _
  · exact (answers_decode _).bind fun i => (answers_lift (constantText_ok hc i)).bind fun _ =>
      (answers_lift (captureCount_ok hc i)).bind fun _ => (answers_decode _).bind fun _ => .pure _

/-- **Listing an instruction does not fail.** -/
theorem instruction_ok (hc : Displays heap chunk) (offset : Nat) :
    ∃ r, instruction heap chunk offset = .ok r := by
  unfold instruction
  dsimp only
  split
  · exact ⟨_, rfl⟩
  · exact ⟨_, rfl⟩
  · rename_i op _
    obtain ⟨r, hr⟩ := operation_answers hc op offset
    rw [hr]
    cases r with
    | ok text => exact ⟨_, rfl⟩
    | error e => exact ⟨_, rfl⟩

/-- **Listing a chunk does not fail.** -/
theorem chunk_ok (hc : Displays heap chunk) (title : String) :
    ∃ text, Listing.chunk heap chunk title = .ok text := by
  obtain ⟨lines, hlines⟩ := exists_lists (instruction_ok hc) 0
  exact ⟨_, chunk_of_lists hlines title⟩

end Listing

theorem mapM_ok {α β : Type} {f : α → Except Fault β} {l : List α}
    (h : ∀ a ∈ l, ∃ b, f a = .ok b) : ∃ bs, l.mapM f = .ok bs := by
  induction l with
  | nil => exact ⟨[], rfl⟩
  | cons a l ih =>
    obtain ⟨b, hb⟩ := h a List.mem_cons_self
    obtain ⟨bs, hbs⟩ := ih fun x hx => h x (List.mem_cons_of_mem _ hx)
    refine ⟨b :: bs, ?_⟩
    rw [List.mapM_cons, hb, hbs]
    rfl

namespace Run

variable {live : Handle → Prop} {k : Call} {outer : List Call} {marks : Shape} {n : Nat}
  {m : Machine}

/-- A heap with the same objects. -/
theorem busy_cells {heap : Heap} (h : m.Busy live k outer marks n) (ht : heap.Tidy)
    (hcells : ∀ x, heap.cell? x = m.heap.cell? x) : { m with heap }.Busy live k outer marks n := by
  refine h.heap_to ?_ (fun x hx => h.roots hx) (Heap.steady_of_cells fun x _ => hcells x)
    fun u _ slot => ⟨fun hs => hs.congr (hcells u).symm, fun hs => hs.congr (hcells u)⟩
  exact h.heap.shrink ht (fun _ hx => hx) (fun x cell r hx hc hr => h.heap.references hx hc hr)
    fun x _ => hcells x

/-- The constants of the running function can be displayed. -/
theorem displays_running (h : m.Busy live k outer marks n) :
    Listing.Displays m.heap k.function.chunk := by
  intro v hv
  obtain ⟨bytes, hcell⟩ := (h.known k List.mem_cons_self).function
  have hlive : v.In live := by
    rintro x rfl
    exact h.heap.references (h.function List.mem_cons_self).1 hcell
      (Heap.mem_references_of_constant hv)
  exact ⟨h.heap.display hlive, fun x hx => h.heap.contains (hlive x hx)⟩

/-- **A report changes nothing but the journal.** -/
theorem report_meets (h : m.Busy live k outer marks n) :
    Meets report m fun _ m' => m'.Busy live k outer marks n := by
  unfold report
  refine (frame_meets h).bind fun f m₁ hf => ?_
  obtain ⟨rfl, rfl⟩ := hf
  refine .get ?_
  dsimp only
  obtain ⟨texts, htexts⟩ := mapM_ok (f := m₁.heap.display) (l := m₁.stack.toList) fun v hv =>
    h.heap.display fun x hx => h.stack x (hx ▸ Array.mem_toList_iff.1 hv)
  refine .look_bind htexts ((runningChunk_meets h).bind fun c m₂ hc => ?_)
  obtain ⟨rfl, rfl⟩ := hc
  obtain ⟨r, hr⟩ := Listing.instruction_ok (displays_running h) k.frame.ip
  refine .look_bind hr (.modify (busy_cells h ((h.heap.tidy.record _).record _) fun x => ?_))
  simp

end Run

end LoxMachine

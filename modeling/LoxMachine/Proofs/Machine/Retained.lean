import LoxMachine.Proofs.Machine.Fetching
import LoxMachine.Proofs.Machine.Listed

/-!
# Objects that are left alone

* `Heap.Retains P Q heap heap'`: the objects picked by `P` that there are in `heap'` have been in `heap`, as
  they are. What they refer to is the same object, if it is of a kind in `Q`.
* `Changes.retains`: changes retain the objects of kinds that are neither made nor changed.
* `execute_performs`: a step performs the instruction that the innermost call is at.
* `execute_retains`: what a step retains.
-/

namespace LoxMachine

/-- The objects picked by `P` have been there before, as they are, and what they refer to is the same, if it is of
a kind in `Q`. -/
structure Heap.Retains (P : Handle → ObjectKind → Prop) (Q : ObjectKind → Prop) (heap heap' : Heap) : Prop where
  tidy : heap'.Tidy
  cells : ∀ {x : Handle} {cell : Cell}, P x cell.object.kind → heap'.cell? x = some cell → heap.cell? x = some cell
  references : ∀ {x r : Handle} {cell c : Cell}, P x cell.object.kind → heap'.cell? x = some cell →
    r ∈ cell.object.references → heap.cell? r = some c → Q c.object.kind → heap'.cell? r = some c

namespace Heap.Retains

variable {P P' : Handle → ObjectKind → Prop} {Q Q' : ObjectKind → Prop} {heap heap' heap'' : Heap} {x : Handle}

theorem refl (ht : heap.Tidy) : heap.Retains P Q heap := ⟨ht, fun _ h => h, fun _ _ _ hc _ => hc⟩

theorem trans (h : heap.Retains P Q heap') (h' : heap'.Retains P Q heap'') : heap.Retains P Q heap'' :=
  ⟨h'.tidy, fun hx hc => h.cells hx (h'.cells hx hc), fun hx hc hr hrc hq =>
    h'.references hx hc hr (h.references hx (h'.cells hx hc) hr hrc hq) hq⟩

theorem mono (h : heap.Retains P Q heap') (hP : ∀ x k, P' x k → P x k) (hQ : ∀ k, Q' k → Q k) :
    heap.Retains P' Q' heap' :=
  ⟨h.tidy, fun hx => h.cells (hP _ _ hx), fun hx hc hr hrc hq => h.references (hP _ _ hx) hc hr hrc (hQ _ hq)⟩

/-- What is picked of the objects that there are. -/
theorem mono_cells (h : heap.Retains P Q heap')
    (hP : ∀ {x cell}, heap'.cell? x = some cell → P' x cell.object.kind → P x cell.object.kind)
    (hQ : ∀ k, Q' k → Q k) : heap.Retains P' Q' heap' :=
  ⟨h.tidy, fun hx hc => h.cells (hP hc hx) hc, fun hx hc hr hrc hq =>
    h.references (hP hc hx) hc hr hrc (hQ _ hq)⟩

/-- The objects themselves are the same. -/
theorem of_cells (ht : heap'.Tidy) (hcells : ∀ x, heap'.cell? x = heap.cell? x) : heap.Retains P Q heap' :=
  ⟨ht, fun _ hc => (hcells _).symm.trans hc, fun _ _ _ hc _ => (hcells _).trans hc⟩

/-- An object is made that is not picked. -/
theorem allocates {roots : List Handle} {made : Object} (ha : heap.Allocates roots made x heap')
    (hnot : ¬P x made.kind) : heap.Retains P Q heap' := by
  have hne : ∀ {y cell}, P y cell.object.kind → heap'.cell? y = some cell → y ≠ x := by
    rintro y cell hy hc rfl
    cases ha.new.symm.trans hc
    exact hnot hy
  refine ⟨ha.tidy, fun hy hc => ha.old (hne hy hc) hc, fun {y r cell c} hy hc hr hrc _ => ?_⟩
  obtain ⟨hrx, hlive⟩ := ha.closed (hne hy hc) hc hr (contains_of_cell? hrc)
  obtain ⟨c', hc'⟩ := contains_iff.1 hlive
  rwa [← hrc, ha.old hrx hc'] 

/-- An object is changed that is not picked. -/
theorem replace (ht : heap.Tidy) {new : Object} {cell : Cell} (hcell : heap.cell? x = some cell)
    (hkind : cell.object.kind = new.kind) (hnot : ¬P x new.kind) (hQ : ¬Q new.kind) :
    heap.Retains P Q (heap.replace x new) := by
  have hcells := cell?_replace hcell new
  refine ⟨ht.replace hcell new, fun {y c} hy hc => ?_, fun {y r c c'} hy hc hr hrc hq => ?_⟩
  · rw [hcells] at hc
    split at hc
    · rename_i hyx
      cases hc
      exact absurd (hyx ▸ hy) hnot
    · exact hc
  · rw [hcells, if_neg]
    · exact hrc
    rintro rfl
    rw [hcell] at hrc
    cases hrc
    exact hQ (hkind ▸ hq)

/-- One object is another, of the same kind. -/
theorem of_others (ht : heap'.Tidy) {k : ObjectKind} (hkind : heap.kind? x = some k) (hkind' : heap'.kind? x = some k)
    (hothers : ∀ y ≠ x, heap'.cell? y = heap.cell? y) (hnot : ¬P x k) (hQ : ¬Q k) : heap.Retains P Q heap' := by
  refine ⟨ht, fun {y c} hy hc => ?_, fun {y r c c'} _ _ _ hrc hq => ?_⟩
  · refine (hothers y ?_).symm.trans hc
    rintro rfl
    rw [kind?_of_cell? hc, Option.some.injEq] at hkind'
    exact hnot (hkind' ▸ hy)
  · refine (hothers r ?_).trans hrc
    rintro rfl
    rw [kind?_of_cell? hrc, Option.some.injEq] at hkind
    exact hQ (hkind ▸ hq)

end Heap.Retains

namespace Machine

variable {p : Effect → Prop} {P : ObjectKind → Prop} {Q : ObjectKind → Prop} {m m' : Machine}

theorem Change.retains (h : Change p m m') (ht : m.heap.Tidy)
    (hP : ∀ k, P k → ¬p (.makes k) ∧ ¬p (.changes k)) (hQ : ∀ k, Q k → ¬p (.changes k)) :
    m.heap.Retains (fun _ => P) Q m'.heap := by
  cases h with
  | control heap opened =>
    rw [heap]
    exact .refl ht
  | record e => exact .of_cells (ht.record e) fun _ => Heap.cell?_record _ _ _
  | make o h hkind => exact .allocates (Heap.alloc_allocates ht _ o) fun ho => (hP _ ho).1 h
  | intern s h =>
    rcases Heap.intern_spec ht (.mk fun _ => m.roots) s with ⟨-, heq⟩ | ⟨-, ha, -⟩
    · rw [heq]
      exact .refl ht
    · exact .allocates ha fun ho => (hP _ ho).1 h
  | change o h hcell hkind hmutable =>
    exact .replace ht hcell hkind (fun ho => (hP _ ho).2 h) fun ho => hQ _ ho h
  | opened opened h => exact .refl ht

/-- **Objects of kinds that are neither made nor changed are retained.** -/
theorem Changes.retains (h : Changes p m m') (ht : m.heap.Tidy)
    (hP : ∀ k, P k → ¬p (.makes k) ∧ ¬p (.changes k)) (hQ : ∀ k, Q k → ¬p (.changes k)) :
    m.heap.Retains (fun _ => P) Q m'.heap := by
  induction h with
  | refl => exact .refl ht
  | tail _ h ih => exact ih.trans (h.retains ih.tidy hP hQ)

/-- An object of a kind that is not made has been there before. -/
theorem Change.older (h : Change p m m') (ht : m.heap.Tidy) {k : ObjectKind} (hk : ¬p (.makes k)) {x : Handle}
    (hx : m'.heap.kind? x = some k) : m.heap.kind? x = some k := by
  have hallocates : ∀ {roots : List Handle} {o : Object} {y : Handle} {heap : Heap},
      m.heap.Allocates roots o y heap → p (.makes o.kind) → heap.kind? x = some k → m.heap.kind? x = some k := by
    intro roots o y heap ha ho hx
    obtain ⟨o', bytes, hcell, rfl⟩ := Heap.cell?_of_kind? hx
    refine Heap.kind?_of_cell? (ha.old ?_ hcell)
    rintro rfl
    cases ha.new.symm.trans hcell
    exact hk ho
  cases h with
  | control heap opened => exact heap ▸ hx
  | record e => exact (Heap.kind?_congr (Heap.cell?_record _ _ _)).symm.trans hx
  | make o h hkind => exact hallocates (Heap.alloc_allocates ht _ o) h hx
  | intern s h =>
    rcases Heap.intern_spec ht (.mk fun _ => m.roots) s with ⟨-, heq⟩ | ⟨-, ha, -⟩
    · rwa [heq] at hx
    · exact hallocates ha h hx
  | change o h hcell hkind hmutable =>
    obtain ⟨o', bytes, hcell', rfl⟩ := Heap.cell?_of_kind? hx
    rw [Heap.cell?_replace hcell] at hcell'
    split at hcell'
    · rename_i heq
      cases hcell'
      rw [heq, Heap.kind?_of_cell? hcell, hkind]
    · exact Heap.kind?_of_cell? hcell'
  | opened opened h => exact hx

theorem Changes.older (h : Changes p m m') (ht : m.heap.Tidy) {k : ObjectKind} (hk : ¬p (.makes k)) {x : Handle}
    (hx : m'.heap.kind? x = some k) : m.heap.kind? x = some k := by
  have hend : ∀ {m'}, Changes p m m' → m'.heap.Tidy := fun h =>
    (h.retains (P := fun _ => False) (Q := fun _ => False) ht nofun nofun).tidy
  induction h with
  | refl => exact hx
  | tail hpath h ih => exact ih (h.older (hend hpath) hk hx)

end Machine

/-! ## Steps -/

namespace Run

open Machine

variable {m m' : Machine} {f : Frame} {rest : List Frame} {g : Function} {i : Instruction} {done : Bool}

/-- **A step performs the instruction that the innermost call is at.** Its opcode has been read then, and perhaps
it has been reported. -/
theorem execute_performs (hs : m.Sane) (hf : m.frames = f :: rest) (hg : m.heap.function f.function = .ok g)
    (hi : g.instructionAt? m.heap f.ip = some i) : ∃ heap, (∀ x, heap.cell? x = m.heap.cell? x) ∧
      { m with heap, frames := { f with ip := f.ip + 1 } :: rest }.Sane ∧
      { m with heap, frames := { f with ip := f.ip + 1 } :: rest }.Consumes i.args
        { m with heap, frames := { f with ip := f.ip + i.size } :: rest } ∧
      execute m = perform i.op { m with heap, frames := { f with ip := f.ip + 1 } :: rest } := by
  obtain ⟨hholds, -⟩ := instructionAt?_eq_some_iff.1 hi
  have hread : ∀ heap : Heap, (∀ x, heap.cell? x = m.heap.cell? x) → { m with heap }.Sane →
      { m with heap, frames := { f with ip := f.ip + 1 } :: rest }.Sane ∧
      { m with heap, frames := { f with ip := f.ip + 1 } :: rest }.Consumes i.args
        { m with heap, frames := { f with ip := f.ip + i.size } :: rest } ∧
      (readOpcode >>= perform) { m with heap } =
        perform i.op { m with heap, frames := { f with ip := f.ip + 1 } :: rest } := by
    intro heap hcells hs
    have hg' : heap.function f.function = .ok g := by
      obtain ⟨bytes, hcell⟩ := Heap.function_eq_ok_iff.1 hg
      exact Heap.function_eq_ok_iff.2 ⟨bytes, (hcells _).trans hcell⟩
    have hop : readOpcode { m with heap } = .ok i.op { m with heap, frames := { f with ip := f.ip + 1 } :: rest } :=
      readOpcode_of_consumes ⟨f, rest, hf, ⟨g, hg', hholds.first⟩, rfl⟩
    refine ⟨(readOpcode_tame hs).of_ok hop, ⟨_, rest, rfl, ⟨g, hg', hholds.tail⟩, ?_⟩, bind_of_ok hop⟩
    rw [Instruction.size, Nat.add_assoc]
  unfold execute
  rw [get_bind]
  split
  · obtain ⟨_, m₁, hreport⟩ := (report_ends (E := fun _ _ => False) hs fun h => absurd (hf ▸ h) (by simp)).ok
    obtain ⟨hreport, texts, text, rfl⟩ := hreport
    obtain ⟨hs₁, hconsumes, hrun⟩ := hread _ (by simp) ((report_tame hs).of_ok hreport)
    exact ⟨_, by simp, hs₁, hconsumes, (bind_of_ok hreport).trans hrun⟩
  · exact ⟨m.heap, fun _ => rfl, hread m.heap (fun _ => rfl) hs⟩

variable {P Q : ObjectKind → Prop}

/-- **What a step changes**, whether it is done or fails. -/
theorem execute_changes (hs : m.Sane) (hf : m.frames = f :: rest) (hg : m.heap.function f.function = .ok g)
    (hi : g.instructionAt? m.heap f.ip = some i) : ∃ m₁ : Machine, (∀ x, m₁.heap.cell? x = m.heap.cell? x) ∧
      m₁.heap.Tidy ∧ Ends (fun _ m' => Changes (· ∈ i.op.effects) m₁ m') execute m
        fun _ m' => Changes (· ∈ i.op.effects) m₁ m' := by
  obtain ⟨heap, hcells, hs₁, -, hrun⟩ := execute_performs hs hf hg hi
  have := perform_effects i.op (p := (· ∈ i.op.effects)) fun _ h => h
  have hends := Along.ends (R := Changes (· ∈ i.op.effects)) (x := perform i.op)
    (m := { m with heap, frames := { f with ip := f.ip + 1 } :: rest })
  refine ⟨_, hcells, hs₁.heap.tidy, ?_⟩
  unfold Ends at hends ⊢
  rw [hrun]
  split <;> rename_i h <;> rw [h] at hends <;> exact hends

/-- **What a step retains**, whether it is done or fails. -/
theorem execute_retains (hs : m.Sane) (hf : m.frames = f :: rest) (hg : m.heap.function f.function = .ok g)
    (hi : g.instructionAt? m.heap f.ip = some i)
    (hP : ∀ k, P k → .makes k ∉ i.op.effects ∧ .changes k ∉ i.op.effects)
    (hQ : ∀ k, Q k → .changes k ∉ i.op.effects) :
    Ends (fun _ m' => m.heap.Retains (fun _ => P) Q m'.heap) execute m
      fun _ m' => m.heap.Retains (fun _ => P) Q m'.heap := by
  obtain ⟨m₁, hcells, ht, hends⟩ := execute_changes hs hf hg hi
  have hretains : ∀ {m'}, Changes (· ∈ i.op.effects) m₁ m' → m.heap.Retains (fun _ => P) Q m'.heap := fun h =>
    Heap.Retains.trans (.of_cells ht hcells) (h.retains ht hP hQ)
  exact (hends.mono fun _ _ => hretains).weaken fun _ _ => hretains

/-- Objects of a kind that a step does not make have been there before. -/
theorem execute_older (hs : m.Sane) (hf : m.frames = f :: rest) (hg : m.heap.function f.function = .ok g)
    (hi : g.instructionAt? m.heap f.ip = some i) {k : ObjectKind} (hk : .makes k ∉ i.op.effects) {x : Handle} :
    Ends (fun _ m' => m'.heap.kind? x = some k → m.heap.kind? x = some k) execute m
      fun _ m' => m'.heap.kind? x = some k → m.heap.kind? x = some k := by
  obtain ⟨m₁, hcells, ht, hends⟩ := execute_changes hs hf hg hi
  have holder : ∀ {m'}, Changes (· ∈ i.op.effects) m₁ m' → m'.heap.kind? x = some k → m.heap.kind? x = some k :=
    fun h hx => (Heap.kind?_congr (hcells x)).symm.trans (h.older ht hk hx)
  exact (hends.mono fun _ _ => holder).weaken fun _ _ => holder

end Run

end LoxMachine

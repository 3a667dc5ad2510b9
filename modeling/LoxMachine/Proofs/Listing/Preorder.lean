import LoxMachine.Proofs.Code.Functions
import LoxMachine.Proofs.Listing.Lines
import Mathlib.Data.Set.Finite.Basic
import Mathlib.Logic.Relation
import Mathlib.Order.WellFounded

/-!
# The order of a listing

* `Heap.Encloses` ties a function to the ones among its constants, and `Heap.Acyclic` says that no function
  under a given one leads back to itself. As there are finitely many objects, such a function is accessible:
  `Acyclic.acc`.
* `Listing.walk` is what the loop over a worklist ends with, if it ends.
* `Listing.Walked`: in front of any worklist, the walk lists a function and what is under it, and goes on with
  the rest of the worklist. This holds of every accessible function.
* `visit_acyclic` and `program_acyclic`: the walk ends, and the listing of a function is its own one, then those
  of the functions among its constants.
-/

namespace LoxMachine

namespace Heap

variable {heap : Heap} {h g x y : Handle}

/-- The function `g` is among the constants of the function `h`. -/
def Encloses (heap : Heap) (h g : Handle) : Prop :=
  ∃ f, heap.function h = .ok f ∧ .obj g ∈ f.chunk.constants ∧ heap.asKind .function (.obj g) = .ok (some g)

theorem Nested.trans_encloses (hn : heap.Nested x h) (he : heap.Encloses h g) : heap.Nested x g := by
  obtain ⟨f, hf, hmem, hkind⟩ := he
  exact .constant hn hf hmem hkind

/-- No function under `h` leads back to itself. -/
def Acyclic (heap : Heap) (h : Handle) : Prop :=
  ∀ x, heap.Nested h x → ¬Relation.TransGen heap.Encloses x x

theorem finite_contains (heap : Heap) : {x | heap.contains x = true}.Finite := by
  refine Set.Finite.of_injOn (f := Handle.index) (fun x hx => ?_) (fun x hx y hy hxy => ?_)
    (Set.finite_lt_nat heap.entries.size)
  · obtain ⟨cell, hcell⟩ := contains_iff.1 hx
    exact index_lt_of_cell? hcell
  · obtain ⟨cell, hcell⟩ := contains_iff.1 hx
    obtain ⟨cell', hcell'⟩ := contains_iff.1 hy
    exact eq_of_index_eq hcell hcell' hxy

theorem eq_obj_of_asKind {kind : ObjectKind} {v : Value} (hv : heap.asKind kind v = .ok (some x)) :
    v = .obj x := by
  cases v with
  | obj y =>
    cases ho : heap.object y with
    | error e => simp [asKind, ho, bind, Except.bind] at hv
    | ok o =>
      simp only [asKind, ho, bind, Except.bind, pure, Except.pure, Except.ok.injEq, Option.ite_none_right_eq_some,
        Option.some.injEq] at hv
      rw [hv.2]
  | _ => cases hv

theorem Encloses.contains (he : heap.Encloses h g) : heap.contains g = true := by
  obtain ⟨-, -, -, hkind⟩ := he
  cases hcell : heap.cell? g with
  | none => simp [asKind, object, hcell, bind, Except.bind] at hkind
  | some cell => exact contains_of_cell? hcell

theorem finite_nested (heap : Heap) (h : Handle) : {x | heap.Nested h x}.Finite := by
  refine ((finite_contains heap).insert h).subset fun x hx => ?_
  cases hx with
  | self => exact Set.mem_insert _ _
  | constant _ hf hmem hkind => exact Set.mem_insert_of_mem _ (Encloses.contains ⟨_, hf, hmem, hkind⟩)

/-- **Below a function without cycles there is no endless descent**, as there are finitely many objects. -/
theorem Acyclic.acc (ha : heap.Acyclic h) : Acc (fun g x => heap.Encloses x g) h := by
  have : Finite {x // heap.Nested h x} := (finite_nested heap h).to_subtype
  let below (g x : {x // heap.Nested h x}) : Prop := Relation.TransGen heap.Encloses x.1 g.1
  have : IsTrans _ below := ⟨fun _ _ _ hg hx => hx.trans hg⟩
  have : Std.Irrefl below := ⟨fun x => ha x.1 x.2⟩
  have hwf : WellFounded below := Finite.wellFounded_of_trans_of_irrefl below
  have hacc : ∀ x : {x // heap.Nested h x}, Acc (fun g x => heap.Encloses x g) x.1 := fun x => by
    induction x using hwf.induction with
    | _ x ih => exact ⟨_, fun g hg => ih ⟨g, x.2.trans_encloses hg⟩ (.single hg)⟩
  exact hacc ⟨h, .self⟩

/-- An accessible function is not under itself. -/
theorem not_transGen_of_acc (ha : Acc (fun g x => heap.Encloses x g) h) :
    ¬Relation.TransGen heap.Encloses h h := by
  induction ha with
  | intro h _ ih =>
    intro hcycle
    obtain ⟨g, hg, hback⟩ := Relation.TransGen.head'_iff.1 hcycle
    exact ih g hg (.trans_right hback (.single hg))

theorem acyclic_of_acc (ha : Acc (fun g x => heap.Encloses x g) h) : heap.Acyclic h := by
  intro x hx
  refine not_transGen_of_acc (h := x) ?_
  induction hx with
  | self => exact ha
  | constant _ hf hmem hkind ih => exact ih.inv ⟨_, hf, hmem, hkind⟩

end Heap

namespace Listing

variable {heap : Heap} {h : Handle} {out : String} {pending : List Handle} {constants : List Value}

theorem pushFunctions_cons (heap : Heap) (v : Value) (constants : List Value) (pending : List Handle) :
    pushFunctions heap (v :: constants) pending = (do
      let pending ← pushFunctions heap constants pending
      return (← heap.asKind .function v).toList ++ pending) :=
  List.foldrM_cons

/-- What is on the worklist already stays below. -/
theorem pushFunctions_append (heap : Heap) (constants : List Value) (pending : List Handle) :
    pushFunctions heap constants pending = (· ++ pending) <$> pushFunctions heap constants [] := by
  induction constants with
  | nil => rfl
  | cons v vs ih =>
    rw [pushFunctions_cons, pushFunctions_cons, ih]
    cases pushFunctions heap vs [] with
    | error e => rfl
    | ok hs =>
      change (do
        let h ← heap.asKind .function v
        return h.toList ++ (hs ++ pending)) = (· ++ pending) <$> (do
        let h ← heap.asKind .function v
        return h.toList ++ hs)
      cases heap.asKind .function v with
      | error e => rfl
      | ok h => exact congrArg Except.ok (List.append_assoc _ _ _).symm

theorem mem_pushFunctions {hs : List Handle} (hp : pushFunctions heap constants [] = .ok hs) {g : Handle}
    (hg : g ∈ hs) : .obj g ∈ constants ∧ heap.asKind .function (.obj g) = .ok (some g) := by
  induction constants generalizing hs with
  | nil =>
    cases hp
    exact absurd hg List.not_mem_nil
  | cons v vs ih =>
    rw [pushFunctions_cons] at hp
    cases hvs : pushFunctions heap vs [] with
    | error e =>
      rw [hvs] at hp
      cases hp
    | ok gs =>
      rw [hvs] at hp
      change (do return (← heap.asKind .function v).toList ++ gs) = _ at hp
      cases hkind : heap.asKind .function v with
      | error e =>
        rw [hkind] at hp
        cases hp
      | ok h =>
        rw [hkind] at hp
        cases hp
        rcases List.mem_append.1 hg with hg | hg
        · obtain rfl := Option.mem_toList.1 hg
          obtain rfl := Heap.eq_obj_of_asKind hkind
          exact ⟨List.mem_cons_self, hkind⟩
        · exact (ih hvs hg).imp_left (List.mem_cons_of_mem _)

/-! ## The walk -/

/-- The functions among the constants of a function, in order. -/
def nested (heap : Heap) (h : Handle) : Except Fault (List Handle) := do
  pushFunctions heap (← heap.function h).chunk.constants.toList []

theorem visit_cons (heap : Heap) (out : String) (h : Handle) (pending : List Handle) :
    visit heap (out, h :: pending) = (do
      let text ← function heap h
      let inner ← nested heap h
      return some (out ++ text, inner ++ pending)) := by
  rw [visit]
  refine bind_congr fun text => ?_
  unfold nested
  cases heap.function h with
  | error e => rfl
  | ok f =>
    change (do
      let pending ← pushFunctions heap f.chunk.constants.toList pending
      return some (out ++ text, pending) : Except Fault _) = (do
      let inner ← pushFunctions heap f.chunk.constants.toList []
      return some (out ++ text, inner ++ pending))
    rw [pushFunctions_append]
    cases pushFunctions heap f.chunk.constants.toList [] <;> rfl

open Classical in
/-- The text at the end of the walk through a worklist, if it has an end. -/
noncomputable def walk (heap : Heap) (out : String) (pending : List Handle) : ExceptT Fault Option String :=
  if Acc (Leads (visit heap)) (out, pending) then some (Prod.fst <$> loop (visit heap) (out, pending)) else none

theorem walk_of_error {fault : Fault} (h : visit heap (out, pending) = .error fault) :
    walk heap out pending = throw fault := by
  rw [walk, if_pos ⟨_, fun s hs => by cases h.symm.trans hs⟩, loop_error h]
  rfl

theorem walk_of_leads {out' : String} {pending' : List Handle}
    (h : Leads (visit heap) (out', pending') (out, pending)) : walk heap out pending = walk heap out' pending' := by
  unfold walk
  rw [propext h.acc_iff]
  split
  · rename_i ha
    rw [loop_next (h.acc_iff.2 ha) h]
  · rfl

@[simp] theorem walk_nil (heap : Heap) (out : String) : walk heap out [] = pure out := by
  have hstop : visit heap (out, []) = .ok none := rfl
  rw [walk, if_pos ⟨_, fun s hs => by cases hstop.symm.trans hs⟩, loop_stop hstop]
  rfl

theorem walk_cons (heap : Heap) (out : String) (h : Handle) (pending : List Handle) :
    walk heap out (h :: pending) = (do
      let text ← function heap h
      let inner ← nested heap h
      walk heap (out ++ text) (inner ++ pending)) := by
  have hvisit := visit_cons heap out h pending
  cases hf : function heap h with
  | error e =>
    rw [hf] at hvisit
    exact walk_of_error hvisit
  | ok text =>
    rw [hf] at hvisit
    cases hn : nested heap h with
    | error e =>
      rw [hn] at hvisit
      exact walk_of_error hvisit
    | ok inner =>
      rw [hn] at hvisit
      exact walk_of_leads hvisit

/-- If the walk from a function ends, it gives the listing of the function. -/
theorem ends_of_walk {text : Except Fault String} (hwalk : (walk heap "" [h]).run = some text) :
    Acc (Leads (visit heap)) ("", [h]) ∧ program heap h = text := by
  unfold walk at hwalk
  split at hwalk
  · rename_i ha
    cases hwalk
    exact ⟨ha, bind_pure_comp _ _⟩
  · cases hwalk

theorem encloses_of_nested {hs : List Handle} (hn : nested heap h = .ok hs) {g : Handle} (hg : g ∈ hs) :
    heap.Encloses h g := by
  unfold nested at hn
  cases hf : heap.function h with
  | error e =>
    rw [hf] at hn
    cases hn
  | ok f =>
    rw [hf] at hn
    obtain ⟨hmem, hkind⟩ := mem_pushFunctions hn hg
    exact ⟨f, hf, Array.mem_toList_iff.1 hmem, hkind⟩

/-- In front of any worklist, the walk lists the function and what is under it. -/
def Walked (heap : Heap) (h : Handle) : Prop :=
  ∀ out pending, walk heap out (h :: pending) = (do
    let text ← program heap h
    walk heap (out ++ text) pending)

theorem Walked.append {hs : List Handle} (hw : ∀ h ∈ hs, Walked heap h) (out : String)
    (pending : List Handle) : walk heap out (hs ++ pending) = (do
      let texts ← (hs.mapM (program heap) : Except Fault (List String))
      walk heap (out ++ String.join texts) pending) := by
  induction hs generalizing out with
  | nil =>
    change walk heap out pending = walk heap (out ++ String.join []) pending
    rw [String.join_nil, String.append_empty]
  | cons h hs ih =>
    obtain ⟨hh, hhs⟩ := List.forall_mem_cons.1 hw
    rw [List.cons_append, hh out, List.mapM_cons]
    cases program heap h with
    | error e => rfl
    | ok text =>
      change walk heap (out ++ text) (hs ++ pending) = _
      rw [ih hhs]
      cases hs.mapM (program heap) with
      | error e => rfl
      | ok texts =>
        change walk heap (out ++ text ++ String.join texts) pending =
          walk heap (out ++ String.join (text :: texts)) pending
        rw [String.join_cons, String.append_assoc]

/-- A walk through one function, whose text is known in front of any worklist. -/
theorem ends_of_forall_walk {text : Except Fault String} (hwalk : ∀ out pending,
    walk heap out (h :: pending) = (do
      let text ← text
      walk heap (out ++ text) pending)) :
    Acc (Leads (visit heap)) ("", [h]) ∧ program heap h = text := by
  refine ends_of_walk ?_
  rw [hwalk "" []]
  cases text with
  | error e => rfl
  | ok text =>
    change (walk heap ("" ++ text) []).run = _
    rw [walk_nil, String.empty_append]
    rfl

/-- **A function is listed first, and then the functions among its constants.** -/
theorem Walked.intro (hw : ∀ g, heap.Encloses h g → Walked heap g) : Walked heap h ∧
    program heap h = (do
      let text ← function heap h
      let inner ← nested heap h
      return text ++ String.join (← inner.mapM (program heap))) := by
  have hwalk : ∀ out pending, walk heap out (h :: pending) = (do
      let text ← (do
        let text ← function heap h
        let inner ← nested heap h
        return text ++ String.join (← inner.mapM (program heap)) : Except Fault String)
      walk heap (out ++ text) pending) := by
    intro out pending
    rw [walk_cons]
    cases function heap h with
    | error e => rfl
    | ok text =>
      change (do
        let inner ← nested heap h
        walk heap (out ++ text) (inner ++ pending) : ExceptT Fault Option String) = _
      cases hn : nested heap h with
      | error e => rfl
      | ok inner =>
        change walk heap (out ++ text) (inner ++ pending) = (do
          let text ← (do return text ++ String.join (← inner.mapM (program heap)) : Except Fault String)
          walk heap (out ++ text) pending)
        rw [Walked.append fun g hg => hw g (encloses_of_nested hn hg)]
        cases inner.mapM (program heap) with
        | error e => rfl
        | ok texts =>
          change walk heap (out ++ text ++ String.join texts) pending =
            walk heap (out ++ (text ++ String.join texts)) pending
          rw [String.append_assoc]
  have heq := (ends_of_forall_walk hwalk).2
  refine ⟨fun out pending => ?_, heq⟩
  rw [heq]
  exact hwalk out pending

theorem walked_of_acc (ha : Acc (fun g x => heap.Encloses x g) h) : Walked heap h := by
  induction ha with
  | intro h _ ih => exact (Walked.intro ih).1

/-- **The walk from a function without cycles ends.** -/
theorem visit_acyclic (ha : heap.Acyclic h) : Acc (Leads (visit heap)) ("", [h]) :=
  (ends_of_forall_walk (walked_of_acc ha.acc)).1

theorem program_acyclic (ha : heap.Acyclic h) : program heap h = (do
    let text ← function heap h
    let inner ← nested heap h
    return text ++ String.join (← inner.mapM (program heap))) := by
  refine (Walked.intro fun g hg => walked_of_acc ?_).2
  exact ha.acc.inv hg

end Listing

end LoxMachine

import LoxMachine.Proofs.Compile.Ownership
import LoxMachine.Proofs.Listing.Preorder
import LoxMachine.Proofs.Machine.Listing

/-!
# Listings of programs

* `walk_visits`: the listing of a worklist is that of the functions visited, in their order.
* `Compiled.listed`, `Compiled.acyclic`: a compiled function can be listed, and it is not under itself.
* `program_preorder`: the walk from a function without cycles ends, and lists it before the functions among
  its constants. Of a compiled function it lists every function that is nested in it, and each one once.
-/

namespace LoxMachine

namespace Listing

variable {heap : Heap} {h : Handle} {vs : List Value} {pending order hs : List Handle}

/-- The functions of a worklist stand there in the order of the constants. -/
theorem eq_filterMap_of_pushFunctions (hp : pushFunctions heap vs [] = .ok hs) :
    hs = vs.filterMap heap.function? := by
  induction vs generalizing hs with
  | nil =>
    cases hp
    rfl
  | cons v vs ih =>
    rw [pushFunctions_cons] at hp
    cases hvs : pushFunctions heap vs [] with
    | error e =>
      rw [hvs] at hp
      cases hp
    | ok gs =>
      rw [hvs] at hp
      change (do return (← heap.asKind .function v).toList ++ gs) = _ at hp
      cases hkind : heap.asKind .function v with
      | error e =>
        rw [hkind] at hp
        cases hp
      | ok o =>
        rw [hkind] at hp
        cases hp
        rw [ih hvs, List.filterMap_cons, Heap.function?_of_asKind hkind]
        cases o <;> rfl

theorem pushFunctions_live (live : ∀ x, .obj x ∈ vs → heap.contains x = true) :
    pushFunctions heap vs [] = .ok (vs.filterMap heap.function?) := by
  suffices hok : ∃ hs, pushFunctions heap vs [] = .ok hs by
    obtain ⟨hs, hp⟩ := hok
    rw [hp, eq_filterMap_of_pushFunctions hp]
  induction vs with
  | nil => exact ⟨[], rfl⟩
  | cons v vs ih =>
    obtain ⟨hs, hvs⟩ := ih fun x hx => live x (List.mem_cons_of_mem _ hx)
    have hkind : ∃ o, heap.asKind .function v = .ok o := by
      cases v with
      | obj x =>
        obtain ⟨cell, hcell⟩ := Heap.contains_iff.1 (live x List.mem_cons_self)
        exact ⟨_, by rw [Heap.asKind, Heap.object_of_cell? hcell]; rfl⟩
      | _ => exact ⟨none, rfl⟩
    obtain ⟨o, ho⟩ := hkind
    refine ⟨o.toList ++ hs, ?_⟩
    rw [pushFunctions_cons, hvs]
    change (do return (← heap.asKind .function v).toList ++ hs) = _
    rw [ho]
    rfl

theorem nested_live {f : Function} (hf : heap.function h = .ok f)
    (live : ∀ x, .obj x ∈ f.chunk.constants → heap.contains x = true) :
    nested heap h = .ok (f.chunk.constants.toList.filterMap heap.function?) := by
  unfold nested
  rw [hf]
  exact pushFunctions_live fun x hx => live x (Array.mem_toList_iff.1 hx)

theorem eq_filterMap_of_nested {f : Function} (hf : heap.function h = .ok f) (hn : nested heap h = .ok hs) :
    hs = f.chunk.constants.toList.filterMap heap.function? := by
  unfold nested at hn
  rw [hf] at hn
  exact eq_filterMap_of_pushFunctions hn

/-- **The walk lists the functions that are visited**, in this order. -/
theorem walk_visits (hv : heap.Visits pending order) (out : String) : walk heap out pending = (do
    let texts ← (order.mapM (function heap) : Except Fault (List String))
    return out ++ String.join texts) := by
  induction hv generalizing out with
  | nil =>
    rw [walk_nil]
    change _ = pure (out ++ String.join [])
    rw [String.join_nil, String.append_empty]
  | @cons h f bytes pending order cell live _ ih =>
    rw [walk_cons, nested_live (Heap.function_eq_ok_iff.2 ⟨bytes, cell⟩) live, List.mapM_cons]
    cases function heap h with
    | error e => rfl
    | ok text =>
      change walk heap (out ++ text) (_ ++ pending) = _
      rw [ih]
      cases order.mapM (function heap) with
      | error e => rfl
      | ok texts =>
        change (pure (out ++ text ++ String.join texts) : ExceptT Fault Option String) =
          pure (out ++ String.join (text :: texts))
        rw [String.join_cons, String.append_assoc]

/-- If all functions that are nested in it can be listed, then the program can. -/
theorem program_ok (ha : Acc (fun g x => heap.Encloses x g) h) (hok : ∀ x, heap.Nested h x →
    (∃ text, function heap x = .ok text) ∧ ∃ inner, nested heap x = .ok inner) :
    ∃ text, program heap h = .ok text := by
  induction ha with
  | intro h hacc ih =>
    obtain ⟨⟨text, htext⟩, inner, hinner⟩ := hok h .self
    have hprograms : ∀ g ∈ inner, ∃ text, program heap g = .ok text := fun g hg => by
      have he := encloses_of_nested hinner hg
      exact ih g he fun x hx => hok x ((Heap.Nested.self.trans_encloses he).trans hx)
    obtain ⟨texts, htexts⟩ := mapM_ok hprograms
    refine ⟨text ++ String.join texts, ?_⟩
    rw [(Walked.intro fun g hg => walked_of_acc (hacc g hg)).2, htext, hinner]
    change (do return text ++ String.join (← inner.mapM (program heap))) = _
    rw [htexts]
    rfl

end Listing

namespace Heap.Compiled

variable {heap : Heap} {h : Handle}

theorem displays (hc : heap.Compiled h) {f : Function} (hf : heap.function h = .ok f) :
    Listing.Displays heap f.chunk := by
  cases hc with
  | @intro _ g bytes _ cell _ constants =>
    cases (function_eq_ok_iff.2 ⟨bytes, cell⟩).symm.trans hf
    intro v hv
    cases v with
    | obj x =>
      by_cases hs : heap.IsString x
      · obtain ⟨text, bytes, hcell⟩ := hs
        exact ⟨⟨text.contents, by rw [display, object_of_cell? hcell]; rfl⟩,
          fun y hy => by cases hy; exact contains_of_cell? hcell⟩
      · have hx := constants x hv hs
        obtain ⟨s, hdisplay⟩ := displayFunction_of_compiled hx
        obtain ⟨g, b, hcell, -⟩ := constantKind_of_compiled hx
        exact ⟨⟨s, by rw [display, object_of_cell? hcell]; exact hdisplay⟩,
          fun y hy => by cases hy; exact hx.contains⟩
    | _ => exact ⟨⟨_, rfl⟩, fun y hy => by cases hy⟩

/-- **A compiled function can be listed.** -/
theorem listed (hc : heap.Compiled h) : ∃ text, Listing.function heap h = .ok text := by
  obtain ⟨f, bytes, hcell, -⟩ := constantKind_of_compiled hc
  have hf := function_eq_ok_iff.2 ⟨bytes, hcell⟩
  obtain ⟨title, htitle⟩ : ∃ title, Listing.title heap f = .ok title := by
    unfold Listing.title
    split
    · rename_i n hn
      cases hc with
      | intro cell name =>
        cases hcell.symm.trans cell
        exact contents_of_isString (name n hn)
    · exact ⟨_, rfl⟩
  obtain ⟨text, htext⟩ := Listing.chunk_ok (hc.displays hf) title
  refine ⟨text, ?_⟩
  unfold Listing.function
  rw [hf]
  change (do Listing.chunk heap f.chunk (← Listing.title heap f)) = _
  rw [htitle]
  exact htext

theorem acc (hc : heap.Compiled h) : Acc (fun g x => heap.Encloses x g) h := by
  induction hc with
  | @intro h f bytes _ cell _ _ _ _ ih =>
    refine ⟨_, fun g hg => ?_⟩
    obtain ⟨f', hf, hmem, hkind⟩ := hg
    cases (function_eq_ok_iff.2 ⟨bytes, cell⟩).symm.trans hf
    refine ih g hmem fun hs => ?_
    exact absurd ((function?_of_isString hs).symm.trans (function?_of_asKind hkind)) nofun

/-- **A compiled function is not under itself**, and neither is one that is nested in it. -/
theorem acyclic (hc : heap.Compiled h) : heap.Acyclic h := acyclic_of_acc hc.acc

end Heap.Compiled

namespace Listing

/-- **The listing of a program is its pre-order traversal.** From a function without cycles, the walk ends;
the functions among the constants come in their order, and each of them with its own listing, after that of
the function itself; and there is no fault if all functions below can be listed. A compiled function has no
cycles, and its listing is that of all functions nested in it, each of them once. -/
theorem program_preorder :
    (∀ (heap : Heap) (h : Handle), heap.Acyclic h →
      Acc (Leads (visit heap)) ("", [h]) ∧
      program heap h = (do
        let text ← function heap h
        let inner ← nested heap h
        return text ++ String.join (← inner.mapM (program heap))) ∧
      (∀ f inner, heap.function h = .ok f → nested heap h = .ok inner →
        inner = f.chunk.constants.toList.filterMap heap.function?) ∧
      ((∀ x, heap.Nested h x → (∃ text, function heap x = .ok text) ∧ ∃ inner, nested heap x = .ok inner) →
        ∃ text, program heap h = .ok text)) ∧
    ∀ (source : String) (heap heap' : Heap) (roots : Thunk (List Handle)) (h : Handle), heap.Tidy →
      compile source heap roots = (.ok h, heap') →
      heap'.Acyclic h ∧ ∃ (order : List Handle) (texts : List String), order.Nodup ∧ (∀ x, x ∈ order ↔ heap'.Nested h x) ∧
        order.mapM (function heap') = .ok texts ∧ program heap' h = .ok (String.join texts) := by
  refine ⟨fun heap h ha => ⟨visit_acyclic ha, program_acyclic ha, fun f inner => eq_filterMap_of_nested,
    program_ok ha.acc⟩, fun source heap heap' roots h ht hok => ?_⟩
  have hcompiled := compile_compiled ht hok
  have hacyclic := hcompiled.acyclic
  obtain ⟨order, hvisits, hnodup⟩ := (compile_unshared ht hok).once
  obtain ⟨f, bytes, hcell, -⟩ := Heap.constantKind_of_compiled hcompiled
  have hfunction : heap'.function? (.obj h) = some h := by simp only [Heap.function?, hcell]
  rw [List.filterMap_cons_some hfunction, List.filterMap_nil] at hvisits
  have hmem : ∀ x, x ∈ order ↔ heap'.Nested h x := fun x => by
    rw [hvisits.mem_order_iff]
    simp only [List.mem_singleton, exists_eq_left]
  obtain ⟨texts, htexts⟩ := mapM_ok fun x hx => (hcompiled.nested ((hmem x).1 hx)).listed
  refine ⟨hacyclic, order, texts, hnodup, hmem, htexts, ?_⟩
  refine (ends_of_walk ?_).2
  rw [walk_visits hvisits, htexts]
  change some (Except.ok ("" ++ String.join texts)) = _
  rw [String.empty_append]

/-- A script with three functions, one of them inside of another. -/
theorem program_preorder_nested : ∃ (h : Handle) (heap' : Heap) (order : List Handle) (texts : List String),
    compile "fun f() { fun g() {} } fun k() {}" {} (Thunk.pure []) = (.ok h, heap') ∧
      Acc (Leads (visit heap')) ("", [h]) ∧ order.Nodup ∧
      order.mapM (function heap') = .ok texts ∧ program heap' h = .ok (String.join texts) := by
  have hresult : (compile "fun f() { fun g() {} } fun k() {}" {} (Thunk.pure [])).1.toOption =
      some ⟨6, 0⟩ := by decide +kernel
  rcases hcompile : compile "fun f() { fun g() {} } fun k() {}" {} (Thunk.pure [])
    with ⟨result, heap'⟩
  rw [hcompile] at hresult
  cases result with
  | error e => cases hresult
  | ok h =>
    obtain ⟨hacyclic, order, texts, hnodup, -, htexts, hprogram⟩ :=
      program_preorder.2 _ _ _ _ _ (Heap.tidy_of_empty rfl) hcompile
    exact ⟨h, heap', order, texts, rfl, (program_preorder.1 heap' h hacyclic).1, hnodup, htexts, hprogram⟩

end Listing

end LoxMachine

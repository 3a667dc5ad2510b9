import LoxMachine.Proofs.Compile.Verified
import LoxMachine.Proofs.Heap.Lifetimes
import LoxMachine.Proofs.Heap.Sound

/-!
# Compilation and collections

A compilation allocates strings and functions, and each allocation may collect, while the functions
under construction are no objects yet.

* `Heap.Mentions`: the handles that an object refers to, directly or through others, live or not.
* `Past.exact_of_keeps`: if what can be reached from the roots is kept and no handle comes back to
  life, then afterwards exactly this can be reached.
* `compile_rooted`: a compilation keeps what can be reached from the roots of the caller; what a
  successful one answers is whole; and what a failed one has allocated is garbage.
-/

namespace LoxMachine

namespace Heap

variable {heap heap' : Heap} {h x : Handle} {roots : List Handle}

/-- The handles that can be reached from an object, whether they name something or not. -/
inductive Mentions (heap : Heap) (h : Handle) : Handle → Prop
  | self : Mentions heap h h
  | reference {x r : Handle} {cell : Cell} : Mentions heap h x → heap.cell? x = some cell →
      r ∈ cell.object.references → Mentions heap h r

/-- A compiled function mentions strings and compiled functions only. -/
theorem Compiled.mentions (hh : heap.Compiled h) (hx : heap.Mentions h x) :
    heap.IsString x ∨ heap.Compiled x := by
  induction hx with
  | self => exact .inr hh
  | reference _ hcell hr ih =>
    rcases ih with ⟨text, bytes, hstring⟩ | hcompiled
    · rw [hstring] at hcell
      cases hcell
      exact absurd hr List.not_mem_nil
    · exact hcompiled.references hcell hr

/-- The handle names a string, or a function with a string for its name that passes the verifier. -/
def Whole (heap : Heap) (x : Handle) : Prop :=
  heap.IsString x ∨ ∃ f, heap.function x = .ok f ∧ (∀ n, f.name = some n → heap.IsString n) ∧
    f.Verified heap

theorem Compiled.whole (hh : heap.Compiled h) (hx : heap.Mentions h x) : heap.Whole x := by
  refine (hh.mentions hx).imp_right fun hc => ?_
  cases hc with
  | @intro _ f bytes entry cell name _ arity laid =>
    exact ⟨f, function_eq_ok_iff.2 ⟨bytes, cell⟩, name, verified_of_wellLaid arity laid⟩

end Heap

/-- The operations of a compilation, counted. -/
theorem Heap.Allots.leads {heap heap' : Heap} {roots : List Handle} (ha : heap.Allots roots heap')
    {past : Past} (hpast : past.heap = heap) :
    ∃ now, past.Leads (fun _ _ => True) now ∧ now.heap = heap' := by
  induction ha with
  | refl => exact ⟨past, .refl, hpast⟩
  | intern s _ _ ih =>
    obtain ⟨now, hl, rfl⟩ := ih
    exact ⟨_, .step hl (.intern _ s), rfl⟩
  | function f _ _ ih =>
    obtain ⟨now, hl, rfl⟩ := ih
    exact ⟨_, .step hl (.alloc (o := .function f) _ fun _ _ => trivial), rfl⟩
  | record e _ ih =>
    obtain ⟨now, hl, rfl⟩ := ih
    exact ⟨_, .step hl (.record e), rfl⟩

namespace Past

variable {past now : Past} {allowed : Past → Handle → Prop} {roots : List Handle} {x : Handle}

/-- What can be reached from handles that were issued could be reached before: a handle that comes
to name something was not issued before. -/
theorem reachable_before (hd : past.Dated) (hh : past.heap.Holds past.Knows)
    (hl : past.Leads allowed now) (hbound : ∀ i, now.frees i < 2 ^ 32)
    (hroots : ∀ r ∈ roots, past.Knows r) (hk : past.heap.Keeps roots now.heap)
    (hx : now.heap.Reachable roots x) : past.heap.Reachable roots x := by
  have halive : ∀ r, past.Knows r → now.heap.contains r = true → past.heap.contains r = true := by
    intro r hr hc
    by_contra hdead
    rw [hd.not_revived hl hbound hr (by simpa using hdead)] at hc
    cases hc
  induction hx with
  | root hm hc => exact .root hm (halive _ (hroots _ hm) hc)
  | reference _ hcell hr hc ih =>
    rw [hk _ ih] at hcell
    exact .reference ih hcell hr (halive _ (hh _ _ hcell _ hr) hc)

/-- A collection afterwards leaves exactly what could be reached before. -/
theorem exact_of_keeps (hd : past.Dated) (hg : past.heap.gray = []) (hh : past.heap.Holds past.Knows)
    (hl : past.Leads allowed now) (hbound : ∀ i, now.frees i < 2 ^ 32)
    (hroots : ∀ r ∈ roots, past.Knows r) (hk : past.heap.Keeps roots now.heap) :
    past.heap.Exact roots (now.heap.collect roots) := by
  have hexact := Heap.exact_collect (hl.dated hd).tidy roots
  rw [hl.gray hd hg, List.nil_append] at hexact
  obtain ⟨hcontains, hkept⟩ := hexact
  refine ⟨fun x => (hcontains x).trans ⟨?_, hk.reachable⟩, fun x hx => ?_⟩
  · exact reachable_before hd hh hl hbound hroots hk
  · rw [hkept x (hk.reachable hx), hk x hx]

end Past

/-- **Compilation is safe under collections.** Take a heap that operations have led to, which store
only handles that were issued, and roots among the handles it has issued. Whether a compilation
succeeds or fails, what can be reached from the roots is as it was. If it succeeds, everything that
the function mentions is there, and a string or a verified function as its place demands. If it fails,
and no place was freed so often that the generations wrap around, then a collection leaves of the heap
exactly what could be reached from the roots before, so nothing that the compilation has allocated. -/
theorem compile_rooted {config : GcConfig} {journal : Journal} {past : Past}
    (hpast : (Past.new config journal).Leads Past.Knows past) {roots : Thunk (List Handle)}
    (hroots : ∀ r ∈ roots.get, past.Knows r) (source : String) :
    (∀ x, past.heap.Reachable roots.get x →
        (compile source past.heap roots).2.contains x = true ∧
        (compile source past.heap roots).2.cell? x = past.heap.cell? x) ∧
      (∀ h, (compile source past.heap roots).1 = .ok h →
        (∃ f, (compile source past.heap roots).2.function h = .ok f) ∧
        ∀ x, (compile source past.heap roots).2.Mentions h x →
          (compile source past.heap roots).2.contains x = true ∧
          (compile source past.heap roots).2.Whole x) ∧
      (∃ now, past.Leads (fun _ _ => True) now ∧ now.heap = (compile source past.heap roots).2) ∧
      ∀ now, past.Leads (fun _ _ => True) now → now.heap = (compile source past.heap roots).2 →
        (∀ i, now.frees i < 2 ^ 32) → ∀ errors, (compile source past.heap roots).1 = .error errors →
        past.heap.Exact roots.get ((compile source past.heap roots).2.collect roots.get) := by
  have hd := hpast.dated (Past.dated_new config journal)
  have hh := hpast.holds (Past.dated_new config journal) fun h cell hc => by
    simp [Past.new, Heap.cell?] at hc
  have hallots := compile_allots source past.heap roots
  have hcompiled : ∀ h heap', compile source past.heap roots = (.ok h, heap') → heap'.Compiled h :=
    fun h heap' => compile_compiled hd.tidy
  have hk := (hallots.keeps hd.tidy).2
  generalize compile source past.heap roots = compiled at hallots hcompiled hk ⊢
  obtain ⟨result, heap'⟩ := compiled
  refine ⟨fun x hx => ⟨hk.contains hx, hk x hx⟩, fun h hok => ?_, hallots.leads rfl,
    fun now hl hnow hbound errors _ => ?_⟩
  · have hcompiled := hcompiled h heap' (Prod.ext hok rfl)
    refine ⟨?_, fun x hx => ⟨?_, hcompiled.whole hx⟩⟩
    · obtain ⟨f, bytes, hcell, -⟩ := Heap.constantKind_of_compiled hcompiled
      exact ⟨f, Heap.function_eq_ok_iff.2 ⟨bytes, hcell⟩⟩
    · exact (hcompiled.mentions hx).elim (·.contains) (·.contains)
  · rw [← hnow] at hk ⊢
    exact Past.exact_of_keeps hd (hpast.gray (Past.dated_new config journal) rfl) hh hl hbound hroots hk

/-- A heap that collects before every allocation, with one string. -/
def Past.kept : Past :=
  let past := Past.new { stress := true } {}
  past.after [(past.heap.intern (Thunk.pure []) "kept").1]
    (past.heap.intern (Thunk.pure []) "kept").2

theorem Past.kept_leads : (Past.new { stress := true } {}).Leads Past.Knows Past.kept :=
  .step .refl (.intern _ "kept")

/-- Two sources that are compiled beside the string, with a collection before every allocation. One is
accepted: its function, the one nested in it and their strings are there, and so is the string. The other
is rejected: a collection leaves only the string. -/
theorem compile_rooted_stressed :
    let roots : Thunk (List Handle) := Thunk.pure [⟨0, 0⟩]
    let accepted := compile "fun f(a) \x7b return a + \"b\"; \x7d" Past.kept.heap roots
    let rejected := compile "print \"a\" \"b\";" Past.kept.heap roots
    (∃ h, accepted.1 = .ok h ∧ (∃ f, accepted.2.function h = .ok f) ∧
      ∀ x, accepted.2.Mentions h x → accepted.2.contains x = true ∧ accepted.2.Whole x) ∧
    (0 < accepted.2.collections ∧ accepted.2.contains ⟨0, 0⟩ = true ∧
      accepted.2.cell? ⟨0, 0⟩ = Past.kept.heap.cell? ⟨0, 0⟩) ∧
    (∃ errors, rejected.1 = .error errors) ∧ Past.kept.heap.Exact [⟨0, 0⟩] (rejected.2.collect [⟨0, 0⟩]) := by
  intro roots accepted rejected
  have hroots : ∀ r ∈ roots.get, Past.kept.Knows r := by
    intro r hr
    rw [List.mem_singleton.1 hr]
    exact List.mem_cons_self
  have hreachable : Past.kept.heap.Reachable roots.get ⟨0, 0⟩ :=
    .root (List.mem_singleton.2 rfl) (by decide +kernel)
  obtain ⟨hkeeps, hwhole, -⟩ := compile_rooted Past.kept_leads hroots "fun f(a) \x7b return a + \"b\"; \x7d"
  obtain ⟨-, -, ⟨now, hl, hnow⟩, hfails⟩ := compile_rooted Past.kept_leads hroots "print \"a\" \"b\";"
  refine ⟨?_, ⟨by decide +kernel, hkeeps _ hreachable⟩, ?_⟩
  · have hresult : accepted.1.toOption.isSome = true := by decide +kernel
    cases hok : accepted.1 with
    | ok h => exact ⟨h, rfl, hwhole h hok⟩
    | error errors =>
      rw [hok] at hresult
      cases hresult
  · have hresult : rejected.1.toOption = none := by decide +kernel
    have hcollections : rejected.2.collections < 2 ^ 32 := by decide +kernel
    cases herrors : rejected.1 with
    | ok h =>
      rw [herrors] at hresult
      cases hresult
    | error errors =>
      refine ⟨⟨errors, rfl⟩, hfails now hl hnow (fun i => ?_) errors herrors⟩
      have hle : Past.kept.frees i ≤ Past.kept.heap.collections :=
        Past.kept_leads.frees_le_collections (Past.dated_new _ _) i
      have hle' := hl.frees_le_collections (Past.kept_leads.dated (Past.dated_new _ _)) i
      rw [hnow] at hle'
      dsimp only [rejected] at hcollections
      omega

end LoxMachine

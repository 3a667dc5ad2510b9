import LoxMachine.Heap.Allocation

/-!
# The thread of the objects

The objects of a heap are threaded by their links, the newest one first.

* `Heap.Threads links a hs b`: from `a` on, the links lead along the objects `hs` and then to `b`. The
  thread has ended if `b` is `none`.
* `Heap.Threads.unlink`: linking the object before another one to what comes after it takes that other
  one out, and leaves the rest of the thread as it is.
* `Heap.objects` are the objects of the thread of a heap.
-/

namespace LoxMachine

namespace Heap

variable {links : Array (Option Handle)} {a b c next : Option Handle} {h : Handle} {hs hs' : List Handle}

/-- From `a` on, the links lead along `hs` to `b`. -/
inductive Threads (links : Array (Option Handle)) :
    Option Handle → List Handle → Option Handle → Prop
  | stop (a : Option Handle) : Threads links a [] a
  | visit {h : Handle} {hs : List Handle} {b : Option Handle} :
      Threads links (links[h.index]?.getD none) hs b → Threads links (some h) (h :: hs) b

namespace Threads

theorem visits (ht : Threads links a (h :: hs) b) :
    a = some h ∧ Threads links (links[h.index]?.getD none) hs b := by
  cases ht with
  | visit ht => exact ⟨rfl, ht⟩

theorem append (hx : Threads links a hs b) (hy : Threads links b hs' c) :
    Threads links a (hs ++ hs') c := by
  induction hx with
  | stop a => exact hy
  | visit _ ih => exact .visit (ih hy)

theorem split (ht : Threads links a (hs ++ hs') c) :
    ∃ b, Threads links a hs b ∧ Threads links b hs' c := by
  induction hs generalizing a with
  | nil => exact ⟨a, .stop a, ht⟩
  | cons h hs ih =>
    cases ht with
    | visit ht =>
      obtain ⟨b, hx, hy⟩ := ih ht
      exact ⟨b, .visit hx, hy⟩

theorem head_eq (ht : Threads links a hs none) : a = hs.head? := by
  cases ht <;> rfl

/-- The links of other objects do not matter. -/
theorem congr {links' : Array (Option Handle)} (ht : Threads links a hs b)
    (hsame : ∀ h ∈ hs, links'[h.index]? = links[h.index]?) : Threads links' a hs b := by
  induction ht with
  | stop a => exact .stop a
  | visit _ ih =>
    refine .visit ?_
    rw [hsame _ List.mem_cons_self]
    exact ih fun _ hx => hsame _ (List.mem_cons_of_mem _ hx)

theorem put {i : Nat} (ht : Threads links a hs b) (hi : i ∉ hs.map Handle.index) :
    Threads (LoxMachine.put links i next) a hs b :=
  ht.congr fun _ hx => getElem?_put_ne _ _ fun heq => hi (heq ▸ List.mem_map_of_mem hx)

/-- **An object is unlinked** by linking the one before it to the one after it. -/
theorem unlink {p : Handle} {kept : List Handle}
    (ht : Threads links a (kept ++ [p] ++ h :: hs) none)
    (hn : ((kept ++ [p] ++ h :: hs).map Handle.index).Nodup) (hp : p.index < links.size) :
    Threads (LoxMachine.put links p.index (links[h.index]?.getD none)) a (kept ++ [p] ++ hs) none := by
  obtain ⟨b, hfirst, hrest⟩ := ht.split
  obtain ⟨_, hkept, hlast⟩ := hfirst.split
  cases hlast with
  | visit _ =>
    cases hrest with
    | visit hrest =>
      simp only [List.map_append, List.map_cons, List.map_nil, List.nodup_append, List.nodup_cons,
        List.mem_append, List.mem_cons, List.not_mem_nil, or_false] at hn
      obtain ⟨⟨-, -, hbefore⟩, -, hafter⟩ := hn
      have hkept' : p.index ∉ kept.map Handle.index := fun hm => hbefore _ hm _ rfl rfl
      have hrest' : p.index ∉ hs.map Handle.index := fun hm => hafter _ (.inr rfl) _ (.inr hm) rfl
      refine ((hkept.put hkept').append (.visit ?_)).append (hrest.put hrest')
      rw [getElem?_put_self _ hp]
      exact .stop _

end Threads

/-! ## The objects of a heap -/

/-- The objects that the links lead along from `a` on, up to a number of them. -/
def objectsFrom (heap : Heap) : Nat → Option Handle → List Handle
  | steps + 1, some h => h :: heap.objectsFrom steps (heap.next h)
  | _, _ => []

/-- The objects of the thread, the newest first. -/
def objects (heap : Heap) : List Handle := heap.objectsFrom heap.entries.size heap.head

theorem objectsFrom_eq {heap : Heap} (ht : Threads heap.links a hs none) :
    ∀ {steps : Nat}, hs.length ≤ steps → heap.objectsFrom steps a = hs := by
  induction hs generalizing a with
  | nil =>
    intro steps _
    cases ht
    cases steps <;> rfl
  | cons h hs ih =>
    intro steps hle
    cases ht with
    | visit ht =>
      obtain ⟨steps, rfl⟩ : ∃ n, steps = n + 1 := ⟨steps - 1, by simp at hle; omega⟩
      exact congrArg (h :: ·) (ih ht (by simpa using hle))

end Heap

end LoxMachine

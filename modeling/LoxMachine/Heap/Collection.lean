import LoxMachine.Heap

/-!
# Collection

A collection keeps what is reachable from its roots and frees the rest.

* `Marking` is the state of the search for reachable objects: which places are marked, which marked
  objects are still to be followed, and which have been followed, in order.
* `Heap.mark` and `Heap.follow` are its steps. The heap keeps the marks and the objects to be followed
  between operations: `Heap.markAll` reaches objects ahead of a collection, and `Heap.reach` is the
  search that a collection makes from there.
* `Heap.sweep` walks along the links of the objects, the newest first. It clears the marks, takes the
  objects without one out of the thread and frees them.
* `Heap.collect` is a collection. Unmarked strings are dropped from the intern table before the
  sweep, so the table keeps nothing alive.
-/

namespace LoxMachine

/-- The state of the search for reachable objects. -/
structure Marking where
  /-- For each place of the arena, whether its object has been reached. -/
  marked : Array Bool
  /-- The objects reached but not yet followed, the next one first. -/
  pending : List Handle := []
  /-- The objects followed so far. -/
  followed : Array Handle := #[]

namespace Heap

/-! ## Marking -/

/-- Whether a handle names an object that has been reached. -/
def isMarked (heap : Heap) (m : Marking) (h : Handle) : Bool :=
  heap.contains h && m.marked[h.index]?.getD false

/-- Reach an object. A handle that names nothing is ignored. -/
def mark (heap : Heap) (m : Marking) (h : Handle) : Marking :=
  if heap.contains h && !m.marked[h.index]?.getD false then
    { m with marked := put m.marked h.index true, pending := h :: m.pending }
  else m

/-- Follow up to `steps` pending objects, the latest first. -/
def follow (heap : Heap) : (steps : Nat) → Marking → Marking
  | 0, m => m
  | steps + 1, m =>
    match m.pending with
    | [] => m
    | h :: rest =>
      let references := (heap.cell? h).elim [] fun cell => cell.object.references
      heap.follow steps <| references.foldl heap.mark
        { m with pending := rest, followed := m.followed.push h }

/-- The search as the heap has it. -/
def marking (heap : Heap) : Marking := { marked := heap.marks, pending := heap.gray }

/-- Leave a search to be taken up later. -/
def setMarking (heap : Heap) (m : Marking) : Heap :=
  { heap with marks := m.marked, gray := m.pending }

/-- Reach objects ahead of the next collection, which takes them for roots. -/
def markAll (heap : Heap) (hs : List Handle) : Heap :=
  heap.setMarking (hs.foldl heap.mark heap.marking)

/-- Everything reachable from the roots and from what has been reached before. Each object is followed
once, so there are no more steps than places. -/
def reach (heap : Heap) (roots : List Handle) : Marking :=
  heap.follow heap.entries.size (roots.foldl heap.mark heap.marking)

/-! ## Sweeping -/

/-- Free an object: its place starts a new generation. -/
def release (heap : Heap) (h : Handle) : Heap :=
  match heap.cell? h with
  | none => heap
  | some cell =>
    { heap with
      entries := put heap.entries h.index { generation := h.generation + 1 }
      bytes := heap.bytes - cell.bytes
      free := h.index :: heap.free }
    |>.record (.freed h cell.object.kind)

/-- Let an object be followed by another one in the thread, or the thread begin with it. -/
def link (heap : Heap) (previous next : Option Handle) : Heap :=
  match previous with
  | some p => if heap.contains p then { heap with links := put heap.links p.index next } else heap
  | none => { heap with head := next }

/-- Clear the mark of an object. -/
def unmark (heap : Heap) (h : Handle) : Heap := { heap with marks := put heap.marks h.index false }

/-- Follow the thread from `current` on for up to `steps` objects, where `previous` is the last object
that was kept. A marked object is kept and loses its mark; any other one is unlinked and freed. -/
def sweepFrom : (steps : Nat) → (previous current : Option Handle) → Heap → Heap
  | steps + 1, previous, some h, heap =>
    if heap.contains h then
      let next := heap.next h
      if heap.marks[h.index]?.getD false then sweepFrom steps (some h) next (heap.unmark h)
      else sweepFrom steps previous next ((heap.link previous next).release h)
    else heap
  | _, _, _, heap => heap

/-- Free the objects without a mark. The thread visits no place twice. -/
def sweep (heap : Heap) : Heap := sweepFrom heap.entries.size none heap.head heap

/-! ## Collecting -/

/-- Report the objects that were followed. -/
def recordFollowed (heap : Heap) (m : Marking) : Heap :=
  if heap.journal.admits .trace then
    m.followed.foldl (fun heap h =>
      (heap.cell? h).elim heap fun cell => heap.record (.followed h cell.object.kind)) heap
  else heap

/-- The limit after a collection: the bytes that are left times the growth, as a word. -/
def nextLimit (heap : Heap) : Nat := wrap (heap.bytes * heap.config.growth)

/-- Run a collection that keeps what is reachable from `roots`, or was reached before. -/
def collect (heap : Heap) (roots : List Handle) : Heap :=
  let before := heap.bytes
  let marking := heap.reach roots
  let heap := ((heap.setMarking marking).record .collectionBegins).recordFollowed marking
  let strings := heap.strings.retain (heap.isMarked marking)
  let heap := { heap with strings := strings }.sweep
  let limit := heap.nextLimit
  { heap with limit := limit, collections := heap.collections + 1 }
  |>.record (.collectionEnds before heap.bytes limit)

end Heap

end LoxMachine

import LoxMachine.Proofs.Code.Shape
import Mathlib.Tactic.Set

/-!
# Laying out code

Code is written from left to right, with jumps whose distance is filled in later. `WellLaid` is what
holds of the code written so far: it splits into instructions, and each of them fits a shape that
every way to it provides.

* `Sketch` is what is open: the shape at the start, the jumps without a distance and the offsets
  that can be jumped back to.
* `Written` is code with the source line of every byte, and `Written.Ruled`: the line changes only
  where an instruction starts.
* `WellLaid pool w sketch exit`: the code is laid out, and control comes to its end with the shape
  `exit`, or not at all.
* The rules follow the ways in which code grows: `WellLaid.plain`, `ret`, `closure` and `loop` add
  an instruction, `jump` and `jumpIfFalse` one without a distance, and `patch` lets such a jump go
  to the end. `label` remembers the end as a place to jump back to, and `weaken` changes the shape
  with which the code goes on.
-/

namespace LoxMachine

/-- An offset with the shape of the stack there. -/
structure Point where
  offset : Nat
  shape : Shape

/-- What is open in a piece of code. -/
structure Sketch where
  /-- The shape at offset `0`. -/
  entry : Shape
  /-- The forward jumps that have no distance yet. -/
  holes : List Point := []
  /-- The offsets that can be jumped back to. -/
  labels : List Point := []

namespace Sketch

def hole (sketch : Sketch) (p : Point) : Sketch := { sketch with holes := p :: sketch.holes }

def label (sketch : Sketch) (p : Point) : Sketch := { sketch with labels := p :: sketch.labels }

end Sketch

/-- Code with the source line of every byte. -/
structure Written where
  code : Array UInt8
  lines : Array Nat

/-- The code of a chunk with its lines. -/
def Chunk.written (c : Chunk) : Written := ⟨c.code, c.lines⟩

namespace Written

/-- Nothing has been written yet. -/
def empty : Written := ⟨#[], #[]⟩

/-- Bytes of one line are written at the end. -/
def write (w : Written) (bytes : List UInt8) (line : Nat) : Written :=
  ⟨w.code ++ bytes.toArray, w.lines ++ (List.replicate bytes.length line).toArray⟩

theorem write_nil (w : Written) (line : Nat) : w.write [] line = w := by
  simp [write]

theorem write_write (w : Written) (bytes bytes' : List UInt8) (line : Nat) :
    (w.write bytes line).write bytes' line = w.write (bytes ++ bytes') line := by
  simp [write]

/-- A byte where no instruction starts is of the line of the byte before it. -/
def Ruled (w : Written) (layout : Layout) : Prop :=
  ∀ t < w.code.size, 0 < t → layout t = none → w.lines[t]? = w.lines[t - 1]?

end Written

variable {p q pool : Pool} {code code' : Array UInt8} {layout layout' : Layout} {sketch : Sketch}
  {w : Written} {line : Nat}
  {o t n : Nat} {s s' : Shape} {exit : Option Shape} {bytes : List UInt8}

/-- A forward jump without a distance stands at `o`. -/
def Hole (code : Array UInt8) (layout : Layout) (o : Nat) (s : Shape) : Prop :=
  layout.Spans code.size o 3 ∧
    (Holds code o [Opcode.jump.toByte] ∨
      Holds code o [Opcode.jumpIfFalse.toByte] ∧ 0 < s.length ∧ layout.Leads (o + 3) s)

/-- A layout of the code written so far. -/
structure Lays (pool : Pool) (w : Written) (sketch : Sketch) (exit : Option Shape)
    (layout : Layout) : Prop where
  entry : layout.Leads 0 sketch.entry
  exit : layout w.code.size = exit
  above : ∀ t, w.code.size < t → layout t = none
  each : ∀ o s, o < w.code.size → layout o = some s →
    Fits pool w.code layout o s ∨ ⟨o, s⟩ ∈ sketch.holes
  holes : ∀ h ∈ sketch.holes, layout h.offset = some h.shape ∧ Hole w.code layout h.offset h.shape
  labels : ∀ l ∈ sketch.labels, layout.Leads l.offset l.shape
  paired : w.lines.size = w.code.size
  ruled : w.Ruled layout

/-- The code written so far has a layout. -/
def WellLaid (pool : Pool) (w : Written) (sketch : Sketch) (exit : Option Shape) : Prop :=
  ∃ layout, Lays pool w sketch exit layout

/-! ## Changing the code and its layout -/

theorem Fits.transport (h : Fits p code layout o s) (hpool : p.Le q)
    (hbytes : ∀ bytes, Holds code o bytes → layout.Spans code.size o bytes.length →
      Holds code' o bytes)
    (hleads : ∀ t s, layout.Leads t s → layout'.Leads t s)
    (hspans : ∀ n, layout.Spans code.size o n → layout'.Spans code'.size o n) :
    Fits q code' layout' o s := by
  obtain ⟨bytes, hholds, hspan, hgoes⟩ := h
  exact ⟨bytes, hbytes bytes hholds hspan, hspans _ hspan, hgoes.mono hpool hleads⟩

theorem Hole.transport (h : Hole code layout o s)
    (hbytes : ∀ b, Holds code o [b] → Holds code' o [b])
    (hleads : ∀ t s, layout.Leads t s → layout'.Leads t s)
    (hspans : ∀ n, layout.Spans code.size o n → layout'.Spans code'.size o n) :
    Hole code' layout' o s := by
  obtain ⟨hspan, hjump | ⟨hjump, hlength, hnext⟩⟩ := h
  · exact ⟨hspans 3 hspan, Or.inl (hbytes _ hjump)⟩
  · exact ⟨hspans 3 hspan, Or.inr ⟨hbytes _ hjump, hlength, hleads _ _ hnext⟩⟩

theorem Holds.append (h : Holds code o bytes) (hlt : o + bytes.length ≤ code.size)
    (more : Array UInt8) : Holds (code ++ more) o bytes := by
  intro i hi
  rw [Array.getElem?_append_left (by omega)]
  exact h i hi

theorem holds_end (code : Array UInt8) (bytes : List UInt8) :
    Holds (code ++ bytes.toArray) code.size bytes := by
  intro i hi
  rw [Array.getElem?_append_right (by omega), Nat.add_sub_cancel_left]
  simp

theorem WellLaid.pool_mono (h : WellLaid p w sketch exit) (hpool : p.Le q) :
    WellLaid q w sketch exit := by
  obtain ⟨layout, h⟩ := h
  refine ⟨layout, h.entry, h.exit, h.above, fun o s ho hs => ?_, h.holes, h.labels, h.paired,
    h.ruled⟩
  refine (h.each o s ho hs).imp_left fun hf => ?_
  exact hf.transport hpool (fun _ hb _ => hb) (fun _ _ hl => hl) (fun _ hsp => hsp)

/-- The code of a function that does nothing yet. -/
theorem wellLaid_empty (pool : Pool) (s : Shape) :
    WellLaid pool .empty { entry := s } (some s) := by
  refine ⟨fun t => if t = 0 then some s else none, ⟨s, rfl, .refl s⟩, rfl, fun t ht => ?_,
    fun o s ho => absurd ho (Nat.not_lt_zero o), by simp, by simp, rfl,
    fun t ht => absurd ht (Nat.not_lt_zero t)⟩
  have hne : t ≠ 0 := Nat.pos_iff_ne_zero.1 ht
  simp [hne]

/-! ## The end of the code -/

/-- A layout with another shape at the end of the code. -/
def Layout.ending (layout : Layout) (size : Nat) (exit : Option Shape) : Layout :=
  fun t => if t = size then exit else layout t

theorem Layout.ending_of_ne (layout : Layout) {size : Nat} (h : t ≠ size) :
    layout.ending size exit t = layout t := by
  simp [Layout.ending, h]

@[simp] theorem Layout.ending_self (layout : Layout) (size : Nat) :
    layout.ending size exit size = exit := by
  simp [Layout.ending]

/-- Code that does not go on, or goes on with a shape, can go on with any shape that allows
more. -/
theorem WellLaid.weaken (h : WellLaid pool w sketch exit)
    (hle : ∀ s, exit = some s → s.Le s') : WellLaid pool w sketch (some s') := by
  obtain ⟨layout, h⟩ := h
  set layout' := layout.ending w.code.size (some s') with hdef
  have hleads : ∀ t s, layout.Leads t s → layout'.Leads t s := by
    rintro t s ⟨s₁, hs₁, hle₁⟩
    by_cases ht : t = w.code.size
    · subst ht
      have hexit := h.exit
      rw [hs₁] at hexit
      exact ⟨s', by simp [hdef], hle₁.trans (hle s₁ hexit.symm)⟩
    · exact ⟨s₁, by rw [hdef, layout.ending_of_ne ht, hs₁], hle₁⟩
  have hspans : ∀ o n, layout.Spans w.code.size o n → layout'.Spans w.code.size o n := by
    intro o n hsp
    have hin := hsp.inside
    refine ⟨hin, fun t ht hlt => ?_, ?_⟩
    · rw [hdef, layout.ending_of_ne (by omega)]
      exact hsp.interior t ht hlt
    · by_cases heq : o + n = w.code.size
      · exact Or.inl heq
      · rw [hdef, layout.ending_of_ne heq]
        exact hsp.next
  refine ⟨layout', hleads _ _ h.entry, by simp [hdef], fun t ht => ?_, fun o s ho hs => ?_,
    fun p hp => ?_, fun l hl => hleads _ _ (h.labels l hl), h.paired, fun t ht hpos hnone => ?_⟩
  · rw [hdef, layout.ending_of_ne (by omega)]
    exact h.above t ht
  · rw [hdef, layout.ending_of_ne (by omega)] at hs
    refine (h.each o s ho hs).imp_left fun hf => ?_
    exact hf.transport (.refl pool) (fun _ hb _ => hb) hleads (hspans o)
  · obtain ⟨hs, hhole⟩ := h.holes p hp
    have hne : p.offset ≠ w.code.size := by
      have := hhole.1.inside
      omega
    refine ⟨by rw [hdef, layout.ending_of_ne hne, hs], ?_⟩
    exact hhole.transport (fun _ hb => hb) hleads (hspans _)
  · rw [hdef, layout.ending_of_ne (by omega)] at hnone
    exact h.ruled t ht hpos hnone

/-- Control that comes to the end of the code can come back there. -/
theorem WellLaid.label (h : WellLaid pool w sketch (some s)) :
    WellLaid pool w (sketch.label ⟨w.code.size, s⟩) (some s) := by
  obtain ⟨layout, h⟩ := h
  refine ⟨layout, h.entry, h.exit, h.above, h.each, h.holes, fun l hl => ?_, h.paired, h.ruled⟩
  rcases List.mem_cons.1 hl with rfl | hl
  · exact ⟨s, h.exit, .refl s⟩
  · exact h.labels l hl

/-- A label can be used again. -/
theorem WellLaid.relabel {l : Point} (h : WellLaid pool w sketch exit)
    (hl : l ∈ sketch.labels) : WellLaid pool w (sketch.label l) exit := by
  obtain ⟨layout, h⟩ := h
  refine ⟨layout, h.entry, h.exit, h.above, h.each, h.holes, fun l' hl' => ?_, h.paired, h.ruled⟩
  rcases List.mem_cons.1 hl' with rfl | hl'
  · exact h.labels _ hl
  · exact h.labels l' hl'

/-- Labels can be forgotten. -/
theorem WellLaid.unlabel {l : Point} (h : WellLaid pool w (sketch.label l) exit) :
    WellLaid pool w sketch exit := by
  obtain ⟨layout, h⟩ := h
  exact ⟨layout, h.entry, h.exit, h.above, h.each, h.holes,
    fun l' hl' => h.labels l' (List.mem_cons_of_mem l hl'), h.paired, h.ruled⟩

/-! ## Adding an instruction -/

/-- Bytes of one line added at the end: where the layout says so, the line is that of the byte
before. -/
theorem Written.Ruled.write (h : w.Ruled layout) (hpaired : w.lines.size = w.code.size)
    (hsame : ∀ t < w.code.size, layout' t = layout t)
    (hstart : (layout' w.code.size).isSome = true) : (w.write bytes line).Ruled layout' := by
  intro t ht hpos hnone
  change (w.lines ++ (List.replicate bytes.length line).toArray)[t]? =
    (w.lines ++ (List.replicate bytes.length line).toArray)[t - 1]?
  have ht : t < w.code.size + bytes.length := by simpa [Written.write] using ht
  rcases Nat.lt_trichotomy t w.code.size with hlt | rfl | hgt
  · rw [Array.getElem?_append_left (by omega), Array.getElem?_append_left (by omega)]
    exact h t hlt hpos (hsame t hlt ▸ hnone)
  · rw [hnone] at hstart
    cases hstart
  · rw [Array.getElem?_append_right (by omega), Array.getElem?_append_right (by omega)]
    simp only [List.getElem?_toArray]
    rw [List.getElem?_replicate_of_lt (by omega), List.getElem?_replicate_of_lt (by omega)]

/-- Bytes added at the end: they are an instruction or a jump without a distance, and control goes
on behind them with the shape `exit`. -/
theorem Lays.extend (h : Lays pool w sketch (some s) layout) (hbytes : bytes ≠ [])
    (exit : Option Shape) (new : List Point) (line : Nat)
    (hlast : Fits pool (w.code ++ bytes.toArray) (layout.ending (w.code.size + bytes.length) exit)
      w.code.size s ∨ ⟨w.code.size, s⟩ ∈ new)
    (hnew : ∀ p ∈ new, p = ⟨w.code.size, s⟩ ∧ Hole (w.code ++ bytes.toArray)
      (layout.ending (w.code.size + bytes.length) exit) w.code.size s) :
    Lays pool (w.write bytes line) { sketch with holes := new ++ sketch.holes } exit
      (layout.ending (w.code.size + bytes.length) exit) := by
  set layout' := layout.ending (w.code.size + bytes.length) exit with hdef
  have hpos : 0 < bytes.length := List.length_pos_iff.2 hbytes
  have hsize : (w.code ++ bytes.toArray).size = w.code.size + bytes.length := by simp
  have hsame : ∀ t, t ≤ w.code.size → layout' t = layout t := fun t ht =>
    layout.ending_of_ne (by omega)
  have hleads : ∀ t s, layout.Leads t s → layout'.Leads t s := by
    rintro t s ⟨s₁, hs₁, hle₁⟩
    have ht : t ≤ w.code.size := by
      by_contra hgt
      rw [h.above t (by omega)] at hs₁
      cases hs₁
    exact ⟨s₁, by rw [hsame t ht, hs₁], hle₁⟩
  have hspans : ∀ o n, layout.Spans w.code.size o n →
      layout'.Spans (w.code ++ bytes.toArray).size o n := by
    intro o n hsp
    have hin := hsp.inside
    refine ⟨by omega, fun t ht hlt => ?_, Or.inr ?_⟩
    · rw [hsame t (by omega)]
      exact hsp.interior t ht hlt
    · rw [hsame _ hin]
      rcases hsp.next with heq | hsome
      · rw [heq, h.exit]
        rfl
      · exact hsome
  refine ⟨hleads _ _ h.entry, ?_, fun t ht => ?_, fun o s₁ ho hs₁ => ?_, fun p hp => ?_,
    fun l hl => hleads _ _ (h.labels l hl), ?_, ?_⟩
  · change layout' (w.code ++ bytes.toArray).size = exit
    rw [hsize]
    simp [hdef]
  · change (w.code ++ bytes.toArray).size < t at ht
    rw [hdef, layout.ending_of_ne (by omega)]
    exact h.above t (by omega)
  · change o < (w.code ++ bytes.toArray).size at ho
    rw [hsize] at ho
    rcases Nat.lt_trichotomy o w.code.size with hlt | heq | hgt
    · rw [hsame o (by omega)] at hs₁
      rcases h.each o s₁ hlt hs₁ with hf | hmem
      · refine Or.inl (hf.transport (.refl pool) (fun bytes' hb hsp => ?_) hleads (hspans o))
        exact hb.append hsp.inside _
      · exact Or.inr (List.mem_append_right _ hmem)
    · subst heq
      rw [hsame _ le_rfl, h.exit] at hs₁
      cases hs₁
      exact hlast.imp_right fun hmem => List.mem_append_left _ hmem
    · rw [hdef, layout.ending_of_ne (by omega), h.above o hgt] at hs₁
      cases hs₁
  · rcases List.mem_append.1 hp with hmem | hmem
    · obtain ⟨rfl, hhole⟩ := hnew p hmem
      exact ⟨by rw [hsame _ le_rfl, h.exit], hhole⟩
    · obtain ⟨hs, hhole⟩ := h.holes p hmem
      have hin := hhole.1.inside
      refine ⟨by rw [hsame _ (by omega), hs], ?_⟩
      exact hhole.transport (fun b hb => hb.append (by simp; omega) _) hleads (hspans _)
  · simp [Written.write, h.paired]
  · refine h.ruled.write h.paired (fun t ht => hsame t (by omega)) ?_
    rw [hsame _ le_rfl, h.exit]
    rfl

/-- Nothing starts inside the bytes added at the end. -/
theorem Lays.spans_end (h : Lays pool w sketch (some s) layout) (bytes : List UInt8)
    (exit : Option Shape) :
    (layout.ending (w.code.size + bytes.length) exit).Spans (w.code ++ bytes.toArray).size
      w.code.size bytes.length := by
  refine ⟨by simp, fun t ht hlt => ?_, Or.inl (by simp)⟩
  rw [layout.ending_of_ne (by omega)]
  exact h.above t ht

/-- An instruction is added at the end. -/
theorem WellLaid.instruction (h : WellLaid pool w sketch (some s)) (hbytes : bytes ≠ [])
    (hgoes : ∀ layout : Layout, layout (w.code.size + bytes.length) = exit →
      (∀ l ∈ sketch.labels, layout.Leads l.offset l.shape) →
        Goes pool layout w.code.size s bytes) :
    WellLaid pool (w.write bytes line) sketch exit := by
  obtain ⟨layout, h⟩ := h
  have hlabels : ∀ l ∈ sketch.labels,
      (layout.ending (w.code.size + bytes.length) exit).Leads l.offset l.shape := by
    intro l hl
    obtain ⟨s₁, hs₁, hle₁⟩ := h.labels l hl
    refine ⟨s₁, ?_, hle₁⟩
    have hpos : 0 < bytes.length := List.length_pos_iff.2 hbytes
    have hne : l.offset ≠ w.code.size + bytes.length := by
      intro heq
      rw [heq, h.above _ (by omega)] at hs₁
      cases hs₁
    rw [layout.ending_of_ne hne, hs₁]
  refine ⟨_, h.extend hbytes exit [] line (Or.inl ⟨bytes, holds_end w.code bytes, ?_, ?_⟩)
    (by simp)⟩
  · exact h.spans_end bytes exit
  · exact hgoes _ (layout.ending_self _) hlabels

theorem WellLaid.plain {op : Opcode} {args : List UInt8} (h : WellLaid pool w sketch (some s))
    (hoperand : pool.Operand op s args n) (henough : op.needs n ≤ s.length)
    (hclear : op ≠ .closeUpvalue → ∀ b ∈ s.take (op.pops n), b = false) :
    WellLaid pool (w.write (op.toByte :: args) line) sketch (some (op.effect n s)) :=
  h.instruction (by simp) fun layout hexit _ =>
    .plain hoperand henough hclear
      ⟨_, by rw [← hexit, List.length_cons, Nat.add_assoc, Nat.add_comm 1], .refl _⟩

theorem WellLaid.ret (h : WellLaid pool w sketch (some s)) (hclear : s.head? = some false) :
    WellLaid pool (w.write [Opcode.ret.toByte] line) sketch none :=
  h.instruction (by simp) fun _ _ _ => .ret hclear

theorem WellLaid.closure {i : UInt8} {captures : List Capture}
    (h : WellLaid pool w sketch (some s))
    (hconstant : pool.constants[i.toNat]? = some (.function captures.length))
    (hshape : Shape.Le (false :: s) s') (hcaptured : ∀ c ∈ captures, c.Exists pool s') :
    WellLaid pool (w.write (Opcode.closure.toByte :: i :: captures.flatMap Capture.bytes) line)
      sketch (some s') :=
  h.instruction (by simp) fun layout hexit _ =>
    .closure hconstant hshape hcaptured
      ⟨_, by rw [← hexit]; congr 1; simp only [List.length_cons]; omega, .refl _⟩

/-- Two bytes hold every distance up to the longest one. -/
theorem distance_ofNat {d : Nat} (h : d < 65536) :
    distance (UInt8.ofNat (d / 256)) (UInt8.ofNat d) = d := by
  simp only [distance, UInt8.toNat_ofNat']
  omega

theorem WellLaid.loop {d : Nat} (h : WellLaid pool w sketch (some s))
    (hlabel : ⟨t, s'⟩ ∈ sketch.labels) (hle : s.Le s') (hd : d < 65536)
    (hback : t + d = w.code.size + 3) :
    WellLaid pool
      (w.write [Opcode.loop.toByte, UInt8.ofNat (d / 256), UInt8.ofNat d] line) sketch none :=
  h.instruction (by simp) fun layout _ hlabels =>
    .loop (by rw [distance_ofNat hd, hback]) ((hlabels _ hlabel).trans hle)

/-! ## Jumps without a distance -/

theorem WellLaid.jump (h : WellLaid pool w sketch (some s)) (high low : UInt8) :
    WellLaid pool (w.write [Opcode.jump.toByte, high, low] line)
      (sketch.hole ⟨w.code.size, s⟩) none := by
  obtain ⟨layout, h⟩ := h
  refine ⟨_, h.extend (by simp) none [⟨w.code.size, s⟩] line (Or.inr (by simp)) fun p hp => ?_⟩
  refine ⟨List.mem_singleton.1 hp, h.spans_end _ none, Or.inl fun i hi => ?_⟩
  have hend := holds_end w.code [Opcode.jump.toByte, high, low] i
  simp only [List.length_singleton, Nat.lt_one_iff] at hi
  subst hi
  exact hend (by simp)

theorem WellLaid.jumpIfFalse (h : WellLaid pool w sketch (some s)) (henough : 0 < s.length)
    (high low : UInt8) :
    WellLaid pool (w.write [Opcode.jumpIfFalse.toByte, high, low] line)
      (sketch.hole ⟨w.code.size, s⟩) (some s) := by
  obtain ⟨layout, h⟩ := h
  refine ⟨_, h.extend (by simp) (some s) [⟨w.code.size, s⟩] line (Or.inr (by simp))
    fun p hp => ?_⟩
  refine ⟨List.mem_singleton.1 hp, h.spans_end _ (some s), Or.inr ⟨fun i hi => ?_, henough, ?_⟩⟩
  · have hend := holds_end w.code [Opcode.jumpIfFalse.toByte, high, low] i
    simp only [List.length_singleton, Nat.lt_one_iff] at hi
    subst hi
    exact hend (by simp)
  · exact ⟨s, layout.ending_self _, .refl s⟩

/-- Bytes outside of the distance of a jump are not changed by filling it in. -/
theorem Holds.put_distance (h : Holds code t bytes) (high low : UInt8)
    (hdisjoint : t + bytes.length ≤ o + 1 ∨ o + 3 ≤ t) :
    Holds (put (put code (o + 1) high) (o + 2) low) t bytes := by
  intro i hi
  rw [getElem?_put_ne _ _ (by omega), getElem?_put_ne _ _ (by omega)]
  exact h i hi

/-- **A jump is let go to the end of the code.** The lines stay as they are. -/
theorem WellLaid.patch {d : Nat} {holes : List Point} (h : WellLaid pool w sketch (some s'))
    (hhole : ⟨o, s⟩ ∈ sketch.holes) (hrest : ∀ p ∈ sketch.holes, p ≠ ⟨o, s⟩ → p ∈ holes)
    (hsub : ∀ p ∈ holes, p ∈ sketch.holes) (hle : s.Le s') (hd : d < 65536)
    (hend : o + 3 + d = w.code.size) :
    WellLaid pool
      { w with code := put (put w.code (o + 1) (UInt8.ofNat (d / 256))) (o + 2) (UInt8.ofNat d) }
      { sketch with holes } (some s') := by
  obtain ⟨code, lines⟩ := w
  obtain ⟨layout, h⟩ := h
  obtain ⟨hs, hspan, hjump⟩ : layout o = some s ∧ Hole code layout o s := h.holes _ hhole
  set code' := put (put code (o + 1) (UInt8.ofNat (d / 256))) (o + 2) (UInt8.ofNat d) with hdef
  have hsize : code'.size = code.size := by simp [hdef]
  have hin : o + 3 ≤ code.size := hspan.inside
  -- other instructions start outside of the jump and end before it
  have hkept : ∀ t s₁ n, layout t = some s₁ → t ≠ o → layout.Spans code.size t n →
      t + n ≤ o + 1 ∨ o + 3 ≤ t := by
    intro t s₁ n hs₁ hne hsp
    rcases Nat.lt_or_gt_of_ne hne with hlt | hgt
    · refine Or.inl ?_
      by_contra hover
      have hnone := hsp.interior o hlt (by omega)
      rw [hs] at hnone
      cases hnone
    · refine Or.inr ?_
      by_contra hover
      have hnone := hspan.interior t hgt (by omega)
      rw [hs₁] at hnone
      cases hnone
  have htarget : layout.Leads (o + 3 + distance (UInt8.ofNat (d / 256)) (UInt8.ofNat d)) s := by
    rw [distance_ofNat hd, hend]
    exact ⟨s', h.exit, hle⟩
  have hbytes : ∀ b, Holds code o [b] →
      Holds code' o [b, UInt8.ofNat (d / 256), UInt8.ofNat d] := by
    intro b hb i hi
    have hcases : i = 0 ∨ i = 1 ∨ i = 2 := by simp at hi; omega
    rcases hcases with rfl | rfl | rfl
    · exact hb.put_distance _ _ (Or.inl (by simp)) 0 (by simp)
    · rw [hdef, getElem?_put_ne _ _ (by omega), getElem?_put_self _ (by omega)]
      rfl
    · rw [hdef, getElem?_put_self _ (by simp; omega)]
      rfl
  have hfits : Fits pool code' layout o s := by
    rcases hjump with hjump | ⟨hjump, hlength, hnext⟩
    · exact ⟨_, hbytes _ hjump, by rw [hsize]; exact hspan, .jump htarget⟩
    · exact ⟨_, hbytes _ hjump, by rw [hsize]; exact hspan, .jumpIfFalse hlength hnext htarget⟩
  refine ⟨layout, h.entry, (congrArg layout hsize).trans h.exit,
    fun t ht => h.above t (hsize.symm.trans_lt ht), fun t s₁ ht hs₁ => ?_, fun p hp => ?_,
    h.labels, h.paired.trans hsize.symm, fun t ht => h.ruled t (ht.trans_eq hsize)⟩
  · change t < code'.size at ht
    rw [hsize] at ht
    by_cases hto : t = o
    · subst hto
      rw [hs] at hs₁
      cases hs₁
      exact Or.inl hfits
    · rcases h.each t s₁ ht hs₁ with hf | hmem
      · refine Or.inl (hf.transport (.refl pool) (fun bytes hb hsp => ?_) (fun _ _ hl => hl)
          (fun n hsp => by rw [hsize]; exact hsp))
        exact hb.put_distance _ _ (hkept t s₁ _ hs₁ hto hsp)
      · refine Or.inr (hrest _ hmem ?_)
        intro heq
        exact hto (congrArg Point.offset heq)
  · obtain ⟨hsp, hhole'⟩ := h.holes p (hsub p hp)
    refine ⟨hsp, hhole'.transport (fun b hb => ?_) (fun _ _ hl => hl)
      (fun n hspn => by rw [hsize]; exact hspn)⟩
    by_cases hpo : p.offset = o
    · rw [hpo] at hb ⊢
      exact hb.put_distance _ _ (Or.inl (by simp))
    · refine hb.put_distance _ _ ?_
      rcases hkept _ _ 3 hsp hpo hhole'.1 with hlt | hgt
      · exact Or.inl (by simp; omega)
      · exact Or.inr hgt

end LoxMachine

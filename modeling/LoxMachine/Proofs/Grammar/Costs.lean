import LoxMachine.Proofs.Grammar.Origins
import LoxMachine.Proofs.Grammar.Reading

/-!
# What compiling along a tree costs

The directed compilation meets no error if and only if the static rules hold and there is room for what
it adds to the functions.

* `Compiler.Stands c σ`: the compiler is at the point `σ` of a program and has met no error.
* `Compiler.Takes c f c'`: what has been added between the two states is `f`.
* `Compiler.Room c f`: there is room for `f`.
* `Compile.Costs x c legal f σ Q`: the action meets no error if and only if `legal` holds and there is
  room for `f`, and then it adds `f` and ends at the point `σ`. `Costs.bind` adds up what two actions
  cost.
-/

namespace LoxMachine

open Compile

set_option synthInstance.maxSize 4096

/-! ## States -/

namespace Compiler

/-- The compiler stands at a point of a program, and has met no error. -/
structure Stands (c : Compiler) (σ : Setting) : Prop where
  errors : c.errors = #[]
  calm : c.panicking = false
  clean : ∀ t ∈ c.rest, ∀ reason, t.kind ≠ .error reason
  here : c.draft.scope = σ.here
  outer : c.enclosing.map Draft.scope = σ.outer
  classes : c.classes.map ClassScope.hasSuperclass = σ.classes
  threaded : Threaded (c.draft :: c.enclosing)
  bounded : ∀ d ∈ c.draft :: c.enclosing, d.Bounded

/-- What has been added to the functions between two states. -/
structure Takes (c : Compiler) (f : Footprint) (c' : Compiler) : Prop where
  size : c'.draft.chunk.size = c.draft.chunk.size + f.size
  constants : c'.draft.chunk.constants.size = c.draft.chunk.constants.size + f.constants
  outward : ∀ o ∈ f.captured, o.1 < c.enclosing.length
  captured : ∀ o, o ∈ origins (c'.draft :: c'.enclosing) ↔
    o ∈ origins (c.draft :: c.enclosing) ∨ o ∈ f.captured
  enclosing : Absorbs f.captured c.enclosing c'.enclosing

/-- There is room for something more. -/
structure Room (c : Compiler) (f : Footprint) : Prop where
  constants : c.draft.chunk.constants.size + f.constants ≤ byteCount
  captured : HasRoom f.captured (c.draft :: c.enclosing)

variable {c c₁ c₂ : Compiler} {f g : Footprint} {σ : Setting}

theorem Takes.trans (h : c.Takes f c₁) (h' : c₁.Takes g c₂) : c.Takes (f + g) c₂ := by
  refine ⟨?_, ?_, fun o ho => ?_, fun o => ?_, h.enclosing.trans h'.enclosing⟩
  · rw [h'.size, h.size, Footprint.size_add, Nat.add_assoc]
  · rw [h'.constants, h.constants, Footprint.constants_add, Nat.add_assoc]
  · refine (List.mem_append.1 ho).elim (h.outward o) fun ho => ?_
    rw [← h.enclosing.length_eq]
    exact h'.outward o ho
  · rw [h'.captured, h.captured, Footprint.captured_add, List.mem_append, or_assoc]

theorem Room.left (h : c.Room (f + g)) : c.Room f :=
  ⟨(Nat.add_le_add_left (Nat.le_add_right _ _) _).trans h.constants, HasRoom.left h.captured⟩

theorem Takes.room_add (h : c.Takes f c₁) : c.Room (f + g) ↔ c.Room f ∧ c₁.Room g := by
  have hcaptured : HasRoom (f.captured ++ g.captured) (c.draft :: c.enclosing) ↔
      HasRoom f.captured (c.draft :: c.enclosing) ∧ HasRoom g.captured (c₁.draft :: c₁.enclosing) :=
    Absorbs.hasRoom_append_cons (fun o => (h.captured o).trans (or_congr_right
      ⟨fun ho => ⟨ho, h.outward o ho⟩, fun ho => ho.1⟩)) h.enclosing h.enclosing.hasRoom_append
  have hconstants := h.constants
  constructor
  · intro hroom
    refine ⟨hroom.left, ?_, (hcaptured.1 hroom.captured).2⟩
    have := hroom.constants
    rw [Footprint.constants_add] at this
    omega
  · rintro ⟨hf, hg⟩
    refine ⟨?_, hcaptured.2 ⟨hf.captured, hg.captured⟩⟩
    have := hg.constants
    rw [Footprint.constants_add]
    omega

theorem Stands.room_bytes (h : c.Stands σ) (n : Nat) : c.Room (.bytes n) :=
  ⟨(h.bounded _ List.mem_cons_self).constants, hasRoom_nil h.bounded⟩

end Compiler

namespace Compile

variable {α β : Type} {c : Compiler} {P P' : Prop} {f g : Footprint} {σ σ₁ σ₂ : Setting}

/-- The action meets no error if and only if it is legal and there is room for what it adds. -/
structure Costs (x : Compile α) (c : Compiler) (legal : Prop) (f : Footprint) (σ : Setting)
    (Q : α → Compiler → Prop) : Prop where
  errors_iff : (x c).2.errors = #[] ↔ legal ∧ c.Room f
  ends : (x c).2.errors = #[] → (x c).2.Stands σ ∧ c.Takes f (x c).2 ∧ Q (x c).1 (x c).2

namespace Costs

variable {x : Compile α} {Q Q' : α → Compiler → Prop}

theorem mono (h : Costs x c P f σ Q) (hQ : ∀ a c', Q a c' → Q' a c') : Costs x c P f σ Q' :=
  ⟨h.errors_iff, fun herr => (h.ends herr).imp id fun h => h.imp id (hQ _ _)⟩

/-- Another way to say what is legal and what is added. -/
theorem congr (h : Costs x c P f σ Q) (hP : P' ↔ P) (hf : g = f) : Costs x c P' g σ Q := by
  subst hf
  exact ⟨h.errors_iff.trans (and_congr_left' hP.symm), h.ends⟩

/-- **What two actions cost one after the other.** -/
theorem bind {k : α → Compile β} {n : Nat} [hread : ∀ a, Reads (k a) n] {R : β → Compiler → Prop}
    (h : Costs x c P f σ₁ Q)
    (hk : ∀ a c₁, c₁.Stands σ₁ → c.Takes f c₁ → Q a c₁ → Costs (k a) c₁ P' g σ₂ R) :
    Costs (x >>= k) c (P ∧ P') (f + g) σ₂ R := by
  by_cases herr : (x c).2.errors = #[]
  · obtain ⟨hlegal, hroom⟩ := h.errors_iff.1 herr
    obtain ⟨hstands, htakes, hQ⟩ := h.ends herr
    have hnext := hk _ _ hstands htakes hQ
    refine ⟨?_, fun herr' => ?_⟩
    · change (k (x c).1 (x c).2).2.errors = #[] ↔ _
      rw [hnext.errors_iff, htakes.room_add]
      tauto
    · obtain ⟨hstands', htakes', hR⟩ := hnext.ends herr'
      exact ⟨hstands', htakes.trans htakes', hR⟩
  · have hlater : ((x >>= k) c).2.errors ≠ #[] := fun h' =>
      herr ((hread (x c).1).clean (x c).2 h')
    refine ⟨iff_of_false hlater fun ⟨⟨hP, _⟩, hroom⟩ => ?_, fun h' => absurd h' hlater⟩
    exact herr (h.errors_iff.2 ⟨hP, hroom.left⟩)

/-- What is known of the result besides. -/
theorem and (h : Costs x c P f σ Q) (hQ' : Q' (x c).1 (x c).2) :
    Costs x c P f σ fun a c' => Q a c' ∧ Q' a c' :=
  ⟨h.errors_iff, fun herr => (h.ends herr).imp id fun h => h.imp id fun h => ⟨h, hQ'⟩⟩

/-- An action whose result is known. -/
theorem known {k : α → Compile β} {a : α} {R : β → Compiler → Prop} (hx : x c = (a, c))
    (h : Costs (k a) c P f σ R) : Costs (x >>= k) c P f σ R := by
  refine ⟨?_, ?_⟩
  · rw [bind_of hx]
    exact h.errors_iff
  · rw [bind_of hx]
    exact h.ends

/-- An action that only changes the innermost draft, without adding constants or captures. -/
theorem of_draft {a : α} {d : Draft} {heap : Heap} {n : Nat} (hc : c.Stands σ)
    (hx : x c = (a, { c with draft := d, heap })) (hscope : d.scope = σ₁.here) (houter : σ₁.outer = σ.outer)
    (hclasses : σ₁.classes = σ.classes) (hcaptures : d.captures = c.draft.captures)
    (hcount : d.upvalueCount = c.draft.upvalueCount)
    (hconstants : d.chunk.constants = c.draft.chunk.constants)
    (hsize : d.chunk.size = c.draft.chunk.size + n) (hlocals : d.locals.length ≤ byteCount)
    (hQ : Q a { c with draft := d, heap }) : Costs x c True (.bytes n) σ₁ Q := by
  have horigins : origins (d :: c.enclosing) = origins (c.draft :: c.enclosing) := by
    rw [origins, origins, hcaptures]
  obtain ⟨hdraft, henclosing⟩ := List.forall_mem_cons.1 hc.bounded
  refine ⟨?_, fun _ => ?_⟩
  · rw [hx]
    exact iff_of_true hc.errors ⟨trivial, hc.room_bytes n⟩
  · rw [hx]
    refine ⟨⟨hc.errors, hc.calm, hc.clean, hscope, hc.outer.trans houter.symm, hc.classes.trans hclasses.symm,
      ⟨?_, ?_, hc.threaded.2.2⟩, List.forall_mem_cons.2 ⟨⟨hlocals, ?_, ?_, ?_⟩, henclosing⟩⟩,
      ⟨hsize, ?_, List.forall_mem_nil _, ?_, .refl _⟩, hQ⟩
    · intro cap hcap
      exact hc.threaded.1 cap (hcaptures ▸ hcap)
    · rw [horigins]
      exact hc.threaded.2.1
    · rw [hcaptures]
      exact hdraft.captures
    · change d.upvalueCount = d.captures.size
      rw [hcount, hcaptures]
      exact hdraft.counted
    · rw [hconstants]
      exact hdraft.constants
    · change d.chunk.constants.size = _
      rw [hconstants]
      rfl
    · intro o
      rw [horigins]
      simp

/-- An action that changes neither drafts nor errors. -/
theorem free {a : α} {heap : Heap} (hc : c.Stands σ) (hx : x c = (a, { c with heap })) (hQ : Q a { c with heap }) :
    Costs x c True 0 σ Q :=
  of_draft (d := c.draft) (n := 0) hc hx hc.here rfl rfl rfl rfl rfl rfl
    (hc.bounded _ List.mem_cons_self).locals hQ

theorem pure (hc : c.Stands σ) {a : α} (hQ : Q a c) : Costs (Pure.pure a : Compile α) c True 0 σ Q :=
  free hc rfl hQ

end Costs

/-! ## Reading and reporting -/

theorem advance_costs (hc : c.Stands σ) : Costs advance c True 0 σ fun _ _ => True := by
  have hpull : ∀ (ts : List Token) (c : Compiler), (∀ t ∈ ts, ∀ reason, t.kind ≠ .error reason) →
      ∃ (current : Token) (rest : List Token), c.pull ts = { c with current, rest } ∧
        ∀ t ∈ rest, ∀ reason, t.kind ≠ .error reason := by
    intro ts c hts
    cases ts with
    | nil => exact ⟨c.current, [], rfl, nofun⟩
    | cons t ts =>
      obtain ⟨ht, hts⟩ := List.forall_mem_cons.1 hts
      unfold Compiler.pull
      split
      · exact absurd ‹_› (ht _)
      · exact ⟨t, [t], rfl, fun u hu => List.mem_singleton.1 hu ▸ ht⟩
      · exact ⟨t, ts, rfl, hts⟩
  obtain ⟨current, rest, heq, hrest⟩ := hpull c.rest { c with previous := c.current } hc.clean
  have hadvance : advance c = ((), { c with previous := c.current, current, rest }) := congrArg ((), ·) heq
  refine ⟨?_, fun _ => ?_⟩
  · rw [hadvance]
    exact iff_of_true hc.errors ⟨trivial, hc.room_bytes 0⟩
  · rw [hadvance]
    exact ⟨⟨hc.errors, hc.calm, hrest, hc.here, hc.outer, hc.classes, hc.threaded, hc.bounded⟩,
      ⟨rfl, rfl, nofun, by simp, .refl _⟩, trivial⟩

theorem calm_of_stands (hc : c.Stands σ) : c.Calm := fun h => absurd (h.symm.trans hc.calm) nofun

theorem error_costs (hc : c.Stands σ) (d : Diagnosis) {Q : Unit → Compiler → Prop} :
    Costs (error d) c False g σ₁ Q := by
  have herror := errorAt_ne (calm_of_stands hc) c.previous d
  exact ⟨iff_of_false herror fun h => h.1, fun h => absurd h herror⟩

theorem errorIf_costs (hc : c.Stands σ) (p : Prop) [Decidable p] (d : Diagnosis) :
    Costs (errorIf p d) c (¬p) 0 σ fun _ _ => ¬p := by
  unfold errorIf
  split
  · rename_i hp
    exact (error_costs hc d).congr (by simp [hp]) rfl
  · rename_i hp
    exact .congr (.pure hc hp) (by simp [hp]) rfl

/-- Faults are reported one by one. -/
theorem faults_errors_iff (herrors : c.errors = #[]) (hc : c.Calm) (faults : List Diagnosis) :
    ((faults.forM error) c).2.errors = #[] ↔ faults = [] := by
  cases faults with
  | nil => exact iff_of_true herrors rfl
  | cons d faults =>
    refine iff_of_false (fun h => ?_) nofun
    exact errorAt_ne hc c.previous d ((Orderly.precedes (x := faults.forM error) (error d c).2).errors h)

/-! ## Code -/

theorem emitByte_costs (hc : c.Stands σ) (byte : UInt8) :
    Costs (emitByte byte) c True (.bytes 1) σ fun _ _ => True :=
  .of_draft hc rfl hc.here rfl rfl rfl rfl rfl (Chunk.size_write ..)
    (hc.bounded _ List.mem_cons_self).locals trivial

theorem emit_costs (hc : c.Stands σ) (op : Opcode) :
    Costs (emit op) c True (.bytes 1) σ fun _ _ => True := emitByte_costs hc _

theorem emitWith_costs (hc : c.Stands σ) (op : Opcode) (byte : UInt8) :
    Costs (emitWith op byte) c True (.bytes 2) σ fun _ _ => True :=
  .congr (.bind (emit_costs hc op) fun _ _ hc₁ _ _ => emitByte_costs hc₁ byte) (by simp) rfl

theorem emitAll_costs (hc : c.Stands σ) (l : List α) (op : α → Opcode) :
    Costs (l.forM fun a => emit (op a)) c True (.bytes l.length) σ fun _ _ => True := by
  induction l generalizing c with
  | nil => exact .pure hc trivial
  | cons a l ih =>
    refine .congr (.bind (emit_costs hc (op a)) fun _ _ hc₁ _ _ => ih hc₁) (by simp) ?_
    ext <;> simp [Nat.add_comm]

/-- The result is where the distance of the jump goes. -/
theorem emitJump_costs (hc : c.Stands σ) (op : Opcode) :
    Costs (emitJump op) c True (.bytes 3) σ fun offset _ => offset = c.draft.chunk.size + 1 := by
  unfold emitJump
  refine .congr (.bind (emit_costs hc op) fun _ c₁ hc₁ h₁ _ => .bind (emitByte_costs hc₁ _) fun _ c₂ hc₂ h₂ _ =>
    .bind (emitByte_costs hc₂ _) fun _ c₃ hc₃ h₃ _ => .free (a := c₃.draft.chunk.size - 2) hc₃ rfl ?_)
      (by simp) rfl
  have := h₁.size
  have := h₂.size
  have := h₃.size
  simp only [Footprint.size_bytes] at *
  omega

/-- A change of the code that leaves its length. -/
theorem modifyChunk_costs (hc : c.Stands σ) (h : Chunk → Chunk) (hsize : ∀ k, (h k).size = k.size)
    (hconstants : ∀ k, (h k).constants = k.constants) :
    Costs (modifyChunk h) c True 0 σ fun _ _ => True :=
  .of_draft (n := 0) hc rfl hc.here rfl rfl rfl rfl (hconstants _) (hsize _)
    (hc.bounded _ List.mem_cons_self).locals trivial

theorem patchJump_eq (offset : Nat) :
    patchJump offset = (do
      let size ← codeSize
      errorIf (maxJump < size - offset - 2) .jumpTooFar
      modifyChunk (·.patch offset (min (size - offset - 2) maxJump))) := by
  unfold patchJump errorIf
  refine congrArg _ (funext fun size => ?_)
  dsimp only
  split <;> simp

/-- A jump over `distance` bytes. -/
theorem patchJump_costs (hc : c.Stands σ) {offset : Nat} (distance : Nat)
    (h : c.draft.chunk.size = offset + 2 + distance) :
    Costs (patchJump offset) c (Near distance) 0 σ fun _ _ => True := by
  have hdistance : c.draft.chunk.size - offset - 2 = distance := by omega
  rw [patchJump_eq]
  refine .known (a := c.draft.chunk.size) rfl ?_
  rw [hdistance]
  exact .congr (.bind (errorIf_costs hc _ _) fun _ c₁ hc₁ _ _ => modifyChunk_costs hc₁ _
    (fun k => Chunk.size_patch ..) fun k => rfl) (by simp [Near]) rfl

theorem emitLoop_eq (start : Nat) :
    emitLoop start = (do
      emit .loop
      let size ← codeSize
      errorIf (maxJump < size - start + 2) .loopTooLarge
      emitByte (UInt8.ofNat (min (size - start + 2) maxJump / 256))
      emitByte (UInt8.ofNat (min (size - start + 2) maxJump))) := by
  unfold emitLoop errorIf
  refine congrArg _ (funext fun _ => congrArg _ (funext fun size => ?_))
  dsimp only
  split <;> simp

/-- A jump back over `distance` bytes, those of the jump itself among them. -/
theorem emitLoop_costs (hc : c.Stands σ) {start : Nat} (distance : Nat)
    (h : c.draft.chunk.size + 3 = start + distance) (hstart : start ≤ c.draft.chunk.size) :
    Costs (emitLoop start) c (Near distance) (.bytes 3) σ fun _ _ => True := by
  have hrest : ∀ c₁ : Compiler, c₁.Stands σ → c₁.draft.chunk.size = c.draft.chunk.size + 1 →
      Costs (do
        let size ← codeSize
        errorIf (maxJump < size - start + 2) .loopTooLarge
        emitByte (UInt8.ofNat (min (size - start + 2) maxJump / 256))
        emitByte (UInt8.ofNat (min (size - start + 2) maxJump))) c₁ (Near distance) (.bytes 2) σ
          fun _ _ => True := by
    intro c₁ hc₁ hsize
    refine .known (a := c₁.draft.chunk.size) rfl ?_
    rw [show c₁.draft.chunk.size - start + 2 = distance by omega]
    exact .congr (.bind (errorIf_costs hc₁ _ _) fun _ c₂ hc₂ _ _ => .bind (emitByte_costs hc₂ _)
      fun _ c₃ hc₃ _ _ => emitByte_costs hc₃ _) (by simp [Near]) rfl
  rw [emitLoop_eq]
  exact .congr (.bind (emit_costs hc _) fun _ c₁ hc₁ h₁ _ => hrest c₁ hc₁ h₁.size) (by simp) rfl

/-! ## Constants -/

theorem intern_costs (hc : c.Stands σ) (s : String) : Costs (intern s) c True 0 σ fun _ _ => True :=
  .free hc rfl trivial

theorem alloc_costs (hc : c.Stands σ) (o : Object) : Costs (alloc o) c True 0 σ fun _ _ => True :=
  .free hc rfl trivial

theorem makeConstant_costs (hc : c.Stands σ) (v : Value) :
    Costs (makeConstant v) c True { constants := 1 } σ fun _ _ => True := by
  have hdraft := hc.bounded _ List.mem_cons_self
  have hcalm : c.Calm := calm_of_stands hc
  set c₁ : Compiler := { c with draft := { c.draft with chunk := c.draft.chunk.addConstant v } } with hc₁
  have hrun : makeConstant v c = (if byteCount ≤ c.draft.chunk.constants.size
      then do error .tooManyConstants; return 0
      else return UInt8.ofNat c.draft.chunk.constants.size : Compile UInt8) c₁ := rfl
  by_cases hfull : byteCount ≤ c.draft.chunk.constants.size
  · rw [if_pos hfull] at hrun
    have herror : (makeConstant v c).2.errors ≠ #[] := by
      rw [hrun]
      exact errorAt_ne (c := c₁) hcalm c.previous .tooManyConstants
    refine ⟨iff_of_false herror fun h => ?_, fun h => absurd h herror⟩
    have hroom := h.2.constants
    simp only at hroom
    omega
  · rw [if_neg hfull] at hrun
    have hsize : (makeConstant v c).2 = c₁ := by
      rw [hrun]
      rfl
    refine ⟨?_, fun _ => ?_⟩
    · rw [hsize]
      refine iff_of_true hc.errors ⟨trivial, ?_, hasRoom_nil hc.bounded⟩
      simp only
      omega
    · rw [hsize]
      refine ⟨⟨hc.errors, hc.calm, hc.clean, hc.here, hc.outer, hc.classes, hc.threaded,
        List.forall_mem_cons.2
          ⟨⟨hdraft.locals, hdraft.captures, hdraft.counted, ?_⟩, (List.forall_mem_cons.1 hc.bounded).2⟩⟩,
        ⟨rfl, ?_, List.forall_mem_nil _, ?_, .refl _⟩, trivial⟩
      · simp [hc₁, Chunk.addConstant]
        omega
      · simp [hc₁, Chunk.addConstant]
      · intro o
        simp [hc₁, origins]

theorem nameConstant_costs (hc : c.Stands σ) (name : String) :
    Costs (nameConstant name) c True { constants := 1 } σ fun _ _ => True :=
  .congr (.bind (intern_costs hc name) fun _ _ hc₁ _ _ => makeConstant_costs hc₁ _) (by simp) rfl

theorem emitConstant_costs (hc : c.Stands σ) (v : Value) :
    Costs (emitConstant v) c True (.constant 2) σ fun _ _ => True :=
  .congr (.bind (makeConstant_costs hc v) fun _ _ hc₁ _ _ => emitWith_costs hc₁ _ _) (by simp) rfl

/-! ## Variables -/

/-- Where a name is looked up first. -/
theorem lookup_functions (hc : c.Stands σ) (name : String) :
    lookup name σ.functions = match Draft.findLocal name c.draft.locals with
      | some (slot, l) => some ((σ.outer.length, slot), l.plain)
      | none => lookup name σ.outer := by
  rw [Setting.functions, lookup, ← hc.here, Draft.scope, findLocal_plain]
  cases Draft.findLocal name c.draft.locals <;> rfl

theorem usable_iff {name : String} {place : Nat × Nat} {v : Local}
    (h : lookup name σ.functions = some (place, v)) : σ.Usable name ↔ v.depth ≠ none := by
  unfold Setting.Usable
  rw [h]
  constructor
  · exact fun h => h place v rfl
  · intro h _ _ heq
    simp only [Option.some.injEq, Prod.mk.injEq] at heq
    exact heq.2 ▸ h

/-- A local variable of the function itself. -/
theorem access_local_costs (hc : c.Stands σ) {name : String} {slot : Nat} {l : Local}
    (hfind : Draft.findLocal name c.draft.locals = some (slot, l)) :
    Costs (access name) c (σ.Usable name) { σ.access name with size := 0 } σ fun _ _ => True := by
  have hlookup := lookup_functions hc name
  rw [hfind] at hlookup
  have hfootprint : ({ σ.access name with size := 0 } : Footprint) = 0 := by
    unfold Setting.access
    rw [hlookup]
    simp only [Nat.lt_irrefl, if_false]
    rfl
  have hrun : access name c = (⟨.getLocal, .setLocal, UInt8.ofNat slot⟩, ((l.useFaults.forM error) c).2) := by
    unfold access
    rw [bind_of (rfl : (get : Compile Compiler) c = (c, c)), hfind]
    rfl
  have hfaults := faults_errors_iff hc.errors (calm_of_stands hc) l.useFaults
  rw [hfootprint]
  refine ⟨?_, fun h => ?_⟩
  · rw [hrun, hfaults, useFaults_eq_nil_iff, usable_iff hlookup]
    exact ⟨fun h => ⟨h, hc.room_bytes 0⟩, fun h => h.1⟩
  · rw [hrun] at h ⊢
    rw [hfaults.1 h]
    exact ⟨hc, ⟨rfl, rfl, nofun, fun o => ⟨.inl, fun h => h.elim id nofun⟩, .refl _⟩, trivial⟩

/-- A local variable of an enclosing function. -/
theorem access_captured_costs (hc : c.Stands σ) {name : String} {place : Nat × Nat} {v : Local}
    (hfind : Draft.findLocal name c.draft.locals = none) (houter : lookup name σ.outer = some (place, v)) :
    Costs (access name) c (σ.Usable name) { σ.access name with size := 0 } σ fun _ _ => True := by
  have hlookup := lookup_functions hc name
  rw [hfind] at hlookup
  have hlt : place.1 < c.enclosing.length := by
    have := lookup_lt houter
    rwa [← hc.outer, List.length_map] at this
  have hfootprint : ({ σ.access name with size := 0 } : Footprint) = { captured := [place] } := by
    unfold Setting.access
    rw [hlookup, houter]
    simp only [lookup_lt houter, if_true]
  rw [← hc.outer] at houter
  obtain ⟨r, hresolve, hfaults, hcaptures⟩ := resolve_some hc.threaded hc.bounded houter
  have hrun : access name c = (⟨.getUpvalue, .setUpvalue, r.index⟩, ((r.faults.forM error)
      { c with draft := r.draft, enclosing := r.enclosing }).2) := by
    unfold access
    rw [bind_of (rfl : (get : Compile Compiler) c = (c, c)), hfind]
    simp only [hresolve]
    rfl
  have hcalm : c.Calm := calm_of_stands hc
  have hreported := faults_errors_iff (c := { c with draft := r.draft, enclosing := r.enclosing })
    hc.errors hcalm r.faults
  rw [hc.outer] at houter
  rw [hfootprint]
  refine ⟨?_, fun h => ?_⟩
  · rw [hrun, hreported, hfaults, usable_iff (hlookup.trans houter)]
    refine and_congr_right fun _ => ⟨fun hroom => ⟨?_, hroom⟩, fun hroom => hroom.captured⟩
    exact (hc.bounded _ List.mem_cons_self).constants
  · rw [hrun] at h ⊢
    have hnone := hreported.1 h
    have hr := hcaptures hnone
    rw [hnone]
    cases hr.absorbs with
    | cons scope same gathered held more =>
      have chunk := congrArg Draft.chunk same
      refine ⟨⟨hc.errors, hc.calm, hc.clean, scope.trans hc.here, more.scopes.trans hc.outer, hc.classes,
        hr.threaded, hr.bounded⟩, ⟨congrArg Chunk.size chunk, ?_, ?_, ?_, more⟩, trivial⟩
      · exact congrArg (fun k => k.constants.size) chunk
      · intro o ho
        rwa [List.mem_singleton.1 ho]
      · intro o
        refine (captured_of_gathered gathered o).trans (or_congr_right ⟨fun ho => ho.1, fun ho => ⟨ho, ?_⟩⟩)
        rwa [List.mem_singleton.1 ho]

/-- **A use of a variable**, without the instruction for it. -/
theorem access_costs (hc : c.Stands σ) (name : String) :
    Costs (access name) c (σ.Usable name) { σ.access name with size := 0 } σ fun _ _ => True := by
  cases hfind : Draft.findLocal name c.draft.locals with
  | some found => exact access_local_costs hc hfind
  | none =>
    cases houter : lookup name σ.outer with
    | some found => exact access_captured_costs hc hfind houter
    | none =>
      have hlookup := lookup_functions hc name
      rw [hfind] at hlookup
      have hresolve : Draft.resolve name c.draft c.enclosing = none := by
        rw [← hc.outer] at houter
        exact resolve_none houter
      have hrun : access name c = (do
          return ⟨.getGlobal, .setGlobal, ← nameConstant name⟩ : Compile Access) c := by
        unfold access
        rw [bind_of (rfl : (get : Compile Compiler) c = (c, c)), hfind]
        simp only [hresolve]
      have hglobal : Costs (do return ⟨.getGlobal, .setGlobal, ← nameConstant name⟩ : Compile Access) c
          (σ.Usable name) { σ.access name with size := 0 } σ fun _ _ => True := by
        refine .congr (.bind (nameConstant_costs hc name) fun _ _ hc₁ _ _ => .pure hc₁ trivial) ?_ ?_
        · simp [Setting.Usable, hlookup, houter]
        · unfold Setting.access
          rw [hlookup, houter]
          rfl
      refine ⟨?_, ?_⟩
      · rw [hrun]
        exact hglobal.errors_iff
      · rw [hrun]
        exact hglobal.ends

theorem size_access (σ : Setting) (name : String) : (σ.access name).size = 2 := by
  unfold Setting.access
  split <;> rfl

theorem readVariable_costs (hc : c.Stands σ) (name : String) :
    Costs (readVariable name) c (σ.Usable name) (σ.access name) σ fun _ _ => True := by
  refine .congr (.bind (access_costs hc name) fun _ _ hc₁ _ _ => emitWith_costs hc₁ _ _) (by simp) ?_
  ext <;> simp [size_access]

end Compile

end LoxMachine

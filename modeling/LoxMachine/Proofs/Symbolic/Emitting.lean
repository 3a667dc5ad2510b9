import LoxMachine.Proofs.Grammar.Phrases
import LoxMachine.Proofs.Symbolic.Code

/-!
# Writing symbolic code

What the actions of the compiler write, as long as there are no errors.

* `Compiler.Ongoing c σ`: the compiler stands at a point of a program, and its heap is in order.
* `Compiler.Adds c bytes places c'`: between the two states, bytes have been written, and variables of
  functions around have been captured. The rest has been kept.
* `Compile.Emits x c code places σ Q`: the action writes bytes that stand for the code, captures the
  variables, and ends at the point `σ`. `Emits.bind` puts actions together.
* `across_emits`, `branch_emits` and `emitLoop_emits`: jumps over code that has been written since.
-/

namespace LoxMachine

open Compile Symbolic

set_option synthInstance.maxSize 4096

/-! ## States -/

namespace Compiler

/-- The compiler stands at a point of a program, and its heap is in order. -/
structure Ongoing (c : Compiler) (σ : Setting) : Prop extends c.Stands σ where
  tidy : c.heap.Tidy

/-- The objects that the compiler keeps. -/
def live (c : Compiler) : List Handle := handles c.roots c.draft c.enclosing

/-- What the bytes of the innermost function refer to. -/
def linkage (c : Compiler) : Linkage where
  heap := c.heap
  constants := c.draft.chunk.constants.toList
  captured := origins (c.draft :: c.enclosing)
  level := c.enclosing.length

/-- Bytes have been written and variables have been captured between two states. -/
structure Adds (c : Compiler) (bytes : List UInt8) (places : List (Nat × Nat)) (c' : Compiler) :
    Prop where
  code : c'.draft.chunk.code.toList = c.draft.chunk.code.toList ++ bytes
  constants : c.draft.chunk.constants.toList <+: c'.draft.chunk.constants.toList
  name : c'.draft.name = c.draft.name
  captured : origins (c'.draft :: c'.enclosing) =
    gather (origins (c.draft :: c.enclosing)) (places.filter (·.1 < c.enclosing.length))
  held : ∀ slot, c'.draft.Holds slot ↔ c.draft.Holds slot ∨ (c.enclosing.length, slot) ∈ places
  enclosing : Absorbs places c.enclosing c'.enclosing
  roots : c'.roots = c.roots
  keeps : c.heap.Keeps c.live c'.heap

/-- Code has been written and variables have been captured between two states. -/
structure Wrote (c : Compiler) (code : Code) (places : List (Nat × Nat)) (c' : Compiler) : Prop where
  bytes : ∃ bytes, c.Adds bytes places c' ∧ Spells c'.linkage code bytes
  arity : c'.draft.arity = c.draft.arity

variable {c c₁ c₂ c' : Compiler} {x y : List UInt8} {a b : Code} {ps qs : List (Nat × Nat)}
  {σ : Setting}

theorem mem_live {h : Handle} :
    h ∈ c.live ↔ h ∈ c.roots.get ∨ ∃ d ∈ c.draft :: c.enclosing, h ∈ d.handles := by
  rw [live, handles, List.mem_append, List.mem_flatMap]
  simp only [List.mem_reverse]

theorem length_outer (h : c.Stands σ) : σ.outer.length = c.enclosing.length := by
  rw [← h.outer, List.length_map]

namespace Adds

theorem live_subset (h : c.Adds x ps c') : ∀ r ∈ c.live, r ∈ c'.live := by
  have houter : ∀ {ds ds' : List Draft}, Absorbs ps ds ds' →
      ∀ d ∈ ds, ∃ d' ∈ ds', d'.handles = d.handles := by
    intro ds ds' hds
    induction hds with
    | nil => exact nofun
    | cons _ same _ _ _ ih =>
      refine List.forall_mem_cons.2 ⟨⟨_, List.mem_cons_self, ?_⟩, fun d hd => ?_⟩
      · rw [same]
        rfl
      · exact (ih d hd).imp fun _ h => ⟨List.mem_cons_of_mem _ h.1, h.2⟩
  intro r hr
  rw [mem_live] at hr ⊢
  rw [h.roots]
  refine hr.imp_right ?_
  rintro ⟨d, hd, hr⟩
  rcases List.mem_cons.1 hd with rfl | hd
  · refine ⟨c'.draft, List.mem_cons_self, ?_⟩
    rw [Draft.handles, h.name]
    rcases List.mem_append.1 hr with hr | hr
    · exact List.mem_append_left _ hr
    · exact List.mem_append_right _ ((h.constants.filterMap Value.handle?).subset hr)
  · obtain ⟨d', hd', heq⟩ := houter h.enclosing d hd
    exact ⟨d', List.mem_cons_of_mem _ hd', heq ▸ hr⟩

theorem le (h : c.Adds x ps c') : c.linkage.Le c'.linkage where
  constants := h.constants
  captured := by
    change origins (c.draft :: c.enclosing) <+: origins (c'.draft :: c'.enclosing)
    rw [h.captured]
    exact prefix_gather _ _
  level := h.enclosing.length_eq
  heap := h.keeps.mono fun r hr => mem_live.2
    (.inr ⟨c.draft, List.mem_cons_self, List.mem_append_right _ hr⟩)

theorem trans (h : c.Adds x ps c₁) (h' : c₁.Adds y qs c₂) : c.Adds (x ++ y) (ps ++ qs) c₂ where
  code := by rw [h'.code, h.code, List.append_assoc]
  constants := h.constants.trans h'.constants
  name := h'.name.trans h.name
  captured := by
    rw [h'.captured, h.captured, h.enclosing.length_eq, List.filter_append, gather_append]
  held slot := by rw [h'.held, h.held, h.enclosing.length_eq, List.mem_append, or_assoc]
  enclosing := h.enclosing.trans h'.enclosing
  roots := h'.roots.trans h.roots
  keeps := h.keeps.trans (h'.keeps.mono h.live_subset)

/-- Only the innermost draft and the heap change, and nothing is captured. -/
theorem of_draft (hcode : c'.draft.chunk.code.toList = c.draft.chunk.code.toList ++ x)
    (hconstants : c.draft.chunk.constants.toList <+: c'.draft.chunk.constants.toList)
    (hname : c'.draft.name = c.draft.name) (hcaptures : c'.draft.captures = c.draft.captures)
    (hheld : ∀ slot, c'.draft.Holds slot ↔ c.draft.Holds slot) (henclosing : c'.enclosing = c.enclosing)
    (hroots : c'.roots = c.roots) (hkeeps : c.heap.Keeps c.live c'.heap) : c.Adds x [] c' where
  code := hcode
  constants := hconstants
  name := hname
  captured := by rw [henclosing, origins, origins, hcaptures]; rfl
  held slot := by simp [hheld]
  enclosing := henclosing ▸ .refl _
  roots := hroots
  keeps := hkeeps

theorem refl (c : Compiler) : c.Adds [] [] c :=
  of_draft (List.append_nil _).symm List.prefix_rfl rfl rfl (fun _ => Iff.rfl) rfl rfl (.refl _ _)

theorem size (h : c.Adds x ps c') : c'.draft.chunk.size = c.draft.chunk.size + x.length := by
  have hlength := congrArg List.length h.code
  rwa [List.length_append, Array.length_toList, Array.length_toList] at hlength

end Adds

namespace Wrote

theorem refl (c : Compiler) : c.Wrote [] [] c := ⟨⟨[], .refl c, .nil _⟩, rfl⟩

theorem trans (h : c.Wrote a ps c₁) (h' : c₁.Wrote b qs c₂) : c.Wrote (a ++ b) (ps ++ qs) c₂ := by
  obtain ⟨⟨x, hx, ha⟩, harity⟩ := h
  obtain ⟨⟨y, hy, hb⟩, harity'⟩ := h'
  exact ⟨⟨x ++ y, hx.trans hy, (ha.mono hy.le).append hb⟩, harity'.trans harity⟩

theorem le (h : c.Wrote a ps c') : c.linkage.Le c'.linkage := by
  obtain ⟨⟨_, hx, -⟩, -⟩ := h
  exact hx.le

theorem size (h : c.Wrote a ps c') : c'.draft.chunk.size = c.draft.chunk.size + extent a := by
  obtain ⟨⟨_, hx, ha⟩, -⟩ := h
  rw [hx.size, ha.length_eq]

end Wrote

end Compiler

namespace Compile

variable {α β : Type} {c : Compiler} {σ σ₁ σ₂ τ : Setting} {x : Compile α} {k : α → Compile β} {l : Nat}
  {a b : Code} {ps qs : List (Nat × Nat)} {Q : α → Compiler → Prop} {R : β → Compiler → Prop}

/-- What follows an action that ends without errors. -/
theorem Ends.next [hread : ∀ a, Reads (k a) l] (h : Ends x c Q) (hk : ∀ a c₁, Q a c₁ → Ends (k a) c₁ R) :
    Ends (x >>= k) c R :=
  fun herr => hk _ _ (h ((hread _).clean _ herr)) herr

/-- An action whose result is known. -/
theorem Ends.known {r : α} {c₁ : Compiler} (hx : x c = (r, c₁)) (h : Ends (k r) c₁ R) :
    Ends (x >>= k) c R := by
  unfold Ends at h ⊢
  rw [bind_of hx]
  exact h

/-! ## Writing code -/

/-- The action writes code, captures variables, and ends at a point of the program. -/
def Emits (x : Compile α) (c : Compiler) (code : Code) (places : List (Nat × Nat)) (σ : Setting)
    (Q : α → Compiler → Prop) : Prop :=
  Ends x c fun a c' => c'.Ongoing σ ∧ c.Wrote code places c' ∧ Q a c'

namespace Emits

theorem mono {Q' : α → Compiler → Prop} (h : Emits x c a ps σ Q) (hQ : ∀ a c', Q a c' → Q' a c') :
    Emits x c a ps σ Q' :=
  fun herr => (h herr).imp_right (.imp_right (hQ _ _))

/-- Another way to say what is written and captured. -/
theorem congr (h : Emits x c a ps σ Q) (ha : b = a) (hps : qs = ps) : Emits x c b qs σ Q :=
  ha ▸ hps ▸ h

/-- **What two actions write one after the other.** -/
theorem bind [∀ a, Reads (k a) l] (h : Emits x c a ps σ₁ Q)
    (hk : ∀ r c₁, c₁.Ongoing σ₁ → c.Wrote a ps c₁ → Q r c₁ → Emits (k r) c₁ b qs σ₂ R) :
    Emits (x >>= k) c (a ++ b) (ps ++ qs) σ₂ R :=
  h.next fun r c₁ ⟨hc₁, hw, hQ⟩ herr =>
    (hk r c₁ hc₁ hw hQ herr).imp_right (.imp_left hw.trans)

/-- An action whose result is known. -/
theorem known {r : α} (hx : x c = (r, c)) (h : Emits (k r) c a ps σ R) : Emits (x >>= k) c a ps σ R :=
  Ends.known hx h

theorem pure (hc : c.Ongoing σ) {r : α} (hQ : Q r c) : Emits (Pure.pure r : Compile α) c [] [] σ Q :=
  fun _ => ⟨hc, .refl c, hQ⟩

/-- An action that cannot end without errors. -/
theorem absurd (h : (x c).2.errors ≠ #[]) : Emits x c a ps σ Q := fun herr => (h herr).elim

/-- An action that writes and captures nothing. What it costs tells where it ends. -/
theorem quiet {P : Prop} {f : Footprint} (hc : c.Ongoing σ) (hcosts : Costs x c P f τ Q)
    (hdraft : (x c).2.draft = c.draft) (henclosing : (x c).2.enclosing = c.enclosing)
    (hroots : (x c).2.roots = c.roots) (hheap : (x c).2.heap = c.heap) : Emits x c [] [] τ Q := by
  intro herr
  obtain ⟨hstands, -, hQ⟩ := hcosts.ends herr
  refine ⟨⟨hstands, hheap ▸ hc.tidy⟩, ⟨⟨[], ?_, .nil _⟩, by rw [hdraft]⟩, hQ⟩
  refine .of_draft ?_ ?_ ?_ ?_ ?_ henclosing hroots (hheap ▸ .refl _ _) <;> rw [hdraft]
  · exact (List.append_nil _).symm
  · exact fun _ => Iff.rfl

end Emits

/-! ## Reading -/

theorem advance_emits (hc : c.Ongoing σ) : Emits advance c [] [] σ fun _ _ => True := by
  have hreport : ∀ (c : Compiler) (t : Token) (d : Diagnosis), (c.errorAt t d).draft = c.draft ∧
      (c.errorAt t d).enclosing = c.enclosing ∧ (c.errorAt t d).roots = c.roots ∧
      (c.errorAt t d).heap = c.heap := by
    intro c t d
    unfold Compiler.errorAt
    split <;> exact ⟨rfl, rfl, rfl, rfl⟩
  have hpull : ∀ (ts : List Token) (c : Compiler), (c.pull ts).draft = c.draft ∧
      (c.pull ts).enclosing = c.enclosing ∧ (c.pull ts).roots = c.roots ∧ (c.pull ts).heap = c.heap := by
    intro ts
    induction ts with
    | nil => exact fun _ => ⟨rfl, rfl, rfl, rfl⟩
    | cons t ts ih =>
      intro c
      unfold Compiler.pull
      split
      · obtain ⟨h, h', h'', h'''⟩ := hreport c t (.scan _)
        exact (ih _).imp (·.trans h) (.imp (·.trans h') (.imp (·.trans h'') (·.trans h''')))
      · exact ⟨rfl, rfl, rfl, rfl⟩
      · exact ⟨rfl, rfl, rfl, rfl⟩
  obtain ⟨hdraft, henclosing, hroots, hheap⟩ := hpull c.rest { c with previous := c.current }
  exact .quiet hc (advance_costs hc.toStands) hdraft henclosing hroots hheap

/-- An error is reported unless something is as it should be. -/
theorem errorIf_emits (hc : c.Ongoing σ) (p : Prop) [Decidable p] (d : Diagnosis) :
    Emits (errorIf p d) c [] [] σ fun _ _ => ¬p := by
  unfold errorIf
  split
  · exact .absurd (errorAt_ne (calm_of_stands hc.toStands) c.previous d)
  · exact .pure hc ‹_›

/-! ## Bytes -/

theorem emitByte_adds (hc : c.Ongoing σ) (byte : UInt8) :
    Ends (emitByte byte) c fun _ c' => c'.Ongoing σ ∧ c.Adds [byte] [] c' ∧
      c'.draft.arity = c.draft.arity ∧ c'.linkage = c.linkage :=
  fun herr => ⟨⟨((emitByte_costs hc.toStands byte).ends herr).1, hc.tidy⟩,
    .of_draft Array.toList_push List.prefix_rfl rfl rfl (fun _ => Iff.rfl) rfl rfl (.refl _ _), rfl, rfl⟩

/-- An instruction of one byte. -/
theorem emit_emits (hc : c.Ongoing σ) (op : Opcode) : Emits (emit op) c [.op op] [] σ fun _ _ => True :=
  fun herr => by
    obtain ⟨hc', hadds, harity, -⟩ := emitByte_adds hc op.toByte herr
    exact ⟨hc', ⟨⟨_, hadds, .single (.op op)⟩, harity⟩, trivial⟩

/-- An instruction of two bytes. -/
theorem emitWith_emits (hc : c.Ongoing σ) {op : Opcode} {byte : UInt8} {i : Symbolic.Instruction}
    (hi : Encodes c.linkage i [op.toByte, byte]) : Emits (emitWith op byte) c [i] [] σ fun _ _ => True := by
  refine (emitByte_adds hc op.toByte).next fun _ c₁ h₁ => ?_
  obtain ⟨hc₁, hadds₁, harity₁, hlinkage₁⟩ := h₁
  refine (emitByte_adds hc₁ byte).mono fun _ c₂ h₂ => ?_
  obtain ⟨hc₂, hadds₂, harity₂, hlinkage₂⟩ := h₂
  refine ⟨hc₂, ⟨⟨_, hadds₁.trans hadds₂, .single ?_⟩, harity₂.trans harity₁⟩, trivial⟩
  rw [hlinkage₂, hlinkage₁]
  exact hi

/-- An instruction of three bytes. -/
theorem emitWith_byte_emits (hc : c.Ongoing σ) {op : Opcode} {byte byte' : UInt8}
    {i : Symbolic.Instruction} (hi : Encodes c.linkage i [op.toByte, byte, byte']) :
    Emits (do emitWith op byte; emitByte byte') c [i] [] σ fun _ _ => True := by
  have hassoc : (do emitWith op byte; emitByte byte') =
      (do emitByte op.toByte; emitByte byte; emitByte byte' : Compile Unit) := by
    simp only [emitWith, emit, bind_assoc]
  rw [hassoc]
  refine (emitByte_adds hc op.toByte).next fun _ c₁ h₁ => ?_
  obtain ⟨hc₁, hadds₁, harity₁, hlinkage₁⟩ := h₁
  refine (emitByte_adds hc₁ byte).next fun _ c₂ h₂ => ?_
  obtain ⟨hc₂, hadds₂, harity₂, hlinkage₂⟩ := h₂
  refine (emitByte_adds hc₂ byte').mono fun _ c₃ h₃ => ?_
  obtain ⟨hc₃, hadds₃, harity₃, hlinkage₃⟩ := h₃
  refine ⟨hc₃, ⟨⟨_, hadds₁.trans (hadds₂.trans hadds₃), .single ?_⟩,
    harity₃.trans (harity₂.trans harity₁)⟩, trivial⟩
  rw [hlinkage₃, hlinkage₂, hlinkage₁]
  exact hi

theorem ops_emits (hc : c.Ongoing σ) (ops : List Opcode) :
    Emits (ops.forM emit) c (ops.map .op) [] σ fun _ _ => True := by
  induction ops generalizing c with
  | nil => exact .pure hc trivial
  | cons op ops ih => exact .congr (.bind (emit_emits hc op) fun _ _ hc₁ _ _ => ih hc₁) rfl rfl

/-! ## Constants -/

/-- The heap changes, and what the compiler keeps stays. -/
theorem heap_adds {heap : Heap} (hkeeps : c.heap.Keeps c.live heap) : c.Adds [] [] { c with heap } :=
  .of_draft (List.append_nil _).symm List.prefix_rfl rfl rfl (fun _ => Iff.rfl) rfl rfl hkeeps

theorem intern_emits (hc : c.Ongoing σ) (s : String) :
    Emits (intern s) c [] [] σ fun h c' => c'.heap.hasContents s h = true :=
  fun herr => ⟨⟨((intern_costs hc.toStands s).ends herr).1, Heap.tidy_intern hc.tidy _ s⟩,
    ⟨⟨[], heap_adds (Heap.keeps_intern hc.tidy (Compiler.handles c.roots c.draft c.enclosing) s), .nil _⟩,
      rfl⟩, Heap.hasContents_intern hc.tidy _ s⟩

theorem makeConstant_emits (hc : c.Ongoing σ) (v : Value) :
    Emits (makeConstant v) c [] [] σ fun i c' =>
      c'.linkage.constants[i.toNat]? = some v ∧ c'.heap = c.heap := by
  intro herr
  have hcosts := makeConstant_costs hc.toStands v
  have hlt : c.draft.chunk.constants.size < byteCount := (hcosts.errors_iff.1 herr).2.constants
  have hstands := (hcosts.ends herr).1
  have hrun : makeConstant v c = (UInt8.ofNat c.draft.chunk.constants.size,
      { c with draft := { c.draft with chunk := c.draft.chunk.addConstant v } }) := by
    change (if byteCount ≤ c.draft.chunk.constants.size then _ else _ : Compile UInt8) _ = _
    rw [if_neg (by omega)]
    rfl
  have hpush : (c.draft.chunk.addConstant v).constants.toList = c.draft.chunk.constants.toList ++ [v] :=
    Array.toList_push
  rw [hrun] at hstands ⊢
  refine ⟨⟨hstands, hc.tidy⟩, ⟨⟨[], ?_, .nil _⟩, rfl⟩, ?_, rfl⟩
  · refine .of_draft (List.append_nil _).symm ?_ rfl rfl (fun _ => Iff.rfl) rfl rfl (.refl _ _)
    exact hpush ▸ List.prefix_append _ _
  · change (c.draft.chunk.addConstant v).constants.toList[(UInt8.ofNat _).toNat]? = _
    rw [UInt8.toNat_ofNat_of_lt' hlt, hpush, ← Array.length_toList]
    exact List.getElem?_concat_length ..

theorem nameConstant_emits (hc : c.Ongoing σ) (name : String) :
    Emits (nameConstant name) c [] [] σ fun i c' => c'.linkage.Says i name := by
  unfold nameConstant
  refine .bind (intern_emits hc name) fun h c₁ hc₁ _ hh => ?_
  refine (makeConstant_emits hc₁ (.obj h)).mono fun i c₂ h₂ => ⟨h, h₂.1, ?_⟩
  change c₂.heap.hasContents name h = true
  rw [h₂.2]
  exact hh

theorem emitNumber_emits (hc : c.Ongoing σ) (n : Number) :
    Emits (emitConstant (.number n)) c [.number n] [] σ fun _ _ => True :=
  .bind (makeConstant_emits hc _) fun _ _ hc₁ _ h₁ => emitWith_emits hc₁ (.number h₁.1)

theorem emitString_emits (hc : c.Ongoing σ) (s : String) :
    Emits (do emitConstant (.obj (← intern s))) c [.string s] [] σ fun _ _ => True := by
  have hname : (do emitConstant (.obj (← intern s)) : Compile Unit) =
      (do emitWith .constant (← nameConstant s)) := by
    simp only [emitConstant, nameConstant, bind_assoc]
  rw [hname]
  exact .bind (nameConstant_emits hc s) fun _ _ hc₁ _ h₁ => emitWith_emits hc₁ (.string h₁)

/-! ## Variables -/

/-- The answer refers to a variable. -/
structure Access.Names (a : Access) (L : Linkage) (v : Variable) : Prop where
  getter : a.getter = v.getter
  setter : a.setter = v.setter
  operand : L.Refers v a.operand

theorem Access.Names.mono {r : Access} {L L' : Linkage} {v : Variable} (h : r.Names L v) (hle : L.Le L') :
    r.Names L' v :=
  ⟨h.getter, h.setter, h.operand.mono hle⟩

/-- **The answer refers to the variable of the name.** -/
theorem access_emits (hc : c.Ongoing σ) (name : String) :
    Emits (access name) c [] (σ.access name).captured σ fun a c' => a.Names c'.linkage (σ.variable name) := by
  intro herr
  have hcosts := access_costs hc.toStands name
  have hstands := (hcosts.ends herr).1
  have husable := (hcosts.errors_iff.1 herr).1
  have hlookup := lookup_functions hc.toStands name
  have hlength := Compiler.length_outer hc.toStands
  unfold Setting.variable Setting.access
  cases hfind : Draft.findLocal name c.draft.locals with
  | some found =>
    obtain ⟨slot, v⟩ := found
    rw [hfind] at hlookup
    have hfaults : v.useFaults = [] := (useFaults_eq_nil_iff v).2 ((usable_iff hlookup).1 husable)
    have hrun : access name c = (⟨.getLocal, .setLocal, UInt8.ofNat slot⟩, c) := by
      unfold access
      rw [bind_of (rfl : (get : Compile Compiler) c = (c, c)), hfind]
      simp only [hfaults]
      rfl
    have hslot : slot < byteCount :=
      (Draft.lt_length_of_findLocal hfind).trans_le (hc.bounded _ List.mem_cons_self).locals
    rw [hrun, hlookup]
    simp only [Nat.lt_irrefl, if_false]
    exact ⟨hc, .refl c, rfl, rfl, UInt8.toNat_ofNat_of_lt' hslot⟩
  | none =>
    rw [hfind] at hlookup
    cases houter : lookup name σ.outer with
    | some found =>
      obtain ⟨place, v⟩ := found
      rw [houter] at hlookup
      rw [← hc.outer] at houter
      obtain ⟨r, hresolve, hfaults, hcaptures⟩ := resolve_some hc.threaded hc.bounded houter
      have hplace : place.1 < σ.outer.length := lookup_lt (hc.outer ▸ houter)
      have hrun : access name c = (⟨.getUpvalue, .setUpvalue, r.index⟩, ((r.faults.forM error)
          { c with draft := r.draft, enclosing := r.enclosing }).2) := by
        unfold access
        rw [bind_of (rfl : (get : Compile Compiler) c = (c, c)), hfind]
        simp only [hresolve]
        rfl
      rw [hrun] at herr hstands ⊢
      have hcalm : c.Calm := calm_of_stands hc.toStands
      have hnone : r.faults = [] := (faults_errors_iff
        (c := { c with draft := r.draft, enclosing := r.enclosing }) hc.errors hcalm r.faults).1 herr
      have hr := hcaptures hnone
      rw [hnone] at hstands ⊢
      rw [hlookup]
      simp only [if_pos hplace]
      refine ⟨⟨hstands, hc.tidy⟩, ⟨⟨[], ?_, .nil _⟩, ?_⟩, rfl, rfl, hr.index⟩
      · cases hr.absorbs with
        | cons scope same gathered held more =>
          have hkept : ∀ {γ : Type} (f : Draft → γ), (∀ d locals captures upvalueCount,
              f { d with locals, captures, upvalueCount } = f d) → f r.draft = f c.draft :=
            fun f hf => (congrArg f same).trans (hf _ _ _ _)
          refine ⟨?_, ?_, hkept Draft.name fun _ _ _ _ => rfl, gathered, held, more, rfl, .refl _ _⟩
          · rw [List.append_nil]
            exact hkept (fun d => d.chunk.code.toList) fun _ _ _ _ => rfl
          · rw [← hkept (fun d => d.chunk.constants.toList) fun _ _ _ _ => rfl]
            exact List.prefix_rfl
      · cases hr.absorbs with
        | cons scope same gathered held more =>
          change r.draft.arity = _
          rw [same]
    | none =>
      rw [houter] at hlookup
      have hresolve : Draft.resolve name c.draft c.enclosing = none := by
        rw [← hc.outer] at houter
        exact resolve_none houter
      have hrun : access name c = (do
          return ⟨.getGlobal, .setGlobal, ← nameConstant name⟩ : Compile Access) c := by
        unfold access
        rw [bind_of (rfl : (get : Compile Compiler) c = (c, c)), hfind]
        simp only [hresolve]
      rw [hrun] at herr ⊢
      rw [hlookup]
      obtain ⟨hc₁, hw, hsays⟩ := nameConstant_emits hc name herr
      exact ⟨hc₁, hw, rfl, rfl, hsays⟩

theorem get_emits (hc : c.Ongoing σ) {r : Access} {v : Variable} (h : r.Names c.linkage v) :
    Emits (emitWith r.getter r.operand) c [.get v] [] σ fun _ _ => True :=
  emitWith_emits hc (h.getter ▸ .get h.operand)

theorem set_emits (hc : c.Ongoing σ) {r : Access} {v : Variable} (h : r.Names c.linkage v) :
    Emits (emitWith r.setter r.operand) c [.set v] [] σ fun _ _ => True :=
  emitWith_emits hc (h.setter ▸ .set h.operand)

theorem readVariable_emits (hc : c.Ongoing σ) (name : String) :
    Emits (readVariable name) c [.get (σ.variable name)] (σ.access name).captured σ fun _ _ => True :=
  .congr (.bind (access_emits hc name) fun _ _ hc₁ _ h₁ => get_emits hc₁ h₁) rfl (List.append_nil _).symm

/-! ## Jumps -/

/-- A jump is written whose distance is not known yet. -/
theorem emitJump_adds (hc : c.Ongoing σ) (op : Opcode) :
    Ends (emitJump op) c fun offset c' => offset = c.draft.chunk.size + 1 ∧ c'.Ongoing σ ∧
      c.Adds [op.toByte, 0xff, 0xff] [] c' ∧ c'.draft.arity = c.draft.arity := by
  unfold emitJump
  refine (emitByte_adds hc op.toByte).next fun _ c₁ h₁ => ?_
  obtain ⟨hc₁, hadds₁, harity₁, -⟩ := h₁
  refine (emitByte_adds hc₁ 0xff).next fun _ c₂ h₂ => ?_
  obtain ⟨hc₂, hadds₂, harity₂, -⟩ := h₂
  refine (emitByte_adds hc₂ 0xff).next fun _ c₃ h₃ => ?_
  obtain ⟨hc₃, hadds₃, harity₃, -⟩ := h₃
  have hadds := hadds₁.trans (hadds₂.trans hadds₃)
  refine fun _ => ⟨?_, hc₃, hadds, harity₃.trans (harity₂.trans harity₁)⟩
  change c₃.draft.chunk.size - 2 = _
  rw [hadds.size]
  rfl

/-- The distance of a jump is written. -/
theorem patchJump_adds {c₂ : Compiler} {op : Opcode} {high low : UInt8} {before x : List UInt8}
    {offset : Nat} (hc₂ : c₂.Ongoing σ)
    (h : c.Adds (before ++ ([op.toByte, high, low] ++ x)) ps c₂)
    (hoffset : offset = c.draft.chunk.size + before.length + 1) :
    Ends (patchJump offset) c₂ fun _ c' => x.length ≤ maxJump ∧ c'.Ongoing σ ∧
      c.Adds (before ++ (jumpBytes op x.length ++ x)) ps c' ∧ c'.draft.arity = c₂.draft.arity ∧
      c'.linkage = c₂.linkage := by
  intro herr
  have hsize : c₂.draft.chunk.size = offset + 2 + x.length := by
    rw [h.size, hoffset]
    simp only [List.length_append, List.length_cons, List.length_nil]
    omega
  have hcosts := patchJump_costs hc₂.toStands x.length hsize
  obtain ⟨hnear, -⟩ := hcosts.errors_iff.1 herr
  have hstands := (hcosts.ends herr).1
  have hdistance : c₂.draft.chunk.size - offset - 2 = x.length := by omega
  have hrun : patchJump offset c₂ = ((), { c₂ with draft := { c₂.draft with
      chunk := c₂.draft.chunk.patch offset x.length } }) := by
    rw [patchJump_eq, bind_of (rfl : codeSize c₂ = (c₂.draft.chunk.size, c₂)), hdistance]
    unfold errorIf
    rw [if_neg (Nat.not_lt.2 hnear), Nat.min_eq_left hnear]
    rfl
  rw [hrun] at hstands ⊢
  refine ⟨hnear, ⟨hstands, hc₂.tidy⟩, ⟨?_, h.constants, h.name, h.captured, h.held, h.enclosing, h.roots,
    h.keeps⟩, rfl, rfl⟩
  change (put (put c₂.draft.chunk.code _ _) _ _).toList = _
  have hlength : offset = (c.draft.chunk.code.toList ++ before).length + 1 := by
    rw [hoffset, List.length_append, Array.length_toList]
    rfl
  have hindex : ∀ n : Nat, n + 1 + 1 - n = 2 := fun n => by omega
  simp only [put, Array.toList_setIfInBounds, h.code, hlength]
  rw [← List.append_assoc, List.set_append_right _ _ (by omega), List.set_append_right _ _ (by omega),
    Nat.add_sub_cancel_left, hindex]
  simp [jumpBytes]

/-- A jump over what an action writes. -/
theorem across_emits [Reads x l] {S : α → Prop} (op : Opcode) (hc : c.Ongoing σ)
    (hx : ∀ c₁ : Compiler, c₁.Ongoing σ → c₁.draft.chunk.size = c.draft.chunk.size + 3 →
      Emits x c₁ a ps τ fun r _ => S r) :
    Emits (do
      let offset ← emitJump op
      let r ← x
      patchJump offset
      return r) c (across op a) ps τ fun r _ => S r := by
  refine (emitJump_adds hc op).next fun offset c₁ h₁ => ?_
  obtain ⟨rfl, hc₁, hadds₁, harity₁⟩ := h₁
  refine (hx c₁ hc₁ hadds₁.size).next fun r c₂ h₂ => ?_
  obtain ⟨hc₂, ⟨⟨bytes, hadds₂, hspells⟩, harity₂⟩, hS⟩ := h₂
  have hadds : c.Adds ([] ++ ([op.toByte, 0xff, 0xff] ++ bytes)) ps c₂ := hadds₁.trans hadds₂
  refine (patchJump_adds hc₂ hadds rfl).next fun _ c₃ h₃ => fun _ => ?_
  obtain ⟨hnear, hc₃, hadds₃, harity₃, hlinkage⟩ := h₃
  rw [hspells.length_eq] at hnear hadds₃
  rw [List.nil_append] at hadds₃
  refine ⟨hc₃, ⟨⟨_, hadds₃, .plain (.jump op hnear) (hlinkage ▸ hspells)⟩, ?_⟩, hS⟩
  exact harity₃.trans (harity₂.trans harity₁)

/-- Two actions of which one is jumped over. -/
theorem branch_emits {x y : Compile Unit} {l' : Nat} [Reads x l] [Reads y l'] (hc : c.Ongoing σ)
    (hx : ∀ c₁ : Compiler, c₁.Ongoing σ → Emits x c₁ a ps σ₁ fun _ _ => True)
    (hy : ∀ c₁ : Compiler, c₁.Ongoing σ₁ → Emits y c₁ b qs τ fun _ _ => True) :
    Emits (do
      let onFalse ← emitJump .jumpIfFalse
      x
      let atEnd ← emitJump .jump
      patchJump onFalse
      y
      patchJump atEnd) c (branch a b) (ps ++ qs) τ fun _ _ => True := by
  refine (emitJump_adds hc .jumpIfFalse).next fun onFalse c₁ h₁ => ?_
  obtain ⟨rfl, hc₁, hadds₁, harity₁⟩ := h₁
  refine (hx c₁ hc₁).next fun _ c₂ h₂ => ?_
  obtain ⟨hc₂, ⟨⟨first, hadds₂, hfirst⟩, harity₂⟩, -⟩ := h₂
  refine (emitJump_adds hc₂ .jump).next fun atEnd c₃ h₃ => ?_
  obtain ⟨rfl, hc₃, hadds₃, harity₃⟩ := h₃
  have hadds₀ : c.Adds ([] ++ ([Opcode.jumpIfFalse.toByte, 0xff, 0xff] ++
      (first ++ [Opcode.jump.toByte, 0xff, 0xff]))) ps c₃ := by
    have hall := hadds₁.trans (hadds₂.trans hadds₃)
    rwa [List.nil_append, List.append_nil] at hall
  refine (patchJump_adds hc₃ hadds₀ rfl).next fun _ c₄ h₄ => ?_
  obtain ⟨hnear, hc₄, hadds₄, harity₄, hlinkage₄⟩ := h₄
  refine (hy c₄ hc₄).next fun _ c₅ h₅ => ?_
  obtain ⟨hc₅, ⟨⟨second, hadds₅, hsecond⟩, harity₅⟩, -⟩ := h₅
  have hsize : (first ++ [Opcode.jump.toByte, 0xff, 0xff]).length = extent a + 3 := by
    rw [List.length_append, hfirst.length_eq]
    rfl
  rw [hsize] at hnear hadds₄
  -- the second jump goes over the second part
  have hadds : c.Adds (jumpBytes .jumpIfFalse (extent a + 3) ++ first ++
      ([Opcode.jump.toByte, 0xff, 0xff] ++ second)) (ps ++ qs) c₅ := by
    have hall := hadds₄.trans hadds₅
    simpa only [List.append_assoc, List.nil_append] using hall
  refine (patchJump_adds hc₅ hadds ?_).mono fun _ c₆ h₆ => ?_
  · rw [(hadds₁.trans hadds₂).size, List.length_append, List.length_append]
    rfl
  obtain ⟨hnear', hc₆, hadds₆, harity₆, hlinkage₆⟩ := h₆
  rw [hsecond.length_eq] at hnear' hadds₆
  rw [List.append_assoc] at hadds₆
  have hle : c₂.linkage.Le c₆.linkage := by
    rw [hlinkage₆]
    exact hadds₃.le.trans (hlinkage₄ ▸ hadds₅.le)
  refine ⟨hc₆, ⟨⟨_, hadds₆, .plain (.jump _ hnear) ((hfirst.mono hle).append
    (.plain (.jump _ hnear') (hlinkage₆ ▸ hsecond)))⟩, ?_⟩, trivial⟩
  rw [harity₆, harity₅, harity₄, harity₃, harity₂, harity₁]

/-- A jump back over `head` bytes. -/
theorem emitLoop_emits (hc : c.Ongoing σ) {start : Nat} (head : Nat)
    (hstart : c.draft.chunk.size = start + head) :
    Emits (emitLoop start) c [.jump .loop (head + 3)] [] σ fun _ _ => True := by
  intro herr
  have hcosts : Costs (emitLoop start) c (Near (head + 3)) (.bytes 3) σ fun _ _ => True :=
    emitLoop_costs hc.toStands (head + 3) (by omega) (by omega)
  obtain ⟨hnear, -⟩ := hcosts.errors_iff.1 herr
  have hbytes : Ends (do
      emitByte Opcode.loop.toByte
      emitByte (UInt8.ofNat ((head + 3) / 256))
      emitByte (UInt8.ofNat (head + 3))) c fun _ c' => c'.Ongoing σ ∧
        c.Adds (jumpBytes .loop (head + 3)) [] c' ∧ c'.draft.arity = c.draft.arity := by
    refine (emitByte_adds hc _).next fun _ c₁ h₁ => ?_
    obtain ⟨hc₁, hadds₁, harity₁, -⟩ := h₁
    refine (emitByte_adds hc₁ _).next fun _ c₂ h₂ => ?_
    obtain ⟨hc₂, hadds₂, harity₂, -⟩ := h₂
    refine (emitByte_adds hc₂ _).mono fun _ c₃ h₃ => ?_
    obtain ⟨hc₃, hadds₃, harity₃, -⟩ := h₃
    exact ⟨hc₃, hadds₁.trans (hadds₂.trans hadds₃), harity₃.trans (harity₂.trans harity₁)⟩
  have hrun : emitLoop start c = (do
      emitByte Opcode.loop.toByte
      emitByte (UInt8.ofNat ((head + 3) / 256))
      emitByte (UInt8.ofNat (head + 3)) : Compile Unit) c := by
    have hsize : (emit .loop c).2.draft.chunk.size - start + 2 = head + 3 := by
      change (c.draft.chunk.write _ _).size - start + 2 = _
      rw [Chunk.size_write]
      omega
    rw [emitLoop_eq]
    change (do
      let size ← codeSize
      errorIf (maxJump < size - start + 2) .loopTooLarge
      emitByte (UInt8.ofNat (min (size - start + 2) maxJump / 256))
      emitByte (UInt8.ofNat (min (size - start + 2) maxJump)) : Compile Unit) (emit .loop c).2 = _
    rw [bind_of (rfl : codeSize (emit .loop c).2 = _), hsize]
    unfold errorIf
    rw [if_neg (Nat.not_lt.2 hnear), Nat.min_eq_left hnear]
    rfl
  rw [hrun] at herr ⊢
  obtain ⟨hc₁, hadds, harity⟩ := hbytes herr
  exact ⟨hc₁, ⟨⟨_, hadds, .single (.jump .loop hnear)⟩, harity⟩, trivial⟩

end Compile

end LoxMachine

import LoxMachine.Proofs.Symbolic.Statements

/-!
# The code of functions

* `runParameters_adds`: parameters write nothing.
* `emitClosure_emits`: the instruction that makes a closure, with the variables that the function captures.
* `function_emits`: a function is compiled to code of its own, and the closure is made around it.
-/

namespace LoxMachine

open Compile Symbolic

set_option synthInstance.maxSize 4096

variable {c c' : Compiler} {σ τ : Setting} {a : Code} {ps : List (Nat × Nat)}

theorem Compiler.Wrote.adds (h : c.Wrote [] ps c') : c.Adds [] ps c' := by
  obtain ⟨⟨bytes, hadds, hspells⟩, -⟩ := h
  cases hspells
  exact hadds

namespace Compile

/-! ## Parameters -/

theorem countParameter_adds (hc : c.Ongoing σ) :
    Ends countParameter c fun _ c' => c'.Ongoing σ ∧ c.Adds [] [] c' ∧
      c'.draft.arity = c.draft.arity + 1 := by
  intro herr
  have hcosts := countParameter_costs hc.toStands
  have hfew := (hcosts.errors_iff.1 herr).1
  have hstands := (hcosts.ends herr).1
  have hrun : countParameter c =
      ((), { c with draft := { c.draft with arity := c.draft.arity + 1 } }) := by
    change (if maxArity < c.draft.arity + 1 then errorAtCurrent .tooManyParameters else pure () :
      Compile Unit) _ = _
    rw [if_neg (by omega)]
    rfl
  rw [hrun] at hstands ⊢
  exact ⟨⟨hstands, hc.tidy⟩, .of_draft (List.append_nil _).symm List.prefix_rfl rfl rfl (fun _ => Iff.rfl)
    rfl rfl (.refl _ _), rfl⟩

theorem runParameter_adds (hdepth : σ.here.depth ≠ 0) (hc : c.Ongoing σ) (name : String) :
    Ends (runParameter name) c fun _ c' => c'.Ongoing (σ.define name) ∧ c.Adds [] [] c' ∧
      c'.draft.arity = c.draft.arity + 1 := by
  have hdefining : σ.defining name = [] := if_neg hdepth
  refine (countParameter_adds hc).next fun _ c₁ h₁ => ?_
  obtain ⟨hc₁, hadds₁, harity₁⟩ := h₁
  have hname : Emits (do defineVariable (← runName name)) c₁ ([] ++ σ.defining name) ([] ++ [])
      (σ.define name) fun _ _ => True :=
    .bind (runName_emits hc₁ name) fun _ _ hc₂ _ hglobal => defineVariable_emits none hc₂ hglobal
  refine Ends.mono hname fun _ c₂ h₂ => ?_
  obtain ⟨hc₂, hw₂, -⟩ := h₂
  rw [hdefining] at hw₂
  exact ⟨hc₂, hadds₁.trans hw₂.adds, hw₂.arity.trans harity₁⟩

theorem moreParameters_adds (hdepth : σ.here.depth ≠ 0) (hc : c.Ongoing σ) (more : List String) :
    Ends (more.forM fun q => do advance; runParameter q) c fun _ c' =>
      c'.Ongoing (more.foldl Setting.define σ) ∧ c.Adds [] [] c' ∧
        c'.draft.arity = c.draft.arity + more.length := by
  induction more generalizing c σ with
  | nil => exact fun _ => ⟨hc, .refl c, rfl⟩
  | cons q more ih =>
    have := reads_moreParameters more
    have hfirst : Ends (do advance; runParameter q) c fun _ c' => c'.Ongoing (σ.define q) ∧
        c.Adds [] [] c' ∧ c'.draft.arity = c.draft.arity + 1 := by
      refine Ends.next (advance_emits hc) fun _ c₁ h₁ => ?_
      obtain ⟨hc₁, hw₁, -⟩ := h₁
      refine (runParameter_adds hdepth hc₁ q).mono fun _ c₂ h₂ => ?_
      exact ⟨h₂.1, hw₁.adds.trans h₂.2.1, h₂.2.2.trans (congrArg (· + 1) hw₁.arity)⟩
    refine Ends.next hfirst fun _ c₁ h₁ => ?_
    obtain ⟨hc₁, hadds₁, harity₁⟩ := h₁
    refine (ih (by rwa [Setting.depth_define]) hc₁).mono fun _ c₂ h₂ => ?_
    obtain ⟨hc₂, hadds₂, harity₂⟩ := h₂
    refine ⟨hc₂, hadds₁.trans hadds₂, ?_⟩
    rw [harity₂, harity₁, List.length_cons]
    omega

/-- **Parameters write nothing.** They are counted. -/
theorem runParameters_adds (hdepth : σ.here.depth ≠ 0) (hc : c.Ongoing σ) (parameters : List String) :
    Ends (runParameters parameters) c fun _ c' => c'.Ongoing (parameters.foldl Setting.define σ) ∧
      c.Adds [] [] c' ∧ c'.draft.arity = c.draft.arity + parameters.length := by
  cases parameters with
  | nil => exact fun _ => ⟨hc, .refl c, rfl⟩
  | cons p more =>
    have := reads_moreParameters more
    refine Ends.next (runParameter_adds hdepth hc p) fun _ c₁ h₁ => ?_
    obtain ⟨hc₁, hadds₁, harity₁⟩ := h₁
    refine (moreParameters_adds (by rwa [Setting.depth_define]) hc₁ more).mono fun _ c₂ h₂ => ?_
    obtain ⟨hc₂, hadds₂, harity₂⟩ := h₂
    refine ⟨hc₂, hadds₁.trans hadds₂, ?_⟩
    rw [harity₂, harity₁, List.length_cons]
    omega

/-! ## Closures -/

/-- The two bytes for a captured variable. -/
def capturePair (v : Capture) : UInt8 × UInt8 := (if v.isLocal then 1 else 0, v.index)

/-- The two bytes lead to the variable. -/
theorem hands_capture {v : Capture} (hv : v.Valid (c.draft :: c.enclosing)) :
    c.linkage.Hands (v.origin c.enclosing.length (origins (c.draft :: c.enclosing))) (capturePair v) := by
  have hv : v.index.toNat < if v.isLocal then c.draft.locals.length else c.draft.captures.size := hv
  unfold Capture.origin capturePair Linkage.Hands
  by_cases hlocal : v.isLocal = true
  · simp only [if_pos hlocal]
    exact .inl ⟨trivial, rfl⟩
  · simp only [if_neg hlocal] at hv ⊢
    rw [← length_origins c.draft c.enclosing] at hv
    refine .inr ⟨trivial, ?_⟩
    change (origins (c.draft :: c.enclosing))[v.index.toNat]? = _
    rw [List.getElem?_eq_getElem hv, Option.getD_some]

theorem emitCaptures_adds (hc : c.Ongoing σ) (captures : List Capture) :
    Ends (captures.forM fun v => do
      emitByte (if v.isLocal then 1 else 0)
      emitByte v.index) c fun _ c' => c'.Ongoing σ ∧
        c.Adds ((captures.map capturePair).flatMap fun p => [p.1, p.2]) [] c' ∧
        c'.draft.arity = c.draft.arity ∧ c'.linkage = c.linkage := by
  induction captures generalizing c with
  | nil => exact fun _ => ⟨hc, .refl c, rfl, rfl⟩
  | cons v captures ih =>
    have hpair : Ends (do
        emitByte (if v.isLocal then 1 else 0)
        emitByte v.index) c fun _ c' => c'.Ongoing σ ∧
          c.Adds [(capturePair v).1, (capturePair v).2] [] c' ∧
          c'.draft.arity = c.draft.arity ∧ c'.linkage = c.linkage := by
      refine (emitByte_adds hc _).next fun _ c₁ h₁ => ?_
      obtain ⟨hc₁, hadds₁, harity₁, hlinkage₁⟩ := h₁
      refine (emitByte_adds hc₁ _).mono fun _ c₂ h₂ => ?_
      obtain ⟨hc₂, hadds₂, harity₂, hlinkage₂⟩ := h₂
      exact ⟨hc₂, hadds₁.trans hadds₂, harity₂.trans harity₁, hlinkage₂.trans hlinkage₁⟩
    rw [List.forM_eq_forM, List.forM_cons, ← List.forM_eq_forM]
    refine hpair.next fun _ c₁ h₁ => ?_
    obtain ⟨hc₁, hadds₁, harity₁, hlinkage₁⟩ := h₁
    refine (ih hc₁).mono fun _ c₂ h₂ => ?_
    obtain ⟨hc₂, hadds₂, harity₂, hlinkage₂⟩ := h₂
    exact ⟨hc₂, hadds₁.trans hadds₂, harity₂.trans harity₁, hlinkage₂.trans hlinkage₁⟩

/-- A new object. What it refers to is kept for it. -/
theorem alloc_adds (hc : c.Ongoing σ) (o : Object) :
    Ends (alloc o) c fun h c' => c'.Ongoing σ ∧ c.Adds [] [] c' ∧ c'.draft.arity = c.draft.arity ∧
      c'.heap.cell? h = some ⟨o, o.storage⟩ ∧ c.heap.Keeps o.references c'.heap := by
  intro herr
  have halloc := Heap.alloc_allocates hc.tidy (Compiler.handles c.roots c.draft c.enclosing) o
  exact ⟨⟨((alloc_costs hc.toStands o).ends herr).1, halloc.tidy⟩,
    heap_adds (halloc.keeps.mono fun _ hr => List.mem_append_right _ hr), rfl, halloc.new,
    halloc.keeps.mono fun _ hr => List.mem_append_left _ hr⟩

/-- **The instruction that makes a closure.** -/
theorem emitClosure_emits (hc : c.Ongoing σ) {d : Draft} (kind : FunctionKind) {name : String} {x : Handle}
    (hname : d.name = some x ∧ c.heap.hasContents name x = true)
    (hvalid : ∀ v ∈ d.captures, v.Valid (c.draft :: c.enclosing)) (hcount : d.upvalueCount = d.captures.size)
    (hinner : Spells ⟨c.heap, d.chunk.constants.toList, origins (d :: c.draft :: c.enclosing),
      c.enclosing.length + 1⟩ a d.chunk.code.toList) :
    Emits (emitClosure d) c
      [.closure kind name d.arity (origins (d :: c.draft :: c.enclosing)) a] [] σ fun _ _ => True := by
  have hcaptures : ∀ g : Capture → Compile Unit, Array.forM g d.captures = d.captures.toList.forM g :=
    fun g => List.forM_toArray' d.captures.toList g rfl
  unfold emitClosure
  simp only [hcaptures, emitWith, emit, bind_assoc]
  refine (alloc_adds hc _).next fun h c₁ h₁ => ?_
  obtain ⟨hc₁, hadds₁, harity₁, hcell, hkeeps⟩ := h₁
  refine Ends.next (makeConstant_emits hc₁ (.obj h)) fun i c₂ h₂ => ?_
  obtain ⟨hc₂, hw₂, hconstant, hheap⟩ := h₂
  refine (emitByte_adds hc₂ _).next fun _ c₃ h₃ => ?_
  obtain ⟨hc₃, hadds₃, harity₃, hlinkage₃⟩ := h₃
  refine (emitByte_adds hc₃ _).next fun _ c₄ h₄ => ?_
  obtain ⟨hc₄, hadds₄, harity₄, hlinkage₄⟩ := h₄
  refine (emitCaptures_adds hc₄ _).mono fun _ c₅ h₅ => ?_
  obtain ⟨hc₅, hadds₅, harity₅, hlinkage₅⟩ := h₅
  have hadds := hadds₁.trans (hw₂.adds.trans (hadds₃.trans (hadds₄.trans hadds₅)))
  have hlinkage : c₅.linkage = c₂.linkage := hlinkage₅.trans (hlinkage₄.trans hlinkage₃)
  have hheap : c₅.heap = c₁.heap := (congrArg Linkage.heap hlinkage).trans hheap
  refine ⟨hc₅, ⟨⟨_, hadds, ?_⟩, ?_⟩, trivial⟩
  · have hself : c.heap.hasContents name x = c₅.heap.hasContents name x := by
      rw [hheap]
      refine (Heap.hasContents_congr (hkeeps x (.root ?_ ?_))).symm
      · exact List.mem_append_left _ (by simp [Draft.function, hname.1])
      · exact Linkage.contains_of_hasContents hname.2
    have hobject : c₅.linkage.heap.cell? h = some ⟨.function d.function, _⟩ :=
      (congrArg (Heap.cell? · h) hheap).trans hcell
    have hle : Linkage.Le ⟨c.heap, d.chunk.constants.toList, origins (d :: c.draft :: c.enclosing),
        c.enclosing.length + 1⟩ ⟨c₅.heap, d.chunk.constants.toList, origins (d :: c.draft :: c.enclosing),
        c₅.enclosing.length + 1⟩ := by
      refine ⟨List.prefix_rfl, List.prefix_rfl, congrArg (· + 1) hadds.enclosing.length_eq, ?_⟩
      rw [hheap]
      exact hkeeps.mono fun r hr => List.mem_append_right _ hr
    have hands : List.Forall₂ c₅.linkage.Hands (origins (d :: c.draft :: c.enclosing))
        (d.captures.toList.map capturePair) := by
      rw [origins, List.forall₂_map_left_iff, List.forall₂_map_right_iff, List.forall₂_same]
      intro v hv
      exact (hands_capture (hvalid v (Array.mem_toList_iff.1 hv))).mono hadds.le
    have hspells : Spells c₅.linkage [.closure kind name d.arity (origins (d :: c.draft :: c.enclosing)) a]
        (Opcode.closure.toByte :: i :: ((d.captures.toList.map capturePair).flatMap fun p => [p.1, p.2]) ++
          []) :=
      .closure (hlinkage ▸ hconstant) hobject ⟨hname.1, hself ▸ hname.2⟩ rfl
        (hcount.trans (length_origins ..).symm) (hinner.mono hle) hands (.nil _)
    rwa [List.append_nil] at hspells
  · rw [harity₅, harity₄, harity₃, hw₂.arity, harity₁]

/-! ## Functions -/

theorem open_ongoing (hc : c.Ongoing τ) (kind : FunctionKind) (name : String) : ∃ c₁ : Compiler,
    (do beginNamed kind name; beginScope : Compile Unit) c = ((), c₁) ∧ c₁.Ongoing (τ.begin kind) ∧
      Opened c c₁ ∧ (∃ x, c₁.draft.name = some x ∧ c₁.heap.hasContents name x = true) ∧
      c₁.roots = c.roots ∧ c.heap.Keeps c.live c₁.heap := by
  obtain ⟨c₁, hrun, hstands, hopened⟩ := open_eq hc.toStands kind name
  obtain rfl := (Prod.ext_iff.1 hrun).2
  exact ⟨_, hrun, ⟨hstands, Heap.tidy_intern hc.tidy _ name⟩, hopened,
    ⟨_, rfl, Heap.hasContents_intern hc.tidy _ name⟩, rfl,
    Heap.keeps_intern hc.tidy (Compiler.handles c.roots c.draft c.enclosing) name⟩

/-- The function around has captured what the function needs of the functions around. -/
theorem left_adds {c₁ c₂ : Compiler} {e : Draft} {enclosing : List Draft} {heap : Heap} {bytes : List UInt8}
    (hc : c.Ongoing τ) (h₁ : Opened c c₁) (hroots : c₁.roots = c.roots)
    (hkeeps : c.heap.Keeps c.live c₁.heap) (hadds : c₁.Adds bytes ps c₂)
    (habsorbs : Absorbs ps (c.draft :: c.enclosing) (e :: enclosing))
    (hcells : ∀ x, heap.cell? x = c₂.heap.cell? x) :
    c.Adds [] (ps.filter (·.1 < τ.outer.length + 1)) { c₂ with draft := e, enclosing, heap } ∧
      e.arity = c.draft.arity := by
  have hlength := Compiler.length_outer hc.toStands
  have hfilter : (ps.filter (·.1 < τ.outer.length + 1)).filter (·.1 < c.enclosing.length) =
      ps.filter (·.1 < c.enclosing.length) := by
    rw [List.filter_filter]
    refine List.filter_congr fun p _ => ?_
    simp only [← Bool.decide_and, decide_eq_decide]
    omega
  have hlive : ∀ r ∈ c.live, r ∈ c₁.live := by
    intro r hr
    rw [Compiler.mem_live] at hr ⊢
    rw [hroots, h₁.enclosing]
    exact hr.imp_right fun ⟨d, hd, hr⟩ => ⟨d, List.mem_cons_of_mem _ hd, hr⟩
  cases habsorbs with
  | cons scope same gathered held more =>
    have hkept : ∀ {γ : Type} (f : Draft → γ), (∀ d locals captures upvalueCount,
        f { d with locals, captures, upvalueCount } = f d) → f e = f c.draft :=
      fun f hf => (congrArg f same).trans (hf _ _ _ _)
    refine ⟨⟨?_, ?_, hkept Draft.name fun _ _ _ _ => rfl, ?_, fun slot => ?_, more.congr le_rfl hfilter.symm,
      hadds.roots.trans hroots, ?_⟩, hkept Draft.arity fun _ _ _ _ => rfl⟩
    · rw [List.append_nil]
      exact hkept (fun d => d.chunk.code.toList) fun _ _ _ _ => rfl
    · change _ <+: e.chunk.constants.toList
      rw [hkept (fun d => d.chunk.constants.toList) fun _ _ _ _ => rfl]
    · rw [hfilter]
      exact gathered
    · rw [held, List.mem_filter, decide_eq_true_eq, hlength]
      exact or_congr_right ⟨fun h => ⟨h, Nat.lt_succ_self _⟩, fun h => h.1⟩
    · have hmore : c₁.heap.Keeps c.live heap := fun x hx =>
        (hcells x).trans ((hadds.keeps.mono hlive) x hx)
      exact hkeeps.trans hmore

/-- **A function is compiled to code of its own.** The closure is made where the function stands. -/
theorem function_emits {inner : Compile Unit} {k n : Nat} [Reads inner k] (hc : c.Ongoing τ)
    (kind : FunctionKind) (name : String) (hclasses : σ.classes = τ.classes) (hkind : σ.here.kind = kind)
    (hinner : ∀ c₁ : Compiler, c₁.Ongoing (τ.begin kind) → Ends inner c₁ fun _ c₂ => c₂.Ongoing σ ∧
      (∃ bytes, c₁.Adds bytes ps c₂ ∧ Spells c₂.linkage a bytes) ∧
      c₂.draft.arity = c₁.draft.arity + n) :
    Emits (do beginNamed kind name; beginScope; inner; emitClosure (← endFunction)) c
      [.closure kind name n (gather [] (ps.filter (·.1 < τ.outer.length + 1))) (a ++ returning kind)]
      (ps.filter (·.1 < τ.outer.length + 1)) τ fun _ _ => True := by
  obtain ⟨c₁, hopen, hc₁, h₁, ⟨x, hx, hcontents⟩, hroots₁, hkeeps₁⟩ := open_ongoing hc kind name
  have hassoc : (do beginNamed kind name; beginScope; inner; emitClosure (← endFunction)) =
      (do
        (do beginNamed kind name; beginScope)
        inner
        emitClosure (← endFunction) : Compile Unit) := by
    simp only [bind_assoc]
  rw [hassoc]
  refine Ends.known hopen ((hinner c₁ hc₁).next fun _ c₂ h₂ => ?_)
  obtain ⟨hc₂, ⟨bytes, hadds₂, hspells₂⟩, harity₂⟩ := h₂
  obtain ⟨e, enclosing, hcons, habsorbs, hback⟩ := h₁.back hc.toStands hc₂.toStands hclasses hadds₂.enclosing
  obtain ⟨chunk, heap, hreturn, hend, htidy, hcells⟩ := endFunction_eq hcons
  set d : Draft := { c₂.draft with chunk } with hd
  set c₄ : Compiler := { c₂ with draft := e, enclosing, heap } with hc₄def
  have hc₄ : c₄.Ongoing τ := ⟨hback heap, htidy hc₂.tidy⟩
  obtain ⟨hadds, harity⟩ := left_adds hc h₁ hroots₁ hkeeps₁ hadds₂ habsorbs hcells
  have hspells : Spells ⟨heap, chunk.constants.toList, origins (d :: e :: enclosing), enclosing.length + 1⟩
      (a ++ returning kind) chunk.code.toList := by
    have hfinish := emitReturn_emits hc₂ (by rw [hreturn]; exact hc₂.errors)
    rw [hreturn, hkind] at hfinish
    obtain ⟨-, ⟨⟨bytes₃, hadds₃, hspells₃⟩, -⟩, -⟩ := hfinish
    have hcode : chunk.code.toList = bytes ++ bytes₃ := by
      have hcode₂ := hadds₂.code
      rw [h₁.chunk] at hcode₂
      exact hadds₃.code.trans (congrArg (· ++ bytes₃) hcode₂)
    rw [hcode, ← hcons]
    refine ((hspells₂.mono hadds₃.le).append hspells₃).mono ⟨List.prefix_rfl, List.prefix_rfl, ?_, ?_⟩
    · exact (congrArg List.length hcons).symm
    · exact fun x _ => hcells x
  have hname : d.name = some x ∧ c₄.heap.hasContents name x = true := by
    refine ⟨hadds₂.name.trans hx, ?_⟩
    have hlive : x ∈ c₁.live := Compiler.mem_live.2
      (.inr ⟨c₁.draft, List.mem_cons_self, List.mem_append_left _ (by simp [hx])⟩)
    have hkept := hadds₂.keeps x (.root hlive (Linkage.contains_of_hasContents hcontents))
    rw [Heap.hasContents_congr ((hcells x).trans hkept)]
    exact hcontents
  have hvalid : ∀ v ∈ d.captures, v.Valid (e :: enclosing) := by
    rw [← hcons]
    exact hc₂.threaded.1
  have hcount : d.upvalueCount = d.captures.size := (hc₂.bounded _ List.mem_cons_self).counted
  have hcaptured : origins (d :: e :: enclosing) = gather [] (ps.filter (·.1 < τ.outer.length + 1)) := by
    rw [← hcons]
    refine hadds₂.captured.trans ?_
    rw [h₁.origins_eq, h₁.enclosing, List.length_cons, Compiler.length_outer hc.toStands]
  have harity₃ : d.arity = n := by
    rw [hd, harity₂, h₁.arity, Nat.zero_add]
  have hclosure := emitClosure_emits hc₄ kind hname hvalid hcount hspells
  rw [harity₃, show c₄.draft = e from rfl, show c₄.enclosing = enclosing from rfl, hcaptured] at hclosure
  refine Ends.known hend (Ends.mono hclosure fun _ c₅ h₅ => ?_)
  obtain ⟨hc₅, ⟨⟨bytes₅, hadds₅, hspells₅⟩, harity₅⟩, -⟩ := h₅
  have hall := hadds.trans hadds₅
  rw [List.append_nil] at hall
  exact ⟨hc₅, ⟨⟨_, hall, hspells₅⟩, harity₅.trans harity⟩, trivial⟩

end Compile

end LoxMachine

import LoxMachine.Proofs.Grammar.Declaring

/-!
# What functions cost

A function is compiled in a draft of its own. In the function around it, it takes up a constant and an
instruction that lists the captured variables, and the variables it captures from further out are
captured by the function around as well.

* `function_costs`: what a function costs, if its body costs `f` in the draft of its own.
-/

namespace LoxMachine

open Compile

set_option synthInstance.maxSize 4096

variable {ps qs : List (Nat × Nat)} {ds ds' : List Draft} {n : Nat}

/-- Only variables of the functions that capture and of those further out matter. -/
theorem Absorbs.congr (h : Absorbs ps ds ds') (hn : ds.length ≤ n)
    (heq : ps.filter (·.1 < n) = qs.filter (·.1 < n)) : Absorbs qs ds ds' := by
  induction h with
  | nil => exact .nil
  | @cons d d' outer outer' scope same gathered held more ih =>
    rw [List.length_cons] at hn
    have hfilter : ∀ rs : List (Nat × Nat),
        rs.filter (·.1 < outer.length) = (rs.filter (·.1 < n)).filter (·.1 < outer.length) := by
      intro rs
      rw [List.filter_filter]
      refine List.filter_congr fun o _ => ?_
      rw [← Bool.decide_and, decide_eq_decide]
      omega
    have hmem : ∀ (rs : List (Nat × Nat)) (slot : Nat),
        (outer.length, slot) ∈ rs ↔ (outer.length, slot) ∈ rs.filter (·.1 < n) := by
      intro rs slot
      rw [List.mem_filter, decide_eq_true_eq]
      exact ⟨fun h => ⟨h, hn⟩, fun h => h.1⟩
    refine .cons scope same ?_ (fun slot => ?_) (ih (by omega))
    · rw [gathered, hfilter ps, heq, ← hfilter]
    · rw [held, hmem ps, heq, ← hmem]

theorem filter_filter_lt (ps : List (Nat × Nat)) (n : Nat) :
    (ps.filter (·.1 < n)).filter (·.1 < n) = ps.filter (·.1 < n) := by
  rw [List.filter_filter]
  simp

theorem hasRoom_filter (hn : ds.length ≤ n + 1) : HasRoom (ps.filter (·.1 < n)) ds ↔ HasRoom ps ds := by
  induction ds with
  | nil => exact Iff.rfl
  | cons d outer ih =>
    rw [List.length_cons] at hn
    have hfilter : (ps.filter (·.1 < n)).filter (·.1 < outer.length) = ps.filter (·.1 < outer.length) := by
      rw [List.filter_filter]
      refine List.filter_congr fun o _ => ?_
      simp only [Bool.and_eq_left_iff_imp, decide_eq_true_eq]
      omega
    unfold HasRoom
    rw [hfilter, ih (by omega)]

namespace Compile

variable {c : Compiler} {σ τ : Setting} {P : Prop} {f : Footprint}

theorem emitReturn_eq (c : Compiler) : ∃ chunk,
    emitReturn c = ((), { c with draft := { c.draft with chunk } }) := by
  unfold emitReturn
  rw [bind_of (rfl : (get : Compile Compiler) c = (c, c))]
  by_cases hkind : c.draft.kind = .initializer
  · rw [if_pos hkind]
    exact ⟨_, rfl⟩
  · rw [if_neg hkind]
    exact ⟨_, rfl⟩

/-- The end of a function. Its listing changes no object. -/
theorem endFunction_run (c : Compiler) : ∃ chunk heap,
    emitReturn c = ((), { c with draft := { c.draft with chunk } }) ∧
      endFunction c = ({ c.draft with chunk },
        { ({ c with draft := { c.draft with chunk } } : Compiler).leave with heap }) ∧
      (c.heap.Tidy → heap.Tidy) ∧ ∀ x, heap.cell? x = c.heap.cell? x := by
  obtain ⟨chunk, hreturn⟩ := emitReturn_eq c
  set d : Draft := { c.draft with chunk } with hd
  have hheap : ({ c with draft := d } : Compiler).leave.heap = c.heap := by
    unfold Compiler.leave
    split <;> rfl
  obtain ⟨heap, hlisting, htidy, hcells⟩ := reportListing_eq d ({ c with draft := d } : Compiler).leave
  rw [hheap] at htidy hcells
  refine ⟨chunk, heap, hreturn, ?_, htidy, hcells⟩
  unfold endFunction
  rw [bind_of hreturn]
  change (d, (reportListing d ({ c with draft := d } : Compiler).leave).2) = _
  rw [hlisting]

/-- The function around is compiled on. -/
theorem endFunction_eq {e : Draft} {enclosing : List Draft} (h : c.enclosing = e :: enclosing) :
    ∃ chunk heap, emitReturn c = ((), { c with draft := { c.draft with chunk } }) ∧
      endFunction c = ({ c.draft with chunk }, { c with draft := e, enclosing, heap }) ∧
      (c.heap.Tidy → heap.Tidy) ∧ ∀ x, heap.cell? x = c.heap.cell? x := by
  obtain ⟨chunk, heap, hreturn, heq, hheap⟩ := endFunction_run c
  refine ⟨chunk, heap, hreturn, ?_, hheap⟩
  rw [heq]
  unfold Compiler.leave
  simp only [h]

/-- A function has been opened. Its draft is empty. -/
structure Opened (c : Compiler) (c₁ : Compiler) : Prop where
  chunk : c₁.draft.chunk = .empty
  captures : c₁.draft.captures = #[]
  arity : c₁.draft.arity = 0
  enclosing : c₁.enclosing = c.draft :: c.enclosing

theorem open_eq (hc : c.Stands τ) (kind : FunctionKind) (name : String) : ∃ c₁ : Compiler,
    (do beginNamed kind name; beginScope : Compile Unit) c = ((), c₁) ∧ c₁.Stands (τ.begin kind) ∧
      Opened c c₁ := by
  refine ⟨_, rfl, ⟨hc.errors, hc.calm, hc.clean, rfl, ?_, hc.classes, ?_, ?_⟩, ⟨rfl, rfl, rfl, rfl⟩⟩
  · exact congrArg₂ List.cons hc.here hc.outer
  · exact ⟨nofun, List.nodup_nil, hc.threaded⟩
  · exact List.forall_mem_cons.2 ⟨⟨Nat.le_of_ble_eq_true rfl, Nat.zero_le _, rfl, Nat.zero_le _⟩, hc.bounded⟩

namespace Opened

variable {c₁ c₂ : Compiler}

theorem origins_eq (h : Opened c c₁) : origins (c₁.draft :: c₁.enclosing) = [] := by
  rw [origins, h.captures]
  rfl

/-- Room in the function itself and in those around it. -/
theorem room_iff (h : Opened c c₁) (hc : c.Stands τ) : c₁.Room f ↔
    (f.constants ≤ byteCount ∧ (f.captured.filter (·.1 < c₁.enclosing.length)).toFinset.card ≤ byteCount) ∧
      c.Room { captured := f.captured.filter (·.1 < τ.outer.length) } := by
  have hlength : τ.outer.length = c.enclosing.length := by rw [← hc.outer, List.length_map]
  have hconstants : c₁.draft.chunk.constants.size + f.constants = f.constants := by
    rw [h.chunk]
    exact Nat.zero_add _
  have hcaptured : HasRoom f.captured (c₁.draft :: c₁.enclosing) ↔
      (f.captured.filter (·.1 < c₁.enclosing.length)).toFinset.card ≤ byteCount ∧
        HasRoom (f.captured.filter (·.1 < τ.outer.length)) (c.draft :: c.enclosing) := by
    rw [hasRoom_filter (by rw [List.length_cons, hlength]), HasRoom, h.origins_eq, List.nil_append,
      ← h.enclosing]
  constructor
  · rintro ⟨hroom, hroom'⟩
    obtain ⟨hcard, hmore⟩ := hcaptured.1 hroom'
    exact ⟨⟨hconstants ▸ hroom, hcard⟩, (hc.room_bytes 0).constants, hmore⟩
  · rintro ⟨⟨hroom, hcard⟩, hmore⟩
    exact ⟨hconstants.trans_le hroom, hcaptured.2 ⟨hcard, hmore.captured⟩⟩

/-- The function around is compiled on from where it was left. -/
theorem back (h : Opened c c₁) (hc : c.Stands τ) (hc₂ : c₂.Stands σ) (hclasses : σ.classes = τ.classes)
    (habsorbs : Absorbs ps c₁.enclosing c₂.enclosing) : ∃ e enclosing, c₂.enclosing = e :: enclosing ∧
      Absorbs ps (c.draft :: c.enclosing) (e :: enclosing) ∧
      ∀ heap, ({ c₂ with draft := e, enclosing, heap } : Compiler).Stands τ := by
  rw [h.enclosing] at habsorbs
  cases hcons : c₂.enclosing with
  | nil =>
    rw [hcons] at habsorbs
    cases habsorbs
  | cons e enclosing =>
    rw [hcons] at habsorbs
    refine ⟨e, enclosing, rfl, habsorbs, fun heap => ?_⟩
    cases habsorbs with
    | cons scope same gathered held more =>
      refine ⟨hc₂.errors, hc₂.calm, hc₂.clean, scope.trans hc.here, more.scopes.trans hc.outer,
        hc₂.classes.trans hclasses, ?_, ?_⟩
      · exact hcons ▸ hc₂.threaded.2.2
      · exact hcons ▸ (List.forall_mem_cons.1 hc₂.bounded).2

/-- The function around has captured what it must for the function. -/
theorem left (h : Opened c c₁) (hc : c.Stands τ) (hc₂ : c₂.Stands σ) (hclasses : σ.classes = τ.classes)
    (htakes : c₁.Takes f c₂) : ∃ d c₃, endFunction c₂ = (d, c₃) ∧ c₃.Stands τ ∧
      c.Takes { captured := f.captured.filter (·.1 < τ.outer.length) } c₃ ∧
      d.captures.size = f.captures := by
  have hlength : τ.outer.length = c.enclosing.length := by rw [← hc.outer, List.length_map]
  obtain ⟨e, enclosing, hcons, habsorbs, hback⟩ := h.back hc hc₂ hclasses htakes.enclosing
  obtain ⟨chunk, heap, -, heq, -⟩ := endFunction_eq hcons
  cases habsorbs with
  | cons scope same gathered held more =>
    have chunk := congrArg Draft.chunk same
    refine ⟨_, _, heq, hback heap, ⟨?_, ?_, ?_, ?_, ?_⟩, ?_⟩
    · exact congrArg Chunk.size chunk
    · exact congrArg (fun k => k.constants.size) chunk
    · intro o ho
      rw [← hlength]
      exact of_decide_eq_true (List.mem_filter.1 ho).2
    · intro o
      rw [List.mem_filter, hlength, decide_eq_true_eq]
      exact captured_of_gathered gathered o
    · exact more.congr hlength.ge (filter_filter_lt _ _).symm
    · have hset : (origins (c₂.draft :: c₂.enclosing)).toFinset = f.captured.toFinset := by
        ext o
        rw [List.mem_toFinset, List.mem_toFinset, htakes.captured, h.origins_eq]
        simp
      rw [Footprint.captures, ← hset, List.toFinset_card_of_nodup hc₂.threaded.2.1, length_origins]

end Opened

/-- What a function costs, up to the instruction that makes a closure of it. -/
theorem enclosed_costs {inner : Compile Unit} (hc : c.Stands τ) (kind : FunctionKind) (name : String)
    (hclasses : σ.classes = τ.classes)
    (hinner : ∀ c₁ : Compiler, c₁.Stands (τ.begin kind) → c₁.draft.arity = 0 →
      Costs inner c₁ P f σ fun _ _ => True) :
    Costs (do beginNamed kind name; beginScope; inner; endFunction) c
      (P ∧ f.constants ≤ byteCount ∧ f.captures ≤ byteCount)
      { captured := f.captured.filter (·.1 < τ.outer.length) } τ
      fun d _ => d.captures.size = f.captures := by
  obtain ⟨c₁, hopen, hc₁, h₁⟩ := open_eq hc kind name
  have hcosts := hinner c₁ hc₁ h₁.arity
  have hrun : (do beginNamed kind name; beginScope; inner; endFunction : Compile Draft) c =
      endFunction (inner c₁).2 := by
    rw [← bind_assoc, bind_of hopen]
    rfl
  have hlegal : P ∧ c₁.Room f ↔ (P ∧ f.constants ≤ byteCount ∧ f.captures ≤ byteCount) ∧
      c.Room { captured := f.captured.filter (·.1 < τ.outer.length) } := by
    rw [h₁.room_iff hc]
    constructor
    · rintro ⟨hP, ⟨hconstants, hcard⟩, hroom⟩
      -- A function without errors captures variables of other functions only.
      have herr := hcosts.errors_iff.2 ⟨hP, (h₁.room_iff hc).2 ⟨⟨hconstants, hcard⟩, hroom⟩⟩
      have houtward := (hcosts.ends herr).2.1.outward
      rw [List.filter_eq_self.2 fun o ho => decide_eq_true (houtward o ho)] at hcard
      exact ⟨⟨hP, hconstants, hcard⟩, hroom⟩
    · rintro ⟨⟨hP, hconstants, hcaptures⟩, hroom⟩
      refine ⟨hP, ⟨hconstants, (Finset.card_le_card fun o ho => ?_).trans hcaptures⟩, hroom⟩
      exact List.mem_toFinset.2 (List.mem_of_mem_filter (List.mem_toFinset.1 ho))
  refine ⟨?_, fun herr => ?_⟩
  · rw [hrun, ← hlegal, ← hcosts.errors_iff]
    refine ⟨Reads.clean (x := endFunction) (k := 0) (inner c₁).2, fun herr => ?_⟩
    obtain ⟨hc₂, htakes, -⟩ := hcosts.ends herr
    obtain ⟨d, c₃, heq, hc₃, -⟩ := h₁.left hc hc₂ hclasses htakes
    rw [heq]
    exact hc₃.errors
  · rw [hrun] at herr ⊢
    obtain ⟨hc₂, htakes, -⟩ := hcosts.ends (Reads.clean (x := endFunction) (k := 0) (inner c₁).2 herr)
    obtain ⟨d, c₃, heq, h⟩ := h₁.left hc hc₂ hclasses htakes
    rw [heq]
    exact h

/-- The captured variables are listed after the instruction. -/
theorem emitClosure_costs (hc : c.Stands σ) (d : Draft) :
    Costs (emitClosure d) c True { size := 2 + 2 * d.captures.size, constants := 1 } σ
      fun _ _ => True := by
  have hlist : ∀ (l : List Capture) (c : Compiler), c.Stands σ →
      Costs (l.forM fun cap => do
        emitByte (if cap.isLocal then 1 else 0)
        emitByte cap.index) c True (.bytes (2 * l.length)) σ fun _ _ => True := by
    intro l
    induction l with
    | nil => exact fun c hc => .pure hc trivial
    | cons cap l ih =>
      intro c hc
      refine .congr (.bind (.bind (emitByte_costs hc _) fun _ _ hc₁ _ _ => emitByte_costs hc₁ _)
        fun _ _ hc₂ _ _ => ih _ hc₂) (by simp) ?_
      ext <;> simp
      omega
  have hcaptures : ∀ g : Capture → Compile Unit, Array.forM g d.captures = d.captures.toList.forM g :=
    fun g => List.forM_toArray' d.captures.toList g rfl
  unfold emitClosure
  simp only [hcaptures]
  refine .congr (.bind (alloc_costs hc _) fun _ _ hc₁ _ _ =>
    .bind (makeConstant_costs hc₁ _) fun _ _ hc₂ _ _ => .bind (emitWith_costs hc₂ _ _)
      fun _ _ hc₃ _ _ => hlist _ _ hc₃) (by simp) ?_
  ext <;> simp

/-- **What a function costs.** -/
theorem function_costs {inner : Compile Unit} {k : Nat} [Reads inner k] (hc : c.Stands τ)
    (kind : FunctionKind) (name : String) (hclasses : σ.classes = τ.classes)
    (hinner : ∀ c₁ : Compiler, c₁.Stands (τ.begin kind) → c₁.draft.arity = 0 →
      Costs inner c₁ P f σ fun _ _ => True) :
    Costs (do beginNamed kind name; beginScope; inner; emitClosure (← endFunction)) c
      (P ∧ f.constants ≤ byteCount ∧ f.captures ≤ byteCount)
      { size := 2 + 2 * f.captures
        constants := 1
        captured := f.captured.filter (·.1 < τ.outer.length) } τ fun _ _ => True := by
  have hassoc : (do beginNamed kind name; beginScope; inner; emitClosure (← endFunction)) =
      (do beginNamed kind name; beginScope; inner; endFunction : Compile Draft) >>= emitClosure := by
    simp only [bind_assoc]
  rw [hassoc]
  refine .congr (.bind (enclosed_costs hc kind name hclasses hinner) fun d c₁ hc₁ _ hd =>
    hd ▸ emitClosure_costs hc₁ d) (by simp) ?_
  ext <;> simp

/-! ## Parameters -/

/-- The number of parameters stays. -/
class KeepsArity {α : Type} (x : Compile α) : Prop where
  eq : ∀ c, (x c).2.draft.arity = c.draft.arity

instance {α β : Type} (x : Compile α) (k : α → Compile β) [hx : KeepsArity x] [hk : ∀ a, KeepsArity (k a)] :
    KeepsArity (x >>= k) :=
  ⟨fun c => ((hk _).eq _).trans (hx.eq c)⟩

instance {α : Type} (a : α) : KeepsArity (pure a : Compile α) := ⟨fun _ => rfl⟩

instance : KeepsArity (get : Compile Compiler) := ⟨fun _ => rfl⟩

instance {α : Type} (p : Prop) [Decidable p] (x y : Compile α) [KeepsArity x] [KeepsArity y] :
    KeepsArity (if p then x else y) := by
  split <;> infer_instance

theorem draft_errorAt (c : Compiler) (t : Token) (d : Diagnosis) : (c.errorAt t d).draft = c.draft := by
  unfold Compiler.errorAt
  split <;> rfl

instance : KeepsArity advance := by
  have hpull : ∀ (ts : List Token) (c : Compiler), (c.pull ts).draft = c.draft := by
    intro ts
    induction ts with
    | nil => exact fun c => rfl
    | cons t ts ih =>
      intro c
      unfold Compiler.pull
      split
      · exact (ih _).trans (draft_errorAt ..)
      · rfl
      · rfl
  exact ⟨fun c => congrArg Draft.arity (hpull _ _)⟩

instance (d : Diagnosis) : KeepsArity (error d) := ⟨fun _ => congrArg Draft.arity (draft_errorAt ..)⟩

instance (f : Chunk → Chunk) : KeepsArity (modifyChunk f) := ⟨fun _ => rfl⟩

instance (s : String) : KeepsArity (intern s) := ⟨fun _ => rfl⟩

instance (op : Opcode) (byte : UInt8) : KeepsArity (emitWith op byte) := ⟨fun _ => rfl⟩

instance (name : String) : KeepsArity (nameConstant name) := by
  unfold nameConstant makeConstant
  infer_instance

instance (name : String) : KeepsArity (runName name) := by
  have hadd : KeepsArity (modifyDraft fun d => { d with locals := { name, depth := none } :: d.locals }) :=
    ⟨fun _ => rfl⟩
  unfold runName declareName errorIf addLocal
  infer_instance

instance (global : UInt8) : KeepsArity (defineVariable global) := by
  have hmark : KeepsArity markInitialized := by
    refine ⟨fun c => ?_⟩
    change (if c.draft.depth = 0 then c.draft else _ : Draft).arity = _
    split
    · rfl
    · split <;> rfl
  unfold defineVariable
  infer_instance

/-- A byte counts the parameters. -/
theorem countParameter_costs (hc : c.Stands σ) :
    Costs countParameter c (c.draft.arity + 1 ≤ maxArity) 0 σ
      fun _ c' => c'.draft.arity = c.draft.arity + 1 ∧ c.draft.arity + 1 ≤ maxArity := by
  set c₁ : Compiler := { c with draft := { c.draft with arity := c.draft.arity + 1 } } with hc₁def
  have hcount : Costs (modifyDraft fun d => { d with arity := d.arity + 1 }) c True 0 σ
      fun _ c' => c' = c₁ :=
    .of_draft (n := 0) hc rfl hc.here rfl rfl rfl rfl rfl rfl (hc.bounded _ List.mem_cons_self).locals rfl
  have hcheck : c₁.Stands σ → Costs (do
      if maxArity < (← get).draft.arity then errorAtCurrent .tooManyParameters) c₁
        (c.draft.arity + 1 ≤ maxArity) 0 σ
        fun _ c' => c'.draft.arity = c.draft.arity + 1 ∧ c.draft.arity + 1 ≤ maxArity := by
    intro hc₁
    refine .known (a := c₁) rfl ?_
    by_cases hmany : maxArity < c₁.draft.arity
    · rw [if_pos hmany]
      have herror := errorAt_ne (calm_of_stands hc₁) c₁.current .tooManyParameters
      exact ⟨iff_of_false herror fun h => absurd h.1 (Nat.not_le.2 hmany), fun h => absurd h herror⟩
    · rw [if_neg hmany]
      have hfew := Nat.le_of_not_lt hmany
      exact .congr (.pure hc₁ ⟨rfl, hfew⟩) (iff_true_intro hfew) rfl
  exact .congr (.bind hcount fun _ c' hc' _ heq => heq ▸ hcheck (heq ▸ hc')) (by simp) rfl

/-- A parameter is a local variable of the function. -/
theorem runParameter_costs (hs : σ.here.Settled) (hdepth : σ.here.depth ≠ 0) (hc : c.Stands σ)
    (name : String) :
    Costs (runParameter name) c (c.draft.arity + 1 ≤ maxArity ∧ σ.Declarable name) 0 (σ.define name)
      fun _ c' => c'.draft.arity = c.draft.arity + 1 ∧ c.draft.arity + 1 ≤ maxArity := by
  unfold runParameter
  refine .congr (.bind (countParameter_costs hc) fun _ c₁ hc₁ _ h₁ =>
    (Costs.bind (runName_costs hs hc₁ name) fun global c₂ hc₂ _ _ =>
      defineVariable_costs none global hc₂).and
        ((KeepsArity.eq (x := do defineVariable (← runName name)) c₁).trans h₁.1)
      |>.mono fun _ _ h => ⟨h.2, h₁.2⟩) (by simp) ?_
  ext <;> simp [hdepth]

theorem advance_arity_costs (hc : c.Stands σ) :
    Costs advance c True 0 σ fun _ c' => c'.draft.arity = c.draft.arity :=
  have hkeep : (fun _ c' => c'.draft.arity = c.draft.arity : Unit → Compiler → Prop)
    (advance c).1 (advance c).2 := KeepsArity.eq c
  ((advance_costs hc).and hkeep).mono fun _ _ h => h.2

theorem moreParameters_costs (hs : σ.here.Settled) (hdepth : σ.here.depth ≠ 0) (hc : c.Stands σ)
    (harity : c.draft.arity ≤ maxArity) (more : List String) :
    Costs (more.forM fun q => do advance; runParameter q) c
      (c.draft.arity + more.length ≤ maxArity ∧ ParametersLegal more σ) 0
      (more.foldl Setting.define σ) fun _ _ => True := by
  induction more generalizing c σ with
  | nil => exact .congr (.pure hc trivial) (by simp [ParametersLegal, harity]) rfl
  | cons q more ih =>
    have := reads_moreParameters more
    have hfirst : Costs (do advance; runParameter q) c
        (c.draft.arity + 1 ≤ maxArity ∧ σ.Declarable q) 0 (σ.define q)
        fun _ c' => c'.draft.arity = c.draft.arity + 1 ∧ c.draft.arity + 1 ≤ maxArity :=
      .congr (.bind (advance_arity_costs hc) fun _ c₁ hc₁ _ h₁ => h₁ ▸ runParameter_costs hs hdepth hc₁ q)
        (by simp) rfl
    have hmore : ∀ c₂ : Compiler, c₂.Stands (σ.define q) →
        (c₂.draft.arity = c.draft.arity + 1 ∧ c.draft.arity + 1 ≤ maxArity) →
        Costs (more.forM fun q => do advance; runParameter q) c₂
          (c.draft.arity + 1 + more.length ≤ maxArity ∧ ParametersLegal more (σ.define q)) 0
          (more.foldl Setting.define (σ.define q)) fun _ _ => True := by
      rintro c₂ hc₂ ⟨heq, hle⟩
      rw [← heq] at hle ⊢
      exact ih (Setting.settled_define hs q) (by rwa [Setting.depth_define]) hc₂ hle
    refine .congr (.bind hfirst fun _ c₂ hc₂ _ h₂ => hmore c₂ hc₂ h₂) ?_ rfl
    simp only [List.length_cons, ParametersLegal]
    constructor
    · exact fun ⟨h, h', h''⟩ => ⟨⟨by omega, h'⟩, by omega, h''⟩
    · exact fun ⟨⟨_, h'⟩, h, h''⟩ => ⟨by omega, h', h''⟩

/-- **The parameters of a function.** -/
theorem runParameters_costs (hs : σ.here.Settled) (hdepth : σ.here.depth ≠ 0) (hc : c.Stands σ)
    (harity : c.draft.arity = 0) (parameters : List String) :
    Costs (runParameters parameters) c (parameters.length ≤ maxArity ∧ ParametersLegal parameters σ) 0
      (parameters.foldl Setting.define σ) fun _ _ => True := by
  cases parameters with
  | nil => exact .congr (.pure hc trivial) (by simp [ParametersLegal]) rfl
  | cons p more =>
    have := reads_moreParameters more
    have hmore : ∀ c₁ : Compiler, c₁.Stands (σ.define p) → c₁.draft.arity = 1 →
        Costs (more.forM fun q => do advance; runParameter q) c₁
          (1 + more.length ≤ maxArity ∧ ParametersLegal more (σ.define p)) 0
          (more.foldl Setting.define (σ.define p)) fun _ _ => True := by
      intro c₁ hc₁ heq
      rw [← heq]
      exact moreParameters_costs (Setting.settled_define hs p) (by rwa [Setting.depth_define]) hc₁
        (by rw [heq]; decide) more
    refine .congr (.bind (runParameter_costs hs hdepth hc p) fun _ c₁ hc₁ _ h₁ =>
      hmore c₁ hc₁ (by rw [h₁.1, harity])) ?_ rfl
    rw [harity]
    simp only [List.length_cons, ParametersLegal]
    constructor
    · exact fun ⟨h, h', h''⟩ => ⟨⟨by omega, h'⟩, by omega, h''⟩
    · exact fun ⟨⟨_, h'⟩, h, h''⟩ => ⟨by omega, h', h''⟩

end Compile

end LoxMachine

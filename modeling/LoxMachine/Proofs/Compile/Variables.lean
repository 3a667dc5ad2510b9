import LoxMachine.Proofs.Compile.Emission

/-!
# Uses of variables

* `findLocal_slot`: a local variable is found at its slot. It is on the stack once it is
  initialized (`lt_settled`).
* `capture_spec` and `resolve_spec`: captured variables are added at the end, and every capture on
  the way is tied to a variable of the draft around it.
* `access_does`: what a name stands for can be read and written by the instructions that the
  answer names (`Access.Usable`).
-/

namespace LoxMachine

variable {c c' : Compiler} {s : Shape} {name : String} {ls ls' : List Local} {l : Local} {slot : Nat}

/-! ## Local variables -/

/-- How many variables are on the stack: all but those whose initializer has not ended. -/
def settled (ls : List Local) : Nat := (ls.dropWhile (·.depth.isNone)).length

theorem settled_le (ls : List Local) : settled ls ≤ ls.length :=
  (List.dropWhile_suffix _).length_le

theorem settled_cons_of_isNone {l : Local} (ls : List Local) (h : l.depth.isNone = true) :
    settled (l :: ls) = settled ls := by
  simp [settled, h]

/-- A variable that is initialized is on the stack. -/
theorem lt_settled (h : Draft.findLocal name ls = some (slot, l)) (hl : l.depth.isNone = false) :
    slot < settled ls := by
  induction ls with
  | nil => simp [Draft.findLocal] at h
  | cons l' ls ih =>
    by_cases hn : l'.depth.isNone = true
    · rw [settled_cons_of_isNone ls hn]
      unfold Draft.findLocal at h
      split at h
      · simp only [Option.some.injEq, Prod.mk.injEq] at h
        rw [h.2, hl] at hn
        cases hn
      · exact ih h
    · have hlt := Draft.lt_length_of_findLocal h
      simpa [settled, List.dropWhile_cons, hn] using hlt

theorem markCaptured_grows (name : String) (ls : List Local) :
    LocalsGrow ls (Draft.markCaptured name ls) := by
  induction ls with
  | nil => exact .nil
  | cons l ls ih =>
    unfold Draft.markCaptured
    split
    · exact .cons ⟨rfl, rfl, fun _ => rfl⟩ (LocalsGrow.refl ls)
    · exact .cons (.refl l) ih

theorem markCaptured_slot (h : Draft.findLocal name ls = some (slot, l)) :
    ∃ l', (Draft.markCaptured name ls).reverse[slot]? = some l' ∧ l'.captured = true := by
  induction ls with
  | nil => simp [Draft.findLocal] at h
  | cons l₀ ls ih =>
    unfold Draft.findLocal at h
    unfold Draft.markCaptured
    split at h
    · rename_i hname
      simp only [Option.some.injEq, Prod.mk.injEq] at h
      obtain ⟨rfl, rfl⟩ := h
      rw [if_pos hname]
      simp
    · rename_i hname
      rw [if_neg hname]
      obtain ⟨l', hget, hl'⟩ := ih h
      refine ⟨l', ?_, hl'⟩
      rw [List.reverse_cons, List.getElem?_append_left (List.getElem?_eq_some_iff.1 hget).1, hget]

/-! ## Captured variables -/

/-- Adding a captured variable without a fault. -/
theorem capture_spec {d : Draft} {cap : Capture} {heap : Heap} (hd : d.Sound heap)
    (hfaults : (d.capture cap).faults = []) :
    ∃ captures : Array Capture, (d.capture cap).draft = d.withCaptures captures ∧
      d.captures.size ≤ captures.size ∧ captures.size ≤ byteCount ∧
      (∀ c ∈ captures, c ∈ d.captures ∨ c = cap) ∧
      (d.capture cap).index.toNat < captures.size := by
  unfold Draft.capture at hfaults ⊢
  split at hfaults
  · rename_i i hi
    have hlt : i < d.captures.size := by
      rw [Array.idxOf?_eq_map_finIdxOf?_val] at hi
      obtain ⟨j, -, rfl⟩ := Option.map_eq_some_iff.1 hi
      exact j.isLt
    refine ⟨d.captures, (Draft.withCaptures_eq hd.counted).symm, le_rfl, hd.captures_size, fun c hc => Or.inl hc, ?_⟩
    rw [UInt8.toNat_ofNat_of_lt' (hlt.trans_le hd.captures_size)]
    exact hlt
  · split at hfaults
    · cases hfaults
    · rename_i hne
      have hlt : d.captures.size < byteCount := Nat.lt_of_le_of_ne hd.captures_size hne
      refine ⟨d.captures.push cap, by simp [hne], by simp, ?_, fun c hc => ?_, ?_⟩
      · rw [Array.size_push]
        exact hlt
      · exact Array.mem_push.1 hc
      · simp only [hne, if_false]
        rw [UInt8.toNat_ofNat_of_lt' hlt]
        simp

/-- An enclosing draft of which more variables are captured, or that captures more itself. -/
structure Draft.Widens (d d' : Draft) : Prop where
  eq : d' = { d with locals := d'.locals, captures := d'.captures, upvalueCount := d'.upvalueCount }
  locals : LocalsGrow d.locals d'.locals
  upvalues : d.upvalueCount ≤ d'.upvalueCount
  captures_size : d'.captures.size ≤ byteCount
  counted : d'.upvalueCount = d'.captures.size

theorem Draft.Widens.refl {d : Draft} {heap : Heap} (h : d.Sound heap) : d.Widens d :=
  ⟨rfl, .refl _, le_rfl, h.captures_size, h.counted⟩

/-- **A variable of an enclosing function is found without a fault.** -/
theorem resolve_spec {heap : Heap} (name : String) (outer : List Draft) :
    ∀ (d : Draft) (r : Draft.Resolution), Draft.resolve name d outer = some r → r.faults = [] →
    (∀ e ∈ d :: outer, e.Sound heap) → Linked d outer →
    ∃ captures : Array Capture, r.draft = d.withCaptures captures ∧
      d.captures.size ≤ captures.size ∧ captures.size ≤ byteCount ∧
      r.index.toNat < captures.size ∧ Linked r.draft r.enclosing ∧
      List.Forall₂ Draft.Widens outer r.enclosing := by
  induction outer with
  | nil =>
    intro d r h
    simp [Draft.resolve] at h
  | cons e outer ih =>
    intro d r h hfaults hsound hlinked
    obtain ⟨hd, houter⟩ := List.forall_mem_cons.1 hsound
    obtain ⟨he, hrest⟩ := List.forall_mem_cons.1 houter
    unfold Draft.resolve at h
    split at h
    · -- the variable is local to the next draft, which marks it
      rename_i slot l hfind
      cases h
      obtain ⟨-, hcap⟩ := List.append_eq_nil_iff.1 hfaults
      obtain ⟨captures, hdraft, hle, hbound, hmem, hindex⟩ := capture_spec hd hcap
      refine ⟨captures, hdraft, hle, hbound, hindex, ?_, .cons ?_ ?_⟩
      · rw [hdraft]
        refine ⟨fun cap hc => ?_, Linked.congr hlinked.2 rfl⟩
        rcases hmem cap hc with hold | rfl
        · exact (hlinked.1 cap hold).mono (markCaptured_grows name e.locals) le_rfl
        · have hlt := Draft.lt_length_of_findLocal hfind
          refine ⟨fun _ => ?_, by simp⟩
          rw [UInt8.toNat_ofNat_of_lt' (hlt.trans_le he.locals_length)]
          exact markCaptured_slot hfind
      · exact ⟨rfl, markCaptured_grows name e.locals, le_rfl, he.captures_size, he.counted⟩
      · exact List.forall₂_same.2 fun e' he' => .refl (hrest e' he')
    · split at h
      · cases h
      · -- the next draft captures it as well, and what it captures is captured here
        rename_i r' hr'
        cases h
        obtain ⟨hf', hcap⟩ := List.append_eq_nil_iff.1 hfaults
        obtain ⟨captures', hdraft', hle', hbound', hindex', hlinked', hwidens⟩ :=
          ih e r' hr' hf' houter hlinked.2
        obtain ⟨captures, hdraft, hle, hbound, hmem, hindex⟩ := capture_spec hd hcap
        refine ⟨captures, hdraft, hle, hbound, hindex, ?_, .cons ?_ hwidens⟩
        · rw [hdraft]
          refine ⟨fun cap hc => ?_, hlinked'⟩
          rcases hmem cap hc with hold | rfl
          · rw [hdraft']
            exact (hlinked.1 cap hold).mono (.refl _) (he.counted.trans_le hle')
          · rw [hdraft']
            exact ⟨by simp, fun _ => hindex'⟩
        · rw [hdraft']
          exact ⟨rfl, .refl _, he.counted.trans_le hle', hbound', rfl⟩

/-- Every draft afterwards comes from one before. -/
theorem exists_widens {ds ds' : List Draft} {d' : Draft} (h : List.Forall₂ Draft.Widens ds ds')
    (hd' : d' ∈ ds') : ∃ d ∈ ds, d.Widens d' := by
  induction h with
  | nil => cases hd'
  | cons hd _ ih =>
    rcases List.mem_cons.1 hd' with rfl | hd'
    · exact ⟨_, List.mem_cons_self, hd⟩
    · obtain ⟨d, hmem, hw⟩ := ih hd'
      exact ⟨d, List.mem_cons_of_mem _ hmem, hw⟩

theorem Draft.Widens.waits {d d' : Draft} (h : d.Widens d') (heap : Heap) :
    d.Waits heap heap d' := by
  rw [h.eq]
  exact ⟨⟨List.prefix_rfl, h.upvalues⟩, rfl, rfl, rfl, h.locals⟩

theorem Draft.Widens.sound {d d' : Draft} {heap : Heap} (h : d.Widens d') (hd : d.Sound heap) :
    d'.Sound heap := by
  have hlength : d'.locals.length = d.locals.length := (List.Forall₂.length_eq h.locals).symm
  have heq := h.eq
  refine ⟨fun n hn => hd.name n ?_, fun x hx => hd.constants x ?_, ?_, h.captures_size, h.counted⟩
  · rw [heq] at hn
    exact hn
  · rw [heq] at hx
    exact hx
  · rw [hlength]
    exact hd.locals_length

/-! ## Reading and writing -/

/-- The instructions of an access can be used with `n` variables on the stack. -/
inductive Compile.Access.Usable (pool : Pool) (n : Nat) : Compile.Access → Prop
  | local {operand : UInt8} (h : operand.toNat < n) :
      Usable pool n ⟨.getLocal, .setLocal, operand⟩
  | upvalue {operand : UInt8} (h : operand.toNat < pool.upvalues) :
      Usable pool n ⟨.getUpvalue, .setUpvalue, operand⟩
  | global {operand : UInt8} (h : pool.constants[operand.toNat]? = some .string) :
      Usable pool n ⟨.getGlobal, .setGlobal, operand⟩

namespace Compile

variable {a : Access} {n : Nat} {pool pool' : Pool}

theorem Access.Usable.mono (h : a.Usable pool n) (hpool : pool.Le pool') : a.Usable pool' n := by
  cases h with
  | «local» h => exact .local h
  | upvalue h => exact .upvalue (h.trans_le hpool.upvalues)
  | global h => exact .global (hpool.constant h)

theorem Access.Usable.read (h : a.Usable c.pool n) (hw : c.Writes [a.getter.toByte, a.operand] c')
    (hn : n ≤ s.length) : c.Moves c' (some s) (some (false :: s)) := by
  cases h with
  | «local» h =>
    exact hw.plain (n := 0) ⟨h.trans_le hn, rfl⟩ (Nat.zero_le _) (by simp [Opcode.pops])
  | upvalue h => exact hw.plain (n := 0) ⟨h, rfl⟩ (Nat.zero_le _) (by simp [Opcode.pops])
  | global h => exact hw.plain (n := 0) ⟨rfl, h⟩ (Nat.zero_le _) (by simp [Opcode.pops])

theorem Access.Usable.write (h : a.Usable c.pool n) (hw : c.Writes [a.setter.toByte, a.operand] c')
    (hn : n ≤ s.length) (hs : 0 < s.length) : c.Moves c' (some s) (some s) := by
  cases h with
  | «local» h => exact hw.plain (n := 0) ⟨h.trans_le hn, rfl⟩ hs (by simp [Opcode.pops])
  | upvalue h => exact hw.plain (n := 0) ⟨h, rfl⟩ hs (by simp [Opcode.pops])
  | global h => exact hw.plain (n := 0) ⟨rfl, h⟩ hs (by simp [Opcode.pops])

/-- Faults that are reported do not end without errors. -/
theorem faults_does (faults : List Diagnosis) :
    Does (faults.forM error) c fun _ c' => c' = c ∧ faults = [] := by
  cases faults with
  | nil => exact .pure ⟨rfl, rfl⟩
  | cons d faults => exact Does.error_bind (f := fun _ => faults.forM error)

/-- A captured variable is added to the drafts. -/
theorem resolved_does {r : Draft.Resolution}
    (hr : Draft.resolve name c.draft c.enclosing = some r) :
    Does (do
      modify fun c => { c with draft := r.draft, enclosing := r.enclosing }
      r.faults.forM error
      return (⟨.getUpvalue, .setUpvalue, r.index⟩ : Access)) c fun a c' =>
        c.Stays c' ∧ a.Usable c'.pool (settled c'.draft.locals) := by
  intro hc
  by_cases hfaults : r.faults = []
  · obtain ⟨captures, hdraft, hle, hbound, hindex, hlinked, hwidens⟩ :=
      resolve_spec name c.enclosing c.draft r hr hfaults hc.drafts hc.linked
    have hsound : ∀ d ∈ r.draft :: r.enclosing, d.Sound c.heap := by
      intro d hd
      rcases List.mem_cons.1 hd with rfl | hd
      · rw [hdraft]
        exact ⟨hc.draft.name, hc.draft.constants, hc.draft.locals_length, hbound, rfl⟩
      · obtain ⟨e, he, hw⟩ := exists_widens hwidens hd
        exact hw.sound (hc.drafts e (List.mem_cons_of_mem _ he))
    rw [hfaults]
    intro _
    refine ⟨⟨hc.calm, hc.ended, hc.tidy, hsound, hlinked⟩, ⟨?_, ?_, le_rfl⟩, ⟨⟨?_, ?_, ?_, rfl⟩, ?_⟩,
      .upvalue ?_⟩
    · change (c.draft.pool c.heap).Le (r.draft.pool c.heap)
      rw [hdraft]
      exact ⟨List.prefix_rfl, hc.draft.counted.trans_le hle⟩
    · exact hwidens.imp fun _ _ hw => hw.waits c.heap
    · change r.draft.locals = c.draft.locals
      rw [hdraft, Draft.withCaptures]
    · change r.draft.arity = c.draft.arity
      rw [hdraft, Draft.withCaptures]
    · change r.draft.depth = c.draft.depth
      rw [hdraft, Draft.withCaptures]
    · change r.draft.chunk.written = c.draft.chunk.written
      rw [hdraft, Draft.withCaptures]
    · change r.index.toNat < (r.draft.pool c.heap).upvalues
      rw [hdraft]
      exact hindex
  · cases hf : r.faults with
    | nil => exact absurd hf hfaults
    | cons d faults =>
      intro herr
      have herr' := (Orderly.precedes (x := (do
        faults.forM error
        return (⟨.getUpvalue, .setUpvalue, r.index⟩ : Access) : Compile Access)) _).errors herr
      simp [Compiler.errorAt, hc.calm] at herr'

theorem access_does (name : String) : Does (access name) c fun a c' =>
    c.Stays c' ∧ a.Usable c'.pool (settled c'.draft.locals) := by
  intro hc
  unfold access
  refine Does.get ?_ hc
  split
  · rename_i slot l hfind
    refine (faults_does l.useFaults).bind fun _ c₂ _ _ h => .pure ?_
    obtain ⟨rfl, hfaults⟩ := h
    have hsome : l.depth.isNone = false := by
      unfold Local.useFaults at hfaults
      split at hfaults
      · cases hfaults
      · rename_i hn
        exact Bool.eq_false_iff.2 hn
    have hlt := Draft.lt_length_of_findLocal hfind
    refine ⟨.refl _, .local ?_⟩
    rw [UInt8.toNat_ofNat_of_lt' (hlt.trans_le hc.draft.locals_length)]
    exact lt_settled hfind hsome
  · split
    · rename_i r hr
      exact resolved_does hr
    · refine (nameConstant_does name).bind fun i c₂ _ _ h => .pure ⟨h.1, .global h.2⟩

theorem readVariable_does (name : String) : Does (readVariable name) c fun _ c' =>
    c.Within c' ∧ ∀ s : Shape, settled c.draft.locals ≤ s.length →
      c.Moves c' (some s) (some (false :: s)) := by
  unfold readVariable
  refine (access_does name).bind fun a c₁ _ hl₁ h₁ => ?_
  refine (emitWith_does a.getter a.operand).mono fun _ c₂ _ _ h₂ => ?_
  refine ⟨h₁.1.toWithin.trans h₂.toWithin, fun s hs => (h₁.1.moves hl₁ _).trans ?_⟩
  exact h₁.2.read h₂ (by rw [h₁.1.locals]; exact hs)

end Compile

end LoxMachine

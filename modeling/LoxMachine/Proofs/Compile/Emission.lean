import LoxMachine.Proofs.Compile.State

/-!
# Basic actions

What the actions that read tokens, make constants and write code do in a compilation without
errors.

* `advance_does`, `accept_does` and `consume_does`: tokens that are read get fewer.
* `makeConstant_does` and `nameConstant_does`: the index names a constant of the right kind.
* `Compiler.Writes` says which bytes are written; `emitJump_does`, `patchJump_does` and
  `emitLoop_does` say what jumps do to the layout of the code.
-/

namespace LoxMachine

variable {c c' : Compiler} {s s' : Shape}

namespace Compile

/-! ## Tokens -/

/-- The next token without errors. -/
theorem pull_cons {t : Token} {ts : List Token} (hcalm : c.panicking = false)
    (herr : (c.pull (t :: ts)).errors = #[]) :
    (t.kind = .eof ∧ c.pull (t :: ts) = { c with current := t, rest := [t] }) ∨
      (t.kind ≠ .eof ∧ c.pull (t :: ts) = { c with current := t, rest := ts }) := by
  unfold Compiler.pull at herr ⊢
  split at herr
  · have herr' := (precedes_pull ts _).errors herr
    simp [Compiler.errorAt, hcalm] at herr'
  · rename_i hk
    simp [hk]
  · rename_i hk
    exact Or.inr ⟨hk, rfl⟩

/-- Going on to the next token: fewer are left, unless the end has been reached. -/
theorem advance_does : Does advance c fun _ c' =>
    c.Stays c' ∧ c'.previous = c.current ∧ (c.current.kind ≠ .eof → c'.left < c.left) := by
  intro hc herr
  obtain ⟨t₀, hmem, heof⟩ := hc.ended.mem
  cases hrest : c.rest with
  | nil => simp [hrest] at hmem
  | cons t ts =>
    have hdo : (advance c).2 = Compiler.pull (t :: ts) { c with previous := c.current } := by
      rw [← hrest]
      rfl
    have hleft : c.current.kind ≠ .eof → c.left = ts.length + 1 := fun hne => by
      simp [Compiler.left, hne, hrest]
    rw [hdo] at herr ⊢
    rcases pull_cons (c := { c with previous := c.current }) hc.calm herr with
      ⟨hk, heq⟩ | ⟨hk, heq⟩
    · rw [heq]
      refine ⟨⟨hc.calm, ⟨⟨t, by simp, hk⟩, fun _ => ⟨t, [], rfl, hk⟩⟩, hc.tidy, hc.drafts,
        hc.linked⟩, ⟨.refl _, Compiler.forall₂_waits_refl, ?_⟩, ⟨⟨rfl, rfl, rfl, rfl⟩, rfl⟩, rfl,
        fun hne => ?_⟩
      · simp [Compiler.left, hk]
      · rw [hleft hne]
        simp [Compiler.left, hk]
    · have hcur : c.current.kind ≠ .eof := by
        intro he
        obtain ⟨t', ts', hrest', hk'⟩ := hc.ended.stays he
        rw [hrest] at hrest'
        cases hrest'
        exact hk hk'
      have hin : t₀ ∈ ts := by
        rw [hrest] at hmem
        rcases List.mem_cons.1 hmem with rfl | hin
        · exact absurd heof hk
        · exact hin
      rw [heq]
      refine ⟨⟨hc.calm, ⟨⟨t₀, hin, heof⟩, fun he => absurd he hk⟩, hc.tidy, hc.drafts,
        hc.linked⟩, ⟨.refl _, Compiler.forall₂_waits_refl, ?_⟩, ⟨⟨rfl, rfl, rfl, rfl⟩, rfl⟩, rfl,
        fun _ => ?_⟩
      · rw [hleft hcur]
        simp [Compiler.left, hk]
      · rw [hleft hcur]
        simp [Compiler.left, hk]

theorem check_does (kind : TokenKind) :
    Does (check kind) c fun b c' => c' = c ∧ (b = true ↔ c.current.kind = kind) :=
  .get (.pure ⟨rfl, by simp⟩)

theorem accept_does (kind : TokenKind) :
    Does (accept kind) c fun b c' =>
      c.Stays c' ∧ (b = true → kind ≠ .eof → c'.left < c.left) := by
  unfold accept
  refine (check_does kind).bind fun b c₁ _ _ h => ?_
  obtain ⟨rfl, hb⟩ := h
  refine .ite (fun hk => ?_) fun _ => .pure ⟨.refl _, by simp⟩
  refine advance_does.bind fun _ c₂ _ _ h => .pure ⟨h.1, fun _ hne => h.2.2 ?_⟩
  rw [hb.1 hk]
  exact hne

theorem consume_does (kind : TokenKind) (e : Expectation) :
    Does (consume kind e) c fun _ c' => c.Stays c' := by
  unfold consume
  refine (check_does kind).bind fun b c₁ _ _ h => ?_
  obtain ⟨rfl, -⟩ := h
  exact .ite (fun _ => advance_does.mono fun _ _ _ _ h => h.1) fun _ => .errorAtCurrent

theorem lexeme_does : Does lexeme c fun _ c' => c' = c :=
  .get (.pure rfl)

/-! ## Constants -/

/-- The compiler keeps what its drafts refer to. -/
theorem handles_subset {d draft : Draft} {enclosing : List Draft} (roots : Thunk (List Handle))
    (hd : d ∈ draft :: enclosing) : ∀ x ∈ d.handles, x ∈ Compiler.handles roots draft enclosing :=
  fun _ hx => List.mem_append_right _
    (List.mem_flatMap.2 ⟨d, List.mem_reverse.2 hd, hx⟩)

/-- A change of the heap that keeps what the drafts refer to. -/
theorem sound_keep (hc : c.Sound) {heap : Heap} (htidy : heap.Tidy)
    (hk : c.heap.Keeps (Compiler.handles c.roots c.draft c.enclosing) heap) :
    { c with heap }.Sound ∧ c.Later { c with heap } := by
  have hkd : ∀ d ∈ c.draft :: c.enclosing, c.heap.Keeps d.handles heap := fun d hd =>
    hk.mono (handles_subset c.roots hd)
  refine ⟨⟨hc.calm, hc.ended, htidy, fun d hd => (hc.drafts d hd).keep (hkd d hd), hc.linked⟩,
    ⟨?_, ?_, le_rfl⟩⟩
  · change (c.draft.pool c.heap).Le (c.draft.pool heap)
    rw [hc.draft.pool_keep (hkd _ List.mem_cons_self)]
    exact .refl _
  · refine List.forall₂_same.2 fun d hd => ?_
    exact (hc.drafts d (List.mem_cons_of_mem _ hd)).waits (hkd d (List.mem_cons_of_mem _ hd))

theorem intern_does (s : String) :
    Does (intern s) c fun h c' => c.Stays c' ∧ c'.heap.IsString h := by
  intro hc _
  obtain ⟨hs, hl⟩ := sound_keep hc (Heap.tidy_intern hc.tidy _ s)
    (Heap.keeps_intern hc.tidy (Compiler.handles c.roots c.draft c.enclosing) s)
  exact ⟨hs, hl, ⟨⟨rfl, rfl, rfl, rfl⟩, rfl⟩, Heap.isString_intern hc.tidy _ s⟩

/-- A change of the innermost draft that keeps its constants and captured variables. -/
theorem modifyDraft_does {f : Draft → Draft} {d : Draft} (hd : f c.draft = d)
    (hname : d.name = c.draft.name) (hconstants : d.chunk.constants = c.draft.chunk.constants)
    (hcaptures : d.captures = c.draft.captures) (hcount : d.upvalueCount = c.draft.upvalueCount)
    (hlocals : d.locals.length ≤ byteCount) :
    Does (modifyDraft f) c fun _ c' => c' = { c with draft := d } ∧ c'.pool = c.pool := by
  subst hd
  intro hc _
  have hpool : (f c.draft).pool c.heap = c.draft.pool c.heap := by
    simp [Draft.pool, Draft.function, Function.pool, hconstants, hcount]
  have hdraft := hc.draft
  refine ⟨⟨hc.calm, hc.ended, hc.tidy, fun d hd => ?_, Linked.congr hc.linked hcaptures⟩,
    ⟨?_, Compiler.forall₂_waits_refl, le_rfl⟩, rfl, hpool⟩
  · rcases List.mem_cons.1 hd with rfl | hd
    · refine ⟨fun n hn => hdraft.name n ?_, fun x hx => hdraft.constants x ?_, hlocals, ?_, ?_⟩
      · rw [← hname]
        exact hn
      · rw [← hconstants]
        exact hx
      · change (f c.draft).captures.size ≤ byteCount
        rw [hcaptures]
        exact hdraft.captures_size
      · change (f c.draft).upvalueCount = (f c.draft).captures.size
        rw [hcount, hcaptures]
        exact hdraft.counted
    · exact hc.drafts d (List.mem_cons_of_mem _ hd)
  · change (c.draft.pool c.heap).Le ((f c.draft).pool c.heap)
    rw [hpool]
    exact .refl _

/-- A constant is added. -/
theorem addConstant_does (v : Value)
    (hv : ∀ x, v = .obj x → ¬c.heap.IsString x → c.heap.Compiled x) :
    Does (modifyChunk (·.addConstant v)) c fun _ c' => c.Stays c' ∧
      c'.pool.constants[c.draft.chunk.constants.size]? = some (c.heap.constantKind v) := by
  intro hc _
  have hdraft := hc.draft
  have hpool : ({ c.draft with chunk := c.draft.chunk.addConstant v } : Draft).pool c.heap =
      ⟨(c.draft.pool c.heap).constants ++ [c.heap.constantKind v], c.draft.upvalueCount⟩ := by
    simp [Draft.pool, Draft.function, Function.pool, Chunk.addConstant]
  refine ⟨⟨hc.calm, hc.ended, hc.tidy, fun d hd => ?_, Linked.congr hc.linked rfl⟩,
    ⟨?_, Compiler.forall₂_waits_refl, le_rfl⟩, ⟨⟨rfl, rfl, rfl, rfl⟩, rfl⟩, ?_⟩
  · rcases List.mem_cons.1 hd with rfl | hd
    · refine ⟨hdraft.name, fun x hx hs => ?_, hdraft.locals_length, hdraft.captures_size, hdraft.counted⟩
      rcases Array.mem_push.1 hx with hx | hx
      · exact hdraft.constants x hx hs
      · exact hv x hx.symm hs
    · exact hc.drafts d (List.mem_cons_of_mem _ hd)
  · change (c.draft.pool c.heap).Le
      (({ c.draft with chunk := c.draft.chunk.addConstant v } : Draft).pool c.heap)
    rw [hpool]
    exact ⟨List.prefix_append _ _, le_rfl⟩
  · change (({ c.draft with chunk := c.draft.chunk.addConstant v } : Draft).pool
      c.heap).constants[c.draft.chunk.constants.size]? = _
    rw [hpool]
    simp [Draft.pool, Draft.function, Function.pool]

theorem makeConstant_does (v : Value)
    (hv : ∀ x, v = .obj x → ¬c.heap.IsString x → c.heap.Compiled x) :
    Does (makeConstant v) c fun i c' =>
      c.Stays c' ∧ c'.pool.constants[i.toNat]? = some (c.heap.constantKind v) := by
  unfold makeConstant
  refine .get ?_
  refine (addConstant_does v hv).bind fun _ c₂ _ _ h => ?_
  refine .ite (fun _ => .error_bind) fun hlt => .pure ⟨h.1, ?_⟩
  rw [UInt8.toNat_ofNat_of_lt' (by simpa [byteCount] using hlt)]
  exact h.2

theorem nameConstant_does (name : String) :
    Does (nameConstant name) c fun i c' =>
      c.Stays c' ∧ c'.pool.constants[i.toNat]? = some .string := by
  unfold nameConstant
  refine (intern_does name).bind fun h c₁ _ _ h₁ => ?_
  refine (makeConstant_does (.obj h) fun x hx hs => ?_).mono fun i c₂ _ _ h₂ => ?_
  · cases hx
    exact absurd h₁.2 hs
  · exact ⟨h₁.1.trans h₂.1, by rw [h₂.2, Heap.constantKind_of_isString h₁.2]⟩

end Compile

/-! ## Writing code -/

/-- Bytes of the line of the token read last are written at the end of the code. -/
structure Compiler.Writes (c : Compiler) (bytes : List UInt8) (c' : Compiler) : Prop extends
    c.Within c' where
  previous : c'.previous = c.previous
  written : c'.draft.chunk.written = c.draft.chunk.written.write bytes c.previous.line
  pool : c'.pool = c.pool

theorem Compiler.Writes.code {bytes : List UInt8} (h : c.Writes bytes c') :
    c'.draft.chunk.code = c.draft.chunk.code ++ bytes.toArray := congrArg Written.code h.written

theorem Compiler.Writes.trans {c₁ c₂ c₃ : Compiler} {bytes bytes' : List UInt8}
    (h : c₁.Writes bytes c₂) (h' : c₂.Writes bytes' c₃) : c₁.Writes (bytes ++ bytes') c₃ := by
  refine ⟨h.toWithin.trans h'.toWithin, h'.previous.trans h.previous, ?_, h'.pool.trans h.pool⟩
  rw [h'.written, h.written, h.previous, Written.write_write]

/-- An instruction that is neither a jump nor a closure nor a return. -/
theorem Compiler.Writes.plain {op : Opcode} {args : List UInt8} {n : Nat}
    (h : c.Writes (op.toByte :: args) c') (hoperand : c.pool.Operand op s args n)
    (henough : op.needs n ≤ s.length)
    (hclear : op ≠ .closeUpvalue → ∀ b ∈ s.take (op.pops n), b = false) :
    c.Moves c' (some s) (some (op.effect n s)) := by
  intro sketch hlaid
  unfold Compiler.Laid
  rw [h.written, h.pool]
  exact hlaid.plain hoperand henough hclear

theorem Compiler.Writes.ret (h : c.Writes [Opcode.ret.toByte] c')
    (hclear : s.head? = some false) :
    c.Moves c' (some s) none := by
  intro sketch hlaid
  unfold Compiler.Laid
  rw [h.written, h.pool]
  exact WellLaid.ret hlaid hclear

theorem Compiler.Writes.jump (h : c.Writes [Opcode.jump.toByte, 0xff, 0xff] c') {sketch : Sketch}
    (hlaid : c.Laid sketch (some s)) : c'.Laid (sketch.hole ⟨c.size, s⟩) none := by
  unfold Compiler.Laid
  rw [h.written, h.pool]
  exact WellLaid.jump hlaid 0xff 0xff

theorem Compiler.Writes.jumpIfFalse (h : c.Writes [Opcode.jumpIfFalse.toByte, 0xff, 0xff] c')
    {sketch : Sketch} (hlaid : c.Laid sketch (some s)) (hs : 0 < s.length) :
    c'.Laid (sketch.hole ⟨c.size, s⟩) (some s) := by
  unfold Compiler.Laid
  rw [h.written, h.pool]
  exact WellLaid.jumpIfFalse hlaid hs 0xff 0xff

/-- The jump at `o` is let go to the end of the code, so that its distance is no longer open. -/
structure Compiler.Patches (c : Compiler) (o : Nat) (c' : Compiler) : Prop extends
    c.Within c' where
  patch : ∀ (sketch : Sketch) (holes : List Point) (s s' : Shape),
    c.Laid sketch (some s') → ⟨o, s⟩ ∈ sketch.holes →
    (∀ p ∈ sketch.holes, p ≠ ⟨o, s⟩ → p ∈ holes) → (∀ p ∈ holes, p ∈ sketch.holes) → s.Le s' →
    c'.Laid { sketch with holes } (some s')

/-- The jump that was written last is patched. -/
theorem Compiler.Patches.last {o : Nat} (h : c.Patches o c') {sketch : Sketch}
    (hlaid : c.Laid (sketch.hole ⟨o, s⟩) (some s')) (hle : s.Le s') : c'.Laid sketch (some s') :=
  h.patch (sketch.hole ⟨o, s⟩) sketch.holes s s' hlaid List.mem_cons_self
    (fun _ hp hne => (List.mem_cons.1 hp).resolve_left hne)
    (fun _ hp => List.mem_cons_of_mem _ hp) hle

/-- The jump before the one that was written last is patched. -/
theorem Compiler.Patches.previous {o : Nat} {p : Point} (h : c.Patches o c') {sketch : Sketch}
    (hlaid : c.Laid ((sketch.hole ⟨o, s⟩).hole p) (some s')) (hle : s.Le s') :
    c'.Laid (sketch.hole p) (some s') := by
  refine h.patch ((sketch.hole ⟨o, s⟩).hole p) (p :: sketch.holes) s s' hlaid
    (List.mem_cons_of_mem _ List.mem_cons_self) (fun q hq hne => ?_) (fun q hq => ?_) hle
  · rcases List.mem_cons.1 hq with rfl | hq
    · exact List.mem_cons_self
    · exact List.mem_cons_of_mem _ ((List.mem_cons.1 hq).resolve_left hne)
  · rcases List.mem_cons.1 hq with rfl | hq
    · exact List.mem_cons_self
    · exact List.mem_cons_of_mem _ (List.mem_cons_of_mem _ hq)

namespace Compile

theorem emitByte_does (byte : UInt8) : Does (emitByte byte) c fun _ c' => c.Writes [byte] c' := by
  intro hc
  refine Does.get (Does.mono (modifyDraft_does rfl rfl rfl rfl rfl hc.draft.locals_length)
    fun _ c₂ _ _ h => ?_) hc
  obtain ⟨rfl, hpool⟩ := h
  exact ⟨⟨rfl, rfl, rfl, rfl⟩, rfl, by simp [Chunk.write, Chunk.written, Written.write], hpool⟩

theorem emit_does (op : Opcode) : Does (emit op) c fun _ c' => c.Writes [op.toByte] c' :=
  emitByte_does op.toByte

theorem emitWith_does (op : Opcode) (byte : UInt8) :
    Does (emitWith op byte) c fun _ c' => c.Writes [op.toByte, byte] c' := by
  unfold emitWith
  refine (emit_does op).bind fun _ c₁ _ _ h₁ => ?_
  exact (emitByte_does byte).mono fun _ c₂ _ _ h₂ => h₁.trans h₂

theorem codeSize_does : Does codeSize c fun n c' => c' = c ∧ n = c.size :=
  .get (.pure ⟨rfl, rfl⟩)

theorem emitConstant_does (v : Value)
    (hv : ∀ x, v = .obj x → ¬c.heap.IsString x → c.heap.Compiled x) :
    Does (emitConstant v) c fun _ c' =>
      c.Within c' ∧ ∀ s, c.Moves c' (some s) (some (false :: s)) := by
  unfold emitConstant
  refine (makeConstant_does v hv).bind fun i c₁ _ hl₁ h₁ => ?_
  refine (emitWith_does .constant i).mono fun _ c₂ _ _ h₂ => ?_
  refine ⟨h₁.1.toWithin.trans h₂.toWithin, fun s => (h₁.1.moves hl₁ _).trans ?_⟩
  refine h₂.plain (n := 0) ⟨rfl, ?_⟩ (Nat.zero_le _) (by simp [Opcode.pops])
  exact (List.getElem?_eq_some_iff.1 h₁.2).1

/-- Returning without a value. -/
theorem emitReturn_does : Does emitReturn c fun _ c' =>
    c.Within c' ∧ ∀ s : Shape, 0 < s.length → c.Moves c' (some s) none := by
  have hret : ∀ c₁ : Compiler, c.Within c₁ →
      (∀ s : Shape, 0 < s.length → c.Moves c₁ (some s) (some (false :: s))) →
      Does (emit .ret) c₁ fun _ c' =>
        c.Within c' ∧ ∀ s : Shape, 0 < s.length → c.Moves c' (some s) none := by
    intro c₁ hwithin hmoves
    refine (emit_does .ret).mono fun _ c₂ _ _ h₂ => ?_
    exact ⟨hwithin.trans h₂.toWithin, fun s hs => (hmoves s hs).trans (h₂.ret (by simp))⟩
  unfold emitReturn
  refine .get ?_
  refine .ite (fun _ => ?_) fun _ => ?_
  · refine (emitWith_does .getLocal 0).bind fun _ c₁ _ _ h₁ => hret c₁ h₁.toWithin fun s hs => ?_
    exact h₁.plain (n := 0) ⟨hs, rfl⟩ (Nat.zero_le _) (by simp [Opcode.pops])
  · refine (emit_does .pushNil).bind fun _ c₁ _ _ h₁ => hret c₁ h₁.toWithin fun s _ => ?_
    exact h₁.plain (n := 0) ⟨by simp, rfl⟩ (Nat.zero_le _) (by simp [Opcode.pops])

/-! ## Jumps -/

/-- A forward jump is written without a distance. -/
theorem emitJump_does (op : Opcode) : Does (emitJump op) c fun o c' =>
    o = c.size + 1 ∧ c.Writes [op.toByte, 0xff, 0xff] c' := by
  unfold emitJump
  refine (emit_does op).bind fun _ c₁ _ _ h₁ => ?_
  refine (emitByte_does 0xff).bind fun _ c₂ _ _ h₂ => ?_
  refine (emitByte_does 0xff).bind fun _ c₃ _ _ h₃ => ?_
  have hwrites := (h₁.trans h₂).trans h₃
  refine codeSize_does.bind fun n c₄ _ _ h₄ => ?_
  obtain ⟨rfl, rfl⟩ := h₄
  refine .pure ⟨?_, hwrites⟩
  simp only [Compiler.size, hwrites.code]
  simp

theorem patchJump_does (o : Nat) : Does (patchJump (o + 1)) c fun _ c' => c.Patches o c' := by
  intro hc
  refine Does.bind codeSize_does (fun n c₁ _ _ h => ?_) hc
  obtain ⟨rfl, rfl⟩ := h
  refine .ite (fun _ => .error_bind) fun hle => ?_
  have hmin : min (c₁.size - (o + 1) - 2) maxJump = c₁.size - (o + 1) - 2 := by omega
  rw [hmin]
  refine Does.mono (modifyDraft_does rfl rfl rfl rfl rfl hc.draft.locals_length) fun _ c₂ _ _ h => ?_
  obtain ⟨rfl, hpool⟩ := h
  refine ⟨⟨rfl, rfl, rfl, rfl⟩, fun sketch holes s s' hlaid hhole hrest hsub hle' => ?_⟩
  have hinside : o + 3 ≤ c₁.size := by
    obtain ⟨layout, hlays⟩ := hlaid
    exact (hlays.holes _ hhole).2.1.inside
  unfold Compiler.Laid
  rw [hpool]
  refine hlaid.patch hhole hrest hsub hle' ?_ ?_
  · simp only [maxJump] at hle
    omega
  · change o + 3 + (c₁.size - (o + 1) - 2) = c₁.size
    omega

/-- A jump back is written. Code after it is not reached from it. -/
theorem emitLoop_does (start : Nat) : Does (emitLoop start) c fun _ c' =>
    c.Within c' ∧ ∀ (sketch : Sketch) (s s' : Shape), c.Laid sketch (some s) →
      ⟨start, s'⟩ ∈ sketch.labels → s.Le s' → c'.Laid sketch none := by
  unfold emitLoop
  refine (emit_does .loop).bind fun _ c₁ _ _ h₁ => ?_
  refine codeSize_does.bind fun n c₂ _ _ h₂ => ?_
  obtain ⟨rfl, rfl⟩ := h₂
  refine .ite (fun _ => .error_bind) fun hle => ?_
  have hmin : min (c₂.size - start + 2) maxJump = c₂.size - start + 2 := by omega
  dsimp only
  rw [hmin]
  refine (emitByte_does _).bind fun _ c₃ _ _ h₃ => ?_
  refine (emitByte_does _).mono fun _ c₄ _ _ h₄ => ?_
  have hwrites := (h₁.trans h₃).trans h₄
  refine ⟨hwrites.toWithin, fun sketch s s' hlaid hlabel hle' => ?_⟩
  have hsize : c₂.size = c.size + 1 := by simp [Compiler.size, h₁.code]
  have hstart : start ≤ c.size := by
    obtain ⟨layout, hlays⟩ := hlaid
    obtain ⟨s₁, hs₁, -⟩ := hlays.labels _ hlabel
    by_contra hgt
    rw [hlays.above start (by change c.size < start; omega)] at hs₁
    cases hs₁
  unfold Compiler.Laid
  rw [hwrites.written, hwrites.pool]
  refine WellLaid.loop hlaid hlabel hle' ?_ ?_
  · simp only [maxJump] at hle
    omega
  · change start + (c₂.size - start + 2) = c.size + 3
    omega

end Compile

end LoxMachine
